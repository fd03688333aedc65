/-!
# Splitting a text

Pieces between separators, empty ones included: a text without a separator is
one piece, and the empty text is one empty piece.
-/

set_option autoImplicit false

namespace SchemaLang.Text

def split (separator : Char) (s : String) : List String :=
  (s.toList.splitOn separator).map String.ofList

/-- The lines of a text. A line ends at a line feed, the carriage return in
front of it belongs to the ending, and there is no line after the last ending. -/
def lines (s : String) : List String :=
  let pieces := s.toList.splitOn '\n'
  let ended := pieces.dropLast.map fun line =>
    if line.getLast? = some '\r' then line.dropLast else line
  let unended := (pieces.getLast?.toList).filter (· ≠ [])
  (ended ++ unended).map String.ofList

end SchemaLang.Text
