import SchemaLang.Text.Bytes
import SchemaLang.Text.Span

/-!
# Lines and columns

Positions for people: lines and columns count from one, and columns count
characters. A line break belongs to the line that it ends.
-/

set_option autoImplicit false

namespace SchemaLang

structure Position where
  line : Nat
  column : Nat
  deriving DecidableEq

namespace Position

def after (cs : List Char) : Position where
  line := 1 + cs.count '\n'
  column := 1 + (cs.reverse.takeWhile (· != '\n')).length

def ofOffset (source : String) (offset : Nat) : Position :=
  after (Text.charsBefore offset source.toList)

theorem after_append_newline (cs : List Char) :
    after (cs ++ ['\n']) = ⟨(after cs).line + 1, 1⟩ := by
  simp [after, List.count_append, Nat.add_assoc]

theorem after_append_of_ne (cs : List Char) (c : Char) (h : c ≠ '\n') :
    after (cs ++ [c]) = ⟨(after cs).line, (after cs).column + 1⟩ := by
  simp [after, List.count_append, h, Nat.add_comm]

end Position

structure LineSpan where
  start : Position
  stop : Position
  deriving DecidableEq

def LineSpan.ofSpan (source : String) (span : Span) : LineSpan :=
  ⟨.ofOffset source span.start, .ofOffset source span.stop⟩

namespace Text

/-- The pieces of a text that a line break ends, and what follows the last
break if there is anything. -/
def linesWithBreaks : List Char → List (List Char)
  | [] => []
  | c :: cs =>
    if c = '\n' then [c] :: linesWithBreaks cs
    else
      match linesWithBreaks cs with
      | [] => [[c]]
      | line :: rest => (c :: line) :: rest

theorem flatten_linesWithBreaks (cs : List Char) : (linesWithBreaks cs).flatten = cs := by
  induction cs with
  | nil => rfl
  | cons c cs ih =>
    simp only [linesWithBreaks]
    split
    · simp [ih]
    · split
      · next h => simp [h] at ih; simp [← ih]
      · next h => simp [h] at ih; simp [← ih]

end Text

def Position.offset? (source : String) (p : Position) : Option Nat :=
  let lines := Text.linesWithBreaks source.toList
  if p.line = 0 ∨ p.column = 0 then none
  else
    match lines[p.line - 1]? with
    | none => none
    | some line =>
      if p.column ≤ line.length + 1 then
        some (Text.byteSize (lines.take (p.line - 1)).flatten +
          Text.byteSize (line.take (p.column - 1)))
      else none

end SchemaLang
