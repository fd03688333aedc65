/-!
# Places in YAML texts

A cursor is the rest of a text and where it starts. Line breaks have five
forms. Inside a scalar they read as a line feed, save for the line and the
paragraph separator, which read as themselves.
-/

set_option autoImplicit false

namespace SchemaLang.Yaml

def isBlank (x : Char) : Bool := x == ' ' || x == '\t'

def isSeparator (x : Char) : Bool := x == '\u2028' || x == '\u2029'

def isBreak (x : Char) : Bool := x == '\n' || x == '\r' || x == '\x85' || isSeparator x

def isSpace (x : Char) : Bool := isBlank x || isBreak x

def isFlowMark (x : Char) : Bool := ",[]\x7b\x7d".toList.contains x

def isNameChar (x : Char) : Bool := x.isAlphanum || x == '_' || x == '-'

def hexDigit? (x : Char) : Option Nat :=
  if x.isDigit then some (x.toNat - '0'.toNat)
  else if 'a' ≤ x.toLower && x.toLower ≤ 'f' then some (x.toLower.toNat - 'a'.toNat + 10)
  else none

structure Cursor where
  rest : List Char
  index : Nat := 0
  line : Nat := 0
  column : Nat := 0

namespace Cursor

def at? (c : Cursor) (n : Nat) : Option Char := c.rest[n]?

def isAt (c : Cursor) (x : Char) : Bool := c.rest.head? == some x

def spaceAt (c : Cursor) (n : Nat) : Bool := (c.at? n).all isSpace

def atLineEnd (c : Cursor) : Bool := c.rest.head?.all isBreak

def skip (c : Cursor) (n : Nat) : Cursor :=
  { c with rest := c.rest.drop n, index := c.index + n, column := c.column + n }

def skipWhile (c : Cursor) (p : Char → Bool) : Cursor := c.skip (c.rest.takeWhile p).length

def skipComment (c : Cursor) : Cursor :=
  if c.isAt '#' then c.skipWhile (fun x => !isBreak x) else c

def takeBreak (c : Cursor) : List Char × Cursor :=
  match c.rest with
  | '\r' :: '\n' :: below => (['\n'], ⟨below, c.index + 2, c.line + 1, 0⟩)
  | x :: below =>
    if isBreak x then
      ([if isSeparator x then x else '\n'], ⟨below, c.index + 1, c.line + 1, 0⟩)
    else ([], c)
  | [] => ([], c)

def skipLineEnd? (c : Cursor) : Option Cursor :=
  let c := (c.skipWhile isBlank).skipComment
  if c.atLineEnd then some c.takeBreak.2 else none

def atMark (c : Cursor) (x : Char) : Bool :=
  c.column == 0 && c.rest.take 3 == [x, x, x] && c.spaceAt 3

def atDocumentMark (c : Cursor) : Bool := c.atMark '-' || c.atMark '.'

end Cursor

end SchemaLang.Yaml
