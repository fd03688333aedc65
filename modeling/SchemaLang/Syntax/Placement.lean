import SchemaLang.Lexeme
import SchemaLang.Syntax.Fault
import SchemaLang.Syntax.Forest
import SchemaLang.Text.Span

/-!
# Placing a parsed row in its text

Parsing looks at significant lexemes only. Blanks and comments join the row
afterwards: those in front of a construct stand before it, those between the
lexemes of a construct inside it, and those in front of skipped lexemes with
them, so that an empty fault sits right behind what precedes it. A walk from
left to right then gives every node its number, in the order of first
visits, and its range, which starts at its first significant lexeme.
-/

set_option autoImplicit false

namespace SchemaLang

def leadingTrivia (ls : List Lexeme) : List Lexeme := ls.takeWhile Lexeme.isTrivia

def afterTrivia (ls : List Lexeme) : List Lexeme := ls.dropWhile Lexeme.isTrivia

def attach : Forest Shape Lexeme → List Lexeme → Forest Shape Lexeme × List Lexeme
  | .nil, all => (.nil, all)
  | .leaf t next, all =>
    let (row, rest) := attach next (afterTrivia all).tail
    (.ofTokens (leadingTrivia all) ++ .leaf t row, rest)
  | .node (.construct kind complete) inside next, all =>
    let (held, rest) := attach inside (afterTrivia all)
    let (row, rest) := attach next rest
    (.ofTokens (leadingTrivia all) ++ .node (.construct kind complete) held row, rest)
  | .node (.skipped fault) inside next, all =>
    let (held, rest) := attach inside all
    let (row, rest) := attach next rest
    (.node (.skipped fault) held row, rest)

def attachAll (row : Forest Shape Lexeme) (all : List Lexeme) : Forest Shape Lexeme :=
  let (placed, rest) := attach row all
  placed ++ .ofTokens rest

structure Mark where
  id : Nat
  shape : Shape
  span : Span
  deriving DecidableEq

structure Located where
  row : Forest Mark Token
  stop : Nat
  nextId : Nat

def leadingSize : Forest Shape Lexeme → Nat
  | .leaf t next => if t.isTrivia then t.size + leadingSize next else 0
  | _ => 0

def locate : Forest Shape Lexeme → Nat → Nat → Located
  | .nil, offset, id => ⟨.nil, offset, id⟩
  | .leaf t next, offset, id =>
    let r := locate next (offset + t.size) id
    ⟨.leaf ⟨t.kind, t.text, offset⟩ r.row, r.stop, r.nextId⟩
  | .node shape inside next, offset, id =>
    let held := locate inside offset (id + 1)
    let r := locate next held.stop held.nextId
    ⟨.node ⟨id, shape, offset + leadingSize inside, held.stop⟩ held.row r.row, r.stop, r.nextId⟩

theorem leaves_locate (row : Forest Shape Lexeme) (offset id : Nat) :
    (locate row offset id).row.leaves = tokensFrom offset row.leaves ∧
      (locate row offset id).stop = offset + totalSize row.leaves := by
  induction row generalizing offset id with
  | nil => exact ⟨rfl, rfl⟩
  | leaf t next ih =>
    simp only [locate, Forest.leaves, tokensFrom, totalSize, (ih _ _).1, (ih _ _).2]
    exact ⟨trivial, by omega⟩
  | node shape inside next ihi ihn =>
    simp only [locate, Forest.leaves, tokensFrom_append, totalSize_append, (ihi _ _).1,
      (ihi _ _).2, (ihn _ _).1, (ihn _ _).2]
    exact ⟨trivial, by omega⟩

theorem nextId_locate (row : Forest Shape Lexeme) (offset id : Nat) :
    (locate row offset id).nextId = id + row.nodeCount := by
  induction row generalizing offset id with
  | nil => rfl
  | leaf t next ih => simp only [locate, Forest.nodeCount, ih]
  | node shape inside next ihi ihn =>
    simp only [locate, Forest.nodeCount, ihi, ihn]
    omega

end SchemaLang
