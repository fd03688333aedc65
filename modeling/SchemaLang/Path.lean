import SchemaLang.Text.Split

/-!
# Paths

A path keeps the spelling it was made with and is compared by its parts:
repeated and trailing slashes and `.` parts do not count, save for a `.` at
the front of a relative path, and `..` is a part like any other.
-/

set_option autoImplicit false

namespace SchemaLang

inductive PathPart (τ : Type) where
  | root
  | here
  | up
  | name (text : τ)
  deriving DecidableEq

namespace PathPart

def ofPiece? : String → Option (PathPart String)
  | "" => none
  | "." => none
  | ".." => some up
  | text => some (name text)

def rank : PathPart String → Nat
  | root => 0
  | here => 1
  | up => 2
  | name _ => 3

def compare : PathPart String → PathPart String → Ordering
  | name a, name b => compareOfLessAndEq a b
  | a, b => compareOfLessAndEq a.rank b.rank

end PathPart

structure Path where
  spelling : String
  deriving DecidableEq

namespace Path

def isAbsolute (p : Path) : Bool := p.spelling.toList.head? == some '/'

def isRelative (p : Path) : Bool := !p.isAbsolute

def pieces (p : Path) : List String := Text.split '/' p.spelling

def parts (p : Path) : List (PathPart String) :=
  let front :=
    if p.isAbsolute then [PathPart.root]
    else if p.pieces.head? = some "." then [PathPart.here]
    else []
  front ++ p.pieces.filterMap PathPart.ofPiece?

def same (p q : Path) : Bool := p.parts == q.parts

theorem same_iff (p q : Path) : p.same q = true ↔ p.parts = q.parts := by
  simp [same]

def comparePartLists : List (PathPart String) → List (PathPart String) → Ordering
  | [], [] => .eq
  | [], _ :: _ => .lt
  | _ :: _, [] => .gt
  | a :: as, b :: bs => (a.compare b).then (comparePartLists as bs)

def compare (p q : Path) : Ordering := comparePartLists p.parts q.parts

def startsWith (p q : Path) : Bool := q.parts.isPrefixOf p.parts

/-- An absolute path replaces the one it is joined to; otherwise one slash
stands between the two, unless there is one already. -/
def join (p : Path) (q : Path) : Path :=
  if q.isAbsolute then q
  else if p.spelling = "" || p.spelling.toList.getLast? == some '/' then
    ⟨p.spelling ++ q.spelling⟩
  else ⟨p.spelling ++ "/" ++ q.spelling⟩

def joinName (p : Path) (name : String) : Path := p.join ⟨name⟩

/-- The path without its last part, if it has one that can be dropped. The
slashes and `.` pieces that then stand at the end go as well. -/
def parent? (p : Path) : Option Path :=
  let pieces := p.pieces
  let isFront := p.isAbsolute || pieces.head? == some "."
  let front := if p.isAbsolute then "/" else if isFront then "." else ""
  let body := if isFront then pieces.drop 1 else pieces
  let blank := fun (piece : String) => piece == "" || piece == "."
  match body.reverse.dropWhile blank with
  | _ :: before =>
    let kept := (before.dropWhile blank).reverse
    let rest := "/".intercalate kept
    some ⟨if front = "." && !kept.isEmpty then "./" ++ rest else front ++ rest⟩
  | [] => if front = "." then some ⟨""⟩ else none

def extension? (name : String) : Option String :=
  let back := name.toList.reverse
  match back.dropWhile (· != '.') with
  | _ :: _ :: _ => some (String.ofList (back.takeWhile (· != '.')).reverse)
  | _ => none

end Path

end SchemaLang
