import SchemaLang.SystemPath
import SchemaLang.Text.Whitespace

/-!
# Search roots

The directories below which imports are looked for, in order. They are added
one by one, and of paths that are equal by parts the first one stays; a list
that came about in another way may have more of them. They are kept as text
with one path on a line.
-/

set_option autoImplicit false

namespace SchemaLang

/-- What a list of roots asks of its paths. -/
class RootPath (π : Type) where
  same : π → π → Bool
  join : π → π → π
  ofText : String → π
  display : π → String

instance : RootPath Path := ⟨Path.same, Path.join, Path.mk, Path.spelling⟩

instance : RootPath SystemPath :=
  ⟨SystemPath.same, SystemPath.join, SystemPath.ofText, SystemPath.display⟩

@[ext]
structure RootList (π : Type) where
  paths : List π

namespace RootList

variable {π : Type}

def empty : RootList π := ⟨[]⟩

def length (r : RootList π) : Nat := r.paths.length

def isEmpty (r : RootList π) : Bool := r.paths.isEmpty

variable [RootPath π]

def contains (r : RootList π) (p : π) : Bool := r.paths.any (RootPath.same · p)

def push (r : RootList π) (p : π) : RootList π :=
  if r.contains p then r else ⟨r.paths ++ [p]⟩

theorem push_of_contains {r : RootList π} {p : π} (h : r.contains p = true) : r.push p = r := by
  simp [push, h]

theorem push_of_not_contains {r : RootList π} {p : π} (h : r.contains p = false) :
    r.push p = ⟨r.paths ++ [p]⟩ := by
  simp [push, h]

def add (r : RootList π) (p : π) : Bool × RootList π :=
  if r.contains p then (false, r) else (true, r.push p)

def ofList (ps : List π) : RootList π := ps.foldl push empty

def parse (text : String) : RootList π :=
  ofList (((Text.lines text).map Text.trim).filterMap fun line =>
    if line = "" then none else some (RootPath.ofText line))

def format (r : RootList π) : String := "\n".intercalate (r.paths.map RootPath.display)

def relativeTo (r : RootList π) (base : π) : RootList π :=
  ofList (r.paths.map (RootPath.join base))

end RootList

abbrev SearchRoots := RootList Path

def SearchRoots.parse (text : String) : SearchRoots := RootList.parse text

end SchemaLang
