/-!
# Byte offsets in a text

Offsets count the bytes of the UTF-8 form. An offset that falls inside a
character is moved back to where that character starts, so cutting a text
at offsets never splits a character.
-/

set_option autoImplicit false

namespace SchemaLang.Text

def byteSize : List Char → Nat
  | [] => 0
  | c :: cs => c.utf8Size + byteSize cs

theorem byteSize_append (cs ds : List Char) :
    byteSize (cs ++ ds) = byteSize cs + byteSize ds := by
  induction cs with
  | nil => simp [byteSize]
  | cons c cs ih => simp [byteSize, ih, Nat.add_assoc]

def floorBoundary : List Char → Nat → Nat
  | [], _ => 0
  | c :: cs, offset =>
    if c.utf8Size ≤ offset then c.utf8Size + floorBoundary cs (offset - c.utf8Size) else 0

theorem floorBoundary_le (cs : List Char) (offset : Nat) : floorBoundary cs offset ≤ offset := by
  induction cs generalizing offset with
  | nil => simp [floorBoundary]
  | cons c cs ih =>
    simp only [floorBoundary]
    split
    · have := ih (offset - c.utf8Size)
      omega
    · omega

def charsBefore : Nat → List Char → List Char
  | _, [] => []
  | offset, c :: cs => if offset = 0 then [] else c :: charsBefore (offset - c.utf8Size) cs

def charsFrom : Nat → List Char → List Char
  | _, [] => []
  | offset, c :: cs => if offset = 0 then c :: cs else charsFrom (offset - c.utf8Size) cs

theorem charsBefore_append_charsFrom (offset : Nat) (cs : List Char) :
    charsBefore offset cs ++ charsFrom offset cs = cs := by
  induction cs generalizing offset with
  | nil => rfl
  | cons c cs ih =>
    simp only [charsBefore, charsFrom]
    split
    · rfl
    · simp [ih]

def slice (source : String) (start stop : Nat) : String :=
  String.Pos.Raw.extract source ⟨start⟩ ⟨stop⟩

end SchemaLang.Text
