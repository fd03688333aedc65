/-!
# Texts in bytes

Characters in their UTF-8 form, and bytes read as text. Where no character
begins, the bytes that go along with one until it is broken off are passed
over together, and one replacement character stands for them.
-/

set_option autoImplicit false

namespace SchemaLang.Text

def encode (cs : List Char) : List UInt8 := cs.flatMap String.utf8EncodeChar

/-- Whether a byte can stand second in a character of three bytes or four. -/
def goesOn (first second : UInt8) : Bool :=
  let least : UInt8 := if first = 0xE0 then 0xA0 else if first = 0xF0 then 0x90 else 0x80
  let greatest : UInt8 := if first = 0xED then 0x9F else if first = 0xF4 then 0x8F else 0xBF
  0xE0 ≤ first && first ≤ 0xF4 && least ≤ second && second ≤ greatest

def brokenLength : List UInt8 → Nat
  | first :: second :: rest =>
    if goesOn first second then
      if 0xF0 ≤ first && rest.head?.any fun third => 0x80 ≤ third && third ≤ 0xBF then 3 else 2
    else 1
  | _ => 1

def decode : Nat → List UInt8 → List Char
  | _, [] => []
  | skip + 1, _ :: bytes => decode skip bytes
  | 0, byte :: bytes =>
    match (byte :: bytes).toByteArray.utf8DecodeChar? 0 with
    | some c => c :: decode (c.utf8Size - 1) bytes
    | none => '\uFFFD' :: decode (brokenLength (byte :: bytes) - 1) bytes

end SchemaLang.Text
