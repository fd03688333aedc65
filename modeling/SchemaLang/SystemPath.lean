import SchemaLang.Path
import SchemaLang.Text.Utf8

/-!
# Paths in bytes

To the system a path is a row of bytes, and they need not be the bytes of a
text. Parts are told by the same rules as those of a text, and a path is shown
as the text that its bytes are read as.
-/

set_option autoImplicit false

namespace SchemaLang

structure SystemPath where
  bytes : List UInt8
  deriving DecidableEq

namespace SystemPath

def slash : UInt8 := 0x2F

def dot : UInt8 := 0x2E

def ofText (text : String) : SystemPath := ⟨Text.encode text.toList⟩

def display (p : SystemPath) : String := String.ofList (Text.decode 0 p.bytes)

def isAbsolute (p : SystemPath) : Bool := p.bytes.head? == some slash

def pieces (p : SystemPath) : List (List UInt8) := p.bytes.splitOn slash

def ofPiece? (piece : List UInt8) : Option (PathPart (List UInt8)) :=
  if piece = [] ∨ piece = [dot] then none
  else if piece = [dot, dot] then some .up
  else some (.name piece)

def parts (p : SystemPath) : List (PathPart (List UInt8)) :=
  let front :=
    if p.isAbsolute then [PathPart.root]
    else if p.pieces.head? = some [dot] then [PathPart.here]
    else []
  front ++ p.pieces.filterMap ofPiece?

def same (p q : SystemPath) : Bool := p.parts == q.parts

def join (p q : SystemPath) : SystemPath :=
  if q.isAbsolute then q
  else if p.bytes = [] || p.bytes.getLast? == some slash then ⟨p.bytes ++ q.bytes⟩
  else ⟨p.bytes ++ slash :: q.bytes⟩

end SystemPath

end SchemaLang
