/-!
# Byte ranges

A span is a range of bytes of a source text. Spans made by users may be
reversed; a reversed span is empty.
-/

set_option autoImplicit false

namespace SchemaLang

structure Span where
  start : Nat
  stop : Nat
  deriving DecidableEq

namespace Span

def length (s : Span) : Nat := s.stop - s.start

def isEmpty (s : Span) : Bool := s.stop ≤ s.start

def contains (s : Span) (offset : Nat) : Bool := s.start ≤ offset && offset < s.stop

end Span

end SchemaLang
