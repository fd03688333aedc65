/-!
# Decimal digits

Reading a row of decimal digits as a number, with a bound that the number has
to stay below. Leading zeros do not count.
-/

set_option autoImplicit false

namespace SchemaLang.Text

def isDigits (cs : List Char) : Bool := !cs.isEmpty && cs.all Char.isDigit

def digitsValue (cs : List Char) : Nat :=
  cs.foldl (fun n c => 10 * n + (c.toNat - '0'.toNat)) 0

def number? (bound : Nat) (s : String) : Option Nat :=
  let cs := s.toList
  if isDigits cs && digitsValue cs < bound then some (digitsValue cs) else none

theorem lt_of_number?_eq_some (bound : Nat) (s : String) (n : Nat) (h : number? bound s = some n) :
    n < bound := by
  simp only [number?] at h
  split at h
  · simp_all
  · simp at h

end SchemaLang.Text
