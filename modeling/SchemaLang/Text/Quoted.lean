import SchemaLang.Text.Visible

/-!
# Quoted texts

A quoted text stands between double quotes and on one line. Quotes and
backslashes have a backslash in front, four control characters have letters,
and every other character that cannot be seen is given by its number.
-/

set_option autoImplicit false

namespace SchemaLang.Text

def escape (c : Char) : List Char :=
  match c with
  | '"' => ['\\', '"']
  | '\\' => ['\\', '\\']
  | '\t' => ['\\', 't']
  | '\n' => ['\\', 'n']
  | '\r' => ['\\', 'r']
  | '\x00' => ['\\', '0']
  | c =>
    if isVisible c then [c]
    else ['\\', 'u', '\x7b'] ++ Nat.toDigits 16 c.toNat ++ ['\x7d']

def quoted (s : String) : String :=
  String.ofList ('"' :: s.toList.flatMap escape ++ ['"'])

end SchemaLang.Text
