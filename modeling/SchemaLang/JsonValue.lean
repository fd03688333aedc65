/-!
# JSON documents

The documents that reports are written as, and their text: two blanks for
each level, one element or member on a line.
-/

set_option autoImplicit false

namespace SchemaLang

inductive JsonValue where
  | null
  | bool (b : Bool)
  | number (n : Nat)
  | string (s : String)
  | array (elements : List JsonValue)
  | object (members : List (String × JsonValue))

namespace JsonValue

def ofOption {α : Type} (encode : α → JsonValue) : Option α → JsonValue
  | some a => encode a
  | none => null

def ofList {α : Type} (encode : α → JsonValue) (as : List α) : JsonValue := array (as.map encode)

def hex4 (n : Nat) : List Char :=
  let digits := Nat.toDigits 16 n
  List.replicate (4 - digits.length) '0' ++ digits

def escape (c : Char) : List Char :=
  match c with
  | '"' => ['\\', '"']
  | '\\' => ['\\', '\\']
  | '\n' => ['\\', 'n']
  | '\r' => ['\\', 'r']
  | '\t' => ['\\', 't']
  | '\x08' => ['\\', 'b']
  | '\x0c' => ['\\', 'f']
  | c => if c.toNat < 0x20 then ['\\', 'u'] ++ hex4 c.toNat else [c]

def literal (s : String) : String := String.ofList ('"' :: s.toList.flatMap escape ++ ['"'])

def indent (depth : Nat) : String := "\n" ++ String.ofList (List.replicate (2 * depth) ' ')

mutual

def render (depth : Nat) : JsonValue → String
  | null => "null"
  | bool b => if b then "true" else "false"
  | number n => toString n
  | string s => literal s
  | array [] => "[]"
  | array (e :: es) =>
    "[" ++ indent (depth + 1) ++ render (depth + 1) e ++ renderElements (depth + 1) es ++
      indent depth ++ "]"
  | object [] => "\x7b\x7d"
  | object ((k, v) :: ms) =>
    "\x7b" ++ indent (depth + 1) ++ literal k ++ ": " ++ render (depth + 1) v ++
      renderMembers (depth + 1) ms ++ indent depth ++ "\x7d"

def renderElements (depth : Nat) : List JsonValue → String
  | [] => ""
  | e :: es => "," ++ indent depth ++ render depth e ++ renderElements depth es

def renderMembers (depth : Nat) : List (String × JsonValue) → String
  | [] => ""
  | (k, v) :: ms =>
    "," ++ indent depth ++ literal k ++ ": " ++ render depth v ++ renderMembers depth ms

end

def pretty (v : JsonValue) : String := v.render 0

end JsonValue

end SchemaLang
