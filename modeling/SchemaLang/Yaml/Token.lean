import SchemaLang.Yaml.Cursor

/-!
# Tokens of YAML texts

Blocks have tokens for their start and end, though only the columns of the
text show them. This module also reads the tokens that say something of a
node or a document: anchors, aliases, tags and directives.
-/

set_option autoImplicit false

namespace SchemaLang.Yaml

inductive Token where
  | streamEnd
  | version (major minor : Nat)
  | handle (name : String)
  | documentStart
  | documentEnd
  | blockSequenceStart
  | blockMappingStart
  | blockEnd
  | flowSequenceStart
  | flowSequenceEnd
  | flowMappingStart
  | flowMappingEnd
  | blockEntry
  | flowEntry
  | key
  | value
  | anchor (name : String)
  | aliasOf (name : String)
  | tag (handle : String)
  | scalar (plain : Bool) (text : String)
  deriving DecidableEq

/-! ## Anchors and aliases -/

def name? (c : Cursor) : Option (String × Cursor) :=
  let name := c.rest.takeWhile isNameChar
  let c := c.skip name.length
  if !name.isEmpty && (c.spaceAt 0 || (c.at? 0).any (fun x => "?:,]\x7d%@\x60".toList.contains x))
  then some (String.ofList name, c)
  else none

/-! ## Tags -/

def octet? : List Char → Option (Nat × List Char)
  | '%' :: high :: low :: rest => do
    some (16 * (← hexDigit? high) + (← hexDigit? low), rest)
  | _ => none

def octetCount? (first : Nat) : Option Nat :=
  if first < 0x80 then some 1
  else if first / 0x20 = 0x6 then some 2
  else if first / 0x10 = 0xE then some 3
  else if first / 0x8 = 0x1E then some 4
  else none

def skipOctets? (cs : List Char) : Option (List Char) := do
  let (first, rest) ← octet? cs
  (List.range ((← octetCount? first) - 1)).foldlM (fun rest _ => do
    let (next, rest) ← octet? rest
    if next / 0x40 = 0x2 then some rest else none) rest

def skipAddress? (fuel : Nat) (bracketed : Bool) (cs : List Char) : Option (List Char) :=
  match fuel with
  | 0 => none
  | fuel + 1 =>
    match cs with
    | '%' :: _ => do skipAddress? fuel bracketed (← skipOctets? cs)
    | x :: rest =>
      if isNameChar x || ";/?:@&=+$.!~*'()".toList.contains x ||
          (bracketed && ",[]".toList.contains x) then skipAddress? fuel bracketed rest
      else some cs
    | [] => some []

def address? (bracketed : Bool) (c : Cursor) : Option (Bool × Cursor) := do
  let rest ← skipAddress? (c.rest.length + 1) bracketed c.rest
  let width := c.rest.length - rest.length
  some (0 < width, c.skip width)

def handleText (cs : List Char) : List Char :=
  let letters := (cs.drop 1).takeWhile isNameChar
  let mark := ((cs.drop (1 + letters.length)).take 1).filter (· == '!')
  '!' :: letters ++ mark

def isHandle (text : List Char) : Bool := 1 < text.length && text.getLast? == some '!'

def tag? (inFlow : Bool) (c : Cursor) : Option (Token × Cursor) := do
  let (handle, c) ←
    if c.at? 1 = some '<' then do
      let (found, c) ← address? true (c.skip 2)
      if found && c.isAt '>' then some ("!", c.skip 1) else none
    else do
      let text := handleText c.rest
      let (found, c) ← address? false (c.skip text.length)
      if isHandle text then if found then some (String.ofList text, c) else none
      else some ("!", c)
  if c.spaceAt 0 || (inFlow && c.isAt ',') then some (.tag handle, c) else none

/-! ## Directives -/

def versionPart? (c : Cursor) : Option (Nat × Cursor) :=
  let digits := c.rest.takeWhile Char.isDigit
  if digits.isEmpty || 9 < digits.length then none
  else some (digits.foldl (fun n d => 10 * n + (d.toNat - '0'.toNat)) 0, c.skip digits.length)

def version? (c : Cursor) : Option (Token × Cursor) := do
  let (major, c) ← versionPart? (c.skipWhile isBlank)
  if c.isAt '.' then
    let (minor, c) ← versionPart? (c.skip 1)
    some (.version major minor, c)
  else none

def handle? (c : Cursor) : Option (Token × Cursor) := do
  let c := c.skipWhile isBlank
  if !c.isAt '!' then none
  else
    let text := handleText c.rest
    let c := c.skip text.length
    if (text = ['!'] || isHandle text) && (c.at? 0).any isBlank then
      let (found, c) ← address? true (c.skipWhile isBlank)
      if found && c.spaceAt 0 then some (.handle (String.ofList text), c) else none
    else none

def directive? (c : Cursor) : Option (Token × Cursor) := do
  let c := c.skip 1
  let name := c.rest.takeWhile isNameChar
  let c := c.skip name.length
  if !c.spaceAt 0 then none
  else
    let (token, c) ←
      if name = "YAML".toList then version? c
      else if name = "TAG".toList then handle? c
      else none
    some (token, ← c.skipLineEnd?)

end SchemaLang.Yaml
