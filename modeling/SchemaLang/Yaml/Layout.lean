import SchemaLang.Yaml.Scalar
import SchemaLang.Yaml.Token

/-!
# The layout of YAML texts

A text is read into tokens from front to back. Columns open and close blocks:
a block opens where an item or entry stands further to the right than those of
the block around it, and closes before a token further to the left.

A node that starts where a key may stand is remembered. When a colon follows
it on its line, at most 1024 characters on, the token for a key is put in
front of it. The first node in the column of a block has to be a key, unless
it is marked otherwise.
-/

set_option autoImplicit false

namespace SchemaLang.Yaml

structure KeyStart where
  /-- how many tokens come before it -/
  place : Nat
  required : Bool
  start : Cursor

def KeyStart.isPassed (k : KeyStart) (c : Cursor) : Bool :=
  k.start.line < c.line || k.start.index + 1024 < c.index

structure Layout where
  tokens : Array Token := #[]
  /-- the first column right of the innermost block -/
  margin : Nat := 0
  /-- the margins of the blocks around it, from the inside out -/
  outerMargins : List Nat := []
  keyAllowed : Bool := true
  key? : Option KeyStart := none
  /-- one for each open flow collection, from the inside out -/
  outerKeys : List (Option KeyStart) := []

namespace Layout

def inFlow (l : Layout) : Bool := !l.outerKeys.isEmpty

def add (l : Layout) (token : Token) : Layout := { l with tokens := l.tokens.push token }

def insert (l : Layout) (place : Nat) (token : Token) : Layout :=
  let behind := l.tokens.extract place l.tokens.size
  { l with tokens := (l.tokens.extract 0 place).push token ++ behind }

def allowKey (l : Layout) (allowed : Bool) : Layout := { l with keyAllowed := allowed }

/-! ## Blocks -/

def openBlock (l : Layout) (column place : Nat) (start : Token) : Layout :=
  if l.inFlow || column < l.margin then l
  else
    let opened := l.insert place start
    { opened with margin := column + 1, outerMargins := l.margin :: l.outerMargins }

def closeMargins (l : Layout) (limit : Nat) : List Nat → Layout
  | [] => l
  | outer :: rest =>
    if limit < l.margin then
      closeMargins { l.add .blockEnd with margin := outer, outerMargins := rest } limit rest
    else l

def closeBlocks (l : Layout) (limit : Nat) : Layout :=
  if l.inFlow then l else l.closeMargins limit l.outerMargins

/-! ## Keys -/

def dropKey (l : Layout) : Option Layout :=
  if l.key?.any (·.required) then none else some { l with key? := none }

def dropPassedKeys (l : Layout) (c : Cursor) : Option Layout :=
  let passed := fun (key? : Option KeyStart) => key?.filter (·.isPassed c)
  if (l.key? :: l.outerKeys).any fun key? => (passed key?).any (·.required) then none
  else
    let kept := fun (key? : Option KeyStart) => key?.filter (!·.isPassed c)
    some { l with key? := kept l.key?, outerKeys := l.outerKeys.map kept }

def markKey (l : Layout) (c : Cursor) : Option Layout :=
  if l.keyAllowed then do
    let l ← l.dropKey
    some { l with key? := some ⟨l.tokens.size, !l.inFlow && l.margin = c.column + 1, c⟩ }
  else some l

/-! ## Tokens -/

def documentMark (l : Layout) (token : Token) : Option Layout := do
  some (((← (l.closeBlocks 0).dropKey).allowKey false).add token)

def openFlow (l : Layout) (token : Token) (c : Cursor) : Option Layout := do
  let l ← l.markKey c
  some ({ l with key? := none, outerKeys := l.key? :: l.outerKeys, keyAllowed := true }.add token)

def closeFlow (l : Layout) (token : Token) : Option Layout := do
  let l ← l.dropKey
  let l := match l.outerKeys with
    | key? :: outerKeys => { l with key?, outerKeys }
    | [] => l
  some ((l.allowKey false).add token)

def openMarked (l : Layout) (start : Token) (c : Cursor) : Option Layout :=
  if l.inFlow then some l
  else if l.keyAllowed then some (l.openBlock c.column l.tokens.size start)
  else none

def blockEntry (l : Layout) (c : Cursor) : Option Layout := do
  let l ← l.openMarked .blockSequenceStart c
  some (((← l.dropKey).allowKey true).add .blockEntry)

def markedKey (l : Layout) (c : Cursor) : Option Layout := do
  let l ← l.openMarked .blockMappingStart c
  let l ← l.dropKey
  some ((l.allowKey !l.inFlow).add .key)

def value (l : Layout) (c : Cursor) : Option Layout :=
  match l.key? with
  | some key =>
    let l := { l.insert key.place .key with key? := none, keyAllowed := false }
    some ((l.openBlock key.start.column key.place .blockMappingStart).add .value)
  | none => do
    let l ← l.openMarked .blockMappingStart c
    some ((l.allowKey !l.inFlow).add .value)

def node (l : Layout) (c : Cursor) (read : Option (Token × Cursor)) : Option (Layout × Cursor) := do
  let l ← l.markKey c
  let (token, c) ← read
  some ((l.allowKey false).add token, c)

def quoted (l : Layout) (quote : Quote) (c : Cursor) : Option (Layout × Cursor) :=
  l.node c ((quoted? quote c).map fun (text, c) => (.scalar false (String.ofList text), c))

def plain (l : Layout) (c : Cursor) : Option (Layout × Cursor) := do
  let scalar ← plain? l.inFlow l.margin c
  let (l, c) ← l.node c (some (.scalar true (String.ofList scalar.text), scalar.behind))
  some (l.allowKey scalar.broken, c)

def block (l : Layout) (folded : Bool) (c : Cursor) : Option (Layout × Cursor) := do
  let l ← l.dropKey
  let (text, c) ← block? folded l.margin c
  some ((l.allowKey true).add (.scalar false (String.ofList text)), c)

def skipSpace (fuel : Nat) (l : Layout) (c : Cursor) : Layout × Cursor :=
  match fuel with
  | 0 => (l, c)
  | fuel + 1 =>
    let c := if c.index = 0 ∧ c.isAt '\ufeff' then c.skip 1 else c
    let c := c.skipWhile fun x => x == ' ' || (x == '\t' && (l.inFlow || !l.keyAllowed))
    let c := c.skipComment
    if c.rest.head?.any isBreak then
      skipSpace fuel (l.allowKey (l.keyAllowed || !l.inFlow)) c.takeBreak.2
    else (l, c)

def token (l : Layout) (c : Cursor) : Option (Layout × Cursor) :=
  let mark := fun (width : Nat) (l? : Option Layout) => l?.map (·, c.skip width)
  if c.column = 0 ∧ c.isAt '%' then do
    let (token, c) ← directive? c
    some (← l.documentMark token, c)
  else if c.atMark '-' then mark 3 (l.documentMark .documentStart)
  else if c.atMark '.' then mark 3 (l.documentMark .documentEnd)
  else
    match c.rest.head? with
    | some '[' => mark 1 (l.openFlow .flowSequenceStart c)
    | some '\x7b' => mark 1 (l.openFlow .flowMappingStart c)
    | some ']' => mark 1 (l.closeFlow .flowSequenceEnd)
    | some '\x7d' => mark 1 (l.closeFlow .flowMappingEnd)
    | some ',' => mark 1 (l.dropKey.map fun l => (l.allowKey true).add .flowEntry)
    | some '*' => l.node c ((name? (c.skip 1)).map fun (name, c) => (.aliasOf name, c))
    | some '&' => l.node c ((name? (c.skip 1)).map fun (name, c) => (.anchor name, c))
    | some '!' => l.node c (tag? l.inFlow c)
    | some '\'' => l.quoted .single c
    | some '"' => l.quoted .double c
    | x? =>
      if x? = some '-' ∧ c.spaceAt 1 then mark 1 (l.blockEntry c)
      else if x? = some '?' ∧ (l.inFlow ∨ c.spaceAt 1) then mark 1 (l.markedKey c)
      else if x? = some ':' ∧ (l.inFlow ∨ c.spaceAt 1) then mark 1 (l.value c)
      else if x? = some '|' ∧ ¬l.inFlow then l.block false c
      else if x? = some '>' ∧ ¬l.inFlow then l.block true c
      else if startsPlain l.inFlow c then l.plain c
      else none

def finish (l : Layout) : Option Layout := do
  some ((← (l.closeBlocks 0).dropKey).add .streamEnd)

def read (fuel : Nat) (l : Layout) (c : Cursor) : Option Layout :=
  match fuel with
  | 0 => none
  | fuel + 1 => do
    let (l, c) := l.skipSpace (c.rest.length + 1) c
    let l ← l.dropPassedKeys c
    let l := l.closeBlocks (c.column + 1)
    if c.rest.isEmpty then l.finish
    else
      let (l, c) ← l.token c
      read fuel l c

end Layout

def tokens? (cs : List Char) : Option (List Token) :=
  ((Layout.read (cs.length + 1) {} ⟨cs, 0, 0, 0⟩).map (·.tokens.toList))

end SchemaLang.Yaml
