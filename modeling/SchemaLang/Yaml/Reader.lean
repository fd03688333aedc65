import SchemaLang.Yaml
import SchemaLang.Yaml.Layout

/-!
# Reading YAML texts

The nodes of a text are read from its tokens. A text holds at most one
document. A value may be left out almost everywhere, and then it is empty.

The name of an alias has to be given to a node in front of it, and the handle
of a tag has to be declared. Tags mean nothing else here.

Every reader gets three units of fuel for each token, because no token starts
more than three nested calls.
-/

set_option autoImplicit false

namespace SchemaLang.Yaml

structure Reading where
  tokens : List Token
  handles : List String
  anchors : List (String × Nat) := []

abbrev Read := StateT Reading Option

namespace Read

def ahead : Read (Option Token) := do return (← get).tokens.head?

def pass : Read Unit := modify fun r => { r with tokens := r.tokens.tail }

def sees (tokens : List Token) : Read Bool := do return (← ahead).any tokens.contains

/-- Gives a node a name. Its number is that of the names known so far, so a
name that is given again can share its number with the next new one. -/
def nameNode (name : String) : Read Nat := do
  let anchors := (← get).anchors
  modify fun r => { r with anchors := (name, anchors.length) :: anchors.filter (·.1 != name) }
  return anchors.length

def numberOf (name : String) : Read Nat := do (← get).anchors.lookup name

def anchor? : Read (Option Nat) := do
  match ← ahead with
  | some (.anchor name) => pass; some <$> nameNode name
  | _ => return none

def tagged : Read Bool := do
  match ← ahead with
  | some (.tag handle) =>
    guard ((← get).handles.contains handle)
    pass
    return true
  | _ => return false

def properties : Read (Option Nat × Bool) := do
  match ← anchor? with
  | some anchor => return (some anchor, ← tagged)
  | none =>
    if ← tagged then return (← anchor?, true) else return (none, false)

end Read

open Read

mutual

/-- A node. Only inside a block can it be a block itself, and only in an entry
can it be a sequence in the column of that entry. -/
def readNode (fuel : Nat) (inBlock inEntry : Bool) : Read Yaml :=
  match fuel with
  | 0 => failure
  | fuel + 1 => do
    match ← ahead with
    | some (.aliasOf name) => pass; .aliasOf <$> numberOf name
    | _ =>
      let (anchor?, tagged) ← properties
      match ← ahead, inBlock, inEntry with
      | some (.scalar plain text), _, _ => pass; return .scalar anchor? plain text
      | some .flowSequenceStart, _, _ => pass; .sequence anchor? <$> readFlowItems fuel true
      | some .flowMappingStart, _, _ => pass; .mapping anchor? <$> readFlowEntries fuel true
      | some .blockSequenceStart, true, _ => pass; .sequence anchor? <$> readItems fuel
      | some .blockMappingStart, true, _ => pass; .mapping anchor? <$> readEntries fuel
      | some .blockEntry, _, true => .sequence anchor? <$> readLooseItems fuel
      | _, _, _ =>
        guard (anchor?.isSome || tagged)
        return .scalar anchor? true ""

def readOptional (fuel : Nat) (inBlock inEntry : Bool) (ends : List Token) : Read Yaml :=
  match fuel with
  | 0 => failure
  | fuel + 1 => do
    if ← sees ends then return .empty else readNode fuel inBlock inEntry

def readValue (fuel : Nat) (inBlock : Bool) (ends : List Token) : Read Yaml :=
  match fuel with
  | 0 => failure
  | fuel + 1 => do
    if ← sees [.value] then
      pass
      readOptional fuel inBlock inBlock ends
    else return .empty

def readItems (fuel : Nat) : Read (List Yaml) :=
  match fuel with
  | 0 => failure
  | fuel + 1 => do
    match ← ahead with
    | some .blockEntry =>
      pass
      let item ← readOptional fuel true false [.blockEntry, .blockEnd]
      (item :: ·) <$> readItems fuel
    | some .blockEnd => pass; return []
    | _ => failure

def readLooseItems (fuel : Nat) : Read (List Yaml) :=
  match fuel with
  | 0 => failure
  | fuel + 1 => do
    if ← sees [.blockEntry] then
      pass
      let item ← readOptional fuel true false [.blockEntry, .key, .value, .blockEnd]
      (item :: ·) <$> readLooseItems fuel
    else return []

def readEntries (fuel : Nat) : Read (List (Yaml × Yaml)) :=
  match fuel with
  | 0 => failure
  | fuel + 1 => do
    match ← ahead with
    | some .key =>
      pass
      let key ← readOptional fuel true true [.key, .value, .blockEnd]
      let value ← readValue fuel true [.key, .value, .blockEnd]
      ((key, value) :: ·) <$> readEntries fuel
    | some .blockEnd => pass; return []
    | _ => failure

def readFlowItems (fuel : Nat) (first : Bool) : Read (List Yaml) :=
  match fuel with
  | 0 => failure
  | fuel + 1 => do
    let last ← sees [.flowSequenceEnd]
    if !first && !last then
      guard (← sees [.flowEntry])
      pass
    match ← ahead with
    | some .flowSequenceEnd => pass; return []
    | some .key =>
      pass
      let pair ← readPair fuel
      (pair :: ·) <$> readFlowItems fuel false
    | _ =>
      let item ← readNode fuel false false
      (item :: ·) <$> readFlowItems fuel false

/-- An item that is a mapping of one entry. Where its key is left out, the
token in the place of the key is passed for it. -/
def readPair (fuel : Nat) : Read Yaml :=
  match fuel with
  | 0 => failure
  | fuel + 1 => do
    let key ←
      if ← sees [.value, .flowEntry, .flowSequenceEnd] then
        pass
        pure .empty
      else readNode fuel false false
    let value ← readValue fuel false [.flowEntry, .flowSequenceEnd]
    return .mapping none [(key, value)]

def readFlowEntries (fuel : Nat) (first : Bool) : Read (List (Yaml × Yaml)) :=
  match fuel with
  | 0 => failure
  | fuel + 1 => do
    let last ← sees [.flowMappingEnd]
    if !first && !last then
      guard (← sees [.flowEntry])
      pass
    match ← ahead with
    | some .flowMappingEnd => pass; return []
    | some .key =>
      pass
      let key ← readOptional fuel false false [.value, .flowEntry, .flowMappingEnd]
      let value ← readValue fuel false [.flowEntry, .flowMappingEnd]
      ((key, value) :: ·) <$> readFlowEntries fuel false
    | _ =>
      let key ← readNode fuel false false
      ((key, .empty) :: ·) <$> readFlowEntries fuel false

end

/-! ## Documents -/

def Token.isStart : Token → Bool
  | version _ _ | handle _ | documentStart => true
  | _ => false

def readDirectives (versioned : Bool) (handles : List String) :
    List Token → Option (List String × List Token)
  | .version major minor :: rest =>
    if !versioned && major == 1 && (minor == 1 || minor == 2) then
      readDirectives true handles rest
    else none
  | .handle name :: rest =>
    if handles.contains name then none else readDirectives versioned (name :: handles) rest
  | tokens => some (handles, tokens)

def commonHandles : List String := ["!", "!!"]

def readRoot (handles : List String) (tokens : List Token) : Option (Yaml × List Token) :=
  ((readNode (3 * tokens.length + 3) true false).run { tokens, handles }).map
    fun (root, r) => (root, r.tokens)

def readDocument (tokens : List Token) : Option (Yaml × List Token) := do
  if tokens.head?.any Token.isStart then
    match ← readDirectives false [] tokens with
    | (handles, .documentStart :: rest) =>
      if rest.head?.any fun t => t.isStart || t == .documentEnd || t == .streamEnd then
        some (.empty, rest)
      else readRoot (handles ++ commonHandles) rest
    | _ => none
  else readRoot commonHandles tokens

/-! ## Texts -/

def isAllowed (x : Char) : Bool :=
  let n := x.toNat
  n == 0x9 || n == 0xA || n == 0xD || (0x20 ≤ n && n ≤ 0x7E) || n == 0x85 ||
    (0xA0 ≤ n && n ≤ 0xFFFD) || 0x10000 ≤ n

def read? (text : String) : Option Yaml := do
  guard (text.toList.all isAllowed)
  let tokens ← tokens? text.toList
  if tokens = [.streamEnd] then some .empty
  else
    let (root, rest) ← readDocument tokens
    guard (rest.dropWhile (· == .documentEnd) = [.streamEnd])
    some root

end SchemaLang.Yaml
