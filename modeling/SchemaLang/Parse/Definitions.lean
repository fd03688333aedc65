import SchemaLang.Parse.Tags

/-!
# Statements, types, enums, components and whole files

Keywords are reserved only at the start of a member, and the word `option`
starts a statement only where it is not the generic type `option<T>`. Types
and enums nest inside types as deeply as there is room, and the values inside
a definition share the room that the definition leaves.
-/

set_option autoImplicit false

namespace SchemaLang.Parse

open SchemaLang.Parser Step

def keyword : Step Unit := do
  let _ ← take .keyword

def follow (kind : TokenKind) (node : NodeKind) (wanted before : String) : Step String :=
  expect kind node .statement fun _ => .missingAfter wanted before

def followPunct (kind : TokenKind) (wanted before : String) : Step Unit :=
  punct kind .statement fun _ => .missingAfter wanted before

def packageStatement : Parser Unit :=
  statement .package do
    keyword
    let name ← follow .identifier .packageName "a package name" "package"
    terminator s!"package {name}"

def importStatement : Parser Unit :=
  statement .importing do
    keyword
    let path ← follow .string .importPath "a quoted filename" "import"
    terminator s!"import {path}"

def startsSetting (s : List Lexeme) : Bool :=
  starts .identifier s || starts .boolean s || starts .integer s || starts .string s

def settingStatement : Parser Unit :=
  statement .setting do
    keyword
    let name ← follow .identifier .settingName "an option name" "option"
    followPunct .equals "'='" s!"option {name}"
    let value ← Step.choose fun s =>
      if startsSetting s then take .settingValue
      else stop .statement (.missingAfter "an option value" s!"option {name} =")
    terminator s!"option {name} = {value}"

def block (kind : NodeKind) (word : String) (member : Parser Bool) : Parser Unit :=
  statement kind do
    keyword
    let name ← expect .identifier .definitionName .braces fun _ =>
      .missingAfter "identifier" word
    punct .lbrace .braces fun _ => .missingAfter "'\x7b'" s!"{word} {name}"
    members member
    punct .rbrace .braces fun found => .notAMember found word name

def enumValue : Parser Unit :=
  statement .enumValue do
    let name ← take .fieldName
    followPunct .equals "'='" name
    let number ← follow .integer .fieldNumber "a value" s!"{name} ="
    terminator s!"{name} = {number}"

def present (p : Parser Unit) : Parser Bool := do
  p
  pure true

def absent : Parser Bool := pure false

def enumMember (room : Nat) : Parser Bool :=
  Parser.choose fun s =>
    if starts .lbracket s then present (tag (value room))
    else if starts .identifier s then present enumValue
    else absent

def nested (p : Nat → Parser Unit) : Nat → Parser Unit
  | 0 => discard tooDeep
  | room + 1 => p room

def enumDefinition : Nat → Parser Unit :=
  nested fun room => block .enum "enum" (enumMember room)

def parameterCount? : String → Option Nat
  | "map" => some 2
  | "list" => some 1
  | "option" => some 1
  | _ => none

def typeParameter (before : String) : Step String :=
  follow .identifier .typeParameter "typename" before

def typeParameters (base : String) : Step String := do
  bump
  match parameterCount? base with
  | none => stop .statement (.unknownGeneric base)
  | some expected =>
    let first ← typeParameter s!"{base}<"
    let others ← sepTail (typeParameter ",") .rangle fun found => ⟨.statement, .notAParameter found⟩
    let parameters := ", ".intercalate (first :: others)
    if others.length + 1 = expected then pure s!"{base}<{parameters}>"
    else stop .statement (.parameterCount expected (others.length + 1))

def fieldType : Step String :=
  Step.choose fun s => do
    let transient := startsWord "transient" s
    if transient then
      keyword
      require .identifier .statement fun _ => .missingAfter "typename" "transient"
    group .fieldType (fun _ => true) do
      let base ← take .typeName
      Step.choose fun s =>
        if starts .langle s then typeParameters base
        else if transient then stop .statement (.transientScalar base)
        else pure base

def field : Parser Unit :=
  statement .field do
    let type ← fieldType
    let name ← follow .identifier .fieldName "field name" type
    Step.choose fun s =>
      if starts .equals s then do
        bump
        let number ← follow .integer .fieldNumber "field number" s!"{type} {name} ="
        terminator s!"{type} {name} = {number}"
      else
        closing .semicolon .statement fun _ => .missingAfter "'=' or ';'" s!"{type} {name}"

def typeMember (room : Nat) (typeDefinition : Parser Unit) : Parser Bool :=
  Parser.choose fun s =>
    if startsWord "option" s && !starts .langle s.tail then present settingStatement
    else if starts .lbracket s then present (tag (value room))
    else if startsWord "enum" s then present (enumDefinition room)
    else if startsWord "type" s then present typeDefinition
    else if starts .identifier s then present field
    else absent

def typeDefinition : Nat → Parser Unit
  | 0 => discard tooDeep
  | room + 1 => defer fun _ => block .type "type" (typeMember room (typeDefinition room))

def componentId : Parser Unit :=
  statement .componentId do
    keyword
    followPunct .equals "'='" "id"
    let number ← follow .integer .fieldNumber "a number" "id ="
    terminator s!"id = {number}"

def memberType (word : String) : Step String := do
  keyword
  require .identifier .statement fun _ => .missingAfter "typename" word
  fieldType

def dataMember : Parser Unit :=
  statement .data do
    let type ← memberType "data"
    terminator s!"data {type}"

def eventMember : Parser Unit :=
  statement .event do
    let type ← memberType "event"
    let name ← follow .identifier .fieldName "event name" s!"event {type}"
    terminator s!"event {type} {name}"

def commandMember : Parser Unit :=
  statement .command do
    keyword
    let response ← follow .identifier .typeRef "response type" "command"
    let name ← follow .identifier .fieldName "command name" s!"command {response}"
    followPunct .lparen "'('" s!"command {response} {name}"
    let request ← follow .identifier .typeRef "request type" s!"{name}("
    followPunct .rparen "')'" s!"{name}({request}"
    terminator s!"command {response} {name}({request})"

def componentMember (room : Nat) : Parser Bool :=
  Parser.choose fun s =>
    if startsWord "option" s && !starts .langle s.tail then present settingStatement
    else if starts .lbracket s then present (tag (value room))
    else if startsWord "id" s then present componentId
    else if startsWord "data" s then present dataMember
    else if startsWord "event" s then present eventMember
    else if startsWord "command" s then present commandMember
    else if starts .identifier s then present field
    else absent

def componentDefinition : Nat → Parser Unit :=
  nested fun room => block .component "component" (componentMember room)

def topLevel (room : Nat) : Parser Bool :=
  Parser.choose fun s =>
    if s.isEmpty then absent
    else if startsWord "package" s then present packageStatement
    else if startsWord "import" s then present importStatement
    else if startsWord "option" s then present settingStatement
    else if startsWord "enum" s then present (enumDefinition room)
    else if startsWord "type" s then present (typeDefinition room)
    else if startsWord "component" s then present (componentDefinition room)
    else if starts .lbracket s then present (tag (value room))
    else present (skip .notADefinition Recovery.topLevel.extent)

def maxNesting : Nat := 256

end SchemaLang.Parse

namespace SchemaLang

def parseWith (room : Nat) (significant : List Lexeme) : Row :=
  ((Parser.members (Parse.topLevel room)).run significant).built

def parseRow : List Lexeme → Row := parseWith Parse.maxNesting

theorem rest_members_topLevel (room : Nat) (s : List Lexeme) :
    ((Parser.members (Parse.topLevel room)).run s).rest = [] := by
  show (Parser.members.loop (Parse.topLevel room) s).rest = []
  fun_induction Parser.members.loop (Parse.topLevel room) s with
  | case1 s o hv hlt r ih => exact ih
  | case2 => rfl
  | case3 s o hv hlt t rest hr r ih => exact ih
  | case4 s o hv =>
    cases s with
    | nil => rfl
    | cons t s =>
      exfalso
      apply hv
      simp only [o, Parse.topLevel, Parser.run_choose]
      repeat' split
      all_goals first | rfl | simp_all

theorem leaves_parseWith (room : Nat) (s : List Lexeme) : (parseWith room s).leaves = s := by
  have h := (Parser.members (Parse.topLevel room)).lossless s
  rwa [rest_members_topLevel, List.append_nil] at h

end SchemaLang
