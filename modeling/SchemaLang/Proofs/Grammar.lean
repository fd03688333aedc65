import Mathlib.Computability.Language
import SchemaLang.Parse.Recovery

/-!
# The grammar of schema files

The language as sets of rows of significant lexemes, built from single
lexemes by sums, products and repetition. Definitions and values that nest
are indexed by the levels of nesting that they may use, so a word of the
grammar with `room` levels never nests more deeply than that.

Keywords are reserved only where a member begins. The word `option` begins a
setting there unless it is the generic type, `transient` is always the
modifier in front of a type, and `_` constructs nothing.
-/

set_option autoImplicit false

namespace SchemaLang.Grammar

open Computability

def one (p : Lexeme → Prop) : Language Lexeme := {w | ∃ t, p t ∧ w = [t]}

def token (kind : TokenKind) : Language Lexeme := one (fun t => t.kind = kind)

def word (text : String) : Language Lexeme := one (fun t => t.isWord text = true)

def nameBut (text : String) : Language Lexeme :=
  one (fun t => t.kind = .identifier ∧ t.text ≠ text)

def separated (item : Language Lexeme) : Language Lexeme := item * (token .comma * item)∗

def bracketed (opener closer : TokenKind) (item : Language Lexeme) : Language Lexeme :=
  token opener * (1 + separated item) * token closer

/-! ## Values -/

def scalar : Language Lexeme :=
  token .integer + token .integer * word "." * token .integer + token .boolean +
    token .string + word "_" + nameBut "_"

def list (value : Language Lexeme) : Language Lexeme := bracketed .lbracket .rbracket value

def map (value : Language Lexeme) : Language Lexeme :=
  bracketed .lbrace .rbrace (value * token .colon * value)

def arguments (value : Language Lexeme) : Language Lexeme := bracketed .lparen .rparen value

def construction (value : Language Lexeme) : Language Lexeme := nameBut "_" * arguments value

def value : Nat → Language Lexeme
  | 0 => scalar
  | room + 1 => scalar + list (value room) + map (value room) + construction (value room)

/-! ## Tags -/

def namedArgument (value : Language Lexeme) : Language Lexeme :=
  token .identifier * token .equals * value

def namedArguments (value : Language Lexeme) : Language Lexeme :=
  token .lparen * separated (namedArgument value) * token .rparen

def tag (value : Language Lexeme) : Language Lexeme :=
  token .lbracket * token .identifier * (1 + arguments value + namedArguments value) *
    token .rbracket

/-! ## Statements -/

def packageStatement : Language Lexeme :=
  word "package" * token .identifier * token .semicolon

def importStatement : Language Lexeme :=
  word "import" * token .string * token .semicolon

def settingValue : Language Lexeme :=
  token .identifier + token .boolean + token .integer + token .string

def settingStatement : Language Lexeme :=
  word "option" * token .identifier * token .equals * settingValue * token .semicolon

def enumValue : Language Lexeme :=
  token .identifier * token .equals * token .integer * token .semicolon

def parameters : Nat → Language Lexeme
  | 0 => 0
  | count + 1 =>
    token .langle * token .identifier * (token .comma * token .identifier) ^ count * token .rangle

def genericType : Language Lexeme :=
  word "map" * parameters 2 + word "list" * parameters 1 + word "option" * parameters 1

def fieldType : Language Lexeme :=
  nameBut "transient" + genericType + word "transient" * genericType

def field : Language Lexeme :=
  fieldType * token .identifier * (1 + token .equals * token .integer) * token .semicolon

def componentId : Language Lexeme :=
  word "id" * token .equals * token .integer * token .semicolon

def dataMember : Language Lexeme := word "data" * fieldType * token .semicolon

def eventMember : Language Lexeme :=
  word "event" * fieldType * token .identifier * token .semicolon

def commandMember : Language Lexeme :=
  word "command" * token .identifier * token .identifier * token .lparen * token .identifier *
    token .rparen * token .semicolon

/-! ## Definitions -/

/-- A field where some words are reserved: it begins with none of them, and
with `option` only when that is the generic type. -/
def fieldBut (reserved : List String) : Language Lexeme :=
  {w | w ∈ field ∧ (∀ text ∈ reserved, startsWord text w = false) ∧
    (startsWord "option" w = true → starts .langle w.tail = true)}

def block (keyword : String) (member : Language Lexeme) : Language Lexeme :=
  word keyword * token .identifier * token .lbrace * member∗ * token .rbrace

def enumMember (room : Nat) : Language Lexeme := tag (value room) + enumValue

def enumDefinition : Nat → Language Lexeme
  | 0 => 0
  | room + 1 => block "enum" (enumMember room)

def typeMember (room : Nat) (typeDefinition : Language Lexeme) : Language Lexeme :=
  settingStatement + tag (value room) + enumDefinition room + typeDefinition +
    fieldBut ["enum", "type"]

def typeDefinition : Nat → Language Lexeme
  | 0 => 0
  | room + 1 => block "type" (typeMember room (typeDefinition room))

def componentMember (room : Nat) : Language Lexeme :=
  settingStatement + tag (value room) + componentId + dataMember + eventMember +
    commandMember + fieldBut ["id", "data", "event", "command"]

def componentDefinition : Nat → Language Lexeme
  | 0 => 0
  | room + 1 => block "component" (componentMember room)

def definition (room : Nat) : Language Lexeme :=
  packageStatement + importStatement + settingStatement + enumDefinition room +
    typeDefinition room + componentDefinition room + tag (value room)

def schemaFile (room : Nat) : Language Lexeme := (definition room)∗

end SchemaLang.Grammar
