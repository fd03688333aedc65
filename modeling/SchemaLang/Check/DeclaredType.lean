import SchemaLang.KnownNames

/-!
# Declared types

The type that a declaration gives to a field, split into the name at its head
and its parameters. A parameter is itself a type without parameters. The names
in a declared type are seen from where it is declared, which may be another
file than the one with the value.
-/

set_option autoImplicit false

namespace SchemaLang

inductive LiteralForm where
  | boolean
  | integer
  | decimal
  | string
  deriving DecidableEq

namespace LiteralForm

def description : LiteralForm → String
  | boolean => "true or false"
  | integer => "an integer"
  | decimal => "a decimal"
  | string => "a string"

/-- Lower case for the words `true` and `false`: the long s is an s too. -/
def foldLetter (c : Char) : Char := if c = 'ſ' then 's' else c.toLower

def isDecimal (cs : List Char) : Bool :=
  Text.isDigits (cs.takeWhile (· != '.')) && Text.isDigits ((cs.dropWhile (· != '.')).drop 1)

def isString (cs : List Char) : Bool :=
  match cs with
  | '"' :: rest => rest.getLast? == some '"' && !rest.dropLast.contains '\n'
  | _ => false

def accepts (form : LiteralForm) (text : String) : Bool :=
  let cs := text.toList
  match form with
  | boolean => cs.map foldLetter == "true".toList || cs.map foldLetter == "false".toList
  | integer => Text.isDigits cs
  | decimal => isDecimal cs
  | string => isString cs

def ofType? (name : String) : Option LiteralForm :=
  if name = "bool" then some boolean
  else if KnownNames.integerTypes.contains name || name == KnownNames.entityId then some integer
  else if KnownNames.decimalTypes.contains name then some decimal
  else if KnownNames.textTypes.contains name then some string
  else none

end LiteralForm

structure DeclaredType where
  file : SchemaFile
  site : Site
  base : String
  parameters : List Site

namespace DeclaredType

def of (file : SchemaFile) (s : Site) : DeclaredType :=
  if s.kind = .fieldType then
    { file
      site := s
      base := file.text ((s.node.firstChild? .typeName).getD s.node)
      parameters := (s.node.childrenOfKind .typeParameter).map s.child }
  else { file, site := s, base := file.text s.node, parameters := [] }

def text (t : DeclaredType) : String := t.file.text t.site.node

inductive Demand where
  | literal (form : LiteralForm)
  | option
  | list
  | map
  | named

def demand (t : DeclaredType) : Demand :=
  match if t.parameters.isEmpty then LiteralForm.ofType? t.base else none with
  | some form => .literal form
  | none =>
    if t.base = "option" then .option
    else if t.base = "list" then .list
    else if t.base = "map" then .map
    else .named

end DeclaredType

end SchemaLang
