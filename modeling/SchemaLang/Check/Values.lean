import SchemaLang.Check.DeclaredType
import SchemaLang.Check.Finding
import SchemaLang.Resolution

/-!
# Values against declared types

A value fits a scalar type by its form, a generic type element by element, an
enum when it names one of its values, and a type or component when it
constructs that very definition. `_` fits options only.

The name of the declared type is looked up where it is declared and the names
in the value where the value stands. A declared type that stands for nothing
is reported where it is declared, so it asks nothing of a value.
-/

set_option autoImplicit false

namespace SchemaLang

structure Checker where
  file : SchemaFile
  resolver : Resolver

namespace Checker

def text (c : Checker) (n : Node) : String := c.file.text n

def valueText (c : Checker) (value : Site) : String := Text.trim (c.text value.node)

def resolve? (c : Checker) (s : Site) (name : String) : Option Definition :=
  c.resolver.resolve? c.file s name

/-- What an enum literal stands for: a name seen from the literal, or the bare
name of a value of the enum, seen from the declaration. -/
def enumTarget? (c : Checker) (value : Site) (type : DeclaredType) : Option Definition :=
  let typed := c.valueText value
  (c.resolve? value typed) <|>
    (if typed.toList.contains '.' then none
      else c.resolver.resolve? type.file type.site (type.base ++ "." ++ typed))

def checkEnumLiteral (c : Checker) (value : Site) (type : DeclaredType) (enum : Definition) :
    Findings :=
  let typed := c.valueText value
  let verdict :=
    match c.enumTarget? value type with
    | some found =>
      if found.kind = .enumValue then
        if found.isChildOf enum then .none
        else Findings.of (.foreignEnumValue typed type.base) value.node
      else Findings.of (.notAnEnumValue typed type.base) value.node
    | none => Findings.of (.notAnEnumValue typed type.base) value.node
  .judge [value.id] ++ verdict

def namesDefinition (c : Checker) (s : Site) (name : String) (d : Definition) : Bool :=
  (c.resolve? s name).any (·.same d)

def checkInstance (c : Checker) (value : Site) (type : DeclaredType) (target : Definition) :
    Findings :=
  let typed := c.valueText value
  match value.kind with
  | .construction =>
    match value.node.firstChild? .constructorName with
    | none => .none
    | some name =>
      if c.namesDefinition value (c.text name) target then .none
      else .of (.otherType type.base (c.text name)) value.node
  | .nameRef =>
    let verdict :=
      if c.namesDefinition value typed target then
        match (target.file.orderedFields target.site.node).length with
        | 0 => .none
        | fields + 1 => Findings.of (.argumentCount (fields + 1) 0) value.node
      else .of (.otherType type.base typed) value.node
    .judge [value.id] ++ verdict
  | _ => .of (.otherType type.base typed) value.node

def checkNamed (c : Checker) (value : Site) (type : DeclaredType) : Findings :=
  match c.resolver.resolve? type.file type.site type.base with
  | none => .none
  | some target =>
    match target.kind with
    | .enum => c.checkEnumLiteral value type target
    | .type | .component => c.checkInstance value type target
    | _ => .none

def parts (value : Site) : List Site := value.node.values.map value.child

def checkBracketed (c : Checker) (form : Bracketed) (value : Site) (inner : Findings) : Findings :=
  let cs := (c.valueText value).toList
  if cs.head? ≠ some form.opener then .of (.missingOpener form) value.node
  else if cs.getLast? ≠ some form.closer then .of (.missingCloser form) value.node
  else inner

def checkEntry (element : Site → Site → Findings) (parameters : List Site) (entry : Site) :
    Findings :=
  match parts entry with
  | [key, value] =>
    match parameters with
    | [keyType, valueType] => element key keyType ++ element value valueType
    | _ => .none
  | _ => .of .notAnEntry entry.node

def checkAgainst (c : Checker) (element : Site → Site → Findings) (value : Site)
    (type : DeclaredType) : Findings :=
  let typed := c.valueText value
  if typed = "_" then
    if type.base = "option" then .none else .of (.emptyOption type.text) value.node
  else
    match type.demand with
    | .literal form =>
      if form.accepts typed then .none else .of (.notLiteral form.description typed) value.node
    | .option =>
      match type.parameters with
      | [] => .none
      | inner :: _ => element value inner
    | .list =>
      c.checkBracketed .list value <|
        match type.parameters with
        | [] => .none
        | inner :: _ => .all ((parts value).map fun part => element part inner)
    | .map =>
      c.checkBracketed .map value <|
        .all ((parts value).map (checkEntry element type.parameters))
    | .named => c.checkNamed value type

/-- Checks a part of a value against a parameter of a type declared in `file`.
A parameter has no parameters of its own, so no further part is looked at. -/
def checkElement (c : Checker) (file : SchemaFile) (value parameter : Site) : Findings :=
  c.checkAgainst (fun _ _ => .none) value (.of file parameter)

def checkValue (c : Checker) (value : Site) (file : SchemaFile) (type : Site) : Findings :=
  c.checkAgainst (c.checkElement file) value (.of file type)

end Checker

end SchemaLang
