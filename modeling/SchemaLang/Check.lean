import SchemaLang.Check.Arguments

/-!
# Checking a file

Checking visits every place of a tree, each before those inside it, and
reports

* type names in fields and commands that stand for nothing, or for no type
* arguments of tags and constructions that do not fit the fields they are for
* names in values that stand for nothing
* field numbers that are used twice in one type or component

The syntax faults come first. Checking never changes a tree and works on
incomplete trees too.
-/

set_option autoImplicit false

namespace SchemaLang

variable [Likeness]

namespace Checker

def checkTypeName (c : Checker) (s : Site) : Findings :=
  let name := c.text s.node
  if isBuiltIn name then .none
  else
    match c.resolve? s name with
    | some d => if d.isType then .none else .of (.notAType name d.kind) s.node
    | none =>
      if c.file.knowsStandard name then .none else c.unresolved (.unknownType name) s.node

def checkFieldType (c : Checker) (s : Site) : Findings :=
  match s.children with
  | [] => .none
  | head :: parameters =>
    c.checkTypeName head ++
      (if KnownNames.generics.contains (c.text head.node) then
        .all (parameters.map c.checkTypeName)
      else .none)

def checkCommand (c : Checker) (s : Site) : Findings :=
  .all ((childSites s .typeRef).map c.checkTypeName)

def checkBareName (c : Checker) (judged : List Nat) (s : Site) : Findings :=
  let name := c.text s.node
  if judged.contains s.id then .none
  else if (c.resolve? s name).isNone && !c.file.knowsStandard name then
    c.unresolved (.unknownValue name) s.node
  else .none

def duplicateNumbers (c : Checker) : List (Nat × Node) → List (Nat × Node) → List Finding
  | _, [] => []
  | seen, (number, field) :: rest =>
    match seen.find? (·.1 = number) with
    | none => c.duplicateNumbers (seen ++ [(number, field)]) rest
    | some (_, first) =>
      let holder := (c.file.fieldName? first).getD ""
      let anchor := (field.firstChild? .fieldNumber).getD field
      ⟨.duplicateNumber number holder, anchor, some first, none⟩ :: c.duplicateNumbers seen rest

def checkFieldNumbers (c : Checker) (s : Site) : Findings :=
  { reported := c.duplicateNumbers [] (c.file.numberedFields s.node) }

def checkSite (c : Checker) (judged : List Nat) (s : Site) : Findings :=
  match s.kind with
  | .fieldType => c.checkFieldType s
  | .command => c.checkCommand s
  | .tag => c.checkTag s
  | .construction => c.checkConstruction s
  | .nameRef => c.checkBareName judged s
  | .type | .component => c.checkFieldNumbers s
  | _ => .none

def checkSites (c : Checker) (judged : List Nat) : List Site → List Finding
  | [] => []
  | s :: rest =>
    let found := c.checkSite judged s
    found.reported ++ c.checkSites (judged ++ found.judged) rest

end Checker

def SchemaFile.syntaxFindings (file : SchemaFile) : List Finding :=
  file.faults.map fun (n, fault) => ⟨.syntaxFault fault, n, none, none⟩

def checkFile (file : SchemaFile) (resolver : Resolver) : List Finding :=
  file.syntaxFindings ++ (Checker.mk file resolver).checkSites [] file.sites

end SchemaLang
