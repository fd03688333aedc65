import SchemaLang.Check.Suggestion
import SchemaLang.Check.Values

/-!
# Arguments of tags and constructions

The arguments of a tag or of a construction are matched with the numbered
fields of what it names, in the order of the numbers: one value for each
field, and in the named form the name of each field in front of its value.

Arguments of an incomplete construct, or of one with a wrong number of them,
are not matched. The bare names among them are set aside, because there is no
declared type to judge them by; nested constructions are still checked on
their own.
-/

set_option autoImplicit false

namespace SchemaLang

namespace Forest

def bareNames : Forest Mark Token → List Nat
  | .nil => []
  | .leaf _ next => next.bareNames
  | .node mark inside next =>
    match mark.shape.kind with
    | .nameRef => mark.id :: next.bareNames
    | .construction => next.bareNames
    | _ => inside.bareNames ++ next.bareNames

end Forest

namespace Checker

variable [Likeness]

def unresolved (c : Checker) (problem : Problem) (n : Node) : Findings :=
  { reported := [⟨problem, n, none, c.file.suggestion? (c.text n)⟩] }

def setAside (n : Node) : Findings := .judge n.inside.bareNames

def checkTargetExists (c : Checker) (name : Node) (target? : Option Definition) : Findings :=
  if target?.isNone && !c.file.knowsStandard (c.text name) then
    c.unresolved (.unknownType (c.text name)) name
  else .none

def checkUnmatched (c : Checker) (n name : Node) (target? : Option Definition) : Findings :=
  c.checkTargetExists name target? ++ (if target?.isSome then setAside n else .none)

def withFields (c : Checker) (name : Node) (target? : Option Definition)
    (check : Definition → List Node → Findings) : Findings :=
  match target? with
  | none => c.checkTargetExists name none
  | some target =>
    if target.isInstantiable then check target (target.file.orderedFields target.site.node)
    else .of (.notInstantiable (c.text name) target.kind) name

def checkForField (c : Checker) (target : Definition) (field : Node) (value : Site) : Findings :=
  match SchemaFile.fieldType? field with
  | none => .none
  | some type =>
    c.checkValue value target.file ((target.site.child field).child type)

def checkPositional (c : Checker) (s : Site) (name : Node) (target? : Option Definition)
    (arguments : Site) : Findings :=
  c.withFields name target? fun target fields =>
    let values := parts arguments
    if fields.length = values.length then
      .all ((values.zip fields).map fun (value, field) => c.checkForField target field value)
    else
      .of (.argumentCount fields.length values.length) s.node ++ setAside arguments.node

def namedValue? (argument : Site) (name : Node) : Option Site :=
  (parts argument).find? (·.id != name.id)

def checkNamedArgument (c : Checker) (target : Definition) (field : Node) (argument : Site) :
    Findings :=
  match argument.node.firstChild? .fieldRef with
  | none => .none
  | some name =>
    let written := c.text name
    let declared := (target.file.fieldName? field).getD ""
    let naming : Findings :=
      if written = declared then .none
      else { reported := [⟨.misnamedArgument written declared, name, none, some declared⟩] }
    let value :=
      match namedValue? argument name with
      | none => .none
      | some value => c.checkForField target field value
    naming ++ value

def checkNamedArguments (c : Checker) (s : Site) (name : Node) (target? : Option Definition)
    (arguments : List Site) : Findings :=
  c.withFields name target? fun target fields =>
    if fields.length = arguments.length then
      .all ((arguments.zip fields).map fun (argument, field) =>
        c.checkNamedArgument target field argument)
    else
      .of (.argumentCount fields.length arguments.length) s.node ++
        .all (arguments.map fun argument => setAside argument.node)

def childSites (s : Site) (kind : NodeKind) : List Site := (s.node.childrenOfKind kind).map s.child

def checkTag (c : Checker) (s : Site) : Findings :=
  match s.node.children.head?.filter (·.kind = .typeRef) with
  | none => .none
  | some name =>
    let target? := c.resolve? s (c.text name)
    let named := childSites s .namedArgument
    let positional? := (childSites s .arguments).head?
    let incomplete := s.node.incomplete || positional?.any (·.node.incomplete) ||
      named.any (·.node.incomplete)
    if incomplete then c.checkUnmatched s.node name target?
    else
      match positional?, named with
      | some arguments, _ => c.checkPositional s name target? arguments
      | none, [] => c.checkUnmatched s.node name target?
      | none, arguments => c.checkNamedArguments s name target? arguments

def checkConstruction (c : Checker) (s : Site) : Findings :=
  match s.node.firstChild? .constructorName with
  | none => .none
  | some name =>
    let target? := c.resolve? s (c.text name)
    match (childSites s .arguments).head? with
    | some arguments =>
      if s.node.incomplete || arguments.node.incomplete then c.checkUnmatched s.node name target?
      else c.checkPositional s name target? arguments
    | none => c.checkUnmatched s.node name target?

end Checker

end SchemaLang
