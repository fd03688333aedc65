import SchemaLang.Diagnostic
import SchemaLang.SchemaFile

/-!
# Findings

What checking finds: a problem, the node that has it, and what goes with it.
A finding keeps the cause with the texts that its message quotes; severity,
code and wording follow from the cause.
-/

set_option autoImplicit false

namespace SchemaLang

inductive Bracketed where
  | list
  | map
  deriving DecidableEq

namespace Bracketed

def title : Bracketed → String
  | list => "Lists"
  | map => "Maps"

def opener : Bracketed → Char
  | list => '['
  | map => '\x7b'

def closer : Bracketed → Char
  | list => ']'
  | map => '\x7d'

end Bracketed

inductive Problem where
  | syntaxFault (fault : Fault)
  | unknownType (name : String)
  | unknownValue (name : String)
  | notAType (name : String) (found : NodeKind)
  | notInstantiable (name : String) (found : NodeKind)
  | argumentCount (expected found : Nat)
  | misnamedArgument (written declared : String)
  | duplicateNumber (number : Nat) (holder : String)
  | emptyOption (type : String)
  | notLiteral (expected text : String)
  | missingOpener (value : Bracketed)
  | missingCloser (value : Bracketed)
  | notAnEntry
  | foreignEnumValue (text enum : String)
  | notAnEnumValue (text enum : String)
  | otherType (expected found : String)
  deriving DecidableEq

namespace Problem

def code : Problem → DiagnosticCode
  | syntaxFault _ => .syntaxError
  | unknownType _ | unknownValue _ => .unresolvedReference
  | argumentCount _ _ => .arityMismatch
  | misnamedArgument _ _ => .nameMismatch
  | duplicateNumber _ _ => .duplicateFieldNumber
  | _ => .typeMismatch

def severity : Problem → Severity
  | duplicateNumber _ _ => .warning
  | _ => .error

def message : Problem → String
  | syntaxFault fault => fault.message
  | unknownType name => s!"Unable to find type {name}"
  | unknownValue name => s!"Unable to find type/enum {name}"
  | notAType name found => s!"'{name}' names a {found.label}, not a type"
  | notInstantiable name found =>
    s!"'{name}' does not name a type or component (found {found.label})"
  | argumentCount expected found =>
    s!"Invalid parameter count. Expected {expected} found {found}"
  | misnamedArgument written declared =>
    s!"Invalid field name '{written}' found. Did you mean '{declared}'?"
  | duplicateNumber number holder => s!"Field number {number} is already used by '{holder}'"
  | emptyOption type => s!"Illegal Character. Empty options are not allowed on {type}"
  | notLiteral expected text => s!"Expected {expected}. Found '{text}'"
  | missingOpener value => s!"{value.title} should start with '{value.opener}'"
  | missingCloser value => s!"{value.title} should end with '{value.closer}'"
  | notAnEntry => "Invalid map entry. Format should be K:V"
  | foreignEnumValue text enum => s!"Enum '{text}' is not of type '{enum}'"
  | notAnEnumValue text enum => s!"Invalid type {text}. Expected enum-type: '{enum}'"
  | otherType expected found => s!"Expected '{expected}' found '{found}'"

def fixDescription (p : Problem) (replacement : String) : String :=
  match p with
  | misnamedArgument _ _ => s!"rename to '{replacement}'"
  | _ => s!"did you mean '{replacement}'?"

end Problem

structure Finding where
  problem : Problem
  node : Node
  /-- The node that had a duplicate first. -/
  earlier? : Option Node := none
  /-- What the text of the node should be. -/
  replacement? : Option String := none

namespace Finding

def diagnostic (file : SchemaFile) (f : Finding) : Diagnostic where
  severity := f.problem.severity
  code := f.problem.code
  message := f.problem.message
  range := f.node.span
  lines? := some (.ofSpan file.source f.node.span)
  related := f.earlier?.toList.map fun n =>
    ⟨"first declared here", n.span, .ofSpan file.source n.span⟩
  fix? := f.replacement?.map fun replacement =>
    ⟨f.problem.fixDescription replacement, replacement, f.node.span⟩

end Finding

/-- What a check found, and the references it has judged, by node number. A
judged reference is not looked up again on its own. -/
structure Findings where
  reported : List Finding := []
  judged : List Nat := []

namespace Findings

def none : Findings := {}

def of (problem : Problem) (n : Node) : Findings := { reported := [⟨problem, n, .none, .none⟩] }

def judge (ids : List Nat) : Findings := { judged := ids }

instance : Append Findings := ⟨fun f g => ⟨f.reported ++ g.reported, f.judged ++ g.judged⟩⟩

@[simp] theorem reported_append (f g : Findings) :
    (f ++ g).reported = f.reported ++ g.reported := rfl

@[simp] theorem judged_append (f g : Findings) : (f ++ g).judged = f.judged ++ g.judged := rfl

def all : List Findings → Findings
  | [] => none
  | f :: fs => f ++ all fs

theorem reported_all (fs : List Findings) : (all fs).reported = fs.flatMap reported := by
  induction fs with
  | nil => rfl
  | cons f fs ih => simp [all, ih]

end Findings

end SchemaLang
