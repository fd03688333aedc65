import SchemaLang.Syntax.Kind

/-!
# Syntax faults

Why a construct could not go on. A fault keeps the pieces of text that its
message quotes, and the wording stands in one place.
-/

set_option autoImplicit false

namespace SchemaLang

inductive Place where
  | tag
  | argumentList
  | list
  | mapEntry
  | map
  deriving DecidableEq

def Place.name : Place → String
  | .tag => "annotation"
  | .argumentList => "argument list"
  | .list => "list"
  | .mapEntry => "map entry"
  | .map => "map"

inductive Fault where
  /-- `wanted` should follow the text `before`. -/
  | missingAfter (wanted before : String)
  /-- `wanted` should stand where `found` does. -/
  | misplaced (wanted : String) (place : Place) (found : String)
  | notADefinition
  | unclosedTag (found : String)
  | unclosedArguments
  | notAMember (found keyword name : String)
  | notAParameter (found : String)
  | transientScalar (base : String)
  | unknownGeneric (base : String)
  | parameterCount (expected found : Nat)
  | notAValue (found : String)
  | tooDeep
  | stray (found : String)
  deriving DecidableEq

def Fault.message : Fault → String
  | .missingAfter wanted before => s!"Expected {wanted} after '{before}'."
  | .misplaced wanted place found => s!"Expected {wanted} in {place.name}, found '{found}'."
  | .notADefinition =>
    "Expected 'package', 'import', 'option', 'enum', 'type' or 'component' definition at top-level."
  | .unclosedTag found => s!"Expected end of annotation ']', found '{found}'."
  | .unclosedArguments => "Expected ')' to close argument list."
  | .notAMember found keyword name => s!"Invalid '{found}' inside {keyword} {name}."
  | .notAParameter found => s!"Invalid '{found}' inside <>."
  | .transientScalar base => s!"Cannot use transient on non-collection type '{base}'."
  | .unknownGeneric base => s!"Unknown generic type '{base}'."
  | .parameterCount expected found =>
    s!"Wrong number of generics. Expected {expected}, got {found}."
  | .notAValue found => s!"Unknown value '{found}'."
  | .tooDeep => "Nesting too deep."
  | .stray found => s!"Unexpected '{found}'."

/-- What a node of a parsed row is: a construct, whole or cut short, or the
tokens that a fault made recovery skip. -/
inductive Shape where
  | construct (kind : NodeKind) (complete : Bool)
  | skipped (fault : Fault)
  deriving DecidableEq

namespace Shape

def kind : Shape → NodeKind
  | construct kind _ => kind
  | skipped _ => .error

def complete : Shape → Bool
  | construct _ complete => complete
  | skipped _ => true

def fault? : Shape → Option Fault
  | construct _ _ => none
  | skipped fault => some fault

end Shape

end SchemaLang
