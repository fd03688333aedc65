import SchemaLang.Text.Position

/-!
# Diagnostics

A diagnostic says what is wrong with a range of a text, how bad that is, and
what text would mend it.
-/

set_option autoImplicit false

namespace SchemaLang

inductive Severity where
  | error
  | warning
  | hint
  | info
  deriving DecidableEq

namespace Severity

def all : List Severity := [error, warning, hint, info]

def label : Severity → String
  | error => "error"
  | warning => "warning"
  | hint => "hint"
  | info => "info"

def name : Severity → String
  | error => "Error"
  | warning => "Warning"
  | hint => "Hint"
  | info => "Info"

end Severity

inductive DiagnosticCode where
  | syntaxError
  | unresolvedReference
  | arityMismatch
  | typeMismatch
  | nameMismatch
  | duplicateFieldNumber
  deriving DecidableEq

namespace DiagnosticCode

def all : List DiagnosticCode :=
  [syntaxError, unresolvedReference, arityMismatch, typeMismatch, nameMismatch,
    duplicateFieldNumber]

def label : DiagnosticCode → String
  | syntaxError => "S001"
  | unresolvedReference => "E010"
  | arityMismatch => "E020"
  | typeMismatch => "E030"
  | nameMismatch => "E040"
  | duplicateFieldNumber => "W050"

def name : DiagnosticCode → String
  | syntaxError => "SyntaxError"
  | unresolvedReference => "UnresolvedReference"
  | arityMismatch => "ArityMismatch"
  | typeMismatch => "TypeMismatch"
  | nameMismatch => "NameMismatch"
  | duplicateFieldNumber => "DuplicateFieldNumber"

end DiagnosticCode

structure RelatedNote where
  message : String
  range : Span
  lines : LineSpan
  deriving DecidableEq

structure SuggestedFix where
  description : String
  replacement : String
  range : Span
  deriving DecidableEq

structure Diagnostic where
  severity : Severity
  code : DiagnosticCode
  message : String
  range : Span
  lines? : Option LineSpan
  related : List RelatedNote
  fix? : Option SuggestedFix
  deriving DecidableEq

namespace Diagnostic

def isError (d : Diagnostic) : Bool := d.severity == .error

def isWarning (d : Diagnostic) : Bool := d.severity == .warning

/-- Syntax errors and unresolved names make a file useless for what follows. -/
def isHardError (d : Diagnostic) : Bool :=
  d.isError && (d.code == .syntaxError || d.code == .unresolvedReference)

end Diagnostic

end SchemaLang
