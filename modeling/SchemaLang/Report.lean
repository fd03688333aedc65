import SchemaLang.Check
import SchemaLang.JsonValue

/-!
# Reports

The outcome of checking one file: its diagnostics, and the report that tools
read.
-/

set_option autoImplicit false

namespace SchemaLang

structure FileReport where
  path : Path
  file : SchemaFile
  diagnostics : List Diagnostic

namespace FileReport

def ofFile [Likeness] (path : Path) (file : SchemaFile) (resolver : Resolver) : FileReport :=
  ⟨path, file, (checkFile file resolver).map (·.diagnostic file)⟩

def errorCount (r : FileReport) : Nat := r.diagnostics.countP Diagnostic.isError

def warningCount (r : FileReport) : Nat := r.diagnostics.countP Diagnostic.isWarning

def isClean (r : FileReport) : Bool := !r.diagnostics.any Diagnostic.isError

end FileReport

/-! ## Reports for tools -/

open JsonValue (ofOption ofList)

def Span.toJson (s : Span) : JsonValue :=
  .object [("end", .number s.stop), ("start", .number s.start)]

def LineSpan.toJson (s : LineSpan) : JsonValue :=
  .object [("end_col", .number s.stop.column), ("end_line", .number s.stop.line),
    ("start_col", .number s.start.column), ("start_line", .number s.start.line)]

def RelatedNote.toJson (r : RelatedNote) : JsonValue :=
  .object [("message", .string r.message), ("range", r.range.toJson), ("span", r.lines.toJson)]

def SuggestedFix.toJson (f : SuggestedFix) : JsonValue :=
  .object [("description", .string f.description), ("range", f.range.toJson),
    ("replacement", .string f.replacement)]

def Diagnostic.toJson (d : Diagnostic) : JsonValue :=
  .object [
    ("code", .string d.code.name),
    ("message", .string d.message),
    ("range", d.range.toJson),
    ("related", ofList RelatedNote.toJson d.related),
    ("severity", .string d.severity.name),
    ("span", ofOption LineSpan.toJson d.lines?),
    ("suggested_fix", ofOption SuggestedFix.toJson d.fix?)]

def FileReport.toJson (r : FileReport) : JsonValue :=
  .object [
    ("diagnostics", ofList Diagnostic.toJson r.diagnostics),
    ("errors", .number r.errorCount),
    ("path", .string r.path.spelling),
    ("valid", .bool r.isClean),
    ("warnings", .number r.warningCount)]

end SchemaLang
