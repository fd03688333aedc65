import SchemaLang.Diagnostic
import SchemaLang.Path
import SchemaLang.Text.Split

/-!
# Diagnostics as text

In full, a diagnostic shows the line it is about with carets below the range:

    error[E010]: Unable to find type Positon
     --> schema/app.schema:3:27
      |
    3 | component Thing { id = 1; Positon p = 1; }
      |                           ^^^^^^^ did you mean 'Position'?

In short it is one line. A range that goes on past its first line has carets
up to the end of that line, and an empty range has one caret.
-/

set_option autoImplicit false

namespace SchemaLang

namespace Excerpt

def blanks (n : Nat) : String := String.ofList (List.replicate n ' ')

def carets (n : Nat) : String := String.ofList (List.replicate n '^')

def caretCount (line : String) (lines : LineSpan) : Nat :=
  if lines.stop.line = lines.start.line then max (lines.stop.column - lines.start.column) 1
  else max (line.length - (lines.start.column - 1)) 1

def excerpt (sourceLines : List String) (d : Diagnostic) (lines : LineSpan) : List String :=
  match sourceLines[lines.start.line - 1]? with
  | none => []
  | some line =>
    let number := toString lines.start.line
    let margin := blanks number.length
    let label := match d.fix? with
      | some fix => " " ++ fix.description
      | none => ""
    [margin ++ " |", number ++ " | " ++ line,
      margin ++ " | " ++ blanks (lines.start.column - 1) ++ carets (caretCount line lines) ++ label]

def location (path : Path) (p : Position) : String := s!"{path.spelling}:{p.line}:{p.column}"

def note (path : Path) (r : RelatedNote) : String :=
  s!"   = note: {r.message} at {location path r.lines.start}"

def heading (d : Diagnostic) : String := s!"{d.severity.label}[{d.code.label}]: {d.message}"

def block (sourceLines : List String) (path : Path) (d : Diagnostic) : List String :=
  match d.lines? with
  | none => [heading d, s!" --> {path.spelling}"]
  | some lines =>
    [heading d, s!" --> {location path lines.start}"] ++ excerpt sourceLines d lines ++
      d.related.map (note path)

def plural (n : Nat) : String := if n = 1 then "" else "s"

def summary (ds : List Diagnostic) : String :=
  let errors := ds.countP Diagnostic.isError
  let warnings := ds.countP Diagnostic.isWarning
  if errors > 0 then
    let also := if warnings > 0 then s!"; {warnings} warning{plural warnings} emitted" else ""
    s!"error: aborting due to {errors} previous error{plural errors}{also}\n"
  else if warnings > 0 then s!"warning: {warnings} warning{plural warnings} emitted\n"
  else ""

def full (source : String) (path : Path) (ds : List Diagnostic) : String :=
  let sourceLines := Text.lines source
  let blocks := ds.map fun d =>
    String.join ((block sourceLines path d).map (· ++ "\n")) ++ "\n"
  String.join blocks ++ summary ds

def short (path : Path) (d : Diagnostic) : String :=
  let start := (d.lines?.map LineSpan.start).getD ⟨0, 0⟩
  s!"{location path start}: {d.severity.label} [{d.code.label}] {d.message}"

def compact (path : Path) (ds : List Diagnostic) : String := "\n".intercalate (ds.map (short path))

end Excerpt

end SchemaLang
