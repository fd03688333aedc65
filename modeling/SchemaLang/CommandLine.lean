import SchemaLang.CommandLine.Invocation
import SchemaLang.Outline
import SchemaLang.Project
import SchemaLang.Report.Excerpt
import SchemaLang.Text.Similarity
import SchemaLang.Workspace
import SchemaLang.Yaml.ProjectFile

/-!
# The command line

What a call prints and whether it succeeds, as a function of its arguments
and of what it finds around it: the disk, the standard input and two
variables of the environment. A call that is refused exits with 2, one that
fails or finds errors with 1.
-/

set_option autoImplicit false

namespace SchemaLang

namespace CommandLine

attribute [instance] Text.likeness Yaml.projectFormat

inductive Input where
  | terminal
  | piped (text? : Option String)

structure Surroundings where
  disk : Disk
  /-- The current directory. -/
  directory : Path
  input : Input
  /-- Search roots from the environment. -/
  searchPaths? : Option String
  /-- The project directory from the environment. -/
  projectDirectory? : Option String

structure Outcome where
  exitCode : Nat
  stdout : String
  stderr : String
  deriving DecidableEq

abbrev Run := Except String (Bool × String)

def readInput (s : Surroundings) : Option Path → Except String String
  | some path =>
    (s.disk.readText path).mapError fun e => s!"Failed to read '{path.spelling}': {e.message}"
  | none =>
    match s.input with
    | .terminal => .error "No input provided. Use --file or pipe input via stdin."
    | .piped none => .error s!"Failed to read stdin: {DiskError.notText.message}"
    | .piped (some text) => .ok text

def workspace (s : Surroundings) (i : Invocation) : Except String Workspace := do
  let dir := i.project?.getD s.directory
  let roots ← (Project.searchRoots s.disk dir i.roots s.searchPaths?).mapError (·.message)
  pure ⟨s.disk.fileSystem, roots⟩

def printLines (lines : List String) : String := String.join (lines.map (· ++ "\n"))

def printJson (v : JsonValue) : String := v.pretty ++ "\n"

/-! ## Tokens and trees -/

def tokenJson (t : Token) : JsonValue :=
  .object [("end", .number t.stop), ("kind", .string t.kind.label), ("start", .number t.start),
    ("text", .string t.text)]

def tokenLine (t : Token) : String :=
  s!"{t.kind.label}@{t.start}..{t.stop} {Text.quoted t.text}"

def runTokens (s : Surroundings) (format : OutputFormat) (file? : Option Path) : Run := do
  let tokens := tokenize (← readInput s file?)
  match format with
  | .json => pure (true, printJson (.ofList tokenJson tokens))
  | .text | .pretty => pure (true, printLines (tokens.map tokenLine))

def nodeObject (mark : Mark) (children : List JsonValue) : JsonValue :=
  .object [
    ("children", .array children),
    ("end", .number mark.span.stop),
    ("incomplete", .bool !mark.shape.complete),
    ("kind", .string mark.shape.kind.label),
    ("start", .number mark.span.start)]

def rowJson : Forest Mark Token → List JsonValue
  | .nil => []
  | .leaf _ next => rowJson next
  | .node mark inside next => nodeObject mark (rowJson inside) :: rowJson next

def treeJson (n : Node) : JsonValue := nodeObject n.mark (rowJson n.inside)

def faultJson (n : Node) (fault : Fault) : JsonValue :=
  .object [("end", .number n.span.stop), ("message", .string fault.message),
    ("start", .number n.span.start)]

def runParse (s : Surroundings) (format : OutputFormat) (file? : Option Path) : Run := do
  let file := SchemaFile.read (.unsaved 0) (← readInput s file?)
  let faults := file.faults
  let verdict :=
    if faults.isEmpty then s!"OK Parsed {file.nodeCount} node(s)\n"
    else s!"FAILED {faults.length} syntax error(s)\n"
  match format with
  | .json =>
    pure (faults.isEmpty, printJson (.object [
      ("errors", .ofList (fun (n, fault) => faultJson n fault) faults),
      ("tree", treeJson file.root),
      ("valid", .bool faults.isEmpty)]))
  | .text => pure (faults.isEmpty, file.root.outline)
  | .pretty => pure (faults.isEmpty, file.root.outline ++ verdict)

/-! ## Checking -/

def expandPath (s : Surroundings) (path : Path) : Except String (List Path) :=
  if s.disk.isDirectory path then
    (s.disk.discover path).mapError fun e => s!"{e.message}: {e.cause.message}"
  else pure [path]

def prettyReport (r : FileReport) : String :=
  if r.diagnostics.isEmpty then s!"OK {r.path.spelling}\n"
  else printLines (Text.lines (Excerpt.full r.file.source r.path r.diagnostics))

def compactReport (r : FileReport) : String :=
  let text := Excerpt.compact r.path r.diagnostics
  if text = "" then "" else text ++ "\n"

def inputPath : Path := ⟨"<stdin>"⟩

def reports (s : Surroundings) (w : Workspace) (paths : List Path) :
    Except String (List FileReport) := do
  if paths.isEmpty then pure [w.checkSource inputPath (← readInput s none)]
  else
    let files := (← paths.mapM (expandPath s)).flatten
    (w.checkAll files).mapError (·.message)

def runCheck (s : Surroundings) (i : Invocation) (paths : List Path) : Run := do
  let w ← workspace s i
  let reports ← reports s w paths
  let clean := reports.all FileReport.isClean
  match i.format with
  | .json => pure (clean, printJson (.ofList FileReport.toJson reports))
  | .text => pure (clean, String.join (reports.map compactReport))
  | .pretty => pure (clean, String.join (reports.map prettyReport))

/-! ## Definitions -/

def targetOffset (w : Workspace) (file : Path) : Option Target → Except String Nat
  | none => .error "Give either --offset or --line and --col"
  | some (.offset n) => .ok n
  | some (.position p) => do
    let loaded ← (w.load file).mapError (·.message)
    match p.offset? loaded.source with
    | some n => pure n
    | none => .error s!"{file.spelling}:{p.line}:{p.column} is outside the file"

def printNotFound (format : OutputFormat) (offset : Nat) : String :=
  match format with
  | .json => printJson (.object [("found", .bool false)])
  | .text | .pretty => s!"NONE no definition at offset {offset}\n"

def printDefinition (format : OutputFormat) (file : Path) (d : Definition) : String :=
  let span := d.site.node.span
  let path := d.file.path?.getD file
  match format with
  | .json =>
    printJson (.object [
      ("end", .number span.stop),
      ("found", .bool true),
      ("kind", .string d.kind.label),
      ("name", .ofOption JsonValue.string d.name?),
      ("path", .string path.spelling),
      ("start", .number span.start)])
  | .text | .pretty =>
    let name := d.name?.getD "<anonymous>"
    s!"{d.kind.label} {name} {path.spelling}@{span.start}..{span.stop}\n"

def runDefinition (s : Surroundings) (i : Invocation) (file : Path) (target? : Option Target) :
    Run := do
  let w ← workspace s i
  let offset ← targetOffset w file target?
  match ← (w.definitionAt file offset).mapError (·.message) with
  | some d => pure (true, printDefinition i.format file d)
  | none => pure (false, printNotFound i.format offset)

/-! ## Calls -/

def runRoots (s : Surroundings) (i : Invocation) : Run := do
  let paths := (← workspace s i).roots.paths
  match i.format with
  | .json => pure (true, printJson (.ofList (fun (p : Path) => .string p.spelling) paths))
  | .text | .pretty =>
    let empty := if paths.isEmpty then ["No search roots configured"] else []
    pure (true, printLines (empty ++ paths.map Path.spelling))

def runCommand (s : Surroundings) (i : Invocation) : Run :=
  match i.command with
  | .tokens file? => runTokens s i.format file?
  | .parse file? => runParse s i.format file?
  | .check paths => runCheck s i paths
  | .definition file target? => runDefinition s i file target?
  | .roots => runRoots s i

def failure (format : OutputFormat) (message : String) : Outcome :=
  match format with
  | .json => ⟨1, printJson (.object [("error", .string message)]), ""⟩
  | .text | .pretty => ⟨1, "", s!"error: {message}\n"⟩

def usage : String :=
  printLines [
    "Tokenize, parse, check and navigate schema files",
    "",
    "Usage: [OPTIONS] <COMMAND>",
    "",
    "Commands:",
    "  tokens [--file FILE]       print the tokens of a file or of standard input",
    "  parse [--file FILE]        print the syntax tree",
    "  check [PATH ..]            check files, or all schema files below directories",
    "  definition FILE            find the definition of the name at --offset N,",
    "                             or at --line N and --col N",
    "  roots                      print the search roots in effect",
    "",
    "Options:",
    "  -o, --format FORMAT        json, text or pretty",
    "  -r, --root PATH            a search root; may be repeated",
    "      --project DIR          the directory with the project's configuration"]

def version : String := "0.1.0"

/-- The paths that a call may look at, as far as they can be told from what is
known of the disk: its roots may stand in settings that are not read yet. -/
def reach (s : Surroundings) (args : List String) : List Path :=
  match Invocation.read args s.projectDirectory? with
  | .error _ => []
  | .ok i =>
    let dir := i.project?.getD s.directory
    let roots :=
      match workspace s i with
      | .ok w => w.roots.paths
      | .error _ => []
    i.command.paths ++ [Project.pathsFile dir, Project.projectFile dir] ++ roots

def readsInput (s : Surroundings) (args : List String) : Bool :=
  match Invocation.read args s.projectDirectory? with
  | .error _ => false
  | .ok i => i.command.readsInput

def run (s : Surroundings) (args : List String) : Outcome :=
  match Invocation.read args s.projectDirectory? with
  | .error .help => ⟨0, usage, ""⟩
  | .error .version => ⟨0, version ++ "\n", ""⟩
  | .error .invalid => ⟨2, "", usage⟩
  | .ok i =>
    match runCommand s i with
    | .ok (fine, text) => ⟨if fine then 0 else 1, text, ""⟩
    | .error message => failure i.format message

end CommandLine

end SchemaLang
