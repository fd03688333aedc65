import SchemaLang.FileSystem

/-!
# Disks

The state of a disk: directories and files by their location below the root,
and the directory that relative paths start from. Unlike the equality of
paths, looking up a path follows every step: `..` leaves a directory that has
to exist, and what stands in front of a slash has to be a directory.
-/

set_option autoImplicit false

namespace SchemaLang

abbrev Location := List String

/-- A file whose bytes are not UTF-8 has no text. -/
inductive DiskEntry where
  | directory
  | file (text? : Option String)
  deriving DecidableEq

inductive DiskError where
  | notFound
  | notADirectory
  | isADirectory
  | notText
  deriving DecidableEq

def DiskError.message : DiskError → String
  | notFound => "No such file or directory (os error 2)"
  | notADirectory => "Not a directory (os error 20)"
  | isADirectory => "Is a directory (os error 21)"
  | notText => "stream did not contain valid UTF-8"

structure Disk where
  entries : List (Location × DiskEntry)
  current : Location

namespace Disk

def empty : Disk := ⟨[([], .directory)], []⟩

def get? (d : Disk) (l : Location) : Option DiskEntry :=
  (d.entries.find? (·.1 == l)).map Prod.snd

/-! ## Putting entries -/

def put (d : Disk) (l : Location) (e : DiskEntry) : Disk :=
  { d with entries := (l, e) :: d.entries.filter (·.1 != l) }

def ensureDirectory (d : Disk) (l : Location) : Disk :=
  if (d.get? l).isSome then d else d.put l .directory

def addDirectory (d : Disk) (l : Location) : Disk :=
  (List.range (l.length + 1)).foldl (fun d n => d.ensureDirectory (l.take n)) d

def addFile (d : Disk) (l : Location) (text? : Option String) : Disk :=
  (d.addDirectory l.dropLast).put l (.file text?)

def locationOf (d : Disk) (p : Path) : Location :=
  let names := p.parts.filterMap fun
    | .name text => some text
    | _ => none
  if p.isAbsolute then names else d.current ++ names

/-! ## Looking up -/

def step (d : Disk) (here : Location) (piece : String) : Except DiskError Location :=
  match d.get? here with
  | none => .error .notFound
  | some (.file _) => .error .notADirectory
  | some .directory =>
    if piece = "" ∨ piece = "." then .ok here
    else if piece = ".." then .ok here.dropLast
    else if (d.get? (here ++ [piece])).isSome then .ok (here ++ [piece])
    else .error .notFound

def locate (d : Disk) (p : Path) : Except DiskError Location :=
  if p.spelling = "" then .error .notFound
  else p.pieces.foldlM d.step (if p.isAbsolute then [] else d.current)

def route (d : Disk) (p : Path) : List Location :=
  let start := if p.isAbsolute then [] else d.current
  p.pieces.foldl
    (fun passed piece =>
      let here := passed.getLastD start
      if piece = "" ∨ piece = "." then passed
      else if piece = ".." then passed ++ [here.dropLast]
      else passed ++ [here ++ [piece]])
    [start]

def lookup (d : Disk) (p : Path) : Except DiskError DiskEntry := do
  match d.get? (← d.locate p) with
  | some e => pure e
  | none => .error .notFound

def isDirectory (d : Disk) (p : Path) : Bool :=
  match d.lookup p with
  | .ok .directory => true
  | _ => false

def isFile (d : Disk) (p : Path) : Bool :=
  match d.lookup p with
  | .ok (.file _) => true
  | _ => false

def readText (d : Disk) (p : Path) : Except DiskError String := do
  match ← d.lookup p with
  | .directory => .error .isADirectory
  | .file none => .error .notText
  | .file (some text) => pure text

def fileSystem (d : Disk) : FileSystem where
  subdirectory? parent name :=
    let dir := parent.joinName name
    if d.isDirectory dir then some dir else none
  file? dir name :=
    let path := dir.joinName name
    if d.isFile path then some path else none
  read path :=
    match d.readText path with
    | .ok text => .ok text
    | .error .notFound => .error (.notFound path)
    | .error e => .error (.unreadable path e.message)

/-! ## Finding schema files -/

def schemaExtension : String := "schema"

def isSchemaName (name : String) : Bool := Path.extension? name == some schemaExtension

def schemaBelow? (dir : Location) : Location × DiskEntry → Option (List String)
  | (l, .file _) =>
    if dir.isPrefixOf l && l.getLast?.any isSchemaName then some (l.drop dir.length) else none
  | (_, .directory) => none

structure ListingError where
  dir : Path
  cause : DiskError
  deriving DecidableEq

def ListingError.message (e : ListingError) : String :=
  s!"Failed to read '{e.dir.spelling}': {e.cause.message}"

def discover (d : Disk) (dir : Path) : Except ListingError (List Path) := do
  let l ← (d.locate dir).mapError (.mk dir)
  match d.get? l with
  | some .directory =>
    let found := (d.entries.filterMap (schemaBelow? l)).map (·.foldl Path.joinName dir)
    pure (found.mergeSort fun p q => p.compare q != .gt)
  | _ => .error ⟨dir, .notADirectory⟩

end Disk

end SchemaLang
