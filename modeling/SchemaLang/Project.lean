import SchemaLang.Disk
import SchemaLang.SearchRoots

/-!
# Projects

The search roots of a project come from the first of these that names any:

1. the roots given with the call
2. a list of paths from the environment, with colons between them
3. `.spatial/schema_paths` in the project directory, one path on a line
4. `search_roots` in `spatial-schema.yaml` in the project directory

The roots are then seen from the project directory. A root may be missing,
but one that exists has to be a directory. How a project file is read is left
to the format that it is written in.
-/

set_option autoImplicit false

namespace SchemaLang

/-- A format of project files: the roots that a text lists, if it is a project file. -/
class ProjectFormat where
  roots? : String → Option (List Path)

namespace Project

inductive SettingsError where
  | unreadable (path : Path) (cause : DiskError)
  | invalidProjectFile (path : Path)
  | notADirectory (root : Path)
  deriving DecidableEq

def SettingsError.message : SettingsError → String
  | unreadable path cause => s!"Failed to read {path.spelling}: {cause.message}"
  | invalidProjectFile path =>
    s!"Invalid project file '{path.spelling}': search_roots has to be a list of paths"
  | notADirectory root => s!"Search root '{root.spelling}' is not a directory"

def pathsFile (dir : Path) : Path := dir.joinName ".spatial/schema_paths"

def projectFile (dir : Path) : Path := dir.joinName "spatial-schema.yaml"

def readText (disk : Disk) (path : Path) : Except SettingsError String :=
  (disk.readText path).mapError (.unreadable path)

variable [ProjectFormat]

def readProjectFile (disk : Disk) (path dir : Path) : Except SettingsError SearchRoots := do
  let text ← readText disk path
  match ProjectFormat.roots? text with
  | some roots => pure ((RootList.ofList roots).relativeTo (path.parent?.getD dir))
  | none => throw (.invalidProjectFile path)

def splitPaths (list : String) : List Path := (Text.split ':' list).map Path.mk

def readPathsFile (disk : Disk) (dir : Path) : Except SettingsError SearchRoots :=
  if disk.isFile (pathsFile dir) then (readText disk (pathsFile dir)).map SearchRoots.parse
  else pure .empty

def findRoots (disk : Disk) (dir : Path) (given : List Path) (environment? : Option String) :
    Except SettingsError SearchRoots :=
  if !given.isEmpty then pure (.ofList given)
  else if !(environment?.getD "").isEmpty then pure (.ofList (splitPaths (environment?.getD "")))
  else do
    let roots ← readPathsFile disk dir
    if !roots.isEmpty then pure roots
    else if disk.isFile (projectFile dir) then readProjectFile disk (projectFile dir) dir
    else pure .empty

def misplacedRoot? (disk : Disk) (roots : SearchRoots) : Option Path :=
  roots.paths.find? fun root => (disk.lookup root).toBool && !disk.isDirectory root

def searchRoots (disk : Disk) (dir : Path) (given : List Path) (environment? : Option String) :
    Except SettingsError SearchRoots := do
  let roots := (← findRoots disk dir given environment?).relativeTo dir
  match misplacedRoot? disk roots with
  | some root => throw (.notADirectory root)
  | none => pure roots

end Project

end SchemaLang
