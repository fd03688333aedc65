import SchemaLang.Report
import SchemaLang.SearchRoots

/-!
# Workspaces

A file system with the search roots in effect. A workspace reads, checks and
navigates files; the only thing that can fail is reading a file that was
asked for by path.
-/

set_option autoImplicit false

namespace SchemaLang

structure Workspace where
  files : FileSystem
  roots : SearchRoots

namespace Workspace

def resolver (w : Workspace) : Resolver := ⟨w.files, w.roots.paths⟩

def load (w : Workspace) (path : Path) : Except ReadError SchemaFile :=
  (w.files.read path).map (SchemaFile.readSaved path)

variable [Likeness]

def checkSource (w : Workspace) (path : Path) (source : String) : FileReport :=
  .ofFile path (.readSaved path source) w.resolver

def check (w : Workspace) (path : Path) : Except ReadError FileReport :=
  (w.files.read path).map (w.checkSource path)

def checkAll (w : Workspace) (paths : List Path) : Except ReadError (List FileReport) :=
  paths.mapM w.check

def referenceAt? (file : SchemaFile) (offset : Nat) : Option Site :=
  let s := file.siteAt offset
  (s :: s.ancestors).find? (·.kind.isReference)

def definitionAt (w : Workspace) (path : Path) (offset : Nat) :
    Except ReadError (Option Definition) :=
  (w.load path).map fun file =>
    (referenceAt? file offset).bind (w.resolver.resolveReference? file)

end Workspace

end SchemaLang
