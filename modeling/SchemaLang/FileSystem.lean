import SchemaLang.Path

/-!
# File systems

What importing asks of the place where files are kept: whether a name stands
for a directory or a file below a directory, and the text of a file. Nothing
is ever written.
-/

set_option autoImplicit false

namespace SchemaLang

inductive ReadError where
  | notFound (path : Path)
  | unreadable (path : Path) (reason : String)
  deriving DecidableEq

def ReadError.message : ReadError → String
  | notFound path => s!"schema file not found: {path.spelling}"
  | unreadable path reason => s!"failed to read {path.spelling}: {reason}"

structure FileSystem where
  /-- The directory of this name in a directory. -/
  subdirectory? : Path → String → Option Path
  /-- The file of this name in a directory. -/
  file? : Path → String → Option Path
  read : Path → Except ReadError String

namespace FileSystem

def empty : FileSystem where
  subdirectory? _ _ := none
  file? _ _ := none
  read path := .error (.notFound path)

def walk? (fs : FileSystem) : Path → List String → Option Path
  | _, [] => none
  | dir, [file] => fs.file? dir file
  | dir, segment :: next :: rest =>
    (fs.subdirectory? dir segment).bind fun below => fs.walk? below (next :: rest)

def segments (importPath : String) : List String := (Text.split '/' importPath).filter (· ≠ "")

def importTarget? (fs : FileSystem) (root : Path) (importPath : String) : Option Path :=
  fs.walk? root (segments importPath)

end FileSystem

end SchemaLang
