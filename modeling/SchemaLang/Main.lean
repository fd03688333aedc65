import SchemaLang.CommandLine

/-!
# The program

Gathers what a call may look at, runs it and prints its answer. What is known
of the disk grows in two steps: the settings of the project come first,
because they may name further roots. An import that climbs out of its root
finds only what another path of the call has brought in.
-/

set_option autoImplicit false

namespace SchemaLang

namespace Program

/-- The bytes that a stream still holds behind those that are read. -/
partial def readAll (input : IO.FS.Stream) (bytes : ByteArray) : IO ByteArray := do
  let more ← input.read 65536
  if more.isEmpty then pure bytes else readAll input (bytes ++ more)

def readInput (needed : Bool) : IO CommandLine.Input := do
  let input ← IO.getStdin
  if !needed || (← input.isTty) then pure .terminal
  else pure (.piped (String.fromUTF8? (← readAll input ByteArray.empty)))

/-- Puts what stands at a location, and what is below it if `deep`. -/
partial def load (deep : Bool) (disk : Disk) (location : Location) : IO Disk := do
  let path := (← IO.currentDir) / ("/" ++ "/".intercalate location)
  if ← path.isDir then
    let disk := disk.put location .directory
    if deep then
      let found ← path.readDir
      found.foldlM (fun disk entry => load deep disk (location ++ [entry.fileName])) disk
    else pure disk
  else if ← path.pathExists then
    let bytes? := (← (IO.FS.readBinFile path).toBaseIO).toOption
    pure (disk.put location (.file (bytes?.bind String.fromUTF8?)))
  else pure disk

def loadPath (disk : Disk) (path : Path) : IO Disk := do
  let route := disk.route path
  let disk ← route.foldlM (load false) disk
  load true disk (route.getLastD disk.current)

def explore (s : CommandLine.Surroundings) (args : List String) :
    IO CommandLine.Surroundings := do
  pure { s with disk := ← (CommandLine.reach s args).foldlM loadPath s.disk }

end Program

end SchemaLang

open SchemaLang in
def main (args : List String) : IO UInt32 := do
  let directory : Path := ⟨toString (← IO.currentDir)⟩
  let current := Disk.empty.locationOf directory
  let start : CommandLine.Surroundings :=
    { disk := { Disk.empty.addDirectory current with current }
      directory
      input := .terminal
      searchPaths? := ← IO.getEnv "SCHEMA_SEARCH_PATHS"
      projectDirectory? := ← IO.getEnv "SCHEMA_PROJECT_DIR" }
  let s ← Program.explore (← Program.explore start args) args
  let input ← Program.readInput (CommandLine.readsInput s args)
  let outcome := CommandLine.run { s with input } args
  IO.print outcome.stdout
  IO.eprint outcome.stderr
  pure outcome.exitCode.toUInt32
