import SchemaLang.FileSystem

/-!
# Files in memory

A set of texts by path. Paths that are equal by parts name one text, and a
directory exists when a file below it does.
-/

set_option autoImplicit false

namespace SchemaLang

structure MemoryFiles where
  entries : List (Path × String)

namespace MemoryFiles

def empty : MemoryFiles := ⟨[]⟩

def get? (m : MemoryFiles) (path : Path) : Option String :=
  (m.entries.find? fun (p, _) => p.same path).map Prod.snd

def insertEntry (path : Path) (text : String) : List (Path × String) → List (Path × String)
  | [] => [(path, text)]
  | (p, old) :: rest =>
    if p.same path then (p, text) :: rest else (p, old) :: insertEntry path text rest

def insert (m : MemoryFiles) (path : Path) (text : String) : MemoryFiles :=
  ⟨insertEntry path text m.entries⟩

theorem get?_insert_same (m : MemoryFiles) (path : Path) (text : String) :
    (m.insert path text).get? path = some text := by
  suffices h : ∀ entries : List (Path × String),
      ((insertEntry path text entries).find? fun (p, _) => p.same path).map Prod.snd = some text
    from h m.entries
  intro entries
  induction entries with
  | nil => simp [insertEntry, Path.same]
  | cons e rest ih =>
    obtain ⟨p, old⟩ := e
    by_cases h : p.same path = true
    · simp [insertEntry, h]
    · simp only [insertEntry, h]
      simpa [List.find?_cons, h] using ih

theorem get?_insert_of_not_same (m : MemoryFiles) {path other : Path} (text : String)
    (h : path.same other = false) : (m.insert path text).get? other = m.get? other := by
  suffices find : ∀ entries : List (Path × String),
      ((insertEntry path text entries).find? fun (p, _) => p.same other).map Prod.snd =
        (entries.find? fun (p, _) => p.same other).map Prod.snd
    from find m.entries
  intro entries
  induction entries with
  | nil => simp [insertEntry, h]
  | cons e rest ih =>
    obtain ⟨p, old⟩ := e
    by_cases hp : p.same path = true
    · have hq : p.same other = false := by
        rw [← h]
        simp only [Path.same, (Path.same_iff p path).1 hp]
      simp [insertEntry, hp, hq]
    · by_cases hq : p.same other = true
      · simp [insertEntry, hp, hq]
      · simpa [insertEntry, hp, List.find?_cons, hq] using ih

def ofList (files : List (Path × String)) : MemoryFiles :=
  files.foldl (fun m (path, text) => m.insert path text) empty

def hasDirectory (m : MemoryFiles) (dir : Path) : Bool :=
  m.entries.any fun (p, _) => p.startsWith dir && !p.same dir

def fileSystem (m : MemoryFiles) : FileSystem where
  subdirectory? parent name :=
    let dir := parent.joinName name
    if m.hasDirectory dir then some dir else none
  file? dir name :=
    let path := dir.joinName name
    if (m.get? path).isSome then some path else none
  read path :=
    match m.get? path with
    | some text => .ok text
    | none => .error (.notFound path)

end MemoryFiles

end SchemaLang
