import SchemaLang.Proofs.JoinedPaths
import SchemaLang.Proofs.TwoHops
import SchemaLang.Workspace
import SchemaLang.Text.Similarity

/-!
# Saving a text that was checked

A text is checked under a path whether or not it is stored there, but what is
imported is always read from the files. So checking a text before and after it
is saved gives the same report, unless saving it changes what an import gives:
because the import leads back to the text, or because its path ends in `.` and
the directory that it then names was not there before. Any other import has the
same target and the same text, for a file cannot be found in a directory that
does not hold it.
-/

set_option autoImplicit false

namespace SchemaLang

namespace MemoryFiles

variable {m : MemoryFiles} {path dir target : Path} {text : String} {segments : List String}

/-! ## Which files there are -/

def keys (m : MemoryFiles) : List Path := m.entries.map Prod.fst

theorem isSome_get?_iff : (m.get? path).isSome = true ↔ ∃ key ∈ m.keys, key.same path = true := by
  simp [get?, keys]

theorem hasDirectory_iff : m.hasDirectory dir = true ↔
    ∃ key ∈ m.keys, key.startsWith dir = true ∧ key.same dir = false := by
  simp [hasDirectory, keys]

theorem keys_insert (m : MemoryFiles) (path : Path) (text : String) :
    (m.insert path text).keys =
      if (m.get? path).isSome then m.keys else m.keys ++ [path] := by
  suffices h : ∀ entries : List (Path × String), (insertEntry path text entries).map Prod.fst =
      if ((entries.find? fun entry => entry.1.same path).map Prod.snd).isSome then
        entries.map Prod.fst else entries.map Prod.fst ++ [path] from h m.entries
  intro entries
  induction entries with
  | nil => rfl
  | cons entry rest ih =>
    obtain ⟨key, old⟩ := entry
    cases hkey : key.same path with
    | true => simp [insertEntry, hkey]
    | false =>
      have hfind : ((key, old) :: rest).find? (fun entry => entry.1.same path) =
          rest.find? fun entry => entry.1.same path := List.find?_cons_of_neg (by simp [hkey])
      rw [insertEntry, if_neg (by simp [hkey]), hfind, List.map_cons, ih, List.map_cons]
      split <;> rfl

theorem subset_keys_insert : m.keys ⊆ (m.insert path text).keys := by
  rw [keys_insert]
  split
  · exact fun _ h => h
  · exact List.subset_append_left _ _

theorem isSome_get?_insert (h : (m.get? target).isSome = true) :
    ((m.insert path text).get? target).isSome = true := by
  obtain ⟨key, hkey, hsame⟩ := isSome_get?_iff.mp h
  exact isSome_get?_iff.mpr ⟨key, subset_keys_insert hkey, hsame⟩

theorem hasDirectory_insert (h : m.hasDirectory dir = true) :
    (m.insert path text).hasDirectory dir = true := by
  obtain ⟨key, hkey, hbelow⟩ := hasDirectory_iff.mp h
  exact hasDirectory_iff.mpr ⟨key, subset_keys_insert hkey, hbelow⟩

theorem toOption_read (m : MemoryFiles) (path : Path) :
    (m.fileSystem.read path).toOption = m.get? path := by
  simp only [fileSystem]
  cases m.get? path <;> rfl

theorem get?_of_same (m : MemoryFiles) {p q : Path} (h : p.same q = true) :
    m.get? p = m.get? q := by
  simp only [get?, Path.same, (Path.same_iff p q).mp h]

theorem fileSystem_insert_of_stored (h : m.get? path = some text) :
    (m.insert path text).fileSystem = m.fileSystem := by
  have hkeys : (m.insert path text).keys = m.keys := by rw [keys_insert, h]; rfl
  have hget (other : Path) : (m.insert path text).get? other = m.get? other := by
    cases hsame : path.same other with
    | false => exact get?_insert_of_not_same m text hsame
    | true => rw [← get?_of_same _ hsame, ← get?_of_same _ hsame, get?_insert_same, h]
  have hdirectory (dir : Path) : (m.insert path text).hasDirectory dir = m.hasDirectory dir := by
    rw [Bool.eq_iff_iff, hasDirectory_iff, hasDirectory_iff, hkeys]
  simp only [fileSystem, hget, hdirectory]

/-! ## Walking to a file -/

def Plain (segments : List String) : Prop :=
  ∀ segment ∈ segments, '/' ∉ segment.toList ∧ segment ≠ ""

theorem plain_segments (importPath : String) : Plain (FileSystem.segments importPath) := by
  intro segment hsegment
  obtain ⟨hsplit, hne⟩ := List.mem_filter.mp hsegment
  exact ⟨Text.not_mem_of_mem_split hsplit, of_decide_eq_true hne⟩

theorem file?_eq_some_iff {name : String} : m.fileSystem.file? dir name = some target ↔
    target = dir.joinName name ∧ (m.get? target).isSome = true := by
  simp only [fileSystem]
  split
  · rename_i h
    rw [Option.some.injEq, eq_comm]
    exact ⟨fun heq => ⟨heq, heq ▸ h⟩, And.left⟩
  · rename_i h
    exact iff_of_false (by simp) fun ⟨heq, hsome⟩ => h (heq ▸ hsome)

theorem subdirectory?_eq_some_iff {name : String} {below : Path} :
    m.fileSystem.subdirectory? dir name = some below ↔
      below = dir.joinName name ∧ m.hasDirectory below = true := by
  simp only [fileSystem]
  split
  · rename_i h
    rw [Option.some.injEq, eq_comm]
    exact ⟨fun heq => ⟨heq, heq ▸ h⟩, And.left⟩
  · rename_i h
    exact iff_of_false (by simp) fun ⟨heq, hsome⟩ => h (heq ▸ hsome)

theorem isSome_of_walk? (h : m.fileSystem.walk? dir segments = some target) :
    (m.get? target).isSome = true := by
  induction segments generalizing dir with
  | nil => cases h
  | cons segment rest ih =>
    cases rest with
    | nil => exact (file?_eq_some_iff.mp h).2
    | cons next rest =>
      obtain ⟨below, -, hwalk⟩ := Option.bind_eq_some_iff.mp h
      exact ih hwalk

/-- A walk whose last piece is not `.` ends strictly below where it begins. -/
theorem below_of_walk? (hplain : Plain segments) (hlast : segments.getLast? ≠ some ".")
    (h : m.fileSystem.walk? dir segments = some target) :
    ∃ part, dir.parts ++ [part] <+: target.parts := by
  induction segments generalizing dir with
  | nil => cases h
  | cons segment rest ih =>
    obtain ⟨⟨hslash, hempty⟩, hplain⟩ := List.forall_mem_cons.mp hplain
    cases rest with
    | nil =>
      obtain ⟨rfl, -⟩ := file?_eq_some_iff.mp h
      obtain ⟨part, hpart⟩ := dir.exists_parts_joinName hslash hempty (by simpa using hlast)
      exact ⟨part, hpart ▸ List.prefix_rfl⟩
    | cons next rest =>
      obtain ⟨below, hbelow, hwalk⟩ := Option.bind_eq_some_iff.mp h
      obtain ⟨rfl, -⟩ := subdirectory?_eq_some_iff.mp hbelow
      obtain ⟨part, hpart⟩ := ih hplain (by simpa using hlast) hwalk
      obtain ⟨more, hmore⟩ := dir.parts_isPrefix_joinName hslash
      rw [← hmore] at hpart
      obtain ⟨first, others, hfirst⟩ := List.exists_cons_of_ne_nil
        (show more ++ [part] ≠ [] by simp)
      rw [List.append_assoc, hfirst] at hpart
      refine ⟨first, List.IsPrefix.trans ?_ hpart⟩
      exact ⟨others, by rw [List.append_assoc]; rfl⟩

/-- Where a walk to a file begins there is a directory: it holds the file. -/
theorem hasDirectory_of_walk? (hplain : Plain segments) (hlast : segments.getLast? ≠ some ".")
    (h : m.fileSystem.walk? dir segments = some target) : m.hasDirectory dir = true := by
  obtain ⟨part, hpart⟩ := below_of_walk? hplain hlast h
  obtain ⟨key, hkey, hsame⟩ := isSome_get?_iff.mp (isSome_of_walk? h)
  have hkeyParts : key.parts = target.parts := (Path.same_iff key target).mp hsame
  refine hasDirectory_iff.mpr ⟨key, hkey, ?_, ?_⟩
  · rw [Path.startsWith, List.isPrefixOf_iff_prefix, hkeyParts]
    exact (List.prefix_append _ _).trans hpart
  · rw [Bool.eq_false_iff, Ne, Path.same_iff, hkeyParts]
    intro heq
    have hlength := hpart.length_le
    rw [heq, List.length_append, List.length_singleton] at hlength
    omega

/-- What can be found is found when one more file is there. -/
theorem walk?_insert (h : m.fileSystem.walk? dir segments = some target) :
    (m.insert path text).fileSystem.walk? dir segments = some target := by
  induction segments generalizing dir with
  | nil => cases h
  | cons segment rest ih =>
    cases rest with
    | nil =>
      obtain ⟨htarget, hsome⟩ := file?_eq_some_iff.mp h
      exact file?_eq_some_iff.mpr ⟨htarget, isSome_get?_insert hsome⟩
    | cons next rest =>
      obtain ⟨below, hbelow, hwalk⟩ := Option.bind_eq_some_iff.mp h
      obtain ⟨hjoin, hdirectory⟩ := subdirectory?_eq_some_iff.mp hbelow
      refine Option.bind_eq_some_iff.mpr ⟨below, ?_, ih hwalk⟩
      exact subdirectory?_eq_some_iff.mpr ⟨hjoin, hasDirectory_insert hdirectory⟩

/-- A file other than the saved one was found before: each directory on the way
holds it. -/
theorem walk?_of_insert (hplain : Plain segments) (hlast : segments.getLast? ≠ some ".")
    (htarget : target.same path = false)
    (h : (m.insert path text).fileSystem.walk? dir segments = some target) :
    m.fileSystem.walk? dir segments = some target := by
  induction segments generalizing dir with
  | nil => cases h
  | cons segment rest ih =>
    obtain ⟨⟨hslash, hempty⟩, hplain⟩ := List.forall_mem_cons.mp hplain
    have hother := Path.not_same_symm htarget
    cases rest with
    | nil =>
      obtain ⟨hjoin, hsome⟩ := file?_eq_some_iff.mp h
      rw [get?_insert_of_not_same m text hother] at hsome
      exact file?_eq_some_iff.mpr ⟨hjoin, hsome⟩
    | cons next rest =>
      obtain ⟨below, hbelow, hwalk⟩ := Option.bind_eq_some_iff.mp h
      obtain ⟨hjoin, -⟩ := subdirectory?_eq_some_iff.mp hbelow
      have hlast : (next :: rest).getLast? ≠ some "." := by simpa using hlast
      have hbefore := ih hplain hlast hwalk
      exact Option.bind_eq_some_iff.mpr ⟨below,
        subdirectory?_eq_some_iff.mpr ⟨hjoin, hasDirectory_of_walk? hplain hlast hbefore⟩, hbefore⟩

/-! ## Imports that saving does not touch -/

/-- No import of the file leads to the saved text, unless the same text stood
there before, and one whose path ends in `.` has the same target as before. -/
def Unaffected (m : MemoryFiles) (path : Path) (text : String) (roots : List Path)
    (file : SchemaFile) : Prop :=
  ∀ root ∈ roots, ∀ importPath ∈ file.imports,
    (∀ target, (m.insert path text).fileSystem.importTarget? root importPath = some target →
      target.same path = true → m.get? path = some text) ∧
    ((FileSystem.segments importPath).getLast? = some "." →
      (m.insert path text).fileSystem.importTarget? root importPath =
        m.fileSystem.importTarget? root importPath)

theorem sameImports_of_unaffected {roots : List Path} {file : SchemaFile}
    (h : m.Unaffected path text roots file) :
    m.fileSystem.SameImports (m.insert path text).fileSystem roots file := by
  by_cases hstored : m.get? path = some text
  · rw [fileSystem_insert_of_stored hstored]
    exact fun _ _ _ _ => ⟨rfl, fun _ _ => rfl⟩
  intro root hroot importPath himport
  obtain ⟨hback, hhere⟩ := h root hroot importPath himport
  have hother {target : Path}
      (h : (m.insert path text).fileSystem.importTarget? root importPath = some target) :
      target.same path = false := by
    rw [Bool.eq_false_iff]
    exact fun hsame => hstored (hback target h hsame)
  have htarget : m.fileSystem.importTarget? root importPath =
      (m.insert path text).fileSystem.importTarget? root importPath := by
    by_cases hlast : (FileSystem.segments importPath).getLast? = some "."
    · exact (hhere hlast).symm
    · refine Option.ext fun target => ⟨walk?_insert, fun h => ?_⟩
      exact walk?_of_insert (plain_segments importPath) hlast (hother h) h
  refine ⟨htarget, fun target hfound => ?_⟩
  rw [toOption_read, toOption_read,
    get?_insert_of_not_same m text (Path.not_same_symm (hother (htarget ▸ hfound)))]

end MemoryFiles

/-! ## Reports before and after saving -/

namespace Workspace

def SavingAgrees [Likeness] (m : MemoryFiles) (roots : SearchRoots) (path : Path)
    (text : String) : Prop :=
  ((Workspace.mk (m.insert path text).fileSystem roots).check path).map FileReport.diagnostics =
    .ok ((Workspace.mk m.fileSystem roots).checkSource path text).diagnostics

variable {m : MemoryFiles} {roots : SearchRoots} {path : Path} {text : String}

/-- A saved text is checked as it was saved, with what it then imports. -/
theorem check_insert [Likeness] : (Workspace.mk (m.insert path text).fileSystem roots).check path =
    .ok ((Workspace.mk (m.insert path text).fileSystem roots).checkSource path text) := by
  have hread : (m.insert path text).fileSystem.read path = .ok text := by
    simp only [MemoryFiles.fileSystem, MemoryFiles.get?_insert_same]
  rw [check, hread]
  rfl

/-- Checking a text agrees with saving it first, if saving does not affect what it
and the files that it imports import. -/
theorem saving_agrees [Likeness] (hfile : m.Unaffected path text roots.paths (.readSaved path text))
    (himported : ∀ imported,
      Resolver.Imports ⟨m.fileSystem, roots.paths⟩ (.readSaved path text) imported →
        m.Unaffected path text roots.paths imported) :
    SavingAgrees m roots path text := by
  have hconcur : Resolver.Concur ⟨m.fileSystem, roots.paths⟩
      ⟨(m.insert path text).fileSystem, roots.paths⟩ (.readSaved path text) :=
    Resolver.concur_of_sameImports (MemoryFiles.sameImports_of_unaffected hfile)
      fun imported h => MemoryFiles.sameImports_of_unaffected (himported imported h)
  rw [SavingAgrees, check_insert]
  refine congrArg Except.ok (congrArg (List.map _) ?_)
  rw [resolver, resolver, checkFile, checkFile, Checker.checkSites_eq hconcur]

section

attribute [local instance] Text.likeness

/-- A text is saved over an older one, next to the file that it imports. -/
theorem saving_agrees_over_older_text :
    let text := "import \"a.schema\"; [p.T(true)] type M { }"
    let path : Path := ⟨"/x/m.schema"⟩
    let m := MemoryFiles.ofList
      [(⟨"/x/a.schema"⟩, "package p; import \"b.schema\"; type T { q.U u = 1; }"),
        (path, "package old;"), (⟨"/x/b.schema"⟩, "package q; type U { }")]
    let roots := RootList.ofList [⟨"/x"⟩]
    (m.Unaffected path text roots.paths (.readSaved path text) ∧
      ∀ imported, Resolver.Imports ⟨m.fileSystem, roots.paths⟩ (.readSaved path text) imported →
        m.Unaffected path text roots.paths imported) ∧
    SavingAgrees m roots path text ∧
    ((Workspace.mk m.fileSystem roots).checkSource path text).diagnostics.map (·.code) =
      [.typeMismatch] := by
  intro text path m roots
  have hroots : roots.paths = [⟨"/x"⟩] := by decide +kernel
  have hunaffected (file : SchemaFile) (name : String) (target : Path)
      (himports : file.imports = [name])
      (hlast : (FileSystem.segments name).getLast? ≠ some ".")
      (htarget : (m.insert path text).fileSystem.importTarget? ⟨"/x"⟩ name = some target)
      (hother : target.same path = false) : m.Unaffected path text roots.paths file := by
    intro root hroot importPath himport
    rw [hroots] at hroot
    obtain rfl := List.mem_singleton.mp hroot
    rw [himports] at himport
    obtain rfl := List.mem_singleton.mp himport
    refine ⟨fun found hfound hsame => ?_, fun h => absurd h hlast⟩
    obtain rfl := Option.some.inj (htarget.symm.trans hfound)
    rw [hother] at hsame
    cases hsame
  have hfile : m.Unaffected path text roots.paths (.readSaved path text) :=
    hunaffected _ "a.schema" ⟨"/x/a.schema"⟩ (by decide +kernel) (by decide +kernel)
      (by decide +kernel) (by decide +kernel)
  have himported (imported : SchemaFile)
      (h : Resolver.Imports ⟨m.fileSystem, roots.paths⟩ (.readSaved path text) imported) :
      m.Unaffected path text roots.paths imported := by
    obtain ⟨root, hroot, importPath, himport, target, source, hfound, hread, rfl⟩ := h
    rw [hroots] at hroot
    obtain rfl := List.mem_singleton.mp hroot
    have himports : (SchemaFile.readSaved path text).imports = ["a.schema"] := by decide +kernel
    rw [himports] at himport
    obtain rfl := List.mem_singleton.mp himport
    obtain rfl : (⟨"/x/a.schema"⟩ : Path) = target := by
      have htarget : m.fileSystem.importTarget? ⟨"/x"⟩ "a.schema" = some ⟨"/x/a.schema"⟩ := by
        decide +kernel
      exact Option.some.inj (htarget.symm.trans hfound)
    obtain rfl : "package p; import \"b.schema\"; type T { q.U u = 1; }" = source := by
      have htext : (m.fileSystem.read ⟨"/x/a.schema"⟩).toOption =
        some "package p; import \"b.schema\"; type T { q.U u = 1; }" := by decide +kernel
      rw [hread] at htext
      exact (Option.some.inj htext).symm
    exact hunaffected _ "b.schema" ⟨"/x/b.schema"⟩ (by decide +kernel) (by decide +kernel)
      (by decide +kernel) (by decide +kernel)
  exact ⟨⟨hfile, himported⟩, saving_agrees hfile himported, by decide +kernel⟩

end

/-- Reports with other codes before and after are other reports. -/
theorem not_savingAgrees [Likeness] (h : let reported (n : MemoryFiles) :=
      ((Workspace.mk n.fileSystem roots).checkSource path text).diagnostics.map (·.code)
    reported (m.insert path text) ≠ reported m) : ¬SavingAgrees m roots path text := by
  rw [SavingAgrees, check_insert]
  exact fun heq => h (congrArg _ (Except.ok.inj heq))

section

attribute [local instance] Text.likeness

/-- Saving a text matters to its report when it is imported, by itself or by a file
that it imports, or when it makes a directory that an import goes through. -/
theorem saving_matters :
    -- the text imports itself
    ¬SavingAgrees .empty (.ofList [⟨"/r"⟩]) ⟨"/r/a.schema"⟩
      "package p; import \"a.schema\"; type T { p.T x = 1; }" ∧
    -- the text is imported by a file that it imports
    ¬SavingAgrees (.ofList [(⟨"/r/a.schema"⟩,
        "package a; import \"m.schema\"; type T { m.C c = 1; }")])
      (.ofList [⟨"/r"⟩]) ⟨"/r/m.schema"⟩
      "package m; import \"a.schema\"; enum C { R = 0; } [a.T(R)] type U { }" ∧
    -- the text is saved below a file
    ¬SavingAgrees (.ofList [(⟨"/r/b"⟩, "package q; type T { }")]) (.ofList [⟨"/r"⟩])
      ⟨"/r/b/m.schema"⟩ "import \"b/.\"; type U { q.T x = 1; }" :=
  ⟨not_savingAgrees (by decide +kernel), not_savingAgrees (by decide +kernel),
    not_savingAgrees (by decide +kernel)⟩

end

end Workspace

end SchemaLang
