import SchemaLang.Proofs.RootLines
import SchemaLang.Proofs.Saving

/-!
# Repeated roots

However search roots came about, they are the first occurrences of the paths that
were named for them. Nobody can tell that the others are gone: under a root that
was there before, an import leads to a file with the same text, so it finds nothing
that the first occurrence did not find.
-/

set_option autoImplicit false

namespace SchemaLang

/-! ## Roots after any calls -/

namespace SearchRoots

open RootList

variable {r : SearchRoots} {p : Path}

inductive Call where
  | empty
  | ofList (ps : List Path)
  | parse (text : String)
  | add (p : Path)
  | relativeTo (base : Path)

namespace Call

def apply : Call → SearchRoots → SearchRoots
  | empty, _ => .empty
  | ofList ps, _ => .ofList ps
  | parse text, _ => SearchRoots.parse text
  | add p, r => (r.add p).2
  | relativeTo base, r => r.relativeTo base

def named : Call → List Path → List Path
  | empty, _ => []
  | ofList ps, _ => ps
  | parse text, _ => (RootList.rootLines text).map Path.mk
  | add p, ps => ps ++ [p]
  | relativeTo base, ps => ps.map base.join

end Call

def after (calls : List Call) : SearchRoots := calls.foldl (fun r call => call.apply r) .empty

def namedBy (calls : List Call) : List Path := calls.foldl (fun ps call => call.named ps) []

theorem add_eq_push (r : SearchRoots) (p : Path) : (r.add p).2 = r.push p := by
  rw [RootList.add]
  split
  · rename_i h
    exact (push_of_contains h).symm
  · rfl

/-- A root is new exactly when there is one more root behind it. -/
theorem added_iff_grows (r : SearchRoots) (p : Path) :
    (r.add p).1 = true ↔ r.length < (r.add p).2.length := by
  rw [add_eq_push, add]
  cases hp : r.contains p with
  | true => rw [push_of_contains hp]; simp
  | false => simp [RootList.length, push_of_not_contains hp]

theorem ofList_concat (ps : List Path) (p : Path) : ofList (ps ++ [p]) = (ofList ps).push p := by
  rw [ofList, List.foldl_append]
  rfl

theorem relativeTo_ofList (ps : List Path) (base : Path) :
    (ofList ps).relativeTo base = ofList (ps.map base.join) :=
  RootList.ext (by rw [paths_relativeTo_ofList, paths_ofList])

theorem parse_eq_ofList (text : String) :
    SearchRoots.parse text = ofList ((rootLines text).map Path.mk) :=
  RootList.ext (by rw [paths_parse, paths_ofList])

/-- A call on the roots of a list makes the roots of the list that it names. -/
theorem apply_ofList (call : Call) (ps : List Path) :
    call.apply (ofList ps) = ofList (call.named ps) := by
  cases call with
  | empty => rfl
  | ofList qs => rfl
  | parse text => exact parse_eq_ofList text
  | add p => exact (add_eq_push _ p).trans (ofList_concat ps p).symm
  | relativeTo base => exact relativeTo_ofList ps base

theorem after_eq_ofList (calls : List Call) : after calls = ofList (namedBy calls) := by
  induction calls using List.reverseRecOn with
  | nil => rfl
  | append_singleton calls call ih =>
    rw [after, namedBy, List.foldl_concat, List.foldl_concat, ← after, ← namedBy, ih, apply_ofList]

end SearchRoots

/-! ## Files under equal roots -/

namespace MemoryFiles

variable {m : MemoryFiles} {dir dir' : Path}

theorem hasDirectory_of_same (m : MemoryFiles) (h : dir.same dir' = true) :
    m.hasDirectory dir = m.hasDirectory dir' := by
  have hparts := (Path.same_iff dir dir').mp h
  simp only [hasDirectory, Path.startsWith, Path.same, hparts]

/-- The same names lead from equal directories to equal files. -/
theorem walk?_of_same (m : MemoryFiles) (segments : List String) (h : dir.same dir' = true) :
    Option.Rel (fun target target' => target.same target' = true)
      (m.fileSystem.walk? dir segments) (m.fileSystem.walk? dir' segments) := by
  have hjoin {dir dir' : Path} (h : dir.same dir' = true) (name : String) :
      (dir.joinName name).same (dir'.joinName name) = true := Path.same_join h (Path.same_refl _)
  induction segments generalizing dir dir' with
  | nil => exact .none
  | cons segment rest ih =>
    have hbelow := hjoin h segment
    cases rest with
    | nil =>
      simp only [FileSystem.walk?, fileSystem, m.get?_of_same hbelow]
      split
      · exact .some hbelow
      · exact .none
    | cons next rest =>
      refine rel_bind ?_ fun _ _ hsame => ih hsame
      simp only [fileSystem, m.hasDirectory_of_same hbelow]
      split
      · exact .some hbelow
      · exact .none

theorem importTarget?_of_same (m : MemoryFiles) (importPath : String) (h : dir.same dir' = true) :
    Option.Rel (fun target target' => target.same target' = true)
      (m.fileSystem.importTarget? dir importPath) (m.fileSystem.importTarget? dir' importPath) :=
  m.walk?_of_same _ h

end MemoryFiles

theorem SameNodes.readSaved (path path' : Path) (source : String) :
    SameNodes (.readSaved path source) (.readSaved path' source) where
  root := rfl
  text m hm n hn hid _ := by
    obtain rfl := (SchemaFile.readSaved path source).eq_of_id_eq hm hn hid
    rfl

/-- What a file offers to others does not hang on the path it was read from. -/
theorem SchemaFile.isSome_resolveExported?_readSaved (path path' : Path) (source name : String) :
    ((readSaved path source).resolveExported? name).isSome =
      ((readSaved path' source).resolveExported? name).isSome := by
  rw [resolveExported?, resolveExported?,
    show (readSaved path' source).package? = (readSaved path source).package? from rfl]
  cases (readSaved path source).package? with
  | none => rfl
  | some package =>
    show ((withoutPackage? package name).bind _).isSome =
      ((withoutPackage? package name).bind _).isSome
    cases withoutPackage? package name with
    | none => rfl
    | some rest =>
      exact isSome_eq_of_rel ((SameNodes.readSaved path path' source).twin_rootSite.resolve? rest)

/-! ## Roots that were there before -/

namespace Path

variable {γ : Type} {f : Path → Option γ}

theorem findSome?_filter {keep : Path → Bool} {ps : List Path}
    (h : ∀ p ∈ ps, keep p = false → f p = none) :
    (ps.filter keep).findSome? f = ps.findSome? f := by
  induction ps with
  | nil => rfl
  | cons p ps ih =>
    obtain ⟨hp, hps⟩ := List.forall_mem_cons.mp h
    cases hkeep : keep p with
    | true =>
      rw [List.filter_cons_of_pos hkeep, List.findSome?_cons, List.findSome?_cons, ih hps]
    | false =>
      rw [List.filter_cons_of_neg (by simp [hkeep]), List.findSome?_cons, hp hkeep, ih hps]

/-- A search that finds something under one of two equal paths only if it does under the
other needs the first occurrences only. -/
theorem findSome?_firsts (h : ∀ p q : Path, p.same q = true → (f p).isSome = (f q).isSome)
    (ps : List Path) : (firsts ps).findSome? f = ps.findSome? f := by
  induction ps with
  | nil => rfl
  | cons p ps ih =>
    rw [firsts, List.findSome?_cons, List.findSome?_cons, ← ih]
    cases hp : f p with
    | some found => rfl
    | none =>
      refine findSome?_filter fun q _ hdropped => ?_
      have hsame : q.same p = true := by simpa using hdropped
      have hnot := h q p hsame
      rwa [hp, Option.isSome_none, Option.isSome_eq_false_iff, Option.isNone_iff_eq_none] at hnot

end Path

namespace Resolver

variable (m : MemoryFiles) (ps : List Path)

/-- Under equal roots an import offers a definition of a name, or under neither. -/
theorem isSome_offered_of_same {root root' : Path} (h : root.same root' = true)
    (importPath name : String) :
    (((Resolver.mk m.fileSystem ps).load? root importPath).bind
        (·.resolveExported? name)).isSome =
      (((Resolver.mk m.fileSystem ps).load? root' importPath).bind
        (·.resolveExported? name)).isSome := by
  have htarget := m.importTarget?_of_same importPath h
  rw [load?, load?]
  dsimp only
  generalize m.fileSystem.importTarget? root importPath = target?,
    m.fileSystem.importTarget? root' importPath = target'? at htarget
  cases htarget with
  | none => rfl
  | @some target target' hsame =>
    have hread : (m.fileSystem.read target').toOption = (m.fileSystem.read target).toOption := by
      rw [MemoryFiles.toOption_read, MemoryFiles.toOption_read, m.get?_of_same hsame]
    show (((m.fileSystem.read target).toOption.bind _).bind _).isSome =
      (((m.fileSystem.read target').toOption.bind _).bind _).isSome
    rw [hread]
    cases (m.fileSystem.read target).toOption with
    | none => rfl
    | some source => exact SchemaFile.isSome_resolveExported?_readSaved target target' source name

theorem resolve?_firsts (file : SchemaFile) (s : Site) (name : String) :
    resolve? ⟨m.fileSystem, Path.firsts ps⟩ file s name =
      resolve? ⟨m.fileSystem, ps⟩ file s name := by
  have hsame (p q : Path) (h : p.same q = true) :
      ((file.imports.findSome? fun importPath =>
        ((Resolver.mk m.fileSystem ps).load? p importPath).bind (·.resolveExported? name)).isSome =
      (file.imports.findSome? fun importPath =>
        ((Resolver.mk m.fileSystem ps).load? q importPath).bind
          (·.resolveExported? name)).isSome) := by
    rw [List.isSome_findSome?, List.isSome_findSome?]
    simp only [isSome_offered_of_same m ps h]
  have himported : resolveImported? ⟨m.fileSystem, Path.firsts ps⟩ file name =
      resolveImported? ⟨m.fileSystem, ps⟩ file name := by
    rw [resolveImported?, resolveImported?, importSites, importSites, findSome?_pairs,
      findSome?_pairs]
    exact Path.findSome?_firsts hsame ps
  rw [resolve?, resolve?, himported]

end Resolver

/-- After any calls the roots are the first occurrences of the paths that were named,
no two of them equal, and a root is told to be new exactly when there is one more then.
With a list of roots and with its first occurrences every name stands for the same,
and checking finds the same. -/
theorem repeated_roots_unobservable [Likeness] :
    (∀ calls : List SearchRoots.Call,
      (SearchRoots.after calls).paths = Path.firsts (SearchRoots.namedBy calls) ∧
      (SearchRoots.after calls).paths.Pairwise fun p q => p.same q = false) ∧
    (∀ (r : SearchRoots) (p : Path), (r.add p).1 = true ↔ r.length < (r.add p).2.length) ∧
    ∀ (m : MemoryFiles) (ps : List Path) (file : SchemaFile),
      let every : Resolver := ⟨m.fileSystem, ps⟩
      let firsts : Resolver := ⟨m.fileSystem, (RootList.ofList ps).paths⟩
      (∀ (s : Site) (name : String), every.resolve? file s name = firsts.resolve? file s name) ∧
      (checkFile file every).map (Finding.diagnostic file) =
        (checkFile file firsts).map (Finding.diagnostic file) := by
  refine ⟨fun calls => ?_, SearchRoots.added_iff_grows, ?_⟩
  · rw [SearchRoots.after_eq_ofList, RootList.paths_ofList]
    exact ⟨rfl, Path.pairwise_firsts _⟩
  · intro m ps file every firsts
    have hresolve (origin : SchemaFile) (s : Site) (name : String) :
        every.resolve? origin s name = firsts.resolve? origin s name := by
      rw [show firsts = ⟨m.fileSystem, Path.firsts ps⟩ by rw [← RootList.paths_ofList ps]]
      exact (Resolver.resolve?_firsts m ps origin s name).symm
    have hconcur : every.Concur firsts file := fun origin _ => hresolve origin
    exact ⟨hresolve file, by rw [checkFile, checkFile, Checker.checkSites_eq hconcur]⟩

end SchemaLang
