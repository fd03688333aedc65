import SchemaLang.Proofs.Lookup
import SchemaLang.FileSystem.Memory

/-!
# The search through imports

A name that stands for nothing in its own file is asked of the imported files,
each import under the first root before any under the second. An import
answers when it has a target, the target can be read, its package is what the
name starts with, and the rest of the name stands for something in it. The
first answer counts. An import without an answer is passed over, whatever it
lacks.
-/

set_option autoImplicit false

namespace SchemaLang

/-! ## The first pair with an answer -/

section Pairs

variable {α β γ : Type}

/-- What is found in a list is the answer at the first place with one. -/
theorem exists_of_findSome?_place {f : α → Option γ} {l : List α} {c : γ}
    (h : l.findSome? f = some c) : ∃ (i : Nat) (a : α), l[i]? = some a ∧ f a = some c ∧
      ∀ (i' : Nat) (a' : α) (c' : γ), l[i']? = some a' → f a' = some c' → i ≤ i' := by
  obtain ⟨before, a, after, rfl, ha, hbefore⟩ := List.findSome?_eq_some_iff.mp h
  refine ⟨before.length, a, by simp, ha, fun i' a' c' ha' hc' => ?_⟩
  by_contra hlt
  rw [List.getElem?_append_left (by omega)] at ha'
  rw [hbefore a' (List.mem_of_getElem? ha')] at hc'
  cases hc'

theorem findSome?_pairs (f : α × β → Option γ) (as : List α) (bs : List β) :
    (as.flatMap fun a => bs.map (a, ·)).findSome? f =
      as.findSome? fun a => bs.findSome? fun b => f (a, b) := by
  induction as with
  | nil => rfl
  | cons a as ih =>
    rw [List.flatMap_cons, List.findSome?_append, ih, List.findSome?_map, List.findSome?_cons]
    show ((bs.findSome? fun b => f (a, b)).or _) = _
    cases bs.findSome? fun b => f (a, b) with
    | none => rfl
    | some c => rfl

/-- What is found among pairs is the answer of the first one with one: the
first component counts before the second. -/
theorem exists_of_findSome?_pairs {f : α × β → Option γ} {as : List α} {bs : List β} {c : γ}
    (h : (as.flatMap fun a => bs.map (a, ·)).findSome? f = some c) :
    ∃ (i j : Nat) (a : α) (b : β), as[i]? = some a ∧ bs[j]? = some b ∧ f (a, b) = some c ∧
      ∀ (i' j' : Nat) (a' : α) (b' : β) (c' : γ), as[i']? = some a' → bs[j']? = some b' →
        f (a', b') = some c' → i < i' ∨ i = i' ∧ j ≤ j' := by
  rw [findSome?_pairs] at h
  obtain ⟨i, a, ha, hrow, hi⟩ := exists_of_findSome?_place h
  obtain ⟨j, b, hb, hc, hj⟩ := exists_of_findSome?_place hrow
  refine ⟨i, j, a, b, ha, hb, hc, fun i' j' a' b' c' ha' hb' hc' => ?_⟩
  -- a row with an answer in it has one, and it is not above the first such row
  have hle : i ≤ i' := by
    cases hrow' : bs.findSome? fun b => f (a', b) with
    | none =>
      rw [List.findSome?_eq_none_iff.mp hrow' b' (List.mem_of_getElem? hb')] at hc'
      cases hc'
    | some c'' => exact hi i' a' c'' ha' hrow'
  rcases Nat.lt_or_eq_of_le hle with hlt | rfl
  · exact .inl hlt
  · obtain rfl : a = a' := Option.some.inj (ha.symm.trans ha')
    exact .inr ⟨rfl, hj j' b' c' hb' hc'⟩

end Pairs

theorem SchemaFile.file_of_resolve? {file : SchemaFile} {s : Site} {name : String} {d : Definition}
    (h : file.resolve? s name = some d) : d.file = file := by
  obtain ⟨segments, -, h⟩ := Option.bind_eq_some_iff.mp h
  obtain ⟨found, -, h⟩ := Option.bind_eq_some_iff.mp h
  cases h
  rfl

namespace Resolver

variable {r : Resolver} {file : SchemaFile} {name : String}

/-- Under the root at place `i`, the import at place `j` leads to a readable file at
`target`, and the definition is what the rest of the name behind the package of
that file stands for in it, without its own imports. -/
inductive Offers (r : Resolver) (file : SchemaFile) (name : String) (i j : Nat) (target : Path)
    (d : Definition) : Prop where
  | intro (root : Path) (importPath source package rest : String) (hroot : r.roots[i]? = some root)
      (himport : file.imports[j]? = some importPath)
      (htarget : r.files.importTarget? root importPath = some target)
      (hread : r.files.read target = .ok source)
      (hpackage : (SchemaFile.readSaved target source).package? = some package)
      (hname : name = package ++ "." ++ rest)
      (hd : (SchemaFile.readSaved target source).resolve?
        (SchemaFile.readSaved target source).rootSite rest = some d)

theorem offers_iff {i j : Nat} {target : Path} {d : Definition} :
    r.Offers file name i j target d ↔ ∃ root importPath imported, r.roots[i]? = some root ∧
      file.imports[j]? = some importPath ∧ r.load? root importPath = some imported ∧
        imported.path? = some target ∧ imported.resolveExported? name = some d := by
  constructor
  · rintro ⟨root, importPath, source, package, rest, hroot, himport, htarget, hread, hpackage,
      hname, hd⟩
    exact ⟨root, importPath, .readSaved target source, hroot, himport,
      load?_eq_some_iff.mpr ⟨target, source, htarget, hread, rfl⟩, rfl,
      SchemaFile.resolveExported?_eq_some_iff.mpr ⟨package, rest, hpackage, hname, hd⟩⟩
  · rintro ⟨root, importPath, imported, hroot, himport, hload, hpath, hd⟩
    obtain ⟨target', source, htarget, hread, rfl⟩ := load?_eq_some_iff.mp hload
    obtain rfl : target' = target := Option.some.inj hpath
    obtain ⟨package, rest, hpackage, hname, hd⟩ := SchemaFile.resolveExported?_eq_some_iff.mp hd
    exact ⟨root, importPath, source, package, rest, hroot, himport, htarget, hread, hpackage,
      hname, hd⟩

theorem Offers.unique {i j : Nat} {target target' : Path} {d e : Definition}
    (h : r.Offers file name i j target d) (h' : r.Offers file name i j target' e) :
    target = target' ∧ d = e := by
  obtain ⟨root, importPath, imported, hroot, himport, hload, hpath, hd⟩ := offers_iff.mp h
  obtain ⟨root', importPath', imported', hroot', himport', hload', hpath', he⟩ := offers_iff.mp h'
  obtain rfl := Option.some.inj (hroot.symm.trans hroot')
  obtain rfl := Option.some.inj (himport.symm.trans himport')
  obtain rfl := Option.some.inj (hload.symm.trans hload')
  exact ⟨Option.some.inj (hpath.symm.trans hpath'), Option.some.inj (hd.symm.trans he)⟩

def FirstOffer (r : Resolver) (file : SchemaFile) (name : String) (i j : Nat) (target : Path)
    (d : Definition) : Prop :=
  r.Offers file name i j target d ∧ ∀ (i' j' : Nat) (target' : Path) (e : Definition),
    r.Offers file name i' j' target' e → i < i' ∨ i = i' ∧ j ≤ j'

theorem FirstOffer.unique {i j i' j' : Nat} {target target' : Path} {d e : Definition}
    (h : r.FirstOffer file name i j target d) (h' : r.FirstOffer file name i' j' target' e) :
    d = e := by
  have hle := h.2 i' j' target' e h'.1
  have hge := h'.2 i j target d h.1
  obtain ⟨rfl, rfl⟩ : i = i' ∧ j = j' := by omega
  exact (h.1.unique h'.1).2

theorem exists_firstOffer {d : Definition} (h : r.resolveImported? file name = some d) :
    ∃ i j target, r.FirstOffer file name i j target d := by
  obtain ⟨i, j, root, importPath, hroot, himport, hd, hfirst⟩ := exists_of_findSome?_pairs h
  obtain ⟨imported, hload, hd⟩ := Option.bind_eq_some_iff.mp hd
  obtain ⟨target, source, htarget, hread, rfl⟩ := load?_eq_some_iff.mp hload
  refine ⟨i, j, target, offers_iff.mpr ⟨root, importPath, .readSaved target source, hroot, himport,
    hload, rfl, hd⟩, fun i' j' target' e he => ?_⟩
  obtain ⟨root', importPath', imported', hroot', himport', hload', -, he⟩ := offers_iff.mp he
  exact hfirst i' j' root' importPath' e hroot' himport'
    (Option.bind_eq_some_iff.mpr ⟨imported', hload', he⟩)

theorem Offers.isSome {i j : Nat} {target : Path} {d : Definition}
    (h : r.Offers file name i j target d) : ∃ e, r.resolveImported? file name = some e := by
  obtain ⟨root, importPath, imported, hroot, himport, hload, -, hd⟩ := offers_iff.mp h
  cases hnone : r.resolveImported? file name with
  | some e => exact ⟨e, rfl⟩
  | none =>
    have hmem : (root, importPath) ∈ r.importSites file :=
      List.mem_flatMap.mpr ⟨root, List.mem_of_getElem? hroot,
        List.mem_map_of_mem (List.mem_of_getElem? himport)⟩
    have hsome : (r.load? root importPath).bind (·.resolveExported? name) = some d :=
      Option.bind_eq_some_iff.mpr ⟨imported, hload, hd⟩
    cases hsome.symm.trans (List.findSome?_eq_none_iff.mp hnone _ hmem)

theorem resolveImported?_eq_some_iff {d : Definition} :
    r.resolveImported? file name = some d ↔ ∃ i j target, r.FirstOffer file name i j target d := by
  constructor
  · exact exists_firstOffer
  · rintro ⟨i, j, target, hd⟩
    obtain ⟨e, he⟩ := hd.1.isSome
    obtain ⟨i', j', target', he'⟩ := exists_firstOffer he
    rw [he, hd.unique he']

theorem resolveImported?_eq_none_iff :
    r.resolveImported? file name = none ↔ ∀ i j target d, ¬r.Offers file name i j target d := by
  constructor
  · intro hnone i j target d hd
    obtain ⟨e, he⟩ := hd.isSome
    rw [hnone] at he
    cases he
  · intro hnone
    rw [Option.eq_none_iff_forall_ne_some]
    intro d hd
    obtain ⟨i, j, target, hfirst⟩ := exists_firstOffer hd
    exact hnone i j target d hfirst.1

/-! ## Where definitions come from -/

def Imports (r : Resolver) (file imported : SchemaFile) : Prop :=
  ∃ root ∈ r.roots, ∃ importPath ∈ file.imports, ∃ target source,
    r.files.importTarget? root importPath = some target ∧ r.files.read target = .ok source ∧
      imported = .readSaved target source

theorem Offers.imports {i j : Nat} {target : Path} {d : Definition}
    (h : r.Offers file name i j target d) :
    d.file.path? = some target ∧ r.Imports file d.file := by
  obtain ⟨root, importPath, source, package, rest, hroot, himport, htarget, hread, -, -, hd⟩ := h
  have hfile := SchemaFile.file_of_resolve? hd
  refine ⟨by rw [hfile]; rfl, root, List.mem_of_getElem? hroot, importPath,
    List.mem_of_getElem? himport, target, source, htarget, hread, hfile⟩

/-- What a name stands for is defined in the file itself or in one it imports. -/
theorem file_of_resolve? {s : Site} {d : Definition} (h : r.resolve? file s name = some d) :
    d.file = file ∨ r.Imports file d.file := by
  rcases resolve?_iff.mp h with hd | ⟨-, -, hd⟩
  · exact .inl (SchemaFile.file_of_resolve? hd)
  · obtain ⟨i, j, target, hfirst⟩ := resolveImported?_eq_some_iff.mp hd
    exact .inr hfirst.1.imports.2

/-- Beyond the file itself, a name stands for what the first of its imports offers. -/
theorem resolve?_of_local_eq_none {s : Site}
    (hname : ∀ segment ∈ Text.split '.' name, segment ≠ "") (hlocal : file.resolve? s name = none) :
    r.resolve? file s name = r.resolveImported? file name := by
  rw [resolve?, hlocal, nameSegments?_eq_some_iff.mpr ⟨rfl, hname⟩]
  rfl

/-- The search is exact: the file itself comes first, then the first pair of a
root and an import with an answer, and there is no answer from anywhere else. -/
theorem import_search_exact (r : Resolver) (file : SchemaFile) (s : Site) (name : String)
    (hname : ∀ segment ∈ Text.split '.' name, segment ≠ "") :
    (∀ d, file.resolve? s name = some d → r.resolve? file s name = some d) ∧
    (file.resolve? s name = none →
      (r.resolve? file s name = none ↔ ∀ i j target d, ¬r.Offers file name i j target d) ∧
      (∀ d, r.resolve? file s name = some d ↔ ∃ i j target, r.FirstOffer file name i j target d) ∧
      ∀ i j target d, r.FirstOffer file name i j target d → d.file.path? = some target) ∧
    ∀ d, r.resolve? file s name = some d → d.file = file ∨ r.Imports file d.file := by
  refine ⟨fun d hd => ?_, fun hlocal => ?_, fun d hd => file_of_resolve? hd⟩
  · exact resolve?_iff.mpr (.inl hd)
  · rw [resolve?_of_local_eq_none hname hlocal]
    exact ⟨resolveImported?_eq_none_iff, fun d => resolveImported?_eq_some_iff,
      fun i j target d hfirst => hfirst.1.imports.1⟩

/-- Under the first root one import has another package and the other no such
name, under the second root the first import is missing. -/
theorem import_search_exact_second_root :
    let file := SchemaFile.readSaved ⟨"/m.schema"⟩ "import \"a.schema\"; import \"b.schema\";"
    let files := MemoryFiles.ofList [(⟨"/x/a.schema"⟩, "package pp; type T { }"),
      (⟨"/x/b.schema"⟩, "package p; type U { }"), (⟨"/y/b.schema"⟩, "package p; type T { }")]
    let r : Resolver := ⟨files.fileSystem, [⟨"/x"⟩, ⟨"/y"⟩]⟩
    ∃ i j d, r.FirstOffer file "p.T" i j ⟨"/y/b.schema"⟩ d ∧
      r.resolve? file file.rootSite "p.T" = some d := by
  intro file files r
  obtain ⟨-, himported, -⟩ := import_search_exact r file file.rootSite "p.T" (by decide +kernel)
  obtain ⟨-, hfirst, hpath⟩ := himported (Option.isNone_iff_eq_none.mp (by decide +kernel))
  have hfound : ((r.resolve? file file.rootSite "p.T").map (·.file.path?)) =
    some (some ⟨"/y/b.schema"⟩) := by decide +kernel
  obtain ⟨d, hd, hfile⟩ := Option.map_eq_some_iff.mp hfound
  obtain ⟨i, j, target, hoffer⟩ := (hfirst d).mp hd
  obtain rfl : target = ⟨"/y/b.schema"⟩ :=
    Option.some.inj ((hpath i j target d hoffer).symm.trans hfile)
  exact ⟨i, j, d, hoffer, hd⟩

end Resolver

end SchemaLang
