import SchemaLang.FileSystem.Memory
import SchemaLang.Proofs.Unresolved
import SchemaLang.Text.Similarity

/-!
# More search roots

With search roots added behind those there are, every name that stood for
something stands for the same. More tags and constructions have something to
construct, so more values are judged by declared types, and no fewer than
before. So every name that is unknown with more roots was unknown with fewer:
it stood for nothing then too, and was not judged in another way.
-/

set_option autoImplicit false

namespace SchemaLang

def Resolver.Below (r r' : Resolver) : Prop :=
  ∀ (file : SchemaFile) (s : Site) (name : String) (d : Definition),
    r.resolve? file s name = some d → r'.resolve? file s name = some d

theorem Resolver.below_append (files : FileSystem) (roots extra : List Path) :
    Below ⟨files, roots⟩ ⟨files, roots ++ extra⟩ := by
  intro file s name d hd
  have hsites : importSites ⟨files, roots ++ extra⟩ file =
      importSites ⟨files, roots⟩ file ++ importSites ⟨files, extra⟩ file := by
    rw [importSites, List.flatMap_append]
    rfl
  rw [resolve?_iff] at hd ⊢
  rcases hd with hlocal | ⟨hlocal, hsegments, hd⟩
  · exact .inl hlocal
  · refine .inr ⟨hlocal, hsegments, ?_⟩
    rw [resolveImported?, hsites, List.findSome?_append]
    exact Option.or_eq_some_iff.mpr (.inl hd)

/-! ## What is judged -/

def Findings.JudgesWithin (fs gs : Findings) : Prop := fs.judged ⊆ gs.judged

namespace Findings.JudgesWithin

variable {fs gs fs' gs' : Findings}

theorem refl (fs : Findings) : fs.JudgesWithin fs := List.Subset.refl _

theorem of_nil (h : fs.judged = []) : fs.JudgesWithin gs := by
  rw [JudgesWithin, h]
  exact List.nil_subset _

theorem append (h : fs.JudgesWithin gs) (h' : fs'.JudgesWithin gs') :
    (fs ++ fs').JudgesWithin (gs ++ gs') :=
  List.append_subset.mpr
    ⟨List.subset_append_of_subset_left _ h, List.subset_append_of_subset_right _ h'⟩

theorem all {α : Type} {xs : List α} {p q : α → Findings} (h : ∀ x, (p x).JudgesWithin (q x)) :
    (Findings.all (xs.map p)).JudgesWithin (.all (xs.map q)) := by
  induction xs with
  | nil => exact refl _
  | cons x xs ih => exact (h x).append ih

theorem ite {p : Prop} [Decidable p] (h : fs.JudgesWithin gs) (h' : fs'.JudgesWithin gs') :
    (if p then fs else fs').JudgesWithin (if p then gs else gs') := by
  split
  · exact h
  · exact h'

end Findings.JudgesWithin

namespace Checker

open Findings (JudgesWithin)

theorem judged_enumLiteral (c : Checker) (value : Site) (type : DeclaredType) (enum : Definition) :
    (c.checkEnumLiteral value type enum).judged = [value.id] := by
  rw [checkEnumLiteral]
  split
  · split
    · split <;> rfl
    · rfl
  · rfl

/-- Whether a value constructs what it should, the same name is judged. -/
theorem judged_instance (c : Checker) (value : Site) (type : DeclaredType) (target : Definition) :
    (c.checkInstance value type target).judged =
      if value.kind = .nameRef then [value.id] else [] := by
  rw [checkInstance]
  dsimp only
  split
  · rename_i hkind
    rw [if_neg (by simp [hkind])]
    split
    · rfl
    · split <;> rfl
  · rename_i hkind
    rw [if_pos hkind]
    split
    · split <;> rfl
    · rfl
  · rename_i hkind
    rw [if_neg hkind]
    rfl

theorem judged_targetExists [Likeness] (c : Checker) (name : Node) (target? : Option Definition) :
    (c.checkTargetExists name target?).judged = [] := by
  rw [checkTargetExists]
  split <;> rfl

theorem judged_typeName [Likeness] (c : Checker) (s : Site) : (c.checkTypeName s).judged = [] := by
  rw [checkTypeName]
  split
  · rfl
  · split
    · split <;> rfl
    · split <;> rfl

theorem judged_all {fs : List Findings} (h : ∀ f ∈ fs, f.judged = []) :
    (Findings.all fs).judged = [] := by
  induction fs with
  | nil => rfl
  | cons f fs ih =>
    obtain ⟨hf, hfs⟩ := List.forall_mem_cons.mp h
    rw [Findings.all, Findings.judged_append, hf, ih hfs, List.append_nil]

theorem judged_fieldType [Likeness] (c : Checker) (s : Site) :
    (c.checkFieldType s).judged = [] := by
  rw [checkFieldType]
  split
  · rfl
  · rw [Findings.judged_append, judged_typeName]
    split
    · exact judged_all (by simp [judged_typeName])
    · rfl

theorem judged_command [Likeness] (c : Checker) (s : Site) : (c.checkCommand s).judged = [] :=
  judged_all (by simp [judged_typeName])

theorem judged_bareName [Likeness] (c : Checker) (judged : List Nat) (s : Site) :
    (c.checkBareName judged s).judged = [] := by
  rw [checkBareName]
  split
  · rfl
  · split <;> rfl

theorem unknownNodes_bareName_eq [Likeness] (c : Checker) (judged : List Nat) (s : Site) :
    unknownNodes (c.checkBareName judged s).reported =
      if !judged.contains s.id && c.lacks s then [s.node] else [] := by
  rw [checkBareName, lacks]
  cases judged.contains s.id with
  | true => rfl
  | false =>
    rw [if_neg Bool.false_ne_true, Bool.not_false, Bool.true_and]
    split <;> simp [unknownNodes, unresolved, Problem.code, Findings.none]

theorem ite_subset_ite {n : Node} {p q : Bool} (h : p = true → q = true) :
    (if p then [n] else []) ⊆ if q then [n] else [] := by
  cases p with
  | false => exact List.nil_subset _
  | true =>
    rw [h rfl]
    exact List.Subset.refl _

section MoreFound

variable {file : SchemaFile} {r r' : Resolver} (h : r.Below r')
include h

theorem within_named (value : Site) (type : DeclaredType) :
    ((Checker.mk file r).checkNamed value type).JudgesWithin
      ((Checker.mk file r').checkNamed value type) := by
  rw [checkNamed, checkNamed]
  cases htarget : r.resolve? type.file type.site type.base with
  | none => exact .of_nil rfl
  | some target =>
    rw [h _ _ _ _ htarget]
    dsimp only
    split
    · rw [JudgesWithin, judged_enumLiteral, judged_enumLiteral]
      exact List.Subset.refl _
    · rw [JudgesWithin, judged_instance, judged_instance]
      exact List.Subset.refl _
    · rw [JudgesWithin, judged_instance, judged_instance]
      exact List.Subset.refl _
    · exact .refl _

omit h in
theorem within_entry {element element' : Site → Site → Findings}
    (helement : ∀ s t, (element s t).JudgesWithin (element' s t)) (parameters : List Site)
    (entry : Site) :
    (checkEntry element parameters entry).JudgesWithin (checkEntry element' parameters entry) := by
  rw [checkEntry, checkEntry]
  split
  · split
    · exact (helement _ _).append (helement _ _)
    · exact .refl _
  · exact .refl _

omit h in
theorem within_bracketed (form : Bracketed) (value : Site) {inner inner' : Findings}
    (hinner : inner.JudgesWithin inner') :
    ((Checker.mk file r).checkBracketed form value inner).JudgesWithin
      ((Checker.mk file r').checkBracketed form value inner') := by
  rw [checkBracketed, checkBracketed]
  exact .ite (.refl _) (.ite (.refl _) hinner)

theorem within_against {element element' : Site → Site → Findings}
    (helement : ∀ s t, (element s t).JudgesWithin (element' s t)) (value : Site)
    (type : DeclaredType) :
    ((Checker.mk file r).checkAgainst element value type).JudgesWithin
      ((Checker.mk file r').checkAgainst element' value type) := by
  rw [checkAgainst, checkAgainst]
  refine .ite (.refl _) ?_
  split
  · exact .refl _
  · split
    · exact .refl _
    · exact helement _ _
  · refine within_bracketed .list value ?_
    split
    · exact .refl _
    · exact .all fun part => helement part _
  · exact within_bracketed .map value (.all fun entry => within_entry helement _ entry)
  · exact within_named h value type

theorem within_value (value : Site) (owner : SchemaFile) (type : Site) :
    ((Checker.mk file r).checkValue value owner type).JudgesWithin
      ((Checker.mk file r').checkValue value owner type) :=
  within_against h (fun s t => within_against h (fun _ _ => .refl _) s (.of owner t)) value _

theorem within_forField (target : Definition) (field : Node) (value : Site) :
    ((Checker.mk file r).checkForField target field value).JudgesWithin
      ((Checker.mk file r').checkForField target field value) := by
  rw [checkForField, checkForField]
  split
  · exact .refl _
  · exact within_value h value _ _

theorem within_namedArgument (target : Definition) (field : Node) (argument : Site) :
    ((Checker.mk file r).checkNamedArgument target field argument).JudgesWithin
      ((Checker.mk file r').checkNamedArgument target field argument) := by
  rw [checkNamedArgument, checkNamedArgument]
  split
  · exact .refl _
  · refine JudgesWithin.append (.refl _) ?_
    split
    · exact .refl _
    · exact within_forField h target field _

/-! What a tag or a construction names: nothing so far, or the same to both. -/

variable {s : Site} {name : Node} {target? target'? : Option Definition}
  (htarget : ∀ d, target? = some d → target'? = some d)
include htarget

omit h in
theorem within_withFields [Likeness] {check check' : Definition → List Node → Findings}
    (hcheck : ∀ target fields, (check target fields).JudgesWithin (check' target fields)) :
    ((Checker.mk file r).withFields name target? check).JudgesWithin
      ((Checker.mk file r').withFields name target'? check') := by
  cases target? with
  | none => exact .of_nil (judged_targetExists _ _ _)
  | some target =>
    rw [htarget target rfl]
    exact .ite (hcheck _ _) (.refl _)

theorem within_positional [Likeness] (arguments : Site) :
    ((Checker.mk file r).checkPositional s name target? arguments).JudgesWithin
      ((Checker.mk file r').checkPositional s name target'? arguments) :=
  within_withFields htarget fun target _ =>
    .ite (.all fun _ => within_forField h target _ _) (.refl _)

theorem within_namedArguments [Likeness] (arguments : List Site) :
    ((Checker.mk file r).checkNamedArguments s name target? arguments).JudgesWithin
      ((Checker.mk file r').checkNamedArguments s name target'? arguments) :=
  within_withFields htarget fun target _ =>
    .ite (.all fun _ => within_namedArgument h target _ _) (.refl _)

omit h in
theorem within_unmatched [Likeness] (n : Node) :
    ((Checker.mk file r).checkUnmatched n name target?).JudgesWithin
      ((Checker.mk file r').checkUnmatched n name target'?) := by
  refine JudgesWithin.append (.of_nil (judged_targetExists _ _ _)) ?_
  cases target? with
  | none => exact .of_nil rfl
  | some target =>
    rw [htarget target rfl]
    exact .refl _

omit htarget

theorem within_tag [Likeness] (s : Site) :
    ((Checker.mk file r).checkTag s).JudgesWithin ((Checker.mk file r').checkTag s) := by
  rw [checkTag, checkTag]
  split
  · exact .refl _
  · rename_i name _
    have htarget := h file s (file.text name)
    refine .ite (within_unmatched htarget _) ?_
    split
    · exact within_positional h htarget _
    · exact within_unmatched htarget _
    · exact within_namedArguments h htarget _

theorem within_construction [Likeness] (s : Site) :
    ((Checker.mk file r).checkConstruction s).JudgesWithin
      ((Checker.mk file r').checkConstruction s) := by
  rw [checkConstruction, checkConstruction]
  split
  · exact .refl _
  · rename_i name _
    have htarget := h file s (file.text name)
    split
    · exact .ite (within_unmatched htarget _) (within_positional h htarget _)
    · exact within_unmatched htarget _

theorem within_site [Likeness] (judged judged' : List Nat) (s : Site) :
    ((Checker.mk file r).checkSite judged s).JudgesWithin
      ((Checker.mk file r').checkSite judged' s) := by
  rw [checkSite, checkSite]
  split
  · exact .of_nil (judged_fieldType _ s)
  · exact .of_nil (judged_command _ s)
  · exact within_tag h s
  · exact within_construction h s
  · exact .of_nil (judged_bareName _ judged s)
  · exact .refl _
  · exact .refl _
  · exact .refl _

/-! ## What is unknown -/

theorem resolve?_of_below {s : Site} {name : String}
    (hnone : (Checker.mk file r').resolve? s name = none) :
    (Checker.mk file r).resolve? s name = none := by
  rw [Option.eq_none_iff_forall_ne_some]
  intro d hd
  have hfound : (Checker.mk file r').resolve? s name = some d := h file s name d hd
  cases hfound.symm.trans hnone

theorem lacks_of_below {s : Site} (hlacks : (Checker.mk file r').lacks s = true) :
    (Checker.mk file r).lacks s = true := by
  rw [lacks, Bool.and_eq_true, Option.isNone_iff_eq_none] at hlacks ⊢
  exact ⟨resolve?_of_below h hlacks.1, hlacks.2⟩

theorem lacksType_of_below {s : Site} (hlacks : (Checker.mk file r').lacksType s = true) :
    (Checker.mk file r).lacksType s = true := by
  rw [lacksType, Bool.and_eq_true] at hlacks ⊢
  exact ⟨hlacks.1, lacks_of_below h hlacks.2⟩

theorem unknownTypes_subset (sites : List Site) :
    (sites.filter (Checker.mk file r').lacksType).map Site.node ⊆
      (sites.filter (Checker.mk file r).lacksType).map Site.node := by
  refine List.map_subset _ fun t ht => ?_
  rw [List.mem_filter] at ht ⊢
  exact ⟨ht.1, lacksType_of_below h ht.2⟩

theorem unknownTarget_subset (s : Site) (name : Node) :
    (Checker.mk file r').unknownTarget name ((Checker.mk file r').resolve? s (file.text name)) ⊆
      (Checker.mk file r).unknownTarget name
        ((Checker.mk file r).resolve? s (file.text name)) := by
  refine ite_subset_ite fun hlacks => ?_
  rw [Bool.and_eq_true, Option.isNone_iff_eq_none] at hlacks ⊢
  exact ⟨resolve?_of_below h hlacks.1, hlacks.2⟩

theorem unknownNodes_bareName_subset [Likeness] {judged judged' : List Nat}
    (hjudged : judged ⊆ judged') (s : Site) : unknownNodes
    ((Checker.mk file r').checkBareName judged' s).reported ⊆
      unknownNodes ((Checker.mk file r).checkBareName judged s).reported := by
  rw [unknownNodes_bareName_eq, unknownNodes_bareName_eq]
  refine ite_subset_ite fun hunknown => ?_
  rw [Bool.and_eq_true, Bool.not_eq_true', Bool.eq_false_iff, ne_eq, List.contains_iff_mem]
    at hunknown ⊢
  exact ⟨fun hid => hunknown.1 (hjudged hid), lacks_of_below h hunknown.2⟩

theorem unknownNodes_site_subset [Likeness] {s : Site} (hs : s ∈ file.sites)
    {judged judged' : List Nat} (hjudged : judged ⊆ judged') :
    unknownNodes ((Checker.mk file r').checkSite judged' s).reported ⊆
      unknownNodes ((Checker.mk file r).checkSite judged s).reported := by
  have hinside {kind : NodeKind} (hkind : s.kind = kind) (hne : kind ≠ .schemaFile) :
      s.node ∈ file.root.inside.preorder :=
    mem_inside_root (c := ⟨file, r⟩) hs (hkind ▸ hne)
  rw [checkSite, checkSite]
  split
  · rename_i hkind
    have hmem := hinside hkind (by decide)
    rw [unknownNodes_fieldType ⟨file, r'⟩ hmem hkind, unknownNodes_fieldType ⟨file, r⟩ hmem hkind]
    exact unknownTypes_subset h _
  · rw [unknownNodes_command, unknownNodes_command]
    exact unknownTypes_subset h _
  · rename_i hkind
    rcases file.tag_children (hinside hkind (by decide)) hkind with
      ⟨-, hnil⟩ | ⟨name, rest, hchildren, hname, -⟩
    · rw [checkTag_of_nil hnil]
      exact List.nil_subset _
    · rw [unknownNodes_tag (c := ⟨file, r'⟩) hs hkind hchildren hname,
        unknownNodes_tag (c := ⟨file, r⟩) hs hkind hchildren hname]
      exact unknownTarget_subset h s name
  · rename_i hkind
    obtain ⟨name, arguments, behind, hchildren, hname, -⟩ :=
      file.construction_children (hinside hkind (by decide)) hkind
    have hfirst : s.node.firstChild? .constructorName = some name := by
      simp [Node.firstChild?, hchildren, hname]
    rw [unknownNodes_construction (c := ⟨file, r'⟩) hs hkind hfirst,
      unknownNodes_construction (c := ⟨file, r⟩) hs hkind hfirst]
    exact unknownTarget_subset h s name
  · exact unknownNodes_bareName_subset h hjudged s
  · rw [unknownNodes_fieldNumbers]
    exact List.nil_subset _
  · rw [unknownNodes_fieldNumbers]
    exact List.nil_subset _
  · exact List.nil_subset _

/-- Over a run, the one that finds more is always ahead in what it has judged, and so
reports no name that the other does not. -/
theorem unknownNodes_sites_subset [Likeness] {sites : List Site}
    (hall : ∀ s ∈ sites, s ∈ file.sites) {judged judged' : List Nat} (hjudged : judged ⊆ judged') :
    unknownNodes ((Checker.mk file r').checkSites judged' sites) ⊆
      unknownNodes ((Checker.mk file r).checkSites judged sites) := by
  induction sites generalizing judged judged' with
  | nil => exact List.Subset.refl _
  | cons s rest ih =>
    obtain ⟨hs, hall⟩ := List.forall_mem_cons.mp hall
    have hahead : judged ++ ((Checker.mk file r).checkSite judged s).judged ⊆
        judged' ++ ((Checker.mk file r').checkSite judged' s).judged :=
      List.append_subset.mpr ⟨List.subset_append_of_subset_left _ hjudged,
        List.subset_append_of_subset_right _ (within_site h judged judged' s)⟩
    rw [checkSites, checkSites, unknownNodes_append, unknownNodes_append]
    exact List.append_subset.mpr
      ⟨List.subset_append_of_subset_left _ (unknownNodes_site_subset h hs hjudged),
        List.subset_append_of_subset_right _ (ih hall hahead)⟩

end MoreFound

end Checker

/-- Search roots behind those there are keep what every name stands for, and
make no name unknown that was not. -/
theorem more_roots_keep_names [Likeness] (files : FileSystem) (file : SchemaFile)
    (roots extra : List Path) :
    (∀ (s : Site) (name : String) (d : Definition),
      Resolver.resolve? ⟨files, roots⟩ file s name = some d →
        Resolver.resolve? ⟨files, roots ++ extra⟩ file s name = some d) ∧
    unresolvedRanges file ⟨files, roots ++ extra⟩ ⊆ unresolvedRanges file ⟨files, roots⟩ := by
  have hbelow := Resolver.below_append files roots extra
  refine ⟨hbelow file, ?_⟩
  rw [SchemaFile.unresolvedRanges_eq, SchemaFile.unresolvedRanges_eq]
  exact List.map_subset _
    (Checker.unknownNodes_sites_subset hbelow (fun _ hs => hs) (List.Subset.refl _))

section

attribute [local instance] Text.likeness

/-- One name is known under the first root, a second one with the second root too. -/
theorem more_roots_keep_names_second_root :
    let file := SchemaFile.readSaved ⟨"/m.schema"⟩
      "import \"a.schema\"; import \"b.schema\"; type M { p.T t = 1; q.U u = 2; W w = 3; }"
    let files := (MemoryFiles.ofList [(⟨"/x/a.schema"⟩, "package p; type T { }"),
      (⟨"/y/b.schema"⟩, "package q; type U { }")]).fileSystem
    let few : Resolver := ⟨files, [⟨"/x"⟩]⟩
    let more : Resolver := ⟨files, [⟨"/x"⟩] ++ [⟨"/y"⟩]⟩
    (∃ d, few.resolve? file file.rootSite "p.T" = some d ∧
      more.resolve? file file.rootSite "p.T" = some d) ∧
    unresolvedRanges file more ⊆ unresolvedRanges file few ∧
    (unresolvedRanges file few).length = 2 ∧ (unresolvedRanges file more).length = 1 := by
  intro file files few more
  obtain ⟨hnames, hranges⟩ := more_roots_keep_names files file [⟨"/x"⟩] [⟨"/y"⟩]
  have hfound : (few.resolve? file file.rootSite "p.T").isSome = true := by decide +kernel
  obtain ⟨d, hd⟩ := Option.isSome_iff_exists.mp hfound
  exact ⟨⟨d, hd, hnames _ _ _ hd⟩, hranges, by decide +kernel, by decide +kernel⟩

end

end SchemaLang
