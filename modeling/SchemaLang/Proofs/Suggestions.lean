import SchemaLang.Proofs.FullNames
import SchemaLang.Proofs.Unresolved
import SchemaLang.Text.Similarity

/-!
# Suggestions within reach

For a name that stands for nothing, the name of another definition of the file is
offered, wherever in the file that stands. In its place the name stands for a type
where the file or a type around the place has such a definition directly in it.
Elsewhere it does not, nor does a name with dots, which is looked up in segments.
Which of the candidates is offered plays no role.
-/

set_option autoImplicit false

namespace SchemaLang

/-! ## Candidates -/

/-- Whatever the scores are, what is offered is one of the candidates. -/
theorem Suggestion.mem_of_best? {score : String → Float} {names : List String} {name : String}
    (h : best? score names = some name) : name ∈ names := by
  let Kept (best : Option (Float × String)) : Prop :=
    ∀ (s : Float) (kept : String), best = some (s, kept) → kept ∈ names
  obtain ⟨⟨s, kept⟩, hbest, rfl⟩ := Option.map_eq_some_iff.mp h
  suffices hall : ∀ (rest : List String) (best : Option (Float × String)), rest ⊆ names →
      Kept best → Kept (rest.foldl _ best) by
    exact hall names none (List.Subset.refl _) (fun _ _ hnone => nomatch hnone) s kept hbest
  intro rest
  induction rest with
  | nil => exact fun best _ hkept => hkept
  | cons head rest ih =>
    intro best hsub hkept
    obtain ⟨hhead, hrest⟩ := List.cons_subset.mp hsub
    refine ih _ hrest fun s' kept' hnext => ?_
    -- what is kept is what was kept before, or the name at hand
    dsimp only at hnext
    split at hnext
    · split at hnext
      · split at hnext
        · cases hnext
          exact hhead
        · cases hnext
          exact hkept _ _ rfl
      · cases hnext
        exact hhead
    · exact hkept _ _ hnext

namespace SchemaFile

variable {file : SchemaFile}

/-- What is offered in place of a text is the name of another definition of the file. -/
theorem exists_of_suggestion? [Likeness] {text name : String}
    (h : file.suggestion? text = some name) :
    name ≠ text ∧
      ∃ n ∈ file.nodes, n.kind ∈ [.type, .enum, .component] ∧ file.name? n = some name := by
  obtain ⟨hmem, hne⟩ := List.mem_filter.mp (Suggestion.mem_of_best? h)
  obtain ⟨n, hn, hname⟩ := List.mem_filterMap.mp hmem
  obtain ⟨hn, hkind⟩ := List.mem_filter.mp hn
  exact ⟨by simpa using hne, n, hn, by simpa [or_assoc] using hkind, hname⟩

end SchemaFile

/-! ## What is reported -/

namespace Checker

open Findings

variable {c : Checker} {s : Site}

variable [Likeness]

def Suggests (c : Checker) (f : Finding) : Prop :=
  f.problem.code = .unresolvedReference → f.replacement? = c.file.suggestion? (c.text f.node)

theorem suggests_of_code {f : Finding} (h : f.problem.code ≠ .unresolvedReference) :
    c.Suggests f := fun hcode => absurd hcode h

theorem suggests_unresolved (problem : Problem) (n : Node) :
    (c.unresolved problem n).All c.Suggests := by
  intro f hf _
  rw [List.mem_singleton.mp hf]

theorem suggests_typeName (s : Site) : (c.checkTypeName s).All c.Suggests := by
  rw [checkTypeName]
  split
  · exact all_none
  · split
    · split
      · exact all_none
      · exact all_of (suggests_of_code (by simp [Problem.code]))
    · split
      · exact all_none
      · exact suggests_unresolved _ _

theorem suggests_fieldType (s : Site) : (c.checkFieldType s).All c.Suggests := by
  rw [checkFieldType]
  split
  · exact all_none
  · refine all_append (suggests_typeName _) ?_
    split
    · exact all_map fun t _ => suggests_typeName t
    · exact all_none

/-- What is found at a tag or a construction stands for nothing only if it is its name. -/
theorem suggests_of_traced {n name : Node} {target? : Option Definition} {f : Finding}
    (h : c.Traced n name target? f) : c.Suggests f := by
  rcases h with h | ⟨-, ⟨-, hcode⟩ | ⟨m, -, hconcerns⟩⟩
  · rw [checkTargetExists] at h
    split at h
    · exact suggests_unresolved _ _ f h
    · cases h
  · exact suggests_of_code (by simp [hcode])
  · refine suggests_of_code ?_
    rcases Problem.code_of_isMatching hconcerns.problem with h | h | h <;> simp [h]

theorem suggests_tag (hs : s ∈ c.file.sites) (hkind : s.kind = .tag) :
    (c.checkTag s).All c.Suggests := by
  rcases c.file.tag_children (mem_inside_root hs (by simp [hkind])) hkind with
    ⟨-, hnil⟩ | ⟨name, rest, hchildren, hname, -⟩
  · rw [checkTag_of_nil hnil]
    exact all_none
  · exact (traced_tag hs hkind hchildren hname).mono fun _ => suggests_of_traced

theorem suggests_construction (hs : s ∈ c.file.sites) (hkind : s.kind = .construction) :
    (c.checkConstruction s).All c.Suggests := by
  obtain ⟨name, arguments, behind, hchildren, hname, -⟩ :=
    c.file.construction_children (mem_inside_root hs (by simp [hkind])) hkind
  have hfirst : s.node.firstChild? .constructorName = some name := by
    simp [Node.firstChild?, hchildren, hname]
  exact (traced_construction hs hkind hfirst).mono fun _ => suggests_of_traced

theorem suggests_bareName (judged : List Nat) (s : Site) :
    (c.checkBareName judged s).All c.Suggests := by
  rw [checkBareName]
  split
  · exact all_none
  · split
    · exact suggests_unresolved _ _
    · exact all_none

theorem suggests_fieldNumbers (s : Site) : (c.checkFieldNumbers s).All c.Suggests :=
  (node_of_fieldNumbers s).mono fun f hf => suggests_of_code (by simp [hf.2])

theorem suggests_site (judged : List Nat) (hs : s ∈ c.file.sites) :
    (c.checkSite judged s).All c.Suggests := by
  rw [checkSite]
  split
  · exact suggests_fieldType s
  · exact all_map fun t _ => suggests_typeName t
  · rename_i hkind
    exact suggests_tag hs hkind
  · rename_i hkind
    exact suggests_construction hs hkind
  · exact suggests_bareName judged s
  · exact suggests_fieldNumbers s
  · exact suggests_fieldNumbers s
  · exact all_none

end Checker

/-- A name that is reported as standing for nothing has a place in the file, and comes
with what is suggested for it. -/
theorem SchemaFile.suggestion_of_mem_checkFile [Likeness] {file : SchemaFile} {r : Resolver}
    {f : Finding} (hf : f ∈ checkFile file r) (hcode : f.problem.code = .unresolvedReference) :
    f.replacement? = file.suggestion? (file.text f.node) ∧ ∃ s ∈ file.sites, s.node = f.node := by
  rcases List.mem_append.mp hf with hf | hf
  · obtain ⟨⟨n, fault⟩, -, rfl⟩ := List.mem_map.mp hf
    cases hcode
  · have hnode := Checker.mem_unknownNodes.mpr ⟨f, hf, hcode, rfl⟩
    obtain ⟨t, ht, hlook, -⟩ := lookup_of_mem_unknownNodes hnode
    obtain ⟨s, hs, hsnode, -⟩ := role_of_lookup ht hlook
    obtain ⟨u, hu, judged, hf⟩ := Checker.exists_of_mem_checkSites hf
    have hsuggests := Checker.suggests_site (c := ⟨file, r⟩) judged hu f hf
    exact ⟨hsuggests hcode, s, hs, hsnode⟩

/-! ## Names without dots -/

namespace SchemaFile

variable {file : SchemaFile} {s scope d : Site} {name : String}

def Declares (file : SchemaFile) (scope : Site) (name : String) : Prop :=
  ∃ d ∈ scope.node.children, d.kind ∈ [.type, .enum, .component] ∧ file.name? d = some name

/-- Where fields do not count, nothing but a type, an enum or a component is found. -/
theorem declares_of_lookup? (h : file.IsScope scope) {fields : Bool}
    (hfields : fields = true → scope.kind ≠ .type) (hd : file.lookup? scope fields name = some d) :
    file.Declares scope name ∧ d.kind ∈ [.type, .enum, .component] ∧
      file.name? d.node = some name := by
  have hfound {kind : NodeKind} (hkind : kind ∈ [.type, .enum, .component])
      (hd : file.findDefinition? scope kind name = some d) : file.Declares scope name ∧
        d.kind ∈ [.type, .enum, .component] ∧ file.name? d.node = some name := by
    obtain ⟨c, hc, rfl, hname, rfl⟩ := exists_of_findDefinition? hd
    exact ⟨⟨c, hc, hkind, hname⟩, hkind, hname⟩
  simp only [lookup?, Option.orElse_eq_orElse, Option.orElse_eq_or, Option.or_eq_some_iff] at hd
  rcases hd with hd | ⟨-, hd | ⟨-, hd | ⟨-, hd⟩⟩⟩
  · exact hfound (by decide) hd
  · split at hd
    · rename_i hcount
      obtain ⟨c, hc, hkind, -⟩ := exists_of_findDefinition? hd
      exact absurd (h.type_of_field hc hkind) (hfields hcount)
    · cases hd
  · exact hfound (by decide) hd
  · exact hfound (by decide) hd

theorem exists_lookup?_of_declares (hplain : '.' ∉ name.toList) (h : file.Declares scope name)
    (fields : Bool) : ∃ d, file.lookup? scope fields name = some d := by
  obtain ⟨c, hc, hkind, hname⟩ := h
  have hne : c.kind ≠ .field := by
    intro hfield
    rw [hfield] at hkind
    exact absurd hkind (by decide)
  have hmember : ∀ kind ∈ [.type, .enum, .component], NodeKind.isMember kind = true := by decide
  exact exists_lookup? (.definition hc (hmember _ hkind) (fun h => absurd h hne) ⟨hname, hplain⟩)
    fun _ => hne

/-- A name without dots is looked for in the file and in the types around the place. -/
theorem resolve?_of_plain (hplain : '.' ∉ name.toList) (hne : name ≠ "") :
    file.resolve? s name = ((file.lookup? file.rootSite true name).or
      ((enclosingTypes s).findSome? fun t => file.lookup? t false name)).map (⟨file, ·⟩) := by
  have hsplit := Text.split_of_not_mem hplain
  have hall : ∀ segment ∈ Text.split '.' name, segment ≠ "" := by simpa [hsplit] using hne
  rw [resolve?_of_segments hall, hsplit]
  rfl

/-- A name without dots stands for nothing in imported files. -/
theorem resolveImported?_of_plain (r : Resolver) (hplain : '.' ∉ name.toList) :
    r.resolveImported? file name = none := by
  rw [Option.eq_none_iff_forall_ne_some]
  intro d hd
  obtain ⟨i, j, target, ⟨root, importPath, source, package, rest, -, -, -, -, -, hname, -⟩, -⟩ :=
    Resolver.resolveImported?_eq_some_iff.mp hd
  apply hplain
  simp [hname]

/-- A name without dots stands for a type exactly where the file or a type around the place
has one of that name directly in it, and else for nothing. -/
theorem resolve?_plain_iff (r : Resolver) (hs : s ∈ file.sites) (hplain : '.' ∉ name.toList)
    (hne : name ≠ "") :
    (∀ d, r.resolve? file s name = some d → d.isType = true ∧ d.name? = some name) ∧
      ((∃ d, r.resolve? file s name = some d) ↔
        ∃ scope ∈ file.rootSite :: enclosingTypes s, file.Declares scope name) := by
  have hlocal : r.resolve? file s name = file.resolve? s name := by
    rw [Resolver.resolve?, resolveImported?_of_plain r hplain, ite_self, Option.orElse_eq_orElse,
      Option.orElse_eq_or, Option.or_none]
  have hscopes : ∀ t ∈ enclosingTypes s, file.IsScope t := by
    intro t ht
    obtain ⟨ht, hkind⟩ := List.mem_filter.mp ht
    exact ⟨((has_of_mem_sites hs).ancestors t ht).1, .inr (beq_iff_eq.mp hkind)⟩
  have hroot : file.rootSite.kind ≠ .type := by
    rw [show file.rootSite.kind = .schemaFile from file.kind_root]
    decide
  rw [hlocal, resolve?_of_plain hplain hne]
  -- what is found stands in one of the scopes
  have hfound {e : Site} (he : (file.lookup? file.rootSite true name).or
      ((enclosingTypes s).findSome? fun t => file.lookup? t false name) = some e) :
      (∃ scope ∈ file.rootSite :: enclosingTypes s, file.Declares scope name) ∧
        e.kind ∈ [.type, .enum, .component] ∧ file.name? e.node = some name := by
    rcases Option.or_eq_some_iff.mp he with he | ⟨-, he⟩
    · obtain ⟨hdeclares, hkind⟩ := declares_of_lookup? isScope_rootSite (fun _ => hroot) he
      exact ⟨⟨_, List.mem_cons_self, hdeclares⟩, hkind⟩
    · obtain ⟨t, ht, he⟩ := List.exists_of_findSome?_eq_some he
      obtain ⟨hdeclares, hkind⟩ := declares_of_lookup? (hscopes t ht) (by simp) he
      exact ⟨⟨t, List.mem_cons_of_mem _ ht, hdeclares⟩, hkind⟩
  refine ⟨fun d hd => ?_, ?_, ?_⟩
  · obtain ⟨e, he, rfl⟩ := Option.map_eq_some_iff.mp hd
    obtain ⟨-, hkind, hname⟩ := hfound he
    refine ⟨?_, hname⟩
    have htype : ∀ kind ∈ [NodeKind.type, .enum, .component],
        ((kind == .type || kind == .component) || kind == .enum) = true := by decide
    exact htype _ hkind
  · rintro ⟨d, hd⟩
    obtain ⟨e, he, -⟩ := Option.map_eq_some_iff.mp hd
    exact (hfound he).1
  · rintro ⟨scope, hscope, hdeclares⟩
    rw [← Option.isSome_iff_exists, Option.isSome_map, Option.isSome_or, Bool.or_eq_true,
      Option.isSome_iff_exists, List.findSome?_isSome_iff]
    rcases List.mem_cons.mp hscope with rfl | hscope
    · exact .inl (exists_lookup?_of_declares hplain hdeclares true)
    · obtain ⟨e, he⟩ := exists_lookup?_of_declares hplain hdeclares false
      exact .inr ⟨scope, hscope, by rw [he]; rfl⟩

/-! ## Names with dots -/

/-- A name with dots stands for nothing that has it as its own. -/
theorem name?_ne_of_dotted {r : Resolver} (hs : s ∈ file.sites) (hdot : '.' ∈ name.toList)
    {d : Definition} (hd : r.resolve? file s name = some d) : d.name? ≠ some name := by
  obtain ⟨scope, path, hpath, -⟩ := Resolver.exists_path_of_resolve? hs hd
  obtain ⟨parent, n, own, hsite, -, hown, -⟩ := hpath.last
  intro hname
  rw [Definition.name?, hsite] at hname
  obtain rfl : own = name := Option.some.inj (hown.name?.symm.trans hname)
  exact hown.plain hdot

/-! ## Suggested names -/

/-- A suggested name is the own name of another definition of the file. In its place it
stands for a type of that name exactly when it is free of dots and the file or a type
around the place has such a definition directly in it. -/
theorem suggestion_within_reach [Likeness] {r : Resolver} {f : Finding} (hf : f ∈ checkFile file r)
    (hcode : f.problem.code = .unresolvedReference) {fix : SuggestedFix}
    (hfix : (f.diagnostic file).fix? = some fix) :
    fix.range = f.node.span ∧ fix.replacement ≠ file.text f.node ∧
    (∃ n ∈ file.nodes, n.kind ∈ [.type, .enum, .component] ∧
      file.name? n = some fix.replacement) ∧
    ∃ s ∈ file.sites, s.node = f.node ∧
      ((∃ d, r.resolve? file s fix.replacement = some d ∧ d.isType = true ∧
          d.name? = some fix.replacement) ↔
        '.' ∉ fix.replacement.toList ∧
          ∃ scope ∈ file.rootSite :: enclosingTypes s, file.Declares scope fix.replacement) ∧
      ('.' ∉ fix.replacement.toList → ∀ d, r.resolve? file s fix.replacement = some d →
        d.isType = true ∧ d.name? = some fix.replacement) := by
  obtain ⟨name, hname, rfl⟩ := Option.map_eq_some_iff.mp hfix
  obtain ⟨hsuggested, s, hs, hnode⟩ := suggestion_of_mem_checkFile hf hcode
  obtain ⟨hother, n, hn, hkind, hnamed⟩ := exists_of_suggestion? (hsuggested.symm.trans hname)
  have hne := (isName_of_name? hn hnamed).ne_empty
  refine ⟨rfl, hother, ⟨n, hn, hkind, hnamed⟩, s, hs, hnode, ?_, fun hplain =>
    (resolve?_plain_iff r hs hplain hne).1⟩
  constructor
  · rintro ⟨d, hd, -, hdname⟩
    have hplain : '.' ∉ name.toList := fun hdot => name?_ne_of_dotted hs hdot hd hdname
    exact ⟨hplain, (resolve?_plain_iff r hs hplain hne).2.mp ⟨d, hd⟩⟩
  · rintro ⟨hplain, hscope⟩
    obtain ⟨htype, hreach⟩ := resolve?_plain_iff r hs hplain hne
    obtain ⟨d, hd⟩ := hreach.mpr hscope
    exact ⟨d, hd, htype d hd⟩

section

attribute [local instance] Text.likeness

/-- A type at the top of the file is within reach of every place. -/
theorem suggestion_at_top_within_reach :
    let file := read (.unsaved 0) "type Position { } type A { Positon p = 1; }"
    ∃ f ∈ checkFile file .localOnly, (f.replacement? = some "Position") ∧
      ∃ s ∈ file.sites, s.node = f.node ∧
        ∃ d, Resolver.localOnly.resolve? file s "Position" = some d ∧ d.isType = true := by
  intro file
  have hfound : ∃ f ∈ checkFile file .localOnly, f.problem.code = .unresolvedReference ∧
      f.replacement? = some "Position" := by decide +kernel
  obtain ⟨f, hf, hcode, hreplacement⟩ := hfound
  have hfix : (f.diagnostic file).fix? =
      some ⟨f.problem.fixDescription "Position", "Position", f.node.span⟩ := by
    rw [Finding.diagnostic, hreplacement]
    rfl
  have hdeclares : file.Declares file.rootSite "Position" :=
    (by decide +kernel : ∃ d ∈ file.rootSite.node.children,
      d.kind ∈ [.type, .enum, .component] ∧ file.name? d = some "Position")
  have hplain : '.' ∉ "Position".toList := by decide +kernel
  obtain ⟨-, -, -, s, hs, hnode, hreach, -⟩ := suggestion_within_reach hf hcode hfix
  obtain ⟨d, hd, htype, -⟩ := hreach.mpr ⟨hplain, _, List.mem_cons_self, hdeclares⟩
  exact ⟨f, hf, hreplacement, s, hs, hnode, d, hd, htype⟩

/-- A type that is nested elsewhere is offered, but it is out of reach. -/
theorem suggestion_out_of_reach :
    let file := read (.unsaved 0) "type A { type Inner { } } type B { Iner x = 1; }"
    ∃ f ∈ checkFile file .localOnly, f.problem.code = .unresolvedReference ∧
      (f.diagnostic file).fix?.map SuggestedFix.replacement = some "Inner" ∧
      ∃ s ∈ file.sites, s.node = f.node ∧
        (Resolver.localOnly.resolve? file s "Inner").isNone = true := by
  intro file
  have hfound : ∃ f ∈ checkFile file .localOnly, f.problem.code = .unresolvedReference ∧
      (f.diagnostic file).fix?.map SuggestedFix.replacement = some "Inner" ∧
      ∀ s ∈ file.sites, s.id = f.node.id →
        (Resolver.localOnly.resolve? file s "Inner").isNone = true := by decide +kernel
  obtain ⟨f, hf, hcode, hfix, hnone⟩ := hfound
  obtain ⟨-, s, hs, hnode⟩ := suggestion_of_mem_checkFile hf hcode
  exact ⟨f, hf, hcode, hfix, s, hs, hnode, hnone s hs (congrArg Node.id hnode)⟩

end

end SchemaFile

end SchemaLang
