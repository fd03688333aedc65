import SchemaLang.Proofs.Provenance

/-!
# Names that stand for nothing

A name is reported where it stands, by the one construct that looks it up: the
name of a type by the field type or the command around it, the name of a tag or
of a construction by that one, a bare name by itself. No two of these look at
the same name, so an unresolved name is reported once, and nothing but a name is.
-/

set_option autoImplicit false

namespace SchemaLang

def unknownNodes (fs : List Finding) : List Node :=
  (fs.filter fun f => f.problem.code == .unresolvedReference).map Finding.node

theorem unknownNodes_append (fs gs : List Finding) :
    unknownNodes (fs ++ gs) = unknownNodes fs ++ unknownNodes gs := by
  simp [unknownNodes]

theorem unknownNodes_flatMap {α : Type} (xs : List α) (report : α → List Finding) :
    unknownNodes (xs.flatMap report) = xs.flatMap fun x => unknownNodes (report x) := by
  induction xs with
  | nil => rfl
  | cons x xs ih => rw [List.flatMap_cons, unknownNodes_append, ih, List.flatMap_cons]

theorem unknownNodes_eq_nil {fs : List Finding}
    (h : ∀ f ∈ fs, f.problem.code ≠ .unresolvedReference) : unknownNodes fs = [] := by
  rw [unknownNodes, List.filter_eq_nil_iff.mpr (by simpa using h), List.map_nil]

namespace Checker

variable (c : Checker)

def lacks (s : Site) : Bool :=
  (c.resolve? s (c.text s.node)).isNone && !c.file.knowsStandard (c.text s.node)

def lacksType (s : Site) : Bool := !isBuiltIn (c.text s.node) && c.lacks s

/-! ## One place -/

theorem unknownNodes_typeName [Likeness] (s : Site) :
    unknownNodes (c.checkTypeName s).reported = if c.lacksType s then [s.node] else [] := by
  rw [checkTypeName, lacksType, lacks]
  cases hbuiltIn : isBuiltIn (c.text s.node) with
  | true => simp [Findings.none, unknownNodes]
  | false =>
    cases hfound : c.resolve? s (c.text s.node) with
    | some d =>
      by_cases hd : d.isType = true <;>
        simp [hd, unknownNodes, Findings.none, Findings.of, Problem.code]
    | none =>
      cases c.file.knowsStandard (c.text s.node) <;>
        simp [unknownNodes, unresolved, Findings.none, Problem.code]

theorem unknownNodes_all [Likeness] {sites : List Site} :
    unknownNodes (Findings.all (sites.map c.checkTypeName)).reported =
      (sites.filter c.lacksType).map Site.node := by
  rw [Findings.reported_all, List.flatMap_map, unknownNodes_flatMap]
  induction sites with
  | nil => rfl
  | cons s sites ih =>
    rw [List.flatMap_cons, ih, unknownNodes_typeName, List.filter_cons]
    split <;> rfl

theorem contains_of_parameterCount? {base : String} {count : Nat}
    (h : Parse.parameterCount? base = some count) :
    KnownNames.generics.contains base = true := by
  unfold Parse.parameterCount? at h
  split at h <;> first | rfl | cases h

/-- A type that is not generic has no parameters, so all its names are looked up. -/
theorem unknownNodes_fieldType [Likeness] {s : Site} (hn : s.node ∈ c.file.root.inside.preorder)
    (hkind : s.kind = .fieldType) :
    unknownNodes (c.checkFieldType s).reported = (s.children.filter c.lacksType).map Site.node := by
  obtain ⟨name, parameters, hchildren, -, -, hcount⟩ := c.file.fieldType_children hn hkind
  have hall : c.checkFieldType s = c.checkTypeName (s.child name) ++
      .all ((parameters.map s.child).map c.checkTypeName) := by
    rw [checkFieldType, Site.children, hchildren, List.map_cons]
    dsimp only
    split
    · rfl
    · rename_i hplain
      obtain rfl : parameters = [] := hcount.resolve_right fun h =>
        hplain (contains_of_parameterCount? h)
      rfl
  rw [hall, Findings.reported_append, unknownNodes_append, unknownNodes_typeName, unknownNodes_all,
    Site.children, hchildren, List.map_cons, List.filter_cons]
  split <;> rfl

theorem unknownNodes_command [Likeness] (s : Site) : unknownNodes (c.checkCommand s).reported =
    ((childSites s .typeRef).filter c.lacksType).map Site.node := c.unknownNodes_all

def unknownTarget (name : Node) (target? : Option Definition) : List Node :=
  if target?.isNone && !c.file.knowsStandard (c.text name) then [name] else []

theorem unknownNodes_targetExists [Likeness] (name : Node) (target? : Option Definition) :
    unknownNodes (c.checkTargetExists name target?).reported = c.unknownTarget name target? := by
  rw [checkTargetExists, unknownTarget]
  split
  · simp [unknownNodes, unresolved, Problem.code]
  · rfl

/-- Besides the name, nothing at a tag or construction is looked up there. -/
theorem unknownNodes_of_traced [Likeness] {n name : Node} {target? : Option Definition}
    {fs : Findings} (htraced : fs.All (c.Traced n name target?))
    (hnone : target? = none → fs.reported = (c.checkTargetExists name none).reported) :
    unknownNodes fs.reported = c.unknownTarget name target? := by
  cases target? with
  | none => rw [hnone rfl, unknownNodes_targetExists]
  | some target =>
    refine (unknownNodes_eq_nil fun f hf => ?_).trans (by simp [unknownTarget])
    rcases htraced f hf with h | ⟨-, ⟨-, hcode⟩ | ⟨m, -, hconcerns⟩⟩
    · simp [checkTargetExists, Findings.none] at h
    · rw [hcode]
      decide
    · rcases Problem.code_of_isMatching hconcerns.problem with h | h | h <;> rw [h] <;> decide

section Targets

variable {c} {s : Site}

theorem reported_unmatched [Likeness] (n name : Node) :
    (c.checkUnmatched n name none).reported = (c.checkTargetExists name none).reported := by
  simp [checkUnmatched, Findings.none]

theorem unknownNodes_tag [Likeness] (hs : s ∈ c.file.sites) (hkind : s.kind = .tag) {name : Node}
    {rest : List Node} (hchildren : s.node.children = name :: rest) (hname : name.kind = .typeRef) :
    unknownNodes (c.checkTag s).reported = c.unknownTarget name (c.resolve? s (c.text name)) := by
  refine c.unknownNodes_of_traced (traced_tag hs hkind hchildren hname) fun hnone => ?_
  have hhead : s.node.children.head?.filter (fun n => decide (n.kind = .typeRef)) = some name := by
    simp [hchildren, hname]
  rw [checkTag, hhead]
  dsimp only
  rw [hnone]
  split
  · exact reported_unmatched _ _
  · split
    · rfl
    · exact reported_unmatched _ _
    · rfl

theorem unknownNodes_construction [Likeness] (hs : s ∈ c.file.sites)
    (hkind : s.kind = .construction) {name : Node}
    (hname : s.node.firstChild? .constructorName = some name) :
    unknownNodes (c.checkConstruction s).reported =
      c.unknownTarget name (c.resolve? s (c.text name)) := by
  refine c.unknownNodes_of_traced (traced_construction hs hkind hname) fun hnone => ?_
  rw [checkConstruction, hname]
  dsimp only
  rw [hnone]
  split
  · split
    · exact reported_unmatched _ _
    · rfl
  · exact reported_unmatched _ _

theorem unknownNodes_bareName [Likeness] (judged : List Nat) (s : Site) :
    unknownNodes (c.checkBareName judged s).reported = [] ∨
      unknownNodes (c.checkBareName judged s).reported = [s.node] ∧ c.lacks s = true := by
  rw [checkBareName]
  split
  · exact .inl rfl
  · split
    · rename_i hlacks
      exact .inr ⟨by simp [unknownNodes, unresolved, Problem.code], hlacks⟩
    · exact .inl rfl

theorem unknownNodes_fieldNumbers (s : Site) :
    unknownNodes (c.checkFieldNumbers s).reported = [] :=
  unknownNodes_eq_nil fun f hf => by
    rw [(node_of_fieldNumbers s f hf).2]
    decide

end Targets

/-! ## Who looks at a name -/

inductive LooksUp (t : Site) : Node → Prop where
  | type {n : Node} (hkind : t.kind = .fieldType) (hn : n ∈ t.node.children) : LooksUp t n
  | command {n : Node} (hkind : t.kind = .command) (hn : n ∈ t.node.children)
      (href : n.kind = .typeRef) : LooksUp t n
  | tag {n : Node} {rest : List Node} (hkind : t.kind = .tag) (hn : t.node.children = n :: rest)
      (href : n.kind = .typeRef) : LooksUp t n
  | construction {n : Node} (hkind : t.kind = .construction)
      (hn : t.node.firstChild? .constructorName = some n) : LooksUp t n
  | bareName (hkind : t.kind = .nameRef) : LooksUp t t.node

section Places

variable {c} {file : SchemaFile} {s t u : Site} {n : Node}

theorem LooksUp.child (ht : t ∈ file.sites) (h : LooksUp t n) :
    (t.kind = .nameRef ∧ n = t.node) ∨ (n ∈ t.node.children ∧
      n.kind ∈ [.typeName, .typeParameter, .typeRef, .constructorName]) := by
  cases h with
  | type hkind hn =>
    have hallowed := file.kind_of_mem_children (file.node_mem_nodes ht) hn
    rw [show t.node.kind = .fieldType from hkind] at hallowed
    have hnames : NodeKind.fieldType.inhabitants ⊆
        [.typeName, .typeParameter, .typeRef, .constructorName] := by decide
    exact .inr ⟨hn, hnames hallowed⟩
  | command _ hn href => exact .inr ⟨hn, by rw [href]; decide⟩
  | tag _ hn href => exact .inr ⟨by simp [hn], by rw [href]; decide⟩
  | construction _ hn =>
    have hkind := List.find?_some hn
    exact .inr ⟨List.mem_of_find?_eq_some hn, by rw [eq_of_beq hkind]; decide⟩
  | bareName hkind => exact .inl ⟨hkind, rfl⟩

theorem LooksUp.unique (ht : t ∈ file.sites) (hu : u ∈ file.sites) (htn : LooksUp t n)
    (hun : LooksUp u n) : t = u := by
  rcases htn.child ht with ⟨hkind, rfl⟩ | ⟨htchild, htkind⟩ <;>
    rcases hun.child hu with ⟨hkind', heq⟩ | ⟨huchild, hukind⟩
  · exact file.site_eq_of_node_eq ht hu heq
  · rw [show t.node.kind = .nameRef from hkind] at hukind
    exact absurd hukind (by decide)
  · rw [heq, show u.node.kind = .nameRef from hkind'] at htkind
    exact absurd htkind (by decide)
  · exact file.parent_unique ht hu htchild huchild

theorem LooksUp.lexeme (ht : t ∈ file.sites) (h : LooksUp t n) :
    n ∈ file.root.inside.preorder ∧ n.kind.isLexeme = true := by
  rcases h.child ht with ⟨hkind, rfl⟩ | ⟨hchild, hkind⟩
  · have hkind : t.node.kind = .nameRef := hkind
    exact ⟨file.mem_of_kind_ne (file.node_mem_nodes ht) (by simp [hkind]), by rw [hkind]; rfl⟩
  · refine ⟨file.mem_of_mem_children (file.node_mem_nodes ht) hchild, ?_⟩
    simp only [List.mem_cons, List.not_mem_nil, or_false] at hkind
    rcases hkind with h | h | h | h <;> rw [h] <;> rfl

theorem nodup_children (ht : t ∈ file.sites) : t.node.children.Nodup := by
  have hids : (t.node.children.map Node.id).Nodup := by
    rw [List.nodup_iff_count_le_one]
    intro id
    by_cases hid : id ∈ t.node.children.map Node.id
    · obtain ⟨m, hm, rfl⟩ := List.mem_map.mp hid
      exact (file.child_of_mem_children _ _ (file.node_mem_nodes ht) hm).2.1.le
    · rw [List.count_eq_zero_of_not_mem hid]
      exact Nat.zero_le 1
  exact List.Nodup.of_map _ hids

/-- What passes a test among some of the children is one of them, and only once. -/
theorem nodup_filter_children (ht : t ∈ file.sites) {nodes : List Node}
    (hsub : nodes.Sublist t.node.children) (p : Site → Bool) :
    (((nodes.map t.child).filter p).map Site.node).Nodup ∧
      ∀ n ∈ ((nodes.map t.child).filter p).map Site.node, n ∈ nodes := by
  have hnodes : (nodes.map t.child).map Site.node = nodes := by
    rw [List.map_map, show Site.node ∘ t.child = id from rfl, List.map_id]
  have hall : (((nodes.map t.child).filter p).map Site.node).Sublist nodes := by
    have hfilter := (List.filter_sublist (p := p) (l := nodes.map t.child)).map Site.node
    rwa [hnodes] at hfilter
  exact ⟨(hall.trans hsub).nodup (nodup_children ht), fun n hn => hall.subset hn⟩

theorem lookUp_unknownTarget (hlook : LooksUp t n) (target? : Option Definition) :
    (c.unknownTarget n target?).Nodup ∧ ∀ m ∈ c.unknownTarget n target?, LooksUp t m := by
  rw [unknownTarget]
  split
  · simpa using hlook
  · simp

/-- One place reports each name at most once, and no name but those looked up there. -/
theorem unknownNodes_site [Likeness] (ht : t ∈ c.file.sites) (judged : List Nat) :
    (unknownNodes (c.checkSite judged t).reported).Nodup ∧
      ∀ n ∈ unknownNodes (c.checkSite judged t).reported, LooksUp t n := by
  rw [checkSite]
  split
  · rename_i hkind
    rw [c.unknownNodes_fieldType (mem_inside_root ht (by simp [hkind])) hkind]
    obtain ⟨hnodup, hmem⟩ := nodup_filter_children ht (List.Sublist.refl _) c.lacksType
    exact ⟨hnodup, fun n hn => .type hkind (hmem n hn)⟩
  · rename_i hkind
    rw [c.unknownNodes_command]
    obtain ⟨hnodup, hmem⟩ := nodup_filter_children ht
      (List.filter_sublist (p := (·.kind == .typeRef))) c.lacksType
    refine ⟨hnodup, fun n hn => ?_⟩
    obtain ⟨hchild, href⟩ := List.mem_filter.mp (hmem n hn)
    exact .command hkind hchild (eq_of_beq href)
  · rename_i hkind
    rcases c.file.tag_children (mem_inside_root ht (by simp [hkind])) hkind with
      ⟨-, hnil⟩ | ⟨name, rest, hchildren, hname, -⟩
    · rw [checkTag_of_nil hnil]
      simp [unknownNodes, Findings.none]
    · rw [unknownNodes_tag ht hkind hchildren hname]
      exact lookUp_unknownTarget (.tag hkind hchildren hname) _
  · rename_i hkind
    obtain ⟨name, arguments, behind, hchildren, hname, -⟩ :=
      c.file.construction_children (mem_inside_root ht (by simp [hkind])) hkind
    have hfirst : t.node.firstChild? .constructorName = some name := by
      simp [Node.firstChild?, hchildren, hname]
    rw [unknownNodes_construction ht hkind hfirst]
    exact lookUp_unknownTarget (.construction hkind hfirst) _
  · rename_i hkind
    rcases unknownNodes_bareName judged t with h | ⟨h, -⟩ <;> rw [h]
    · simp
    · simpa using LooksUp.bareName hkind
  · rw [unknownNodes_fieldNumbers]
    simp
  · rw [unknownNodes_fieldNumbers]
    simp
  · simp [unknownNodes, Findings.none]

theorem mem_unknownNodes {fs : List Finding} :
    n ∈ unknownNodes fs ↔ ∃ f ∈ fs, f.problem.code = .unresolvedReference ∧ f.node = n := by
  simp [unknownNodes, and_assoc]

theorem exists_of_mem_unknownNodes [Likeness] {judged : List Nat} {sites : List Site}
    (hn : n ∈ unknownNodes (c.checkSites judged sites)) :
    ∃ t ∈ sites, ∃ judged', n ∈ unknownNodes (c.checkSite judged' t).reported := by
  obtain ⟨f, hf, hcode, rfl⟩ := mem_unknownNodes.mp hn
  obtain ⟨t, ht, judged', hf⟩ := exists_of_mem_checkSites hf
  exact ⟨t, ht, judged', mem_unknownNodes.mpr ⟨f, hf, hcode, rfl⟩⟩

theorem nodup_unknownNodes [Likeness] (judged : List Nat) {sites : List Site} (hsites : sites.Nodup)
    (hall : ∀ t ∈ sites, t ∈ c.file.sites) : (unknownNodes (c.checkSites judged sites)).Nodup := by
  induction sites generalizing judged with
  | nil => exact .nil
  | cons t rest ih =>
    obtain ⟨hfresh, hrest⟩ := List.nodup_cons.mp hsites
    obtain ⟨ht, hall⟩ := List.forall_mem_cons.mp hall
    obtain ⟨hnodup, hlook⟩ := unknownNodes_site ht judged
    rw [checkSites, unknownNodes_append, List.nodup_append]
    refine ⟨hnodup, ih _ hrest hall, fun n hn m hm hnm => ?_⟩
    obtain ⟨u, hu, judged', hm⟩ := exists_of_mem_unknownNodes hm
    have hm := (unknownNodes_site (hall u hu) judged').2 m hm
    rw [(hlook n hn).unique ht (hall u hu) (hnm ▸ hm)] at hfresh
    exact hfresh hu

/-- The types around a child are those around its parent, unless that is a type itself. -/
theorem resolve?_child (hkind : t.kind ≠ .type) (n : Node) (name : String) :
    c.resolve? (t.child n) name = c.resolve? t name := by
  have hscopes : SchemaFile.enclosingTypes (t.child n) = SchemaFile.enclosingTypes t :=
    List.filter_cons_of_neg (by rw [beq_iff_eq]; exact hkind)
  rw [resolve?, resolve?, Resolver.resolve?, Resolver.resolve?, SchemaFile.resolve?,
    SchemaFile.resolve?, hscopes]

theorem unknownTarget_child (hkind : t.kind ≠ .type) (n : Node) :
    c.unknownTarget n (c.resolve? t (c.text n)) = if c.lacks (t.child n) then [n] else [] := by
  rw [unknownTarget, lacks, resolve?_child hkind]
  rfl

end Places

end Checker

/-! ## A whole file -/

def Site.NamesType (s : Site) : Prop := ∃ p, s.parent? = some p ∧
  ((p.kind = .fieldType ∧ (s.kind = .typeName ∨ s.kind = .typeParameter)) ∨
    (p.kind = .command ∧ s.kind = .typeRef))

def Site.NamesTarget (s : Site) : Prop :=
  (∃ p, s.parent? = some p ∧ p.kind = .tag ∧ s.kind = .typeRef) ∨ s.kind = .constructorName

def unresolvedRanges [Likeness] (file : SchemaFile) (r : Resolver) : List Span :=
  (((checkFile file r).map (Finding.diagnostic file)).filter
    (·.code == .unresolvedReference)).map Diagnostic.range

namespace SchemaFile

open Checker

variable {file : SchemaFile} {r : Resolver} {s t : Site} {n : Node}

theorem unresolvedRanges_eq [Likeness] (file : SchemaFile) (r : Resolver) :
    unresolvedRanges file r =
      (unknownNodes ((Checker.mk file r).checkSites [] file.sites)).map Node.span := by
  have hall : unresolvedRanges file r = (unknownNodes (checkFile file r)).map Node.span := by
    rw [unresolvedRanges, unknownNodes, List.filter_map, List.map_map, List.map_map]
    rfl
  have hsyntax : unknownNodes file.syntaxFindings = [] := unknownNodes_eq_nil fun f hf => by
    obtain ⟨⟨n, fault⟩, -, rfl⟩ := List.mem_map.mp hf
    exact DiagnosticCode.noConfusion
  rw [hall, checkFile, unknownNodes_append, hsyntax, List.nil_append]

/-- What is reported is looked up at a place of the file, and reported there. -/
theorem lookup_of_mem_unknownNodes [Likeness]
    (hn : n ∈ unknownNodes ((Checker.mk file r).checkSites [] file.sites)) :
    ∃ t ∈ file.sites, LooksUp t n ∧
      ∃ judged, n ∈ unknownNodes ((Checker.mk file r).checkSite judged t).reported := by
  obtain ⟨t, ht, judged, hn⟩ := exists_of_mem_unknownNodes hn
  exact ⟨t, ht, (unknownNodes_site (c := ⟨file, r⟩) ht judged).2 n hn, judged, hn⟩

/-- Whether a name is reported is decided where it is looked up. -/
theorem mem_unknownNodes_iff [Likeness] (ht : t ∈ file.sites) (hlook : LooksUp t n) {P : Prop}
    (h : ∀ judged, n ∈ unknownNodes ((Checker.mk file r).checkSite judged t).reported ↔ P) :
    n ∈ unknownNodes ((Checker.mk file r).checkSites [] file.sites) ↔ P := by
  constructor
  · intro hn
    obtain ⟨u, hu, hun, judged, hn⟩ := lookup_of_mem_unknownNodes hn
    obtain rfl := hlook.unique ht hu hun
    exact (h judged).mp hn
  · intro hP
    obtain ⟨judged, hall⟩ := exists_judged (c := ⟨file, r⟩) [] ht
    obtain ⟨f, hf, hcode, rfl⟩ := mem_unknownNodes.mp ((h judged).mpr hP)
    exact mem_unknownNodes.mpr ⟨f, hall hf, hcode, rfl⟩

theorem eq_of_lookup {u : Site} {m : Node} (ht : t ∈ file.sites) (hn : LooksUp t n)
    (hu : u ∈ file.sites) (hm : LooksUp u m) (h : m.span = n.span) : m = n := by
  obtain ⟨hnin, hnkind⟩ := hn.lexeme ht
  obtain ⟨hmin, hmkind⟩ := hm.lexeme hu
  exact file.eq_of_span_eq hmin hnin (NodeKind.isLexeme_ne_error hmkind)
    (file.children_eq_nil hmin (.inl hmkind)) (file.children_eq_nil hnin (.inl hnkind)) h

theorem nodup_unresolvedRanges [Likeness] : (unresolvedRanges file r).Nodup := by
  rw [unresolvedRanges_eq]
  refine List.Nodup.map_on (fun m hm n hn h => ?_)
    (nodup_unknownNodes (c := ⟨file, r⟩) [] file.nodup_sites fun _ h => h)
  obtain ⟨u, hu, hm, -⟩ := lookup_of_mem_unknownNodes hm
  obtain ⟨t, ht, hn, -⟩ := lookup_of_mem_unknownNodes hn
  exact eq_of_lookup ht hn hu hm h

theorem mem_unresolvedRanges_iff [Likeness] (ht : t ∈ file.sites) (hlook : LooksUp t n) :
    n.span ∈ unresolvedRanges file r ↔
      n ∈ unknownNodes ((Checker.mk file r).checkSites [] file.sites) := by
  rw [unresolvedRanges_eq]
  refine ⟨fun h => ?_, List.mem_map_of_mem⟩
  obtain ⟨m, hm, hspan⟩ := List.mem_map.mp h
  obtain ⟨u, hu, hum, -⟩ := lookup_of_mem_unknownNodes hm
  rwa [← eq_of_lookup ht hlook hu hum hspan]

/-- A name is reported once where what looks it up reports it, and else not at all. -/
theorem count_of_reported [Likeness] (ht : t ∈ file.sites) (hlook : LooksUp t n) {P : Prop}
    [Decidable P]
    (h : ∀ judged, n ∈ unknownNodes ((Checker.mk file r).checkSite judged t).reported ↔ P) :
    (unresolvedRanges file r).count n.span = if P then 1 else 0 := by
  rw [nodup_unresolvedRanges.count,
    if_congr ((mem_unresolvedRanges_iff ht hlook).trans (mem_unknownNodes_iff ht hlook h)) rfl rfl]

/-- The name of a type is reported when it is not built in and stands for nothing. -/
theorem count_of_namesType [Likeness] (hs : s ∈ file.sites) (h : s.NamesType) :
    (unresolvedRanges file r).count s.node.span =
      if (Checker.mk file r).lacksType s then 1 else 0 := by
  obtain ⟨p, hparent, hp⟩ := h
  obtain ⟨t, ht, rfl, hchild, hsite⟩ := file.exists_child hs hparent
  have hmem {nodes : List Node} (hnodes : s.node ∈ nodes) :
      s.node ∈ ((nodes.map t.child).filter (Checker.mk file r).lacksType).map Site.node ↔
        (Checker.mk file r).lacksType s = true := by
    simp only [List.mem_map, List.mem_filter]
    constructor
    · rintro ⟨u, ⟨⟨m, -, rfl⟩, hlacks⟩, hu⟩
      rwa [hsite, ← hu]
    · exact fun hlacks => ⟨s, ⟨⟨s.node, hnodes, hsite.symm⟩, hlacks⟩, rfl⟩
  rcases hp with ⟨hkind, -⟩ | ⟨hkind, href⟩
  · refine count_of_reported ht (.type hkind hchild) fun judged => ?_
    rw [checkSite, show t.kind = .fieldType from hkind]
    dsimp only
    rw [unknownNodes_fieldType ⟨file, r⟩ (mem_inside_root (c := ⟨file, r⟩) ht
      (by simp [show t.kind = .fieldType from hkind])) hkind]
    exact hmem hchild
  · refine count_of_reported ht (.command hkind hchild href) fun judged => ?_
    rw [checkSite, show t.kind = .command from hkind]
    dsimp only
    rw [unknownNodes_command]
    exact hmem (List.mem_filter.mpr ⟨hchild, beq_iff_eq.mpr href⟩)

theorem mem_singleton_iff (n : Node) (b : Bool) : n ∈ (if b then [n] else []) ↔ b = true := by
  cases b <;> simp

theorem count_of_tagName [Likeness] (ht : t ∈ file.sites) (hkind : t.kind = .tag)
    (hchild : n ∈ t.node.children) (href : n.kind = .typeRef) :
    (unresolvedRanges file r).count n.span =
      if (Checker.mk file r).lacks (t.child n) then 1 else 0 := by
  have hne : t.kind ≠ .type := by simp [hkind]
  have hmem := mem_inside_root (c := ⟨file, r⟩) ht (by simp [hkind])
  rcases file.tag_children hmem hkind with ⟨-, hnil⟩ | ⟨name, rest, hchildren, -, hrest, -⟩
  · rw [hnil] at hchild
    cases hchild
  -- there is no other name among the parts of a tag
  obtain rfl : n = name := by
    rw [hchildren] at hchild
    exact (List.mem_cons.mp hchild).resolve_right fun h => hrest _ h href
  refine count_of_reported ht (.tag hkind hchildren href) fun judged => ?_
  rw [checkSite, hkind]
  dsimp only
  rw [unknownNodes_tag (c := ⟨file, r⟩) ht hkind hchildren href, unknownTarget_child hne]
  exact mem_singleton_iff _ _

theorem count_of_constructorName [Likeness] (ht : t ∈ file.sites) (hkind : t.kind = .construction)
    (hchild : n ∈ t.node.children) (hname : n.kind = .constructorName) :
    (unresolvedRanges file r).count n.span =
      if (Checker.mk file r).lacks (t.child n) then 1 else 0 := by
  have hne : t.kind ≠ .type := by simp [hkind]
  have hmem := mem_inside_root (c := ⟨file, r⟩) ht (by simp [hkind])
  obtain ⟨name, arguments, behind, hchildren, hfirst, harguments, hbehind⟩ :=
    file.construction_children hmem hkind
  -- there is no other name among the parts of a construction
  obtain rfl : n = name := by
    rw [hchildren, List.mem_cons, List.mem_cons] at hchild
    refine hchild.resolve_right fun h => ?_
    rcases h with rfl | h
    · rw [hname] at harguments
      cases harguments
    · have herror := (hbehind _ h).1
      rw [hname] at herror
      cases herror
  have hfirst : t.node.firstChild? .constructorName = some n := by
    simp [Node.firstChild?, hchildren, hfirst]
  refine count_of_reported ht (.construction hkind hfirst) fun judged => ?_
  rw [checkSite, hkind]
  dsimp only
  rw [unknownNodes_construction (c := ⟨file, r⟩) ht hkind hfirst, unknownTarget_child hne]
  exact mem_singleton_iff _ _

/-- The name of a tag or construction is reported when it stands for nothing. -/
theorem count_of_namesTarget [Likeness] (hs : s ∈ file.sites) (h : s.NamesTarget) :
    (unresolvedRanges file r).count s.node.span =
      if (Checker.mk file r).lacks s then 1 else 0 := by
  rcases h with ⟨p, hparent, hkind, href⟩ | hname
  · obtain ⟨t, ht, rfl, hchild, hsite⟩ := file.exists_child hs hparent
    rw [hsite]
    exact count_of_tagName ht hkind hchild href
  · have hbelow : s ∈ file.root.inside.sites [file.root] :=
      (List.mem_cons.mp hs).resolve_left fun hroot => by
        rw [hroot, Site.kind, rootSite, file.kind_root] at hname
        cases hname
    obtain ⟨p, -, hparent, -⟩ := file.exists_parent_of_mem_sites hbelow
    obtain ⟨t, ht, rfl, hchild, hsite⟩ := file.exists_child hs hparent
    have hkind : t.node.kind = .construction := by
      have hallowed := file.kind_of_mem_children (file.node_mem_nodes ht) hchild
      rw [show s.node.kind = .constructorName from hname] at hallowed
      revert hallowed
      cases t.node.kind <;> decide
    rw [hsite]
    exact count_of_constructorName ht hkind hchild hname

/-- A bare name is reported once at most, and only when it stands for nothing. -/
theorem count_of_bareName [Likeness] (hs : s ∈ file.sites) (hkind : s.kind = .nameRef) :
    (unresolvedRanges file r).count s.node.span ≤ 1 ∧
      (0 < (unresolvedRanges file r).count s.node.span → (Checker.mk file r).lacks s = true) := by
  refine ⟨List.nodup_iff_count_le_one.mp nodup_unresolvedRanges _, fun hpos => ?_⟩
  have hlook : LooksUp s s.node := .bareName hkind
  have hmem := (mem_unresolvedRanges_iff hs hlook).mp (List.count_pos_iff.mp hpos)
  obtain ⟨t, ht, hn, judged, hmem⟩ := lookup_of_mem_unknownNodes hmem
  obtain rfl := hlook.unique hs ht hn
  rw [checkSite, show s.kind = .nameRef from hkind] at hmem
  rcases unknownNodes_bareName (c := ⟨file, r⟩) judged s with h | ⟨-, hlacks⟩
  · rw [h] at hmem
    cases hmem
  · exact hlacks

theorem role_of_lookup (ht : t ∈ file.sites) (hlook : LooksUp t n) : ∃ s ∈ file.sites,
    s.node = n ∧ (s.NamesType ∨ s.NamesTarget ∨ s.kind = .nameRef) := by
  cases hlook with
  | type hkind hn =>
    refine ⟨t.child n, file.child_mem_sites ht hn, rfl, .inl ⟨t.node, rfl, .inl ⟨hkind, ?_⟩⟩⟩
    have hallowed := file.kind_of_mem_children (file.node_mem_nodes ht) hn
    rw [show t.node.kind = .fieldType from hkind] at hallowed
    simpa [NodeKind.inhabitants, Site.kind, Site.child] using hallowed
  | command hkind hn href =>
    exact ⟨t.child n, file.child_mem_sites ht hn, rfl, .inl ⟨t.node, rfl, .inr ⟨hkind, href⟩⟩⟩
  | tag hkind hn href =>
    exact ⟨t.child n, file.child_mem_sites ht (by simp [hn]), rfl,
      .inr (.inl (.inl ⟨t.node, rfl, hkind, href⟩))⟩
  | construction hkind hn =>
    have hname := List.find?_some hn
    exact ⟨t.child n, file.child_mem_sites ht (List.mem_of_find?_eq_some hn), rfl,
      .inr (.inl (.inr (eq_of_beq hname)))⟩
  | bareName hkind => exact ⟨t, ht, rfl, .inr (.inr hkind)⟩

/-- A name of a type is reported exactly once when it is not built in and stands for
nothing, the name of a tag or construction exactly once when it stands for nothing, a
bare name at most once and only then, and nothing else is reported. -/
theorem unresolved_reported_once [Likeness] (file : SchemaFile) (r : Resolver) :
    (∀ s ∈ file.sites, s.NamesType →
      (unresolvedRanges file r).count s.node.span =
        if (Checker.mk file r).lacksType s then 1 else 0) ∧
    (∀ s ∈ file.sites, s.NamesTarget →
      (unresolvedRanges file r).count s.node.span =
        if (Checker.mk file r).lacks s then 1 else 0) ∧
    (∀ s ∈ file.sites, s.kind = .nameRef →
      (unresolvedRanges file r).count s.node.span ≤ 1 ∧
        (0 < (unresolvedRanges file r).count s.node.span → (Checker.mk file r).lacks s = true)) ∧
    ∀ range ∈ unresolvedRanges file r, ∃ s ∈ file.sites, range = s.node.span ∧
      (s.NamesType ∨ s.NamesTarget ∨ s.kind = .nameRef) := by
  refine ⟨fun s hs h => count_of_namesType hs h, fun s hs h => count_of_namesTarget hs h,
    fun s hs h => count_of_bareName hs h, fun range hrange => ?_⟩
  rw [unresolvedRanges_eq] at hrange
  obtain ⟨n, hn, rfl⟩ := List.mem_map.mp hrange
  obtain ⟨t, ht, hlook, -⟩ := lookup_of_mem_unknownNodes hn
  obtain ⟨s, hs, rfl, hrole⟩ := role_of_lookup ht hlook
  exact ⟨s, hs, rfl, hrole⟩

end SchemaFile

end SchemaLang
