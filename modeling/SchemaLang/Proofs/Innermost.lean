import SchemaLang.FileSystem.Memory
import SchemaLang.Proofs.Ancestry
import SchemaLang.Workspace

/-!
# The innermost node at an offset

The nodes around an offset form a chain: of two nodes that cover it one is
inside the other. The descent through the first child that covers the offset
meets every one of them, so it cannot miss by not looking back, whatever empty
or faulty nodes stand between the children. What an offset of a file leads to
is then told by the innermost reference around it.
-/

set_option autoImplicit false

namespace SchemaLang

namespace Site

def covers (offset : Nat) (s : Site) : Bool := s.node.span.contains offset

theorem eq_ancestors_of_append {ns : List Node} {s : Site} {before behind : List Site}
    (h : ancestorsOf ns = before ++ s :: behind) : behind = s.ancestors := by
  induction ns generalizing before with
  | nil => cases before <;> cases h
  | cons n ns ih =>
    cases before with
    | nil =>
      obtain ⟨rfl, rfl⟩ := List.cons.inj h
      rfl
    | cons t before => exact ih (List.cons.inj h).2

theorem length_above_lt_of_mem_ancestors {s t : Site} (h : t ∈ s.ancestors) :
    t.above.length < s.above.length := by
  have hmem (ns : List Node) (ht : t ∈ ancestorsOf ns) : t.above.length < ns.length := by
    induction ns with
    | nil => cases ht
    | cons n ns ih =>
      rw [List.length_cons]
      rcases List.mem_cons.mp ht with rfl | ht
      · exact Nat.lt_succ_self _
      · exact Nat.lt_succ_of_lt (ih ht)
  exact hmem s.above h

end Site

namespace Forest

theorem mem_preorder_of_mem_sites {f : Forest Mark Token} {above : List Node} {s : Site}
    (hs : s ∈ f.sites above) : s.node ∈ f.preorder := by
  rw [← f.map_node_sites above]
  exact List.mem_map_of_mem hs

/-- The nodes of a row, at any depth, lie behind its leading trivia. -/
theorem leadingSize_of_mem_preorder_locate {row : Row} {start id : Nat} {n : Node}
    (h : n ∈ (locate row start id).row.preorder) : start + leadingSize row ≤ n.span.start := by
  induction row generalizing start id with
  | nil => simp [locate, preorder] at h
  | leaf t next ih =>
    have hnext := ih h
    rw [leadingSize]
    split <;> omega
  | node shape inside next =>
    rw [leadingSize]
    · exact (span_of_mem_preorder_locate h).1
    all_goals simp

def route (offset : Nat) (above : List Node) (f : Forest Mark Token) : List Site :=
  match f.siteAt? offset above with
  | none => Site.ancestorsOf above
  | some s => s :: s.ancestors

def Descends (offset : Nat) (above : List Node) (f : Forest Mark Token) : Prop :=
  f.route offset above =
    ((f.sites above).filter (Site.covers offset)).reverse ++ Site.ancestorsOf above

section

variable {offset : Nat} {above : List Node} {mark : Mark} {inside next : Forest Mark Token}

theorem descends_node_of_covers (h : mark.span.contains offset = true)
    (hnext : ∀ s ∈ next.sites above, ¬ s.covers offset = true)
    (hinside : inside.Descends offset (⟨mark, inside⟩ :: above)) :
    (node mark inside next).Descends offset above := by
  have hroute : (node mark inside next).route offset above =
      inside.route offset (⟨mark, inside⟩ :: above) := by
    rw [route, route, siteAt?, if_pos h]
    cases inside.siteAt? offset (⟨mark, inside⟩ :: above) <;> rfl
  have hhere : Site.covers offset ⟨⟨mark, inside⟩, above⟩ = true := h
  rw [Descends, hroute, hinside, sites, List.filter_cons_of_pos hhere, List.filter_append,
    List.filter_eq_nil_iff.mpr hnext, List.append_nil, List.reverse_cons, List.append_assoc]
  rfl

theorem descends_node_of_not_covers (h : ¬ mark.span.contains offset = true)
    (hinside : ∀ s ∈ inside.sites (⟨mark, inside⟩ :: above), ¬ s.covers offset = true)
    (hnext : next.Descends offset above) : (node mark inside next).Descends offset above := by
  have hroute : (node mark inside next).route offset above = next.route offset above := by
    rw [route, route, siteAt?, if_neg h]
  have hhere : ¬ Site.covers offset ⟨⟨mark, inside⟩, above⟩ = true := h
  rw [Descends, hroute, hnext, sites, List.filter_cons_of_neg hhere, List.filter_append,
    List.filter_eq_nil_iff.mpr hinside, List.nil_append]

end

/-- What follows a node begins behind its range, and what stands inside it lies
in its range, so the descent has one way to go. -/
theorem descends_locate (offset : Nat) (row : Row) (start id : Nat) (above : List Node) :
    (locate row start id).row.Descends offset above := by
  induction row generalizing start id above with
  | nil => rfl
  | leaf t next ih => exact ih _ _ _
  | node shape inside next ihi ihn =>
    have hstop := (leaves_locate inside start (id + 1)).2
    by_cases hcovers : Span.contains
        ⟨start + leadingSize inside, (locate inside start (id + 1)).stop⟩ offset = true
    · refine descends_node_of_covers hcovers (fun s hs hs' => ?_) (ihi _ _ _)
      have hbehind := (span_of_mem_preorder_locate (mem_preorder_of_mem_sites hs)).1
      simp only [Site.covers, Span.contains, Bool.and_eq_true, decide_eq_true_eq] at hs' hcovers
      omega
    · refine descends_node_of_not_covers hcovers (fun s hs hs' => ?_) (ihn _ _ _)
      have hlead := leadingSize_of_mem_preorder_locate (mem_preorder_of_mem_sites hs)
      have hend := (span_of_mem_preorder_locate (mem_preorder_of_mem_sites hs)).2
      simp only [Site.covers, Span.contains, Bool.and_eq_true, decide_eq_true_eq] at hs' hcovers
      omega

end Forest

namespace SchemaFile

variable (file : SchemaFile) {offset : Nat} {s t : Site}

theorem siteAt_cons_ancestors (offset : Nat) :
    file.siteAt offset :: (file.siteAt offset).ancestors =
      ((file.root.inside.sites [file.root]).filter (Site.covers offset)).reverse ++
        [file.rootSite] := by
  have hroute : file.siteAt offset :: (file.siteAt offset).ancestors =
      file.root.inside.route offset [file.root] := by
    rw [siteAt, Forest.route]
    cases file.root.inside.siteAt? offset [file.root] <;> rfl
  rw [hroute, inside_root, Forest.descends_locate offset _ 0 1 [file.root]]
  rfl

/-- The sites that cover an offset of the text, innermost first. -/
theorem filter_covers_sites (h : offset < file.source.utf8ByteSize) :
    (file.sites.filter (Site.covers offset)).reverse =
      file.siteAt offset :: (file.siteAt offset).ancestors := by
  have hroot : Site.covers offset file.rootSite = true := by
    rw [Site.covers, rootSite, span_root, Span.contains]
    simpa using h
  rw [siteAt_cons_ancestors, sites, List.filter_cons_of_pos hroot, List.reverse_cons]

theorem not_covers_of_le (h : file.source.utf8ByteSize ≤ offset) (hs : s ∈ file.sites) :
    ¬ s.covers offset = true := by
  have hstop : s.node.span.stop ≤ file.source.utf8ByteSize := by
    rcases List.mem_cons.mp (file.node_mem_nodes hs) with hroot | hin
    · rw [hroot, span_root]
    · rw [inside_root] at hin
      have := (Forest.span_of_mem_preorder_locate hin).2
      rwa [Nat.zero_add, leaves_placedRow, totalSize_lexemes] at this
  simp only [Site.covers, Span.contains, Bool.and_eq_true, decide_eq_true_eq]
  omega

theorem siteAt_of_le (h : file.source.utf8ByteSize ≤ offset) :
    file.siteAt offset = file.rootSite := by
  have hsites := file.siteAt_cons_ancestors offset
  rw [List.filter_eq_nil_iff.mpr fun s hs => file.not_covers_of_le h (List.mem_cons_of_mem _ hs)]
    at hsites
  exact (List.cons.inj hsites).1

structure InnermostReference (offset : Nat) (s : Site) : Prop where
  mem : s ∈ file.sites
  isReference : s.kind.isReference = true
  covers : s.node.span.contains offset = true
  inside : ∀ t ∈ file.sites, t.kind.isReference = true → t.node.span.contains offset = true →
    t = s ∨ t ∈ s.ancestors

variable {file}

theorem InnermostReference.unique (hs : file.InnermostReference offset s)
    (ht : file.InnermostReference offset t) : s = t := by
  rcases ht.inside s hs.mem hs.isReference hs.covers with rfl | hst
  · rfl
  rcases hs.inside t ht.mem ht.isReference ht.covers with rfl | hts
  · rfl
  have := Site.length_above_lt_of_mem_ancestors hst
  have := Site.length_above_lt_of_mem_ancestors hts
  omega

theorem innermostReference_of_referenceAt? (h : Workspace.referenceAt? file offset = some s) :
    file.InnermostReference offset s := by
  rcases Nat.lt_or_ge offset file.source.utf8ByteSize with hlt | hge
  · obtain ⟨href, before, behind, hsplit, hbefore⟩ := List.find?_eq_some_iff_append.mp h
    have haround : Site.ancestorsOf ((file.siteAt offset).node :: (file.siteAt offset).above) =
        before ++ s :: behind := hsplit
    have hbehind := Site.eq_ancestors_of_append haround
    have hmem (t : Site) : t ∈ before ++ s :: behind ↔
        t ∈ file.sites ∧ t.node.span.contains offset = true := by
      rw [← hsplit, ← file.filter_covers_sites hlt, List.mem_reverse, List.mem_filter]
      rfl
    obtain ⟨hs, hcovers⟩ := (hmem s).mp (List.mem_append_right _ List.mem_cons_self)
    refine ⟨hs, href, hcovers, fun t ht htref htcovers => ?_⟩
    rcases List.mem_append.mp ((hmem t).mpr ⟨ht, htcovers⟩) with ht | ht
    · have hno := hbefore t ht
      rw [htref] at hno
      cases hno
    · rwa [hbehind, List.mem_cons] at ht
  · rw [Workspace.referenceAt?, file.siteAt_of_le hge, rootSite, file.root_eq] at h
    cases h

theorem exists_referenceAt? (hs : s ∈ file.sites) (href : s.kind.isReference = true)
    (hcovers : s.node.span.contains offset = true) :
    ∃ t, Workspace.referenceAt? file offset = some t := by
  have hlt : offset < file.source.utf8ByteSize :=
    Nat.lt_of_not_le fun hle => file.not_covers_of_le hle hs hcovers
  have hmem : s ∈ file.siteAt offset :: (file.siteAt offset).ancestors := by
    rw [← file.filter_covers_sites hlt, List.mem_reverse, List.mem_filter]
    exact ⟨hs, hcovers⟩
  exact Option.isSome_iff_exists.mp (List.find?_isSome.mpr ⟨s, hmem, href⟩)

theorem referenceAt?_eq_some_iff :
    Workspace.referenceAt? file offset = some s ↔ file.InnermostReference offset s := by
  refine ⟨innermostReference_of_referenceAt?, fun hs => ?_⟩
  obtain ⟨t, ht⟩ := exists_referenceAt? hs.mem hs.isReference hs.covers
  rw [ht, (innermostReference_of_referenceAt? ht).unique hs]

end SchemaFile

/-- The site at an offset is the deepest of the chain of those that cover it, and
the definition at an offset of a file that can be read is that of the innermost
reference. -/
theorem definition_of_innermost_reference :
    (∀ (file : SchemaFile) (offset : Nat),
      (offset < file.source.utf8ByteSize → ∀ s,
        (s ∈ file.sites ∧ s.node.span.contains offset = true) ↔
          s = file.siteAt offset ∨ s ∈ (file.siteAt offset).ancestors) ∧
      (file.source.utf8ByteSize ≤ offset → file.siteAt offset = file.rootSite)) ∧
    ∀ (w : Workspace) (path : Path) (source : String) (offset : Nat),
      w.files.read path = .ok source →
      let file := SchemaFile.readSaved path source
      (∀ s, file.InnermostReference offset s →
        w.definitionAt path offset = .ok (w.resolver.resolveReference? file s)) ∧
      ((∀ s, ¬ file.InnermostReference offset s) →
        (∀ s ∈ file.sites, s.kind.isReference = true → s.node.span.contains offset = false) ∧
          w.definitionAt path offset = .ok none) := by
  refine ⟨fun file offset => ⟨fun hlt s => ?_, file.siteAt_of_le⟩,
    fun w path source offset hread => ?_⟩
  · rw [← List.mem_cons, ← file.filter_covers_sites hlt, List.mem_reverse, List.mem_filter]
    rfl
  · intro file
    have hload : w.load path = .ok file := by
      rw [Workspace.load, hread]
      rfl
    refine ⟨fun s hs => ?_, fun hnone => ?_⟩
    · rw [Workspace.definitionAt, hload]
      simp only [Except.map, SchemaFile.referenceAt?_eq_some_iff.mpr hs, Option.bind_some]
    · have hreference : Workspace.referenceAt? file offset = none :=
        Option.eq_none_iff_forall_ne_some.mpr fun s hs =>
          hnone s (SchemaFile.referenceAt?_eq_some_iff.mp hs)
      refine ⟨fun s hs href => eq_false_of_ne_true fun hcovers => ?_, ?_⟩
      · obtain ⟨t, ht⟩ := SchemaFile.exists_referenceAt? hs href hcovers
        rw [hreference] at ht
        cases ht
      · rw [Workspace.definitionAt, hload]
        simp only [Except.map, hreference, Option.bind_none]

/-- At a name the type of an imported file is found, and at a keyword nothing. -/
theorem definition_of_imported_type :
    let source := "import \"a.schema\"; type T \x7b q.U x = 1; \x7d"
    let files := MemoryFiles.ofList
      [(⟨"/r/a.schema"⟩, "package q; type U \x7b \x7d"), (⟨"/m.schema"⟩, source)]
    let w : Workspace := ⟨files.fileSystem, .ofList [⟨"/r"⟩]⟩
    let file := SchemaFile.readSaved ⟨"/m.schema"⟩ source
    w.files.read ⟨"/m.schema"⟩ = .ok source ∧
    file.InnermostReference 28 (file.siteAt 28) ∧
    w.definitionAt ⟨"/m.schema"⟩ 28 = .ok (w.resolver.resolveReference? file (file.siteAt 28)) ∧
    (w.resolver.resolveReference? file (file.siteAt 28)).map (fun d => (d.name?, d.file.path?)) =
      some (some "U", some ⟨"/r/a.schema"⟩) ∧
    w.definitionAt ⟨"/m.schema"⟩ 0 = .ok none := by
  intro source files w file
  have hread : w.files.read ⟨"/m.schema"⟩ = .ok source := by decide +kernel
  have hname : (file.siteAt 28).kind.isReference = true := by decide +kernel
  have hinnermost : file.InnermostReference 28 (file.siteAt 28) :=
    SchemaFile.referenceAt?_eq_some_iff.mp
      (List.find?_cons_of_pos (p := fun s : Site => s.kind.isReference) hname)
  have hnone : Workspace.referenceAt? file 0 = none :=
    Option.isNone_iff_eq_none.mp (by decide +kernel)
  have hat (offset : Nat) := definition_of_innermost_reference.2 w ⟨"/m.schema"⟩ source offset hread
  refine ⟨hread, hinnermost, (hat 28).1 _ hinnermost, by decide +kernel, ((hat 0).2 ?_).2⟩
  intro s hs
  rw [SchemaFile.referenceAt?_eq_some_iff.mpr hs] at hnone
  cases hnone

end SchemaLang
