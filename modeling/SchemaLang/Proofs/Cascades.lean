import SchemaLang.Proofs.Incompleteness
import SchemaLang.Proofs.Provenance

/-!
# Syntax faults bring no argument errors

Arguments with a syntax fault among them are not matched with fields. So a tag
or construction that was cut short, or holds skipped lexemes, is told neither
that its arguments are too many or too few nor that one of them is of another
type or name. What its arguments still contribute are names that stand for
nothing, and what nested constructions without a fault contribute on their own.
-/

set_option autoImplicit false

namespace SchemaLang

/-! ## Messages -/

def shapeMessages : List String :=
  ["Lists should end with", "Maps should end with", "Invalid map entry"]

theorem Fault.message_of_shape (fault : Fault) :
    ∀ text ∈ shapeMessages, ¬text.toList <+: fault.message.toList := by
  intro text htext
  simp only [shapeMessages, List.mem_cons, List.not_mem_nil, or_false] at htext
  -- every message is told from these by one of its first letters
  delta message
  cases fault <;> dsimp only [toString] <;> rcases htext with rfl | rfl | rfl <;> simp

theorem Problem.message_of_shape {problem : Problem}
    (h : problem ∉ [.missingCloser .list, .missingCloser .map, .notAnEntry]) :
    ∀ text ∈ shapeMessages, ¬text.toList <+: problem.message.toList := by
  intro text htext
  cases problem with
  | syntaxFault fault => exact fault.message_of_shape text htext
  | missingOpener value => revert text htext; cases value <;> decide +kernel
  | missingCloser value => cases value <;> simp at h
  | notAnEntry => simp at h
  | _ =>
    simp only [shapeMessages, List.mem_cons, List.not_mem_nil, or_false] at htext
    delta message
    dsimp only [toString]
    rcases htext with rfl | rfl | rfl <;> simp

/-! ## Nodes with a fault -/

/-- The node stands inside, and not inside a construction in between. -/
def Node.Surrounds (n m : Node) : Prop :=
  m ∈ n.inside.preorder ∧
    ∀ o ∈ n.inside.preorder, o.kind = .construction → m ∉ o.inside.preorder

namespace SchemaFile

variable {file : SchemaFile} {n : Node}

theorem holdsFault_eq (n : Node) : n.holdsFault = Faulty n.content := n.faulty_content.symm

theorem not_intact (h : n.incomplete = true ∨ n.holdsFault = true) : ¬n.Intact := by
  rintro ⟨hcomplete, hclean⟩
  rw [holdsFault_eq, hcomplete, hclean] at h
  simp at h

section Damaged

variable {r : Resolver} {s t : Site} {f : Finding} (hs : s ∈ file.sites)
  (hkind : s.kind = .tag ∨ s.kind = .construction)
include hs hkind

theorem mem_of_damaged : s.node ∈ file.root.inside.preorder :=
  file.mem_of_kind_ne (file.node_mem_nodes hs) fun hroot => by
    rw [Site.kind, hroot] at hkind
    simp at hkind

theorem kind_of_mem_descendants {m : Node} (hm : m ∈ s.node.descendants) :
    m.kind = .tag ∨ m.kind ∈ tagParts := by
  rcases List.mem_cons.mp hm with hm | hm
  · rw [hm]
    exact hkind.imp_right fun h => by rw [show s.node.kind = .construction from h]; decide
  · exact .inr (file.kind_of_mem_inside (mem_of_damaged hs hkind) hkind m hm)

theorem type_not_inside (ht : t ∈ file.sites) (htkind : t.kind = .fieldType ∨ t.kind = .command)
    {m : Node} (hm : m ∈ t.node.children) (href : t.kind = .command → m.kind = .typeRef) :
    m ∉ s.node.descendants := by
  intro hin
  rcases List.mem_cons.mp hin with rfl | hin
  · have hchild := file.kind_of_mem_children (file.node_mem_nodes ht) hm
    rcases htkind with h | h
    · rw [show t.node.kind = .fieldType from h] at hchild
      rcases hkind with hk | hk <;> rw [show s.node.kind = _ from hk] at hchild <;>
        exact absurd hchild (by decide)
    · have := href h
      rcases hkind with hk | hk <;> rw [show s.node.kind = _ from hk] at this <;> cases this
  · have hparent := file.parent_mem_descendants ht hm (file.node_mem_nodes hs) hin
    have hallowed := kind_of_mem_descendants hs hkind hparent
    rcases htkind with h | h <;> rw [show t.node.kind = _ from h] at hallowed <;>
      exact absurd hallowed (by decide)

/-- What an intact tag or construction concerns stands inside one with a fault
only if it is a construction nested there. -/
theorem nested_of_intact (hdamaged : ¬s.node.Intact) (ht : t ∈ file.sites)
    (htkind : t.kind = .tag ∨ t.kind = .construction) (hintact : t.node.Intact)
    {m : Node} (hmt : m ∈ t.node.descendants) (hms : m ∈ s.node.descendants) :
    t.kind = .construction ∧ t.node ∈ s.node.inside.preorder := by
  rcases file.nested_of_mem_descendants (file.node_mem_nodes hs) (file.node_mem_nodes ht) hms hmt
    with heq | hin | hin
  · rw [heq] at hdamaged
    exact absurd hintact hdamaged
  · exact absurd (file.intact_of_mem_inside (mem_of_damaged ht htkind) hintact hin).1 hdamaged
  · refine ⟨htkind.resolve_left fun h => ?_, hin⟩
    have hallowed := file.kind_of_mem_inside (mem_of_damaged hs hkind) hkind t.node hin
    rw [show t.node.kind = .tag from h] at hallowed
    exact absurd hallowed (by decide)

end Damaged

variable [Likeness]

/-- What is found at a tag or construction says of one with a fault no more than
that a name stands for nothing, or comes from a nested construction without one. -/
theorem traced_inside {c : Checker} {s t : Site} {name : Node} {target? : Option Definition}
    {f : Finding} (hs : s ∈ c.file.sites) (hkind : s.kind = .tag ∨ s.kind = .construction)
    (hdamaged : ¬s.node.Intact) (ht : t ∈ c.file.sites)
    (htkind : t.kind = .tag ∨ t.kind = .construction)
    (hf : c.Traced t.node name target? f) (hnode : f.node ∈ s.node.descendants) :
    (f.node = name ∧ f.problem.code = .unresolvedReference) ∨
      t.kind = .construction ∧ t.node ∈ s.node.inside.preorder ∧ t.node.holdsFault = false ∧
        ((f.node = t.node ∧ f.problem.code = .arityMismatch) ∨
          f.node ∈ t.node.inside.preorder) := by
  rcases hf with hf | ⟨hintact, hf⟩
  · exact .inl (Checker.code_of_targetExists hf)
  right
  have hin : (f.node = t.node ∧ f.problem.code = .arityMismatch) ∨
      f.node ∈ t.node.inside.preorder := by
    refine hf.imp_right fun ⟨m, hm, hconcerns⟩ => ?_
    exact Node.mem_preorder_iff.mpr ⟨m, hm, List.mem_cons.mp hconcerns.node⟩
  obtain ⟨hconstruction, hnested⟩ := nested_of_intact hs hkind hdamaged ht htkind hintact
    (hin.elim (fun h => by rw [h.1]; exact List.mem_cons_self) (List.mem_cons_of_mem _)) hnode
  exact ⟨hconstruction, hnested, (holdsFault_eq _).trans hintact.2, hin⟩

/-- All that is found inside a tag or construction with a fault. -/
theorem found_inside {r : Resolver} {s : Site} (hs : s ∈ file.sites)
    (hkind : s.kind = .tag ∨ s.kind = .construction) (hdamaged : ¬s.node.Intact) {f : Finding}
    (hf : f ∈ checkFile file r) (hnode : f.node ∈ s.node.descendants) :
    f.problem.code = .syntaxError ∨
      (f.problem.code = .unresolvedReference ∧
        f.node.kind ∈ [.typeRef, .constructorName, .nameRef]) ∨
      ∃ o ∈ file.sites, o.kind = .construction ∧ o.node ∈ s.node.inside.preorder ∧
        o.node.holdsFault = false ∧ f ∈ ((Checker.mk file r).checkConstruction o).reported ∧
        ((f.node = o.node ∧ f.problem.code = .arityMismatch) ∨
          f.node ∈ o.node.inside.preorder) := by
  have hallowed := kind_of_mem_descendants hs hkind hnode
  rcases mem_checkFile hf with ⟨fault, hfault⟩ | ⟨t, ht, hfound⟩
  · exact .inl (by rw [hfault]; rfl)
  right
  cases hfound with
  | type htkind hchild href _ => exact absurd hnode (type_not_inside hs hkind ht htkind hchild href)
  | number _ hfield _ =>
    rcases hfield with h | h <;> rw [h] at hallowed <;> exact absurd hallowed (by decide)
  | bareName htkind hname hcode =>
    exact .inl ⟨hcode, by rw [hname, show t.node.kind = .nameRef from htkind]; decide⟩
  | tag htkind name _ href htraced =>
    rcases traced_inside (c := ⟨file, r⟩) hs hkind hdamaged ht (.inl htkind) htraced hnode with
      ⟨hname, hcode⟩ | ⟨hconstruction, -⟩
    · exact .inl ⟨hcode, by rw [hname, href]; decide⟩
    · rw [htkind] at hconstruction
      cases hconstruction
  | construction htkind name _ hconstructor htraced hreported =>
    rcases traced_inside (c := ⟨file, r⟩) hs hkind hdamaged ht (.inr htkind) htraced hnode with
      ⟨hname, hcode⟩ | ⟨-, hnested, hclean, hin⟩
    · exact .inl ⟨hcode, by rw [hname, hconstructor]; decide⟩
    · exact .inr ⟨t, ht, htkind, hnested, hclean, hreported, hin⟩

/-- Nothing is ever found about the shape of lists, maps and entries. -/
theorem not_shape_of_mem_checkFile {r : Resolver} {f : Finding} (hf : f ∈ checkFile file r) :
    f.problem ∉ [.missingCloser .list, .missingCloser .map, .notAnEntry] := by
  have hcode (h : f.problem.code ≠ .typeMismatch) :
      f.problem ∉ [.missingCloser .list, .missingCloser .map, .notAnEntry] := by
    intro hmem
    simp only [List.mem_cons, List.not_mem_nil, or_false] at hmem
    rcases hmem with hp | hp | hp <;> exact h (by rw [hp]; rfl)
  have htraced {c : Checker} {n name : Node} {target? : Option Definition}
      (h : c.Traced n name target? f) :
      f.problem ∉ [.missingCloser .list, .missingCloser .map, .notAnEntry] := by
    rcases h with h | ⟨-, ⟨-, h⟩ | ⟨m, -, hconcerns⟩⟩
    · exact hcode (by rw [(Checker.code_of_targetExists h).2]; decide)
    · exact hcode (by rw [h]; decide)
    · have hmatching := hconcerns.problem
      intro hmem
      simp only [List.mem_cons, List.not_mem_nil, or_false] at hmem
      rcases hmem with hp | hp | hp <;> rw [hp] at hmatching <;> cases hmatching
  rcases mem_checkFile hf with ⟨fault, hfault⟩ | ⟨t, -, hfound⟩
  · exact hcode (by rw [hfault]; exact DiagnosticCode.noConfusion)
  cases hfound with
  | type _ _ _ h =>
    rcases h with h | ⟨name, found, h⟩
    · exact hcode (by rw [h]; decide)
    · simp [h]
  | number _ _ h => exact hcode (by rw [h]; decide)
  | bareName _ _ h => exact hcode (by rw [h]; decide)
  | tag _ _ _ _ h => exact htraced h
  | construction _ _ _ _ h _ => exact htraced h

/-- Syntax faults do not bring argument errors with them. -/
theorem faults_do_not_cascade (file : SchemaFile) (r : Resolver) :
    (∀ s ∈ file.sites, s.kind = .tag ∨ s.kind = .construction →
      s.node.incomplete = true ∨ s.node.holdsFault = true → ∀ f ∈ checkFile file r,
        (f.node = s.node ∨ s.node.Surrounds f.node →
          f.problem.code ≠ .nameMismatch ∧ f.problem.code ≠ .typeMismatch ∧
          (f.problem.code = .arityMismatch → f.node ≠ s.node ∧ f.node.kind = .construction ∧
            f.node.holdsFault = false)) ∧
        (f.node ∈ s.node.inside.preorder →
          f.problem.code = .syntaxError ∨
          (f.problem.code = .unresolvedReference ∧
            f.node.kind ∈ [.typeRef, .constructorName, .nameRef]) ∨
          ∃ o ∈ file.sites, o.kind = .construction ∧ o.node ∈ s.node.inside.preorder ∧
            o.node.holdsFault = false ∧
            f ∈ ((Checker.mk file r).checkConstruction o).reported)) ∧
    ∀ d ∈ (checkFile file r).map (Finding.diagnostic file), ∀ text ∈ shapeMessages,
      ¬text.toList <+: d.message.toList := by
  constructor
  · intro s hs hkind hfault f hf
    have hfound := found_inside (f := f) (r := r) hs hkind (not_intact hfault) hf
    constructor
    · intro hnode
      have hin : f.node ∈ s.node.descendants :=
        List.mem_cons.mpr (hnode.imp_right fun h => h.1)
      rcases hfound hin with h | ⟨h, -⟩ | ⟨o, ho, hokind, hnested, hclean, -, hat⟩
      · simp [h]
      · simp [h]
      have hne : o.node ≠ s.node := fun heq =>
        file.not_mem_inside_self (file.node_mem_nodes hs) (heq ▸ hnested)
      rcases hat with ⟨hat, h⟩ | hdeep
      · rw [h, hat]
        exact ⟨by decide, by decide, fun _ => ⟨hne, hokind, hclean⟩⟩
      · rcases hnode with hself | ⟨-, houter⟩
        · rw [hself] at hdeep
          exact absurd (Forest.subset_preorder hnested _ hdeep)
            (file.not_mem_inside_self (file.node_mem_nodes hs))
        · exact absurd hdeep (houter o.node hnested hokind)
    · intro hin
      exact (hfound (List.mem_cons_of_mem _ hin)).imp_right fun h => h.imp_right
        fun ⟨o, ho, hokind, hnested, hclean, hreported, _⟩ =>
          ⟨o, ho, hokind, hnested, hclean, hreported⟩
  · intro d hd
    obtain ⟨f, hf, rfl⟩ := List.mem_map.mp hd
    exact Problem.message_of_shape (not_shape_of_mem_checkFile hf)

end SchemaFile

end SchemaLang
