import SchemaLang.Proofs.RepeatedNumbers
import SchemaLang.Proofs.Unresolved
import SchemaLang.Proofs.WrittenNumbers

/-!
# Warnings about numbers that are used twice

No check but that of a type or a component finds that a number is used, and what it
finds stands at a number of its own fields. So the warnings of a file fall apart into
those of its definitions, and each of them goes with the order of the fields there.
-/

set_option autoImplicit false

namespace SchemaLang

namespace Checker

variable {c : Checker} {s : Site}

/-- What only one of the sites reports is found by the check of all of them as it is there. -/
theorem filter_checkSites [Likeness] {P : Finding → Bool} {reports : List Finding}
    {sites : List Site} (hself : ∀ judged, (c.checkSite judged s).reported.filter P = reports)
    (hother : ∀ t ∈ sites, t ≠ s → ∀ judged, (c.checkSite judged t).reported.filter P = [])
    (hnodup : sites.Nodup) (hs : s ∈ sites) (judged : List Nat) :
    (c.checkSites judged sites).filter P = reports := by
  induction sites generalizing judged with
  | nil => cases hs
  | cons t rest ih =>
    obtain ⟨hfresh, hnodup⟩ := List.nodup_cons.mp hnodup
    obtain ⟨ht, hrest⟩ := List.forall_mem_cons.mp hother
    rw [checkSites, List.filter_append]
    rcases List.mem_cons.mp hs with rfl | hs
    · rw [hself, List.filter_eq_nil_iff.mpr fun f hf => ?_, List.append_nil]
      obtain ⟨u, hu, judged', hf⟩ := exists_of_mem_checkSites hf
      have hne : u ≠ s := fun heq => hfresh (heq ▸ hu)
      exact List.filter_eq_nil_iff.mp (hrest u hu hne judged') f hf
    · rw [ht fun heq => hfresh (heq ▸ hs), ih hrest hnodup hs, List.nil_append]

end Checker

namespace SchemaFile

variable {file : SchemaFile} {r : Resolver} {s t : Site} {definition n : Node} {f : Finding}

/-! ## The whole check -/

def numberNodes (definition : Node) : List Node :=
  (definition.childrenOfKind .field).filterMap (·.firstChild? .fieldNumber)

def repeatWarnings [Likeness] (file : SchemaFile) (r : Resolver) (definition : Node) :
    List Finding :=
  (checkFile file r).filter fun f => f.problem.code = .duplicateFieldNumber ∧
    f.node.id ∈ (numberNodes definition).map Node.id

theorem mem_numberNodes : n ∈ numberNodes definition ↔
    ∃ field ∈ definition.childrenOfKind .field, field.firstChild? .fieldNumber = some n :=
  List.mem_filterMap

/-- A number stands in one field, and that in one definition. -/
theorem field_of_number (hs : s ∈ file.sites) (ht : t ∈ file.sites) {f g : Node}
    (hf : f ∈ s.node.childrenOfKind .field) (hg : g ∈ t.node.childrenOfKind .field)
    (hn : f.firstChild? .fieldNumber = some n) (hn' : g.firstChild? .fieldNumber = some n) :
    f = g ∧ s = t := by
  have hfs := List.mem_of_mem_filter hf
  have hgt := List.mem_of_mem_filter hg
  have hsame := file.parent_unique (file.child_mem_sites hs hfs) (file.child_mem_sites ht hgt)
    (List.mem_of_find?_eq_some hn) (List.mem_of_find?_eq_some hn')
  obtain rfl : f = g := congrArg Site.node hsame
  exact ⟨rfl, file.parent_unique hs ht hfs hgt⟩

theorem mem_nodes_of_mem_numberNodes (hs : s ∈ file.sites) (hn : n ∈ numberNodes s.node) :
    n ∈ file.nodes := by
  obtain ⟨f, hf, hn⟩ := mem_numberNodes.mp hn
  have hfield := file.child_mem_sites hs (List.mem_of_mem_filter hf)
  exact file.node_mem_nodes (file.child_mem_sites hfield (List.mem_of_find?_eq_some hn))

theorem node_mem_numberNodes
    (hf : f ∈ (Checker.mk file r).duplicateNumbers [] (file.numberedFields definition)) :
    f.node ∈ numberNodes definition ∧ f.problem.code = .duplicateFieldNumber := by
  obtain ⟨number, first, field, anchor, ⟨before, after, hsplit, -⟩, hanchor, rfl⟩ :=
    mem_duplicateNumbers_numberedFields.mp hf
  exact ⟨mem_numberNodes.mpr ⟨field, by simp [hsplit], hanchor⟩, rfl⟩

variable [Likeness]

theorem reported_of_kind (hkind : s.kind = .type ∨ s.kind = .component) (judged : List Nat) :
    ((Checker.mk file r).checkSite judged s).reported =
      (Checker.mk file r).duplicateNumbers [] (file.numberedFields s.node) := by
  rcases hkind with h | h <;> rw [Checker.checkSite, h] <;> rfl

/-- Only at a type or a component it is found that a number is used. -/
theorem kind_of_code {judged : List Nat} (hs : s ∈ file.sites)
    (hf : f ∈ ((Checker.mk file r).checkSite judged s).reported)
    (hcode : f.problem.code = .duplicateFieldNumber) : s.kind = .type ∨ s.kind = .component := by
  cases Checker.finds_of_mem_checkSite (c := ⟨file, r⟩) hs hf with
  | type _ _ _ hother =>
    rcases hother with hother | ⟨name, found, hother⟩
    · cases hcode.symm.trans hother
    · rw [hother] at hcode
      cases hcode
  | number hkind => exact hkind
  | bareName _ _ hother => cases hcode.symm.trans hother
  | tag _ _ _ _ htraced => exact absurd hcode (Checker.code_of_traced htraced).2
  | construction _ _ _ _ htraced => exact absurd hcode (Checker.code_of_traced htraced).2

/-- The warnings at a definition are those that checking the definition gives. -/
theorem repeatWarnings_eq (hs : s ∈ file.sites) (hkind : s.kind = .type ∨ s.kind = .component) :
    repeatWarnings file r s.node =
      (Checker.mk file r).duplicateNumbers [] (file.numberedFields s.node) := by
  have hsyntax : file.syntaxFindings.filter (fun f => f.problem.code = .duplicateFieldNumber ∧
      f.node.id ∈ (numberNodes s.node).map Node.id) = [] := by
    rw [List.filter_eq_nil_iff, syntaxFindings, List.forall_mem_map]
    rintro ⟨n, fault⟩ -
    simp [Problem.code]
  rw [repeatWarnings, checkFile, List.filter_append, hsyntax, List.nil_append]
  refine Checker.filter_checkSites (fun judged => ?_) (fun t ht hne judged => ?_)
    file.nodup_sites hs []
  · rw [reported_of_kind hkind, List.filter_eq_self]
    intro f hf
    obtain ⟨hnode, hcode⟩ := node_mem_numberNodes hf
    exact decide_eq_true ⟨hcode, List.mem_map_of_mem hnode⟩
  · rw [List.filter_eq_nil_iff]
    intro f hf hwarns
    obtain ⟨hcode, hid⟩ := of_decide_eq_true hwarns
    rw [reported_of_kind (kind_of_code ht hf hcode)] at hf
    have hnode := (node_mem_numberNodes hf).1
    obtain ⟨n, hn, hid⟩ := List.mem_map.mp hid
    have heq : n = f.node := file.eq_of_id_eq (mem_nodes_of_mem_numberNodes hs hn)
      (mem_nodes_of_mem_numberNodes ht hnode) hid
    obtain ⟨g, hg, hgn⟩ := mem_numberNodes.mp hnode
    obtain ⟨h, hh, hhn⟩ := mem_numberNodes.mp (heq ▸ hn)
    exact hne (field_of_number ht hs hg hh hgn hhn).2

/-- Every finding about a used number is at a number of some type or component. -/
theorem exists_definition (hf : f ∈ checkFile file r)
    (hcode : f.problem.code = .duplicateFieldNumber) : ∃ s ∈ file.sites,
      (s.kind = .type ∨ s.kind = .component) ∧ f ∈ repeatWarnings file r s.node := by
  rcases List.mem_append.mp hf with hfault | hfound
  · obtain ⟨⟨n, fault⟩, -, rfl⟩ := List.mem_map.mp hfault
    cases hcode
  · obtain ⟨s, hs, judged, hfound⟩ := Checker.exists_of_mem_checkSites hfound
    have hkind := kind_of_code hs hfound hcode
    rw [reported_of_kind hkind, ← repeatWarnings_eq hs hkind] at hfound
    exact ⟨s, hs, hkind, hfound⟩

theorem nodup_repeatWarnings (hs : s ∈ file.sites) (hkind : s.kind = .type ∨ s.kind = .component) :
    ((repeatWarnings file r s.node).map Finding.node).Nodup := by
  have hanchor {field n : Node} (h : ((file.fieldNumber? field).map (·, field)).map
      (fun p => (p.2.firstChild? .fieldNumber).getD p.2) = some n) :
      field.firstChild? .fieldNumber = some n := by
    rw [Option.map_map] at h
    obtain ⟨number, hnumber, rfl⟩ := Option.map_eq_some_iff.mp h
    obtain ⟨n, hn⟩ := firstChild?_of_fieldNumber? hnumber
    simp [hn]
  rw [repeatWarnings_eq hs hkind]
  refine (Checker.sublist_duplicateNumbers _ _).nodup ?_
  rw [numberedFields_eq, numbersOf, List.map_filterMap, List.Nodup, List.pairwise_filterMap]
  refine ((Checker.nodup_children hs).filter _).imp_of_mem fun hf hg hne n hn m hm hnm => hne ?_
  subst hnm
  exact (field_of_number hs hs hf hg (hanchor hn) (hanchor hm)).1

structure NumbersAgree (file : SchemaFile) (r : Resolver) (definition : Node) : Prop where
  /-- The numbers of the ordered fields ascend, and they are those of all fields. -/
  ascend : ∃ numbers : List Nat,
    (file.orderedFields definition).map file.fieldNumber? = numbers.map some ∧
      numbers.Pairwise (· < ·) ∧ ∀ number, number ∈ numbers ↔
        ∃ field ∈ definition.childrenOfKind .field, file.fieldNumber? field = some number
  /-- A number stands for the last field that has it. -/
  last (field : Node) :
    field ∈ file.orderedFields definition ↔ ∃ number, file.IsLastField definition number field
  /-- Every field with a number adds to the order or makes for a warning. -/
  count : (repeatWarnings file r definition).length + (file.orderedFields definition).length =
    (definition.childrenOfKind .field).countP fun field => (file.fieldNumber? field).isSome
  /-- No number is warned about twice. -/
  once : ((repeatWarnings file r definition).map Finding.node).Nodup
  /-- The warnings are about the fields whose number an earlier one has. -/
  warnings (f : Finding) :
    f ∈ repeatWarnings file r definition ↔ file.WarnsOfRepeat definition f

/-- The number of a field is the one that is written in it, if that is below 2^64. Order and
warnings agree at every type and component, and there are no other warnings about used
numbers. -/
theorem order_agrees_with_warnings (file : SchemaFile) (r : Resolver) :
    (∀ field ∈ file.nodes, file.fieldNumber? field =
      (field.firstChild? .fieldNumber).bind fun n =>
        if file.writtenNumber n < UInt64.size then some (file.writtenNumber n) else none) ∧
    (∀ s ∈ file.sites, s.kind = .type ∨ s.kind = .component → file.NumbersAgree r s.node) ∧
    ∀ f ∈ checkFile file r, f.problem.code = .duplicateFieldNumber →
      (f.diagnostic file).severity = .warning ∧ ∃ s ∈ file.sites,
        (s.kind = .type ∨ s.kind = .component) ∧ f ∈ repeatWarnings file r s.node := by
  refine ⟨fun field hfield => fieldNumber?_eq_bind hfield, ?_, ?_⟩
  · intro s hs hkind
    have hwarnings := repeatWarnings_eq (r := r) hs hkind
    exact {
      ascend := exists_numbers file s.node
      last := fun field => mem_orderedFields_iff
      count := by
        rw [hwarnings, orderedFields_eq, List.length_map, Checker.length_duplicateNumbers,
          length_numberedFields]
      once := nodup_repeatWarnings hs hkind
      warnings := fun f => by
        rw [hwarnings]
        exact mem_duplicateNumbers_numberedFields }
  · intro f hf hcode
    obtain ⟨s, hs, hkind, hwarns⟩ := exists_definition hf hcode
    refine ⟨?_, s, hs, hkind, hwarns⟩
    rw [repeatWarnings_eq hs hkind] at hwarns
    obtain ⟨number, first, field, anchor, -, -, rfl⟩ :=
      mem_duplicateNumbers_numberedFields.mp hwarns
    rfl

end SchemaFile

end SchemaLang
