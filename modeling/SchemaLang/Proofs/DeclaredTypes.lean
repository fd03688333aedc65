import SchemaLang.Check.DeclaredType
import SchemaLang.Proofs.FieldOrder
import SchemaLang.Proofs.Inhabitants
import SchemaLang.Proofs.Lookup

/-!
# Fields and their declared types

A field counts where it has a number, and then it has a type and a name too. A
declared type has either no parameters or, being generic, as many as it takes,
and its parameters have none themselves. This holds in every file, whatever
faults there are.
-/

set_option autoImplicit false

namespace SchemaLang

namespace SchemaFile

variable {file : SchemaFile} {s : Site}

/-- The fields of a definition are among those it numbers. -/
theorem exists_number_of_mem_orderedFields {definition field : Node}
    (h : field ∈ file.orderedFields definition) :
    ∃ number, (number, field) ∈ file.numberedFields definition := by
  obtain ⟨number, before, after, hsplit, hnumber, -⟩ := mem_orderedFields_iff.mp h
  refine ⟨number, mem_numbersOf.mpr ⟨?_, hnumber⟩⟩
  rw [hsplit]
  exact List.mem_append_right _ List.mem_cons_self

/-- The fields that count are children of the definition. -/
theorem child_of_mem_orderedFields {definition field : Node}
    (h : field ∈ file.orderedFields definition) : field ∈ definition.children ∧
      field.kind = .field ∧ (field.firstChild? .fieldNumber).isSome = true := by
  obtain ⟨number, h⟩ := exists_number_of_mem_orderedFields h
  obtain ⟨hf, hnumber⟩ := mem_numbersOf.mp h
  obtain ⟨hchild, hkind⟩ := List.mem_filter.mp hf
  obtain ⟨n, hn, -⟩ := Option.bind_eq_some_iff.mp hnumber
  exact ⟨hchild, eq_of_beq hkind, by rw [hn]; rfl⟩

theorem field_of_mem_orderedFields {definition field : Node} (hd : definition ∈ file.nodes)
    (h : field ∈ file.orderedFields definition) : field ∈ definition.children ∧
      (∃ type, fieldType? field = some type) ∧ ∃ name, file.fieldName? field = some name := by
  obtain ⟨hchild, hkind, hnumber⟩ := child_of_mem_orderedFields h
  obtain ⟨htype, hname⟩ :=
    file.field_children (file.mem_of_mem_children hd hchild) hkind hnumber
  refine ⟨hchild, Option.isSome_iff_exists.mp htype, ?_⟩
  obtain ⟨m, hm⟩ := Option.isSome_iff_exists.mp hname
  exact ⟨file.text m, by rw [fieldName?, hm]; rfl⟩

end SchemaFile

/-! ## Declared types -/

namespace DeclaredType

structure Sound (t : DeclaredType) : Prop where
  site : t.file.Has t.site
  count : t.parameters = [] ∨ Parse.parameterCount? t.base = some t.parameters.length
  parameter : ∀ p ∈ t.parameters, t.file.Has p ∧ p.kind = .typeParameter

variable {file : SchemaFile} {s : Site} {t : DeclaredType}

theorem sound_of_fieldType (h : file.Has s) (hkind : s.kind = .fieldType) :
    (DeclaredType.of file s).Sound := by
  have hmem := file.mem_of_kind_ne h.1 (by
    rw [show s.node.kind = .fieldType from hkind]
    decide)
  obtain ⟨name, parameters, hchildren, hname, hparameters, hcount⟩ :=
    file.fieldType_children hmem hkind
  have hbase : (s.node.firstChild? .typeName).getD s.node = name := by
    simp [Node.firstChild?, hchildren, hname]
  have hrest : s.node.childrenOfKind .typeParameter = parameters := by
    rw [Node.childrenOfKind, hchildren, List.filter_cons_of_neg (by simp [hname]),
      List.filter_eq_self]
    simpa using hparameters
  rw [DeclaredType.of, if_pos hkind, hbase, hrest]
  refine ⟨h, ?_, fun p hp => ?_⟩
  · simpa using hcount
  · obtain ⟨c, hc, rfl⟩ := List.mem_map.mp hp
    exact ⟨h.child (by rw [hchildren]; exact List.mem_cons_of_mem _ hc), hparameters c hc⟩

theorem parameters_of (hkind : s.kind ≠ .fieldType) : (DeclaredType.of file s).parameters = [] := by
  rw [DeclaredType.of, if_neg hkind]

theorem file_of (file : SchemaFile) (s : Site) : (DeclaredType.of file s).file = file := by
  unfold DeclaredType.of
  split <;> rfl

theorem site_of (file : SchemaFile) (s : Site) : (DeclaredType.of file s).site = s := by
  unfold DeclaredType.of
  split <;> rfl

theorem Sound.element (h : t.Sound) {p : Site} (hp : p ∈ t.parameters) :
    (DeclaredType.of t.file p).Sound ∧ (DeclaredType.of t.file p).parameters = [] := by
  obtain ⟨hhas, hkind⟩ := h.parameter p hp
  have hne : p.kind ≠ .fieldType := by simp [hkind]
  refine ⟨?_, parameters_of hne⟩
  rw [DeclaredType.of, if_neg hne]
  exact ⟨hhas, .inl rfl, by simp⟩

theorem Sound.parameters_eq (h : t.Sound) {count : Nat}
    (hcount : Parse.parameterCount? t.base = some count) :
    t.parameters = [] ∨ t.parameters.length = count :=
  h.count.imp_right fun hlength => Option.some.inj (hlength.symm.trans hcount)

theorem demand_cases (t : DeclaredType) :
    (∃ form, t.demand = .literal form ∧ t.parameters = [] ∧
      LiteralForm.ofType? t.base = some form) ∨
    (t.demand = .option ∧ t.base = "option") ∨ (t.demand = .list ∧ t.base = "list") ∨
    (t.demand = .map ∧ t.base = "map") ∨ t.demand = .named := by
  unfold demand
  split
  · rename_i form hform
    split at hform
    · exact .inl ⟨form, rfl, List.isEmpty_iff.mp ‹_›, hform⟩
    · cases hform
  right
  split
  · exact .inl ⟨rfl, ‹_›⟩
  right
  split
  · exact .inl ⟨rfl, ‹_›⟩
  right
  split
  · exact .inl ⟨rfl, ‹_›⟩
  · exact .inr rfl

end DeclaredType

def Definition.fieldTypes (d : Definition) : List DeclaredType :=
  (d.file.orderedFields d.site.node).filterMap fun field =>
    (SchemaFile.fieldType? field).map fun type => .of d.file ((d.site.child field).child type)

end SchemaLang
