import SchemaLang.Check
import SchemaLang.Proofs.FieldOrder

/-!
# Numbers that are used twice

Two loops run over the numbered fields of a definition. The ordering keeps, of the
fields with one number, the last; the check remembers the first and warns at every
later one. Whatever the fields, each of them either adds a number to the order or is
warned about, so the two agree on how many there are.
-/

set_option autoImplicit false

namespace SchemaLang

namespace Checker

open SchemaFile

variable {c : Checker} {s : Site} {p q : Nat × Node} {f : Finding}
  {seen fields numbered : List (Nat × Node)}

/-! ## One definition -/

def repeated? (c : Checker) (before : List (Nat × Node)) (p : Nat × Node) : Option Finding :=
  (before.find? (·.1 = p.1)).map fun first =>
    ⟨.duplicateNumber p.1 ((c.file.fieldName? first.2).getD ""),
      (p.2.firstChild? .fieldNumber).getD p.2, some first.2, none⟩

theorem isSome_repeated? :
    (c.repeated? numbered p).isSome = true ↔ p.1 ∈ numbered.map Prod.fst := by
  rw [repeated?, Option.isSome_map, List.find?_isSome, List.mem_map]
  simp only [decide_eq_true_eq]

/-- A last field is looked up among all before it: a field that is not remembered has
the number of one that is. -/
theorem duplicateNumbers_concat :
    c.duplicateNumbers seen (fields ++ [q]) =
      c.duplicateNumbers seen fields ++ (c.repeated? (seen ++ fields) q).toList := by
  induction fields generalizing seen with
  | nil =>
    obtain ⟨number, field⟩ := q
    rw [List.append_nil, repeated?, List.nil_append, duplicateNumbers, duplicateNumbers]
    cases seen.find? (·.1 = number) <;> rfl
  | cons p rest ih =>
    obtain ⟨number, field⟩ := p
    rw [List.cons_append, duplicateNumbers, duplicateNumbers]
    cases hfirst : seen.find? (·.1 = number) with
    | none =>
      dsimp only
      rw [ih, List.append_assoc, List.singleton_append]
    | some first =>
      have hskip : (seen ++ (number, field) :: rest).find? (·.1 = q.1) =
          (seen ++ rest).find? (·.1 = q.1) := by
        rw [List.find?_append, List.find?_append, List.find?_cons]
        by_cases hq : number = q.1
        · rw [← hq, hfirst, Option.some_or, Option.some_or]
        · rw [decide_eq_false hq]
      dsimp only
      rw [ih, repeated?, repeated?, hskip, List.cons_append]

/-- Each numbered field adds to the order or is warned about. -/
theorem length_duplicateNumbers (c : Checker) (numbered : List (Nat × Node)) :
    (c.duplicateNumbers [] numbered).length + (putAll numbered).length = numbered.length := by
  induction numbered using List.reverseRecOn with
  | nil => rfl
  | append_singleton numbered p ih =>
    rw [duplicateNumbers_concat, List.nil_append, length_putAll_concat, List.length_append,
      List.length_append, List.length_singleton]
    by_cases hp : p.1 ∈ numbered.map Prod.fst
    · obtain ⟨report, hreport⟩ := Option.isSome_iff_exists.mp (isSome_repeated?.mpr hp)
      rw [if_pos hp, hreport, Option.toList_some, List.length_singleton]
      omega
    · have hnone : c.repeated? numbered p = none :=
        Option.not_isSome_iff_eq_none.mp (mt isSome_repeated?.mp hp)
      rw [if_neg hp, hnone, Option.toList_none, List.length_nil]
      omega

/-- The warnings are those about a field behind others with its number. -/
theorem mem_duplicateNumbers_iff : f ∈ c.duplicateNumbers [] numbered ↔
    ∃ p before after, numbered = before ++ p :: after ∧ c.repeated? before p = some f := by
  induction numbered using List.reverseRecOn with
  | nil =>
    refine iff_of_false List.not_mem_nil ?_
    rintro ⟨p, before, after, hsplit, -⟩
    simp at hsplit
  | append_singleton numbered q ih =>
    rw [duplicateNumbers_concat, List.nil_append, List.mem_append, Option.mem_toList, ih]
    constructor
    · rintro (⟨p, before, after, rfl, hp⟩ | hq)
      · exact ⟨p, before, after ++ [q], by rw [List.append_assoc, List.cons_append], hp⟩
      · exact ⟨q, numbered, [], rfl, hq⟩
    · rintro ⟨p, before, after, hsplit, hp⟩
      rcases concat_eq_append_cons_iff.mp hsplit with ⟨rfl, rfl, -⟩ | ⟨rest, hnumbered, -⟩
      · exact .inr hp
      · exact .inl ⟨p, before, rest, hnumbered, hp⟩

/-- The warnings stand at the numbers in their order, at each at most once. -/
theorem sublist_duplicateNumbers (c : Checker) (numbered : List (Nat × Node)) :
    ((c.duplicateNumbers [] numbered).map Finding.node).Sublist
      (numbered.map fun p => (p.2.firstChild? .fieldNumber).getD p.2) := by
  induction numbered using List.reverseRecOn with
  | nil => exact .slnil
  | append_singleton numbered q ih =>
    rw [duplicateNumbers_concat, List.nil_append, List.map_append, List.map_append]
    refine ih.append ?_
    rw [repeated?]
    cases numbered.find? (·.1 = q.1) with
    | none => exact List.nil_sublist _
    | some first => exact List.Sublist.refl _

end Checker

namespace SchemaFile

variable {file : SchemaFile} {r : Resolver} {s t : Site} {definition field first n : Node}
  {nodes : List Node} {number : Nat} {f : Finding}

/-! ## The fields of a definition -/

def Repeats (file : SchemaFile) (definition : Node) (number : Nat) (first field : Node) : Prop :=
  ∃ before after, definition.childrenOfKind .field = before ++ field :: after ∧
    file.fieldNumber? field = some number ∧
    before.find? (fun f => file.fieldNumber? f = some number) = some first

def WarnsOfRepeat (file : SchemaFile) (definition : Node) (f : Finding) : Prop :=
  ∃ number first field anchor, file.Repeats definition number first field ∧
    field.firstChild? .fieldNumber = some anchor ∧
    f = ⟨.duplicateNumber number ((file.fieldName? first).getD ""), anchor, some first, none⟩

theorem find?_numbersOf : (file.numbersOf nodes).find? (·.1 = number) =
    (nodes.find? fun f => file.fieldNumber? f = some number).map (number, ·) := by
  have htest (f : Node) : ((file.fieldNumber? f).map (·, f)).any (·.1 = number) =
      decide (file.fieldNumber? f = some number) := by
    cases file.fieldNumber? f <;> simp
  simp only [numbersOf, List.find?_filterMap, htest]
  cases hfirst : nodes.find? fun f => file.fieldNumber? f = some number with
  | none => rfl
  | some first =>
    have hnumber : file.fieldNumber? first = some number := by simpa using List.find?_some hfirst
    rw [Option.bind_some, hnumber]
    rfl

theorem firstChild?_of_fieldNumber? (h : file.fieldNumber? field = some number) :
    ∃ n, field.firstChild? .fieldNumber = some n := by
  obtain ⟨n, hn, -⟩ := Option.bind_eq_some_iff.mp h
  exact ⟨n, hn⟩

theorem Repeats.fieldNumber? (h : file.Repeats definition number first field) :
    file.fieldNumber? field = some number := by
  obtain ⟨-, -, -, hnumber, -⟩ := h
  exact hnumber

/-- What is repeated, told by the row of the fields with their numbers. -/
theorem repeats_iff : file.Repeats definition number first field ↔
    ∃ before after, file.numberedFields definition = before ++ (number, field) :: after ∧
      before.find? (·.1 = number) = some (number, first) := by
  rw [numberedFields_eq, exists_split_numbersOf]
  simp only [find?_numbersOf, Option.map_eq_some_iff, Prod.mk.injEq, true_and, exists_eq_right]
  rfl

/-- A repeated number is warned of with the field that had it first. -/
theorem mem_duplicateNumbers_numberedFields :
    f ∈ (Checker.mk file r).duplicateNumbers [] (file.numberedFields definition) ↔
      file.WarnsOfRepeat definition f := by
  rw [Checker.mem_duplicateNumbers_iff]
  constructor
  · rintro ⟨⟨number, field⟩, before, after, hsplit, hreport⟩
    obtain ⟨⟨n, first⟩, hfirst, rfl⟩ := Option.map_eq_some_iff.mp hreport
    obtain rfl : n = number := by simpa using List.find?_some hfirst
    have hrepeats : file.Repeats definition n first field :=
      repeats_iff.mpr ⟨before, after, hsplit, hfirst⟩
    obtain ⟨anchor, hanchor⟩ := firstChild?_of_fieldNumber? hrepeats.fieldNumber?
    exact ⟨n, first, field, anchor, hrepeats, hanchor, by rw [hanchor]; rfl⟩
  · rintro ⟨number, first, field, anchor, hrepeats, hanchor, rfl⟩
    obtain ⟨before, after, hsplit, hfirst⟩ := repeats_iff.mp hrepeats
    refine ⟨(number, field), before, after, hsplit, ?_⟩
    rw [Checker.repeated?, hfirst, hanchor]
    rfl

end SchemaFile

end SchemaLang
