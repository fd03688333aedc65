import Mathlib.Data.List.Induction
import Mathlib.Order.Nat
import SchemaLang.SchemaFile

/-!
# Fields in the order of their numbers

Putting a field into a row that ascends by number keeps the row ascending, and the
field takes the place of the one that had its number. Fields put one after the other
leave, of those with one number, the last. So the ordered fields of a definition are
the last fields with their numbers and no others, and each number stands once.
-/

set_option autoImplicit false

namespace SchemaLang

namespace SchemaFile

/-! ## Putting one field -/

def NumbersAscend (fields : List (Nat × Node)) : Prop := (fields.map Prod.fst).Pairwise (· < ·)

variable {number : Nat} {field : Node} {fields numbered : List (Nat × Node)} {p q : Nat × Node}

/-- A field is put between the smaller numbers and the greater ones, in place of the field
that had its number. -/
theorem exists_putField (number : Nat) (field : Node) (h : NumbersAscend fields) :
    ∃ below same above, fields = below ++ same ++ above ∧
      putField number field fields = below ++ (number, field) :: above ∧
      (∀ q ∈ below, q.1 < number) ∧ (∀ q ∈ above, number < q.1) ∧
      (same = [] ∨ ∃ f, same = [(number, f)]) := by
  induction fields with
  | nil => exact ⟨[], [], [], rfl, rfl, List.forall_mem_nil _, List.forall_mem_nil _, .inl rfl⟩
  | cons q rest ih =>
    obtain ⟨n, f⟩ := q
    rw [NumbersAscend, List.map_cons, List.pairwise_cons, List.forall_mem_map] at h
    obtain ⟨hrest, hascend⟩ := h
    rw [putField]
    split
    · rename_i hlt
      refine ⟨[], [], (n, f) :: rest, rfl, rfl, List.forall_mem_nil _, ?_, .inl rfl⟩
      exact List.forall_mem_cons.mpr ⟨hlt, fun q hq => hlt.trans (hrest q hq)⟩
    · split
      · rename_i heq
        exact ⟨[], [(n, f)], rest, rfl, rfl, List.forall_mem_nil _, heq ▸ hrest,
          .inr ⟨f, by rw [heq]⟩⟩
      · rename_i hlt hne
        obtain ⟨below, same, above, hsplit, hput, hbelow, habove, hsame⟩ := ih hascend
        refine ⟨(n, f) :: below, same, above, by rw [hsplit]; rfl, by rw [hput]; rfl, ?_, habove,
          hsame⟩
        refine List.forall_mem_cons.mpr ⟨?_, hbelow⟩
        show n < number
        omega

/-- The row holds the field that was put, and of the others those with other numbers. -/
theorem mem_putField_iff (h : NumbersAscend fields) :
    p ∈ putField number field fields ↔ p = (number, field) ∨ p ∈ fields ∧ p.1 ≠ number := by
  obtain ⟨below, same, above, rfl, hput, hbelow, habove, hsame⟩ := exists_putField number field h
  have hsame : ∀ q ∈ same, q.1 = number := by
    rcases hsame with rfl | ⟨f, rfl⟩
    · exact List.forall_mem_nil _
    · exact List.forall_mem_singleton.mpr rfl
  rw [hput, List.mem_append, List.mem_cons, List.mem_append, List.mem_append]
  constructor
  · rintro (hp | hp | hp)
    · exact .inr ⟨.inl (.inl hp), (hbelow p hp).ne⟩
    · exact .inl hp
    · exact .inr ⟨.inr hp, (habove p hp).ne'⟩
  · rintro (hp | ⟨(hp | hp) | hp, hother⟩)
    · exact .inr (.inl hp)
    · exact .inl hp
    · exact absurd (hsame p hp) hother
    · exact .inr (.inr hp)

theorem numbersAscend_putField (h : NumbersAscend fields) :
    NumbersAscend (putField number field fields) := by
  obtain ⟨below, same, above, rfl, hput, hbelow, habove, -⟩ := exists_putField number field h
  have hothers : NumbersAscend (below ++ above) := by
    refine List.Pairwise.sublist (List.Sublist.map _ ?_) h
    exact (List.sublist_append_left below same).append_right above
  rw [NumbersAscend, List.map_append, List.pairwise_append] at hothers
  rw [hput, NumbersAscend, List.map_append, List.map_cons, List.pairwise_append, List.pairwise_cons]
  refine ⟨hothers.1, ⟨List.forall_mem_map.mpr habove, hothers.2.1⟩, ?_⟩
  refine List.forall_mem_map.mpr fun q hq => List.forall_mem_cons.mpr ⟨hbelow q hq, ?_⟩
  exact hothers.2.2 q.1 (List.mem_map_of_mem hq)

theorem length_putField (h : NumbersAscend fields) : (putField number field fields).length =
    if number ∈ fields.map Prod.fst then fields.length else fields.length + 1 := by
  obtain ⟨below, same, above, rfl, hput, hbelow, habove, hsame⟩ := exists_putField number field h
  rw [hput, List.length_append, List.length_cons]
  rcases hsame with rfl | ⟨f, rfl⟩
  · have hnew : number ∉ (below ++ [] ++ above).map Prod.fst := by
      rw [List.append_nil, List.mem_map]
      rintro ⟨q, hq, rfl⟩
      rcases List.mem_append.mp hq with hq | hq
      · exact lt_irrefl _ (hbelow q hq)
      · exact lt_irrefl _ (habove q hq)
    rw [if_neg hnew, List.append_nil, List.length_append, Nat.add_assoc]
  · rw [if_pos (List.mem_map.mpr ⟨(number, f), by simp, rfl⟩), List.length_append,
      List.length_append, List.length_singleton]
    omega

/-! ## Putting all of them -/

def putAll (numbered : List (Nat × Node)) : List (Nat × Node) :=
  numbered.foldl (fun fields p => putField p.1 p.2 fields) []

theorem orderedFields_eq (file : SchemaFile) (definition : Node) :
    file.orderedFields definition = (putAll (file.numberedFields definition)).map Prod.snd := rfl

theorem putAll_concat (numbered : List (Nat × Node)) (p : Nat × Node) :
    putAll (numbered ++ [p]) = putField p.1 p.2 (putAll numbered) := by
  rw [putAll, List.foldl_append]
  rfl

theorem numbersAscend_putAll (numbered : List (Nat × Node)) : NumbersAscend (putAll numbered) := by
  induction numbered using List.reverseRecOn with
  | nil => exact .nil
  | append_singleton numbered p ih =>
    rw [putAll_concat]
    exact numbersAscend_putField ih

/-- An element of a row with one more at its end is that one or stands before it. -/
theorem concat_eq_append_cons_iff {α : Type} {xs before after : List α} {x y : α} :
    xs ++ [y] = before ++ x :: after ↔ (xs = before ∧ x = y ∧ after = []) ∨
      ∃ rest, xs = before ++ x :: rest ∧ after = rest ++ [y] := by
  constructor
  · intro h
    rcases List.eq_nil_or_concat after with rfl | ⟨rest, last, rfl⟩
    · obtain ⟨hxs, hlast⟩ := List.append_inj' h rfl
      exact .inl ⟨hxs, (List.singleton_inj.mp hlast).symm, rfl⟩
    · rw [List.concat_eq_append, ← List.cons_append, ← List.append_assoc] at h
      obtain ⟨hxs, hlast⟩ := List.append_inj' h rfl
      exact .inr ⟨rest, hxs, by rw [List.concat_eq_append, List.singleton_inj.mp hlast]⟩
  · rintro (⟨rfl, rfl, rfl⟩ | ⟨rest, rfl, rfl⟩)
    · rfl
    · rw [List.append_assoc, List.cons_append]

def IsLast (numbered : List (Nat × Node)) (p : Nat × Node) : Prop :=
  ∃ before after, numbered = before ++ p :: after ∧ ∀ q ∈ after, q.1 ≠ p.1

theorem isLast_concat : IsLast (numbered ++ [q]) p ↔ p = q ∨ IsLast numbered p ∧ p.1 ≠ q.1 := by
  constructor
  · rintro ⟨before, after, hsplit, hafter⟩
    rcases concat_eq_append_cons_iff.mp hsplit with ⟨-, rfl, -⟩ | ⟨after, hnumbered, rfl⟩
    · exact .inl rfl
    · rw [List.forall_mem_append, List.forall_mem_singleton] at hafter
      exact .inr ⟨⟨before, after, hnumbered, hafter.1⟩, hafter.2.symm⟩
  · rintro (rfl | ⟨⟨before, after, rfl, hafter⟩, hne⟩)
    · exact ⟨numbered, [], rfl, List.forall_mem_nil _⟩
    · refine ⟨before, after ++ [q], by rw [List.append_assoc, List.cons_append], ?_⟩
      rw [List.forall_mem_append, List.forall_mem_singleton]
      exact ⟨hafter, hne.symm⟩

theorem mem_putAll_iff : p ∈ putAll numbered ↔ IsLast numbered p := by
  induction numbered using List.reverseRecOn with
  | nil =>
    refine iff_of_false List.not_mem_nil ?_
    rintro ⟨before, after, hsplit, -⟩
    simp at hsplit
  | append_singleton numbered q ih =>
    rw [putAll_concat, mem_putField_iff (numbersAscend_putAll numbered), isLast_concat, ih]

theorem exists_isLast (h : p ∈ numbered) : ∃ field, IsLast numbered (p.1, field) := by
  induction numbered using List.reverseRecOn with
  | nil => cases h
  | append_singleton numbered q ih =>
    by_cases hq : p.1 = q.1
    · exact ⟨q.2, isLast_concat.mpr (.inl (by rw [hq]))⟩
    · rw [List.mem_append, List.mem_singleton] at h
      obtain ⟨field, hfield⟩ := ih (h.resolve_right fun heq => hq (by rw [heq]))
      exact ⟨field, isLast_concat.mpr (.inr ⟨hfield, hq⟩)⟩

theorem mem_map_fst_putAll_iff :
    number ∈ (putAll numbered).map Prod.fst ↔ number ∈ numbered.map Prod.fst := by
  constructor
  · intro h
    obtain ⟨p, hp, rfl⟩ := List.mem_map.mp h
    obtain ⟨before, after, rfl, -⟩ := mem_putAll_iff.mp hp
    exact List.mem_map_of_mem (by simp)
  · intro h
    obtain ⟨p, hp, rfl⟩ := List.mem_map.mp h
    obtain ⟨field, hfield⟩ := exists_isLast hp
    exact List.mem_map.mpr ⟨_, mem_putAll_iff.mpr hfield, rfl⟩

theorem length_putAll_concat (numbered : List (Nat × Node)) (p : Nat × Node) :
    (putAll (numbered ++ [p])).length =
      if p.1 ∈ numbered.map Prod.fst then (putAll numbered).length
      else (putAll numbered).length + 1 := by
  rw [putAll_concat, length_putField (numbersAscend_putAll numbered)]
  simp only [mem_map_fst_putAll_iff]

/-! ## The fields of a definition -/

variable {file : SchemaFile} {definition : Node} {nodes : List Node}

def numbersOf (file : SchemaFile) (nodes : List Node) : List (Nat × Node) :=
  nodes.filterMap fun field => (file.fieldNumber? field).map (·, field)

theorem numberedFields_eq (file : SchemaFile) (definition : Node) :
    file.numberedFields definition = file.numbersOf (definition.childrenOfKind .field) := rfl

theorem mem_numbersOf : (number, field) ∈ file.numbersOf nodes ↔
    field ∈ nodes ∧ file.fieldNumber? field = some number := by
  simp [numbersOf, Option.map_eq_some_iff]

theorem length_numberedFields (file : SchemaFile) (definition : Node) :
    (file.numberedFields definition).length =
      (definition.childrenOfKind .field).countP fun field => (file.fieldNumber? field).isSome := by
  simp [numberedFields, List.length_filterMap_eq_countP]

/-- A numbered field stands between the numbered ones before it and those after it. -/
theorem exists_split_numbersOf {P : List (Nat × Node) → List (Nat × Node) → Prop} :
    (∃ before after, file.numbersOf nodes = before ++ (number, field) :: after ∧ P before after) ↔
      ∃ before after, nodes = before ++ field :: after ∧ file.fieldNumber? field = some number ∧
        P (file.numbersOf before) (file.numbersOf after) := by
  constructor
  · rintro ⟨_, _, hsplit, hP⟩
    obtain ⟨before, behind, rfl, rfl, hbehind⟩ := List.filterMap_eq_append_iff.mp hsplit
    obtain ⟨unnumbered, f, after, rfl, hunnumbered, hf, rfl⟩ :=
      List.filterMap_eq_cons_iff.mp hbehind
    obtain ⟨_, hnumber, hpair⟩ := Option.map_eq_some_iff.mp hf
    obtain ⟨rfl, rfl⟩ := Prod.mk.inj hpair
    refine ⟨before ++ unnumbered, after, (List.append_assoc ..).symm, hnumber, ?_⟩
    have hbefore : file.numbersOf (before ++ unnumbered) = file.numbersOf before := by
      rw [numbersOf, List.filterMap_append, List.filterMap_eq_nil_iff.mpr hunnumbered,
        List.append_nil]
      rfl
    rwa [hbefore]
  · rintro ⟨before, after, rfl, hnumber, hP⟩
    refine ⟨_, _, ?_, hP⟩
    rw [numbersOf, List.filterMap_append, List.filterMap_cons, hnumber]
    rfl

def IsLastField (file : SchemaFile) (definition : Node) (number : Nat) (field : Node) : Prop :=
  ∃ before after, definition.childrenOfKind .field = before ++ field :: after ∧
    file.fieldNumber? field = some number ∧ ∀ f ∈ after, file.fieldNumber? f ≠ some number

theorem isLast_numberedFields_iff :
    IsLast (file.numberedFields definition) (number, field) ↔
      file.IsLastField definition number field := by
  rw [IsLast, numberedFields_eq, exists_split_numbersOf]
  refine exists_congr fun before => exists_congr fun after =>
    and_congr_right fun _ => and_congr_right fun _ => ⟨fun h f hf hnumber => ?_, ?_⟩
  · exact h (number, f) (mem_numbersOf.mpr ⟨hf, hnumber⟩) rfl
  · rintro h ⟨n, f⟩ hq rfl
    exact h f (mem_numbersOf.mp hq).1 (mem_numbersOf.mp hq).2

/-- The ordered fields are the last ones with their numbers. -/
theorem mem_orderedFields_iff :
    field ∈ file.orderedFields definition ↔ ∃ number, file.IsLastField definition number field := by
  rw [orderedFields_eq, List.mem_map]
  simp only [Prod.exists, exists_eq_right, mem_putAll_iff, isLast_numberedFields_iff]

/-- The numbers of the ordered fields ascend, and they are those of all fields. -/
theorem exists_numbers (file : SchemaFile) (definition : Node) : ∃ numbers : List Nat,
    (file.orderedFields definition).map file.fieldNumber? = numbers.map some ∧
      numbers.Pairwise (· < ·) ∧ ∀ number, number ∈ numbers ↔
        ∃ field ∈ definition.childrenOfKind .field, file.fieldNumber? field = some number := by
  refine ⟨_, ?_, numbersAscend_putAll (file.numberedFields definition), fun number => ?_⟩
  · rw [orderedFields_eq, List.map_map, List.map_map]
    refine List.map_congr_left fun ⟨number, field⟩ hp => ?_
    obtain ⟨before, after, -, hnumber, -⟩ := isLast_numberedFields_iff.mp (mem_putAll_iff.mp hp)
    exact hnumber
  · rw [mem_map_fst_putAll_iff, numberedFields_eq, List.mem_map]
    simp only [Prod.exists, exists_and_right, exists_eq_right, mem_numbersOf]

/-- Of the fields with a number the last one is among the ordered. -/
theorem exists_isLastField (hfield : field ∈ definition.childrenOfKind .field)
    (hnumber : file.fieldNumber? field = some number) :
    ∃ last, file.IsLastField definition number last := by
  obtain ⟨last, hlast⟩ := exists_isLast (numberedFields_eq file definition ▸
    mem_numbersOf.mpr ⟨hfield, hnumber⟩)
  exact ⟨last, isLast_numberedFields_iff.mp hlast⟩

end SchemaFile

end SchemaLang
