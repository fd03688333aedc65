import SchemaLang.Proofs.NumberWarnings
import SchemaLang.Text.Similarity

/-!
# Numbers that are too great

The number of a field is a row of digits of any length, but a number of a field is
below 2^64. A field with a number in these bounds is among the ordered fields or a
later one has its number and is warned about. A greater number counts as none, and
the field it stands in is in no order and in no warning: unless something else is
wrong with the field, nothing tells that it is left out.
-/

set_option autoImplicit false

namespace SchemaLang

namespace SchemaFile

variable {file : SchemaFile} {r : Resolver} {s : Site} {field n : Node} {number : Nat}

/-- A numbered field is among the ordered ones, or a later one repeats its number. -/
theorem ordered_or_repeats (hfield : field ∈ s.node.childrenOfKind .field)
    (hnumber : file.fieldNumber? field = some number) :
    field ∈ file.orderedFields s.node ∨ ∃ first later, file.Repeats s.node number first later := by
  obtain ⟨last, before, after, hsplit, hlast, hafter⟩ := exists_isLastField hfield hnumber
  rw [hsplit, List.mem_append, List.mem_cons] at hfield
  rcases hfield with hbefore | rfl | hbehind
  · obtain ⟨first, hfirst⟩ : ∃ first,
        before.find? (fun f => file.fieldNumber? f = some number) = some first := by
      rw [← Option.isSome_iff_exists, List.find?_isSome]
      exact ⟨field, hbefore, decide_eq_true hnumber⟩
    exact .inr ⟨first, last, before, after, hsplit, hlast, hfirst⟩
  · exact .inl (mem_orderedFields_iff.mpr ⟨number, before, after, hsplit, hlast, hafter⟩)
  · exact absurd hnumber (hafter field hbehind)

/-- A field is in the order or its number is warned about exactly when that is below 2^64. -/
theorem counts_iff [Likeness] (hs : s ∈ file.sites) (hkind : s.kind = .type ∨ s.kind = .component)
    (hfield : field ∈ s.node.childrenOfKind .field) (hn : field.firstChild? .fieldNumber = some n) :
    (field ∈ file.orderedFields s.node ∨ ∃ f ∈ repeatWarnings file r s.node, ∃ holder,
      f.problem = .duplicateNumber (file.writtenNumber n) holder) ↔
        file.writtenNumber n < UInt64.size := by
  have hnodes : field ∈ file.nodes :=
    file.node_mem_nodes (file.child_mem_sites hs (List.mem_of_mem_filter hfield))
  have hnumber := fieldNumber?_eq hnodes hn
  refine ⟨?_, fun hlt => ?_⟩
  · rintro (hordered | ⟨f, hf, holder, hproblem⟩)
    · obtain ⟨number, before, after, -, hsome, -⟩ := mem_orderedFields_iff.mp hordered
      rw [hnumber] at hsome
      split at hsome
      · assumption
      · cases hsome
    · rw [repeatWarnings_eq hs hkind] at hf
      obtain ⟨number, first, later, anchor, hrepeats, -, rfl⟩ :=
        mem_duplicateNumbers_numberedFields.mp hf
      obtain ⟨rfl, -⟩ := Problem.duplicateNumber.inj hproblem
      exact lt_of_fieldNumber? hrepeats.fieldNumber?
  · rw [if_pos hlt] at hnumber
    refine (ordered_or_repeats hfield hnumber).imp_right ?_
    rintro ⟨first, later, hrepeats⟩
    obtain ⟨anchor, hanchor⟩ := firstChild?_of_fieldNumber? hrepeats.fieldNumber?
    rw [repeatWarnings_eq hs hkind]
    exact ⟨_, mem_duplicateNumbers_numberedFields.mpr
      ⟨_, first, later, anchor, hrepeats, hanchor, rfl⟩, _, rfl⟩

def Reported [Likeness] (file : SchemaFile) (r : Resolver) (n : Node) : Prop :=
  ∃ f ∈ checkFile file r, n.span.start ≤ f.node.span.start ∧ f.node.span.stop ≤ n.span.stop

def Accounted [Likeness] (file : SchemaFile) (r : Resolver) (definition field n : Node) : Prop :=
  field ∈ file.orderedFields definition ∨
    (∃ f ∈ repeatWarnings file r definition, ∃ holder,
      f.problem = .duplicateNumber (file.writtenNumber n) holder) ∨ Reported file r field

/-- A field with a number vanishes silently exactly when the number is not below 2^64 and
nothing is reported in the field. -/
theorem accounted_iff [Likeness] (file : SchemaFile) (r : Resolver) (hs : s ∈ file.sites)
    (hkind : s.kind = .type ∨ s.kind = .component) (hfield : field ∈ s.node.childrenOfKind .field)
    (hn : field.firstChild? .fieldNumber = some n) : Accounted file r s.node field n ↔
      file.writtenNumber n < UInt64.size ∨ Reported file r field := by
  rw [Accounted, ← or_assoc, counts_iff hs hkind hfield hn]

def Numbers (file : SchemaFile) (text : String) : Prop :=
  ∃ s ∈ file.sites, s.kind = .type ∧ ∃ field ∈ s.node.childrenOfKind .field,
    ∃ n ∈ field.firstChild? .fieldNumber, file.text n = text

instance (file : SchemaFile) (text : String) : Decidable (file.Numbers text) :=
  inferInstanceAs (Decidable (∃ s ∈ _, _ ∧ ∃ field ∈ _, ∃ n ∈ _, _))

section

attribute [local instance] Text.likeness

/-- The greatest number that counts. -/
theorem accounted_greatest :
    let file := read (.unsaved 0) "type T { int32 x = 18446744073709551615; }"
    ∃ s ∈ file.sites, s.kind = .type ∧ ∃ field ∈ s.node.childrenOfKind .field,
      ∃ n, field.firstChild? .fieldNumber = some n ∧
        file.writtenNumber n = 18446744073709551615 ∧ Accounted file .localOnly s.node field n := by
  intro file
  obtain ⟨s, hs, hkind, field, hfield, n, hn, htext⟩ :
      file.Numbers "18446744073709551615" := by decide +kernel
  have hwritten : file.writtenNumber n = 18446744073709551615 := by
    rw [writtenNumber, htext]
    decide +kernel
  refine ⟨s, hs, hkind, field, hfield, n, hn, hwritten, ?_⟩
  refine (accounted_iff file .localOnly hs (.inl hkind) hfield hn).mpr (.inl ?_)
  rw [hwritten]
  decide

/-- The number after it is left out of the order, and nothing is found in the file. -/
theorem greater_number_vanishes :
    let file := read (.unsaved 0) "type T { int32 x = 18446744073709551616; }"
    ¬∀ s ∈ file.sites, s.kind = .type ∨ s.kind = .component →
      ∀ field ∈ s.node.childrenOfKind .field, ∀ n, field.firstChild? .fieldNumber = some n →
        Accounted file .localOnly s.node field n := by
  intro file hall
  obtain ⟨s, hs, hkind, field, hfield, n, hn, htext⟩ :
      file.Numbers "18446744073709551616" := by decide +kernel
  have hwritten : file.writtenNumber n = 18446744073709551616 := by
    rw [writtenNumber, htext]
    decide +kernel
  have hclean : checkFile file .localOnly = [] := List.length_eq_zero_iff.mp (by decide +kernel)
  have haccounted := hall s hs (.inl hkind) field hfield n hn
  rw [Accounted, ← or_assoc, counts_iff hs (.inl hkind) hfield hn, hwritten] at haccounted
  rcases haccounted with hlt | ⟨f, hf, -⟩
  · exact absurd hlt (by decide)
  · rw [hclean] at hf
    cases hf

end

end SchemaFile

end SchemaLang
