import SchemaLang.Proofs.Ancestry
import SchemaLang.Proofs.Blanking
import SchemaLang.Proofs.Spelling

/-!
# Written numbers

The lexeme that stands for the number of a field is a row of digits of any length. The
field has the number that they stand for, if that is not too great.
-/

set_option autoImplicit false

namespace SchemaLang

namespace Scan

theorem isDigit_of_lead (c : Char) (cs : List Char) (h : (lead c cs).1 = .integer) :
    ∀ x ∈ c :: cs.take (lead c cs).2, x.isDigit = true := by
  obtain ⟨hdigit, hrun⟩ := lead_integer h
  rw [hrun, List.forall_mem_cons]
  exact ⟨hdigit, fun x hx => of_mem_take_runLength hx⟩

end Scan

theorem isDigits_of_mem_lexemes {source : String} {l : Lexeme} (hl : l ∈ lexemes source)
    (h : l.kind = .integer) : Text.isDigits l.text.toList = true := by
  obtain ⟨c, rest, rfl⟩ := Scan.exists_lead_of_mem_scan hl
  rw [String.toList_ofList, Text.isDigits, List.isEmpty_cons, Bool.not_false, Bool.true_and]
  exact List.all_eq_true.mpr (Scan.isDigit_of_lead c rest h)

namespace SchemaFile

variable {file : SchemaFile} {field n : Node} {number : Nat}

def writtenNumber (file : SchemaFile) (n : Node) : Nat := Text.digitsValue (file.text n).toList

theorem isDigits_of_fieldNumber (hn : n ∈ file.nodes) (hkind : n.kind = .fieldNumber) :
    Text.isDigits (file.text n).toList = true := by
  have hmem := file.mem_of_kind_ne hn (by simp [hkind])
  obtain ⟨l, hleaves, hadmits⟩ := file.leaves_of_isLexeme hmem (by rw [hkind]; rfl)
  obtain ⟨hl, htext⟩ := file.text_of_leaves_eq_singleton hmem (by simp [hkind]) hleaves
  rw [hkind] at hadmits
  rw [htext]
  exact isDigits_of_mem_lexemes hl (eq_of_beq hadmits)

/-- A field has the number written in it if that is below 2^64, and else none. -/
theorem fieldNumber?_eq (hfield : field ∈ file.nodes)
    (hn : field.firstChild? .fieldNumber = some n) : file.fieldNumber? field =
      if file.writtenNumber n < UInt64.size then some (file.writtenNumber n) else none := by
  have hfound := List.find?_some hn
  have hkind : n.kind = .fieldNumber := eq_of_beq hfound
  have hmem : n ∈ file.nodes := by
    obtain ⟨t, ht, rfl⟩ := file.exists_site hfield
    exact file.node_mem_nodes (file.child_mem_sites ht (List.mem_of_find?_eq_some hn))
  rw [fieldNumber?, hn, Option.bind_some, Text.number?, isDigits_of_fieldNumber hmem hkind,
    Bool.true_and]
  simp only [decide_eq_true_eq]
  rfl

theorem lt_of_fieldNumber? (h : file.fieldNumber? field = some number) : number < UInt64.size := by
  obtain ⟨n, -, hn⟩ := Option.bind_eq_some_iff.mp h
  exact Text.lt_of_number?_eq_some _ _ _ hn

/-- The number of any node is that of the digits in its first number, if it has one. -/
theorem fieldNumber?_eq_bind (hfield : field ∈ file.nodes) :
    file.fieldNumber? field = (field.firstChild? .fieldNumber).bind fun n =>
      if file.writtenNumber n < UInt64.size then some (file.writtenNumber n) else none := by
  cases hn : field.firstChild? .fieldNumber with
  | none => rw [fieldNumber?, hn]; rfl
  | some n => exact fieldNumber?_eq hfield hn

end SchemaFile

end SchemaLang
