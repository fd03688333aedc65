import Mathlib.Data.List.Basic
import SchemaLang.Text.Split

/-!
# Dotted names

A text is its pieces with dots between them, and no piece has a dot of its own.
So a text with a dot in it has the pieces of what stands before that dot and
then those of what stands behind it.
-/

set_option autoImplicit false

namespace SchemaLang

theorem mem_of_mem_intercalate {α : Type} {separator x : α} {pieces : List (List α)}
    (h : x ∈ [separator].intercalate pieces) : x = separator ∨ ∃ piece ∈ pieces, x ∈ piece := by
  induction pieces with
  | nil => simp [List.intercalate] at h
  | cons first others ih =>
    cases others with
    | nil =>
      refine .inr ⟨first, List.mem_cons_self, ?_⟩
      simpa [List.intercalate] using h
    | cons second others =>
      rw [List.intercalate_cons_cons, List.mem_append, List.mem_append, List.mem_singleton] at h
      rcases h with (h | h) | h
      · exact .inr ⟨first, List.mem_cons_self, h⟩
      · exact .inl h
      · exact (ih h).imp_right fun ⟨piece, hpiece, hx⟩ => ⟨piece, List.mem_cons_of_mem _ hpiece, hx⟩

section Lists

variable {α : Type} [BEq α] [LawfulBEq α] {separator : α}

theorem not_mem_of_mem_splitOn {all piece : List α} (h : piece ∈ all.splitOn separator) :
    separator ∉ piece := by
  induction all generalizing piece with
  | nil =>
    rw [List.splitOn_nil, List.mem_singleton] at h
    simp [h]
  | cons x xs ih =>
    rw [List.splitOn_cons_eq_if_modifyHead] at h
    split at h
    · rcases List.mem_cons.mp h with rfl | h
      · simp
      · exact ih h
    · rename_i hne
      cases hpieces : xs.splitOn separator with
      | nil => simp [hpieces] at h
      | cons first others =>
        rw [hpieces, List.modifyHead_cons] at h
        rw [hpieces] at ih
        rcases List.mem_cons.mp h with rfl | h
        · rw [List.mem_cons, not_or]
          exact ⟨fun heq => hne (beq_iff_eq.mpr heq.symm), ih List.mem_cons_self⟩
        · exact ih (List.mem_cons_of_mem _ h)

theorem splitOn_append_cons (front back : List α) :
    (front ++ separator :: back).splitOn separator =
      front.splitOn separator ++ back.splitOn separator := by
  induction front with
  | nil => simp [List.splitOn_cons_eq_if_modifyHead]
  | cons x xs ih =>
    rw [List.cons_append, List.splitOn_cons_eq_if_modifyHead, List.splitOn_cons_eq_if_modifyHead,
      ih]
    split
    · rfl
    · cases hpieces : xs.splitOn separator with
      | nil => exact absurd hpieces (List.splitOn_ne_nil separator xs)
      | cons first others => rfl

end Lists

namespace Text

variable {text piece : String}

theorem not_mem_of_mem_split {separator : Char} (h : piece ∈ split separator text) :
    separator ∉ piece.toList := by
  obtain ⟨cs, hcs, rfl⟩ := List.mem_map.mp h
  rw [String.toList_ofList]
  exact not_mem_of_mem_splitOn hcs

theorem intercalate_split (text : String) : ".".intercalate (split '.' text) = text := by
  rw [← String.toList_inj, String.toList_intercalate, split, List.map_map,
    show String.toList ∘ String.ofList = id from funext fun _ => String.toList_ofList, List.map_id]
  exact List.intercalate_splitOn '.'

theorem split_intercalate {separator : Char} {between : String}
    (hbetween : between.toList = [separator]) {pieces : List String}
    (hplain : ∀ piece ∈ pieces, separator ∉ piece.toList) (hne : pieces ≠ []) :
    split separator (between.intercalate pieces) = pieces := by
  rw [split, String.toList_intercalate, hbetween,
    List.splitOn_intercalate separator (by simpa using hplain) (by simpa using hne), List.map_map,
    show String.ofList ∘ String.toList = id from funext fun _ => String.ofList_toList, List.map_id]

theorem split_of_not_mem (h : '.' ∉ text.toList) : split '.' text = [text] := by
  have hplain : ∀ piece ∈ [text], '.' ∉ piece.toList := by simpa using h
  simpa using split_intercalate (show ".".toList = ['.'] from rfl) hplain (by simp)

/-- The pieces of what stands before a dot, and those of what stands behind it. -/
theorem split_append (front back : String) :
    split '.' (front ++ "." ++ back) = split '.' front ++ split '.' back := by
  rw [split, split, split, ← List.map_append, ← splitOn_append_cons]
  simp

theorem length_split_lt (front back : String) :
    (split '.' back).length < (split '.' (front ++ "." ++ back)).length := by
  have hne : split '.' front ≠ [] := by simp [split, List.splitOn_ne_nil]
  have hpos := List.length_pos_iff.mpr hne
  rw [split_append, List.length_append]
  omega

theorem mem_of_mem_toList {c : Char} (h : c ∈ text.toList) :
    c = '.' ∨ ∃ piece ∈ split '.' text, c ∈ piece.toList := by
  have hwhole : ['.'].intercalate (text.toList.splitOn '.') = text.toList :=
    List.intercalate_splitOn '.'
  rw [← hwhole] at h
  refine (mem_of_mem_intercalate h).imp_right fun ⟨cs, hcs, hc⟩ => ?_
  exact ⟨.ofList cs, List.mem_map_of_mem hcs, by rwa [String.toList_ofList]⟩

theorem head?_of_split {others : List String} {c : Char} (h : split '.' text = piece :: others)
    (hc : piece.toList.head? = some c) : text.toList.head? = some c := by
  have hall := congrArg String.toList (intercalate_split text)
  rw [h, String.toList_intercalate] at hall
  obtain ⟨rest, hrest⟩ := List.head?_eq_some_iff.mp hc
  rw [← hall, List.map_cons, hrest]
  cases others <;> simp [List.intercalate]

end Text

end SchemaLang
