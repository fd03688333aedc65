import Mathlib.Data.Prod.Lex
import SchemaLang.Proofs.ArenaChecking
import SchemaLang.Proofs.Positions
import SchemaLang.Text.Similarity

/-!
# Positions in order

The position of an offset tells how many line breaks there are among the characters that
start before the offset, and how many characters stand behind the last of them. Each
character moves the position on in the order of lines and columns, so an offset that comes
later has no earlier position, and the ranges of diagnostics begin no later than they end.
-/

set_option autoImplicit false

namespace SchemaLang

/-! ## The characters in front of an offset -/

namespace Text

structure PartedAt (offset : Nat) (front back : List Char) : Prop where
  starts : ∀ before c after, front = before ++ c :: after → String.utf8Len before < offset
  stops : ∀ before c after, back = before ++ c :: after → offset ≤ String.utf8Len (front ++ before)

theorem partedAt (offset : Nat) (cs : List Char) :
    PartedAt offset (charsBefore offset cs) (charsFrom offset cs) := by
  induction cs generalizing offset with
  | nil => constructor <;> simp [charsBefore, charsFrom]
  | cons x cs ih =>
    rw [charsBefore, charsFrom]
    split
    · rename_i hzero
      exact ⟨by simp, fun _ _ _ _ => hzero ▸ Nat.zero_le _⟩
    · rename_i hzero
      obtain ⟨hstarts, hstops⟩ := ih (offset - x.utf8Size)
      constructor
      · intro before c after hsplit
        cases before with
        | nil => exact Nat.pos_of_ne_zero hzero
        | cons y before =>
          obtain ⟨rfl, hrest⟩ := List.cons.inj hsplit
          have := hstarts before c after hrest
          rw [String.utf8Len_cons]
          omega
      · intro before c after hsplit
        have := hstops before c after hsplit
        rw [List.cons_append, String.utf8Len_cons]
        omega

theorem charsBefore_of_le {offset : Nat} {cs : List Char} (h : String.utf8Len cs ≤ offset) :
    charsBefore offset cs = cs := by
  have hsplit := charsBefore_append_charsFrom offset cs
  cases hback : charsFrom offset cs with
  | nil => rwa [hback, List.append_nil] at hsplit
  | cons c back =>
    -- a character that is left would start before the end
    have hstops := (partedAt offset cs).stops [] c back hback
    have hpos := c.utf8Size_pos
    rw [← hsplit, hback, String.utf8Len_append, String.utf8Len_cons] at h
    rw [List.append_nil] at hstops
    omega

theorem charsBefore_isPrefix {a b : Nat} (h : a ≤ b) (cs : List Char) :
    charsBefore a cs <+: charsBefore b cs := by
  induction cs generalizing a b with
  | nil => exact List.prefix_rfl
  | cons c cs ih =>
    rw [charsBefore, charsBefore]
    split
    · exact List.nil_prefix
    · rw [if_neg (by omega)]
      exact List.cons_prefix_cons.mpr ⟨rfl, ih (Nat.sub_le_sub_right h _)⟩

end Text

namespace Position

open Text

structure Counts (cs : List Char) (p : Position) : Prop where
  line : p.line = 1 + cs.count '\n'
  column : ∃ lines tail, cs = lines ++ tail ∧ (∀ c, lines.getLast? = some c → c = '\n') ∧
    '\n' ∉ tail ∧ p.column = 1 + tail.length

theorem counts_after (cs : List Char) : Counts cs (after cs) where
  line := rfl
  column := by
    obtain ⟨ended, tail, rfl, hended, htail⟩ := exists_ended cs
    refine ⟨ended.flatten, tail, rfl, fun c hc => eq_break_of_getLast? hended hc, htail, ?_⟩
    rw [after_flatten_append hended htail]
    exact Nat.add_comm _ _

def Tells (source : String) (offset : Nat) (p : Position) : Prop :=
  ∃ front back, source.toList = front ++ back ∧ PartedAt offset front back ∧ Counts front p

theorem tells_ofOffset (source : String) (offset : Nat) :
    Tells source offset (ofOffset source offset) :=
  ⟨_, _, (charsBefore_append_charsFrom offset source.toList).symm, partedAt offset source.toList,
    counts_after _⟩

end Position

/-! ## Lines and columns in order -/

namespace Position

open Text

variable {source : String} {p q : Position} {o : Nat}

def key (p : Position) : ℕ ×ₗ ℕ := toLex (p.line, p.column)

theorem key_injective : Function.Injective key := by
  intro p q h
  cases p
  cases q
  simpa [key] using h

instance : PartialOrder Position := PartialOrder.lift key key_injective

theorem lt_iff : p < q ↔ p.line < q.line ∨ p.line = q.line ∧ p.column < q.column :=
  Prod.Lex.toLex_lt_toLex

theorem after_lt_concat (cs : List Char) (c : Char) : after cs < after (cs ++ [c]) := by
  rw [lt_iff]
  by_cases hc : c = '\n'
  · rw [hc, after_append_newline]
    exact .inl (Nat.lt_succ_self _)
  · rw [after_append_of_ne _ _ hc]
    exact .inr ⟨rfl, Nat.lt_succ_self _⟩

theorem after_le_append (cs ds : List Char) : after cs ≤ after (cs ++ ds) := by
  induction ds using List.reverseRecOn with
  | nil => rw [List.append_nil]
  | append_singleton ds c ih =>
    rw [← List.append_assoc]
    exact ih.trans (after_lt_concat _ c).le

theorem after_lt_append (cs : List Char) {ds : List Char} (h : ds ≠ []) :
    after cs < after (cs ++ ds) := by
  obtain ⟨ds, c, rfl⟩ := (List.eq_nil_or_concat ds).resolve_left h
  rw [List.concat_eq_append, ← List.append_assoc]
  exact (after_le_append cs ds).trans_lt (after_lt_concat _ c)

theorem monotone_ofOffset (source : String) : Monotone (ofOffset source) := by
  intro a b h
  obtain ⟨more, hmore⟩ := charsBefore_isPrefix h source.toList
  rw [ofOffset, ofOffset, ← hmore]
  exact after_le_append _ more

/-- Between two boundaries stands a character, and it moves the position on. -/
theorem strictMonoOn_ofOffset (source : String) :
    StrictMonoOn (ofOffset source) {o | IsBoundary source o} := by
  intro a ha b hb h
  obtain ⟨front, part, back, hsource, rfl, rfl, -⟩ := exists_part ha hb h.le
  have hpart : part ≠ [] := by
    rintro rfl
    simp at h
  rw [← String.utf8Len_append, ofOffset_utf8Len hsource,
    ofOffset_utf8Len (hsource.trans (List.append_assoc _ _ _))]
  exact after_lt_append front hpart

theorem ofOffset_of_size_le (h : source.utf8ByteSize ≤ o) :
    ofOffset source o = after source.toList := by
  rw [ofOffset, charsBefore_of_le]
  rwa [String.utf8Len_toList]

end Position

/-! ## Ranges in reports -/

namespace SchemaFile

variable {file : SchemaFile} {n : Node}

theorem start_le_stop_of_node (hn : n ∈ file.nodes) :
    (LineSpan.ofSpan file.source n.span).start ≤ (LineSpan.ofSpan file.source n.span).stop :=
  Position.monotone_ofOffset file.source (file.bounds_of_mem_nodes n hn).1

/-- The two positions of a range count the characters that start before its ends. Counting in
machine words comes to the same for a text that is not too long for them. Positions of
boundaries are in the order of the boundaries, all offsets from the end on have one position,
and no range that is reported of a file ends before the position where it begins. -/
theorem positions_exact [Likeness] (file : SchemaFile) :
    (∀ span, Position.Tells file.source span.start (LineSpan.ofSpan file.source span).start ∧
      Position.Tells file.source span.stop (LineSpan.ofSpan file.source span).stop) ∧
    (file.source.length < 2 ^ 32 - 1 → ∀ offset,
      (Counters.upTo file.source offset).position = .ofOffset file.source offset) ∧
    StrictMonoOn (Position.ofOffset file.source) {o | Text.IsBoundary file.source o} ∧
    (∀ offset ≥ file.source.utf8ByteSize, Position.ofOffset file.source offset =
      .ofOffset file.source file.source.utf8ByteSize) ∧
    ∀ (r : Resolver), ∀ d ∈ (checkFile file r).map (·.diagnostic file),
      (∃ lines, d.lines? = some lines ∧ lines.start ≤ lines.stop) ∧
      ∀ note ∈ d.related, note.lines.start ≤ note.lines.stop := by
  refine ⟨fun span => ⟨Position.tells_ofOffset _ _, Position.tells_ofOffset _ _⟩,
    Counters.position_upTo, Position.strictMonoOn_ofOffset _, fun offset hoffset => ?_,
    fun r d hd => ?_⟩
  · rw [Position.ofOffset_of_size_le hoffset, Position.ofOffset_of_size_le le_rfl]
  · obtain ⟨f, hf, rfl⟩ := List.mem_map.mp hd
    obtain ⟨⟨n, hn, hrange⟩, hlines, hrelated, -⟩ :=
      anchoredIn_diagnostic (anchored_of_mem_checkFile hf)
    refine ⟨⟨_, hlines, hrange ▸ start_le_stop_of_node hn⟩, fun note hnote => ?_⟩
    obtain ⟨⟨m, hm, hspan⟩, heq⟩ := hrelated note hnote
    rw [heq, hspan]
    exact start_le_stop_of_node hm

section

attribute [local instance] Text.likeness

/-- Offsets around a wide character, around a line break and behind the end, and a number that
two fields have. -/
theorem positions_exact_in_two_lines :
    let file := read (.unsaved 0) "// ä\ntype A \x7b int32 x = 1; int32 y = 1; \x7d"
    file.source.length < 2 ^ 32 - 1 ∧
    [3, 4, 5, 6].map (fun o => (Counters.upTo file.source o).position) =
      [⟨1, 4⟩, ⟨1, 5⟩, ⟨1, 5⟩, ⟨2, 1⟩] ∧
    (Counters.upTo file.source 4).position = .ofOffset file.source 4 ∧
    (Text.IsBoundary file.source 5 ∧ Text.IsBoundary file.source 6 ∧ 5 < 6 ∧
      Position.ofOffset file.source 5 < .ofOffset file.source 6) ∧
    (file.source.utf8ByteSize ≤ 99 ∧
      Position.ofOffset file.source 99 = .ofOffset file.source file.source.utf8ByteSize) ∧
    ∃ d ∈ (checkFile file .localOnly).map (·.diagnostic file), ∃ note ∈ d.related,
      d.lines? = some ⟨⟨2, 33⟩, ⟨2, 34⟩⟩ ∧ note.lines.start ≤ note.lines.stop := by
  intro file
  have hroom : file.source.length < 2 ^ 32 - 1 := by decide +kernel
  have hfive : String.Pos.Raw.IsValid file.source ⟨5⟩ := by decide +kernel
  have hsix : String.Pos.Raw.IsValid file.source ⟨6⟩ := by decide +kernel
  have hsize : file.source.utf8ByteSize ≤ 99 := by decide +kernel
  obtain ⟨d, hd, note, hnote, hlines⟩ : ∃ d ∈ (checkFile file .localOnly).map (·.diagnostic file),
      ∃ note ∈ d.related, d.lines? = some ⟨⟨2, 33⟩, ⟨2, 34⟩⟩ := by decide +kernel
  obtain ⟨-, hwords, hmono, hend, hreports⟩ := positions_exact file
  have hlt := hmono hfive hsix (by decide)
  exact ⟨hroom, by decide +kernel, hwords hroom 4, ⟨hfive, hsix, by decide, hlt⟩,
    ⟨hsize, hend 99 hsize⟩, d, hd, note, hnote, hlines, (hreports .localOnly d hd).2 note hnote⟩

end

end SchemaFile

end SchemaLang
