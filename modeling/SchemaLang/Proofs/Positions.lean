import Mathlib.Data.List.Induction
import SchemaLang.Proofs.Counters
import SchemaLang.Proofs.TokenTiling

/-!
# Positions and offsets

The position of an offset is found by counting line breaks, the offset of a position
by cutting the text behind each line break. The two are inverse but for the ends of
lines. A text that is empty or ends with a line break has no piece behind its last
break, so the position at its end has no offset. And the pieces hold their breaks, so
each has one column more than its line: the column behind the break has the offset at
which the next line begins.
-/

set_option autoImplicit false

namespace SchemaLang

/-! ## The pieces of a text -/

namespace Text

variable {cs front back tail line : List Char} {ended : List (List Char)}

def Ended (line : List Char) : Prop := ∃ text, '\n' ∉ text ∧ line = text ++ ['\n']

theorem byteSize_eq (cs : List Char) : byteSize cs = String.utf8Len cs := by
  induction cs with
  | nil => rfl
  | cons c cs ih => rw [byteSize, ih, String.utf8Len_cons, Nat.add_comm]

theorem eq_break_of_getLast? (h : ∀ l ∈ ended, Ended l) {c : Char}
    (hc : ended.flatten.getLast? = some c) : c = '\n' := by
  rcases List.eq_nil_or_concat ended with rfl | ⟨rest, last, rfl⟩
  · cases hc
  · obtain ⟨text, -, rfl⟩ := h last (by simp)
    rw [List.concat_eq_append, List.flatten_append, List.flatten_singleton, ← List.append_assoc,
      List.getLast?_concat] at hc
    exact (Option.some.inj hc).symm

/-- Every text is a row of ended lines and a last one without a break, maybe empty. -/
theorem exists_ended (cs : List Char) :
    ∃ ended tail, cs = List.flatten ended ++ tail ∧ (∀ l ∈ ended, Ended l) ∧ '\n' ∉ tail := by
  induction cs using List.reverseRecOn with
  | nil => exact ⟨[], [], rfl, List.forall_mem_nil _, List.not_mem_nil⟩
  | append_singleton cs c ih =>
    obtain ⟨ended, tail, rfl, hended, htail⟩ := ih
    by_cases hc : c = '\n'
    · subst hc
      refine ⟨ended ++ [tail ++ ['\n']], [], by simp, ?_, List.not_mem_nil⟩
      rw [List.forall_mem_append, List.forall_mem_singleton]
      exact ⟨hended, tail, htail, rfl⟩
    · exact ⟨ended, tail ++ [c], by simp, hended, by simp [htail, Ne.symm hc]⟩

theorem linesWithBreaks_append_break (h : '\n' ∉ line) (cs : List Char) :
    linesWithBreaks (line ++ '\n' :: cs) = (line ++ ['\n']) :: linesWithBreaks cs := by
  induction line with
  | nil => rw [List.nil_append, linesWithBreaks, if_pos rfl, List.nil_append]
  | cons c line ih =>
    rw [List.mem_cons, not_or] at h
    rw [List.cons_append, linesWithBreaks, if_neg (Ne.symm h.1), ih h.2]
    rfl

theorem linesWithBreaks_of_not_mem (h : '\n' ∉ line) (hne : line ≠ []) :
    linesWithBreaks line = [line] := by
  induction line with
  | nil => exact absurd rfl hne
  | cons c line ih =>
    rw [List.mem_cons, not_or] at h
    rw [linesWithBreaks, if_neg (Ne.symm h.1)]
    cases line with
    | nil => rfl
    | cons d line => rw [ih h.2 (List.cons_ne_nil _ _)]

theorem linesWithBreaks_flatten (h : ∀ l ∈ ended, Ended l) (cs : List Char) :
    linesWithBreaks (ended.flatten ++ cs) = ended ++ linesWithBreaks cs := by
  induction ended with
  | nil => rfl
  | cons line rest ih =>
    obtain ⟨⟨text, htext, rfl⟩, hrest⟩ := List.forall_mem_cons.mp h
    rw [List.flatten_cons, List.append_assoc, List.append_assoc, List.singleton_append,
      linesWithBreaks_append_break htext, ih hrest, List.cons_append]

/-- Where the text goes on, the piece at hand begins with what has been read of it. -/
theorem exists_piece (htail : '\n' ∉ tail) (hne : tail ++ back ≠ []) :
    ∃ rest behind, linesWithBreaks (tail ++ back) = (tail ++ rest) :: behind := by
  by_cases hback : '\n' ∈ back
  · obtain ⟨text, behind, rfl, htext⟩ := List.eq_append_cons_of_mem hback
    refine ⟨text ++ ['\n'], linesWithBreaks behind, ?_⟩
    rw [← List.append_assoc, linesWithBreaks_append_break (by simp [htail, htext]),
      List.append_assoc]
  · exact ⟨back, [], linesWithBreaks_of_not_mem (by simp [htail, hback]) hne⟩

/-- A piece is an ended line behind others, or else the last one. -/
theorem pieces_cases {before behind : List (List Char)}
    (h : linesWithBreaks cs = before ++ line :: behind) : (∀ l ∈ before, Ended l) ∧
      (Ended line ∨ '\n' ∉ line ∧ line ≠ [] ∧ behind = []) := by
  obtain ⟨ended, tail, rfl, hended, htail⟩ := exists_ended cs
  rw [linesWithBreaks_flatten hended] at h
  by_cases hnil : tail = []
  · rw [hnil, linesWithBreaks, List.append_nil] at h
    rw [h, List.forall_mem_append, List.forall_mem_cons] at hended
    exact ⟨hended.1, .inl hended.2.1⟩
  · rw [linesWithBreaks_of_not_mem htail hnil] at h
    rcases List.eq_nil_or_concat behind with rfl | ⟨rest, last, rfl⟩
    · obtain ⟨rfl, hlast⟩ := List.append_inj' h rfl
      obtain rfl := List.singleton_inj.mp hlast
      exact ⟨hended, .inr ⟨htail, hnil, rfl⟩⟩
    · rw [List.concat_eq_append, ← List.cons_append, ← List.append_assoc] at h
      rw [(List.append_inj' h rfl).1, List.forall_mem_append, List.forall_mem_cons] at hended
      exact ⟨hended.1, .inl hended.2.1⟩

end Text

namespace Position

open Text

variable {source : String} {p : Position} {o : Nat} {cs front back line tail : List Char}
  {ended : List (List Char)}

/-! ## The position behind characters -/

theorem after_append_of_not_mem (cs : List Char) (h : '\n' ∉ tail) :
    after (cs ++ tail) = ⟨(after cs).line, (after cs).column + tail.length⟩ := by
  induction tail using List.reverseRecOn with
  | nil => rw [List.append_nil]; rfl
  | append_singleton tail c ih =>
    rw [List.mem_append, List.mem_singleton, not_or] at h
    rw [← List.append_assoc, after_append_of_ne _ _ (Ne.symm h.2), ih h.1, List.length_append]
    rfl

theorem after_flatten (h : ∀ l ∈ ended, Ended l) : after ended.flatten = ⟨ended.length + 1, 1⟩ := by
  induction ended using List.reverseRecOn with
  | nil => rfl
  | append_singleton ended line ih =>
    rw [List.forall_mem_append, List.forall_mem_singleton] at h
    obtain ⟨hended, text, htext, rfl⟩ := h
    rw [List.flatten_append, List.flatten_singleton, ← List.append_assoc, after_append_newline,
      after_append_of_not_mem _ htext, ih hended, List.length_append, List.length_singleton]

/-- Ended lines in front of a text put it as many lines further down. -/
theorem after_flatten_append (h : ∀ l ∈ ended, Ended l) (htail : '\n' ∉ tail) :
    after (ended.flatten ++ tail) = ⟨ended.length + 1, tail.length + 1⟩ := by
  rw [after_append_of_not_mem _ htail, after_flatten h, Nat.add_comm 1]

/-! ## The offset of a position -/

/-- A position has an offset where a piece has its column or ends one before it. -/
theorem offset?_eq_some_iff : p.offset? source = some o ↔
    ∃ before line behind k, linesWithBreaks source.toList = before ++ line :: behind ∧
      k ≤ line.length ∧ p = ⟨before.length + 1, k + 1⟩ ∧
      o = String.utf8Len (before.flatten ++ line.take k) := by
  obtain ⟨row, column⟩ := p
  rw [offset?]
  dsimp only
  constructor
  · intro h
    split at h
    · cases h
    rename_i hpositive
    split at h
    · cases h
    rename_i line hline
    split at h
    · rename_i hcolumn
      obtain ⟨hlt, hline⟩ := List.getElem?_eq_some_iff.mp hline
      have hlength : ((linesWithBreaks source.toList).take (row - 1)).length = row - 1 := by
        rw [List.length_take]
        omega
      refine ⟨(linesWithBreaks source.toList).take (row - 1), line,
        (linesWithBreaks source.toList).drop (row - 1 + 1), column - 1, ?_, by omega, ?_, ?_⟩
      · rw [← hline, List.getElem_cons_drop, List.take_append_drop]
      · rw [hlength, Position.mk.injEq]
        omega
      · rw [← byteSize_eq, byteSize_append]
        exact (Option.some.inj h).symm
    · cases h
  · rintro ⟨before, line, behind, k, hpieces, hk, hp, rfl⟩
    obtain ⟨rfl, rfl⟩ := Position.mk.inj hp
    rw [if_neg (by omega), Nat.add_sub_cancel, Nat.add_sub_cancel, hpieces,
      List.getElem?_append_right (Nat.le_refl _), Nat.sub_self, List.getElem?_cons_zero]
    dsimp only
    rw [if_pos (by omega), List.take_left' rfl, ← byteSize_append, byteSize_eq]

/-- The text goes on behind the offset, or it ends in a line without a break. -/
def HasLine (source : String) (o : Nat) : Prop :=
  o < source.utf8ByteSize ∨ ∃ c, source.toList.getLast? = some c ∧ c ≠ '\n'

/-- The position is one column behind a line break, and the offset that of the next line. -/
def BehindBreak (source : String) (p : Position) (o : Nat) : Prop :=
  ∃ front back, source.toList = front ++ '\n' :: back ∧ o = String.utf8Len (front ++ ['\n']) ∧
    p = ⟨(after front).line, (after front).column + 1⟩

theorem hasLine_iff (h : source.toList = front ++ back) : HasLine source (String.utf8Len front) ↔
    back ≠ [] ∨ ∃ c, source.toList.getLast? = some c ∧ c ≠ '\n' := by
  refine or_congr_left ?_
  rw [← String.utf8Len_toList, h, String.utf8Len_append]
  cases back with
  | nil => simp
  | cons c back =>
    have := c.utf8Size_pos
    rw [String.utf8Len_cons]
    exact iff_of_true (by omega) (List.cons_ne_nil _ _)

theorem ofOffset_utf8Len (h : source.toList = front ++ back) :
    ofOffset source (String.utf8Len front) = after front := by
  rw [ofOffset, h, (split_utf8Len front back).1]

/-- Every offset but the end of a text without a last line is that of its position. -/
theorem offset?_ofOffset (hboundary : IsBoundary source o) (hline : HasLine source o) :
    (ofOffset source o).offset? source = some o := by
  obtain ⟨front, back, hsource, rfl⟩ := isBoundary_iff.mp hboundary
  obtain ⟨ended, tail, rfl, hended, htail⟩ := exists_ended front
  rw [hasLine_iff hsource] at hline
  have hne : tail ++ back ≠ [] := by
    intro hnil
    obtain ⟨rfl, rfl⟩ := List.append_eq_nil_iff.mp hnil
    obtain ⟨c, hlast, hc⟩ := hline.resolve_left (not_not_intro rfl)
    rw [hsource, List.append_nil, List.append_nil] at hlast
    exact hc (eq_break_of_getLast? hended hlast)
  obtain ⟨rest, behind, hpiece⟩ := exists_piece htail hne
  refine offset?_eq_some_iff.mpr ⟨ended, tail ++ rest, behind, tail.length, ?_, by simp, ?_, ?_⟩
  · rw [hsource, List.append_assoc, linesWithBreaks_flatten hended, hpiece]
  · rw [ofOffset_utf8Len hsource, after_flatten_append hended htail]
  · rw [List.take_left' rfl]

/-- The column behind a break has the offset of the next line. -/
theorem offset?_of_behindBreak (h : BehindBreak source p o) : p.offset? source = some o := by
  obtain ⟨front, back, hsource, rfl, rfl⟩ := h
  obtain ⟨ended, tail, rfl, hended, htail⟩ := exists_ended front
  refine offset?_eq_some_iff.mpr
    ⟨ended, tail ++ ['\n'], linesWithBreaks back, tail.length + 1, ?_, by simp, ?_, ?_⟩
  · rw [hsource, List.append_assoc, linesWithBreaks_flatten hended,
      linesWithBreaks_append_break htail]
  · rw [after_flatten_append hended htail]
  · rw [List.take_of_length_le (by simp), List.append_assoc]

theorem ofOffset_of_behindBreak (h : BehindBreak source p o) :
    IsBoundary source o ∧ ofOffset source o = ⟨p.line + 1, 1⟩ := by
  obtain ⟨front, back, hsource, rfl, rfl⟩ := h
  have hsplit : source.toList = (front ++ ['\n']) ++ back := by
    rw [hsource, List.append_assoc, List.singleton_append]
  refine ⟨isBoundary_iff.mpr ⟨_, _, hsplit, rfl⟩, ?_⟩
  rw [ofOffset_utf8Len hsplit, after_append_newline]

/-- A column of a piece that is not behind its break is that of its offset. -/
theorem ofOffset_of_piece {before behind : List (List Char)} {k : Nat}
    (hpieces : linesWithBreaks source.toList = before ++ line :: behind) (hk : k ≤ line.length)
    (hbreak : '\n' ∉ line.take k) (hlast : line.drop k ++ behind.flatten ≠ [] ∨
      ∃ c, source.toList.getLast? = some c ∧ c ≠ '\n') :
    IsBoundary source (String.utf8Len (before.flatten ++ line.take k)) ∧
      ofOffset source (String.utf8Len (before.flatten ++ line.take k)) =
        ⟨before.length + 1, k + 1⟩ ∧
      HasLine source (String.utf8Len (before.flatten ++ line.take k)) := by
  have hsplit : source.toList =
      (before.flatten ++ line.take k) ++ (line.drop k ++ behind.flatten) := by
    rw [← flatten_linesWithBreaks source.toList, hpieces, List.flatten_append, List.flatten_cons,
      List.append_assoc, ← List.append_assoc (line.take k), List.take_append_drop]
  refine ⟨isBoundary_iff.mpr ⟨_, _, hsplit, rfl⟩, ?_, (hasLine_iff hsplit).mpr hlast⟩
  rw [ofOffset_utf8Len hsplit, after_flatten_append (pieces_cases hpieces).1 hbreak,
    List.length_take, Nat.min_eq_left hk]

/-- What has an offset is the position of it, or the column behind a break. -/
theorem offset?_cases (h : p.offset? source = some o) :
    (IsBoundary source o ∧ ofOffset source o = p ∧ HasLine source o) ∨ BehindBreak source p o := by
  obtain ⟨before, line, behind, k, hpieces, hk, rfl, rfl⟩ := offset?_eq_some_iff.mp h
  obtain ⟨hbefore, ⟨text, htext, rfl⟩ | ⟨hbreak, hne, rfl⟩⟩ := pieces_cases hpieces
  · by_cases hcolumn : k ≤ text.length
    · refine .inl (ofOffset_of_piece hpieces hk ?_ (.inl ?_))
      · rw [List.take_append_of_le_length hcolumn]
        exact fun hmem => htext (List.mem_of_mem_take hmem)
      · simp [List.drop_append_of_le_length hcolumn]
    · -- the piece is taken with its break
      rw [List.length_append, List.length_singleton] at hk
      obtain rfl : k = text.length + 1 := by omega
      refine .inr ⟨before.flatten ++ text, behind.flatten, ?_, ?_, ?_⟩
      · rw [← flatten_linesWithBreaks source.toList, hpieces]
        simp
      · rw [List.take_of_length_le (by simp), List.append_assoc]
      · rw [after_flatten_append hbefore htext]
  · refine .inl (ofOffset_of_piece hpieces hk (fun hmem => hbreak (List.mem_of_mem_take hmem))
      (.inr ?_))
    obtain ⟨text, c, rfl⟩ := (List.eq_nil_or_concat line).resolve_left hne
    refine ⟨c, ?_, ?_⟩
    · rw [← flatten_linesWithBreaks source.toList, hpieces]
      simp
    · rintro rfl
      exact hbreak (by simp)

/-- Positions and offsets are inverse, save that the end of a text without a last line has
a position with no offset, and that the column behind each line break has the offset of
the next line. Counting in machine words gives the same positions for a text that is not
too long for them. -/
theorem offset_inverse (source : String) :
    (∀ o, IsBoundary source o →
      ((ofOffset source o).offset? source = some o ↔ HasLine source o)) ∧
    (∀ p o, p.offset? source = some o →
      IsBoundary source o ∧ (ofOffset source o = p ↔ ¬BehindBreak source p o)) ∧
    (∀ p o, BehindBreak source p o →
      p.offset? source = some o ∧ ofOffset source o = ⟨p.line + 1, 1⟩) ∧
    (source.length < 2 ^ 32 - 1 → ∀ o,
      (Counters.upTo source o).position = ofOffset source o) := by
  have hdiffers {p : Position} {o : Nat} (h : BehindBreak source p o) : ofOffset source o ≠ p := by
    intro heq
    have hline := congrArg Position.line ((ofOffset_of_behindBreak h).2.symm.trans heq)
    exact Nat.succ_ne_self _ hline
  refine ⟨fun o ho => ⟨fun h => ?_, offset?_ofOffset ho⟩, fun p o h => ?_,
    fun p o h => ⟨offset?_of_behindBreak h, (ofOffset_of_behindBreak h).2⟩, Counters.position_upTo⟩
  · rcases offset?_cases h with ⟨-, -, hline⟩ | hbehind
    · exact hline
    · exact absurd rfl (hdiffers hbehind)
  · rcases offset?_cases h with ⟨hboundary, heq, -⟩ | hbehind
    · exact ⟨hboundary, iff_of_true heq fun hbehind => hdiffers hbehind heq⟩
    · exact ⟨(ofOffset_of_behindBreak hbehind).1,
        iff_of_false (hdiffers hbehind) (not_not_intro hbehind)⟩

/-- The beginning of a second line, and the column behind the break of the first. -/
theorem offset_inverse_at_second_line :
    let source := "type A \x7b\nA x = 1; \x7d"
    (IsBoundary source 9 ∧ HasLine source 9 ∧ (ofOffset source 9).offset? source = some 9) ∧
    (offset? source ⟨2, 1⟩ = some 9 ∧ ¬BehindBreak source ⟨2, 1⟩ 9 ∧ ofOffset source 9 = ⟨2, 1⟩) ∧
    (BehindBreak source ⟨1, 10⟩ 9 ∧ offset? source ⟨1, 10⟩ = some 9) ∧
    source.length < 2 ^ 32 - 1 ∧ (Counters.upTo source 9).position = ofOffset source 9 := by
  intro source
  obtain ⟨hoffset, hposition, hbehind, hwords⟩ := offset_inverse source
  have hsplit : source.toList = "type A \x7b\n".toList ++ "A x = 1; \x7d".toList := by
    decide +kernel
  have hboundary : IsBoundary source 9 :=
    isBoundary_iff.mpr ⟨_, _, hsplit, by decide +kernel⟩
  have hline : HasLine source 9 := .inl (by decide +kernel)
  have hsecond : offset? source ⟨2, 1⟩ = some 9 := by decide +kernel
  have heq : ofOffset source 9 = ⟨2, 1⟩ := by decide +kernel
  have hbreak : BehindBreak source ⟨1, 10⟩ 9 :=
    ⟨"type A \x7b".toList, "A x = 1; \x7d".toList, by decide +kernel, by decide +kernel,
      by decide +kernel⟩
  have hroom : source.length < 2 ^ 32 - 1 := by decide +kernel
  exact ⟨⟨hboundary, hline, (hoffset 9 hboundary).mpr hline⟩,
    ⟨hsecond, (hposition _ _ hsecond).2.mp heq, heq⟩, ⟨hbreak, (hbehind _ _ hbreak).1⟩,
    hroom, hwords hroom 9⟩

/-- An empty text and one with a break at its end have no offset for their ends, and a line
has a column too many. -/
theorem ends_of_lines_differ :
    (IsBoundary "" 0 ∧ (ofOffset "" 0).offset? "" = none) ∧
    (IsBoundary "type A \x7b \x7d\n" 11 ∧
      (ofOffset "type A \x7b \x7d\n" 11).offset? "type A \x7b \x7d\n" = none) ∧
    (offset? "type A \x7b\nA x = 1; \x7d" ⟨1, 10⟩ = some 9 ∧
      ofOffset "type A \x7b\nA x = 1; \x7d" 9 = ⟨2, 1⟩) := by
  refine ⟨⟨isBoundary_iff.mpr ⟨[], [], rfl, rfl⟩, rfl⟩,
    ⟨isBoundary_iff.mpr ⟨_, [], (List.append_nil _).symm, ?_⟩, ?_⟩, ?_, ?_⟩ <;> decide +kernel

end Position

end SchemaLang
