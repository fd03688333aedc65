import SchemaLang.Proofs.DottedNames
import SchemaLang.Proofs.Positions
import SchemaLang.Report.Excerpt

/-!
# What an excerpt shows

An excerpt is the line on which a range begins, and carets below the characters of that
line which the range covers. Range, position and line are counted apart from each other,
in bytes, in characters and in pieces between line breaks, and meet as long as the range
begins on a line: at its end at the latest, and not at the end of a text behind its last
break.
-/

set_option autoImplicit false

namespace SchemaLang

/-! ## Bytes and characters -/

/-- Of two beginnings of a text the shorter one has fewer bytes. -/
theorem utf8Len_lt_iff {front rest front' rest' : List Char}
    (h : front ++ rest = front' ++ rest') :
    String.utf8Len front < String.utf8Len front' ↔ front.length < front'.length := by
  rcases List.append_eq_append_iff.mp h with ⟨more, rfl, -⟩ | ⟨more, rfl, -⟩
  · cases more with
    | nil => simp
    | cons c more =>
      have := c.utf8Size_pos
      rw [String.utf8Len_append, String.utf8Len_cons, List.length_append, List.length_cons]
      omega
  · rw [String.utf8Len_append, List.length_append]
    omega

namespace Text

variable {front line back : List Char}

theorem length_splitOn_break (cs : List Char) : (cs.splitOn '\n').length = cs.count '\n' + 1 := by
  induction cs with
  | nil => rfl
  | cons c cs ih =>
    rw [List.splitOn_cons_eq_if_modifyHead]
    split
    · rename_i hc
      rw [List.length_cons, ih, eq_of_beq hc, List.count_cons_self]
    · rename_i hc
      rw [List.length_modifyHead, ih, List.count_cons_of_ne (by simpa using hc)]

def EndsLine (cs : List Char) : Prop := cs = [] ∨ cs.getLast? = some '\n'

def BeginsBreak (cs : List Char) : Prop := cs = [] ∨ cs.head? = some '\n'

theorem exists_line (cs : List Char) :
    ∃ line back, cs = line ++ back ∧ '\n' ∉ line ∧ BeginsBreak back := by
  by_cases h : '\n' ∈ cs
  · obtain ⟨line, behind, rfl, hline⟩ := List.eq_append_cons_of_mem h
    exact ⟨line, _, rfl, hline, .inr rfl⟩
  · exact ⟨cs, [], (List.append_nil cs).symm, h, .inl rfl⟩

theorem exists_splitOn_line (hfront : EndsLine front) (hline : '\n' ∉ line)
    (hback : BeginsBreak back) :
    ∃ before behind, (front ++ line ++ back).splitOn '\n' = before ++ line :: behind ∧
      before.length = front.count '\n' ∧ (behind = [] → back = []) := by
  have hrest : ∃ behind, (line ++ back).splitOn '\n' = line :: behind ∧
      (behind = [] → back = []) := by
    rcases hback with rfl | hback
    · exact ⟨[], by rw [List.append_nil, List.splitOn_eq_singleton hline], fun _ => rfl⟩
    · obtain ⟨behind, rfl⟩ := List.head?_eq_some_iff.mp hback
      refine ⟨behind.splitOn '\n', ?_, fun hnil => absurd hnil (List.splitOn_ne_nil _ _)⟩
      rw [splitOn_append_cons, List.splitOn_eq_singleton hline]
      rfl
  obtain ⟨behind, hrest, hbehind⟩ := hrest
  rw [List.append_assoc]
  rcases hfront with rfl | hfront
  · exact ⟨[], behind, hrest, rfl, hbehind⟩
  · obtain ⟨ended, rfl⟩ := List.getLast?_eq_some_iff.mp hfront
    refine ⟨ended.splitOn '\n', behind, ?_, ?_, hbehind⟩
    · rw [List.append_assoc, List.singleton_append, splitOn_append_cons, hrest]
    · rw [length_splitOn_break, List.count_append, List.count_singleton_self]

theorem mem_of_mem_splitOn {cs piece : List Char} (h : piece ∈ cs.splitOn '\n') {c : Char}
    (hc : c ∈ piece) : c ∈ cs := by
  obtain ⟨before, behind, hpieces⟩ := List.append_of_mem h
  have hwhole : ['\n'].intercalate (cs.splitOn '\n') = cs := List.intercalate_splitOn '\n'
  rw [← hwhole, hpieces]
  clear hwhole hpieces h
  induction before with
  | nil => cases behind <;> simp [List.intercalate, hc]
  | cons first before ih =>
    rw [List.cons_append, List.intercalate_cons_of_ne_nil (by simp)]
    exact List.mem_append_right _ ih

/-- The pieces of a text without carriage returns are its lines, but for an empty last one. -/
theorem lines_of_splitOn {source : String} (hreturn : '\r' ∉ source.toList)
    {pieces : List (List Char)} {last : List Char}
    (hpieces : source.toList.splitOn '\n' = pieces ++ [last]) :
    lines source = (pieces ++ [last].filter (· ≠ [])).map String.ofList := by
  have hbare (line : List Char) (hline : line ∈ pieces) :
      (if line.getLast? = some '\r' then line.dropLast else line) = line := by
    have hpiece : line ∈ source.toList.splitOn '\n' := by
      rw [hpieces]
      exact List.mem_append_left _ hline
    exact if_neg fun hend => hreturn (mem_of_mem_splitOn hpiece (List.mem_of_getLast? hend))
  rw [lines, hpieces, List.dropLast_concat, List.map_congr_left hbare, List.map_id',
    List.getLast?_concat, Option.toList_some]

/-- Without carriage returns, a line of a text is found by counting breaks in front of
it, unless it is empty and the text ends with it. -/
theorem getElem?_lines {source : String} (hreturn : '\r' ∉ source.toList)
    (hsource : source.toList = front ++ line ++ back) (hfront : EndsLine front)
    (hline : '\n' ∉ line) (hback : BeginsBreak back) (hne : line ++ back ≠ []) :
    (lines source)[front.count '\n']? = some (String.ofList line) := by
  obtain ⟨before, behind, hpieces, hlength, hlast⟩ := exists_splitOn_line hfront hline hback
  rw [← hsource] at hpieces
  rcases List.eq_nil_or_concat behind with rfl | ⟨behind, last, rfl⟩
  · -- the last piece is a line only if it is not empty
    obtain rfl := hlast rfl
    rw [List.append_nil] at hne
    rw [lines_of_splitOn hreturn hpieces, ← hlength]
    simp [hne]
  · rw [List.concat_eq_append, ← List.cons_append, ← List.append_assoc] at hpieces
    rw [lines_of_splitOn hreturn hpieces, ← hlength]
    simp

end Text

/-! ## Ranges -/

/-- A line of a source and a range that begins in it: above and below the line others
stand, and of its characters the range covers those `under`, in front of which it begins,
and neither those before nor those after. -/
structure Shows (source : String) (range : Span) (front before under after back : List Char) :
    Prop where
  source_eq : source.toList = front ++ (before ++ under ++ after) ++ back
  above : Text.EndsLine front
  line : '\n' ∉ before ++ under ++ after
  below : Text.BeginsBreak back
  start_eq : range.start = String.utf8Len (front ++ before)
  covers : ∀ xs c ys, before ++ under ++ after = xs ++ c :: ys →
    (range.contains (String.utf8Len (front ++ xs)) = true ↔
      before.length ≤ xs.length ∧ xs.length < before.length + under.length)
  empty : under = [] ↔ range.isEmpty = true

namespace Text

/-- What is read of a text ends with the beginning of a line. -/
theorem exists_endsLine (cs : List Char) :
    ∃ front before, cs = front ++ before ∧ EndsLine front ∧ '\n' ∉ before := by
  obtain ⟨ended, before, rfl, hended, hbefore⟩ := exists_ended cs
  refine ⟨ended.flatten, before, rfl, ?_, hbefore⟩
  rcases List.eq_nil_or_concat ended.flatten with hnil | ⟨rest, c, hconcat⟩
  · exact .inl hnil
  · refine .inr ?_
    rw [hconcat, List.concat_eq_append, List.getLast?_concat, Option.some.injEq]
    exact eq_break_of_getLast? hended (by rw [hconcat, List.concat_eq_append, List.getLast?_concat])

end Text

section

variable {source : String} {front before text under after back : List Char}

/-- A range is shown by a line if it ends there, or covers all of the line's rest. -/
theorem shows_of_text {tail : List Char} (hsource : source.toList = front ++ before ++ text ++ tail)
    (hline : text ++ tail = under ++ after ++ back) (habove : Text.EndsLine front)
    (hbreak : '\n' ∉ before ++ under ++ after) (hbelow : Text.BeginsBreak back)
    (hfirst : text.head? ≠ some '\n')
    (htext : text = under ∨ ∃ more, after = [] ∧ text = under ++ '\n' :: more) :
    Shows source ⟨String.utf8Len (front ++ before), String.utf8Len (front ++ before ++ text)⟩
      front before under after back where
  source_eq := by
    rw [hsource, List.append_assoc (front ++ before), hline]
    simp only [List.append_assoc]
  above := habove
  line := hbreak
  below := hbelow
  start_eq := rfl
  covers := by
    intro xs c ys hxs
    have hwhole : (front ++ xs) ++ (c :: ys ++ back) = front ++ before ++ text ++ tail := by
      rw [List.append_assoc (front ++ before), hline, List.append_assoc front xs,
        ← List.append_assoc xs, ← hxs]
      simp only [List.append_assoc]
    have hstart := utf8Len_lt_iff (hwhole.trans (List.append_assoc _ _ _))
    have hstop := utf8Len_lt_iff hwhole
    have hlength := congrArg List.length hxs
    simp only [List.length_append, List.length_cons] at hstart hstop hlength
    simp only [Span.contains, Bool.and_eq_true, decide_eq_true_eq]
    rw [hstop, ← Nat.not_lt, hstart]
    rcases htext with rfl | ⟨more, rfl, rfl⟩
    · omega
    · simp only [List.length_append, List.length_cons, List.length_nil] at hlength ⊢
      omega
  empty := by
    have hempty : (Span.mk (String.utf8Len (front ++ before))
        (String.utf8Len (front ++ before ++ text))).isEmpty = true ↔ text = [] := by
      rw [Span.isEmpty, decide_eq_true_eq, String.utf8Len_append (front ++ before)]
      cases text with
      | nil => simp
      | cons c text =>
        have := c.utf8Size_pos
        rw [String.utf8Len_cons]
        dsimp only
        exact iff_of_false (by omega) (List.cons_ne_nil _ _)
    rw [hempty]
    rcases htext with rfl | ⟨more, -, rfl⟩
    · rfl
    · refine iff_of_false ?_ (by simp)
      rintro rfl
      exact hfirst rfl

/-- A range that does not begin with a break is shown by the line on which it begins. -/
theorem exists_shows {head tail : List Char} (hsource : source.toList = head ++ text ++ tail)
    (hfirst : text.head? ≠ some '\n') : ∃ front before under after back,
      head = front ++ before ∧
      (text = under ∨ ∃ more, after = [] ∧ text = under ++ '\n' :: more) ∧
      Shows source ⟨String.utf8Len head, String.utf8Len (head ++ text)⟩ front before under after
        back := by
  obtain ⟨front, before, rfl, habove, hbefore⟩ := Text.exists_endsLine head
  by_cases hbreak : '\n' ∈ text
  · -- the range goes on past the line, so nothing of the line is left behind it
    obtain ⟨under, more, rfl, hunder⟩ := List.eq_append_cons_of_mem hbreak
    refine ⟨front, before, under, [], '\n' :: (more ++ tail), rfl, .inr ⟨more, rfl, rfl⟩, ?_⟩
    refine shows_of_text hsource ?_ habove ?_ (.inr rfl) hfirst (.inr ⟨more, rfl, rfl⟩)
    · simp
    · simp [hbefore, hunder]
  · obtain ⟨after, back, rfl, hafter, hbelow⟩ := Text.exists_line tail
    refine ⟨front, before, text, after, back, rfl, .inl rfl, ?_⟩
    refine shows_of_text hsource ?_ habove ?_ hbelow hfirst (.inl rfl)
    · simp
    · simp [hbefore, hbreak, hafter]

end

/-! ## Excerpts -/

namespace Position

theorem after_endsLine {front before : List Char} (h : Text.EndsLine front)
    (hbefore : '\n' ∉ before) :
    after (front ++ before) = ⟨front.count '\n' + 1, before.length + 1⟩ := by
  rw [after_append_of_not_mem _ hbefore, after, Nat.add_comm 1, mk.injEq]
  refine ⟨rfl, ?_⟩
  rcases h with rfl | h
  · simp [Nat.add_comm]
  · obtain ⟨rest, rfl⟩ := List.getLast?_eq_some_iff.mp h
    simp [Nat.add_comm]

end Position

namespace Excerpt

def label (d : Diagnostic) : String :=
  match d.fix? with
  | some fix => " " ++ fix.description
  | none => ""

variable {source : String} {head text tail : List Char} {d : Diagnostic}

theorem line_ne_nil {front line back : List Char} (hsource : source.toList = front ++ line ++ back)
    (habove : Text.EndsLine front) {before rest : List Char} (hline : line ++ back = before ++ rest)
    (h : Position.HasLine source (String.utf8Len (front ++ before))) : line ++ back ≠ [] := by
  intro hnil
  have hfront : source.toList = front := by rw [hsource, List.append_assoc, hnil, List.append_nil]
  obtain ⟨rfl, rfl⟩ := List.append_eq_nil_iff.mp (hline.symm.trans hnil)
  have hend : source.toList = (front ++ []) ++ [] := by
    rw [hfront, List.append_nil, List.append_nil]
  rcases (Position.hasLine_iff hend).mp h with hne | ⟨c, hlast, hc⟩
  · exact hne rfl
  · rw [hfront] at hlast
    rcases habove with rfl | hbreak
    · cases hlast
    · exact hc (Option.some.inj (hlast.symm.trans hbreak))

/-- On the line where a range ends as many carets stand as it has characters, and on a
line that it goes on behind as many as there are left of the line. -/
theorem caretCount_of_range {front before under after text tail : List Char}
    (hsource : source.toList = front ++ before ++ text ++ tail) (habove : Text.EndsLine front)
    (hbreak : '\n' ∉ before ++ under ++ after)
    (htext : text = under ∨ ∃ more, after = [] ∧ text = under ++ '\n' :: more) :
    caretCount (String.ofList (before ++ under ++ after))
      (.ofSpan source ⟨String.utf8Len (front ++ before),
        String.utf8Len (front ++ before ++ text)⟩) = max under.length 1 := by
  have hbefore : '\n' ∉ before := fun h => hbreak (by simp [h])
  have hstart := Position.ofOffset_utf8Len (hsource.trans (List.append_assoc _ _ _))
  have hstop := Position.ofOffset_utf8Len hsource
  rw [Position.after_endsLine habove hbefore] at hstart
  rw [caretCount, LineSpan.ofSpan, hstart, hstop]
  dsimp only
  rcases htext with rfl | ⟨more, rfl, rfl⟩
  · have hunder : '\n' ∉ before ++ text := fun h => hbreak (List.mem_append_left _ h)
    rw [List.append_assoc front, Position.after_endsLine habove hunder, if_pos rfl]
    simp
  · have hlines : (Position.after (front ++ before ++ (under ++ '\n' :: more))).line ≠
        front.count '\n' + 1 := by
      simp only [Position.after, List.count_append, List.count_cons_self]
      omega
    rw [if_neg hlines]
    simp

def framed (number line pointer : String) : List String :=
  [blanks number.length ++ " |", number ++ " | " ++ line, blanks number.length ++ " | " ++ pointer]

theorem excerpt_of_range (hreturn : '\r' ∉ source.toList)
    (hsource : source.toList = head ++ text ++ tail) (hfirst : text.head? ≠ some '\n')
    (hline : Position.HasLine source (String.utf8Len head))
    (hrange : d.range = ⟨String.utf8Len head, String.utf8Len (head ++ text)⟩) :
    ∃ front before under after back, Shows source d.range front before under after back ∧
      Position.ofOffset source d.range.start = ⟨front.count '\n' + 1, before.length + 1⟩ ∧
      excerpt (Text.lines source) d (.ofSpan source d.range) =
        framed (toString (front.count '\n' + 1)) (String.ofList (before ++ under ++ after))
          (blanks before.length ++ carets (max under.length 1) ++ label d) := by
  obtain ⟨front, before, under, after, back, rfl, htext, hshows⟩ := exists_shows hsource hfirst
  rw [← hrange] at hshows
  have hbefore : '\n' ∉ before := fun h => hshows.line (by simp [h])
  have hstart : Position.ofOffset source d.range.start =
      ⟨front.count '\n' + 1, before.length + 1⟩ := by
    rw [hrange, ← Position.after_endsLine hshows.above hbefore]
    exact Position.ofOffset_utf8Len (hsource.trans (List.append_assoc _ _ _))
  refine ⟨front, before, under, after, back, hshows, hstart, ?_⟩
  have hne : before ++ under ++ after ++ back ≠ [] :=
    line_ne_nil hshows.source_eq hshows.above (List.append_assoc _ _ _ |>.trans
      (List.append_assoc _ _ _)) hline
  have hget :=
    Text.getElem?_lines hreturn hshows.source_eq hshows.above hshows.line hshows.below hne
  have hcount := caretCount_of_range hsource hshows.above hshows.line htext
  rw [excerpt, LineSpan.ofSpan, hstart, Nat.add_sub_cancel, hget]
  rw [← hrange, LineSpan.ofSpan, hstart] at hcount
  dsimp only
  rw [hcount, Nat.add_sub_cancel, framed]
  simp only [String.append_assoc]
  rfl

/-- A diagnostic that has a place in a source is reported with an excerpt. -/
theorem block_of_lines {path : Path} (h : d.lines? = some (.ofSpan source d.range)) :
    block (Text.lines source) path d =
      [heading d, " --> " ++ location path (Position.ofOffset source d.range.start)] ++
        excerpt (Text.lines source) d (.ofSpan source d.range) ++ d.related.map (note path) := by
  rw [block, h]
  simp [toString, LineSpan.ofSpan]

/-- Carets stand below those characters of a line that a range covers, or one stands where
an empty range is, and blanks in front of them. -/
structure Points (range : Span) (front shown : List Char) (column : Nat) (pointer : String) :
    Prop where
  caret_iff : ∀ k, pointer.toList[k]? = some '^' ↔
    (∃ c, shown[k]? = some c ∧ range.contains (String.utf8Len (front ++ shown.take k)) = true) ∨
      range.isEmpty = true ∧ k = column
  blank : ∀ k < column, pointer.toList[k]? = some ' '

theorem getElem?_pointer {label : String} (hlabel : '^' ∉ label.toList) (n m k : Nat) :
    ((blanks n ++ carets m ++ label).toList[k]? = some '^' ↔ n ≤ k ∧ k < n + m) ∧
      (k < n → (blanks n ++ carets m ++ label).toList[k]? = some ' ') := by
  have hend : label.toList[k - (n + m)]? ≠ some '^' := fun h => hlabel (List.mem_of_getElem? h)
  simp only [blanks, carets, String.toList_append, String.toList_ofList, List.getElem?_append,
    List.length_append, List.length_replicate, List.getElem?_replicate]
  by_cases hblank : k < n
  · simp [hblank, show k < n + m by omega, Nat.not_le.mpr hblank]
  · by_cases hcaret : k < n + m
    · simp [hblank, hcaret, show k - n < m by omega, Nat.not_lt.mp hblank]
    · simp [hblank, hcaret, hend]

/-- Carets as many as the range has characters on its line, at least one, stand below them. -/
theorem points_of_shows {range : Span} {front before under after back : List Char}
    (h : Shows source range front before under after back) {label : String}
    (hlabel : '^' ∉ label.toList) :
    Points range front (before ++ under ++ after) before.length
      (blanks before.length ++ carets (max under.length 1) ++ label) where
  caret_iff k := by
    rw [(getElem?_pointer hlabel _ _ _).1, ← h.empty]
    have hcovers (c : Char) (hc : (before ++ under ++ after)[k]? = some c) :
        range.contains (String.utf8Len (front ++ (before ++ under ++ after).take k)) = true ↔
          before.length ≤ k ∧ k < before.length + under.length := by
      obtain ⟨hk, hget⟩ := List.getElem?_eq_some_iff.mp hc
      have hsplit := h.covers _ c _
        ((List.take_append_drop k _).symm.trans (by rw [List.drop_eq_getElem_cons hk, hget]))
      rwa [List.length_take, Nat.min_eq_left (Nat.le_of_lt hk)] at hsplit
    constructor
    · rintro ⟨hfrom, hto⟩
      by_cases hunder : under = []
      · subst hunder
        exact .inr ⟨rfl, by simp at hto; omega⟩
      · have hpos := List.length_pos_iff.mpr hunder
        have hk : k < (before ++ under ++ after).length := by
          simp only [List.length_append]
          omega
        have hget := List.getElem?_eq_getElem hk
        exact .inl ⟨_, hget, (hcovers _ hget).mpr ⟨hfrom, by omega⟩⟩
    · rintro (⟨c, hc, hcontains⟩ | ⟨rfl, rfl⟩)
      · obtain ⟨hfrom, hto⟩ := (hcovers c hc).mp hcontains
        exact ⟨hfrom, by omega⟩
      · simp
  blank k := (getElem?_pointer hlabel _ _ k).2

theorem exists_block_of_mem (source : String) (path : Path) {ds : List Diagnostic} (hd : d ∈ ds) :
    ∃ above below, full source path ds = above ++
      String.join ((block (Text.lines source) path d).map (· ++ "\n")) ++ below := by
  obtain ⟨front, back, rfl⟩ := List.append_of_mem hd
  let text (d : Diagnostic) := String.join ((block (Text.lines source) path d).map (· ++ "\n"))
  refine ⟨String.join (front.map (text · ++ "\n")),
    "\n" ++ (String.join (back.map (text · ++ "\n")) ++ summary (front ++ d :: back)), ?_⟩
  rw [full, List.map_append, List.map_cons, String.join_append, String.join_cons]
  simp only [String.append_assoc, text]

end Excerpt

end SchemaLang
