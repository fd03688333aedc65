import Mathlib.Order.Bounds.Basic
import SchemaLang.Proofs.Tiling

/-!
# Tokens tile the part of a text that is read

Any two offsets ask for a part of a text. The part begins and ends at the
nearest character boundaries that do not come later, and its tokens stand side
by side from the one to the other. None is empty, none splits a character, and
each is spelled as the text is between its ends.
-/

set_option autoImplicit false

namespace SchemaLang

/-! ## Boundaries -/

namespace Text

def IsBoundary (source : String) (offset : Nat) : Prop := String.Pos.Raw.IsValid source ⟨offset⟩

theorem isBoundary_iff {source : String} {offset : Nat} :
    IsBoundary source offset ↔
      ∃ front back, source.toList = front ++ back ∧ offset = String.utf8Len front := by
  rw [IsBoundary, String.Pos.Raw.isValid_iff_exists_append]
  constructor
  · rintro ⟨front, back, rfl, hoffset⟩
    refine ⟨front.toList, back.toList, String.toList_append, ?_⟩
    rw [String.utf8Len_toList]
    exact congrArg String.Pos.Raw.byteIdx hoffset
  · rintro ⟨front, back, hsource, rfl⟩
    refine ⟨String.ofList front, String.ofList back, ?_, by rw [String.rawEndPos_ofList]⟩
    rw [← String.ofList_append, ← hsource, String.ofList_toList]

theorem exists_floorBoundary_eq (cs : List Char) (offset : Nat) :
    ∃ front back, cs = front ++ back ∧ floorBoundary cs offset = String.utf8Len front := by
  induction cs generalizing offset with
  | nil => exact ⟨[], [], rfl, rfl⟩
  | cons c cs ih =>
    rw [floorBoundary]
    split
    · obtain ⟨front, back, rfl, hfloor⟩ := ih (offset - c.utf8Size)
      exact ⟨c :: front, back, rfl, by rw [hfloor, String.utf8Len_cons, Nat.add_comm]⟩
    · exact ⟨[], c :: cs, rfl, rfl⟩

theorem le_floorBoundary (front back : List Char) (offset : Nat)
    (h : String.utf8Len front ≤ offset) :
    String.utf8Len front ≤ floorBoundary (front ++ back) offset := by
  induction front generalizing offset with
  | nil => exact Nat.zero_le _
  | cons c front ih =>
    rw [String.utf8Len_cons] at h
    have hrest := ih (offset - c.utf8Size) (by omega)
    rw [List.cons_append, floorBoundary, if_pos (by omega), String.utf8Len_cons]
    omega

/-- Moving back to a boundary gives the greatest one that is not too great. -/
theorem isGreatest_floorBoundary (source : String) (offset : Nat) :
    IsGreatest {b | IsBoundary source b ∧ b ≤ offset} (floorBoundary source.toList offset) := by
  constructor
  · obtain ⟨front, back, hsplit, hfloor⟩ := exists_floorBoundary_eq source.toList offset
    exact ⟨isBoundary_iff.mpr ⟨front, back, hsplit, hfloor⟩, floorBoundary_le _ _⟩
  · rintro b ⟨hb, hle⟩
    obtain ⟨front, back, hsplit, rfl⟩ := isBoundary_iff.mp hb
    rw [hsplit]
    exact le_floorBoundary front back offset hle

theorem IsBoundary.le_size {source : String} {offset : Nat} (h : IsBoundary source offset) :
    offset ≤ source.utf8ByteSize := by
  obtain ⟨front, back, hsplit, rfl⟩ := isBoundary_iff.mp h
  rw [← String.utf8Len_toList, hsplit, String.utf8Len_append]
  exact Nat.le_add_right _ _

end Text

/-! ## Tokens side by side -/

def Tile : Nat → List Token → Nat → Prop
  | start, [], stop => start = stop
  | start, t :: ts, stop => t.start = start ∧ t.start < t.stop ∧ Tile t.stop ts stop

theorem tile_tokensFrom (start : Nat) {ls : List Lexeme} (h : ∀ l ∈ ls, 0 < l.size) :
    Tile start (tokensFrom start ls) (start + totalSize ls) := by
  induction ls generalizing start with
  | nil => rfl
  | cons l ls ih =>
    obtain ⟨hl, hrest⟩ := List.forall_mem_cons.mp h
    refine ⟨rfl, Nat.lt_add_of_pos_right hl, ?_⟩
    rw [totalSize, ← Nat.add_assoc]
    exact ih (start + l.size) hrest

theorem Tile.le {start stop : Nat} {ts : List Token} (h : Tile start ts stop) : start ≤ stop := by
  induction ts generalizing start with
  | nil => exact Nat.le_of_eq h
  | cons t ts ih =>
    obtain ⟨hstart, hlt, hrest⟩ := h
    have := ih hrest
    omega

theorem Tile.eq_nil_iff {start stop : Nat} {ts : List Token} (h : Tile start ts stop) :
    ts = [] ↔ start = stop := by
  cases ts with
  | nil => exact iff_of_true rfl h
  | cons t ts =>
    obtain ⟨hstart, hlt, hrest⟩ := h
    have := hrest.le
    exact iff_of_false (List.cons_ne_nil t ts) (by omega)

/-! ## Parts of a text -/

/-- The characters between two boundaries, and what stands around them. -/
theorem exists_part {source : String} {first last : Nat} (hfirst : Text.IsBoundary source first)
    (hlast : Text.IsBoundary source last) (h : first ≤ last) :
    ∃ front part back, source.toList = front ++ part ++ back ∧ first = String.utf8Len front ∧
      last = String.utf8Len front + String.utf8Len part ∧
      Text.charsBefore (last - first) (Text.charsFrom first source.toList) = part := by
  obtain ⟨front, behind, hsource, rfl⟩ := Text.isBoundary_iff.mp hfirst
  obtain ⟨before, back, hbefore, rfl⟩ := Text.isBoundary_iff.mp hlast
  obtain ⟨part, rfl⟩ : ∃ part, before = front ++ part := by
    rcases List.append_eq_append_iff.mp (hsource.symm.trans hbefore) with
      ⟨part, hpart, -⟩ | ⟨part, rfl, hbehind⟩
    · exact ⟨part, hpart⟩
    · rw [String.utf8Len_append] at h
      have hnil : part = [] := by
        cases part with
        | nil => rfl
        | cons c part =>
          rw [String.utf8Len_cons] at h
          have := c.utf8Size_pos
          omega
      exact ⟨[], by rw [hnil, List.append_nil, List.append_nil]⟩
  obtain rfl : behind = part ++ back := by
    rw [hsource, List.append_assoc] at hbefore
    exact List.append_cancel_left hbefore
  refine ⟨front, part, back, hbefore, rfl, String.utf8Len_append _ _, ?_⟩
  rw [hsource, (split_utf8Len front _).2, String.utf8Len_append, Nat.add_sub_cancel_left]
  exact (split_utf8Len part back).1

/-- The tokens of a stretch of characters, seen from the whole text. -/
theorem token_of_part {source : String} {front part back : List Char}
    (hsource : source.toList = front ++ part ++ back) {t : Token}
    (ht : t ∈ tokensFrom (String.utf8Len front) (scan part)) :
    Text.IsBoundary source t.start ∧ Text.IsBoundary source t.stop ∧
      Text.slice source t.start t.stop = t.text := by
  obtain ⟨ls, ms, hsplit, hstart⟩ := exists_split_of_mem_tokensFrom ht
  have hpart : part = characters ls ++ t.text.toList ++ characters ms := by
    rw [← characters_scan part, hsplit, List.append_assoc, characters_append]
    rfl
  have hstart : t.start = String.utf8Len (front ++ characters ls) := by
    rw [hstart, String.utf8Len_append, utf8Len_characters]
  have hstop : t.stop = t.start + String.utf8Len t.text.toList := by
    rw [Token.stop, String.utf8Len_toList]
  have hwhole : source.toList =
      (front ++ characters ls) ++ t.text.toList ++ (characters ms ++ back) := by
    rw [hsource, hpart]
    simp only [List.append_assoc]
  refine ⟨Text.isBoundary_iff.mpr ⟨_, _, by rw [hwhole, List.append_assoc], hstart⟩,
    Text.isBoundary_iff.mpr ⟨_, _, hwhole, ?_⟩, ?_⟩
  · rw [hstop, hstart, ← String.utf8Len_append]
  have hslice := String.extract_of_valid (front ++ characters ls) t.text.toList
    (characters ms ++ back)
  rw [← hwhole, String.ofList_toList, String.ofList_toList, ← hstart, ← hstop] at hslice
  exact hslice

theorem tokenize_eq_tokensBetween (source : String) :
    tokenize source = tokensBetween source 0 source.utf8ByteSize := by
  have hlast : Text.floorBoundary source.toList source.utf8ByteSize = source.utf8ByteSize := by
    have h := Text.le_floorBoundary source.toList [] source.utf8ByteSize
    rw [List.append_nil, String.utf8Len_toList] at h
    exact Nat.le_antisymm (Text.floorBoundary_le _ _) (h (Nat.le_refl _))
  have hfirst : Text.floorBoundary source.toList 0 = 0 :=
    Nat.eq_zero_of_le_zero (Text.floorBoundary_le _ _)
  have hsplit := split_utf8Len source.toList []
  rw [List.append_nil, String.utf8Len_toList] at hsplit
  have hall : Text.charsFrom 0 source.toList = source.toList := (split_utf8Len [] source.toList).2
  rw [tokensBetween, hlast, Nat.zero_min, hfirst, Nat.sub_zero, hall, hsplit.1]
  rfl

/-- The tokens of a part of a text tile it, from boundary to boundary; those of
the whole text spell it. -/
theorem tokens_tile (source : String) (start stop : Nat) :
    (∃ first last,
      IsGreatest {b | Text.IsBoundary source b ∧ b ≤ min stop source.utf8ByteSize} last ∧
      IsGreatest {b | Text.IsBoundary source b ∧ b ≤ min start last} first ∧
      Tile first (tokensBetween source start stop) last ∧
      (first = last → tokensBetween source start stop = []) ∧
      ∀ t ∈ tokensBetween source start stop, Text.IsBoundary source t.start ∧
        Text.IsBoundary source t.stop ∧ Text.slice source t.start t.stop = t.text) ∧
    tokenize source = tokensBetween source 0 source.utf8ByteSize ∧
    Tile 0 (tokenize source) source.utf8ByteSize ∧
    String.join ((tokenize source).map Token.text) = source := by
  have hpos (cs : List Char) : ∀ l ∈ scan cs, 0 < l.size := size_pos_of_mem_scan cs
  refine ⟨?_, tokenize_eq_tokensBetween source, ?_, ?_⟩
  · have hlast := Text.isGreatest_floorBoundary source stop
    have hfirst := Text.isGreatest_floorBoundary source
      (min start (Text.floorBoundary source.toList stop))
    have hle := hfirst.1.2.trans (Nat.min_le_right _ _)
    obtain ⟨front, part, back, hsource, hfront, hback, hpart⟩ :=
      exists_part hfirst.1.1 hlast.1.1 hle
    have htokens : tokensBetween source start stop =
        tokensFrom (String.utf8Len front) (scan part) := by
      rw [tokensBetween, ← hpart, ← hfront]
    have htile := tile_tokensFrom (String.utf8Len front) (hpos part)
    rw [← utf8Len_characters, show characters (scan part) = part from flatMap_text_scan part,
      ← hback, ← htokens, ← hfront] at htile
    refine ⟨_, _, ⟨⟨hlast.1.1, le_min hlast.1.2 hlast.1.1.le_size⟩, ?_⟩, hfirst, htile,
      htile.eq_nil_iff.mpr, ?_⟩
    · rintro b ⟨hb, hmin⟩
      exact hlast.2 ⟨hb, hmin.trans (Nat.min_le_left _ _)⟩
    · rw [htokens]
      exact fun t ht => token_of_part hsource ht
  · have htile := tile_tokensFrom 0 (hpos source.toList)
    rw [Nat.zero_add] at htile
    rwa [← totalSize_lexemes]
  · rw [tokenize, text_tokensFrom, characters_lexemes, String.ofList_toList]

end SchemaLang
