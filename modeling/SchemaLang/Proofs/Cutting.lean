import SchemaLang.Proofs.Seams
import SchemaLang.Proofs.TokenTiling

/-!
# Reading a text in pieces

When what stands behind a lexeme is cut off, nothing is left there that could
carry it on. A text may therefore be cut at any bounds of its tokens, and every
piece has the tokens that it had in the whole.
-/

set_option autoImplicit false

namespace SchemaLang

/-! ## Parts of a text -/

def IsTokenBoundary (source : String) (offset : Nat) : Prop :=
  offset = 0 ∨ offset = source.utf8ByteSize ∨
    ∃ t ∈ tokenize source, offset = t.start ∨ offset = t.stop

instance (source : String) (offset : Nat) : Decidable (IsTokenBoundary source offset) :=
  inferInstanceAs (Decidable (_ ∨ _ ∨ _))

theorem IsTokenBoundary.exists_split {source : String} {offset : Nat}
    (h : IsTokenBoundary source offset) :
    ∃ ls ms, lexemes source = ls ++ ms ∧ offset = totalSize ls := by
  rcases h with rfl | rfl | ⟨t, ht, hoffset⟩
  · exact ⟨[], lexemes source, rfl, rfl⟩
  · exact ⟨lexemes source, [], (List.append_nil _).symm, (totalSize_lexemes source).symm⟩
  · obtain ⟨ls, ms, hsplit, hstart⟩ := exists_split_of_mem_tokensFrom ht
    rw [Nat.zero_add] at hstart
    rcases hoffset with rfl | rfl
    · exact ⟨ls, t.lexeme :: ms, hsplit, hstart⟩
    · refine ⟨ls ++ [t.lexeme], ms, by rw [hsplit, List.append_assoc]; rfl, ?_⟩
      rw [totalSize_append, ← hstart]
      rfl

theorem exists_between {all ls ms ls' ms' : List Lexeme} (hpos : ∀ l ∈ all, 0 < l.size)
    (h : all = ls ++ ms) (h' : all = ls' ++ ms') (hle : totalSize ls ≤ totalSize ls') :
    ∃ between, ls' = ls ++ between ∧ ms = between ++ ms' := by
  rcases List.append_eq_append_iff.mp (h.symm.trans h') with ⟨a, rfl, rfl⟩ | ⟨a, rfl, rfl⟩
  · exact ⟨a, rfl, rfl⟩
  · cases a with
    | nil => exact ⟨[], by simp, by simp⟩
    | cons l a =>
      have hl := hpos l (by rw [h]; simp)
      rw [totalSize_append, totalSize] at hle
      omega

theorem floorBoundary_of_isBoundary {source : String} {offset : Nat}
    (h : Text.IsBoundary source offset) : Text.floorBoundary source.toList offset = offset :=
  Nat.le_antisymm (Text.floorBoundary_le _ _)
    ((Text.isGreatest_floorBoundary source offset).2 ⟨h, le_rfl⟩)

/-- A part that begins and ends with a lexeme has the tokens that it has in the whole. -/
theorem tokensBetween_of_lexemes {source : String} {ls ms rs : List Lexeme}
    (h : lexemes source = ls ++ ms ++ rs) :
    tokensBetween source (totalSize ls) (totalSize ls + totalSize ms) =
      tokensFrom (totalSize ls) ms := by
  have hfirst : Text.IsBoundary source (totalSize ls) :=
    isValid_totalSize source ls (ms ++ rs) (by rw [h, List.append_assoc])
  have hlast : Text.IsBoundary source (totalSize ls + totalSize ms) := by
    rw [← totalSize_append]
    exact isValid_totalSize source (ls ++ ms) rs h
  have hsource : source.toList = characters ls ++ (characters ms ++ characters rs) := by
    rw [← characters_lexemes, h, characters_append, characters_append, List.append_assoc]
  have hms : scan (characters ms) = ms := by
    have hrest : scan (characters (ms ++ rs)) = ms ++ rs :=
      scan_characters source.toList ls (ms ++ rs) (by rw [← List.append_assoc]; exact h)
    exact scan_characters_of_append hrest
  have hfront := split_utf8Len (characters ls) (characters ms ++ characters rs)
  have hback := split_utf8Len (characters ms) (characters rs)
  rw [utf8Len_characters] at hfront hback
  rw [tokensBetween, floorBoundary_of_isBoundary hlast, Nat.min_eq_left (Nat.le_add_right _ _),
    floorBoundary_of_isBoundary hfirst, Nat.add_sub_cancel_left, hsource, hfront.2, hback.1, hms]

/-- The lexemes of a part, picked from all tokens by their places. -/
theorem filter_tokensFrom {ls ms rs : List Lexeme} (hpos : ∀ l ∈ ls ++ ms ++ rs, 0 < l.size) :
    (tokensFrom 0 (ls ++ ms ++ rs)).filter
        (fun t => totalSize ls ≤ t.start ∧ t.stop ≤ totalSize ls + totalSize ms) =
      tokensFrom (totalSize ls) ms := by
  have hsize {start : Nat} {part : List Lexeme} {t : Token} (ht : t ∈ tokensFrom start part)
      (hpart : ∀ l ∈ part, 0 < l.size) :
      start ≤ t.start ∧ t.start < t.stop ∧ t.stop ≤ start + totalSize part := by
    obtain ⟨front, back, rfl, hstart⟩ := exists_split_of_mem_tokensFrom ht
    have hstop : t.stop = t.start + t.lexeme.size := rfl
    have hl := hpart t.lexeme (by simp)
    rw [totalSize_append, totalSize]
    omega
  simp only [List.forall_mem_append] at hpos
  obtain ⟨⟨hls, hms⟩, hrs⟩ := hpos
  rw [tokensFrom_append, tokensFrom_append, Nat.zero_add, Nat.zero_add, totalSize_append,
    List.filter_append, List.filter_append]
  have hfront : (tokensFrom 0 ls).filter
      (fun t => totalSize ls ≤ t.start ∧ t.stop ≤ totalSize ls + totalSize ms) = [] := by
    apply List.filter_eq_nil_iff.mpr
    intro t ht
    have := hsize ht hls
    rw [decide_eq_true_eq]
    omega
  have hpart : (tokensFrom (totalSize ls) ms).filter
      (fun t => totalSize ls ≤ t.start ∧ t.stop ≤ totalSize ls + totalSize ms) =
        tokensFrom (totalSize ls) ms := by
    apply List.filter_eq_self.mpr
    intro t ht
    have := hsize ht hms
    rw [decide_eq_true_eq]
    omega
  have hback : (tokensFrom (totalSize ls + totalSize ms) rs).filter
      (fun t => totalSize ls ≤ t.start ∧ t.stop ≤ totalSize ls + totalSize ms) = [] := by
    apply List.filter_eq_nil_iff.mpr
    intro t ht
    have := hsize ht hrs
    rw [decide_eq_true_eq]
    omega
  rw [hfront, hpart, hback, List.nil_append, List.append_nil]

/-- A token read on its own is the token that it is in the text. -/
theorem tokenize_text {source : String} {t : Token} (ht : t ∈ tokenize source) :
    tokenize t.text = [⟨t.kind, t.text, 0⟩] := by
  obtain ⟨ls, ms, hsplit, -⟩ := exists_split_of_mem_tokensFrom ht
  have hrest : scan (characters (t.lexeme :: ms)) = [t.lexeme] ++ ms :=
    scan_characters source.toList ls (t.lexeme :: ms) hsplit
  have hone := scan_characters_of_append hrest
  have htext : characters [t.lexeme] = t.text.toList := List.append_nil _
  rw [htext] at hone
  rw [tokenize, lexemes, hone]
  rfl

/-- Between two bounds of tokens a text has the tokens that it has there as a
whole, and each token is one by itself. -/
theorem reading_can_be_cut (source : String) :
    (∀ p q, IsTokenBoundary source p → IsTokenBoundary source q → p ≤ q →
      tokensBetween source p q =
        (tokenize source).filter (fun t => p ≤ t.start ∧ t.stop ≤ q)) ∧
    ∀ t ∈ tokenize source, tokenize t.text = [⟨t.kind, t.text, 0⟩] := by
  constructor
  · intro p q hp hq hle
    have hpos : ∀ l ∈ lexemes source, 0 < l.size := size_pos_of_mem_scan source.toList
    obtain ⟨ls, behind, hbehind, rfl⟩ := hp.exists_split
    obtain ⟨before, rs, hbefore, rfl⟩ := hq.exists_split
    obtain ⟨ms, rfl, rfl⟩ := exists_between hpos hbehind hbefore hle
    rw [hbefore] at hpos
    rw [totalSize_append, tokensBetween_of_lexemes hbefore, tokenize, hbefore,
      filter_tokensFrom hpos]
  · intro t ht
    exact tokenize_text ht

/-- Without the open comment behind it, a word is the same word. -/
theorem reading_cut_before_comment :
    IsTokenBoundary "True/* a" 0 ∧ IsTokenBoundary "True/* a" 4 ∧
      tokensBetween "True/* a" 0 4 = [⟨.boolean, "True", 0⟩] ∧
      tokenize "/* a" = [⟨.comment, "/* a", 0⟩] := by
  have hfirst : IsTokenBoundary "True/* a" 0 := .inl rfl
  have hlast : IsTokenBoundary "True/* a" 4 := by decide +kernel
  obtain ⟨hparts, htokens⟩ := reading_can_be_cut "True/* a"
  refine ⟨hfirst, hlast, ?_, htokens ⟨.comment, "/* a", 4⟩ (by decide +kernel)⟩
  rw [hparts 0 4 hfirst hlast (by decide)]
  decide +kernel

end SchemaLang
