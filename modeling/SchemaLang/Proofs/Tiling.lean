import Mathlib.Data.String.Basic
import SchemaLang.SchemaFile

/-!
# Lexemes tile their text

Lexemes that stand side by side cover a stretch of text, and their sizes add
up to byte offsets. A cut between two lexemes of a text therefore falls on a
character boundary, and the text between two such cuts is spelled by the
lexemes between them. No lexeme is empty, so no two tokens are alike.
-/

set_option autoImplicit false

namespace SchemaLang

def characters (ls : List Lexeme) : List Char := ls.flatMap (fun l => l.text.toList)

theorem characters_append (ls ms : List Lexeme) :
    characters (ls ++ ms) = characters ls ++ characters ms := by
  simp [characters]

theorem characters_scan (cs : List Char) : characters (scan cs) = cs := flatMap_text_scan cs

theorem characters_lexemes (source : String) : characters (lexemes source) = source.toList :=
  characters_scan source.toList

theorem utf8Len_text (l : Lexeme) : String.utf8Len l.text.toList = l.size :=
  String.utf8Len_toList l.text

theorem utf8Len_characters (ls : List Lexeme) :
    String.utf8Len (characters ls) = totalSize ls := by
  induction ls with
  | nil => rfl
  | cons l ls ih =>
    rw [totalSize, ← ih, ← utf8Len_text, ← String.utf8Len_append]
    rfl

theorem totalSize_lexemes (source : String) :
    totalSize (lexemes source) = source.utf8ByteSize := by
  rw [← utf8Len_characters, characters_lexemes, String.utf8Len_toList]

theorem split_utf8Len (pre post : List Char) :
    Text.charsBefore (String.utf8Len pre) (pre ++ post) = pre ∧
      Text.charsFrom (String.utf8Len pre) (pre ++ post) = post := by
  induction pre with
  | nil => cases post <;> exact ⟨rfl, rfl⟩
  | cons x pre ih =>
    have hpos := x.utf8Size_pos
    have hne : String.utf8Len (x :: pre) ≠ 0 := by
      rw [String.utf8Len_cons]
      omega
    rw [List.cons_append, Text.charsBefore, Text.charsFrom, if_neg hne, if_neg hne,
      String.utf8Len_cons, Nat.add_sub_cancel, ih.1, ih.2]
    exact ⟨rfl, rfl⟩

theorem slice_tiles (source : String) (ls ms rs : List Lexeme)
    (h : lexemes source = ls ++ ms ++ rs) :
    Text.slice source (totalSize ls) (totalSize ls + totalSize ms) =
      String.ofList (characters ms) := by
  have hs : source = String.ofList (characters ls ++ characters ms ++ characters rs) := by
    rw [← characters_append, ← characters_append, ← h, characters_lexemes, String.ofList_toList]
  have he := String.extract_of_valid (characters ls) (characters ms) (characters rs)
  rw [utf8Len_characters, utf8Len_characters, ← hs] at he
  exact he

theorem isValid_totalSize (source : String) (ls rs : List Lexeme)
    (h : lexemes source = ls ++ rs) : String.Pos.Raw.IsValid source ⟨totalSize ls⟩ := by
  rw [String.Pos.Raw.isValid_iff_exists_append]
  refine ⟨String.ofList (characters ls), String.ofList (characters rs), ?_, ?_⟩
  · rw [← String.ofList_append, ← characters_append, ← h, characters_lexemes,
      String.ofList_toList]
  · rw [String.rawEndPos_ofList, utf8Len_characters]

theorem size_pos_of_mem_scan (cs : List Char) (l : Lexeme) (h : l ∈ scan cs) : 0 < l.size := by
  induction hn : cs.length using Nat.strongRecOn generalizing cs with
  | ind n ih =>
    cases cs with
    | nil => simp [scan] at h
    | cons c cs =>
      rw [scan] at h
      rcases List.mem_cons.mp h with rfl | hrest
      · have hc := c.utf8Size_pos
        simp only [Lexeme.size, String.utf8ByteSize_ofList, String.utf8Len_cons]
        omega
      · apply ih _ _ _ hrest rfl
        subst hn
        simp only [List.length_drop, List.length_cons]
        omega

/-! ## Tokens are lexemes with their places -/

theorem text_tokensFrom (start : Nat) (ls : List Lexeme) :
    String.join ((tokensFrom start ls).map Token.text) = String.ofList (characters ls) := by
  induction ls generalizing start with
  | nil => rfl
  | cons l ls ih =>
    have hl : characters (l :: ls) = l.text.toList ++ characters ls := rfl
    rw [tokensFrom, List.map_cons, String.join_cons, ih, hl, String.ofList_append,
      String.ofList_toList]

theorem lexeme_mem_of_mem_tokensFrom {start : Nat} {ls : List Lexeme} {t : Token}
    (h : t ∈ tokensFrom start ls) : t.lexeme ∈ ls := by
  rw [← lexeme_tokensFrom start ls]
  exact List.mem_map_of_mem h

theorem exists_split_of_mem_tokensFrom {start : Nat} {all : List Lexeme} {t : Token}
    (h : t ∈ tokensFrom start all) :
    ∃ ls ms, all = ls ++ t.lexeme :: ms ∧ t.start = start + totalSize ls := by
  induction all generalizing start with
  | nil => simp [tokensFrom] at h
  | cons l all ih =>
    rcases List.mem_cons.mp h with rfl | h
    · exact ⟨[], all, rfl, rfl⟩
    · obtain ⟨ls, ms, rfl, hstart⟩ := ih h
      exact ⟨l :: ls, ms, rfl, by rw [hstart, totalSize, Nat.add_assoc]⟩

theorem exists_of_getLast?_tokensFrom {start : Nat} {ls : List Lexeme} {t : Token}
    (h : (tokensFrom start ls).getLast? = some t) :
    ∃ ms, ls = ms ++ [t.lexeme] ∧ t.start = start + totalSize ms := by
  rcases List.eq_nil_or_concat ls with rfl | ⟨ms, l, rfl⟩
  · simp [tokensFrom] at h
  · rw [List.concat_eq_append, tokensFrom_append] at h
    simp only [tokensFrom, List.getLast?_concat, Option.some.injEq] at h
    subst h
    exact ⟨ms, List.concat_eq_append, rfl⟩

theorem start_le_of_mem_tokensFrom (start : Nat) (ls : List Lexeme) (t : Token)
    (h : t ∈ tokensFrom start ls) : start ≤ t.start := by
  induction ls generalizing start with
  | nil => simp [tokensFrom] at h
  | cons l ls ih =>
    rcases List.mem_cons.mp h with rfl | hrest
    · exact Nat.le_refl start
    · exact (Nat.le_add_right start l.size).trans (ih _ hrest)

theorem nodup_tokensFrom (start : Nat) (ls : List Lexeme) (h : ∀ l ∈ ls, 0 < l.size) :
    (tokensFrom start ls).Nodup := by
  induction ls generalizing start with
  | nil => exact List.nodup_nil
  | cons l ls ih =>
    have hl := h l (by simp)
    apply List.nodup_cons.mpr
    constructor
    · intro hmem
      have hle : start + l.size ≤ start := start_le_of_mem_tokensFrom _ _ _ hmem
      omega
    · exact ih _ (fun m hm => h m (by simp [hm]))

theorem nodup_tokenize (source : String) : (tokenize source).Nodup :=
  nodup_tokensFrom 0 _ (fun l hl => size_pos_of_mem_scan source.toList l hl)

end SchemaLang
