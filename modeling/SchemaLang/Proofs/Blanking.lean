import Mathlib.Data.List.TakeWhile
import SchemaLang.Proofs.Tiling

/-!
# A blank in place of a closer

When `;` or a closing bracket gives way to a blank, all other tokens stay as
they are and where they are, up to blanks and comments. The rule that cut a
lexeme in front of it looked no further than to see that the lexeme ends
there, which both characters show alike, and blanks that meet merge into one.
-/

set_option autoImplicit false

namespace SchemaLang

def blankAt (source : String) (offset : Nat) : String :=
  String.ofList (Text.charsBefore offset source.toList ++
    ' ' :: (Text.charsFrom offset source.toList).tail)

def significantFrom (start : Nat) (ls : List Lexeme) : List Token :=
  (tokensFrom start ls).filter (fun t => !t.isTrivia)

theorem significantFrom_append (start : Nat) (ls ms : List Lexeme) :
    significantFrom start (ls ++ ms) =
      significantFrom start ls ++ significantFrom (start + totalSize ls) ms := by
  rw [significantFrom, tokensFrom_append, List.filter_append]
  rfl

theorem significantFrom_cons (start : Nat) (l : Lexeme) (ls : List Lexeme) :
    significantFrom start (l :: ls) =
      (if l.isTrivia then [] else [⟨l.kind, l.text, start⟩]) ++
        significantFrom (start + l.size) ls := by
  rw [significantFrom, tokensFrom, List.filter_cons]
  have ht : Token.isTrivia ⟨l.kind, l.text, start⟩ = l.isTrivia := rfl
  rw [ht]
  cases l.isTrivia <;> rfl

theorem significantFrom_trivia (start : Nat) {l : Lexeme} (hl : l.isTrivia = true)
    (ls : List Lexeme) : significantFrom start (l :: ls) = significantFrom (start + l.size) ls := by
  rw [significantFrom_cons, if_pos hl, List.nil_append]

namespace Scan

/-- A character that goes on with no lexeme but a comment or a string. -/
structure Inert (c : Char) : Prop where
  toLower : c.toLower ∉ "truefalse".toList
  startsName : startsName c = false
  continuesName : continuesName c = false
  isDigit : c.isDigit = false
  ne_dot : c ≠ '.'
  ne_quote : c ≠ '"'
  ne_break : c ≠ '\n'
  ne_slash : c ≠ '/'
  ne_star : c ≠ '*'

theorem inert_semicolon : Inert ';' := by constructor <;> decide

theorem inert_rbracket : Inert ']' := by constructor <;> decide

theorem inert_blank : Inert ' ' := by constructor <;> decide

theorem take_runLength (f : Char → Bool) (cs : List Char) :
    cs.take (runLength f cs) = cs.takeWhile f :=
  (List.prefix_iff_eq_take.mp (List.takeWhile_prefix f)).symm

theorem drop_runLength (f : Char → Bool) (cs : List Char) :
    cs.drop (runLength f cs) = cs.dropWhile f := by
  apply @List.append_cancel_left _ (cs.takeWhile f)
  rw [List.takeWhile_append_dropWhile, ← take_runLength, List.take_append_drop]

variable {c d : Char} (u p : List Char)

theorem runLength_congr {f : Char → Bool} (hf : f c = false) (hf' : f d = false) :
    runLength f (u ++ d :: p) = runLength f (u ++ c :: p) := by
  induction u with
  | nil => simp [runLength, hf, hf']
  | cons x u ih =>
    simp only [runLength, List.cons_append, List.takeWhile_cons] at ih ⊢
    split
    · simpa using ih
    · rfl

theorem nameTail_congr (hc : Inert c) (hd : Inert d) :
    nameTail (u ++ d :: p) = nameTail (u ++ c :: p) := by
  have hhead (v : List Char) :
      (v ++ d :: p).head?.any startsName = (v ++ c :: p).head?.any startsName := by
    cases v with
    | nil => simp [hc.startsName, hd.startsName]
    | cons x v => rfl
  induction u with
  | nil => simp [nameTail, hc.continuesName, hd.continuesName, hc.ne_dot, hd.ne_dot]
  | cons x u ih => simp only [List.cons_append, nameTail, ih, hhead]

theorem nameTail?_congr (hc : Inert c) (hd : Inert d) (x : Char) :
    nameTail? x (u ++ d :: p) = nameTail? x (u ++ c :: p) := by
  have hhead : (u ++ d :: p).head?.any startsName = (u ++ c :: p).head?.any startsName := by
    cases u with
    | nil => simp [hc.startsName, hd.startsName]
    | cons x u => rfl
  rw [nameTail?, nameTail?, nameTail_congr u p hc hd, hhead]

theorem wordLength?_of_lt (hc : Inert c) {word : String}
    (hw : ∀ x ∈ word.toList, x ∈ "truefalse".toList) (hlt : u.length < word.length) :
    wordLength? word (u ++ c :: p) = none := by
  rw [wordLength?, if_neg]
  rintro ⟨htake, -⟩
  obtain ⟨n, hn⟩ := Nat.exists_eq_add_of_lt hlt
  have hmem : c ∈ (u ++ c :: p).take word.length := by
    rw [hn, List.take_append, Nat.add_assoc, Nat.add_sub_cancel_left, List.take_succ_cons]
    simp
  exact hc.toLower (hw _ (htake ▸ List.mem_map_of_mem hmem))

theorem wordLength?_congr (hc : Inert c) (hd : Inert d) {word : String}
    (hw : ∀ x ∈ word.toList, x ∈ "truefalse".toList) :
    wordLength? word (u ++ d :: p) = wordLength? word (u ++ c :: p) := by
  rcases Nat.lt_or_ge u.length word.length with hlt | hle
  · rw [wordLength?_of_lt u p hc hw hlt, wordLength?_of_lt u p hd hw hlt]
  · have hhead (v : List Char) : (v ++ d :: p).head?.any (fun x => continuesName x || x == '.') =
        (v ++ c :: p).head?.any (fun x => continuesName x || x == '.') := by
      cases v with
      | nil => simp [hc.continuesName, hd.continuesName, hc.ne_dot, hd.ne_dot]
      | cons x v => rfl
    simp only [wordLength?, List.take_append_of_le_length hle, List.drop_append_of_le_length hle,
      hhead]

theorem booleanTail?_congr (hc : Inert c) (hd : Inert d) (x : Char) :
    booleanTail? x (u ++ d :: p) = booleanTail? x (u ++ c :: p) := by
  have htrue : wordLength? "true" (x :: u ++ d :: p) = wordLength? "true" (x :: u ++ c :: p) :=
    wordLength?_congr (x :: u) p hc hd (by simp)
  have hfalse : wordLength? "false" (x :: u ++ d :: p) = wordLength? "false" (x :: u ++ c :: p) :=
    wordLength?_congr (x :: u) p hc hd (by simp)
  rw [List.cons_append, List.cons_append] at htrue hfalse
  rw [booleanTail?, booleanTail?, htrue, hfalse]

theorem stringTail_congr (hc : Inert c) (h : stringTail (u ++ c :: p) ≤ u.length) :
    stringTail (u ++ d :: p) = stringTail (u ++ c :: p) := by
  induction u with
  | nil => simp [stringTail, hc.ne_quote, hc.ne_break] at h
  | cons x u ih =>
    simp only [List.cons_append, stringTail, List.length_cons] at h ⊢
    split
    · rfl
    · split
      · rfl
      · rw [if_neg ‹_›, if_neg ‹_›] at h
        rw [ih (by omega)]

theorem lineTail_congr (hc : Inert c) (h : runLength (· != '\n') (u ++ c :: p) ≤ u.length) :
    runLength (· != '\n') (u ++ d :: p) = runLength (· != '\n') (u ++ c :: p) := by
  induction u with
  | nil => simp [runLength, hc.ne_break] at h
  | cons x u ih =>
    simp only [runLength, List.cons_append, List.takeWhile_cons] at h ih ⊢
    split
    · rw [if_pos ‹_›] at h
      simp only [List.length_cons, Nat.add_le_add_iff_right] at h ⊢
      rw [ih h]
    · rfl

theorem blockTail_congr (hc : Inert c) (hd : Inert d) (h : blockTail (u ++ c :: p) ≤ u.length) :
    blockTail (u ++ d :: p) = blockTail (u ++ c :: p) := by
  induction u with
  | nil => simp [blockTail, hc.ne_star] at h
  | cons x u ih =>
    have hhead : ((u ++ d :: p).head? = some '/') = ((u ++ c :: p).head? = some '/') := by
      cases u with
      | nil => simp [hc.ne_slash, hd.ne_slash]
      | cons x u => rfl
    simp only [List.cons_append, blockTail, List.length_cons, hhead] at h ⊢
    split
    · rfl
    · rw [if_neg ‹_›] at h
      rw [ih (by omega)]

theorem commentTail?_congr (hc : Inert c) (hd : Inert d) (x : Char)
    (h : ∀ n, commentTail? x (u ++ c :: p) = some n → n ≤ u.length) :
    commentTail? x (u ++ d :: p) = commentTail? x (u ++ c :: p) := by
  by_cases hx : x = '/'
  · subst hx
    cases u with
    | nil => simp [commentTail?, hc.ne_slash, hd.ne_slash, hc.ne_star, hd.ne_star]
    | cons y u =>
      by_cases hline : y = '/'
      · subst hline
        have hrun := lineTail_congr (d := d) ('/' :: u) p hc (h _ rfl)
        exact congrArg some hrun
      by_cases hblock : y = '*'
      · subst hblock
        have hlen : blockTail (u ++ c :: p) + 1 ≤ u.length + 1 := h _ rfl
        have htail := blockTail_congr u p hc hd (Nat.le_of_succ_le_succ hlen)
        exact congrArg (fun n => some (n + 1)) htail
      · simp [commentTail?, hline, hblock]
  · simp [commentTail?, hx]

/-- A lexeme that ends before `c` is the same before any other such character. -/
theorem lead_congr (hc : Inert c) (hd : Inert d) (x : Char)
    (hk : (lead x (u ++ c :: p)).1 ≠ .whitespace) (hn : (lead x (u ++ c :: p)).2 ≤ u.length) :
    lead x (u ++ d :: p) = lead x (u ++ c :: p) := by
  unfold lead at hk hn ⊢
  by_cases hwhite : Text.isWhite x = true
  · rw [if_pos hwhite] at hk
    exact absurd rfl hk
  rw [if_neg hwhite] at hn ⊢
  rw [if_neg hwhite]
  have hcomment := commentTail?_congr u p hc hd x fun n h => by
    rw [h] at hn
    exact hn
  rw [hcomment, booleanTail?_congr u p hc hd x, nameTail?_congr u p hc hd x,
    runLength_congr u p hc.isDigit hd.isDigit]
  cases hcomment' : commentTail? x (u ++ c :: p) with
  | some n => rfl
  | none =>
    cases hboolean : booleanTail? x (u ++ c :: p) with
    | some n => rfl
    | none =>
      cases hname : nameTail? x (u ++ c :: p) with
      | some n => rfl
      | none =>
        simp only [hcomment', hboolean, hname] at hn ⊢
        split
        · rfl
        · split
          · rw [if_neg ‹_›, if_pos ‹_›] at hn
            rw [stringTail_congr u p hc hn]
          · rfl

/-- A lexeme is a run of blanks, one of the longer sorts, or one character. -/
theorem lead_cases (x : Char) (cs : List Char) :
    (Text.isWhite x = true ∧ lead x cs = (.whitespace, runLength Text.isWhite cs)) ∨
      (lead x cs).1 ∈ [.comment, .boolean, .identifier, .integer, .string] ∨
      lead x cs = ((punctuation? x).getD .badChar, 0) := by
  unfold lead
  by_cases hwhite : Text.isWhite x = true
  · rw [if_pos hwhite]
    exact .inl ⟨hwhite, rfl⟩
  rw [if_neg hwhite]
  right
  cases commentTail? x cs with
  | some n => exact .inl (by simp)
  | none =>
    cases booleanTail? x cs with
    | some n => exact .inl (by simp)
    | none =>
      cases nameTail? x cs with
      | some n => exact .inl (by simp)
      | none =>
        dsimp only
        split
        · exact .inl (by simp)
        · split
          · exact .inl (by simp)
          · exact .inr rfl

theorem punctuation?_closer {x : Char} {kind : TokenKind}
    (hk : kind = .semicolon ∨ kind = .rbracket) (h : (punctuation? x).getD .badChar = kind) :
    Inert x ∧ x.utf8Size = 1 := by
  unfold punctuation? at h
  split at h
  all_goals first
    | exact ⟨inert_semicolon, rfl⟩
    | exact ⟨inert_rbracket, rfl⟩
    | (rcases hk with rfl | rfl <;> simp at h)

theorem punctuation?_ne_whitespace (x : Char) :
    (punctuation? x).getD .badChar ≠ .whitespace := by
  unfold punctuation?
  split <;> simp

/-- Only blanks make a blank lexeme, and it takes all that come next. -/
theorem lead_whitespace {x : Char} {cs : List Char} (h : (lead x cs).1 = .whitespace) :
    Text.isWhite x = true ∧ (lead x cs).2 = runLength Text.isWhite cs := by
  rcases lead_cases x cs with ⟨hwhite, hlead⟩ | hlong | hlead
  · exact ⟨hwhite, by rw [hlead]⟩
  · simp [h] at hlong
  · rw [hlead] at h
    exact absurd h (punctuation?_ne_whitespace x)

/-- Only digits make a number, and it takes all that come next. -/
theorem lead_integer {x : Char} {cs : List Char} :
    (lead x cs).1 = .integer → x.isDigit = true ∧ (lead x cs).2 = runLength Char.isDigit cs := by
  unfold lead
  split
  · simp
  split
  · simp
  split
  · simp
  split
  · simp
  split
  · rename_i hdigit
    exact fun _ => ⟨hdigit, rfl⟩
  split
  · simp
  unfold punctuation?
  split <;> simp

/-- Only the character itself makes a lexeme that is `;` or a closing bracket. -/
theorem lead_closer {x : Char} {cs : List Char}
    (h : (lead x cs).1 = .semicolon ∨ (lead x cs).1 = .rbracket) :
    (lead x cs).2 = 0 ∧ Inert x ∧ x.utf8Size = 1 := by
  rcases lead_cases x cs with ⟨-, hlead⟩ | hlong | hlead
  · simp [hlead] at h
  · rcases h with h | h <;> simp [h] at hlong
  · rw [hlead] at h ⊢
    exact ⟨rfl, punctuation?_closer h rfl⟩

end Scan

open Scan

theorem scan_cons (x : Char) (cs : List Char) :
    scan (x :: cs) = ⟨(lead x cs).1, String.ofList (x :: cs.take (lead x cs).2)⟩ ::
      scan (cs.drop (lead x cs).2) := by
  rw [scan]

theorem size_ofList (kind : TokenKind) (cs : List Char) :
    Lexeme.size ⟨kind, String.ofList cs⟩ = String.utf8Len cs := String.utf8ByteSize_ofList cs

theorem significantFrom_dropWhile (start : Nat) (cs : List Char) :
    significantFrom start (scan cs) =
      significantFrom (start + String.utf8Len (cs.takeWhile Text.isWhite))
        (scan (cs.dropWhile Text.isWhite)) := by
  cases cs with
  | nil => rfl
  | cons x cs =>
    cases hx : Text.isWhite x with
    | false => simp [hx]
    | true =>
      have hlead : lead x cs = (.whitespace, runLength Text.isWhite cs) := by
        rw [lead, if_pos hx]
      rw [scan_cons, hlead, significantFrom_trivia _ rfl, size_ofList, take_runLength,
        drop_runLength, List.takeWhile_cons_of_pos hx, List.dropWhile_cons_of_pos hx]

theorem significantFrom_blanks (start : Nat) {ws : List Char}
    (hws : ∀ x ∈ ws, Text.isWhite x = true) (cs : List Char) :
    significantFrom start (scan (ws ++ cs)) =
      significantFrom (start + String.utf8Len ws) (scan cs) := by
  rw [significantFrom_dropWhile, significantFrom_dropWhile (start + String.utf8Len ws),
    List.takeWhile_append_of_pos hws, List.dropWhile_append_of_pos hws, String.utf8Len_append,
    Nat.add_assoc]

/-- The first lexeme of a text, and what it leaves of the characters before a cut. -/
theorem split_of_scan_cons {x : Char} {pre rest : List Char} {l : Lexeme} {ls ms : List Lexeme}
    (hscan : scan (x :: (pre ++ rest)) = l :: (ls ++ ms))
    (hpre : characters (l :: ls) = x :: pre) (hrest : rest ≠ []) :
    ∃ n, lead x (pre ++ rest) = (l.kind, n) ∧ n ≤ pre.length ∧
      l.text = String.ofList (x :: pre.take n) ∧ characters ls = pre.drop n ∧
      scan (pre.drop n ++ rest) = ls ++ ms := by
  rw [scan_cons] at hscan
  obtain ⟨rfl, htail⟩ := List.cons.inj hscan
  have hcut : (pre ++ rest).take (lead x (pre ++ rest)).2 ++ characters ls = pre := by
    simpa [characters] using hpre
  have hn : (lead x (pre ++ rest)).2 ≤ pre.length := by
    have hlen := congrArg List.length hcut
    have hpos := List.length_pos_iff.mpr hrest
    simp only [List.length_append, List.length_take] at hlen
    omega
  rw [List.take_append_of_le_length hn] at hcut
  rw [List.drop_append_of_le_length hn] at htail
  refine ⟨(lead x (pre ++ rest)).2, rfl, hn, ?_, ?_, htail⟩
  · rw [List.take_append_of_le_length hn]
  · exact List.append_cancel_left (hcut.trans (List.take_append_drop _ pre).symm)

theorem of_mem_take_runLength {f : Char → Bool} {cs : List Char} {x : Char}
    (h : x ∈ cs.take (runLength f cs)) : f x = true := by
  rw [take_runLength] at h
  exact List.mem_takeWhile_imp h

theorem white_of_lead {x : Char} {pre rest : List Char} {n : Nat}
    (hlead : lead x (pre ++ rest) = (.whitespace, n)) (hn : n ≤ pre.length) :
    ∀ y ∈ x :: pre.take n, Text.isWhite y = true := by
  have hblank : (lead x (pre ++ rest)).1 = .whitespace := by rw [hlead]
  obtain ⟨hx, hrun⟩ := lead_whitespace hblank
  rw [hlead] at hrun
  intro y hy
  rcases List.mem_cons.mp hy with rfl | hy
  · exact hx
  · have htake : (pre ++ rest).take n = pre.take n := List.take_append_of_le_length hn
    rw [← htake, show n = _ from hrun] at hy
    exact of_mem_take_runLength hy

/-- A blank in place of an inert character between two lexemes. -/
theorem significantFrom_blanked {c : Char} (hc : Inert c) (start : Nat) (pre post : List Char)
    (ls ms : List Lexeme) (hscan : scan (pre ++ c :: post) = ls ++ ms)
    (hpre : characters ls = pre) :
    significantFrom start (scan (pre ++ ' ' :: post)) =
      significantFrom start ls ++ significantFrom (start + totalSize ls + 1) (scan post) := by
  induction ls generalizing start pre with
  | nil =>
    obtain rfl : pre = [] := hpre.symm
    have hblank : ∀ x ∈ [' '], Text.isWhite x = true := by simp; decide
    exact significantFrom_blanks start hblank post
  | cons l ls ih =>
    cases pre with
    | nil =>
      rw [List.nil_append, scan_cons] at hscan
      obtain ⟨rfl, -⟩ := List.cons.inj hscan
      simp [characters] at hpre
    | cons x pre =>
      obtain ⟨n, hlead, hn, htext, hls, hrest⟩ := split_of_scan_cons hscan hpre (by simp)
      have hsize : l.size = String.utf8Len (x :: pre.take n) := by
        rw [Lexeme.size, htext, String.utf8ByteSize_ofList]
      have hnext := ih (start + l.size) (pre.drop n) hrest hls
      have htotal : start + totalSize (l :: ls) + 1 = start + l.size + totalSize ls + 1 := by
        rw [totalSize]
        omega
      rw [htotal, significantFrom_cons, List.append_assoc, ← hnext]
      by_cases hk : l.kind = .whitespace
      · -- blanks before the cut merge with the new one
        have hws := white_of_lead (hk ▸ hlead) hn
        have hmerged : x :: pre = (x :: pre.take n) ++ pre.drop n := by
          rw [List.cons_append, List.take_append_drop]
        have htrivia : l.isTrivia = true := by
          rw [Lexeme.isTrivia, hk]
          rfl
        rw [hmerged, List.append_assoc, significantFrom_blanks start hws, ← hsize,
          if_pos htrivia, List.nil_append]
      · have hsame := lead_congr pre post hc inert_blank x (by rw [hlead]; exact hk)
          (by rw [hlead]; exact hn)
        rw [hlead] at hsame
        rw [List.cons_append, scan_cons, hsame, significantFrom_cons,
          List.take_append_of_le_length hn, List.drop_append_of_le_length hn, ← htext]

/-- What is cut from the rest of a text does not depend on what came before. -/
theorem scan_characters (cs : List Char) (ls ms : List Lexeme) (h : scan cs = ls ++ ms) :
    scan (characters ms) = ms := by
  induction ls generalizing cs with
  | nil =>
    have hcs := characters_scan cs
    rw [h, List.nil_append] at hcs
    rw [hcs, h, List.nil_append]
  | cons l ls ih =>
    cases cs with
    | nil => simp [scan] at h
    | cons x cs =>
      rw [scan_cons] at h
      exact ih _ (List.cons.inj h).2

/-- A lexeme that is `;` or a closing bracket is one inert character. -/
theorem exists_inert {cs : List Char} {l : Lexeme} {ms : List Lexeme} (h : scan cs = l :: ms)
    (hk : l.kind = .semicolon ∨ l.kind = .rbracket) :
    ∃ c, l.text = String.ofList [c] ∧ Inert c ∧ l.size = 1 := by
  cases cs with
  | nil => simp [scan] at h
  | cons x cs =>
    rw [scan_cons] at h
    obtain ⟨rfl, -⟩ := List.cons.inj h
    obtain ⟨hn, hinert, hsize⟩ := lead_closer hk
    refine ⟨x, by rw [hn, List.take_zero], hinert, ?_⟩
    rw [size_ofList, hn, List.take_zero, String.utf8Len_cons, hsize]
    rfl

/-- The tokens of a text in which one closer gave way to a blank. -/
theorem significantFrom_blankAt (source : String) (ls ms : List Lexeme) (l : Lexeme)
    (h : lexemes source = ls ++ l :: ms) (hk : l.kind = .semicolon ∨ l.kind = .rbracket) :
    significantFrom 0 (lexemes (blankAt source (totalSize ls))) =
        significantFrom 0 ls ++ significantFrom (totalSize ls + l.size) ms ∧
      (blankAt source (totalSize ls)).utf8ByteSize = source.utf8ByteSize := by
  have hl := scan_characters _ ls (l :: ms) h
  have hms := scan_characters _ [l] ms hl
  obtain ⟨c, htext, hc, hsize⟩ := exists_inert hl hk
  have hsource : source.toList = characters ls ++ c :: characters ms := by
    rw [← characters_lexemes, h]
    simp [characters, htext]
  have hsplit := split_utf8Len (characters ls) (c :: characters ms)
  rw [utf8Len_characters, ← hsource] at hsplit
  have hblank : (blankAt source (totalSize ls)).toList =
      characters ls ++ ' ' :: characters ms := by
    rw [blankAt, hsplit.1, hsplit.2, String.toList_ofList, List.tail_cons]
  constructor
  · have hscan : scan (characters ls ++ c :: characters ms) = ls ++ l :: ms := by
      rw [← hsource]
      exact h
    have hblanked := significantFrom_blanked hc 0 _ _ _ _ hscan rfl
    rw [hms, Nat.zero_add] at hblanked
    rw [lexemes, hblank, hblanked, hsize]
  · rw [← totalSize_lexemes source, h, totalSize_append, totalSize, hsize,
      ← String.ofList_toList (s := blankAt source (totalSize ls)), hblank,
      String.utf8ByteSize_ofList, String.utf8Len_append, String.utf8Len_cons,
      utf8Len_characters, utf8Len_characters, Nat.add_comm (totalSize ms)]
    rfl

end SchemaLang
