import SchemaLang.Proofs.Blanking
import SchemaLang.Proofs.TreeFromLexemes

/-!
# How constructs are spelled

A construct begins and ends with a significant lexeme, and blanks and comments
stand only between two of them. So a construct over one lexeme is spelled like
that lexeme wherever it stands, and of any other construct the significant
lexemes tell at least the first and the last character.
-/

set_option autoImplicit false

namespace SchemaLang

namespace Scan

def spellsName (c : Char) : Bool := continuesName c || c == '.'

theorem isUpper_iff (c : Char) : c.isUpper = true ↔ 65 ≤ c.val ∧ c.val ≤ 90 :=
  decide_eq_true_iff

theorem isLower_iff (c : Char) : c.isLower = true ↔ 97 ≤ c.val ∧ c.val ≤ 122 := by
  show (decide (97 ≤ c.val) && decide (c.val ≤ 122)) = true ↔ _
  simp

theorem isAlpha_iff (c : Char) : c.isAlpha = true ↔ c.isUpper = true ∨ c.isLower = true :=
  Bool.or_eq_true_iff

theorem isDigit_iff (c : Char) : c.isDigit = true ↔ 48 ≤ c.val ∧ c.val ≤ 57 := by
  show (decide (c.val ≥ 48) && decide (c.val ≤ 57)) = true ↔ _
  simp

theorem continuesName_of_startsName {c : Char} (h : startsName c = true) :
    continuesName c = true := by
  simp only [startsName, continuesName, Char.isAlphanum, Bool.or_eq_true] at h ⊢
  tauto

def closes (c : Char) : Bool := c == ')' || c == ']' || c == '\x7d'

theorem closes_cases {c : Char} (h : closes c = true) : c = ')' ∨ c = ']' ∨ c = '\x7d' := by
  simpa [closes, or_assoc] using h

theorem spellsName_of_closes {c : Char} (h : closes c = true) : spellsName c = false := by
  rcases closes_cases h with rfl | rfl | rfl <;> decide

theorem isWhite_of_closes {c : Char} (h : closes c = true) : Text.isWhite c = false := by
  rcases closes_cases h with rfl | rfl | rfl <;> decide

theorem isWhite_of_spellsName {c : Char} (h : spellsName c = true) : Text.isWhite c = false := by
  by_contra hwhite
  simp only [Bool.not_eq_false, Text.isWhite, Bool.or_eq_true, Bool.and_eq_true,
    decide_eq_true_eq, beq_iff_eq, Char.toNat] at hwhite
  have hvisible {low high : UInt32} (hlow : low ≤ c.val) (hhigh : c.val ≤ high)
      (hlow' : 33 ≤ low.toNat) (hhigh' : high.toNat ≤ 126) : False := by
    have : low.toNat ≤ c.val.toNat := hlow
    have : c.val.toNat ≤ high.toNat := hhigh
    omega
  simp only [spellsName, continuesName, Char.isAlphanum, Bool.or_eq_true, isAlpha_iff, isUpper_iff,
    isLower_iff, isDigit_iff, beq_iff_eq] at h
  rcases h with (((⟨hlow, hhigh⟩ | ⟨hlow, hhigh⟩) | ⟨hlow, hhigh⟩) | rfl) | rfl
  · exact hvisible hlow hhigh (by decide) (by decide)
  · exact hvisible hlow hhigh (by decide) (by decide)
  · exact hvisible hlow hhigh (by decide) (by decide)
  · exact absurd hwhite (by decide)
  · exact absurd hwhite (by decide)

theorem isDigit_of_closes {c : Char} (h : closes c = true) : c.isDigit = false := by
  rcases closes_cases h with rfl | rfl | rfl <;> decide

theorem exists_lead_of_mem_scan {cs : List Char} {l : Lexeme} (h : l ∈ scan cs) :
    ∃ c rest, l = ⟨(lead c rest).1, String.ofList (c :: rest.take (lead c rest).2)⟩ := by
  induction hn : cs.length using Nat.strongRecOn generalizing cs with
  | ind n ih =>
    cases cs with
    | nil => simp [scan] at h
    | cons c cs =>
      rw [scan_cons] at h
      rcases List.mem_cons.mp h with rfl | hrest
      · exact ⟨c, cs, rfl⟩
      · subst hn
        refine ih _ ?_ hrest rfl
        simp only [List.length_drop, List.length_cons]
        omega

theorem isWhite_of_lead {c : Char} {cs : List Char} (h : (lead c cs).1 ≠ .whitespace) :
    Text.isWhite c = false := by
  cases hc : Text.isWhite c with
  | false => rfl
  | true =>
    rw [lead, if_pos hc] at h
    exact absurd rfl h

theorem spellsName_of_mem_nameTail (cs : List Char) :
    ∀ x ∈ cs.take (nameTail cs), spellsName x = true := by
  induction cs with
  | nil => simp
  | cons c cs ih =>
    rw [nameTail]
    split
    · rename_i hc
      rw [List.take_succ_cons, List.forall_mem_cons]
      exact ⟨by simp [spellsName, hc], ih⟩
    · split
      · rename_i hdot
        split
        · rw [List.take_succ_cons, List.forall_mem_cons]
          exact ⟨by simp [spellsName, hdot], ih⟩
        · simp [spellsName, hdot]
      · simp

theorem spellsName_of_nameTail? {c : Char} {cs : List Char} {n : Nat}
    (h : nameTail? c cs = some n) : ∀ x ∈ c :: cs.take n, spellsName x = true := by
  rw [nameTail?] at h
  rw [List.forall_mem_cons]
  split at h
  · rename_i hc
    obtain rfl := Option.some.inj h
    have hcontinues : continuesName c = true := by
      simp only [startsName, Bool.or_eq_true] at hc
      simp only [continuesName, Char.isAlphanum, Bool.or_eq_true]
      exact hc.imp .inl id
    exact ⟨by simp [spellsName, hcontinues], spellsName_of_mem_nameTail cs⟩
  · split at h
    · rename_i hdot
      obtain rfl := Option.some.inj h
      refine ⟨by simp [spellsName, hdot], ?_⟩
      split
      · exact spellsName_of_mem_nameTail cs
      · simp
    · cases h

/-- What the lexical rules say of a name and of a closing bracket. -/
theorem lead_name_or_closer (c : Char) (cs : List Char) :
    ((lead c cs).1 = .identifier → ∀ x ∈ c :: cs.take (lead c cs).2, spellsName x = true) ∧
      ((lead c cs).1 ∈ [.rparen, .rbracket, .rbrace] →
        (lead c cs).2 = 0 ∧ closes c = true ∧ punctuation? c = some (lead c cs).1) := by
  unfold lead
  split
  · simp
  split
  · simp
  split
  · simp
  split
  · rename_i n hname
    exact ⟨fun _ => spellsName_of_nameTail? hname, by simp⟩
  split
  · simp
  split
  · simp
  unfold punctuation?
  split <;> simp [closes]

end Scan

open Scan

variable {source : String} {l : Lexeme}

theorem head_of_mem_lexemes (hl : l ∈ lexemes source) (h : l.isTrivia = false) :
    ∃ c, l.text.toList.head? = some c ∧ Text.isWhite c = false := by
  obtain ⟨c, rest, rfl⟩ := exists_lead_of_mem_scan hl
  refine ⟨c, by simp, @isWhite_of_lead c rest fun hwhite => ?_⟩
  rw [Lexeme.isTrivia, show _ = TokenKind.whitespace from hwhite] at h
  cases h

theorem spellsName_of_mem_lexemes (hl : l ∈ lexemes source) (h : l.kind = .identifier) :
    ∀ c ∈ l.text.toList, spellsName c = true := by
  obtain ⟨c, rest, rfl⟩ := exists_lead_of_mem_scan hl
  rw [String.toList_ofList]
  exact (lead_name_or_closer c rest).1 h

theorem closer_of_mem_lexemes (hl : l ∈ lexemes source)
    (h : l.kind ∈ [.rparen, .rbracket, .rbrace]) :
    ∃ c, l.text.toList = [c] ∧ closes c = true ∧ punctuation? c = some l.kind := by
  obtain ⟨c, rest, rfl⟩ := exists_lead_of_mem_scan hl
  obtain ⟨hn, hc⟩ := (lead_name_or_closer c rest).2 h
  exact ⟨c, by rw [String.toList_ofList, hn, List.take_zero], hc⟩

/-! ## Texts that end with a closing bracket -/

structure Enclosed (s : String) : Prop where
  first : ∃ c, s.toList.head? = some c ∧ Text.isWhite c = false
  last : ∃ c, s.toList.getLast? = some c ∧ closes c = true

theorem Enclosed.trim {s : String} (h : Enclosed s) : Text.trim s = s := by
  obtain ⟨c, hc, hwhite⟩ := h.first
  obtain ⟨d, hd, hcloses⟩ := h.last
  obtain ⟨rest, hrest⟩ := List.head?_eq_some_iff.mp hc
  obtain ⟨front, hfront⟩ := List.getLast?_eq_some_iff.mp hd
  have hstart : Text.trimStart s.toList = s.toList := by
    rw [Text.trimStart, hrest, List.dropWhile_cons_of_neg (by simp [hwhite])]
  have hend : Text.trimEnd s.toList = s.toList := by
    rw [Text.trimEnd, hfront, List.reverse_append, List.reverse_singleton, List.singleton_append,
      List.dropWhile_cons_of_neg (by simp [isWhite_of_closes hcloses]), List.reverse_cons,
      List.reverse_reverse]
  rw [Text.trim, hstart, hend, String.ofList_toList]

/-! ## Constructs of a file -/

theorem Forest.leaves_gist (f : Forest Mark Token) :
    f.gist.leaves = significant (f.leaves.map Token.lexeme) := by
  induction f with
  | nil => rfl
  | leaf t next ih =>
    rw [gist, leaves, List.map_cons, significant, List.filter_cons]
    have ht : t.lexeme.isTrivia = t.isTrivia := rfl
    rw [ht]
    cases t.isTrivia with
    | true => exact ih
    | false => exact congrArg (t.lexeme :: ·) ih
  | node mark inside next ihi ihn =>
    rw [gist, leaves, leaves, List.map_append, significant_append, ihi, ihn]

structure SnugLexemes (ls : List Lexeme) : Prop where
  head : ∃ t, ls.head? = some t ∧ t.isTrivia = false
  last : ∃ t, ls.getLast? = some t ∧ t.isTrivia = false

namespace SnugLexemes

variable {ls : List Lexeme} (h : SnugLexemes ls)
include h

theorem head?_significant : (significant ls).head? = ls.head? := by
  obtain ⟨t, ht, hsig⟩ := h.head
  obtain ⟨ms, rfl⟩ := List.head?_eq_some_iff.mp ht
  simp [significant, hsig]

theorem getLast?_significant : (significant ls).getLast? = ls.getLast? := by
  obtain ⟨t, ht, hsig⟩ := h.last
  obtain ⟨ms, rfl⟩ := List.getLast?_eq_some_iff.mp ht
  simp [significant, hsig]

theorem eq_of_significant_eq_singleton (hl : significant ls = [l]) : ls = [l] := by
  have hhead := h.head?_significant
  have hlast := h.getLast?_significant
  obtain ⟨t, ht, hsig⟩ := h.last
  rw [hl] at hhead hlast
  obtain ⟨ms, rfl⟩ := List.head?_eq_some_iff.mp hhead.symm
  rcases List.eq_nil_or_concat ms with rfl | ⟨rest, u, rfl⟩
  · rfl
  · -- a second significant lexeme at the end
    rw [List.concat_eq_append] at ht hl
    have hu : u = t := by simpa [List.getLast?_cons] using ht
    have hlength := congrArg List.length hl
    rw [significant, List.filter_cons, List.filter_append, hu] at hlength
    have hhead : l.isTrivia = false := isTrivia_of_mem_significant (hl ▸ List.mem_singleton_self l)
    simp [hsig, hhead] at hlength

end SnugLexemes

def Node.lexemes (n : Node) : List Lexeme := n.inside.leaves.map Token.lexeme

theorem Node.significant_lexemes (n : Node) : significant n.lexemes = n.inside.gist.leaves :=
  (Forest.leaves_gist n.inside).symm

namespace SchemaFile

variable (file : SchemaFile) {n : Node}

theorem spelling_of_construct (hn : n ∈ file.root.inside.preorder) (hkind : n.kind ≠ .error) :
    (∀ l ∈ n.lexemes, l ∈ SchemaLang.lexemes file.source) ∧ SnugLexemes n.lexemes ∧
      (file.text n).toList = characters n.lexemes := by
  obtain ⟨lead, others, hl, -, htext, hlead⟩ := file.exists_leading_of_mem_preorder n hn
  obtain ⟨before, inside, after, hat, hin, -⟩ := file.exists_placed n hn
  have hleaves : n.lexemes = inside.leaves := by
    rw [Node.lexemes, hin, (leaves_locate _ _ _).1, lexeme_tokensFrom]
  have hothers : n.inside.leaves = others := by rw [hl, hlead hkind, List.nil_append]
  rw [hleaves]
  refine ⟨fun l hmem => ?_, ?_, ?_⟩
  · rw [← leaves_placedRow, hat.leaves_eq]
    simp [hmem]
  · have hsnug := (snug_placedRow file.source).at hat
    cases hshape : n.mark.shape with
    | construct kind complete =>
      rw [hshape] at hsnug
      exact ⟨hsnug.1, hsnug.2⟩
    | skipped fault => exact absurd (by rw [Node.kind, hshape]; rfl) hkind
  · rw [← htext, ← hothers, hin, (leaves_locate _ _ _).1, text_tokensFrom, String.toList_ofList]

theorem text_of_leaves_eq_singleton (hn : n ∈ file.root.inside.preorder) (hkind : n.kind ≠ .error)
    (h : n.inside.gist.leaves = [l]) :
    l ∈ SchemaLang.lexemes file.source ∧ file.text n = l.text := by
  obtain ⟨hmem, hsnug, htext⟩ := file.spelling_of_construct hn hkind
  rw [← n.significant_lexemes] at h
  rw [hsnug.eq_of_significant_eq_singleton h] at hmem htext
  refine ⟨hmem l (List.mem_singleton_self l), String.toList_inj.mp ?_⟩
  rw [htext]
  simp [characters]

/-- A construct without blanks and comments is spelled by its significant lexemes. -/
theorem text_of_solid (hn : n ∈ file.root.inside.preorder) (hkind : n.kind ≠ .error)
    (hsolid : ∀ t ∈ n.inside.leaves, t.isTrivia = false) :
    (file.text n).toList = characters n.inside.gist.leaves := by
  have hall : significant n.lexemes = n.lexemes := by
    rw [significant, List.filter_eq_self]
    intro l hl
    obtain ⟨t, ht, rfl⟩ := List.mem_map.mp hl
    simpa [Lexeme.isTrivia, Token.isTrivia, Token.lexeme] using hsolid t ht
  rw [← n.significant_lexemes, hall, (file.spelling_of_construct hn hkind).2.2]

/-- The first and the last significant lexeme give a construct its first and last character. -/
theorem ends_of_construct (hn : n ∈ file.root.inside.preorder) (hkind : n.kind ≠ .error) :
    (file.text n).toList.head? =
        n.inside.gist.leaves.head?.bind (fun l => l.text.toList.head?) ∧
      (file.text n).toList.getLast? =
        n.inside.gist.leaves.getLast?.bind (fun l => l.text.toList.getLast?) := by
  obtain ⟨hmem, hsnug, htext⟩ := file.spelling_of_construct hn hkind
  rw [← n.significant_lexemes, hsnug.head?_significant, hsnug.getLast?_significant, htext]
  constructor
  · obtain ⟨t, ht, hsig⟩ := hsnug.head
    obtain ⟨ms, hms⟩ := List.head?_eq_some_iff.mp ht
    obtain ⟨c, hc, -⟩ := head_of_mem_lexemes (hmem t (by simp [hms])) hsig
    simp [hms, characters, List.head?_append, hc]
  · obtain ⟨t, ht, hsig⟩ := hsnug.last
    obtain ⟨ms, hms⟩ := List.getLast?_eq_some_iff.mp ht
    obtain ⟨c, hc, -⟩ := head_of_mem_lexemes (hmem t (by simp [hms])) hsig
    have hne : t.text.toList ≠ [] := fun hnil => by simp [hnil] at hc
    obtain ⟨d, hd⟩ : ∃ d, t.text.toList.getLast? = some d :=
      ⟨_, List.getLast?_eq_some_getLast hne⟩
    simp [hms, characters, List.getLast?_append, hd]

end SchemaFile

end SchemaLang
