import SchemaLang.Diagnostic
import SchemaLang.Proofs.Lookup
import SchemaLang.Proofs.NamedTags
import SchemaLang.Proofs.Seams

/-!
# Texts with other names for arguments

Fixes that put a name in place of a name are applied to a text all at once. The
new text has the same lexemes with the new names among them: in front of a name
of an argument stands nothing that the new name could carry on, and nothing
behind it carries the new name on.
-/

set_option autoImplicit false

namespace SchemaLang

/-! ## Applying fixes -/

namespace SuggestedFix

def startsAt (offset : Nat) (fix : SuggestedFix) : Bool := fix.range.start == offset

def insertion (fixes : List SuggestedFix) (offset : Nat) : List Char :=
  ((fixes.find? (startsAt offset)).map fun fix => fix.replacement.toList).getD []

def respell (fixes : List SuggestedFix) : Nat → List Char → List Char
  | offset, [] => insertion fixes offset
  | offset, c :: cs =>
    insertion fixes offset ++
      ((if fixes.any (·.range.contains offset) then [] else [c]) ++
        respell fixes (offset + c.utf8Size) cs)

def apply (fixes : List SuggestedFix) (source : String) : String :=
  String.ofList (respell fixes 0 source.toList)

def spelling (fixes : List SuggestedFix) (t : Token) : Lexeme :=
  ⟨t.kind, ((fixes.find? (startsAt t.start)).map SuggestedFix.replacement).getD t.text⟩

variable {fixes : List SuggestedFix} {offset : Nat}

theorem insertion_eq_nil (h : ∀ fix ∈ fixes, fix.range.start ≠ offset) :
    insertion fixes offset = [] := by
  have hnone : fixes.find? (startsAt offset) = none :=
    List.find?_eq_none.mpr fun fix hfix => by simpa [startsAt] using h fix hfix
  rw [insertion, hnone]
  rfl

def Apart (fix : SuggestedFix) (offset stop : Nat) : Prop :=
  fix.range.start < fix.range.stop ∧ (fix.range.stop ≤ offset ∨ stop ≤ fix.range.start)

theorem respell_kept {u : List Char}
    (h : ∀ fix ∈ fixes, fix.Apart offset (offset + String.utf8Len u)) (rest : List Char) :
    respell fixes offset (u ++ rest) = u ++ respell fixes (offset + String.utf8Len u) rest := by
  induction u generalizing offset with
  | nil => rfl
  | cons c u ih =>
    have hsize := c.utf8Size_pos
    rw [String.utf8Len_cons] at h ⊢
    have hinsertion : insertion fixes offset = [] := insertion_eq_nil fun fix hfix heq => by
      obtain ⟨hlt, hstop | hstart⟩ := h fix hfix <;> omega
    have hcovered : fixes.any (·.range.contains offset) = false := by
      rw [List.any_eq_false]
      intro fix hfix
      obtain ⟨hlt, hstop | hstart⟩ := h fix hfix <;>
        simp only [Span.contains, Bool.and_eq_true, decide_eq_true_eq, not_and] <;> omega
    rw [List.cons_append, respell, hinsertion, hcovered, ih]
    · simp [Nat.add_assoc, Nat.add_comm]
    · intro fix hfix
      obtain ⟨hlt, hstop | hstart⟩ := h fix hfix
      · exact ⟨hlt, .inl (by omega)⟩
      · exact ⟨hlt, .inr (by omega)⟩

/-- Characters that are in a range go, as far as no other range begins among them. -/
theorem respell_dropped {u : List Char} {fix : SuggestedFix} (hfix : fix ∈ fixes)
    (hstart : fix.range.start < offset) (hstop : offset + String.utf8Len u ≤ fix.range.stop)
    (h : ∀ other ∈ fixes, other.range.start < offset ∨
      offset + String.utf8Len u ≤ other.range.start) (rest : List Char) :
    respell fixes offset (u ++ rest) = respell fixes (offset + String.utf8Len u) rest := by
  induction u generalizing offset with
  | nil => rfl
  | cons c u ih =>
    have hsize := c.utf8Size_pos
    rw [String.utf8Len_cons] at h hstop ⊢
    have hinsertion : insertion fixes offset = [] := insertion_eq_nil fun other hother heq => by
      rcases h other hother with hother | hother <;> omega
    have hcovered : fixes.any (·.range.contains offset) = true := by
      refine List.any_eq_true.mpr ⟨fix, hfix, ?_⟩
      simp only [Span.contains, Bool.and_eq_true, decide_eq_true_eq]
      omega
    rw [List.cons_append, respell, hinsertion, hcovered, ih]
    · simp [Nat.add_assoc, Nat.add_comm]
    · omega
    · omega
    · intro other hother
      rcases h other hother with hother | hother
      · exact .inl (by omega)
      · exact .inr (by omega)

def Covers (start : Nat) (ls : List Lexeme) (fix : SuggestedFix) : Prop :=
  (fix.range.start < fix.range.stop ∧ fix.range.stop ≤ start) ∨
    ∃ t ∈ tokensFrom start ls, fix.range = ⟨t.start, t.stop⟩

theorem Covers.next {start : Nat} {l : Lexeme} {ls : List Lexeme} {fix : SuggestedFix}
    (hl : 0 < l.size) (h : Covers start (l :: ls) fix) : Covers (start + l.size) ls fix := by
  rcases h with ⟨hlt, hle⟩ | ⟨t, ht, hrange⟩
  · exact .inl ⟨hlt, by omega⟩
  · rcases List.mem_cons.mp ht with rfl | ht
    · left
      rw [hrange]
      exact ⟨Nat.lt_add_of_pos_right hl, Nat.le_refl _⟩
    · exact .inr ⟨t, ht, hrange⟩

section Front

variable {start : Nat} {l : Lexeme} {ls : List Lexeme} {fix : SuggestedFix}
  (hls : ∀ k ∈ ls, 0 < k.size) (h : ∀ fix ∈ fixes, Covers start (l :: ls) fix)

include hls in
theorem behind_of_mem_tokensFrom {t : Token} (ht : t ∈ tokensFrom (start + l.size) ls) :
    start + l.size ≤ t.start ∧ t.start < t.stop :=
  ⟨start_le_of_mem_tokensFrom _ _ t ht, (ascending_tokensFrom _ ls hls).2 t ht⟩

include hls h

/-- A lexeme at which no fix begins stays. -/
theorem respell_unfixed (hfound : fixes.find? (startsAt start) = none) (rest : List Char) :
    respell fixes start (l.text.toList ++ rest) =
      l.text.toList ++ respell fixes (start + l.size) rest := by
  rw [respell_kept, utf8Len_text]
  intro fix hfix
  rcases h fix hfix with ⟨hlt, hle⟩ | ⟨t, ht, hrange⟩
  · exact ⟨hlt, .inl hle⟩
  · have hstart : fix.range.start ≠ start := by
      simpa [startsAt] using List.find?_eq_none.mp hfound fix hfix
    rcases List.mem_cons.mp ht with rfl | ht
    · exact absurd (by rw [hrange]) hstart
    · obtain ⟨hle, hlt⟩ := behind_of_mem_tokensFrom hls ht
      rw [utf8Len_text, Apart, hrange]
      exact ⟨hlt, .inr hle⟩

theorem range_of_find? (hl : 0 < l.size)
    (hfound : fixes.find? (startsAt start) = some fix) :
    fix.range = ⟨start, start + l.size⟩ := by
  have hstart : fix.range.start = start := by
    simpa [startsAt] using List.find?_some hfound
  rcases h fix (List.mem_of_find?_eq_some hfound) with ⟨hlt, hle⟩ | ⟨t, ht, hrange⟩
  · omega
  · rcases List.mem_cons.mp ht with rfl | ht
    · exact hrange
    · have hle := (behind_of_mem_tokensFrom hls ht).1
      rw [hrange] at hstart
      have hstart : t.start = start := hstart
      omega

/-- A lexeme at which a fix begins is replaced. -/
theorem respell_fixed (hl : 0 < l.size) (hfound : fixes.find? (startsAt start) = some fix)
    (rest : List Char) : respell fixes start (l.text.toList ++ rest) =
      fix.replacement.toList ++ respell fixes (start + l.size) rest := by
  have hfix := List.mem_of_find?_eq_some hfound
  have hrange := range_of_find? hls h hl hfound
  have hinsertion : insertion fixes start = fix.replacement.toList := by
    rw [insertion, hfound]
    rfl
  have hcovered : fixes.any (·.range.contains start) = true := by
    refine List.any_eq_true.mpr ⟨fix, hfix, ?_⟩
    simp only [hrange, Span.contains, Bool.and_eq_true, decide_eq_true_eq]
    omega
  have hlen := utf8Len_text l
  cases htext : l.text.toList with
  | nil =>
    rw [htext] at hlen
    exact absurd hl (by rw [← hlen]; decide)
  | cons c u =>
    rw [htext, String.utf8Len_cons] at hlen
    have hsize := c.utf8Size_pos
    rw [List.cons_append, respell, hinsertion, hcovered, respell_dropped hfix]
    · rw [← hlen]
      simp [Nat.add_assoc, Nat.add_comm]
    · rw [hrange]
      exact Nat.lt_add_of_pos_right hsize
    · rw [hrange, ← hlen]
      show start + c.utf8Size + String.utf8Len u ≤ start + (String.utf8Len u + c.utf8Size)
      omega
    · intro other hother
      rcases h other hother with ⟨hlt, hle⟩ | ⟨t, ht, hother⟩
      · exact .inl (by omega)
      · rw [hother]
        rcases List.mem_cons.mp ht with rfl | ht
        · exact .inl (Nat.lt_add_of_pos_right hsize)
        · have hle := (behind_of_mem_tokensFrom hls ht).1
          exact .inr (show start + c.utf8Size + String.utf8Len u ≤ t.start by omega)

end Front

/-- Fixes over whole tokens change these tokens and no other character. -/
theorem respell_characters {start : Nat} {ls : List Lexeme} (hsizes : ∀ l ∈ ls, 0 < l.size)
    (h : ∀ fix ∈ fixes, Covers start ls fix) :
    respell fixes start (characters ls) =
      characters ((tokensFrom start ls).map (spelling fixes)) := by
  induction ls generalizing start with
  | nil =>
    refine insertion_eq_nil fun fix hfix heq => ?_
    rcases h fix hfix with ⟨hlt, hle⟩ | ⟨t, ht, -⟩
    · omega
    · cases ht
  | cons l ls ih =>
    obtain ⟨hl, hls⟩ := List.forall_mem_cons.mp hsizes
    have hnext := ih hls fun fix hfix => (h fix hfix).next hl
    rw [tokensFrom, List.map_cons]
    show respell fixes start (l.text.toList ++ characters ls) =
      (spelling fixes ⟨l.kind, l.text, start⟩).text.toList ++
        characters ((tokensFrom (start + l.size) ls).map (spelling fixes))
    rw [← hnext]
    cases hfound : fixes.find? (startsAt start) with
    | none =>
      have hspelling : spelling fixes ⟨l.kind, l.text, start⟩ = l := by
        rw [spelling, hfound]
        rfl
      rw [hspelling, respell_unfixed hls h hfound]
    | some fix =>
      have hspelling : (spelling fixes ⟨l.kind, l.text, start⟩).text = fix.replacement := by
        rw [spelling, hfound]
        rfl
      rw [hspelling, respell_fixed hls h hl hfound]

/-- Fixes over whole tokens of a text change these tokens alone. -/
theorem toList_apply {source : String}
    (h : ∀ fix ∈ fixes, ∃ t ∈ tokenize source, fix.range = ⟨t.start, t.stop⟩) :
    (apply fixes source).toList = characters ((tokenize source).map (spelling fixes)) := by
  rw [apply, String.toList_ofList, ← characters_lexemes source]
  exact respell_characters (size_pos_of_mem_scan source.toList) fun fix hfix => .inr (h fix hfix)

end SuggestedFix

/-! ## Scanning the new text -/

/-- Of two neighbours, each with what became of it: in front of what changed stands no
name, and behind it blanks, a comment or `=`. -/
structure Neighbours (p q : Lexeme × Lexeme) : Prop where
  front : q.1 ≠ q.2 → p.1.kind ≠ .identifier ∧ p.1.kind ≠ .boolean
  behind : p.1 ≠ p.2 → q.1 = q.2 ∧ (q.1.isTrivia = true ∨ q.1.kind = .equals)

theorem Neighbours.of_same {p q : Lexeme × Lexeme} (hp : p.1 = p.2) (hq : q.1 = q.2) :
    Neighbours p q := ⟨fun h => absurd hq h, fun h => absurd hp h⟩

def Linked (ps : List (Lexeme × Lexeme)) : Prop :=
  ps.IsChain Neighbours ∧ ∀ p, ps.head? = some p → p.1 = p.2

theorem Linked.cons {p : Lexeme × Lexeme} {ps : List (Lexeme × Lexeme)} (hp : p.1 = p.2)
    (h : Linked ps) : Linked (p :: ps) := by
  refine ⟨?_, fun q hq => Option.some.inj hq ▸ hp⟩
  cases ps with
  | nil => exact .singleton p
  | cons q ps => exact .cons_cons (.of_same hp (h.2 q rfl)) h.1

/-- Names of arguments stand between neighbours that leave them alone. -/
theorem Respelt.linked {ps : List (Lexeme × Lexeme)}
    (h : Respelt (ps.map Prod.fst) (ps.map Prod.snd)) : Linked ps := by
  generalize hls : ps.map Prod.fst = ls, hls' : ps.map Prod.snd = ls' at h
  induction h generalizing ps with
  | nil =>
    obtain rfl := List.map_eq_nil_iff.mp hls
    exact ⟨.nil, by simp⟩
  | same l h ih =>
    obtain ⟨p, ps, rfl, hp, hps⟩ := List.map_eq_cons_iff.mp hls
    obtain ⟨hp', hps'⟩ := List.cons.inj hls'
    exact (ih hps hps').cons (hp.trans hp'.symm)
  | @name opener name name' mark ls ls' hopener hname hname' hmark h ih =>
    obtain ⟨p, ps, rfl, hp, hps⟩ := List.map_eq_cons_iff.mp hls
    obtain ⟨q, ps, rfl, hq, hps⟩ := List.map_eq_cons_iff.mp hps
    obtain ⟨r, ps, rfl, hr, hps⟩ := List.map_eq_cons_iff.mp hps
    simp only [List.map_cons, List.cons.injEq] at hls'
    obtain ⟨hp', hq', hr', hps'⟩ := hls'
    have hsame : r.1 = r.2 := hr.trans hr'.symm
    obtain ⟨hchain, -⟩ := (ih hps hps').cons hsame
    refine ⟨.cons_cons ⟨fun _ => ?_, fun hne => absurd (hp.trans hp'.symm) hne⟩
      (.cons_cons ⟨fun hne => absurd hsame hne, fun _ => ⟨hsame, .inr (hr ▸ hmark)⟩⟩ hchain),
      fun s hs => ?_⟩
    · rw [hp]
      rcases hopener with hopener | hopener <;> simp [hopener]
    · rw [← Option.some.inj hs]
      exact hp.trans hp'.symm

/-- Blanks and comments between them stay, so neighbours in the whole text are so too. -/
theorem isChain_of_significant {ps : List (Lexeme × Lexeme)}
    (hsame : ∀ p ∈ ps, p.1.isTrivia = true → p.1 = p.2)
    (h : (ps.filter (fun p => !p.1.isTrivia)).IsChain Neighbours) : ps.IsChain Neighbours := by
  induction ps with
  | nil => exact .nil
  | cons p ps ih =>
    obtain ⟨hp, hps⟩ := List.forall_mem_cons.mp hsame
    have hrest : ps.IsChain Neighbours := by
      apply ih hps
      rw [List.filter_cons] at h
      split at h
      · exact h.tail
      · exact h
    cases ps with
    | nil => exact .singleton p
    | cons q ps =>
      refine .cons_cons ?_ hrest
      by_cases hptrivia : p.1.isTrivia = true
      · refine ⟨fun _ => ?_, fun hne => absurd (hp hptrivia) hne⟩
        constructor <;> intro hkind <;>
          simp [Lexeme.isTrivia, hkind, TokenKind.isTrivia] at hptrivia
      by_cases hqtrivia : q.1.isTrivia = true
      · have hq := (List.forall_mem_cons.mp hps).1 hqtrivia
        exact ⟨fun hne => absurd hq hne, fun _ => ⟨hq, .inl hqtrivia⟩⟩
      · rw [List.filter_cons_of_pos (by simpa using hptrivia),
          List.filter_cons_of_pos (by simpa using hqtrivia)] at h
        exact (List.isChain_cons_cons.mp h).1

/-! ## The new lexemes -/

namespace Scan

theorem not_digit_of_leads {x : Char} (hx : leadsName x = true) : x.isDigit = false := by
  by_contra hdigit
  rw [Bool.not_eq_false, isDigit_iff] at hdigit
  simp only [leadsName, startsName, Bool.or_eq_true, isAlpha_iff, isUpper_iff, isLower_iff,
    beq_iff_eq] at hx
  have hhigh : x.val.toNat ≤ 57 := hdigit.2
  rcases hx with ((⟨hlow, -⟩ | ⟨hlow, -⟩) | rfl) | rfl
  · have hlow : 65 ≤ x.val.toNat := hlow
    omega
  · have hlow : 97 ≤ x.val.toNat := hlow
    omega
  · revert hhigh
    decide
  · revert hdigit
    decide

theorem Seam.kindSeam {rest rest' : List Char} (h : Seam rest rest') {kind : TokenKind}
    (hname : kind ≠ .identifier) (hword : kind ≠ .boolean) : KindSeam kind rest rest' := by
  cases kind with
  | identifier => exact absurd rfl hname
  | boolean => exact absurd rfl hword
  | _ => exact h

theorem seam_of_leads {rest rest' : List Char} {x x' : Char} (h : rest.head? = some x)
    (h' : rest'.head? = some x') (hx : leadsName x = true) (hx' : leadsName x' = true) :
    Seam rest rest' := by
  have hnever {p : Char → Bool} (hp : p x' = false) : Admits p rest rest' := by
    intro hany
    rw [h', Option.any_some, hp] at hany
    cases hany
  refine ⟨hnever (not_white_of_leads hx'), hnever (not_digit_of_leads hx'), hnever ?_, ?_, ?_⟩
  · rw [Bool.or_eq_false_iff, beq_eq_false_iff_ne, beq_eq_false_iff_ne]
    constructor <;> rintro rfl <;> revert hx' <;> decide
  · intro _
    rw [h, Option.any_some, bne_iff_ne]
    rintro rfl
    revert hx
    decide
  · intro hnil
    rw [hnil] at h
    cases h

theorem nameSeam_of_not_name {rest rest' : List Char} {x : Char} (h : rest'.head? = some x)
    (hx : leadsName x = false) (hdigit : x.isDigit = false) : NameSeam rest rest' := by
  rw [leadsName, Bool.or_eq_false_iff] at hx
  have hnever {p : Char → Bool} (hp : p x = false) : Admits p rest rest' := by
    intro hany
    rw [h, Option.any_some, hp] at hany
    cases hany
  refine ⟨hnever hx.1, hnever ?_⟩
  have hstarts := hx.1
  rw [startsName, Bool.or_eq_false_iff] at hstarts
  rw [Bool.or_eq_false_iff, continuesName, Char.isAlphanum, hstarts.1, hdigit, hstarts.2]
  exact ⟨rfl, hx.2⟩

/-- Blanks, comments and `=` begin with nothing that a name has in it. -/
theorem head_of_lead {x : Char} {cs : List Char}
    (h : (lead x cs).1 ∈ [.whitespace, .comment, .equals]) :
    leadsName x = false ∧ x.isDigit = false := by
  have hleads : leadsName x = false := by
    by_contra hleads
    rw [Bool.not_eq_false] at hleads
    rw [lead_of_leads hleads] at h
    split at h <;> simp at h
  refine ⟨hleads, ?_⟩
  by_contra hdigit
  rw [Bool.not_eq_false] at hdigit
  have hwhite : Text.isWhite x = false :=
    isWhite_of_spellsName (by simp [spellsName, continuesName, Char.isAlphanum, hdigit])
  have hcomment : commentTail? x cs = none := by
    unfold commentTail?
    apply if_neg
    rintro rfl
    revert hdigit
    decide
  rw [lead_of_not_leads hleads, hwhite, hcomment] at h
  simp [hdigit] at h

end Scan

open Scan

theorem IsName.endsBefore {name : String} (h : IsName name) :
    ∃ rest, (⟨.identifier, name⟩ : Lexeme).EndsBefore rest := by
  obtain ⟨source, l, hl, hkind, rfl⟩ := h
  obtain ⟨ls, ms, hsplit⟩ := List.append_of_mem hl
  have hscan := scan_characters source.toList ls (l :: ms) hsplit
  rw [← hkind]
  exact ⟨_, (endsBefore_of_scan hscan).1⟩

/-- A name changes nothing before it, and what follows the old name also ends the new one. -/
theorem endsBefore_renamed {p : Lexeme × Lexeme} {ps : List (Lexeme × Lexeme)}
    (hchain : (p :: ps).IsChain Neighbours)
    (hscan : scan (characters ((p :: ps).map Prod.fst)) = (p :: ps).map Prod.fst)
    (hnames : ∀ q ∈ p :: ps, q.1 ≠ q.2 →
      IsName q.1.text ∧ q.2.kind = .identifier ∧ IsName q.2.text) :
    p.2.EndsBefore (characters (ps.map Prod.snd)) := by
  obtain ⟨hends, hrest⟩ := endsBefore_of_scan hscan
  have hhead {q : Lexeme} {c : Char} (h : q.text.toList.head? = some c) (qs : List Lexeme) :
      (characters (q :: qs)).head? = some c := by
    show (q.text.toList ++ characters qs).head? = _
    rw [List.head?_append, h]
    rfl
  by_cases hsame : p.1 = p.2
  · rw [← hsame]
    apply hends.seam
    cases ps with
    | nil => exact kindSeam_nil _ _
    | cons q ps =>
      obtain ⟨⟨x, u, htext, -⟩, -⟩ := endsBefore_of_scan hrest
      by_cases hq : q.1 = q.2
      · apply kindSeam_of_head?
        have hx : q.1.text.toList.head? = some x := by rw [htext]; rfl
        rw [List.map_cons, List.map_cons, hhead hx, hhead (hq ▸ hx)]
      · obtain ⟨hidentifier, hboolean⟩ := (List.isChain_cons_cons.mp hchain).1.front hq
        obtain ⟨hname, -, hname'⟩ := hnames q (by simp) hq
        obtain ⟨c, hc, hleads⟩ := hname.exists_head
        obtain ⟨c', hc', hleads'⟩ := hname'.exists_head
        exact (seam_of_leads (hhead hc _) (hhead hc' _) hleads hleads').kindSeam hidentifier
          hboolean
  · obtain ⟨-, hkind, hname⟩ := hnames p List.mem_cons_self hsame
    obtain ⟨rest, hwhole⟩ := hname.endsBefore
    have hwhole : p.2.EndsBefore rest := by rwa [← hkind] at hwhole
    apply hwhole.seam
    rw [hkind]
    cases ps with
    | nil => exact nameSeam_nil _
    | cons q ps =>
      obtain ⟨hq, hends⟩ := (List.isChain_cons_cons.mp hchain).1.behind hsame
      obtain ⟨⟨x, u, htext, hlead⟩, -⟩ := endsBefore_of_scan hrest
      have hends : (lead x (u ++ characters (ps.map Prod.fst))).1 ∈
          [.whitespace, .comment, .equals] := by
        rw [hlead]
        rcases hends with htrivia | hequals
        · cases hkind : q.1.kind <;>
            simp [Lexeme.isTrivia, TokenKind.isTrivia, hkind] at htrivia ⊢
        · simp [hequals]
      obtain ⟨hleads, hdigit⟩ := head_of_lead hends
      refine nameSeam_of_not_name (hhead ?_ _) hleads hdigit
      rw [← hq, htext]
      rfl

/-- Names in place of names leave the other lexemes alone, and stay whole themselves. -/
theorem scan_renamed {ps : List (Lexeme × Lexeme)} (hchain : ps.IsChain Neighbours)
    (hscan : scan (characters (ps.map Prod.fst)) = ps.map Prod.fst)
    (hnames : ∀ p ∈ ps, p.1 ≠ p.2 → IsName p.1.text ∧ p.2.kind = .identifier ∧ IsName p.2.text) :
    scan (characters (ps.map Prod.snd)) = ps.map Prod.snd := by
  induction ps with
  | nil => simp [characters, scan]
  | cons p ps ih =>
    have hends := endsBefore_renamed hchain hscan hnames
    have hrest := (endsBefore_of_scan hscan).2
    show scan (p.2.text.toList ++ characters (ps.map Prod.snd)) = _
    rw [hends.scan_append, ih hchain.tail hrest (List.forall_mem_cons.mp hnames).2]
    rfl

/-- Names of arguments may be replaced in a text without any other lexeme noticing. -/
theorem lexemes_respelt {source : String} {ps : List (Lexeme × Lexeme)}
    (hscan : lexemes source = ps.map Prod.fst)
    (hnames : ∀ p ∈ ps, p.1 ≠ p.2 →
      p.1.kind = .identifier ∧ p.2.kind = .identifier ∧ IsName p.2.text)
    (hspelling : Respelt (significant (ps.map Prod.fst)) (significant (ps.map Prod.snd))) :
    lexemes (String.ofList (characters (ps.map Prod.snd))) = ps.map Prod.snd := by
  have hkinds (p : Lexeme × Lexeme) (hp : p ∈ ps) : p.2.kind = p.1.kind := by
    by_cases hsame : p.1 = p.2
    · rw [hsame]
    · obtain ⟨hkind, hkind', -⟩ := hnames p hp hsame
      rw [hkind, hkind']
  have htrivia (p : Lexeme × Lexeme) (hp : p ∈ ps) (htrivia : p.1.isTrivia = true) :
      p.1 = p.2 := by
    by_contra hsame
    rw [Lexeme.isTrivia, (hnames p hp hsame).1] at htrivia
    cases htrivia
  have hsignificant : significant (ps.map Prod.snd) =
      (ps.filter (fun p => !p.1.isTrivia)).map Prod.snd := by
    rw [significant, List.filter_map]
    refine congrArg (List.map Prod.snd) (List.filter_congr fun p hp => ?_)
    simp [Lexeme.isTrivia, hkinds p hp]
  have hchain : ps.IsChain Neighbours := by
    apply isChain_of_significant htrivia
    rw [hsignificant, significant, List.filter_map] at hspelling
    exact hspelling.linked.1
  rw [lexemes, String.toList_ofList]
  refine scan_renamed hchain ?_ fun p hp hsame => ?_
  · rw [← hscan, characters_lexemes]
    rfl
  · obtain ⟨hkind, hkind', hname⟩ := hnames p hp hsame
    refine ⟨⟨source, p.1, ?_, hkind, rfl⟩, hkind', hname⟩
    rw [hscan]
    exact List.mem_map_of_mem hp

end SchemaLang
