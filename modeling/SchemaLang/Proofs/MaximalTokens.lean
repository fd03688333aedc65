import Mathlib.Data.List.Chain
import SchemaLang.Proofs.Seams

/-!
# Tokens go as far as they can

A rule ends its lexeme where nothing carries it on, and the next lexeme begins with the
character that stands there. So a run of blanks is never cut in two, nor is a run of
digits, and a word that is no name keeps away from names. Two names meet in one place
only: the first ends with a dot that no segment follows, and the second begins with one.
-/

set_option autoImplicit false

namespace SchemaLang

namespace Scan

/-- A name ends where nothing of a name comes next, or with a dot that no segment follows. -/
theorem nameTail_ends {u rest : List Char} (h : nameTail (u ++ rest) = u.length) :
    rest.head?.any spellsName = false ∨
      u.getLast? = some '.' ∧ rest.head?.any startsName = false := by
  induction u with
  | nil => exact .inl (nameTail_eq_zero_iff.mp h)
  | cons x u ih =>
    have hlater (h : nameTail (u ++ rest) = u.length) : rest.head?.any spellsName = false ∨
        (x :: u).getLast? = some '.' ∧ rest.head?.any startsName = false := by
      refine (ih h).imp_right fun ⟨hdot, hrest⟩ => ⟨?_, hrest⟩
      rw [List.getLast?_cons, hdot]
      rfl
    rw [List.cons_append, nameTail, List.length_cons] at h
    split at h
    · exact hlater (Nat.succ.inj h)
    split at h
    · rename_i hdot
      split at h
      · exact hlater (Nat.succ.inj h)
      · -- the dot stands at the end
        rename_i hsegment
        obtain rfl : u = [] := List.eq_nil_of_length_eq_zero (Nat.succ.inj h).symm
        exact .inr ⟨by rw [hdot]; rfl, by simpa using hsegment⟩
    · cases h

end Scan

open Scan

/-! ## Where lexemes end and begin -/

namespace Lexeme.EndsBefore

variable {l : Lexeme} {rest : List Char} (h : l.EndsBefore rest)
include h

/-- What a rule takes by the run is followed by nothing of the sort. -/
theorem any_eq_false_of_run {p : Char → Bool}
    (hrun : ∀ x cs, (lead x cs).1 = l.kind → (lead x cs).2 = runLength p cs) :
    rest.head?.any p = false := by
  obtain ⟨x, u, -, hlead⟩ := h
  have htail := hrun x (u ++ rest) (by rw [hlead])
  rw [hlead] at htail
  exact (runLength_eq_length_iff.mp htail.symm).2

theorem white (hkind : l.kind = .whitespace) : rest.head?.any Text.isWhite = false :=
  h.any_eq_false_of_run fun _ _ hlead => (lead_whitespace (hlead.trans hkind)).2

theorem digits (hkind : l.kind = .integer) : rest.head?.any Char.isDigit = false :=
  h.any_eq_false_of_run fun _ _ hlead => (lead_integer (hlead.trans hkind)).2

theorem boolean (hkind : l.kind = .boolean) :
    IsBoolean l.text.toList ∧ rest.head?.any spellsName = false := by
  obtain ⟨x, u, htext, hlead⟩ := h
  rw [hkind] at hlead
  rcases lead_word x (u ++ rest) with hother | ⟨n, hn, hword⟩ | ⟨n, -, -, hname⟩ | ⟨-, hother⟩
  · simp [hlead] at hother
  · obtain ⟨-, rfl⟩ := Prod.mk.inj (hword.symm.trans hlead)
    rw [htext]
    exact booleanTail?_eq_some_iff.mp hn
  · cases hname.symm.trans hlead
  · simp [hlead] at hother

theorem identifier (hkind : l.kind = .identifier) : rest.head?.any spellsName = false ∨
    l.text.toList.getLast? = some '.' ∧ rest.head?.any startsName = false := by
  obtain ⟨x, u, htext, hlead⟩ := h
  rw [hkind] at hlead
  rcases lead_word x (u ++ rest) with hother | ⟨n, -, hword⟩ | ⟨n, -, hn, hname⟩ | ⟨-, hother⟩
  · simp [hlead] at hother
  · cases hword.symm.trans hlead
  · obtain ⟨-, rfl⟩ := Prod.mk.inj (hname.symm.trans hlead)
    rw [htext]
    exact nameTail_ends (u := x :: u) (nameTail?_eq_some_iff.mp hn).2
  · simp [hlead] at hother

/-- What the first character of a lexeme tells of its kind. -/
theorem exists_head : ∃ x, l.text.toList.head? = some x ∧
    (l.kind = .whitespace → Text.isWhite x = true) ∧ (l.kind = .integer → x.isDigit = true) ∧
      (l.kind = .boolean → startsName x = true) ∧ (l.kind = .identifier → leadsName x = true) := by
  obtain ⟨x, u, htext, hlead⟩ := h
  have hkind : (lead x (u ++ rest)).1 = l.kind := by rw [hlead]
  refine ⟨x, by rw [htext]; rfl, fun hk => ?_, fun hk => ?_, fun hk => ?_, fun hk => ?_⟩ <;>
    rw [hk] at hkind
  · exact (lead_whitespace hkind).1
  · exact (lead_integer hkind).1
  · exact startsName_of_isAlpha ((lead_of_boolean hkind).isAlpha x List.mem_cons_self)
  · exact (lead_of_identifier hkind).1

end Lexeme.EndsBefore

/-! ## Lexemes side by side -/

structure Lexeme.Apart (l m : Lexeme) : Prop where
  blanks : l.kind = .whitespace → m.kind ≠ .whitespace
  digits : l.kind = .integer → m.kind ≠ .integer
  words : l.kind ∈ [.identifier, .boolean] → m.kind ∈ [.identifier, .boolean] →
    l.kind = .identifier ∧ m.kind = .identifier ∧
      l.text.toList.getLast? = some '.' ∧ m.text.toList.head? = some '.'

theorem Lexeme.EndsBefore.apart {l m : Lexeme} {ms : List Lexeme} {rest : List Char}
    (hl : l.EndsBefore (characters (m :: ms))) (hm : m.EndsBefore rest) : l.Apart m := by
  obtain ⟨x, hx, hwhite, hdigit, hboolean, hname⟩ := hm.exists_head
  have hhead : (characters (m :: ms)).head? = some x := by
    rw [characters, List.flatMap_cons, List.head?_append, hx]
    rfl
  have hstarts (hkind : m.kind ∈ [.identifier, .boolean]) : startsName x = true ∨ x = '.' := by
    rcases List.mem_pair.mp hkind with hidentifier | hword
    · simpa [leadsName] using hname hidentifier
    · exact .inl (hboolean hword)
  have hspells (hkind : m.kind ∈ [.identifier, .boolean]) : spellsName x = true := by
    simpa [spellsName] using (hstarts hkind).imp_left continuesName_of_startsName
  constructor
  case blanks =>
    intro hkind hkind'
    simpa [hhead, hwhite hkind'] using hl.white hkind
  case digits =>
    intro hkind hkind'
    simpa [hhead, hdigit hkind'] using hl.digits hkind
  case words =>
    intro hkind hkind'
    rcases List.mem_pair.mp hkind with hidentifier | hword
    · rcases hl.identifier hidentifier with hnone | ⟨hdot, hsegment⟩
      · simp [hhead, hspells hkind'] at hnone
      · have hfirst : startsName x = false := by simpa [hhead] using hsegment
        have hlater : m.kind = .identifier := by
          refine (List.mem_pair.mp hkind').resolve_right fun hword => ?_
          simp [hboolean hword] at hfirst
        have hdot' : x = '.' := (hstarts hkind').resolve_left (by simp [hfirst])
        exact ⟨hidentifier, hlater, hdot, hdot' ▸ hx⟩
    · simpa [hhead, hspells hkind'] using (hl.boolean hword).2

/-- Lexemes that are cut one behind the other are apart. -/
theorem isChain_scan (cs : List Char) : (scan cs).IsChain Lexeme.Apart := by
  generalize hscan : scan cs = ls
  induction ls generalizing cs with
  | nil => exact .nil
  | cons l ls ih =>
    obtain ⟨hl, hrest⟩ := endsBefore_of_scan hscan
    cases ls with
    | nil => exact .singleton l
    | cons m ms => exact .cons_cons (hl.apart (endsBefore_of_scan hrest).1) (ih _ hrest)

/-- No two tokens next to each other are both blank or both numbers, and a word that is no
name is one of the two words. Of tokens next to each other that are names or such words,
both are names, and they meet with a dot each. -/
theorem tokens_are_maximal (source : String) :
    (tokenize source).IsChain (fun t u => t.lexeme.Apart u.lexeme) ∧
      ∀ t ∈ tokenize source, t.kind = .boolean → IsBoolean t.text.toList := by
  constructor
  · rw [← List.isChain_map, tokenize, lexeme_tokensFrom]
    exact isChain_scan source.toList
  · intro t ht hkind
    exact isBoolean_of_mem_lexemes (lexeme_mem_of_mem_tokensFrom ht) hkind

/-- Two names that meet, and a word in capitals. -/
theorem tokens_are_maximal_dots :
    (tokenize "a..b  12 TRUE").map (fun t => (t.kind, t.text)) =
        [(.identifier, "a."), (.identifier, ".b"), (.whitespace, "  "), (.integer, "12"),
          (.whitespace, " "), (.boolean, "TRUE")] ∧
      (tokenize "a..b  12 TRUE").IsChain (fun t u => t.lexeme.Apart u.lexeme) ∧
      (⟨.boolean, "TRUE", 9⟩ : Token) ∈ tokenize "a..b  12 TRUE" ∧
      IsBoolean "TRUE".toList := by
  obtain ⟨hchain, hwords⟩ := tokens_are_maximal "a..b  12 TRUE"
  have hmem : (⟨.boolean, "TRUE", 9⟩ : Token) ∈ tokenize "a..b  12 TRUE" := by decide +kernel
  exact ⟨by decide +kernel, hchain, hmem, hwords _ hmem rfl⟩

end SchemaLang
