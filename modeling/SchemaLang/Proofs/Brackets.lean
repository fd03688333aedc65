import SchemaLang.Parse.Recovery

/-!
# Brackets that are due

Reading lexemes from left to right leaves the closers of the brackets that
are open, innermost first. A row is balanced when it leaves none and never
meets a closer that is not due.
-/

set_option autoImplicit false

namespace SchemaLang

namespace TokenKind

def closer? : TokenKind → Option TokenKind
  | lparen => some rparen
  | lbracket => some rbracket
  | lbrace => some rbrace
  | _ => none

def isCloser : TokenKind → Bool
  | rparen | rbracket | rbrace => true
  | _ => false

def isBracket (kind : TokenKind) : Bool := kind.closer?.isSome || kind.isCloser

theorem closer?_of_isCloser {closer : TokenKind} (h : closer.isCloser = true) :
    closer.closer? = none := by
  cases closer <;> first | rfl | simp [isCloser] at h

theorem isBracket_eq_false {kind : TokenKind} :
    kind.isBracket = false ↔ kind.closer? = none ∧ kind.isCloser = false := by
  simp [isBracket]

end TokenKind

/-- The closers that are due behind a lexeme of this kind, if some are due in
front of it. There is no answer for a closer that is not the next one due. -/
def dueBehind (closers : List TokenKind) (kind : TokenKind) : Option (List TokenKind) :=
  match kind.closer? with
  | some closer => some (closer :: closers)
  | none =>
    if kind.isCloser then if closers.head? = some kind then some closers.tail else none
    else some closers

def due (closers : List TokenKind) (s : List Lexeme) : Option (List TokenKind) :=
  s.foldlM (fun closers t => dueBehind closers t.kind) closers

/-- Brackets of each sort open and close in this row, properly nested. -/
def Balanced (s : List Lexeme) : Prop := due [] s = some []

instance (s : List Lexeme) : Decidable (Balanced s) :=
  inferInstanceAs (Decidable (due [] s = some []))

theorem due_cons (closers : List TokenKind) (t : Lexeme) (s : List Lexeme) :
    due closers (t :: s) = (dueBehind closers t.kind).bind (fun c => due c s) := List.foldlM_cons

variable {t : Lexeme} {closer : TokenKind} {closers later : List TokenKind} {s : List Lexeme}

theorem due_opener (h : t.kind.closer? = some closer) :
    due closers (t :: s) = due (closer :: closers) s := by
  rw [due_cons, dueBehind, h]
  rfl

theorem due_plain (h : t.kind.isBracket = false) : due closers (t :: s) = due closers s := by
  rw [TokenKind.isBracket_eq_false] at h
  rw [due_cons, dueBehind, h.1, h.2]
  rfl

theorem due_closer (h : t.kind.isCloser = true) :
    due (t.kind :: closers) (t :: s) = due closers s := by
  rw [due_cons, dueBehind, TokenKind.closer?_of_isCloser h]
  simp only [h, if_true, List.head?_cons, List.tail_cons]
  rfl

theorem eq_of_due_closer (ht : t.kind.isCloser = true) (h : due closers (t :: s) = some later) :
    ∃ closers', closers = t.kind :: closers' ∧ due closers' s = some later := by
  rw [due_cons, dueBehind, TokenKind.closer?_of_isCloser ht] at h
  simp only [ht, if_true] at h
  split at h
  · rename_i hhead
    obtain ⟨closers', rfl⟩ := List.head?_eq_some_iff.mp hhead
    exact ⟨closers', rfl, h⟩
  · simp at h

/-- The first lexeme of a row opens a bracket, or is none, or closes the one that is due. -/
theorem due_cases (h : due closers (t :: s) = some later) :
    (∃ closer, t.kind.closer? = some closer ∧ due (closer :: closers) s = some later) ∨
      (t.kind.isBracket = false ∧ due closers s = some later) ∨
      (t.kind.isCloser = true ∧ ∃ closers', closers = t.kind :: closers' ∧
        due closers' s = some later) := by
  cases hk : t.kind.closer? with
  | some closer =>
    rw [due_opener hk] at h
    exact .inl ⟨closer, rfl, h⟩
  | none =>
    cases hc : t.kind.isCloser with
    | true => exact .inr (.inr ⟨rfl, eq_of_due_closer hc h⟩)
    | false =>
      have hplain := TokenKind.isBracket_eq_false.mpr ⟨hk, hc⟩
      rw [due_plain hplain] at h
      exact .inr (.inl ⟨hplain, h⟩)

/-- A row that leaves nothing due closes the outermost bracket somewhere. -/
theorem exists_closer {c : TokenKind} {v : List Lexeme} (h : due (closers ++ [c]) v = some []) :
    ∃ w t w', v = w ++ t :: w' ∧ due closers w = some [] ∧ t.kind = c ∧ t.kind.isCloser = true ∧
      Balanced w' := by
  induction v generalizing closers with
  | nil => simp [due] at h
  | cons u v ih =>
    rcases due_cases h with ⟨closer, hk, hv⟩ | ⟨hplain, hv⟩ | ⟨hc, closers', hclosers, hv⟩
    · rw [← List.cons_append] at hv
      obtain ⟨w, t, w', rfl, hw, ht, hcloser, hw'⟩ := ih hv
      exact ⟨u :: w, t, w', rfl, by rw [due_opener hk, hw], ht, hcloser, hw'⟩
    · obtain ⟨w, t, w', rfl, hw, ht, hcloser, hw'⟩ := ih hv
      exact ⟨u :: w, t, w', rfl, by rw [due_plain hplain, hw], ht, hcloser, hw'⟩
    · cases closers with
      | nil =>
        obtain ⟨rfl, rfl⟩ := List.cons.inj hclosers
        exact ⟨[], u, v, rfl, rfl, rfl, hc, hv⟩
      | cons closer closers =>
        obtain ⟨rfl, rfl⟩ := List.cons.inj hclosers
        obtain ⟨w, t, w', rfl, hw, ht, hcloser, hw'⟩ := ih hv
        exact ⟨u :: w, t, w', rfl, by rw [due_closer hc, hw], ht, hcloser, hw'⟩

/-- How much of a construct is skipped, told by the sort of the next lexeme. -/
theorem balancedExtent_cons (depth : Nat) (t : Lexeme) (s : List Lexeme) :
    balancedExtent depth (t :: s) =
      if t.kind.closer?.isSome then balancedExtent (depth + 1) s + 1
      else if t.kind.isCloser then if depth ≤ 1 then depth else balancedExtent (depth - 1) s + 1
      else if t.kind = .semicolon ∧ depth = 0 then 1
      else balancedExtent depth s + 1 := by
  rcases depth with _ | _ | d <;>
    cases hk : t.kind <;> simp [balancedExtent, hk, TokenKind.closer?, TokenKind.isCloser]

/-- In what is skipped of a row every bracket closes, but for those that were
`opened` before. So the skip does not reach the closer `u` of the bracket
around the row. -/
theorem drop_balancedExtent_of_due {u : Lexeme} (hu : u.kind.isCloser = true) {v : List Lexeme}
    (r : List Lexeme) (opened : List TokenKind) (h : due (opened ++ closers) v = some []) :
    ∃ v', v' <:+ v ∧
      (v ++ u :: r).drop (balancedExtent opened.length (v ++ u :: r)) = v' ++ u :: r ∧
      due closers v' = some [] := by
  induction v generalizing opened with
  | nil =>
    obtain ⟨rfl, rfl⟩ : opened = [] ∧ closers = [] := by simpa [due] using h
    refine ⟨[], List.suffix_rfl, ?_, rfl⟩
    simp [balancedExtent_cons, TokenKind.closer?_of_isCloser hu, hu]
  | cons t v ih =>
    have hbehind := List.suffix_cons t v
    rw [List.cons_append, balancedExtent_cons]
    rcases due_cases h with ⟨closer, hk, hv⟩ | ⟨hplain, hv⟩ | ⟨hc, closers', hclosers, hv⟩
    · rw [← List.cons_append] at hv
      obtain ⟨v', hsuffix, hdrop, hv'⟩ := ih (closer :: opened) hv
      exact ⟨v', hsuffix.trans hbehind, by simpa [hk] using hdrop, hv'⟩
    · obtain ⟨hk, hc⟩ := TokenKind.isBracket_eq_false.mp hplain
      obtain ⟨v', hsuffix, hdrop, hv'⟩ := ih opened hv
      rw [if_neg (by simp [hk]), if_neg (by simp [hc])]
      split
      · rename_i hsemi
        obtain rfl := List.length_eq_zero_iff.mp hsemi.2
        exact ⟨v, hbehind, rfl, hv⟩
      · exact ⟨v', hsuffix.trans hbehind, hdrop, hv'⟩
    · rw [TokenKind.closer?_of_isCloser hc]
      cases opened with
      | nil => exact ⟨t :: v, List.suffix_rfl, by simp [hc], h⟩
      | cons closer opened =>
        obtain ⟨rfl, rfl⟩ := List.cons.inj hclosers
        cases opened with
        | nil => exact ⟨v, hbehind, by simp [hc], hv⟩
        | cons closer opened =>
          obtain ⟨v', hsuffix, hdrop, hv'⟩ := ih (closer :: opened) hv
          exact ⟨v', hsuffix.trans hbehind, by simpa [hc] using hdrop, hv'⟩

end SchemaLang
