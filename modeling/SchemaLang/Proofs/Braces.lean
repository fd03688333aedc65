import SchemaLang.Proofs.Brackets
import SchemaLang.Proofs.Layout

/-!
# Open braces

Inside braces, every balanced row leaves the closing brace around it in place.
Steps are counted by the braces that their construct has opened: a statement
skips up to a closing brace at most, and a construct in braces, which takes
one, has opened one before. So a member leaves all the braces open that it
found open.

There is one exception. A definition that breaks off before its opening brace
is skipped through the next closing brace. Where this definition is nested and
the skip meets no opening brace on the way, that closing brace was not its own.
-/

set_option autoImplicit false

namespace SchemaLang

def Fault.cutsHeader : Fault → Bool
  | .missingAfter wanted _ => wanted == "identifier" || wanted == "'\x7b'"
  | _ => false

/-- A definition that breaks off takes no closing brace but one whose opening
brace it skipped. -/
def Shape.Sheltered : Shape → Row → Prop
  | .construct _ _, _ => True
  | .skipped fault, inside => fault.cutsHeader = true → ∃ t ∈ inside.leaves, t.kind = .lbrace

instance decidableSheltered : ∀ (shape : Shape) (inside : Row), Decidable (shape.Sheltered inside)
  | .construct _ _, _ => .isTrue trivial
  | .skipped fault, inside =>
    inferInstanceAs (Decidable (fault.cutsHeader = true → ∃ t ∈ inside.leaves, t.kind = .lbrace))

/-- Inside braces behind whose closing brace `r` follows, with at least `n`
more of them open. -/
def Inside (r : List Lexeme) (n : Nat) (s : List Lexeme) : Prop :=
  ∃ closers v b, s = v ++ b :: r ∧ b.kind = .rbrace ∧ due closers v = some [] ∧
    n ≤ closers.count .rbrace

namespace Inside

variable {r s : List Lexeme} {m n : Nat} {t : Lexeme}

theorem mono (h : Inside r n s) (hm : m ≤ n) : Inside r m s := by
  obtain ⟨closers, v, b, hs, hb, hv, hn⟩ := h
  exact ⟨closers, v, b, hs, hb, hv, Nat.le_trans hm hn⟩

theorem ne_nil (h : Inside r n s) : s ≠ [] := by
  obtain ⟨closers, v, b, rfl, -⟩ := h
  simp

theorem length_lt (h : Inside r n s) : r.length < s.length := by
  obtain ⟨closers, v, b, rfl, -⟩ := h
  simp only [List.length_append, List.length_cons]
  omega

/-- The next lexeme is the closing brace behind which `r` follows, or another
brace, or none. -/
theorem cases (h : Inside r n (t :: s)) :
    (t.kind = .rbrace ∧ ((n = 0 ∧ s = r) ∨ Inside r (n - 1) s)) ∨
      (t.kind = .lbrace ∧ Inside r (n + 1) s) ∨
      (t.kind ≠ .rbrace ∧ t.kind ≠ .lbrace ∧ Inside r n s) := by
  obtain ⟨closers, v, b, hs, hb, hv, hn⟩ := h
  cases v with
  | nil =>
    obtain ⟨rfl, rfl⟩ := List.cons.inj hs
    obtain rfl : closers = [] := by simpa [due] using hv
    exact .inl ⟨hb, .inl ⟨Nat.le_zero.mp hn, rfl⟩⟩
  | cons u v =>
    obtain ⟨rfl, rfl⟩ := List.cons.inj hs
    rcases due_cases hv with ⟨closer, hk, hrest⟩ | ⟨hplain, hrest⟩ | ⟨hc, closers', rfl, hrest⟩
    · right
      by_cases hbrace : t.kind = .lbrace
      · left
        obtain rfl : TokenKind.rbrace = closer := by simpa [hbrace, TokenKind.closer?] using hk
        exact ⟨hbrace, _, v, b, rfl, hb, hrest, by simpa using hn⟩
      · right
        refine ⟨?_, hbrace, _, v, b, rfl, hb, hrest, hn.trans List.count_le_count_cons⟩
        rintro hk'
        simp [hk', TokenKind.closer?] at hk
    · right
      right
      exact ⟨fun hk => by simp [hk, TokenKind.isBracket, TokenKind.isCloser] at hplain,
        fun hk => by simp [hk, TokenKind.isBracket, TokenKind.closer?] at hplain,
        closers, v, b, rfl, hb, hrest, hn⟩
    · by_cases hbrace : t.kind = .rbrace
      · left
        refine ⟨hbrace, .inr ⟨closers', v, b, rfl, hb, hrest, ?_⟩⟩
        rw [hbrace, List.count_cons_self] at hn
        exact Nat.sub_le_of_le_add hn
      · right
        right
        refine ⟨hbrace, fun hk => by simp [hk, TokenKind.isCloser] at hc, closers', v, b, rfl, hb,
          hrest, ?_⟩
        rwa [List.count_cons_of_ne hbrace] at hn

/-- A lexeme that is no closing brace leaves all braces open. -/
theorem tail (h : Inside r n (t :: s)) (ht : t.kind ≠ .rbrace) : Inside r n s := by
  rcases h.cases with ⟨hk, -⟩ | ⟨-, hs⟩ | ⟨-, -, hs⟩
  · exact absurd hk ht
  · exact hs.mono (Nat.le_succ n)
  · exact hs

theorem open_brace (h : Inside r n (t :: s)) (ht : t.kind = .lbrace) : Inside r (n + 1) s := by
  rcases h.cases with ⟨hk, -⟩ | ⟨-, hs⟩ | ⟨-, hk, -⟩
  · simp [ht] at hk
  · exact hs
  · exact absurd ht hk

theorem pop (h : Inside r (n + 1) (t :: s)) : Inside r n s := by
  rcases h.cases with ⟨-, ⟨hn, -⟩ | hs⟩ | ⟨-, hs⟩ | ⟨-, -, hs⟩
  · simp at hn
  · exact hs
  · exact hs.mono (by omega)
  · exact hs.mono (by omega)

/-- Where no more braces are known to be open, a closing brace may be the last one. -/
theorem last (h : Inside r 0 (t :: s)) : s = r ∨ Inside r 0 s := by
  rcases h.cases with ⟨-, ⟨-, hs⟩ | hs⟩ | ⟨-, hs⟩ | ⟨-, -, hs⟩
  · exact .inl hs
  · exact .inr hs
  · exact .inr (hs.mono (Nat.zero_le _))
  · exact .inr hs

theorem stops_at_rbrace (recovery : Recovery) :
    recovery.stopsAfter .rbrace = true ∨ recovery.stopsBefore .rbrace = true := by
  cases recovery with
  | delimited closer => exact .inr rfl
  | _ => decide

/-- A skip that takes no closing brace leaves all braces open. -/
theorem drop_extent {recovery : Recovery} (hr : recovery.stopsAfter .rbrace = false)
    (h : Inside r n s) : Inside r n (s.drop (recovery.extent s)) := by
  have hbefore := (stops_at_rbrace recovery).resolve_left (by simp [hr])
  induction s with
  | nil => exact absurd rfl h.ne_nil
  | cons t s ih =>
    rw [Recovery.extent]
    split
    · rename_i hafter
      exact h.tail fun hk => by simp [hk, hr] at hafter
    split
    · exact h
    · rename_i hnot
      exact ih (h.tail fun hk => hnot (by rw [hk, hbefore]))

theorem drop_extent_succ (recovery : Recovery) (h : Inside r (n + 1) s) :
    Inside r n (s.drop (recovery.extent s)) := by
  induction s with
  | nil => exact absurd rfl h.ne_nil
  | cons t s ih =>
    rw [Recovery.extent]
    split
    · exact h.pop
    split
    · exact h.mono (Nat.le_succ n)
    · rename_i hafter hbefore
      refine ih (h.tail fun hk => ?_)
      have hstops := stops_at_rbrace recovery
      rw [← hk] at hstops
      exact hstops.elim hafter hbefore

theorem drop_extent_zero (recovery : Recovery) (h : Inside r 0 s) :
    s.drop (recovery.extent s) = r ∨ Inside r 0 (s.drop (recovery.extent s)) := by
  induction s with
  | nil => exact absurd rfl h.ne_nil
  | cons t s ih =>
    rw [Recovery.extent]
    split
    · exact h.last
    split
    · exact .inr h
    · rename_i hafter hbefore
      refine ih (h.tail fun hk => ?_)
      have hstops := stops_at_rbrace recovery
      rw [← hk] at hstops
      exact hstops.elim hafter hbefore

/-- A skip through a closing brace makes up for it when it meets an opening one. -/
theorem drop_braces (h : Inside r n s)
    (hs : ∃ t ∈ s.take (Recovery.braces.extent s), t.kind = .lbrace) :
    Inside r n (s.drop (Recovery.braces.extent s)) := by
  induction s with
  | nil => exact absurd rfl h.ne_nil
  | cons t s ih =>
    rw [Recovery.extent] at hs ⊢
    split at hs
    · rename_i hafter
      have hk : t.kind = .rbrace := by simpa [Recovery.stopsAfter] using hafter
      simp [hk] at hs
    · rename_i hafter
      rw [if_neg hafter]
      simp only [Recovery.stopsBefore, Bool.false_eq_true, if_false, List.drop_succ_cons,
        List.take_succ_cons, List.mem_cons, exists_eq_or_imp] at hs ⊢
      rcases hs with hk | hs
      · exact (h.open_brace hk).drop_extent_succ .braces
      · exact ih (h.tail fun hk => hafter (by simp [Recovery.stopsAfter, hk])) hs

/-- A construct that is skipped whole leaves all braces open. -/
theorem drop_balancedExtent (h : Inside r n s) : Inside r n (s.drop (balancedExtent 0 s)) := by
  obtain ⟨closers, v, b, rfl, hb, hv, hn⟩ := h
  obtain ⟨v', -, hdrop, hv'⟩ := drop_balancedExtent_of_due (by rw [hb]; rfl) r [] hv
  exact ⟨closers, v', b, hdrop, hb, hv', hn⟩

end Inside

/-- The stop can be made up for: all `n` braces are still open behind what is
skipped, or a definition broke off in front of them. -/
def Stop.Safe (r : List Lexeme) (n : Nat) (e : Stop) (s : List Lexeme) : Prop :=
  Inside r n (s.drop (e.recovery.extent s)) ∨
    e.recovery = .braces ∧ e.fault.cutsHeader = true ∧ Inside r n s

def Stop.Affordable (i : Nat) (e : Stop) : Prop :=
  e.recovery.stopsAfter .rbrace = false ∨ 0 < i ∨
    e.recovery = .braces ∧ e.fault.cutsHeader = true

theorem Stop.Affordable.safe {e : Stop} {i n : Nat} {r s : List Lexeme} (he : e.Affordable i)
    (h : Inside r (n + i) s) : e.Safe r n s := by
  rcases he with hr | hi | ⟨hr, hf⟩
  · exact .inl ((h.drop_extent hr).mono (Nat.le_add_right n i))
  · obtain ⟨i, rfl⟩ := Nat.exists_eq_add_of_lt hi
    exact .inl ((h.mono (by omega)).drop_extent_succ e.recovery)
  · exact .inr ⟨hr, hf, h.mono (Nat.le_add_right n i)⟩

def Shifts (kind : TokenKind) (i j : Nat) : Prop :=
  ∀ r n t s, t.kind = kind → Inside r (n + i) (t :: s) → Inside r (n + j) s

theorem shifts_lbrace (i : Nat) : Shifts .lbrace i (i + 1) := fun _ _ _ _ ht h => h.open_brace ht

theorem shifts_rbrace (i : Nat) : Shifts .rbrace (i + 1) i := fun _ _ _ _ _ h => h.pop

theorem shifts_other {kind : TokenKind} (hk : kind ≠ .rbrace) (i : Nat) : Shifts kind i i :=
  fun _ _ _ _ ht h => h.tail (ht ▸ hk)

abbrev AtContent : List Lexeme → Prop := Begins (fun t => t.kind ≠ .rbrace) Always

theorem AtToken.content {kind : TokenKind} {s : List Lexeme} (h : AtToken kind s)
    (hk : kind ≠ .rbrace) : AtContent s := by
  cases s with
  | nil => exact h.elim
  | cons t s => exact ⟨fun ht => hk (h.1.symm.trans ht), trivial⟩

theorem atContent_of_starts {kind : TokenKind} {s : List Lexeme} (h : starts kind s = true)
    (hk : kind ≠ .rbrace) : AtContent s :=
  AtToken.content (begins_of_starts h) hk

theorem atContent_of_startsWord {text : String} {s : List Lexeme}
    (h : startsWord text s = true) : AtContent s := by
  cases s with
  | nil => simp [startsWord] at h
  | cons t s => exact ⟨by simp [Parse.kind_of_isWord (by simpa [startsWord] using h)], trivial⟩

namespace Parser

variable {α β : Type} {P Q : List Lexeme → Prop}

def Keeps (P : List Lexeme → Prop) (p : Parser α) : Prop :=
  ∀ r n s, P s → Inside r n s → (p.run s).built.Each Shape.Sheltered → Inside r n (p.run s).rest

theorem Keeps.mono {p : Parser α} (hp : Keeps P p) (h : ∀ s, Q s → P s) : Keeps Q p :=
  fun r n s hs => hp r n s (h s hs)

theorem keeps_pure (a : α) : Keeps P (pure a : Parser α) := fun _ _ _ _ h _ => h

theorem keeps_bind {p : Parser α} {f : α → Parser β} (hp : Keeps P p)
    (hf : ∀ a, Keeps Always (f a)) : Keeps P (p >>= f) := by
  intro r n s hs h hbuilt
  rw [run_bind] at hbuilt ⊢
  obtain ⟨h₁, h₂⟩ := (Forest.each_append _ _ _).mp hbuilt
  exact hf _ r n _ trivial (hp r n s hs h h₁) h₂

theorem keeps_choose {f : List Lexeme → Parser α} (h : ∀ s, P s → Keeps (· = s) (f s)) :
    Keeps P (choose f) :=
  fun r n s hs => h s hs r n s rfl

theorem keeps_take (kind : NodeKind) : Keeps AtContent (take kind) := by
  intro r n s hs h _
  cases s with
  | nil => exact hs.elim
  | cons t s => exact h.tail hs.1

theorem keeps_tooDeep : Keeps P tooDeep := fun _ _ _ _ h _ => h.drop_balancedExtent

/-- What is not shorter than before is the same as before. -/
theorem rest_eq_of_not_lt (p : Parser α) {s : List Lexeme}
    (h : ¬ (p.run s).rest.length < s.length) : (p.run s).rest = s := by
  have hlossless := p.lossless s
  have hlength := congrArg List.length hlossless
  rw [List.length_append] at hlength
  rwa [List.eq_nil_of_length_eq_zero (show (p.run s).built.leaves.length = 0 by omega),
    List.nil_append] at hlossless

theorem keeps_members {member : Parser Bool} (hm : Keeps Always member)
    (hidle : ∀ t s, t.kind = .rbrace → (member.run (t :: s)).value = false) :
    Keeps P (members member) := by
  rintro r n s - h hbuilt
  change (members.loop member s).built.Each Shape.Sheltered at hbuilt
  show Inside r n (members.loop member s).rest
  fun_induction members.loop member s with
  | case1 s o hv hlt loop ih =>
    obtain ⟨h₁, h₂⟩ := (Forest.each_append _ _ _).mp hbuilt
    exact ih (hm r n s trivial h h₁) h₂
  | case2 s o hv hlt hr =>
    have hrest := hm r n s trivial h hbuilt
    rwa [show (member.run s).rest = [] from hr] at hrest
  | case3 s o hv hlt t rest hr loop ih =>
    obtain ⟨h₁, -, -, h₂⟩ := (Forest.each_append _ _ _).mp hbuilt
    have hrest := hm r n s trivial h h₁
    rw [show (member.run s).rest = t :: rest from hr] at hrest
    have hsame : s = t :: rest := (member.rest_eq_of_not_lt hlt).symm.trans hr
    refine ih (hrest.tail fun ht => ?_) h₂
    have hvalue := hidle t rest ht
    rw [← hsame] at hvalue
    exact absurd (hv.symm.trans hvalue) (by simp)
  | case4 s o hv => exact hm r n s trivial h hbuilt

def Exits (P : List Lexeme → Prop) (p : Parser α) : Prop :=
  ∀ r s, P s → Inside r 0 s →
    (p.run s).built.Each (fun _ inside => inside.Each Shape.Sheltered) →
      (p.run s).rest = r ∨ Inside r 0 (p.run s).rest

end Parser

namespace Step

open SchemaLang.Parser

variable {α β : Type} {i j k : Nat} {P Q : List Lexeme → Prop}

def Carried (r : List Lexeme) (n j : Nat) (o : Parsed (Except Stop α)) : Prop :=
  match o.value with
  | .ok _ => Inside r (n + j) o.rest
  | .error e => e.Safe r n o.rest

theorem Carried.map {r : List Lexeme} {n : Nat} {o : Parsed (Except Stop α)}
    (h : Carried r n j o) (f : α → β) (row : Row) :
    Carried r n j ⟨o.value.map f, row, o.rest⟩ := by
  obtain ⟨value, built, rest⟩ := o
  cases value <;> exact h

/-- On inputs with `P`, the step begins where `i` braces of its construct are
open and ends where `j` are. -/
def Carries (P : List Lexeme → Prop) (i j : Nat) (p : Step α) : Prop :=
  ∀ r n s, P s → Inside r (n + i) s → (Parser.run p s).built.Each Shape.Sheltered →
    Carried r n j (Parser.run p s)

theorem Carries.mono {p : Step α} (hp : Carries P i j p) (h : ∀ s, Q s → P s) : Carries Q i j p :=
  fun r n s hs => hp r n s (h s hs)

theorem carries_done (a : α) : Carries P i i (pure a : Step α) := fun _ _ _ _ h _ => h

theorem carries_stop {recovery : Recovery} {fault : Fault}
    (he : Stop.Affordable i ⟨recovery, fault⟩) : Carries P i j (stop recovery fault : Step α) :=
  fun _ _ _ _ h _ => he.safe h

theorem carries_liftM {p : Parser α} (hp : Keeps P p) : Carries P i i (liftM p : Step α) := by
  intro r n s hs h hbuilt
  rw [run_liftM] at hbuilt ⊢
  exact hp r (n + i) s hs h hbuilt

theorem carries_then {p : Step α} {f : α → Step β} (hp : Carries P i k p)
    (hf : ∀ a, Carries Always k j (f a)) : Carries P i j (p >>= f : Step β) := by
  intro r n s hs h hbuilt
  have hfirst := hp r n s hs h
  cases hv : (Parser.run p s).value with
  | error e =>
    rw [run_bind_of_error f hv] at hbuilt ⊢
    simp only [Carried, hv] at hfirst
    exact hfirst hbuilt
  | ok a =>
    rw [run_bind_of_ok f hv] at hbuilt ⊢
    obtain ⟨h₁, h₂⟩ := (Forest.each_append _ _ _).mp hbuilt
    simp only [Carried, hv] at hfirst
    exact hf a r n _ trivial (hfirst h₁) h₂

theorem carries_choose {f : List Lexeme → Step α} (h : ∀ s, P s → Carries (· = s) i j (f s)) :
    Carries P i j (choose f) :=
  fun r n s hs => h s hs r n s rfl

theorem carries_bump_then {kind : TokenKind} (hk : Shifts kind i k) {f : Unit → Step β}
    (hf : Carries Q k j (f ())) :
    Carries (Begins (fun t => t.kind = kind) Q) i j
      ((liftM Parser.bump : Step Unit) >>= f) := by
  intro r n s hs h hbuilt
  cases s with
  | nil => exact hs.elim
  | cons t s =>
    rw [run_bump_then] at hbuilt ⊢
    exact hf r n s hs.2 (hk r n t s hs.1 h) hbuilt

theorem carries_bump {kind : TokenKind} (hk : Shifts kind i j) :
    Carries (AtToken kind) i j (liftM Parser.bump : Step Unit) := by
  intro r n s hs h _
  cases s with
  | nil => exact hs.elim
  | cons t s => exact hk r n t s hs.1 h

theorem carries_require_then {kind : TokenKind} {recovery : Recovery} {fault : String → Fault}
    (he : ∀ text, Stop.Affordable i ⟨recovery, fault text⟩) {p : Step α}
    (hp : Carries (AtToken kind) i j p) :
    Carries P i j (require kind recovery fault >>= fun _ => p : Step α) := by
  intro r n s _ h
  cases hs : starts kind s with
  | true =>
    rw [run_bind_of_ok _ (by rw [run_require_of_starts recovery fault hs]),
      run_require_of_starts recovery fault hs]
    exact hp r n s (begins_of_starts hs) h
  | false =>
    rw [run_bind_of_error _ (by rw [run_require_of_not_starts recovery fault hs]),
      run_require_of_not_starts recovery fault hs]
    exact fun _ => (he _).safe h

theorem carries_punct {kind : TokenKind} (hk : Shifts kind i j) {recovery : Recovery}
    {fault : String → Fault} (he : ∀ text, Stop.Affordable i ⟨recovery, fault text⟩) :
    Carries P i j (punct kind recovery fault) :=
  carries_require_then he (carries_bump hk)

theorem carries_expect {kind : TokenKind} (hk : kind ≠ .rbrace) (node : NodeKind)
    {recovery : Recovery} {fault : String → Fault}
    (he : ∀ text, Stop.Affordable i ⟨recovery, fault text⟩) :
    Carries P i i (expect kind node recovery fault) :=
  carries_require_then he (carries_liftM ((keeps_take node).mono fun _ hs => hs.content hk))

theorem carries_closing {closer : TokenKind} (hk : closer ≠ .rbrace) {recovery : Recovery}
    (hr : recovery.stopsAfter .rbrace = false) (fault : String → Fault) :
    Carries P i i (closing closer recovery fault) := by
  apply carries_choose
  intro s _
  split
  · exact (carries_bump (shifts_other hk i)).mono fun _ hs => hs ▸ begins_of_starts ‹_›
  split
  · exact carries_stop (.inl rfl)
  · exact carries_stop (.inl hr)

theorem carries_group (kind : NodeKind) (complete : α → Bool) {body : Step α}
    (hb : Carries P i j body) : Carries P i j (group kind complete body) := by
  intro r n s hs h hbuilt
  have hbody := hb r n s hs h
  rw [run_group] at hbuilt ⊢
  cases hv : (Parser.run body s).value with
  | error e =>
    simp only [hv] at hbuilt ⊢
    exact hbody hbuilt
  | ok a =>
    simp only [hv] at hbuilt ⊢
    simp only [Carried, hv] at hbody
    exact hbody hbuilt.2.1

theorem carries_sepTail {item : Step α} {closer : TokenKind} (hk : Shifts closer i j)
    (hi : Carries Always i i item) {otherwise : String → Stop}
    (ho : ∀ text, (otherwise text).Affordable i) :
    Carries P i j (sepTail item closer otherwise) := by
  rintro r n s - h hbuilt
  change (sepTail.loop item closer otherwise s).built.Each Shape.Sheltered at hbuilt
  show Carried r n j (sepTail.loop item closer otherwise s)
  fun_induction sepTail.loop item closer otherwise s with
  | case1 => exact absurd rfl h.ne_nil
  | case2 t s ht => exact hk r n t s ht h
  | case3 t s ht hcomma o e he =>
    have hitem := hi r n s trivial (h.tail (by simp [hcomma])) hbuilt
    simp only [Carried, show (Parser.run item s).value = .error e from he] at hitem
    exact hitem
  | case4 t s ht hcomma o a ha rest ih =>
    obtain ⟨h₁, h₂⟩ := (Forest.each_append _ _ _).mp hbuilt
    have hitem := hi r n s trivial (h.tail (by simp [hcomma])) h₁
    simp only [Carried, show (Parser.run item s).value = .ok a from ha] at hitem
    exact (ih hitem h₂).map _ _
  | case5 t s ht hcomma => exact (ho _).safe h

end Step

/-- Where the skipped lexemes of a stop are sheltered, all braces are open behind them. -/
theorem Stop.Safe.drop {r s : List Lexeme} {n : Nat} {e : Stop} (h : e.Safe r n s)
    (hskip : Shape.Sheltered (.skipped e.fault) (.ofTokens (s.take (e.recovery.extent s)))) :
    Inside r n (s.drop (e.recovery.extent s)) := by
  rcases h with h | ⟨hr, hf, h⟩
  · exact h
  · have hopener := hskip hf
    rw [Forest.leaves_ofTokens, hr] at hopener
    rw [hr]
    exact h.drop_braces hopener

def Step.Ended {α : Type} (r : List Lexeme) (o : Parsed (Except Stop α)) : Prop :=
  match o.value with
  | .ok _ => o.rest = r ∨ Inside r 0 o.rest
  | .error e => o.rest.drop (e.recovery.extent o.rest) = r ∨
      Inside r 0 (o.rest.drop (e.recovery.extent o.rest))

theorem Step.Carried.ended {α : Type} {r : List Lexeme} {o : Parsed (Except Stop α)}
    (h : Step.Carried r 0 0 o) : Step.Ended r o := by
  obtain ⟨value, built, rest⟩ := o
  cases value with
  | ok a => exact .inr h
  | error e =>
    rcases h with h | ⟨-, -, h⟩
    · exact .inr h
    · exact h.drop_extent_zero e.recovery

namespace Parser

variable {P Q : List Lexeme → Prop}

theorem rest_statement_of_ended {kind : NodeKind} {body : Step Unit} {r s : List Lexeme}
    (h : Step.Ended r (run body s)) :
    ((statement kind body).run s).rest = r ∨ Inside r 0 ((statement kind body).run s).rest := by
  cases hv : (run body s).value with
  | ok u =>
    simp only [Step.Ended, hv] at h
    rwa [run_statement_of_ok hv]
  | error e =>
    simp only [Step.Ended, hv] at h
    rwa [run_statement_of_error hv]

theorem keeps_construct {kind : NodeKind} {body : Step Bool} (hb : Step.Carries P 0 0 body) :
    Keeps P (construct kind body) := by
  intro r n s hs h hbuilt
  have hbody := hb r n s hs h
  cases hv : (run body s).value with
  | ok sound =>
    rw [run_construct_of_ok hv] at hbuilt ⊢
    simp only [Step.Carried, hv] at hbody
    exact hbody hbuilt.2.1
  | error e =>
    rw [run_construct_of_error hv] at hbuilt ⊢
    simp only [Step.Carried, hv] at hbody
    exact (hbody hbuilt.2.1).drop hbuilt.2.2.1

structure Contained (P : List Lexeme → Prop) (p : Parser Unit) : Prop where
  keeps : Keeps P p
  exits : Exits P p

theorem contained_statement {kind : NodeKind} {body : Step Unit} (hb : Step.Carries P 0 0 body) :
    Contained P (statement kind body) where
  keeps := by
    have hsound : Step.Carries P 0 0 (do
        body
        pure true) :=
      Step.carries_then hb fun _ => Step.carries_done true
    exact keeps_bind (keeps_construct hsound) fun _ => keeps_pure ()
  exits r s hs h hbuilt := by
    obtain ⟨-, hinside, -⟩ := each_of_statement hbuilt
    exact rest_statement_of_ended (hb r 0 s hs h hinside).ended

theorem contained_discard_tooDeep : Contained P (discard tooDeep) where
  keeps := fun _ _ _ _ h _ => h.drop_balancedExtent
  exits := fun _ _ _ h _ => .inr h.drop_balancedExtent

theorem keeps_present {p : Parser Unit} (hp : Keeps P p) : Keeps P (Parse.present p) :=
  keeps_bind hp fun _ => keeps_pure true

theorem exits_present {p : Parser Unit} (hp : Exits P p) : Exits P (Parse.present p) := by
  intro r s hs h hbuilt
  rw [run_present] at hbuilt ⊢
  exact hp r s hs h hbuilt

end Parser

end SchemaLang
