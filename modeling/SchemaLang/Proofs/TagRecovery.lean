import SchemaLang.Proofs.Brackets
import SchemaLang.Proofs.Layout

/-!
# A damaged tag ends at its own bracket

The arguments of a tag may be any balanced row. A construct in brackets is
read up to its own closer, whatever is wrong inside, as long as no bracket is
skipped that the reader then does not know to be open: a skip ends at the
next closer and takes it for its own. What comes behind the tag is then read
as if the tag were not there.

A skipped bracket does break this, and then what follows the tag may be lost.
-/

set_option autoImplicit false

namespace SchemaLang

/-- Skipped lexemes open no bracket, unless a construct that nests too deeply
is skipped whole. -/
def Shape.Shallow : Shape → Row → Prop
  | .construct _ _, _ => True
  | .skipped fault, inside =>
    fault = .tooDeep ∨ ∀ t ∈ inside.leaves, t.kind.closer? = none

instance decidableShallow : ∀ (shape : Shape) (inside : Row), Decidable (shape.Shallow inside)
  | .construct _ _, _ => .isTrue trivial
  | .skipped fault, inside =>
    inferInstanceAs (Decidable (fault = .tooDeep ∨ ∀ t ∈ inside.leaves, t.kind.closer? = none))

/-- A row that is balanced and has no `;` up to the closer `t` of the bracket
around it, behind which `r` follows. -/
structure UpTo (t : Lexeme) (r s : List Lexeme) : Prop where
  closer : t.kind.isCloser = true
  split : ∃ v, s = v ++ t :: r ∧ Balanced v ∧ ∀ u ∈ v, u.kind ≠ .semicolon

namespace UpTo

variable {t u : Lexeme} {r s : List Lexeme}

theorem here (ht : t.kind.isCloser = true) : UpTo t r (t :: r) :=
  ⟨ht, [], rfl, rfl, fun _ h => by simp at h⟩

theorem ne_nil (h : UpTo t r s) : s ≠ [] := by
  obtain ⟨-, v, rfl, -⟩ := h
  simp

/-- The next lexeme is the closer, or no bracket, or opens a row of its own. -/
theorem cases (h : UpTo t r (u :: s)) :
    (u = t ∧ s = r) ∨
      (u.kind.isBracket = false ∧ u.kind ≠ .semicolon ∧ UpTo t r s) ∨
      ∃ c t' r', u.kind.closer? = some c ∧ t'.kind = c ∧ UpTo t' r' s ∧ UpTo t r r' := by
  obtain ⟨hcloser, v, hs, hv, hsemi⟩ := h
  cases v with
  | nil => exact .inl (List.cons.inj hs)
  | cons w v =>
    obtain ⟨rfl, rfl⟩ := List.cons.inj hs
    have hrest : ∀ x ∈ v, x.kind ≠ .semicolon := fun x hx => hsemi x (List.mem_cons_of_mem _ hx)
    right
    rcases due_cases hv with ⟨c, hk, hv⟩ | ⟨hplain, hv⟩ | ⟨-, closers', hclosers, -⟩
    · right
      rw [← List.nil_append [c]] at hv
      obtain ⟨w, t', w', rfl, hw, ht', hcloser', hw'⟩ := exists_closer hv
      refine ⟨c, t', w' ++ t :: r, hk, ht', ⟨hcloser', w, by simp, hw, fun x hx => ?_⟩,
        ⟨hcloser, w', rfl, hw', fun x hx => ?_⟩⟩
      · exact hrest x (List.mem_append_left _ hx)
      · exact hrest x (List.mem_append_right _ (List.mem_cons_of_mem _ hx))
    · left
      exact ⟨hplain, hsemi u List.mem_cons_self, hcloser, v, rfl, hv, hrest⟩
    · cases hclosers

theorem of_plain (hu : u.kind.isBracket = false) (h : UpTo t r (u :: s)) : UpTo t r s := by
  rw [TokenKind.isBracket_eq_false] at hu
  rcases h.cases with ⟨rfl, rfl⟩ | ⟨-, -, hs⟩ | ⟨c, t', r', hc, -⟩
  · simp [h.closer] at hu
  · exact hs
  · simp [hc] at hu

theorem of_opener {c : TokenKind} (hu : u.kind.closer? = some c) (h : UpTo t r (u :: s)) :
    ∃ t' r', t'.kind = c ∧ UpTo t' r' s ∧ UpTo t r r' := by
  rcases h.cases with ⟨rfl, rfl⟩ | ⟨hplain, -, -⟩ | ⟨c', t', r', hc, hrest⟩
  · simp [TokenKind.closer?_of_isCloser h.closer] at hu
  · simp [TokenKind.isBracket, hu] at hplain
  · obtain rfl := Option.some.inj (hu.symm.trans hc)
    exact ⟨t', r', hrest⟩

theorem of_closer (hu : u.kind.isCloser = true) (h : UpTo t r (u :: s)) : u = t ∧ s = r := by
  rcases h.cases with hhere | ⟨hplain, -, -⟩ | ⟨c, t', r', hc, -⟩
  · exact hhere
  · simp [TokenKind.isBracket, hu] at hplain
  · simp [TokenKind.closer?_of_isCloser hu] at hc

/-- A construct that is skipped whole does not reach the closer around it. -/
theorem drop_balancedExtent (h : UpTo t r s) : UpTo t r (s.drop (balancedExtent 0 s)) := by
  obtain ⟨hcloser, v, rfl, hv, hsemi⟩ := h
  obtain ⟨v', hsuffix, hdrop, hv'⟩ := drop_balancedExtent_of_due hcloser r [] hv
  exact ⟨hcloser, v', hdrop, hv', fun u hu => hsemi u (hsuffix.mem hu)⟩

def Passes (recovery : Recovery) : Prop :=
  ∀ kind : TokenKind, kind.isCloser = false → kind ≠ .semicolon →
    recovery.stopsAfter kind = false ∧ recovery.stopsBefore kind = false

/-- A skip that opens no bracket comes to the closer of the bracket around it. -/
theorem drop_extent {recovery : Recovery} (hp : Passes recovery) (h : UpTo t r s)
    (hs : ∀ x ∈ s.take (recovery.extent s), x.kind.closer? = none) :
    s.drop (recovery.extent s) = (t :: r).drop (recovery.extent (t :: r)) := by
  induction s with
  | nil => exact absurd rfl h.ne_nil
  | cons u s ih =>
    rcases h.cases with ⟨rfl, rfl⟩ | ⟨hplain, hsemi, hrest⟩ | ⟨c, t', r', hc, -, -⟩
    · rfl
    · rw [TokenKind.isBracket_eq_false] at hplain
      obtain ⟨hafter, hbefore⟩ := hp u.kind hplain.2 hsemi
      rw [Recovery.extent, hafter, hbefore] at hs ⊢
      exact ih hrest fun x hx => hs x (List.mem_cons_of_mem u hx)
    · have hcloser : u.kind.isCloser = false := by
        cases hk : u.kind.isCloser with
        | false => rfl
        | true => simp [TokenKind.closer?_of_isCloser hk] at hc
      have hsemi : u.kind ≠ .semicolon := by
        rintro hk
        simp [hk, TokenKind.closer?] at hc
      obtain ⟨hafter, hbefore⟩ := hp u.kind hcloser hsemi
      rw [Recovery.extent, hafter, hbefore] at hs
      have hnone := hs u List.mem_cons_self
      simp [hc] at hnone

theorem passes_delimited {closer : TokenKind} (h : closer.isCloser = true) :
    Passes (.delimited closer) := by
  intro kind hkind hsemi
  have hne : kind ≠ closer := by
    rintro rfl
    simp [h] at hkind
  cases kind <;> simp_all [Recovery.stopsAfter, Recovery.stopsBefore, TokenKind.isCloser]

theorem passes_value : Passes .value := by
  intro kind hkind hsemi
  cases kind <;> simp_all [Recovery.stopsAfter, Recovery.stopsBefore, TokenKind.isCloser]

theorem passes_tag : Passes .tag := by
  intro kind hkind hsemi
  cases kind <;> simp_all [Recovery.stopsAfter, Recovery.stopsBefore, TokenKind.isCloser]

/-- The construct that looks for the closer ends behind it. -/
theorem drop_delimited (h : UpTo t r s)
    (hs : ∀ x ∈ s.take ((Recovery.delimited t.kind).extent s), x.kind.closer? = none) :
    s.drop ((Recovery.delimited t.kind).extent s) = r := by
  rw [h.drop_extent (passes_delimited h.closer) hs]
  simp [Recovery.extent, Recovery.stopsAfter]

theorem drop_value (h : UpTo t r s)
    (hs : ∀ x ∈ s.take (Recovery.value.extent s), x.kind.closer? = none) :
    UpTo t r (s.drop (Recovery.value.extent s)) := by
  have hcloser := h.closer
  rw [h.drop_extent passes_value hs]
  have hextent : Recovery.value.extent (t :: r) = 0 := by
    cases hk : t.kind <;>
      simp_all [Recovery.extent, Recovery.stopsAfter, Recovery.stopsBefore, TokenKind.isCloser]
  rw [hextent]
  exact here hcloser

/-- From inside its arguments, a tag ends behind its bracket. -/
theorem drop_tag {b : Lexeme} (h : UpTo t (b :: r) s) (ht : t.kind = .rparen)
    (hb : b.kind = .rbracket) (hs : ∀ x ∈ s.take (Recovery.tag.extent s), x.kind.closer? = none) :
    s.drop (Recovery.tag.extent s) = r := by
  rw [h.drop_extent passes_tag hs]
  simp [Recovery.extent, Recovery.stopsAfter, Recovery.stopsBefore, ht, hb]

end UpTo

abbrev AtPlain : List Lexeme → Prop := Begins (fun t => t.kind.isBracket = false) Always

theorem atPlain_of_starts {kind : TokenKind} {s : List Lexeme} (hk : kind.isBracket = false)
    (h : starts kind s = true) : AtPlain s := by
  cases s with
  | nil => simp [starts] at h
  | cons t s =>
    have ht : t.kind = kind := by simpa [starts] using h
    refine ⟨?_, trivial⟩
    show t.kind.isBracket = false
    rw [ht, hk]

namespace Parser

variable {α β : Type} {P Q : List Lexeme → Prop}

def Stays (P : List Lexeme → Prop) (p : Parser α) : Prop :=
  ∀ t r s, P s → UpTo t r s → (p.run s).built.Each Shape.Shallow → UpTo t r (p.run s).rest

theorem Stays.mono {p : Parser α} (hp : Stays P p) (h : ∀ s, Q s → P s) : Stays Q p :=
  fun t r s hs => hp t r s (h s hs)

theorem stays_pure (a : α) : Stays P (pure a : Parser α) := fun _ _ _ _ h _ => h

theorem stays_bind {p : Parser α} {f : α → Parser β} (hp : Stays P p)
    (hf : ∀ a, Stays Always (f a)) : Stays P (p >>= f) := by
  intro t r s hs h hshallow
  rw [run_bind] at hshallow ⊢
  obtain ⟨h₁, h₂⟩ := (Forest.each_append _ _ _).mp hshallow
  exact hf _ t r _ trivial (hp t r s hs h h₁) h₂

theorem stays_choose {f : List Lexeme → Parser α} (h : ∀ s, P s → Stays (· = s) (f s)) :
    Stays P (choose f) :=
  fun t r s hs => h s hs t r s rfl

theorem stays_take (kind : NodeKind) : Stays AtPlain (take kind) := by
  intro t r s hs h _
  cases s with
  | nil => exact hs.elim
  | cons u s => exact h.of_plain hs.1

theorem stays_wrap (kind : NodeKind) {p : Parser α} (hp : Stays P p) : Stays P (wrap kind p) :=
  fun t r s hs h hshallow => hp t r s hs h hshallow.2.1

theorem stays_tooDeep : Stays P tooDeep := fun _ _ _ _ h _ => h.drop_balancedExtent

end Parser

namespace Step

open SchemaLang.Parser

variable {α β : Type} {recovery : Recovery} {P Q : List Lexeme → Prop}

def StaysOr (recovery : Recovery) (P : List Lexeme → Prop) (p : Step α) : Prop :=
  ∀ t r s, P s → UpTo t r s → (Parser.run p s).built.Each Shape.Shallow →
    UpTo t r (Parser.run p s).rest ∧
      ∀ e, (Parser.run p s).value = .error e → e.recovery = recovery ∧ e.fault ≠ .tooDeep

theorem staysOr_done (a : α) : StaysOr recovery P (pure a : Step α) :=
  fun _ _ _ _ h _ => ⟨h, by simp⟩

theorem staysOr_liftM {p : Parser α} (hp : Stays P p) :
    StaysOr recovery P (liftM p : Step α) := by
  intro t r s hs h hshallow
  rw [run_liftM] at hshallow ⊢
  exact ⟨hp t r s hs h hshallow, by simp⟩

theorem staysOr_stop {fault : Fault} (hf : fault ≠ .tooDeep) :
    StaysOr recovery P (stop recovery fault : Step α) := by
  intro t r s _ h _
  refine ⟨h, fun e he => ?_⟩
  obtain rfl := Except.error.inj he
  exact ⟨rfl, hf⟩

theorem staysOr_then {p : Step α} {f : α → Step β} (hp : StaysOr recovery P p)
    (hf : ∀ a, StaysOr recovery Always (f a)) : StaysOr recovery P (p >>= f : Step β) := by
  intro t r s hs h hshallow
  cases hv : (Parser.run p s).value with
  | error e =>
    rw [run_bind_of_error f hv] at hshallow ⊢
    obtain ⟨hrest, hstop⟩ := hp t r s hs h hshallow
    exact ⟨hrest, fun e' he => hstop e' (by rw [hv]; simpa using he)⟩
  | ok a =>
    rw [run_bind_of_ok f hv] at hshallow ⊢
    obtain ⟨h₁, h₂⟩ := (Forest.each_append _ _ _).mp hshallow
    exact hf a t r _ trivial (hp t r s hs h h₁).1 h₂

theorem staysOr_choose {f : List Lexeme → Step α}
    (h : ∀ s, P s → StaysOr recovery (· = s) (f s)) : StaysOr recovery P (choose f) :=
  fun t r s hs => h s hs t r s rfl

/-- A lexeme that is no bracket, and the step behind it. -/
theorem staysOr_bump_then {f : Unit → Step β} (hf : StaysOr recovery Q (f ())) :
    StaysOr recovery (Begins (fun t => t.kind.isBracket = false) Q)
      ((liftM Parser.bump : Step Unit) >>= f) := by
  intro t r s hs h hshallow
  cases s with
  | nil => exact hs.elim
  | cons u s =>
    rw [run_bump_then] at hshallow ⊢
    exact hf t r s hs.2 (h.of_plain hs.1) hshallow

theorem staysOr_require_then {kind : TokenKind} (hk : kind.isBracket = false)
    {fault : String → Fault} (hfault : ∀ text, fault text ≠ .tooDeep) {p : Step α}
    (hp : StaysOr recovery AtPlain p) :
    StaysOr recovery P (require kind recovery fault >>= fun _ => p : Step α) := by
  intro t r s _ h
  cases hs : starts kind s with
  | true =>
    rw [run_bind_of_ok _ (by rw [run_require_of_starts recovery fault hs]),
      run_require_of_starts recovery fault hs]
    exact hp t r s (atPlain_of_starts hk hs) h
  | false =>
    rw [run_bind_of_error _ (by rw [run_require_of_not_starts recovery fault hs]),
      run_require_of_not_starts recovery fault hs]
    exact fun _ => staysOr_stop (α := α) (P := Always) (hfault _) t r s trivial h trivial

theorem staysOr_punct {kind : TokenKind} (hk : kind.isBracket = false) {fault : String → Fault}
    (hfault : ∀ text, fault text ≠ .tooDeep) : StaysOr recovery P (punct kind recovery fault) := by
  apply staysOr_require_then hk hfault
  apply staysOr_liftM
  intro t r s hs h _
  cases s with
  | nil => exact hs.elim
  | cons u s => exact h.of_plain hs.1

theorem staysOr_expect {kind : TokenKind} (hk : kind.isBracket = false) (node : NodeKind)
    {fault : String → Fault} (hfault : ∀ text, fault text ≠ .tooDeep) :
    StaysOr recovery P (expect kind node recovery fault) :=
  staysOr_require_then hk hfault (staysOr_liftM (stays_take node))

theorem staysOr_group (kind : NodeKind) (complete : α → Bool) {body : Step α}
    (hb : StaysOr recovery P body) : StaysOr recovery P (group kind complete body) := by
  intro t r s hs h hshallow
  rw [run_group] at hshallow ⊢
  have hbody := hb t r s hs h
  cases hv : (Parser.run body s).value with
  | error e =>
    simp only [hv] at hshallow ⊢
    exact ⟨(hbody hshallow).1, fun e' he => (hbody hshallow).2 e' (by simpa [hv] using he)⟩
  | ok a =>
    simp only [hv] at hshallow ⊢
    exact ⟨(hbody hshallow.2.1).1, by simp⟩

def Finished (recovery : Recovery) (t : Lexeme) (r : List Lexeme)
    (o : Parsed (Except Stop α)) : Prop :=
  match o.value with
  | .ok _ => o.rest = r
  | .error e => e.recovery = recovery ∧ e.fault ≠ .tooDeep ∧ UpTo t r o.rest

theorem Finished.map {t : Lexeme} {r : List Lexeme} {o : Parsed (Except Stop α)}
    (h : Finished recovery t r o) (f : α → β) (row : Row) :
    Finished recovery t r ⟨o.value.map f, row, o.rest⟩ := by
  obtain ⟨value, built, rest⟩ := o
  cases value <;> exact h

def Finishes (recovery : Recovery) (closer : TokenKind) (p : Step α) : Prop :=
  ∀ t r s, t.kind = closer → UpTo t r s → (Parser.run p s).built.Each Shape.Shallow →
    Finished recovery t r (Parser.run p s)

theorem finishes_then {closer : TokenKind} {p : Step α} {f : α → Step β}
    (hp : StaysOr recovery Always p) (hf : ∀ a, Finishes recovery closer (f a)) :
    Finishes recovery closer (p >>= f : Step β) := by
  intro t r s ht h hshallow
  cases hv : (Parser.run p s).value with
  | error e =>
    rw [run_bind_of_error f hv] at hshallow ⊢
    obtain ⟨hrest, hstop⟩ := hp t r s trivial h hshallow
    exact ⟨(hstop e hv).1, (hstop e hv).2, hrest⟩
  | ok a =>
    rw [run_bind_of_ok f hv] at hshallow ⊢
    obtain ⟨h₁, h₂⟩ := (Forest.each_append _ _ _).mp hshallow
    exact hf a t r _ ht (hp t r s trivial h h₁).1 h₂

theorem finishes_map {closer : TokenKind} {p : Step α} (f : α → β)
    (hp : Finishes recovery closer p) :
    Finishes recovery closer (p >>= fun a => pure (f a) : Step β) := by
  intro t r s ht h hshallow
  have hfinished := hp t r s ht h
  cases hv : (Parser.run p s).value with
  | error e =>
    rw [run_bind_of_error _ hv] at hshallow ⊢
    simp only [Finished, hv] at hfinished
    exact hfinished hshallow
  | ok a =>
    rw [run_bind_of_ok _ hv] at hshallow ⊢
    simp only [Finished, hv] at hfinished
    exact hfinished ((Forest.each_append _ _ _).mp hshallow).1

theorem finishes_sepTail {item : Step α} {closer : TokenKind} (hc : closer.isCloser = true)
    (hi : StaysOr recovery Always item) {otherwise : String → Stop}
    (ho : ∀ text, (otherwise text).recovery = recovery ∧ (otherwise text).fault ≠ .tooDeep) :
    Finishes recovery closer (sepTail item closer otherwise) := by
  intro t r s ht h hshallow
  change (sepTail.loop item closer otherwise s).built.Each Shape.Shallow at hshallow
  show Finished recovery t r (sepTail.loop item closer otherwise s)
  fun_induction sepTail.loop item closer otherwise s with
  | case1 => exact absurd rfl h.ne_nil
  | case2 u s hu => exact (h.of_closer (hu ▸ hc)).2
  | case3 u s hu hcomma o e he =>
    have hs := h.of_plain (by rw [hcomma]; rfl)
    obtain ⟨hrest, hstop⟩ := hi t r s trivial hs hshallow
    exact ⟨(hstop e he).1, (hstop e he).2, hrest⟩
  | case4 u s hu hcomma o a ha rest ih =>
    have hs := h.of_plain (by rw [hcomma]; rfl)
    obtain ⟨h₁, h₂⟩ := (Forest.each_append _ _ _).mp hshallow
    exact (ih (hi t r s trivial hs h₁).1 h₂).map _ _
  | case5 u s hu hcomma => exact ⟨(ho _).1, (ho _).2, h⟩

end Step

namespace Parser

theorem stays_construct {kind : NodeKind} {body : Step Bool} {P : List Lexeme → Prop}
    (hb : Step.StaysOr .value P body) : Stays P (construct kind body) := by
  intro t r s hs h hshallow
  have hbody := hb t r s hs h
  cases hv : (run body s).value with
  | ok sound =>
    rw [run_construct_of_ok hv] at hshallow ⊢
    exact (hbody hshallow.2.1).1
  | error e =>
    rw [run_construct_of_error hv] at hshallow ⊢
    obtain ⟨-, hinside, hskip, -⟩ := hshallow
    obtain ⟨hrest, hstop⟩ := hbody hinside
    obtain ⟨hrecovery, hfault⟩ := hstop e hv
    rw [Shape.Shallow, Forest.leaves_ofTokens, hrecovery] at hskip
    rw [hrecovery]
    exact hrest.drop_value (hskip.resolve_left hfault)

end Parser

namespace Parse

open SchemaLang.Parser Step

variable {value : Parser Bool}

theorem stays_literal (kind : NodeKind) : Stays AtPlain (literal kind) :=
  stays_bind (stays_take kind) fun _ => stays_pure true

theorem stays_number : Stays AtPlain number := by
  apply stays_choose
  intro s hs
  split
  · rename_i hdot
    refine (stays_construct (staysOr_bump_then (staysOr_bump_then (staysOr_then (P := Always)
      (staysOr_punct (by rfl) fun _ => by simp) fun _ => staysOr_done true)))).mono ?_
    rintro r rfl
    obtain ⟨t, u, s, rfl⟩ : ∃ t u s, r = t :: u :: s := by
      match r with
      | [] => simp [startsWord] at hdot
      | [t] => simp [startsWord] at hdot
      | t :: u :: s => exact ⟨t, u, s, rfl⟩
    have hword : u.kind = .identifier := kind_of_isWord hdot
    refine ⟨hs.1, ?_, trivial⟩
    show u.kind.isBracket = false
    rw [hword]
    rfl
  · exact (stays_literal .intValue).mono fun r hr => hr ▸ hs

theorem finishes_elements {item : Step Bool} {closer : TokenKind} {recovery : Recovery}
    (hc : closer.isCloser = true) (hi : StaysOr recovery Always item) {otherwise : String → Stop}
    (ho : ∀ text, (otherwise text).recovery = recovery ∧ (otherwise text).fault ≠ .tooDeep) :
    Finishes recovery closer (elements item closer otherwise) :=
  finishes_then hi fun _ => finishes_map _ (finishes_sepTail hc hi ho)

def Encloses (opener closer : TokenKind) (p : Parser Bool) : Prop :=
  ∀ u t r s, u.kind = opener → t.kind = closer → UpTo t r s →
    (p.run (u :: s)).built.Each Shape.Shallow → (p.run (u :: s)).rest = r

theorem Encloses.stays {opener closer : TokenKind} {p : Parser Bool} (h : Encloses opener closer p)
    (ho : opener.closer? = some closer) : Stays (fun s => starts opener s = true) p := by
  intro t r s hs hup hshallow
  cases s with
  | nil => simp [starts] at hs
  | cons u s =>
    have hu : u.kind = opener := by simpa [starts] using hs
    obtain ⟨t', r', ht', hinner, houter⟩ := hup.of_opener (by rw [hu, ho])
    rw [h u t' r' s hu ht' hinner hshallow]
    exact houter

theorem encloses_construct (kind : NodeKind) (opener : TokenKind) {closer : TokenKind}
    {body : Step Bool} (hb : Finishes (.delimited closer) closer body) :
    Encloses opener closer (construct kind (liftM bump >>= fun _ => body)) := by
  intro u t r s _ ht h hshallow
  have hrun := run_bump_then (fun _ => body) u s
  have hbody := hb t r s ht h
  cases hv : (Parser.run body s).value with
  | ok sound =>
    rw [run_construct_of_ok (by rw [hrun, hv]), hrun] at hshallow ⊢
    simp only [Finished, hv] at hbody
    exact hbody hshallow.2.1
  | error e =>
    rw [run_construct_of_error (by rw [hrun, hv]), hrun] at hshallow ⊢
    simp only [Finished, hv] at hbody
    obtain ⟨-, hinside, hskip, -⟩ := hshallow
    obtain ⟨hrecovery, hfault, hrest⟩ := hbody hinside
    rw [Shape.Shallow, Forest.leaves_ofTokens, hrecovery, ← ht] at hskip
    rw [hrecovery, ← ht]
    exact hrest.drop_delimited (hskip.resolve_left hfault)

theorem encloses_bracketed (kind : NodeKind) (opener : TokenKind) {closer : TokenKind}
    (hc : closer.isCloser = true) {item : Step Bool}
    (hi : StaysOr (.delimited closer) Always item) {otherwise : String → Stop}
    (ho : ∀ text, (otherwise text).recovery = .delimited closer ∧
      (otherwise text).fault ≠ .tooDeep) :
    Encloses opener closer (construct kind (between closer item otherwise)) := by
  have hbody : Finishes (.delimited closer) closer (Step.choose fun s =>
      if starts closer s then do
        bump
        pure true
      else elements item closer otherwise) := by
    intro t r s ht h
    rw [Step.run_choose]
    split
    · rename_i hs
      cases s with
      | nil => simp [starts] at hs
      | cons u s =>
        have hu : u.kind = closer := by simpa [starts] using hs
        exact fun _ => (h.of_closer (hu ▸ hc)).2
    · exact finishes_elements hc hi ho t r s ht h
  exact encloses_construct kind opener hbody

theorem encloses_list (h : Stays Always value) : Encloses .lbracket .rbracket (list value) :=
  encloses_bracketed .list .lbracket rfl (staysOr_liftM h) fun _ => ⟨rfl, nofun⟩

theorem staysOr_mapEntry (h : Stays Always value) :
    StaysOr (.delimited .rbrace) Always (mapEntry value) :=
  staysOr_group _ _ (staysOr_then (staysOr_liftM h) fun _ =>
    staysOr_then (staysOr_punct rfl fun _ => nofun) fun _ =>
      staysOr_then (staysOr_liftM h) fun _ => staysOr_done _)

theorem encloses_map (h : Stays Always value) : Encloses .lbrace .rbrace (map value) :=
  encloses_bracketed .map .lbrace rfl (staysOr_mapEntry h) fun _ => ⟨rfl, nofun⟩

theorem encloses_arguments (h : Stays Always value) :
    Encloses .lparen .rparen (arguments value) := by
  refine encloses_bracketed .arguments .lparen rfl (staysOr_choose fun s _ => ?_)
    fun _ => ⟨rfl, nofun⟩
  split
  · exact staysOr_stop nofun
  · exact staysOr_liftM (h.mono fun _ _ => trivial)

theorem stays_notAValue : Stays Always notAValue := by
  intro t r s _ h hshallow
  cases s with
  | nil => exact absurd rfl h.ne_nil
  | cons u s =>
    obtain ⟨hskip, -⟩ := hshallow
    rw [Shape.Shallow, Forest.leaves_ofTokens] at hskip
    replace hskip := hskip.resolve_left nofun
    show UpTo t r ((u :: s).drop _)
    dsimp only at hskip ⊢
    split
    · exact h
    · exact h
    · exact h
    · exact h
    · exact h
    · rename_i hparen hbracket hbrace hcomma hsemi
      have hnone : u.kind.closer? = none := hskip u (by simp)
      have hplain : u.kind.isBracket = false := by
        cases hk : u.kind <;>
          simp_all [TokenKind.isBracket, TokenKind.closer?, TokenKind.isCloser]
      exact h.of_plain hplain

theorem stays_construction (h : Stays Always value) :
    Stays (Begins (fun t => t.kind.isBracket = false) (fun s => starts .lparen s = true))
      (construction value) := by
  apply stays_wrap
  intro t r s hs hup hshallow
  cases s with
  | nil => exact hs.elim
  | cons u s => exact (encloses_arguments h).stays rfl t r s hs.2 (hup.of_plain hs.1) hshallow.2.2

theorem stays_valueOf {list map construction : Parser Bool}
    (hl : Stays (fun s => starts .lbracket s = true) list)
    (hm : Stays (fun s => starts .lbrace s = true) map)
    (hc : Stays (Begins (fun t => t.kind.isBracket = false) (fun s => starts .lparen s = true))
      construction) : Stays Always (valueOf list map construction) := by
  apply stays_choose
  intro s _
  cases s with
  | nil => exact stays_notAValue.mono fun _ _ => trivial
  | cons t s =>
    have hplain (hk : t.kind.isBracket = false) (r : List Lexeme) (hr : r = t :: s) : AtPlain r :=
      hr ▸ ⟨hk, trivial⟩
    dsimp only
    split
    · rename_i hk
      exact stays_number.mono (hplain (by rw [hk]; rfl))
    · rename_i hk
      exact (stays_literal _).mono (hplain (by rw [hk]; rfl))
    · rename_i hk
      exact (stays_literal _).mono (hplain (by rw [hk]; rfl))
    · rename_i hk
      exact hl.mono (by rintro _ rfl; simp [starts, hk])
    · rename_i hk
      exact hm.mono (by rintro _ rfl; simp [starts, hk])
    · rename_i hk
      have hname : t.kind.isBracket = false := by rw [hk]; rfl
      split
      · exact (stays_literal _).mono (hplain hname)
      split
      · exact hc.mono (by rintro _ rfl; exact ⟨hname, ‹_›⟩)
      · exact (stays_literal _).mono (hplain hname)
    · exact stays_notAValue.mono fun _ _ => trivial

theorem stays_value (room : Nat) : Stays Always (Parse.value room) := by
  induction room with
  | zero => exact stays_valueOf stays_tooDeep stays_tooDeep stays_tooDeep
  | succ room ih =>
    exact stays_valueOf ((encloses_list ih).stays rfl) ((encloses_map ih).stays rfl)
      (stays_construction ih)

/-! ## Tags -/

theorem staysOr_namedArgument (h : Stays Always value) :
    StaysOr .tag Always (namedArgument value) :=
  staysOr_group _ _ (staysOr_then (staysOr_expect rfl _ fun _ => nofun) fun _ =>
    staysOr_then (staysOr_punct rfl fun _ => nofun) fun _ => staysOr_liftM h)

/-- Either form of arguments ends behind the parenthesis, or stops in front of it. -/
theorem finished_tagArguments (h : Stays Always value) (otherwise : String → Stop)
    (ho : ∀ text, (otherwise text).recovery = .tag ∧ (otherwise text).fault ≠ .tooDeep)
    {u t : Lexeme} {r s : List Lexeme} (hu : u.kind = .lparen) (ht : t.kind = .rparen)
    (hup : UpTo t r s) :
    let arguments : Step Unit := Step.choose fun s =>
      if starts .lparen s then
        if isNamed s then do
          bump
          let _ ← elements (namedArgument value) .rparen otherwise
        else do
          let _ ← arguments value
      else pure ()
    (Parser.run arguments (u :: s)).built.Each Shape.Shallow →
      Finished .tag t r (Parser.run arguments (u :: s)) := by
  dsimp only
  rw [Step.run_choose, if_pos (by simp [starts, hu])]
  split
  · rw [run_bump_then]
    exact finishes_map _ (finishes_elements rfl (staysOr_namedArgument h) ho) t r s ht hup
  · intro hshallow
    rw [run_bind_of_ok _ (by rw [run_liftM]), run_liftM] at hshallow ⊢
    have hinner := ((Forest.each_append _ _ _).mp hshallow).1
    exact encloses_arguments h u t r s hu ht hup hinner

/-- Behind arguments that end or stop so, the tag takes its bracket or is
skipped up to it. -/
theorem rest_statement {args : Step Unit} {fault fault' : String → Fault}
    {lb name lp rp rb : Lexeme} {r s : List Lexeme} (hname : name.kind = .identifier)
    (hrp : rp.kind = .rparen) (hrb : rb.kind = .rbracket)
    (hargs : (Parser.run args (lp :: s)).built.Each Shape.Shallow →
      Finished .tag rp (rb :: r) (Parser.run args (lp :: s)))
    (hshallow : ((statement .tag (do
      bump
      let _ ← expect .identifier .typeRef .tag fault
      args
      closing .rbracket .tag fault')).run (lb :: name :: lp :: s)).built.Each Shape.Shallow) :
    ((statement .tag (do
      bump
      let _ ← expect .identifier .typeRef .tag fault
      args
      closing .rbracket .tag fault')).run (lb :: name :: lp :: s)).rest = r := by
  have hexpect := run_expect hname .typeRef .tag fault (lp :: s)
  have hnamed := run_bind_of_ok (fun _ => do
    args
    closing .rbracket .tag fault') (s := name :: lp :: s) (by rw [hexpect])
  have hbody := run_bump_then (fun _ => do
    let _ ← expect .identifier .typeRef .tag fault
    args
    closing .rbracket .tag fault') lb (name :: lp :: s)
  rw [hnamed, hexpect] at hbody
  obtain ⟨-, -, hinside⟩ := each_of_statement hshallow
  obtain ⟨row, hrow⟩ := built_bind args (fun _ => closing .rbracket .tag fault') (lp :: s)
  rw [hbody] at hinside
  simp only [hrow, Forest.each_leaf, Forest.each_append] at hinside
  have hfinished := hargs hinside.2.1
  cases hv : (Parser.run args (lp :: s)).value with
  | error e =>
    rw [run_bind_of_error _ hv] at hbody
    rw [run_statement_of_error (by rw [hbody]), hbody] at hshallow ⊢
    obtain ⟨-, -, hskip, -⟩ := hshallow
    simp only [Finished, hv] at hfinished
    obtain ⟨hrecovery, hfault, hrest⟩ := hfinished
    rw [Shape.Shallow, Forest.leaves_ofTokens, hrecovery] at hskip
    rw [hrecovery]
    exact hrest.drop_tag hrp hrb (hskip.resolve_left hfault)
  | ok u =>
    simp only [Finished, hv] at hfinished
    have hclosing : Parser.run (closing .rbracket .tag fault') (rb :: r) =
        ⟨.ok (), .leaf rb .nil, r⟩ := by
      rw [closing, Step.run_choose, if_pos (by simp [starts, hrb]), run_liftM]
      rfl
    rw [run_bind_of_ok _ hv, hfinished, hclosing] at hbody
    rw [run_statement_of_ok (by rw [hbody]), hbody]

/-- A tag with arguments ends behind its bracket, whatever is wrong with them. -/
theorem rest_tag (h : Stays Always value) {lb name lp rp rb : Lexeme} {r s : List Lexeme}
    (hname : name.kind = .identifier) (hlp : lp.kind = .lparen)
    (hrp : rp.kind = .rparen) (hrb : rb.kind = .rbracket) (hup : UpTo rp (rb :: r) s)
    (hshallow : ((tag value).run (lb :: name :: lp :: s)).built.Each Shape.Shallow) :
    ((tag value).run (lb :: name :: lp :: s)).rest = r := by
  have hargs := finished_tagArguments h
    (fun found => ⟨.tag, .misplaced "',' or ')'" .tag found⟩) (fun _ => ⟨rfl, nofun⟩) hlp hrp hup
  exact rest_statement hname hrp hrb hargs hshallow

theorem run_topLevel_tag (room : Nat) {lb : Lexeme} (hlb : lb.kind = .lbracket) (s : List Lexeme) :
    (topLevel room).run (lb :: s) = ⟨true, ((tag (Parse.value room)).run (lb :: s)).built,
      ((tag (Parse.value room)).run (lb :: s)).rest⟩ := by
  have hword (text : String) : startsWord text (lb :: s) = false := by
    simp [startsWord, Lexeme.isWord, hlb]
  have hstarts : starts .lbracket (lb :: s) = true := by simp [starts, hlb]
  rw [topLevel, Parser.run_choose]
  simp only [hword, hstarts, List.isEmpty_cons, Bool.false_eq_true, if_false, if_true]
  exact run_present _ _

end Parse

/-- What stands behind a tag is parsed as if the tag were not there. -/
theorem parseWith_tag {room : Nat} {lb name lp rp rb : Lexeme} {body r : List Lexeme}
    (hlb : lb.kind = .lbracket) (hname : name.kind = .identifier) (hlp : lp.kind = .lparen)
    (hrp : rp.kind = .rparen) (hrb : rb.kind = .rbracket) (hbody : Balanced body)
    (hsemi : ∀ t ∈ body, t.kind ≠ .semicolon)
    (hshallow : (parseWith room (lb :: name :: lp :: (body ++ rp :: rb :: r))).Each
      Shape.Shallow) :
    ∃ damaged, parseWith room (lb :: name :: lp :: (body ++ rp :: rb :: r)) =
      damaged ++ parseWith room r := by
  have hup : UpTo rp (rb :: r) (body ++ rp :: rb :: r) :=
    ⟨by rw [hrp]; rfl, body, rfl, hbody, hsemi⟩
  have hrun := Parse.run_topLevel_tag room hlb (name :: lp :: (body ++ rp :: rb :: r))
  obtain ⟨row, hrow⟩ := Parser.built_members (Parse.topLevel room)
    (lb :: name :: lp :: (body ++ rp :: rb :: r))
  have htag : (Parser.members.loop (Parse.topLevel room)
      (lb :: name :: lp :: (body ++ rp :: rb :: r))).built.Each Shape.Shallow := hshallow
  rw [hrow, hrun] at htag
  have hrest := Parse.rest_tag (Parse.stays_value room) hname hlp hrp hrb hup
    ((Forest.each_append _ _ _).mp htag).1
  rw [hrest] at hrun
  have hlt : r.length < (lb :: name :: lp :: (body ++ rp :: rb :: r)).length := by
    simp only [List.length_cons, List.length_append]
    omega
  exact ⟨_, congrArg Parsed.built (Parser.run_members_cons hrun hlt)⟩

namespace SchemaFile

/-- The definitions behind a tag with any balanced arguments without `;` are
read as in a file of their own, if no bracket was skipped. -/
theorem content_behind_tag (file rest : SchemaFile) {lb name lp rp rb : Lexeme}
    {body : List Lexeme}
    (hsource : significant (lexemes file.source) =
      lb :: name :: lp :: (body ++ rp :: rb :: significant (lexemes rest.source)))
    (hlb : lb.kind = .lbracket) (hname : name.kind = .identifier) (hlp : lp.kind = .lparen)
    (hrp : rp.kind = .rparen) (hrb : rb.kind = .rbracket) (hbody : Balanced body)
    (hsemi : ∀ t ∈ body, t.kind ≠ .semicolon) (hshallow : file.content.Each Shape.Shallow) :
    ∃ damaged, file.content = damaged ++ rest.content := by
  rw [content_eq, parseRow, hsource] at hshallow ⊢
  rw [content_eq]
  exact parseWith_tag hlb hname hlp hrp hrb hbody hsemi hshallow

theorem content_behind_wrong_argument :
    (read (.unsaved 0) "[N(1 = 2)] type T \x7b \x7d").faults ≠ [] ∧
      Balanced [⟨.integer, "1"⟩, ⟨.equals, "="⟩, ⟨.integer, "2"⟩] ∧
      (read (.unsaved 0) "[N(1 = 2)] type T \x7b \x7d").content.Each Shape.Shallow ∧
      ∃ damaged, (read (.unsaved 0) "[N(1 = 2)] type T \x7b \x7d").content =
        damaged ++ (read (.unsaved 1) "type T \x7b \x7d").content := by
  have hshallow : (read (.unsaved 0) "[N(1 = 2)] type T \x7b \x7d").content.Each
      Shape.Shallow := by decide +kernel
  have hbody : Balanced [⟨.integer, "1"⟩, ⟨.equals, "="⟩, ⟨.integer, "2"⟩] := by decide
  have hsource : significant (lexemes (read (.unsaved 0)
      "[N(1 = 2)] type T \x7b \x7d").source) =
      ⟨.lbracket, "["⟩ :: ⟨.identifier, "N"⟩ :: ⟨.lparen, "("⟩ ::
        ([⟨.integer, "1"⟩, ⟨.equals, "="⟩, ⟨.integer, "2"⟩] ++ ⟨.rparen, ")"⟩ ::
          ⟨.rbracket, "]"⟩ :: significant (lexemes (read (.unsaved 1)
            "type T \x7b \x7d").source)) := by
    decide +kernel
  have hfaults : (read (.unsaved 0) "[N(1 = 2)] type T \x7b \x7d").faults ≠ [] :=
    fun h => absurd (congrArg List.length h) (by decide +kernel)
  exact ⟨hfaults, hbody, hshallow, content_behind_tag _ _ hsource rfl rfl rfl rfl rfl hbody
    (by decide) hshallow⟩

/-- The bracket of the list is skipped, its closer ends the tag, and the rest
of the tag takes the definition with it. -/
theorem list_in_arguments_takes_definition :
    significant (lexemes "[N(1 [] 2)] type T \x7b \x7d") =
        ⟨.lbracket, "["⟩ :: ⟨.identifier, "N"⟩ :: ⟨.lparen, "("⟩ ::
          ([⟨.integer, "1"⟩, ⟨.lbracket, "["⟩, ⟨.rbracket, "]"⟩, ⟨.integer, "2"⟩] ++
            ⟨.rparen, ")"⟩ :: ⟨.rbracket, "]"⟩ :: significant (lexemes "type T \x7b \x7d")) ∧
      Balanced [⟨.integer, "1"⟩, ⟨.lbracket, "["⟩, ⟨.rbracket, "]"⟩, ⟨.integer, "2"⟩] ∧
      (∀ t ∈ [(⟨.integer, "1"⟩ : Lexeme), ⟨.lbracket, "["⟩, ⟨.rbracket, "]"⟩, ⟨.integer, "2"⟩],
        t.kind ≠ .semicolon) ∧
      (read (.unsaved 1) "type T \x7b \x7d").faults = [] ∧
      .construct .type true ∈ (read (.unsaved 1) "type T \x7b \x7d").content.tops ∧
      .construct .type true ∉
        (read (.unsaved 0) "[N(1 [] 2)] type T \x7b \x7d").content.tops :=
  ⟨by decide +kernel, by decide, by decide, List.isEmpty_iff.mp (by decide +kernel),
    by decide +kernel, by decide +kernel⟩

end SchemaFile

end SchemaLang
