import SchemaLang.Proofs.Reading
import SchemaLang.Proofs.Severing

/-!
# Statements and members that read a language

The steps of a statement end with its closer. When another member may begin
where the closer is missing, they stop there, keep what they built and skip
nothing. Members are read one after the other while the member parser
applies, and a block is a statement around them. A word that lacks one closer
is read as before up to that place, and from there on too.
-/

set_option autoImplicit false

namespace SchemaLang

open Grammar Computability

abbrev AnyKind : NodeKind → Prop := fun _ => True

abbrev Plain : NodeKind → Prop := fun kind => kind ≠ .tag

theorem Whole.any {kinds : NodeKind → Prop} {row : Row} (h : Whole kinds row) :
    Whole AnyKind row :=
  Forest.Each.imp (fun _ _ ⟨kind, _, hk⟩ => ⟨kind, trivial, hk⟩) h

abbrev AtWord (text : String) : List Lexeme → Prop := Begins (fun t => t.isWord text = true) Always

abbrev AtToken (kind : TokenKind) : List Lexeme → Prop := Begins (fun t => t.kind = kind) Always

def Resumes (s : List Lexeme) : Prop := s = [] ∨ startsMember s = true

theorem Resumes.not_starts {kind : TokenKind} {s : List Lexeme} (h : Resumes s)
    (h₁ : kind ≠ .identifier) (h₂ : kind ≠ .lbracket) (h₃ : kind ≠ .rbrace) :
    starts kind s = false := by
  cases s with
  | nil => rfl
  | cons t s =>
    have ht : (t.kind = .identifier ∨ t.kind = .lbracket) ∨ t.kind = .rbrace := by
      simpa [Resumes, startsMember, starts] using h
    rcases ht with (ht | ht) | ht <;> simp [starts, ht, h₁.symm, h₂.symm, h₃.symm]

def Ends (closer : TokenKind) (s : List Lexeme) : Prop := starts closer s = true ∨ Resumes s

theorem ends_cons {closer : TokenKind} {t : Lexeme} (ht : t.kind = closer) (s : List Lexeme) :
    Ends closer (t :: s) := .inl (by simp [starts, ht])

theorem Ends.not_starts {closer kind : TokenKind} {s : List Lexeme} (h : Ends closer s)
    (hk : kind ≠ closer) (h₁ : kind ≠ .identifier) (h₂ : kind ≠ .lbracket)
    (h₃ : kind ≠ .rbrace) : starts kind s = false := by
  rcases h with h | h
  · cases s with
    | nil => rfl
    | cons t s =>
      have ht : t.kind = closer := by simpa [starts] using h
      simp [starts, ht, hk.symm]
  · exact h.not_starts h₁ h₂ h₃

namespace Step

variable {α : Type} {kinds : NodeKind → Prop} {L L₁ L₂ : Language Lexeme} {closer : TokenKind}
  {P Q F : List Lexeme → Prop}

theorem Accepts.any {p : Step α} {good : α → Prop}
    (h : Accepts kinds p good L P F) : Accepts AnyKind p good L P F where
  sound := h.sound
  complete w hw := by
    obtain ⟨a, row, ha, hl, hr, hrun⟩ := h.complete w hw
    exact ⟨a, row, ha, hl, hr.any, hrun⟩

structure Closes (kinds : NodeKind → Prop) (p : Step Unit) (L : Language Lexeme)
    (closer : TokenKind) (P : List Lexeme → Prop) : Prop where
  sound : ∀ s, P s → Faultless (Parser.run p s).built → (Parser.run p s).value = .ok () →
    (Parser.run p s).built.leaves ∈ L * token closer
  complete : ∀ w ∈ L, ∃ row, row.leaves = w ∧ Whole kinds row ∧
    (∀ t rest, t.kind = closer →
      Parser.run p (w ++ t :: rest) = ⟨.ok (), row ++ .leaf t .nil, rest⟩) ∧
    ∀ rest, Resumes rest →
      ∃ fault, Parser.run p (w ++ rest) = ⟨.error ⟨.here, fault⟩, row, rest⟩

theorem Closes.mono {p : Step Unit} (h : Closes kinds p L closer P) (hP : ∀ s, Q s → P s) :
    Closes kinds p L closer Q where
  sound s hs := h.sound s (hP s hs)
  complete := h.complete

theorem closes_closing (recovery : Recovery) (fault : String → Fault)
    (h₁ : closer ≠ .identifier) (h₂ : closer ≠ .lbracket) (h₃ : closer ≠ .rbrace) :
    Closes kinds (closing closer recovery fault) 1 closer P where
  sound s _ _ hv := by
    cases s with
    | nil => simp [closing, starts] at hv
    | cons t s =>
      cases ht : starts closer (t :: s) with
      | true =>
        have hkind : t.kind = closer := by simpa [starts] using ht
        rw [closing, run_choose, if_pos ht, run_liftM, one_mul]
        exact ⟨t, hkind, rfl⟩
      | false =>
        rw [closing, run_choose, if_neg (by simp [ht])] at hv
        split at hv <;> simp at hv
  complete := by
    rintro _ rfl
    refine ⟨.nil, rfl, trivial, fun t rest ht => ?_, fun rest hrest => ⟨fault (found rest), ?_⟩⟩
    · have hs : starts closer (t :: rest) = true := by simp [starts, ht]
      rw [List.nil_append, closing, run_choose, if_pos hs, run_liftM]
      rfl
    · have hc : (rest.isEmpty || startsMember rest) = true := by
        rcases hrest with rfl | h
        · rfl
        · rw [h, Bool.or_true]
      rw [List.nil_append, closing, run_choose,
        if_neg (by simp [hrest.not_starts h₁ h₂ h₃]), if_pos hc, run_stop]

theorem closes_bind {p : Step α} {f : α → Step Unit} {good : α → Prop}
    (hp : Accepts kinds p good L₁ P F) (hf : ∀ a, good a → Closes kinds (f a) L₂ closer Always)
    (hF : ∀ w ∈ L₂, ∀ rest, Ends closer rest → F (w ++ rest)) :
    Closes kinds (p >>= f : Step Unit) (L₁ * L₂) closer P where
  sound s hs hfl hv := by
    cases h : (Parser.run p s).value with
    | error e => simp [run_bind_of_error f h] at hv
    | ok a =>
      rw [run_bind_of_ok f h] at hfl hv ⊢
      obtain ⟨hfl₁, hfl₂⟩ := faultless_append.mp hfl
      obtain ⟨ha, hw₁⟩ := hp.sound s a hs hfl₁ h
      have hw₂ := (hf a ha).sound _ trivial hfl₂ hv
      rw [Forest.leaves_append, mul_assoc]
      exact Language.append_mem_mul hw₁ hw₂
  complete := by
    rintro _ ⟨u, hu, v, hv, rfl⟩
    obtain ⟨a, row₁, ha, hl₁, hr₁, h₁⟩ := hp.complete u hu
    obtain ⟨row₂, hl₂, hr₂, hclosed, hopen⟩ := (hf a ha).complete v hv
    refine ⟨row₁ ++ row₂, by rw [Forest.leaves_append, hl₁, hl₂], whole_append.mpr ⟨hr₁, hr₂⟩,
      fun t rest ht => ?_, fun rest hrest => ?_⟩
    · have h := h₁ _ (hF v hv (t :: rest) (ends_cons ht rest))
      show Parser.run _ (u ++ v ++ t :: rest) = _
      rw [List.append_assoc, run_bind_of_ok f (by rw [h]), h, hclosed t rest ht,
        Forest.append_assoc]
    · have h := h₁ _ (hF v hv rest (.inr hrest))
      obtain ⟨fault, hstop⟩ := hopen rest hrest
      refine ⟨fault, ?_⟩
      show Parser.run _ (u ++ v ++ rest) = _
      rw [List.append_assoc, run_bind_of_ok f (by rw [h]), h, hstop]

theorem closes_then {p : Step α} {f : α → Step Unit} {good : α → Prop}
    (hp : Accepts kinds p good L₁ P Always)
    (hf : ∀ a, good a → Closes kinds (f a) L₂ closer Always) :
    Closes kinds (p >>= f : Step Unit) (L₁ * L₂) closer P :=
  closes_bind hp hf (fun _ _ _ _ => trivial)

theorem closes_if (c : List Lexeme → Bool) {p q : Step Unit}
    (hp : Closes kinds p L₁ closer (fun s => P s ∧ c s = true))
    (hq : Closes kinds q L₂ closer (fun s => P s ∧ c s = false))
    (h₁ : ∀ w ∈ L₁, ∀ rest, Ends closer rest → c (w ++ rest) = true)
    (h₂ : ∀ w ∈ L₂, ∀ rest, Ends closer rest → c (w ++ rest) = false) :
    Closes kinds (choose fun s => if c s then p else q) (L₁ + L₂) closer P where
  sound s hs hfl hv := by
    rw [add_mul]
    cases hc : c s with
    | true =>
      rw [run_choose, if_pos hc] at hfl hv ⊢
      exact .inl (hp.sound s ⟨hs, hc⟩ hfl hv)
    | false =>
      rw [run_choose, if_neg (by simp [hc])] at hfl hv ⊢
      exact .inr (hq.sound s ⟨hs, hc⟩ hfl hv)
  complete := by
    rintro w (hw | hw)
    · obtain ⟨row, hl, hr, hclosed, hopen⟩ := hp.complete w hw
      refine ⟨row, hl, hr, fun t rest ht => ?_, fun rest hrest => ?_⟩
      · rw [run_choose, if_pos (h₁ w hw _ (ends_cons ht rest)), hclosed t rest ht]
      · rw [run_choose, if_pos (h₁ w hw _ (.inr hrest))]
        exact hopen rest hrest
    · obtain ⟨row, hl, hr, hclosed, hopen⟩ := hq.complete w hw
      refine ⟨row, hl, hr, fun t rest ht => ?_, fun rest hrest => ?_⟩
      · rw [run_choose, if_neg (by simp [h₂ w hw _ (ends_cons ht rest)]),
          hclosed t rest ht]
      · rw [run_choose, if_neg (by simp [h₂ w hw _ (.inr hrest)])]
        exact hopen rest hrest

end Step

namespace Parser

variable {kinds : NodeKind → Prop} {L L₁ L₂ : Language Lexeme} {closer : TokenKind}
  {P Q : List Lexeme → Prop}

/-- The parser reads the word `w` and builds `row`, whatever follows. When one
closer is missing, and another member may begin if it was the last lexeme, it
builds the row that is cut short there. -/
structure Builds {α : Type} (p : Parser α) (value : α) (w : List Lexeme) (row : Row) : Prop where
  leaves_eq : row.leaves = w
  whole : Whole AnyKind row
  run : ∀ rest, p.run (w ++ rest) = ⟨value, row, rest⟩
  mends : ∀ a t b, w = a ++ t :: b → IsCloser row a t → ∀ rest, (b = [] → Resumes rest) →
    ∃ fault row', Cut fault row a t b row' ∧ p.run (a ++ (b ++ rest)) = ⟨value, row', rest⟩

structure Reads (p : Parser Unit) (L : Language Lexeme) (P : List Lexeme → Prop) : Prop where
  sound : ∀ s, P s → Faultless (p.run s).built → (p.run s).built.leaves ∈ L
  complete : ∀ w ∈ L, ∃ row, Builds p () w row

theorem Reads.mono {p : Parser Unit} (h : Reads p L P) (hP : ∀ s, Q s → P s) : Reads p L Q where
  sound s hs := h.sound s (hP s hs)
  complete := h.complete

theorem Reads.at_token {p : Parser Unit} {kind : TokenKind} (h : Reads p L (AtToken kind)) :
    Reads p L (fun s => P s ∧ starts kind s = true) := h.mono fun _ hs => begins_of_starts hs.2

theorem Reads.at_word {p : Parser Unit} {text : String} (h : Reads p L (AtWord text)) :
    Reads p L (fun s => P s ∧ startsWord text s = true) :=
  h.mono fun _ hs => begins_of_startsWord hs.2

theorem reads_discard_tooDeep : Reads (discard tooDeep) 0 P where
  sound _ _ hfl := absurd hfl (not_faultless_skipped _ _ _)
  complete _ hw := hw.elim

theorem reads_skip (fault : Fault) (extent : List Lexeme → Nat) :
    Reads (skip fault extent) 0 P where
  sound _ _ hfl := absurd hfl (not_faultless_skipped _ _ _)
  complete _ hw := hw.elim

theorem sound_statement {kind : NodeKind} {body : Step Unit} {s : List Lexeme}
    (hb : Faultless (run body s).built → (run body s).value = .ok () →
      (run body s).built.leaves ∈ L)
    (hfl : Faultless ((statement kind body).run s).built) :
    ((statement kind body).run s).built.leaves ∈ L := by
  cases h : (run body s).value with
  | error e =>
    rw [run_statement_of_error h] at hfl
    exact absurd hfl.2.2 (not_faultless_skipped _ _ _)
  | ok u =>
    rw [run_statement_of_ok h] at hfl ⊢
    simpa [Forest.leaves] using hb hfl.2.1 h

/-- A statement whose steps read words of `L` and then the closer. Neither a
tag nor `;` is among those steps, and they take more than one lexeme. -/
structure Terminated (kind : NodeKind) (p : Parser Unit) (L : Language Lexeme)
    (closer : TokenKind) (P : List Lexeme → Prop) : Prop where
  isTerminated : kind.isTerminated = true
  long : Long 2 L
  no_semicolon : Over (fun t => t.kind ≠ .semicolon) L
  steps : ∃ body, p = statement kind body ∧ Step.Closes Plain body L closer P

theorem not_isCloser {row : Row} {a b : List Lexeme} {t : Lexeme} (hplain : Whole Plain row)
    (hsemi : ∀ x ∈ row.leaves, x.kind ≠ .semicolon) (hl : row.leaves = a ++ t :: b) :
    ¬ IsCloser row a t := by
  rintro (ht | ⟨before, inside, after, i, hat, -⟩)
  · exact hsemi t (by rw [hl]; simp) ht
  · obtain ⟨kind, hk, hshape⟩ := Forest.Each.at hplain hat
    simp only [Shape.construct.injEq, and_true] at hshape
    exact hk hshape.symm

/-- The closer of a statement is its last lexeme and nothing else in it. -/
theorem last_of_isCloser {kind : NodeKind} {held : Row} {a b : List Lexeme} {t u : Lexeme}
    (hplain : Whole Plain held) (hsemi : ∀ x ∈ held.leaves, x.kind ≠ .semicolon)
    (h : IsCloser (.node (.construct kind true) (held ++ .leaf u .nil) .nil) a t)
    (hl : held.leaves ++ [u] = a ++ t :: b) : a = held.leaves ∧ t = u ∧ b = [] := by
  have hb : b = [] := by
    rcases split_of_append_eq hl with ⟨b', hheld, -⟩ | ⟨a', hu, -⟩
    · exfalso
      have hshort : held.leaves.length ≠ a.length := by simp [hheld]
      rcases h with ht | ⟨before, inside, after, i, hat, hi, rfl⟩
      · exact hsemi t (by rw [hheld]; simp) ht
      · cases hat with
        | here =>
          rw [Forest.leaves_append] at hi
          exact hshort (congrArg List.length (List.append_inj' hi rfl).1)
        | within _ _ hin =>
          rcases hin.of_append with ⟨after', hin, -⟩ | ⟨_, hin, -⟩
          · exact not_isCloser hplain hsemi hheld (.inr ⟨_, _, _, i, hin, hi, rfl⟩)
          · cases hin with
            | behindLeaf _ hin => cases hin
        | behindNode _ _ hin => cases hin
    · cases a' with
      | nil => exact (List.cons.inj hu).2.symm
      | cons x a' => simp at hu
  subst hb
  obtain ⟨hheld, hut⟩ := List.append_inj' hl rfl
  exact ⟨hheld.symm, (List.cons.inj hut).1.symm, rfl⟩

theorem Terminated.reads {kind : NodeKind} {p : Parser Unit} (h : Terminated kind p L closer P) :
    Reads p (L * token closer) P := by
  obtain ⟨body, rfl, hb⟩ := h.steps
  refine ⟨fun s hs => sound_statement (hb.sound s hs), ?_⟩
  rintro _ ⟨w, hw, _, ⟨u, hu, rfl⟩, rfl⟩
  obtain ⟨held, rfl, hplain, hclosed, hopen⟩ := hb.complete w hw
  refine ⟨.node (.construct kind true) (held ++ .leaf u .nil) .nil, ?_, ?_, fun rest => ?_, ?_⟩
  · simp [Forest.leaves]
  · exact ⟨⟨kind, trivial, rfl⟩, whole_append.mpr ⟨hplain.any, trivial⟩, trivial⟩
  · have hrun := hclosed u rest hu
    show (statement kind body).run (held.leaves ++ [u] ++ rest) = _
    rw [List.append_assoc, List.singleton_append, run_statement_of_ok (by rw [hrun]), hrun]
  · intro a t b hl hcloser rest hrest
    obtain ⟨rfl, rfl, rfl⟩ := last_of_isCloser hplain (h.no_semicolon _ hw) hcloser hl
    obtain ⟨fault, hrun⟩ := hopen rest (hrest rfl)
    refine ⟨fault, _, .here h.isTerminated (h.long _ hw) t .nil, ?_⟩
    rw [List.nil_append, run_statement_of_error (by rw [hrun]), hrun]
    cases rest <;> rfl

/-! ## Members -/

theorem resumes_of_opensMember {t : Lexeme} (ht : OpensMember t) (s : List Lexeme) :
    Resumes (t :: s) := by
  right
  rcases ht with ht | ht <;> simp [startsMember, starts, ht]

def Glances (c : List Lexeme → Bool) : Prop :=
  ∀ a s s', 2 ≤ a.length → c (a ++ s) = c (a ++ s')

theorem glances_starts (kind : TokenKind) : Glances (starts kind) := by
  intro a s s' ha
  cases a with
  | nil => simp at ha
  | cons t a => rfl

theorem glances_startsWord (text : String) : Glances (startsWord text) := by
  intro a s s' ha
  cases a with
  | nil => simp at ha
  | cons t a => rfl

/-- A member parser applies where `G` holds, and there, on inputs with `P`, it
reads `L`, whose words begin as members do. -/
structure Serves (member : Parser Bool) (L : Language Lexeme) (G P : List Lexeme → Prop) :
    Prop where
  idle : ∀ s, ¬ G s → member.run s = ⟨false, .nil, s⟩
  busy : ∀ s, G s → (member.run s).value = true
  sound : ∀ s, P s → G s → Faultless (member.run s).built → (member.run s).built.leaves ∈ L
  heads : Heads OpensMember L
  complete : ∀ w ∈ L, ∃ row, Builds member true w row

theorem run_present (p : Parser Unit) (s : List Lexeme) :
    (Parse.present p).run s = ⟨true, (p.run s).built, (p.run s).rest⟩ := by
  rw [Parse.present, run_bind, run_pure, Forest.append_nil]

/-- Where one parser does what another one does, on a word and on what is left of it. -/
theorem Builds.congr {α β : Type} {p : Parser α} {q : Parser β} {x : α} {y : β}
    {w : List Lexeme} {row : Row} (h : Builds p x w row)
    (hq : ∀ s row rest, (∃ v, s = w ++ v) ∨ (∃ a b v, w = a ++ b ∧ 2 ≤ a.length ∧ s = a ++ v) →
      p.run s = ⟨x, row, rest⟩ → q.run s = ⟨y, row, rest⟩) : Builds q y w row where
  leaves_eq := h.leaves_eq
  whole := h.whole
  run rest := hq _ _ _ (.inl ⟨rest, rfl⟩) (h.run rest)
  mends a t b hw hcloser rest hrest := by
    obtain ⟨fault, row', hcut, hrun⟩ := h.mends a t b hw hcloser rest hrest
    exact ⟨fault, row', hcut, hq _ _ _ (.inr ⟨a, t :: b, _, hw, hcut.two_le_length, rfl⟩) hrun⟩

theorem serves_absent : Serves (choose fun _ => Parse.absent) 0 (fun _ => False) P where
  idle _ _ := rfl
  busy _ h := h.elim
  sound _ _ h := h.elim
  heads _ hw := hw.elim
  complete _ hw := hw.elim

theorem serves_present {p : Parser Unit} (hp : Reads p L P) (hL : Heads OpensMember L) :
    Serves (choose fun _ => Parse.present p) L (fun _ => True) P where
  idle _ h := absurd trivial h
  busy _ _ := rfl
  sound s hs _ hfl := by
    rw [run_choose, run_present] at hfl ⊢
    exact hp.sound s hs hfl
  heads := hL
  complete w hw := by
    obtain ⟨row, hbuilds⟩ := hp.complete w hw
    refine ⟨row, hbuilds.congr fun s row rest _ hrun => ?_⟩
    rw [run_choose, run_present, hrun]

/-- A test that is decided for a word is decided for what is left of it, too. -/
theorem Glances.decided {c : List Lexeme → Bool} (hc : Glances c) {outcome : Bool}
    (hL : Decides c outcome L) {w s : List Lexeme} (hw : w ∈ L)
    (hs : (∃ v, s = w ++ v) ∨ (∃ a b v, w = a ++ b ∧ 2 ≤ a.length ∧ s = a ++ v)) :
    c s = outcome := by
  rcases hs with ⟨v, rfl⟩ | ⟨a, b, v, rfl, ha, rfl⟩
  · exact hL w hw v
  · rw [hc a v (b ++ []) ha, ← List.append_assoc]
    exact hL _ hw []

theorem serves_if {c : List Lexeme → Bool} {p : Parser Unit} {f : List Lexeme → Parser Bool}
    {G : List Lexeme → Prop} (hc : Glances c) (hp : Reads p L₁ (fun s => P s ∧ c s = true))
    (hf : Serves (choose f) L₂ G (fun s => P s ∧ c s = false))
    (h₁ : Decides c true L₁) (h₂ : Decides c false L₂) (hL : Heads OpensMember L₁) :
    Serves (choose fun s => if c s then Parse.present p else f s) (L₁ + L₂)
      (fun s => c s = true ∨ G s) P where
  idle s hs := by
    rw [run_choose, if_neg (fun h => hs (.inl h))]
    exact hf.idle s (fun h => hs (.inr h))
  busy s hs := by
    cases hcs : c s with
    | true =>
      rw [run_choose, if_pos hcs]
      rfl
    | false =>
      rw [run_choose, if_neg (by simp [hcs])]
      exact hf.busy s (hs.resolve_left (by simp [hcs]))
  sound s hP hs hfl := by
    cases hcs : c s with
    | true =>
      rw [run_choose, if_pos hcs, run_present] at hfl ⊢
      exact .inl (hp.sound s ⟨hP, hcs⟩ hfl)
    | false =>
      rw [run_choose, if_neg (by simp [hcs])] at hfl ⊢
      exact .inr (hf.sound s ⟨hP, hcs⟩ (hs.resolve_left (by simp [hcs])) hfl)
  heads := hL.add hf.heads
  complete := by
    rintro w (hw | hw)
    · obtain ⟨row, hbuilds⟩ := hp.complete w hw
      refine ⟨row, hbuilds.congr fun s row rest hs hrun => ?_⟩
      rw [run_choose, if_pos (hc.decided h₁ hw hs), run_present, hrun]
    · obtain ⟨row, hbuilds⟩ := hf.complete w hw
      refine ⟨row, hbuilds.congr fun s row rest hs hrun => ?_⟩
      rw [run_choose, if_neg (by simp [hc.decided h₂ hw hs]), ← hrun, run_choose]

/-- A member parser that applies as long as there is a lexeme. -/
theorem serves_ahead {f : List Lexeme → Parser Bool} {G : List Lexeme → Prop}
    (hf : Serves (choose f) L G P) (hG : ∀ s, G s) :
    Serves (choose fun s => if s.isEmpty then Parse.absent else f s) L Ahead P where
  idle s hs := by
    obtain rfl : s = [] := by simpa using hs
    rfl
  busy s hs := by
    rw [run_choose, if_neg (by simpa using hs)]
    exact hf.busy s (hG s)
  sound s hP hs hfl := by
    rw [run_choose, if_neg (by simpa using hs)] at hfl ⊢
    exact hf.sound s hP (hG s) hfl
  heads := hf.heads
  complete w hw := by
    obtain ⟨row, hbuilds⟩ := hf.complete w hw
    refine ⟨row, hbuilds.congr fun s row rest hs hrun => ?_⟩
    have hne : s ≠ [] := by
      rintro rfl
      rcases hs with ⟨v, hv⟩ | ⟨a, b, v, -, ha, hv⟩
      · exact hf.heads.nonempty w hw (List.append_eq_nil_iff.mp hv.symm).1
      · rw [(List.append_eq_nil_iff.mp hv.symm).1] at ha
        simp at ha
    rw [run_choose, if_neg (by simpa using hne), ← hrun, run_choose]

theorem run_members_cons {member : Parser Bool} {s rest : List Lexeme} {row : Row}
    (h : member.run s = ⟨true, row, rest⟩) (hlt : rest.length < s.length) :
    (members member).run s =
      ⟨(), row ++ ((members member).run rest).built, ((members member).run rest).rest⟩ := by
  show members.loop member s = _
  rw [members.loop]
  simp only [h, if_true, hlt, dif_pos]
  rfl

theorem run_members_idle {member : Parser Bool} {s : List Lexeme}
    (h : member.run s = ⟨false, .nil, s⟩) : (members member).run s = ⟨(), .nil, s⟩ := by
  show members.loop member s = _
  rw [members.loop]
  simp [h]

theorem sound_members {member : Parser Bool} {G : List Lexeme → Prop}
    (hm : Serves member L G Always) (s : List Lexeme)
    (hfl : Faultless ((members member).run s).built) :
    ((members member).run s).built.leaves ∈ L∗ := by
  change Faultless (members.loop member s).built at hfl
  show (members.loop member s).built.leaves ∈ L∗
  have hone : ∀ s, (member.run s).value = true → Faultless (member.run s).built →
      (member.run s).built.leaves ∈ L := by
    intro s hv hfl
    apply hm.sound s trivial _ hfl
    by_contra hs
    simp [hm.idle s hs] at hv
  fun_induction members.loop member s with
  | case1 s o hv hlt r ih =>
    obtain ⟨hfl₁, hfl₂⟩ := faultless_append.mp hfl
    rw [Forest.leaves_append]
    exact Set.mem_of_mem_of_subset (Language.append_mem_mul (hone s hv hfl₁) (ih hfl₂))
      (mul_kstar_le_kstar (a := L))
  | case2 s o hv hlt hr => exact Set.mem_of_mem_of_subset (hone s hv hfl) (le_kstar (a := L))
  | case3 s o hv hlt t rest hr r ih =>
    exact absurd (faultless_append.mp hfl).2 (not_faultless_skipped _ _ _)
  | case4 s o hv =>
    have hs : ¬ G s := fun hs => hv (hm.busy s hs)
    have ho : o = ⟨false, .nil, s⟩ := hm.idle s hs
    rw [ho]
    exact Language.nil_mem_kstar L

/-- Members one after the other build their rows side by side, also when one
of them lacks its closer. -/
theorem complete_members {member : Parser Bool} {G : List Lexeme → Prop}
    (hm : Serves member L G Always) (w : List Lexeme) (hw : w ∈ L∗) :
    ∃ row, row.leaves = w ∧ Whole AnyKind row ∧
      (∀ rest, (members member).run (w ++ rest) =
        ⟨(), row ++ ((members member).run rest).built, ((members member).run rest).rest⟩) ∧
      ∀ a t b, w = a ++ t :: b → IsCloser row a t → ∀ rest, (b = [] → Resumes rest) →
        ∃ fault row', Cut fault row a t b row' ∧ (members member).run (a ++ (b ++ rest)) =
          ⟨(), row' ++ ((members member).run rest).built, ((members member).run rest).rest⟩ := by
  obtain ⟨ws, rfl, hws⟩ := Language.mem_kstar.mp hw
  clear hw
  induction ws with
  | nil => exact ⟨.nil, rfl, trivial, fun rest => rfl, fun a t b h => by simp at h⟩
  | cons u ws ih =>
    obtain ⟨row, hl, hwhole, hrun, hmends⟩ := ih (fun y hy => hws y (List.mem_cons_of_mem u hy))
    have hu := hws u List.mem_cons_self
    obtain ⟨row₁, h₁⟩ := hm.complete u hu
    have hlt {a : List Lexeme} (ha : a ≠ []) (v : List Lexeme) : v.length < (a ++ v).length := by
      have hpos := List.length_pos_iff.mpr ha
      rw [List.length_append]
      omega
    refine ⟨row₁ ++ row, by rw [Forest.leaves_append, h₁.leaves_eq, hl]; rfl,
      whole_append.mpr ⟨h₁.whole, hwhole⟩, fun rest => ?_, fun a t b hw hcloser rest hrest => ?_⟩
    · rw [List.flatten_cons, List.append_assoc, run_members_cons (h₁.run _)
        (hlt (hm.heads.nonempty u hu) _), hrun rest, Forest.append_assoc]
    · have hsplit : (row₁ ++ row).leaves = a ++ t :: b := by
        rw [Forest.leaves_append, h₁.leaves_eq, hl]
        exact hw
      rcases hcloser.of_append hsplit with ⟨b', hl₁, rfl, hc⟩ | ⟨a', hl', rfl, hc⟩
      · -- the member that lacks its closer: what follows is another member or `rest`
        have hnext : b' = [] → Resumes (ws.flatten ++ rest) := by
          rintro rfl
          cases ws with
          | nil => exact hrest (by rw [hl]; rfl)
          | cons v ws =>
            obtain ⟨x, v', rfl, hx⟩ := hm.heads v (hws v (by simp))
            exact resumes_of_opensMember hx _
        obtain ⟨fault, row₁', hcut, hrun₁⟩ :=
          h₁.mends a t b' (h₁.leaves_eq ▸ hl₁) hc (ws.flatten ++ rest) hnext
        have hne : a ++ b' ≠ [] := by
          have := hcut.two_le_length
          rintro h
          rw [(List.append_eq_nil_iff.mp h).1] at this
          simp at this
        refine ⟨fault, row₁' ++ row, hcut.append_right row, ?_⟩
        rw [hl, List.append_assoc b']
        rw [run_members_cons hrun₁ (by rw [← List.append_assoc]; exact hlt hne _), hrun rest,
          Forest.append_assoc]
      · obtain ⟨fault, row', hcut, hrun'⟩ := hmends a' t b (hl ▸ hl') hc rest hrest
        refine ⟨fault, row₁ ++ row', hcut.append_left row₁, ?_⟩
        rw [h₁.leaves_eq, List.append_assoc, run_members_cons (h₁.run _)
          (hlt (hm.heads.nonempty u hu) _), hrun', Forest.append_assoc]

theorem accepts_members {member : Parser Bool} {G : List Lexeme → Prop}
    (hm : Serves member L G Always) :
    Step.Accepts AnyKind (liftM (members member) : Step Unit) (fun _ => True) L∗ P
      (fun s => ¬ G s) where
  sound s _ _ hfl _ := by
    rw [Step.run_liftM] at hfl ⊢
    exact ⟨trivial, sound_members hm s hfl⟩
  complete w hw := by
    obtain ⟨row, hl, hr, hrun, -⟩ := complete_members hm w hw
    refine ⟨(), row, trivial, hl, hr, fun rest hrest => ?_⟩
    rw [Step.run_liftM, hrun rest, run_members_idle (hm.idle rest hrest), Forest.append_nil]

end Parser

end SchemaLang
