import SchemaLang.Proofs.Filled
import SchemaLang.Proofs.Grammar

/-!
# Steps that read a language

A step reads a language when it accepts exactly its words. Sound: what it
took without a fault is a word. Complete: it takes each word whole, whatever
follows, as far as the next lexeme allows, and builds the same row each time,
in which no construct is cut short. There is one law for each way in which
steps are put together.
-/

set_option autoImplicit false

namespace SchemaLang

open Grammar Computability

def Faultless (row : Row) : Prop := row.Each (fun shape _ => shape.fault? = none)

def Whole (kinds : NodeKind → Prop) (row : Row) : Prop :=
  row.Each (fun shape _ => ∃ kind, kinds kind ∧ shape = .construct kind true)

theorem faultless_append {f g : Row} : Faultless (f ++ g) ↔ Faultless f ∧ Faultless g :=
  Forest.each_append _ f g

theorem whole_append {kinds : NodeKind → Prop} {f g : Row} :
    Whole kinds (f ++ g) ↔ Whole kinds f ∧ Whole kinds g := Forest.each_append _ f g

theorem Whole.faultless {kinds : NodeKind → Prop} {row : Row} (h : Whole kinds row) :
    Faultless row := by
  apply Forest.Each.imp _ h
  rintro shape - ⟨kind, -, rfl⟩
  rfl

theorem not_faultless_skipped (fault : Fault) (inside next : Row) :
    ¬ Faultless (.node (.skipped fault) inside next) := by
  rintro ⟨h, -⟩
  simp [Shape.fault?] at h

/-! ## Words -/

namespace Grammar

def Heads (p : Lexeme → Prop) (L : Language Lexeme) : Prop := ∀ w ∈ L, ∃ t v, w = t :: v ∧ p t

def Over (p : Lexeme → Prop) (L : Language Lexeme) : Prop := ∀ w ∈ L, ∀ t ∈ w, p t

def headed (p : Lexeme → Prop) (L : Lexeme → Language Lexeme) : Language Lexeme :=
  {w | ∃ t, p t ∧ ∃ v ∈ L t, w = t :: v}

variable {p q : Lexeme → Prop} {L M : Language Lexeme}

theorem one_mul_eq_headed (p : Lexeme → Prop) (L : Language Lexeme) :
    one p * L = headed p (fun _ => L) := by
  ext w
  constructor
  · rintro ⟨_, ⟨t, ht, rfl⟩, v, hv, rfl⟩
    exact ⟨t, ht, v, hv, rfl⟩
  · rintro ⟨t, ht, v, hv, rfl⟩
    exact ⟨[t], ⟨t, ht, rfl⟩, v, hv, rfl⟩

theorem heads_one (p : Lexeme → Prop) : Heads p (one p) := by
  rintro _ ⟨t, ht, rfl⟩
  exact ⟨t, [], rfl, ht⟩

theorem Heads.mul (h : Heads p L) (M : Language Lexeme) : Heads p (L * M) := by
  rintro _ ⟨u, hu, v, hv, rfl⟩
  obtain ⟨t, u, rfl, ht⟩ := h u hu
  exact ⟨t, u ++ v, rfl, ht⟩

theorem Heads.add (hL : Heads p L) (hM : Heads p M) : Heads p (L + M) := by
  rintro w (hw | hw)
  · exact hL w hw
  · exact hM w hw

theorem Heads.imp (h : Heads p L) (hpq : ∀ t, p t → q t) : Heads q L := by
  intro w hw
  obtain ⟨t, v, rfl, ht⟩ := h w hw
  exact ⟨t, v, rfl, hpq t ht⟩

def Decides (c : List Lexeme → Bool) (outcome : Bool) (L : Language Lexeme) : Prop :=
  ∀ w ∈ L, ∀ rest, c (w ++ rest) = outcome

theorem decides_add {c : List Lexeme → Bool} {outcome : Bool} :
    Decides c outcome (L + M) ↔ Decides c outcome L ∧ Decides c outcome M :=
  ⟨fun h => ⟨fun w hw => h w (.inl hw), fun w hw => h w (.inr hw)⟩,
    fun h w hw => hw.elim (h.1 w) (h.2 w)⟩

theorem decides_zero {c : List Lexeme → Bool} {outcome : Bool} : Decides c outcome 0 :=
  fun _ hw => hw.elim

theorem Heads.starts {kind : TokenKind} (h : Heads (fun t => t.kind = kind) L) :
    Decides (SchemaLang.starts kind) true L := by
  intro w hw rest
  obtain ⟨t, v, rfl, ht⟩ := h w hw
  simp [SchemaLang.starts, ht]

theorem Heads.not_starts {kind : TokenKind} (h : Heads (fun t => t.kind ≠ kind) L) :
    Decides (SchemaLang.starts kind) false L := by
  intro w hw rest
  obtain ⟨t, v, rfl, ht⟩ := h w hw
  simp [SchemaLang.starts, ht]

theorem Heads.startsWord {text : String} (h : Heads (fun t => t.isWord text = true) L) :
    Decides (SchemaLang.startsWord text) true L := by
  intro w hw rest
  obtain ⟨t, v, rfl, ht⟩ := h w hw
  exact ht

theorem Heads.not_startsWord {text : String} (h : Heads (fun t => t.isWord text = false) L) :
    Decides (SchemaLang.startsWord text) false L := by
  intro w hw rest
  obtain ⟨t, v, rfl, ht⟩ := h w hw
  exact ht

/-- Words that begin with one keyword do not begin with another one. -/
theorem Heads.other {text other : String} (h : Heads (fun t => t.isWord text = true) L)
    (hne : text ≠ other) : Decides (SchemaLang.startsWord other) false L := by
  apply Heads.not_startsWord
  apply h.imp
  intro t ht
  simp only [Lexeme.isWord, Bool.and_eq_true, beq_iff_eq] at ht
  simp [Lexeme.isWord, ht.2, hne]

theorem Heads.not_word {kind : TokenKind} (h : Heads (fun t => t.kind = kind) L)
    (hk : kind ≠ .identifier) (text : String) : Decides (SchemaLang.startsWord text) false L := by
  apply Heads.not_startsWord
  apply h.imp
  intro t ht
  simp [Lexeme.isWord, ht, hk]

theorem Heads.not_bracket {text : String} (h : Heads (fun t => t.isWord text = true) L)
    {kind : TokenKind} (hk : kind ≠ .identifier) : Decides (SchemaLang.starts kind) false L := by
  apply Heads.not_starts
  apply h.imp
  intro t ht
  simp only [Lexeme.isWord, Bool.and_eq_true, beq_iff_eq] at ht
  simp [ht.1, hk.symm]

theorem Heads.nonempty (h : Heads p L) : ∀ w ∈ L, w ≠ [] := by
  intro w hw
  obtain ⟨t, v, rfl, -⟩ := h w hw
  exact List.cons_ne_nil t v

def OpensMember (t : Lexeme) : Prop := t.kind = .identifier ∨ t.kind = .lbracket

theorem Heads.opens {text : String} (h : Heads (fun t => t.isWord text = true) L) :
    Heads OpensMember L := by
  apply h.imp
  intro t ht
  simp only [Lexeme.isWord, Bool.and_eq_true, beq_iff_eq] at ht
  exact .inl ht.1

def Long (n : Nat) (L : Language Lexeme) : Prop := ∀ w ∈ L, n ≤ w.length

theorem Heads.long (h : Heads p L) : Long 1 L := by
  intro w hw
  obtain ⟨t, v, rfl, -⟩ := h w hw
  exact Nat.le_add_left 1 v.length

theorem Long.mul {m n : Nat} (hL : Long m L) (hM : Long n M) : Long (m + n) (L * M) := by
  rintro _ ⟨u, hu, v, hv, rfl⟩
  have h := Nat.add_le_add (hL u hu) (hM v hv)
  exact h.trans_eq List.length_append.symm

theorem Long.mul_right {n : Nat} (hL : Long n L) (M : Language Lexeme) : Long n (L * M) :=
  hL.mul (fun _ _ => Nat.zero_le _ : Long 0 M)

theorem long_two (h : Heads q M) : Long 2 (one p * M) := (heads_one p).long.mul h.long

theorem over_one (h : ∀ t, p t → q t) : Over q (one p) := by
  rintro _ ⟨t, ht, rfl⟩ u hu
  rw [List.mem_singleton.mp hu]
  exact h t ht

theorem over_unit : Over p 1 := by
  rintro _ rfl t ht
  simp at ht

theorem Over.add (hL : Over p L) (hM : Over p M) : Over p (L + M) := by
  rintro w (hw | hw)
  · exact hL w hw
  · exact hM w hw

theorem Over.mul (hL : Over p L) (hM : Over p M) : Over p (L * M) := by
  rintro _ ⟨u, hu, v, hv, rfl⟩ t ht
  rcases List.mem_append.mp ht with h | h
  · exact hL u hu t h
  · exact hM v hv t h

theorem Over.kstar (hL : Over p L) : Over p L∗ := by
  intro w hw t ht
  obtain ⟨ws, rfl, hws⟩ := Language.mem_kstar.mp hw
  obtain ⟨u, hu, htu⟩ := List.mem_flatten.mp ht
  exact hL u (hws u hu) t htu

theorem Over.pow (hL : Over p L) (n : Nat) : Over p (L ^ n) := by
  induction n with
  | zero => exact over_unit
  | succ n ih => exact pow_succ L n ▸ ih.mul hL

end Grammar

def Begins (p : Lexeme → Prop) (P : List Lexeme → Prop) : List Lexeme → Prop
  | [] => False
  | t :: s => p t ∧ P s

theorem begins_of_starts {kind : TokenKind} {s : List Lexeme} (h : starts kind s = true) :
    Begins (fun t => t.kind = kind) Always s := by
  cases s with
  | nil => simp [starts] at h
  | cons t s => exact ⟨by simpa [starts] using h, trivial⟩

theorem begins_of_startsWord {text : String} {s : List Lexeme} (h : startsWord text s = true) :
    Begins (fun t => t.isWord text = true) Always s := by
  cases s with
  | nil => simp [startsWord] at h
  | cons t s => exact ⟨by simpa [startsWord] using h, trivial⟩

namespace Step

variable {α β : Type} {kinds : NodeKind → Prop} {L L₁ L₂ : Language Lexeme}
  {P Q F F₁ : List Lexeme → Prop}

/-- On inputs with `P` the step takes words of `L` only, and it takes each of
them, with a good answer, when what follows has `F`. -/
structure Accepts (kinds : NodeKind → Prop) (p : Step α) (good : α → Prop) (L : Language Lexeme)
    (P F : List Lexeme → Prop) : Prop where
  sound : ∀ s a, P s → Faultless (Parser.run p s).built → (Parser.run p s).value = .ok a →
    good a ∧ (Parser.run p s).built.leaves ∈ L
  complete : ∀ w ∈ L, ∃ a row, good a ∧ row.leaves = w ∧ Whole kinds row ∧
    ∀ rest, F rest → Parser.run p (w ++ rest) = ⟨.ok a, row, rest⟩

theorem Accepts.mono {p : Step α} {good : α → Prop} {F' : List Lexeme → Prop}
    (h : Accepts kinds p good L P F) (hP : ∀ s, Q s → P s) (hF : ∀ s, F' s → F s) :
    Accepts kinds p good L Q F' where
  sound s a hs := h.sound s a (hP s hs)
  complete w hw := by
    obtain ⟨a, row, ha, hl, hrow, hrun⟩ := h.complete w hw
    exact ⟨a, row, ha, hl, hrow, fun rest hr => hrun rest (hF rest hr)⟩

theorem accepts_done {good : α → Prop} {a : α} (ha : good a) :
    Accepts kinds (pure a : Step α) good 1 P F where
  sound := by
    rintro s _ - - ⟨⟩
    exact ⟨ha, rfl⟩
  complete := by
    rintro _ rfl
    exact ⟨a, .nil, ha, rfl, trivial, fun _ _ => rfl⟩

theorem accepts_stop {good : α → Prop} (recovery : Recovery) (fault : Fault) :
    Accepts kinds (stop recovery fault : Step α) good 0 P F where
  sound s a _ _ hv := by simp at hv
  complete _ hw := hw.elim

theorem accepts_bind {p : Step α} {f : α → Step β} {good₁ : α → Prop} {good₂ : β → Prop}
    (hp : Accepts kinds p good₁ L₁ P F₁)
    (hf : ∀ a, good₁ a → Accepts kinds (f a) good₂ L₂ Always F)
    (hF : ∀ w ∈ L₂, ∀ rest, F rest → F₁ (w ++ rest)) :
    Accepts kinds (p >>= f : Step β) good₂ (L₁ * L₂) P F where
  sound s b hs hfl hv := by
    cases h : (Parser.run p s).value with
    | error e => simp [run_bind_of_error f h] at hv
    | ok a =>
      rw [run_bind_of_ok f h] at hfl hv ⊢
      obtain ⟨hfl₁, hfl₂⟩ := faultless_append.mp hfl
      obtain ⟨ha, hw₁⟩ := hp.sound s a hs hfl₁ h
      obtain ⟨hb, hw₂⟩ := (hf a ha).sound _ b trivial hfl₂ hv
      rw [Forest.leaves_append]
      exact ⟨hb, Language.append_mem_mul hw₁ hw₂⟩
  complete := by
    rintro _ ⟨u, hu, v, hv, rfl⟩
    obtain ⟨a, row₁, ha, hl₁, hr₁, h₁⟩ := hp.complete u hu
    obtain ⟨b, row₂, hb, hl₂, hr₂, h₂⟩ := (hf a ha).complete v hv
    refine ⟨b, row₁ ++ row₂, hb, by rw [Forest.leaves_append, hl₁, hl₂],
      whole_append.mpr ⟨hr₁, hr₂⟩, fun rest hrest => ?_⟩
    have h := h₁ (v ++ rest) (hF v hv rest hrest)
    show Parser.run _ (u ++ v ++ rest) = _
    rw [List.append_assoc, run_bind_of_ok f (by rw [h]), h, h₂ rest hrest]

theorem accepts_then {p : Step α} {f : α → Step β} {good₁ : α → Prop} {good₂ : β → Prop}
    (hp : Accepts kinds p good₁ L₁ P Always)
    (hf : ∀ a, good₁ a → Accepts kinds (f a) good₂ L₂ Always F) :
    Accepts kinds (p >>= f : Step β) good₂ (L₁ * L₂) P F :=
  accepts_bind hp hf (fun _ _ _ _ => trivial)

/-- A step that takes just the next lexeme, and the step that goes on from there. -/
theorem accepts_taking {q : Step α} {f : α → Step β} {good : β → Prop} {p : Lexeme → Prop}
    {K : Lexeme → Language Lexeme} (answer : Lexeme → α) (piece : Lexeme → Row)
    (hq : ∀ t s, Parser.run q (t :: s) = ⟨.ok (answer t), piece t, s⟩)
    (hl : ∀ t, (piece t).leaves = [t]) (hw : ∀ t, Whole kinds (piece t))
    (hf : ∀ t, p t → Accepts kinds (f (answer t)) good (K t) P F) :
    Accepts kinds (q >>= f : Step β) good (headed p K) (Begins p P) F where
  sound s b hs hfl hv := by
    cases s with
    | nil => exact hs.elim
    | cons t s =>
      have hrun := run_bind_of_ok f (s := t :: s) (a := answer t) (by rw [hq])
      rw [hrun, hq] at hfl hv ⊢
      obtain ⟨hb, hmem⟩ := (hf t hs.1).sound s b hs.2 (faultless_append.mp hfl).2 hv
      rw [Forest.leaves_append, hl]
      exact ⟨hb, t, hs.1, _, hmem, rfl⟩
  complete := by
    rintro _ ⟨t, ht, v, hv, rfl⟩
    obtain ⟨b, row, hb, hlr, hr, h⟩ := (hf t ht).complete v hv
    refine ⟨b, piece t ++ row, hb, by rw [Forest.leaves_append, hl, hlr]; rfl,
      whole_append.mpr ⟨hw t, hr⟩, fun rest hrest => ?_⟩
    rw [List.cons_append, run_bind_of_ok f (by rw [hq]), hq, h rest hrest]

theorem accepts_bump_then {f : Unit → Step β} {good : β → Prop} {p : Lexeme → Prop}
    (hf : Accepts kinds (f ()) good L P F) :
    Accepts kinds ((liftM Parser.bump : Step Unit) >>= f) good (one p * L) (Begins p P) F := by
  rw [one_mul_eq_headed]
  exact accepts_taking (fun _ => ()) (fun t => .leaf t .nil) (fun t s => by simp) (fun _ => rfl)
    (fun _ => trivial) (fun _ _ => hf)

theorem accepts_take_then {f : String → Step β} {good : β → Prop} {p : Lexeme → Prop}
    {K : Lexeme → Language Lexeme} {kind : NodeKind} (hk : kinds kind)
    (hf : ∀ t, p t → Accepts kinds (f t.text) good (K t) P F) :
    Accepts kinds ((liftM (Parser.take kind) : Step String) >>= f) good (headed p K)
      (Begins p P) F :=
  accepts_taking Lexeme.text (fun t => .node (.construct kind true) (.leaf t .nil) .nil)
    (fun t s => by simp) (fun _ => rfl) (fun _ => ⟨⟨kind, hk, rfl⟩, trivial, trivial⟩) hf

theorem accepts_ite (c : List Lexeme → Bool) {p q : List Lexeme → Step α} {good : α → Prop}
    (hp : Accepts kinds (choose p) good L₁ (fun s => P s ∧ c s = true) F)
    (hq : Accepts kinds (choose q) good L₂ (fun s => P s ∧ c s = false) F)
    (h₁ : ∀ w ∈ L₁, ∀ rest, F rest → c (w ++ rest) = true)
    (h₂ : ∀ w ∈ L₂, ∀ rest, F rest → c (w ++ rest) = false) :
    Accepts kinds (choose fun s => if c s then p s else q s) good (L₁ + L₂) P F where
  sound s a hs hfl hv := by
    cases hc : c s with
    | true =>
      rw [run_choose, if_pos hc] at hfl hv ⊢
      obtain ⟨ha, hmem⟩ := hp.sound s a ⟨hs, hc⟩ hfl hv
      exact ⟨ha, .inl hmem⟩
    | false =>
      rw [run_choose, if_neg (by simp [hc])] at hfl hv ⊢
      obtain ⟨ha, hmem⟩ := hq.sound s a ⟨hs, hc⟩ hfl hv
      exact ⟨ha, .inr hmem⟩
  complete := by
    rintro w (hw | hw)
    · obtain ⟨a, row, ha, hl, hr, h⟩ := hp.complete w hw
      refine ⟨a, row, ha, hl, hr, fun rest hrest => ?_⟩
      rw [run_choose, if_pos (h₁ w hw rest hrest), ← run_choose p, h rest hrest]
    · obtain ⟨a, row, ha, hl, hr, h⟩ := hq.complete w hw
      refine ⟨a, row, ha, hl, hr, fun rest hrest => ?_⟩
      rw [run_choose, if_neg (by simp [h₂ w hw rest hrest]), ← run_choose q, h rest hrest]

theorem accepts_if (c : List Lexeme → Bool) {p q : Step α} {good : α → Prop}
    (hp : Accepts kinds p good L₁ (fun s => P s ∧ c s = true) F)
    (hq : Accepts kinds q good L₂ (fun s => P s ∧ c s = false) F)
    (h₁ : ∀ w ∈ L₁, ∀ rest, F rest → c (w ++ rest) = true)
    (h₂ : ∀ w ∈ L₂, ∀ rest, F rest → c (w ++ rest) = false) :
    Accepts kinds (choose fun s => if c s then p else q) good (L₁ + L₂) P F :=
  accepts_ite (p := fun _ => p) (q := fun _ => q) c hp hq h₁ h₂

theorem accepts_require_then {kind : TokenKind} (recovery : Recovery) (fault : String → Fault)
    {p : Step α} {good : α → Prop} (hL : Heads (fun t => t.kind = kind) L)
    (hp : Accepts kinds p good L (Begins (fun t => t.kind = kind) Always) F) :
    Accepts kinds (require kind recovery fault >>= fun _ => p : Step α) good L P F where
  sound s a _ hfl hv := by
    cases hs : starts kind s with
    | true =>
      rw [run_bind_of_ok _ (by rw [run_require_of_starts recovery fault hs]),
        run_require_of_starts recovery fault hs] at hfl hv ⊢
      exact hp.sound s a (begins_of_starts hs) hfl hv
    | false =>
      rw [run_bind_of_error _ (by rw [run_require_of_not_starts recovery fault hs])] at hv
      simp at hv
  complete w hw := by
    obtain ⟨a, row, ha, hl, hr, h⟩ := hp.complete w hw
    refine ⟨a, row, ha, hl, hr, fun rest hrest => ?_⟩
    have hs := run_require_of_starts recovery fault (hL.starts w hw rest)
    rw [run_bind_of_ok _ (by rw [hs]), hs, h rest hrest]
    rfl

theorem accepts_bump (p : Lexeme → Prop) :
    Accepts kinds (liftM Parser.bump : Step Unit) (fun _ => True) (one p) (Begins p Always) F := by
  have hd : Accepts kinds (pure () : Step Unit) (fun _ => True) 1 Always F := accepts_done trivial
  have h := accepts_bump_then (p := p) (f := pure) hd
  rwa [mul_one, bind_pure] at h

theorem accepts_take {kind : NodeKind} (hk : kinds kind) (p : Lexeme → Prop) :
    Accepts kinds (liftM (Parser.take kind) : Step String) (fun _ => True) (one p)
      (Begins p Always) F := by
  have hd (t : Lexeme) :
      Accepts kinds (pure t.text : Step String) (fun _ => True) 1 Always F := accepts_done trivial
  have h := accepts_take_then (p := p) (f := pure) hk fun t _ => hd t
  rwa [← one_mul_eq_headed, mul_one, bind_pure] at h

theorem accepts_punct (kind : TokenKind) (recovery : Recovery) (fault : String → Fault) :
    Accepts kinds (punct kind recovery fault) (fun _ => True) (token kind) P F :=
  accepts_require_then recovery fault (heads_one _) (accepts_bump _)

theorem accepts_expect (kind : TokenKind) {node : NodeKind} (hk : kinds node)
    (recovery : Recovery) (fault : String → Fault) :
    Accepts kinds (expect kind node recovery fault) (fun _ => True) (token kind) P F :=
  accepts_require_then recovery fault (heads_one _) (accepts_take hk _)

theorem accepts_group {kind : NodeKind} (hk : kinds kind) {complete : α → Bool} {body : Step α}
    {good : α → Prop} (hb : Accepts kinds body good L P F) (hc : ∀ a, good a → complete a = true) :
    Accepts kinds (group kind complete body) good L P F where
  sound s a hs hfl hv := by
    rw [run_group] at hfl hv ⊢
    cases h : (Parser.run body s).value with
    | error e => simp [h] at hv
    | ok b =>
      simp only [h] at hfl hv ⊢
      obtain ⟨hb, hmem⟩ := hb.sound s b hs hfl.2.1 h
      cases hv
      exact ⟨hb, by simpa [Forest.leaves] using hmem⟩
  complete w hw := by
    obtain ⟨a, row, ha, hl, hr, h⟩ := hb.complete w hw
    refine ⟨a, .node (.construct kind true) row .nil, ha, by simp [Forest.leaves, hl],
      ⟨⟨kind, hk, rfl⟩, hr, trivial⟩, fun rest hrest => ?_⟩
    rw [run_group, h rest hrest]
    simp only [hc a ha]

/-! ## Elements after commas -/

theorem sound_sepTail {item : Step α} {good : α → Prop} (hi : Accepts kinds item good L Always F)
    (closer : TokenKind) (otherwise : String → Stop) (s : List Lexeme) (as : List α)
    (hfl : Faultless (Parser.run (sepTail item closer otherwise) s).built)
    (hv : (Parser.run (sepTail item closer otherwise) s).value = .ok as) :
    (∀ a ∈ as, good a) ∧ (Parser.run (sepTail item closer otherwise) s).built.leaves ∈
      (token .comma * L) ^ as.length * token closer := by
  change Faultless (sepTail.loop item closer otherwise s).built at hfl
  change (sepTail.loop item closer otherwise s).value = .ok as at hv
  show _ ∧ (sepTail.loop item closer otherwise s).built.leaves ∈ _
  fun_induction sepTail.loop item closer otherwise s generalizing as with
  | case1 => simp at hv
  | case2 t s hc =>
    cases hv
    exact ⟨by simp, by simpa using ⟨t, hc, rfl⟩⟩
  | case3 t s hc hcomma o e he => simp at hv
  | case4 t s hc hcomma o a ha r ih =>
    obtain ⟨hfl₁, hfl₂⟩ := faultless_append.mp (show Faultless (o.built ++ r.built) from hfl)
    obtain ⟨hgood, hmem⟩ := hi.sound s a trivial hfl₁ ha
    cases hr : r.value with
    | error e => simp [hr, Except.map] at hv
    | ok bs =>
      rw [hr] at hv
      cases hv
      obtain ⟨hgoods, hmems⟩ := ih bs hfl₂ hr
      refine ⟨by simpa [hgood] using hgoods, ?_⟩
      rw [List.length_cons, pow_succ', mul_assoc, mul_assoc]
      show [t] ++ (o.built ++ r.built).leaves ∈ _
      rw [Forest.leaves_append]
      exact Language.append_mem_mul ⟨t, hcomma, rfl⟩ (Language.append_mem_mul hmem hmems)
  | case5 t s hc hcomma => simp at hv

theorem complete_sepTail {item : Step α} {good : α → Prop}
    (hi : Accepts kinds item good L Always F) {closer : TokenKind} (hcloser : closer ≠ .comma)
    (hF : ∀ t rest, t.kind = .comma ∨ t.kind = closer → F (t :: rest))
    (otherwise : String → Stop) (n : Nat) (w : List Lexeme)
    (hw : w ∈ (token .comma * L) ^ n * token closer) :
    (∃ t v, w = t :: v ∧ (t.kind = .comma ∨ t.kind = closer)) ∧
    ∃ as row, as.length = n ∧ (∀ a ∈ as, good a) ∧ row.leaves = w ∧ Whole kinds row ∧
      ∀ rest, Parser.run (sepTail item closer otherwise) (w ++ rest) = ⟨.ok as, row, rest⟩ := by
  induction n generalizing w with
  | zero =>
    rw [pow_zero, one_mul] at hw
    obtain ⟨t, ht, rfl⟩ := hw
    refine ⟨⟨t, [], rfl, .inr ht⟩, [], .leaf t .nil, rfl, by simp, rfl, trivial, fun rest => ?_⟩
    show sepTail.loop item closer otherwise (t :: rest) = _
    rw [sepTail.loop, if_pos ht]
  | succ n ih =>
    rw [pow_succ', mul_assoc, mul_assoc] at hw
    obtain ⟨_, ⟨t, ht, rfl⟩, _, ⟨u, hu, v, hv, rfl⟩, rfl⟩ := hw
    obtain ⟨⟨t', v', rfl, ht'⟩, as, row, hlen, hgoods, hl, hr, hrun⟩ := ih v hv
    obtain ⟨a, row', hgood, hl', hr', hrun'⟩ := hi.complete u hu
    refine ⟨⟨t, _, rfl, .inl ht⟩, a :: as, .leaf t (row' ++ row), by simp [hlen],
      by simpa [hgood] using hgoods, by simp [Forest.leaves, hl, hl'],
      whole_append.mpr ⟨hr', hr⟩, fun rest => ?_⟩
    have h := hrun' (t' :: v' ++ rest) (hF t' (v' ++ rest) ht')
    rw [show Parser.run (sepTail item closer otherwise) = sepTail.loop item closer otherwise
      from rfl] at hrun ⊢
    show sepTail.loop item closer otherwise (t :: (u ++ t' :: v' ++ rest)) = _
    rw [List.append_assoc, sepTail.loop, if_neg (fun hc => hcloser (hc.symm.trans ht)), if_pos ht]
    dsimp only
    simp only [h, hrun]
    rfl

theorem accepts_sepTail {item : Step α} {good : α → Prop} {F' : List Lexeme → Prop}
    (hi : Accepts kinds item good L Always F) {closer : TokenKind} (hcloser : closer ≠ .comma)
    (hF : ∀ t rest, t.kind = .comma ∨ t.kind = closer → F (t :: rest))
    (otherwise : String → Stop) :
    Accepts kinds (sepTail item closer otherwise) (fun as => ∀ a ∈ as, good a)
      ((token .comma * L)∗ * token closer) P F' where
  sound s as _ hfl hv := by
    obtain ⟨hgoods, hmem⟩ := sound_sepTail hi closer otherwise s as hfl hv
    exact ⟨hgoods, Set.mem_of_mem_of_subset hmem
      (mul_le_mul_left (pow_le_kstar (a := token .comma * L)) (token closer))⟩
  complete := by
    rintro _ ⟨u, hu, v, hv, rfl⟩
    rw [Language.kstar_eq_iSup_pow] at hu
    obtain ⟨n, hn⟩ := Language.mem_iSup.mp hu
    obtain ⟨-, as, row, -, hgoods, hl, hr, hrun⟩ :=
      complete_sepTail hi hcloser hF otherwise n _ (Language.append_mem_mul hn hv)
    exact ⟨as, row, hgoods, hl, hr, fun rest _ => hrun rest⟩

/-- Elements after commas, of which there must be a certain number. -/
theorem accepts_counted {item : Step α} {good : α → Prop} (hi : Accepts kinds item good L Always F)
    {closer : TokenKind} (hcloser : closer ≠ .comma)
    (hF : ∀ t rest, t.kind = .comma ∨ t.kind = closer → F (t :: rest))
    (otherwise : String → Stop) (n : Nat) {f : List α → Step β} {F' : List Lexeme → Prop}
    (hok : ∀ as, as.length = n → ∃ b, f as = pure b)
    (hstop : ∀ as, as.length ≠ n → ∃ recovery fault, f as = stop recovery fault) :
    Accepts kinds (sepTail item closer otherwise >>= f : Step β) (fun _ => True)
      ((token .comma * L) ^ n * token closer) P F' where
  sound s b _ hfl hv := by
    cases h : (Parser.run (sepTail item closer otherwise) s).value with
    | error e => simp [run_bind_of_error f h] at hv
    | ok as =>
      rw [run_bind_of_ok f h] at hfl hv ⊢
      obtain ⟨-, hmem⟩ := sound_sepTail hi closer otherwise s as (faultless_append.mp hfl).1 h
      by_cases hn : as.length = n
      · obtain ⟨b', hb'⟩ := hok as hn
        rw [hb', run_pure, Forest.append_nil]
        exact ⟨trivial, hn ▸ hmem⟩
      · obtain ⟨recovery, fault, hf⟩ := hstop as hn
        simp [hf] at hv
  complete w hw := by
    obtain ⟨-, as, row, hn, -, hl, hr, hrun⟩ := complete_sepTail hi hcloser hF otherwise n w hw
    obtain ⟨b, hb⟩ := hok as hn
    refine ⟨b, row, trivial, hl, hr, fun rest _ => ?_⟩
    rw [run_bind_of_ok f (by rw [hrun]), hrun, hb, run_pure, Forest.append_nil]

end Step

namespace Parser

variable {kinds : NodeKind → Prop} {L : Language Lexeme} {P Q F : List Lexeme → Prop}

structure Accepts (kinds : NodeKind → Prop) (p : Parser Bool) (L : Language Lexeme)
    (P F : List Lexeme → Prop) : Prop where
  sound : ∀ s, P s → Faultless (p.run s).built → (p.run s).value = true ∧ (p.run s).built.leaves ∈ L
  complete : ∀ w ∈ L, ∃ row, row.leaves = w ∧ Whole kinds row ∧
    ∀ rest, F rest → p.run (w ++ rest) = ⟨true, row, rest⟩

theorem Accepts.mono {p : Parser Bool} {F' : List Lexeme → Prop} (h : Accepts kinds p L P F)
    (hP : ∀ s, Q s → P s) (hF : ∀ s, F' s → F s) : Accepts kinds p L Q F' where
  sound s hs := h.sound s (hP s hs)
  complete w hw := by
    obtain ⟨row, hl, hrow, hrun⟩ := h.complete w hw
    exact ⟨row, hl, hrow, fun rest hr => hrun rest (hF rest hr)⟩

theorem accepts_construct {kind : NodeKind} (hk : kinds kind) {body : Step Bool}
    (hb : Step.Accepts kinds body (· = true) L P F) :
    Accepts kinds (construct kind body) L P F where
  sound s hs hfl := by
    cases h : (run body s).value with
    | error e =>
      rw [run_construct_of_error h] at hfl
      exact absurd hfl.2.2 (not_faultless_skipped _ _ _)
    | ok b =>
      rw [run_construct_of_ok h] at hfl ⊢
      obtain ⟨hb, hmem⟩ := hb.sound s b hs hfl.2.1 h
      exact ⟨hb, by simpa [Forest.leaves] using hmem⟩
  complete w hw := by
    obtain ⟨_, row, rfl, hl, hr, h⟩ := hb.complete w hw
    refine ⟨.node (.construct kind true) row .nil, by simp [Forest.leaves, hl],
      ⟨⟨kind, hk, rfl⟩, hr, trivial⟩, fun rest hrest => ?_⟩
    have hrun := h rest hrest
    rw [run_construct_of_ok (by rw [hrun]), hrun]

theorem accepts_tooDeep : Accepts kinds tooDeep 0 P F where
  sound _ _ hfl := absurd hfl (not_faultless_skipped _ _ _)
  complete _ hw := hw.elim

end Parser

theorem Step.accepts_liftM {kinds : NodeKind → Prop} {L : Language Lexeme}
    {P F : List Lexeme → Prop} {p : Parser Bool} (hp : Parser.Accepts kinds p L P F) :
    Step.Accepts kinds (liftM p) (· = true) L P F where
  sound s a hs hfl hv := by
    rw [run_liftM] at hfl hv ⊢
    cases hv
    exact hp.sound s hs hfl
  complete w hw := by
    obtain ⟨row, hl, hr, h⟩ := hp.complete w hw
    refine ⟨true, row, rfl, hl, hr, fun rest hrest => ?_⟩
    rw [run_liftM, h rest hrest]

end SchemaLang
