import SchemaLang.Proofs.Statements

/-!
# Values are read as the grammar has them

The first lexeme of a value tells its form, except that an integer may go on
behind a dot and a name before a parenthesis. A value is therefore read whole
when neither comes next, and in every place of the grammar something else
does: a comma, a colon or a closer.
-/

set_option autoImplicit false

namespace SchemaLang

open Computability

/-- What a value cannot be followed by: a dot would go on with a number, and a
parenthesis would make a name a constructor. -/
def EndsValue (s : List Lexeme) : Prop := startsWord "." s = false ∧ starts .lparen s = false

theorem endsValue_cons {t : Lexeme} (h : t.kind ≠ .identifier) (h' : t.kind ≠ .lparen)
    (s : List Lexeme) : EndsValue (t :: s) := by
  simp [EndsValue, startsWord, Lexeme.isWord, starts, h, h']

namespace Parse

open SchemaLang.Parser

variable {L M : Language Lexeme} {P F : List Lexeme → Prop}

theorem accepts_literal {kind : NodeKind} (hk : Plain kind) (p : Lexeme → Prop) :
    Parser.Accepts Plain (literal kind) (Grammar.one p) (Begins p Always) F where
  sound s hs _ := by
    cases s with
    | nil => exact hs.elim
    | cons t s => exact ⟨rfl, t, hs.1, rfl⟩
  complete := by
    rintro _ ⟨t, -, rfl⟩
    exact ⟨.node (.construct kind true) (.leaf t .nil) .nil, rfl,
      ⟨⟨kind, hk, rfl⟩, trivial, trivial⟩, fun _ _ => rfl⟩

theorem accepts_decimal (fault : String → Fault) :
    Parser.Accepts Plain
      (construct .decimalValue do
        bump
        bump
        Step.punct .integer .value fault
        pure true)
      (Grammar.token .integer * (Grammar.word "." * Grammar.token .integer))
      (Begins (fun t => t.kind = .integer) (Begins (fun t => t.isWord "." = true) Always)) F := by
  have h : Step.Accepts Plain (do Step.punct .integer .value fault; pure true) (· = true)
      (Grammar.token .integer * 1) Always F :=
    Step.accepts_then (Step.accepts_punct _ _ _) fun _ _ => Step.accepts_done rfl
  rw [mul_one] at h
  exact accepts_construct (by decide) (Step.accepts_bump_then (Step.accepts_bump_then h))

/-- The lexeme behind an integer tells whether digits must follow. -/
theorem run_number (t : Lexeme) (s : List Lexeme) :
    number.run (t :: s) =
      if startsWord "." s then
        (construct .decimalValue do
          bump
          bump
          Step.punct .integer .value fun _ => .missingAfter "digits" s!"{t.text}."
          pure true).run (t :: s)
      else (literal .intValue).run (t :: s) := by
  rw [number, run_choose, List.tail_cons, apply_ite (fun p : Parser Bool => p.run (t :: s))]
  rfl

theorem accepts_number :
    Parser.Accepts Plain number
      (Grammar.token .integer + Grammar.token .integer * Grammar.word "." * Grammar.token .integer)
      (Begins (fun t => t.kind = .integer) Always) (fun s => startsWord "." s = false) := by
  rw [mul_assoc]
  constructor
  · rintro (_ | ⟨t, s⟩) hs hfl
    · exact hs.elim
    cases hdot : startsWord "." s with
    | true =>
      rw [run_number, if_pos hdot] at hfl ⊢
      obtain ⟨hv, hmem⟩ := (accepts_decimal (F := Always) _).sound (t :: s)
        ⟨hs.1, begins_of_startsWord hdot⟩ hfl
      exact ⟨hv, .inr hmem⟩
    | false =>
      rw [run_number, if_neg (by simp [hdot])]
      exact ⟨rfl, .inl ⟨t, hs.1, rfl⟩⟩
  · rintro w (hw | hw)
    · obtain ⟨t, -, rfl⟩ := hw
      refine ⟨.node (.construct .intValue true) (.leaf t .nil) .nil, rfl,
        ⟨⟨.intValue, by decide, rfl⟩, trivial, trivial⟩, fun rest hrest => ?_⟩
      rw [List.singleton_append, run_number, if_neg (by simp [hrest])]
      rfl
    · obtain ⟨_, ⟨t, ht, rfl⟩, _, ⟨_, ⟨d, hd, rfl⟩, v, hv, rfl⟩, rfl⟩ := hw
      obtain ⟨row, hl, hr, hrun⟩ := (accepts_decimal (F := Always) _).complete _
        (Language.append_mem_mul ⟨t, ht, rfl⟩ (Language.append_mem_mul ⟨d, hd, rfl⟩ hv))
      refine ⟨row, hl, hr, fun rest _ => ?_⟩
      have hdot : startsWord "." (d :: (v ++ rest)) = true := hd
      show number.run (t :: d :: (v ++ rest)) = _
      rw [run_number, if_pos hdot]
      exact hrun rest trivial

theorem accepts_elements {item : Step Bool} (h : Step.Accepts Plain item (· = true) L Always F)
    {closer : TokenKind} (hcloser : closer ≠ .comma)
    (hF : ∀ t rest, t.kind = .comma ∨ t.kind = closer → F (t :: rest)) (otherwise : String → Stop)
    {F' : List Lexeme → Prop} :
    Step.Accepts Plain (elements item closer otherwise) (· = true)
      (Grammar.separated L * Grammar.token closer) P F' := by
  have hothers : Step.Accepts Plain
      (Step.sepTail item closer otherwise >>= fun others => pure (true && others.all id))
      (· = true) ((Grammar.token .comma * L)∗ * Grammar.token closer * 1) Always F' := by
    apply Step.accepts_then (Step.accepts_sepTail h hcloser hF otherwise)
    intro others hall
    exact Step.accepts_done (by simpa using hall)
  rw [mul_one] at hothers
  rw [Grammar.separated, mul_assoc]
  apply Step.accepts_bind (h.mono (fun _ _ => trivial) fun _ => id)
  · rintro _ rfl
    exact hothers
  · intro w hw rest _
    obtain ⟨u, hu, v, hv, rfl⟩ := hw
    rw [Language.kstar_eq_iSup_pow] at hu
    obtain ⟨n, hn⟩ := Language.mem_iSup.mp hu
    obtain ⟨⟨t, v', heq, ht⟩, -⟩ :=
      Step.complete_sepTail h hcloser hF otherwise n _ (Language.append_mem_mul hn hv)
    show F (u ++ v ++ rest)
    rw [show u ++ v = t :: v' from heq]
    exact hF t (v' ++ rest) ht

/-- An opener, and elements up to the closer unless it comes at once. -/
theorem accepts_bracketed {kind : NodeKind} (hk : Plain kind) (opener : TokenKind)
    {closer : TokenKind} {item : Step Bool}
    (h : Step.Accepts Plain item (· = true) L Always F) (hcloser : closer ≠ .comma)
    (hF : ∀ t rest, t.kind = .comma ∨ t.kind = closer → F (t :: rest))
    (hL : Grammar.Heads (fun t => t.kind ≠ closer) L) (otherwise : String → Stop)
    {F' : List Lexeme → Prop} :
    Parser.Accepts Plain
      (construct kind (between closer item otherwise))
      (Grammar.bracketed opener closer L) (Begins (fun t => t.kind = opener) Always) F' := by
  rw [Grammar.bracketed, mul_assoc, add_mul, one_mul]
  refine accepts_construct hk (Step.accepts_bump_then (Step.accepts_if (starts closer) ?_ ?_ ?_ ?_))
  · have hd : Step.Accepts Plain (pure true : Step Bool) (· = true) 1 Always F' :=
      Step.accepts_done rfl
    have h := Step.accepts_bump_then (p := fun t => t.kind = closer) (f := fun _ => pure true) hd
    rw [mul_one] at h
    exact h.mono (fun s hs => begins_of_starts hs.2) fun _ => id
  · exact accepts_elements h hcloser hF otherwise
  · exact fun w hw rest _ => (Grammar.heads_one _).starts w hw rest
  · exact fun w hw rest _ => ((hL.mul _).mul _).not_starts w hw rest

/-! ## Values -/

def StartsValue (t : Lexeme) : Prop :=
  t.kind ∈ [.integer, .boolean, .string, .identifier, .lbracket, .lbrace]

theorem StartsValue.kind_ne {t : Lexeme} (h : StartsValue t) {kind : TokenKind}
    (hk : kind ∉ [TokenKind.integer, .boolean, .string, .identifier, .lbracket, .lbrace]) :
    t.kind ≠ kind := fun he => hk (he ▸ h)

theorem kind_of_isWord {t : Lexeme} {text : String} (h : t.isWord text = true) :
    t.kind = .identifier := by
  have h := Bool.and_eq_true _ _ ▸ h
  simpa using h.1

theorem isWord_eq_true {t : Lexeme} {text : String} :
    t.isWord text = true ↔ t.kind = .identifier ∧ t.text = text := by
  simp [Lexeme.isWord]

theorem heads_scalar : Grammar.Heads StartsValue Grammar.scalar := by
  have hone {p : Lexeme → Prop} (hp : ∀ t, p t → StartsValue t) :
      Grammar.Heads StartsValue (Grammar.one p) := (Grammar.heads_one p).imp hp
  refine .add (.add (.add (.add (.add (hone ?_) (((hone ?_).mul _).mul _)) (hone ?_)) (hone ?_))
    (hone ?_)) (hone ?_)
  · exact fun t ht => by simp [StartsValue, ht]
  · exact fun t ht => by simp [StartsValue, ht]
  · exact fun t ht => by simp [StartsValue, ht]
  · exact fun t ht => by simp [StartsValue, ht]
  · exact fun t ht => by simp [StartsValue, kind_of_isWord ht]
  · exact fun t ht => by simp [StartsValue, ht.1]

theorem heads_bracketed (opener closer : TokenKind) (L : Language Lexeme) :
    Grammar.Heads (fun t => t.kind = opener) (Grammar.bracketed opener closer L) :=
  ((Grammar.heads_one _).mul _).mul _

theorem heads_value (room : Nat) : Grammar.Heads StartsValue (Grammar.value room) := by
  cases room with
  | zero => exact heads_scalar
  | succ room =>
    refine .add (.add (.add heads_scalar ?_) ?_) ?_
    · exact (heads_bracketed _ _ _).imp fun t ht => by simp [StartsValue, ht]
    · exact (heads_bracketed _ _ _).imp fun t ht => by simp [StartsValue, ht]
    · exact ((Grammar.heads_one _).mul _).imp fun t ht => by simp [StartsValue, ht.1]

theorem accepts_mapEntry {value : Parser Bool}
    (h : Parser.Accepts Plain value L Always EndsValue) :
    Step.Accepts Plain (mapEntry value) (· = true) (L * Grammar.token .colon * L) Always
      EndsValue := by
  have hd : Step.Accepts Plain (pure (true && true) : Step Bool) (· = true) 1 Always EndsValue :=
    Step.accepts_done rfl
  have hentry : Step.Accepts Plain (liftM value >>= fun entry => pure (true && entry) : Step Bool)
      (· = true) (L * 1) Always EndsValue := by
    apply Step.accepts_bind (Step.accepts_liftM h)
    · rintro _ rfl
      exact hd
    · rintro _ rfl rest hrest
      exact hrest
  rw [mul_one] at hentry
  rw [mul_assoc]
  refine Step.accepts_group (by decide) (Step.accepts_bind (Step.accepts_liftM h) ?_ ?_)
    (fun _ => id)
  · rintro _ rfl
    exact Step.accepts_then (Step.accepts_punct _ _ _) fun _ _ => hentry
  · rintro _ ⟨_, ⟨t, ht, rfl⟩, v, -, rfl⟩ rest -
    exact endsValue_cons (by simp [ht]) (by simp [ht]) _

/-- The delimiters around values are not what a value could go on with. -/
theorem endsValue_delimiter {closer : TokenKind} (h : closer ≠ .identifier) (h' : closer ≠ .lparen)
    (t : Lexeme) (rest : List Lexeme) (ht : t.kind = .comma ∨ t.kind = closer) :
    EndsValue (t :: rest) := by
  rcases ht with ht | ht
  · exact endsValue_cons (by simp [ht]) (by simp [ht]) rest
  · exact endsValue_cons (ht ▸ h) (ht ▸ h') rest

section Nesting

variable {value : Parser Bool} (hv : Parser.Accepts Plain value L Always EndsValue)
  (hs : Grammar.Heads StartsValue L)

include hv hs

theorem accepts_list :
    Parser.Accepts Plain (list value) (Grammar.list L)
      (Begins (fun t => t.kind = .lbracket) Always) F :=
  accepts_bracketed (by decide) _ (Step.accepts_liftM hv) (by decide)
    (endsValue_delimiter (by decide) (by decide)) (hs.imp fun _ ht => ht.kind_ne (by decide)) _

theorem accepts_map :
    Parser.Accepts Plain (map value) (Grammar.map L)
      (Begins (fun t => t.kind = .lbrace) Always) F :=
  accepts_bracketed (by decide) _ (accepts_mapEntry hv) (by decide)
    (endsValue_delimiter (by decide) (by decide))
    (((hs.mul _).mul _).imp fun _ ht => ht.kind_ne (by decide)) _

theorem accepts_arguments :
    Parser.Accepts Plain (arguments value) (Grammar.arguments L)
      (Begins (fun t => t.kind = .lparen) Always) F := by
  have hitem (r : Recovery) (f : Fault) : Step.Accepts Plain
      (Step.choose fun s => if s.isEmpty then Step.stop r f else liftM value : Step Bool)
      (· = true) (0 + L) Always EndsValue := by
    refine Step.accepts_if List.isEmpty (Step.accepts_stop _ _)
      ((Step.accepts_liftM hv).mono (fun _ _ => trivial) fun _ => id) (fun _ hw => hw.elim) ?_
    intro w hw rest _
    obtain ⟨t, v, rfl, -⟩ := hs w hw
    rfl
  have hitem := zero_add L ▸ hitem
  exact accepts_bracketed (by decide) _ (hitem _ _) (by decide)
    (endsValue_delimiter (by decide) (by decide)) (hs.imp fun _ ht => ht.kind_ne (by decide)) _

theorem accepts_construction :
    Parser.Accepts Plain (construction value) (Grammar.construction L)
      (Begins (fun t => t.kind = .identifier ∧ t.text ≠ "_") (fun s => starts .lparen s = true))
      F where
  sound s hb hfl := by
    cases s with
    | nil => exact hb.elim
    | cons t s =>
      obtain ⟨-, hfl, -⟩ := hfl
      obtain ⟨hsound, hmem⟩ := (accepts_arguments (F := Always) hv hs).sound s
        (begins_of_starts hb.2) hfl.2.2
      refine ⟨hsound, [t], ⟨t, hb.1, rfl⟩, _, hmem, ?_⟩
      exact (List.append_nil _).symm
  complete := by
    rintro _ ⟨_, ⟨t, ht, rfl⟩, v, hv', rfl⟩
    obtain ⟨row, hl, hr, hrun⟩ := (accepts_arguments (F := Always) hv hs).complete v hv'
    refine ⟨.node (.construct .construction true)
      (.node (.construct .constructorName true) (.leaf t .nil) row) .nil, ?_, ?_, fun rest _ => ?_⟩
    · simp [Forest.leaves, hl]
    · exact ⟨⟨_, by decide, rfl⟩, ⟨⟨_, by decide, rfl⟩, trivial, hr⟩, trivial⟩
    · show (construction value).run (t :: (v ++ rest)) = _
      simp only [construction, wrap, within, run_bind, run_take_cons, hrun rest trivial,
        Forest.node_append, Forest.nil_append]

end Nesting

theorem not_faultless_notAValue (s : List Lexeme) : ¬ Faultless (notAValue.run s).built :=
  not_faultless_skipped _ _ _

/-- Where one parser hands over to another on account of the first lexeme. -/
theorem complete_of_heads {p q : Parser Bool} {sort : Lexeme → Prop}
    (hp : Parser.Accepts Plain p L P F) (hL : Grammar.Heads sort L)
    (hq : ∀ t s, sort t → q.run (t :: s) = p.run (t :: s)) (w : List Lexeme) (hw : w ∈ L) :
    ∃ row, row.leaves = w ∧ Whole Plain row ∧
      ∀ rest, F rest → q.run (w ++ rest) = ⟨true, row, rest⟩ := by
  obtain ⟨row, hl, hr, hrun⟩ := hp.complete w hw
  obtain ⟨t, v, rfl, ht⟩ := hL w hw
  refine ⟨row, hl, hr, fun rest hrest => ?_⟩
  rw [List.cons_append, hq t _ ht]
  exact hrun rest hrest

section Forms

variable {list map construction : Parser Bool} {L₁ L₂ L₃ : Language Lexeme}

theorem sound_valueOf
    (hl : Parser.Accepts Plain list L₁ (Begins (fun t => t.kind = .lbracket) Always) EndsValue)
    (hm : Parser.Accepts Plain map L₂ (Begins (fun t => t.kind = .lbrace) Always) EndsValue)
    (hc : Parser.Accepts Plain construction L₃
      (Begins (fun t => t.kind = .identifier ∧ t.text ≠ "_") (fun s => starts .lparen s = true))
      EndsValue) (s : List Lexeme)
    (hfl : Faultless ((valueOf list map construction).run s).built) :
    ((valueOf list map construction).run s).value = true ∧
      ((valueOf list map construction).run s).built.leaves ∈ Grammar.scalar + L₁ + L₂ + L₃ := by
  cases s with
  | nil => exact absurd hfl (not_faultless_notAValue [])
  | cons t s =>
    rw [valueOf, run_choose] at hfl ⊢
    dsimp only at hfl ⊢
    cases hk : t.kind with
    | integer =>
      simp only [hk] at hfl ⊢
      obtain ⟨hv, hmem⟩ := accepts_number.sound (t :: s) ⟨hk, trivial⟩ hfl
      exact ⟨hv, .inl (.inl (.inl (.inl (.inl (.inl (.inl hmem))))))⟩
    | boolean => exact ⟨rfl, .inl (.inl (.inl (.inl (.inl (.inl (.inr ⟨t, hk, rfl⟩))))))⟩
    | string => exact ⟨rfl, .inl (.inl (.inl (.inl (.inl (.inr ⟨t, hk, rfl⟩)))))⟩
    | lbracket =>
      simp only [hk] at hfl ⊢
      obtain ⟨hv, hmem⟩ := hl.sound (t :: s) ⟨hk, trivial⟩ hfl
      exact ⟨hv, .inl (.inl (.inr hmem))⟩
    | lbrace =>
      simp only [hk] at hfl ⊢
      obtain ⟨hv, hmem⟩ := hm.sound (t :: s) ⟨hk, trivial⟩ hfl
      exact ⟨hv, .inl (.inr hmem)⟩
    | identifier =>
      simp only [hk] at hfl ⊢
      by_cases hblank : t.text = "_"
      · rw [if_pos (by simp [hblank])]
        exact ⟨rfl, .inl (.inl (.inl (.inl (.inr ⟨t, isWord_eq_true.mpr ⟨hk, hblank⟩, rfl⟩))))⟩
      rw [if_neg (by simp [hblank])] at hfl ⊢
      by_cases hparen : starts .lparen s = true
      · rw [if_pos hparen] at hfl ⊢
        obtain ⟨hv, hmem⟩ := hc.sound (t :: s) ⟨⟨hk, hblank⟩, hparen⟩ hfl
        exact ⟨hv, .inr hmem⟩
      · rw [if_neg hparen]
        exact ⟨rfl, .inl (.inl (.inl (.inr ⟨t, ⟨hk, hblank⟩, rfl⟩)))⟩
    | _ =>
      simp only [hk] at hfl
      exact absurd hfl (not_faultless_notAValue (t :: s))

theorem complete_scalar (w : List Lexeme) (hw : w ∈ Grammar.scalar) :
    ∃ row, row.leaves = w ∧ Whole Plain row ∧ ∀ rest, EndsValue rest →
      (valueOf list map construction).run (w ++ rest) = ⟨true, row, rest⟩ := by
  have hliteral (kind : NodeKind) (hk : Plain kind) (p : Lexeme → Prop) :
      Parser.Accepts Plain (literal kind) (Grammar.one p) (Begins p Always) EndsValue :=
    accepts_literal hk p
  rcases hw with ((((hw | hw) | hw) | hw) | hw)
  · refine complete_of_heads (accepts_number.mono (fun _ => id) fun _ h => h.1) (.add
      (Grammar.heads_one _) (((Grammar.heads_one _).mul _).mul _)) (fun t s ht => ?_) w hw
    simp only [valueOf, run_choose, ht]
  · refine complete_of_heads (hliteral .boolValue (by decide) _)
      (Grammar.heads_one _) (fun t s ht => ?_) w hw
    simp only [valueOf, run_choose, ht]
  · refine complete_of_heads (hliteral .stringValue (by decide) _)
      (Grammar.heads_one _) (fun t s ht => ?_) w hw
    simp only [valueOf, run_choose, ht]
  · refine complete_of_heads (hliteral .emptyOption (by decide) _)
      (Grammar.heads_one _) (fun t s ht => ?_) w hw
    obtain ⟨hk, hblank⟩ := isWord_eq_true.mp ht
    simp [valueOf, hk, hblank]
  · obtain ⟨t, ⟨hk, hblank⟩, rfl⟩ := hw
    refine ⟨.node (.construct .nameRef true) (.leaf t .nil) .nil, rfl,
      ⟨⟨.nameRef, by decide, rfl⟩, trivial, trivial⟩, fun rest hrest => ?_⟩
    have hname : (valueOf list map construction).run (t :: rest) =
        (literal .nameRef).run (t :: rest) := by
      simp [valueOf, hk, hblank, hrest.2]
    exact hname

/-- The first lexeme of a value tells its form; behind a name it is the second one. -/
theorem accepts_valueOf
    (hl : Parser.Accepts Plain list L₁ (Begins (fun t => t.kind = .lbracket) Always) EndsValue)
    (hm : Parser.Accepts Plain map L₂ (Begins (fun t => t.kind = .lbrace) Always) EndsValue)
    (hc : Parser.Accepts Plain construction L₃
      (Begins (fun t => t.kind = .identifier ∧ t.text ≠ "_") (fun s => starts .lparen s = true))
      EndsValue)
    (h₁ : Grammar.Heads (fun t => t.kind = .lbracket) L₁)
    (h₂ : Grammar.Heads (fun t => t.kind = .lbrace) L₂)
    (h₃ : ∀ w ∈ L₃, ∃ t u v, w = t :: u :: v ∧ (t.kind = .identifier ∧ t.text ≠ "_") ∧
      u.kind = .lparen) :
    Parser.Accepts Plain (valueOf list map construction) (Grammar.scalar + L₁ + L₂ + L₃) Always
      EndsValue where
  sound s _ := sound_valueOf hl hm hc s
  complete := by
    rintro w (((hw | hw) | hw) | hw)
    · exact complete_scalar w hw
    · refine complete_of_heads hl h₁ (fun t s ht => ?_) w hw
      simp only [valueOf, run_choose, ht]
    · refine complete_of_heads hm h₂ (fun t s ht => ?_) w hw
      simp only [valueOf, run_choose, ht]
    · obtain ⟨row, hleaves, hr, hrun⟩ := hc.complete w hw
      obtain ⟨t, u, v, rfl, ⟨hk, hblank⟩, hu⟩ := h₃ w hw
      refine ⟨row, hleaves, hr, fun rest hrest => ?_⟩
      have hparen : starts .lparen (u :: (v ++ rest)) = true := by simp [starts, hu]
      rw [← hrun rest hrest]
      simp [valueOf, hk, hblank, hparen]

end Forms

theorem accepts_value (room : Nat) :
    Parser.Accepts Plain (value room) (Grammar.value room) Always EndsValue := by
  induction room with
  | zero =>
    have h : Parser.Accepts Plain (value 0) (Grammar.scalar + 0 + 0 + 0) Always EndsValue :=
      accepts_valueOf accepts_tooDeep accepts_tooDeep accepts_tooDeep (fun _ hw => hw.elim)
        (fun _ hw => hw.elim) (fun _ hw => hw.elim)
    rwa [add_zero, add_zero, add_zero] at h
  | succ room ih =>
    refine accepts_valueOf (accepts_list ih (heads_value room)) (accepts_map ih (heads_value room))
      (accepts_construction ih (heads_value room)) (heads_bracketed _ _ _)
      (heads_bracketed _ _ _) ?_
    rintro _ ⟨_, ⟨t, ht, rfl⟩, v, hv, rfl⟩
    obtain ⟨u, v, rfl, hu⟩ := heads_bracketed _ _ _ v hv
    exact ⟨t, u, v, rfl, ht, hu⟩

end Parse

end SchemaLang
