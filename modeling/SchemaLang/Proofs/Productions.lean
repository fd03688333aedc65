import SchemaLang.Proofs.Values

/-!
# Tags and statements are read as the grammar has them

A tag, a setting, a field and every other statement reads its language up to
the closer. The productions that look ahead are decided by the first lexemes
of a word: the arguments of a tag by the second lexeme behind the parenthesis,
the type of a field by its modifier and by an angle bracket.
-/

set_option autoImplicit false

namespace SchemaLang.Parse

open Computability SchemaLang.Parser

variable {L : Language Lexeme} {P F : List Lexeme → Prop}

/-! ## Tags -/

abbrev NotKind (kind : TokenKind) (t : Lexeme) : Prop := t.kind ≠ kind

section Kinds

variable {bad : TokenKind}

theorem over_token {kind : TokenKind} (h : kind ≠ bad) :
    Grammar.Over (NotKind bad) (Grammar.token kind) :=
  Grammar.over_one fun t ht => show t.kind ≠ bad from ht ▸ h

theorem over_word (h : bad ≠ .identifier) (text : String) :
    Grammar.Over (NotKind bad) (Grammar.word text) :=
  Grammar.over_one fun t ht => by simpa [NotKind, kind_of_isWord ht] using h.symm

theorem over_nameBut (h : bad ≠ .identifier) (text : String) :
    Grammar.Over (NotKind bad) (Grammar.nameBut text) :=
  Grammar.over_one fun t ht => by simpa [NotKind, ht.1] using h.symm

theorem over_bracketed {opener closer : TokenKind} (ho : opener ≠ bad) (hc : closer ≠ bad)
    (hcomma : .comma ≠ bad) (hL : Grammar.Over (NotKind bad) L) :
    Grammar.Over (NotKind bad) (Grammar.bracketed opener closer L) :=
  .mul (.mul (over_token ho) (.add Grammar.over_unit
    (.mul hL (.kstar (.mul (over_token hcomma) hL))))) (over_token hc)

theorem over_value (hbad : bad = .semicolon ∨ bad = .equals) (room : Nat) :
    Grammar.Over (NotKind bad) (Grammar.value room) := by
  have hne {kind : TokenKind} (h : kind ≠ .semicolon ∧ kind ≠ .equals) : kind ≠ bad := by
    rcases hbad with rfl | rfl
    · exact h.1
    · exact h.2
  have hname : bad ≠ .identifier := (hne (by decide)).symm
  have hscalar : Grammar.Over (NotKind bad) Grammar.scalar := by
    have hint : Grammar.Over (NotKind bad) (Grammar.token .integer) := over_token (hne (by decide))
    exact .add (.add (.add (.add (.add hint (.mul (.mul hint (over_word hname _)) hint))
      (over_token (hne (by decide)))) (over_token (hne (by decide)))) (over_word hname _))
      (over_nameBut hname _)
  induction room with
  | zero => exact hscalar
  | succ room ih =>
    have hcomma : .comma ≠ bad := hne (by decide)
    refine .add (.add (.add hscalar ?_) ?_) (.mul (over_nameBut hname _) ?_)
    · exact over_bracketed (hne (by decide)) (hne (by decide)) hcomma ih
    · exact over_bracketed (hne (by decide)) (hne (by decide)) hcomma
        (.mul (.mul ih (over_token (hne (by decide)))) ih)
    · exact over_bracketed (hne (by decide)) (hne (by decide)) hcomma ih

end Kinds

theorem accepts_namedArgument {value : Parser Bool}
    (hv : Parser.Accepts Plain value L Always EndsValue) :
    Step.Accepts Plain (namedArgument value) (· = true) (Grammar.namedArgument L) Always
      EndsValue := by
  rw [Grammar.namedArgument, mul_assoc]
  exact Step.accepts_group (by decide) (Step.accepts_then (Step.accepts_expect _ (by decide) _ _)
    fun _ _ => Step.accepts_then (Step.accepts_punct _ _ _) fun _ _ => Step.accepts_liftM hv)
    (fun _ => id)

def EndsArguments (s : List Lexeme) : Prop := starts .lparen s = false ∧ starts .equals s = false

theorem isNamed_of_namedArguments (w : List Lexeme) (hw : w ∈ Grammar.namedArguments L)
    (rest : List Lexeme) : isNamed (w ++ rest) = true := by
  obtain ⟨_, ⟨_, ⟨t, -, rfl⟩, _, ⟨_, ⟨_, ⟨_, ⟨u, -, rfl⟩, _, ⟨v, hv, rfl⟩, rfl⟩, a, -, rfl⟩, b, -,
    rfl⟩, rfl⟩, c, -, rfl⟩ := hw
  simpa [isNamed, starts] using hv

theorem not_starts_drop {kind : TokenKind} {w rest : List Lexeme} {n : Nat}
    (hw : ∀ t ∈ w, t.kind ≠ kind) (hn : n ≤ w.length) (hrest : starts kind rest = false) :
    starts kind ((w ++ rest).drop n) = false := by
  rw [List.drop_append_of_le_length hn]
  cases hd : w.drop n with
  | nil => exact hrest
  | cons t v =>
    have ht : t ∈ w := List.mem_of_mem_drop (hd ▸ List.mem_cons_self)
    simp [starts, hw t ht]

/-- Behind the parenthesis of positional arguments no lexeme is `=`. -/
theorem not_isNamed_of_arguments (hL : Grammar.Over (NotKind .equals) L) (w : List Lexeme)
    (hw : w ∈ Grammar.arguments L) (rest : List Lexeme) (hrest : EndsArguments rest) :
    isNamed (w ++ rest) = false := by
  have hover : Grammar.Over (NotKind .equals) (Grammar.arguments L) :=
    over_bracketed (by decide) (by decide) (by decide) hL
  refine not_starts_drop (hover w hw) ?_ hrest.2
  obtain ⟨_, ⟨_, ⟨t, -, rfl⟩, u, -, rfl⟩, _, ⟨v, -, rfl⟩, rfl⟩ := hw
  simp

section Tags

variable {value : Parser Bool} (hv : Parser.Accepts Plain value L Always EndsValue)
  (hs : Grammar.Heads StartsValue L)

include hv

theorem accepts_namedArguments (otherwise : String → Stop) :
    Step.Accepts Plain
      (do
        bump
        let _ ← elements (namedArgument value) .rparen otherwise)
      (fun _ => True) (Grammar.namedArguments L) (AtToken .lparen) F := by
  have helements : Step.Accepts Plain
      (elements (namedArgument value) .rparen otherwise >>= fun _ => pure () : Step Unit)
      (fun _ => True)
      (Grammar.separated (Grammar.namedArgument L) * Grammar.token .rparen * 1) Always F :=
    Step.accepts_then (accepts_elements (accepts_namedArgument hv) (by decide)
      (endsValue_delimiter (by decide) (by decide)) otherwise) fun _ _ => Step.accepts_done trivial
  rw [mul_one] at helements
  rw [Grammar.namedArguments, mul_assoc]
  exact Step.accepts_bump_then helements

include hs

/-- The arguments of a tag are named when the second lexeme behind the parenthesis says so. -/
theorem accepts_tagArguments (hL : Grammar.Over (NotKind .equals) L) (otherwise : String → Stop) :
    Step.Accepts Plain
      (Step.choose fun s =>
        if starts .lparen s then
          if isNamed s then do
            bump
            let _ ← elements (namedArgument value) .rparen otherwise
          else do
            let _ ← arguments value
        else pure ())
      (fun _ => True) (1 + Grammar.arguments L + Grammar.namedArguments L) Always
      EndsArguments := by
  have hpositional : Step.Accepts Plain
      (liftM (arguments value) >>= fun _ => pure () : Step Unit) (fun _ => True)
      (Grammar.arguments L * 1) (AtToken .lparen) EndsArguments :=
    Step.accepts_then (Step.accepts_liftM (accepts_arguments hv hs)) fun _ _ =>
      Step.accepts_done trivial
  rw [mul_one] at hpositional
  have hheads : Grammar.Heads (fun t => t.kind = .lparen)
      (Grammar.namedArguments L + Grammar.arguments L) :=
    .add (((Grammar.heads_one _).mul _).mul _) (heads_bracketed _ _ _)
  rw [add_assoc, add_comm, add_comm (Grammar.arguments L)]
  refine Step.accepts_ite (starts .lparen) (Step.accepts_if isNamed ?_ ?_ ?_ ?_)
    (Step.accepts_done trivial) ?_ ?_
  · exact (accepts_namedArguments hv otherwise).mono (fun s h => begins_of_starts h.1.2) fun _ => id
  · exact hpositional.mono (fun s h => begins_of_starts h.1.2) fun _ => id
  · exact fun w hw rest _ => isNamed_of_namedArguments w hw rest
  · exact not_isNamed_of_arguments hL
  · exact fun w hw rest _ => hheads.starts w hw rest
  · rintro _ rfl rest hrest
    exact hrest.1

theorem terminated_tag (hL : Grammar.Over (NotKind .equals) L)
    (hL' : Grammar.Over (NotKind .semicolon) L) :
    Terminated .tag (tag value)
      (Grammar.token .lbracket * (Grammar.token .identifier *
        ((1 + Grammar.arguments L + Grammar.namedArguments L) * 1)))
      .rbracket (AtToken .lbracket) where
  isTerminated := by decide
  long := Grammar.long_two ((Grammar.heads_one _).mul _)
  no_semicolon := by
    have htoken {kind : TokenKind} (h : kind ≠ .semicolon) :
        Grammar.Over (NotKind .semicolon) (Grammar.token kind) := over_token h
    have hnamed : Grammar.Over (NotKind .semicolon) (Grammar.namedArgument L) :=
      .mul (.mul (htoken (by decide)) (htoken (by decide))) hL'
    refine .mul (htoken (by decide)) (.mul (htoken (by decide)) (.mul (.add (.add
      Grammar.over_unit (over_bracketed (by decide) (by decide) (by decide) hL')) ?_)
      Grammar.over_unit))
    exact .mul (.mul (htoken (by decide)) (.mul hnamed (.kstar (.mul (htoken (by decide)) hnamed))))
      (htoken (by decide))
  steps := by
    refine ⟨_, rfl, Step.closes_then (Step.accepts_bump _) fun _ _ =>
      Step.closes_then (Step.accepts_expect _ (by decide) _ _) fun _ _ =>
        Step.closes_bind (accepts_tagArguments hv hs hL _) (fun _ _ =>
          Step.closes_closing _ _ (by decide) (by decide) (by decide)) ?_⟩
    rintro _ rfl rest hrest
    exact ⟨hrest.not_starts (by decide) (by decide) (by decide) (by decide),
      hrest.not_starts (by decide) (by decide) (by decide) (by decide)⟩

end Tags

/-! ## Statements -/

theorem accepts_keyword (p : Lexeme → Prop) :
    Step.Accepts Plain keyword (fun _ => True) (Grammar.one p) (Begins p Always) F := by
  have hd : Step.Accepts Plain (pure () : Step Unit) (fun _ => True) 1 Always F :=
    Step.accepts_done trivial
  have h := Step.accepts_take_then (p := p) (f := fun _ => pure ())
    (show Plain .keyword by decide) fun _ _ => hd
  rwa [← Grammar.one_mul_eq_headed, mul_one] at h

theorem closes_terminator (before : String) :
    Step.Closes Plain (Step.terminator before) 1 .semicolon P :=
  Step.closes_closing _ _ (by decide) (by decide) (by decide)

theorem closes_keyword (p : Lexeme → Prop) {f : Unit → Step Unit} {closer : TokenKind}
    (hf : Step.Closes Plain (f ()) L closer Always) :
    Step.Closes Plain (keyword >>= f) (Grammar.one p * L) closer (Begins p Always) :=
  Step.closes_then (accepts_keyword p) fun _ _ => hf

theorem accepts_follow (kind : TokenKind) {node : NodeKind} (hk : Plain node)
    (wanted before : String) :
    Step.Accepts Plain (follow kind node wanted before) (fun _ => True) (Grammar.token kind) P F :=
  Step.accepts_expect _ hk _ _

theorem accepts_followPunct (kind : TokenKind) (wanted before : String) :
    Step.Accepts Plain (followPunct kind wanted before) (fun _ => True) (Grammar.token kind) P F :=
  Step.accepts_punct _ _ _

theorem terminated_packageStatement :
    Terminated .package packageStatement
      (Grammar.word "package" * (Grammar.token .identifier * 1)) .semicolon
      (AtWord "package") where
  isTerminated := by decide
  long := Grammar.long_two ((Grammar.heads_one _).mul _)
  no_semicolon := .mul (over_word (by decide) _) (.mul (over_token (by decide)) Grammar.over_unit)
  steps :=
    ⟨_, rfl, closes_keyword _ (Step.closes_then (accepts_follow _ (by decide) _ _) fun _ _ =>
      closes_terminator _)⟩

theorem terminated_importStatement :
    Terminated .importing importStatement
      (Grammar.word "import" * (Grammar.token .string * 1)) .semicolon
      (AtWord "import") where
  isTerminated := by decide
  long := Grammar.long_two ((Grammar.heads_one _).mul _)
  no_semicolon := .mul (over_word (by decide) _) (.mul (over_token (by decide)) Grammar.over_unit)
  steps :=
    ⟨_, rfl, closes_keyword _ (Step.closes_then (accepts_follow _ (by decide) _ _) fun _ _ =>
      closes_terminator _)⟩

theorem terminated_componentId :
    Terminated .componentId componentId
      (Grammar.word "id" * (Grammar.token .equals * (Grammar.token .integer * 1))) .semicolon
      (AtWord "id") where
  isTerminated := by decide
  long := Grammar.long_two ((Grammar.heads_one _).mul _)
  no_semicolon :=
    .mul (over_word (by decide) _) (.mul (over_token (by decide)) (.mul
      (over_token (by decide)) Grammar.over_unit))
  steps :=
    ⟨_, rfl, closes_keyword _ (Step.closes_then (accepts_followPunct _ _ _) fun _ _ =>
      Step.closes_then (accepts_follow _ (by decide) _ _) fun _ _ => closes_terminator _)⟩

theorem terminated_enumValue :
    Terminated .enumValue enumValue
      (Grammar.token .identifier * (Grammar.token .equals * (Grammar.token .integer * 1)))
      .semicolon (AtToken .identifier) where
  isTerminated := by decide
  long := Grammar.long_two ((Grammar.heads_one _).mul _)
  no_semicolon :=
    .mul (over_token (by decide)) (.mul (over_token (by decide)) (.mul
      (over_token (by decide)) Grammar.over_unit))
  steps :=
    ⟨_, rfl, Step.closes_then (Step.accepts_take (by decide) _) fun _ _ =>
      Step.closes_then (accepts_followPunct _ _ _) fun _ _ =>
        Step.closes_then (accepts_follow _ (by decide) _ _) fun _ _ => closes_terminator _⟩

theorem terminated_commandMember :
    Terminated .command commandMember
      (Grammar.word "command" * (Grammar.token .identifier * (Grammar.token .identifier *
        (Grammar.token .lparen * (Grammar.token .identifier * (Grammar.token .rparen * 1))))))
      .semicolon (AtWord "command") where
  isTerminated := by decide
  long := Grammar.long_two ((Grammar.heads_one _).mul _)
  no_semicolon :=
    .mul (over_word (by decide) _) (.mul (over_token (by decide)) (.mul
      (over_token (by decide)) (.mul (over_token (by decide)) (.mul (over_token (by decide))
      (.mul (over_token (by decide)) Grammar.over_unit)))))
  steps :=
    ⟨_, rfl, closes_keyword _ (Step.closes_then (accepts_follow _ (by decide) _ _) fun _ _ =>
      Step.closes_then (accepts_follow _ (by decide) _ _) fun _ _ =>
        Step.closes_then (accepts_followPunct _ _ _) fun _ _ =>
          Step.closes_then (accepts_follow _ (by decide) _ _) fun _ _ =>
            Step.closes_then (accepts_followPunct _ _ _) fun _ _ => closes_terminator _)⟩

theorem settingValue_eq :
    Grammar.settingValue = Grammar.one (fun t => t.kind = .identifier ∨ t.kind = .boolean ∨
      t.kind = .integer ∨ t.kind = .string) := by
  ext w
  constructor
  · rintro (((⟨t, ht, rfl⟩ | ⟨t, ht, rfl⟩) | ⟨t, ht, rfl⟩) | ⟨t, ht, rfl⟩)
    · exact ⟨t, .inl ht, rfl⟩
    · exact ⟨t, .inr (.inl ht), rfl⟩
    · exact ⟨t, .inr (.inr (.inl ht)), rfl⟩
    · exact ⟨t, .inr (.inr (.inr ht)), rfl⟩
  · rintro ⟨t, ht | ht | ht | ht, rfl⟩
    · exact .inl (.inl (.inl ⟨t, ht, rfl⟩))
    · exact .inl (.inl (.inr ⟨t, ht, rfl⟩))
    · exact .inl (.inr ⟨t, ht, rfl⟩)
    · exact .inr ⟨t, ht, rfl⟩

theorem startsSetting_cons (t : Lexeme) (s : List Lexeme) :
    startsSetting (t :: s) = true ↔
      t.kind = .identifier ∨ t.kind = .boolean ∨ t.kind = .integer ∨ t.kind = .string := by
  simp [startsSetting, starts, or_assoc]

theorem accepts_settingValue (recovery : Recovery) (fault : Fault) :
    Step.Accepts Plain
      (Step.choose fun s =>
        if startsSetting s then liftM (take .settingValue) else Step.stop recovery fault)
      (fun _ => True) Grammar.settingValue Always F := by
  rw [settingValue_eq, ← add_zero (Grammar.one _)]
  refine Step.accepts_if startsSetting
    ((Step.accepts_take (by decide) _).mono (fun s hs => ?_) fun _ => id)
    (Step.accepts_stop _ _) ?_ (fun _ hw => hw.elim)
  · cases s with
    | nil => simp [startsSetting, starts] at hs
    | cons t s => exact ⟨(startsSetting_cons t s).mp hs.2, trivial⟩
  · rintro _ ⟨t, ht, rfl⟩ rest -
    exact (startsSetting_cons t rest).mpr ht

theorem over_settingValue : Grammar.Over (NotKind .semicolon) Grammar.settingValue :=
  .add (.add (.add (over_token (by decide)) (over_token (by decide))) (over_token (by decide)))
    (over_token (by decide))

theorem terminated_settingStatement :
    Terminated .setting settingStatement
      (Grammar.word "option" * (Grammar.token .identifier * (Grammar.token .equals *
        (Grammar.settingValue * 1))))
      .semicolon (AtWord "option") where
  isTerminated := by decide
  long := Grammar.long_two ((Grammar.heads_one _).mul _)
  no_semicolon :=
    .mul (over_word (by decide) _) (.mul (over_token (by decide)) (.mul
      (over_token (by decide)) (.mul over_settingValue Grammar.over_unit)))
  steps :=
    ⟨_, rfl, closes_keyword _ (Step.closes_then (accepts_follow _ (by decide) _ _) fun _ _ =>
      Step.closes_then (accepts_followPunct _ _ _) fun _ _ =>
        Step.closes_then (accepts_settingValue _ _) fun _ _ => closes_terminator _)⟩

/-! ## Types of fields -/

def parametersOf (base : String) : Language Lexeme :=
  match parameterCount? base with
  | none => 0
  | some count => Grammar.parameters count

theorem parameterCount?_eq_some {base : String} {count : Nat}
    (h : parameterCount? base = some count) :
    base = "map" ∧ count = 2 ∨ base = "list" ∧ count = 1 ∨ base = "option" ∧ count = 1 := by
  unfold parameterCount? at h
  split at h
  · exact .inl ⟨rfl, (Option.some.inj h).symm⟩
  · exact .inr (.inl ⟨rfl, (Option.some.inj h).symm⟩)
  · exact .inr (.inr ⟨rfl, (Option.some.inj h).symm⟩)
  · simp at h

theorem mem_parametersOf {base : String} {w : List Lexeme} (h : w ∈ parametersOf base) :
    ∃ count, parameterCount? base = some count ∧ w ∈ Grammar.parameters count := by
  unfold parametersOf at h
  split at h
  · exact h.elim
  · exact ⟨_, ‹_›, h⟩

theorem genericType_eq :
    Grammar.genericType =
      Grammar.headed (fun t => t.kind = .identifier) (fun t => parametersOf t.text) := by
  ext w
  constructor
  · rintro ((⟨_, ⟨t, ht, rfl⟩, v, hv, rfl⟩ | ⟨_, ⟨t, ht, rfl⟩, v, hv, rfl⟩) |
      ⟨_, ⟨t, ht, rfl⟩, v, hv, rfl⟩)
    all_goals
      obtain ⟨hk, hbase⟩ := isWord_eq_true.mp ht
      refine ⟨t, hk, v, ?_, rfl⟩
      show v ∈ parametersOf t.text
      rw [hbase]
      exact hv
  · rintro ⟨t, hk, v, hv, rfl⟩
    obtain ⟨count, hcount, hv⟩ := mem_parametersOf hv
    have hword {base : String} (h : t.text = base) : [t] ∈ Grammar.word base :=
      ⟨t, isWord_eq_true.mpr ⟨hk, h⟩, rfl⟩
    rcases parameterCount?_eq_some hcount with ⟨hbase, rfl⟩ | ⟨hbase, rfl⟩ | ⟨hbase, rfl⟩
    · exact .inl (.inl (Language.append_mem_mul (hword hbase) hv))
    · exact .inl (.inr (Language.append_mem_mul (hword hbase) hv))
    · exact .inr (Language.append_mem_mul (hword hbase) hv)

theorem heads_parametersOf (base : String) :
    Grammar.Heads (fun t => t.kind = .langle) (parametersOf base) := by
  intro w hw
  obtain ⟨count, -, hw⟩ := mem_parametersOf hw
  cases count with
  | zero => exact hw.elim
  | succ count => exact (((Grammar.heads_one _).mul _).mul _).mul _ w hw

theorem accepts_typeParameters (base : String) :
    Step.Accepts Plain (typeParameters base) (fun _ => True) (parametersOf base)
      (AtToken .langle) F := by
  unfold typeParameters parametersOf
  cases hc : parameterCount? base with
  | none =>
    dsimp only
    rw [← mul_zero (Grammar.token .langle)]
    exact Step.accepts_bump_then (Step.accepts_stop _ _)
  | some expected =>
    have hpos : expected ≠ 0 := by
      rcases parameterCount?_eq_some hc with ⟨-, rfl⟩ | ⟨-, rfl⟩ | ⟨-, rfl⟩ <;> decide
    obtain ⟨count, rfl⟩ := Nat.exists_eq_succ_of_ne_zero hpos
    dsimp only
    rw [Grammar.parameters, mul_assoc, mul_assoc]
    refine Step.accepts_bump_then (Step.accepts_then (accepts_follow _ (by decide) _ _)
      fun first _ => ?_)
    refine Step.accepts_counted (F := Always) (accepts_follow _ (by decide) _ _) (by decide)
      (fun _ _ _ => trivial) _ count (fun others hn => ?_) fun others hn => ?_
    · exact ⟨_, if_pos (by omega)⟩
    · exact ⟨_, _, if_neg (by omega)⟩

def modifiedType (transient : Bool) : Step String :=
  Step.group .fieldType (fun _ => true) do
    let base ← take .typeName
    Step.choose fun s =>
      if starts .langle s then typeParameters base
      else if transient then Step.stop .statement (.transientScalar base)
      else pure base

theorem fieldType_eq :
    fieldType = Step.choose fun s =>
      if startsWord "transient" s then do
        keyword
        Step.require .identifier .statement fun _ => .missingAfter "typename" "transient"
        modifiedType true
      else modifiedType false := by
  unfold fieldType
  congr 1
  funext s
  cases startsWord "transient" s <;> rfl

theorem accepts_modifiedType (transient : Bool) {p : Lexeme → Prop} :
    Step.Accepts Plain (modifiedType transient) (fun _ => True)
      (Grammar.headed p (fun t => parametersOf t.text + if transient then 0 else 1))
      (Begins p Always) (fun s => starts .langle s = false) := by
  refine Step.accepts_group (by decide) (Step.accepts_take_then (by decide) fun t _ => ?_)
    (fun _ _ => rfl)
  refine Step.accepts_if (starts .langle)
    ((accepts_typeParameters t.text).mono (fun s hs => begins_of_starts hs.2) fun _ => id) ?_
    (fun w hw rest _ => (heads_parametersOf _).starts w hw rest) ?_
  · cases transient with
    | true => exact Step.accepts_stop _ _
    | false => exact Step.accepts_done trivial
  · intro w hw rest hrest
    cases transient with
    | true => exact hw.elim
    | false =>
      obtain rfl := hw
      exact hrest

theorem headed_transient :
    Grammar.headed (fun t => t.kind = .identifier)
      (fun t => parametersOf t.text + if true then 0 else 1) = Grammar.genericType := by
  rw [genericType_eq]
  simp only [if_true, add_zero]

/-- The modifier is no generic type, so a type without it is any other name or generic. -/
theorem headed_plain :
    Grammar.headed (fun t => t.kind = .identifier ∧ t.text ≠ "transient")
      (fun t => parametersOf t.text + if false then 0 else 1) =
      Grammar.nameBut "transient" + Grammar.genericType := by
  rw [genericType_eq]
  ext w
  constructor
  · rintro ⟨t, ht, v, hv | hv, rfl⟩
    · exact .inr ⟨t, ht.1, v, hv, rfl⟩
    · obtain rfl := hv
      exact .inl ⟨t, ht, rfl⟩
  · rintro (⟨t, ht, rfl⟩ | ⟨t, hk, v, hv, rfl⟩)
    · exact ⟨t, ht, [], .inr rfl, rfl⟩
    · refine ⟨t, ⟨hk, fun htext => ?_⟩, v, .inl hv, rfl⟩
      obtain ⟨count, hcount, -⟩ := mem_parametersOf hv
      rw [htext] at hcount
      simp [parameterCount?] at hcount

theorem accepts_fieldType :
    Step.Accepts Plain fieldType (fun _ => True) Grammar.fieldType
      (AtToken .identifier) (fun s => starts .langle s = false) := by
  have htransient (fault : String → Fault) : Step.Accepts Plain
      (Step.require .identifier .statement fault >>= fun _ => modifiedType true)
      (fun _ => True) Grammar.genericType Always (fun s => starts .langle s = false) := by
    rw [← headed_transient]
    refine Step.accepts_require_then _ _ ?_ (accepts_modifiedType true)
    rintro _ ⟨t, ht, v, -, rfl⟩
    exact ⟨t, v, rfl, ht⟩
  have hplain := accepts_modifiedType false
    (p := fun t => t.kind = .identifier ∧ t.text ≠ "transient")
  rw [headed_plain] at hplain
  rw [fieldType_eq, Grammar.fieldType, add_comm]
  refine Step.accepts_if (startsWord "transient")
    ((Step.accepts_then (accepts_keyword _) fun _ _ => htransient _).mono
      (fun s hs => begins_of_startsWord hs.2) fun _ => id)
    (hplain.mono (fun s hs => ?_) fun _ => id) ?_ ?_
  · obtain ⟨hb, hword⟩ := hs
    cases s with
    | nil => exact hb.elim
    | cons t s =>
      refine ⟨⟨hb.1, fun htext => ?_⟩, trivial⟩
      simp [startsWord, Lexeme.isWord, htext, show t.kind = .identifier from hb.1] at hword
  · rintro _ ⟨_, ⟨t, ht, rfl⟩, v, -, rfl⟩ rest -
    exact ht
  · intro w hw rest _
    rw [← headed_plain] at hw
    obtain ⟨t, ht, v, -, rfl⟩ := hw
    simp [startsWord, Lexeme.isWord, ht.2]

theorem heads_fieldType :
    Grammar.Heads (fun t => t.kind = .identifier) Grammar.fieldType := by
  refine .add (.add ?_ ?_) ((Grammar.heads_one _).mul _ |>.imp fun t => kind_of_isWord)
  · exact (Grammar.heads_one _).imp fun t ht => ht.1
  · rw [genericType_eq]
    rintro _ ⟨t, ht, v, -, rfl⟩
    exact ⟨t, v, rfl, ht⟩

theorem over_fieldType : Grammar.Over (NotKind .semicolon) Grammar.fieldType := by
  have htoken {kind : TokenKind} (h : kind ≠ .semicolon) :
      Grammar.Over (NotKind .semicolon) (Grammar.token kind) := over_token h
  have hparameters (count : Nat) :
      Grammar.Over (NotKind .semicolon) (Grammar.parameters (count + 1)) :=
    .mul (.mul (.mul (htoken (by decide)) (htoken (by decide)))
      (.pow (.mul (htoken (by decide)) (htoken (by decide))) _)) (htoken (by decide))
  have hword (text : String) : Grammar.Over (NotKind .semicolon) (Grammar.word text) :=
    over_word (by decide) text
  have hgeneric : Grammar.Over (NotKind .semicolon) Grammar.genericType :=
    .add (.add (.mul (hword _) (hparameters 1)) (.mul (hword _) (hparameters 0)))
      (.mul (hword _) (hparameters 0))
  exact .add (.add (over_nameBut (by decide) _) hgeneric) (.mul (hword _) hgeneric)

theorem not_langle_of_identifier (L : Language Lexeme) (w : List Lexeme)
    (hw : w ∈ Grammar.token .identifier * L) (rest : List Lexeme) :
    starts .langle (w ++ rest) = false :=
  (((Grammar.heads_one _).mul L).imp fun t (ht : t.kind = .identifier) => by simp [ht]).not_starts
    w hw rest

theorem not_langle_of_ends (w : List Lexeme) (hw : w ∈ (1 : Language Lexeme)) (rest : List Lexeme)
    (hrest : Ends .semicolon rest) : starts .langle (w ++ rest) = false := by
  obtain rfl := hw
  exact hrest.not_starts (by decide) (by decide) (by decide) (by decide)

theorem terminated_field :
    Terminated .field field
      (Grammar.fieldType * (Grammar.token .identifier *
        (Grammar.token .equals * (Grammar.token .integer * 1) + 1)))
      .semicolon (AtToken .identifier) where
  isTerminated := by decide
  long := heads_fieldType.long.mul ((Grammar.heads_one _).mul _).long
  no_semicolon :=
    .mul over_fieldType (.mul (over_token (by decide)) (.add (.mul (over_token (by decide))
      (.mul (over_token (by decide)) Grammar.over_unit)) Grammar.over_unit))
  steps := by
    refine ⟨_, rfl, Step.closes_bind accepts_fieldType (fun type _ =>
      Step.closes_then (accepts_follow _ (by decide) _ _) fun name _ =>
        Step.closes_if (starts .equals) ?_ ?_ ?_ ?_)
      fun w hw rest _ => not_langle_of_identifier _ w hw rest⟩
    · exact (Step.closes_then (Step.accepts_bump _) fun _ _ =>
        Step.closes_then (accepts_follow _ (by decide) _ _) fun _ _ => closes_terminator _).mono
        fun s hs => begins_of_starts hs.2
    · exact Step.closes_closing _ _ (by decide) (by decide) (by decide)
    · exact fun w hw rest _ => ((Grammar.heads_one _).mul _).starts w hw rest
    · rintro _ rfl rest hrest
      exact hrest.not_starts (by decide) (by decide) (by decide) (by decide)

theorem accepts_memberType (word : String) :
    Step.Accepts Plain (memberType word) (fun _ => True) (Grammar.word word * Grammar.fieldType)
      (AtWord word) (fun s => starts .langle s = false) :=
  Step.accepts_then (accepts_keyword _) fun _ _ =>
    Step.accepts_require_then _ _ heads_fieldType accepts_fieldType

theorem terminated_dataMember :
    Terminated .data dataMember (Grammar.word "data" * Grammar.fieldType * 1) .semicolon
      (AtWord "data") where
  isTerminated := by decide
  long := (Grammar.long_two heads_fieldType).mul_right _
  no_semicolon := .mul (.mul (over_word (by decide) _) over_fieldType) Grammar.over_unit
  steps :=
    ⟨_, rfl, Step.closes_bind (accepts_memberType "data") (fun _ _ => closes_terminator _)
      not_langle_of_ends⟩

theorem terminated_eventMember :
    Terminated .event eventMember
      (Grammar.word "event" * Grammar.fieldType * (Grammar.token .identifier * 1)) .semicolon
      (AtWord "event") where
  isTerminated := by decide
  long := (Grammar.long_two heads_fieldType).mul_right _
  no_semicolon :=
    .mul (.mul (over_word (by decide) _) over_fieldType) (.mul
      (over_token (by decide)) Grammar.over_unit)
  steps :=
    ⟨_, rfl, Step.closes_bind (accepts_memberType "event") (fun _ _ =>
      Step.closes_then (accepts_follow _ (by decide) _ _) fun _ _ => closes_terminator _)
      fun w hw rest _ => not_langle_of_identifier _ w hw rest⟩

end SchemaLang.Parse
