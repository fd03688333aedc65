import SchemaLang.Proofs.Lossless
import SchemaLang.Proofs.Productions

/-!
# The parser accepts exactly its grammar

Members are told apart by their first lexemes, so definitions read their
languages too, down to the room that is left. A row without a fault is a word
of the grammar, and each word of the grammar gives a row without a fault. A
file has no syntax fault if and only if its significant lexemes are derivable,
and then nothing in its tree is incomplete.
-/

set_option autoImplicit false

namespace SchemaLang

open Computability

namespace Parse

open SchemaLang.Parser

variable {L M : Language Lexeme} {P F : List Lexeme → Prop}

theorem reads_packageStatement :
    Reads packageStatement Grammar.packageStatement (AtWord "package") := by
  simpa only [Grammar.packageStatement, mul_assoc, one_mul] using terminated_packageStatement.reads

theorem reads_importStatement :
    Reads importStatement Grammar.importStatement (AtWord "import") := by
  simpa only [Grammar.importStatement, mul_assoc, one_mul] using terminated_importStatement.reads

theorem reads_settingStatement :
    Reads settingStatement Grammar.settingStatement (AtWord "option") := by
  simpa only [Grammar.settingStatement, mul_assoc, one_mul] using terminated_settingStatement.reads

theorem reads_tag (room : Nat) :
    Reads (tag (value room)) (Grammar.tag (Grammar.value room)) (AtToken .lbracket) := by
  simpa only [Grammar.tag, mul_assoc, one_mul] using
    (terminated_tag (accepts_value room) (heads_value room) (over_value (.inr rfl) room)
      (over_value (.inl rfl) room)).reads

theorem reads_enumValue : Reads enumValue Grammar.enumValue (AtToken .identifier) := by
  simpa only [Grammar.enumValue, mul_assoc, one_mul] using terminated_enumValue.reads

theorem reads_componentId : Reads componentId Grammar.componentId (AtWord "id") := by
  simpa only [Grammar.componentId, mul_assoc, one_mul] using terminated_componentId.reads

theorem reads_dataMember : Reads dataMember Grammar.dataMember (AtWord "data") := by
  simpa only [Grammar.dataMember, mul_assoc, one_mul] using terminated_dataMember.reads

theorem reads_eventMember : Reads eventMember Grammar.eventMember (AtWord "event") := by
  simpa only [Grammar.eventMember, mul_assoc, one_mul] using terminated_eventMember.reads

theorem reads_commandMember : Reads commandMember Grammar.commandMember (AtWord "command") := by
  simpa only [Grammar.commandMember, mul_assoc, one_mul] using terminated_commandMember.reads

theorem reads_field : Reads field Grammar.field (AtToken .identifier) := by
  simpa only [Grammar.field, mul_assoc, mul_one, add_comm] using terminated_field.reads

/-! ## First lexemes -/

theorem heads_packageStatement :
    Grammar.Heads (fun t => t.isWord "package" = true) Grammar.packageStatement :=
  ((Grammar.heads_one _).mul _).mul _

theorem heads_importStatement :
    Grammar.Heads (fun t => t.isWord "import" = true) Grammar.importStatement :=
  ((Grammar.heads_one _).mul _).mul _

theorem heads_settingStatement :
    Grammar.Heads (fun t => t.isWord "option" = true) Grammar.settingStatement :=
  ((((Grammar.heads_one _).mul _).mul _).mul _).mul _

theorem heads_tag : Grammar.Heads (fun t => t.kind = .lbracket) (Grammar.tag L) :=
  (((Grammar.heads_one _).mul _).mul _).mul _

theorem heads_enumValue : Grammar.Heads (fun t => t.kind = .identifier) Grammar.enumValue :=
  (((Grammar.heads_one _).mul _).mul _).mul _

theorem heads_componentId : Grammar.Heads (fun t => t.isWord "id" = true) Grammar.componentId :=
  (((Grammar.heads_one _).mul _).mul _).mul _

theorem heads_dataMember : Grammar.Heads (fun t => t.isWord "data" = true) Grammar.dataMember :=
  ((Grammar.heads_one _).mul _).mul _

theorem heads_eventMember : Grammar.Heads (fun t => t.isWord "event" = true) Grammar.eventMember :=
  (((Grammar.heads_one _).mul _).mul _).mul _

theorem heads_commandMember :
    Grammar.Heads (fun t => t.isWord "command" = true) Grammar.commandMember :=
  ((((((Grammar.heads_one _).mul _).mul _).mul _).mul _).mul _).mul _

theorem heads_block (word : String) (member : Language Lexeme) :
    Grammar.Heads (fun t => t.isWord word = true) (Grammar.block word member) :=
  ((((Grammar.heads_one _).mul _).mul _).mul _).mul _

theorem heads_enumDefinition (room : Nat) :
    Grammar.Heads (fun t => t.isWord "enum" = true) (Grammar.enumDefinition room) := by
  cases room with
  | zero => exact fun _ hw => hw.elim
  | succ room => exact heads_block _ _

theorem heads_typeDefinition (room : Nat) :
    Grammar.Heads (fun t => t.isWord "type" = true) (Grammar.typeDefinition room) := by
  cases room with
  | zero => exact fun _ hw => hw.elim
  | succ room => exact heads_block _ _

theorem heads_componentDefinition (room : Nat) :
    Grammar.Heads (fun t => t.isWord "component" = true) (Grammar.componentDefinition room) := by
  cases room with
  | zero => exact fun _ hw => hw.elim
  | succ room => exact heads_block _ _

theorem heads_fieldBut (reserved : List String) :
    Grammar.Heads (fun t => t.kind = .identifier ∧ ∀ text ∈ reserved, t.isWord text = false)
      (Grammar.fieldBut reserved) := by
  rintro w ⟨hw, hreserved, -⟩
  obtain ⟨t, v, rfl, ht⟩ := (((heads_fieldType.mul _).mul _).mul _) w hw
  exact ⟨t, v, rfl, ht, hreserved⟩

def atSetting (s : List Lexeme) : Bool := startsWord "option" s && !starts .langle s.tail

theorem glances_atSetting : Glances atSetting := by
  rintro (_ | ⟨t, _ | ⟨u, a⟩⟩) s s' ha
  · simp at ha
  · simp at ha
  · rfl

theorem decides_atSetting_settingStatement :
    Grammar.Decides atSetting true Grammar.settingStatement := by
  rintro _ ⟨_, ⟨_, ⟨_, ⟨_, ⟨t, ht, rfl⟩, _, ⟨u, hu, rfl⟩, rfl⟩, a, -, rfl⟩, b, -, rfl⟩, c, -, rfl⟩
    rest
  have hu : u.kind = .identifier := hu
  simp [atSetting, startsWord, starts, ht, hu]

theorem decides_atSetting (h : Grammar.Decides (startsWord "option") false L) :
    Grammar.Decides atSetting false L := by
  intro w hw rest
  rw [atSetting, h w hw rest, Bool.false_and]

theorem two_of_field (w : List Lexeme) (hw : w ∈ Grammar.field) : ∃ t u v, w = t :: u :: v := by
  obtain ⟨_, ⟨_, ⟨a, ha, _, ⟨u, -, rfl⟩, rfl⟩, b, -, rfl⟩, c, -, rfl⟩ := hw
  obtain ⟨t, a, rfl, -⟩ := heads_fieldType a ha
  cases a with
  | nil => exact ⟨t, u, b ++ c, by simp⟩
  | cons x a => exact ⟨t, x, a ++ [u] ++ b ++ c, by simp⟩

theorem decides_atSetting_fieldBut (reserved : List String) :
    Grammar.Decides atSetting false (Grammar.fieldBut reserved) := by
  rintro w ⟨hw, -, hoption⟩ rest
  obtain ⟨t, u, v, rfl⟩ := two_of_field w hw
  cases ht : startsWord "option" (t :: u :: v) with
  | true =>
    have hu : starts .langle (u :: (v ++ rest)) = true := hoption ht
    simp [atSetting, hu]
  | false =>
    have ht : startsWord "option" (t :: u :: (v ++ rest)) = false := ht
    simp [atSetting, ht]

/-- Where the words that are reserved have been tried, a field is none of them. -/
theorem reads_fieldBut {reserved : List String}
    (hP : ∀ s, P s → starts .identifier s = true ∧ (∀ text ∈ reserved, startsWord text s = false) ∧
      atSetting s = false) :
    Reads field (Grammar.fieldBut reserved) P where
  sound s hs hfl := by
    obtain ⟨hstart, hreserved, hsetting⟩ := hP s hs
    have hw := reads_field.sound s (begins_of_starts hstart) hfl
    obtain ⟨t, u, v, heq⟩ := two_of_field _ hw
    obtain ⟨rest, rfl⟩ : ∃ rest, s = t :: u :: (v ++ rest) :=
      ⟨_, by rw [← field.lossless s, heq]; rfl⟩
    rw [heq] at hw ⊢
    refine ⟨hw, hreserved, fun hoption => ?_⟩
    have hoption : startsWord "option" (t :: u :: (v ++ rest)) = true := hoption
    rw [atSetting, hoption, Bool.true_and, Bool.not_eq_false'] at hsetting
    exact hsetting
  complete w hw := reads_field.complete w hw.1

/-! ## Blocks -/

def blockFront (kw name lb : Lexeme) : Row :=
  .node (.construct .keyword true) (.leaf kw .nil)
    (.node (.construct .definitionName true) (.leaf name .nil) (.leaf lb .nil))

def blockRow (kind : NodeKind) (kw name lb rb : Lexeme) (row : Row) : Row :=
  .node (.construct kind true) (blockFront kw name lb ++ (row ++ .leaf rb .nil)) .nil

section Block

variable {kind : NodeKind} {kw name lb rb : Lexeme} {row row' : Row} {a b : List Lexeme}
  {t : Lexeme} {member : Parser Bool} {G : List Lexeme → Prop}

theorem leaves_blockRow :
    (blockRow kind kw name lb rb row).leaves = kw :: name :: lb :: (row.leaves ++ [rb]) := by
  simp [blockRow, blockFront, Forest.leaves]

theorem whole_blockFront {kinds : NodeKind → Prop} (h₁ : kinds .keyword)
    (h₂ : kinds .definitionName) : Whole kinds (blockFront kw name lb) :=
  ⟨⟨_, h₁, rfl⟩, trivial, ⟨_, h₂, rfl⟩, trivial, trivial⟩

theorem whole_blockRow (h : Whole AnyKind row) : Whole AnyKind (blockRow kind kw name lb rb row) :=
  ⟨⟨kind, trivial, rfl⟩, whole_append.mpr ⟨whole_blockFront trivial trivial,
    whole_append.mpr ⟨h, trivial⟩⟩, trivial⟩

theorem isCloser_of_blockRow (hk : kind ≠ .tag) (hkw : kw.kind ≠ .semicolon)
    (hname : name.kind ≠ .semicolon) (hlb : lb.kind ≠ .semicolon) (hrb : rb.kind ≠ .semicolon)
    (hl : kw :: name :: lb :: (row.leaves ++ [rb]) = a ++ t :: b)
    (hcloser : IsCloser (blockRow kind kw name lb rb row) a t) :
    ∃ a' b', row.leaves = a' ++ t :: b' ∧ a = kw :: name :: lb :: a' ∧ b = b' ++ [rb] ∧
      IsCloser row a' t := by
  have hplain : Whole Plain (blockFront kw name lb) := whole_blockFront (by decide) (by decide)
  have hfront : ∀ x ∈ (blockFront kw name lb).leaves, x.kind ≠ .semicolon := by
    simp [blockFront, Forest.leaves, hkw, hname, hlb]
  have hsplit : (blockFront kw name lb ++ (row ++ .leaf rb .nil)).leaves = a ++ t :: b := by
    rw [← hl]
    simp [blockFront, Forest.leaves]
  have hheld : IsCloser (blockFront kw name lb ++ (row ++ .leaf rb .nil)) a t :=
    hcloser.of_node (by simpa using hk)
  rcases hheld.of_append hsplit with ⟨b', hf, -, hc⟩ | ⟨a', hl', rfl, hc⟩
  · exact absurd hc (not_isCloser hplain hfront hf)
  rcases hc.of_append hl' with ⟨b', hrow, rfl, hc⟩ | ⟨a'', hrb', -, hc⟩
  · exact ⟨a', b', hrow, rfl, rfl, hc⟩
  · apply absurd hc (not_isCloser trivial _ hrb')
    simpa [Forest.leaves] using hrb

theorem cut_blockRow {fault : Fault} (h : Cut fault row a t b row') :
    Cut fault (blockRow kind kw name lb rb row) (kw :: name :: lb :: a) t (b ++ [rb])
      (blockRow kind kw name lb rb row') := by
  have hcut := ((h.append_right (.leaf rb .nil)).append_left (blockFront kw name lb)).within
    (.construct kind true) .nil (by simp [Forest.leaves])
  rwa [Forest.leaves_nil, List.append_nil] at hcut

def blockRest (word name : String) (member : Parser Bool) : Step Unit := do
  members member
  Step.punct .rbrace .braces fun found => .notAMember found word name

/-- Behind a whole header, a block goes on with its members. -/
theorem exists_blockBody (kind : NodeKind) (word : String) (member : Parser Bool) (kw : Lexeme)
    (hname : name.kind = .identifier) (hlb : lb.kind = .lbrace) :
    ∃ body, block kind word member = statement kind body ∧ ∀ s,
      Parser.run body (kw :: name :: lb :: s) =
        ⟨(Parser.run (blockRest word name.text member) s).value,
          blockFront kw name lb ++ (Parser.run (blockRest word name.text member) s).built,
          (Parser.run (blockRest word name.text member) s).rest⟩ := by
  refine ⟨_, rfl, fun s => ?_⟩
  have hkw : Parser.run keyword (kw :: name :: lb :: s) =
      ⟨.ok (), .node (.construct .keyword true) (.leaf kw .nil) .nil, name :: lb :: s⟩ := rfl
  rw [Step.run_bind_of_ok _ (by rw [hkw]), hkw,
    Step.run_bind_of_ok _ (by rw [Step.run_expect hname]), Step.run_expect hname,
    Step.run_bind_of_ok _ (by rw [Step.run_punct hlb]), Step.run_punct hlb]
  rfl

/-- A block runs its members between the braces and goes on behind them. -/
theorem run_block (kind : NodeKind) (word : String) (kw : Lexeme) {s rest : List Lexeme}
    (hname : name.kind = .identifier) (hlb : lb.kind = .lbrace) (hrb : rb.kind = .rbrace)
    (hm : (members member).run s = ⟨(), row, rb :: rest⟩) :
    (block kind word member).run (kw :: name :: lb :: s) =
      ⟨(), blockRow kind kw name lb rb row, rest⟩ := by
  obtain ⟨body, hblock, hbody⟩ := exists_blockBody kind word member kw hname hlb
  have hmembers : Parser.run (liftM (members member) : Step Unit) s =
      ⟨.ok (), row, rb :: rest⟩ := by
    rw [Step.run_liftM, hm]
  have hrest : Parser.run (blockRest word name.text member) s =
      ⟨.ok (), row ++ .leaf rb .nil, rest⟩ := by
    rw [blockRest, Step.run_bind_of_ok _ (by rw [hmembers]), hmembers, Step.run_punct hrb]
  rw [hblock, run_statement_of_ok (by rw [hbody, hrest]), hbody, hrest]
  rfl

theorem sound_block (word : String) (hm : Serves member L G Always)
    (hG : ∀ t rest, t.kind = .rbrace → ¬ G (t :: rest)) (s : List Lexeme) (hs : AtWord word s)
    (hfl : Faultless ((block kind word member).run s).built) :
    ((block kind word member).run s).built.leaves ∈ Grammar.block word L := by
  have hclose (fault : String → Fault) : Step.Accepts AnyKind
      (liftM (members member) >>= fun _ => Step.punct .rbrace .braces fault : Step Unit)
      (fun _ => True) (L∗ * Grammar.token .rbrace) Always Always := by
    apply Step.accepts_bind (accepts_members hm) (fun _ _ => Step.accepts_punct _ _ _)
    rintro _ ⟨t, ht, rfl⟩ rest -
    exact hG t rest ht
  rw [Grammar.block, mul_assoc, mul_assoc, mul_assoc]
  exact sound_statement (fun hfl hv => ((Step.accepts_then (accepts_keyword _).any fun _ _ =>
    Step.accepts_then (Step.accepts_expect _ trivial _ _) fun _ _ =>
      Step.accepts_then (Step.accepts_punct _ _ _) fun _ _ => hclose _).sound s () hs hfl hv).2) hfl

theorem reads_block (hk : kind ≠ .tag) (word : String) (hm : Serves member L G Always)
    (hG : ∀ t rest, t.kind = .rbrace → ¬ G (t :: rest)) :
    Reads (block kind word member) (Grammar.block word L) (AtWord word) where
  sound := sound_block word hm hG
  complete := by
    rintro _ ⟨_, ⟨_, ⟨_, ⟨_, ⟨kw, hkw, rfl⟩, _, ⟨name, hname, rfl⟩, rfl⟩, _, ⟨lb, hlb, rfl⟩, rfl⟩,
      w, hw, rfl⟩, _, ⟨rb, hrb, rfl⟩, rfl⟩
    replace hname : name.kind = .identifier := hname
    replace hlb : lb.kind = .lbrace := hlb
    replace hrb : rb.kind = .rbrace := hrb
    obtain ⟨row, rfl, hwhole, hrun, hmends⟩ := complete_members hm w hw
    have hidle (rest : List Lexeme) : (members member).run (rb :: rest) = ⟨(), .nil, rb :: rest⟩ :=
      run_members_idle (hm.idle _ (hG rb rest hrb))
    refine ⟨blockRow kind kw name lb rb row, leaves_blockRow, whole_blockRow hwhole,
      fun rest => ?_, ?_⟩
    · have h := hrun (rb :: rest)
      rw [hidle rest, Forest.append_nil] at h
      simpa using run_block kind word kw hname hlb hrb h
    · intro a t b hl hcloser rest _
      obtain ⟨a', b', hrow, rfl, rfl, hc⟩ := isCloser_of_blockRow hk
        (by simp [kind_of_isWord hkw]) (by simp [hname]) (by simp [hlb]) (by simp [hrb])
        hl hcloser
      have hresumes : b' = [] → Resumes (rb :: rest) :=
        fun _ => .inr (by simp [startsMember, starts, hrb])
      obtain ⟨fault, row', hcut, hrun'⟩ := hmends a' t b' hrow hc (rb :: rest) hresumes
      rw [hidle rest, Forest.append_nil] at hrun'
      refine ⟨fault, blockRow kind kw name lb rb row', cut_blockRow hcut, ?_⟩
      simpa using run_block kind word kw hname hlb hrb hrun'

end Block

theorem serves_enumMember (room : Nat) :
    Serves (enumMember room) (Grammar.enumMember room)
      (fun s => starts .lbracket s = true ∨ starts .identifier s = true ∨ False) Always := by
  rw [Grammar.enumMember, ← add_zero Grammar.enumValue]
  refine serves_if (glances_starts .lbracket) (reads_tag room).at_token
    (serves_if (glances_starts .identifier) reads_enumValue.at_token serves_absent
      heads_enumValue.starts Grammar.decides_zero (heads_enumValue.imp fun _ => .inl))
    heads_tag.starts (Grammar.decides_add.mpr ⟨?_, Grammar.decides_zero⟩)
    (heads_tag.imp fun _ => .inr)
  exact (heads_enumValue.imp fun t ht => by simp [ht]).not_starts

theorem reads_enumDefinition (room : Nat) :
    Reads (enumDefinition room) (Grammar.enumDefinition room) (AtWord "enum") := by
  cases room with
  | zero => exact reads_discard_tooDeep
  | succ room =>
    apply reads_block (by decide) "enum" (serves_enumMember room)
    intro t rest ht
    simp [starts, ht]

theorem decides_fieldBut (reserved : List String) :
    Grammar.Decides (starts .identifier) true (Grammar.fieldBut reserved) :=
  ((heads_fieldBut reserved).imp fun _ ht => ht.1).starts

theorem decides_bracket_fieldBut (reserved : List String) :
    Grammar.Decides (starts .lbracket) false (Grammar.fieldBut reserved) :=
  ((heads_fieldBut reserved).imp fun t ht => by simp [ht.1]).not_starts

theorem decides_reserved_fieldBut {reserved : List String} {text : String} (h : text ∈ reserved) :
    Grammar.Decides (startsWord text) false (Grammar.fieldBut reserved) :=
  ((heads_fieldBut reserved).imp fun _ ht => ht.2 text h).not_startsWord

theorem serves_typeMember (room : Nat) {typeDefinition : Parser Unit}
    (ht : Reads typeDefinition L (AtWord "type"))
    (hL : Grammar.Heads (fun t => t.isWord "type" = true) L) :
    Serves (typeMember room typeDefinition) (Grammar.typeMember room L)
      (fun s => atSetting s = true ∨ starts .lbracket s = true ∨ startsWord "enum" s = true ∨
        startsWord "type" s = true ∨ starts .identifier s = true ∨ False) Always := by
  rw [Grammar.typeMember, ← add_zero (Grammar.fieldBut _), add_assoc, add_assoc, add_assoc]
  have henum := heads_enumDefinition room
  have hfield := heads_fieldBut ["enum", "type"]
  refine serves_if glances_atSetting (reads_settingStatement.mono ?_)
    (serves_if (glances_starts .lbracket) (reads_tag room).at_token
      (serves_if (glances_startsWord "enum") (reads_enumDefinition room).at_word
        (serves_if (glances_startsWord "type") ht.at_word
          (serves_if (glances_starts .identifier) (reads_fieldBut ?_) serves_absent
            (decides_fieldBut _) Grammar.decides_zero (hfield.imp fun _ ht => .inl ht.1))
          hL.startsWord ?_ hL.opens)
        henum.startsWord ?_ henum.opens)
      heads_tag.starts ?_ (heads_tag.imp fun _ => .inr))
    decides_atSetting_settingStatement ?_ heads_settingStatement.opens
  · intro s hs
    simp only [Bool.and_eq_true] at hs
    exact begins_of_startsWord hs.2.1
  · rintro s ⟨⟨⟨⟨⟨-, hsetting⟩, -⟩, henum⟩, htype⟩, hident⟩
    exact ⟨hident, by simp [henum, htype], hsetting⟩
  all_goals simp only [Grammar.decides_add]
  · exact ⟨decides_reserved_fieldBut (by decide), Grammar.decides_zero⟩
  · exact ⟨hL.other (by decide), decides_reserved_fieldBut (by decide), Grammar.decides_zero⟩
  · exact ⟨henum.not_bracket (by decide), hL.not_bracket (by decide), decides_bracket_fieldBut _,
      Grammar.decides_zero⟩
  · exact ⟨decides_atSetting (heads_tag.not_word (by decide) _),
      decides_atSetting (henum.other (by decide)), decides_atSetting (hL.other (by decide)),
      decides_atSetting_fieldBut _, Grammar.decides_zero⟩

theorem reads_typeDefinition (room : Nat) :
    Reads (typeDefinition room) (Grammar.typeDefinition room) (AtWord "type") := by
  induction room with
  | zero => exact reads_discard_tooDeep
  | succ room ih =>
    refine reads_block (by decide) "type" (serves_typeMember room ih (heads_typeDefinition room))
      fun t rest ht => ?_
    simp [atSetting, startsWord, Lexeme.isWord, starts, ht]

theorem serves_componentMember (room : Nat) :
    Serves (componentMember room) (Grammar.componentMember room)
      (fun s => atSetting s = true ∨ starts .lbracket s = true ∨ startsWord "id" s = true ∨
        startsWord "data" s = true ∨ startsWord "event" s = true ∨ startsWord "command" s = true ∨
        starts .identifier s = true ∨ False) Always := by
  rw [Grammar.componentMember, ← add_zero (Grammar.fieldBut _), add_assoc, add_assoc, add_assoc,
    add_assoc, add_assoc]
  have hfield := heads_fieldBut ["id", "data", "event", "command"]
  refine serves_if glances_atSetting (reads_settingStatement.mono ?_)
    (serves_if (glances_starts .lbracket) (reads_tag room).at_token
      (serves_if (glances_startsWord "id") reads_componentId.at_word
        (serves_if (glances_startsWord "data") reads_dataMember.at_word
          (serves_if (glances_startsWord "event") reads_eventMember.at_word
            (serves_if (glances_startsWord "command") reads_commandMember.at_word
              (serves_if (glances_starts .identifier) (reads_fieldBut ?_) serves_absent
                (decides_fieldBut _) Grammar.decides_zero (hfield.imp fun _ ht => .inl ht.1))
              heads_commandMember.startsWord ?_ heads_commandMember.opens)
            heads_eventMember.startsWord ?_ heads_eventMember.opens)
          heads_dataMember.startsWord ?_ heads_dataMember.opens)
        heads_componentId.startsWord ?_ heads_componentId.opens)
      heads_tag.starts ?_ (heads_tag.imp fun _ => .inr))
    decides_atSetting_settingStatement ?_ heads_settingStatement.opens
  · intro s hs
    simp only [Bool.and_eq_true] at hs
    exact begins_of_startsWord hs.2.1
  · rintro s ⟨⟨⟨⟨⟨⟨⟨-, hsetting⟩, -⟩, hid⟩, hdata⟩, hevent⟩, hcommand⟩, hident⟩
    exact ⟨hident, by simp [hid, hdata, hevent, hcommand], hsetting⟩
  all_goals simp only [Grammar.decides_add]
  · exact ⟨decides_reserved_fieldBut (by decide), Grammar.decides_zero⟩
  · exact ⟨heads_commandMember.other (by decide), decides_reserved_fieldBut (by decide),
      Grammar.decides_zero⟩
  · exact ⟨heads_eventMember.other (by decide), heads_commandMember.other (by decide),
      decides_reserved_fieldBut (by decide), Grammar.decides_zero⟩
  · exact ⟨heads_dataMember.other (by decide), heads_eventMember.other (by decide),
      heads_commandMember.other (by decide), decides_reserved_fieldBut (by decide),
      Grammar.decides_zero⟩
  · exact ⟨heads_componentId.not_bracket (by decide), heads_dataMember.not_bracket (by decide),
      heads_eventMember.not_bracket (by decide), heads_commandMember.not_bracket (by decide),
      decides_bracket_fieldBut _, Grammar.decides_zero⟩
  · exact ⟨decides_atSetting (heads_tag.not_word (by decide) _),
      decides_atSetting (heads_componentId.other (by decide)),
      decides_atSetting (heads_dataMember.other (by decide)),
      decides_atSetting (heads_eventMember.other (by decide)),
      decides_atSetting (heads_commandMember.other (by decide)),
      decides_atSetting_fieldBut _, Grammar.decides_zero⟩

theorem reads_componentDefinition (room : Nat) :
    Reads (componentDefinition room) (Grammar.componentDefinition room) (AtWord "component") := by
  cases room with
  | zero => exact reads_discard_tooDeep
  | succ room =>
    apply reads_block (by decide) "component" (serves_componentMember room)
    intro t rest ht
    simp [atSetting, startsWord, Lexeme.isWord, starts, ht]

theorem serves_topLevel (room : Nat) :
    Serves (topLevel room) (Grammar.definition room) Ahead Always := by
  rw [Grammar.definition, ← add_zero (Grammar.tag _), add_assoc, add_assoc, add_assoc, add_assoc,
    add_assoc]
  have henum := heads_enumDefinition room
  have htype := heads_typeDefinition room
  have hcomponent := heads_componentDefinition room
  refine serves_ahead (serves_if (glances_startsWord "package") reads_packageStatement.at_word
    (serves_if (glances_startsWord "import") reads_importStatement.at_word
      (serves_if (glances_startsWord "option") reads_settingStatement.at_word
        (serves_if (glances_startsWord "enum") (reads_enumDefinition room).at_word
          (serves_if (glances_startsWord "type") (reads_typeDefinition room).at_word
            (serves_if (glances_startsWord "component") (reads_componentDefinition room).at_word
              (serves_if (glances_starts .lbracket) (reads_tag room).at_token
                (serves_present (reads_skip _ _) fun _ hw => hw.elim)
                heads_tag.starts Grammar.decides_zero (heads_tag.imp fun _ => .inr))
              hcomponent.startsWord ?_ hcomponent.opens)
            htype.startsWord ?_ htype.opens)
          henum.startsWord ?_ henum.opens)
        heads_settingStatement.startsWord ?_ heads_settingStatement.opens)
      heads_importStatement.startsWord ?_ heads_importStatement.opens)
    heads_packageStatement.startsWord ?_ heads_packageStatement.opens) fun _ => by simp
  all_goals simp only [Grammar.decides_add]
  · exact ⟨heads_tag.not_word (by decide) _, Grammar.decides_zero⟩
  · exact ⟨hcomponent.other (by decide), heads_tag.not_word (by decide) _, Grammar.decides_zero⟩
  · exact ⟨htype.other (by decide), hcomponent.other (by decide), heads_tag.not_word (by decide) _,
      Grammar.decides_zero⟩
  · exact ⟨henum.other (by decide), htype.other (by decide), hcomponent.other (by decide),
      heads_tag.not_word (by decide) _, Grammar.decides_zero⟩
  · exact ⟨heads_settingStatement.other (by decide), henum.other (by decide),
      htype.other (by decide), hcomponent.other (by decide), heads_tag.not_word (by decide) _,
      Grammar.decides_zero⟩
  · exact ⟨heads_importStatement.other (by decide), heads_settingStatement.other (by decide),
      henum.other (by decide), htype.other (by decide), hcomponent.other (by decide),
      heads_tag.not_word (by decide) _, Grammar.decides_zero⟩

end Parse

theorem whole_parseWith {room : Nat} {s : List Lexeme} (hs : s ∈ Grammar.schemaFile room) :
    Whole AnyKind (parseWith room s) := by
  have hm := Parse.serves_topLevel room
  obtain ⟨row, -, hwhole, hrun, -⟩ := Parser.complete_members hm s hs
  have hend := hrun []
  rw [List.append_nil, Parser.run_members_idle (hm.idle [] (by simp)), Forest.append_nil] at hend
  rw [parseWith, hend]
  exact hwhole

/-- A file that lacks one closer is read as before up to there and behind it. -/
theorem cut_parseWith {room : Nat} {a b : List Lexeme} {t : Lexeme}
    (hs : a ++ t :: b ∈ Grammar.schemaFile room)
    (hcloser : IsCloser (parseWith room (a ++ t :: b)) a t) :
    ∃ fault, Cut fault (parseWith room (a ++ t :: b)) a t b (parseWith room (a ++ b)) := by
  have hm := Parse.serves_topLevel room
  have hidle := Parser.run_members_idle (hm.idle [] (by simp))
  obtain ⟨row, -, -, hrun, hmends⟩ := Parser.complete_members hm _ hs
  have hrow := hrun []
  rw [List.append_nil, hidle, Forest.append_nil] at hrow
  rw [parseWith, hrow] at hcloser
  obtain ⟨fault, row', hcut, hrun'⟩ := hmends a t b rfl hcloser [] fun _ => .inl rfl
  rw [List.append_nil, hidle, Forest.append_nil] at hrun'
  refine ⟨fault, ?_⟩
  rw [parseWith, parseWith, hrow, hrun']
  exact hcut

/-- A row has no fault exactly when its lexemes are derivable. -/
theorem faultless_parseWith (room : Nat) (s : List Lexeme) :
    Faultless (parseWith room s) ↔ s ∈ Grammar.schemaFile room := by
  refine ⟨fun hfl => ?_, fun hs => (whole_parseWith hs).faultless⟩
  have hmem := Parser.sound_members (Parse.serves_topLevel room) s hfl
  have hleaves := leaves_parseWith room s
  rw [parseWith] at hleaves
  rwa [hleaves] at hmem

/-! ## Shapes of the nodes of a file -/

theorem labels_attach (row : Row) (all : List Lexeme) : (attach row all).1.labels = row.labels := by
  induction row generalizing all with
  | nil => rfl
  | leaf t next ih => simp [attach, Forest.labels, ih]
  | node shape inside next ihi ihn =>
    cases shape <;> simp [attach, Forest.labels, ihi, ihn]

theorem shapes_locate (row : Row) (offset id : Nat) :
    (locate row offset id).row.preorder.map (fun n => n.mark.shape) = row.labels := by
  induction row generalizing offset id with
  | nil => rfl
  | leaf t next ih => exact ih _ _
  | node shape inside next ihi ihn => simp [locate, Forest.preorder, Forest.labels, ihi, ihn]

namespace SchemaFile

variable (file : SchemaFile)

/-- The root and the nodes of the parsed row, each before those inside it. -/
theorem shapes_nodes :
    file.nodes.map (fun n => n.mark.shape) =
      .construct .schemaFile true :: (parseRow (significant (lexemes file.source))).labels := by
  have hroot : file.root.mark.shape = .construct .schemaFile true := by
    rw [file.root_eq]
    rfl
  rw [nodes, Node.descendants, List.map_cons, hroot, inside_root, shapes_locate, placedRow,
    attachAll, Forest.labels_append, labels_attach, Forest.labels_ofTokens, List.append_nil]

theorem shape_of_mem_nodes {p : Shape → Prop} :
    (∀ n ∈ file.nodes, p n.mark.shape) ↔
      p (.construct .schemaFile true) ∧
        (parseRow (significant (lexemes file.source))).Each (fun shape _ => p shape) := by
  rw [Forest.each_iff_labels, ← List.forall_mem_cons, ← shapes_nodes]
  simp

theorem faults_eq_nil_iff :
    file.faults = [] ↔ Faultless (parseRow (significant (lexemes file.source))) := by
  have h := file.shape_of_mem_nodes (p := fun shape => shape.fault? = none)
  have hroot : (Shape.construct .schemaFile true).fault? = none := rfl
  rw [and_iff_right hroot] at h
  rw [Faultless, ← h]
  simp [faults, Node.fault?]

theorem derivable_of_faults (h : file.faults = []) :
    significant (lexemes file.source) ∈ Grammar.schemaFile Parse.maxNesting :=
  (faultless_parseWith _ _).mp (file.faults_eq_nil_iff.mp h)

theorem whole_of_faults (h : file.faults = []) :
    Whole AnyKind (parseRow (significant (lexemes file.source))) :=
  whole_parseWith (file.derivable_of_faults h)

/-- A file has no syntax fault if and only if its significant lexemes are
derivable, and then none of its nodes is incomplete. -/
theorem faultless_iff_derivable :
    (file.faults = [] ↔
      significant (lexemes file.source) ∈ Grammar.schemaFile Parse.maxNesting) ∧
    (file.faults = [] → ∀ n ∈ file.nodes, n.incomplete = false) := by
  have hiff := file.faults_eq_nil_iff.trans (faultless_parseWith Parse.maxNesting _)
  refine ⟨hiff, fun hfaults => ?_⟩
  have hwhole := whole_parseWith (hiff.mp hfaults)
  have hcomplete := (file.shape_of_mem_nodes (p := fun shape => shape.complete = true)).mpr
    ⟨rfl, hwhole.imp fun shape _ ⟨kind, _, hshape⟩ => by rw [hshape]; rfl⟩
  intro n hn
  rw [Node.incomplete, hcomplete n hn]
  rfl

end SchemaFile

end SchemaLang
