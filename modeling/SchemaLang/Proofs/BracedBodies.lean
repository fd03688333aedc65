import SchemaLang.Proofs.Braces

/-!
# Damage in braces stays in them

The body of a type may be any balanced row. Every production keeps to the
braces around it, so the reading comes to the closing brace of the body, inside
the type or behind it, and what follows is read as if the type were not there.
A nested definition that breaks off and takes a closing brace that is not its
own does break this.
-/

set_option autoImplicit false

namespace SchemaLang

namespace Parse

open SchemaLang.Parser Step

variable {value : Parser Bool} {i j k : Nat} {P : List Lexeme → Prop}

/-! ## Values -/

theorem keeps_literal (kind : NodeKind) : Keeps AtContent (literal kind) :=
  keeps_bind (keeps_take kind) fun _ => keeps_pure true

theorem keeps_number : Keeps (AtToken .integer) number := by
  apply keeps_choose
  intro s hs
  split
  · rename_i hdot
    have hbody : Carries (Begins (fun t => t.kind = .integer) (AtToken .identifier)) 0 0 (do
        bump
        bump
        punct .integer .value fun _ => .missingAfter "digits" s!"{found s}."
        pure true) :=
      carries_bump_then (shifts_other (by decide) 0) <|
        carries_bump_then (shifts_other (by decide) 0) <|
          (carries_then (P := Always) (carries_punct (shifts_other (by decide) 0) fun _ => .inl rfl)
            fun _ => carries_done true)
    refine (keeps_construct hbody).mono fun r hr => ?_
    rw [hr]
    have hnext := begins_of_startsWord hdot
    match s, hs, hnext with
    | t :: u :: s, hs, hnext => exact ⟨hs.1, kind_of_isWord hnext.1, trivial⟩
  · exact (keeps_literal .intValue).mono fun _ hr => (hr ▸ hs).content (by decide)

theorem carries_elements {item : Step Bool} {closer : TokenKind} (hk : Shifts closer i j)
    (hi : Carries Always i i item) {otherwise : String → Stop}
    (ho : ∀ text, (otherwise text).Affordable i) :
    Carries P i j (elements item closer otherwise) :=
  carries_then (hi.mono fun _ _ => trivial) fun _ =>
    carries_then (carries_sepTail hk hi ho) fun _ => carries_done _

/-- An opener, and elements up to the closer unless it comes at once. `k`
braces are open between them. -/
theorem keeps_bracketed (kind : NodeKind) {opener closer : TokenKind} (hopener : Shifts opener 0 k)
    (hcloser : Shifts closer k 0) {item : Step Bool} (hi : Carries Always k k item)
    {otherwise : String → Stop} (ho : ∀ text, (otherwise text).Affordable k) :
    Keeps (AtToken opener) (construct kind (between closer item otherwise)) := by
  refine keeps_construct (carries_bump_then hopener (carries_choose fun s _ => ?_))
  split
  · exact (carries_then (carries_bump hcloser) fun _ => carries_done true).mono
      fun _ hs => hs ▸ begins_of_starts ‹_›
  · exact carries_elements hcloser hi ho

theorem keeps_list (h : Keeps Always value) : Keeps (AtToken .lbracket) (list value) :=
  keeps_bracketed .list (shifts_other (by decide) 0) (shifts_other (by decide) 0)
    (carries_liftM h) fun _ => .inl rfl

theorem carries_mapEntry (h : Keeps Always value) : Carries Always 1 1 (mapEntry value) :=
  carries_group _ _ (carries_then (carries_liftM h) fun _ =>
    carries_then (carries_punct (shifts_other (by decide) 1) fun _ => .inr (.inl Nat.one_pos))
      fun _ => carries_then (carries_liftM h) fun _ => carries_done _)

theorem keeps_map (h : Keeps Always value) : Keeps (AtToken .lbrace) (map value) :=
  keeps_bracketed .map (shifts_lbrace 0) (shifts_rbrace 0) (carries_mapEntry h)
    fun _ => .inr (.inl Nat.one_pos)

theorem keeps_arguments (h : Keeps Always value) : Keeps (AtToken .lparen) (arguments value) := by
  refine keeps_bracketed .arguments (shifts_other (by decide) 0) (shifts_other (by decide) 0)
    (carries_choose fun s _ => ?_) fun _ => .inl rfl
  split
  · exact carries_stop (.inl rfl)
  · exact carries_liftM (h.mono fun _ _ => trivial)

theorem keeps_construction (h : Keeps Always value) :
    Keeps (Begins (fun t => t.kind = .identifier) (AtToken .lparen)) (construction value) := by
  intro r n s hs hin hbuilt
  cases s with
  | nil => exact hs.elim
  | cons t s =>
    have htail := hin.tail (by simp [show t.kind = .identifier from hs.1])
    exact keeps_arguments h r n s hs.2 htail hbuilt.2.1.2.2

theorem keeps_notAValue : Keeps Always notAValue := by
  intro r n s _ h _
  cases s with
  | nil => exact absurd rfl h.ne_nil
  | cons t s =>
    show Inside r n ((t :: s).drop _)
    dsimp only
    split
    · exact h
    · exact h
    · exact h
    · exact h
    · exact h
    · rename_i hbrace hcomma hsemi
      exact h.tail hbrace

theorem keeps_valueOf {list map construction : Parser Bool} (hl : Keeps (AtToken .lbracket) list)
    (hm : Keeps (AtToken .lbrace) map)
    (hc : Keeps (Begins (fun t => t.kind = .identifier) (AtToken .lparen)) construction) :
    Keeps Always (valueOf list map construction) := by
  apply keeps_choose
  intro s _
  cases s with
  | nil => exact keeps_notAValue.mono fun _ _ => trivial
  | cons t s =>
    have hat {kind : TokenKind} (hk : t.kind = kind) (r : List Lexeme) (hr : r = t :: s) :
        AtToken kind r := hr ▸ ⟨hk, trivial⟩
    have hcontent {kind : TokenKind} (hk : t.kind = kind) (hne : kind ≠ .rbrace) (r : List Lexeme)
        (hr : r = t :: s) : AtContent r := (hat hk r hr).content hne
    dsimp only
    split
    · exact keeps_number.mono (hat ‹_›)
    · exact (keeps_literal _).mono (hcontent ‹_› (by decide))
    · exact (keeps_literal _).mono (hcontent ‹_› (by decide))
    · exact hl.mono (hat ‹_›)
    · exact hm.mono (hat ‹_›)
    · split
      · exact (keeps_literal _).mono (hcontent ‹_› (by decide))
      split
      · exact hc.mono (by rintro _ rfl; exact ⟨‹_›, begins_of_starts ‹_›⟩)
      · exact (keeps_literal _).mono (hcontent ‹_› (by decide))
    · exact keeps_notAValue.mono fun _ _ => trivial

theorem keeps_value (room : Nat) : Keeps Always (Parse.value room) := by
  induction room with
  | zero => exact keeps_valueOf keeps_tooDeep keeps_tooDeep keeps_tooDeep
  | succ room ih =>
    exact keeps_valueOf (keeps_list ih) (keeps_map ih) (keeps_construction ih)

/-! ## Tags and statements -/

theorem carries_namedArgument (h : Keeps Always value) :
    Carries Always 0 0 (namedArgument value) :=
  carries_group _ _ (carries_then (carries_expect (by decide) _ fun _ => .inl rfl) fun _ =>
    carries_then (carries_punct (shifts_other (by decide) 0) fun _ => .inl rfl) fun _ =>
      carries_liftM h)

theorem contained_tag (h : Keeps Always value) : Contained (AtToken .lbracket) (tag value) := by
  refine contained_statement (carries_then (carries_bump (shifts_other (by decide) 0)) fun _ =>
    carries_then (carries_expect (by decide) _ fun _ => .inl rfl) fun _ =>
      carries_then (carries_choose fun s _ => ?_) fun _ => carries_closing (by decide) rfl _)
  split
  · rename_i hparen
    have hat (r : List Lexeme) (hr : r = s) : AtToken .lparen r := hr ▸ begins_of_starts hparen
    split
    · exact (carries_then (carries_bump (shifts_other (by decide) 0)) fun _ =>
        carries_then (carries_elements (shifts_other (by decide) 0) (carries_namedArgument h)
          fun _ => .inl rfl) fun _ => carries_done ()).mono hat
    · exact (carries_then (carries_liftM (keeps_arguments h)) fun _ => carries_done ()).mono hat
  · exact carries_done ()

theorem carries_keyword : Carries AtContent i i keyword :=
  carries_then (carries_liftM (keeps_take _)) fun _ => carries_done ()

theorem carries_follow {kind : TokenKind} (hk : kind ≠ .rbrace) (node : NodeKind)
    (wanted before : String) : Carries P i i (follow kind node wanted before) :=
  carries_expect hk _ fun _ => .inl rfl

theorem carries_followPunct {kind : TokenKind} (hk : kind ≠ .rbrace) (wanted before : String) :
    Carries P i i (followPunct kind wanted before) :=
  carries_punct (shifts_other hk i) fun _ => .inl rfl

theorem carries_terminator (before : String) : Carries P i i (terminator before) :=
  carries_closing (by decide) rfl _

theorem contained_packageStatement : Contained AtContent packageStatement :=
  contained_statement (carries_then carries_keyword fun _ =>
    carries_then (carries_follow (by decide) _ _ _) fun _ => carries_terminator _)

theorem contained_importStatement : Contained AtContent importStatement :=
  contained_statement (carries_then carries_keyword fun _ =>
    carries_then (carries_follow (by decide) _ _ _) fun _ => carries_terminator _)

theorem atContent_of_startsSetting {s : List Lexeme} (h : startsSetting s = true) :
    AtContent s := by
  simp only [startsSetting, Bool.or_eq_true, or_assoc] at h
  rcases h with h | h | h | h <;> exact atContent_of_starts h (by decide)

theorem contained_settingStatement : Contained AtContent settingStatement := by
  refine contained_statement (carries_then carries_keyword fun _ =>
    carries_then (carries_follow (by decide) _ _ _) fun _ =>
      carries_then (carries_followPunct (by decide) _ _) fun _ =>
        carries_then (carries_choose fun s _ => ?_) fun _ => carries_terminator _)
  split
  · exact carries_liftM ((keeps_take _).mono fun _ hr => hr ▸ atContent_of_startsSetting ‹_›)
  · exact carries_stop (.inl rfl)

theorem contained_enumValue : Contained AtContent enumValue :=
  contained_statement (carries_then (carries_liftM (keeps_take _)) fun _ =>
    carries_then (carries_followPunct (by decide) _ _) fun _ =>
      carries_then (carries_follow (by decide) _ _ _) fun _ => carries_terminator _)

theorem carries_typeParameters (base : String) :
    Carries (AtToken .langle) i i (typeParameters base) := by
  apply carries_then (carries_bump (shifts_other (by decide) i))
  intro _
  split
  · exact carries_stop (.inl rfl)
  · refine carries_then (carries_follow (by decide) _ _ _) fun _ =>
      carries_then (carries_sepTail (shifts_other (by decide) i)
        (carries_follow (by decide) _ _ _) fun _ => .inl rfl) fun _ => ?_
    split
    · exact carries_done _
    · exact carries_stop (.inl rfl)

theorem carries_fieldType : Carries (AtToken .identifier) i i fieldType := by
  have hgroup (transient : Bool) :
      Carries (AtToken .identifier) i i (group .fieldType (fun _ => true) do
        let base ← take .typeName
        Step.choose fun s =>
          if starts .langle s then typeParameters base
          else if transient then stop .statement (.transientScalar base)
          else pure base) := by
    refine carries_group _ _ (carries_then
      (carries_liftM ((keeps_take _).mono fun _ hs => hs.content (by decide))) fun base =>
        carries_choose fun s _ => ?_)
    split
    · exact (carries_typeParameters base).mono fun _ hr => hr ▸ begins_of_starts ‹_›
    split
    · exact carries_stop (.inl rfl)
    · exact carries_done base
  apply carries_choose
  intro s hs
  dsimp only
  split
  · exact carries_then (carries_keyword.mono fun _ hr => hr ▸ hs.content (by decide)) fun _ =>
      carries_require_then (fun _ => .inl rfl) (hgroup true)
  · exact (hgroup false).mono fun _ hr => hr ▸ hs

theorem contained_field : Contained (AtToken .identifier) field := by
  refine contained_statement (carries_then carries_fieldType fun _ =>
    carries_then (carries_follow (by decide) _ _ _) fun _ => carries_choose fun s _ => ?_)
  split
  · rename_i hequals
    have hat (r : List Lexeme) (hr : r = s) : AtToken .equals r := hr ▸ begins_of_starts hequals
    exact (carries_then (carries_bump (shifts_other (by decide) 0)) fun _ =>
      carries_then (carries_follow (by decide) _ _ _) fun _ => carries_terminator _).mono hat
  · exact carries_closing (by decide) rfl _

theorem contained_componentId : Contained AtContent componentId :=
  contained_statement (carries_then carries_keyword fun _ =>
    carries_then (carries_followPunct (by decide) _ _) fun _ =>
      carries_then (carries_follow (by decide) _ _ _) fun _ => carries_terminator _)

theorem carries_memberType (word : String) : Carries AtContent i i (memberType word) :=
  carries_then carries_keyword fun _ => carries_require_then (fun _ => .inl rfl) carries_fieldType

theorem contained_dataMember : Contained AtContent dataMember :=
  contained_statement (carries_then (carries_memberType _) fun _ => carries_terminator _)

theorem contained_eventMember : Contained AtContent eventMember :=
  contained_statement (carries_then (carries_memberType _) fun _ =>
    carries_then (carries_follow (by decide) _ _ _) fun _ => carries_terminator _)

theorem contained_commandMember : Contained AtContent commandMember :=
  contained_statement (carries_then carries_keyword fun _ =>
    carries_then (carries_follow (by decide) _ _ _) fun _ =>
      carries_then (carries_follow (by decide) _ _ _) fun _ =>
        carries_then (carries_followPunct (by decide) _ _) fun _ =>
          carries_then (carries_follow (by decide) _ _ _) fun _ =>
            carries_then (carries_followPunct (by decide) _ _) fun _ => carries_terminator _)

/-! ## Members and definitions -/

theorem contained_block (kind : NodeKind) (word : String) {member : Parser Bool}
    (hm : Keeps Always member)
    (hidle : ∀ t s, t.kind = .rbrace → (member.run (t :: s)).value = false) :
    Contained AtContent (block kind word member) :=
  contained_statement (carries_then carries_keyword fun _ =>
    carries_then (carries_expect (by decide) _ fun _ => .inr (.inr ⟨rfl, rfl⟩)) fun _ =>
      carries_then (carries_punct (shifts_lbrace 0) fun _ => .inr (.inr ⟨rfl, rfl⟩)) fun _ =>
        carries_then (carries_liftM (keeps_members hm hidle)) fun _ =>
          carries_punct (shifts_rbrace 0) fun _ => .inr (.inl Nat.one_pos))

theorem contained_nested {p : Nat → Parser Unit} (h : ∀ room, Contained P (p room)) (room : Nat) :
    Contained P (nested p room) := by
  cases room with
  | zero => exact contained_discard_tooDeep
  | succ room => exact h room

theorem keeps_enumMember (room : Nat) : Keeps Always (enumMember room) := by
  apply keeps_choose
  intro s _
  split
  · exact keeps_present ((contained_tag (keeps_value room)).keeps.mono
      fun _ hr => hr ▸ begins_of_starts ‹_›)
  split
  · exact keeps_present (contained_enumValue.keeps.mono
      fun _ hr => hr ▸ atContent_of_starts ‹_› (by decide))
  · exact keeps_pure false

theorem contained_enumDefinition (room : Nat) : Contained AtContent (enumDefinition room) := by
  refine contained_nested (fun room => contained_block _ _ (keeps_enumMember room)
    fun t s ht => ?_) room
  rw [(serves_enumMember room).idle (t :: s) (by simp [starts, ht])]

theorem keeps_typeMember (room : Nat) {typeDefinition : Parser Unit}
    (h : Keeps AtContent typeDefinition) : Keeps Always (typeMember room typeDefinition) := by
  apply keeps_choose
  intro s _
  have hword {text : String} (hs : startsWord text s = true) (r : List Lexeme) (hr : r = s) :
      AtContent r := hr ▸ atContent_of_startsWord hs
  split
  · rename_i hoption
    rw [Bool.and_eq_true] at hoption
    exact keeps_present (contained_settingStatement.keeps.mono (hword hoption.1))
  split
  · exact keeps_present ((contained_tag (keeps_value room)).keeps.mono
      fun _ hr => hr ▸ begins_of_starts ‹_›)
  split
  · exact keeps_present ((contained_enumDefinition room).keeps.mono (hword ‹_›))
  split
  · exact keeps_present (h.mono (hword ‹_›))
  split
  · exact keeps_present (contained_field.keeps.mono fun _ hr => hr ▸ begins_of_starts ‹_›)
  · exact keeps_pure false

theorem idle_typeMember (room : Nat) (t : Lexeme) (s : List Lexeme) (ht : t.kind = .rbrace) :
    ((typeMember room (typeDefinition room)).run (t :: s)).value = false := by
  have hidle := (serves_typeMember room (reads_typeDefinition room)
    (heads_typeDefinition room)).idle (t :: s)
  rw [hidle (by simp [atSetting, startsWord, Lexeme.isWord, starts, ht])]

theorem contained_typeDefinition (room : Nat) : Contained AtContent (typeDefinition room) := by
  induction room with
  | zero => exact contained_discard_tooDeep
  | succ room ih =>
    exact contained_block _ _ (keeps_typeMember room ih.keeps) (idle_typeMember room)

theorem keeps_componentMember (room : Nat) : Keeps Always (componentMember room) := by
  apply keeps_choose
  intro s _
  have hword {text : String} (hs : startsWord text s = true) (r : List Lexeme) (hr : r = s) :
      AtContent r := hr ▸ atContent_of_startsWord hs
  split
  · rename_i hoption
    rw [Bool.and_eq_true] at hoption
    exact keeps_present (contained_settingStatement.keeps.mono (hword hoption.1))
  split
  · exact keeps_present ((contained_tag (keeps_value room)).keeps.mono
      fun _ hr => hr ▸ begins_of_starts ‹_›)
  split
  · exact keeps_present (contained_componentId.keeps.mono (hword ‹_›))
  split
  · exact keeps_present (contained_dataMember.keeps.mono (hword ‹_›))
  split
  · exact keeps_present (contained_eventMember.keeps.mono (hword ‹_›))
  split
  · exact keeps_present (contained_commandMember.keeps.mono (hword ‹_›))
  split
  · exact keeps_present (contained_field.keeps.mono fun _ hr => hr ▸ begins_of_starts ‹_›)
  · exact keeps_pure false

theorem contained_componentDefinition (room : Nat) :
    Contained AtContent (componentDefinition room) := by
  refine contained_nested (fun room => contained_block _ _ (keeps_componentMember room)
    fun t s ht => ?_) room
  rw [(serves_componentMember room).idle (t :: s)
    (by simp [atSetting, startsWord, Lexeme.isWord, starts, ht])]

/-- Between the members of a file no brace is known to be open. -/
theorem exits_topLevel (room : Nat) : Exits Always (topLevel room) := by
  intro r s _
  rw [topLevel, Parser.run_choose]
  have hword {text : String} (hs : startsWord text s = true) := atContent_of_startsWord hs
  split
  · exact fun h _ => .inr h
  split
  · exact exits_present contained_packageStatement.exits r s (hword ‹_›)
  split
  · exact exits_present contained_importStatement.exits r s (hword ‹_›)
  split
  · exact exits_present contained_settingStatement.exits r s (hword ‹_›)
  split
  · exact exits_present (contained_enumDefinition room).exits r s (hword ‹_›)
  split
  · exact exits_present (contained_typeDefinition room).exits r s (hword ‹_›)
  split
  · exact exits_present (contained_componentDefinition room).exits r s (hword ‹_›)
  split
  · exact exits_present (contained_tag (keeps_value room)).exits r s (begins_of_starts ‹_›)
  · intro h _
    rw [run_present]
    exact h.drop_extent_zero .topLevel

/-- With its opening brace taken, a block comes to the last closing brace at most. -/
theorem ended_blockRest (word name : String) {member : Parser Bool}
    (hm : Keeps Always (members member)) {r s : List Lexeme} (h : Inside r 0 s)
    (hbuilt : (Parser.run (blockRest word name member) s).built.Each Shape.Sheltered) :
    Ended r (Parser.run (blockRest word name member) s) := by
  have hmembers := Step.run_liftM (members member) s
  have hrun := Step.run_bind_of_ok
    (fun _ => punct .rbrace .braces fun found => .notAMember found word name)
    (p := (liftM (members member) : Step Unit)) (s := s) (by rw [hmembers])
  change Parser.run (blockRest word name member) s = _ at hrun
  rw [hmembers] at hrun
  rw [hrun] at hbuilt ⊢
  have hin := hm r 0 s trivial h ((Forest.each_append _ _ _).mp hbuilt).1
  generalize ((members member).run s).rest = s' at hin ⊢
  cases hs : starts .rbrace s' with
  | true =>
    cases s' with
    | nil => simp [starts] at hs
    | cons t s' =>
      rw [run_punct (by simpa [starts] using hs)]
      exact hin.last
  | false =>
    have hstop := run_require_of_not_starts .braces (fun found => .notAMember found word name) hs
    rw [punct, Step.run_bind_of_error _ (by rw [hstop]), hstop]
    exact hin.drop_extent_zero .braces

theorem rest_block (kind : NodeKind) (word : String) {member : Parser Bool}
    (hm : Keeps Always (members member)) {kw name lb : Lexeme} {r s : List Lexeme}
    (hname : name.kind = .identifier) (hlb : lb.kind = .lbrace) (h : Inside r 0 s)
    (hbuilt : ((block kind word member).run (kw :: name :: lb :: s)).built.Each
      fun _ inside => inside.Each Shape.Sheltered) :
    ((block kind word member).run (kw :: name :: lb :: s)).rest = r ∨
      Inside r 0 ((block kind word member).run (kw :: name :: lb :: s)).rest := by
  obtain ⟨body, hblock, hbody⟩ := exists_blockBody kind word member kw hname hlb
  rw [hblock] at hbuilt ⊢
  obtain ⟨-, hinside, -⟩ := each_of_statement hbuilt
  rw [hbody] at hinside
  have hended := ended_blockRest word name.text hm h ((Forest.each_append _ _ _).mp hinside).2
  apply rest_statement_of_ended
  rw [hbody]
  exact hended

theorem rest_typeDefinition (room : Nat) (kw : Lexeme) {name lb : Lexeme} {r s : List Lexeme}
    (hname : name.kind = .identifier) (hlb : lb.kind = .lbrace) (h : Inside r 0 s)
    (hbuilt : ((typeDefinition (room + 1)).run (kw :: name :: lb :: s)).built.Each
      fun _ inside => inside.Each Shape.Sheltered) :
    ((typeDefinition (room + 1)).run (kw :: name :: lb :: s)).rest = r ∨
      Inside r 0 ((typeDefinition (room + 1)).run (kw :: name :: lb :: s)).rest :=
  rest_block .type "type" (keeps_members (keeps_typeMember room
    (contained_typeDefinition room).keeps) (idle_typeMember room)) hname hlb h hbuilt

theorem run_topLevel_type (room : Nat) {kw : Lexeme} (hkw : kw.isWord "type" = true)
    (s : List Lexeme) :
    (topLevel room).run (kw :: s) = ⟨true, ((typeDefinition room).run (kw :: s)).built,
      ((typeDefinition room).run (kw :: s)).rest⟩ := by
  obtain ⟨hkind, htext⟩ : kw.kind = .identifier ∧ kw.text = "type" := by
    simpa [Lexeme.isWord] using hkw
  rw [topLevel, Parser.run_choose, ← run_present]
  simp [startsWord, Lexeme.isWord, hkind, htext]

end Parse

/-- A file goes on behind its first member, or behind a lexeme that this one did not take. -/
theorem parseWith_next (room : Nat) {s : List Lexeme} (hs : s ≠ []) :
    ∃ row s', parseWith room s = ((Parse.topLevel room).run s).built ++ row ++ parseWith room s' ∧
      s'.length < s.length ∧
      (((Parse.topLevel room).run s).rest = s' ∨
        ((Parse.topLevel room).run s).rest = s ∧ ∃ t, s = t :: s') := by
  have hbusy := (Parse.serves_topLevel room).busy s hs
  show ∃ row s', (Parser.members.loop (Parse.topLevel room) s).built = _ ++ row ++
      (Parser.members.loop (Parse.topLevel room) s').built ∧ _
  rw [Parser.members.loop_eq, if_pos hbusy]
  split
  · exact ⟨.nil, _, by rw [Forest.append_nil], ‹_›, .inl rfl⟩
  · have hsame := (Parse.topLevel room).rest_eq_of_not_lt ‹_›
    rw [hsame]
    cases s with
    | nil => exact absurd rfl hs
    | cons t s =>
      refine ⟨.node (.skipped (.stray t.text)) (.leaf t .nil) .nil, s, ?_, Nat.lt_succ_self _,
        .inr ⟨rfl, t, rfl⟩⟩
      rw [Forest.append_assoc]
      rfl

/-- Where the first member comes to the last closing brace at most, so does the
reading that goes on behind it. -/
theorem parseWith_next_inside (room : Nat) {r s : List Lexeme} (hs : s ≠ [])
    (hr : r.length < s.length)
    (hbuilt : (parseWith room s).Each fun _ inside => inside.Each Shape.Sheltered)
    (hfirst : ((Parse.topLevel room).run s).built.Each
        (fun _ inside => inside.Each Shape.Sheltered) →
      ((Parse.topLevel room).run s).rest = r ∨ Inside r 0 ((Parse.topLevel room).run s).rest) :
    ∃ row s', parseWith room s = row ++ parseWith room s' ∧ s'.length < s.length ∧
      ((parseWith room s').Each fun _ inside => inside.Each Shape.Sheltered) ∧
      (s' = r ∨ Inside r 0 s') := by
  obtain ⟨row, s', hrow, hlt, hs'⟩ := parseWith_next room hs
  rw [hrow] at hbuilt
  obtain ⟨hfront, hbehind⟩ := (Forest.each_append _ _ _).mp hbuilt
  have hrest := hfirst ((Forest.each_append _ _ _).mp hfront).1
  refine ⟨_, s', hrow, hlt, hbehind, ?_⟩
  rcases hs' with rfl | ⟨hsame, t, rfl⟩
  · exact hrest
  · rw [hsame] at hrest
    rcases hrest with rfl | hrest
    · exact absurd hr (Nat.lt_irrefl _)
    · exact hrest.last

/-- From between the braces, the reading comes to what follows them. -/
theorem parseWith_inside (room : Nat) {r s : List Lexeme} (h : s = r ∨ Inside r 0 s)
    (hbuilt : (parseWith room s).Each fun _ inside => inside.Each Shape.Sheltered) :
    ∃ damaged, parseWith room s = damaged ++ parseWith room r := by
  induction hn : s.length using Nat.strong_induction_on generalizing s with
  | _ n ih =>
    rcases h with rfl | h
    · exact ⟨.nil, rfl⟩
    obtain ⟨row, s', hrow, hlt, hbehind, hnext⟩ := parseWith_next_inside room h.ne_nil
      h.length_lt hbuilt (Parse.exits_topLevel room r s trivial h)
    obtain ⟨damaged, hdamaged⟩ := ih s'.length (hn ▸ hlt) hnext hbehind rfl
    exact ⟨row ++ damaged, by rw [hrow, hdamaged, Forest.append_assoc]⟩

/-- What stands behind a type with a balanced body is parsed as if the type were not there. -/
theorem parseWith_type {room : Nat} {kw name lb rb : Lexeme} {body r : List Lexeme}
    (hkw : kw.isWord "type" = true) (hname : name.kind = .identifier) (hlb : lb.kind = .lbrace)
    (hrb : rb.kind = .rbrace) (hbody : Balanced body)
    (hbuilt : (parseWith (room + 1) (kw :: name :: lb :: (body ++ rb :: r))).Each
      fun _ inside => inside.Each Shape.Sheltered) :
    ∃ damaged, parseWith (room + 1) (kw :: name :: lb :: (body ++ rb :: r)) =
      damaged ++ parseWith (room + 1) r := by
  have hin : Inside r 0 (body ++ rb :: r) := ⟨[], body, rb, rfl, hrb, hbody, Nat.zero_le _⟩
  have hlt : r.length < (kw :: name :: lb :: (body ++ rb :: r)).length := by
    simp only [List.length_cons, List.length_append]
    omega
  have hrun := Parse.run_topLevel_type (room + 1) hkw (name :: lb :: (body ++ rb :: r))
  have htype := Parse.rest_typeDefinition room kw hname hlb hin
  obtain ⟨row, s', hrow, -, hbehind, hnext⟩ := parseWith_next_inside (room + 1)
    (List.cons_ne_nil _ _) hlt hbuilt (by rwa [hrun])
  obtain ⟨damaged, hdamaged⟩ := parseWith_inside (room + 1) hnext hbehind
  exact ⟨row ++ damaged, by rw [hrow, hdamaged, Forest.append_assoc]⟩

namespace SchemaFile

/-- The definitions behind a type with any balanced body are read as in a file
of their own, if no definition inside that broke off took a closing brace. -/
theorem content_behind_type (file rest : SchemaFile) {kw name lb rb : Lexeme}
    {body : List Lexeme}
    (hsource : significant (lexemes file.source) =
      kw :: name :: lb :: (body ++ rb :: significant (lexemes rest.source)))
    (hkw : kw.isWord "type" = true) (hname : name.kind = .identifier) (hlb : lb.kind = .lbrace)
    (hrb : rb.kind = .rbrace) (hbody : Balanced body)
    (hsheltered : file.content.Each fun _ inside => inside.Each Shape.Sheltered) :
    ∃ damaged, file.content = damaged ++ rest.content := by
  rw [content_eq, parseRow, hsource] at hsheltered ⊢
  rw [content_eq]
  exact parseWith_type hkw hname hlb hrb hbody hsheltered

/-- The nested type has no name and is skipped with both of its braces. -/
theorem content_behind_cut_header :
    let file := read (.unsaved 0) "type T \x7b type \x7b int32 x = 1; \x7d \x7d enum E \x7b \x7d"
    let rest := read (.unsaved 1) "enum E \x7b \x7d"
    let body : List Lexeme := [⟨.identifier, "type"⟩, ⟨.lbrace, "\x7b"⟩, ⟨.identifier, "int32"⟩,
      ⟨.identifier, "x"⟩, ⟨.equals, "="⟩, ⟨.integer, "1"⟩, ⟨.semicolon, ";"⟩, ⟨.rbrace, "\x7d"⟩]
    file.faults.map (·.2.cutsHeader) = [true] ∧
      Balanced body ∧
      (file.content.Each fun _ inside => inside.Each Shape.Sheltered) ∧
      (∃ damaged, file.content = damaged ++ rest.content) ∧
      rest.content.tops = [.construct .enum true] := by
  intro file rest body
  have hsheltered : file.content.Each fun _ inside => inside.Each Shape.Sheltered := by
    decide +kernel
  have hbody : Balanced body := by decide
  have hsource : significant (lexemes file.source) =
      ⟨.identifier, "type"⟩ :: ⟨.identifier, "T"⟩ :: ⟨.lbrace, "\x7b"⟩ ::
        (body ++ ⟨.rbrace, "\x7d"⟩ :: significant (lexemes rest.source)) := by
    decide +kernel
  exact ⟨by decide +kernel, hbody, hsheltered,
    content_behind_type file rest hsource (by decide +kernel) rfl rfl rfl hbody hsheltered,
    by decide +kernel⟩

/-- The last closing brace goes with the definition that breaks off, and the
type takes the next one with it. -/
theorem cut_header_takes_definition :
    significant (lexemes "type T \x7b type A \x7d enum E \x7b \x7d") =
        ⟨.identifier, "type"⟩ :: ⟨.identifier, "T"⟩ :: ⟨.lbrace, "\x7b"⟩ ::
          ([⟨.identifier, "type"⟩, ⟨.identifier, "A"⟩] ++
            ⟨.rbrace, "\x7d"⟩ :: significant (lexemes "enum E \x7b \x7d")) ∧
      Balanced [⟨.identifier, "type"⟩, ⟨.identifier, "A"⟩] ∧
      (read (.unsaved 1) "enum E \x7b \x7d").faults = [] ∧
      .construct .enum true ∈ (read (.unsaved 1) "enum E \x7b \x7d").content.tops ∧
      .construct .enum true ∉
        (read (.unsaved 0) "type T \x7b type A \x7d enum E \x7b \x7d").content.tops :=
  ⟨by decide +kernel, by decide, List.isEmpty_iff.mp (by decide +kernel), by decide +kernel,
    by decide +kernel⟩

end SchemaFile

end SchemaLang
