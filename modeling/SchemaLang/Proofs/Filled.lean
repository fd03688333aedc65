import SchemaLang.Proofs.Forest
import SchemaLang.Proofs.Steps

/-!
# Every construct holds a lexeme

Whatever stands in a file, no construct of its row is empty: a construct is
opened only when its first lexeme lies ahead, and it takes that lexeme before
anything can stop it. Only skipped lexemes may be none at all. The law is
carried from steps to constructs, lists and members, and from there to the
row of a file.
-/

set_option autoImplicit false

namespace SchemaLang

def Shape.Filled : Shape → Row → Prop
  | .construct _ _, inside => inside.leaves ≠ []
  | .skipped _, _ => True

abbrev Always : List Lexeme → Prop := fun _ => True

abbrev Ahead : List Lexeme → Prop := fun s => s ≠ []

theorem ahead_of_starts {kind : TokenKind} {s : List Lexeme} (h : starts kind s = true) :
    Ahead s := by
  rintro rfl
  simp [starts] at h

theorem ahead_of_startsWord {word : String} {s : List Lexeme} (h : startsWord word s = true) :
    Ahead s := by
  rintro rfl
  simp [startsWord] at h

namespace Parser

variable {α β : Type} {P Q : List Lexeme → Prop}

def Fills (P : List Lexeme → Prop) (p : Parser α) : Prop :=
  ∀ s, P s → (p.run s).built.Each Shape.Filled

def Moves (P : List Lexeme → Prop) (p : Parser α) : Prop :=
  ∀ s, P s → (p.run s).built.leaves ≠ []

theorem Fills.mono {p : Parser α} (hp : Fills P p) (h : ∀ s, Q s → P s) : Fills Q p :=
  fun s hs => hp s (h s hs)

theorem fills_pure (a : α) : Fills P (pure a : Parser α) := fun _ _ => trivial

theorem fills_bind {p : Parser α} {f : α → Parser β} (hp : Fills P p)
    (hf : ∀ a, Fills Always (f a)) : Fills P (p >>= f) := by
  intro s hs
  rw [run_bind]
  exact (Forest.each_append _ _ _).mpr ⟨hp s hs, hf _ _ trivial⟩

theorem fills_choose {f : List Lexeme → Parser α} (h : ∀ s, P s → Fills (· = s) (f s)) :
    Fills P (choose f) :=
  fun s hs => h s hs s rfl

theorem fills_bump : Fills P bump := by
  intro s _
  cases s <;> trivial

theorem fills_take (kind : NodeKind) : Fills P (take kind) := by
  intro s _
  cases s with
  | nil => trivial
  | cons t s => exact ⟨by simp [Forest.leaves, Shape.Filled], trivial, trivial⟩

theorem fills_skip (fault : Fault) (extent : List Lexeme → Nat) : Fills P (skip fault extent) :=
  fun _ _ => ⟨trivial, Forest.each_ofTokens _ _, trivial⟩

theorem Moves.mono {p : Parser α} (hp : Moves P p) (h : ∀ s, Q s → P s) : Moves Q p :=
  fun s hs => hp s (h s hs)

theorem moves_choose {f : List Lexeme → Parser α} (h : ∀ s, P s → Moves (· = s) (f s)) :
    Moves P (choose f) :=
  fun s hs => h s hs s rfl

theorem moves_bump : Moves Ahead bump := by
  intro s hs
  cases s with
  | nil => exact absurd rfl hs
  | cons t s => simp [Forest.leaves]

theorem moves_take (kind : NodeKind) : Moves Ahead (take kind) := by
  intro s hs
  cases s with
  | nil => exact absurd rfl hs
  | cons t s => simp [Forest.leaves]

theorem fills_members {member : Parser Bool} (h : Fills Always member) :
    Fills P (members member) := by
  rintro s -
  show (members.loop member s).built.Each Shape.Filled
  fun_induction members.loop member s with
  | case1 s o hv hlt r ih => exact (Forest.each_append _ _ _).mpr ⟨h s trivial, ih⟩
  | case2 s o hv hlt hr => exact h s trivial
  | case3 s o hv hlt t rest hr r ih =>
    exact (Forest.each_append _ _ _).mpr ⟨h s trivial, trivial, trivial, ih⟩
  | case4 s o hv => exact h s trivial

theorem fills_construct {kind : NodeKind} {body : Step Bool} (hb : Fills P body)
    (hm : Moves P body) : Fills P (construct kind body) := by
  intro s hs
  cases h : (run body s).value with
  | ok sound =>
    rw [run_construct_of_ok h]
    exact ⟨hm s hs, hb s hs, trivial⟩
  | error e =>
    rw [run_construct_of_error h]
    exact ⟨hm s hs, hb s hs, trivial, Forest.each_ofTokens _ _, trivial⟩

/-- What is so of every node of a statement is so of its own node and of all inside. -/
theorem each_of_statement {P : Shape → Row → Prop} {kind : NodeKind} {body : Step Unit}
    {s : List Lexeme} (h : ((statement kind body).run s).built.Each P) :
    ∃ sound, P (.construct kind sound) (run body s).built ∧ (run body s).built.Each P := by
  cases hv : (run body s).value with
  | ok u =>
    rw [run_statement_of_ok hv] at h
    exact ⟨true, h.1, h.2.1⟩
  | error e =>
    rw [run_statement_of_error hv] at h
    exact ⟨false, h.1, h.2.1⟩

theorem fills_statement {kind : NodeKind} {body : Step Unit} (hb : Fills P body)
    (hm : Moves P body) : Fills P (statement kind body) := by
  intro s hs
  cases h : (run body s).value with
  | ok u =>
    rw [run_statement_of_ok h]
    exact ⟨hm s hs, hb s hs, trivial⟩
  | error e =>
    rw [run_statement_of_error h]
    exact ⟨hm s hs, hb s hs, trivial, Forest.each_ofTokens _ _, trivial⟩

end Parser

namespace Step

open SchemaLang.Parser

variable {α β : Type} {P : List Lexeme → Prop}

def Takes (P : List Lexeme → Prop) (p : Step α) : Prop :=
  ∀ s a, P s → (Parser.run p s).value = .ok a → (Parser.run p s).built.leaves ≠ []

theorem fills_liftM {p : Parser α} (hp : Fills P p) : Fills P (liftM p : Step α) := by
  intro s hs
  rw [run_liftM]
  exact hp s hs

theorem fills_done (a : α) : Fills P (pure a : Step α) := fun _ _ => trivial

theorem fills_stop (recovery : Recovery) (fault : Fault) :
    Fills P (stop recovery fault : Step α) := fun _ _ => trivial

theorem fills_then {p : Step α} {f : α → Step β} (hp : Fills P p)
    (hf : ∀ a, Fills Always (f a)) : Fills P (p >>= f : Step β) := by
  intro s hs
  cases h : (Parser.run p s).value with
  | error e =>
    rw [run_bind_of_error f h]
    exact hp s hs
  | ok a =>
    rw [run_bind_of_ok f h]
    exact (Forest.each_append _ _ _).mpr ⟨hp s hs, hf a _ trivial⟩

theorem fills_require_then (kind : TokenKind) (recovery : Recovery) (fault : String → Fault)
    {p : Step α} (hp : Fills Ahead p) :
    Fills P (require kind recovery fault >>= fun _ => p : Step α) := by
  intro s _
  cases h : starts kind s with
  | true =>
    rw [run_bind_of_ok _ (by rw [run_require_of_starts recovery fault h]),
      run_require_of_starts recovery fault h]
    exact hp s (ahead_of_starts h)
  | false =>
    rw [run_bind_of_error _ (by rw [run_require_of_not_starts recovery fault h]),
      run_require_of_not_starts recovery fault h]
    trivial

theorem fills_punct (kind : TokenKind) (recovery : Recovery) (fault : String → Fault) :
    Fills P (punct kind recovery fault) :=
  fills_require_then kind recovery fault (fills_liftM fills_bump)

theorem fills_expect (kind : TokenKind) (node : NodeKind) (recovery : Recovery)
    (fault : String → Fault) : Fills P (expect kind node recovery fault) :=
  fills_require_then kind recovery fault (fills_liftM (fills_take node))

theorem fills_closing (closer : TokenKind) (recovery : Recovery) (fault : String → Fault) :
    Fills P (closing closer recovery fault) := by
  apply fills_choose
  intro s _
  split
  · exact fills_liftM fills_bump
  · split
    · exact fills_stop _ _
    · exact fills_stop _ _

theorem fills_sepTail {item : Step α} (h : Fills Always item) (closer : TokenKind)
    (otherwise : String → Stop) : Fills P (sepTail item closer otherwise) := by
  rintro s -
  show (sepTail.loop item closer otherwise s).built.Each Shape.Filled
  fun_induction sepTail.loop item closer otherwise s with
  | case1 => trivial
  | case2 t s hc => trivial
  | case3 t s hc hcomma o e he => exact h s trivial
  | case4 t s hc hcomma o a ha r ih => exact (Forest.each_append _ _ _).mpr ⟨h s trivial, ih⟩
  | case5 t s hc hcomma => trivial

theorem fills_group {kind : NodeKind} {complete : α → Bool} {body : Step α} (hb : Fills P body)
    (ht : Takes P body) : Fills P (group kind complete body) := by
  intro s hs
  rw [run_group]
  cases h : (Parser.run body s).value with
  | ok a => exact ⟨ht s a hs h, hb s hs, trivial⟩
  | error e => exact hb s hs

theorem moves_then {p : Step α} (f : α → Step β) (hp : Moves P p) :
    Moves P (p >>= f : Step β) := by
  intro s hs
  obtain ⟨row, hrow⟩ := built_bind p f s
  rw [hrow, Forest.leaves_append]
  simp [hp s hs]

theorem moves_liftM {p : Parser α} (hp : Moves P p) : Moves P (liftM p : Step α) := by
  intro s hs
  rw [run_liftM]
  exact hp s hs

theorem moves_group {kind : NodeKind} {complete : α → Bool} {body : Step α} (hb : Moves P body) :
    Moves P (group kind complete body) := by
  intro s hs
  rw [run_group]
  cases h : (Parser.run body s).value with
  | ok a => simpa [Forest.leaves] using hb s hs
  | error e => exact hb s hs

theorem Takes.of_moves {p : Step α} (hp : Moves P p) : Takes P p := fun s _ hs _ => hp s hs

theorem takes_require_then (kind : TokenKind) (recovery : Recovery) (fault : String → Fault)
    {p : Step α} (hp : Moves Ahead p) :
    Takes P (require kind recovery fault >>= fun _ => p : Step α) := by
  intro s a _ h
  cases hs : starts kind s with
  | true =>
    rw [run_bind_of_ok _ (by rw [run_require_of_starts recovery fault hs]),
      run_require_of_starts recovery fault hs]
    exact hp s (ahead_of_starts hs)
  | false =>
    rw [run_bind_of_error _ (by rw [run_require_of_not_starts recovery fault hs])] at h
    simp at h

theorem takes_then {p : Step α} (f : α → Step β) (hp : Takes P p) :
    Takes P (p >>= f : Step β) := by
  intro s b hs h
  cases hv : (Parser.run p s).value with
  | error e =>
    rw [run_bind_of_error f hv] at h
    simp at h
  | ok a =>
    rw [run_bind_of_ok f hv, Forest.leaves_append]
    exact List.append_ne_nil_of_left_ne_nil (hp s a hs hv) _

theorem takes_then_right (p : Step α) {f : α → Step β} (hf : ∀ a, Takes Always (f a)) :
    Takes P (p >>= f : Step β) := by
  intro s b hs h
  cases hv : (Parser.run p s).value with
  | error e =>
    rw [run_bind_of_error f hv] at h
    simp at h
  | ok a =>
    rw [run_bind_of_ok f hv] at h
    rw [run_bind_of_ok f hv, Forest.leaves_append]
    exact List.append_ne_nil_of_right_ne_nil _ (hf a _ b trivial h)

end Step

namespace Parse

open SchemaLang.Parser Step

theorem fills_literal (kind : NodeKind) : Fills Always (literal kind) :=
  fills_bind (fills_take kind) fun _ => fills_pure true

theorem fills_number : Fills Always number := by
  apply fills_choose
  intro s _
  split
  · rename_i h
    refine (fills_construct (P := Ahead) ?_ ?_).mono ?_
    · exact fills_then (fills_liftM fills_bump) fun _ =>
        fills_then (fills_liftM fills_bump) fun _ =>
          fills_then (fills_punct _ _ _) fun _ => fills_done true
    · exact moves_then _ (moves_liftM moves_bump)
    · rintro _ rfl rfl
      simp [startsWord] at h
  · exact (fills_literal .intValue).mono fun _ _ => trivial

theorem fills_elements {item : Step Bool} (h : Fills Always item) (closer : TokenKind)
    (otherwise : String → Stop) : Fills Always (elements item closer otherwise) :=
  fills_then h fun _ => fills_then (fills_sepTail h closer otherwise) fun _ => fills_done _

/-- An opener, and elements up to the closer unless it comes at once. -/
theorem fills_bracketed (kind : NodeKind) (closer : TokenKind) {item : Step Bool}
    (h : Fills Always item) (otherwise : String → Stop) :
    Fills Ahead (construct kind (between closer item otherwise)) := by
  refine fills_construct (fills_then (fills_liftM fills_bump) fun _ => ?_)
    (moves_then _ (moves_liftM moves_bump))
  apply fills_choose
  intro s _
  split
  · exact fills_then (fills_liftM fills_bump) fun _ => fills_done true
  · exact (fills_elements h closer otherwise).mono fun _ _ => trivial

theorem fills_list {value : Parser Bool} (h : Fills Always value) : Fills Ahead (list value) :=
  fills_bracketed .list .rbracket (fills_liftM h) _

/-- The key may be nothing but a fault; it is the colon that an entry holds for sure. -/
theorem fills_mapEntry {value : Parser Bool} (h : Fills Always value) :
    Fills Always (mapEntry value) := by
  apply fills_group
  · exact fills_then (fills_liftM h) fun _ => fills_then (fills_punct _ _ _) fun _ =>
      fills_then (fills_liftM h) fun _ => fills_done _
  · exact takes_then_right _ fun _ =>
      takes_then _ (takes_require_then _ _ _ (moves_liftM moves_bump))

theorem fills_map {value : Parser Bool} (h : Fills Always value) : Fills Ahead (map value) :=
  fills_bracketed .map .rbrace (fills_mapEntry h) _

theorem fills_arguments {value : Parser Bool} (h : Fills Always value) :
    Fills Ahead (arguments value) := by
  refine fills_bracketed .arguments .rparen (fills_choose fun s _ => ?_) _
  split
  · exact fills_stop _ _
  · exact fills_liftM (h.mono fun _ _ => trivial)

theorem fills_construction {value : Parser Bool} (h : Fills Always value) (t : Lexeme)
    {s : List Lexeme} (hs : Ahead s) :
    ((construction value).run (t :: s)).built.Each Shape.Filled := by
  have ha := fills_arguments h s hs
  exact ⟨List.cons_ne_nil _ _, ⟨List.cons_ne_nil _ _, trivial, ha⟩, trivial⟩

theorem fills_notAValue : Fills Always notAValue :=
  fills_choose fun _ _ => fills_bind (fills_skip _ _) fun _ => fills_pure false

theorem fills_valueOf {list map construction : Parser Bool} (hl : Fills Ahead list)
    (hm : Fills Ahead map)
    (hc : ∀ t s, Ahead s → (construction.run (t :: s)).built.Each Shape.Filled) :
    Fills Always (valueOf list map construction) := by
  apply fills_choose
  intro s _
  cases s with
  | nil => exact fills_notAValue.mono fun _ _ => trivial
  | cons t s =>
    have hs : ∀ r, r = t :: s → Ahead r := fun r hr => hr ▸ List.cons_ne_nil t s
    dsimp only
    split
    · exact fills_number.mono fun _ _ => trivial
    · exact (fills_literal _).mono fun _ _ => trivial
    · exact (fills_literal _).mono fun _ _ => trivial
    · exact hl.mono hs
    · exact hm.mono hs
    · split
      · exact (fills_literal _).mono fun _ _ => trivial
      · split
        · rename_i hparen
          rintro _ rfl
          exact hc t s (ahead_of_starts hparen)
        · exact (fills_literal _).mono fun _ _ => trivial
    · exact fills_notAValue.mono fun _ _ => trivial

theorem fills_tooDeep {P : List Lexeme → Prop} : Fills P tooDeep :=
  fills_bind (fills_skip _ _) fun _ => fills_pure false

theorem fills_value (room : Nat) : Fills Always (value room) := by
  induction room with
  | zero =>
    exact fills_valueOf fills_tooDeep fills_tooDeep fun t s _ =>
      fills_tooDeep (P := Always) (t :: s) trivial
  | succ room ih =>
    exact fills_valueOf (fills_list ih) (fills_map ih) fun t s hs => fills_construction ih t hs

/-! ## Tags and statements -/

theorem fills_namedArgument {value : Parser Bool} (h : Fills Always value) :
    Fills Always (namedArgument value) :=
  fills_group
    (fills_then (fills_expect _ _ _ _) fun _ => fills_then (fills_punct _ _ _) fun _ =>
      fills_liftM h)
    (takes_then _ (takes_require_then _ _ _ (moves_liftM (moves_take _))))

theorem fills_tag {value : Parser Bool} (h : Fills Always value) : Fills Ahead (tag value) := by
  refine fills_statement (fills_then (fills_liftM fills_bump) fun _ =>
    fills_then (fills_expect _ _ _ _) fun _ => fills_then (fills_choose fun s _ => ?_) fun _ =>
      fills_closing _ _ _) (moves_then _ (moves_liftM moves_bump))
  split
  · rename_i hs
    split
    · exact fills_then (fills_liftM fills_bump) fun _ =>
        fills_then (fills_elements (fills_namedArgument h) _ _) fun _ => fills_done ()
    · refine fills_then (fills_liftM ((fills_arguments h).mono ?_)) fun _ => fills_done ()
      rintro _ rfl
      exact ahead_of_starts hs
  · exact fills_done ()

theorem fills_keyword {P : List Lexeme → Prop} : Fills P keyword :=
  fills_then (fills_liftM (fills_take _)) fun _ => fills_done ()

theorem moves_keyword : Moves Ahead keyword := moves_then _ (moves_liftM (moves_take _))

theorem fills_follow {P : List Lexeme → Prop} (kind : TokenKind) (node : NodeKind)
    (wanted before : String) : Fills P (follow kind node wanted before) := fills_expect _ _ _ _

theorem fills_followPunct {P : List Lexeme → Prop} (kind : TokenKind) (wanted before : String) :
    Fills P (followPunct kind wanted before) := fills_punct _ _ _

theorem fills_terminator {P : List Lexeme → Prop} (before : String) :
    Fills P (terminator before) := fills_closing _ _ _

theorem fills_packageStatement : Fills Ahead packageStatement :=
  fills_statement (fills_then fills_keyword fun _ => fills_then (fills_follow _ _ _ _) fun _ =>
    fills_terminator _) (moves_then _ moves_keyword)

theorem fills_importStatement : Fills Ahead importStatement :=
  fills_statement (fills_then fills_keyword fun _ => fills_then (fills_follow _ _ _ _) fun _ =>
    fills_terminator _) (moves_then _ moves_keyword)

theorem fills_settingStatement : Fills Ahead settingStatement := by
  refine fills_statement (fills_then fills_keyword fun _ =>
    fills_then (fills_follow _ _ _ _) fun _ => fills_then (fills_followPunct _ _ _) fun _ =>
      fills_then (fills_choose fun s _ => ?_) fun _ => fills_terminator _)
    (moves_then _ moves_keyword)
  split
  · exact fills_liftM (fills_take _)
  · exact fills_stop _ _

theorem fills_enumValue : Fills Ahead enumValue :=
  fills_statement (fills_then (fills_liftM (fills_take _)) fun _ =>
    fills_then (fills_followPunct _ _ _) fun _ => fills_then (fills_follow _ _ _ _) fun _ =>
      fills_terminator _) (moves_then _ (moves_liftM (moves_take _)))

theorem fills_componentId : Fills Ahead componentId :=
  fills_statement (fills_then fills_keyword fun _ => fills_then (fills_followPunct _ _ _) fun _ =>
    fills_then (fills_follow _ _ _ _) fun _ => fills_terminator _) (moves_then _ moves_keyword)

theorem fills_typeParameters {P : List Lexeme → Prop} (base : String) :
    Fills P (typeParameters base) := by
  apply fills_then (fills_liftM fills_bump)
  intro _
  split
  · exact fills_stop _ _
  · refine fills_then (fills_follow _ _ _ _) fun _ =>
      fills_then (fills_sepTail (fills_follow _ _ _ _) _ _) fun _ => ?_
    split
    · exact fills_done _
    · exact fills_stop _ _

theorem fills_fieldType : Fills Ahead fieldType := by
  have hgroup : ∀ transient : Bool, Fills Ahead (group .fieldType (fun _ => true) do
      let base ← take .typeName
      Step.choose fun s =>
        if starts .langle s then typeParameters base
        else if transient then stop .statement (.transientScalar base)
        else pure base) := by
    intro transient
    refine fills_group (fills_then (fills_liftM (fills_take _)) fun _ =>
      fills_choose fun s _ => ?_) (Takes.of_moves (moves_then _ (moves_liftM (moves_take _))))
    split
    · exact fills_typeParameters _
    · split
      · exact fills_stop _ _
      · exact fills_done _
  apply fills_choose
  intro s hs
  dsimp only
  split
  · exact fills_then fills_keyword fun _ => fills_require_then _ _ _ (hgroup true)
  · exact (hgroup false).mono fun r hr => hr ▸ hs

/-- The type of a field takes its first lexeme, be it a keyword or a name, before it can stop. -/
theorem moves_fieldType : Moves Ahead fieldType := by
  apply moves_choose
  intro s hs
  dsimp only
  split
  · exact (moves_then _ moves_keyword).mono fun r hr => hr ▸ hs
  · exact (moves_group (moves_then _ (moves_liftM (moves_take _)))).mono fun r hr => hr ▸ hs

theorem fills_field : Fills Ahead field := by
  refine fills_statement (fills_then fills_fieldType fun _ =>
    fills_then (fills_follow _ _ _ _) fun _ => fills_choose fun s _ => ?_)
    (moves_then _ moves_fieldType)
  split
  · exact fills_then (fills_liftM fills_bump) fun _ => fills_then (fills_follow _ _ _ _) fun _ =>
      fills_terminator _
  · exact fills_closing _ _ _

theorem fills_memberType {P : List Lexeme → Prop} (word : String) : Fills P (memberType word) :=
  fills_then fills_keyword fun _ => fills_require_then _ _ _ fills_fieldType

theorem fills_dataMember : Fills Ahead dataMember :=
  fills_statement (fills_then (fills_memberType _) fun _ => fills_terminator _)
    (moves_then _ (moves_then _ moves_keyword))

theorem fills_eventMember : Fills Ahead eventMember :=
  fills_statement (fills_then (fills_memberType _) fun _ => fills_then (fills_follow _ _ _ _)
    fun _ => fills_terminator _) (moves_then _ (moves_then _ moves_keyword))

theorem fills_commandMember : Fills Ahead commandMember :=
  fills_statement (fills_then fills_keyword fun _ => fills_then (fills_follow _ _ _ _) fun _ =>
    fills_then (fills_follow _ _ _ _) fun _ => fills_then (fills_followPunct _ _ _) fun _ =>
    fills_then (fills_follow _ _ _ _) fun _ => fills_then (fills_followPunct _ _ _) fun _ =>
    fills_terminator _) (moves_then _ moves_keyword)

/-! ## Members and files -/

theorem fills_present {P : List Lexeme → Prop} {p : Parser Unit} (h : Fills P p) :
    Fills P (present p) := fills_bind h fun _ => fills_pure true

theorem fills_present_of_starts {kind : TokenKind} {s : List Lexeme} {p : Parser Unit}
    (hp : Fills Ahead p) (h : starts kind s = true) : Fills (· = s) (present p) :=
  (fills_present hp).mono fun _ hr => hr ▸ ahead_of_starts h

theorem fills_present_of_startsWord {word : String} {s : List Lexeme} {p : Parser Unit}
    (hp : Fills Ahead p) (h : startsWord word s = true) : Fills (· = s) (present p) :=
  (fills_present hp).mono fun _ hr => hr ▸ ahead_of_startsWord h

theorem fills_absent {P : List Lexeme → Prop} : Fills P absent := fills_pure false

theorem fills_block (kind : NodeKind) (word : String) {member : Parser Bool}
    (h : Fills Always member) : Fills Ahead (block kind word member) :=
  fills_statement (fills_then fills_keyword fun _ => fills_then (fills_expect _ _ _ _) fun _ =>
    fills_then (fills_punct _ _ _) fun _ => fills_then (fills_liftM (fills_members h)) fun _ =>
    fills_punct _ _ _) (moves_then _ moves_keyword)

theorem fills_nested {p : Nat → Parser Unit} (h : ∀ room, Fills Ahead (p room)) (room : Nat) :
    Fills Ahead (nested p room) := by
  cases room with
  | zero => exact fun s hs => fills_tooDeep s hs
  | succ room => exact h room

theorem fills_enumMember (room : Nat) : Fills Always (enumMember room) := by
  apply fills_choose
  intro s _
  split
  · exact fills_present_of_starts (fills_tag (fills_value room)) ‹_›
  · split
    · exact fills_present_of_starts fills_enumValue ‹_›
    · exact fills_absent

theorem fills_enumDefinition (room : Nat) : Fills Ahead (enumDefinition room) :=
  fills_nested (fun room => fills_block _ _ (fills_enumMember room)) room

theorem fills_typeMember (room : Nat) {typeDefinition : Parser Unit}
    (h : Fills Ahead typeDefinition) : Fills Always (typeMember room typeDefinition) := by
  apply fills_choose
  intro s _
  split
  · rename_i hs
    exact fills_present_of_startsWord fills_settingStatement (Bool.and_eq_true _ _ ▸ hs).1
  split
  · exact fills_present_of_starts (fills_tag (fills_value room)) ‹_›
  split
  · exact fills_present_of_startsWord (fills_enumDefinition room) ‹_›
  split
  · exact fills_present_of_startsWord h ‹_›
  split
  · exact fills_present_of_starts fills_field ‹_›
  · exact fills_absent

theorem fills_typeDefinition (room : Nat) : Fills Ahead (typeDefinition room) := by
  induction room with
  | zero => exact fun s hs => fills_tooDeep s hs
  | succ room ih => exact fills_block _ _ (fills_typeMember room ih)

theorem fills_componentMember (room : Nat) : Fills Always (componentMember room) := by
  apply fills_choose
  intro s _
  split
  · rename_i hs
    exact fills_present_of_startsWord fills_settingStatement (Bool.and_eq_true _ _ ▸ hs).1
  split
  · exact fills_present_of_starts (fills_tag (fills_value room)) ‹_›
  split
  · exact fills_present_of_startsWord fills_componentId ‹_›
  split
  · exact fills_present_of_startsWord fills_dataMember ‹_›
  split
  · exact fills_present_of_startsWord fills_eventMember ‹_›
  split
  · exact fills_present_of_startsWord fills_commandMember ‹_›
  split
  · exact fills_present_of_starts fills_field ‹_›
  · exact fills_absent

theorem fills_componentDefinition (room : Nat) : Fills Ahead (componentDefinition room) :=
  fills_nested (fun room => fills_block _ _ (fills_componentMember room)) room

theorem fills_topLevel (room : Nat) : Fills Always (topLevel room) := by
  apply fills_choose
  intro s _
  split
  · exact fills_absent
  split
  · exact fills_present_of_startsWord fills_packageStatement ‹_›
  split
  · exact fills_present_of_startsWord fills_importStatement ‹_›
  split
  · exact fills_present_of_startsWord fills_settingStatement ‹_›
  split
  · exact fills_present_of_startsWord (fills_enumDefinition room) ‹_›
  split
  · exact fills_present_of_startsWord (fills_typeDefinition room) ‹_›
  split
  · exact fills_present_of_startsWord (fills_componentDefinition room) ‹_›
  split
  · exact fills_present_of_starts (fills_tag (fills_value room)) ‹_›
  · exact fills_present (fills_skip _ _)

end Parse

/-- No construct of a file is empty, at any depth and whatever the file holds. -/
theorem filled_parseWith (room : Nat) (s : List Lexeme) :
    (parseWith room s).Each Shape.Filled :=
  Parser.fills_members (P := Always) (Parse.fills_topLevel room) s trivial

end SchemaLang
