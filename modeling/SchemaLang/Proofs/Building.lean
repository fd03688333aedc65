import SchemaLang.Proofs.Steps

/-!
# What steps build

A property of rows that holds of punctuation and of rows side by side passes
from steps to whatever is put together of them. Most statements hold keywords,
names, numbers and field types only: beside punctuation their steps build whole
constructs over one lexeme, and field types made of these.
-/

set_option autoImplicit false

namespace SchemaLang

structure Joins (P : Row → Prop) : Prop where
  nil : P .nil
  leaf (t : Lexeme) : P (.leaf t .nil)
  append {f g : Row} : P f → P g → P (f ++ g)

namespace Parser

variable {α β : Type} {P Q : Row → Prop}

/-- Whatever the input, the parser builds a row with the property. -/
def Yields (P : Row → Prop) (p : Parser α) : Prop := ∀ s, P (p.run s).built

theorem Yields.mono {p : Parser α} (hp : Yields P p) (h : ∀ row, P row → Q row) : Yields Q p :=
  fun s => h _ (hp s)

theorem yields_choose {f : List Lexeme → Parser α} (h : ∀ s, Yields P (f s)) :
    Yields P (choose f) := fun s => h s s

namespace Yields

variable (hP : Joins P)
include hP

theorem pure (a : α) : Yields P (pure a : Parser α) := fun _ => hP.nil

theorem bind {p : Parser α} {f : α → Parser β} (hp : Yields P p) (hf : ∀ a, Yields P (f a)) :
    Yields P (p >>= f) := fun s => hP.append (hp s) (hf _ _)

theorem bump : Yields P bump := by
  rintro (_ | ⟨t, s⟩)
  · exact hP.nil
  · exact hP.leaf t

theorem members {member : Parser Bool} (h : Yields P member)
    (hskip : ∀ t, P (.node (.skipped (.stray t.text)) (.leaf t .nil) .nil)) :
    Yields P (members member) := by
  intro s
  show P (members.loop member s).built
  fun_induction members.loop member s with
  | case1 s o hv hlt r ih => exact hP.append (h s) ih
  | case2 s o hv hlt hr => exact h s
  | case3 s o hv hlt t rest hr r ih => exact hP.append (h s) (hP.append (hskip t) ih)
  | case4 s o hv => exact h s

end Yields

end Parser

namespace Step

open SchemaLang.Parser

variable {α β : Type} {P : Row → Prop} (hP : Joins P)
include hP

theorem yields_done (a : α) : Yields P (pure a : Step α) := fun _ => hP.nil

omit hP in
theorem yields_liftM {p : Parser α} (hp : Yields P p) : Yields P (liftM p : Step α) := by
  intro s
  rw [run_liftM]
  exact hp s

theorem yields_stop (recovery : Recovery) (fault : Fault) :
    Yields P (stop recovery fault : Step α) := fun _ => hP.nil

theorem yields_then {p : Step α} {f : α → Step β} (hp : Yields P p)
    (hf : ∀ a, Yields P (f a)) : Yields P (p >>= f : Step β) := by
  intro s
  cases h : (Parser.run p s).value with
  | error e =>
    rw [run_bind_of_error f h]
    exact hp s
  | ok a =>
    rw [run_bind_of_ok f h]
    exact hP.append (hp s) (hf a _)

theorem yields_require (kind : TokenKind) (recovery : Recovery) (fault : String → Fault) :
    Yields P (require kind recovery fault) := by
  apply yields_choose
  intro s
  split
  · exact yields_done hP ()
  · exact yields_stop hP _ _

theorem yields_punct (kind : TokenKind) (recovery : Recovery) (fault : String → Fault) :
    Yields P (punct kind recovery fault) :=
  yields_then hP (yields_require hP _ _ _) fun _ => yields_liftM (.bump hP)

theorem yields_closing (closer : TokenKind) (recovery : Recovery) (fault : String → Fault) :
    Yields P (closing closer recovery fault) := by
  apply yields_choose
  intro s
  split
  · exact yields_liftM (.bump hP)
  · split
    · exact yields_stop hP _ _
    · exact yields_stop hP _ _

theorem yields_sepTail {item : Step α} (h : Yields P item) (closer : TokenKind)
    (otherwise : String → Stop) : Yields P (sepTail item closer otherwise) := by
  intro s
  show P (sepTail.loop item closer otherwise s).built
  fun_induction sepTail.loop item closer otherwise s with
  | case1 => exact hP.nil
  | case2 t s hc => exact hP.leaf t
  | case3 t s hc hcomma o e he => exact hP.append (hP.leaf t) (h s)
  | case4 t s hc hcomma o a ha r ih => exact hP.append (hP.leaf t) (hP.append (h s) ih)
  | case5 t s hc hcomma => exact hP.nil

theorem yields_elements {item : Step Bool} (h : Yields P item) (closer : TokenKind)
    (otherwise : String → Stop) : Yields P (Parse.elements item closer otherwise) :=
  yields_then hP h fun _ =>
    yields_then hP (yields_sepTail hP h _ _) fun _ => yields_done hP _

theorem yields_behindOpener {item : Step Bool} (h : Yields P item) (closer : TokenKind)
    (otherwise : String → Stop) : Yields P (Step.choose fun s =>
      if starts closer s then do
        bump
        pure true
      else Parse.elements item closer otherwise) := by
  apply yields_choose
  intro s
  split
  · exact yields_then hP (yields_liftM (.bump hP)) fun _ => yields_done hP true
  · exact yields_elements hP h closer otherwise

theorem yields_between {item : Step Bool} (h : Yields P item) (closer : TokenKind)
    (otherwise : String → Stop) : Yields P (Parse.between closer item otherwise) :=
  yields_then hP (yields_liftM (.bump hP)) fun _ => yields_behindOpener hP h closer otherwise

end Step

namespace Parse

open SchemaLang.Parser

variable {P : Row → Prop} (hP : Joins P)
include hP

theorem yields_present {p : Parser Unit} (h : Yields P p) : Yields P (present p) :=
  .bind hP h fun _ => .pure hP true

theorem yields_absent : Yields P absent := .pure hP false

end Parse

/-! ## Rows of lexemes and field types -/

def NodeKind.isLexeme : NodeKind → Bool
  | keyword | packageName | importPath | settingName | settingValue | definitionName | typeName
  | typeParameter | fieldName | fieldNumber | typeRef | fieldRef | constructorName | intValue
  | boolValue | stringValue | emptyOption | nameRef => true
  | _ => false

def NodeKind.admits : NodeKind → TokenKind → Bool
  | packageName, kind | settingName, kind | definitionName, kind | fieldName, kind
  | fieldRef, kind => kind == .identifier
  | fieldNumber, kind => kind == .integer
  | _, _ => true

inductive Worded : Row → Prop where
  | nil : Worded .nil
  | leaf (t : Lexeme) {next : Row} (h : Worded next) : Worded (.leaf t next)
  | lexeme {kind : NodeKind} (hkind : kind.isLexeme = true) {t : Lexeme}
      (ht : kind.admits t.kind = true) {next : Row} (h : Worded next) :
      Worded (.node (.construct kind true) (.leaf t .nil) next)

def Typed (inside : Row) : Prop :=
  inside = .nil ∨ ∃ t parameters, Worded parameters ∧
    inside = .node (.construct .typeName true) (.leaf t .nil) parameters

inductive Simple : Row → Prop where
  | nil : Simple .nil
  | leaf (t : Lexeme) {next : Row} (h : Simple next) : Simple (.leaf t next)
  | lexeme {kind : NodeKind} (hkind : kind.isLexeme = true) {t : Lexeme}
      (ht : kind.admits t.kind = true) {next : Row} (h : Simple next) :
      Simple (.node (.construct kind true) (.leaf t .nil) next)
  | type {inside next : Row} (hinside : Typed inside) (h : Simple next) :
      Simple (.node (.construct .fieldType true) inside next)

theorem Worded.append {f g : Row} (hf : Worded f) (hg : Worded g) : Worded (f ++ g) := by
  induction hf with
  | nil => exact hg
  | leaf t _ ih => exact ih.leaf t
  | lexeme hkind ht _ ih => exact ih.lexeme hkind ht

theorem joins_worded : Joins Worded := ⟨.nil, fun t => .leaf t .nil, .append⟩

theorem Worded.simple {f : Row} (hf : Worded f) : Simple f := by
  induction hf with
  | nil => exact .nil
  | leaf t _ ih => exact ih.leaf t
  | lexeme hkind ht _ ih => exact ih.lexeme hkind ht

theorem Simple.append {f g : Row} (hf : Simple f) (hg : Simple g) : Simple (f ++ g) := by
  induction hf with
  | nil => exact hg
  | leaf t _ ih => exact ih.leaf t
  | lexeme hkind ht _ ih => exact ih.lexeme hkind ht
  | type hinside _ ih => exact ih.type hinside

theorem Typed.worded {inside : Row} (h : Typed inside) : Worded inside := by
  obtain rfl | ⟨t, parameters, hparameters, rfl⟩ := h
  · exact .nil
  · exact hparameters.lexeme rfl rfl

theorem joins_simple : Joins Simple := ⟨.nil, fun t => .leaf t .nil, .append⟩

namespace Parser

theorem worded_take {kind : NodeKind} (h : kind.isLexeme = true) {s : List Lexeme}
    (hs : ∀ t rest, s = t :: rest → kind.admits t.kind = true) :
    Worded ((take kind).run s).built := by
  cases s with
  | nil => exact .nil
  | cons t s => exact .lexeme h (hs t s rfl) .nil

theorem yields_take {kind : NodeKind} (h : kind.isLexeme = true)
    (hadmits : ∀ token, kind.admits token = true) : Yields Worded (take kind) :=
  fun _ => worded_take h fun _ _ _ => hadmits _

def Brief (ahead : List Lexeme → Prop) (kind : NodeKind) (p : Parser Unit) : Prop :=
  ∃ body : Step Unit, p = statement kind body ∧ ∀ s, ahead s → Simple (run body s).built

variable {ahead later : List Lexeme → Prop}

theorem brief_of_yields {kind : NodeKind} {body : Step Unit} (h : Yields Simple body) :
    Brief ahead kind (statement kind body) := ⟨body, rfl, fun s _ => h s⟩

theorem Brief.mono {kind : NodeKind} {p : Parser Unit} (h : Brief ahead kind p)
    (hahead : ∀ s, later s → ahead s) : Brief later kind p := by
  obtain ⟨body, hp, hbody⟩ := h
  exact ⟨body, hp, fun s hs => hbody s (hahead s hs)⟩

end Parser

namespace Step

open SchemaLang.Parser

theorem yields_expect {P : Row → Prop} (hP : Joins P) (hwords : ∀ row, Worded row → P row)
    {kind : TokenKind} {node : NodeKind} (h : node.isLexeme = true)
    (hadmits : node.admits kind = true) (recovery : Recovery) (fault : String → Fault) :
    Yields P (expect kind node recovery fault) := by
  intro s
  cases hs : starts kind s with
  | true =>
    cases s with
    | nil => cases hs
    | cons t s =>
      have ht : t.kind = kind := by simpa [starts] using hs
      rw [run_expect ht]
      exact hwords _ (.lexeme h (ht ▸ hadmits) .nil)
  | false =>
    rw [run_expect_of_not_starts node recovery fault hs]
    exact hP.nil

end Step

namespace Parse

open SchemaLang.Parser Step

variable {ahead : List Lexeme → Prop}

theorem yields_keyword : Yields Worded keyword :=
  yields_then joins_worded (yields_liftM (yields_take rfl fun _ => rfl)) fun _ =>
    yields_done joins_worded ()

theorem simple_keyword : Yields Simple keyword := yields_keyword.mono fun _ => Worded.simple

theorem simple_follow {kind : TokenKind} {node : NodeKind} (h : node.isLexeme = true)
    (hadmits : node.admits kind = true) (wanted before : String) :
    Yields Simple (follow kind node wanted before) :=
  yields_expect joins_simple (fun _ => Worded.simple) h hadmits _ _

theorem simple_followPunct (kind : TokenKind) (wanted before : String) :
    Yields Simple (followPunct kind wanted before) := yields_punct joins_simple _ _ _

theorem simple_terminator (before : String) : Yields Simple (terminator before) :=
  yields_closing joins_simple _ _ _

theorem yields_typeParameters (base : String) : Yields Worded (typeParameters base) := by
  have hparameter (before : String) : Yields Worded (typeParameter before) :=
    yields_expect joins_worded (fun _ h => h) rfl rfl _ _
  apply yields_then joins_worded (yields_liftM (.bump joins_worded))
  intro _
  split
  · exact yields_stop joins_worded _ _
  · refine yields_then joins_worded (hparameter _) fun _ =>
      yields_then joins_worded (yields_sepTail joins_worded (hparameter _) _ _) fun _ => ?_
    split
    · exact yields_done joins_worded _
    · exact yields_stop joins_worded _ _

theorem typed_fieldTypeSteps (transient : Bool) :
    Yields Typed (do
      let base ← (take .typeName : Step String)
      Step.choose fun s =>
        if starts .langle s then typeParameters base
        else if transient then stop .statement (.transientScalar base)
        else pure base : Step String) := by
  have hrest (base : String) : Yields Worded (Step.choose fun s =>
      if starts .langle s then typeParameters base
      else if transient then stop .statement (.transientScalar base)
      else pure base) := by
    apply yields_choose
    intro s
    split
    · exact yields_typeParameters base
    · split
      · exact yields_stop joins_worded _ _
      · exact yields_done joins_worded _
  rintro (_ | ⟨t, s⟩)
  · left
    rw [run_bind_of_ok _ (by rw [run_liftM]), run_liftM]
    cases transient <;> rfl
  · right
    rw [run_bind_of_ok _ (by rw [run_liftM]), run_liftM]
    exact ⟨t, _, hrest _ s, rfl⟩

/-- When a step of a field type stops, what it took so far stands in the row itself. -/
theorem simple_fieldTypeGroup (transient : Bool) :
    Yields Simple (group .fieldType (fun _ => true) do
      let base ← take .typeName
      Step.choose fun s =>
        if starts .langle s then typeParameters base
        else if transient then stop .statement (.transientScalar base)
        else pure base) := by
  intro s
  rw [run_group]
  split
  · exact .type (typed_fieldTypeSteps transient s) .nil
  · exact (typed_fieldTypeSteps transient s).worded.simple

theorem simple_fieldType : Yields Simple fieldType := by
  apply yields_choose
  intro s
  dsimp only
  split
  · exact yields_then joins_simple simple_keyword fun _ =>
      yields_then joins_simple (yields_require joins_simple _ _ _) fun _ =>
        simple_fieldTypeGroup true
  · exact simple_fieldTypeGroup false

theorem simple_memberType (word : String) : Yields Simple (memberType word) :=
  yields_then joins_simple simple_keyword fun _ =>
    yields_then joins_simple (yields_require joins_simple _ _ _) fun _ => simple_fieldType

theorem brief_packageStatement : Brief ahead .package packageStatement :=
  brief_of_yields <| yields_then joins_simple simple_keyword fun _ =>
    yields_then joins_simple (simple_follow rfl rfl _ _) fun _ => simple_terminator _

theorem brief_importStatement : Brief ahead .importing importStatement :=
  brief_of_yields <| yields_then joins_simple simple_keyword fun _ =>
    yields_then joins_simple (simple_follow rfl rfl _ _) fun _ => simple_terminator _

theorem brief_settingStatement : Brief ahead .setting settingStatement := by
  refine brief_of_yields <| yields_then joins_simple simple_keyword fun _ =>
    yields_then joins_simple (simple_follow rfl rfl _ _) fun _ =>
    yields_then joins_simple (simple_followPunct _ _ _) fun _ =>
    yields_then joins_simple (yields_choose fun s => ?_) fun _ => simple_terminator _
  split
  · exact yields_liftM ((yields_take rfl fun _ => rfl).mono fun _ => Worded.simple)
  · exact yields_stop joins_simple _ _

/-- A member of an enum is read where its name comes next. -/
theorem brief_enumValue :
    Brief (fun s => starts .identifier s = true) .enumValue enumValue := by
  refine ⟨_, rfl, fun s hs => ?_⟩
  rw [run_bind_of_ok _ (by rw [run_liftM]), run_liftM]
  refine (Worded.simple (worded_take rfl ?_)).append
    (yields_then joins_simple (simple_followPunct _ _ _) (fun _ =>
      yields_then joins_simple (simple_follow rfl rfl _ _) fun _ => simple_terminator _) _)
  rintro t rest rfl
  exact hs

theorem brief_field : Brief ahead .field field := by
  refine brief_of_yields <| yields_then joins_simple simple_fieldType fun _ =>
    yields_then joins_simple (simple_follow rfl rfl _ _) fun _ => yields_choose fun s => ?_
  split
  · exact yields_then joins_simple (yields_liftM (.bump joins_simple)) fun _ =>
      yields_then joins_simple (simple_follow rfl rfl _ _) fun _ => simple_terminator _
  · exact yields_closing joins_simple _ _ _

theorem brief_componentId : Brief ahead .componentId componentId :=
  brief_of_yields <| yields_then joins_simple simple_keyword fun _ =>
    yields_then joins_simple (simple_followPunct _ _ _) fun _ =>
    yields_then joins_simple (simple_follow rfl rfl _ _) fun _ => simple_terminator _

theorem brief_dataMember : Brief ahead .data dataMember :=
  brief_of_yields <| yields_then joins_simple (simple_memberType _) fun _ => simple_terminator _

theorem brief_eventMember : Brief ahead .event eventMember :=
  brief_of_yields <| yields_then joins_simple (simple_memberType _) fun _ =>
    yields_then joins_simple (simple_follow rfl rfl _ _) fun _ => simple_terminator _

theorem brief_commandMember : Brief ahead .command commandMember :=
  brief_of_yields <| yields_then joins_simple simple_keyword fun _ =>
    yields_then joins_simple (simple_follow rfl rfl _ _) fun _ =>
    yields_then joins_simple (simple_follow rfl rfl _ _) fun _ =>
    yields_then joins_simple (simple_followPunct _ _ _) fun _ =>
    yields_then joins_simple (simple_follow rfl rfl _ _) fun _ =>
    yields_then joins_simple (simple_followPunct _ _ _) fun _ => simple_terminator _

theorem built_present (p : Parser Unit) (s : List Lexeme) :
    ((present p).run s).built = (p.run s).built := by
  rw [present, run_bind, Parser.run_pure, Forest.append_nil]

end Parse

/-! ## Files -/

def NodeKind.isStatement : NodeKind → Bool
  | package | importing | setting | enumValue | field | componentId | data | event | command
  | type | enum | component => true
  | _ => false

open SchemaLang.Parser SchemaLang.Parse Step

/-- A property of rows that statements and definitions pass on, so that of a
file only the tags are left to be looked at. -/
structure Passes (P : Row → Prop) : Prop where
  joins : Joins P
  simple : ∀ row, Simple row → P row
  skipped : ∀ fault ls, P (.node (.skipped fault) (.ofTokens ls) .nil)
  statement : ∀ {kind : NodeKind} {body : Step Unit} {s : List Lexeme}, kind.isStatement = true →
    P (run body s).built → P ((Parser.statement kind body).run s).built
  tag : ∀ room, Yields P (Parse.tag (value room))

namespace Passes

variable {P : Row → Prop} (hP : Passes P)
include hP

theorem absent : Yields P absent := yields_absent hP.joins

theorem present {p : Parser Unit} (h : Yields P p) : Yields P (present p) :=
  yields_present hP.joins h

theorem presentTag (room : Nat) : Yields P (Parse.present (Parse.tag (value room))) :=
  hP.present (hP.tag room)

theorem brief_at {ahead : List Lexeme → Prop} {kind : NodeKind} {p : Parser Unit}
    (h : Brief ahead kind p) (hkind : kind.isStatement = true) {s : List Lexeme} (hs : ahead s) :
    P ((Parse.present p).run s).built := by
  obtain ⟨body, rfl, hbody⟩ := h
  rw [built_present]
  exact hP.statement hkind (hP.simple _ (hbody s hs))

theorem brief {kind : NodeKind} {p : Parser Unit} (h : Brief (fun _ => True) kind p)
    (hkind : kind.isStatement = true) : Yields P (Parse.present p) :=
  fun _ => hP.brief_at h hkind trivial

theorem discard_tooDeep : Yields P (discard tooDeep) := fun _ => hP.skipped _ _

theorem block {kind : NodeKind} (hkind : kind.isStatement = true) (word : String)
    {member : Parser Bool} (h : Yields P member) : Yields P (block kind word member) := by
  have hworded (row : Row) (h : Worded row) : P row := hP.simple _ h.simple
  have hsteps : Yields P (do
      keyword
      let name ← expect .identifier .definitionName .braces fun _ =>
        .missingAfter "identifier" word
      punct .lbrace .braces fun _ => .missingAfter "'\x7b'" s!"{word} {name}"
      members member
      punct .rbrace .braces fun found => .notAMember found word name : Step Unit) :=
    yields_then hP.joins (yields_keyword.mono hworded) fun _ =>
      yields_then hP.joins (yields_expect hP.joins hworded rfl rfl _ _) fun _ =>
      yields_then hP.joins (yields_punct hP.joins _ _ _) fun _ =>
      yields_then hP.joins (yields_liftM (.members hP.joins h fun t => hP.skipped _ [t])) fun _ =>
        yields_punct hP.joins _ _ _
  exact fun s => hP.statement hkind (hsteps s)

theorem nested {p : Nat → Parser Unit} (h : ∀ room, Yields P (p room)) (room : Nat) :
    Yields P (nested p room) := by
  cases room with
  | zero => exact hP.discard_tooDeep
  | succ room => exact h room

theorem enumMember (room : Nat) : Yields P (enumMember room) := by
  intro s
  rw [Parse.enumMember, Parser.run_choose]
  split
  · exact hP.presentTag room s
  split
  · rename_i h
    exact hP.brief_at brief_enumValue rfl h
  · exact hP.absent s

theorem enumDefinition (room : Nat) : Yields P (enumDefinition room) :=
  hP.nested (fun room => hP.block rfl _ (hP.enumMember room)) room

theorem typeMember (room : Nat) {typeDefinition : Parser Unit} (h : Yields P typeDefinition) :
    Yields P (typeMember room typeDefinition) := by
  apply yields_choose
  intro s
  split
  · exact hP.brief brief_settingStatement rfl
  split
  · exact hP.presentTag room
  split
  · exact hP.present (hP.enumDefinition room)
  split
  · exact hP.present h
  split
  · exact hP.brief brief_field rfl
  · exact hP.absent

theorem typeDefinition (room : Nat) : Yields P (typeDefinition room) := by
  induction room with
  | zero => exact hP.discard_tooDeep
  | succ room ih => exact hP.block rfl _ (hP.typeMember room ih)

theorem componentMember (room : Nat) : Yields P (componentMember room) := by
  apply yields_choose
  intro s
  split
  · exact hP.brief brief_settingStatement rfl
  split
  · exact hP.presentTag room
  split
  · exact hP.brief brief_componentId rfl
  split
  · exact hP.brief brief_dataMember rfl
  split
  · exact hP.brief brief_eventMember rfl
  split
  · exact hP.brief brief_commandMember rfl
  split
  · exact hP.brief brief_field rfl
  · exact hP.absent

theorem topLevel (room : Nat) : Yields P (topLevel room) := by
  apply yields_choose
  intro s
  split
  · exact hP.absent
  split
  · exact hP.brief brief_packageStatement rfl
  split
  · exact hP.brief brief_importStatement rfl
  split
  · exact hP.brief brief_settingStatement rfl
  split
  · exact hP.present (hP.enumDefinition room)
  split
  · exact hP.present (hP.typeDefinition room)
  split
  · exact hP.present (hP.nested (fun room => hP.block rfl _ (hP.componentMember room)) room)
  split
  · exact hP.presentTag room
  · exact hP.present fun _ => hP.skipped _ _

theorem parseWith (room : Nat) (s : List Lexeme) : P (parseWith room s) :=
  Yields.members hP.joins (hP.topLevel room) (fun t => hP.skipped _ [t]) s

end Passes

end SchemaLang
