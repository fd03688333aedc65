import SchemaLang.Proofs.Building
import SchemaLang.Proofs.Forest

/-!
# What a step that stops says

A step names what it wanted and what it found instead. No step says that a
lexeme stands there for no reason: only a loop does, when a member that applies
takes nothing. So rows of values, tags and statements hold no such fault, and
definitions hold none as long as their members take something.
-/

set_option autoImplicit false

namespace SchemaLang

/-! ## Faults of idle members -/

def Fault.isStray : Fault → Bool
  | stray _ => true
  | _ => false

/-- The message of a fault for which a member that took nothing is to blame. -/
theorem Fault.message_of_not_stray (fault : Fault) (h : fault.isStray = false) :
    ¬"Unexpected '".toList <+: fault.message.toList := by
  -- every other message is told from it by one of its first letters
  delta message
  cases fault with
  | stray found => cases h
  | _ =>
    dsimp only [toString]
    simp

/-- No lexeme was skipped for a member that took nothing. -/
def Orderly (row : Row) : Prop :=
  row.Each fun shape _ => ∀ fault, shape.fault? = some fault → fault.isStray = false

theorem joins_orderly : Joins Orderly :=
  ⟨trivial, fun _ => trivial, fun hf hg => (Forest.each_append _ _ _).mpr ⟨hf, hg⟩⟩

theorem orderly_construct (kind : NodeKind) (complete : Bool) {inside : Row} (h : Orderly inside) :
    Orderly (.node (.construct kind complete) inside .nil) :=
  ⟨fun _ hfault => (by cases hfault), h, trivial⟩

theorem orderly_skipped {fault : Fault} (h : fault.isStray = false) (ls : List Lexeme) :
    Orderly (.node (.skipped fault) (.ofTokens ls) .nil) :=
  ⟨fun _ hfault => Option.some.inj hfault ▸ h, Forest.each_ofTokens _ _, trivial⟩

theorem orderly_of_worded {row : Row} (h : Worded row) : Orderly row := by
  induction h with
  | nil => trivial
  | leaf t _ ih => exact ih
  | lexeme _ _ _ ih => exact joins_orderly.append (orderly_construct _ _ (joins_orderly.leaf _)) ih

theorem orderly_of_simple {row : Row} (h : Simple row) : Orderly row := by
  induction h with
  | nil => trivial
  | leaf t _ ih => exact ih
  | lexeme _ _ _ ih => exact joins_orderly.append (orderly_construct _ _ (joins_orderly.leaf _)) ih
  | type hinside _ ih =>
    exact joins_orderly.append (orderly_construct _ _ (orderly_of_worded hinside.worded)) ih

namespace Step

open SchemaLang.Parser

variable {α β : Type}

def Blames (p : Step α) : Prop :=
  ∀ s e, (Parser.run p s).value = .error e → e.fault.isStray = false

theorem blames_done (a : α) : Blames (pure a : Step α) := fun s e h => by
  rw [Step.run_pure] at h
  cases h

theorem blames_liftM (p : Parser α) : Blames (liftM p : Step α) := fun s e h => by
  rw [run_liftM] at h
  cases h

theorem blames_stop (recovery : Recovery) {fault : Fault} (h : fault.isStray = false) :
    Blames (stop recovery fault : Step α) := fun s e he => by
  rw [run_stop] at he
  cases he
  exact h

theorem blames_choose {f : List Lexeme → Step α} (h : ∀ s, Blames (f s)) :
    Blames (Step.choose f) := fun s => h s s

theorem blames_then {p : Step α} {f : α → Step β} (hp : Blames p) (hf : ∀ a, Blames (f a)) :
    Blames (p >>= f : Step β) := by
  intro s e he
  cases hvalue : (Parser.run p s).value with
  | error e' =>
    rw [run_bind_of_error f hvalue] at he
    cases he
    exact hp s e hvalue
  | ok a =>
    rw [run_bind_of_ok f hvalue] at he
    exact hf a _ e he

theorem blames_require (kind : TokenKind) (recovery : Recovery) {fault : String → Fault}
    (h : ∀ found, (fault found).isStray = false) : Blames (require kind recovery fault) := by
  refine blames_choose fun s => ?_
  split
  · exact blames_done ()
  · exact blames_stop recovery (h _)

theorem blames_punct (kind : TokenKind) (recovery : Recovery) {fault : String → Fault}
    (h : ∀ found, (fault found).isStray = false) : Blames (punct kind recovery fault) :=
  blames_then (blames_require kind recovery h) fun _ => blames_liftM _

theorem blames_expect (kind : TokenKind) (node : NodeKind) (recovery : Recovery)
    {fault : String → Fault} (h : ∀ found, (fault found).isStray = false) :
    Blames (expect kind node recovery fault) :=
  blames_then (blames_require kind recovery h) fun _ => blames_liftM _

theorem blames_closing (closer : TokenKind) (recovery : Recovery) {fault : String → Fault}
    (h : ∀ found, (fault found).isStray = false) : Blames (closing closer recovery fault) := by
  refine blames_choose fun s => ?_
  split
  · exact blames_liftM _
  · split
    · exact blames_stop _ (h _)
    · exact blames_stop _ (h _)

theorem blames_sepTail {item : Step α} (hitem : Blames item) (closer : TokenKind)
    {otherwise : String → Stop} (h : ∀ found, (otherwise found).fault.isStray = false) :
    Blames (sepTail item closer otherwise) := by
  intro s e he
  change (sepTail.loop item closer otherwise s).value = .error e at he
  fun_induction sepTail.loop item closer otherwise s with
  | case1 =>
    cases he
    exact h _
  | case2 => cases he
  | case3 t s hc hcomma o e' ho =>
    cases he
    exact hitem s e ho
  | case4 t s hc hcomma o a ho r ih =>
    cases hr : r.value with
    | error e' =>
      rw [hr] at he
      cases he
      exact ih hr
    | ok =>
      rw [hr] at he
      cases he
  | case5 =>
    cases he
    exact h _

theorem blames_group {body : Step α} (h : Blames body) (kind : NodeKind)
    (complete : α → Bool) : Blames (group kind complete body) := by
  intro s e he
  rw [run_group] at he
  split at he
  · cases he
  · exact h s e he

end Step

open SchemaLang.Parser SchemaLang.Parse Step

/-! ## Constructs and values -/

theorem orderly_skip {fault : Fault} (h : fault.isStray = false) (extent : List Lexeme → Nat) :
    Yields Orderly (skip fault extent) := fun _ => orderly_skipped h _

theorem orderly_constructOf {body : Step Bool} (hbody : Yields Orderly body) (h : Blames body)
    (kind : NodeKind) : Yields Orderly (construct kind body) := by
  intro s
  cases hvalue : (run body s).value with
  | ok sound =>
    rw [run_construct_of_ok hvalue]
    exact orderly_construct _ _ (hbody s)
  | error e =>
    rw [run_construct_of_error hvalue]
    exact joins_orderly.append (orderly_construct kind false (hbody s))
      (orderly_skipped (h s e hvalue) _)

theorem orderly_statement {body : Step Unit} {s : List Lexeme} (hbody : Orderly (run body s).built)
    (h : Blames body) (kind : NodeKind) : Orderly ((statement kind body).run s).built := by
  cases hvalue : (run body s).value with
  | ok =>
    rw [run_statement_of_ok hvalue]
    exact orderly_construct _ _ hbody
  | error e =>
    rw [run_statement_of_error hvalue]
    exact joins_orderly.append (orderly_construct kind false hbody)
      (orderly_skipped (h s e hvalue) _)

theorem orderly_group {α : Type} {body : Step α} (h : Yields Orderly body) (kind : NodeKind)
    (complete : α → Bool) : Yields Orderly (group kind complete body) := by
  intro s
  rw [run_group]
  split
  · exact orderly_construct _ _ (h s)
  · exact h s

theorem orderly_take (kind : NodeKind) : Yields Orderly (take kind) := by
  rintro (_ | ⟨t, s⟩)
  · trivial
  · exact orderly_construct _ _ (joins_orderly.leaf t)

theorem orderly_expect (kind : TokenKind) (node : NodeKind) (recovery : Recovery)
    (fault : String → Fault) : Yields Orderly (expect kind node recovery fault) :=
  yields_then joins_orderly (yields_require joins_orderly _ _ _) fun _ =>
    yields_liftM (orderly_take node)

theorem orderly_literal (kind : NodeKind) : Yields Orderly (literal kind) :=
  .bind joins_orderly (orderly_take kind) fun _ => .pure joins_orderly true

theorem orderly_number : Yields Orderly number := by
  refine yields_choose fun s => ?_
  split
  · exact orderly_constructOf
      (yields_then joins_orderly (yields_liftM (.bump joins_orderly)) fun _ =>
        yields_then joins_orderly (yields_liftM (.bump joins_orderly)) fun _ =>
        yields_then joins_orderly (yields_punct joins_orderly _ _ _) fun _ =>
          yields_done joins_orderly true)
      (blames_then (blames_liftM _) fun _ => blames_then (blames_liftM _) fun _ =>
        blames_then (blames_punct _ _ fun _ => rfl) fun _ => blames_done true) _
  · exact orderly_literal _

section

variable {item : Step Bool} (hitem : Yields Orderly item) (h : Blames item)
include hitem h

omit hitem in
theorem blames_elements {closer : TokenKind} {otherwise : String → Stop}
    (ho : ∀ found, (otherwise found).fault.isStray = false) :
    Blames (elements item closer otherwise) :=
  blames_then h fun _ => blames_then (blames_sepTail h _ ho) fun _ => blames_done _

/-- An opener, and elements up to the closer unless it comes at once. -/
theorem orderly_bracketed (kind : NodeKind) {closer : TokenKind} {otherwise : String → Stop}
    (ho : ∀ found, (otherwise found).fault.isStray = false) :
    Yields Orderly (construct kind (between closer item otherwise)) := by
  refine orderly_constructOf (yields_between joins_orderly hitem _ _)
    (blames_then (blames_liftM _) fun _ => blames_choose fun s => ?_) kind
  split
  · exact blames_then (blames_liftM _) fun _ => blames_done true
  · exact blames_elements h ho

end

section

variable {value : Parser Bool} (h : Yields Orderly value)
include h

theorem orderly_list : Yields Orderly (list value) :=
  orderly_bracketed (yields_liftM h) (blames_liftM _) .list fun _ => rfl

theorem orderly_map : Yields Orderly (map value) :=
  orderly_bracketed
    (orderly_group (yields_then joins_orderly (yields_liftM h) fun _ =>
      yields_then joins_orderly (yields_punct joins_orderly _ _ _) fun _ =>
      yields_then joins_orderly (yields_liftM h) fun _ => yields_done joins_orderly _) _ _)
    (blames_group (blames_then (blames_liftM _) fun _ =>
      blames_then (blames_punct _ _ fun _ => rfl) fun _ => blames_then (blames_liftM _) fun _ =>
        blames_done _) _ _) .map fun _ => rfl

theorem orderly_arguments : Yields Orderly (arguments value) := by
  refine orderly_bracketed (yields_choose fun s => ?_) (blames_choose fun s => ?_) .arguments
    fun _ => rfl
  · split
    · exact yields_stop joins_orderly _ _
    · exact yields_liftM h
  · split
    · exact blames_stop _ rfl
    · exact blames_liftM _

theorem orderly_construction : Yields Orderly (construction value) := by
  have hsteps : Yields Orderly (do
      let _ ← take .constructorName
      arguments value) :=
    .bind joins_orderly (orderly_take _) fun _ => orderly_arguments h
  exact fun s => orderly_construct _ _ (hsteps s)

end

theorem orderly_notAValue : Yields Orderly notAValue :=
  yields_choose fun _ => .bind joins_orderly (orderly_skip rfl _) fun _ => .pure joins_orderly false

theorem orderly_tooDeep : Yields Orderly tooDeep :=
  .bind joins_orderly (orderly_skip rfl _) fun _ => .pure joins_orderly false

theorem orderly_valueOf {list map construction : Parser Bool} (hlist : Yields Orderly list)
    (hmap : Yields Orderly map) (hconstruction : Yields Orderly construction) :
    Yields Orderly (valueOf list map construction) := by
  refine yields_choose fun s => ?_
  split
  · exact orderly_notAValue
  split
  · exact orderly_number
  · exact orderly_literal _
  · exact orderly_literal _
  · exact hlist
  · exact hmap
  · split
    · exact orderly_literal _
    · split
      · exact hconstruction
      · exact orderly_literal _
  · exact orderly_notAValue

theorem orderly_value (room : Nat) : Yields Orderly (value room) := by
  induction room with
  | zero => exact orderly_valueOf orderly_tooDeep orderly_tooDeep orderly_tooDeep
  | succ room ih =>
    exact orderly_valueOf (orderly_list ih) (orderly_map ih) (orderly_construction ih)

/-! ## Tags and statements -/

theorem orderly_namedArgument {value : Parser Bool} (h : Yields Orderly value) :
    Yields Orderly (namedArgument value) :=
  orderly_group (yields_then joins_orderly (orderly_expect _ _ _ _) fun _ =>
    yields_then joins_orderly (yields_punct joins_orderly _ _ _) fun _ => yields_liftM h) _ _

theorem blames_namedArgument (value : Parser Bool) : Blames (namedArgument value) :=
  blames_group (blames_then (blames_expect _ _ _ fun _ => rfl) fun _ =>
    blames_then (blames_punct _ _ fun _ => rfl) fun _ => blames_liftM _) _ _

theorem orderly_tag {value : Parser Bool} (h : Yields Orderly value) :
    Yields Orderly (tag value) := by
  refine fun s => orderly_statement
    (yields_then joins_orderly (yields_liftM (.bump joins_orderly)) (fun _ =>
      yields_then joins_orderly (orderly_expect _ _ _ _) fun _ =>
      yields_then joins_orderly (yields_choose fun s => ?_) fun _ =>
        yields_closing joins_orderly _ _ _) s)
    (blames_then (blames_liftM _) fun _ => blames_then (blames_expect _ _ _ fun _ => rfl) fun _ =>
      blames_then (blames_choose fun s => ?_) fun _ => blames_closing _ _ fun _ => rfl) _
  · split
    · split
      · exact yields_then joins_orderly (yields_liftM (.bump joins_orderly)) fun _ =>
          yields_then joins_orderly
            (yields_elements joins_orderly (orderly_namedArgument h) _ _) fun _ =>
            yields_done joins_orderly ()
      · exact yields_then joins_orderly (yields_liftM (orderly_arguments h)) fun _ =>
          yields_done joins_orderly ()
    · exact yields_done joins_orderly ()
  · split
    · split
      · exact blames_then (blames_liftM _) fun _ =>
          blames_then (blames_elements (blames_namedArgument value) fun _ => rfl) fun _ =>
            blames_done ()
      · exact blames_then (blames_liftM _) fun _ => blames_done ()
    · exact blames_done ()

theorem blames_keyword : Blames keyword := blames_then (blames_liftM _) fun _ => blames_done ()

theorem blames_follow (kind : TokenKind) (node : NodeKind) (wanted before : String) :
    Blames (follow kind node wanted before) := blames_expect _ _ _ fun _ => rfl

theorem blames_followPunct (kind : TokenKind) (wanted before : String) :
    Blames (followPunct kind wanted before) := blames_punct _ _ fun _ => rfl

theorem blames_terminator (before : String) : Blames (terminator before) :=
  blames_closing _ _ fun _ => rfl

theorem blames_typeParameters (base : String) : Blames (typeParameters base) := by
  refine blames_then (blames_liftM _) fun _ => ?_
  split
  · exact blames_stop _ rfl
  · refine blames_then (blames_follow _ _ _ _) fun _ =>
      blames_then (blames_sepTail (blames_follow _ _ _ _) _ fun _ => rfl) fun _ => ?_
    split
    · exact blames_done _
    · exact blames_stop _ rfl

theorem blames_fieldType : Blames fieldType := by
  have hgroup (transient : Bool) : Blames (group .fieldType (fun _ => true) do
      let base ← take .typeName
      Step.choose fun s =>
        if starts .langle s then typeParameters base
        else if transient then stop .statement (.transientScalar base)
        else pure base) := by
    refine blames_group (blames_then (blames_liftM _) fun _ => blames_choose fun s => ?_) _ _
    split
    · exact blames_typeParameters _
    · split
      · exact blames_stop _ rfl
      · exact blames_done _
  refine blames_choose fun s => ?_
  dsimp only
  split
  · exact blames_then blames_keyword fun _ => blames_then (blames_require _ _ fun _ => rfl) fun _ =>
      hgroup true
  · exact hgroup false

theorem blames_memberType (word : String) : Blames (memberType word) :=
  blames_then blames_keyword fun _ => blames_then (blames_require _ _ fun _ => rfl) fun _ =>
    blames_fieldType

theorem exists_built_statement (kind : NodeKind) (body : Step Unit) (s : List Lexeme) :
    ∃ sound next, ((statement kind body).run s).built =
      .node (.construct kind sound) (run body s).built next := by
  cases hvalue : (run body s).value with
  | ok => exact ⟨true, _, by rw [run_statement_of_ok hvalue]⟩
  | error e => exact ⟨false, _, by rw [run_statement_of_error hvalue]⟩

/-- Where the steps of a statement build a simple row, the fault that they may
stop with is all there is to look at. -/
theorem orderly_of_brief {ahead : List Lexeme → Prop} {kind : NodeKind} {body : Step Unit}
    (h : Brief ahead kind (statement kind body)) (hblames : Blames body) {s : List Lexeme}
    (hs : ahead s) : Orderly ((statement kind body).run s).built := by
  obtain ⟨body', heq, hsimple⟩ := h
  obtain ⟨_, _, hrow⟩ := exists_built_statement kind body s
  obtain ⟨_, _, hrow'⟩ := exists_built_statement kind body' s
  rw [heq] at hrow
  obtain ⟨-, hsame, -⟩ := Forest.node.inj (hrow.symm.trans hrow')
  refine orderly_statement ?_ hblames kind
  rw [hsame]
  exact orderly_of_simple (hsimple s hs)

/-- A statement that builds simple rows wherever it is read. -/
theorem orderly_of_always {kind : NodeKind} {body : Step Unit}
    (h : Brief (fun _ => True) kind (statement kind body)) (hblames : Blames body) :
    Yields Orderly (statement kind body) := fun _ => orderly_of_brief h hblames trivial

theorem orderly_packageStatement : Yields Orderly packageStatement :=
  orderly_of_always brief_packageStatement <|
    blames_then blames_keyword fun _ => blames_then (blames_follow _ _ _ _) fun _ =>
      blames_terminator _

theorem orderly_importStatement : Yields Orderly importStatement :=
  orderly_of_always brief_importStatement <|
    blames_then blames_keyword fun _ => blames_then (blames_follow _ _ _ _) fun _ =>
      blames_terminator _

theorem orderly_settingStatement : Yields Orderly settingStatement := by
  refine orderly_of_always brief_settingStatement <|
    blames_then blames_keyword fun _ => blames_then (blames_follow _ _ _ _) fun _ =>
      blames_then (blames_followPunct _ _ _) fun _ =>
      blames_then (blames_choose fun s => ?_) fun _ => blames_terminator _
  split
  · exact blames_liftM _
  · exact blames_stop _ rfl

theorem orderly_enumValue {s : List Lexeme} (hs : starts .identifier s = true) :
    Orderly (enumValue.run s).built :=
  orderly_of_brief brief_enumValue
    (blames_then (blames_liftM _) fun _ => blames_then (blames_followPunct _ _ _) fun _ =>
      blames_then (blames_follow _ _ _ _) fun _ => blames_terminator _) hs

theorem orderly_field : Yields Orderly field := by
  refine orderly_of_always brief_field <|
    blames_then blames_fieldType fun _ => blames_then (blames_follow _ _ _ _) fun _ =>
      blames_choose fun s => ?_
  split
  · exact blames_then (blames_liftM _) fun _ => blames_then (blames_follow _ _ _ _) fun _ =>
      blames_terminator _
  · exact blames_closing _ _ fun _ => rfl

theorem orderly_componentId : Yields Orderly componentId :=
  orderly_of_always brief_componentId <|
    blames_then blames_keyword fun _ => blames_then (blames_followPunct _ _ _) fun _ =>
      blames_then (blames_follow _ _ _ _) fun _ => blames_terminator _

theorem orderly_dataMember : Yields Orderly dataMember :=
  orderly_of_always brief_dataMember <|
    blames_then (blames_memberType _) fun _ => blames_terminator _

theorem orderly_eventMember : Yields Orderly eventMember :=
  orderly_of_always brief_eventMember <|
    blames_then (blames_memberType _) fun _ => blames_then (blames_follow _ _ _ _) fun _ =>
      blames_terminator _

theorem orderly_commandMember : Yields Orderly commandMember :=
  orderly_of_always brief_commandMember <|
    blames_then blames_keyword fun _ => blames_then (blames_follow _ _ _ _) fun _ =>
      blames_then (blames_follow _ _ _ _) fun _ => blames_then (blames_followPunct _ _ _) fun _ =>
      blames_then (blames_follow _ _ _ _) fun _ => blames_then (blames_followPunct _ _ _) fun _ =>
      blames_terminator _

end SchemaLang
