import SchemaLang.Proofs.Forest
import SchemaLang.Proofs.LineBreaks
import SchemaLang.Proofs.Steps

/-!
# What syntax faults quote

A fault quotes what was wanted, what was found, and what was read so far of the
construct at hand. The last is put together from the texts that steps hand on: names,
numbers, strings and types as they are spelled, never what stands between two lexemes.
So a fault quotes no line break, however a file is laid out. The law is carried from
steps to constructs and members together with what steps answer.
-/

set_option autoImplicit false

namespace SchemaLang

/-! ## Faults -/

namespace Fault

def quotes : Fault → List String
  | missingAfter wanted before => [wanted, before]
  | misplaced wanted _ found => [wanted, found]
  | notAMember found keyword name => [found, keyword, name]
  | unclosedTag text | notAParameter text | transientScalar text | unknownGeneric text
  | notAValue text | stray text => [text]
  | notADefinition | unclosedArguments | parameterCount _ _ | tooDeep => []

def Plain (fault : Fault) : Prop := ∀ text ∈ fault.quotes, OneLine text

theorem oneLine_message {fault : Fault} (h : fault.Plain) : OneLine fault.message := by
  delta message
  cases fault with
  | misplaced wanted place found =>
    cases place <;> simpa [Plain, quotes, OneLine, Place.name, toString] using h
  | parameterCount expected found =>
    have hnumbers := And.intro (OneLine.repr expected) (OneLine.repr found)
    simpa [OneLine, toString] using hnumbers
  | notADefinition | unclosedArguments | tooDeep => simp [OneLine]
  | _ => simpa [Plain, quotes, OneLine, toString, and_assoc] using h

theorem plain_of_none {fault : Fault} (hquotes : fault.quotes = []) : fault.Plain := by
  rw [Plain, hquotes]
  exact List.forall_mem_nil _

theorem plain_of_one {fault : Fault} {text : String} (hquotes : fault.quotes = [text])
    (h : OneLine text) : fault.Plain := by
  rwa [Plain, hquotes, List.forall_mem_singleton]

theorem plain_of_two {fault : Fault} {text other : String} (hquotes : fault.quotes = [text, other])
    (h : OneLine text) (hother : OneLine other) : fault.Plain := by
  rw [Plain, hquotes, List.forall_mem_cons, List.forall_mem_singleton]
  exact ⟨h, hother⟩

theorem plain_missingAfter {wanted before : String} (h : OneLine wanted)
    (hbefore : OneLine before) : (missingAfter wanted before).Plain := plain_of_two rfl h hbefore

end Fault

/-! ## Rows and parsers -/

def Unbroken (ls : List Lexeme) : Prop := ∀ l ∈ ls, OneLine l.text

theorem Unbroken.found {ls : List Lexeme} (h : Unbroken ls) : OneLine (found ls) := by
  cases ls with
  | nil => simp [OneLine, SchemaLang.found]
  | cons l ls => exact h l List.mem_cons_self

def PlainFaults (row : Row) : Prop :=
  row.Each fun shape _ => ∀ fault, shape.fault? = some fault → fault.Plain

namespace PlainFaults

theorem append {f g : Row} (hf : PlainFaults f) (hg : PlainFaults g) : PlainFaults (f ++ g) :=
  (Forest.each_append _ _ _).mpr ⟨hf, hg⟩

theorem construct (kind : NodeKind) (complete : Bool) {inside : Row} (h : PlainFaults inside) :
    PlainFaults (.node (.construct kind complete) inside .nil) :=
  ⟨fun _ hfault => (by cases hfault), h, trivial⟩

theorem skipped {fault : Fault} (h : fault.Plain) (ls : List Lexeme) :
    PlainFaults (.node (.skipped fault) (.ofTokens ls) .nil) :=
  ⟨fun _ hfault => Option.some.inj hfault ▸ h, Forest.each_ofTokens _ _, trivial⟩

end PlainFaults

namespace Parser

variable {α β : Type} {V : α → Prop} {W : β → Prop}

def Words (V : α → Prop) (p : Parser α) : Prop :=
  ∀ s, Unbroken s → PlainFaults (p.run s).built ∧ V (p.run s).value

abbrev Any : α → Prop := fun _ => True

theorem unbroken_rest (p : Parser α) {s : List Lexeme} (hs : Unbroken s) :
    Unbroken (p.run s).rest := by
  intro l hl
  refine hs l ?_
  rw [← p.lossless s]
  exact List.mem_append_right _ hl

theorem words_pure {a : α} (ha : V a) : Words V (pure a : Parser α) := fun _ _ => ⟨trivial, ha⟩

theorem words_bind {p : Parser α} {f : α → Parser β} (hp : Words V p)
    (hf : ∀ a, V a → Words W (f a)) : Words W (p >>= f) := by
  intro s hs
  obtain ⟨hrow, hvalue⟩ := hp s hs
  obtain ⟨hrest, hanswer⟩ := hf _ hvalue _ (p.unbroken_rest hs)
  exact ⟨hrow.append hrest, hanswer⟩

theorem words_choose {f : List Lexeme → Parser α} (h : ∀ s, Unbroken s → Words V (f s)) :
    Words V (choose f) := fun s hs => h s hs s hs

theorem words_bump : Words Any bump := by
  rintro (_ | ⟨t, s⟩) -
  · exact ⟨trivial, trivial⟩
  · exact ⟨trivial, trivial⟩

theorem words_take (kind : NodeKind) : Words OneLine (take kind) := by
  rintro (_ | ⟨t, s⟩) hs
  · exact ⟨trivial, by simp [OneLine, take]⟩
  · exact ⟨.construct _ _ trivial, hs t List.mem_cons_self⟩

theorem words_skip {fault : Fault} (h : fault.Plain) (extent : List Lexeme → Nat) :
    Words Any (skip fault extent) := fun _ _ => ⟨.skipped h _, trivial⟩

theorem words_members {member : Parser Bool} (h : Words Any member) :
    Words Any (members member) := by
  intro s hs
  refine ⟨?_, trivial⟩
  show PlainFaults (members.loop member s).built
  fun_induction members.loop member s with
  | case1 s o hv hlt r ih => exact (h s hs).1.append (ih (member.unbroken_rest hs))
  | case2 s o hv hlt hr => exact (h s hs).1
  | case3 s o hv hlt t rest hr r ih =>
    have hrest := member.unbroken_rest hs
    rw [show (member.run s).rest = t :: rest from hr] at hrest
    obtain ⟨ht, hrest⟩ := List.forall_mem_cons.mp hrest
    exact (h s hs).1.append
      ((PlainFaults.skipped (Fault.plain_of_one rfl ht) [t]).append (ih hrest))
  | case4 s o hv => exact (h s hs).1

end Parser

namespace Step

open SchemaLang.Parser

variable {α β : Type} {V : α → Prop} {W : β → Prop}

def Outcome (V : α → Prop) : Except Stop α → Prop
  | .ok a => V a
  | .error e => e.fault.Plain

def Words (V : α → Prop) (p : Step α) : Prop := Parser.Words (Outcome V) p

theorem words_done {a : α} (ha : V a) : Words V (pure a : Step α) := fun _ _ => ⟨trivial, ha⟩

theorem words_liftM {p : Parser α} (hp : p.Words V) : Words V (liftM p : Step α) := by
  intro s hs
  rw [run_liftM]
  exact hp s hs

theorem words_stop (recovery : Recovery) {fault : Fault} (h : fault.Plain) :
    Words V (stop recovery fault : Step α) := fun _ _ => ⟨trivial, h⟩

theorem words_choose {f : List Lexeme → Step α} (h : ∀ s, Unbroken s → Words V (f s)) :
    Words V (Step.choose f) := fun s hs => h s hs s hs

theorem words_then {p : Step α} {f : α → Step β} (hp : Words V p)
    (hf : ∀ a, V a → Words W (f a)) : Words W (p >>= f : Step β) := by
  intro s hs
  obtain ⟨hrow, hvalue⟩ := hp s hs
  cases h : (Parser.run p s).value with
  | error e =>
    rw [run_bind_of_error f h]
    rw [h] at hvalue
    exact ⟨hrow, hvalue⟩
  | ok a =>
    rw [run_bind_of_ok f h]
    rw [h] at hvalue
    obtain ⟨hrest, hanswer⟩ := hf a hvalue _ (Parser.unbroken_rest p hs)
    exact ⟨hrow.append hrest, hanswer⟩

theorem words_require (kind : TokenKind) (recovery : Recovery) {fault : String → Fault}
    (h : ∀ found, OneLine found → (fault found).Plain) :
    Words Any (require kind recovery fault) := by
  refine words_choose fun s hs => ?_
  split
  · exact words_done trivial
  · exact words_stop recovery (h _ hs.found)

theorem words_punct (kind : TokenKind) (recovery : Recovery) {fault : String → Fault}
    (h : ∀ found, OneLine found → (fault found).Plain) : Words Any (punct kind recovery fault) :=
  words_then (words_require kind recovery h) fun _ _ => words_liftM words_bump

theorem words_expect (kind : TokenKind) (node : NodeKind) (recovery : Recovery)
    {fault : String → Fault} (h : ∀ found, OneLine found → (fault found).Plain) :
    Words OneLine (expect kind node recovery fault) :=
  words_then (words_require kind recovery h) fun _ _ => words_liftM (words_take node)

theorem words_closing (closer : TokenKind) (recovery : Recovery) {fault : String → Fault}
    (h : ∀ found, OneLine found → (fault found).Plain) :
    Words Any (closing closer recovery fault) := by
  refine words_choose fun s hs => ?_
  split
  · exact words_liftM words_bump
  · split
    · exact words_stop _ (h _ hs.found)
    · exact words_stop _ (h _ hs.found)

theorem words_sepTail {item : Step α} (hitem : Words V item) (closer : TokenKind)
    {otherwise : String → Stop} (h : ∀ found, OneLine found → (otherwise found).fault.Plain) :
    Words (fun as => ∀ a ∈ as, V a) (sepTail item closer otherwise) := by
  intro s hs
  show PlainFaults (sepTail.loop item closer otherwise s).built ∧
    Outcome _ (sepTail.loop item closer otherwise s).value
  fun_induction sepTail.loop item closer otherwise s with
  | case1 => exact ⟨trivial, h _ (Unbroken.found hs)⟩
  | case2 t s hc => exact ⟨trivial, List.forall_mem_nil _⟩
  | case3 t s hc hcomma o e ho =>
    obtain ⟨hrow, hvalue⟩ := hitem s (List.forall_mem_cons.mp hs).2
    rw [ho] at hvalue
    exact ⟨hrow, hvalue⟩
  | case4 t s hc hcomma o a ho r ih =>
    have htail := (List.forall_mem_cons.mp hs).2
    obtain ⟨hrow, hvalue⟩ := hitem s htail
    rw [ho] at hvalue
    obtain ⟨hrest, hanswer⟩ := ih (Parser.unbroken_rest item htail)
    refine ⟨hrow.append hrest, ?_⟩
    cases hr : r.value with
    | error e =>
      rw [hr] at hanswer
      exact hanswer
    | ok as =>
      rw [hr] at hanswer
      exact List.forall_mem_cons.mpr ⟨hvalue, hanswer⟩
  | case5 t s hc hcomma => exact ⟨trivial, h _ (Unbroken.found hs)⟩

theorem words_group {body : Step α} (h : Words V body) (kind : NodeKind) (complete : α → Bool) :
    Words V (group kind complete body) := by
  intro s hs
  obtain ⟨hrow, hvalue⟩ := h s hs
  rw [run_group]
  split
  · rename_i a ha
    rw [ha] at hvalue
    exact ⟨.construct _ _ hrow, hvalue⟩
  · exact ⟨hrow, hvalue⟩

end Step

namespace Parser

theorem words_construct {body : Step Bool} (h : Step.Words Any body) (kind : NodeKind) :
    Words Any (construct kind body) := by
  intro s hs
  obtain ⟨hrow, hvalue⟩ := h s hs
  refine ⟨?_, trivial⟩
  cases hstop : (run body s).value with
  | ok sound =>
    rw [run_construct_of_ok hstop]
    exact .construct _ _ hrow
  | error e =>
    rw [run_construct_of_error hstop]
    rw [hstop] at hvalue
    exact (PlainFaults.construct kind false hrow).append (.skipped hvalue _)

theorem words_statement {body : Step Unit} (h : Step.Words Any body) (kind : NodeKind) :
    Words Any (statement kind body) :=
  words_bind (words_construct (Step.words_then h fun _ _ => Step.words_done trivial) kind)
    fun _ _ => words_pure trivial

end Parser

namespace Parse

open SchemaLang.Parser Step

/-! ## Values -/

theorem words_literal (kind : NodeKind) : Parser.Words Any (literal kind) :=
  words_bind (words_take kind) fun _ _ => words_pure trivial

theorem words_number : Parser.Words Any number := by
  refine Parser.words_choose fun s hs => ?_
  split
  · refine words_construct (words_then (words_liftM words_bump) fun _ _ =>
      words_then (words_liftM words_bump) fun _ _ =>
      words_then (words_punct _ _ fun _ _ => ?_) fun _ _ => words_done trivial) _
    refine Fault.plain_missingAfter (by simp [OneLine]) ?_
    simpa [OneLine, toString] using hs.found
  · exact words_literal _

section

variable {item : Step Bool} (hitem : Step.Words Any item) {closer : TokenKind}
  {otherwise : String → Stop} (h : ∀ found, OneLine found → (otherwise found).fault.Plain)
include hitem h

theorem words_elements : Step.Words Any (elements item closer otherwise) :=
  words_then hitem fun _ _ => words_then (words_sepTail hitem _ h) fun _ _ => words_done trivial

/-- An opener, and elements up to the closer unless it comes at once. -/
theorem words_bracketed (kind : NodeKind) :
    Parser.Words Any (construct kind (between closer item otherwise)) := by
  refine words_construct (words_then (words_liftM words_bump) fun _ _ =>
    Step.words_choose fun s _ => ?_) kind
  split
  · exact words_then (words_liftM words_bump) fun _ _ => words_done trivial
  · exact words_elements hitem h

end

theorem plain_misplaced {wanted : String} (h : OneLine wanted) (place : Place) (found : String)
    (hfound : OneLine found) : (Fault.misplaced wanted place found).Plain :=
  Fault.plain_of_two rfl h hfound

section

variable {value : Parser Bool} (h : value.Words Any)
include h

theorem words_list : Parser.Words Any (list value) :=
  words_bracketed (words_liftM h) (plain_misplaced (by simp [OneLine]) _) .list

theorem words_map : Parser.Words Any (map value) := by
  refine words_bracketed (words_group (words_then (words_liftM h) fun _ _ =>
    words_then (words_punct _ _ (plain_misplaced ?_ _)) fun _ _ =>
    words_then (words_liftM h) fun _ _ => words_done trivial) _ _) (plain_misplaced ?_ _) .map
  · simp [OneLine]
  · simp [OneLine]

theorem words_arguments : Parser.Words Any (arguments value) := by
  refine words_bracketed (Step.words_choose fun s _ => ?_) (plain_misplaced (by simp [OneLine]) _)
    .arguments
  split
  · exact words_stop _ (Fault.plain_of_none rfl)
  · exact words_liftM h

theorem words_construction : Parser.Words Any (construction value) := by
  have hsteps : Parser.Words Any (do
      let _ ← take .constructorName
      arguments value) :=
    words_bind (words_take _) fun _ _ => words_arguments h
  exact fun s hs => ⟨.construct _ _ (hsteps s hs).1, trivial⟩

end

theorem words_notAValue : Parser.Words Any notAValue :=
  Parser.words_choose fun _ hs =>
    words_bind (words_skip (Fault.plain_of_one rfl hs.found) _) fun _ _ => words_pure trivial

theorem words_tooDeep : Parser.Words Any tooDeep :=
  words_bind (words_skip (Fault.plain_of_none rfl) _) fun _ _ => words_pure trivial

theorem words_valueOf {list map construction : Parser Bool} (hlist : list.Words Any)
    (hmap : map.Words Any) (hconstruction : construction.Words Any) :
    Parser.Words Any (valueOf list map construction) := by
  refine Parser.words_choose fun s _ => ?_
  split
  · exact words_notAValue
  split
  · exact words_number
  · exact words_literal _
  · exact words_literal _
  · exact hlist
  · exact hmap
  · split
    · exact words_literal _
    · split
      · exact hconstruction
      · exact words_literal _
  · exact words_notAValue

theorem words_value (room : Nat) : Parser.Words Any (value room) := by
  induction room with
  | zero => exact words_valueOf words_tooDeep words_tooDeep words_tooDeep
  | succ room ih =>
    exact words_valueOf (words_list ih) (words_map ih) (words_construction ih)

/-! ## Tags and statements -/

theorem words_namedArgument {value : Parser Bool} (h : value.Words Any) :
    Step.Words Any (namedArgument value) :=
  words_group (words_then (words_expect _ _ _ (plain_misplaced (by simp [OneLine]) _))
    fun _ hfield => words_then
      (words_punct _ _ fun _ _ => Fault.plain_missingAfter (by simp [OneLine]) hfield)
      fun _ _ => words_liftM h) _ _

theorem words_tag {value : Parser Bool} (h : value.Words Any) : Parser.Words Any (tag value) := by
  refine words_statement (words_then (words_liftM words_bump) fun _ _ =>
    words_then (words_expect _ _ _ fun _ _ => Fault.plain_missingAfter ?_ ?_) fun _ _ =>
    words_then (V := Any) (Step.words_choose fun s _ => ?_) fun _ _ =>
      words_closing _ _ fun _ => Fault.plain_of_one rfl) _
  · simp [OneLine]
  · simp [OneLine]
  split
  · split
    · exact words_then (words_liftM words_bump) fun _ _ =>
        words_then (words_elements (words_namedArgument h) (plain_misplaced (by simp [OneLine]) _))
          fun _ _ => words_done trivial
    · exact words_then (words_liftM (words_arguments h)) fun _ _ => words_done trivial
  · exact words_done trivial

theorem words_keyword : Step.Words Any keyword :=
  words_then (words_liftM (words_take _)) fun _ _ => words_done trivial

section

variable {wanted before : String} (h : OneLine wanted) (hbefore : OneLine before)
include h hbefore

theorem words_follow (kind : TokenKind) (node : NodeKind) :
    Step.Words OneLine (follow kind node wanted before) :=
  words_expect _ _ _ fun _ _ => Fault.plain_missingAfter h hbefore

theorem words_followPunct (kind : TokenKind) : Step.Words Any (followPunct kind wanted before) :=
  words_punct _ _ fun _ _ => Fault.plain_missingAfter h hbefore

end

theorem words_terminator {before : String} (h : OneLine before) :
    Step.Words Any (terminator before) :=
  words_closing _ _ fun _ _ => Fault.plain_missingAfter (by simp [OneLine]) h

theorem words_packageStatement : Parser.Words Any packageStatement :=
  words_statement (words_then words_keyword fun _ _ =>
    words_then (words_follow (by simp [OneLine]) (by simp [OneLine]) _ _) fun _ hname =>
      words_terminator (by simpa [OneLine, toString] using hname)) _

theorem words_importStatement : Parser.Words Any importStatement :=
  words_statement (words_then words_keyword fun _ _ =>
    words_then (words_follow (by simp [OneLine]) (by simp [OneLine]) _ _) fun _ hpath =>
      words_terminator (by simpa [OneLine, toString] using hpath)) _

theorem words_settingStatement : Parser.Words Any settingStatement := by
  refine words_statement (words_then words_keyword fun _ _ =>
    words_then (words_follow (by simp [OneLine]) (by simp [OneLine]) _ _) fun name hname =>
    words_then (words_followPunct (by simp [OneLine]) (by simpa [OneLine, toString] using hname) _)
      fun _ _ => words_then (V := OneLine) (Step.words_choose fun s _ => ?_) fun value hvalue =>
        words_terminator (by simpa [OneLine, toString] using ⟨hname, hvalue⟩)) _
  split
  · exact words_liftM (words_take _)
  · exact words_stop _ (Fault.plain_missingAfter (by simp [OneLine])
      (by simpa [OneLine, toString] using hname))

theorem words_enumValue : Parser.Words Any enumValue :=
  words_statement (words_then (words_liftM (words_take _)) fun name hname =>
    words_then (words_followPunct (by simp [OneLine]) hname _) fun _ _ =>
    words_then (words_follow (by simp [OneLine]) (by simpa [OneLine, toString] using hname) _ _)
      fun number hnumber =>
        words_terminator (by simpa [OneLine, toString] using ⟨hname, hnumber⟩)) _

theorem words_typeParameters {base : String} (h : OneLine base) :
    Step.Words OneLine (typeParameters base) := by
  refine words_then (words_liftM words_bump) fun _ _ => ?_
  split
  · exact words_stop _ (Fault.plain_of_one rfl h)
  · refine words_then (words_follow (by simp [OneLine]) ?_ _ _) fun first hfirst =>
      words_then (words_sepTail (words_follow (by simp [OneLine]) (by simp [OneLine]) _ _) _
        fun _ => Fault.plain_of_one rfl) fun others hothers => ?_
    · simpa [OneLine, toString] using h
    · have hparameters : OneLine (", ".intercalate (first :: others)) :=
        .intercalate (by simp [OneLine]) (List.forall_mem_cons.mpr ⟨hfirst, hothers⟩)
      dsimp only
      generalize ", ".intercalate (first :: others) = parameters at hparameters ⊢
      split
      · exact words_done (by simpa [OneLine, toString] using ⟨h, hparameters⟩)
      · exact words_stop _ (Fault.plain_of_none rfl)

theorem words_fieldType : Step.Words OneLine fieldType := by
  have hgroup (transient : Bool) : Step.Words OneLine (group .fieldType (fun _ => true) do
      let base ← take .typeName
      Step.choose fun s =>
        if starts .langle s then typeParameters base
        else if transient then stop .statement (.transientScalar base)
        else pure base) := by
    refine words_group (words_then (words_liftM (words_take _)) fun base hbase =>
      Step.words_choose fun s _ => ?_) _ _
    split
    · exact words_typeParameters hbase
    · split
      · exact words_stop _ (Fault.plain_of_one rfl hbase)
      · exact words_done hbase
  refine Step.words_choose fun s _ => ?_
  dsimp only
  split
  · refine words_then words_keyword fun _ _ => words_then (words_require _ _ fun _ _ =>
      Fault.plain_missingAfter ?_ ?_) fun _ _ => hgroup true
    · simp [OneLine]
    · simp [OneLine]
  · exact hgroup false

theorem words_field : Parser.Words Any field := by
  refine words_statement (words_then words_fieldType fun type htype =>
    words_then (words_follow (by simp [OneLine]) htype _ _) fun name hname =>
      Step.words_choose fun s _ => ?_) _
  have hnamed : OneLine s!"{type} {name}" := by simpa [OneLine, toString] using ⟨htype, hname⟩
  split
  · refine words_then (words_liftM words_bump) fun _ _ =>
      words_then (words_follow (by simp [OneLine]) ?_ _ _) fun number hnumber =>
        words_terminator ?_
    · simpa [OneLine, toString] using hnamed
    · simpa [OneLine, toString, and_assoc] using And.intro hnamed hnumber
  · exact words_closing _ _ fun _ _ => Fault.plain_missingAfter (by simp [OneLine]) hnamed

theorem words_componentId : Parser.Words Any componentId :=
  words_statement (words_then words_keyword fun _ _ =>
    words_then (words_followPunct (by simp [OneLine]) (by simp [OneLine]) _) fun _ _ =>
    words_then (words_follow (by simp [OneLine]) (by simp [OneLine]) _ _) fun number hnumber =>
      words_terminator (by simpa [OneLine, toString] using hnumber)) _

theorem words_memberType {word : String} (h : OneLine word) :
    Step.Words OneLine (memberType word) :=
  words_then words_keyword fun _ _ => words_then (words_require _ _ fun _ _ =>
    Fault.plain_missingAfter (by simp [OneLine]) h) fun _ _ => words_fieldType

theorem words_dataMember : Parser.Words Any dataMember :=
  words_statement (words_then (words_memberType (by simp [OneLine])) fun type htype =>
    words_terminator (by simpa [OneLine, toString] using htype)) _

theorem words_eventMember : Parser.Words Any eventMember :=
  words_statement (words_then (words_memberType (by simp [OneLine])) fun type htype =>
    words_then (words_follow (by simp [OneLine]) (by simpa [OneLine, toString] using htype) _ _)
      fun name hname =>
        words_terminator (by simpa [OneLine, toString] using ⟨htype, hname⟩)) _

theorem words_commandMember : Parser.Words Any commandMember := by
  refine words_statement (words_then words_keyword fun _ _ =>
    words_then (words_follow (by simp [OneLine]) (by simp [OneLine]) _ _) fun response hresponse =>
    words_then (words_follow (by simp [OneLine]) ?_ _ _) fun name hname =>
    words_then (words_followPunct (by simp [OneLine]) ?_ _) fun _ _ =>
    words_then (words_follow (by simp [OneLine]) ?_ _ _) fun request hrequest =>
    words_then (words_followPunct (by simp [OneLine]) ?_ _) fun _ _ => words_terminator ?_) _
  · simpa [OneLine, toString] using hresponse
  · simpa [OneLine, toString] using ⟨hresponse, hname⟩
  · simpa [OneLine, toString] using hname
  · simpa [OneLine, toString] using ⟨hname, hrequest⟩
  · simpa [OneLine, toString] using ⟨hresponse, hname, hrequest⟩

/-! ## Definitions and files -/

theorem words_present {p : Parser Unit} (h : p.Words Any) : Parser.Words Any (present p) :=
  words_bind h fun _ _ => words_pure trivial

theorem words_absent : Parser.Words Any absent := words_pure trivial

theorem words_presentTag (room : Nat) : Parser.Words Any (present (tag (value room))) :=
  words_present (words_tag (words_value room))

theorem words_block (kind : NodeKind) {word : String} (hword : OneLine word)
    {member : Parser Bool} (h : member.Words Any) : Parser.Words Any (block kind word member) := by
  refine words_statement (words_then words_keyword fun _ _ =>
    words_then (words_expect _ _ _ fun _ _ => Fault.plain_missingAfter ?_ hword) fun name hname =>
    words_then (words_punct _ _ fun _ _ => Fault.plain_missingAfter ?_ ?_) fun _ _ =>
    words_then (words_liftM (words_members h)) fun _ _ =>
      words_punct _ _ fun found hfound => ?_) kind
  · simp [OneLine]
  · simp [OneLine]
  · simpa [OneLine, toString] using ⟨hword, hname⟩
  · simpa [Fault.Plain, Fault.quotes] using ⟨hfound, hword, hname⟩

theorem words_discard {p : Parser Bool} (h : p.Words Any) : Parser.Words Any (discard p) :=
  words_bind h fun _ _ => words_pure trivial

theorem words_nested {p : Nat → Parser Unit} (h : ∀ room, (p room).Words Any) (room : Nat) :
    Parser.Words Any (nested p room) := by
  cases room with
  | zero => exact words_discard words_tooDeep
  | succ room => exact h room

theorem words_enumMember (room : Nat) : Parser.Words Any (enumMember room) := by
  refine Parser.words_choose fun s _ => ?_
  split
  · exact words_presentTag room
  split
  · exact words_present words_enumValue
  · exact words_absent

theorem words_enumDefinition (room : Nat) : Parser.Words Any (enumDefinition room) :=
  words_nested (fun room => words_block _ (by simp [OneLine]) (words_enumMember room)) room

theorem words_typeMember (room : Nat) {typeDefinition : Parser Unit}
    (h : typeDefinition.Words Any) : Parser.Words Any (typeMember room typeDefinition) := by
  refine Parser.words_choose fun s _ => ?_
  split
  · exact words_present words_settingStatement
  split
  · exact words_presentTag room
  split
  · exact words_present (words_enumDefinition room)
  split
  · exact words_present h
  split
  · exact words_present words_field
  · exact words_absent

theorem words_typeDefinition (room : Nat) : Parser.Words Any (typeDefinition room) := by
  induction room with
  | zero => exact words_discard words_tooDeep
  | succ room ih => exact words_block _ (by simp [OneLine]) (words_typeMember room ih)

theorem words_componentMember (room : Nat) : Parser.Words Any (componentMember room) := by
  refine Parser.words_choose fun s _ => ?_
  split
  · exact words_present words_settingStatement
  split
  · exact words_presentTag room
  split
  · exact words_present words_componentId
  split
  · exact words_present words_dataMember
  split
  · exact words_present words_eventMember
  split
  · exact words_present words_commandMember
  split
  · exact words_present words_field
  · exact words_absent

theorem words_componentDefinition (room : Nat) : Parser.Words Any (componentDefinition room) :=
  words_nested (fun room => words_block _ (by simp [OneLine]) (words_componentMember room)) room

theorem words_topLevel (room : Nat) : Parser.Words Any (topLevel room) := by
  refine Parser.words_choose fun s _ => ?_
  split
  · exact words_absent
  split
  · exact words_present words_packageStatement
  split
  · exact words_present words_importStatement
  split
  · exact words_present words_settingStatement
  split
  · exact words_present (words_enumDefinition room)
  split
  · exact words_present (words_typeDefinition room)
  split
  · exact words_present (words_componentDefinition room)
  split
  · exact words_presentTag room
  · exact words_present (words_skip (Fault.plain_of_none rfl) _)

/-- Over lexemes on one line each, every fault is plain. -/
theorem plainFaults_parseWith (room : Nat) {s : List Lexeme} (hs : Unbroken s) :
    PlainFaults (parseWith room s) := (words_members (words_topLevel room) s hs).1

end Parse

namespace SchemaFile

variable (file : SchemaFile)

/-- What a parser reads of a source stands on one line each. -/
theorem unbroken_significant : Unbroken (significant (lexemes file.source)) := fun _ hl =>
  oneLine_of_mem_lexemes (List.mem_of_mem_filter hl) (isTrivia_of_mem_significant hl)

theorem plain_of_mem_faults {p : Node × Fault} (hp : p ∈ file.faults) : p.2.Plain := by
  obtain ⟨n, hn, hmap⟩ := List.mem_filterMap.mp hp
  obtain ⟨fault, hfault, rfl⟩ := Option.map_eq_some_iff.mp hmap
  rcases List.mem_cons.mp hn with rfl | hn
  · rw [Node.fault?, file.root_eq] at hfault
    cases hfault
  · exact file.content_of_each
      (Parse.plainFaults_parseWith Parse.maxNesting file.unbroken_significant) hn fault hfault

end SchemaFile

end SchemaLang
