import SchemaLang.Proofs.Building
import SchemaLang.Proofs.Filled

/-!
# What productions say of their faults

Value productions hand answers to one another: each says whether what it
built is free of faults, and the constructs around it close as incomplete when
it is not. A construct that a fault cuts short has the fault right behind it.
Hence the labels of a parsed row tell the truth: next to what a construct
holds, only the element that follows it matters.
-/

set_option autoImplicit false

namespace SchemaLang

def NodeKind.holdsValues : NodeKind → Bool
  | arguments | list | map | mapEntry | namedArgument => true
  | _ => false

def Shape.isFault (shape : Shape) : Bool := shape.kind == .error

@[simp] theorem isFault_skipped (fault : Fault) : (Shape.skipped fault).isFault = true := rfl

theorem isFault_construct {kind : NodeKind} (h : kind ≠ .error) (complete : Bool) :
    (Shape.construct kind complete).isFault = false := by
  simpa [Shape.isFault, Shape.kind] using h

def Faulty (row : Row) : Bool := row.labels.any Shape.isFault

@[simp] theorem faulty_nil : Faulty .nil = false := rfl

@[simp] theorem faulty_leaf (t : Lexeme) (next : Row) : Faulty (.leaf t next) = Faulty next := rfl

@[simp] theorem faulty_node (shape : Shape) (inside next : Row) :
    Faulty (.node shape inside next) = (shape.isFault || (Faulty inside || Faulty next)) := by
  simp [Faulty, Forest.labels]

@[simp] theorem faulty_append (f g : Row) : Faulty (f ++ g) = (Faulty f || Faulty g) := by
  simp [Faulty]

def faultNext : Row → Bool → Bool
  | .nil, later => later
  | .leaf _ _, _ => false
  | .node shape _ _, _ => shape.isFault

@[simp] theorem faultNext_append (f g : Row) (later : Bool) :
    faultNext (f ++ g) later = faultNext f (faultNext g later) := by
  cases f <;> rfl

/-- What the label of a node says: of faults `inside` it, and of one that follows it at once. -/
structure Shape.Tells (shape : Shape) (inside next : Bool) : Prop where
  fault : shape.isFault = true → shape.fault?.isSome = true
  reason : shape.complete = false → inside = true ∨ next = true
  values : shape.kind.holdsValues = true → inside = true ∨ next = true → shape.complete = false

def Honest : Row → Bool → Prop
  | .nil, _ => True
  | .leaf _ next, later => Honest next later
  | .node shape inside next, later =>
    shape.Tells (Faulty inside) (faultNext next later) ∧ Honest inside false ∧ Honest next later

theorem honest_append (f g : Row) (later : Bool) :
    Honest (f ++ g) later ↔ Honest f (faultNext g later) ∧ Honest g later := by
  induction f with
  | nil => simp [Honest]
  | leaf t next ih => exact ih
  | node shape inside next _ ih =>
    rw [Forest.node_append, Honest, Honest, ih, faultNext_append, and_assoc, and_assoc]

theorem honest_ofTokens (ls : List Lexeme) (later : Bool) : Honest (.ofTokens ls) later := by
  induction ls with
  | nil => trivial
  | cons l ls ih => exact ih

theorem Honest.fault {row : Row} {later : Bool} (h : Honest row later) :
    ∀ shape ∈ row.labels, shape.isFault = true → shape.fault?.isSome = true := by
  induction row generalizing later with
  | nil => simp [Forest.labels]
  | leaf t next ih => exact ih h
  | node shape inside next ihi ihn =>
    rw [Forest.labels, List.forall_mem_cons, List.forall_mem_append]
    exact ⟨h.1.fault, ihi h.2.1, ihn h.2.2⟩

theorem tells_skipped (fault : Fault) (inside next : Bool) :
    (Shape.skipped fault).Tells inside next where
  fault _ := rfl
  reason h := by cases h
  values h := by cases h

/-- A whole construct around no values promises nothing. -/
theorem tells_whole {kind : NodeKind} (hkind : kind ≠ .error) (hvalues : kind.holdsValues = false)
    (inside next : Bool) : (Shape.construct kind true).Tells inside next where
  fault h := absurd (eq_of_beq h) hkind
  reason h := by cases h
  values h := absurd h (Bool.not_eq_true _ ▸ hvalues)

/-- A construct that a fault cuts short is followed by it. -/
theorem tells_cut {kind : NodeKind} (hkind : kind ≠ .error) (inside : Bool) :
    (Shape.construct kind false).Tells inside true where
  fault h := absurd (eq_of_beq h) hkind
  reason _ := .inr rfl
  values _ _ := rfl

/-- A construct whose steps went through says whether it holds a fault. -/
theorem tells_sound {kind : NodeKind} (hkind : kind ≠ .error) {sound inside : Bool}
    (h : sound = !inside) : (Shape.construct kind sound).Tells inside false := by
  subst h
  refine ⟨fun h => absurd (eq_of_beq h) hkind, fun hs => .inl ?_, fun _ hs => ?_⟩
  · simpa [Shape.complete] using hs
  · rcases hs with rfl | hs
    · rfl
    · cases hs

theorem honest_skipped (fault : Fault) (ls : List Lexeme) {next : Row} {later : Bool}
    (h : Honest next later) : Honest (.node (.skipped fault) (.ofTokens ls) next) later :=
  ⟨tells_skipped _ _ _, honest_ofTokens _ _, h⟩

def Sturdy (row : Row) : Prop := ∀ later, Honest row later

theorem joins_sturdy : Joins Sturdy where
  nil _ := trivial
  leaf _ _ := trivial
  append hf hg later := (honest_append _ _ _).mpr ⟨hf _, hg later⟩

theorem NodeKind.isLexeme_ne_error {kind : NodeKind} (h : kind.isLexeme = true) :
    kind ≠ .error := by
  rintro rfl
  exact absurd h (by decide)

theorem NodeKind.holdsValues_of_isLexeme {kind : NodeKind} (h : kind.isLexeme = true) :
    kind.holdsValues = false := by
  cases kind <;> first | rfl | exact absurd h (by decide)

theorem Worded.sturdy {row : Row} (h : Worded row) : Sturdy row := by
  intro later
  induction h with
  | nil => trivial
  | leaf t _ ih => exact ih
  | lexeme hkind ht _ ih =>
    exact ⟨tells_whole (NodeKind.isLexeme_ne_error hkind)
      (NodeKind.holdsValues_of_isLexeme hkind) _ _, trivial, ih⟩

theorem Simple.sturdy {row : Row} (h : Simple row) : Sturdy row := by
  intro later
  induction h with
  | nil => trivial
  | leaf t _ ih => exact ih
  | lexeme hkind ht _ ih =>
    exact ⟨tells_whole (NodeKind.isLexeme_ne_error hkind)
      (NodeKind.holdsValues_of_isLexeme hkind) _ _, trivial, ih⟩
  | type hinside _ ih =>
    exact ⟨tells_whole (by decide) rfl _ _, hinside.worded.sturdy false, ih⟩

theorem Worded.not_faulty {row : Row} (h : Worded row) : Faulty row = false := by
  induction h with
  | nil => rfl
  | leaf t _ ih => exact ih
  | lexeme hkind ht _ ih => simp [ih, isFault_construct (NodeKind.isLexeme_ne_error hkind)]

/-! ## Productions around values -/

def Tidy (row : Row) : Prop := Honest row false

def Calm (row : Row) : Prop := faultNext row false = false

theorem Tidy.append {f g : Row} (hf : Tidy f) (hg : Tidy g) (hcalm : Calm g) : Tidy (f ++ g) :=
  (honest_append _ _ _).mpr ⟨hcalm.symm ▸ hf, hg⟩

theorem calm_append {f g : Row} (hf : Calm f) (hg : Calm g) : Calm (f ++ g) := by
  rw [Calm, faultNext_append, hg, hf]

def Clear (row : Row) : Prop := Sturdy row ∧ Calm row ∧ Faulty row = false

theorem joins_clear : Joins Clear where
  nil := ⟨joins_sturdy.nil, rfl, rfl⟩
  leaf t := ⟨joins_sturdy.leaf t, rfl, rfl⟩
  append hf hg := ⟨joins_sturdy.append hf.1 hg.1, calm_append hf.2.1 hg.2.1, by
    rw [faulty_append, hf.2.2, hg.2.2]
    rfl⟩

theorem Worded.clear {row : Row} (h : Worded row) : Clear row := by
  refine ⟨h.sturdy, ?_, h.not_faulty⟩
  cases h with
  | nil => rfl
  | leaf t h => rfl
  | lexeme hkind ht h => exact isFault_construct (NodeKind.isLexeme_ne_error hkind) true

namespace Parser

/-- The answer says whether what was built is free of faults. -/
def Reports (p : Parser Bool) : Prop :=
  ∀ s, Tidy (p.run s).built ∧ (p.run s).value = !Faulty (p.run s).built

theorem reports_choose {f : List Lexeme → Parser Bool} (h : ∀ s, Reports (f s)) :
    Reports (choose f) := fun s => h s s

theorem reports_skip (fault : Fault) (extent : List Lexeme → Nat) :
    Reports (do skip fault extent; pure false) := by
  intro s
  rw [run_bind, run_skip, run_pure]
  exact ⟨honest_skipped _ _ trivial, by simp⟩

end Parser

namespace Step

open SchemaLang.Parser

variable {α β : Type}

def Reports (verdict : α → Bool) (before : Bool) (p : Step α) : Prop :=
  ∀ s, Tidy (Parser.run p s).built ∧
    ∀ a, (Parser.run p s).value = .ok a → verdict a = (before && !Faulty (Parser.run p s).built)

variable {verdict : α → Bool} {verdict' : β → Bool} {before : Bool}

theorem reports_done {a : α} (h : verdict a = before) : Reports verdict before (pure a) := by
  refine fun s => ⟨trivial, fun b hb => ?_⟩
  rw [run_pure] at hb ⊢
  obtain rfl : a = b := Except.ok.inj hb
  simpa using h

theorem reports_choose {f : List Lexeme → Step α} (h : ∀ s, Reports verdict before (f s)) :
    Reports verdict before (choose f) := fun s => h s s

theorem reports_stop (recovery : Recovery) (fault : Fault) :
    Reports verdict before (stop recovery fault : Step α) := by
  refine fun s => ⟨trivial, fun b hb => ?_⟩
  rw [run_stop] at hb
  cases hb

theorem reports_clear {p : Step α} (h : Yields Clear p) : Reports (fun _ => before) before p := by
  intro s
  obtain ⟨hsturdy, -, hfaulty⟩ := h s
  exact ⟨hsturdy false, fun _ _ => by simp [hfaulty]⟩

theorem reports_liftM {p : Parser Bool} (h : Parser.Reports p) :
    Reports id true (liftM p : Step Bool) := by
  intro s
  rw [run_liftM]
  refine ⟨(h s).1, fun a ha => ?_⟩
  obtain rfl := Except.ok.inj ha
  simpa using (h s).2

/-- Of two steps, the second may follow the first when it does not begin with
a fault, or when the first one is honest anyway. -/
theorem tidy_then {p : Step α} {f : α → Step β} (hp : Yields Tidy p)
    (hf : ∀ a, Yields Tidy (f a)) (hseam : Yields Sturdy p ∨ ∀ a, Yields Calm (f a)) :
    Yields Tidy (p >>= f : Step β) := by
  intro s
  cases h : (Parser.run p s).value with
  | error e =>
    rw [run_bind_of_error f h]
    exact hp s
  | ok a =>
    rw [run_bind_of_ok f h]
    rcases hseam with hsturdy | hcalm
    · exact (honest_append _ _ _).mpr ⟨hsturdy s _, hf a _⟩
    · exact (hp s).append (hf a _) (hcalm a _)

theorem reports_then {p : Step α} {f : α → Step β} (hp : Reports verdict before p)
    (hf : ∀ a, Reports verdict' (verdict a) (f a))
    (hseam : Yields Sturdy p ∨ ∀ a, Yields Calm (f a)) :
    Reports verdict' before (p >>= f) := by
  intro s
  refine ⟨tidy_then (fun r => (hp r).1) (fun a r => (hf a r).1) hseam s, fun b hb => ?_⟩
  cases h : (Parser.run p s).value with
  | error e =>
    rw [run_bind_of_error f h] at hb
    cases hb
  | ok a =>
    rw [run_bind_of_ok f h] at hb ⊢
    rw [(hf a _).2 b hb, (hp s).2 a h, faulty_append, Bool.not_or, Bool.and_assoc]

theorem reports_clear_then {p : Step α} {f : α → Step β} (hp : Yields Clear p)
    (hf : ∀ a, Reports verdict' before (f a)) : Reports verdict' before (p >>= f) :=
  reports_then (reports_clear hp) hf (.inl fun s => (hp s).1)

theorem reports_and {p : Step α} (h : Reports verdict true p) (before : Bool) :
    Reports (fun a => before && verdict a) before p := by
  refine fun s => ⟨(h s).1, fun a ha => ?_⟩
  dsimp only
  rw [(h s).2 a ha, Bool.true_and]

theorem calm_done (a : α) : Yields Calm (pure a : Step α) := fun _ => rfl

theorem calm_then_right {p : Step α} {f : α → Step β} (hp : Yields Calm p)
    (hf : ∀ a, Yields Calm (f a)) : Yields Calm (p >>= f : Step β) := by
  intro s
  cases h : (Parser.run p s).value with
  | error e =>
    rw [run_bind_of_error f h]
    exact hp s
  | ok a =>
    rw [run_bind_of_ok f h]
    exact calm_append (hp s) (hf a _)

theorem calm_punct_then (kind : TokenKind) (recovery : Recovery) (fault : String → Fault)
    (f : Unit → Step β) : Yields Calm (punct kind recovery fault >>= f : Step β) := by
  intro s
  cases h : starts kind s with
  | true =>
    obtain ⟨t, rest, rfl⟩ := List.exists_cons_of_ne_nil (ahead_of_starts h)
    have ht : t.kind = kind := by simpa [starts] using h
    rw [run_bind_of_ok _ (by rw [run_punct ht]), run_punct ht]
    rfl
  | false =>
    have hstop : (Parser.run (punct kind recovery fault) s) =
        ⟨.error ⟨recovery, fault (found s)⟩, .nil, s⟩ := by
      have hrequire := run_require_of_not_starts recovery fault h
      rw [punct, run_bind_of_error _ (by rw [hrequire]), hrequire]
    rw [run_bind_of_error _ (by rw [hstop]), hstop]
    rfl

/-- What follows a comma does not matter to the row in front of it. -/
theorem calm_sepTail (item : Step α) (closer : TokenKind) (otherwise : String → Stop) :
    Yields Calm (sepTail item closer otherwise) := by
  intro s
  show Calm (sepTail.loop item closer otherwise s).built
  fun_cases sepTail.loop item closer otherwise s <;> rfl

theorem reports_sepTail {item : Step Bool} (h : Reports id true item) (closer : TokenKind)
    (otherwise : String → Stop) :
    Reports (fun answers => answers.all id) true (sepTail item closer otherwise) := by
  intro s
  show Tidy (sepTail.loop item closer otherwise s).built ∧
    ∀ a, (sepTail.loop item closer otherwise s).value = .ok a →
      a.all id = (true && !Faulty (sepTail.loop item closer otherwise s).built)
  fun_induction sepTail.loop item closer otherwise s with
  | case1 => exact ⟨trivial, fun a ha => by cases ha⟩
  | case2 t s hc =>
    refine ⟨trivial, fun a ha => ?_⟩
    obtain rfl := Except.ok.inj ha
    rfl
  | case3 t s hc hcomma o e he => exact ⟨(h s).1, fun a ha => by cases ha⟩
  | case4 t s hc hcomma o a ha r ih =>
    refine ⟨Tidy.append (h s).1 ih.1 (calm_sepTail item closer otherwise _), fun answers hr => ?_⟩
    cases hvalue : r.value with
    | error e =>
      rw [hvalue] at hr
      cases hr
    | ok others =>
      rw [hvalue] at hr
      obtain rfl : a :: others = answers := Except.ok.inj hr
      have hfirst : a = (true && !Faulty o.built) := (h s).2 a ha
      have hothers : others.all id = (true && !Faulty r.built) := ih.2 others hvalue
      rw [List.all_cons, hothers, faulty_leaf, faulty_append, hfirst]
      simp
  | case5 t s hc hcomma => exact ⟨trivial, fun a ha => by cases ha⟩

theorem reports_group {kind : NodeKind} (hkind : kind ≠ .error) {body : Step Bool}
    (h : Reports id true body) : Reports id true (group kind id body) := by
  intro s
  rw [run_group]
  cases hvalue : (Parser.run body s).value with
  | error e => exact ⟨(h s).1, fun a ha => by rw [hvalue] at ha; cases ha⟩
  | ok sound =>
    have hsound : sound = !Faulty (Parser.run body s).built := by simpa using (h s).2 sound hvalue
    refine ⟨⟨tells_sound hkind hsound, (h s).1, trivial⟩, fun a ha => ?_⟩
    obtain rfl := Except.ok.inj ha
    simpa [isFault_construct hkind] using hsound

end Step

namespace Parser

open Step

theorem reports_construct {kind : NodeKind} (hkind : kind ≠ .error) {body : Step Bool}
    (h : Step.Reports id true body) : Reports (construct kind body) := by
  intro s
  cases hvalue : (run body s).value with
  | ok sound =>
    rw [run_construct_of_ok hvalue]
    have hsound : sound = !Faulty (run body s).built := by simpa using (h s).2 sound hvalue
    exact ⟨⟨tells_sound hkind hsound, (h s).1, trivial⟩, by
      simpa [isFault_construct hkind] using hsound⟩
  | error e =>
    rw [run_construct_of_error hvalue]
    exact ⟨⟨tells_cut hkind _, (h s).1, honest_skipped _ _ trivial⟩, by
      simp⟩

theorem reports_wrap {kind : NodeKind} (hkind : kind ≠ .error) (hvalues : kind.holdsValues = false)
    {p : Parser Bool} (h : Reports p) : Reports (wrap kind p) := by
  intro s
  show Tidy (.node (.construct kind true) (p.run s).built .nil) ∧
    (p.run s).value = !Faulty (.node (.construct kind true) (p.run s).built .nil)
  exact ⟨⟨tells_whole hkind hvalues _ _, (h s).1, trivial⟩, by
    simpa [isFault_construct hkind] using (h s).2⟩

theorem sturdy_statement {kind : NodeKind} (hkind : kind ≠ .error)
    (hvalues : kind.holdsValues = false) {body : Step Unit} {s : List Lexeme}
    (h : Tidy (run body s).built) : Sturdy ((statement kind body).run s).built := by
  intro later
  cases hvalue : (run body s).value with
  | ok u =>
    rw [run_statement_of_ok hvalue]
    exact ⟨tells_whole hkind hvalues _ _, h, trivial⟩
  | error e =>
    rw [run_statement_of_error hvalue]
    exact ⟨tells_cut hkind _, h, honest_skipped _ _ trivial⟩

end Parser

namespace Parse

open SchemaLang.Parser Step

theorem clear_bump : Yields Clear bump := .bump joins_clear

theorem clear_punct (kind : TokenKind) (recovery : Recovery) (fault : String → Fault) :
    Yields Clear (punct kind recovery fault) := yields_punct joins_clear _ _ _

theorem clear_expect {kind : TokenKind} {node : NodeKind} (h : node.isLexeme = true)
    (hadmits : node.admits kind = true) (recovery : Recovery) (fault : String → Fault) :
    Yields Clear (expect kind node recovery fault) :=
  yields_expect joins_clear (fun _ => Worded.clear) h hadmits recovery fault

theorem reports_literal {kind : NodeKind} (h : kind.isLexeme = true)
    (hadmits : ∀ token, kind.admits token = true) : Reports (literal kind) := by
  intro s
  obtain ⟨hsturdy, -, hfaulty⟩ := (yields_take h hadmits s).clear
  show Tidy (((take kind).run s).built ++ Forest.nil) ∧
    true = !Faulty (((take kind).run s).built ++ Forest.nil)
  rw [Forest.append_nil, hfaulty]
  exact ⟨hsturdy false, rfl⟩

theorem reports_number : Parser.Reports number := by
  apply Parser.reports_choose
  intro s
  split
  · exact reports_construct (by decide) (reports_clear_then (yields_liftM clear_bump) fun _ =>
      reports_clear_then (yields_liftM clear_bump) fun _ =>
      reports_clear_then (clear_punct _ _ _) fun _ => reports_done rfl)
  · exact reports_literal rfl fun _ => rfl

theorem reports_elements {item : Step Bool} (h : Step.Reports id true item) (closer : TokenKind)
    (otherwise : String → Stop) : Step.Reports id true (elements item closer otherwise) :=
  reports_then h
    (fun first => reports_then (reports_and (reports_sepTail h closer otherwise) first)
      (fun _ => reports_done rfl) (.inr fun _ => calm_done _))
    (.inr fun _ => calm_then_right (calm_sepTail _ _ _) fun _ => calm_done _)

theorem reports_bracketed {kind : NodeKind} (hkind : kind ≠ .error) (closer : TokenKind)
    {item : Step Bool} (h : Step.Reports id true item) (otherwise : String → Stop) :
    Parser.Reports (construct kind (between closer item otherwise)) := by
  refine reports_construct hkind (reports_clear_then (yields_liftM clear_bump) fun _ =>
    Step.reports_choose fun s => ?_)
  split
  · exact reports_clear_then (yields_liftM clear_bump) fun _ => reports_done rfl
  · exact reports_elements h closer otherwise

theorem reports_list {value : Parser Bool} (h : Parser.Reports value) :
    Parser.Reports (list value) :=
  reports_bracketed (by decide) .rbracket (reports_liftM h) _

theorem reports_mapEntry {value : Parser Bool} (h : Parser.Reports value) :
    Step.Reports id true (mapEntry value) :=
  reports_group (by decide) <|
    reports_then (reports_liftM h)
      (fun key => reports_clear_then (clear_punct _ _ _) fun _ =>
        reports_then (reports_and (reports_liftM h) key) (fun _ => reports_done rfl)
          (.inr fun _ => calm_done _))
      (.inr fun _ => calm_punct_then _ _ _ _)

theorem reports_map {value : Parser Bool} (h : Parser.Reports value) :
    Parser.Reports (map value) :=
  reports_bracketed (by decide) .rbrace (reports_mapEntry h) _

theorem reports_arguments {value : Parser Bool} (h : Parser.Reports value) :
    Parser.Reports (arguments value) := by
  refine reports_bracketed (by decide) .rparen (Step.reports_choose fun s => ?_) _
  split
  · exact reports_stop _ _
  · exact reports_liftM h

theorem reports_construction {value : Parser Bool} (h : Parser.Reports value) :
    Parser.Reports (construction value) := by
  refine reports_wrap (by decide) rfl fun s => ?_
  have hname :=
    yields_take (show NodeKind.constructorName.isLexeme = true from rfl) (fun _ => rfl) s
  obtain ⟨hsturdy, -, hfaulty⟩ := hname.clear
  obtain ⟨htidy, hvalue⟩ := reports_arguments h ((take .constructorName).run s).rest
  rw [run_bind, faulty_append, hfaulty]
  exact ⟨(honest_append _ _ _).mpr ⟨hsturdy _, htidy⟩, hvalue⟩

theorem reports_notAValue : Parser.Reports notAValue :=
  Parser.reports_choose fun _ => reports_skip _ _

theorem reports_tooDeep : Parser.Reports tooDeep := reports_skip _ _

theorem reports_valueOf {list map construction : Parser Bool} (hl : Parser.Reports list)
    (hm : Parser.Reports map) (hc : Parser.Reports construction) :
    Parser.Reports (valueOf list map construction) := by
  apply Parser.reports_choose
  intro s
  split
  · exact reports_notAValue
  · split
    · exact reports_number
    · exact reports_literal rfl fun _ => rfl
    · exact reports_literal rfl fun _ => rfl
    · exact hl
    · exact hm
    · split
      · exact reports_literal rfl fun _ => rfl
      · split
        · exact hc
        · exact reports_literal rfl fun _ => rfl
    · exact reports_notAValue

theorem reports_value (room : Nat) : Parser.Reports (value room) := by
  induction room with
  | zero => exact reports_valueOf reports_tooDeep reports_tooDeep reports_tooDeep
  | succ room ih =>
    exact reports_valueOf (reports_list ih) (reports_map ih) (reports_construction ih)

/-! ## Tags, definitions and files -/

theorem reports_namedArgument {value : Parser Bool} (h : Parser.Reports value) :
    Step.Reports id true (namedArgument value) :=
  reports_group (by decide) <| reports_clear_then (clear_expect rfl rfl _ _) fun _ =>
    reports_clear_then (clear_punct _ _ _) fun _ => reports_liftM h

/-- Behind the arguments comes the closing bracket or the end of the tag. -/
theorem sturdy_tag {value : Parser Bool} (h : Parser.Reports value) :
    Yields Sturdy (tag value) := by
  have hclear {α : Type} {p : Step α} (hp : Yields Clear p) : Yields Sturdy p :=
    fun s => (hp s).1
  have htidy {α : Type} {p : Step α} (hp : Yields Sturdy p) : Yields Tidy p := fun s => hp s false
  have hbracket : Yields Clear (closing .rbracket .tag .unclosedTag) :=
    yields_closing joins_clear _ _ _
  have hdone : Yields Tidy (pure () : Step Unit) := fun _ => trivial
  have hbump : Yields Clear (liftM bump : Step Unit) := yields_liftM clear_bump
  intro s
  refine sturdy_statement NodeKind.noConfusion rfl ?_
  refine tidy_then (htidy (hclear hbump)) (fun _ =>
    tidy_then (htidy (hclear (clear_expect rfl rfl _ _))) (fun _ =>
      tidy_then (yields_choose fun s => ?_) (fun _ => htidy (hclear hbracket))
        (.inr fun _ s => (hbracket s).2.1))
      (.inl (hclear (clear_expect rfl rfl _ _))))
    (.inl (hclear hbump)) s
  split
  · split
    · exact tidy_then (htidy (hclear hbump))
        (fun _ => tidy_then (fun s => (reports_elements (reports_namedArgument h) _ _ s).1)
          (fun _ => hdone) (.inr fun _ => calm_done ()))
        (.inl (hclear hbump))
    · exact tidy_then (yields_liftM fun s => (reports_arguments h s).1) (fun _ => hdone)
        (.inr fun _ => calm_done ())
  · exact hdone

end Parse

theorem NodeKind.holdsValues_of_isStatement {kind : NodeKind} (h : kind.isStatement = true) :
    kind ≠ .error ∧ kind.holdsValues = false := by
  cases kind <;> first | exact ⟨NodeKind.noConfusion, rfl⟩ | exact absurd h (by decide)

theorem passes_sturdy : Passes Sturdy where
  joins := joins_sturdy
  simple _ := Simple.sturdy
  skipped _ _ _ := honest_skipped _ _ trivial
  statement hkind h := by
    obtain ⟨hne, hvalues⟩ := NodeKind.holdsValues_of_isStatement hkind
    exact Parser.sturdy_statement hne hvalues (h false)
  tag room := Parse.sturdy_tag (Parse.reports_value room)

theorem sturdy_parseWith (room : Nat) (s : List Lexeme) : Sturdy (parseWith room s) :=
  passes_sturdy.parseWith room s

end SchemaLang
