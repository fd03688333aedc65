import SchemaLang.Proofs.Verdicts

/-!
# What constructs hold

A construct over one lexeme holds that lexeme, and a field type begins with
its name. Lists and argument lists hold values, maps hold entries and entries
hold values, and each of the three ends with its closing bracket: so it is of
whole ones. In those that were cut short anything may stand.
-/

set_option autoImplicit false

namespace SchemaLang

namespace Forest

variable {α τ : Type}

@[simp] theorem tops_append (f g : Forest α τ) : (f ++ g).tops = f.tops ++ g.tops := by
  induction f with
  | nil => rfl
  | leaf t next ih => exact ih
  | node a inside next _ ih => exact congrArg (a :: ·) ih

end Forest

theorem joins_each (P : Shape → Row → Prop) : Joins (·.Each P) where
  nil := trivial
  leaf _ := trivial
  append hf hg := (Forest.each_append _ _ _).mpr ⟨hf, hg⟩

def NodeKind.isValue : NodeKind → Bool
  | intValue | decimalValue | boolValue | stringValue | emptyOption | nameRef | list | map
  | construction => true
  | _ => false

def Valued (row : Row) : Prop :=
  ∀ shape ∈ row.tops, shape.kind.isValue = true ∨ shape.isFault = true

def Entered (row : Row) : Prop := ∀ shape ∈ row.tops, shape.kind = .mapEntry

def Flat (row : Row) : Prop := row.tops = []

def Shuts (closer : TokenKind) (row : Row) : Prop :=
  ∃ front t, row = front ++ .leaf t .nil ∧ t.kind = closer

def NodeKind.Holds : NodeKind → Bool → Row → Prop
  | .fieldType, _, inside => Typed inside
  | .decimalValue, _, inside => Flat inside
  | .list, true, inside => Valued inside ∧ Shuts .rbracket inside
  | .arguments, true, inside => Valued inside ∧ Shuts .rparen inside
  | .map, true, inside => Entered inside ∧ Shuts .rbrace inside
  | .mapEntry, true, inside => Valued inside
  | .namedArgument, true, inside =>
    ∃ t argument, inside = .node (.construct .fieldRef true) (.leaf t .nil) argument ∧
      Valued argument
  | .construction, _, inside =>
    ∃ name complete held behind,
      inside = name ++ .node (.construct .arguments complete) held behind ∧
      (behind = .nil ∨ ∃ shape skipped, behind = .node shape skipped .nil ∧ shape.isFault = true)
  | kind, _, inside =>
    kind.isLexeme = true → ∃ t, inside = .leaf t .nil ∧ kind.admits t.kind = true

def Shape.Formed : Shape → Row → Prop
  | .construct kind complete, inside => kind.Holds complete inside
  | .skipped _, _ => True

def Formed (row : Row) : Prop := row.Each Shape.Formed

theorem joins_formed : Joins Formed := joins_each _

theorem joins_flat : Joins Flat where
  nil := rfl
  leaf _ := rfl
  append hf hg := by
    rw [Flat, Forest.tops_append, hf, hg]
    rfl

theorem joins_tops (P : Shape → Prop) : Joins (fun row => ∀ shape ∈ row.tops, P shape) where
  nil := by simp [Forest.tops]
  leaf _ := by simp [Forest.tops]
  append hf hg := by
    rw [Forest.tops_append, List.forall_mem_append]
    exact ⟨hf, hg⟩

theorem joins_valued : Joins Valued := joins_tops _

theorem joins_entered : Joins Entered := joins_tops _

theorem Shuts.behind {closer : TokenKind} {row : Row} (h : Shuts closer row) (front : Row) :
    Shuts closer (front ++ row) := by
  obtain ⟨inner, t, rfl, ht⟩ := h
  exact ⟨front ++ inner, t, (Forest.append_assoc _ _ _).symm, ht⟩

def NodeKind.isFree : NodeKind → Bool
  | fieldType | decimalValue | construction => false
  | kind => !kind.isLexeme

theorem holds_of_isFree {kind : NodeKind} (h : kind.isFree = true)
    (hvalues : kind.holdsValues = false) (complete : Bool) (row : Row) :
    kind.Holds complete row := by
  cases kind <;> first
    | exact fun hlexeme => absurd hlexeme (by decide)
    | exact absurd h (by decide)
    | exact absurd hvalues (by decide)

theorem holds_cut {kind : NodeKind} (h : kind.isFree = true) (row : Row) :
    kind.Holds false row := by
  cases kind <;> first
    | exact fun hlexeme => absurd hlexeme (by decide)
    | exact absurd h (by decide)

theorem holds_lexeme {kind : NodeKind} (h : kind.isLexeme = true) {t : Lexeme}
    (ht : kind.admits t.kind = true) (complete : Bool) : kind.Holds complete (.leaf t .nil) := by
  cases kind <;> first | exact fun _ => ⟨t, rfl, ht⟩ | exact absurd h (by decide)

theorem exists_of_holds_lexeme {kind : NodeKind} (h : kind.isLexeme = true) {complete : Bool}
    {inside : Row} (hholds : kind.Holds complete inside) :
    ∃ t, inside = .leaf t .nil ∧ kind.admits t.kind = true := by
  cases kind <;> first | exact hholds h | exact absurd h (by decide)

theorem formed_skipped (fault : Fault) (ls : List Lexeme) :
    Formed (.node (.skipped fault) (.ofTokens ls) .nil) :=
  ⟨trivial, Forest.each_ofTokens _ _, trivial⟩

theorem Worded.formed {row : Row} (h : Worded row) : Formed row := by
  induction h with
  | nil => trivial
  | leaf t _ ih => exact ih
  | lexeme hkind ht _ ih => exact ⟨holds_lexeme hkind ht true, trivial, ih⟩

theorem Simple.formed {row : Row} (h : Simple row) : Formed row := by
  induction h with
  | nil => trivial
  | leaf t _ ih => exact ih
  | lexeme hkind ht _ ih => exact ⟨holds_lexeme hkind ht true, trivial, ih⟩
  | type hinside _ ih => exact ⟨hinside, hinside.worded.formed, ih⟩

/-! ## Steps that go through -/

namespace Step

open SchemaLang.Parser

variable {α β : Type} {P : Row → Prop}

def Makes (P : Row → Prop) (p : Step α) : Prop :=
  ∀ s a, (Parser.run p s).value = .ok a → P (Parser.run p s).built

theorem makes_of_yields {p : Step α} (h : Yields P p) : Makes P p := fun s _ _ => h s

theorem makes_choose {f : List Lexeme → Step α} (h : ∀ s, Makes P (f s)) : Makes P (choose f) :=
  fun s => h s s

theorem makes_stop (recovery : Recovery) (fault : Fault) :
    Makes P (stop recovery fault : Step α) := by
  intro s a ha
  rw [run_stop] at ha
  cases ha

/-- Of two steps that go through, what the first and what the second one makes. -/
theorem makes_then {Q R : Row → Prop} {p : Step α} {f : α → Step β} (hp : Makes P p)
    (hf : ∀ a, Makes Q (f a)) (h : ∀ f g, P f → Q g → R (f ++ g)) : Makes R (p >>= f) := by
  intro s b hb
  cases hvalue : (Parser.run p s).value with
  | error e =>
    rw [run_bind_of_error f hvalue] at hb
    cases hb
  | ok a =>
    rw [run_bind_of_ok f hvalue] at hb ⊢
    exact h _ _ (hp s a hvalue) (hf a _ b hb)

theorem makes_done_after {p : Step α} (hp : Makes P p) (g : α → β) :
    Makes P (p >>= fun a => pure (g a) : Step β) :=
  makes_then (Q := (· = .nil)) hp (fun _ => makes_of_yields fun _ => rfl) fun _ _ hf hg => by
    rw [hg, Forest.append_nil]
    exact hf

theorem makes_join (hP : Joins P) {p : Step α} {f : α → Step β} (hp : Makes P p)
    (hf : ∀ a, Makes P (f a)) : Makes P (p >>= f) := makes_then hp hf fun _ _ => hP.append

theorem makes_shuts {closer : TokenKind} {p : Step α} {f : α → Step β}
    (hf : ∀ a, Makes (Shuts closer) (f a)) : Makes (Shuts closer) (p >>= f) :=
  makes_then (P := fun _ => True) (fun _ _ _ => trivial) hf fun f _ _ hg => hg.behind f

theorem makes_sepTail (hP : Joins P) {item : Step α} (h : Makes P item) (closer : TokenKind)
    (otherwise : String → Stop) : Makes P (sepTail item closer otherwise) := by
  intro s answers hanswers
  show P (sepTail.loop item closer otherwise s).built
  replace hanswers : (sepTail.loop item closer otherwise s).value = .ok answers := hanswers
  fun_induction sepTail.loop item closer otherwise s generalizing answers with
  | case1 => cases hanswers
  | case2 t s hc => exact hP.leaf t
  | case3 t s hc hcomma o e he => cases hanswers
  | case4 t s hc hcomma o a ha r ih =>
    cases hvalue : r.value with
    | error e =>
      rw [hvalue] at hanswers
      cases hanswers
    | ok others => exact hP.append (hP.leaf t) (hP.append (h s a ha) (ih others hvalue))
  | case5 t s hc hcomma => cases hanswers

theorem shuts_sepTail (item : Step α) (closer : TokenKind) (otherwise : String → Stop) :
    Makes (Shuts closer) (sepTail item closer otherwise) := by
  intro s answers hanswers
  show Shuts closer (sepTail.loop item closer otherwise s).built
  replace hanswers : (sepTail.loop item closer otherwise s).value = .ok answers := hanswers
  fun_induction sepTail.loop item closer otherwise s generalizing answers with
  | case1 => cases hanswers
  | case2 t s hc => exact ⟨.nil, t, rfl, hc⟩
  | case3 t s hc hcomma o e he => cases hanswers
  | case4 t s hc hcomma o a ha r ih =>
    cases hvalue : r.value with
    | error e =>
      rw [hvalue] at hanswers
      cases hanswers
    | ok others => exact (ih others hvalue).behind (.leaf t o.built)
  | case5 t s hc hcomma => cases hanswers

end Step

namespace Parser

open Step

/-- A construct holds what its kind says when its steps go through and find
everything sound. -/
theorem formed_construct {kind : NodeKind} {body : Step Bool}
    (hcut : ∀ s, kind.Holds false (run body s).built)
    (hbody : Yields Formed body) (hmakes : Makes (kind.Holds true) body) :
    Yields Formed (construct kind body) := by
  intro s
  cases hvalue : (run body s).value with
  | ok sound =>
    rw [run_construct_of_ok hvalue]
    refine ⟨?_, hbody s, trivial⟩
    cases sound with
    | true => exact hmakes s true hvalue
    | false => exact hcut s
  | error e =>
    rw [run_construct_of_error hvalue]
    exact ⟨hcut s, hbody s, formed_skipped _ _⟩

theorem built_construct (kind : NodeKind) (body : Step Bool) (s : List Lexeme) :
    ∃ complete behind, ((construct kind body).run s).built =
        .node (.construct kind complete) (run body s).built behind ∧
      (behind = .nil ∨ ∃ shape skipped, behind = .node shape skipped .nil ∧
        shape.isFault = true) := by
  cases hvalue : (run body s).value with
  | ok sound => exact ⟨sound, .nil, by rw [run_construct_of_ok hvalue], .inl rfl⟩
  | error e => exact ⟨false, _, by rw [run_construct_of_error hvalue], .inr ⟨_, _, rfl, rfl⟩⟩

theorem valued_construct {kind : NodeKind} (hkind : kind.isValue = true) (body : Step Bool) :
    Yields Valued (construct kind body) := by
  intro s
  obtain ⟨complete, behind, hbuilt, hbehind⟩ := built_construct kind body s
  rw [hbuilt]
  rcases hbehind with rfl | ⟨shape, skipped, rfl, hfault⟩
  · simp [Valued, Forest.tops, Shape.kind, hkind]
  · simp [Valued, Forest.tops, Shape.kind, hkind, hfault]

theorem formed_statement {kind : NodeKind} (hkind : ∀ complete row, kind.Holds complete row)
    {body : Step Unit} {s : List Lexeme} (h : Formed (run body s).built) :
    Formed ((statement kind body).run s).built := by
  cases hvalue : (run body s).value with
  | ok u =>
    rw [run_statement_of_ok hvalue]
    exact ⟨hkind _ _, h, trivial⟩
  | error e =>
    rw [run_statement_of_error hvalue]
    exact ⟨hkind _ _, h, formed_skipped _ _⟩

end Parser

namespace Parse

open SchemaLang.Parser Step

def Values (row : Row) : Prop := Formed row ∧ Valued row

theorem joins_values : Joins Values where
  nil := ⟨joins_formed.nil, joins_valued.nil⟩
  leaf t := ⟨joins_formed.leaf t, joins_valued.leaf t⟩
  append hf hg := ⟨joins_formed.append hf.1 hg.1, joins_valued.append hf.2 hg.2⟩

theorem values_skip (fault : Fault) (extent : List Lexeme → Nat) :
    Yields Values (do skip fault extent; pure false) :=
  .bind joins_values (fun _ => ⟨formed_skipped _ _, by simp [Valued, Forest.tops]⟩)
    fun _ => .pure joins_values false

theorem values_literal {kind : NodeKind} (hlexeme : kind.isLexeme = true)
    (hadmits : ∀ token, kind.admits token = true) (hvalue : kind.isValue = true) :
    Yields Values (literal kind) := by
  refine .bind joins_values ?_ fun _ => .pure joins_values true
  rintro (_ | ⟨t, s⟩)
  · exact joins_values.nil
  · exact ⟨(yields_take hlexeme hadmits (t :: s)).formed, by
      simp [Valued, Forest.tops, Shape.kind, hvalue]⟩

theorem values_number : Yields Values number := by
  apply yields_choose
  intro s
  split
  · have hsteps {P : Row → Prop} (hP : Joins P) : Yields P (do
        bump
        bump
        punct .integer .value fun _ => .missingAfter "digits" s!"{found s}."
        pure true : Step Bool) :=
      yields_then hP (yields_liftM (.bump hP)) fun _ =>
      yields_then hP (yields_liftM (.bump hP)) fun _ =>
      yields_then hP (yields_punct hP _ _ _) fun _ => yields_done hP true
    have hformed := @formed_construct .decimalValue _ (hsteps joins_flat) (hsteps joins_formed)
      (makes_of_yields (hsteps joins_flat))
    exact fun r => ⟨hformed r, valued_construct rfl _ r⟩
  · exact values_literal rfl (fun _ => rfl) rfl

theorem makes_between {P : Row → Prop} (hP : Joins P) {item : Step Bool} (h : Makes P item)
    (closer : TokenKind) (otherwise : String → Stop) :
    Makes P (between closer item otherwise) := by
  have hbump : Makes P (liftM bump : Step Unit) := makes_of_yields (yields_liftM (.bump hP))
  refine makes_join hP hbump fun _ => makes_choose fun s => ?_
  split
  · exact makes_done_after hbump fun _ => true
  · exact makes_join hP h fun _ => makes_done_after (makes_sepTail hP h _ _) _

theorem shuts_between (item : Step Bool) (closer : TokenKind) (otherwise : String → Stop) :
    Makes (Shuts closer) (between closer item otherwise) := by
  refine makes_shuts fun _ s a ha => ?_
  rw [Step.run_choose] at ha ⊢
  split
  · -- the brackets stand side by side
    rename_i hstarts
    obtain ⟨t, rest, rfl⟩ := List.exists_cons_of_ne_nil (ahead_of_starts hstarts)
    rw [run_bump_then]
    exact ⟨.nil, t, rfl, by simpa [starts] using hstarts⟩
  · rename_i hstarts
    rw [if_neg hstarts] at ha
    exact makes_shuts (fun _ => makes_done_after (shuts_sepTail item closer otherwise) _) s a ha

/-- A construct between brackets around items, each of which adds to `P`. -/
theorem formed_bracketed {P : Row → Prop} (hP : Joins P) {kind : NodeKind}
    (hkind : kind.isFree = true) {closer : TokenKind}
    (hholds : ∀ row, P row → Shuts closer row → kind.Holds true row) {item : Step Bool}
    (hitem : Yields Formed item) (hmakes : Makes P item) (otherwise : String → Stop) :
    Yields Formed (construct kind (between closer item otherwise)) := by
  have hbump : Yields Formed (liftM bump : Step Unit) := yields_liftM (.bump joins_formed)
  refine formed_construct (fun _ => holds_cut hkind _)
    (yields_then joins_formed hbump fun _ => yields_choose fun s => ?_)
    fun s a ha => hholds _ (makes_between hP hmakes closer otherwise s a ha)
      (shuts_between item closer otherwise s a ha)
  split
  · exact yields_then joins_formed hbump fun _ => yields_done joins_formed true
  · exact yields_elements joins_formed hitem closer otherwise

theorem formed_liftM {value : Parser Bool} (h : Yields Values value) :
    Yields Formed (liftM value : Step Bool) := (yields_liftM h).mono fun _ h => h.1

theorem makes_liftM {value : Parser Bool} (h : Yields Values value) :
    Makes Valued (liftM value : Step Bool) := makes_of_yields ((yields_liftM h).mono fun _ h => h.2)

theorem values_list {value : Parser Bool} (h : Yields Values value) :
    Yields Values (list value) := by
  intro s
  exact ⟨formed_bracketed joins_valued rfl (fun _ => And.intro) (formed_liftM h)
    (makes_liftM h) _ s, valued_construct rfl _ s⟩

theorem formed_mapEntry {value : Parser Bool} (h : Yields Values value) :
    Yields Formed (mapEntry value) := by
  have hsteps : Yields Values (do
      let key ← value
      punct .colon (.delimited .rbrace) fun found => .misplaced "':'" .mapEntry found
      let entry ← value
      pure (key && entry) : Step Bool) :=
    yields_then joins_values (yields_liftM h) fun _ =>
    yields_then joins_values (yields_punct joins_values _ _ _) fun _ =>
    yields_then joins_values (yields_liftM h) fun _ => yields_done joins_values _
  intro s
  rw [mapEntry, run_group]
  split
  · rename_i sound _
    refine ⟨?_, (hsteps s).1, trivial⟩
    cases sound with
    | true => exact (hsteps s).2
    | false => exact holds_cut (show NodeKind.mapEntry.isFree = true from rfl) _
  · exact (hsteps s).1

theorem makes_mapEntry (value : Parser Bool) : Makes Entered (mapEntry value) := by
  intro s a ha
  rw [mapEntry, run_group] at ha ⊢
  split at ha
  · simp [Entered, Forest.tops, Shape.kind]
  · rename_i hvalue
    rw [hvalue] at ha
    cases ha

theorem values_map {value : Parser Bool} (h : Yields Values value) : Yields Values (map value) := by
  intro s
  exact ⟨formed_bracketed joins_entered rfl (fun _ => And.intro) (formed_mapEntry h)
    (makes_mapEntry value) _ s, valued_construct rfl _ s⟩

theorem formed_arguments {value : Parser Bool} (h : Yields Values value) :
    Yields Formed (arguments value) := by
  refine formed_bracketed joins_valued rfl (fun _ => And.intro)
    (yields_choose fun s => ?_) (makes_choose fun s => ?_) _
  · split
    · exact yields_stop joins_formed _ _
    · exact formed_liftM h
  · split
    · exact makes_stop _ _
    · exact makes_liftM h

theorem values_construction {value : Parser Bool} (h : Yields Values value) :
    Yields Values (construction value) := by
  intro s
  have hname :=
    yields_take (show NodeKind.constructorName.isLexeme = true from rfl) (fun _ => rfl) s
  have harguments := formed_arguments h ((take .constructorName).run s).rest
  have hholds : NodeKind.construction.Holds true (((take .constructorName).run s).built ++
      ((arguments value).run ((take .constructorName).run s).rest).built) := by
    obtain ⟨complete, behind, hbuilt, hbehind⟩ :=
      built_construct .arguments _ ((take .constructorName).run s).rest
    exact ⟨_, complete, _, behind, congrArg (_ ++ ·) hbuilt, hbehind⟩
  exact ⟨⟨hholds, joins_formed.append hname.formed harguments, trivial⟩, by
    simp [construction, wrap, within, Valued, Forest.tops, Shape.kind, NodeKind.isValue]⟩

theorem values_valueOf {list map construction : Parser Bool} (hl : Yields Values list)
    (hm : Yields Values map) (hc : Yields Values construction) :
    Yields Values (valueOf list map construction) := by
  apply yields_choose
  intro s
  split
  · exact yields_choose fun _ => values_skip _ _
  · split
    · exact values_number
    · exact values_literal rfl (fun _ => rfl) rfl
    · exact values_literal rfl (fun _ => rfl) rfl
    · exact hl
    · exact hm
    · split
      · exact values_literal rfl (fun _ => rfl) rfl
      · split
        · exact hc
        · exact values_literal rfl (fun _ => rfl) rfl
    · exact yields_choose fun _ => values_skip _ _

theorem values_value (room : Nat) : Yields Values (value room) := by
  induction room with
  | zero => exact values_valueOf (values_skip _ _) (values_skip _ _) (values_skip _ _)
  | succ room ih => exact values_valueOf (values_list ih) (values_map ih) (values_construction ih)

/-! ## Tags and files -/

theorem formed_expect {kind : TokenKind} {node : NodeKind} (h : node.isLexeme = true)
    (hadmits : node.admits kind = true) (recovery : Recovery) (fault : String → Fault) :
    Yields Formed (expect kind node recovery fault) :=
  yields_expect joins_formed (fun _ => Worded.formed) h hadmits recovery fault

/-- A step behind a lexeme goes through only where that lexeme was found. -/
theorem starts_of_expect {α : Type} {kind : TokenKind} {node : NodeKind} {recovery : Recovery}
    {fault : String → Fault} {f : String → Step α} {s : List Lexeme} {a : α}
    (h : (run (expect kind node recovery fault >>= f : Step α) s).value = .ok a) :
    starts kind s = true := by
  cases hs : starts kind s with
  | true => rfl
  | false =>
    rw [run_bind_of_error _ (by rw [run_expect_of_not_starts _ _ _ hs])] at h
    cases h

theorem formed_namedArgument {value : Parser Bool} (h : Yields Values value) :
    Yields Formed (namedArgument value) := by
  have hrest (field : String) : Yields Values (do
      punct .equals .tag fun _ => .missingAfter "'='" field
      value : Step Bool) :=
    yields_then joins_values (yields_punct joins_values _ _ _) fun _ => yields_liftM h
  have hsteps : Yields Formed (do
      let field ← expect .identifier .fieldRef .tag fun found =>
        .misplaced "field name" .tag found
      punct .equals .tag fun _ => .missingAfter "'='" field
      value : Step Bool) :=
    yields_then joins_formed (formed_expect rfl rfl _ _) fun field =>
      (hrest field).mono fun _ h => h.1
  intro s
  rw [namedArgument, run_group]
  split
  · rename_i sound hvalue
    refine ⟨?_, hsteps s, trivial⟩
    cases sound with
    | false => exact holds_cut (show NodeKind.namedArgument.isFree = true from rfl) _
    | true =>
      have hs := starts_of_expect hvalue
      obtain ⟨t, rest, rfl⟩ := List.exists_cons_of_ne_nil (ahead_of_starts hs)
      have ht : t.kind = .identifier := by simpa [starts] using hs
      rw [run_bind_of_ok _ (by rw [run_expect ht]), run_expect ht]
      exact ⟨t, _, rfl, (hrest _ rest).2⟩
  · exact hsteps s

theorem formed_tag {value : Parser Bool} (h : Yields Values value) : Yields Formed (tag value) := by
  have hbump : Yields Formed (liftM bump : Step Unit) := yields_liftM (.bump joins_formed)
  have hdone : Yields Formed (pure () : Step Unit) := yields_done joins_formed ()
  intro s
  refine formed_statement (holds_of_isFree rfl rfl) ?_
  refine yields_then joins_formed hbump (fun _ =>
    yields_then joins_formed (formed_expect rfl rfl _ _) fun _ =>
    yields_then joins_formed (yields_choose fun s => ?_) fun _ =>
    yields_closing joins_formed _ _ _) s
  split
  · split
    · exact yields_then joins_formed hbump fun _ =>
        yields_then joins_formed (yields_elements joins_formed (formed_namedArgument h) _ _)
          fun _ => hdone
    · exact yields_then joins_formed (yields_liftM (formed_arguments h)) fun _ => hdone
  · exact hdone

end Parse

theorem NodeKind.isFree_of_isStatement {kind : NodeKind} (h : kind.isStatement = true) :
    kind.isFree = true ∧ kind.holdsValues = false := by
  cases kind <;> first | exact ⟨rfl, rfl⟩ | exact absurd h (by decide)

theorem passes_formed : Passes Formed where
  joins := joins_formed
  simple _ := Simple.formed
  skipped := formed_skipped
  statement hkind h := by
    obtain ⟨hfree, hvalues⟩ := NodeKind.isFree_of_isStatement hkind
    exact Parser.formed_statement (holds_of_isFree hfree hvalues) h
  tag room := Parse.formed_tag (Parse.values_value room)

/-- Whatever was read, every construct holds what its kind says. -/
theorem formed_parseWith (room : Nat) (s : List Lexeme) : Formed (parseWith room s) :=
  passes_formed.parseWith room s

end SchemaLang
