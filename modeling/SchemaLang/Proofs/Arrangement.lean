import SchemaLang.KnownNames
import SchemaLang.Proofs.Formed

/-!
# What stands in what

Every kind of construct has its inhabitants: the kinds of nodes that may stand
in it, also where it was cut short and holds the parts of what could not be
finished. A value begins with the lexeme that told it from other values. Some
constructs have a composition besides: a tag begins with the name of its type
and a construction with the name of what it constructs, only a generic type has
parameters and as many as it takes, a numbered field has a type and a name, an
entry or a named argument without a fault has exactly two parts, and an empty
option is written `_`.
-/

set_option autoImplicit false

namespace SchemaLang

namespace NodeKind

def values : List NodeKind :=
  [.intValue, .decimalValue, .boolValue, .stringValue, .emptyOption, .nameRef, .list, .map,
    .construction, .error]

def inhabitants : NodeKind → List NodeKind
  | .schemaFile => [.package, .importing, .setting, .enum, .type, .component, .tag, .error]
  | .package => [.keyword, .packageName]
  | .importing => [.keyword, .importPath]
  | .setting => [.keyword, .settingName, .settingValue]
  | .type => [.keyword, .definitionName, .setting, .tag, .enum, .type, .field, .error]
  | .enum => [.keyword, .definitionName, .tag, .enumValue, .error]
  | .component =>
    [.keyword, .definitionName, .setting, .tag, .componentId, .data, .event, .command, .field,
      .error]
  | .field => [.keyword, .fieldType, .typeName, .typeParameter, .fieldName, .fieldNumber]
  | .fieldType => [.typeName, .typeParameter]
  | .enumValue => [.fieldName, .fieldNumber]
  | .componentId => [.keyword, .fieldNumber]
  | .data => [.keyword, .fieldType, .typeName, .typeParameter]
  | .event => [.keyword, .fieldType, .typeName, .typeParameter, .fieldName]
  | .command => [.keyword, .typeRef, .fieldName]
  | .tag => .typeRef :: .arguments :: .namedArgument :: .fieldRef :: values
  | .namedArgument => .fieldRef :: values
  | .arguments | .list | .mapEntry => values
  | .map => .mapEntry :: values
  | .construction => [.constructorName, .arguments, .error]
  | _ => []

def opener? : NodeKind → Option TokenKind
  | .intValue | .decimalValue => some .integer
  | .boolValue => some .boolean
  | .stringValue => some .string
  | .emptyOption | .nameRef | .construction => some .identifier
  | .list => some .lbracket
  | .map => some .lbrace
  | _ => none

end NodeKind

namespace Forest

def kinds (row : Row) : List NodeKind := row.tops.map Shape.kind

@[simp] theorem kinds_append (f g : Row) : kinds (f ++ g) = kinds f ++ kinds g := by
  rw [kinds, tops_append, List.map_append, kinds, kinds]

@[simp] theorem kinds_node (shape : Shape) (inside next : Row) :
    kinds (.node shape inside next) = shape.kind :: kinds next := rfl

end Forest

open Forest

def Alone (kind : NodeKind) (tops : List Shape) : Prop :=
  (∃ complete, tops = [.construct kind complete]) ∨
    ∃ fault, tops = [.construct kind false, .skipped fault]

def Applied (tops : List Shape) : Prop :=
  tops = [] ∨ Alone .arguments tops ∨ (tops ≠ [] ∧ ∀ shape ∈ tops, shape.kind = .namedArgument)

/-- Where there is a named argument there is no argument list. -/
theorem Applied.of_named {tops : List Shape} (h : Applied tops) {shape other : Shape}
    (hshape : shape ∈ tops) (hnamed : shape.kind = .namedArgument) (hother : other ∈ tops) :
    other.kind ≠ .arguments := by
  rcases h with rfl | (⟨complete, rfl⟩ | ⟨fault, rfl⟩) | ⟨-, hall⟩
  · cases hshape
  · rw [List.mem_singleton.mp hshape] at hnamed
    cases hnamed
  · rcases List.mem_cons.mp hshape with rfl | hshape
    · cases hnamed
    · rw [List.mem_singleton.mp hshape] at hnamed
      cases hnamed
  · rw [hall other hother]
    decide

def Paired (row : Row) : Prop := Faulty row = false → row.tops.length = 2

def NodeKind.Composes : NodeKind → Bool → Row → Prop
  | .fieldType, _, inside => inside = .nil ∨ ∃ t parameters,
      inside = .node (.construct .typeName true) (.leaf t .nil) parameters ∧
      (parameters.tops = [] ∨ ∃ count, Parse.parameterCount? t.text = some count ∧
        parameters.tops = .replicate count (.construct .typeParameter true))
  | .field, _, inside => .fieldNumber ∈ kinds inside →
      kinds inside = [.fieldType, .fieldName, .fieldNumber] ∨
      kinds inside = [.keyword, .fieldType, .fieldName, .fieldNumber]
  | .tag, complete, inside => (complete = false ∧ inside.tops = []) ∨
      ∃ rest, inside.tops = .construct .typeRef true :: rest ∧
        (∀ shape ∈ rest, shape.kind ≠ .typeRef) ∧ (complete = true → Applied rest)
  | .construction, _, inside => ∃ rest,
      inside.tops = .construct .constructorName true :: rest ∧ Alone .arguments rest
  | .mapEntry, true, inside | .namedArgument, true, inside => Paired inside
  | .emptyOption, _, inside => ∃ t, inside = .leaf t .nil ∧ t.text = "_"
  | .nameRef, _, inside => ∃ t, inside = .leaf t .nil ∧ t.text ≠ "_"
  | _, _, _ => True

def NodeKind.isComposed : NodeKind → Bool
  | fieldType | field | tag | construction | mapEntry | namedArgument | emptyOption
  | nameRef => true
  | _ => false

theorem composes_plain {kind : NodeKind} (h : kind.isComposed = false) (complete : Bool)
    (inside : Row) : kind.Composes complete inside := by
  cases kind <;> trivial

def Shape.Composed : Shape → Row → Prop
  | .construct kind complete, inside => kind.Composes complete inside
  | .skipped _, _ => True

def NodeKind.Opens (kind : NodeKind) (inside : Row) : Prop :=
  ∀ opener, kind.opener? = some opener → ∃ t, inside.leaves.head? = some t ∧ t.kind = opener

/-- Nodes of the allowed kinds stand in the row, and in each node what may. -/
def Arranged (allowed : List NodeKind) : Row → Prop
  | .nil => True
  | .leaf _ next => Arranged allowed next
  | .node shape inside next =>
    shape.kind ∈ allowed ∧ shape.kind.Opens inside ∧ shape.Composed inside ∧
      Arranged shape.kind.inhabitants inside ∧ Arranged allowed next

variable {allowed wider : List NodeKind}

theorem arranged_append (f g : Row) :
    Arranged allowed (f ++ g) ↔ Arranged allowed f ∧ Arranged allowed g := by
  induction f with
  | nil => simp [Arranged]
  | leaf t next ih => exact ih
  | node shape inside next _ ih => simp [Arranged, ih, and_assoc]

theorem joins_arranged : Joins (Arranged allowed) :=
  ⟨trivial, fun _ => trivial, fun hf hg => (arranged_append _ _).mpr ⟨hf, hg⟩⟩

theorem arranged_ofTokens (ls : List Lexeme) : Arranged allowed (.ofTokens ls) := by
  induction ls with
  | nil => trivial
  | cons l ls ih => exact ih

theorem Arranged.mono {row : Row} (h : Arranged allowed row) (hwider : allowed ⊆ wider) :
    Arranged wider row := by
  induction row with
  | nil => trivial
  | leaf t next ih => exact ih h
  | node shape inside next _ ih => exact ⟨hwider h.1, h.2.1, h.2.2.1, h.2.2.2.1, ih h.2.2.2.2⟩

theorem Arranged.kinds {row : Row} (h : Arranged allowed row) :
    ∀ kind ∈ kinds row, kind ∈ allowed := by
  induction row with
  | nil => simp [Forest.kinds, tops]
  | leaf t next ih => exact ih h
  | node shape inside next _ ih =>
    rw [kinds_node, List.forall_mem_cons]
    exact ⟨h.1, ih h.2.2.2.2⟩

/-- What stands anywhere in an arranged row, by what may stand in it. -/
theorem Arranged.labels {row : Row} (h : Arranged allowed row) (hwider : allowed ⊆ wider)
    (hclosed : ∀ kind ∈ wider, kind.inhabitants ⊆ wider) : ∀ a ∈ row.labels, a.kind ∈ wider := by
  induction row generalizing allowed with
  | nil => simp [Forest.labels]
  | leaf t next ih => exact ih h hwider
  | node shape inside next ihi ihn =>
    have hkind := hwider h.1
    rw [Forest.labels, List.forall_mem_cons, List.forall_mem_append]
    exact ⟨hkind, ihi h.2.2.2.1 (hclosed _ hkind), ihn h.2.2.2.2 hwider⟩

theorem Arranged.each {row : Row} (h : Arranged allowed row) :
    row.Each fun shape inside =>
      shape.kind.Opens inside ∧ shape.Composed inside ∧ Arranged shape.kind.inhabitants inside := by
  induction row generalizing allowed with
  | nil => trivial
  | leaf t next ih => exact ih h
  | node shape inside next ihi ihn =>
    exact ⟨⟨h.2.1, h.2.2.1, h.2.2.2.1⟩, ihi h.2.2.2.1, ihn h.2.2.2.2⟩

theorem arranged_skipped (herror : .error ∈ allowed) (fault : Fault) (ls : List Lexeme) :
    Arranged allowed (.node (.skipped fault) (.ofTokens ls) .nil) :=
  ⟨herror, (by intro _ h; cases h), trivial, arranged_ofTokens ls, trivial⟩

theorem arranged_lexeme {kind : NodeKind} (hkind : kind ∈ allowed) {t : Lexeme}
    (ht : ∀ opener, kind.opener? = some opener → t.kind = opener)
    (hcomposes : kind.Composes true (.leaf t .nil)) :
    Arranged allowed (.node (.construct kind true) (.leaf t .nil) .nil) :=
  ⟨hkind, fun opener h => ⟨t, rfl, ht opener h⟩, hcomposes, trivial, trivial⟩

theorem NodeKind.not_isComposed_of_isLexeme {kind : NodeKind} (h : kind.isLexeme = true)
    (hopener : kind.opener? = none) : kind.isComposed = false := by
  cases kind <;> first | rfl | exact absurd h (by decide) | exact absurd hopener (by decide)

namespace Parser

open Step

theorem arranged_take {kind : NodeKind} (hkind : kind ∈ allowed) (hlexeme : kind.isLexeme = true)
    (hopener : kind.opener? = none) : Yields (Arranged allowed) (take kind) := by
  rintro (_ | ⟨t, s⟩)
  · trivial
  · exact arranged_lexeme hkind (by simp [hopener])
      (composes_plain (NodeKind.not_isComposed_of_isLexeme hlexeme hopener) _ _)

/-- A construct of an allowed kind, and behind it what a fault made it skip. -/
theorem arranged_construct {kind : NodeKind} (hkind : kind ∈ allowed) (herror : .error ∈ allowed)
    {body : Step Bool} {s : List Lexeme}
    (hbody : Arranged kind.inhabitants (run body s).built) (hopens : kind.Opens (run body s).built)
    (hplain : kind.isComposed = false) : Arranged allowed ((construct kind body).run s).built := by
  cases hvalue : (run body s).value with
  | ok sound =>
    rw [run_construct_of_ok hvalue]
    exact ⟨hkind, hopens, composes_plain hplain _ _, hbody, trivial⟩
  | error e =>
    rw [run_construct_of_error hvalue]
    exact ⟨hkind, hopens, composes_plain hplain _ _, hbody, arranged_skipped herror _ _⟩

theorem alone_construct (kind : NodeKind) (body : Step Bool) (s : List Lexeme) :
    Alone kind ((construct kind body).run s).built.tops := by
  cases hvalue : (run body s).value with
  | ok sound =>
    rw [run_construct_of_ok hvalue]
    exact .inl ⟨sound, rfl⟩
  | error e =>
    rw [run_construct_of_error hvalue]
    exact .inr ⟨e.fault, rfl⟩

theorem arranged_statement {kind : NodeKind} (hkind : kind ∈ allowed) (herror : .error ∈ allowed)
    {body : Step Unit} {s : List Lexeme}
    (hbody : Arranged kind.inhabitants (run body s).built) (hopener : kind.opener? = none)
    (hwhole : (run body s).value = .ok () → kind.Composes true (run body s).built)
    (hcut : kind.Composes false (run body s).built) :
    Arranged allowed ((statement kind body).run s).built := by
  have hopens : kind.Opens (run body s).built := fun opener h => by simp [hopener] at h
  cases hvalue : (run body s).value with
  | ok u =>
    rw [run_statement_of_ok hvalue]
    exact ⟨hkind, hopens, hwhole hvalue, hbody, trivial⟩
  | error e =>
    rw [run_statement_of_error hvalue]
    exact ⟨hkind, hopens, hcut, hbody, arranged_skipped herror _ _⟩

theorem arranged_plainStatement {kind : NodeKind} (hkind : kind ∈ allowed)
    (herror : .error ∈ allowed) {body : Step Unit}
    (hbody : Yields (Arranged kind.inhabitants) body) (hopener : kind.opener? = none)
    (hplain : kind.isComposed = false) : Yields (Arranged allowed) (statement kind body) :=
  fun s => arranged_statement hkind herror (hbody s) hopener
    (fun _ => composes_plain hplain _ _) (composes_plain hplain _ _)

end Parser

namespace Step

open SchemaLang.Parser

variable {α : Type}

/-- What two steps build when the second one may not be reached. -/
theorem yields_behind {β : Type} {P Q R : Row → Prop} {p : Step α} {f : α → Step β}
    (hp : Yields P p) (hf : ∀ a, Yields Q (f a)) (hstop : ∀ row, P row → R row)
    (h : ∀ f g, P f → Q g → R (f ++ g)) : Yields R (p >>= f : Step β) := by
  intro s
  cases hvalue : (Parser.run p s).value with
  | error e =>
    rw [run_bind_of_error f hvalue]
    exact hstop _ (hp s)
  | ok a =>
    rw [run_bind_of_ok f hvalue]
    exact h _ _ (hp s) (hf a _)

theorem arranged_expect {kind : TokenKind} {node : NodeKind} (hnode : node ∈ allowed)
    (hlexeme : node.isLexeme = true) (hopener : node.opener? = none) (recovery : Recovery)
    (fault : String → Fault) : Yields (Arranged allowed) (expect kind node recovery fault) :=
  yields_then joins_arranged (yields_require joins_arranged _ _ _) fun _ =>
    yields_liftM (arranged_take hnode hlexeme hopener)

/-- When a step of the inner construct stops, its parts stand in the row itself. -/
theorem arranged_group {kind : NodeKind} {complete : α → Bool} {body : Step α}
    (hkind : kind ∈ allowed) (hbody : Yields (Arranged kind.inhabitants) body)
    (hspilled : kind.inhabitants ⊆ allowed) (hopener : kind.opener? = none)
    (hcomposes : ∀ s a, (Parser.run body s).value = .ok a →
      kind.Composes (complete a) (Parser.run body s).built) :
    Yields (Arranged allowed) (group kind complete body) := by
  intro s
  rw [run_group]
  cases hvalue : (Parser.run body s).value with
  | ok a =>
    exact ⟨hkind, fun opener h => by simp [Shape.kind, hopener] at h, hcomposes s a hvalue, hbody s,
      trivial⟩
  | error e => exact (hbody s).mono hspilled

end Step

namespace Parse

open SchemaLang.Parser Step

/-! ## Values -/

def Opening (opener : TokenKind) (P : Row → Prop) (p : Parser Bool) : Prop :=
  ∀ t s, t.kind = opener → P (p.run (t :: s)).built

def Seated (row : Row) : Prop :=
  Arranged NodeKind.values row ∧ (Faulty row = false → row.tops.length = 1)

theorem seated_skip (fault : Fault) (extent : List Lexeme → Nat) :
    Yields Seated (do skip fault extent; pure false) :=
  fun _ => ⟨arranged_skipped (by decide) _ _, fun hfaulty => by cases hfaulty⟩

theorem seated_literal {kind : NodeKind} {t : Lexeme} (hkind : kind ∈ NodeKind.values)
    (hopener : kind.opener? = some t.kind) (hcomposes : kind.Composes true (.leaf t .nil))
    (s : List Lexeme) : Seated ((literal kind).run (t :: s)).built :=
  ⟨arranged_lexeme hkind (fun _ ho => Option.some.inj (hopener.symm.trans ho)) hcomposes,
    fun _ => rfl⟩

theorem Alone.length {kind : NodeKind} {row : Row} (h : Alone kind row.tops)
    (hfaulty : Faulty row = false) : row.tops.length = 1 := by
  have htops (f : Row) (hf : Faulty f = false) : ∀ shape ∈ f.tops, shape.isFault = false := by
    induction f with
    | nil => simp [tops]
    | leaf t next ih => exact ih hf
    | node shape inside next _ ih =>
      simp only [faulty_node, Bool.or_eq_false_iff] at hf
      rw [tops, List.forall_mem_cons]
      exact ⟨hf.1, ih hf.2.2⟩
  rcases h with ⟨complete, h⟩ | ⟨fault, h⟩
  · rw [h]
    rfl
  · have hfault := htops row hfaulty (.skipped fault) (by simp [h])
    cases hfault

theorem seated_construct {kind : NodeKind} {opener : TokenKind} (hkind : kind ∈ NodeKind.values)
    (hopener : kind.opener? = some opener) (hplain : kind.isComposed = false)
    {f : Unit → Step Bool} (h : ∀ u, Yields (Arranged kind.inhabitants) (f u)) :
    Opening opener Seated (construct kind ((liftM bump : Step Unit) >>= f)) := by
  intro t s ht
  refine ⟨arranged_construct hkind (by decide) ?_ (fun o ho => ?_) hplain,
    Alone.length (alone_construct kind _ _)⟩
  · rw [run_bump_then]
    exact h () s
  · rw [run_bump_then]
    exact ⟨t, rfl, ht.trans (Option.some.inj (hopener.symm.trans ho))⟩

theorem seated_number : Opening .integer Seated number := by
  intro t s ht
  rw [number, Parser.run_choose]
  split
  · exact seated_construct (by decide) rfl rfl (fun _ =>
      yields_then joins_arranged (yields_liftM (.bump joins_arranged)) fun _ =>
      yields_then joins_arranged (yields_punct joins_arranged _ _ _) fun _ =>
        yields_done joins_arranged true) t s ht
  · exact seated_literal (by decide) (by rw [ht]; rfl) (composes_plain rfl _ _) s

theorem arranged_value {value : Parser Bool} (h : Yields Seated value)
    (hwider : NodeKind.values ⊆ allowed) : Yields (Arranged allowed) (liftM value : Step Bool) :=
  yields_liftM (h.mono fun _ hrow => hrow.1.mono hwider)

theorem seated_list {value : Parser Bool} (h : Yields Seated value) :
    Opening .lbracket Seated (list value) :=
  seated_construct (by decide) rfl rfl fun _ =>
    yields_behindOpener joins_arranged (arranged_value h (List.Subset.refl _)) _ _

/-- A value, a mark and another value, all of which went through. -/
theorem paired_entry {value : Parser Bool} (h : Yields Seated value) {mark : Step Unit}
    (hmark : Yields (fun row => row.tops = []) mark) (s : List Lexeme) (a : Bool)
    (ha : (run (do
      let key ← value
      mark
      let entry ← value
      pure (key && entry) : Step Bool) s).value = .ok a) :
    Paired (run (do
      let key ← value
      mark
      let entry ← value
      pure (key && entry) : Step Bool) s).built := by
  obtain ⟨key, -, ha, hkey⟩ := exists_of_bind ha
  obtain ⟨colon, -, ha, hcolon⟩ := exists_of_bind ha
  obtain ⟨entry, -, -, hentry⟩ := exists_of_bind ha
  rw [hkey, hcolon, hentry, run_liftM, run_liftM, Step.run_pure]
  intro hfaulty
  simp only [faulty_append, Bool.or_eq_false_iff] at hfaulty
  simp only [tops_append, List.length_append, hmark _, tops, List.length_nil]
  rw [(h s).2 hfaulty.1, (h _).2 hfaulty.2.2.1]

theorem arranged_mapEntry {value : Parser Bool} (h : Yields Seated value) :
    Yields (Arranged NodeKind.map.inhabitants) (mapEntry value) := by
  have hbody : Yields (Arranged NodeKind.mapEntry.inhabitants) (do
      let key ← value
      punct .colon (.delimited .rbrace) fun found => .misplaced "':'" .mapEntry found
      let entry ← value
      pure (key && entry) : Step Bool) :=
    yields_then joins_arranged (arranged_value h (List.Subset.refl _)) fun _ =>
    yields_then joins_arranged (yields_punct joins_arranged _ _ _) fun _ =>
    yields_then joins_arranged (arranged_value h (List.Subset.refl _)) fun _ =>
      yields_done joins_arranged _
  refine arranged_group (by decide) hbody (by decide) rfl fun s a ha => ?_
  cases a with
  | false => trivial
  | true => exact paired_entry h (yields_punct joins_flat _ _ _) s true ha

theorem seated_map {value : Parser Bool} (h : Yields Seated value) :
    Opening .lbrace Seated (map value) :=
  seated_construct (by decide) rfl rfl fun _ =>
    yields_behindOpener joins_arranged (arranged_mapEntry h) _ _

theorem arranged_arguments {value : Parser Bool} (h : Yields Seated value)
    (harguments : .arguments ∈ allowed) (herror : .error ∈ allowed) :
    Yields (Arranged allowed) (arguments value) := by
  intro s
  refine arranged_construct harguments herror ?_ (fun _ ho => by cases ho) rfl
  refine yields_then joins_arranged (yields_liftM (.bump joins_arranged)) (fun _ =>
    yields_behindOpener joins_arranged (yields_choose fun s => ?_) _ _) s
  split
  · exact yields_stop joins_arranged _ _
  · exact arranged_value h (List.Subset.refl _)

theorem seated_construction {value : Parser Bool} (h : Yields Seated value) :
    Opening .identifier Seated (construction value) := by
  intro t s ht
  refine ⟨⟨(by decide), fun o ho => ?_, ⟨_, rfl, alone_construct .arguments _ s⟩, ?_, trivial⟩,
    fun _ => rfl⟩
  · exact ⟨t, rfl, ht.trans (Option.some.inj ho)⟩
  · exact (arranged_append _ _).mpr ⟨arranged_lexeme (by decide)
      (fun o ho => by cases ho) (composes_plain rfl _ _),
        arranged_arguments h (by decide) (by decide) s⟩

theorem seated_valueOf {list map construction : Parser Bool}
    (hl : Opening .lbracket Seated list) (hm : Opening .lbrace Seated map)
    (hc : Opening .identifier Seated construction) :
    Yields Seated (valueOf list map construction) := by
  intro s
  rw [valueOf, Parser.run_choose]
  split
  · exact seated_skip _ _ []
  · rename_i t s
    split
    · exact seated_number t s ‹_›
    · rename_i hkind
      exact seated_literal (by decide) (by rw [hkind]; rfl) (composes_plain rfl _ _) s
    · rename_i hkind
      exact seated_literal (by decide) (by rw [hkind]; rfl) (composes_plain rfl _ _) s
    · exact hl t s ‹_›
    · exact hm t s ‹_›
    · rename_i hkind
      split
      · rename_i hword
        have hcomposes : NodeKind.emptyOption.Composes true (.leaf t .nil) :=
          ⟨t, rfl, eq_of_beq hword⟩
        exact seated_literal (by decide) (by rw [hkind]; rfl) hcomposes s
      rename_i hword
      split
      · exact hc t s hkind
      · have hcomposes : NodeKind.nameRef.Composes true (.leaf t .nil) :=
          ⟨t, rfl, fun htext => hword (beq_iff_eq.mpr htext)⟩
        exact seated_literal (by decide) (by rw [hkind]; rfl) hcomposes s
    · exact seated_skip _ _ (t :: s)

theorem seated_value (room : Nat) : Yields Seated (value room) := by
  have hdeep (opener : TokenKind) : Opening opener Seated tooDeep :=
    fun t s _ => seated_skip _ _ (t :: s)
  induction room with
  | zero => exact seated_valueOf (hdeep _) (hdeep _) (hdeep _)
  | succ room ih => exact seated_valueOf (seated_list ih) (seated_map ih) (seated_construction ih)

/-! ## Tags -/

abbrev behindName : List NodeKind := .arguments :: .namedArgument :: .fieldRef :: NodeKind.values

theorem arranged_namedArgument {value : Parser Bool} (h : Yields Seated value)
    (hnamed : .namedArgument ∈ allowed) (hspilled : NodeKind.namedArgument.inhabitants ⊆ allowed) :
    Yields (Arranged allowed) (namedArgument value) := by
  have hbody : Yields (Arranged NodeKind.namedArgument.inhabitants) (do
      let field ← expect .identifier .fieldRef .tag fun found =>
        .misplaced "field name" .tag found
      punct .equals .tag fun _ => .missingAfter "'='" field
      value : Step Bool) :=
    yields_then joins_arranged (arranged_expect (by decide) rfl rfl _ _) fun _ =>
    yields_then joins_arranged (yields_punct joins_arranged _ _ _) fun _ =>
      arranged_value h (by decide)
  refine arranged_group hnamed hbody hspilled rfl fun s a ha => ?_
  cases a with
  | false => trivial
  | true =>
    -- the name was found, so it stands in front of the value
    have hs := starts_of_expect ha
    obtain ⟨t, rest, rfl⟩ := List.exists_cons_of_ne_nil (ahead_of_starts hs)
    have ht : t.kind = .identifier := by simpa [starts] using hs
    obtain ⟨field, -, ha, hfield⟩ := exists_of_bind ha
    obtain ⟨equals, -, -, hequals⟩ := exists_of_bind ha
    rw [hfield, hequals, run_expect ht, run_liftM]
    intro hfaulty
    simp only [faulty_append, Bool.or_eq_false_iff] at hfaulty
    have hmark := yields_punct joins_flat .equals .tag (fun _ => .missingAfter "'='" field) rest
    simp only [tops_append, List.length_append, show tops _ = [] from hmark, tops,
      List.length_cons, List.length_nil, (h _).2 hfaulty.2.2]

theorem makes_namedArguments (value : Parser Bool) (otherwise : String → Stop) :
    Makes (fun row => row.tops ≠ [] ∧ ∀ shape ∈ row.tops, shape.kind = .namedArgument)
      (elements (namedArgument value) .rparen otherwise) := by
  have hitem : Makes (fun row => row.tops = [.construct .namedArgument true] ∨
      row.tops = [.construct .namedArgument false]) (namedArgument value) := by
    intro s a ha
    rw [namedArgument, run_group] at ha ⊢
    split at ha
    · rename_i sound _
      cases sound
      · exact .inr rfl
      · exact .inl rfl
    · rename_i hvalue
      rw [hvalue] at ha
      cases ha
  have hkind {row : Row} (h : row.tops = [.construct .namedArgument true] ∨
      row.tops = [.construct .namedArgument false]) :
      ∀ shape ∈ row.tops, shape.kind = .namedArgument := by
    rcases h with h | h <;> simp [h, Shape.kind]
  have hothers : Makes (fun row => ∀ shape ∈ row.tops, shape.kind = .namedArgument)
      (sepTail (namedArgument value) .rparen otherwise) :=
    makes_sepTail (joins_tops _) (fun s a ha => hkind (hitem s a ha)) _ _
  refine makes_then hitem (fun _ => makes_done_after hothers _) fun f g hf hg => ⟨?_, ?_⟩
  · rcases hf with hf | hf <;> simp [hf]
  · rw [tops_append, List.forall_mem_append]
    exact ⟨hkind hf, hg⟩

def behindTagName (value : Parser Bool) : Step Unit := do
  Step.choose fun s =>
    if starts .lparen s then
      if isNamed s then do
        bump
        let _ ← elements (namedArgument value) .rparen fun found =>
          ⟨.tag, .misplaced "',' or ')'" .tag found⟩
      else do
        let _ ← arguments value
    else pure ()
  closing .rbracket .tag .unclosedTag

def tagSteps (value : Parser Bool) : Step Unit := do
  bump
  let _ ← expect .identifier .typeRef .tag fun _ => .missingAfter "type" "["
  behindTagName value

theorem arranged_behindTagName {value : Parser Bool} (h : Yields Seated value) :
    Yields (Arranged behindName) (behindTagName value) := by
  refine yields_then joins_arranged (yields_choose fun s => ?_) fun _ =>
    yields_closing joins_arranged _ _ _
  split
  · split
    · exact yields_then joins_arranged (yields_liftM (.bump joins_arranged)) fun _ =>
        yields_then joins_arranged (yields_elements joins_arranged
          (arranged_namedArgument h (by decide) (by decide)) _ _) fun _ =>
          yields_done joins_arranged ()
    · exact yields_then joins_arranged (yields_liftM (arranged_arguments h (by decide)
        (by decide))) fun _ => yields_done joins_arranged ()
  · exact yields_done joins_arranged ()

theorem makes_behindTagName (value : Parser Bool) :
    Makes (fun row => Applied row.tops) (behindTagName value) := by
  refine makes_then (P := fun row => Applied row.tops) (Q := Flat) (makes_choose fun s => ?_)
    (fun _ => makes_of_yields (yields_closing joins_flat _ _ _)) fun f g hf hg => ?_
  · split
    · split
      · refine makes_then (P := Flat) (makes_of_yields (yields_liftM (.bump joins_flat)))
          (fun _ => makes_done_after (makes_namedArguments value _) _) fun f g hf hg => ?_
        rw [tops_append, show f.tops = [] from hf]
        exact .inr (.inr hg)
      · refine makes_done_after (makes_of_yields (yields_liftM fun s => ?_)) _
        exact .inr (.inl (alone_construct .arguments _ s))
    · exact makes_of_yields fun s => .inl rfl
  · rw [tops_append, show g.tops = [] from hg, List.append_nil]
    exact hf

/-- Nothing stands in a tag without a name, and behind the name what may be there. -/
theorem tops_tagSteps {value : Parser Bool} (h : Yields Seated value) (s : List Lexeme) :
    ((run (tagSteps value) s).built.tops = [] ∧ (run (tagSteps value) s).value ≠ .ok ()) ∨
      ∃ rest, (run (tagSteps value) s).built.tops = .construct .typeRef true :: rest ∧
        (∀ shape ∈ rest, shape.kind ≠ .typeRef) ∧
        ((run (tagSteps value) s).value = .ok () → Applied rest) := by
  rw [tagSteps, run_bind_of_ok _ (by rw [run_liftM]), run_liftM]
  have hflat : (bump.run s).built.tops = [] := Yields.bump joins_flat s
  generalize (bump.run s).rest = r
  dsimp only
  rw [tops_append, hflat, List.nil_append]
  cases hs : starts .identifier r with
  | false =>
    left
    rw [run_bind_of_error _ (by rw [run_expect_of_not_starts _ _ _ hs]),
      run_expect_of_not_starts _ _ _ hs]
    exact ⟨rfl, by simp⟩
  | true =>
    right
    obtain ⟨t, rest, rfl⟩ := List.exists_cons_of_ne_nil (ahead_of_starts hs)
    have ht : t.kind = .identifier := by simpa [starts] using hs
    rw [run_bind_of_ok _ (by rw [run_expect ht]), run_expect ht]
    refine ⟨_, rfl, fun shape hshape hkind => ?_, fun hvalue =>
      makes_behindTagName value rest () hvalue⟩
    have hallowed := (arranged_behindTagName h rest).kinds shape.kind (List.mem_map_of_mem hshape)
    rw [hkind] at hallowed
    exact absurd hallowed (by decide)

theorem arranged_tagSteps {value : Parser Bool} (h : Yields Seated value) :
    Yields (Arranged NodeKind.tag.inhabitants) (tagSteps value) :=
  yields_then joins_arranged (yields_liftM (.bump joins_arranged)) fun _ =>
    yields_then joins_arranged (arranged_expect (by decide) rfl rfl _ _) fun _ =>
      (arranged_behindTagName h).mono fun _ hrow => hrow.mono (by decide)

theorem arranged_tag {value : Parser Bool} (h : Yields Seated value) (htag : .tag ∈ allowed)
    (herror : .error ∈ allowed) : Yields (Arranged allowed) (tag value) := by
  intro s
  have htops := tops_tagSteps h s
  show Arranged allowed ((statement .tag (tagSteps value)).run s).built
  refine arranged_statement htag herror (arranged_tagSteps h s) rfl (fun hvalue => ?_) ?_
  · rcases htops with ⟨-, hstopped⟩ | ⟨rest, hrest, hnames, happlied⟩
    · exact absurd hvalue hstopped
    · exact .inr ⟨rest, hrest, hnames, fun _ => happlied hvalue⟩
  · rcases htops with ⟨hnil, -⟩ | ⟨rest, hrest, hnames, -⟩
    · exact .inl ⟨rfl, hnil⟩
    · exact .inr ⟨rest, hrest, hnames, fun hwhole => by cases hwhole⟩

/-! ## Statements -/

theorem arranged_keyword (hkeyword : .keyword ∈ allowed) : Yields (Arranged allowed) keyword :=
  yields_then joins_arranged (yields_liftM (arranged_take hkeyword rfl rfl)) fun _ =>
    yields_done joins_arranged ()

theorem arranged_follow {kind : TokenKind} {node : NodeKind} (hnode : node ∈ allowed)
    (hlexeme : node.isLexeme = true) (hopener : node.opener? = none) (wanted before : String) :
    Yields (Arranged allowed) (follow kind node wanted before) :=
  arranged_expect hnode hlexeme hopener _ _

theorem arranged_followPunct (kind : TokenKind) (wanted before : String) :
    Yields (Arranged allowed) (followPunct kind wanted before) := yields_punct joins_arranged _ _ _

theorem arranged_terminator (before : String) : Yields (Arranged allowed) (terminator before) :=
  yields_closing joins_arranged _ _ _

theorem arranged_packageStatement (hpackage : .package ∈ allowed) (herror : .error ∈ allowed) :
    Yields (Arranged allowed) packageStatement :=
  arranged_plainStatement hpackage herror (yields_then joins_arranged (arranged_keyword (by decide))
    fun _ => yields_then joins_arranged (arranged_follow (by decide) rfl rfl _ _) fun _ =>
      arranged_terminator _) rfl rfl

theorem arranged_importStatement (himporting : .importing ∈ allowed) (herror : .error ∈ allowed) :
    Yields (Arranged allowed) importStatement :=
  arranged_plainStatement himporting herror
    (yields_then joins_arranged (arranged_keyword (by decide)) fun _ =>
      yields_then joins_arranged (arranged_follow (by decide) rfl rfl _ _) fun _ =>
        arranged_terminator _) rfl rfl

theorem arranged_settingStatement (hsetting : .setting ∈ allowed) (herror : .error ∈ allowed) :
    Yields (Arranged allowed) settingStatement := by
  refine arranged_plainStatement hsetting herror
    (yields_then joins_arranged (arranged_keyword (by decide)) fun _ =>
      yields_then joins_arranged (arranged_follow (by decide) rfl rfl _ _) fun _ =>
      yields_then joins_arranged (arranged_followPunct _ _ _) fun _ =>
      yields_then joins_arranged (yields_choose fun s => ?_) fun _ => arranged_terminator _) rfl rfl
  split
  · exact yields_liftM (arranged_take (by decide) rfl rfl)
  · exact yields_stop joins_arranged _ _

theorem arranged_enumValue (henumValue : .enumValue ∈ allowed) (herror : .error ∈ allowed) :
    Yields (Arranged allowed) enumValue :=
  arranged_plainStatement henumValue herror
    (yields_then joins_arranged (yields_liftM (arranged_take (by decide) rfl rfl)) fun _ =>
      yields_then joins_arranged (arranged_followPunct _ _ _) fun _ =>
      yields_then joins_arranged (arranged_follow (by decide) rfl rfl _ _) fun _ =>
        arranged_terminator _) rfl rfl

/-! ## Types of fields -/

abbrev typeParts : List NodeKind := [.keyword, .fieldType, .typeName, .typeParameter]

theorem arranged_typeParameters (base : String) :
    Yields (Arranged NodeKind.fieldType.inhabitants) (typeParameters base) := by
  have hparameter (before : String) :
      Yields (Arranged NodeKind.fieldType.inhabitants) (typeParameter before) :=
    arranged_follow (by decide) rfl rfl _ _
  apply yields_then joins_arranged (yields_liftM (.bump joins_arranged))
  intro _
  split
  · exact yields_stop joins_arranged _ _
  · refine yields_then joins_arranged (hparameter _) fun _ =>
      yields_then joins_arranged (yields_sepTail joins_arranged (hparameter _) _ _) fun _ => ?_
    split
    · exact yields_done joins_arranged _
    · exact yields_stop joins_arranged _ _

def behindTypeName (transient : Bool) (base : String) : Step String :=
  Step.choose fun s =>
    if starts .langle s then typeParameters base
    else if transient then stop .statement (.transientScalar base)
    else pure base

def typeSteps (transient : Bool) : Step String := do
  let base ← take .typeName
  behindTypeName transient base

theorem arranged_behindTypeName (transient : Bool) (base : String) :
    Yields (Arranged NodeKind.fieldType.inhabitants) (behindTypeName transient base) := by
  apply yields_choose
  intro s
  split
  · exact arranged_typeParameters base
  split
  · exact yields_stop joins_arranged _ _
  · exact yields_done joins_arranged _

theorem tops_expect {kind : TokenKind} {node : NodeKind} (recovery : Recovery)
    (fault : String → Fault) : Makes (fun row => row.tops = [.construct node true])
      (expect kind node recovery fault) := by
  intro s a ha
  cases hs : starts kind s with
  | false =>
    rw [run_expect_of_not_starts _ _ _ hs] at ha
    cases ha
  | true =>
    obtain ⟨t, rest, rfl⟩ := List.exists_cons_of_ne_nil (ahead_of_starts hs)
    rw [run_expect (by simpa [starts] using hs)]
    rfl

/-- Elements of one node each leave as many nodes as they give answers. -/
theorem tops_sepTail {α : Type} {item : Step α} {shape : Shape}
    (h : Makes (fun row => row.tops = [shape]) item) (closer : TokenKind)
    (otherwise : String → Stop) (s : List Lexeme) (answers : List α)
    (hanswers : (run (sepTail item closer otherwise) s).value = .ok answers) :
    (run (sepTail item closer otherwise) s).built.tops = .replicate answers.length shape := by
  show (sepTail.loop item closer otherwise s).built.tops = _
  replace hanswers : (sepTail.loop item closer otherwise s).value = .ok answers := hanswers
  fun_induction sepTail.loop item closer otherwise s generalizing answers with
  | case1 => cases hanswers
  | case2 t s hc =>
    cases hanswers
    rfl
  | case3 t s hc hcomma o e he => cases hanswers
  | case4 t s hc hcomma o a ha r ih =>
    cases hvalue : r.value with
    | error e =>
      rw [hvalue] at hanswers
      cases hanswers
    | ok others =>
      rw [hvalue] at hanswers
      cases hanswers
      rw [tops, tops_append, h s a ha, ih others hvalue, List.length_cons, List.replicate_succ,
        List.singleton_append]
  | case5 t s hc hcomma => cases hanswers

theorem tops_typeParameter (before : String) :
    Makes (fun row => row.tops = [.construct .typeParameter true]) (typeParameter before) :=
  tops_expect _ _

/-- A type goes through with as many parameters as it takes. -/
theorem makes_typeParameters (base : String) :
    Makes (fun row => ∃ count, parameterCount? base = some count ∧
      row.tops = .replicate count (.construct .typeParameter true)) (typeParameters base) := by
  intro s a ha
  obtain ⟨-, -, ha, hbuilt⟩ := exists_of_bind ha
  rw [typeParameters, hbuilt, tops_append, yields_liftM (.bump joins_flat) s, List.nil_append]
  cases hcount : parameterCount? base with
  | none =>
    simp only [hcount] at ha
    cases ha
  | some count =>
    simp only [hcount] at ha ⊢
    obtain ⟨first, hfirst, ha, hbuilt⟩ := exists_of_bind ha
    obtain ⟨others, hothers, ha, hbuilt'⟩ := exists_of_bind ha
    split at ha
    · rename_i hlength
      rw [hbuilt, hbuilt', if_pos hlength, Step.run_pure, tops_append, tops_append,
        tops_typeParameter _ _ first hfirst,
        tops_sepTail (tops_typeParameter ",") _ _ _ others hothers, ← hlength]
      exact ⟨_, rfl, by simp [tops, List.replicate_succ]⟩
    · cases ha

theorem makes_behindTypeName (transient : Bool) (base : String) :
    Makes (fun row => row.tops = [] ∨ ∃ count, parameterCount? base = some count ∧
      row.tops = .replicate count (.construct .typeParameter true))
      (behindTypeName transient base) := by
  refine makes_choose fun s => ?_
  split
  · exact fun s a ha => .inr (makes_typeParameters base s a ha)
  split
  · exact makes_stop _ _
  · exact makes_of_yields fun s => .inl rfl

theorem composes_typeSteps (transient : Bool) (s : List Lexeme) (a : String)
    (ha : (run (typeSteps transient) s).value = .ok a) :
    NodeKind.fieldType.Composes true (run (typeSteps transient) s).built := by
  rw [typeSteps, run_bind_of_ok _ (by rw [run_liftM]), run_liftM] at ha ⊢
  rcases s with _ | ⟨t, s⟩
  · left
    cases transient <;> rfl
  · exact .inr ⟨t, _, rfl, makes_behindTypeName transient t.text s a ha⟩

theorem arranged_typeGroup (transient : Bool) :
    Yields (Arranged typeParts) (group .fieldType (fun _ => true) (typeSteps transient)) :=
  arranged_group (by decide)
    (yields_then joins_arranged (yields_liftM (arranged_take (by decide) rfl rfl))
      (arranged_behindTypeName transient))
    (by decide) rfl (composes_typeSteps transient)

theorem arranged_fieldType : Yields (Arranged typeParts) fieldType := by
  apply yields_choose
  intro s
  dsimp only
  split
  · exact yields_then joins_arranged (arranged_keyword (by decide)) fun _ =>
      yields_then joins_arranged (yields_require joins_arranged _ _ _) fun _ =>
        arranged_typeGroup true
  · exact arranged_typeGroup false

theorem kinds_of_flat {row : Row} (h : Flat row) : kinds row = [] := by
  rw [kinds, h, List.map_nil]

theorem kinds_fieldType :
    Makes (fun row => kinds row = [.fieldType] ∨ kinds row = [.keyword, .fieldType]) fieldType := by
  have hgroup (transient : Bool) : Makes (fun row => kinds row = [.fieldType])
      (group .fieldType (fun _ => true) (typeSteps transient)) := by
    intro s a ha
    rw [run_group] at ha ⊢
    split at ha
    · rfl
    · rename_i hvalue
      rw [hvalue] at ha
      cases ha
  have hkeyword : Makes (fun row => kinds row = [] ∨ kinds row = [.keyword]) keyword := by
    refine makes_done_after (makes_of_yields (yields_liftM ?_)) _
    rintro (_ | ⟨t, s⟩)
    · exact .inl rfl
    · exact .inr rfl
  refine makes_choose fun s => ?_
  dsimp only
  split
  · refine makes_then hkeyword (Q := fun row => kinds row = [.fieldType]) (fun _ =>
      makes_then (makes_of_yields (yields_require joins_flat _ _ _)) (fun _ => hgroup true)
        fun f g hf hg => ?_) fun f g hf hg => ?_
    · rw [kinds_append, kinds_of_flat hf, hg, List.nil_append]
    · rw [kinds_append, hg]
      rcases hf with hf | hf <;> simp [hf]
  · exact fun s a ha => .inl (hgroup false s a ha)

/-! ## Fields -/

theorem kinds_expect (kind : TokenKind) (node : NodeKind) (recovery : Recovery)
    (fault : String → Fault) :
    Yields (fun row => kinds row = [] ∨ kinds row = [node]) (expect kind node recovery fault) := by
  intro s
  cases hs : starts kind s with
  | false =>
    rw [run_expect_of_not_starts _ _ _ hs]
    exact .inl rfl
  | true =>
    obtain ⟨t, rest, rfl⟩ := List.exists_cons_of_ne_nil (ahead_of_starts hs)
    rw [run_expect (by simpa [starts] using hs)]
    exact .inr rfl

def behindFieldName (type name : String) : Step Unit :=
  Step.choose fun s =>
    if starts .equals s then do
      bump
      let number ← follow .integer .fieldNumber "field number" s!"{type} {name} ="
      terminator s!"{type} {name} = {number}"
    else
      closing .semicolon .statement fun _ => .missingAfter "'=' or ';'" s!"{type} {name}"

def behindFieldType (type : String) : Step Unit := do
  let name ← follow .identifier .fieldName "field name" type
  behindFieldName type name

theorem arranged_behindFieldType (type : String) :
    Yields (Arranged NodeKind.field.inhabitants) (behindFieldType type) := by
  refine yields_then joins_arranged (arranged_follow (by decide) rfl rfl _ _) fun _ =>
    yields_choose fun s => ?_
  split
  · exact yields_then joins_arranged (yields_liftM (.bump joins_arranged)) fun _ =>
      yields_then joins_arranged (arranged_follow (by decide) rfl rfl _ _) fun _ =>
        arranged_terminator _
  · exact yields_closing joins_arranged _ _ _

theorem kinds_behindFieldName (type name : String) :
    Yields (fun row => kinds row = [] ∨ kinds row = [.fieldNumber])
      (behindFieldName type name) := by
  apply yields_choose
  intro s
  split
  · refine yields_behind (yields_liftM (.bump joins_flat)) (fun _ =>
      yields_behind (kinds_expect .integer .fieldNumber _ _) (fun _ =>
        yields_closing joins_flat _ _ _) (fun _ h => h) fun f g hf hg => ?_)
      (fun _ h => .inl (kinds_of_flat h)) fun f g hf hg => ?_
    · rwa [kinds_append, kinds_of_flat hg, List.append_nil]
    · rwa [kinds_append, kinds_of_flat hf, List.nil_append]
  · exact fun s => .inl (kinds_of_flat (yields_closing joins_flat _ _ _ s))

theorem kinds_behindFieldType (type : String) :
    Yields (fun row => .fieldNumber ∈ kinds row → kinds row = [.fieldName, .fieldNumber])
      (behindFieldType type) := by
  intro s hnumber
  cases hs : starts .identifier s with
  | false =>
    rw [behindFieldType, follow,
      run_bind_of_error _ (by rw [run_expect_of_not_starts _ _ _ hs]),
      run_expect_of_not_starts _ _ _ hs] at hnumber
    cases hnumber
  | true =>
    obtain ⟨t, rest, rfl⟩ := List.exists_cons_of_ne_nil (ahead_of_starts hs)
    have ht : t.kind = .identifier := by simpa [starts] using hs
    rw [behindFieldType, follow, run_bind_of_ok _ (by rw [run_expect ht]), run_expect ht,
      kinds_append] at hnumber ⊢
    dsimp only at hnumber ⊢
    rcases kinds_behindFieldName type t.text rest with h | h
    · rw [h] at hnumber
      cases hnumber with
      | tail _ hnil => cases hnil
    · rw [h]
      rfl

theorem composes_field (s : List Lexeme) (complete : Bool) :
    NodeKind.field.Composes complete (run (fieldType >>= behindFieldType : Step Unit) s).built := by
  intro hnumber
  cases hvalue : (run fieldType s).value with
  | error e =>
    rw [run_bind_of_error _ hvalue] at hnumber
    exact absurd ((arranged_fieldType s).kinds _ hnumber) (by decide)
  | ok type =>
    rw [run_bind_of_ok _ hvalue, kinds_append, List.mem_append] at hnumber
    rw [run_bind_of_ok _ hvalue, kinds_append]
    have htype := kinds_fieldType s type hvalue
    have hbehind := kinds_behindFieldType type (run fieldType s).rest <|
      hnumber.resolve_left fun h => absurd ((arranged_fieldType s).kinds _ h) (by decide)
    rw [hbehind]
    exact htype.imp (fun h => by rw [h]; rfl) fun h => by rw [h]; rfl

theorem arranged_field (hfield : .field ∈ allowed) (herror : .error ∈ allowed) :
    Yields (Arranged allowed) field := by
  intro s
  show Arranged allowed ((statement .field (fieldType >>= behindFieldType)).run s).built
  exact arranged_statement hfield herror
    (yields_then joins_arranged (arranged_fieldType.mono fun _ h => h.mono (by decide))
      arranged_behindFieldType s) rfl (fun _ => composes_field s true) (composes_field s false)

/-! ## Members of components -/

theorem arranged_memberType (hparts : typeParts ⊆ allowed) (word : String) :
    Yields (Arranged allowed) (memberType word) :=
  yields_then joins_arranged (arranged_keyword (hparts (by decide))) fun _ =>
    yields_then joins_arranged (yields_require joins_arranged _ _ _) fun _ =>
      arranged_fieldType.mono fun _ h => h.mono hparts

theorem arranged_componentId (hcomponentId : .componentId ∈ allowed) (herror : .error ∈ allowed) :
    Yields (Arranged allowed) componentId :=
  arranged_plainStatement hcomponentId herror
    (yields_then joins_arranged (arranged_keyword (by decide)) fun _ =>
      yields_then joins_arranged (arranged_followPunct _ _ _) fun _ =>
      yields_then joins_arranged (arranged_follow (by decide) rfl rfl _ _) fun _ =>
        arranged_terminator _) rfl rfl

theorem arranged_dataMember (hdata : .data ∈ allowed) (herror : .error ∈ allowed) :
    Yields (Arranged allowed) dataMember :=
  arranged_plainStatement hdata herror
    (yields_then joins_arranged (arranged_memberType (by decide) _) fun _ => arranged_terminator _)
    rfl rfl

theorem arranged_eventMember (hevent : .event ∈ allowed) (herror : .error ∈ allowed) :
    Yields (Arranged allowed) eventMember :=
  arranged_plainStatement hevent herror
    (yields_then joins_arranged (arranged_memberType (by decide) _) fun _ =>
      yields_then joins_arranged (arranged_follow (by decide) rfl rfl _ _) fun _ =>
        arranged_terminator _) rfl rfl

theorem arranged_commandMember (hcommand : .command ∈ allowed) (herror : .error ∈ allowed) :
    Yields (Arranged allowed) commandMember :=
  arranged_plainStatement hcommand herror
    (yields_then joins_arranged (arranged_keyword (by decide)) fun _ =>
      yields_then joins_arranged (arranged_follow (by decide) rfl rfl _ _) fun _ =>
      yields_then joins_arranged (arranged_follow (by decide) rfl rfl _ _) fun _ =>
      yields_then joins_arranged (arranged_followPunct _ _ _) fun _ =>
      yields_then joins_arranged (arranged_follow (by decide) rfl rfl _ _) fun _ =>
      yields_then joins_arranged (arranged_followPunct _ _ _) fun _ =>
        arranged_terminator _) rfl rfl

/-! ## Definitions and files -/

theorem arranged_discard (herror : .error ∈ allowed) :
    Yields (Arranged allowed) (discard tooDeep) := fun _ => arranged_skipped herror _ _

theorem arranged_block {kind : NodeKind} (hkind : kind ∈ allowed) (herror : .error ∈ allowed)
    (hopener : kind.opener? = none) (hplain : kind.isComposed = false)
    (hheader : [.keyword, .definitionName, .error] ⊆ kind.inhabitants) (word : String)
    {member : Parser Bool} (h : Yields (Arranged kind.inhabitants) member) :
    Yields (Arranged allowed) (block kind word member) := by
  have hskipped (t : Lexeme) : Arranged kind.inhabitants
      (.node (.skipped (.stray t.text)) (.leaf t .nil) .nil) :=
    arranged_skipped (hheader (by decide)) _ [t]
  exact arranged_plainStatement hkind herror
    (yields_then joins_arranged (arranged_keyword (hheader (by decide))) fun _ =>
      yields_then joins_arranged (arranged_expect (hheader (by decide)) rfl rfl _ _) fun _ =>
      yields_then joins_arranged (yields_punct joins_arranged _ _ _) fun _ =>
      yields_then joins_arranged (yields_liftM (.members joins_arranged h hskipped)) fun _ =>
        yields_punct joins_arranged _ _ _) hopener hplain

theorem arranged_tagMember (room : Nat) (htag : .tag ∈ allowed) (herror : .error ∈ allowed) :
    Yields (Arranged allowed) (present (tag (value room))) :=
  yields_present joins_arranged (arranged_tag (seated_value room) htag herror)

theorem arranged_nested {p : Nat → Parser Unit} (herror : .error ∈ allowed)
    (h : ∀ room, Yields (Arranged allowed) (p room)) (room : Nat) :
    Yields (Arranged allowed) (nested p room) := by
  cases room with
  | zero => exact arranged_discard herror
  | succ room => exact h room

theorem arranged_enumMember (room : Nat) :
    Yields (Arranged NodeKind.enum.inhabitants) (enumMember room) := by
  apply yields_choose
  intro s
  split
  · exact arranged_tagMember room (by decide) (by decide)
  split
  · exact yields_present joins_arranged (arranged_enumValue (by decide) (by decide))
  · exact yields_absent joins_arranged

theorem arranged_enumDefinition (henum : .enum ∈ allowed) (herror : .error ∈ allowed)
    (room : Nat) : Yields (Arranged allowed) (enumDefinition room) :=
  arranged_nested herror (fun room =>
    arranged_block henum herror rfl rfl (by decide) _ (arranged_enumMember room)) room

theorem arranged_typeMember (room : Nat) {typeDefinition : Parser Unit}
    (h : Yields (Arranged NodeKind.type.inhabitants) typeDefinition) :
    Yields (Arranged NodeKind.type.inhabitants) (typeMember room typeDefinition) := by
  apply yields_choose
  intro s
  split
  · exact yields_present joins_arranged (arranged_settingStatement (by decide) (by decide))
  split
  · exact arranged_tagMember room (by decide) (by decide)
  split
  · exact yields_present joins_arranged (arranged_enumDefinition (by decide) (by decide) room)
  split
  · exact yields_present joins_arranged h
  split
  · exact yields_present joins_arranged (arranged_field (by decide) (by decide))
  · exact yields_absent joins_arranged

theorem arranged_typeDefinition (htype : .type ∈ allowed) (herror : .error ∈ allowed)
    (room : Nat) : Yields (Arranged allowed) (typeDefinition room) := by
  induction room generalizing allowed with
  | zero => exact arranged_discard herror
  | succ room ih =>
    exact arranged_block htype herror rfl rfl (by decide) _
      (arranged_typeMember room (ih (by decide) (by decide)))

theorem arranged_componentMember (room : Nat) :
    Yields (Arranged NodeKind.component.inhabitants) (componentMember room) := by
  apply yields_choose
  intro s
  split
  · exact yields_present joins_arranged (arranged_settingStatement (by decide) (by decide))
  split
  · exact arranged_tagMember room (by decide) (by decide)
  split
  · exact yields_present joins_arranged (arranged_componentId (by decide) (by decide))
  split
  · exact yields_present joins_arranged (arranged_dataMember (by decide) (by decide))
  split
  · exact yields_present joins_arranged (arranged_eventMember (by decide) (by decide))
  split
  · exact yields_present joins_arranged (arranged_commandMember (by decide) (by decide))
  split
  · exact yields_present joins_arranged (arranged_field (by decide) (by decide))
  · exact yields_absent joins_arranged

theorem arranged_topLevel (room : Nat) :
    Yields (Arranged NodeKind.schemaFile.inhabitants) (topLevel room) := by
  apply yields_choose
  intro s
  split
  · exact yields_absent joins_arranged
  split
  · exact yields_present joins_arranged (arranged_packageStatement (by decide) (by decide))
  split
  · exact yields_present joins_arranged (arranged_importStatement (by decide) (by decide))
  split
  · exact yields_present joins_arranged (arranged_settingStatement (by decide) (by decide))
  split
  · exact yields_present joins_arranged (arranged_enumDefinition (by decide) (by decide) room)
  split
  · exact yields_present joins_arranged (arranged_typeDefinition (by decide) (by decide) room)
  split
  · exact yields_present joins_arranged (arranged_nested (by decide) (fun room =>
      arranged_block (by decide) (by decide) rfl rfl (by decide) _
        (arranged_componentMember room)) room)
  split
  · exact arranged_tagMember room (by decide) (by decide)
  · exact yields_present joins_arranged fun _ => arranged_skipped (by decide) _ _

end Parse

/-- Whatever was read, in every construct stands what may stand there. -/
theorem arranged_parseWith (room : Nat) (s : List Lexeme) :
    Arranged NodeKind.schemaFile.inhabitants (parseWith room s) :=
  Parser.Yields.members joins_arranged (Parse.arranged_topLevel room)
    (fun t => arranged_skipped (by decide) _ [t]) s

end SchemaLang
