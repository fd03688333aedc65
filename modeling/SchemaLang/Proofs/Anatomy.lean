import SchemaLang.Proofs.Inhabitants

/-!
# The anatomy of trees

Resolution and checking look for a child by its place or its kind and pass over
what is not there. What they count on holds of every tree, whatever was read:
of whole definitions, of types and fields, of entries, constructions and tags,
of where a definition may stand, and of constructs over one token.

Whole definitions and tags are looked at anew. A definition that went through
has a keyword and a name in front, and nothing in its values and statements is
a definition. The parts of a tag come from one of its two forms, also where it
was cut short, so no tag has both an argument list and named arguments.
-/

set_option autoImplicit false

namespace SchemaLang

open Forest

/-! ## Definitions -/

def NodeKind.isDefinition (kind : NodeKind) : Bool :=
  kind == .type || kind == .enum || kind == .component

def Shape.Headed (shape : Shape) (inside : Row) : Prop :=
  shape.kind.isDefinition = true → shape.complete = true →
    ∃ rest, inside.tops = .construct .keyword true :: .construct .definitionName true :: rest

def Headed (row : Row) : Prop := row.Each Shape.Headed

theorem joins_headed : Joins Headed := joins_each _

def NodeKind.plainKinds : List NodeKind :=
  [.package, .importing, .setting, .tag, .field, .enumValue, .componentId, .data, .event, .command,
    .error, .keyword, .packageName, .importPath, .settingName, .settingValue, .definitionName,
    .fieldType, .typeName, .typeParameter, .fieldName, .fieldNumber] ++ SchemaFile.tagParts

theorem Arranged.headed {allowed : List NodeKind} {row : Row} (h : Arranged allowed row)
    (hplain : allowed ⊆ NodeKind.plainKinds) : Headed row := by
  have hkinds := h.labels hplain (by decide)
  refine (Forest.each_iff_labels.mpr hkinds).imp fun shape _ hkind hdefinition => ?_
  rw [(by decide : ∀ kind ∈ NodeKind.plainKinds, kind.isDefinition = false) _ hkind] at hdefinition
  cases hdefinition

theorem headed_skipped (fault : Fault) (ls : List Lexeme) :
    Headed (.node (.skipped fault) (.ofTokens ls) .nil) :=
  Arranged.headed (show Arranged [.error] _ from arranged_skipped (by decide) fault ls) (by decide)

namespace Parse

open SchemaLang.Parser Step

theorem headed_of_arranged {α : Type} (allowed : List NodeKind) {p : Parser α}
    (h : Yields (Arranged allowed) p) (hplain : allowed ⊆ NodeKind.plainKinds) :
    Yields Headed p := h.mono fun _ hrow => hrow.headed hplain

def blockSteps (word : String) (member : Parser Bool) : Step Unit := do
  keyword
  let name ← expect .identifier .definitionName .braces fun _ => .missingAfter "identifier" word
  punct .lbrace .braces fun _ => .missingAfter "'\x7b'" s!"{word} {name}"
  members member
  punct .rbrace .braces fun found => .notAMember found word name

theorem headed_blockSteps (word : String) {member : Parser Bool} (h : Yields Headed member) :
    Yields Headed (blockSteps word member) := by
  have hkeyword : Yields Headed keyword :=
    headed_of_arranged [.keyword] (arranged_keyword (by decide)) (by decide)
  have hname (fault : String → Fault) :
      Yields Headed (expect .identifier .definitionName .braces fault) :=
    headed_of_arranged [.definitionName] (arranged_expect (by decide) rfl rfl _ _) (by decide)
  have hmembers : Yields Headed (members member) :=
    .members joins_headed h fun t => headed_skipped _ [t]
  exact yields_then joins_headed hkeyword fun _ =>
    yields_then joins_headed (hname _) fun _ =>
    yields_then joins_headed (yields_punct joins_headed _ _ _) fun _ =>
    yields_then joins_headed (yields_liftM hmembers) fun _ => yields_punct joins_headed _ _ _

/-- A definition that goes through has taken its keyword and found its name. -/
theorem makes_blockSteps (word : String) (member : Parser Bool) :
    Makes (fun row => ∃ rest,
        row.tops = .construct .keyword true :: .construct .definitionName true :: rest)
      (blockSteps word member) := by
  intro s a ha
  obtain ⟨-, -, hname, hbuilt⟩ := exists_of_bind ha
  obtain ⟨name, hfound, -, hbehind⟩ := exists_of_bind hname
  rw [blockSteps, hbuilt, hbehind]
  cases s with
  | nil =>
    -- without a keyword there is no name behind it either
    have hstarts := starts_of_expect hname
    cases hstarts
  | cons t s =>
    have hkeyword : (run keyword (t :: s)).built.tops = [.construct .keyword true] := rfl
    have htops := tops_expect _ _ _ name hfound
    rw [tops_append, tops_append, hkeyword, htops]
    exact ⟨_, rfl⟩

theorem headed_block {kind : NodeKind} {word : String} {member : Parser Bool}
    (h : Yields Headed member) : Yields Headed (block kind word member) := by
  intro s
  show Headed ((statement kind (blockSteps word member)).run s).built
  cases hvalue : (run (blockSteps word member) s).value with
  | ok u =>
    rw [run_statement_of_ok hvalue]
    exact ⟨fun _ _ => makes_blockSteps word member s u hvalue, headed_blockSteps word h s, trivial⟩
  | error e =>
    rw [run_statement_of_error hvalue]
    refine ⟨fun _ hcomplete => ?_, headed_blockSteps word h s, headed_skipped _ _⟩
    cases hcomplete

theorem headed_nested {p : Nat → Parser Unit} (h : ∀ room, Yields Headed (p room)) (room : Nat) :
    Yields Headed (nested p room) := by
  cases room with
  | zero => exact fun _ => headed_skipped _ _
  | succ room => exact h room

theorem headed_enumDefinition (room : Nat) : Yields Headed (enumDefinition room) :=
  headed_nested (fun room => headed_block
    (headed_of_arranged _ (arranged_enumMember room) (by decide))) room

theorem headed_componentDefinition (room : Nat) : Yields Headed (componentDefinition room) :=
  headed_nested (fun room => headed_block
    (headed_of_arranged _ (arranged_componentMember room) (by decide))) room

theorem headed_statement (allowed : List NodeKind) {p : Parser Unit}
    (h : Yields (Arranged allowed) p) (hplain : allowed ⊆ NodeKind.plainKinds) :
    Yields Headed (present p) := yields_present joins_headed (headed_of_arranged _ h hplain)

theorem headed_setting : Yields Headed (present settingStatement) :=
  headed_statement [.setting, .error] (arranged_settingStatement (by decide) (by decide))
    (by decide)

theorem headed_tag (room : Nat) : Yields Headed (present (tag (value room))) :=
  headed_of_arranged [.tag, .error] (arranged_tagMember room (by decide) (by decide)) (by decide)

theorem headed_typeMember (room : Nat) {typeDefinition : Parser Unit}
    (h : Yields Headed typeDefinition) : Yields Headed (typeMember room typeDefinition) := by
  apply yields_choose
  intro s
  split
  · exact headed_setting
  split
  · exact headed_tag room
  split
  · exact yields_present joins_headed (headed_enumDefinition room)
  split
  · exact yields_present joins_headed h
  split
  · exact headed_statement [.field, .error] (arranged_field (by decide) (by decide)) (by decide)
  · exact yields_absent joins_headed

theorem headed_typeDefinition (room : Nat) : Yields Headed (typeDefinition room) := by
  induction room with
  | zero => exact fun _ => headed_skipped _ _
  | succ room ih => exact headed_block (headed_typeMember room ih)

theorem headed_topLevel (room : Nat) : Yields Headed (topLevel room) := by
  apply yields_choose
  intro s
  split
  · exact yields_absent joins_headed
  split
  · exact headed_statement [.package, .error] (arranged_packageStatement (by decide) (by decide))
      (by decide)
  split
  · exact headed_statement [.importing, .error] (arranged_importStatement (by decide) (by decide))
      (by decide)
  split
  · exact headed_setting
  split
  · exact yields_present joins_headed (headed_enumDefinition room)
  split
  · exact yields_present joins_headed (headed_typeDefinition room)
  split
  · exact yields_present joins_headed (headed_componentDefinition room)
  split
  · exact headed_tag room
  · exact yields_present joins_headed fun _ => headed_skipped _ _

end Parse

theorem headed_parseWith (room : Nat) (s : List Lexeme) : Headed (parseWith room s) :=
  Parser.Yields.members joins_headed (Parse.headed_topLevel room) (fun t => headed_skipped _ [t]) s

/-! ## Tags -/

def OneForm (row : Row) : Prop := .arguments ∉ kinds row ∨ .namedArgument ∉ kinds row

def Shape.OfOneForm (shape : Shape) (inside : Row) : Prop := shape.kind = .tag → OneForm inside

/-- Where there are no tags, all of them are of one form. -/
theorem Arranged.ofOneForm {allowed : List NodeKind} {row : Row} (h : Arranged allowed row)
    (wider : List NodeKind) (hwider : allowed ⊆ wider)
    (hclosed : ∀ kind ∈ wider, kind.inhabitants ⊆ wider) (htag : .tag ∉ wider) :
    row.Each Shape.OfOneForm := by
  refine (Forest.each_iff_labels.mpr (h.labels hwider hclosed)).imp fun shape _ hkind hshape => ?_
  rw [hshape] at hkind
  exact absurd hkind htag

theorem OneForm.of_kinds (allowed : List NodeKind) {row : Row}
    (h : ∀ kind ∈ kinds row, kind ∈ allowed)
    (hallowed : .arguments ∉ allowed ∨ .namedArgument ∉ allowed) : OneForm row :=
  hallowed.imp (fun hnot hmem => hnot (h _ hmem)) fun hnot hmem => hnot (h _ hmem)

theorem ofOneForm_construct {kind : NodeKind} (h : kind ≠ .tag) (complete : Bool) (inside : Row) :
    Shape.OfOneForm (.construct kind complete) inside := fun htag => absurd htag h

theorem ofOneForm_skipped (fault : Fault) (ls : List Lexeme) :
    Forest.Each Shape.OfOneForm (.node (.skipped fault) (.ofTokens ls) .nil) :=
  ⟨(fun htag => nomatch htag), Forest.each_ofTokens _ _, trivial⟩

theorem NodeKind.isLexeme_ne_tag {kind : NodeKind} (h : kind.isLexeme = true) : kind ≠ .tag := by
  rintro rfl
  cases h

theorem Worded.ofOneForm {row : Row} (h : Worded row) : row.Each Shape.OfOneForm := by
  induction h with
  | nil => trivial
  | leaf t _ ih => exact ih
  | lexeme hkind _ _ ih =>
    exact ⟨ofOneForm_construct (NodeKind.isLexeme_ne_tag hkind) _ _, trivial, ih⟩

theorem Simple.ofOneForm {row : Row} (h : Simple row) : row.Each Shape.OfOneForm := by
  induction h with
  | nil => trivial
  | leaf t _ ih => exact ih
  | lexeme hkind _ _ ih =>
    exact ⟨ofOneForm_construct (NodeKind.isLexeme_ne_tag hkind) _ _, trivial, ih⟩
  | type hinside _ ih =>
    exact ⟨ofOneForm_construct (by decide) _ _, hinside.worded.ofOneForm, ih⟩

theorem Parser.ofOneForm_statement {kind : NodeKind} {body : Step Unit} {s : List Lexeme}
    (hkind : ∀ complete, Shape.OfOneForm (.construct kind complete) (run body s).built)
    (h : (run body s).built.Each Shape.OfOneForm) :
    ((statement kind body).run s).built.Each Shape.OfOneForm := by
  cases hvalue : (run body s).value with
  | ok u =>
    rw [run_statement_of_ok hvalue]
    exact ⟨hkind true, h, trivial⟩
  | error e =>
    rw [run_statement_of_error hvalue]
    exact ⟨hkind false, h, ofOneForm_skipped _ _⟩

namespace Parse

open SchemaLang.Parser Step

variable {value : Parser Bool}

theorem oneForm_behindTagName (h : Yields Seated value) :
    Yields OneForm (behindTagName value) := by
  refine yields_behind (P := OneForm) (Q := Flat) (yields_choose fun s => ?_)
    (fun _ => yields_closing joins_flat _ _ _) (fun _ hrow => hrow) fun f g hf hg => ?_
  · split
    · split
      · have hnamed (otherwise : String → Stop) :
            Yields (Arranged (.namedArgument :: .fieldRef :: NodeKind.values))
              (elements (namedArgument value) .rparen otherwise) :=
          yields_elements joins_arranged (arranged_namedArgument h (by decide) (by decide)) _ _
        refine (yields_then joins_arranged (yields_liftM (.bump joins_arranged)) fun _ =>
          yields_then joins_arranged (hnamed _) fun _ => yields_done joins_arranged ()).mono ?_
        exact fun row hrow => .of_kinds _ hrow.kinds (.inl (by decide))
      · have hplain : Yields (Arranged [.arguments, .error]) (arguments value) :=
          arranged_arguments h (by decide) (by decide)
        refine (yields_then joins_arranged (yields_liftM hplain) fun _ =>
          yields_done joins_arranged ()).mono ?_
        exact fun row hrow => .of_kinds _ hrow.kinds (.inr (by decide))
    · exact fun s => .of_kinds [] (by simp [Forest.kinds, tops]) (.inl (by decide))
  · rw [OneForm, kinds_append, kinds_of_flat hg, List.append_nil]
    exact hf

theorem oneForm_tagSteps (h : Yields Seated value) : Yields OneForm (tagSteps value) := by
  refine yields_behind (P := Flat) (Q := OneForm) (yields_liftM (.bump joins_flat)) (fun _ =>
    yields_behind (kinds_expect .identifier .typeRef _ _) (fun _ => oneForm_behindTagName h)
      (fun row hrow => ?_) fun f g hf hg => ?_) (fun row hrow => ?_) fun f g hf hg => ?_
  · left
    rcases hrow with hrow | hrow <;> simp [hrow]
  · rw [OneForm, kinds_append]
    rcases hf with hf | hf <;> simpa [hf, OneForm] using hg
  · left
    simp [kinds_of_flat hrow]
  · rw [OneForm, kinds_append, kinds_of_flat hf, List.nil_append]
    exact hg

theorem ofOneForm_tag (h : Yields Seated value) : Yields (·.Each Shape.OfOneForm) (tag value) := by
  intro s
  apply Parser.ofOneForm_statement
  · intro complete _
    exact oneForm_tagSteps h s
  · exact (arranged_tagSteps h s).ofOneForm SchemaFile.tagParts (by decide) (by decide)
      (by decide)

end Parse

theorem passes_ofOneForm : Passes (·.Each Shape.OfOneForm) where
  joins := joins_each _
  simple _ := Simple.ofOneForm
  skipped := ofOneForm_skipped
  statement hkind h := Parser.ofOneForm_statement
    (ofOneForm_construct (by rintro rfl; cases hkind) · _) h
  tag room := Parse.ofOneForm_tag (Parse.seated_value room)

theorem ofOneForm_parseWith (room : Nat) (s : List Lexeme) :
    (parseWith room s).Each Shape.OfOneForm := passes_ofOneForm.parseWith room s

/-! ## Nodes -/

namespace Forest

variable {f : Forest Mark Token}

theorem eq_leaf {t : Token} (hleaves : f.leaves = [t]) (hnodes : f.nodes = []) :
    f = .leaf t .nil := by
  have hnil {g : Forest Mark Token} (hleaves : g.leaves = []) (hnodes : g.nodes = []) :
      g = .nil := by
    cases g with
    | nil => rfl
    | leaf u next => cases hleaves
    | node mark inside next => cases hnodes
  cases f with
  | nil => cases hleaves
  | leaf u next =>
    obtain ⟨rfl, hnext⟩ := List.cons.inj hleaves
    rw [hnil hnext hnodes]
  | node mark inside next => cases hnodes

theorem leaves_sublist_of_mem_preorder {n : Node} (hn : n ∈ f.preorder) :
    n.inside.leaves.Sublist f.leaves := by
  induction f with
  | nil => cases hn
  | leaf t next ih => exact (ih hn).cons t
  | node mark inside next ihi ihn =>
    rw [preorder, List.mem_cons, List.mem_append] at hn
    rw [leaves]
    rcases hn with rfl | hn | hn
    · exact List.sublist_append_left _ _
    · exact (ihi hn).trans (List.sublist_append_left _ _)
    · exact (ihn hn).trans (List.sublist_append_right _ _)

theorem leaves_subset_of_mem_preorder {n : Node} (hn : n ∈ f.preorder) :
    n.inside.leaves ⊆ f.leaves := (leaves_sublist_of_mem_preorder hn).subset

end Forest

def NodeKind.words : List NodeKind :=
  [.keyword, .packageName, .importPath, .settingName, .settingValue, .definitionName, .typeName,
    .typeParameter, .typeRef, .fieldName, .fieldNumber, .fieldRef, .constructorName, .nameRef]

theorem NodeKind.eq_enum_of_inhabitant {kind : NodeKind} (h : .enumValue ∈ kind.inhabitants) :
    kind = .enum := by
  cases kind <;> first | rfl | exact absurd h (by decide)

theorem NodeKind.eq_of_nested_inhabitant {kind : NodeKind}
    (h : .enum ∈ kind.inhabitants ∨ .type ∈ kind.inhabitants) :
    kind = .schemaFile ∨ kind = .type := by
  cases kind <;> first | exact .inl rfl | exact .inr rfl | exact absurd h (by decide)

theorem NodeKind.eq_schemaFile_of_inhabitant {kind : NodeKind}
    (h : .component ∈ kind.inhabitants) : kind = .schemaFile := by
  cases kind <;> first | rfl | exact absurd h (by decide)

theorem Parse.parameterCount?_cases {base : String} {count : Nat}
    (h : parameterCount? base = some count) :
    count = 1 ∧ (base = "list" ∨ base = "option") ∨ count = 2 ∧ base = "map" := by
  unfold parameterCount? at h
  split at h <;> simp_all

/-- What is counted on when a child is looked for by its place or its kind. -/
structure SchemaFile.Sound (file : SchemaFile) (n : Node) : Prop where
  definition : n.kind.isDefinition = true → n.incomplete = false →
    ∃ keyword name members, n.children = keyword :: name :: members ∧
      keyword.kind = .keyword ∧ name.kind = .definitionName
  field : n.kind = .field → (∃ c ∈ n.children, c.kind = .fieldNumber) →
    n.children.map Node.kind = [.fieldType, .fieldName, .fieldNumber] ∨
      n.children.map Node.kind = [.keyword, .fieldType, .fieldName, .fieldNumber]
  fieldType : n.kind = .fieldType → ∃ name parameters, n.children = name :: parameters ∧
    name.kind = .typeName ∧ (∀ c ∈ parameters, c.kind = .typeParameter) ∧
    (parameters = [] ∨
      parameters.length = 1 ∧ (file.text name = "list" ∨ file.text name = "option") ∨
      parameters.length = 2 ∧ file.text name = "map")
  entry : n.kind = .mapEntry → n.incomplete = false → ∃ key value, n.children = [key, value]
  construction : n.kind = .construction → ∃ name arguments behind,
    n.children = name :: arguments :: behind ∧ name.kind = .constructorName ∧
      arguments.kind = .arguments
  tag : n.kind = .tag →
    (∀ c ∈ n.children, c.kind ≠ .arguments) ∨ ∀ c ∈ n.children, c.kind ≠ .namedArgument
  enumValue : ∀ c ∈ n.children, c.kind = .enumValue → n.kind = .enum
  nested : ∀ c ∈ n.children, c.kind = .enum ∨ c.kind = .type →
    n.kind = .schemaFile ∨ n.kind = .type
  component : ∀ c ∈ n.children, c.kind = .component → n.kind = .schemaFile
  word : n.kind ∈ NodeKind.words →
    ∃ t ∈ tokenize file.source, t.isTrivia = false ∧ n.inside = .leaf t .nil

namespace SchemaFile

variable (file : SchemaFile) {n c : Node}

theorem headed_of_mem (hn : n ∈ file.root.inside.preorder) : n.mark.shape.Headed n.content :=
  file.content_of_each (headed_parseWith _ _) hn

/-- A whole definition has its keyword and its name in front. -/
theorem definition_children (hn : n ∈ file.root.inside.preorder)
    (hkind : n.kind.isDefinition = true) (h : n.incomplete = false) :
    ∃ keyword name members, n.children = keyword :: name :: members ∧
      keyword.kind = .keyword ∧ name.kind = .definitionName := by
  have hcomplete : n.mark.shape.complete = true := by simpa [Node.incomplete] using h
  obtain ⟨rest, htops⟩ := file.headed_of_mem hn hkind hcomplete
  rw [n.tops_content] at htops
  obtain ⟨keyword, behind, hchildren, hkeyword, hbehind⟩ := List.map_eq_cons_iff.mp htops
  obtain ⟨name, members, rfl, hname, -⟩ := List.map_eq_cons_iff.mp hbehind
  refine ⟨keyword, name, members, hchildren, ?_, ?_⟩
  · rw [Node.kind, hkeyword]
    rfl
  · rw [Node.kind, hname]
    rfl

/-- A field with a number is a type, a name and the number, behind the word
`transient` if it stands there. -/
theorem kinds_of_numbered_field (hn : n ∈ file.root.inside.preorder) (hkind : n.kind = .field)
    (hnumber : ∃ c ∈ n.children, c.kind = .fieldNumber) :
    n.children.map Node.kind = [.fieldType, .fieldName, .fieldNumber] ∨
      n.children.map Node.kind = [.keyword, .fieldType, .fieldName, .fieldNumber] := by
  have hcomposes := file.composes_of_mem hn (by simp [hkind])
  rw [hkind] at hcomposes
  rw [← n.kinds_content]
  apply hcomposes
  rw [n.kinds_content]
  exact List.mem_map.mpr hnumber

/-- No tag has both an argument list and named arguments. -/
theorem one_form_of_tag (hn : n ∈ file.root.inside.preorder) (hkind : n.kind = .tag) :
    (∀ c ∈ n.children, c.kind ≠ .arguments) ∨ ∀ c ∈ n.children, c.kind ≠ .namedArgument := by
  have hform : n.mark.shape.OfOneForm n.content :=
    file.content_of_each (ofOneForm_parseWith _ _) hn
  have hnone {kind : NodeKind} (h : kind ∉ n.content.kinds) : ∀ c ∈ n.children, c.kind ≠ kind := by
    intro c hc hck
    apply h
    rw [n.kinds_content, ← hck]
    exact List.mem_map_of_mem hc
  exact (hform hkind).imp hnone hnone

/-- A construct over one token holds that token and nothing else. -/
theorem inside_of_isLexeme (hn : n ∈ file.root.inside.preorder) (hkind : n.kind.isLexeme = true) :
    ∃ t ∈ tokenize file.source, t.isTrivia = false ∧ n.inside = .leaf t .nil := by
  obtain ⟨l, hl, -⟩ := file.leaves_of_isLexeme hn hkind
  rw [← n.significant_lexemes] at hl
  have hsnug := (file.spelling_of_construct hn (NodeKind.isLexeme_ne_error hkind)).2.1
  have hlexemes := hsnug.eq_of_significant_eq_singleton hl
  obtain ⟨t, ht, rfl⟩ := List.map_eq_singleton_iff.mp hlexemes
  refine ⟨t, ?_, ?_, Forest.eq_leaf ht (file.children_eq_nil hn (.inl hkind))⟩
  · rw [← file.leaves_root]
    exact Forest.leaves_subset_of_mem_preorder hn (by rw [ht]; exact List.mem_singleton_self t)
  · exact isTrivia_of_mem_significant (hl ▸ List.mem_singleton_self t.lexeme)

/-- Every node of every file is as resolution and checking count on. -/
theorem tree_is_sound (hn : n ∈ file.nodes) : file.Sound n := by
  have hinner (h : n.kind ≠ .schemaFile) : n ∈ file.root.inside.preorder := file.mem_of_kind_ne hn h
  have hplace {c : Node} (hc : c ∈ n.children) : c.kind ∈ n.kind.inhabitants :=
    file.kind_of_mem_children hn hc
  constructor
  case definition =>
    intro hkind hwhole
    exact file.definition_children (hinner (by rintro h; simp [h, NodeKind.isDefinition] at hkind))
      hkind hwhole
  case field =>
    intro hkind
    exact file.kinds_of_numbered_field (hinner (by simp [hkind])) hkind
  case fieldType =>
    intro hkind
    obtain ⟨name, parameters, hchildren, hname, hparameters, hcount⟩ :=
      file.fieldType_children (hinner (by simp [hkind])) hkind
    refine ⟨name, parameters, hchildren, hname, hparameters, ?_⟩
    exact hcount.imp_right Parse.parameterCount?_cases
  case entry =>
    intro hkind hwhole
    have hmem := hinner (by simp [hkind])
    have hintact := file.intact_of_holdsValues hmem (by rw [hkind]; rfl) hwhole
    obtain ⟨key, value, hchildren, -⟩ := file.entry_children hmem hintact hkind
    exact ⟨key, value, hchildren⟩
  case construction =>
    intro hkind
    obtain ⟨name, arguments, behind, hchildren, hname, harguments, -⟩ :=
      file.construction_children (hinner (by simp [hkind])) hkind
    exact ⟨name, arguments, behind, hchildren, hname, harguments⟩
  case tag =>
    intro hkind
    exact file.one_form_of_tag (hinner (by simp [hkind])) hkind
  case enumValue =>
    intro c hc hkind
    apply NodeKind.eq_enum_of_inhabitant
    rw [← hkind]
    exact hplace hc
  case nested =>
    intro c hc hkind
    apply NodeKind.eq_of_nested_inhabitant
    have hin := hplace hc
    exact hkind.imp (fun h => by rwa [h] at hin) fun h => by rwa [h] at hin
  case component =>
    intro c hc hkind
    apply NodeKind.eq_schemaFile_of_inhabitant
    rw [← hkind]
    exact hplace hc
  case word =>
    intro hkind
    apply file.inside_of_isLexeme
    · exact hinner fun h => absurd (h ▸ hkind) (by decide)
    · exact (by decide : ∀ kind ∈ NodeKind.words, kind.isLexeme = true) _ hkind

/-- The word `transient` moves the parts of a field one place on. -/
theorem sound_of_transient_field :
    let file := read (.unsaved 0) "type T { transient list<T> f = 1; }"
    ∃ n ∈ file.nodes, n.kind = .field ∧
      n.children.map Node.kind = [.keyword, .fieldType, .fieldName, .fieldNumber] := by
  intro file
  obtain ⟨n, hn⟩ := Option.isSome_iff_exists.mp
    (show (file.nodes.find? (·.kind == .field)).isSome = true by decide +kernel)
  have hfind (p : Node → Bool) (hp : (file.nodes.find? (·.kind == .field)).all p = true) :
      p n = true := by
    rw [hn] at hp
    exact hp
  have hkind : n.kind = .field := by simpa using List.find?_some hn
  have hnumber : ∃ c ∈ n.children, c.kind = .fieldNumber := by
    simpa using hfind (fun n => n.children.any (·.kind == .fieldNumber)) (by decide +kernel)
  have hfirst := hfind
    (fun n => n.children.map Node.kind != [.fieldType, .fieldName, .fieldNumber])
    (by decide +kernel)
  have hmem := List.mem_of_find?_eq_some hn
  exact ⟨n, hmem, hkind, ((file.tree_is_sound hmem).field hkind hnumber).resolve_left
    (by simpa using hfirst)⟩

end SchemaFile

end SchemaLang
