import SchemaLang.Proofs.Arrangement
import SchemaLang.Proofs.Contents

/-!
# What the nodes of a file stand in

What may stand in what, said of the nodes of a file: which children a node of a
kind may have, which lexeme a value begins with, and how the children of types,
fields, tags, constructions, entries and named arguments go together.
-/

set_option autoImplicit false

namespace SchemaLang

namespace Node

/-- The children with what they hold, blanks and comments left aside. -/
theorem pieces_content (n : Node) :
    n.content.pieces = n.children.map fun c => (c.mark.shape, c.content) := by
  have hpieces (f : Forest (Nat × Shape) Lexeme) : (f.mapLabels Prod.snd).pieces =
      f.pieces.map fun p => (p.1.2, p.2.mapLabels Prod.snd) := by
    induction f with
    | nil => rfl
    | leaf t next ih => exact ih
    | node a inside next _ ih => exact congrArg (_ :: ·) ih
  rw [content, hpieces, ← map_gist_nodes, List.map_map]
  rfl

theorem mem_preorder_iff {f : Forest Mark Token} {m : Node} :
    m ∈ f.preorder ↔ ∃ c ∈ f.nodes, m = c ∨ m ∈ c.inside.preorder := by
  induction f with
  | nil => simp [Forest.preorder, Forest.nodes]
  | leaf t next ih => exact ih
  | node mark inside next _ ih =>
    simp [Forest.preorder, Forest.nodes, ih, or_assoc]

/-- What a node holds is free of faults when every child is one construct that is. -/
theorem faulty_content_eq_false_iff (n : Node) : Faulty n.content = false ↔
    ∀ c ∈ n.children, c.mark.shape.isFault = false ∧ Faulty c.content = false := by
  simp only [faulty_content, List.any_eq_false, Bool.not_eq_true]
  constructor
  · intro h c hc
    exact ⟨h c (mem_preorder_iff.mpr ⟨c, hc, .inl rfl⟩), fun m hm =>
      h m (mem_preorder_iff.mpr ⟨c, hc, .inr hm⟩)⟩
  · intro h m hm
    obtain ⟨c, hc, rfl | hin⟩ := mem_preorder_iff.mp hm
    · exact (h _ hc).1
    · exact (h c hc).2 m hin

theorem kinds_content (n : Node) : n.content.kinds = n.children.map kind := by
  rw [Forest.kinds, n.tops_content, List.map_map]
  rfl

end Node

namespace SchemaFile

variable (file : SchemaFile) {n c : Node}

theorem content_root : file.root.content = parseRow (significant (lexemes file.source)) := by
  rw [Node.content, file.gist_root, Forest.mapLabels_numbered]

theorem arranged_of_mem (hn : n ∈ file.root.inside.preorder) :
    n.kind.Opens n.content ∧ n.mark.shape.Composed n.content ∧
      Arranged n.kind.inhabitants n.content :=
  file.content_of_each (arranged_parseWith _ _).each hn

theorem kind_of_mem_children (hn : n ∈ file.nodes) (hc : c ∈ n.children) :
    c.kind ∈ n.kind.inhabitants := by
  have harranged : Arranged n.kind.inhabitants n.content := by
    rcases List.mem_cons.mp hn with rfl | hn
    · rw [file.content_root, file.kind_root]
      exact arranged_parseWith _ _
    · exact (file.arranged_of_mem hn).2.2
  refine harranged.kinds c.kind ?_
  rw [n.kinds_content]
  exact List.mem_map_of_mem hc

theorem head_of_opener? (hn : n ∈ file.root.inside.preorder) {opener : TokenKind}
    (hkind : n.kind.opener? = some opener) :
    ∃ t, n.inside.gist.leaves.head? = some t ∧ t.kind = opener := by
  rw [← n.leaves_content]
  exact (file.arranged_of_mem hn).1 opener hkind

theorem composes_of_mem (hn : n ∈ file.root.inside.preorder) (hkind : n.kind ≠ .error) :
    n.kind.Composes (!n.incomplete) n.content := by
  have hcomposed := (file.arranged_of_mem hn).2.1
  rw [Node.kind] at hkind ⊢
  rw [Node.incomplete, Bool.not_not]
  cases hshape : n.mark.shape with
  | skipped fault => exact absurd (by rw [hshape]; rfl) hkind
  | construct kind complete => rwa [hshape] at hcomposed

abbrev tagParts : List NodeKind :=
  [.typeRef, .arguments, .namedArgument, .fieldRef, .mapEntry, .constructorName] ++
    NodeKind.values

theorem kind_of_mem_inside (hn : n ∈ file.root.inside.preorder)
    (hkind : n.kind = .tag ∨ n.kind = .construction) :
    ∀ m ∈ n.inside.preorder, m.kind ∈ tagParts := by
  intro m hm
  have hwider : n.kind.inhabitants ⊆ tagParts := by
    rcases hkind with h | h <;> rw [h] <;> decide
  refine (file.arranged_of_mem hn).2.2.labels hwider (by decide) m.mark.shape ?_
  rw [n.labels_content]
  exact List.mem_map_of_mem hm

/-! ## Types and fields -/

theorem text_of_content (hn : n ∈ file.root.inside.preorder) (hkind : n.kind ≠ .error)
    {t : Lexeme} (h : n.content = .leaf t .nil) : file.text n = t.text := by
  refine (file.text_of_leaves_eq_singleton hn hkind ?_).2
  rw [← n.leaves_content, h]
  rfl

theorem text_of_emptyOption (hn : n ∈ file.root.inside.preorder) (hkind : n.kind = .emptyOption) :
    file.text n = "_" := by
  have hcomposes := file.composes_of_mem hn (by simp [hkind])
  rw [hkind] at hcomposes
  obtain ⟨t, hcontent, htext⟩ := hcomposes
  rw [file.text_of_content hn (by simp [hkind]) hcontent, htext]

/-- A type is a name and, if the name is that of a generic type, as many
parameters as it takes. -/
theorem fieldType_children (hn : n ∈ file.root.inside.preorder) (hkind : n.kind = .fieldType) :
    ∃ name parameters, n.children = name :: parameters ∧ name.kind = .typeName ∧
      (∀ c ∈ parameters, c.kind = .typeParameter) ∧
      (parameters = [] ∨ Parse.parameterCount? (file.text name) = some parameters.length) := by
  have hcomposes := file.composes_of_mem hn (by simp [hkind])
  rw [hkind] at hcomposes
  obtain ⟨name, rest, hchildren, hname, -⟩ := file.typed_of_mem hn hkind
  have hpieces := n.pieces_content
  have htops := n.tops_content
  rw [hchildren] at hpieces htops
  rcases hcomposes with hnil | ⟨t, parameters, hcontent, hcount⟩
  · rw [hnil] at htops
    cases htops
  rw [hcontent] at hpieces htops
  obtain ⟨hshape, hrest⟩ := List.cons.inj htops
  have htext : file.text name = t.text := by
    have hmem := file.mem_of_mem_children (List.mem_cons_of_mem _ hn)
      (show name ∈ n.children by simp [hchildren])
    exact file.text_of_content hmem (by simp [hname])
      (congrArg Prod.snd (List.cons.inj hpieces).1).symm
  refine ⟨name, rest, hchildren, hname, ?_⟩
  rw [htext]
  rcases hcount with hnone | ⟨count, hcount, hparameters⟩
  · rw [hnone] at hrest
    obtain rfl := List.map_eq_nil_iff.mp hrest.symm
    exact ⟨by simp, .inl rfl⟩
  · rw [hparameters] at hrest
    refine ⟨fun c hc => ?_, .inr ?_⟩
    · have hc' := List.mem_map_of_mem (f := fun c : Node => c.mark.shape) hc
      rw [← hrest] at hc'
      rw [Node.kind, List.eq_of_mem_replicate hc']
      rfl
    · have hlength := congrArg List.length hrest
      rw [List.length_replicate, List.length_map] at hlength
      rw [hcount, hlength]

theorem field_children (hn : n ∈ file.root.inside.preorder) (hkind : n.kind = .field)
    (hnumber : (n.firstChild? .fieldNumber).isSome = true) :
    (n.firstChild? .fieldType).isSome = true ∧ (n.firstChild? .fieldName).isSome = true := by
  have hcomposes := file.composes_of_mem hn (by simp [hkind])
  rw [hkind] at hcomposes
  have hmem {kind : NodeKind} : kind ∈ n.content.kinds ↔ (n.firstChild? kind).isSome = true := by
    rw [n.kinds_content, Node.firstChild?, List.find?_isSome, List.mem_map]
    simp
  have hkinds := hcomposes (hmem.mpr hnumber)
  rw [← hmem, ← hmem]
  rcases hkinds with h | h <;> rw [h] <;> decide

/-! ## Tags and constructions -/

/-- A tag has the name of its type in front and names no type behind it. -/
theorem tag_children (hn : n ∈ file.root.inside.preorder) (hkind : n.kind = .tag) :
    (n.incomplete = true ∧ n.children = []) ∨
      ∃ name rest, n.children = name :: rest ∧ name.kind = .typeRef ∧
        (∀ c ∈ rest, c.kind ≠ .typeRef) ∧
        (n.incomplete = false → Applied (rest.map fun c => c.mark.shape)) := by
  have hcomposes := file.composes_of_mem hn (by simp [hkind])
  rw [hkind] at hcomposes
  rcases hcomposes with ⟨hcut, hnil⟩ | ⟨rest, htops, hnames, happlied⟩
  · rw [n.tops_content, List.map_eq_nil_iff] at hnil
    exact .inl ⟨by simpa using hcut, hnil⟩
  · rw [n.tops_content, List.map_eq_cons_iff] at htops
    obtain ⟨name, rest, hchildren, hname, rfl⟩ := htops
    refine .inr ⟨name, rest, hchildren, by rw [Node.kind, hname]; rfl, fun c hc => ?_, fun h => ?_⟩
    · exact hnames c.mark.shape (List.mem_map_of_mem hc)
    · exact happlied (by rw [h]; rfl)

/-- A construction has a name and an argument list, with skipped lexemes behind
it if it was cut short. -/
theorem construction_children (hn : n ∈ file.root.inside.preorder)
    (hkind : n.kind = .construction) :
    ∃ name arguments behind, n.children = name :: arguments :: behind ∧
      name.kind = .constructorName ∧ arguments.kind = .arguments ∧
      ∀ c ∈ behind, c.kind = .error ∧ arguments.incomplete = true := by
  have hcomposes := file.composes_of_mem hn (by simp [hkind])
  rw [hkind] at hcomposes
  obtain ⟨rest, htops, halone⟩ := hcomposes
  rw [n.tops_content, List.map_eq_cons_iff] at htops
  obtain ⟨name, others, hchildren, hname, rfl⟩ := htops
  have hname : name.kind = .constructorName := by rw [Node.kind, hname]; rfl
  rcases halone with ⟨complete, h⟩ | ⟨fault, h⟩
  · obtain ⟨arguments, behind, rfl, harguments, hbehind⟩ := List.map_eq_cons_iff.mp h
    obtain rfl := List.map_eq_nil_iff.mp hbehind
    exact ⟨name, arguments, [], hchildren, hname, by rw [Node.kind, harguments]; rfl, by simp⟩
  · obtain ⟨arguments, behind, rfl, harguments, hbehind⟩ := List.map_eq_cons_iff.mp h
    obtain ⟨skipped, others, rfl, hskipped, hothers⟩ := List.map_eq_cons_iff.mp hbehind
    obtain rfl := List.map_eq_nil_iff.mp hothers
    refine ⟨name, arguments, [skipped], hchildren, hname, by rw [Node.kind, harguments]; rfl, ?_⟩
    rw [List.forall_mem_singleton, Node.kind, hskipped, Node.incomplete, harguments]
    exact ⟨rfl, rfl⟩

theorem faulty_of_isLexeme (hn : n ∈ file.root.inside.preorder) (hkind : n.kind.isLexeme = true) :
    Faulty n.content = false := by
  rw [n.faulty_content_eq_false_iff, file.children_eq_nil hn (.inl hkind)]
  simp

/-- A child that is whole and one lexeme or a construct around values is free of faults. -/
theorem clean_of_mem_children (hn : n ∈ file.root.inside.preorder) (hc : c ∈ n.children)
    (hkind : c.kind.isLexeme = true ∨ c.kind.holdsValues = true ∧ c.incomplete = false) :
    c.mark.shape.isFault = false ∧ Faulty c.content = false := by
  have hmem := file.mem_of_mem_children (List.mem_cons_of_mem _ hn) hc
  have hshape (h : c.kind ≠ .error) : c.mark.shape.isFault = false := beq_eq_false_iff_ne.mpr h
  rcases hkind with hlexeme | ⟨hvalues, hcomplete⟩
  · exact ⟨hshape (NodeKind.isLexeme_ne_error hlexeme), file.faulty_of_isLexeme hmem hlexeme⟩
  · exact ⟨hshape fun h => by simp [h, NodeKind.holdsValues] at hvalues,
      (file.intact_of_holdsValues hmem hvalues hcomplete).2⟩

theorem intact_of_tag (hn : n ∈ file.root.inside.preorder) (hkind : n.kind = .tag)
    (h : n.incomplete = false)
    (harguments : ∀ a, (n.childrenOfKind .arguments).head? = some a → a.incomplete = false)
    (hnamed : ∀ a ∈ n.childrenOfKind .namedArgument, a.incomplete = false) : n.Intact := by
  refine ⟨h, n.faulty_content_eq_false_iff.mpr fun c hc => file.clean_of_mem_children hn hc ?_⟩
  rcases file.tag_children hn hkind with ⟨hcut, -⟩ | ⟨name, rest, hchildren, hname, -, happlied⟩
  · rw [h] at hcut
    cases hcut
  rw [hchildren] at hc
  rcases List.mem_cons.mp hc with rfl | hc
  · exact .inl (by rw [hname]; rfl)
  right
  have halone {complete : Bool} {behind : List Shape}
      (hrest : rest.map (fun c => c.mark.shape) = .construct .arguments complete :: behind) :
      ∃ a others, rest = a :: others ∧ a.kind = .arguments ∧ complete = true ∧
        others.map (fun c => c.mark.shape) = behind := by
    obtain ⟨a, others, rfl, ha, hothers⟩ := List.map_eq_cons_iff.mp hrest
    have hk : a.kind = .arguments := by rw [Node.kind, ha]; rfl
    have hwhole := harguments a (by simp [Node.childrenOfKind, hchildren, hname, hk])
    rw [Node.incomplete, ha] at hwhole
    exact ⟨a, others, rfl, hk, by simpa [Shape.complete] using hwhole, hothers⟩
  rcases happlied h with hnil | (⟨complete, hrest⟩ | ⟨fault, hrest⟩) | ⟨-, hrest⟩
  · rw [List.map_eq_nil_iff.mp hnil] at hc
    cases hc
  · obtain ⟨a, others, rfl, hk, rfl, hothers⟩ := halone hrest
    obtain rfl := List.map_eq_nil_iff.mp hothers
    obtain rfl := List.mem_singleton.mp hc
    exact ⟨by rw [hk]; rfl, harguments c (by simp [Node.childrenOfKind, hchildren, hname, hk])⟩
  · -- arguments that were cut short are incomplete
    obtain ⟨a, others, -, -, hcomplete, -⟩ := halone hrest
    cases hcomplete
  · have hk : c.kind = .namedArgument := hrest c.mark.shape (List.mem_map_of_mem hc)
    exact ⟨by rw [hk]; rfl, hnamed c (List.mem_filter.mpr
      ⟨hchildren ▸ List.mem_cons_of_mem _ hc, beq_iff_eq.mpr hk⟩)⟩

theorem intact_of_construction (hn : n ∈ file.root.inside.preorder) (hkind : n.kind = .construction)
    (h : n.incomplete = false)
    (harguments : ∀ a, (n.childrenOfKind .arguments).head? = some a → a.incomplete = false) :
    n.Intact := by
  refine ⟨h, n.faulty_content_eq_false_iff.mpr fun c hc => file.clean_of_mem_children hn hc ?_⟩
  obtain ⟨name, arguments, behind, hchildren, hname, hkind, hbehind⟩ :=
    file.construction_children hn hkind
  have hwhole := harguments arguments (by simp [Node.childrenOfKind, hchildren, hname, hkind])
  rw [hchildren] at hc
  rcases List.mem_cons.mp hc with rfl | hc
  · exact .inl (by rw [hname]; rfl)
  rcases List.mem_cons.mp hc with rfl | hc
  · exact .inr ⟨by rw [hkind]; rfl, hwhole⟩
  · rw [(hbehind c hc).2] at hwhole
    cases hwhole

/-! ## Entries and named arguments -/

theorem length_children_of_paired (h : n.Intact) (hpaired : Paired n.content) :
    n.children.length = 2 := by
  have hlength := hpaired h.2
  rwa [n.tops_content, List.length_map] at hlength

theorem entry_children (hn : n ∈ file.root.inside.preorder) (h : n.Intact)
    (hkind : n.kind = .mapEntry) : ∃ key value, n.children = [key, value] ∧
      (key.Intact ∧ key.kind.isValue = true) ∧ value.Intact ∧ value.kind.isValue = true := by
  have hcomposes := file.composes_of_mem hn (by simp [hkind])
  rw [hkind, h.1] at hcomposes
  have hvalues := file.values_of_intact hn h (.inr (.inr hkind))
  obtain ⟨key, value, hchildren⟩ := List.length_eq_two.mp (length_children_of_paired h hcomposes)
  exact ⟨key, value, hchildren, hvalues key (by simp [hchildren]),
    hvalues value (by simp [hchildren])⟩

theorem namedArgument_children (hn : n ∈ file.root.inside.preorder) (h : n.Intact)
    (hkind : n.kind = .namedArgument) : ∃ name value, n.children = [name, value] ∧
      name.kind = .fieldRef ∧ value.Intact ∧ value.kind.isValue = true := by
  have hcomposes := file.composes_of_mem hn (by simp [hkind])
  rw [hkind, h.1] at hcomposes
  obtain ⟨name, rest, hchildren, hname, hrest⟩ := file.named_of_intact hn h hkind
  have hlength := length_children_of_paired h hcomposes
  rw [hchildren, List.length_cons, Nat.add_left_inj, List.length_eq_one_iff] at hlength
  obtain ⟨value, rfl⟩ := hlength
  exact ⟨name, value, hchildren, hname, hrest value (by simp)⟩

end SchemaFile

end SchemaLang
