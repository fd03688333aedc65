import SchemaLang.Proofs.Formed
import SchemaLang.Proofs.Spelling

/-!
# What the nodes of a file hold

What holds of every construct of the parsed row holds of every node of the
file, blanks and comments left aside. A construct is intact when neither it nor
anything inside it was cut short. What stands in an intact construct is intact,
and a whole argument list, list, map, entry or named argument is intact.
-/

set_option autoImplicit false

namespace SchemaLang

namespace Forest

variable {α τ : Type}

def pieces : Forest α τ → List (α × Forest α τ)
  | nil => []
  | leaf _ next => next.pieces
  | node a inside next => (a, inside) :: next.pieces

theorem mapLabels_numbered (f : Forest α τ) (id : Nat) :
    (f.numbered id).mapLabels Prod.snd = f := by
  induction f generalizing id with
  | nil => rfl
  | leaf t next ih => rw [numbered, mapLabels, ih]
  | node a inside next ihi ihn => rw [numbered, mapLabels, ihi, ihn]

theorem Each.deep {P : α → Forest α τ → Prop} {f : Forest α τ} (h : f.Each P) :
    f.Each (fun a inside => P a inside ∧ inside.Each P) := by
  induction f with
  | nil => trivial
  | leaf t next ih => exact ih h
  | node a inside next ihi ihn => exact ⟨⟨h.1, h.2.1⟩, ihi h.2.1, ihn h.2.2⟩

theorem subset_preorder {f : Forest Mark Token} {n : Node} (hn : n ∈ f.preorder) :
    ∀ m ∈ n.inside.preorder, m ∈ f.preorder := by
  induction f with
  | nil => simp [preorder] at hn
  | leaf t next ih => exact ih hn
  | node mark inside next ihi ihn =>
    intro m hm
    rw [preorder, List.mem_cons, List.mem_append] at hn ⊢
    rcases hn with rfl | hin | hnext
    · exact .inr (.inl hm)
    · exact .inr (.inl (ihi hin m hm))
    · exact .inr (.inr (ihn hnext m hm))

/-- Fewer nodes stand in a node than in the row that holds it. -/
theorem length_preorder_lt {f : Forest Mark Token} {n : Node} (hn : n ∈ f.preorder) :
    n.inside.preorder.length < f.preorder.length := by
  induction f with
  | nil => simp [preorder] at hn
  | leaf t next ih => exact ih hn
  | node mark inside next ihi ihn =>
    rw [preorder, List.length_cons, List.length_append]
    rw [preorder, List.mem_cons, List.mem_append] at hn
    rcases hn with rfl | hin | hnext
    · exact Nat.lt_succ_of_le (Nat.le_add_right _ _)
    · have := ihi hin
      omega
    · have := ihn hnext
      omega

end Forest

namespace Node

variable {n c : Node}

def content (n : Node) : Row := n.inside.gist.mapLabels Prod.snd

def gist (n : Node) : (Nat × Shape) × Forest (Nat × Shape) Lexeme :=
  ((n.id, n.mark.shape), n.inside.gist)

theorem leaves_content (n : Node) : n.content.leaves = n.inside.gist.leaves :=
  Forest.leaves_mapLabels _ _

theorem map_gist_nodes (f : Forest Mark Token) : f.nodes.map gist = f.gist.pieces := by
  induction f with
  | nil => rfl
  | leaf t next ih =>
    rw [Forest.gist]
    split <;> exact ih
  | node mark inside next _ ih => exact congrArg (gist ⟨mark, inside⟩ :: ·) ih

theorem tops_content (n : Node) : n.content.tops = n.children.map fun c => c.mark.shape := by
  have htops (f : Forest (Nat × Shape) Lexeme) :
      (f.mapLabels Prod.snd).tops = f.pieces.map fun p => p.1.2 := by
    induction f with
    | nil => rfl
    | leaf t next ih => exact ih
    | node a inside next _ ih => exact congrArg (a.2 :: ·) ih
  rw [content, htops, ← map_gist_nodes, List.map_map]
  rfl

theorem labels_content (n : Node) :
    n.content.labels = n.inside.preorder.map fun m => m.mark.shape := by
  have hlabels (f : Forest Mark Token) :
      (f.gist.mapLabels Prod.snd).labels = f.preorder.map fun m => m.mark.shape := by
    induction f with
    | nil => rfl
    | leaf t next ih =>
      rw [Forest.gist]
      split <;> exact ih
    | node mark inside next ihi ihn =>
      rw [Forest.gist, Forest.mapLabels, Forest.labels, ihi, ihn, Forest.preorder, List.map_cons,
        List.map_append]
  exact hlabels n.inside

theorem faulty_content (n : Node) :
    Faulty n.content = n.inside.preorder.any fun m => m.mark.shape.isFault := by
  rw [Faulty, labels_content, List.any_map]
  rfl

/-- Nothing was cut short: neither the node nor anything it holds. -/
def Intact (n : Node) : Prop := n.incomplete = false ∧ Faulty n.content = false

end Node

structure Shape.Vouches (shape : Shape) (inside : Row) : Prop where
  values : shape.kind.holdsValues = true → shape.complete = true → Faulty inside = false
  complete : Faulty inside = false → ∀ a ∈ inside.labels, a.complete = true

theorem faulty_of_faultNext {row : Row} (h : faultNext row false = true) : Faulty row = true := by
  cases row with
  | nil => cases h
  | leaf t next => cases h
  | node shape inside next => simp [show shape.isFault = true from h]

theorem Honest.complete {row : Row} (h : Honest row false) (hf : Faulty row = false) :
    ∀ a ∈ row.labels, a.complete = true := by
  induction row with
  | nil => simp [Forest.labels]
  | leaf t next ih => exact ih h hf
  | node shape inside next ihi ihn =>
    simp only [faulty_node, Bool.or_eq_false_iff] at hf
    obtain ⟨-, hinside, hnext⟩ := hf
    have hcomplete : shape.complete = true := by
      cases hc : shape.complete with
      | true => rfl
      | false =>
        rcases h.1.reason hc with hfault | hfault
        · rw [hinside] at hfault
          cases hfault
        · rw [faulty_of_faultNext hfault] at hnext
          cases hnext
    rw [Forest.labels, List.forall_mem_cons, List.forall_mem_append]
    exact ⟨hcomplete, ihi h.2.1 hinside, ihn h.2.2 hnext⟩

theorem Honest.vouches {row : Row} {later : Bool} (h : Honest row later) :
    row.Each Shape.Vouches := by
  induction row generalizing later with
  | nil => trivial
  | leaf t next ih => exact ih h
  | node shape inside next ihi ihn =>
    refine ⟨⟨fun hvalues hcomplete => ?_, h.2.1.complete⟩, ihi h.2.1, ihn h.2.2⟩
    cases hf : Faulty inside with
    | false => rfl
    | true =>
      have := h.1.values hvalues (.inl hf)
      rw [hcomplete] at this
      cases this

theorem each_content {P : Shape → Row → Prop} {f : Forest Mark Token}
    (h : (f.gist.mapLabels Prod.snd).Each P) : ∀ n ∈ f.preorder, P n.mark.shape n.content := by
  induction f with
  | nil => simp [Forest.preorder]
  | leaf t next ih =>
    refine ih ?_
    rw [Forest.gist] at h
    split at h <;> exact h
  | node mark inside next ihi ihn =>
    rw [Forest.preorder, List.forall_mem_cons, List.forall_mem_append]
    exact ⟨h.1, ihi h.2.1, ihn h.2.2⟩

theorem Worded.isLexeme_of_mem_tops {row : Row} (h : Worded row) {shape : Shape}
    (hshape : shape ∈ row.tops) : shape.kind.isLexeme = true := by
  induction h with
  | nil => simp [Forest.tops] at hshape
  | leaf t _ ih => exact ih hshape
  | lexeme hkind _ _ ih =>
    rcases List.mem_cons.mp hshape with rfl | hshape
    · exact hkind
    · exact ih hshape

def NodeKind.closer? : NodeKind → Option TokenKind
  | construction => some .rparen
  | list => some .rbracket
  | map => some .rbrace
  | _ => none

theorem NodeKind.mem_of_closer? {kind : NodeKind} {closer : TokenKind}
    (h : kind.closer? = some closer) : closer ∈ [.rparen, .rbracket, .rbrace] := by
  cases kind <;> cases h <;> decide

namespace SchemaFile

variable (file : SchemaFile) {n c : Node}

theorem content_of_each {P : Shape → Row → Prop}
    (h : (parseRow (significant (lexemes file.source))).Each P)
    (hn : n ∈ file.root.inside.preorder) : P n.mark.shape n.content := by
  refine each_content ?_ n hn
  rw [file.gist_root, Forest.mapLabels_numbered]
  exact h

theorem formed_of_mem (hn : n ∈ file.root.inside.preorder) :
    n.mark.shape.Formed n.content ∧ Formed n.content :=
  file.content_of_each (P := fun shape inside => shape.Formed inside ∧ Formed inside)
    (Forest.Each.deep (formed_parseWith _ _)) hn

theorem vouches_of_mem (hn : n ∈ file.root.inside.preorder) : n.mark.shape.Vouches n.content :=
  file.content_of_each (sturdy_parseWith _ _ false).vouches hn

theorem mem_of_mem_children (hn : n ∈ file.nodes) (hc : c ∈ n.children) :
    c ∈ file.root.inside.preorder := by
  have hinside := (Forest.nodes_sublist_preorder n.inside).subset hc
  rcases List.mem_cons.mp hn with rfl | hn
  · exact hinside
  · exact Forest.subset_preorder hn c hinside

theorem kind_root : file.root.kind = .schemaFile := by
  rw [Node.kind, file.shape_root]
  rfl

theorem mem_of_kind_ne (hn : n ∈ file.nodes) (hkind : n.kind ≠ .schemaFile) :
    n ∈ file.root.inside.preorder := by
  rcases List.mem_cons.mp hn with rfl | hn
  · exact absurd file.kind_root hkind
  · exact hn

theorem intact_of_holdsValues (hn : n ∈ file.root.inside.preorder)
    (hvalues : n.kind.holdsValues = true) (h : n.incomplete = false) : n.Intact :=
  ⟨h, (file.vouches_of_mem hn).values hvalues (by simpa [Node.incomplete] using h)⟩

/-- What stands in an intact construct, at any depth, is intact. -/
theorem intact_of_mem_inside (hn : n ∈ file.root.inside.preorder) (h : n.Intact)
    (hc : c ∈ n.inside.preorder) : c.Intact ∧ c.mark.shape.isFault = false := by
  have hclean : ∀ m ∈ n.inside.preorder, m.mark.shape.isFault = false := by
    simpa [n.faulty_content] using h.2
  refine ⟨⟨?_, ?_⟩, hclean c hc⟩
  · have := (file.vouches_of_mem hn).complete h.2 c.mark.shape
      (by rw [n.labels_content]; exact List.mem_map_of_mem hc)
    rw [Node.incomplete, this]
    rfl
  · rw [c.faulty_content, List.any_eq_false]
    exact fun m hm => by simp [hclean m (Forest.subset_preorder hc m hm)]

theorem intact_of_mem_children (hn : n ∈ file.root.inside.preorder) (h : n.Intact)
    (hc : c ∈ n.children) : c.Intact ∧ c.mark.shape.isFault = false :=
  file.intact_of_mem_inside hn h ((Forest.nodes_sublist_preorder n.inside).subset hc)

theorem leaves_of_isLexeme (hn : n ∈ file.root.inside.preorder) (hkind : n.kind.isLexeme = true) :
    ∃ l, n.inside.gist.leaves = [l] ∧ n.kind.admits l.kind = true := by
  have hformed := (file.formed_of_mem hn).1
  rw [← n.leaves_content]
  cases hshape : n.mark.shape with
  | skipped fault =>
    rw [Node.kind, hshape] at hkind
    cases hkind
  | construct kind complete =>
    rw [hshape] at hformed
    have hkind' : n.kind = kind := by rw [Node.kind, hshape]; rfl
    rw [hkind'] at hkind ⊢
    obtain ⟨l, hl, hadmits⟩ := exists_of_holds_lexeme hkind hformed
    exact ⟨l, by rw [hl]; rfl, hadmits⟩

/-- Nothing stands below a construct over one lexeme, nor below a decimal. -/
theorem children_eq_nil (hn : n ∈ file.root.inside.preorder)
    (hkind : n.kind.isLexeme = true ∨ n.kind = .decimalValue) : n.children = [] := by
  have hformed := (file.formed_of_mem hn).1
  refine List.map_eq_nil_iff.mp (n.tops_content.symm.trans ?_)
  cases hshape : n.mark.shape with
  | skipped fault =>
    rw [Node.kind, hshape] at hkind
    rcases hkind with hkind | hkind <;> cases hkind
  | construct kind complete =>
    rw [hshape] at hformed
    rw [show n.kind = kind by rw [Node.kind, hshape]; rfl] at hkind
    rcases hkind with hkind | rfl
    · obtain ⟨l, hl, -⟩ := exists_of_holds_lexeme hkind hformed
      rw [hl]
      rfl
    · exact hformed

theorem holds_of_intact (hn : n ∈ file.root.inside.preorder) (h : n.Intact)
    (hkind : n.kind ≠ .error) : n.kind.Holds true n.content := by
  have hformed := (file.formed_of_mem hn).1
  cases hshape : n.mark.shape with
  | skipped fault => exact absurd (by rw [Node.kind, hshape]; rfl) hkind
  | construct kind complete =>
    have hcomplete : complete = true := by
      simpa [Node.incomplete, hshape, Shape.complete] using h.1
    rw [hshape, hcomplete] at hformed
    rw [Node.kind, hshape]
    exact hformed

theorem isValue_of_valued (hn : n ∈ file.root.inside.preorder) (h : n.Intact)
    (hvalued : Valued n.content) (hc : c ∈ n.children) : c.Intact ∧ c.kind.isValue = true := by
  obtain ⟨hintact, hfault⟩ := file.intact_of_mem_children hn h hc
  refine ⟨hintact, (hvalued c.mark.shape ?_).resolve_right (by simp [hfault])⟩
  rw [n.tops_content]
  exact List.mem_map_of_mem hc

theorem values_of_intact (hn : n ∈ file.root.inside.preorder) (h : n.Intact)
    (hkind : n.kind = .list ∨ n.kind = .arguments ∨ n.kind = .mapEntry) :
    ∀ c ∈ n.children, c.Intact ∧ c.kind.isValue = true := by
  have hholds := file.holds_of_intact hn h (by rcases hkind with hk | hk | hk <;> simp [hk])
  intro c hc
  refine file.isValue_of_valued hn h ?_ hc
  rcases hkind with hk | hk | hk
  · rw [hk] at hholds
    exact hholds.1
  · rw [hk] at hholds
    exact hholds.1
  · rw [hk] at hholds
    exact hholds

theorem entries_of_intact (hn : n ∈ file.root.inside.preorder) (h : n.Intact)
    (hkind : n.kind = .map) : ∀ c ∈ n.children, c.Intact ∧ c.kind = .mapEntry := by
  have hholds := file.holds_of_intact hn h (by simp [hkind])
  rw [hkind] at hholds
  intro c hc
  refine ⟨(file.intact_of_mem_children hn h hc).1, hholds.1 c.mark.shape ?_⟩
  rw [n.tops_content]
  exact List.mem_map_of_mem hc

/-- A whole named argument has its name in front and values behind. -/
theorem named_of_intact (hn : n ∈ file.root.inside.preorder) (h : n.Intact)
    (hkind : n.kind = .namedArgument) :
    ∃ name rest, n.children = name :: rest ∧ name.kind = .fieldRef ∧
      ∀ c ∈ rest, c.Intact ∧ c.kind.isValue = true := by
  have hholds := file.holds_of_intact hn h (by simp [hkind])
  rw [hkind] at hholds
  obtain ⟨t, argument, hcontent, hvalued⟩ := hholds
  have htops := n.tops_content
  rw [hcontent, Forest.tops] at htops
  obtain ⟨name, rest, hchildren, hname, hrest⟩ := List.map_eq_cons_iff.mp htops.symm
  refine ⟨name, rest, hchildren, by rw [Node.kind, hname]; rfl, fun c hc => ?_⟩
  obtain ⟨hintact, hfault⟩ := file.intact_of_mem_children hn h
    (hchildren ▸ List.mem_cons_of_mem name hc)
  refine ⟨hintact, (hvalued c.mark.shape ?_).resolve_right (by simp [hfault])⟩
  rw [← hrest]
  exact List.mem_map_of_mem hc

/-- A field type has the name at its head in front, and every part of it is one lexeme. -/
theorem typed_of_mem (hn : n ∈ file.root.inside.preorder) (hkind : n.kind = .fieldType) :
    ∃ name parameters, n.children = name :: parameters ∧ name.kind = .typeName ∧
      ∀ c ∈ parameters, c.kind.isLexeme = true := by
  have hformed := (file.formed_of_mem hn).1
  have hfilled : n.mark.shape.Filled n.content :=
    file.content_of_each (filled_parseWith _ _) hn
  cases hshape : n.mark.shape with
  | skipped fault =>
    rw [Node.kind, hshape] at hkind
    cases hkind
  | construct kind complete =>
    obtain rfl : kind = .fieldType := by simpa [Node.kind, hshape, Shape.kind] using hkind
    rw [hshape] at hformed hfilled
    obtain hnil | ⟨t, parameters, hparameters, hcontent⟩ := hformed
    · rw [hnil] at hfilled
      exact absurd rfl hfilled
    have htops := n.tops_content
    rw [hcontent, Forest.tops] at htops
    obtain ⟨name, rest, hchildren, hname, hrest⟩ := List.map_eq_cons_iff.mp htops.symm
    refine ⟨name, rest, hchildren, by rw [Node.kind, hname]; rfl, fun c hc => ?_⟩
    have hc : c.mark.shape ∈ parameters.tops := by
      rw [← hrest]
      exact List.mem_map_of_mem hc
    exact hparameters.isLexeme_of_mem_tops hc

/-- A value between brackets ends with the closing bracket of its kind, unless it was cut short. -/
theorem shuts_of_intact (hn : n ∈ file.root.inside.preorder) (h : n.Intact) {closer : TokenKind}
    (hkind : n.kind.closer? = some closer) :
    ∃ l, n.inside.gist.leaves.getLast? = some l ∧ l.kind = closer := by
  have hlast {row : Row} (hshuts : Shuts closer row) (front : List Lexeme) :
      ∃ l, (front ++ row.leaves).getLast? = some l ∧ l.kind = closer := by
    obtain ⟨inner, l, rfl, hl⟩ := hshuts
    exact ⟨l, by simp [Forest.leaves], hl⟩
  have hholds := file.holds_of_intact hn h fun hk => by simp [hk, NodeKind.closer?] at hkind
  rw [← n.leaves_content]
  cases hk : n.kind <;> rw [hk] at hkind hholds <;> cases hkind
  · -- the closing bracket is that of the argument list, which is whole as well
    obtain ⟨name, complete, held, behind, hcontent, hbehind⟩ := hholds
    have hclean := h.2
    have hlabels := (file.vouches_of_mem hn).complete hclean
    have hformed := (file.formed_of_mem hn).2
    rw [hcontent] at hclean hlabels hformed
    obtain rfl : complete = true := hlabels (.construct .arguments complete)
      (by simp [Forest.labels])
    have harguments : NodeKind.arguments.Holds true held :=
      ((Forest.each_append _ _ _).mp hformed).2.1
    rcases hbehind with rfl | ⟨shape, skipped, rfl, hfault⟩
    · rw [hcontent, Forest.leaves_append, Forest.leaves, Forest.leaves_nil, List.append_nil]
      exact hlast harguments.2 name.leaves
    · simp [hfault] at hclean
  · exact hlast hholds.2 []
  · exact hlast hholds.2 []

theorem enclosed_of_intact (hn : n ∈ file.root.inside.preorder) (h : n.Intact) {closer : TokenKind}
    (hkind : n.kind.closer? = some closer) :
    Enclosed (file.text n) ∧
      (file.text n).toList.getLast?.bind Scan.punctuation? = some closer := by
  have hne : n.kind ≠ .error := fun hk => by simp [hk, NodeKind.closer?] at hkind
  obtain ⟨hmem, hsnug, htext⟩ := file.spelling_of_construct hn hne
  obtain ⟨hhead, hlast⟩ := file.ends_of_construct hn hne
  obtain ⟨l, hl, rfl⟩ := file.shuts_of_intact hn h hkind
  have hl' : l ∈ n.lexemes := by
    refine List.mem_of_mem_filter (p := fun l => !l.isTrivia) ?_
    rw [← significant, n.significant_lexemes]
    exact List.mem_of_getLast? hl
  obtain ⟨c, hc, hcloses, hpunctuation⟩ := closer_of_mem_lexemes (hmem l hl')
    (NodeKind.mem_of_closer? hkind)
  have hc : (file.text n).toList.getLast? = some c := by
    rw [hlast, hl]
    simp [hc]
  obtain ⟨t, ht, hsig⟩ := hsnug.head
  have htmem : t ∈ SchemaLang.lexemes file.source := hmem t (List.mem_of_head? ht)
  refine ⟨⟨?_, c, hc, hcloses⟩, by rw [hc]; exact hpunctuation⟩
  rw [hhead, ← n.significant_lexemes, hsnug.head?_significant, ht]
  exact head_of_mem_lexemes htmem hsig

end SchemaFile

end SchemaLang
