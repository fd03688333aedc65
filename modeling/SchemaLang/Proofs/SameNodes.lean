import SchemaLang.Proofs.Contents
import SchemaLang.Proofs.Related
import SchemaLang.Resolution

/-!
# The same nodes in two files

Two files may have the same nodes, such as two layouts of one text. A node of one
of them and the node of the other at the same place are twins: they agree in
number, kind and completeness, what they hold are twins again, and constructs
over one lexeme have the same text, unless they are names of arguments. So the
sites of both files are twins in turn.
-/

set_option autoImplicit false

namespace SchemaLang

namespace Forest

variable {α τ : Type}

def bare : Forest α τ → Forest α Empty
  | nil => nil
  | leaf _ next => next.bare
  | node a inside next => node a inside.bare next.bare

theorem labels_bare (f : Forest α τ) : f.bare.labels = f.labels := by
  induction f with
  | nil => rfl
  | leaf t next ih => exact ih
  | node a inside next ihi ihn => rw [bare, labels, labels, ihi, ihn]

theorem pieces_bare (f : Forest α τ) :
    f.bare.pieces = f.pieces.map fun p => (p.1, p.2.bare) := by
  induction f with
  | nil => rfl
  | leaf t next ih => exact ih
  | node a inside next _ ih => rw [bare, pieces, pieces, ih, List.map_cons]

theorem labels_mapLabels {β : Type} (p : α → β) (f : Forest α τ) :
    (f.mapLabels p).labels = f.labels.map p := by
  induction f with
  | nil => rfl
  | leaf t next ih => exact ih
  | node a inside next ihi ihn => simp [mapLabels, labels, ihi, ihn]

def places : Forest α τ → List (α × Forest α τ) → List ((α × Forest α τ) × List (α × Forest α τ))
  | nil, _ => []
  | leaf _ next, above => next.places above
  | node a inside next, above =>
    ((a, inside), above) :: (inside.places ((a, inside) :: above) ++ next.places above)

theorem places_bare (f : Forest α τ) (above : List (α × Forest α τ)) :
    f.bare.places (above.map fun p => (p.1, p.2.bare)) =
      (f.places above).map fun p => ((p.1.1, p.1.2.bare), p.2.map fun q => (q.1, q.2.bare)) := by
  induction f generalizing above with
  | nil => rfl
  | leaf t next ih => exact ih above
  | node a inside next ihi ihn =>
    have hinside := ihi ((a, inside) :: above)
    rw [List.map_cons] at hinside
    rw [bare, places, places, hinside, ihn, List.map_cons, List.map_append]

theorem places_gist (f : Forest Mark Token) (above : List Node) :
    (f.sites above).map (fun s => (s.node.gist, s.above.map Node.gist)) =
      f.gist.places (above.map Node.gist) := by
  induction f generalizing above with
  | nil => rfl
  | leaf t next ih =>
    rw [gist]
    split <;> exact ih above
  | node mark inside next ihi ihn =>
    rw [sites, List.map_cons, List.map_append, ihi, ihn, gist, places]
    rfl

end Forest

def Node.skeleton (n : Node) : (Nat × Shape) × Forest (Nat × Shape) Empty :=
  (n.gist.1, n.gist.2.bare)

theorem Node.map_skeleton_nodes (f : Forest Mark Token) :
    f.nodes.map Node.skeleton = f.gist.bare.pieces := by
  rw [Forest.pieces_bare, ← map_gist_nodes, List.map_map]
  rfl

def NodeKind.isFixed (kind : NodeKind) : Bool := kind.isLexeme && kind != .fieldRef

theorem NodeKind.isLexeme_of_isFixed {kind : NodeKind} (h : kind.isFixed = true) :
    kind.isLexeme = true := (Bool.and_eq_true_iff.mp h).1

/-- The nodes of the files are the same, and constructs over one lexeme have the same
text, unless they are names of arguments. -/
structure SameNodes (f g : SchemaFile) : Prop where
  root : f.root.skeleton = g.root.skeleton
  text : ∀ ⦃m : Node⦄, m ∈ f.nodes → ∀ ⦃n : Node⦄, n ∈ g.nodes → m.id = n.id →
    m.kind.isFixed = true → f.text m = g.text n

theorem SameNodes.refl (file : SchemaFile) : SameNodes file file where
  root := rfl
  text m hm n hn hid _ := by rw [file.eq_of_id_eq hm hn hid]

/-! ## Nodes and sites at the same place -/

structure Twin (f g : SchemaFile) (m n : Node) : Prop where
  files : SameNodes f g
  left : m ∈ f.nodes
  right : n ∈ g.nodes
  skeleton : m.skeleton = n.skeleton

structure TwinSite (f g : SchemaFile) (s t : Site) : Prop where
  node : Twin f g s.node t.node
  above : List.Forall₂ (Twin f g) s.above t.above

theorem forall₂_twin {f g : SchemaFile} {ms ns : List Node} (hfiles : SameNodes f g)
    (h : ms.map Node.skeleton = ns.map Node.skeleton) (hms : ∀ m ∈ ms, m ∈ f.nodes)
    (hns : ∀ n ∈ ns, n ∈ g.nodes) :
    List.Forall₂ (Twin f g) ms ns :=
  (forall₂_of_map_eq h).imp fun _ _ ⟨hm, hn, hskeleton⟩ => ⟨hfiles, hms _ hm, hns _ hn, hskeleton⟩

namespace Twin

variable {f g : SchemaFile} {m n : Node} (h : Twin f g m n)
include h

theorem id : m.id = n.id := congrArg (·.1.1) h.skeleton

theorem shape : m.mark.shape = n.mark.shape := congrArg (·.1.2) h.skeleton

theorem kind : m.kind = n.kind := congrArg Shape.kind h.shape

theorem incomplete : m.incomplete = n.incomplete :=
  congrArg (fun shape : Shape => !shape.complete) h.shape

theorem inside_bare : m.inside.gist.bare = n.inside.gist.bare := congrArg (·.2) h.skeleton

theorem labels_content : m.content.labels = n.content.labels := by
  rw [Node.content, Node.content, Forest.labels_mapLabels, Forest.labels_mapLabels,
    ← Forest.labels_bare, h.inside_bare, Forest.labels_bare]

theorem intact (hm : m.Intact) : n.Intact := by
  refine ⟨h.incomplete ▸ hm.1, ?_⟩
  rw [Faulty, ← h.labels_content]
  exact hm.2

theorem children : List.Forall₂ (Twin f g) m.children n.children := by
  refine forall₂_twin h.files ?_
    (fun c hc => List.mem_cons_of_mem _ (f.mem_of_mem_children h.left hc))
    fun c hc => List.mem_cons_of_mem _ (g.mem_of_mem_children h.right hc)
  rw [Node.children, Node.children, Node.map_skeleton_nodes, Node.map_skeleton_nodes,
    h.inside_bare]

theorem childrenOfKind (kind : NodeKind) :
    List.Forall₂ (fun c d => Twin f g c d ∧ c.kind = kind) (m.childrenOfKind kind)
      (n.childrenOfKind kind) :=
  (rel_filter_eq h.children fun _ _ hcd => by rw [hcd.kind]).imp fun _ _ ⟨hcd, hkind⟩ =>
    ⟨hcd, eq_of_beq hkind⟩

theorem firstChild? (kind : NodeKind) :
    Option.Rel (fun c d => Twin f g c d ∧ c.kind = kind) (m.firstChild? kind)
      (n.firstChild? kind) :=
  rel_imp (rel_find? h.children fun _ _ hcd => by rw [hcd.kind]) fun _ _ ⟨hcd, hkind⟩ =>
    ⟨hcd, eq_of_beq hkind⟩

/-- A construct over one lexeme has the same text in both files, unless it is the name
of an argument. -/
theorem text (hkind : m.kind.isFixed = true) : f.text m = g.text n :=
  h.files.text h.left h.right h.id hkind

theorem childText {kind : NodeKind} (hkind : kind.isFixed = true) :
    (m.firstChild? kind).map f.text = (n.firstChild? kind).map g.text :=
  map_eq_of_rel (h.firstChild? kind) fun _ _ ⟨hcd, hk⟩ => hcd.text (hk ▸ hkind)

end Twin

namespace TwinSite

variable {f g : SchemaFile} {s t : Site} (h : TwinSite f g s t)
include h

theorem id : s.id = t.id := h.node.id

theorem kind : s.kind = t.kind := h.node.kind

theorem child {c d : Node} (hcd : Twin f g c d) : TwinSite f g (s.child c) (t.child d) :=
  ⟨hcd, .cons h.node h.above⟩

theorem children : List.Forall₂ (TwinSite f g) s.children t.children := by
  rw [Site.children, Site.children, List.forall₂_map_left_iff, List.forall₂_map_right_iff]
  exact h.node.children.imp fun _ _ => h.child

theorem parent? : s.parent?.map Node.id = t.parent?.map Node.id :=
  map_eq_of_rel (rel_head? h.above) fun _ _ hpq => hpq.id

theorem ancestors : List.Forall₂ (TwinSite f g) s.ancestors t.ancestors := by
  have hof {ms ns : List Node} (hms : List.Forall₂ (Twin f g) ms ns) :
      List.Forall₂ (TwinSite f g) (Site.ancestorsOf ms) (Site.ancestorsOf ns) := by
    induction hms with
    | nil => exact .nil
    | cons hm hms ih => exact .cons ⟨hm, hms⟩ ih
  exact hof h.above

end TwinSite

/-! ## The sites of a file -/

theorem Forest.above_of_mem_sites {f : Forest Mark Token} {above : List Node} {s : Site}
    (hs : s ∈ f.sites above) : ∀ n ∈ s.above, n ∈ above ∨ n ∈ f.preorder := by
  induction f generalizing above with
  | nil => simp [sites] at hs
  | leaf t next ih => exact ih hs
  | node mark inside next ihi ihn =>
    intro n hn
    rw [preorder, List.mem_cons, List.mem_append]
    rcases List.mem_cons.mp hs with rfl | hs
    · exact .inl hn
    rcases List.mem_append.mp hs with hs | hs
    · rcases ihi hs n hn with habove | hin
      · rcases List.mem_cons.mp habove with rfl | habove
        · exact .inr (.inl rfl)
        · exact .inl habove
      · exact .inr (.inr (.inl hin))
    · exact (ihn hs n hn).imp_right fun hnext => .inr (.inr hnext)

theorem SchemaFile.above_of_mem_sites (file : SchemaFile) {s : Site} (hs : s ∈ file.sites) :
    ∀ n ∈ s.above, n ∈ file.nodes := by
  rcases List.mem_cons.mp hs with rfl | hs
  · simp [rootSite]
  · intro n hn
    rcases Forest.above_of_mem_sites hs n hn with habove | hin
    · rw [List.mem_singleton.mp habove]
      exact List.mem_cons_self
    · exact List.mem_cons_of_mem _ hin

/-- The sites of a file, told from the gist of its tree. -/
theorem SchemaFile.places_gist (file : SchemaFile) :
    file.sites.map (fun s => (s.node.gist, s.above.map Node.gist)) =
      (file.root.gist, []) :: file.root.inside.gist.places [file.root.gist] := by
  rw [sites, List.map_cons, Forest.places_gist]
  rfl

namespace SameNodes

variable {f g : SchemaFile} (h : SameNodes f g)
include h

theorem twin_root : Twin f g f.root g.root := ⟨h, List.mem_cons_self, List.mem_cons_self, h.root⟩

theorem twin_rootSite : TwinSite f g f.rootSite g.rootSite := ⟨h.twin_root, .nil⟩

theorem faults : f.faults.map Prod.snd = g.faults.map Prod.snd := by
  have hfaults (file : SchemaFile) : file.faults.map Prod.snd =
      (file.root.mark.shape :: file.root.content.labels).filterMap Shape.fault? := by
    have hshapes : file.root.mark.shape :: file.root.content.labels =
        file.nodes.map fun n => n.mark.shape := by
      rw [Node.labels_content]
      rfl
    rw [hshapes, SchemaFile.faults, List.map_filterMap, List.filterMap_map]
    refine List.filterMap_congr fun n _ => ?_
    cases hfault : n.fault? with
    | none => exact hfault.symm
    | some fault => exact hfault.symm
  rw [hfaults, hfaults, h.twin_root.shape, h.twin_root.labels_content]

theorem sites : List.Forall₂ (TwinSite f g) f.sites g.sites := by
  have hplaces (file : SchemaFile) :
      file.sites.map (fun s => (s.node.skeleton, s.above.map Node.skeleton)) =
        (file.root.skeleton, []) ::
          file.root.inside.gist.bare.places [file.root.skeleton] := by
    have hbare := Forest.places_bare file.root.inside.gist [file.root.gist]
    have hsites := congrArg (List.map fun p : _ × List _ =>
      ((p.1.1, p.1.2.bare), p.2.map fun q => (q.1, q.2.bare))) file.places_gist
    rw [List.map_map, List.map_cons, ← hbare] at hsites
    refine Eq.trans (List.map_congr_left fun s _ => ?_) hsites
    simp [Node.skeleton]
  have hskeletons := hplaces f
  rw [h.root, h.twin_root.inside_bare, ← hplaces g] at hskeletons
  refine (forall₂_of_map_eq hskeletons).imp ?_
  rintro s t ⟨hs, ht, hst⟩
  obtain ⟨hnode, habove⟩ := Prod.mk.inj hst
  have hmem (file : SchemaFile) (r : Site) (hr : r ∈ file.sites) : r.node ∈ file.nodes := by
    rw [← file.map_node_sites]
    exact List.mem_map_of_mem hr
  exact ⟨⟨h, hmem f s hs, hmem g t ht, hnode⟩,
    forall₂_twin h habove (f.above_of_mem_sites hs) (g.above_of_mem_sites ht)⟩

end SameNodes

/-! ## Layouts -/

def SameLexemes (f g : SchemaFile) : Prop :=
  f.significantTokens.map Token.lexeme = g.significantTokens.map Token.lexeme

namespace SameLexemes

variable {f g : SchemaFile} (h : SameLexemes f g)
include h

theorem inside_gist : f.root.inside.gist = g.root.inside.gist := by
  rw [SameLexemes, f.lexeme_significantTokens, g.lexeme_significantTokens] at h
  rw [f.gist_root, g.gist_root, h]

theorem gist_root : f.root.gist = g.root.gist := by
  rw [Node.gist, Node.gist, f.id_root, g.id_root, f.shape_root, g.shape_root, h.inside_gist]

theorem gist {m n : Node} (hm : m ∈ f.nodes) (hn : n ∈ g.nodes) (hid : m.id = n.id) :
    m.gist = n.gist := by
  have hplaces : f.nodes.map Node.gist = g.nodes.map Node.gist := by
    have hsites := f.places_gist
    rw [h.gist_root, h.inside_gist, ← g.places_gist] at hsites
    have hnodes := congrArg (List.map Prod.fst) hsites
    rw [List.map_map, List.map_map] at hnodes
    rw [← f.map_node_sites, ← g.map_node_sites, List.map_map, List.map_map]
    exact hnodes
  obtain ⟨k, hk, hgist⟩ := List.mem_map.mp (hplaces ▸ List.mem_map_of_mem hm)
  have hid : k.id = n.id := (congrArg (·.1.1) hgist).trans hid
  rw [← hgist, g.eq_of_id_eq hk hn hid]

/-- A construct over one lexeme has the same text in both layouts. -/
theorem text {m n : Node} (hm : m ∈ f.nodes) (hn : n ∈ g.nodes) (hid : m.id = n.id)
    (hkind : m.kind.isLexeme = true) : f.text m = g.text n := by
  have hgist := h.gist hm hn hid
  have hsame : m.kind = n.kind := congrArg (·.1.2.kind) hgist
  have hfile : m.kind ≠ .schemaFile := fun hk => by simp [hk, NodeKind.isLexeme] at hkind
  have herror := NodeKind.isLexeme_ne_error hkind
  have hm := f.mem_of_kind_ne hm hfile
  have hn := g.mem_of_kind_ne hn (hsame ▸ hfile)
  have hinside : m.inside.gist = n.inside.gist := congrArg (·.2) hgist
  obtain ⟨l, hl, -⟩ := f.leaves_of_isLexeme hm hkind
  rw [(f.text_of_leaves_eq_singleton hm herror hl).2,
    (g.text_of_leaves_eq_singleton hn (hsame ▸ herror) (hinside ▸ hl)).2]

theorem nodes : SameNodes f g where
  root := by rw [Node.skeleton, Node.skeleton, h.gist_root]
  text _ hm _ hn hid hkind := h.text hm hn hid (NodeKind.isLexeme_of_isFixed hkind)

end SameLexemes

end SchemaLang
