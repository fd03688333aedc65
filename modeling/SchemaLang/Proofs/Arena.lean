import SchemaLang.Proofs.Ancestry

/-!
# The nodes of a file by number

A tree can be kept as a row of slots with numbers for parents and children, and
then a number may lead past the row, a range may cut a character, and a walk may
go round in a circle. Reading such an arena is guarded here: each of the three
is a breach. Read at the numbers of its own nodes, the arena of a file answers
without a breach what the tree answers at the nodes.
-/

set_option autoImplicit false

namespace SchemaLang

inductive Breach where
  | noNode (id : Nat)
  | badSlice (span : Span)
  | endless
  deriving DecidableEq

abbrev Guarded := Except Breach

/-! ## Reading lists

Reading that never fails goes through the functions on lists as if it were plain.
-/

section Lists

variable {α β γ δ : Type} {m : Type → Type} [Monad m] [LawfulMonad m]

theorem filterM_map_pure {p : β → m Bool} {q : α → Bool} {i : α → β} {xs : List α}
    (h : ∀ x ∈ xs, p (i x) = pure (q x)) : (xs.map i).filterM p = pure ((xs.filter q).map i) := by
  have haux (acc : List β) : List.filterAuxM p (xs.map i) acc =
      pure (((xs.filter q).map i).reverse ++ acc) := by
    induction xs generalizing acc with
    | nil => rfl
    | cons x xs ih =>
      obtain ⟨hx, hxs⟩ := List.forall_mem_cons.mp h
      rw [List.map_cons, List.filterAuxM, hx, pure_bind, ih hxs]
      cases hq : q x <;> simp [hq]
  rw [List.filterM, haux, pure_bind, List.append_nil, List.reverse_reverse]

theorem findM?_map_pure {p : β → m Bool} {q : α → Bool} {i : α → β} {xs : List α}
    (h : ∀ x ∈ xs, p (i x) = pure (q x)) : (xs.map i).findM? p = pure ((xs.find? q).map i) := by
  induction xs with
  | nil => rfl
  | cons x xs ih =>
    obtain ⟨hx, hxs⟩ := List.forall_mem_cons.mp h
    rw [List.map_cons, List.findM?, hx, pure_bind, ih hxs, List.find?_cons]
    cases q x <;> rfl

theorem findSomeM?_map_pure {f : β → m (Option δ)} {g : α → Option γ} {i : α → β} {j : γ → δ}
    {xs : List α} (h : ∀ x ∈ xs, f (i x) = pure ((g x).map j)) :
    (xs.map i).findSomeM? f = pure ((xs.findSome? g).map j) := by
  induction xs with
  | nil => rfl
  | cons x xs ih =>
    obtain ⟨hx, hxs⟩ := List.forall_mem_cons.mp h
    rw [List.map_cons, List.findSomeM?_cons, hx, pure_bind, ih hxs, List.findSome?_cons]
    cases g x <;> rfl

theorem findSomeM?_pure {f : α → m (Option δ)} {g : α → Option γ} {j : γ → δ} {xs : List α}
    (h : ∀ x ∈ xs, f x = pure ((g x).map j)) :
    xs.findSomeM? f = pure ((xs.findSome? g).map j) := by
  have hmap := findSomeM?_map_pure (i := id) h
  rwa [List.map_id] at hmap

theorem mapM_map_pure {f : β → m δ} {g : α → δ} {i : α → β} {xs : List α}
    (h : ∀ x ∈ xs, f (i x) = pure (g x)) : (xs.map i).mapM f = pure (xs.map g) := by
  induction xs with
  | nil => exact List.mapM_nil
  | cons x xs ih =>
    obtain ⟨hx, hxs⟩ := List.forall_mem_cons.mp h
    rw [List.map_cons, List.mapM_cons, hx, pure_bind, ih hxs, pure_bind, List.map_cons]

theorem filterMapM_map_pure {f : β → m (Option δ)} {g : α → Option γ} {i : α → β} {j : γ → δ}
    {xs : List α} (h : ∀ x ∈ xs, f (i x) = pure ((g x).map j)) :
    (xs.map i).filterMapM f = pure ((xs.filterMap g).map j) := by
  induction xs with
  | nil => exact List.filterMapM_nil
  | cons x xs ih =>
    obtain ⟨hx, hxs⟩ := List.forall_mem_cons.mp h
    rw [List.map_cons, List.filterMapM_cons, hx, pure_bind, List.filterMap_cons]
    cases g x with
    | none => exact ih hxs
    | some y => simp only [Option.map_some, ih hxs, pure_bind, List.map_cons]

end Lists

/-! ## Arenas -/

structure Slot where
  kind : NodeKind
  span : Span
  incomplete : Bool
  parent? : Option Nat
  children : List Nat

/-- A text with the nodes of its tree in the order of their numbers, and the
numbers of those that skipped something. -/
structure Arena where
  origin : Origin
  source : String
  slots : List Slot
  faults : List (Nat × Fault)

namespace Arena

variable (a : Arena)

def root : Nat := 0

def slot (id : Nat) : Guarded Slot :=
  match a.slots[id]? with
  | some slot => pure slot
  | none => throw (.noNode id)

def kind (id : Nat) : Guarded NodeKind := Slot.kind <$> a.slot id

def span (id : Nat) : Guarded Span := Slot.span <$> a.slot id

def incomplete (id : Nat) : Guarded Bool := Slot.incomplete <$> a.slot id

def parent? (id : Nat) : Guarded (Option Nat) := Slot.parent? <$> a.slot id

def children (id : Nat) : Guarded (List Nat) := Slot.children <$> a.slot id

def slice (span : Span) : Guarded String :=
  if span.start ≤ span.stop ∧ String.Pos.Raw.IsValid a.source ⟨span.start⟩ ∧
      String.Pos.Raw.IsValid a.source ⟨span.stop⟩ then
    pure (Text.slice a.source span.start span.stop)
  else throw (.badSlice span)

def text (id : Nat) : Guarded String := do a.slice (← a.span id)

def text? : Option Nat → Guarded (Option String)
  | none => pure none
  | some id => some <$> a.text id

/-! ## Children -/

def isOfKind (kind : NodeKind) (id : Nat) : Guarded Bool := (· == kind) <$> a.kind id

def childrenOfKind (id : Nat) (kind : NodeKind) : Guarded (List Nat) := do
  (← a.children id).filterM (a.isOfKind kind)

def firstChild? (id : Nat) (kind : NodeKind) : Guarded (Option Nat) := do
  (← a.children id).findM? (a.isOfKind kind)

def values (id : Nat) : Guarded (List Nat) := do
  (← a.children id).filterM fun child => (· != .error) <$> a.kind child

/-! ## Walks -/

def ancestorsWithin : Nat → Nat → Guarded (List Nat)
  | 0, _ => throw .endless
  | fuel + 1, id => do
    match ← a.parent? id with
    | none => pure []
    | some parent => (parent :: ·) <$> ancestorsWithin fuel parent

def ancestors (id : Nat) : Guarded (List Nat) := a.ancestorsWithin a.slots.length id

def walkWithin (enter : NodeKind → Bool) : Nat → List Nat → Guarded (List Nat)
  | _, [] => pure []
  | 0, _ :: _ => throw .endless
  | fuel + 1, id :: stack => do
    let below ← if enter (← a.kind id) then a.children id else pure []
    (id :: ·) <$> walkWithin enter fuel (below ++ stack)

def walk (enter : NodeKind → Bool) (stack : List Nat) : Guarded (List Nat) :=
  a.walkWithin enter a.slots.length stack

def nodes : Guarded (List Nat) := a.walk (fun _ => true) [root]

end Arena

def SchemaFile.arena (file : SchemaFile) : Arena where
  origin := file.origin
  source := file.source
  slots := file.sites.map fun s =>
    ⟨s.kind, s.node.span, s.node.incomplete, s.parent?.map Node.id, s.node.children.map Node.id⟩
  faults := file.faults.map fun (n, fault) => (n.id, fault)

namespace SchemaFile

variable {file : SchemaFile} {n : Node} {s : Site}

/-! ## Reading the slots of a file -/

theorem child_mem_nodes {c : Node} (hn : n ∈ file.nodes) (hc : c ∈ n.children) : c ∈ file.nodes :=
  List.mem_cons_of_mem _ (file.mem_of_mem_children hn hc)

theorem slot_arena (hs : s ∈ file.sites) : file.arena.slot s.id = pure
    ⟨s.kind, s.node.span, s.node.incomplete, s.parent?.map Node.id,
      s.node.children.map Node.id⟩ := by
  obtain ⟨i, hi⟩ := List.mem_iff_getElem?.mp hs
  have hid : (file.sites.map Site.id)[i]? = some s.id := by rw [List.getElem?_map, hi]; rfl
  have hnumbers : file.sites.map Site.id = List.range file.nodeCount := by
    rw [← file.map_id_nodes, ← file.map_node_sites, List.map_map]
    rfl
  rw [hnumbers] at hid
  obtain ⟨hlt, hget⟩ := List.getElem?_eq_some_iff.mp hid
  obtain rfl : i = s.id := (List.getElem_range hlt).symm.trans hget
  rw [Arena.slot, arena, List.getElem?_map, hi]
  rfl

theorem parent_arena (hs : s ∈ file.sites) :
    file.arena.parent? s.id = pure (s.parent?.map Node.id) := by
  rw [Arena.parent?, slot_arena hs]
  rfl

section Nodes

variable (hn : n ∈ file.nodes)
include hn

theorem kind_arena : file.arena.kind n.id = pure n.kind := by
  obtain ⟨s, hs, rfl⟩ := file.exists_site hn
  rw [Arena.kind, show s.node.id = s.id from rfl, slot_arena hs]
  rfl

theorem span_arena : file.arena.span n.id = pure n.span := by
  obtain ⟨s, hs, rfl⟩ := file.exists_site hn
  rw [Arena.span, show s.node.id = s.id from rfl, slot_arena hs]
  rfl

theorem incomplete_arena : file.arena.incomplete n.id = pure n.incomplete := by
  obtain ⟨s, hs, rfl⟩ := file.exists_site hn
  rw [Arena.incomplete, show s.node.id = s.id from rfl, slot_arena hs]
  rfl

theorem children_arena : file.arena.children n.id = pure (n.children.map Node.id) := by
  obtain ⟨s, hs, rfl⟩ := file.exists_site hn
  rw [Arena.children, show s.node.id = s.id from rfl, slot_arena hs]
  rfl

theorem text_arena : file.arena.text n.id = pure (file.text n) := by
  rw [Arena.text, span_arena hn, pure_bind, Arena.slice]
  exact if_pos (file.bounds_of_mem_nodes n hn)

theorem isOfKind_arena (kind : NodeKind) :
    file.arena.isOfKind kind n.id = pure (n.kind == kind) := by
  rw [Arena.isOfKind, kind_arena hn]
  rfl

theorem childrenOfKind_arena (kind : NodeKind) :
    file.arena.childrenOfKind n.id kind = pure ((n.childrenOfKind kind).map Node.id) := by
  rw [Arena.childrenOfKind, children_arena hn, pure_bind]
  exact filterM_map_pure fun c hc => isOfKind_arena (child_mem_nodes hn hc) kind

theorem firstChild_arena (kind : NodeKind) :
    file.arena.firstChild? n.id kind = pure ((n.firstChild? kind).map Node.id) := by
  rw [Arena.firstChild?, children_arena hn, pure_bind]
  exact findM?_map_pure fun c hc => isOfKind_arena (child_mem_nodes hn hc) kind

theorem values_arena : file.arena.values n.id = pure (n.values.map Node.id) := by
  rw [Arena.values, children_arena hn, pure_bind]
  refine filterM_map_pure fun c hc => ?_
  rw [kind_arena (child_mem_nodes hn hc)]
  rfl

theorem text_firstChild_arena (kind : NodeKind) :
    (do file.arena.text? (← file.arena.firstChild? n.id kind)) =
      pure ((n.firstChild? kind).map file.text) := by
  rw [firstChild_arena hn, pure_bind]
  cases hfirst : n.firstChild? kind with
  | none => rfl
  | some c =>
    rw [Option.map_some, Arena.text?,
      text_arena (child_mem_nodes hn (List.mem_of_find?_eq_some hfirst))]
    rfl

end Nodes

/-! ## Walks through the arena of a file -/

theorem length_slots_arena (file : SchemaFile) : file.arena.slots.length = file.nodeCount := by
  rw [arena, List.length_map, ← List.length_map (f := Site.node), file.map_node_sites,
    ← List.length_map (f := Node.id), file.map_id_nodes, List.length_range]

theorem id_lt_nodeCount (hn : n ∈ file.nodes) : n.id < file.nodeCount := by
  have hid := List.mem_map_of_mem (f := Node.id) hn
  rwa [file.map_id_nodes, List.mem_range] at hid

theorem length_above_le (hs : s ∈ file.sites) : s.above.length ≤ s.id := by
  obtain ⟨n, above⟩ := s
  induction above generalizing n with
  | nil => exact Nat.zero_le _
  | cons p above ih =>
    obtain ⟨t, ht, hnode, hchild, hst⟩ := file.exists_child hs (p := p) rfl
    obtain rfl : above = t.above := (List.cons.inj (congrArg Site.above hst)).2
    subst hnode
    have hbelow := ih t.node ht
    have hlt := (file.child_of_mem_children t.node n (file.node_mem_nodes ht) hchild).1
    exact Nat.succ_le_of_lt (hbelow.trans_lt hlt)

theorem ancestorsWithin_arena (hs : s ∈ file.sites) {fuel : Nat} (hfuel : s.above.length < fuel) :
    file.arena.ancestorsWithin fuel s.id = pure (s.ancestors.map Site.id) := by
  obtain ⟨n, above⟩ := s
  induction above generalizing n fuel with
  | nil =>
    obtain ⟨fuel, rfl⟩ := Nat.exists_eq_succ_of_ne_zero (Nat.ne_zero_of_lt hfuel)
    rw [Arena.ancestorsWithin, parent_arena hs]
    rfl
  | cons p above ih =>
    obtain ⟨fuel, rfl⟩ := Nat.exists_eq_succ_of_ne_zero (Nat.ne_zero_of_lt hfuel)
    obtain ⟨t, ht, hnode, -, hst⟩ := file.exists_child hs (p := p) rfl
    obtain rfl : above = t.above := (List.cons.inj (congrArg Site.above hst)).2
    subst hnode
    rw [Arena.ancestorsWithin, parent_arena hs, pure_bind]
    show (t.node.id :: ·) <$> file.arena.ancestorsWithin fuel t.node.id = _
    rw [show t.node.id = Site.id ⟨t.node, t.above⟩ from rfl,
      ih t.node ht (Nat.lt_of_succ_lt_succ hfuel)]
    rfl

theorem ancestors_arena (hs : s ∈ file.sites) :
    file.arena.ancestors s.id = pure (s.ancestors.map Site.id) := by
  refine ancestorsWithin_arena hs ?_
  rw [length_slots_arena]
  exact (length_above_le hs).trans_lt (id_lt_nodeCount (file.node_mem_nodes hs))

theorem walkWithin_cons (hn : n ∈ file.nodes) (enter : NodeKind → Bool) (fuel : Nat)
    (stack : List Nat) : file.arena.walkWithin enter (fuel + 1) (n.id :: stack) =
      (n.id :: ·) <$> file.arena.walkWithin enter fuel
        ((if enter n.kind then n.children.map Node.id else []) ++ stack) := by
  rw [Arena.walkWithin, kind_arena hn, pure_bind]
  cases enter n.kind with
  | true => rw [if_pos rfl, children_arena hn, pure_bind, if_pos rfl]
  | false => rw [if_neg Bool.false_ne_true, pure_bind, if_neg Bool.false_ne_true]

end SchemaFile

namespace Forest

def visited (enter : NodeKind → Bool) : Forest Mark Token → List Node
  | .nil => []
  | .leaf _ next => next.visited enter
  | .node mark inside next =>
    ⟨mark, inside⟩ ::
      ((if enter mark.shape.kind then inside.visited enter else []) ++ next.visited enter)

theorem visited_all (f : Forest Mark Token) : f.visited (fun _ => true) = f.preorder := by
  induction f with
  | nil => rfl
  | leaf t next ih => exact ih
  | node mark inside next ihi ihn => rw [visited, preorder, ihi, ihn]; rfl

theorem visited_subset (enter : NodeKind → Bool) (f : Forest Mark Token) :
    f.visited enter ⊆ f.preorder := by
  induction f with
  | nil => exact List.Subset.refl _
  | leaf t next ih => exact ih
  | node mark inside next ihi ihn =>
    refine List.cons_subset_cons _ (List.append_subset.mpr ⟨?_, ?_⟩)
    · split
      · exact List.subset_append_of_subset_left _ ihi
      · exact List.nil_subset _
    · exact List.subset_append_of_subset_right _ ihn

/-- A walk that has a row on its stack visits what is in the row, and goes on. -/
theorem exists_steps_walk {file : SchemaFile} (enter : NodeKind → Bool) (f : Forest Mark Token)
    (hf : ∀ n ∈ f.preorder, n ∈ file.nodes) :
    ∃ steps ≤ f.nodeCount, ∀ fuel stack,
      file.arena.walkWithin enter (steps + fuel) (f.nodes.map Node.id ++ stack) =
        ((f.visited enter).map Node.id ++ ·) <$> file.arena.walkWithin enter fuel stack := by
  induction f with
  | nil => exact ⟨0, Nat.le_refl _, fun fuel stack => by rw [Nat.zero_add]; exact (id_map _).symm⟩
  | leaf t next ih => exact ih hf
  | node mark inside next ihi ihn =>
    obtain ⟨hself, hin⟩ := List.forall_mem_cons.mp hf
    obtain ⟨hinside, hnext⟩ := List.forall_mem_append.mp hin
    obtain ⟨within, hwithin, hwalk⟩ := ihi hinside
    obtain ⟨behind, hbehind, hwalkNext⟩ := ihn hnext
    have hcount : (node mark inside next).nodeCount = 1 + inside.nodeCount + next.nodeCount := rfl
    cases henter : enter (Node.kind ⟨mark, inside⟩) with
    | true =>
      refine ⟨within + behind + 1, by omega, fun fuel stack => ?_⟩
      rw [show within + behind + 1 + fuel = within + (behind + fuel) + 1 by omega, nodes,
        List.map_cons, List.cons_append, SchemaFile.walkWithin_cons hself, henter, if_pos rfl,
        Node.children, hwalk, hwalkNext, Functor.map_map, Functor.map_map]
      refine congrArg (· <$> _) (funext fun ids => ?_)
      rw [visited, show enter mark.shape.kind = true from henter, if_pos rfl, List.map_cons,
        List.map_append, List.cons_append, List.append_assoc]
    | false =>
      refine ⟨behind + 1, by omega, fun fuel stack => ?_⟩
      rw [show behind + 1 + fuel = behind + fuel + 1 by omega, nodes, List.map_cons,
        List.cons_append, SchemaFile.walkWithin_cons hself, henter, if_neg Bool.false_ne_true,
        List.nil_append, hwalkNext, Functor.map_map]
      refine congrArg (· <$> _) (funext fun ids => ?_)
      rw [visited, show enter mark.shape.kind = false from henter, if_neg Bool.false_ne_true,
        List.nil_append, List.map_cons, List.cons_append]

end Forest

namespace SchemaFile

variable {file : SchemaFile} {n : Node}

theorem nodeCount_inside_le (hn : n ∈ file.nodes) : n.inside.nodeCount ≤ file.nodeCount := by
  obtain ⟨before, row, after, -, hrow, -, -⟩ := file.exists_located n hn
  have hids := Forest.map_id_preorder_locate row (totalSize before) (n.id + 1)
  rw [← hrow] at hids
  have hlength := congrArg List.length hids
  rw [List.length_map, List.length_range', ← Forest.nodeCount_locate row (totalSize before),
    ← hrow] at hlength
  have hnodes := congrArg List.length file.map_id_nodes
  rw [List.length_map, List.length_range] at hnodes
  rw [← hlength, ← hnodes]
  exact ((file.nodup_inside hn).subperm fun m hm => file.mem_nodes_of_mem_inside hn hm).length_le

/-- The walk below a node ends, for no node of the tree is visited twice. -/
theorem walk_children_arena (enter : NodeKind → Bool) (hn : n ∈ file.nodes) :
    file.arena.walk enter (n.children.map Node.id) =
      pure ((n.inside.visited enter).map Node.id) := by
  obtain ⟨steps, hsteps, hwalk⟩ := Forest.exists_steps_walk enter n.inside
    fun m hm => file.mem_nodes_of_mem_inside hn hm
  have hcount : n.inside.nodeCount ≤ file.arena.slots.length := by
    rw [length_slots_arena]
    exact nodeCount_inside_le hn
  obtain ⟨fuel, hfuel⟩ := Nat.exists_eq_add_of_le (hsteps.trans hcount)
  have hwalk := hwalk fuel []
  rw [List.append_nil, ← hfuel] at hwalk
  rw [Arena.walk, Node.children, hwalk]
  cases fuel <;> simp [Arena.walkWithin]

theorem nodes_arena (file : SchemaFile) :
    file.arena.nodes = pure (file.nodes.map Node.id) := by
  obtain ⟨steps, hsteps, hwalk⟩ := Forest.exists_steps_walk (fun _ => true) file.root.inside
    fun m hm => List.mem_cons_of_mem _ hm
  have hcount : file.arena.slots.length = file.root.inside.nodeCount + 1 := by
    rw [length_slots_arena, nodeCount, Nat.add_comm]
  obtain ⟨fuel, hfuel⟩ := Nat.exists_eq_add_of_le hsteps
  have hwalk := hwalk fuel []
  have hroot : Arena.root = file.root.id := by
    rw [file.root_eq]
    rfl
  rw [← hfuel, Forest.visited_all] at hwalk
  rw [Arena.nodes, Arena.walk, hcount, hroot, walkWithin_cons List.mem_cons_self, if_pos rfl,
    Node.children, hwalk]
  cases fuel <;> simp [Arena.walkWithin, nodes, Node.descendants]

end SchemaFile

end SchemaLang
