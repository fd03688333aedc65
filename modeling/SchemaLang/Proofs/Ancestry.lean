import SchemaLang.Proofs.Lookup
import SchemaLang.Proofs.Numbering

/-!
# Nodes inside one another

The nodes inside a node have the numbers that follow its own, without a gap. So
of two nodes that have a node in common one is inside the other, a node is a
child of one node only, and stands at one site. Two nodes without children that
cover the same stretch of the text are the same.
-/

set_option autoImplicit false

namespace SchemaLang

namespace Forest

/-- Below a row, every site but those of the row itself stands below another one. -/
theorem parent_site_of_mem_sites {f : Forest Mark Token} {above : List Node} {s : Site}
    (hs : s ∈ f.sites above) : (s.above = above ∧ s.node ∈ f.nodes) ∨
      ∃ t ∈ f.sites above, s.above = t.node :: t.above ∧ s.node ∈ t.node.children := by
  induction f generalizing above with
  | nil => simp [sites] at hs
  | leaf t next ih => exact ih hs
  | node mark inside next ihi ihn =>
    rcases List.mem_cons.mp hs with rfl | hs
    · exact .inl ⟨rfl, List.mem_cons_self⟩
    rcases List.mem_append.mp hs with hin | hnext
    · right
      rcases ihi hin with ⟨habove, hnode⟩ | ⟨t, ht, habove, hchild⟩
      · exact ⟨⟨⟨mark, inside⟩, above⟩, List.mem_cons_self, habove, hnode⟩
      · exact ⟨t, List.mem_cons_of_mem _ (List.mem_append_left _ ht), habove, hchild⟩
    · rcases ihn hnext with ⟨habove, hnode⟩ | ⟨t, ht, habove, hchild⟩
      · exact .inl ⟨habove, List.mem_cons_of_mem _ hnode⟩
      · exact .inr ⟨t, List.mem_cons_of_mem _ (List.mem_append_right _ ht), habove, hchild⟩

/-- Every node of a row stands in the row itself or is a child of a node there. -/
theorem parent_of_mem_preorder {f : Forest Mark Token} {m : Node} (hm : m ∈ f.preorder) :
    m ∈ f.nodes ∨ ∃ p ∈ f.preorder, m ∈ p.children := by
  rw [← f.map_node_sites []] at hm
  obtain ⟨s, hs, rfl⟩ := List.mem_map.mp hm
  rcases parent_of_mem_sites hs with ⟨-, hnode⟩ | ⟨p, hp, -, hchild⟩
  · exact .inl hnode
  · exact .inr ⟨p, hp, hchild⟩

theorem mem_sites_of_mem_nodes {f : Forest Mark Token} (above : List Node) {n : Node}
    (hn : n ∈ f.nodes) : ⟨n, above⟩ ∈ f.sites above := by
  induction f with
  | nil => cases hn
  | leaf t next ih => exact ih hn
  | node mark inside next _ ih =>
    rcases List.mem_cons.mp hn with rfl | hn
    · exact List.mem_cons_self
    · exact List.mem_cons_of_mem _ (List.mem_append_right _ (ih hn))

/-- The children of a site of a row are sites of the row. -/
theorem child_mem_sites {f : Forest Mark Token} {above : List Node} {s : Site}
    (hs : s ∈ f.sites above) {c : Node} (hc : c ∈ s.node.children) : s.child c ∈ f.sites above := by
  induction f generalizing above with
  | nil => simp [sites] at hs
  | leaf t next ih => exact ih hs
  | node mark inside next ihi ihn =>
    rcases List.mem_cons.mp hs with rfl | hs
    · exact List.mem_cons_of_mem _ (List.mem_append_left _ (mem_sites_of_mem_nodes _ hc))
    rcases List.mem_append.mp hs with hin | hnext
    · exact List.mem_cons_of_mem _ (List.mem_append_left _ (ihi hin))
    · exact List.mem_cons_of_mem _ (List.mem_append_right _ (ihn hnext))

/-- The nodes of a row, at any depth, lie between its ends. -/
theorem span_of_mem_preorder_locate {row : Row} {offset id : Nat} {n : Node}
    (h : n ∈ (locate row offset id).row.preorder) :
    offset ≤ n.span.start ∧ n.span.stop ≤ offset + totalSize row.leaves := by
  induction row generalizing offset id with
  | nil => simp [locate, preorder] at h
  | leaf t next ih =>
    obtain ⟨hstart, hstop⟩ := ih h
    rw [leaves, totalSize]
    omega
  | node shape inside next ihi ihn =>
    have hheld := (leaves_locate inside offset (id + 1)).2
    rw [leaves, totalSize_append]
    rcases List.mem_cons.mp h with rfl | h
    · simp only [Node.span, hheld]
      omega
    rcases List.mem_append.mp h with h | h
    · obtain ⟨hstart, hstop⟩ := ihi h
      omega
    · obtain ⟨hstart, hstop⟩ := ihn h
      omega

/-- Of two nodes one holds the other, or ends before the other begins. -/
theorem pairwise_preorder_locate (row : Row) (offset id : Nat) :
    (locate row offset id).row.preorder.Pairwise
      (fun m n => n ∈ m.inside.preorder ∨ m.span.stop ≤ n.span.start) := by
  induction row generalizing offset id with
  | nil => exact .nil
  | leaf t next ih => exact ih _ _
  | node shape inside next ihi ihn =>
    have hheld := (leaves_locate inside offset (id + 1)).2
    refine .cons (fun n hn => ?_) (List.pairwise_append.mpr ⟨ihi _ _, ihn _ _, fun m hm n hn => ?_⟩)
    · exact (List.mem_append.mp hn).imp_right fun hn => (span_of_mem_preorder_locate hn).1
    · right
      have hm := (span_of_mem_preorder_locate hm).2
      have hn := (span_of_mem_preorder_locate hn).1
      omega

end Forest

namespace SchemaFile

variable (file : SchemaFile) {m n p q c : Node} {s t : Site}

theorem mem_nodes_of_mem_inside (hn : n ∈ file.nodes) (hm : m ∈ n.inside.preorder) :
    m ∈ file.nodes := by
  rcases List.mem_cons.mp hn with rfl | hn
  · exact List.mem_cons_of_mem _ hm
  · exact List.mem_cons_of_mem _ (Forest.subset_preorder hn m hm)

/-- The nodes inside a node have the numbers that follow its own. -/
theorem mem_inside_iff (hn : n ∈ file.nodes) (hm : m ∈ file.nodes) :
    m ∈ n.inside.preorder ↔ n.id < m.id ∧ m.id ≤ n.id + n.inside.preorder.length := by
  obtain ⟨before, row, after, -, hrow, -, -⟩ := file.exists_located n hn
  have hids := Forest.map_id_preorder_locate row (totalSize before) (n.id + 1)
  rw [← hrow] at hids
  have hlength := congrArg List.length hids
  rw [List.length_map, List.length_range'] at hlength
  have hmem : m.id ∈ n.inside.preorder.map Node.id ↔
      n.id < m.id ∧ m.id ≤ n.id + n.inside.preorder.length := by
    rw [hids, List.mem_range'_1, hlength]
    omega
  rw [← hmem, List.mem_map]
  refine ⟨fun h => ⟨m, h, rfl⟩, fun ⟨k, hk, hid⟩ => ?_⟩
  rwa [← file.eq_of_id_eq (file.mem_nodes_of_mem_inside hn hk) hm hid]

/-- Two nodes that have a node in common are the same, or one is inside the other. -/
theorem nested_of_mem_descendants (hp : p ∈ file.nodes) (hq : q ∈ file.nodes)
    (hmp : m ∈ p.descendants) (hmq : m ∈ q.descendants) :
    p = q ∨ p ∈ q.inside.preorder ∨ q ∈ p.inside.preorder := by
  have hrange {n : Node} (hn : n ∈ file.nodes) (hmn : m ∈ n.descendants) :
      n.id ≤ m.id ∧ m.id ≤ n.id + n.inside.preorder.length := by
    rcases List.mem_cons.mp hmn with rfl | hmn
    · omega
    · have := (file.mem_inside_iff hn (file.mem_nodes_of_mem_inside hn hmn)).mp hmn
      omega
  have hpm := hrange hp hmp
  have hqm := hrange hq hmq
  rcases Nat.lt_trichotomy p.id q.id with hlt | heq | hgt
  · exact .inr (.inr ((file.mem_inside_iff hp hq).mpr ⟨hlt, by omega⟩))
  · exact .inl (file.eq_of_id_eq hp hq heq)
  · exact .inr (.inl ((file.mem_inside_iff hq hp).mpr ⟨hgt, by omega⟩))

theorem id_ne_zero (hn : n ∈ file.root.inside.preorder) : n.id ≠ 0 := fun hid => by
  have := (file.mem_inside_iff List.mem_cons_self (List.mem_cons_of_mem _ hn)).mp hn
  omega

theorem not_mem_inside_self (hn : n ∈ file.nodes) : n ∉ n.inside.preorder := fun h => by
  have := (file.mem_inside_iff hn hn).mp h
  omega

/-! ## Sites -/

theorem node_mem_nodes (hs : s ∈ file.sites) : s.node ∈ file.nodes := (has_of_mem_sites hs).1

theorem exists_site (hn : n ∈ file.nodes) : ∃ s ∈ file.sites, s.node = n := by
  rw [← file.map_node_sites] at hn
  exact List.mem_map.mp hn

theorem nodup_sites : file.sites.Nodup := by
  have hids := file.nodup_ids
  rw [← file.map_node_sites, List.map_map] at hids
  exact List.Nodup.of_map _ hids

theorem site_eq_of_node_eq (hs : s ∈ file.sites) (ht : t ∈ file.sites) (h : s.node = t.node) :
    s = t := by
  have hids := file.nodup_ids
  rw [← file.map_node_sites] at hids
  exact List.inj_on_of_nodup_map (List.Nodup.of_map _ hids) hs ht h

theorem child_mem_sites (hs : s ∈ file.sites) (hc : c ∈ s.node.children) :
    s.child c ∈ file.sites := by
  rcases List.mem_cons.mp hs with rfl | hs
  · exact List.mem_cons_of_mem _ (Forest.mem_sites_of_mem_nodes _ hc)
  · exact List.mem_cons_of_mem _ (Forest.child_mem_sites hs hc)

theorem exists_child (hs : s ∈ file.sites) {p : Node} (hp : s.parent? = some p) :
    ∃ t ∈ file.sites, t.node = p ∧ s.node ∈ p.children ∧ s = t.child s.node := by
  rcases List.mem_cons.mp hs with rfl | hs
  · cases hp
  rcases Forest.parent_site_of_mem_sites hs with ⟨habove, hnode⟩ | ⟨t, ht, habove, hchild⟩
  · obtain rfl : file.root = p := Option.some.inj (by rw [← hp, Site.parent?, habove]; rfl)
    refine ⟨file.rootSite, List.mem_cons_self, rfl, hnode, ?_⟩
    rw [Site.child, rootSite, ← habove]
  · obtain rfl : t.node = p := Option.some.inj (by rw [← hp, Site.parent?, habove]; rfl)
    refine ⟨t, List.mem_cons_of_mem _ ht, rfl, hchild, ?_⟩
    rw [Site.child, ← habove]

theorem parent_unique (hs : s ∈ file.sites) (ht : t ∈ file.sites) (hcs : c ∈ s.node.children)
    (hct : c ∈ t.node.children) : s = t := by
  have h := file.site_eq_of_node_eq (file.child_mem_sites hs hcs) (file.child_mem_sites ht hct) rfl
  refine file.site_eq_of_node_eq hs ht ?_
  have habove := congrArg (fun r : Site => r.above.head?) h
  exact Option.some.inj habove

/-- A child that stands inside a node has its parent there, or is a child of the node. -/
theorem parent_mem_descendants (hs : s ∈ file.sites) (hc : c ∈ s.node.children)
    (hn : n ∈ file.nodes) (hin : c ∈ n.inside.preorder) : s.node ∈ n.descendants := by
  have hsame {p : Node} (hp : p ∈ file.nodes) (hcp : c ∈ p.children) : s.node = p := by
    obtain ⟨t, ht, rfl⟩ := file.exists_site hp
    rw [file.parent_unique hs ht hc hcp]
  rcases Forest.parent_of_mem_preorder hin with hnode | ⟨p, hp, hcp⟩
  · rw [hsame hn hnode]
    exact List.mem_cons_self
  · rw [hsame (file.mem_nodes_of_mem_inside hn hp) hcp]
    exact List.mem_cons_of_mem _ hp

/-! ## Nodes without children -/

theorem inside_eq_nil (h : n.children = []) : n.inside.preorder = [] := by
  have hnil {f : Forest Mark Token} (hf : f.nodes = []) : f.preorder = [] := by
    induction f with
    | nil => rfl
    | leaf t next ih => exact ih hf
    | node mark inside next => cases hf
  exact hnil h

/-- Constructs without children that cover the same stretch of the text are the same. -/
theorem eq_of_span_eq (hm : m ∈ file.root.inside.preorder) (hn : n ∈ file.root.inside.preorder)
    (hkind : m.kind ≠ .error) (hmnil : m.children = []) (hnnil : n.children = [])
    (h : m.span = n.span) : m = n := by
  obtain ⟨row, hrow⟩ : ∃ row : Row, file.root.inside = (locate row 0 1).row :=
    ⟨placedRow file.source, by rw [inside_root]⟩
  have hpairs := Forest.pairwise_preorder_locate row 0 1
  rw [← hrow] at hpairs
  have hpositive {k : Node} (hk : k ∈ file.root.inside.preorder) (hkind : k.kind ≠ .error) :
      k.span.start < k.span.stop :=
    (file.range_of_construct k (List.mem_cons_of_mem _ hk) (file.id_ne_zero hk) hkind).1
  have hmpos := hpositive hm hkind
  by_contra hne
  have hor := List.Pairwise.forall_of_forall_of_flip (R := fun m n : Node =>
    m = n ∨ n ∈ m.inside.preorder ∨ m ∈ n.inside.preorder ∨ m.span.stop ≤ n.span.start ∨
      n.span.stop ≤ m.span.start) (l := file.root.inside.preorder) (fun _ _ => .inl rfl)
    (hpairs.imp fun h => by tauto) (hpairs.imp fun h => by tauto) hm hn
  rw [inside_eq_nil hmnil, inside_eq_nil hnnil] at hor
  rw [h] at hmpos hor
  rcases hor with hor | hor | hor | hor | hor
  · exact hne hor
  · cases hor
  · cases hor
  · omega
  · omega

end SchemaFile

end SchemaLang
