import Mathlib.Data.List.Range
import SchemaLang.Proofs.Lossless

/-!
# Numbers and ranges of the nodes of a file

A walk through a tree meets the nodes in the order of their numbers, none is
left out and none is met twice. The range of a node lies in the range of the
node around it, and the ranges of neighbours do not overlap. All of them are
cut at character boundaries, and the range of a construct is that of its
significant tokens.
-/

set_option autoImplicit false

namespace SchemaLang

namespace Forest

theorem map_id_preorder_locate (row : Row) (offset id : Nat) :
    (locate row offset id).row.preorder.map Node.id = List.range' id row.nodeCount := by
  induction row generalizing offset id with
  | nil => rfl
  | leaf t next ih => exact ih _ _
  | node shape inside next ihi ihn =>
    have hcount : (node shape inside next).nodeCount =
        (inside.nodeCount + next.nodeCount) + 1 := by
      rw [nodeCount]
      omega
    rw [hcount, List.range'_succ, ← List.range'_append_1]
    simp only [locate, preorder, List.map_cons, List.map_append, ihi, ihn, nextId_locate]
    rfl

theorem nodeCount_locate (row : Row) (offset id : Nat) :
    (locate row offset id).row.nodeCount = row.nodeCount := by
  induction row generalizing offset id with
  | nil => rfl
  | leaf t next ih => exact ih _ _
  | node shape inside next ihi ihn => simp only [locate, nodeCount, ihi, ihn]

theorem nodes_sublist_preorder (f : Forest Mark Token) : f.nodes.Sublist f.preorder := by
  induction f with
  | nil => exact .slnil
  | leaf t next ih => exact ih
  | node mark inside next _ ihn =>
    exact (ihn.trans (List.sublist_append_right _ _)).cons_cons _

/-- A node below a row stands in the row itself or is a child of a node there. -/
theorem parent_of_mem_sites {f : Forest Mark Token} {above : List Node} {s : Site}
    (h : s ∈ f.sites above) :
    (s.above = above ∧ s.node ∈ f.nodes) ∨
      ∃ p ∈ f.preorder, s.parent? = some p ∧ s.node ∈ p.children := by
  induction f generalizing above with
  | nil => simp [sites] at h
  | leaf t next ih => exact ih h
  | node mark inside next ihi ihn =>
    rcases List.mem_cons.mp h with rfl | hrest
    · exact .inl ⟨rfl, List.mem_cons_self⟩
    rcases List.mem_append.mp hrest with hin | hnext
    · right
      rcases ihi hin with ⟨habove, hnode⟩ | ⟨p, hp, hparent, hchild⟩
      · exact ⟨⟨mark, inside⟩, List.mem_cons_self, by rw [Site.parent?, habove]; rfl, hnode⟩
      · exact ⟨p, List.mem_cons_of_mem _ (List.mem_append_left _ hp), hparent, hchild⟩
    · rcases ihn hnext with ⟨habove, hnode⟩ | ⟨p, hp, hparent, hchild⟩
      · exact .inl ⟨habove, List.mem_cons_of_mem _ hnode⟩
      · exact .inr ⟨p, List.mem_cons_of_mem _ (List.mem_append_right _ hp), hparent, hchild⟩

/-- The nodes of a row lie behind its leading trivia and before its end. -/
theorem span_of_mem_nodes_locate {row : Row} {offset id : Nat} {n : Node}
    (h : n ∈ (locate row offset id).row.nodes) :
    offset + leadingSize row ≤ n.span.start ∧
      n.span.stop ≤ offset + totalSize row.leaves := by
  induction row generalizing offset id with
  | nil => simp [locate, nodes] at h
  | leaf t next ih =>
    obtain ⟨hstart, hstop⟩ := ih h
    rw [leaves, totalSize, leadingSize]
    refine ⟨?_, by omega⟩
    split <;> omega
  | node shape inside next _ ihn =>
    have hheld := (leaves_locate inside offset (id + 1)).2
    rw [leaves, totalSize_append, leadingSize]
    rcases List.mem_cons.mp h with rfl | hnext
    · simp only [Node.span, hheld]
      omega
    · obtain ⟨hstart, hstop⟩ := ihn hnext
      omega
    all_goals simp

theorem pairwise_nodes_locate (row : Row) (offset id : Nat) :
    (locate row offset id).row.nodes.Pairwise (fun c d => c.span.stop ≤ d.span.start) := by
  induction row generalizing offset id with
  | nil => exact .nil
  | leaf t next ih => exact ih _ _
  | node shape inside next _ ihn =>
    refine .cons (fun d hd => ?_) (ihn _ _)
    have hstart := (span_of_mem_nodes_locate hd).1
    exact (Nat.le_add_right _ _).trans hstart

end Forest

/-- The first significant token of a row that begins with one starts where the row does. -/
theorem head_significant_tokensFrom {start : Nat} {ls : List Lexeme} {l : Lexeme}
    (h : ls.head? = some l) (hl : l.isTrivia = false) :
    ((tokensFrom start ls).filter (fun t => !t.isTrivia)).head? =
      some ⟨l.kind, l.text, start⟩ := by
  obtain ⟨ms, rfl⟩ := List.head?_eq_some_iff.mp h
  have ht : Token.isTrivia ⟨l.kind, l.text, start⟩ = false := hl
  simp [tokensFrom, ht]

theorem getLast_significant_tokensFrom (start : Nat) {ls : List Lexeme} {l : Lexeme}
    (h : ls.getLast? = some l) (hl : l.isTrivia = false) :
    ∃ t, ((tokensFrom start ls).filter (fun t => !t.isTrivia)).getLast? = some t ∧
      t.stop = start + totalSize ls := by
  obtain ⟨ms, rfl⟩ := List.getLast?_eq_some_iff.mp h
  have ht : Token.isTrivia ⟨l.kind, l.text, start + totalSize ms⟩ = false := hl
  refine ⟨⟨l.kind, l.text, start + totalSize ms⟩, ?_, ?_⟩
  · simp [tokensFrom_append, tokensFrom, ht]
  · simp [Token.stop, totalSize_append, totalSize, Lexeme.size, Nat.add_assoc]

namespace SchemaFile

variable (file : SchemaFile)

theorem map_id_nodes : file.nodes.map Node.id = List.range file.nodeCount := by
  have hroot : file.root.id = 0 := by
    rw [file.root_eq]
    rfl
  rw [nodeCount, nodes, Node.descendants, List.map_cons, hroot, inside_root,
    Forest.map_id_preorder_locate, Forest.nodeCount_locate, List.range_eq_range', Nat.add_comm 1,
    List.range'_succ]

theorem nodup_ids : (file.nodes.map Node.id).Nodup := by
  rw [file.map_id_nodes]
  exact List.nodup_range

theorem eq_of_id_eq {m n : Node} (hm : m ∈ file.nodes) (hn : n ∈ file.nodes) (h : m.id = n.id) :
    m = n :=
  List.inj_on_of_nodup_map file.nodup_ids hm hn h

/-- What a node holds is a located row that covers a stretch of the text. -/
theorem exists_located (p : Node) (hp : p ∈ file.nodes) :
    ∃ before row after, lexemes file.source = before ++ row.leaves ++ after ∧
      p.inside = (locate row (totalSize before) (p.id + 1)).row ∧
      p.span.start ≤ totalSize before + leadingSize row ∧
      p.span.stop = totalSize before + totalSize row.leaves := by
  rcases List.mem_cons.mp hp with rfl | hin
  · refine ⟨[], placedRow file.source, [], by simp [leaves_placedRow], ?_, ?_, ?_⟩
    · rw [inside_root, file.root_eq]
      rfl
    · rw [span_root]
      exact Nat.zero_le _
    · rw [span_root, leaves_placedRow, totalSize_lexemes]
      exact (Nat.zero_add _).symm
  · obtain ⟨before, row, after, hat, hrow, hspan⟩ := file.exists_placed p hin
    exact ⟨before, row, after, by rw [← leaves_placedRow, hat.leaves_eq], hrow, by rw [hspan],
      by rw [hspan]⟩

theorem nodup_inside {n : Node} (hn : n ∈ file.nodes) : n.inside.preorder.Nodup := by
  obtain ⟨before, row, after, -, hrow, -, -⟩ := file.exists_located n hn
  refine .of_map Node.id ?_
  rw [hrow, Forest.map_id_preorder_locate]
  exact List.nodup_range'

theorem exists_parent_of_mem_sites {s : Site} (hs : s ∈ file.root.inside.sites [file.root]) :
    ∃ p ∈ file.nodes, s.parent? = some p ∧ s.node ∈ p.children := by
  rcases Forest.parent_of_mem_sites hs with ⟨habove, hnode⟩ | ⟨p, hp, hparent, hchild⟩
  · exact ⟨file.root, List.mem_cons_self, by rw [Site.parent?, habove]; rfl, hnode⟩
  · exact ⟨p, List.mem_cons_of_mem _ hp, hparent, hchild⟩

theorem exists_parent (s : Site) (hs : s ∈ file.sites) (hroot : s.id ≠ 0) :
    ∃ p ∈ file.nodes, s.parent? = some p ∧ s.node ∈ p.children := by
  rcases List.mem_cons.mp hs with rfl | hin
  · rw [Site.id, rootSite, file.root_eq] at hroot
    exact absurd rfl hroot
  · exact file.exists_parent_of_mem_sites hin

theorem child_of_mem_children (p c : Node) (hp : p ∈ file.nodes) (hc : c ∈ p.children) :
    p.id < c.id ∧ (p.children.map Node.id).count c.id = 1 ∧
      p.span.start ≤ c.span.start ∧ c.span.stop ≤ p.span.stop := by
  obtain ⟨before, row, after, -, hrow, hstart, hstop⟩ := file.exists_located p hp
  have hids := Forest.map_id_preorder_locate row (totalSize before) (p.id + 1)
  have hsub := (Forest.nodes_sublist_preorder p.inside).map Node.id
  rw [← hrow] at hids
  rw [hids] at hsub
  have hmem : c.id ∈ p.children.map Node.id := List.mem_map_of_mem hc
  rw [Node.children, hrow] at hc
  have hspan := Forest.span_of_mem_nodes_locate hc
  refine ⟨?_, List.count_eq_one_of_mem (hsub.nodup List.nodup_range') hmem, ?_, ?_⟩
  · have := (List.mem_range'_1.mp (hsub.subset hmem)).1
    omega
  · exact hstart.trans hspan.1
  · rw [hstop]
    exact hspan.2

theorem ordered_children (p : Node) (hp : p ∈ file.nodes) :
    p.children.Pairwise (fun c d => c.span.stop ≤ d.span.start) := by
  obtain ⟨before, row, after, -, hrow, -, -⟩ := file.exists_located p hp
  rw [Node.children, hrow]
  exact Forest.pairwise_nodes_locate _ _ _

theorem bounds_of_mem_nodes (n : Node) (hn : n ∈ file.nodes) :
    n.span.start ≤ n.span.stop ∧ String.Pos.Raw.IsValid file.source ⟨n.span.start⟩ ∧
      String.Pos.Raw.IsValid file.source ⟨n.span.stop⟩ := by
  rcases List.mem_cons.mp hn with rfl | hin
  · rw [span_root, ← totalSize_lexemes]
    exact ⟨Nat.zero_le _, isValid_totalSize file.source [] _ rfl,
      isValid_totalSize file.source _ [] (List.append_nil _).symm⟩
  obtain ⟨before, inside, after, hat, -, hspan⟩ := file.exists_placed n hin
  obtain ⟨lead, others, hl, -, hsize⟩ := exists_leading inside
  have hall : lexemes file.source = before ++ inside.leaves ++ after := by
    rw [← leaves_placedRow, hat.leaves_eq]
  rw [hspan, ← hsize, ← totalSize_append, ← totalSize_append]
  refine ⟨?_, isValid_totalSize _ (before ++ lead) (others ++ after) ?_,
    isValid_totalSize _ _ after hall⟩
  · rw [hl, ← List.append_assoc, totalSize_append (before ++ lead)]
    exact Nat.le_add_right _ _
  · rw [hall, hl]
    simp only [List.append_assoc]

/-- The range of a construct is that of its significant tokens. -/
theorem range_of_construct (n : Node) (hn : n ∈ file.nodes) (hroot : n.id ≠ 0)
    (hkind : n.kind ≠ .error) :
    n.span.start < n.span.stop ∧
      ∃ first last, (n.inside.leaves.filter (fun t => !t.isTrivia)).head? = some first ∧
        (n.inside.leaves.filter (fun t => !t.isTrivia)).getLast? = some last ∧
        n.span = ⟨first.start, last.stop⟩ := by
  rcases List.mem_cons.mp hn with rfl | hin
  · rw [file.root_eq] at hroot
    exact absurd rfl hroot
  obtain ⟨before, inside, after, hat, hrow, hspan⟩ := file.exists_placed n hin
  have hsnug := (snug_placedRow file.source).at hat
  cases hshape : n.mark.shape with
  | skipped fault => exact absurd (by rw [Node.kind, hshape]; rfl) hkind
  | construct kind complete =>
    rw [hshape] at hsnug
    obtain ⟨⟨l, hl, hlsig⟩, m, hm, hmsig⟩ := hsnug
    obtain ⟨last, hlast, hstop⟩ := getLast_significant_tokensFrom (totalSize before) hm hmsig
    have hpos : 0 < totalSize inside.leaves := by
      obtain ⟨ls, hls⟩ := List.head?_eq_some_iff.mp hl
      have hmem : l ∈ lexemes file.source := by
        rw [← leaves_placedRow, hat.leaves_eq, hls]
        simp
      have hsize := size_pos_of_mem_scan file.source.toList l hmem
      rw [hls, totalSize]
      omega
    rw [hspan, hrow, (leaves_locate _ _ _).1, leadingSize_eq_zero hl hlsig]
    exact ⟨Nat.lt_add_of_pos_right hpos, _, last, head_significant_tokensFrom hl hlsig, hlast,
      by rw [hstop]; rfl⟩

/-- Nodes are numbered in the order of a walk, lie in one another as they
should, and cover whole characters. -/
theorem tree_is_well_formed :
    (file.root.id = 0 ∧ file.root.kind = .schemaFile ∧
      file.root.span = ⟨0, file.source.utf8ByteSize⟩) ∧
    file.nodes.map Node.id = List.range file.nodeCount ∧
    (∀ s ∈ file.sites, s.id ≠ 0 → ∃ p ∈ file.nodes, s.parent? = some p ∧ p.id < s.id ∧
      s.node ∈ p.children ∧ (p.children.map Node.id).count s.id = 1 ∧
      p.span.start ≤ s.node.span.start ∧ s.node.span.stop ≤ p.span.stop) ∧
    (∀ p ∈ file.nodes, p.children.Pairwise (fun c d => c.span.stop ≤ d.span.start)) ∧
    (∀ n ∈ file.nodes, n.span.start ≤ n.span.stop ∧
      String.Pos.Raw.IsValid file.source ⟨n.span.start⟩ ∧
      String.Pos.Raw.IsValid file.source ⟨n.span.stop⟩) ∧
    (∀ n ∈ file.nodes, n.id ≠ 0 → n.kind ≠ .error → n.span.start < n.span.stop ∧
      ∃ first last, (n.inside.leaves.filter (fun t => !t.isTrivia)).head? = some first ∧
        (n.inside.leaves.filter (fun t => !t.isTrivia)).getLast? = some last ∧
        n.span = ⟨first.start, last.stop⟩) := by
  refine ⟨⟨?_, ?_, file.span_root⟩, file.map_id_nodes, fun s hs hroot => ?_,
    file.ordered_children, file.bounds_of_mem_nodes, file.range_of_construct⟩
  · rw [file.root_eq]
    rfl
  · rw [file.root_eq]
    rfl
  · obtain ⟨p, hp, hparent, hchild⟩ := file.exists_parent s hs hroot
    obtain ⟨hid, hcount, hstart, hstop⟩ := file.child_of_mem_children p s.node hp hchild
    exact ⟨p, hp, hparent, hid, hchild, hcount, hstart, hstop⟩

end SchemaFile

end SchemaLang
