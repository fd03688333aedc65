import Mathlib.Data.List.Nodup
import SchemaLang.Proofs.Attachment
import SchemaLang.Proofs.Tiling

/-!
# The tree of a file loses nothing

Whatever a file holds, its tree has every token as a leaf of one node, in the
order of the text. A construct is spelled by the slice of the text that its
range cuts out. A node of skipped lexemes may have blanks and comments in
front of that slice.
-/

set_option autoImplicit false

namespace SchemaLang

namespace Forest

/-- Every leaf is held by the row itself or by one of its nodes. -/
theorem perm_tokens (f : Forest Mark Token) :
    (f.tokens ++ f.preorder.flatMap (fun n => n.inside.tokens)).Perm f.leaves := by
  induction f with
  | nil => exact .nil
  | leaf t next ih => exact ih.cons t
  | node mark inside next ihi ihn =>
    simp only [tokens, preorder, leaves, List.flatMap_cons, List.flatMap_append]
    apply List.Perm.trans _ (ihi.append ihn)
    rw [← List.append_assoc, ← List.append_assoc, ← List.append_assoc]
    apply List.Perm.append_right
    rw [List.append_assoc, List.append_assoc]
    exact List.perm_append_comm_assoc _ _ _ |>.trans (.append_left _ List.perm_append_comm)

end Forest

def Node.tokens (n : Node) : List Token := n.inside.tokens

def placedRow (source : String) : Row :=
  attachAll (parseRow (significant (lexemes source))) (lexemes source)

theorem leaves_placedRow (source : String) : (placedRow source).leaves = lexemes source :=
  leaves_attachAll _ _ (leaves_parseWith _ _).symm

/-- The parsed row of a text has all its significant lexemes, and none are left behind it. -/
theorem significant_eq_leaves (source : String) : significant (lexemes source) =
    (parseRow (significant (lexemes source))).leaves ++ [] := by
  rw [List.append_nil]
  exact (leaves_parseWith _ _).symm

theorem snug_placedRow (source : String) : (placedRow source).Each Shape.Snug :=
  (Forest.each_append _ _ _).mpr
    ⟨snug_attach _ _ _ (filled_parseWith _ _) (significant_eq_leaves source),
      Forest.each_ofTokens _ _⟩

/-- A node of the placed row came there with the parsed row, in front of all that is left. -/
theorem at_attach_of_placedRow {source : String} {before after : List Lexeme} {shape : Shape}
    {inside : Row} (hat : (placedRow source).At before shape inside after) :
    ∃ after', (attach (parseRow (significant (lexemes source))) (lexemes source)).1.At before shape
        inside after' ∧
      after = after' ++ (attach (parseRow (significant (lexemes source))) (lexemes source)).2 := by
  rw [placedRow, attachAll] at hat
  rcases hat.of_append with ⟨after', hat, hafter⟩ | ⟨_, hat, -⟩
  · rw [Forest.leaves_ofTokens] at hafter
    exact ⟨after', hat, hafter⟩
  · exact absurd hat Forest.not_at_ofTokens

theorem no_leading_of_snug {kind : NodeKind} {complete : Bool} {inside : Row}
    {lead others : List Lexeme} (h : Shape.Snug (.construct kind complete) inside)
    (hl : inside.leaves = lead ++ others) (ht : ∀ l ∈ lead, l.isTrivia = true) : lead = [] := by
  obtain ⟨⟨t, hhead, hsig⟩, -⟩ := h
  cases lead with
  | nil => rfl
  | cons l lead =>
    rw [hl] at hhead
    obtain rfl := Option.some.inj hhead
    simp [ht l (by simp)] at hsig

namespace SchemaFile

variable (file : SchemaFile)

theorem inside_root : file.root.inside = (locate (placedRow file.source) 0 1).row := by
  rw [file.root_eq]
  rfl

theorem leaves_root : file.root.inside.leaves = tokenize file.source := by
  rw [inside_root, (leaves_locate _ _ _).1, leaves_placedRow]
  rfl

theorem nodup_leaves_root : file.root.inside.leaves.Nodup := by
  rw [leaves_root]
  exact nodup_tokenize _

theorem span_root : file.root.span = ⟨0, file.source.utf8ByteSize⟩ := by
  have h : file.root.span = ⟨0, (locate (placedRow file.source) 0 1).stop⟩ := by
    rw [file.root_eq]
    rfl
  rw [h, (leaves_locate _ _ _).2, leaves_placedRow, totalSize_lexemes, Nat.zero_add]

theorem leafText_root : file.root.leafText = file.source := by
  rw [Node.leafText, leaves_root, tokenize, text_tokensFrom, characters_lexemes,
    String.ofList_toList]

theorem exists_placed (n : Node) (h : n ∈ file.root.inside.preorder) :
    ∃ before inside after, (placedRow file.source).At before n.mark.shape inside after ∧
      n.inside = (locate inside (totalSize before) (n.id + 1)).row ∧
      n.span = ⟨totalSize before + leadingSize inside,
        totalSize before + totalSize inside.leaves⟩ := by
  rw [inside_root] at h
  simpa only [Nat.zero_add] using exists_at_of_mem_preorder _ 0 1 _ h

/-- What is skipped in front of the text of a node is blank or comment. -/
theorem exists_leading_of_mem_preorder (n : Node) (h : n ∈ file.root.inside.preorder) :
    ∃ lead others : List Token, n.inside.leaves = lead ++ others ∧
      (∀ t ∈ lead, t.isTrivia = true) ∧ String.join (others.map Token.text) = file.text n ∧
      (n.kind ≠ .error → lead = []) := by
  obtain ⟨before, inside, after, hat, hin, hspan⟩ := file.exists_placed n h
  obtain ⟨lead, others, hl, htrivia, hsize⟩ := exists_leading inside
  have htiles : lexemes file.source = (before ++ lead) ++ others ++ after := by
    rw [← leaves_placedRow, hat.leaves_eq, hl]
    simp only [List.append_assoc]
  have hleaves : n.inside.leaves =
      tokensFrom (totalSize before) lead ++ tokensFrom (totalSize (before ++ lead)) others := by
    rw [hin, (leaves_locate _ _ _).1, hl, tokensFrom_append, totalSize_append]
  refine ⟨_, _, hleaves, fun t ht => ?_, ?_, fun hkind => ?_⟩
  · exact htrivia _ (lexeme_mem_of_mem_tokensFrom ht)
  · rw [text_tokensFrom, ← slice_tiles _ _ _ _ htiles, text, hspan, hl, ← hsize]
    simp only [totalSize_append, Nat.add_assoc]
  · have hsnug := (snug_placedRow file.source).at hat
    rw [Node.kind] at hkind
    cases hshape : n.mark.shape with
    | construct kind complete =>
      rw [hshape] at hsnug
      rw [no_leading_of_snug hsnug hl htrivia]
      rfl
    | skipped fault => exact absurd (by rw [hshape]; rfl) hkind

theorem text_root : file.text file.root = file.source := by
  have h := slice_tiles file.source [] (lexemes file.source) [] (by simp)
  rw [characters_lexemes, String.ofList_toList, totalSize_lexemes] at h
  rw [text, span_root]
  simpa [totalSize] using h

theorem perm_tokenize : (file.nodes.flatMap Node.tokens).Perm (tokenize file.source) := by
  rw [← leaves_root]
  exact Forest.perm_tokens file.root.inside

/-- Of two nodes at different places of the walk, only one can hold a token. -/
theorem existsUnique_owner (t : Token) (ht : t ∈ tokenize file.source) :
    ∃! k : Fin file.nodes.length, t ∈ file.nodes[k].tokens := by
  have hnodup := file.perm_tokenize.nodup_iff.mpr (nodup_tokenize file.source)
  have hdisjoint := List.pairwise_iff_getElem.mp (List.nodup_flatMap.mp hnodup).2
  obtain ⟨n, hn, htn⟩ := List.mem_flatMap.mp (file.perm_tokenize.mem_iff.mpr ht)
  obtain ⟨k, hk, rfl⟩ := List.getElem_of_mem hn
  refine ⟨⟨k, hk⟩, htn, fun ⟨j, hj⟩ htj => ?_⟩
  rcases Nat.lt_trichotomy j k with hlt | rfl | hlt
  · exact absurd htn (hdisjoint j k hj hk hlt htj)
  · rfl
  · exact absurd htj (hdisjoint k j hk hj hlt htn)

/-- Every token is a leaf of exactly one node, the leaves are the tokens in
order, and they spell the text. A construct's range cuts out what its leaves
spell; in front of skipped lexemes there may be blanks and comments. -/
theorem tree_is_lossless :
    (∀ i : Fin (tokenize file.source).length, ∃! k : Fin file.nodes.length,
      (tokenize file.source)[i] ∈ file.nodes[k].tokens) ∧
    (tokenize file.source).Nodup ∧ (∀ n ∈ file.nodes, n.tokens.Nodup) ∧
    file.root.inside.leaves = tokenize file.source ∧
    file.root.leafText = file.source ∧
    (∀ n ∈ file.nodes, n.kind ≠ .error → file.text n = n.leafText) ∧
    (∀ n ∈ file.nodes, n.kind = .error → ∃ lead others : List Token,
      n.inside.leaves = lead ++ others ∧ (∀ t ∈ lead, t.isTrivia = true) ∧
      n.leafText = String.join (lead.map Token.text) ++ file.text n) := by
  have hnodup := file.perm_tokenize.nodup_iff.mpr (nodup_tokenize file.source)
  refine ⟨fun i => file.existsUnique_owner _ (List.getElem_mem i.isLt), nodup_tokenize _,
    (List.nodup_flatMap.mp hnodup).1, file.leaves_root, file.leafText_root,
    fun n hn hkind => ?_, fun n hn hkind => ?_⟩
  · rcases List.mem_cons.mp hn with rfl | hin
    · rw [text_root, leafText_root]
    · obtain ⟨lead, others, hl, -, htext, hlead⟩ := file.exists_leading_of_mem_preorder n hin
      rw [hlead hkind, List.nil_append] at hl
      rw [← htext, Node.leafText, hl]
  · rcases List.mem_cons.mp hn with rfl | hin
    · rw [file.root_eq] at hkind
      simp [parseTree, Node.kind, Shape.kind] at hkind
    · obtain ⟨lead, others, hl, htrivia, htext, -⟩ := file.exists_leading_of_mem_preorder n hin
      refine ⟨lead, others, hl, htrivia, ?_⟩
      rw [← htext, Node.leafText, hl, List.map_append, String.join_append]

end SchemaFile

end SchemaLang
