import SchemaLang.Proofs.Layout

/-!
# What comes later does not change what was read

Two files whose significant tokens begin alike have the same nodes there, up
to two tokens before the place where they part. A node is told by its kind,
whether it is whole, the message of its fault, and which significant tokens
of the file it begins and ends with.
-/

set_option autoImplicit false

namespace SchemaLang

structure Landmark where
  kind : NodeKind
  incomplete : Bool
  message? : Option String
  first : Nat
  last : Nat
  deriving DecidableEq

def Shape.landmark? (all : List Token) (shape : Shape) (tokens : List Token) : Option Landmark :=
  match tokens.head?, tokens.getLast? with
  | some t, some u =>
    some ⟨shape.kind, !shape.complete, shape.fault?.map Fault.message, all.idxOf t, all.idxOf u⟩
  | _, _ => none

def Stretch.landmark? (s : Stretch Shape) : Option Landmark :=
  if s.first < s.stop then
    some ⟨s.label.kind, !s.label.complete, s.label.fault?.map Fault.message, s.first, s.stop - 1⟩
  else none

namespace SchemaFile

def significantTokens (file : SchemaFile) : List Token :=
  (tokenize file.source).filter (fun t => !t.isTrivia)

/-- The landmarks of the nodes, each before those inside it, whose last token
has at least two others behind it in front of token `k`. -/
def landmarksBefore (file : SchemaFile) (k : Nat) : List Landmark :=
  (file.nodes.filterMap fun n => n.mark.shape.landmark? file.significantTokens
    (n.inside.leaves.filter (fun t => !t.isTrivia))).filter (fun l => l.last + 2 < k)

end SchemaFile

/-! ## Landmarks of a row -/

/-- In a list without duplicates, a piece shows how many elements stand before it. -/
theorem idxOf_piece {all before ts after : List Token} (h : all = before ++ (ts ++ after))
    (hall : all.Nodup) (i : Nat) (hi : i < ts.length) :
    all.idxOf ts[i] = before.length + i := by
  have hlt : before.length + i < all.length := by
    rw [h, List.length_append, List.length_append]
    omega
  have hget : all[before.length + i] = ts[i] := by
    simp [h, List.getElem_append_right, List.getElem_append_left, hi]
  rw [← hget]
  exact hall.idxOf_getElem _ hlt

/-- Where a piece of the tokens of a file stands shows in its ends. -/
theorem landmark?_piece {all before ts after : List Token} (h : all = before ++ (ts ++ after))
    (hall : all.Nodup) (shape : Shape) :
    shape.landmark? all ts =
      Stretch.landmark? ⟨shape, before.length, before.length + ts.length⟩ := by
  cases ts with
  | nil => simp [Shape.landmark?, Stretch.landmark?]
  | cons t ts =>
    have hfirst := idxOf_piece h hall 0 (by simp)
    have hlt : ts.length < (t :: ts).length := Nat.lt_succ_self _
    have hlast := idxOf_piece h hall ts.length hlt
    have hget : (t :: ts).getLast? = some (t :: ts)[ts.length] := by
      rw [List.getLast?_eq_getElem?]
      simp
    rw [List.getElem_cons_zero, Nat.add_zero] at hfirst
    rw [Shape.landmark?, List.head?_cons, hget]
    simp only [hfirst, hlast, Stretch.landmark?]
    rw [if_pos (by simp)]
    rfl

namespace Forest

variable {α β σ τ : Type}

def entries : Forest α τ → List (α × List τ)
  | nil => []
  | leaf _ next => next.entries
  | node a inside next => (a, inside.leaves) :: (inside.entries ++ next.entries)

theorem leaves_mapLabels (f : α → β) (row : Forest α τ) :
    (row.mapLabels f).leaves = row.leaves := by
  induction row with
  | nil => rfl
  | leaf t next ih => rw [mapLabels, leaves, ih, leaves]
  | node a inside next ihi ihn => rw [mapLabels, leaves, ihi, ihn, leaves]

theorem entries_mapLabels (f : α → β) (row : Forest α τ) :
    (row.mapLabels f).entries = row.entries.map (fun e => (f e.1, e.2)) := by
  induction row with
  | nil => rfl
  | leaf t next ih => exact ih
  | node a inside next ihi ihn => simp [mapLabels, entries, ihi, ihn, leaves_mapLabels]

theorem leaves_layout (f : Forest Mark Token) :
    f.layout.leaves = f.leaves.filter (fun t => !t.isTrivia) := by
  induction f with
  | nil => rfl
  | leaf t next ih =>
    rw [layout, leaves, List.filter_cons]
    cases t.isTrivia <;> simp [leaves, ih]
  | node mark inside next ihi ihn => simp [layout, leaves, ihi, ihn]

theorem entries_layout (f : Forest Mark Token) :
    f.layout.entries = f.preorder.map fun n =>
      ((n.mark.shape, n.span), n.inside.leaves.filter (fun t => !t.isTrivia)) := by
  induction f with
  | nil => rfl
  | leaf t next ih =>
    rw [layout]
    split <;> exact ih
  | node mark inside next ihi ihn =>
    simp [layout, entries, preorder, ihi, ihn, leaves_layout, Node.span]

theorem stretches_mapLeaves (f : σ → τ) (row : Forest α σ) (n : Nat) :
    (row.mapLeaves f).stretches n = row.stretches n := by
  induction row generalizing n with
  | nil => rfl
  | leaf t next ih => exact ih _
  | node a inside next ihi ihn => simp [mapLeaves, stretches, ihi, ihn]

/-- The landmarks of a row that stands behind the tokens `before` and in front of `after`. -/
theorem landmarks_entries {all : List Token} (row : Forest Shape Token)
    (before after : List Token) (h : all = before ++ (row.leaves ++ after)) (hall : all.Nodup) :
    row.entries.filterMap (fun e => e.1.landmark? all e.2) =
      (row.stretches before.length).filterMap Stretch.landmark? := by
  induction row generalizing before after with
  | nil => rfl
  | leaf t next ih =>
    have hnext := ih (before ++ [t]) after (by simpa [leaves] using h)
    rwa [List.length_append] at hnext
  | node shape inside next ihi ihn =>
    rw [leaves, List.append_assoc] at h
    have hnext := ihn (before ++ inside.leaves) after (by simpa using h)
    rw [List.length_append] at hnext
    rw [entries, stretches, List.filterMap_cons, List.filterMap_cons, landmark?_piece h hall,
      List.filterMap_append, List.filterMap_append, ihi before _ h, hnext]

end Forest

/-- Landmarks in front of token `k` belong to settled nodes. -/
theorem filter_landmarks (k : Nat) (l : List (Stretch Shape)) :
    (l.filterMap Stretch.landmark?).filter (fun x => x.last + 2 < k) =
      (l.filter (Stretch.isSettled k)).filterMap Stretch.landmark? := by
  induction l with
  | nil => rfl
  | cons s l ih =>
    rw [List.filterMap_cons, List.filter_cons]
    by_cases hs : s.first < s.stop
    · have hsettled : s.isSettled k = decide (s.stop - 1 + 2 < k) := by
        simp only [Stretch.isSettled, hs, decide_true, Bool.true_and]
        congr 1
        exact propext ⟨fun h => by omega, fun h => by omega⟩
      simp only [Stretch.landmark?, if_pos hs, List.filter_cons, hsettled]
      split
      · rw [List.filterMap_cons]
        simp only [Stretch.landmark?, if_pos hs]
        rw [← ih]
      · exact ih
    · have hsettled : s.isSettled k = false := by simp [Stretch.isSettled, hs]
      simp only [Stretch.landmark?, if_neg hs, hsettled]
      exact ih

namespace SchemaFile

theorem lexeme_significantTokens (file : SchemaFile) :
    file.significantTokens.map Token.lexeme = significant (lexemes file.source) :=
  lexeme_significantFrom 0 (lexemes file.source)

/-- The landmarks of a file, told from its parsed row alone. -/
theorem landmarksBefore_eq (file : SchemaFile) (k : Nat) :
    file.landmarksBefore k =
      ((Forest.node (.construct .schemaFile true) file.content .nil).settled k 0).filterMap
        Stretch.landmark? := by
  let whole : Forest Mark Token := .node file.root.mark file.root.inside .nil
  let row : Forest Shape Token := whole.layout.mapLabels Prod.fst
  have hnodes : file.nodes = whole.preorder := by
    simp [whole, nodes, Node.descendants, Forest.preorder]
  have hentries : row.entries = file.nodes.map fun n =>
      (n.mark.shape, n.inside.leaves.filter (fun t => !t.isTrivia)) := by
    rw [hnodes, Forest.entries_mapLabels, Forest.entries_layout, List.map_map]
    rfl
  have hleaves : row.leaves = file.significantTokens := by
    rw [Forest.leaves_mapLabels, Forest.leaves_layout, significantTokens, ← leaves_root]
    simp [whole, Forest.leaves]
  have hrow : row.mapLeaves Token.lexeme =
      .node (.construct .schemaFile true) file.content .nil := by
    have hroot : file.root.mark.shape = .construct .schemaFile true := by
      rw [file.root_eq]
      rfl
    rw [← hroot]
    rfl
  have hnodup : file.significantTokens.Nodup := (nodup_tokenize file.source).filter _
  have hmarks := Forest.landmarks_entries row [] [] (by simp [hleaves]) hnodup
  rw [hentries, List.filterMap_map, List.length_nil, ← Forest.stretches_mapLeaves Token.lexeme,
    hrow] at hmarks
  rw [landmarksBefore, Forest.settled, ← filter_landmarks, ← hmarks]
  rfl

/-- Files whose significant tokens begin alike, in kind and text, have the same
nodes in front of the place where they part, but for the last two tokens. -/
theorem landmarks_of_take_eq (f g : SchemaFile) (k : Nat)
    (h : (f.significantTokens.map Token.lexeme).take k =
      (g.significantTokens.map Token.lexeme).take k) :
    f.landmarksBefore k = g.landmarksBefore k := by
  rw [landmarksBefore_eq, landmarksBefore_eq, content_eq, content_eq]
  rw [lexeme_significantTokens, lexeme_significantTokens] at h
  generalize hu : significant (lexemes f.source) = u at h ⊢
  generalize hv : significant (lexemes g.source) = v at h ⊢
  have hlengths := congrArg List.length h
  rw [List.length_take, List.length_take] at hlengths
  rcases Nat.lt_or_ge u.length k with hlt | hle
  · -- the shorter file is the common part, and so is the other one
    have hw : u = v := by
      rwa [List.take_of_length_le (by omega), List.take_of_length_le (by omega)] at h
    rw [hw]
  · have hsettled := settled_parseWith Parse.maxNesting (u.take k) (u.drop k) (v.drop k)
    have hk : (u.take k).length = k := by
      rw [List.length_take]
      omega
    rw [List.take_append_drop, h, List.take_append_drop, ← h, hk] at hsettled
    have hroot : ∀ s : List Lexeme, k ≤ s.length → (Forest.node (.construct .schemaFile true)
        (parseRow s) .nil).settled k 0 = (parseRow s).settled k 0 := by
      intro s hs
      apply Forest.settled_node_nil
      rw [parseRow, leaves_parseWith]
      omega
    rw [hroot u hle, hroot v (by omega), parseRow, hsettled]

theorem landmarks_of_types :
    (((read (.unsaved 0) "type T \x7b A b; C d; \x7d").significantTokens.map Token.lexeme).take 6 =
      ((read (.unsaved 1) "type T \x7b A b; = 1").significantTokens.map Token.lexeme).take 6) ∧
      (read (.unsaved 0) "type T \x7b A b; C d; \x7d").landmarksBefore 6 =
        (read (.unsaved 1) "type T \x7b A b; = 1").landmarksBefore 6 ∧
      (read (.unsaved 0) "type T \x7b A b; C d; \x7d").landmarksBefore 6 =
        [⟨.keyword, false, none, 0, 0⟩, ⟨.definitionName, false, none, 1, 1⟩,
          ⟨.fieldType, false, none, 3, 3⟩, ⟨.typeName, false, none, 3, 3⟩] := by
  have htake : ((read (.unsaved 0) "type T \x7b A b; C d; \x7d").significantTokens.map
      Token.lexeme).take 6 =
      ((read (.unsaved 1) "type T \x7b A b; = 1").significantTokens.map Token.lexeme).take 6 := by
    decide +kernel
  exact ⟨htake, landmarks_of_take_eq _ _ 6 htake, by decide +kernel⟩

end SchemaFile

end SchemaLang
