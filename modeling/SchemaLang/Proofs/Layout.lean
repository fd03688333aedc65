import SchemaLang.Proofs.Lookahead
import SchemaLang.Proofs.Profiles

/-!
# The tree of a file without blanks and comments

The layout of a file keeps what each node is and where it stands, over the
significant tokens. Like the walk through a file, it can be told from the
parsed row and these tokens alone, and it covers files with faults: skipped
lexemes stand side by side, so a fault begins at the first of them. Without
the places it is the parsed row itself.
-/

set_option autoImplicit false

namespace SchemaLang

namespace Forest

variable {α β σ τ : Type}

def mapLabels (f : α → β) : Forest α τ → Forest β τ
  | nil => nil
  | leaf t next => leaf t (next.mapLabels f)
  | node a inside next => node (f a) (inside.mapLabels f) (next.mapLabels f)

theorem eq_ofTokens_of_mapLeaves {g : τ → σ} {f : Forest α τ} {ts : List σ}
    (h : f.mapLeaves g = ofTokens ts) : f = ofTokens f.leaves := by
  induction f generalizing ts with
  | nil => rfl
  | leaf t next ih =>
    cases ts with
    | nil => cases h
    | cons u ts => rw [leaves, ofTokens, ← ih (Forest.leaf.inj h).2]
  | node a inside next => cases ts <;> cases h

def layout : Forest Mark Token → Forest (Shape × Span) Token
  | nil => nil
  | leaf t next => if t.isTrivia then next.layout else leaf t next.layout
  | node mark inside next => node (mark.shape, mark.span) inside.layout next.layout

theorem layout_append (f g : Forest Mark Token) : (f ++ g).layout = f.layout ++ g.layout := by
  induction f with
  | nil => rfl
  | leaf t next ih =>
    rw [leaf_append, layout, layout, ih]
    split <;> rfl
  | node mark inside next _ ih => rw [node_append, layout, ih, layout, node_append]

theorem layout_trivia {ts : List Token} (h : ∀ t ∈ ts, t.isTrivia = true) :
    (ofTokens ts).layout = nil := by
  induction ts with
  | nil => rfl
  | cons t ts ih =>
    rw [ofTokens, layout, if_pos (h t List.mem_cons_self)]
    exact ih fun u hu => h u (List.mem_cons_of_mem t hu)

theorem labels_layout (f : Forest Mark Token) :
    f.layout.labels = f.preorder.map (fun n => (n.mark.shape, n.span)) := by
  induction f with
  | nil => rfl
  | leaf t next ih =>
    rw [layout]
    split <;> exact ih
  | node mark inside next ihi ihn => simp [layout, labels, preorder, ihi, ihn, Node.span]

def spanned : Forest Shape Token → Nat → Forest (Shape × Span) Token
  | nil, _ => nil
  | leaf t next, _ => leaf t (next.spanned t.stop)
  | node shape inside next, offset =>
    node (shape, ⟨startOf offset inside.leaves, stopOf offset inside.leaves⟩)
      (inside.spanned (startOf offset inside.leaves)) (next.spanned (stopOf offset inside.leaves))

theorem spanned_append (f g : Forest Shape Token) (offset : Nat) :
    (f ++ g).spanned offset = f.spanned offset ++ g.spanned (stopOf offset f.leaves) := by
  induction f generalizing offset with
  | nil => rfl
  | leaf t next ih =>
    rw [leaf_append, spanned, spanned, ih, leaf_append]
    rfl
  | node shape inside next _ ih =>
    rw [node_append, spanned, spanned, ih, node_append, leaves, stopOf_append]

theorem spanned_ofTokens (ts : List Token) (offset : Nat) :
    (ofTokens ts : Forest Shape Token).spanned offset = ofTokens ts := by
  induction ts generalizing offset with
  | nil => rfl
  | cons t ts ih => rw [ofTokens, spanned, ih, ofTokens]

theorem mapLabels_spanned (f : Forest Shape Token) (offset : Nat) :
    (f.spanned offset).mapLabels Prod.fst = f := by
  induction f generalizing offset with
  | nil => rfl
  | leaf t next ih => rw [spanned, mapLabels, ih]
  | node shape inside next ihi ihn => rw [spanned, mapLabels, ihi, ihn]

end Forest

def Shape.Laid {τ : Type} : Shape → Forest Shape τ → Prop
  | .construct _ _, inside => inside.leaves ≠ []
  | .skipped _, inside => inside = .ofTokens inside.leaves

/-! ## Placing a row -/

structure Lays (row : Forest Shape Token) (located : Located) (offset : Nat) : Prop where
  layout : located.row.layout = row.spanned offset
  stop : located.stop = stopOf offset row.leaves

theorem Lays.behind_trivia {row : Forest Shape Token} {placed : Row} {ls : List Lexeme}
    {offset id : Nat} (hls : ∀ l ∈ ls, l.isTrivia = true)
    (h : Lays row (locate placed (offset + totalSize ls) id) (offset + totalSize ls))
    (hspanned : row.spanned (offset + totalSize ls) = row.spanned offset)
    (hne : row.leaves ≠ []) : Lays row (locate (.ofTokens ls ++ placed) offset id) offset := by
  rw [locate_append, locate_ofTokens]
  constructor
  · have hlead : (Forest.ofTokens (tokensFrom offset ls)).layout = .nil :=
      Forest.layout_trivia fun t ht => hls _ (lexeme_mem_of_mem_tokensFrom ht)
    rw [Forest.layout_append, hlead, Forest.nil_append, h.layout, hspanned]
  · exact h.stop.trans (stopOf_of_ne_nil hne _ _)

theorem lays_leaf {t : Token} {next : Forest Shape Token} {placed : Row} {id : Nat}
    (ht : t.isTrivia = false) (h : Lays next (locate placed t.stop id) t.stop) :
    Lays (.leaf t next) (locate (.leaf t.lexeme placed) t.start id) t.start where
  layout := by
    show (if t.isTrivia then _ else Forest.leaf t _) = _
    rw [if_neg (by simp [ht]), Forest.spanned]
    exact congrArg (Forest.leaf t) h.layout
  stop := h.stop

theorem lays_node (shape : Shape) {inside next : Forest Shape Token} {held placed : Row}
    {offset id : Nat} (hstart : offset + leadingSize held = startOf offset inside.leaves)
    (hinside : inside.spanned offset = inside.spanned (startOf offset inside.leaves))
    (hheld : Lays inside (locate held offset (id + 1)) offset)
    (hnext : ∀ id, Lays next (locate placed (stopOf offset inside.leaves) id)
      (stopOf offset inside.leaves)) :
    Lays (.node shape inside next) (locate (.node shape held placed) offset id) offset := by
  rw [locate, hheld.stop]
  constructor
  · rw [Forest.layout, hheld.layout, (hnext _).layout, hstart, hinside, Forest.spanned]
  · show (locate placed _ _).stop = _
    rw [(hnext _).stop, Forest.leaves, stopOf_append]

theorem leadingSize_behind_trivia {ls : List Lexeme} (h : ∀ l ∈ ls, l.isTrivia = true)
    (row : Row) : leadingSize (.ofTokens ls ++ row) = totalSize ls + leadingSize row := by
  induction ls with
  | nil => exact (Nat.zero_add _).symm
  | cons l ls ih =>
    have hrest := ih fun m hm => h m (List.mem_cons_of_mem l hm)
    rw [Forest.ofTokens, Forest.leaf_append, leadingSize, if_pos (h l List.mem_cons_self), hrest,
      totalSize, Nat.add_assoc]

/-- Skipped tokens begin behind the blanks and comments in front of them. -/
theorem leadingSize_attach_ofTokens {ts later : List Token} {all : List Lexeme} {offset : Nat}
    (h : significantFrom offset all = ts ++ later) :
    offset + leadingSize (attach ((Forest.ofTokens ts).mapLeaves Token.lexeme) all).1 =
      startOf offset ts := by
  cases ts with
  | nil => rfl
  | cons t ts =>
    obtain ⟨hcons, hstart, -⟩ := afterTrivia_eq_cons_of_tokens h
    have ht : t.lexeme.isTrivia = false := isTrivia_head_afterTrivia all (by rw [hcons]; rfl)
    rw [Forest.ofTokens, Forest.mapLeaves, attach,
      leadingSize_behind_trivia (fun l hl => isTrivia_of_mem_leadingTrivia hl), leadingSize,
      if_neg (by simp [ht]), startOf, hstart, Nat.add_zero]

theorem lays_attach (row : Forest Shape Token) (hrow : row.Each Shape.Laid) (all : List Lexeme)
    (later : List Token) (offset id : Nat) (h : significantFrom offset all = row.leaves ++ later) :
    Lays row (locate (attach (row.mapLeaves Token.lexeme) all).1 offset id) offset ∧
      significantFrom (stopOf offset row.leaves)
        (attach (row.mapLeaves Token.lexeme) all).2 = later := by
  induction row generalizing all later offset id with
  | nil => exact ⟨⟨rfl, rfl⟩, h⟩
  | leaf t next ih =>
    obtain ⟨hcons, hstart, htail⟩ := afterTrivia_eq_cons_of_tokens h
    obtain ⟨hnext, hlater⟩ := ih hrow _ later t.stop id htail
    have hmem : t ∈ significantFrom offset all := by
      rw [h]
      exact List.mem_cons_self
    have hleaf := lays_leaf (isTrivia_of_mem_significantFrom hmem) hnext
    rw [hstart] at hleaf
    exact ⟨hleaf.behind_trivia (fun l hl => isTrivia_of_mem_leadingTrivia hl) rfl
      (by simp [Forest.leaves]), hlater⟩
  | node shape inside next ihi ihn =>
    rw [Forest.leaves, List.append_assoc] at h
    cases shape with
    | construct kind complete =>
      -- what the construct holds is placed behind the blanks and comments in front of it
      have hne : inside.leaves ≠ [] := hrow.1
      obtain ⟨hbegin, hlead⟩ := begins_of_tokens hne h
      have hafter := (significantFrom_afterTrivia offset all).symm.trans h
      have hheld := fun id => ihi hrow.2.1 _ _ _ id hafter
      have hnext := fun id => ihn hrow.2.2 _ _ _ id (hheld 0).2
      have hlater := (hnext 0).2
      have hnode := lays_node (.construct kind complete) (by rw [hlead, hbegin, Nat.add_zero])
        (by rw [hbegin]) (hheld (id + 1)).1 (fun id => (hnext id).1)
      rw [stopOf_of_ne_nil hne _ offset] at hlater
      refine ⟨hnode.behind_trivia (fun l hl => isTrivia_of_mem_leadingTrivia hl) ?_ ?_, ?_⟩
      · rw [Forest.spanned, Forest.spanned, startOf_of_ne_nil hne _ offset,
          stopOf_of_ne_nil hne _ offset]
      · exact fun hnil => hne (List.append_eq_nil_iff.mp hnil).1
      · rw [Forest.leaves, stopOf_append]
        exact hlater
    | skipped fault =>
      have hflat : inside = .ofTokens inside.leaves := hrow.1
      have hheld := fun id => ihi hrow.2.1 all (next.leaves ++ later) offset id h
      have hnext := fun id => ihn hrow.2.2 _ later _ id (hheld 0).2
      have hstart := leadingSize_attach_ofTokens h
      rw [← hflat] at hstart
      refine ⟨lays_node (.skipped fault) hstart ?_ (hheld (id + 1)).1 (fun id => (hnext id).1), ?_⟩
      · rw [hflat, Forest.spanned_ofTokens, Forest.spanned_ofTokens]
      · rw [Forest.leaves, stopOf_append]
        exact (hnext 0).2

/-- A row over all significant tokens of a text is laid out as it is placed among them. -/
theorem layout_attachAll (row : Forest Shape Token) (hrow : row.Each Shape.Laid)
    (all : List Lexeme) (hleaves : row.leaves = significantFrom 0 all) :
    (locate (attachAll (row.mapLeaves Token.lexeme) all) 0 1).row.layout = row.spanned 0 := by
  have hall : significantFrom 0 all = row.leaves ++ [] := by
    rw [hleaves, List.append_nil]
  obtain ⟨hlays, hrest⟩ := lays_attach row hrow all [] 0 1 hall
  have htrivia : ∀ t ∈ tokensFrom (stopOf 0 row.leaves)
      (attach (row.mapLeaves Token.lexeme) all).2, t.isTrivia = true := by
    intro t ht
    simpa using List.filter_eq_nil_iff.mp hrest t ht
  rw [attachAll, locate_append, locate_ofTokens, hlays.stop, Forest.layout_append, hlays.layout,
    Forest.layout_trivia htrivia, Forest.append_nil]

theorem exists_laid (room : Nat) (all : List Lexeme) :
    ∃ row : Forest Shape Token, row.mapLeaves Token.lexeme = parseWith room (significant all) ∧
      row.leaves = significantFrom 0 all ∧ row.Each Shape.Laid := by
  have hfilled := filled_parseWith room (significant all)
  have hflat := flat_parseWith room (significant all)
  obtain ⟨row, hrow, hleaves⟩ := Forest.exists_mapLeaves_eq Token.lexeme
    (parseWith room (significant all)) (significantFrom 0 all)
    (by rw [lexeme_significantFrom]; exact (leaves_parseWith _ _).symm)
  have hboth := hfilled.and hflat
  rw [← hrow, Forest.each_mapLeaves] at hboth
  refine ⟨row, hrow, hleaves, hboth.imp ?_⟩
  rintro (_ | _) inside ⟨hfill, hlay⟩
  · simpa [Shape.Filled, Shape.Laid] using hfill
  · exact Forest.eq_ofTokens_of_mapLeaves hlay

namespace SchemaFile

variable (file : SchemaFile)

def layout : Forest (Shape × Span) Token := file.root.inside.layout

def content : Row := (file.layout.mapLabels Prod.fst).mapLeaves Token.lexeme

/-- The layout of a file, told from its parsed row over significant tokens. -/
theorem layout_eq (row : Forest Shape Token) (hrow : row.Each Shape.Laid)
    (hleaves : row.leaves = significantFrom 0 (lexemes file.source))
    (hparsed : row.mapLeaves Token.lexeme = parseRow (significant (lexemes file.source))) :
    file.layout = row.spanned 0 := by
  rw [layout, file.inside_root, placedRow, ← hparsed, layout_attachAll row hrow _ hleaves]

theorem exists_spanned :
    ∃ row : Forest Shape Token,
      row.mapLeaves Token.lexeme = parseRow (significant (lexemes file.source)) ∧
      row.leaves = significantFrom 0 (lexemes file.source) ∧ row.Each Shape.Laid ∧
      file.layout = row.spanned 0 := by
  obtain ⟨row, hrow, hleaves, hlaid⟩ := exists_laid Parse.maxNesting (lexemes file.source)
  exact ⟨row, hrow, hleaves, hlaid, file.layout_eq row hlaid hleaves hrow⟩

theorem content_eq : file.content = parseRow (significant (lexemes file.source)) := by
  obtain ⟨row, hrow, -, -, hlayout⟩ := file.exists_spanned
  rw [content, hlayout, Forest.mapLabels_spanned, hrow]

/-- The faults of a file with their places stand in its layout. -/
theorem faults_layout :
    file.faults.map (fun p => (p.1.span, p.2)) =
      file.layout.labels.filterMap (fun a => a.1.fault?.map (a.2, ·)) := by
  have hroot : file.root.fault? = none := by
    rw [file.root_eq]
    rfl
  rw [faults, nodes, Node.descendants, List.filterMap_cons, hroot, layout, Forest.labels_layout,
    List.filterMap_map]
  simp only [Option.map_none, List.map_filterMap, Option.map_map]
  rfl

end SchemaFile

end SchemaLang
