import SchemaLang.Proofs.PrefixStability

/-!
# The tree of a file depends on its significant lexemes alone

The gist of a tree keeps its nodes with their numbers and its significant
lexemes, and forgets blanks, comments and offsets. It can be told from the
parsed row. Ranges come back as counts: a node begins behind so many
significant tokens of the file and ends behind so many, also when it is an
empty fault that stands somewhere between two of them.
-/

set_option autoImplicit false

namespace SchemaLang

namespace Forest

variable {α τ : Type}

def gist : Forest Mark Token → Forest (Nat × Shape) Lexeme
  | nil => nil
  | leaf t next => if t.isTrivia then next.gist else leaf t.lexeme next.gist
  | node mark inside next => node (mark.id, mark.shape) inside.gist next.gist

theorem gist_append (f g : Forest Mark Token) : (f ++ g).gist = f.gist ++ g.gist := by
  induction f with
  | nil => rfl
  | leaf t next ih =>
    rw [leaf_append, gist, gist, ih]
    split <;> rfl
  | node mark inside next _ ih => rw [node_append, gist, ih, gist, node_append]

theorem gist_trivia {ts : List Token} (h : ∀ t ∈ ts, t.isTrivia = true) :
    (ofTokens ts).gist = nil := by
  induction ts with
  | nil => rfl
  | cons t ts ih =>
    rw [ofTokens, gist, if_pos (h t List.mem_cons_self)]
    exact ih fun u hu => h u (List.mem_cons_of_mem t hu)

def numbered : Forest α τ → Nat → Forest (Nat × α) τ
  | nil, _ => nil
  | leaf t next, id => leaf t (next.numbered id)
  | node a inside next, id =>
    node (id, a) (inside.numbered (id + 1)) (next.numbered (id + 1 + inside.nodeCount))

def kinship : Forest (Nat × α) τ → Option Nat → List ((Nat × α) × Option Nat)
  | nil, _ => []
  | leaf _ next, parent => next.kinship parent
  | node a inside next, parent =>
    (a, parent) :: (inside.kinship (some a.1) ++ next.kinship parent)

theorem kinship_gist (f : Forest Mark Token) (above : List Node) :
    (f.sites above).map (fun s => ((s.id, s.node.mark.shape), s.parent?.map Node.id)) =
      f.gist.kinship (above.head?.map Node.id) := by
  induction f generalizing above with
  | nil => rfl
  | leaf t next ih =>
    rw [gist, sites, ih]
    split <;> rfl
  | node mark inside next ihi ihn =>
    rw [sites, List.map_cons, List.map_append, ihi, ihn, gist, kinship]
    rfl

end Forest

/-! ## Placing a row -/

/-- Where a row is placed, its significant lexemes stay and its nodes are numbered. -/
theorem gist_locate_attach (row : Row) (all : List Lexeme) (offset id : Nat)
    (hrow : ∀ t ∈ row.leaves, t.isTrivia = false) :
    (locate (attach row all).1 offset id).row.gist = row.numbered id := by
  have hlead (ls : List Lexeme) (placed : Row) (offset id : Nat) :
      (locate (.ofTokens (leadingTrivia ls) ++ placed) offset id).row.gist =
        (locate placed (offset + totalSize (leadingTrivia ls)) id).row.gist := by
    rw [locate_append, locate_ofTokens, Forest.gist_append, Forest.gist_trivia, Forest.nil_append]
    exact fun t ht => isTrivia_of_mem_leadingTrivia (lexeme_mem_of_mem_tokensFrom ht)
  induction row generalizing all offset id with
  | nil => rfl
  | leaf t next ih =>
    have ht : t.isTrivia = false := hrow t List.mem_cons_self
    have hnext := ih (afterTrivia all).tail (offset + totalSize (leadingTrivia all) + t.size) id
      fun u hu => hrow u (List.mem_cons_of_mem t hu)
    have hkind : ¬ Token.isTrivia ⟨t.kind, t.text, offset + totalSize (leadingTrivia all)⟩ = true :=
      Bool.not_eq_true _ ▸ ht
    rw [attach, hlead, locate, Forest.gist, if_neg hkind, hnext]
    rfl
  | node shape inside next ihi ihn =>
    have hinside := fun all offset id => ihi all offset id
      fun t ht => hrow t (List.mem_append_left _ ht)
    have hnext := fun all offset id => ihn all offset id
      fun t ht => hrow t (List.mem_append_right _ ht)
    cases shape with
    | construct kind complete =>
      rw [attach, hlead, locate, Forest.gist, hinside, hnext, nextId_locate, nodeCount_attach]
      rfl
    | skipped fault =>
      rw [attach, locate, Forest.gist, hinside, hnext, nextId_locate, nodeCount_attach]
      rfl

theorem isTrivia_of_mem_significant {ls : List Lexeme} {l : Lexeme} (h : l ∈ significant ls) :
    l.isTrivia = false := by
  simpa using List.of_mem_filter h

namespace SchemaFile

variable (file : SchemaFile)

/-- The gist of a file is its parsed row with the nodes numbered. -/
theorem gist_root :
    file.root.inside.gist = (parseRow (significant (lexemes file.source))).numbered 1 := by
  have hleaves : (parseRow (significant (lexemes file.source))).leaves =
      significant (lexemes file.source) := leaves_parseWith _ _
  obtain ⟨-, hrest⟩ := attach_keeps _ _ _ (significant_eq_leaves file.source)
  rw [inside_root, placedRow, attachAll, locate_append, locate_ofTokens, Forest.gist_append,
    gist_locate_attach, Forest.gist_trivia, Forest.append_nil]
  · intro t ht
    have hl := List.filter_eq_nil_iff.mp hrest t.lexeme (lexeme_mem_of_mem_tokensFrom ht)
    have hl : t.lexeme.isTrivia = true := by simpa using hl
    exact hl
  · rw [hleaves]
    exact fun t ht => isTrivia_of_mem_significant ht

theorem shape_root : file.root.mark.shape = .construct .schemaFile true := by
  rw [file.root_eq]
  rfl

theorem id_root : file.root.id = 0 := by
  rw [file.root_eq]
  rfl

/-- The kinds, numbers and parents of the nodes of a file, told from its gist. -/
theorem kinship_sites :
    file.sites.map (fun s => ((s.id, s.node.mark.shape), s.parent?.map Node.id)) =
      ((0, .construct .schemaFile true), none) :: file.root.inside.gist.kinship (some 0) := by
  have hinside := Forest.kinship_gist file.root.inside [file.root]
  rw [List.head?_cons, Option.map_some, file.id_root] at hinside
  rw [sites, List.map_cons, hinside, rootSite, Site.id, file.id_root, file.shape_root]
  rfl

end SchemaFile

/-! ## Counting the tokens in front -/

def Ascending (ts : List Token) : Prop :=
  ts.Pairwise (fun t u => t.stop ≤ u.start) ∧ ∀ t ∈ ts, t.start < t.stop

theorem ascending_tokensFrom (start : Nat) (ls : List Lexeme) (h : ∀ l ∈ ls, 0 < l.size) :
    Ascending (tokensFrom start ls) := by
  induction ls generalizing start with
  | nil => exact ⟨.nil, by simp [tokensFrom]⟩
  | cons l ls ih =>
    obtain ⟨hpairs, hsizes⟩ := ih (start + l.size) fun m hm => h m (List.mem_cons_of_mem l hm)
    refine ⟨.cons (fun t ht => start_le_of_mem_tokensFrom _ _ t ht) hpairs, ?_⟩
    intro t ht
    rcases List.mem_cons.mp ht with rfl | ht
    · exact Nat.lt_add_of_pos_right (h l List.mem_cons_self)
    · exact hsizes t ht

theorem Ascending.filter {ts : List Token} (h : Ascending ts) (p : Token → Bool) :
    Ascending (ts.filter p) :=
  ⟨h.1.filter p, fun t ht => h.2 t (List.mem_of_mem_filter ht)⟩

def endedBy (all : List Token) (offset : Nat) : Nat := all.countP (fun t => t.stop ≤ offset)

structure CutsAt (before after : List Token) (offset : Nat) : Prop where
  front : ∀ t ∈ before, t.stop ≤ offset
  behind : ∀ t ∈ after, offset < t.stop

namespace CutsAt

variable {before ts after : List Token} {offset : Nat}

theorem endedBy (h : CutsAt before after offset) :
    endedBy (before ++ after) offset = before.length := by
  have hbefore : before.countP (fun t => t.stop ≤ offset) = before.length :=
    List.countP_eq_length.mpr fun t ht => by simpa using h.front t ht
  have hafter : after.countP (fun t => t.stop ≤ offset) = 0 :=
    List.countP_eq_zero.mpr fun t ht => by simpa using h.behind t ht
  rw [SchemaLang.endedBy, List.countP_append, hbefore, hafter, Nat.add_zero]

/-- The start of the next token cuts where the gap in front of it does. -/
theorem startOf (hall : Ascending (before ++ (ts ++ after)))
    (h : CutsAt before (ts ++ after) offset) :
    CutsAt before (ts ++ after) (startOf offset ts) := by
  cases ts with
  | nil => exact h
  | cons t ts =>
    obtain ⟨-, hbehind, hacross⟩ := List.pairwise_append.mp hall.1
    have ht : t ∈ t :: ts ++ after := List.mem_cons_self
    refine ⟨fun u hu => hacross u hu t ht, fun u hu => ?_⟩
    have hsize := hall.2 u (List.mem_append_right _ hu)
    rcases List.mem_cons.mp hu with rfl | hrest
    · exact hsize
    · have hbetween := (List.pairwise_cons.mp hbehind).1 u hrest
      have htsize := hall.2 t (List.mem_append_right _ ht)
      show t.start < u.stop
      omega

theorem stopOf (hall : Ascending (before ++ (ts ++ after)))
    (h : CutsAt before (ts ++ after) offset) :
    CutsAt (before ++ ts) after (stopOf offset ts) := by
  induction ts generalizing before offset with
  | nil => simpa [SchemaLang.stopOf] using h
  | cons t ts ih =>
    obtain ⟨-, hbehind, hacross⟩ := List.pairwise_append.mp hall.1
    have hstart := hall.2 t (by simp)
    rw [List.cons_append, List.append_cons] at hall
    rw [List.append_cons]
    apply ih hall
    constructor
    · intro u hu
      rcases List.mem_append.mp hu with hu | hu
      · have := hacross u hu t List.mem_cons_self
        omega
      · rw [List.mem_singleton.mp hu]
    · intro u hu
      have hnext := (List.pairwise_cons.mp hbehind).1 u hu
      have := hall.2 u (List.mem_append_right _ hu)
      omega

end CutsAt

/-- A node of a row that stands behind the tokens `before` reaches over as many
tokens as have ended at its ends. -/
theorem Forest.endedBy_spanned (row : Forest Shape Token) (before after : List Token)
    (offset : Nat) (hall : Ascending (before ++ (row.leaves ++ after)))
    (h : CutsAt before (row.leaves ++ after) offset) :
    (row.spanned offset).labels.map (fun a =>
        (⟨a.1, endedBy (before ++ (row.leaves ++ after)) a.2.start,
          endedBy (before ++ (row.leaves ++ after)) a.2.stop⟩ : Stretch Shape)) =
      row.stretches before.length := by
  induction row generalizing before after offset with
  | nil => rfl
  | leaf t next ih =>
    have hcut : CutsAt (before ++ [t]) (next.leaves ++ after) t.stop :=
      h.stopOf (show Ascending (before ++ ([t] ++ (next.leaves ++ after))) from hall)
    have hnext := ih (before ++ [t]) after t.stop (by simpa [leaves] using hall) hcut
    rw [List.length_append, List.append_assoc] at hnext
    exact hnext
  | node shape inside next ihi ihn =>
    rw [leaves, List.append_assoc] at hall h ⊢
    have hstart := h.startOf hall
    have hstop := h.stopOf hall
    have hheld := ihi before (next.leaves ++ after) _ hall hstart
    have hnext := ihn (before ++ inside.leaves) after _ (by simpa using hall) hstop
    rw [List.length_append, List.append_assoc] at hnext
    have hcount := hstop.endedBy
    rw [List.length_append, List.append_assoc] at hcount
    rw [spanned, labels, List.map_cons, List.map_append, hheld, hnext, hstart.endedBy, hcount,
      stretches]

namespace SchemaFile

variable (file : SchemaFile)

theorem ascending_significantTokens : Ascending file.significantTokens :=
  (ascending_tokensFrom 0 _ fun l hl => size_pos_of_mem_scan file.source.toList l hl).filter _

/-- The two ends of a text cut in front of all tokens and behind them. -/
theorem cutsAt_ends :
    CutsAt [] file.significantTokens 0 ∧
      CutsAt file.significantTokens [] file.source.utf8ByteSize := by
  refine ⟨⟨by simp, fun t ht => ?_⟩, fun t ht => ?_, by simp⟩
  · have := file.ascending_significantTokens.2 t ht
    omega
  · obtain ⟨ls, ms, hall, hstart⟩ :=
      exists_split_of_mem_tokensFrom (List.mem_of_mem_filter ht : t ∈ tokensFrom 0 _)
    rw [← totalSize_lexemes, hall, totalSize_append, totalSize, Token.stop, hstart]
    have : t.lexeme.size = t.text.utf8ByteSize := rfl
    omega

/-- Where the nodes of a file begin and end, counted in tokens, told from its parsed row. -/
theorem stretches_nodes :
    file.nodes.map (fun n => (⟨n.mark.shape, endedBy file.significantTokens n.span.start,
        endedBy file.significantTokens n.span.stop⟩ : Stretch Shape)) =
      ⟨.construct .schemaFile true, 0, file.significantTokens.length⟩ ::
        (parseRow (significant (lexemes file.source))).stretches 0 := by
  obtain ⟨row, hrow, hleaves, -, hlayout⟩ := file.exists_spanned
  have hrowLeaves : row.leaves ++ [] = file.significantTokens := by
    rw [List.append_nil, hleaves]
    rfl
  obtain ⟨hfirst, hlast⟩ := file.cutsAt_ends
  have hrowEnds := Forest.endedBy_spanned row [] [] 0
    (by rw [hrowLeaves]; exact file.ascending_significantTokens) (by rw [hrowLeaves]; exact hfirst)
  have hlabels := Forest.labels_layout file.root.inside
  rw [show file.root.inside.layout = row.spanned 0 from hlayout] at hlabels
  rw [hlabels, List.map_map, hrowLeaves, List.nil_append] at hrowEnds
  have hstart : endedBy file.significantTokens 0 = 0 := hfirst.endedBy
  have hstop : endedBy file.significantTokens file.source.utf8ByteSize =
      file.significantTokens.length := by
    have := hlast.endedBy
    rwa [List.append_nil] at this
  rw [nodes, Node.descendants, List.map_cons, file.span_root, file.shape_root, hstart, hstop,
    ← hrow, Forest.stretches_mapLeaves]
  exact congrArg (List.cons _) hrowEnds

end SchemaFile

/-- What a node is, which node is around it, behind how many significant tokens
it begins and behind how many it ends. -/
structure Bearing where
  id : Nat
  kind : NodeKind
  incomplete : Bool
  message? : Option String
  parent? : Option Nat
  first : Nat
  stop : Nat
  deriving DecidableEq

namespace SchemaFile

def bearing (file : SchemaFile) (s : Site) : Bearing where
  id := s.id
  kind := s.kind
  incomplete := s.node.incomplete
  message? := s.node.fault?.map Fault.message
  parent? := s.parent?.map Node.id
  first := endedBy file.significantTokens s.node.span.start
  stop := endedBy file.significantTokens s.node.span.stop

def bearings (file : SchemaFile) : List Bearing := file.sites.map file.bearing

/-- The bearings of a file, told from its gist and from the stretches of its row. -/
theorem bearings_eq (file : SchemaFile) :
    file.bearings =
      List.zipWith (fun (a : (Nat × Shape) × Option Nat) (s : Stretch Shape) =>
          ⟨a.1.1, a.1.2.kind, !a.1.2.complete, a.1.2.fault?.map Fault.message, a.2, s.first,
            s.stop⟩)
        (((0, .construct .schemaFile true), none) :: file.root.inside.gist.kinship (some 0))
        (⟨.construct .schemaFile true, 0, file.significantTokens.length⟩ ::
          (parseRow (significant (lexemes file.source))).stretches 0) := by
  rw [← file.kinship_sites, ← file.stretches_nodes, ← file.map_node_sites, List.map_map,
    List.zipWith_map, List.zipWith_self]
  rfl

theorem faults_bearings (file : SchemaFile) :
    file.faults.map (fun p => (p.1.id, p.2.message)) =
      file.bearings.filterMap (fun b => b.message?.map (b.id, ·)) := by
  rw [faults, ← file.map_node_sites, bearings, List.filterMap_map, List.filterMap_map,
    List.map_filterMap]
  congr 1
  funext s
  simp only [Function.comp_apply, bearing, Option.map_map]
  rfl

/-- Two texts with the same significant lexemes are read alike, however they are
laid out: their trees have the same nodes, over the same tokens, and the same
faults at the same nodes. -/
theorem bearings_of_lexemes_eq (f g : SchemaFile)
    (h : f.significantTokens.map Token.lexeme = g.significantTokens.map Token.lexeme) :
    f.bearings = g.bearings ∧
      f.faults.map (fun p => (p.1.id, p.2.message)) =
        g.faults.map (fun p => (p.1.id, p.2.message)) := by
  have hlength : f.significantTokens.length = g.significantTokens.length := by
    have := congrArg List.length h
    rwa [List.length_map, List.length_map] at this
  rw [lexeme_significantTokens, lexeme_significantTokens] at h
  have hbearings : f.bearings = g.bearings := by
    rw [bearings_eq, bearings_eq, gist_root, gist_root, h, hlength]
  exact ⟨hbearings, by rw [faults_bearings, faults_bearings, hbearings]⟩

theorem bearings_of_spread_type :
    ((read (.unsaved 0) "type T \x7b A b \x7d ?").significantTokens.map Token.lexeme =
      (read (.unsaved 1) "type/**/T\x7bA b// c\n\x7d\n\n?").significantTokens.map Token.lexeme) ∧
      (read (.unsaved 0) "type T \x7b A b \x7d ?").bearings =
        (read (.unsaved 1) "type/**/T\x7bA b// c\n\x7d\n\n?").bearings ∧
      (read (.unsaved 0) "type T \x7b A b \x7d ?").faults.map (fun p => (p.1.id, p.2.message)) =
        (read (.unsaved 1) "type/**/T\x7bA b// c\n\x7d\n\n?").faults.map
          (fun p => (p.1.id, p.2.message)) := by
  have hlexemes : (read (.unsaved 0) "type T \x7b A b \x7d ?").significantTokens.map Token.lexeme =
      (read (.unsaved 1) "type/**/T\x7bA b// c\n\x7d\n\n?").significantTokens.map Token.lexeme := by
    decide +kernel
  exact ⟨hlexemes, bearings_of_lexemes_eq _ _ hlexemes⟩

end SchemaFile

end SchemaLang
