import SchemaLang.Proofs.Acceptance
import SchemaLang.Proofs.Blanking
import SchemaLang.Proofs.Numbering

/-!
# Profiles of the nodes of a file

A profile says what a node is, where it stands and what it holds itself, and
leaves out blanks and comments. The profiles of a file, each before those
inside it, can be told from its parsed row and its significant tokens alone:
a node reaches from its first significant token to its last one, and an empty
fault stands at the end of the token before it.
-/

set_option autoImplicit false

namespace SchemaLang

/-- What a node is, the number of the node around it, and the significant
tokens that it holds itself. -/
structure Profile where
  id : Nat
  shape : Shape
  span : Span
  parent? : Option Nat
  tokens : List Token
  deriving DecidableEq

def Site.profile (s : Site) : Profile :=
  ⟨s.id, s.node.mark.shape, s.node.span, s.parent?.map Node.id,
    s.node.tokens.filter (fun t => !t.isTrivia)⟩

def SchemaFile.profiles (file : SchemaFile) : List Profile := file.sites.map Site.profile

def startOf (offset : Nat) : List Token → Nat
  | [] => offset
  | t :: _ => t.start

def stopOf (offset : Nat) : List Token → Nat
  | [] => offset
  | t :: ts => stopOf t.stop ts

theorem stopOf_append (offset : Nat) (ts us : List Token) :
    stopOf offset (ts ++ us) = stopOf (stopOf offset ts) us := by
  induction ts generalizing offset with
  | nil => rfl
  | cons t ts ih => exact ih t.stop

theorem startOf_of_ne_nil {ts : List Token} (h : ts ≠ []) (m n : Nat) :
    startOf m ts = startOf n ts := by
  cases ts with
  | nil => exact absurd rfl h
  | cons t ts => rfl

theorem stopOf_of_ne_nil {ts : List Token} (h : ts ≠ []) (m n : Nat) :
    stopOf m ts = stopOf n ts := by
  cases ts with
  | nil => exact absurd rfl h
  | cons t ts => rfl

def Forest.survey : Forest Shape Token → Option Nat → Nat → Nat → List Profile
  | .nil, _, _, _ => []
  | .leaf t next, parent, _, id => next.survey parent t.stop id
  | .node shape inside next, parent, offset, id =>
    ⟨id, shape, ⟨startOf offset inside.leaves, stopOf offset inside.leaves⟩, parent,
        inside.tokens⟩ ::
      (inside.survey (some id) (startOf offset inside.leaves) (id + 1) ++
        next.survey parent (stopOf offset inside.leaves) (id + 1 + inside.nodeCount))

namespace Forest

variable (row : Forest Shape Token) (parent : Option Nat) (offset id : Nat)

theorem survey_append (g : Forest Shape Token) :
    (row ++ g).survey parent offset id = row.survey parent offset id ++
      g.survey parent (stopOf offset row.leaves) (id + row.nodeCount) := by
  induction row generalizing offset id with
  | nil => rfl
  | leaf t next ih => exact ih t.stop id
  | node shape inside next _ ih =>
    rw [node_append, survey, survey, ih, leaves, stopOf_append, nodeCount, List.cons_append,
      List.append_assoc, ← Nat.add_assoc, ← Nat.add_assoc]

variable {row}

/-- Where nothing is empty, it does not matter what a row stands behind. -/
theorem survey_offset (hrow : row.Each (fun _ inside => inside.leaves ≠ [])) (m n : Nat) :
    row.survey parent m id = row.survey parent n id := by
  cases row with
  | nil => rfl
  | leaf t next => rfl
  | node shape inside next =>
    rw [survey, survey, startOf_of_ne_nil hrow.1 m n, stopOf_of_ne_nil hrow.1 m n]

end Forest

def Profile.renumber (f : Nat → Nat) (p : Profile) : Profile :=
  { p with id := f p.id, parent? := p.parent?.map f }

/-- A row whose numbers begin elsewhere has the same profiles under other numbers. -/
theorem Forest.survey_renumber (row : Forest Shape Token) (f : Nat → Nat) (parent : Option Nat)
    (offset id : Nat) (hf : ∀ n, f (id + n) = f id + n) :
    row.survey (parent.map f) offset (f id) =
      (row.survey parent offset id).map (Profile.renumber f) := by
  induction row generalizing parent offset id with
  | nil => rfl
  | leaf t next ih => exact ih parent t.stop id hf
  | node shape inside next ihi ihn =>
    have hshift (k n : Nat) : f (id + k + n) = f (id + k) + n := by
      rw [Nat.add_assoc, hf, hf, Nat.add_assoc]
    have hi := ihi (some id) (startOf offset inside.leaves) (id + 1) (hshift 1)
    have hn := ihn parent (stopOf offset inside.leaves) (id + 1 + inside.nodeCount)
      (by rw [Nat.add_assoc id]; exact hshift _)
    rw [hf, Option.map_some] at hi
    rw [Nat.add_assoc id, hf, ← Nat.add_assoc] at hn
    rw [survey, survey, hi, hn, List.map_cons, List.map_append, Nat.add_assoc id]
    rfl

def Shape.Bare {τ : Type} : Shape → Forest Shape τ → Prop
  | .construct _ _, inside => inside.leaves ≠ []
  | .skipped _, inside => inside = .nil

/-! ## The first significant token -/

theorem significantFrom_of_trivia (start : Nat) {ls : List Lexeme}
    (h : ∀ l ∈ ls, l.isTrivia = true) : significantFrom start ls = [] := by
  rw [significantFrom, List.filter_eq_nil_iff]
  intro t ht
  have hl : t.isTrivia = true := h _ (lexeme_mem_of_mem_tokensFrom ht)
  simp [hl]

theorem significantFrom_afterTrivia (start : Nat) (all : List Lexeme) :
    significantFrom start all =
      significantFrom (start + totalSize (leadingTrivia all)) (afterTrivia all) := by
  have hlead : significantFrom start (leadingTrivia all) = [] :=
    significantFrom_of_trivia start fun l hl => isTrivia_of_mem_leadingTrivia hl
  have h := significantFrom_append start (leadingTrivia all) (afterTrivia all)
  rwa [leadingTrivia_append_afterTrivia, hlead, List.nil_append] at h

theorem lexeme_significantFrom (start : Nat) (ls : List Lexeme) :
    (significantFrom start ls).map Token.lexeme = significant ls := by
  induction ls generalizing start with
  | nil => rfl
  | cons l ls ih =>
    rw [significantFrom_cons, List.map_append, ih, significant, significant, List.filter_cons]
    cases l.isTrivia <;> rfl

theorem isTrivia_of_mem_significantFrom {start : Nat} {ls : List Lexeme} {t : Token}
    (h : t ∈ significantFrom start ls) : t.isTrivia = false := by
  simpa using List.of_mem_filter h

/-- The first significant token stands behind the blanks and comments in front. -/
theorem afterTrivia_eq_cons_of_tokens {offset : Nat} {all : List Lexeme} {t : Token}
    {ts : List Token} (h : significantFrom offset all = t :: ts) :
    afterTrivia all = t.lexeme :: (afterTrivia all).tail ∧
      t.start = offset + totalSize (leadingTrivia all) ∧
      significantFrom t.stop (afterTrivia all).tail = ts := by
  have hsig : significant all = t.lexeme :: ts.map Token.lexeme := by
    rw [← lexeme_significantFrom offset all, h, List.map_cons]
  obtain ⟨hcons, -⟩ := afterTrivia_eq_cons hsig
  have ht : t.lexeme.isTrivia = false := isTrivia_head_afterTrivia all (by rw [hcons]; rfl)
  rw [significantFrom_afterTrivia, hcons, significantFrom_cons, ht] at h
  obtain ⟨htoken, hts⟩ := List.cons.inj h
  have hstart : t.start = offset + totalSize (leadingTrivia all) := by rw [← htoken]
  refine ⟨hcons, hstart, ?_⟩
  rw [Token.stop, hstart]
  exact hts

/-! ## Placing a row -/

theorem nodeCount_attach (row : Row) (all : List Lexeme) :
    (attach row all).1.nodeCount = row.nodeCount := by
  rw [← Forest.length_labels, ← Forest.length_labels, labels_attach]

theorem locate_append (f g : Row) (offset id : Nat) :
    locate (f ++ g) offset id =
      ⟨(locate f offset id).row ++
          (locate g (locate f offset id).stop (locate f offset id).nextId).row,
        (locate g (locate f offset id).stop (locate f offset id).nextId).stop,
        (locate g (locate f offset id).stop (locate f offset id).nextId).nextId⟩ := by
  induction f generalizing offset id with
  | nil => rfl
  | leaf t next ih => simp only [Forest.leaf_append, locate, ih]
  | node shape inside next _ ih => simp only [Forest.node_append, locate, ih]

theorem locate_ofTokens (ls : List Lexeme) (offset id : Nat) :
    locate (.ofTokens ls) offset id =
      ⟨.ofTokens (tokensFrom offset ls), offset + totalSize ls, id⟩ := by
  induction ls generalizing offset with
  | nil => rfl
  | cons l ls ih => simp only [Forest.ofTokens, locate, ih, totalSize, tokensFrom, Nat.add_assoc]

namespace Forest

theorem sites_append (f g : Forest Mark Token) (above : List Node) :
    (f ++ g).sites above = f.sites above ++ g.sites above := by
  induction f with
  | nil => rfl
  | leaf t next ih => exact ih
  | node mark inside next _ ih => simp [sites, ih]

theorem sites_ofTokens (ts : List Token) (above : List Node) :
    (ofTokens ts : Forest Mark Token).sites above = [] := by
  induction ts with
  | nil => rfl
  | cons t ts ih => exact ih

end Forest

/-- What is read behind the blanks and comments in front begins significantly. -/
theorem leadingSize_attach_afterTrivia {row : Row} {all later : List Lexeme}
    (h : significant (afterTrivia all) = row.leaves ++ later) (hne : row.leaves ≠ []) :
    leadingSize (attach row (afterTrivia all)).1 = 0 := by
  obtain ⟨t, ts, hts⟩ := List.exists_cons_of_ne_nil (leaves_attach_ne_nil h hne)
  have hkeeps := (attach_keeps row _ _ h).1
  rw [hts] at hkeeps
  have ht : t.isTrivia = false := isTrivia_head_afterTrivia all (by rw [← hkeeps]; rfl)
  exact leadingSize_eq_zero (by rw [hts]; rfl) ht

structure Surveys (row : Forest Shape Token) (located : Located) (above : List Node)
    (offset id : Nat) : Prop where
  profiles : (located.row.sites above).map Site.profile =
    row.survey (above.head?.map Node.id) offset id
  tokens : located.row.tokens.filter (fun t => !t.isTrivia) = row.tokens
  stop : located.stop = stopOf offset row.leaves

theorem Surveys.behind_trivia {row : Forest Shape Token} {placed : Row} {ls : List Lexeme}
    {above : List Node} {offset id : Nat} (hls : ∀ l ∈ ls, l.isTrivia = true)
    (h : Surveys row (locate placed (offset + totalSize ls) id) above (offset + totalSize ls) id)
    (hsurvey : ∀ parent, row.survey parent (offset + totalSize ls) id = row.survey parent offset id)
    (hne : row.leaves ≠ []) :
    Surveys row (locate (.ofTokens ls ++ placed) offset id) above offset id := by
  have hfilter : (tokensFrom offset ls).filter (fun t => !t.isTrivia) = [] :=
    significantFrom_of_trivia offset hls
  rw [locate_append, locate_ofTokens]
  refine ⟨?_, ?_, ?_⟩
  · rw [Forest.sites_append, Forest.sites_ofTokens, List.nil_append, h.profiles, hsurvey]
  · rw [Forest.tokens_append, Forest.tokens_ofTokens, List.filter_append, hfilter,
      List.nil_append, h.tokens]
  · exact h.stop.trans (stopOf_of_ne_nil hne _ _)

theorem surveys_leaf {t : Token} {next : Forest Shape Token} {placed : Row} {above : List Node}
    {id : Nat} (ht : t.isTrivia = false)
    (h : Surveys next (locate placed t.stop id) above t.stop id) :
    Surveys (.leaf t next) (locate (.leaf t.lexeme placed) t.start id) above t.start id where
  profiles := h.profiles
  tokens := by
    show (t :: (locate placed t.stop id).row.tokens).filter _ = t :: next.tokens
    rw [List.filter_cons_of_pos (by simp [ht]), h.tokens]
  stop := h.stop

theorem surveys_node (shape : Shape) {inside next : Forest Shape Token} {held placed : Row}
    {above : List Node} {offset id : Nat} (hlead : leadingSize held = 0)
    (hstart : startOf offset inside.leaves = offset) (hcount : held.nodeCount = inside.nodeCount)
    (hheld : ∀ above', Surveys inside (locate held offset (id + 1)) above' offset (id + 1))
    (hnext : Surveys next (locate placed (stopOf offset inside.leaves)
      (id + 1 + inside.nodeCount)) above (stopOf offset inside.leaves)
      (id + 1 + inside.nodeCount)) :
    Surveys (.node shape inside next) (locate (.node shape held placed) offset id) above
      offset id := by
  have hi := hheld (⟨⟨id, shape, ⟨offset, stopOf offset inside.leaves⟩⟩,
    (locate held offset (id + 1)).row⟩ :: above)
  have hnextId : (locate held offset (id + 1)).nextId = id + 1 + inside.nodeCount := by
    rw [nextId_locate, hcount]
  have hlocated : locate (.node shape held placed) offset id =
      ⟨.node ⟨id, shape, ⟨offset, stopOf offset inside.leaves⟩⟩ (locate held offset (id + 1)).row
        (locate placed (stopOf offset inside.leaves) (id + 1 + inside.nodeCount)).row,
        (locate placed (stopOf offset inside.leaves) (id + 1 + inside.nodeCount)).stop,
        (locate placed (stopOf offset inside.leaves) (id + 1 + inside.nodeCount)).nextId⟩ := by
    rw [locate, hi.stop, hnextId, hlead, Nat.add_zero]
  rw [hlocated]
  refine ⟨?_, hnext.tokens, ?_⟩
  · rw [Forest.sites, List.map_cons, List.map_append, hi.profiles, hnext.profiles, Forest.survey,
      hstart]
    show Profile.mk id shape _ _ ((locate held offset (id + 1)).row.tokens.filter _) :: _ = _
    rw [hi.tokens]
    rfl
  · show (locate placed _ _).stop = _
    rw [hnext.stop, Forest.leaves, stopOf_append]

/-- A construct that holds tokens begins where the blanks and comments in front end. -/
theorem begins_of_tokens {inside : Forest Shape Token} {all : List Lexeme} {later : List Token}
    {offset : Nat} (hne : inside.leaves ≠ [])
    (h : significantFrom offset all = inside.leaves ++ later) :
    startOf (offset + totalSize (leadingTrivia all)) inside.leaves =
        offset + totalSize (leadingTrivia all) ∧
      leadingSize (attach (inside.mapLeaves Token.lexeme) (afterTrivia all)).1 = 0 := by
  constructor
  · obtain ⟨t, ts, hts⟩ := List.exists_cons_of_ne_nil hne
    obtain ⟨-, hstart, -⟩ := afterTrivia_eq_cons_of_tokens (by rw [h, hts]; rfl)
    rw [hts, ← hstart]
    rfl
  · have hsig := lexeme_significantFrom offset all
    rw [h, List.map_append, ← Forest.leaves_mapLeaves, ← significant_afterTrivia] at hsig
    exact leadingSize_attach_afterTrivia hsig.symm (by simpa using hne)

theorem surveys_attach (row : Forest Shape Token) (hrow : row.Each Shape.Bare)
    (all : List Lexeme) (later : List Token) (above : List Node) (offset id : Nat)
    (h : significantFrom offset all = row.leaves ++ later) :
    Surveys row (locate (attach (row.mapLeaves Token.lexeme) all).1 offset id) above offset id ∧
      significantFrom (stopOf offset row.leaves)
        (attach (row.mapLeaves Token.lexeme) all).2 = later := by
  induction row generalizing all later above offset id with
  | nil => exact ⟨⟨rfl, rfl, rfl⟩, h⟩
  | leaf t next ih =>
    obtain ⟨hcons, hstart, htail⟩ := afterTrivia_eq_cons_of_tokens h
    obtain ⟨hnext, hlater⟩ := ih hrow _ later above t.stop id htail
    have hmem : t ∈ significantFrom offset all := by
      rw [h]
      exact List.mem_cons_self
    have ht := isTrivia_of_mem_significantFrom hmem
    have hleaf := surveys_leaf ht hnext
    rw [hstart] at hleaf
    exact ⟨hleaf.behind_trivia (fun l hl => isTrivia_of_mem_leadingTrivia hl) (fun _ => rfl)
      (by simp [Forest.leaves]), hlater⟩
  | node shape inside next ihi ihn =>
    rw [Forest.leaves, List.append_assoc] at h
    cases shape with
    | construct kind complete =>
      -- what the construct holds is placed behind the blanks and comments in front of it
      have hne : inside.leaves ≠ [] := hrow.1
      obtain ⟨hbegin, hlead⟩ := begins_of_tokens hne h
      have hafter := (significantFrom_afterTrivia offset all).symm.trans h
      have hheld := fun above' => ihi hrow.2.1 _ _ above' _ (id + 1) hafter
      obtain ⟨hnext, hlater⟩ := ihn hrow.2.2 _ _ above _ (id + 1 + inside.nodeCount)
        (hheld []).2
      have hcount : (attach (inside.mapLeaves Token.lexeme) (afterTrivia all)).1.nodeCount =
          inside.nodeCount := by
        rw [nodeCount_attach, Forest.nodeCount_mapLeaves]
      have hnode := surveys_node (.construct kind complete) hlead hbegin hcount
        (fun above' => (hheld above').1) hnext
      rw [stopOf_of_ne_nil hne _ offset] at hlater
      refine ⟨hnode.behind_trivia (fun l hl => isTrivia_of_mem_leadingTrivia hl) (fun parent => ?_)
        ?_, ?_⟩
      · rw [Forest.survey, Forest.survey, startOf_of_ne_nil hne _ offset,
          stopOf_of_ne_nil hne _ offset]
      · exact fun hnil => hne (List.append_eq_nil_iff.mp hnil).1
      · rw [Forest.leaves, stopOf_append]
        exact hlater
    | skipped fault =>
      obtain rfl : inside = .nil := hrow.1
      obtain ⟨hnext, hlater⟩ := ihn hrow.2.2 all later above offset (id + 1) h
      exact ⟨surveys_node (.skipped fault) rfl rfl rfl (fun _ => ⟨rfl, rfl, rfl⟩) hnext, hlater⟩

/-- The profiles of a file, told from its parsed row over significant tokens. -/
theorem SchemaFile.profiles_eq (file : SchemaFile) (row : Forest Shape Token)
    (hrow : row.Each Shape.Bare) (hleaves : row.leaves = significantFrom 0 (lexemes file.source))
    (hparsed : row.mapLeaves Token.lexeme = parseRow (significant (lexemes file.source))) :
    file.profiles =
      ⟨0, .construct .schemaFile true, ⟨0, file.source.utf8ByteSize⟩, none, row.tokens⟩ ::
        row.survey (some 0) 0 1 := by
  have hall : significantFrom 0 (lexemes file.source) = row.leaves ++ [] := by
    rw [hleaves, List.append_nil]
  obtain ⟨hsurveys, hrest⟩ := surveys_attach row hrow (lexemes file.source) [] [file.root] 0 1 hall
  rw [hparsed] at hsurveys hrest
  have hroot : file.root.mark =
      ⟨0, .construct .schemaFile true, ⟨0, file.source.utf8ByteSize⟩⟩ := by
    rw [← file.span_root, file.root_eq]
    rfl
  have hid : file.root.id = 0 := by rw [Node.id, hroot]
  have hinside := file.inside_root
  rw [placedRow, attachAll, locate_append, locate_ofTokens, hsurveys.stop] at hinside
  have hprofiles := hsurveys.profiles
  rw [List.head?_cons, Option.map_some, hid] at hprofiles
  have htokens : file.root.tokens.filter (fun t => !t.isTrivia) = row.tokens := by
    rw [Node.tokens, hinside, Forest.tokens_append, Forest.tokens_ofTokens, List.filter_append,
      hsurveys.tokens]
    exact (congrArg _ hrest).trans (List.append_nil _)
  rw [profiles, sites, List.map_cons, hinside, Forest.sites_append, Forest.sites_ofTokens,
    List.append_nil, hprofiles, Site.profile, rootSite, htokens, Site.id, hid, Node.span, hroot]
  rfl

namespace SchemaFile

theorem map_id_profiles (file : SchemaFile) :
    file.profiles.map Profile.id = List.range file.nodeCount := by
  rw [← file.map_id_nodes, ← file.map_node_sites, profiles, List.map_map, List.map_map]
  rfl

theorem pairwise_profiles (file : SchemaFile) :
    file.profiles.Pairwise (fun p q => p.id < q.id) := by
  rw [← List.pairwise_map, map_id_profiles]
  exact List.pairwise_lt_range

theorem parent_lt_of_mem_profiles (file : SchemaFile) :
    ∀ p ∈ file.profiles, ∀ q ∈ p.parent?, q < p.id := by
  intro p hp q hq
  obtain ⟨s, hs, rfl⟩ := List.mem_map.mp hp
  rcases List.mem_cons.mp hs with rfl | hin
  · cases hq
  · obtain ⟨n, hn, hparent, hchild⟩ := file.exists_parent_of_mem_sites hin
    rw [Site.profile, hparent] at hq
    obtain rfl := Option.some.inj hq
    exact (file.child_of_mem_children n s.node hn hchild).1

theorem fault_of_mem_profiles (file : SchemaFile) (h : file.faults = []) :
    ∀ q ∈ file.profiles, q.shape.fault? = none := by
  intro q hq
  obtain ⟨s, hs, rfl⟩ := List.mem_map.mp hq
  have hnode : s.node ∈ file.nodes := by
    rw [← map_node_sites]
    exact List.mem_map_of_mem hs
  have hnone := List.filterMap_eq_nil_iff.mp h s.node hnode
  exact Option.map_eq_none_iff.mp hnone

/-- Where only one profile shows a fault, that is the fault of the file. -/
theorem faults_eq_singleton (file : SchemaFile) {front after : List Profile} {x : Profile}
    {fault : Fault} (h : file.profiles = front ++ x :: after) (hx : x.shape.fault? = some fault)
    (hfree : ∀ q ∈ front ++ after, q.shape.fault? = none) :
    ∃ s : Site, s.profile = x ∧ file.faults = [(s.node, fault)] := by
  obtain ⟨sites₁, rest, hsites, rfl, hrest⟩ := List.map_eq_append_iff.mp h
  obtain ⟨s, sites₂, rfl, rfl, rfl⟩ := List.map_eq_cons_iff.mp hrest
  have hnone (part : List Site) (hpart : ∀ r ∈ part, r.profile.shape.fault? = none) :
      (part.map Site.node).filterMap (fun n => n.fault?.map (n, ·)) = [] := by
    apply List.filterMap_eq_nil_iff.mpr
    intro n hn
    obtain ⟨r, hr, rfl⟩ := List.mem_map.mp hn
    exact Option.map_eq_none_iff.mpr (hpart r hr)
  have hfault : s.node.fault? = some fault := hx
  refine ⟨s, rfl, ?_⟩
  rw [faults, ← map_node_sites, hsites, List.map_append, List.map_cons, List.filterMap_append,
    List.filterMap_cons, hnone sites₁, hnone sites₂, hfault]
  · rfl
  · exact fun r hr => hfree _ (List.mem_append_right _ (List.mem_map_of_mem hr))
  · exact fun r hr => hfree _ (List.mem_append_left _ (List.mem_map_of_mem hr))

end SchemaFile

end SchemaLang
