import SchemaLang.Proofs.Height
import SchemaLang.Proofs.Layout
import SchemaLang.Proofs.Pruning

/-!
# The bound on nesting is transparent

The tree of a text that reads without faults when nesting is not bounded tells
the tree that the text has with the bound. Every outermost construct that
stands too deeply is one node of skipped lexemes with the same range, the
constructs around values that enclose one are incomplete, and all other nodes
are the same and stand at the same places.
-/

set_option autoImplicit false

namespace SchemaLang

namespace Forest

open Shaped

variable {α σ τ : Type}

theorem labels_mapLeaves (g : σ → τ) (f : Forest α σ) : (f.mapLeaves g).labels = f.labels := by
  induction f with
  | nil => rfl
  | leaf t next ih => exact ih
  | node a inside next ihi ihn => rw [mapLeaves, labels, ihi, ihn, labels]

theorem mapLeaves_prune [Shaped α] (g : σ → τ) (f : Forest α σ) (room : Nat) :
    (f.prune room).mapLeaves g = (f.mapLeaves g).prune room := by
  induction f generalizing room with
  | nil => rfl
  | leaf t next ih => rw [prune, mapLeaves, ih, mapLeaves, prune]
  | node a inside next ihi ihn =>
    rw [mapLeaves, prune, prune]
    split
    · rw [mapLeaves, ihi, ihn, ← ihi, faulty, faulty, labels_mapLeaves]
    · rw [mapLeaves, mapLeaves_ofTokens, ihn, leaves_mapLeaves]

theorem leaves_spanned (f : Forest Shape Token) (offset : Nat) :
    (f.spanned offset).leaves = f.leaves := by
  induction f generalizing offset with
  | nil => rfl
  | leaf t next ih => rw [spanned, leaves, ih, leaves]
  | node shape inside next ihi ihn => rw [spanned, leaves, ihi, ihn, leaves]

theorem faulty_spanned (f : Forest Shape Token) (offset : Nat) :
    (f.spanned offset).faulty = f.faulty := by
  have hlabels : (f.spanned offset).labels.map Prod.fst = f.labels := by
    induction f generalizing offset with
    | nil => rfl
    | leaf t next ih => exact ih _
    | node a inside next ihi ihn => simp [spanned, labels, ihi, ihn]
  rw [faulty, faulty, ← hlabels, List.any_map]
  rfl

theorem spanned_prune (f : Forest Shape Token) (room offset : Nat) :
    (f.prune room).spanned offset = (f.spanned offset).prune room := by
  induction f generalizing room offset with
  | nil => rfl
  | leaf t next ih => rw [prune, spanned, ih, spanned, prune]
  | node a inside next ihi ihn =>
    have hshape (span : Span) : (shape (a, span)).kind = (shape a).kind := rfl
    rw [spanned, prune, prune, hshape]
    split
    · rw [spanned, leaves_prune, ihi, ihn, ← ihi, faulty_spanned]
      rfl
    · rw [spanned, leaves_ofTokens, spanned_ofTokens, ihn, leaves_spanned]
      rfl

theorem laid_prune (f : Forest Shape Token) (room : Nat) (h : f.Each Shape.Laid) :
    (f.prune room).Each Shape.Laid := by
  induction f generalizing room with
  | nil => trivial
  | leaf t next ih => exact ih room h
  | node a inside next ihi ihn =>
    rw [prune]
    split
    · rename_i within _
      refine ⟨?_, ihi within h.2.1, ihn room h.2.2⟩
      cases a with
      | construct kind complete =>
        show (inside.prune within).leaves ≠ []
        rw [leaves_prune]
        exact h.1
      | skipped fault =>
        have hinside : inside = .ofTokens inside.leaves := h.1
        show inside.prune within = .ofTokens (inside.prune within).leaves
        rw [leaves_prune, hinside, prune_ofTokens, leaves_ofTokens]
    · exact ⟨by simp [reshape, Shape.Laid], each_ofTokens _ _, ihn room h.2.2⟩

end Forest

def treeOf (parse : List Lexeme → Row) (source : String) : Node :=
  let all := lexemes source
  let located := locate (attachAll (parse (significant all)) all) 0 1
  ⟨⟨0, .construct .schemaFile true, 0, located.stop⟩, located.row⟩

def treeUnbounded : String → Node := treeOf parseUnbounded

theorem mark_treeOf (parse : List Lexeme → Row) (source : String)
    (h : (parse (significant (lexemes source))).leaves = significant (lexemes source)) :
    (treeOf parse source).mark =
      ⟨0, .construct .schemaFile true, 0, source.utf8ByteSize⟩ := by
  have hstop := (leaves_locate (attachAll (parse (significant (lexemes source)))
    (lexemes source)) 0 1).2
  rw [leaves_attachAll _ _ h.symm, totalSize_lexemes, Nat.zero_add] at hstop
  rw [treeOf, hstop]

theorem leaves_parseUnbounded (s : List Lexeme) : (parseUnbounded s).leaves = s := by
  rw [parseUnbounded_eq]
  exact leaves_parseWith _ _

/-- With `room` levels of nesting a text has the pruned tree. -/
theorem layout_treeOf_parseWith (room : Nat) (source : String)
    (h : Faultless (parseUnbounded (significant (lexemes source)))) :
    (treeOf (parseWith room) source).inside.layout =
      (treeUnbounded source).inside.layout.prune room := by
  obtain ⟨row, hrow, hleaves, hlaid⟩ :=
    exists_laid (significant (lexemes source)).length (lexemes source)
  rw [← parseUnbounded_eq] at hrow
  have hpruned : (row.prune room).mapLeaves Token.lexeme =
      parseWith room (significant (lexemes source)) := by
    rw [Forest.mapLeaves_prune, hrow, parseWith_eq_prune room _ h]
  have hbounded : (treeOf (parseWith room) source).inside.layout = (row.prune room).spanned 0 := by
    have := layout_attachAll (row.prune room) (Forest.laid_prune row room hlaid) (lexemes source)
      (by rw [Forest.leaves_prune, hleaves])
    rwa [hpruned] at this
  have hunbounded : (treeUnbounded source).inside.layout = row.spanned 0 := by
    have := layout_attachAll row hlaid (lexemes source) hleaves
    rwa [hrow] at this
  rw [hbounded, hunbounded, Forest.spanned_prune]

example :
    ((treeOf (parseWith 1) "[P([[1]], 2)]").inside.layout.labels =
      [(.construct .tag true, ⟨0, 13⟩), (.construct .typeRef true, ⟨1, 2⟩),
        (.construct .arguments false, ⟨2, 12⟩), (.construct .list false, ⟨3, 8⟩),
        (.skipped .tooDeep, ⟨4, 7⟩), (.construct .intValue true, ⟨10, 11⟩)]) := by
  decide +kernel

theorem faultless_treeUnbounded_iff (source : String) :
    (∀ n ∈ (treeUnbounded source).descendants, n.fault? = none) ↔
      Faultless (parseUnbounded (significant (lexemes source))) := by
  have hlabels := shapes_locate (attachAll (parseUnbounded (significant (lexemes source)))
    (lexemes source)) 0 1
  rw [attachAll, Forest.labels_append, labels_attach, Forest.labels_ofTokens,
    List.append_nil] at hlabels
  rw [Faultless, Forest.each_iff_labels, ← hlabels, List.forall_mem_map, Node.descendants,
    List.forall_mem_cons]
  exact and_iff_right rfl

/-! ## One construction more than there is room for -/

theorem faultless_callsRow (n : Nat) : Faultless (callsRow n) := by
  induction n with
  | zero => exact ⟨rfl, trivial, trivial⟩
  | succ n ih =>
    exact ⟨rfl, ⟨rfl, trivial, ⟨rfl, faultless_append.mpr ⟨ih, trivial⟩, trivial⟩⟩, trivial⟩

theorem faultless_tagRow (n : Nat) : Faultless (tagRow n) :=
  ⟨rfl, ⟨rfl, trivial, ⟨rfl, faultless_append.mpr ⟨faultless_callsRow n, trivial⟩, trivial⟩⟩,
    trivial⟩

theorem parseUnbounded_tagOver (n : Nat) : parseUnbounded (tagOver n) = tagRow n := by
  have hcalls : n ≤ (calls n).length := by
    induction n with
    | zero => exact Nat.zero_le _
    | succ n ih =>
      rw [calls, List.length_cons, List.length_cons, List.length_append]
      omega
  have hlength : (tagOver n).length = n + ((tagOver n).length - n) := by
    rw [tagOver, List.length_cons, List.length_cons, List.length_cons, List.length_append]
    omega
  rw [parseUnbounded_eq, hlength, parseWith_tagOver]

def faultsWithin (room : Nat) (row : Row) : List Fault :=
  (row.prune room).labels.filterMap Shape.fault?

section

variable (room : Nat)

theorem faultsWithin_leaf (t : Lexeme) (next : Row) :
    faultsWithin room (.leaf t next) = faultsWithin room next := rfl

theorem faultsWithin_append (f g : Row) :
    faultsWithin room (f ++ g) = faultsWithin room f ++ faultsWithin room g := by
  rw [faultsWithin, Forest.prune_append, Forest.labels_append, List.filterMap_append]
  rfl

/-- A construct for which there is room has the faults inside it. -/
theorem faultsWithin_node {kind : NodeKind} {within : Nat}
    (hroom : kind.roomInside? room = some within) (complete : Bool) (inside next : Row) :
    faultsWithin room (.node (.construct kind complete) inside next) =
      faultsWithin within inside ++ faultsWithin room next := by
  have hinside : (Shaped.shape (Shape.construct kind complete)).kind.roomInside? room =
    some within := hroom
  rw [faultsWithin, Forest.prune, hinside]
  exact List.filterMap_append

theorem faultsWithin_callsRow : faultsWithin room (callsRow (room + 1)) = [.tooDeep] := by
  induction room with
  | zero => rfl
  | succ room ih =>
    have hconstruction : NodeKind.construction.roomInside? (room + 1) = some room := rfl
    rw [callsRow, faultsWithin_node _ hconstruction,
      faultsWithin_node _ (roomInside?_of_not_nests rfl room),
      faultsWithin_node _ (roomInside?_of_not_nests rfl room), faultsWithin_leaf, faultsWithin_leaf,
      faultsWithin_append, ih]
    rfl

theorem faultsWithin_tagRow : faultsWithin room (tagRow (room + 1)) = [.tooDeep] := by
  rw [tagRow, faultsWithin_node _ (roomInside?_of_not_nests rfl room), faultsWithin_leaf,
    faultsWithin_node _ (roomInside?_of_not_nests rfl room),
    faultsWithin_node _ (roomInside?_of_not_nests rfl room), faultsWithin_leaf, faultsWithin_leaf,
    faultsWithin_append, faultsWithin_callsRow]
  rfl

end

namespace SchemaFile

/-- If a text reads without faults when nesting is not bounded, then its tree
is that one with all that nests too deeply cut out. -/
theorem layout_eq_prune (file : SchemaFile)
    (h : ∀ n ∈ (treeUnbounded file.source).descendants, n.fault? = none) :
    file.root.mark = (treeUnbounded file.source).mark ∧
      file.layout = (treeUnbounded file.source).inside.layout.prune Parse.maxNesting := by
  have hroot : file.root = treeOf parseRow file.source := file.root_eq
  constructor
  · rw [hroot, treeUnbounded, mark_treeOf parseRow _ (leaves_parseWith _ _),
      mark_treeOf _ _ (leaves_parseUnbounded _)]
  · rw [layout, hroot]
    exact layout_treeOf_parseWith _ _ ((faultless_treeUnbounded_iff _).mp h)

/-- A tag over one construction more than there is room for. -/
theorem layout_eq_prune_of_calls_too_deep :
    let file := read (.unsaved 0) (String.ofList (characters (tagOver (Parse.maxNesting + 1))))
    (∀ n ∈ (treeUnbounded file.source).descendants, n.fault? = none) ∧
      file.root.mark = (treeUnbounded file.source).mark ∧
      file.layout = (treeUnbounded file.source).inside.layout.prune Parse.maxNesting ∧
      file.faults.map Prod.snd = [.tooDeep] := by
  intro file
  have hlexemes : significant (lexemes file.source) = tagOver (Parse.maxNesting + 1) := by
    show significant (lexemes (String.ofList _)) = _
    rw [lexemes_tagOver, significant_tagOver]
  have hunbounded := parseUnbounded_tagOver (Parse.maxNesting + 1)
  have hfaultless : ∀ n ∈ (treeUnbounded file.source).descendants, n.fault? = none := by
    rw [faultless_treeUnbounded_iff, hlexemes, hunbounded]
    exact faultless_tagRow _
  have hfaults : file.faults.map Prod.snd = [.tooDeep] := by
    have hshapes := congrArg (List.filterMap Shape.fault?) file.shapes_nodes
    rw [List.filterMap_map, hlexemes, parseRow,
      parseWith_eq_prune _ _ (hunbounded ▸ faultless_tagRow _), hunbounded,
      List.filterMap_cons_none rfl, ← faultsWithin, faultsWithin_tagRow] at hshapes
    rw [faults, List.map_filterMap, ← hshapes]
    refine List.filterMap_congr fun n _ => ?_
    rw [Option.map_map]
    exact Option.map_id'
  exact ⟨hfaultless, (layout_eq_prune file hfaultless).1, (layout_eq_prune file hfaultless).2,
    hfaults⟩

end SchemaFile

end SchemaLang
