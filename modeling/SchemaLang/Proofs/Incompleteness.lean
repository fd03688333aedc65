import SchemaLang.Proofs.Acceptance
import SchemaLang.Proofs.Lookahead
import SchemaLang.Proofs.Numbering
import SchemaLang.Proofs.Verdicts

/-!
# Incomplete constructs tell the truth

A construct is incomplete only next to a fault: skipped lexemes follow it at
once or stand somewhere inside it. Argument lists, lists, maps, their entries
and named arguments are also incomplete whenever there is such a fault. So it
is in the parsed row, and blanks and comments do not come between: those in
front of skipped lexemes stand with them.
-/

set_option autoImplicit false

namespace SchemaLang

/-! ## Places in a tree -/

namespace Forest

/-- Every node of a row, each before those inside it, with the elements that
follow it in the row where it stands. -/
def prospects : Forest Mark Token → List (Node × Forest Mark Token)
  | nil => []
  | leaf _ next => next.prospects
  | node mark inside next => (⟨mark, inside⟩, next) :: (inside.prospects ++ next.prospects)

theorem map_fst_prospects (f : Forest Mark Token) : f.prospects.map Prod.fst = f.preorder := by
  induction f with
  | nil => rfl
  | leaf t next ih => exact ih
  | node mark inside next ihi ihn => simp [prospects, preorder, ihi, ihn]

def startsFault : Forest Mark Token → Bool
  | node mark _ _ => mark.shape.isFault
  | _ => false

end Forest

def Node.holdsFault (n : Node) : Bool := n.inside.preorder.any (·.kind == .error)

def Shape.Barren (shape : Shape) (inside : Row) : Prop :=
  shape.isFault = true → inside.labels = []

theorem Honest.barren {row : Row} (h : Honest row false) (hflat : row.Each Shape.Flat) :
    row.Each Shape.Barren := by
  induction row with
  | nil => trivial
  | leaf t next ih => exact ih h hflat
  | node shape inside next ihi ihn =>
    refine ⟨fun hfault => ?_, ihi h.2.1 hflat.2.1, ihn h.2.2 hflat.2.2⟩
    cases shape with
    | construct kind complete => cases h.1.fault hfault
    | skipped fault =>
      rw [show inside = .ofTokens inside.leaves from hflat.1, Forest.labels_ofTokens]

/-! ## Placing a row -/

/-- Blanks and comments stand in front of skipped lexemes with them, so a fault follows at once. -/
theorem faultNext_attach {row : Row} (h : Honest row false) (all : List Lexeme) :
    faultNext (attach row all).1 false = faultNext row false := by
  cases row with
  | nil => rfl
  | leaf t next =>
    rw [attach, faultNext_append]
    cases leadingTrivia all <;> rfl
  | node shape inside next =>
    cases shape with
    | construct kind complete =>
      have hfault : (Shape.construct kind complete).isFault = false := by
        cases hkind : (Shape.construct kind complete).isFault with
        | false => rfl
        | true => cases h.1.fault hkind
      rw [attach, faultNext_append]
      cases leadingTrivia all with
      | nil => rfl
      | cons l ls => exact hfault.symm
    | skipped fault => rfl

theorem faulty_attach (row : Row) (all : List Lexeme) :
    Faulty (attach row all).1 = Faulty row := by
  rw [Faulty, labels_attach, Faulty]

theorem honest_attach {row : Row} (h : Honest row false) (all : List Lexeme) :
    Honest (attach row all).1 false := by
  have hlead (ls : List Lexeme) {placed : Row} (hplaced : Honest placed false) :
      Honest (.ofTokens ls ++ placed) false :=
    (honest_append _ _ _).mpr ⟨honest_ofTokens _ _, hplaced⟩
  induction row generalizing all with
  | nil => trivial
  | leaf t next ih => exact hlead _ (ih h _)
  | node shape inside next ihi ihn =>
    have hnode (here behind : List Lexeme) :
        shape.Tells (Faulty (attach inside here).1) (faultNext (attach next behind).1 false) := by
      rw [faulty_attach, faultNext_attach h.2.2]
      exact h.1
    cases shape with
    | construct kind complete => exact hlead _ ⟨hnode _ _, ihi h.2.1 _, ihn h.2.2 _⟩
    | skipped fault => exact ⟨hnode _ _, ihi h.2.1 _, ihn h.2.2 _⟩

theorem barren_attach {row : Row} (h : row.Each Shape.Barren) (all : List Lexeme) :
    (attach row all).1.Each Shape.Barren := by
  have hlead (ls : List Lexeme) {placed : Row} (hplaced : placed.Each Shape.Barren) :
      (.ofTokens ls ++ placed : Row).Each Shape.Barren :=
    (Forest.each_append _ _ _).mpr ⟨Forest.each_ofTokens _ _, hplaced⟩
  induction row generalizing all with
  | nil => trivial
  | leaf t next ih => exact hlead _ (ih h _)
  | node shape inside next ihi ihn =>
    have hnode (here : List Lexeme) : shape.Barren (attach inside here).1 := fun hfault => by
      rw [labels_attach, h.1 hfault]
    cases shape with
    | construct kind complete => exact hlead _ ⟨hnode _, ihi h.2.1 _, ihn h.2.2 _⟩
    | skipped fault => exact ⟨hnode _, ihi h.2.1 _, ihn h.2.2 _⟩

theorem startsFault_locate (row : Row) (offset id : Nat) :
    (locate row offset id).row.startsFault = faultNext row false := by
  cases row <;> rfl

theorem faulty_locate (row : Row) (offset id : Nat) :
    (locate row offset id).row.preorder.any (·.kind == .error) = Faulty row := by
  rw [Faulty, ← shapes_locate row offset id, List.any_map]
  rfl

theorem preorder_locate_of_labels {row : Row} (h : row.labels = []) (offset id : Nat) :
    (locate row offset id).row.preorder = [] := by
  rw [← shapes_locate row offset id, List.map_eq_nil_iff] at h
  exact h

theorem tells_of_mem_prospects {row : Row} {offset id : Nat} (h : Honest row false)
    {p : Node × Forest Mark Token} (hp : p ∈ (locate row offset id).row.prospects) :
    p.1.mark.shape.Tells p.1.holdsFault p.2.startsFault := by
  induction row generalizing offset id with
  | nil => simp [locate, Forest.prospects] at hp
  | leaf t next ih => exact ih h hp
  | node shape inside next ihi ihn =>
    rcases List.mem_cons.mp hp with rfl | hp
    · rw [Node.holdsFault, faulty_locate, startsFault_locate]
      exact h.1
    · rcases List.mem_append.mp hp with hp | hp
      · exact ihi h.2.1 hp
      · exact ihn h.2.2 hp

theorem children_of_mem_preorder {row : Row} {offset id : Nat} (h : row.Each Shape.Barren)
    {n : Node} (hn : n ∈ (locate row offset id).row.preorder) (hkind : n.kind = .error) :
    n.children = [] := by
  induction row generalizing offset id with
  | nil => simp [locate, Forest.preorder] at hn
  | leaf t next ih => exact ih h hn
  | node shape inside next ihi ihn =>
    rcases List.mem_cons.mp hn with rfl | hn
    · have hsub := Forest.nodes_sublist_preorder (locate inside offset (id + 1)).row
      rw [preorder_locate_of_labels (h.1 (beq_of_eq hkind))] at hsub
      exact List.sublist_nil.mp hsub
    · rcases List.mem_append.mp hn with hn | hn
      · exact ihi h.2.1 hn
      · exact ihn h.2.2 hn

theorem span_of_mem_preorder_locate {row : Row} {offset id : Nat} {n : Node}
    (h : n ∈ (locate row offset id).row.preorder) :
    offset ≤ n.span.start ∧ n.span.stop ≤ offset + totalSize row.leaves := by
  induction row generalizing offset id with
  | nil => simp [locate, Forest.preorder] at h
  | leaf t next ih =>
    have := ih h
    rw [Forest.leaves, totalSize]
    omega
  | node shape inside next ihi ihn =>
    have hheld := (leaves_locate inside offset (id + 1)).2
    rw [Forest.leaves, totalSize_append]
    rcases List.mem_cons.mp h with rfl | h
    · simp only [Node.span, hheld]
      omega
    · rcases List.mem_append.mp h with h | h
      · have := ihi h
        omega
      · have := ihn h
        omega

/-- Faults stand side by side, as none holds another one. -/
theorem pairwise_faults_locate {row : Row} (h : row.Each Shape.Barren) (offset id : Nat) :
    ((locate row offset id).row.preorder.filter (·.kind == .error)).Pairwise
      (fun m n => m.span.stop ≤ n.span.start) := by
  induction row generalizing offset id with
  | nil => exact .nil
  | leaf t next ih => exact ih h _ _
  | node shape inside next ihi ihn =>
    have hheld := (leaves_locate inside offset (id + 1)).2
    have hnext := ihn h.2.2 (locate inside offset (id + 1)).stop
      (locate inside offset (id + 1)).nextId
    have hbehind {m n : Node} (hm : m.span.stop ≤ (locate inside offset (id + 1)).stop)
        (hn : n ∈ ((locate next (locate inside offset (id + 1)).stop
          (locate inside offset (id + 1)).nextId).row.preorder.filter (·.kind == .error))) :
        m.span.stop ≤ n.span.start :=
      hm.trans (span_of_mem_preorder_locate (List.mem_of_mem_filter hn)).1
    rw [locate, Forest.preorder, List.filter_cons]
    split
    · rename_i hfault
      rw [preorder_locate_of_labels (h.1 hfault), List.nil_append]
      exact .cons (fun n hn => hbehind le_rfl hn) hnext
    · rw [List.filter_append]
      refine List.pairwise_append.mpr ⟨ihi h.2.1 _ _, hnext, fun m hm n hn => ?_⟩
      have hm := (span_of_mem_preorder_locate (List.mem_of_mem_filter hm)).2
      exact hbehind (by rw [hheld]; exact hm) hn

namespace SchemaFile

variable (file : SchemaFile)

def prospects : List (Node × Forest Mark Token) := (file.root, .nil) :: file.root.inside.prospects

theorem map_fst_prospects : file.prospects.map Prod.fst = file.nodes := by
  rw [prospects, List.map_cons, Forest.map_fst_prospects, nodes, Node.descendants]

theorem honest_placedRow : Honest (placedRow file.source) false :=
  (honest_append _ _ _).mpr ⟨by
    rw [show faultNext (.ofTokens _) false = false by
      cases (attach (parseRow (significant (lexemes file.source))) (lexemes file.source)).2 <;> rfl]
    exact honest_attach (sturdy_parseWith _ _ false) _, honest_ofTokens _ _⟩

theorem barren_placedRow : (placedRow file.source).Each Shape.Barren :=
  (Forest.each_append _ _ _).mpr
    ⟨barren_attach ((sturdy_parseWith _ _ false).barren (flat_parseWith _ _)) _,
      Forest.each_ofTokens _ _⟩

theorem tells_of_mem_prospects (p : Node × Forest Mark Token) (hp : p ∈ file.prospects) :
    p.1.mark.shape.Tells p.1.holdsFault p.2.startsFault := by
  rcases List.mem_cons.mp hp with rfl | hp
  · rw [file.root_eq]
    exact tells_whole (by decide) rfl _ _
  · rw [inside_root] at hp
    exact SchemaLang.tells_of_mem_prospects file.honest_placedRow hp

/-- The faults of a file are its nodes of skipped lexemes. -/
theorem map_fst_faults : file.faults.map Prod.fst = file.nodes.filter (·.kind == .error) := by
  have hfault (n : Node) (hn : n ∈ file.nodes) : n.fault?.isSome = (n.kind == .error) := by
    rw [← file.map_fst_prospects] at hn
    obtain ⟨p, hp, rfl⟩ := List.mem_map.mp hn
    have htells := (file.tells_of_mem_prospects p hp).fault
    rw [Node.fault?, Node.kind]
    cases hshape : p.1.mark.shape with
    | skipped fault => rfl
    | construct kind complete =>
      rw [hshape] at htells
      cases hkind : kind == .error with
      | false => exact hkind.symm
      | true => cases htells hkind
  rw [faults, List.map_filterMap, ← List.filterMap_eq_filter]
  apply List.filterMap_congr
  intro n hn
  rw [Option.map_map, Option.guard, ← hfault n hn]
  cases n.fault? <;> rfl

theorem holdsFault_iff (n : Node) :
    n.holdsFault = true ↔ ∃ e ∈ n.inside.preorder, e.kind = .error := by
  simp [Node.holdsFault]

/-- Whatever a file holds: a construct around values is incomplete if and only
if there is a fault inside it or right behind it, any other construct only if
there is; and the faults are the nodes of skipped lexemes, which hold no other
nodes and stand one behind the other. -/
theorem incompleteness_tells_truth :
    (∀ p ∈ file.prospects, p.1.kind.holdsValues = true →
      (p.1.incomplete = true ↔
        (∃ e ∈ p.1.inside.preorder, e.kind = .error) ∨ p.2.startsFault = true)) ∧
    (∀ p ∈ file.prospects, p.1.incomplete = true →
      (∃ e ∈ p.1.inside.preorder, e.kind = .error) ∨ p.2.startsFault = true) ∧
    file.faults.map Prod.fst = file.nodes.filter (·.kind == .error) ∧
    file.faults.Pairwise (fun p q => p.1.span.stop ≤ q.1.span.start) ∧
    (∀ p ∈ file.faults, p.1.span.start ≤ p.1.span.stop) ∧
    ∀ n ∈ file.nodes, n.kind = .error → n.children = [] := by
  have hreason (p : Node × Forest Mark Token) (hp : p ∈ file.prospects)
      (h : p.1.incomplete = true) :
      (∃ e ∈ p.1.inside.preorder, e.kind = .error) ∨ p.2.startsFault = true := by
    rw [← holdsFault_iff]
    exact (file.tells_of_mem_prospects p hp).reason (by simpa [Node.incomplete] using h)
  have hrootKind : file.root.kind ≠ .error := by
    rw [file.root_eq]
    exact NodeKind.noConfusion
  refine ⟨fun p hp hvalues => ⟨hreason p hp, fun h => ?_⟩, hreason, file.map_fst_faults, ?_,
    fun p hp => ?_, fun n hn hkind => ?_⟩
  · rw [← holdsFault_iff] at h
    rw [Node.incomplete, (file.tells_of_mem_prospects p hp).values hvalues h]
    rfl
  · have hpairs := pairwise_faults_locate file.barren_placedRow 0 1
    rw [← inside_root] at hpairs
    have hroot : file.nodes.filter (·.kind == .error) =
        file.root.inside.preorder.filter (·.kind == .error) :=
      List.filter_cons_of_neg (by simpa using hrootKind)
    rw [← hroot, ← map_fst_faults] at hpairs
    exact List.pairwise_map.mp hpairs
  · have hmem : p.1 ∈ file.nodes.filter (·.kind == .error) :=
      file.map_fst_faults ▸ List.mem_map_of_mem hp
    exact (file.bounds_of_mem_nodes p.1 (List.mem_of_mem_filter hmem)).1
  · rcases List.mem_cons.mp hn with rfl | hn
    · exact absurd hkind hrootKind
    · rw [inside_root] at hn
      exact children_of_mem_preorder file.barren_placedRow hn hkind

end SchemaFile

end SchemaLang
