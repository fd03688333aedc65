import Mathlib.Data.List.TakeWhile
import SchemaLang.Proofs.Filled
import SchemaLang.Syntax.Node

/-!
# What placing a row keeps

Blanks and comments that join a row lose no lexeme and change nothing about
the significant ones. Every construct ends up snug: it begins and ends with a
significant lexeme, so only a node of skipped lexemes can have blanks or
comments in front. A node of the placed row covers the bytes of the lexemes
it holds, less such blanks.
-/

set_option autoImplicit false

namespace SchemaLang

theorem leadingTrivia_append_afterTrivia (ls : List Lexeme) :
    leadingTrivia ls ++ afterTrivia ls = ls := List.takeWhile_append_dropWhile

theorem isTrivia_of_mem_leadingTrivia {ls : List Lexeme} {l : Lexeme}
    (h : l ∈ leadingTrivia ls) : l.isTrivia = true := List.mem_takeWhile_imp h

theorem significant_append (ls ms : List Lexeme) :
    significant (ls ++ ms) = significant ls ++ significant ms := List.filter_append ls ms

theorem significant_leadingTrivia (ls : List Lexeme) : significant (leadingTrivia ls) = [] := by
  rw [significant, List.filter_eq_nil_iff]
  intro l hl
  simp [isTrivia_of_mem_leadingTrivia hl]

theorem significant_afterTrivia (ls : List Lexeme) :
    significant (afterTrivia ls) = significant ls := by
  have h := congrArg significant (leadingTrivia_append_afterTrivia ls)
  rwa [significant_append, significant_leadingTrivia, List.nil_append] at h

theorem isTrivia_head_afterTrivia (ls : List Lexeme) {l : Lexeme}
    (h : (afterTrivia ls).head? = some l) : l.isTrivia = false := by
  have hn := List.head?_dropWhile_not Lexeme.isTrivia ls
  rw [show List.dropWhile Lexeme.isTrivia ls = afterTrivia ls from rfl, h] at hn
  simpa using hn

/-- The first significant lexeme stands right behind the leading trivia. -/
theorem afterTrivia_eq_cons {ls ms : List Lexeme} {l : Lexeme} (h : significant ls = l :: ms) :
    afterTrivia ls = l :: (afterTrivia ls).tail ∧ significant (afterTrivia ls).tail = ms := by
  rw [← significant_afterTrivia] at h
  cases ha : afterTrivia ls with
  | nil => simp [ha, significant] at h
  | cons m rest =>
    have hm : m.isTrivia = false := isTrivia_head_afterTrivia ls (by rw [ha]; rfl)
    rw [ha, significant, List.filter_cons_of_pos (by simp [hm])] at h
    obtain ⟨rfl, hrest⟩ := List.cons.inj h
    exact ⟨rfl, hrest⟩

theorem attach_keeps (row : Row) (all later : List Lexeme)
    (h : significant all = row.leaves ++ later) :
    (attach row all).1.leaves ++ (attach row all).2 = all ∧
      significant (attach row all).2 = later := by
  induction row generalizing all later with
  | nil => exact ⟨rfl, h⟩
  | leaf t next ih =>
    obtain ⟨hcons, htail⟩ := afterTrivia_eq_cons h
    obtain ⟨hl, hs⟩ := ih _ _ htail
    refine ⟨?_, hs⟩
    simp only [attach, Forest.leaves_append, Forest.leaves_ofTokens, Forest.leaves,
      List.append_assoc, List.cons_append, hl]
    rw [← hcons, leadingTrivia_append_afterTrivia]
  | node shape inside next ihi ihn =>
    rw [Forest.leaves, List.append_assoc] at h
    cases shape with
    | construct kind complete =>
      obtain ⟨hil, his⟩ := ihi _ _ ((significant_afterTrivia all).trans h)
      obtain ⟨hnl, hns⟩ := ihn _ _ his
      refine ⟨?_, hns⟩
      simp only [attach, Forest.leaves_append, Forest.leaves_ofTokens, Forest.leaves,
        List.append_assoc, hnl, hil, leadingTrivia_append_afterTrivia]
    | skipped fault =>
      obtain ⟨hil, his⟩ := ihi _ _ h
      obtain ⟨hnl, hns⟩ := ihn _ _ his
      refine ⟨?_, hns⟩
      simp only [attach, Forest.leaves, List.append_assoc, hnl, hil]

theorem significant_attach (row : Row) (all later : List Lexeme)
    (h : significant all = row.leaves ++ later) :
    significant (attach row all).1.leaves = row.leaves := by
  obtain ⟨hl, hs⟩ := attach_keeps row all later h
  have he := congrArg significant hl
  rw [significant_append, hs, h] at he
  exact List.append_cancel_right he

theorem leaves_attachAll (row : Row) (all : List Lexeme) (h : significant all = row.leaves) :
    (attachAll row all).leaves = all := by
  have hl := (attach_keeps row all [] (by rw [h, List.append_nil])).1
  simpa [attachAll] using hl

/-! ## Nodes keep their places -/

/-- Every node of the placed row stands in the parsed row, behind the same
significant lexemes. -/
def Mirrors (row placed : Row) : Prop :=
  ∀ before shape inside after, placed.At before shape inside after →
    ∃ inside' after', row.At (significant before) shape inside' after' ∧
      inside'.leaves = significant inside.leaves

theorem Mirrors.behind_trivia {row placed : Row} {ls : List Lexeme} (h : Mirrors row placed)
    (hls : significant ls = []) : Mirrors row (.ofTokens ls ++ placed) := by
  intro before shape inside after hat
  rcases hat.of_append with ⟨_, hat', -⟩ | ⟨before', hat', rfl⟩
  · exact absurd hat' Forest.not_at_ofTokens
  · rw [Forest.leaves_ofTokens, significant_append, hls, List.nil_append]
    exact h _ _ _ _ hat'

theorem mirrors_leaf {t : Lexeme} {next placed : Row} (ht : t.isTrivia = false)
    (h : Mirrors next placed) : Mirrors (.leaf t next) (.leaf t placed) := by
  intro before shape inside after hat
  cases hat with
  | @behindLeaf _ _ before _ _ _ hat =>
    obtain ⟨inside', after', hat', hl⟩ := h _ _ _ _ hat
    have hsig : significant (t :: before) = t :: significant before :=
      List.filter_cons_of_pos (by simp [ht])
    exact ⟨inside', after', hsig ▸ .behindLeaf t hat', hl⟩

theorem mirrors_node {shape : Shape} {inside held next placed : Row}
    (hl : significant held.leaves = inside.leaves) (hheld : Mirrors inside held)
    (hnext : Mirrors next placed) :
    Mirrors (.node shape inside next) (.node shape held placed) := by
  intro before shape' inside' after hat
  cases hat with
  | here => exact ⟨inside, next.leaves, .here shape inside next, hl.symm⟩
  | within _ _ hat =>
    obtain ⟨inside'', after', hat', hl'⟩ := hheld _ _ _ _ hat
    exact ⟨inside'', _, .within shape next hat', hl'⟩
  | @behindNode _ _ before _ _ _ _ hat =>
    obtain ⟨inside'', after', hat', hl'⟩ := hnext _ _ _ _ hat
    rw [significant_append, hl]
    exact ⟨inside'', after', .behindNode shape inside hat', hl'⟩

theorem mirrors_attach (row : Row) (all later : List Lexeme)
    (h : significant all = row.leaves ++ later) : Mirrors row (attach row all).1 := by
  induction row generalizing all later with
  | nil =>
    intro _ _ _ _ hat
    cases hat
  | leaf t next ih =>
    obtain ⟨hcons, htail⟩ := afterTrivia_eq_cons h
    have ht : t.isTrivia = false := isTrivia_head_afterTrivia all (by rw [hcons]; rfl)
    exact (mirrors_leaf ht (ih _ _ htail)).behind_trivia (significant_leadingTrivia all)
  | node shape inside next ihi ihn =>
    rw [Forest.leaves, List.append_assoc] at h
    cases shape with
    | construct kind complete =>
      have ha := (significant_afterTrivia all).trans h
      exact (mirrors_node (significant_attach inside _ _ ha) (ihi _ _ ha)
        (ihn _ _ (attach_keeps inside _ _ ha).2)).behind_trivia (significant_leadingTrivia all)
    | skipped fault =>
      exact mirrors_node (significant_attach inside _ _ h) (ihi _ _ h)
        (ihn _ _ (attach_keeps inside _ _ h).2)

/-! ## Constructs end up snug -/

def Shape.Snug : Shape → Row → Prop
  | .construct _ _, inside =>
    (∃ t, inside.leaves.head? = some t ∧ t.isTrivia = false) ∧
      ∃ t, inside.leaves.getLast? = some t ∧ t.isTrivia = false
  | .skipped _, _ => True

def EndsSignificant (ls : List Lexeme) : Prop := ∀ t, ls.getLast? = some t → t.isTrivia = false

theorem endsSignificant_append {ls ms : List Lexeme} (hm : EndsSignificant ms)
    (hl : ms = [] → EndsSignificant ls) : EndsSignificant (ls ++ ms) := by
  intro t ht
  rw [List.getLast?_append] at ht
  cases h : ms.getLast? with
  | none =>
    rw [h] at ht
    exact hl (List.getLast?_eq_none_iff.mp h) t ht
  | some u =>
    rw [h] at ht
    exact hm t (h.trans ht)

theorem leaves_attach_ne_nil {row : Row} {all later : List Lexeme}
    (h : significant all = row.leaves ++ later) (hne : row.leaves ≠ []) :
    (attach row all).1.leaves ≠ [] := by
  intro hnil
  have hs := significant_attach row all later h
  rw [hnil] at hs
  exact hne hs.symm

theorem endsSignificant_attach (row : Row) (all later : List Lexeme)
    (hf : row.Each Shape.Filled) (h : significant all = row.leaves ++ later) :
    EndsSignificant (attach row all).1.leaves := by
  induction row generalizing all later with
  | nil => exact fun t ht => by simp [attach] at ht
  | leaf t next ih =>
    obtain ⟨hcons, htail⟩ := afterTrivia_eq_cons h
    have ht : t.isTrivia = false := isTrivia_head_afterTrivia all (by rw [hcons]; rfl)
    simp only [attach, Forest.leaves_append, Forest.leaves_ofTokens, Forest.leaves]
    rw [List.append_cons]
    apply endsSignificant_append (ih _ _ hf htail)
    intro _ u hu
    rw [List.getLast?_append, List.getLast?_singleton] at hu
    obtain rfl := Option.some.inj hu
    exact ht
  | node shape inside next ihi ihn =>
    rw [Forest.leaves, List.append_assoc] at h
    cases shape with
    | construct kind complete =>
      have ha := (significant_afterTrivia all).trans h
      have hne := leaves_attach_ne_nil ha hf.1
      simp only [attach, Forest.leaves_append, Forest.leaves_ofTokens, Forest.leaves]
      refine endsSignificant_append ?_ fun hnil => absurd (List.append_eq_nil_iff.mp hnil).1 hne
      exact endsSignificant_append (ihn _ _ hf.2.2 (attach_keeps inside _ _ ha).2)
        fun _ => ihi _ _ hf.2.1 ha
    | skipped fault =>
      simp only [attach, Forest.leaves]
      exact endsSignificant_append (ihn _ _ hf.2.2 (attach_keeps inside _ _ h).2)
        fun _ => ihi _ _ hf.2.1 h

/-- What is read right behind the leading trivia begins and ends significantly. -/
theorem snug_attach_afterTrivia (row : Row) (all later : List Lexeme)
    (hf : row.Each Shape.Filled) (h : significant all = row.leaves ++ later)
    (hne : row.leaves ≠ []) (kind : NodeKind) (complete : Bool) :
    Shape.Snug (.construct kind complete) (attach row (afterTrivia all)).1 := by
  have ha := (significant_afterTrivia all).trans h
  have hl := leaves_attach_ne_nil ha hne
  constructor
  · obtain ⟨t, ts, hts⟩ := List.exists_cons_of_ne_nil hl
    have hk := (attach_keeps row _ _ ha).1
    rw [hts] at hk
    exact ⟨t, by rw [hts]; rfl, isTrivia_head_afterTrivia all (by rw [← hk]; rfl)⟩
  · obtain ⟨t, ht⟩ := Option.ne_none_iff_exists'.mp (mt List.getLast?_eq_none_iff.mp hl)
    exact ⟨t, ht, endsSignificant_attach row _ _ hf ha t ht⟩

theorem snug_attach (row : Row) (all later : List Lexeme) (hf : row.Each Shape.Filled)
    (h : significant all = row.leaves ++ later) : (attach row all).1.Each Shape.Snug := by
  induction row generalizing all later with
  | nil => trivial
  | leaf t next ih =>
    have htail := (afterTrivia_eq_cons h).2
    exact (Forest.each_append _ _ _).mpr ⟨Forest.each_ofTokens _ _, ih _ _ hf htail⟩
  | node shape inside next ihi ihn =>
    rw [Forest.leaves, List.append_assoc] at h
    cases shape with
    | construct kind complete =>
      have ha := (significant_afterTrivia all).trans h
      exact (Forest.each_append _ _ _).mpr ⟨Forest.each_ofTokens _ _,
        snug_attach_afterTrivia inside all _ hf.2.1 h hf.1 kind complete,
        ihi _ _ hf.2.1 ha, ihn _ _ hf.2.2 (attach_keeps inside _ _ ha).2⟩
    | skipped fault =>
      exact ⟨trivial, ihi _ _ hf.2.1 h, ihn _ _ hf.2.2 (attach_keeps inside _ _ h).2⟩

/-! ## Bytes that a node covers -/

theorem leadingSize_eq_zero {row : Row} {t : Lexeme} (h : row.leaves.head? = some t)
    (ht : t.isTrivia = false) : leadingSize row = 0 := by
  cases row with
  | nil => rfl
  | leaf u next =>
    obtain rfl := Option.some.inj h
    simp [leadingSize, ht]
  | node shape inside next => rfl

/-- The blanks and comments in front are a piece of the row. -/
theorem exists_leading (row : Row) :
    ∃ lead others, row.leaves = lead ++ others ∧ (∀ l ∈ lead, l.isTrivia = true) ∧
      totalSize lead = leadingSize row := by
  induction row with
  | nil => exact ⟨[], [], rfl, by simp, rfl⟩
  | leaf t next ih =>
    cases ht : t.isTrivia with
    | false => exact ⟨[], t :: next.leaves, rfl, by simp, by simp [leadingSize, ht, totalSize]⟩
    | true =>
      obtain ⟨lead, others, hl, htrivia, hsize⟩ := ih
      refine ⟨t :: lead, others, by simp [Forest.leaves, hl], ?_, ?_⟩
      · simpa [ht] using htrivia
      · simp [leadingSize, ht, totalSize, hsize]
  | node shape inside next => exact ⟨[], _, rfl, by simp, rfl⟩

/-- A node of the located row is a node of the row, and its range is that of
the lexemes it holds, less the blanks and comments in front. -/
theorem exists_at_of_mem_preorder (row : Row) (offset id : Nat) (n : Node)
    (h : n ∈ (locate row offset id).row.preorder) :
    ∃ before inside after, row.At before n.mark.shape inside after ∧
      n.inside = (locate inside (offset + totalSize before) (n.id + 1)).row ∧
      n.span = ⟨offset + totalSize before + leadingSize inside,
        offset + totalSize before + totalSize inside.leaves⟩ := by
  induction row generalizing offset id with
  | nil => simp [locate, Forest.preorder] at h
  | leaf t next ih =>
    obtain ⟨before, inside, after, hat, hin, hspan⟩ := ih _ _ h
    refine ⟨t :: before, inside, after, .behindLeaf t hat, ?_, ?_⟩
    · rw [hin, totalSize, Nat.add_assoc]
    · simp only [hspan, totalSize, Nat.add_assoc]
  | node shape held next ihh ihn =>
    have hstop := (leaves_locate held offset (id + 1)).2
    rcases List.mem_cons.mp h with rfl | hrest
    · exact ⟨[], held, next.leaves, .here shape held next, rfl, by
        simp [Node.span, hstop, totalSize]⟩
    rcases List.mem_append.mp hrest with hheld | hnext
    · obtain ⟨before, inside, after, hat, hin, hspan⟩ := ihh _ _ hheld
      exact ⟨before, inside, _, .within shape next hat, hin, hspan⟩
    · obtain ⟨before, inside, after, hat, hin, hspan⟩ := ihn _ _ hnext
      refine ⟨held.leaves ++ before, inside, after, .behindNode shape held hat, ?_, ?_⟩
      · rw [hin, hstop, totalSize_append, Nat.add_assoc]
      · simp only [hspan, hstop, totalSize_append, Nat.add_assoc]

end SchemaLang
