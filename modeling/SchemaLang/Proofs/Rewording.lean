import SchemaLang.Proofs.Ancestry
import SchemaLang.Proofs.Inhabitants

/-!
# Files in other words

A file may be written in other words, token by token, such that its lexemes are
the same but for their texts and are read as the same row but for these texts.
Then blanks and comments join the row at the same places and the nodes have the
same numbers, so the tree of the new file is the old one in other words.
-/

set_option autoImplicit false

namespace SchemaLang

namespace Forest

variable {α σ τ : Type}

/-- Rows with the same nodes over the same leaves are the same. -/
theorem eq_of_leaves_eq {p : σ → τ} {f g : Forest α σ} (h : f.mapLeaves p = g.mapLeaves p)
    (hleaves : f.leaves = g.leaves) : f = g := by
  induction f generalizing g with
  | nil =>
    cases g with
    | nil => rfl
    | leaf | node => cases h
  | leaf t next ih =>
    cases g with
    | nil | node => cases h
    | leaf u next' =>
      obtain ⟨rfl, hrest⟩ := List.cons.inj hleaves
      rw [ih (Forest.leaf.inj h).2 hrest]
  | node a inside next ihi ihn =>
    cases g with
    | nil | leaf => cases h
    | node b inside' next' =>
      obtain ⟨rfl, hinside, hnext⟩ := Forest.node.inj h
      have hlength := congrArg (fun f => f.leaves.length) hinside
      simp only [leaves_mapLeaves, List.length_map] at hlength
      obtain ⟨hi, hn⟩ := List.append_inj hleaves hlength
      rw [ihi hinside hi, ihn hnext hn]

theorem numbered_mapLeaves (p : σ → τ) (f : Forest α σ) (id : Nat) :
    (f.mapLeaves p).numbered id = (f.numbered id).mapLeaves p := by
  induction f generalizing id with
  | nil => rfl
  | leaf t next ih => simp only [mapLeaves, numbered, ih]
  | node a inside next ihi ihn => simp only [mapLeaves, numbered, ihi, ihn, nodeCount_mapLeaves]

theorem kinship_mapLeaves (p : σ → τ) (f : Forest (Nat × α) σ) (parent : Option Nat) :
    (f.mapLeaves p).kinship parent = f.kinship parent := by
  induction f generalizing parent with
  | nil => rfl
  | leaf t next ih => exact ih parent
  | node a inside next ihi ihn => rw [mapLeaves, kinship, kinship, ihi, ihn]

def worded (ρ : Token → Lexeme) : Forest Mark Token → Row
  | nil => nil
  | leaf t next => if t.isTrivia then next.worded ρ else leaf (ρ t) (next.worded ρ)
  | node mark inside next => node mark.shape (inside.worded ρ) (next.worded ρ)

def transcript (ρ : Token → Lexeme) (f : Forest Mark Token) : Forest (Nat × Shape) Lexeme :=
  (f.mapLabels fun mark => (mark.id, mark.shape)).mapLeaves ρ

theorem worded_lexeme (f : Forest Mark Token) :
    f.worded Token.lexeme = f.gist.mapLabels Prod.snd := by
  induction f with
  | nil => rfl
  | leaf t next ih =>
    rw [worded, gist]
    split
    · exact ih
    · exact congrArg _ ih
  | node mark inside next ihi ihn => rw [worded, gist, mapLabels, ihi, ihn]

theorem mapLeaves_worded (ρ : Token → Lexeme) (p : Lexeme → Lexeme) (f : Forest Mark Token) :
    (f.worded ρ).mapLeaves p = f.worded (p ∘ ρ) := by
  induction f with
  | nil => rfl
  | leaf t next ih =>
    rw [worded, worded]
    split
    · exact ih
    · exact congrArg _ ih
  | node mark inside next ihi ihn => rw [worded, worded, mapLeaves, ihi, ihn]

theorem leaves_worded (ρ : Token → Lexeme) (f : Forest Mark Token) :
    (f.worded ρ).leaves = (f.leaves.filter fun t => !t.isTrivia).map ρ := by
  induction f with
  | nil => rfl
  | leaf t next ih =>
    rw [worded, leaves, List.filter_cons]
    cases t.isTrivia with
    | true => exact ih
    | false => exact congrArg _ ih
  | node mark inside next ihi ihn => simp [worded, leaves, ihi, ihn]

theorem leaves_transcript (ρ : Token → Lexeme) (f : Forest Mark Token) :
    (f.transcript ρ).leaves = f.leaves.map ρ := by
  rw [transcript, leaves_mapLeaves, leaves_mapLabels]

theorem bare_transcript (ρ : Token → Lexeme) (f : Forest Mark Token) :
    (f.transcript ρ).bare = f.gist.bare := by
  rw [transcript]
  induction f with
  | nil => rfl
  | leaf t next ih =>
    rw [gist]
    split <;> exact ih
  | node mark inside next ihi ihn => rw [gist, mapLabels, mapLeaves, bare, bare, ihi, ihn]

theorem places_transcript (ρ : Token → Lexeme) (f : Forest Mark Token)
    (above : List ((Nat × Shape) × Forest (Nat × Shape) Lexeme)) :
    ((f.transcript ρ).places above).map Prod.fst =
      f.preorder.map fun n => ((n.id, n.mark.shape), n.inside.transcript ρ) := by
  simp only [transcript]
  induction f generalizing above with
  | nil => rfl
  | leaf t next ih => exact ih above
  | node mark inside next ihi ihn =>
    rw [mapLabels, mapLeaves, places, List.map_cons, List.map_append, ihi, ihn, preorder,
      List.map_cons, List.map_append]
    rfl

/-! ## Placing a row in other words -/

section Placing

variable {p : Lexeme → Lexeme} (hp : ∀ l, (p l).kind = l.kind)
include hp

theorem isTrivia_of_kind (l : Lexeme) : (p l).isTrivia = l.isTrivia :=
  congrArg TokenKind.isTrivia (hp l)

theorem leadingTrivia_map (ls : List Lexeme) :
    leadingTrivia (ls.map p) = (leadingTrivia ls).map p := by
  rw [leadingTrivia, List.takeWhile_map, Function.comp_def]
  simp only [isTrivia_of_kind hp]
  rfl

theorem afterTrivia_map (ls : List Lexeme) : afterTrivia (ls.map p) = (afterTrivia ls).map p := by
  rw [afterTrivia, List.dropWhile_map, Function.comp_def]
  simp only [isTrivia_of_kind hp]
  rfl

theorem attach_mapLeaves (row : Row) (all : List Lexeme) :
    attach (row.mapLeaves p) (all.map p) =
      ((attach row all).1.mapLeaves p, (attach row all).2.map p) := by
  induction row generalizing all with
  | nil => rfl
  | leaf t next ih =>
    rw [mapLeaves, attach, attach, leadingTrivia_map hp, afterTrivia_map hp, ← List.map_tail, ih,
      mapLeaves_append, mapLeaves_ofTokens, mapLeaves]
  | node shape inside next ihi ihn =>
    cases shape with
    | construct kind complete =>
      rw [mapLeaves, attach, attach, leadingTrivia_map hp, afterTrivia_map hp, ihi]
      dsimp only
      rw [ihn, mapLeaves_append, mapLeaves_ofTokens, mapLeaves]
    | skipped fault =>
      rw [mapLeaves, attach, attach, ihi]
      dsimp only
      rw [ihn, mapLeaves]

theorem attachAll_mapLeaves (row : Row) (all : List Lexeme) :
    attachAll (row.mapLeaves p) (all.map p) = (attachAll row all).mapLeaves p := by
  rw [attachAll, attachAll, attach_mapLeaves hp, mapLeaves_append, mapLeaves_ofTokens]

end Placing

theorem mapLeaves_locate (row : Row) (offset id : Nat) :
    ((locate row offset id).row.mapLabels Mark.shape).mapLeaves Token.lexeme = row := by
  induction row generalizing offset id with
  | nil => rfl
  | leaf t next ih => rw [locate, mapLabels, mapLeaves, ih]; rfl
  | node shape inside next ihi ihn => rw [locate, mapLabels, mapLeaves, ihi, ihn]

theorem numbered_locate (row : Row) (offset id : Nat) :
    ((locate row offset id).row.mapLabels Mark.shape).numbered id =
      (locate row offset id).row.mapLabels fun mark => (mark.id, mark.shape) := by
  induction row generalizing offset id with
  | nil => rfl
  | leaf t next ih => rw [locate, mapLabels, mapLabels, numbered, ih]
  | node shape inside next ihi ihn =>
    have hcount : ((locate inside offset (id + 1)).row.mapLabels Mark.shape).nodeCount =
        inside.nodeCount := by
      rw [← nodeCount_mapLeaves Token.lexeme, mapLeaves_locate]
    rw [locate, mapLabels, mapLabels, numbered, ihi, hcount, ← nextId_locate inside offset, ihn]

end Forest

/-! ## The tree of a file in other words -/

def Lexeme.blank (l : Lexeme) : Lexeme := ⟨l.kind, ""⟩

theorem worded_root (file : SchemaFile) :
    file.root.inside.worded Token.lexeme = parseRow (significant (lexemes file.source)) := by
  rw [Forest.worded_lexeme, ← file.content_root]
  rfl

structure Reworded (ρ : Token → Lexeme) (f g : SchemaFile) : Prop where
  kind : ∀ t, (ρ t).kind = t.kind
  lexemes : lexemes g.source = (tokenize f.source).map ρ
  row : parseRow (significant (SchemaLang.lexemes g.source)) = f.root.inside.worded ρ

namespace Reworded

variable {ρ : Token → Lexeme} {f g : SchemaFile} (h : Reworded ρ f g) {m n : Node}
include h

theorem blank_comp : Lexeme.blank ∘ ρ = Lexeme.blank ∘ Token.lexeme :=
  funext fun t => congrArg (Lexeme.mk · "") (h.kind t)

theorem row_blank : (parseRow (significant (SchemaLang.lexemes g.source))).mapLeaves Lexeme.blank =
    (parseRow (significant (SchemaLang.lexemes f.source))).mapLeaves Lexeme.blank := by
  rw [h.row, ← worded_root, Forest.mapLeaves_worded, Forest.mapLeaves_worded, h.blank_comp]

theorem placedRow : placedRow g.source = (f.root.inside.mapLabels Mark.shape).mapLeaves ρ := by
  have hold : SchemaLang.placedRow f.source =
      (f.root.inside.mapLabels Mark.shape).mapLeaves Token.lexeme := by
    rw [f.inside_root, Forest.mapLeaves_locate]
  have hblank (l : Lexeme) : l.blank.kind = l.kind := rfl
  have hlexemes : (SchemaLang.lexemes g.source).map Lexeme.blank =
      (SchemaLang.lexemes f.source).map Lexeme.blank := by
    rw [h.lexemes, List.map_map, h.blank_comp, ← List.map_map, tokenize, lexeme_tokensFrom]
  apply Forest.eq_of_leaves_eq (p := Lexeme.blank)
  · calc (SchemaLang.placedRow g.source).mapLeaves Lexeme.blank
        = (SchemaLang.placedRow f.source).mapLeaves Lexeme.blank := by
          rw [SchemaLang.placedRow, SchemaLang.placedRow, ← Forest.attachAll_mapLeaves hblank,
            ← Forest.attachAll_mapLeaves hblank, h.row_blank, hlexemes]
      _ = ((f.root.inside.mapLabels Mark.shape).mapLeaves ρ).mapLeaves Lexeme.blank := by
          rw [hold, Forest.mapLeaves_mapLeaves, Forest.mapLeaves_mapLeaves, h.blank_comp]
  · rw [leaves_placedRow, h.lexemes, Forest.leaves_mapLeaves, Forest.leaves_mapLabels,
      f.leaves_root]

/-- The nodes of both files are the same, and over the same tokens. -/
theorem bearings : g.bearings = f.bearings := by
  have hlength (file : SchemaFile) : file.significantTokens.length =
      ((parseRow (significant (SchemaLang.lexemes file.source))).mapLeaves
        Lexeme.blank).leaves.length := by
    rw [Forest.leaves_mapLeaves, List.length_map, ← List.length_map Token.lexeme,
      file.lexeme_significantTokens]
    exact congrArg List.length (leaves_parseWith _ _).symm
  have hbearings (file : SchemaFile) := file.bearings_eq
  simp only [SchemaFile.gist_root, hlength] at hbearings
  rw [hbearings, hbearings, ← Forest.kinship_mapLeaves Lexeme.blank, ← Forest.numbered_mapLeaves,
    ← Forest.stretches_mapLeaves Lexeme.blank, h.row_blank, Forest.numbered_mapLeaves,
    Forest.kinship_mapLeaves, Forest.stretches_mapLeaves]

theorem transcript_root :
    g.root.inside.transcript Token.lexeme = f.root.inside.transcript ρ := by
  have hnumbers (file : SchemaFile) : (file.root.inside.mapLabels Mark.shape).numbered 1 =
      file.root.inside.mapLabels fun mark => (mark.id, mark.shape) := by
    rw [file.inside_root, Forest.numbered_locate]
  rw [Forest.transcript, Forest.transcript, ← hnumbers, ← hnumbers, ← Forest.numbered_mapLeaves,
    ← Forest.numbered_mapLeaves, ← h.placedRow, g.inside_root, Forest.mapLeaves_locate]

theorem skeleton_root : f.root.skeleton = g.root.skeleton := by
  rw [Node.skeleton, Node.skeleton, Node.gist, Node.gist, f.id_root, g.id_root, f.shape_root,
    g.shape_root, ← Forest.bare_transcript ρ, ← h.transcript_root, Forest.bare_transcript]

/-- Nodes with the same number are the same and hold the same, in other words. -/
theorem of_id_eq (hm : m ∈ f.nodes) (hn : n ∈ g.nodes) (hid : m.id = n.id) :
    n.mark.shape = m.mark.shape ∧
      n.inside.transcript Token.lexeme = m.inside.transcript ρ := by
  have hnodes : g.nodes.map (fun n => ((n.id, n.mark.shape), n.inside.transcript Token.lexeme)) =
      f.nodes.map fun n => ((n.id, n.mark.shape), n.inside.transcript ρ) := by
    rw [SchemaFile.nodes, SchemaFile.nodes, Node.descendants, Node.descendants, List.map_cons,
      List.map_cons, ← Forest.places_transcript _ _ [], ← Forest.places_transcript _ _ [],
      h.transcript_root, f.id_root, g.id_root, f.shape_root, g.shape_root]
  obtain ⟨k, hk, hsame⟩ := List.mem_map.mp (hnodes ▸ List.mem_map_of_mem hn)
  obtain ⟨hlabel, hinside⟩ := Prod.mk.inj hsame
  obtain ⟨hkid, hshape⟩ := Prod.mk.inj hlabel
  obtain rfl := f.eq_of_id_eq hk hm (hkid.trans hid.symm)
  exact ⟨hshape.symm, hinside.symm⟩

/-- A construct is spelled by the tokens of the old one, in other words. -/
theorem characters_text (hm : m ∈ f.root.inside.preorder) (hn : n ∈ g.nodes) (hid : m.id = n.id)
    (hkind : m.kind ≠ .error) : (g.text n).toList = characters (m.inside.leaves.map ρ) := by
  obtain ⟨hshape, hinside⟩ := h.of_id_eq (List.mem_cons_of_mem _ hm) hn hid
  have hleaves := congrArg Forest.leaves hinside
  rw [Forest.leaves_transcript, Forest.leaves_transcript] at hleaves
  have hn : n ∈ g.root.inside.preorder := by
    rcases List.mem_cons.mp hn with rfl | hn
    · exact absurd (hid.trans g.id_root) (f.id_ne_zero hm)
    · exact hn
  have hkind' : n.kind ≠ .error := by
    rw [Node.kind, hshape]
    exact hkind
  rw [(g.spelling_of_construct hn hkind').2.2, Node.lexemes, hleaves]

/-- A construct over tokens that keep their words is spelled as before. -/
theorem text_of_kept (hm : m ∈ f.root.inside.preorder) (hn : n ∈ g.nodes) (hid : m.id = n.id)
    (hkind : m.kind ≠ .error) (hkept : ∀ t ∈ m.inside.leaves, ρ t = t.lexeme) :
    f.text m = g.text n := by
  rw [← String.toList_inj, (f.spelling_of_construct hm hkind).2.2,
    h.characters_text hm hn hid hkind, List.map_congr_left hkept]
  rfl

end Reworded

end SchemaLang
