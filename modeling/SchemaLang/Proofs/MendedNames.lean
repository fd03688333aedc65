import SchemaLang.Proofs.Editions
import SchemaLang.Proofs.Renaming
import SchemaLang.Text.Similarity
import SchemaLang.Workspace

/-!
# Fixes for names of arguments

With all fixes for names of arguments in it, a text is another edition of the
file to a check. No name of an argument stands in what a rule looks up, compares
or quotes, and where the names themselves are compared they are now the names of
the fields. So nothing is said of them any more, and all else is said as before.
-/

set_option autoImplicit false

namespace SchemaLang

def NodeKind.nameless : List NodeKind :=
  [.keyword, .packageName, .importPath, .settingName, .settingValue, .definitionName, .fieldName,
    .fieldNumber, .fieldType, .typeName, .typeParameter, .typeRef] ++ Parse.belowValues

theorem NodeKind.nameless_of_isFixed {kind : NodeKind} (h : kind.isFixed = true) :
    kind ∈ nameless := by
  revert h
  cases kind <;> decide

theorem NodeKind.nameless_of_isValue {kind : NodeKind} (h : kind.isValue = true) :
    kind ∈ nameless := by
  revert h
  cases kind <;> decide

namespace Checker.Renames

variable [Likeness] {c : Checker} {fixes : List SuggestedFix} (h : c.Renames fixes) {m n : Node}
include h

/-- Where no name of an argument stands, every token stays as it is. -/
theorem kept (hm : m ∈ c.file.root.inside.preorder) (hkind : m.kind ∈ NodeKind.nameless) :
    ∀ t ∈ m.inside.leaves, SuggestedFix.spelling fixes t = t.lexeme := by
  intro t ht
  by_contra hne
  obtain ⟨written, hcompares, -, hplace⟩ := h.exists_inside hm ht hne
  have hwritten : written.kind ∉ NodeKind.nameless := by
    rw [hcompares.kind]
    decide
  rcases hplace with hsame | hin
  · exact hwritten (hsame ▸ hkind)
  · have hclosed : ∀ kind ∈ NodeKind.nameless, kind.inhabitants ⊆ NodeKind.nameless := by decide
    refine hwritten ((c.file.arranged_of_mem hm).2.2.labels (hclosed _ hkind) hclosed
      written.mark.shape ?_)
    rw [m.labels_content]
    exact List.mem_map_of_mem hin

theorem text_of_nameless (hm : m ∈ c.file.nodes) (hn : n ∈ (c.file.withFixes fixes).nodes)
    (hid : m.id = n.id) (hkind : m.kind ∈ NodeKind.nameless) (herror : m.kind ≠ .error) :
    c.file.text m = (c.file.withFixes fixes).text n := by
  have hroot : m.kind ≠ .schemaFile := fun hk => absurd (hk ▸ hkind) (by decide)
  have hin := c.file.mem_of_kind_ne hm hroot
  exact h.reworded.text_of_kept hin hn hid herror (h.kept hin hkind)

theorem sameNodes : SameNodes c.file (c.file.withFixes fixes) where
  root := h.reworded.skeleton_root
  text _ hm _ hn hid hkind := h.text_of_nameless hm hn hid (NodeKind.nameless_of_isFixed hkind)
    (NodeKind.isLexeme_ne_error (NodeKind.isLexeme_of_isFixed hkind))

/-- A name that is compared is the name of the field now. -/
theorem text_of_compares {declared : String} (hcompares : c.Compares m declared)
    (hmn : Twin c.file (c.file.withFixes fixes) m n) :
    (c.file.withFixes fixes).text n = declared := by
  obtain ⟨t, hname⟩ := hcompares.namedBy.1
  have htext := h.reworded.characters_text hname.mem hmn.right hmn.id
    (by rw [hcompares.kind]; decide)
  rw [hname.inside, Forest.leaves, Forest.leaves, List.map_singleton] at htext
  rw [← h.text_spelling hcompares hname, ← String.toList_inj, htext]
  simp [characters]

/-- To a check, the file with the fixes in it is an edition of the file in which
nothing is said of names. -/
theorem editions : Editions c.resolver (Option.guard (·.code != .nameMismatch)) some c.file
    (c.file.withFixes fixes) := by
  have hguard (problem : Problem) (hne : (problem.code != .nameMismatch) = true) :
      Option.guard (·.code != .nameMismatch) problem = some problem := if_pos hne
  have hquoted (x : String) : Quoted (Option.guard (·.code != .nameMismatch)) some x x := by
    intro problem rank hrank hproblem
    exact hguard _ (bne_iff_ne.mpr fun hcode => hrank (by rw [← hproblem x, Problem.rank, hcode]))
  refine ⟨⟨rfl, h.sameNodes⟩, hguard, ?_, ?_, ?_⟩
  · intro s t hst
    have herror : s.node.kind ≠ .error := fun hk => by
      have hvalue : s.node.kind.isValue = true := hst.value
      rw [hk] at hvalue
      cases hvalue
    rw [h.text_of_nameless hst.node.left hst.node.right hst.node.id
      (NodeKind.nameless_of_isValue hst.value) herror]
    exact ⟨.same _, hquoted _⟩
  · intro a b hab s t hst hkind
    cases hab with
    | imported path source =>
      rw [SchemaFile.eq_of_id_eq _ hst.node.left hst.node.right hst.node.id]
      exact hquoted _
    | checked =>
      have hkind : s.node.kind = .fieldType ∨ s.node.kind = .typeParameter := hkind
      rw [h.text_of_nameless hst.node.left hst.node.right hst.node.id
        (by rcases hkind with hk | hk <;> rw [hk] <;> decide)
        (by rcases hkind with hk | hk <;> rw [hk] <;> decide)]
      exact hquoted _
  · intro m n hmn declared hcompares
    have hnow : (Checker.mk (c.file.withFixes fixes) c.resolver).naming n declared = [] :=
      if_pos (h.text_of_compares hcompares hmn)
    rw [hnow, naming]
    split <;> rfl

end Checker.Renames

/-- Nothing is said of names of arguments once the fixes are in the text, and all else is
said as before. -/
theorem problems_withFixes [Likeness] (file : SchemaFile) (r : Resolver) {fixes : List SuggestedFix}
    (h : (Checker.mk file r).Renames fixes) :
    (checkFile (file.withFixes fixes) r).map Finding.problem =
      ((checkFile file r).map Finding.problem).filter (·.code != .nameMismatch) := by
  rw [← List.filterMap_eq_filter, List.filterMap_map, ← List.filterMap_eq_map]
  exact h.editions.seen_checkFile.symm

/-- Fixes for names of arguments do what they say: with all of them in it, a text is read as
the same tree, no name of an argument is refused, and all else is said as before. -/
theorem Workspace.name_fixes_mend [Likeness] (w : Workspace) (path : Path) (source : String) :
    let report := w.checkSource path source
    let mended := w.checkSource path (SuggestedFix.apply report.nameFixes source)
    mended.file.bearings = report.file.bearings ∧
    (∀ d ∈ mended.diagnostics, d.code ≠ .nameMismatch) ∧
    mended.diagnostics.map (fun d => (d.code, d.message)) =
      (report.diagnostics.filter (·.code != .nameMismatch)).map fun d => (d.code, d.message) := by
  intro report mended
  have hrenames := Checker.renames_nameFixes ⟨report.file, w.resolver⟩ path
  have hproblems := problems_withFixes report.file w.resolver hrenames
  refine ⟨hrenames.reworded.bearings, fun d hd hcode => ?_, ?_⟩
  · obtain ⟨finding, hfinding, rfl⟩ := List.mem_map.mp hd
    have hproblem : finding.problem ∈ ((checkFile report.file w.resolver).map
        Finding.problem).filter (·.code != .nameMismatch) :=
      hproblems ▸ List.mem_map_of_mem hfinding
    exact bne_iff_ne.mp (List.mem_filter.mp hproblem).2 hcode
  · calc mended.diagnostics.map (fun d => (d.code, d.message))
        = ((checkFile mended.file w.resolver).map Finding.problem).map
            (fun p => (p.code, p.message)) := by
          rw [List.map_map]
          exact List.map_map
      _ = (((checkFile report.file w.resolver).map Finding.problem).filter
            (·.code != .nameMismatch)).map (fun p => (p.code, p.message)) := by
          rw [← hproblems]
          rfl
      _ = _ := by
          rw [show report.diagnostics = (checkFile report.file w.resolver).map
            (·.diagnostic report.file) from rfl, List.filter_map, List.map_map, List.filter_map,
            List.map_map]
          rfl

section

attribute [local instance] Text.likeness

/-- Another name in a text that is otherwise kept to the letter, also one with dots. -/
example :
    let source := "type P { int at.x = 1; int y = 2; } [P(x = 1, /* up */ y=2)] type Q { }"
    let report := FileReport.ofFile ⟨"a"⟩ (.read (.unsaved 0) source) .localOnly
    SuggestedFix.apply report.nameFixes source =
      "type P { int at.x = 1; int y = 2; } [P(at.x = 1, /* up */ y=2)] type Q { }" := by
  decide +kernel

end

end SchemaLang
