import SchemaLang.Proofs.Editions
import SchemaLang.Text.Similarity

/-!
# Checking in two layouts

Checking one file in two layouts gives findings of the same severity and code
in the same order, as long as decimals are written in one piece: `1 .5` is
read as a decimal and then refused as none, where `1.5` is accepted.
-/

set_option autoImplicit false

namespace SchemaLang

def SchemaFile.verdicts [Likeness] (file : SchemaFile) (resolver : Resolver) :
    List (Severity × DiagnosticCode) :=
  (checkFile file resolver).map fun finding =>
    ((finding.diagnostic file).severity, (finding.diagnostic file).code)

theorem quoted_ranks (x y : String) :
    Quoted (fun p => some p.rank) (fun p => some p.rank) x y :=
  fun _ _ _ hrank => congrArg some ((hrank x).trans (hrank y).symm)

/-- Two layouts that write every whole decimal in one piece are two editions, for
anyone who sees of a problem what it is filed under. -/
theorem SameLexemes.editions [Likeness] {f g : SchemaFile} (h : SameLexemes f g) (r : Resolver)
    (hpath : f.path? = g.path?) (hf : f.SolidDecimals) (hg : g.SolidDecimals) :
    Editions r (fun p => some p.rank) (fun p => some p.rank) f g where
  path := hpath
  nodes := h.nodes
  same _ _ := rfl
  values _ _ hst := ⟨hst.alike h hf hg, quoted_ranks _ _⟩
  types _ _ _ _ _ _ _ := quoted_ranks _ _
  names m n hmn declared hcompares := by
    have hkind : m.kind = .fieldRef := hcompares.kind
    have htext : f.text m = g.text n :=
      h.text hmn.left hmn.right hmn.id (by rw [hkind]; rfl)
    rw [Checker.naming, Checker.naming, Checker.text, Checker.text, htext]
    split <;> rfl

/-- Blanks, line breaks and comments make no difference to what a check says, if
they do not stand inside of decimals. -/
theorem SchemaFile.verdicts_eq_of_lexemes [Likeness] {f g : SchemaFile} (r : Resolver)
    (hpath : f.path? = g.path?)
    (hlexemes : f.significantTokens.map Token.lexeme = g.significantTokens.map Token.lexeme)
    (hf : f.SolidDecimals) (hg : g.SolidDecimals) : f.verdicts r = g.verdicts r := by
  have hsame : SameLexemes f g := hlexemes
  have hverdicts (file : SchemaFile) :
      file.verdicts r = Findings.seen (fun p => some p.rank) (checkFile file r) := by
    rw [Findings.seen, show (fun f : Finding => some f.problem.rank) = some ∘ fun f =>
      f.problem.rank from rfl, List.filterMap_eq_map]
    rfl
  rw [hverdicts, hverdicts, (hsame.editions r hpath hf hg).seen_checkFile]

namespace SchemaFile

section

attribute [local instance] Text.likeness

theorem verdicts_of_list_on_two_lines :
    ∃ f g : SchemaFile,
      f.source = "type P { list<double> x = 1; }\n[P([1.5, // one\n  true])]\ntype Q { }" ∧
      g.source = "type P{list<double>x=1;}[P([1.5,true])]type Q{}" ∧
      f.significantTokens.map Token.lexeme = g.significantTokens.map Token.lexeme ∧
      f.SolidDecimals ∧ g.SolidDecimals ∧ f.verdicts .localOnly = g.verdicts .localOnly ∧
      g.verdicts .localOnly = [(.error, .typeMismatch)] := by
  let f := read (.unsaved 0)
    "type P { list<double> x = 1; }\n[P([1.5, // one\n  true])]\ntype Q { }"
  let g := read (.unsaved 0) "type P{list<double>x=1;}[P([1.5,true])]type Q{}"
  have hlexemes : f.significantTokens.map Token.lexeme = g.significantTokens.map Token.lexeme := by
    decide +kernel
  have hf : f.SolidDecimals := by
    unfold SolidDecimals
    decide +kernel
  have hg : g.SolidDecimals := by
    unfold SolidDecimals
    decide +kernel
  exact ⟨f, g, rfl, rfl, hlexemes, hf, hg, verdicts_eq_of_lexemes .localOnly rfl hlexemes hf hg,
    by decide +kernel⟩

/-- A blank in a decimal makes the value a wrong one. -/
theorem decimal_with_blank_refused :
    (read (.unsaved 0) "type P { double x = 1; } [P(1 .5)] type Q { }").significantTokens.map
        Token.lexeme =
      (read (.unsaved 0) "type P { double x = 1; } [P(1.5)] type Q { }").significantTokens.map
        Token.lexeme ∧
    (read (.unsaved 0) "type P { double x = 1; } [P(1 .5)] type Q { }").verdicts .localOnly =
      [(.error, .typeMismatch)] ∧
    (read (.unsaved 0) "type P { double x = 1; } [P(1.5)] type Q { }").verdicts .localOnly =
      [] := by
  decide +kernel

end

end SchemaFile

end SchemaLang
