import SchemaLang.Proofs.Comparisons

/-!
# Values judged in two editions

The rules for values look at a text in three ways: they compare it, they look
it up, or they look at its first and its last character. Where twin values that
were not cut short are the same to all of them, they are judged alike. In two
layouts they are, if decimals are written in one piece: values over one lexeme
have one text, and a list, map or construction begins and ends alike in both
layouts, and is no literal and no name.
-/

set_option autoImplicit false

namespace SchemaLang

/-! ## Texts -/

theorem isDigits_of_closes {cs : List Char} {c : Char} (hc : c ∈ cs)
    (hcloses : Scan.closes c = true) : Text.isDigits cs = false := by
  simp only [Text.isDigits, Bool.and_eq_false_iff, List.all_eq_false]
  exact .inr ⟨c, hc, by simp [Scan.isDigit_of_closes hcloses]⟩

namespace Enclosed

variable {s : String} (h : Enclosed s)
include h

theorem unnamed : SchemaFile.Unnamed s := h.last

theorem unnamed_append (front : String) : SchemaFile.Unnamed (front ++ s) := by
  obtain ⟨c, hc, hcloses⟩ := h.last
  exact ⟨c, by simp [String.toList_append, List.getLast?_append, hc], hcloses⟩

theorem ne_blank : s ≠ "_" := by
  rintro rfl
  obtain ⟨c, hc, hcloses⟩ := h.last
  obtain rfl : '_' = c := by simpa using hc
  exact absurd hcloses (by decide)

theorem not_isDigits : Text.isDigits s.toList = false := by
  obtain ⟨c, hc, hcloses⟩ := h.last
  exact isDigits_of_closes (List.mem_of_getLast? hc) hcloses

theorem not_isDecimal : LiteralForm.isDecimal s.toList = false := by
  obtain ⟨c, hc, hcloses⟩ := h.last
  rw [LiteralForm.isDecimal, Bool.and_eq_false_iff]
  right
  cases hrest : (s.toList.dropWhile (· != '.')).drop 1 with
  | nil => rfl
  | cons x xs =>
    -- what stands behind the point ends with the bracket
    have hsuffix : (x :: xs) <:+ s.toList :=
      hrest ▸ (List.drop_suffix _ _).trans (List.dropWhile_suffix _)
    obtain ⟨front, hfront⟩ := hsuffix
    rw [← hfront, List.getLast?_append] at hc
    exact isDigits_of_closes (List.mem_of_getLast? (by simpa using hc)) hcloses

theorem not_isString : LiteralForm.isString s.toList = false := by
  obtain ⟨c, hc, hcloses⟩ := h.last
  have hquote : c ≠ '"' := by
    rintro rfl
    exact absurd hcloses (by decide)
  unfold LiteralForm.isString
  split
  · rename_i rest hrest
    rw [Bool.and_eq_false_iff]
    left
    rw [hrest, List.getLast?_cons] at hc
    cases hlast : rest.getLast? with
    | none => rfl
    | some d =>
      obtain rfl : d = c := by simpa [hlast] using hc
      simpa using hquote
  · rfl

theorem not_word {word : List Char} (hword : ∀ c, Scan.closes c = true → c ∉ word) :
    (s.toList.map LiteralForm.foldLetter == word) = false := by
  obtain ⟨c, hc, hcloses⟩ := h.last
  have hfold : LiteralForm.foldLetter c = c := by
    rcases Scan.closes_cases hcloses with rfl | rfl | rfl <;> decide
  rw [beq_eq_false_iff_ne]
  rintro rfl
  exact hword c hcloses (List.mem_map.mpr ⟨c, List.mem_of_getLast? hc, hfold⟩)

theorem not_accepts (form : LiteralForm) : form.accepts s = false := by
  have hclosers {word : List Char} (hword : ')' ∉ word ∧ ']' ∉ word ∧ '\x7d' ∉ word) (c : Char)
      (hc : Scan.closes c = true) : c ∉ word := by
    rcases Scan.closes_cases hc with rfl | rfl | rfl
    exacts [hword.1, hword.2.1, hword.2.2]
  cases form with
  | boolean =>
    simp only [LiteralForm.accepts, Bool.or_eq_false_iff]
    exact ⟨h.not_word (hclosers (by decide)), h.not_word (hclosers (by decide))⟩
  | integer => exact h.not_isDigits
  | decimal => exact h.not_isDecimal
  | string => exact h.not_isString

end Enclosed

/-- Texts that no rule for values tells apart: one text, or two between the same brackets. -/
inductive Alike : String → String → Prop where
  | same (s : String) : Alike s s
  | enclosed {s t : String} (hs : Enclosed s) (ht : Enclosed t)
    (first : s.toList.head? = t.toList.head?) (last : s.toList.getLast? = t.toList.getLast?) :
    Alike s t

namespace Alike

variable {s t : String} (h : Alike s t)
include h

theorem trim : Alike (Text.trim s) (Text.trim t) := by
  cases h with
  | same => exact .same _
  | enclosed hs ht first last =>
    rw [hs.trim, ht.trim]
    exact .enclosed hs ht first last

theorem head? : s.toList.head? = t.toList.head? := by
  cases h with
  | same => rfl
  | enclosed _ _ first _ => exact first

theorem getLast? : s.toList.getLast? = t.toList.getLast? := by
  cases h with
  | same => rfl
  | enclosed _ _ _ last => exact last

theorem blank_iff : s = "_" ↔ t = "_" := by
  cases h with
  | same => exact .rfl
  | enclosed hs ht => exact iff_of_false hs.ne_blank ht.ne_blank

theorem accepts (form : LiteralForm) : form.accepts s = form.accepts t := by
  cases h with
  | same => rfl
  | enclosed hs ht => rw [hs.not_accepts, ht.not_accepts]

end Alike

/-! ## Values -/

/-- Whole decimals are written in one piece, without blanks or comments around the point. -/
def SchemaFile.SolidDecimals (file : SchemaFile) : Prop :=
  ∀ n ∈ file.nodes, n.kind = .decimalValue → n.incomplete = false →
    ∀ t ∈ n.inside.leaves, t.isTrivia = false

/-- Values that are more than one lexeme, decimals apart, stand between brackets. -/
theorem closer?_of_isValue {kind : NodeKind} (h : kind.isValue = true)
    (hplain : ¬ (kind.isLexeme = true ∨ kind = .decimalValue)) :
    ∃ closer, kind.closer? = some closer := by
  revert h hplain
  cases kind <;> simp [NodeKind.isValue, NodeKind.isLexeme, NodeKind.closer?]

theorem NodeKind.eq_of_closer? {kind kind' : NodeKind} {closer : TokenKind}
    (h : kind.closer? = some closer) (h' : kind'.closer? = some closer) : kind = kind' := by
  cases kind <;> cases h <;> cases kind' <;> first | rfl | cases h'

def Bracketed.kind : Bracketed → NodeKind
  | list => .list
  | map => .map

structure TwinValue (f g : SchemaFile) (s t : Site) : Prop extends TwinSite f g s t where
  intact : s.node.Intact
  value : s.kind.isValue = true

theorem TwinSite.has {f g : SchemaFile} {s t : Site} (h : TwinSite f g s t) :
    f.Has s ∧ g.Has t := by
  obtain ⟨hs, ht⟩ := forall_of_forall₂ h.above fun _ _ hmn => ⟨hmn.left, hmn.right⟩
  exact ⟨⟨h.node.left, hs⟩, h.node.right, ht⟩

theorem TwinSite.below_root {f g : SchemaFile} {s t : Site} (h : TwinSite f g s t)
    (hkind : s.kind ≠ .schemaFile) : s.node ∈ f.root.inside.preorder :=
  f.mem_of_kind_ne h.node.left hkind

theorem TwinSite.parts {f g : SchemaFile} {s t : Site} (h : TwinSite f g s t) :
    List.Forall₂ (fun p q => TwinSite f g p q ∧ p.node ∈ s.node.children) (Checker.parts s)
      (Checker.parts t) := by
  rw [Checker.parts, Checker.parts, List.forall₂_map_left_iff, List.forall₂_map_right_iff]
  have hvalues : List.Forall₂ (fun c d => (c ∈ s.node.children ∧ Twin f g c d) ∧ _)
      s.node.values t.node.values :=
    rel_filter_eq (List.forall₂_and_left s.node.children t.node.children |>.mpr
      ⟨fun _ hc => hc, h.node.children⟩) fun _ _ hcd => by rw [hcd.2.kind]
  refine hvalues.imp ?_
  rintro c d ⟨⟨hc, hcd⟩, -⟩
  exact ⟨h.child hcd, hc⟩

/-- What stands in constructs around values that were not cut short. -/
theorem TwinSite.values {f g : SchemaFile} {s t : Site} (h : TwinSite f g s t)
    (hintact : s.node.Intact)
    (hkind : s.kind = .list ∨ s.kind = .arguments ∨ s.kind = .mapEntry) :
    List.Forall₂ (TwinValue f g) (Checker.parts s) (Checker.parts t) := by
  have hmem := h.below_root fun hroot => by simp [hroot] at hkind
  refine h.parts.imp fun p q ⟨hpq, hp⟩ => ?_
  obtain ⟨hin, hvalue⟩ := f.values_of_intact hmem hintact hkind p.node hp
  exact ⟨hpq, hin, hvalue⟩

namespace TwinValue

variable {f g : SchemaFile} {s t : Site} (h : TwinValue f g s t)
include h

theorem mem : s.node ∈ f.root.inside.preorder ∧ t.node ∈ g.root.inside.preorder := by
  have hkind : s.kind ≠ .schemaFile := fun hroot => by
    have := h.value
    rw [hroot] at this
    cases this
  exact ⟨h.below_root hkind, g.mem_of_kind_ne h.node.right (h.node.kind ▸ hkind)⟩

/-- Twin values have the same text in two layouts, or stand between the same brackets. -/
theorem alike (hlexemes : SameLexemes f g) (hsolid : f.SolidDecimals)
    (hsolid' : g.SolidDecimals) : Alike (f.text s.node) (g.text t.node) := by
  obtain ⟨hs, ht⟩ := h.mem
  have hkind := h.node.kind
  have hinside : s.node.inside.gist = t.node.inside.gist :=
    congrArg (·.2) (hlexemes.gist h.node.left h.node.right h.node.id)
  have hvalue : s.node.kind.isValue = true := h.value
  have hne : s.node.kind ≠ .error := fun hk => by
    rw [hk] at hvalue
    cases hvalue
  by_cases hlexeme : s.node.kind.isLexeme = true
  · rw [hlexemes.text h.node.left h.node.right h.node.id hlexeme]
    exact .same _
  by_cases hdecimal : s.node.kind = .decimalValue
  · have hleaves := hsolid _ h.node.left hdecimal h.intact.1
    have hleaves' := hsolid' _ h.node.right (hkind ▸ hdecimal) (h.node.incomplete ▸ h.intact.1)
    have htext : f.text s.node = g.text t.node := by
      rw [← String.toList_inj, f.text_of_solid hs hne hleaves,
        g.text_of_solid ht (hkind ▸ hne) hleaves', hinside]
    rw [htext]
    exact .same _
  · obtain ⟨closer, hcloser⟩ := closer?_of_isValue hvalue (by simp [hlexeme, hdecimal])
    obtain ⟨hfirst, hlast⟩ := f.ends_of_construct hs hne
    obtain ⟨hfirst', hlast'⟩ := g.ends_of_construct ht (hkind ▸ hne)
    exact .enclosed (f.enclosed_of_intact hs h.intact hcloser).1
      (g.enclosed_of_intact ht (h.node.intact h.intact) (hkind ▸ hcloser)).1
      (by rw [hfirst, hfirst', hinside]) (by rw [hlast, hlast', hinside])

/-- A value that ends like a list or map is one, or has nothing below it. -/
theorem kind_of_closer {form : Bracketed}
    (hlast : (Text.trim (f.text s.node)).toList.getLast? = some form.closer) :
    s.kind = form.kind ∨ s.node.children = [] := by
  obtain ⟨hs, -⟩ := h.mem
  by_cases hplain : s.node.kind.isLexeme = true ∨ s.node.kind = .decimalValue
  · exact .inr (f.children_eq_nil hs hplain)
  obtain ⟨closer, hcloser⟩ := closer?_of_isValue h.value hplain
  obtain ⟨henclosed, hpunctuation⟩ := f.enclosed_of_intact hs h.intact hcloser
  rw [henclosed.trim] at hlast
  rw [hlast, Option.bind_some] at hpunctuation
  left
  rw [Site.kind]
  cases form with
  | list =>
    obtain rfl : TokenKind.rbracket = closer := Option.some.inj hpunctuation
    exact NodeKind.eq_of_closer? hcloser rfl
  | map =>
    obtain rfl : TokenKind.rbrace = closer := Option.some.inj hpunctuation
    exact NodeKind.eq_of_closer? hcloser rfl

end TwinValue

/-! ## Outcomes -/

def Problem.rank (p : Problem) : Severity × DiagnosticCode := (p.severity, p.code)

variable {γ : Type} {v w : Problem → Option γ}

def Findings.seen (v : Problem → Option γ) (fs : List Finding) : List γ :=
  fs.filterMap fun f => v f.problem

theorem Findings.seen_append (fs gs : List Finding) :
    seen v (fs ++ gs) = seen v fs ++ seen v gs := List.filterMap_append

theorem Findings.seen_cons (f : Finding) (fs : List Finding) :
    seen v (f :: fs) = (v f.problem).toList ++ seen v fs := by
  rw [seen, List.filterMap_cons]
  cases v f.problem <;> rfl

structure Findings.Agree (v w : Problem → Option γ) (fs gs : Findings) : Prop where
  reported : seen v fs.reported = seen w gs.reported
  judged : fs.judged = gs.judged

namespace Findings.Agree

theorem none : Agree v w .none .none := ⟨rfl, rfl⟩

theorem of {p q : Problem} {m n : Node} (h : v p = w q) : Agree v w (.of p m) (.of q n) :=
  ⟨by rw [Findings.of, Findings.of, seen_cons, seen_cons, h]; rfl, rfl⟩

theorem judge {ids ids' : List Nat} (h : ids = ids') : Agree v w (.judge ids) (.judge ids') :=
  ⟨rfl, h⟩

variable {fs gs fs' gs' : Findings}

theorem append (h : Agree v w fs gs) (h' : Agree v w fs' gs') :
    Agree v w (fs ++ fs') (gs ++ gs') where
  reported := by
    rw [reported_append, reported_append, seen_append, seen_append, h.reported, h'.reported]
  judged := by simp [h.judged, h'.judged]

theorem all {α β : Type} {R : α → β → Prop} {xs : List α} {ys : List β} {p : α → Findings}
    {q : β → Findings} (h : List.Forall₂ R xs ys) (hpq : ∀ x y, R x y → Agree v w (p x) (q y)) :
    Agree v w (.all (xs.map p)) (.all (ys.map q)) := by
  induction h with
  | nil => exact none
  | cons hxy _ ih => exact (hpq _ _ hxy).append ih

theorem ite {p q : Prop} [Decidable p] [Decidable q] (hpq : p ↔ q)
    (h : Agree v w fs gs) (h' : Agree v w fs' gs') :
    Agree v w (if p then fs else fs') (if q then gs else gs') := by
  by_cases hp : p
  · rw [if_pos hp, if_pos (hpq.mp hp)]
    exact h
  · rw [if_neg hp, if_neg (fun hq => hp (hpq.mpr hq))]
    exact h'

end Findings.Agree

/-! ## Types -/

theorem DeclaredType.text_of (file : SchemaFile) (s : Site) :
    (of file s).text = file.text s.node := by
  rw [text, of]
  split <;> rfl

structure TypeAkin (f g : SchemaFile) (a b : DeclaredType) : Prop where
  file : Kin f g a.file b.file
  site : TwinSite a.file b.file a.site b.site
  base : a.base = b.base
  parameters : List.Forall₂ (fun p q => TwinSite a.file b.file p q ∧ p.kind = .typeParameter)
    a.parameters b.parameters

namespace TypeAkin

variable {f g : SchemaFile}

theorem of {a b : SchemaFile} {s t : Site} (hab : Kin f g a b) (h : TwinSite a b s t)
    (hkind : s.kind = .fieldType ∨ s.kind = .typeParameter) :
    TypeAkin f g (.of a s) (.of b t) := by
  unfold DeclaredType.of
  rw [← h.kind]
  split
  · rename_i htype
    refine ⟨hab, h, ?_, ?_⟩
    · have hmem := h.below_root (by simp [htype])
      obtain ⟨name, parameters, hchildren, hname, -⟩ := a.typed_of_mem hmem htype
      have hfirst := h.node.firstChild? .typeName
      have hpresent : s.node.firstChild? .typeName = some name := by
        rw [Node.firstChild?, hchildren, List.find?_cons_of_pos (by simp [hname])]
      rw [hpresent] at hfirst ⊢
      generalize t.node.firstChild? .typeName = name'? at hfirst
      cases hfirst with
      | some hnames => exact hnames.1.text (hname ▸ rfl)
    · rw [List.forall₂_map_left_iff, List.forall₂_map_right_iff]
      refine (h.node.childrenOfKind .typeParameter).imp ?_
      rintro c d ⟨hcd, hparameter⟩
      exact ⟨h.child hcd, hparameter⟩
  · rename_i htype
    have hparameter : s.node.kind = .typeParameter := hkind.resolve_left htype
    exact ⟨hab, h, h.node.text (by rw [hparameter]; rfl), .nil⟩

theorem demand {a b : DeclaredType} (h : TypeAkin f g a b) : a.demand = b.demand := by
  have hempty : a.parameters.isEmpty = b.parameters.isEmpty := by
    have hlength := h.parameters.length_eq
    cases ha : a.parameters <;> cases hb : b.parameters <;> simp_all
  rw [DeclaredType.demand, DeclaredType.demand, h.base, hempty]

end TypeAkin

/-! ## Checks -/

def Quoted (v w : Problem → Option γ) (x y : String) : Prop :=
  ∀ (problem : String → Problem) (rank : Severity × DiagnosticCode), rank.2 ≠ .nameMismatch →
    (∀ text, (problem text).rank = rank) → v (problem x) = w (problem y)

/-- Two editions of one file, at the same path and with the same nodes. A check
cannot tell their values apart, and what it says of the one looks to `v` as what
it says of the other looks to `w`: names of arguments are compared with the same
outcome, and in all that is quoted the editions look the same. -/
structure Editions [Likeness] (r : Resolver) (v w : Problem → Option γ) (f g : SchemaFile) : Prop
    extends Relaid f g where
  same : ∀ problem, (problem.code != .nameMismatch) = true → v problem = w problem
  values : ∀ ⦃s t⦄, TwinValue f g s t → Alike (f.text s.node) (g.text t.node) ∧
    Quoted v w (Text.trim (f.text s.node)) (Text.trim (g.text t.node))
  types : ∀ ⦃a b⦄, Kin f g a b → ∀ ⦃s t⦄, TwinSite a b s t →
    s.kind = .fieldType ∨ s.kind = .typeParameter → Quoted v w (a.text s.node) (b.text t.node)
  names : ∀ ⦃m n⦄, Twin f g m n → ∀ ⦃declared⦄, (Checker.mk f r).Compares m declared →
    Findings.seen v ((Checker.mk f r).naming m declared) =
      Findings.seen w ((Checker.mk g r).naming n declared)

def Judges (v w : Problem → Option γ) (f g p q : SchemaFile)
    (element element' : Site → Site → Findings) : Prop :=
  ∀ ⦃s t x y : Site⦄, TwinValue f g s t → TwinSite p q x y → x.kind = .typeParameter →
    (element s x).Agree v w (element' t y)

namespace Editions

open Checker

variable [Likeness] {f g : SchemaFile} {r : Resolver} (h : Editions r v w f g) {s t : Site}
  {a b : DeclaredType} {d e : Definition}
include h

theorem resolve? (hst : TwinSite f g s t) (name : String) :
    Option.Rel (Akin f g) ((Checker.mk f r).resolve? s name) ((Checker.mk g r).resolve? t name) :=
  r.rel_resolve? h.toRelaid .checked hst name

theorem valueText (hst : TwinValue f g s t) :
    Alike ((Checker.mk f r).valueText s) ((Checker.mk g r).valueText t) :=
  (h.values hst).1.trim

/-- Where both editions have the same problem, it looks the same. -/
theorem agree_of {problem : Problem} {m n : Node}
    (hproblem : (problem.code != .nameMismatch) = true) :
    (Findings.of problem m).Agree v w (.of problem n) := .of (h.same _ hproblem)

theorem agree_of_value (hst : TwinValue f g s t) (problem : String → Problem)
    (hproblem : ∀ text, (problem text).rank = (.error, .typeMismatch)) :
    (Findings.of (problem ((Checker.mk f r).valueText s)) s.node).Agree v w
      (.of (problem ((Checker.mk g r).valueText t)) t.node) :=
  .of ((h.values hst).2 problem _ (by decide) hproblem)

theorem enumTarget? (hst : TwinValue f g s t) (hab : TypeAkin f g a b) :
    Option.Rel (Akin f g) ((Checker.mk f r).enumTarget? s a)
      ((Checker.mk g r).enumTarget? t b) := by
  have htext := h.valueText hst
  unfold Checker.enumTarget?
  generalize (Checker.mk f r).valueText s = x, (Checker.mk g r).valueText t = y at htext
  dsimp only
  cases htext with
  | same =>
    refine rel_orElse (h.resolve? hst.toTwinSite x) ?_
    split
    · exact .none
    · rw [hab.base]
      exact r.rel_resolve? h.toRelaid hab.file hab.site _
  | enclosed hx hy =>
    have hnone {file : SchemaFile} {u : Site} {text : String} (hu : file.Has u)
        (htext : SchemaFile.Unnamed text) : r.resolve? file u text = Option.none :=
      r.resolve?_of_unnamed hu htext
    obtain ⟨hs, ht⟩ := hst.has
    obtain ⟨ha, hb⟩ := hab.site.has
    rw [Checker.resolve?, Checker.resolve?, hnone hs hx.unnamed, hnone ht hy.unnamed,
      hnone ha (hx.unnamed_append _), hnone hb (hy.unnamed_append _)]
    split <;> split <;> exact .none

theorem agree_enumLiteral (hst : TwinValue f g s t) (hab : TypeAkin f g a b)
    (henum : Akin f g d e) : ((Checker.mk f r).checkEnumLiteral s a d).Agree v w
      ((Checker.mk g r).checkEnumLiteral t b e) := by
  have htarget := h.enumTarget? hst hab
  unfold Checker.checkEnumLiteral
  dsimp only
  rw [hab.base]
  have hother := h.agree_of_value hst (.notAnEnumValue · b.base) fun _ => rfl
  have hforeign := h.agree_of_value hst (.foreignEnumValue · b.base) fun _ => rfl
  refine .append (.judge (by rw [hst.id])) ?_
  generalize (Checker.mk f r).enumTarget? s a = d?, (Checker.mk g r).enumTarget? t b = e? at htarget
  cases htarget with
  | none => exact hother
  | some hfound =>
    dsimp only
    refine .ite (by rw [hfound.kind]) (.ite ?_ .none hforeign) hother
    rw [hfound.isChildOf h.toRelaid henum]

theorem namesDefinition (hst : TwinSite f g s t) (name : String) (hde : Akin f g d e) :
    (Checker.mk f r).namesDefinition s name d = (Checker.mk g r).namesDefinition t name e := by
  have hfound := h.resolve? hst name
  unfold Checker.namesDefinition
  generalize (Checker.mk f r).resolve? s name = d?, (Checker.mk g r).resolve? t name = e? at hfound
  cases hfound with
  | none => rfl
  | some hfound => exact hfound.same h.toRelaid hde

theorem agree_instance (hst : TwinValue f g s t) (hab : TypeAkin f g a b) (hde : Akin f g d e) :
    ((Checker.mk f r).checkInstance s a d).Agree v w ((Checker.mk g r).checkInstance t b e) := by
  have hother := h.agree_of_value hst (.otherType b.base) fun _ => rfl
  unfold Checker.checkInstance
  rw [← hst.kind, hab.base]
  dsimp only
  split
  · have hname := hst.node.firstChild? .constructorName
    generalize s.node.firstChild? .constructorName = m?, t.node.firstChild? .constructorName = n?
      at hname
    cases hname with
    | none => exact .none
    | @some m n hmn =>
      have htext : (Checker.mk f r).text m = (Checker.mk g r).text n :=
        hmn.1.text (hmn.2 ▸ rfl)
      dsimp only
      rw [htext]
      exact .ite (by rw [h.namesDefinition hst.toTwinSite _ hde]) .none (h.agree_of rfl)
  · rename_i hkind
    have htext : (Checker.mk f r).valueText s = (Checker.mk g r).valueText t := by
      have hkind : s.node.kind = .nameRef := hkind
      exact congrArg Text.trim (hst.node.text (by rw [hkind]; rfl))
    refine .append (.judge (by rw [hst.id])) (.ite ?_ ?_ hother)
    · rw [htext, h.namesDefinition hst.toTwinSite _ hde]
    · rw [hde.site.node.orderedFields.length_eq]
      split
      · exact .none
      · exact h.agree_of rfl
  · exact hother

theorem agree_named (hst : TwinValue f g s t) (hab : TypeAkin f g a b) :
    ((Checker.mk f r).checkNamed s a).Agree v w ((Checker.mk g r).checkNamed t b) := by
  have htarget := r.rel_resolve? h.toRelaid hab.file hab.site a.base
  unfold Checker.checkNamed
  dsimp only
  rw [← hab.base]
  generalize r.resolve? a.file a.site a.base = d?, r.resolve? b.file b.site a.base = e? at htarget
  cases htarget with
  | none => exact .none
  | some hde =>
    dsimp only
    rw [← hde.kind]
    split
    · exact h.agree_enumLiteral hst hab hde
    · exact h.agree_instance hst hab hde
    · exact h.agree_instance hst hab hde
    · exact .none

/-- Outer marks are judged alike, and the parts count only where the marks are right. -/
theorem agree_bracketed (form : Bracketed) (hst : TwinValue f g s t) {inner inner' : Findings}
    (hinner : s.kind = form.kind ∨ s.node.children = [] → inner.Agree v w inner') :
    ((Checker.mk f r).checkBracketed form s inner).Agree v w
      ((Checker.mk g r).checkBracketed form t inner') := by
  have htext := h.valueText hst
  unfold Checker.checkBracketed
  dsimp only
  rw [← htext.head?, ← htext.getLast?]
  split
  · exact h.agree_of rfl
  split
  · exact h.agree_of rfl
  · rename_i hlast
    exact hinner (hst.kind_of_closer (not_not.mp hlast))

omit [Likeness] h in
theorem entries (hst : TwinValue f g s t) (hkind : s.kind = .map) :
    List.Forall₂ (fun p q => TwinSite f g p q ∧ p.node.Intact ∧ p.kind = .mapEntry) (parts s)
      (parts t) :=
  hst.parts.imp fun p _ ⟨hpq, hp⟩ =>
    ⟨hpq, f.entries_of_intact hst.mem.1 hst.intact hkind p.node hp⟩

omit [Likeness] h in
theorem no_parts {R : Site → Site → Prop} (hst : TwinSite f g s t) (hnil : s.node.children = []) :
    List.Forall₂ R (parts s) (parts t) := by
  have hnil' : t.node.children = [] := by
    have hchildren := hst.node.children
    rw [hnil] at hchildren
    exact List.forall₂_nil_left_iff.mp hchildren
  rw [parts, parts, Node.values, Node.values, hnil, hnil']
  exact .nil

theorem agree_entry {p q : SchemaFile} {element element' : Site → Site → Findings}
    (helement : Judges v w f g p q element element') {ps qs : List Site}
    (hparameters : List.Forall₂ (fun x y => TwinSite p q x y ∧ x.kind = .typeParameter) ps qs)
    (hst : TwinSite f g s t) (hintact : s.node.Intact) (hkind : s.kind = .mapEntry) :
    (checkEntry element ps s).Agree v w (checkEntry element' qs t) := by
  have hparts := hst.values hintact (.inr (.inr hkind))
  unfold checkEntry
  generalize parts s = xs, parts t = ys at hparts
  rcases hparts with _ | ⟨hkey, _ | ⟨hvalue, _ | _⟩⟩
  · exact h.agree_of rfl
  · exact h.agree_of rfl
  · rcases hparameters with _ | ⟨hkeyType, _ | ⟨hvalueType, _ | _⟩⟩
    · exact .none
    · exact .none
    · exact (helement hkey hkeyType.1 hkeyType.2).append
        (helement hvalue hvalueType.1 hvalueType.2)
    · exact .none
  · exact h.agree_of rfl

/-- What a type asks of a value, it asks in both editions. -/
theorem agree_against {p q : SchemaFile} {x y : Site} {element element' : Site → Site → Findings}
    (hst : TwinValue f g s t) (hpq : Kin f g p q) (hxy : TwinSite p q x y)
    (hkind : x.kind = .fieldType ∨ x.kind = .typeParameter)
    (helement : Judges v w f g p q element element') :
    ((Checker.mk f r).checkAgainst element s (.of p x)).Agree v w
      ((Checker.mk g r).checkAgainst element' t (.of q y)) := by
  have hab := TypeAkin.of hpq hxy hkind
  have htext := h.valueText hst
  have hempty : (Findings.of (.emptyOption (DeclaredType.of p x).text) s.node).Agree v w
      (.of (.emptyOption (DeclaredType.of q y).text) t.node) := by
    rw [DeclaredType.text_of, DeclaredType.text_of]
    exact .of (h.types hpq hxy hkind .emptyOption (.error, .typeMismatch) (by decide) fun _ => rfl)
  have hliteral (form : LiteralForm) :=
    h.agree_of_value hst (.notLiteral form.description) fun _ => rfl
  unfold checkAgainst
  dsimp only
  rw [← hab.demand]
  have hparameters := hab.parameters
  rw [DeclaredType.file_of, DeclaredType.file_of] at hparameters
  refine .ite htext.blank_iff (.ite (by rw [hab.base]) .none hempty) ?_
  split
  · exact .ite (by rw [htext.accepts]) .none (hliteral _)
  · generalize (DeclaredType.of p x).parameters = ps, (DeclaredType.of q y).parameters = qs
      at hparameters
    cases hparameters with
    | nil => exact .none
    | cons hparameter _ => exact helement hst hparameter.1 hparameter.2
  · refine h.agree_bracketed .list hst fun hlist => ?_
    generalize (DeclaredType.of p x).parameters = ps, (DeclaredType.of q y).parameters = qs
      at hparameters
    cases hparameters with
    | nil => exact .none
    | cons hparameter _ =>
      have hparts : List.Forall₂ (TwinValue f g) (parts s) (parts t) :=
        hlist.elim (fun hkind => hst.values hst.intact (.inl hkind)) (no_parts hst.toTwinSite)
      exact .all hparts fun x y hxy => helement hxy hparameter.1 hparameter.2
  · refine h.agree_bracketed .map hst fun hmap => ?_
    have hparts := hmap.elim (entries hst) (no_parts hst.toTwinSite)
    exact .all hparts fun x y ⟨hxy, hintact, hkind⟩ =>
      h.agree_entry helement hparameters hxy hintact hkind
  · exact h.agree_named hst hab

theorem agree_element {p q : SchemaFile} (hpq : Kin f g p q) :
    Judges v w f g p q ((Checker.mk f r).checkElement p) ((Checker.mk g r).checkElement q) :=
  fun _ _ _ _ hst hxy hkind => h.agree_against hst hpq hxy (.inr hkind)
    fun _ _ _ _ _ _ _ => .none

/-- A value is judged alike by the type of a field, wherever the field is declared. -/
theorem agree_value {p q : SchemaFile} (hpq : Kin f g p q) {x y : Site} (hst : TwinValue f g s t)
    (hxy : TwinSite p q x y) (hkind : x.kind = .fieldType) :
    ((Checker.mk f r).checkValue s p x).Agree v w ((Checker.mk g r).checkValue t q y) :=
  h.agree_against hst hpq hxy (.inl hkind) (h.agree_element hpq)

end Editions

end SchemaLang
