import SchemaLang.Proofs.Suggestions
import SchemaLang.Proofs.Wording
import SchemaLang.Report.Excerpt
import SchemaLang.Text.Similarity

/-!
# What messages quote

A message quotes names, each of them one lexeme or what stands for something, and so on
one line. Some quote a passage besides: the value that does not fit, from its first
lexeme to its last, or the type that an empty option is not allowed on. A passage is
quoted as it is spelled, with the blanks and comments inside it, so a message goes across
lines exactly when its passage does. In short, a report has a line for each diagnostic as
long as no passage goes across lines, and more lines otherwise.
-/

set_option autoImplicit false

namespace SchemaLang

/-! ## Problems -/

namespace Problem

def names : Problem → List String
  | syntaxFault fault => [fault.message]
  | unknownType name | unknownValue name | notAType name _ | notInstantiable name _ => [name]
  | misnamedArgument written declared => [written, declared]
  | duplicateNumber _ holder => [holder]
  | notLiteral expected _ => [expected]
  | foreignEnumValue text enum => [text, enum]
  | notAnEnumValue _ enum => [enum]
  | otherType expected _ => [expected]
  | _ => []

def passage? : Problem → Option String
  | emptyOption type => some type
  | notLiteral _ text | notAnEnumValue text _ => some text
  | otherType _ found => some found
  | _ => none

def OnOneLine (problem : Problem) : Prop := ∀ passage ∈ problem.passage?, OneLine passage

instance (problem : Problem) : Decidable problem.OnOneLine :=
  inferInstanceAs (Decidable (∀ passage ∈ problem.passage?, OneLine passage))

theorem oneLine_label (kind : NodeKind) : OneLine kind.label := by
  cases kind <;> simp [OneLine, NodeKind.label]

/-- A message goes across lines where the passage does that it quotes. -/
theorem oneLine_message_iff {problem : Problem} (h : ∀ name ∈ problem.names, OneLine name) :
    OneLine problem.message ↔ problem.OnOneLine := by
  delta message
  cases problem with
  | notAType name found | notInstantiable name found =>
    have hlabel := oneLine_label found
    simp_all [names, OnOneLine, passage?, OneLine, toString]
  | argumentCount expected found =>
    have hexpected := OneLine.repr expected
    have hfound := OneLine.repr found
    simp_all [OnOneLine, passage?, OneLine, toString]
  | duplicateNumber number holder =>
    have hnumber := OneLine.repr number
    simp_all [names, OnOneLine, passage?, OneLine, toString]
  | missingOpener value | missingCloser value =>
    cases value <;> simp [OnOneLine, passage?, OneLine, toString, Bracketed.title,
      Bracketed.opener, Bracketed.closer]
  | _ => simp_all [names, OnOneLine, passage?, OneLine, toString]

end Problem

/-! ## Findings -/

/-- What a finding quotes: names on one line each, and a passage only if it is on one line,
or the value itself, or a type that an empty option is not allowed on. What it offers is
a name. -/
structure Checker.Quotes (c : Checker) (f : Finding) : Prop where
  names : ∀ name ∈ f.problem.names, OneLine name
  passage : ∀ passage, f.problem.passage? = some passage → OneLine passage ∨
    passage = Text.trim (c.text f.node) ∨ f.problem = .emptyOption passage
  replacement : ∀ name, f.replacement? = some name → IsName name

namespace Checker

open Findings

variable {c : Checker} {s value : Site} {type : DeclaredType}

theorem quotes_of {problem : Problem} {n : Node} (hnames : ∀ name ∈ problem.names, OneLine name)
    (hpassage : ∀ passage, problem.passage? = some passage → OneLine passage ∨
      passage = Text.trim (c.text n) ∨ problem = .emptyOption passage) :
    (Findings.of problem n).All c.Quotes :=
  all_of ⟨hnames, hpassage, nofun⟩

theorem quotes_names {problem : Problem} {n : Node} (hpassage : problem.passage? = .none)
    (h : ∀ name ∈ problem.names, OneLine name) : (Findings.of problem n).All c.Quotes :=
  quotes_of h fun passage hsome => by simp [hpassage] at hsome

theorem quotes_value {problem : Problem} (hpassage : problem.passage? = some (c.valueText value))
    (h : ∀ name ∈ problem.names, OneLine name) :
    (Findings.of problem value.node).All c.Quotes := by
  refine quotes_of h fun passage hsome => .inr (.inl ?_)
  rw [hpassage] at hsome
  exact (Option.some.inj hsome).symm

/-! ### Values -/

theorem quotes_enumLiteral (h : c.file.Has value) (htype : type.file.Has type.site)
    (hbase : OneLine type.base) (enum : Definition) :
    (c.checkEnumLiteral value type enum).All c.Quotes := by
  have hother : (Findings.of (.notAnEnumValue (c.valueText value) type.base)
      value.node).All c.Quotes := quotes_value rfl (List.forall_mem_singleton.mpr hbase)
  refine all_append (all_judge _) ?_
  split
  · rename_i found hfound
    split
    · split
      · exact all_none
      · -- what names another enum's value is a name
        have hnominal := nominal_of_enumTarget? h htype hfound
        have htyped : OneLine (c.valueText value) :=
          .of_not_white fun x hx => Scan.isWhite_of_spellsName (hnominal.spells x hx)
        refine quotes_names rfl ?_
        rw [Problem.names, List.forall_mem_cons, List.forall_mem_singleton]
        exact ⟨htyped, hbase⟩
    · exact hother
  · exact hother

theorem quotes_instance (h : c.file.Has value) (hbase : OneLine type.base)
    (target : Definition) : (c.checkInstance value type target).All c.Quotes := by
  have hother : (Findings.of (.otherType type.base (c.valueText value))
      value.node).All c.Quotes := quotes_value rfl (List.forall_mem_singleton.mpr hbase)
  rw [checkInstance]
  split
  · split
    · exact all_none
    · rename_i name hname
      split
      · exact all_none
      · refine quotes_of (List.forall_mem_singleton.mpr hbase) fun passage hsome => .inl ?_
        rw [← Option.some.inj hsome]
        exact SchemaFile.oneLine_of_firstChild? h.1 rfl hname
  · refine all_append (all_judge _) ?_
    split
    · split
      · exact all_none
      · exact quotes_names rfl (List.forall_mem_nil _)
    · exact hother
  · exact hother

theorem quotes_named (h : c.file.Has value) (htype : type.file.Has type.site)
    (hbase : OneLine type.base) : (c.checkNamed value type).All c.Quotes := by
  rw [checkNamed]
  split
  · exact all_none
  · split
    · exact quotes_enumLiteral h htype hbase _
    · exact quotes_instance h hbase _
    · exact quotes_instance h hbase _
    · exact all_none

theorem quotes_bracketed (form : Bracketed) {inner : Findings} (hinner : inner.All c.Quotes) :
    (c.checkBracketed form value inner).All c.Quotes := by
  rw [checkBracketed]
  split
  · exact quotes_names rfl (List.forall_mem_nil _)
  · split
    · exact quotes_names rfl (List.forall_mem_nil _)
    · exact hinner

theorem has_of_mem_parts {part : Site} (h : c.file.Has value) (hpart : part ∈ parts value) :
    c.file.Has part := by
  obtain ⟨n, hn, rfl⟩ := List.mem_map.mp hpart
  exact h.child (List.mem_of_mem_filter hn)

section Against

variable {element : Site → Site → Findings} {parameters : List Site}
  (helement : ∀ part, c.file.Has part → ∀ parameter ∈ parameters,
    (element part parameter).All c.Quotes)
include helement

theorem quotes_entry (h : c.file.Has value) :
    (checkEntry element parameters value).All c.Quotes := by
  rw [checkEntry]
  split
  · rename_i key part hparts
    have hkey : c.file.Has key := has_of_mem_parts h (by simp [hparts])
    have hpart : c.file.Has part := has_of_mem_parts h (by simp [hparts])
    split
    · exact all_append (helement key hkey _ (by simp)) (helement part hpart _ (by simp))
    · exact all_none
  · exact quotes_names rfl (List.forall_mem_nil _)

/-- How a part of a value is checked against a parameter. -/
theorem quotes_against (hparameters : type.parameters = parameters) (h : c.file.Has value)
    (htype : type.file.Has type.site) (hbase : OneLine type.base) :
    (c.checkAgainst element value type).All c.Quotes := by
  rw [checkAgainst, hparameters]
  split
  · split
    · exact all_none
    · refine quotes_of (List.forall_mem_nil _) fun passage hsome => .inr (.inr ?_)
      rw [← Option.some.inj hsome]
  split
  · rename_i form _
    split
    · exact all_none
    · refine quotes_value rfl (List.forall_mem_singleton.mpr ?_)
      cases form <;> simp [OneLine, LiteralForm.description]
  · split
    · exact all_none
    · exact helement value h _ List.mem_cons_self
  · refine quotes_bracketed .list ?_
    split
    · exact all_none
    · exact all_map fun part hpart =>
        helement part (has_of_mem_parts h hpart) _ List.mem_cons_self
  · exact quotes_bracketed .map (all_map fun entry hentry =>
      quotes_entry helement (has_of_mem_parts h hentry))
  · exact quotes_named h htype hbase

end Against

theorem quotes_checkValue (h : c.file.Has value) {file : SchemaFile} {t : Site}
    (ht : file.Has t) (hkind : t.kind = .fieldType) :
    (c.checkValue value file t).All c.Quotes := by
  have hsound := DeclaredType.sound_of_fieldType ht hkind
  refine quotes_against (fun part hpart parameter hparameter => ?_) rfl h hsound.site
    (DeclaredType.oneLine_of_fieldType ht hkind)
  have hfile := DeclaredType.file_of file t
  have helement := hsound.element hparameter
  have hbase := hsound.oneLine_element hparameter
  rw [hfile] at helement hbase
  exact quotes_against (fun _ _ _ hnone => by rw [helement.2] at hnone; cases hnone) rfl hpart
    helement.1.site hbase

/-! ### Tags and constructions -/

theorem quotes_forField {target : Definition} (htarget : target.file.Has target.site)
    {field : Node} (hfield : field ∈ target.file.orderedFields target.site.node)
    (h : c.file.Has value) : (c.checkForField target field value).All c.Quotes := by
  rw [checkForField]
  split
  · exact all_none
  · rename_i type htype
    have hchild := (SchemaFile.child_of_mem_orderedFields hfield).1
    have hkind := List.find?_some htype
    exact quotes_checkValue h
      ((htarget.child hchild).child (List.mem_of_find?_eq_some htype)) (eq_of_beq hkind)

/-- A name that is not that of its field comes with the name of the field. -/
theorem quotes_namedArgument {target : Definition} (htarget : target.file.Has target.site)
    {field : Node} (hfield : field ∈ target.file.orderedFields target.site.node)
    {argument : Site} (h : c.file.Has argument) :
    (c.checkNamedArgument target field argument).All c.Quotes := by
  rw [checkNamedArgument]
  split
  · exact all_none
  rename_i written hwritten
  refine all_append ?_ ?_
  · split
    · exact all_none
    · obtain ⟨hchild, -, name, hname⟩ := SchemaFile.field_of_mem_orderedFields htarget.1 hfield
      have hkind := (SchemaFile.child_of_mem_orderedFields hfield).2.1
      have hdeclared : IsName ((target.file.fieldName? field).getD "") := by
        rw [hname]
        exact SchemaFile.isName_of_name? (htarget.child hchild).1
          ((SchemaFile.name?_of_field hkind).trans hname)
      intro f hf
      rw [List.mem_singleton.mp hf]
      refine ⟨?_, fun passage hsome => by simp [Problem.passage?] at hsome,
        fun name hname => Option.some.inj hname ▸ hdeclared⟩
      rw [Problem.names, List.forall_mem_cons, List.forall_mem_singleton]
      exact ⟨SchemaFile.oneLine_of_firstChild? h.1 rfl hwritten, hdeclared.oneLine⟩
  · split
    · exact all_none
    · rename_i value hvalue
      exact quotes_forField htarget hfield (has_of_mem_parts h (List.mem_of_find?_eq_some hvalue))

theorem quotes_unresolved [Likeness] {problem : Problem} {n : Node}
    (hpassage : problem.passage? = .none) (hnames : problem.names = [c.text n])
    (h : OneLine (c.text n)) :
    (c.unresolved problem n).All c.Quotes := by
  intro f hf
  rw [List.mem_singleton.mp hf]
  refine ⟨?_, fun passage hsome => by simp [hpassage] at hsome, fun name hsuggestion => ?_⟩
  · rwa [hnames, List.forall_mem_singleton]
  · obtain ⟨-, m, hm, -, hname⟩ := SchemaFile.exists_of_suggestion? hsuggestion
    exact SchemaFile.isName_of_name? hm hname

section Targets

variable {name : Node} (hname : OneLine (c.text name)) {target? : Option Definition}
include hname

theorem quotes_targetExists [Likeness] : (c.checkTargetExists name target?).All c.Quotes := by
  rw [checkTargetExists]
  split
  · exact quotes_unresolved rfl rfl hname
  · exact all_none

theorem quotes_unmatched [Likeness] (n : Node) :
    (c.checkUnmatched n name target?).All c.Quotes := by
  refine all_append (quotes_targetExists hname) ?_
  split
  · exact all_judge _
  · exact all_none

variable (htarget : ∀ target, target? = some target → target.file.Has target.site)
include htarget

theorem quotes_withFields [Likeness] {check : Definition → List Node → Findings}
    (hcheck : ∀ target, target.file.Has target.site →
      (check target (target.file.orderedFields target.site.node)).All c.Quotes) :
    (c.withFields name target? check).All c.Quotes := by
  cases target? with
  | none => exact quotes_targetExists hname
  | some target =>
    rw [withFields.eq_def]
    dsimp only
    split
    · exact hcheck target (htarget target rfl)
    · exact quotes_names rfl (List.forall_mem_singleton.mpr hname)

theorem quotes_positional [Likeness] {arguments : Site} (h : c.file.Has arguments) :
    (c.checkPositional s name target? arguments).All c.Quotes := by
  refine quotes_withFields hname htarget fun target hhas => ?_
  dsimp only
  split
  · refine all_map fun ⟨value, field⟩ hpair => ?_
    obtain ⟨hvalue, hfield⟩ := List.of_mem_zip hpair
    exact quotes_forField hhas hfield (has_of_mem_parts h hvalue)
  · exact all_append (quotes_names rfl (List.forall_mem_nil _)) (all_judge _)

theorem quotes_namedArguments [Likeness] {arguments : List Site}
    (h : ∀ a ∈ arguments, c.file.Has a) :
    (c.checkNamedArguments s name target? arguments).All c.Quotes := by
  refine quotes_withFields hname htarget fun target hhas => ?_
  dsimp only
  split
  · refine all_map fun ⟨argument, field⟩ hpair => ?_
    obtain ⟨hargument, hfield⟩ := List.of_mem_zip hpair
    exact quotes_namedArgument hhas hfield (h argument hargument)
  · exact all_append (quotes_names rfl (List.forall_mem_nil _)) (all_map fun _ _ => all_judge _)

end Targets

theorem has_of_mem_childSites {kind : NodeKind} {t : Site} (h : c.file.Has s)
    (ht : t ∈ childSites s kind) : c.file.Has t := by
  obtain ⟨n, hn, rfl⟩ := List.mem_map.mp ht
  exact h.child (List.mem_of_mem_filter hn)

variable [Likeness]

theorem quotes_tag (h : c.file.Has s) : (c.checkTag s).All c.Quotes := by
  rw [checkTag]
  split
  · exact all_none
  · rename_i name hfilter
    obtain ⟨hhead, hkind⟩ := Option.filter_eq_some_iff.mp hfilter
    have hname : OneLine (c.text name) := SchemaFile.oneLine_of_child h.1
      (List.mem_of_head? hhead) (by rw [of_decide_eq_true hkind]; rfl)
    have htarget (target : Definition) (hsome : c.resolve? s (c.text name) = some target) :=
      (c.resolver.has_of_resolve? h hsome).1
    dsimp only
    split
    · exact quotes_unmatched hname _
    · split
      · rename_i arguments harguments
        exact quotes_positional hname htarget
          (has_of_mem_childSites h (List.mem_of_head? harguments))
      · exact quotes_unmatched hname _
      · exact quotes_namedArguments hname htarget fun a ha => has_of_mem_childSites h ha

theorem quotes_construction (h : c.file.Has s) : (c.checkConstruction s).All c.Quotes := by
  rw [checkConstruction]
  split
  · exact all_none
  · rename_i name hfirst
    have hname : OneLine (c.text name) := SchemaFile.oneLine_of_firstChild? h.1 rfl hfirst
    have htarget (target : Definition) (hsome : c.resolve? s (c.text name) = some target) :=
      (c.resolver.has_of_resolve? h hsome).1
    dsimp only
    split
    · rename_i arguments harguments
      split
      · exact quotes_unmatched hname _
      · exact quotes_positional hname htarget
          (has_of_mem_childSites h (List.mem_of_head? harguments))
    · exact quotes_unmatched hname _

/-! ### Places -/

theorem quotes_typeName (h : OneLine (c.text s.node)) : (c.checkTypeName s).All c.Quotes := by
  rw [checkTypeName]
  split
  · exact all_none
  · split
    · split
      · exact all_none
      · exact quotes_names rfl (List.forall_mem_singleton.mpr h)
    · split
      · exact all_none
      · exact quotes_unresolved rfl rfl h

theorem quotes_fieldType (h : c.file.Has s) (hkind : s.kind = .fieldType) :
    (c.checkFieldType s).All c.Quotes := by
  have hpart {t : Site} (ht : t ∈ s.children) : (c.checkTypeName t).All c.Quotes := by
    obtain ⟨n, hn, rfl⟩ := List.mem_map.mp ht
    have hplace := c.file.kind_of_mem_children h.1 hn
    rw [show s.node.kind = .fieldType from hkind] at hplace
    refine quotes_typeName (SchemaFile.oneLine_of_child h.1 hn ?_)
    have hall : ∀ kind ∈ NodeKind.fieldType.inhabitants, kind.isLexeme = true := by decide
    exact hall _ hplace
  rw [checkFieldType]
  split
  · exact all_none
  · rename_i head parameters hchildren
    refine all_append (hpart (by simp [hchildren])) ?_
    split
    · exact all_map fun t ht => hpart (by simp [hchildren, ht])
    · exact all_none

theorem quotes_command (h : c.file.Has s) : (c.checkCommand s).All c.Quotes := by
  refine all_map fun t ht => ?_
  obtain ⟨n, hn, rfl⟩ := List.mem_map.mp ht
  obtain ⟨hchild, hkind⟩ := List.mem_filter.mp hn
  have hlexeme : n.kind.isLexeme = true := by rw [eq_of_beq hkind]; rfl
  exact quotes_typeName (SchemaFile.oneLine_of_child h.1 hchild hlexeme)

theorem quotes_bareName (h : c.file.Has s) (hkind : s.kind = .nameRef) (judged : List Nat) :
    (c.checkBareName judged s).All c.Quotes := by
  have hnode : s.node.kind = .nameRef := hkind
  have hname : OneLine (c.text s.node) := SchemaFile.oneLine_of_isLexeme
    (c.file.mem_of_kind_ne h.1 (by simp [hnode])) (by rw [hnode]; rfl)
  rw [checkBareName]
  split
  · exact all_none
  · split
    · exact quotes_unresolved rfl rfl hname
    · exact all_none

omit [Likeness] in
theorem quotes_fieldNumbers (h : c.file.Has s) : (c.checkFieldNumbers s).All c.Quotes := by
  intro f hf
  obtain ⟨number, first, field, anchor, ⟨before, after, hsplit, -, hfirst⟩, -, rfl⟩ :=
    SchemaFile.mem_duplicateNumbers_numberedFields.mp hf
  have hchild : first ∈ s.node.childrenOfKind .field := by
    rw [hsplit]
    exact List.mem_append_left _ (List.mem_of_find?_eq_some hfirst)
  refine ⟨List.forall_mem_singleton.mpr (SchemaFile.oneLine_of_fieldName?
    (h.child (List.mem_of_mem_filter hchild)).1), nofun, nofun⟩

theorem quotes_site (h : c.file.Has s) (judged : List Nat) :
    (c.checkSite judged s).All c.Quotes := by
  rw [checkSite]
  split
  · exact quotes_fieldType h ‹_›
  · exact quotes_command h
  · exact quotes_tag h
  · exact quotes_construction h
  · exact quotes_bareName h ‹_› judged
  · exact quotes_fieldNumbers h
  · exact quotes_fieldNumbers h
  · exact all_none

end Checker

theorem quotes_of_mem_checkFile [Likeness] {file : SchemaFile} {r : Resolver} {f : Finding}
    (hf : f ∈ checkFile file r) : (Checker.mk file r).Quotes f := by
  rcases List.mem_append.mp hf with hf | hf
  · obtain ⟨⟨n, fault⟩, hfault, rfl⟩ := List.mem_map.mp hf
    have hplain := Fault.oneLine_message (file.plain_of_mem_faults hfault)
    exact ⟨List.forall_mem_singleton.mpr hplain, nofun, nofun⟩
  · obtain ⟨t, ht, judged, hf⟩ := Checker.exists_of_mem_checkSites hf
    exact Checker.quotes_site (c := ⟨file, r⟩) (SchemaFile.has_of_mem_sites ht) judged f hf

/-! ## Reports in short -/

namespace Text

theorem split_intercalate_break {texts : List String} (hne : texts ≠ []) :
    split '\n' ("\n".intercalate texts) = texts.flatMap (split '\n') := by
  induction texts with
  | nil => exact absurd rfl hne
  | cons first rest ih =>
    cases rest with
    | nil => simp [split]
    | cons second rest =>
      have hrest := ih (List.cons_ne_nil _ _)
      rw [split, String.toList_intercalate] at hrest ⊢
      rw [List.map_cons, List.map_cons, List.intercalate_cons_cons, List.append_assoc,
        show "\n".toList = ['\n'] from rfl, List.singleton_append, splitOn_append_cons,
        List.map_append, List.flatMap_cons]
      exact congrArg (split '\n' first ++ ·) hrest

theorem length_split_pos (text : String) : 0 < (split '\n' text).length := by
  simp [split, List.length_pos_iff, List.splitOn_ne_nil]

theorem split_break_of_oneLine {text : String} (h : OneLine text) : split '\n' text = [text] := by
  have hplain : ∀ piece ∈ [text], '\n' ∉ piece.toList := List.forall_mem_singleton.mpr h
  simpa using split_intercalate (show "\n".toList = ['\n'] from rfl) hplain (by simp)

theorem oneLine_of_length_split {text : String} (h : (split '\n' text).length = 1) :
    OneLine text := by
  obtain ⟨piece, hpiece⟩ := List.length_eq_one_iff.mp h
  have htext := congrArg (List.intercalate ['\n']) (congrArg (List.map String.toList) hpiece)
  rw [split, List.map_map, show String.toList ∘ String.ofList = id from
    funext fun _ => String.toList_ofList, List.map_id, List.intercalate_splitOn] at htext
  rw [OneLine, htext]
  have hmem : piece ∈ split '\n' text := by rw [hpiece]; exact List.mem_singleton_self piece
  simpa [List.intercalate] using not_mem_of_mem_split hmem

/-- Texts one below the other have more lines than there are texts as soon as one of
them has a line break. -/
theorem length_le_length_lines (texts : List String) :
    texts.length ≤ (texts.flatMap (split '\n')).length ∧
      ((texts.flatMap (split '\n')).length = texts.length ↔ ∀ text ∈ texts, OneLine text) := by
  induction texts with
  | nil => simp
  | cons first rest ih =>
    have hpos := length_split_pos first
    rw [List.flatMap_cons, List.length_append, List.length_cons, List.forall_mem_cons]
    refine ⟨by omega, fun hlength => ?_, fun ⟨hfirst, hrest⟩ => ?_⟩
    · exact ⟨oneLine_of_length_split (by omega), ih.2.mp (by omega)⟩
    · rw [split_break_of_oneLine hfirst, ih.2.mpr hrest, List.length_singleton, Nat.add_comm]

end Text

namespace Excerpt

theorem oneLine_short_iff {path : Path} (hpath : OneLine path.spelling) (d : Diagnostic) :
    OneLine (short path d) ↔ OneLine d.message := by
  have hseverity : OneLine d.severity.label := by
    cases d.severity <;> simp [OneLine, Severity.label]
  have hcode : OneLine d.code.label := by
    cases d.code <;> simp [OneLine, DiagnosticCode.label]
  rw [short]
  generalize (d.lines?.map LineSpan.start).getD ⟨0, 0⟩ = start
  have hline := OneLine.repr start.line
  have hcolumn := OneLine.repr start.column
  simp_all [location, OneLine, toString]

end Excerpt

namespace SchemaFile

/-- In short, a report has at least one line for each diagnostic. It has exactly one for
each, and the diagnostics in order as its lines, as long as no message quotes a passage
across lines; otherwise it has more. All that is quoted as it is spelled is a value, or a
type that an empty option is not allowed on. -/
theorem lines_of_compact [Likeness] (file : SchemaFile) (r : Resolver) (path : Path)
    (hpath : OneLine path.spelling) :
    let ds := (checkFile file r).map (Finding.diagnostic file)
    let lines := Text.split '\n' (Excerpt.compact path ds)
    (∀ f ∈ checkFile file r, (OneLine f.problem.message ↔ f.problem.OnOneLine) ∧
      ∀ passage, f.problem.passage? = some passage → OneLine passage ∨
        passage = Text.trim (file.text f.node) ∨ f.problem = .emptyOption passage) ∧
    (ds = [] → Excerpt.compact path ds = "") ∧
    (ds ≠ [] → ds.length ≤ lines.length ∧
      (lines = ds.map (Excerpt.short path) ↔ ∀ f ∈ checkFile file r, f.problem.OnOneLine) ∧
      (lines.length = ds.length ↔ ∀ f ∈ checkFile file r, f.problem.OnOneLine)) := by
  intro ds lines
  have hquotes (f : Finding) (hf : f ∈ checkFile file r) := quotes_of_mem_checkFile hf
  have hmessage (f : Finding) (hf : f ∈ checkFile file r) :
      OneLine f.problem.message ↔ f.problem.OnOneLine :=
    Problem.oneLine_message_iff (hquotes f hf).names
  refine ⟨fun f hf => ⟨hmessage f hf, (hquotes f hf).passage⟩, fun hnil => by rw [hnil]; rfl,
    fun hne => ?_⟩
  have hlines : lines = (ds.map (Excerpt.short path)).flatMap (Text.split '\n') :=
    Text.split_intercalate_break (by simpa using hne)
  have hshort : (∀ text ∈ ds.map (Excerpt.short path), OneLine text) ↔
      ∀ f ∈ checkFile file r, f.problem.OnOneLine := by
    rw [List.forall_mem_map, List.forall_mem_map]
    exact forall₂_congr fun f hf => (Excerpt.oneLine_short_iff hpath _).trans (hmessage f hf)
  obtain ⟨hle, hlength⟩ := Text.length_le_length_lines (ds.map (Excerpt.short path))
  rw [← hlines, List.length_map] at hle hlength
  refine ⟨hle, ⟨fun heq => hshort.mp (hlength.mp ?_), fun h => ?_⟩, hlength.trans hshort⟩
  · rw [heq, List.length_map]
  · exact Text.split_intercalate (show "\n".toList = ['\n'] from rfl) (hshort.mpr h)
      (by simpa using hne)

section

attribute [local instance] Text.likeness

/-- A string for a number is reported on one line. -/
theorem lines_of_compact_string :
    let file := read (.unsaved 0) "type P { int32 x = 1; } [P(\"s\")] type Q { }"
    let ds := (checkFile file .localOnly).map (Finding.diagnostic file)
    OneLine "main.schema" ∧ ds.length = 1 ∧
      Text.split '\n' (Excerpt.compact ⟨"main.schema"⟩ ds) =
        ds.map (Excerpt.short ⟨"main.schema"⟩) := by
  intro file ds
  have hpath : OneLine "main.schema" := by simp [OneLine]
  have hlength : ds.length = 1 := by
    rw [List.length_map]
    decide +kernel
  have hne : ds ≠ [] := List.ne_nil_of_length_pos (by omega)
  refine ⟨hpath, hlength, ?_⟩
  obtain ⟨-, -, h⟩ := lines_of_compact file .localOnly ⟨"main.schema"⟩ hpath
  exact (h hne).2.1.mpr (by decide +kernel)

/-- A list that is closed on the next line is quoted with its line break. -/
theorem compact_breaks_line :
    let file := read (.unsaved 0) "type P { int32 x = 1; } [P([\n])] type Q { }"
    let ds := (checkFile file .localOnly).map (Finding.diagnostic file)
    OneLine "main.schema" ∧ ds.length = 1 ∧
      Excerpt.compact ⟨"main.schema"⟩ ds =
        "main.schema:1:28: error [E030] Expected an integer. Found '[\n]'" ∧
      (Text.split '\n' (Excerpt.compact ⟨"main.schema"⟩ ds)).length = 2 := by
  intro file ds
  have hds : ds.length = 1 := by
    rw [List.length_map]
    decide +kernel
  have hcompact : Excerpt.compact ⟨"main.schema"⟩ ds =
      "main.schema:1:28: error [E030] Expected an integer. Found '[\n]'" := by
    decide +kernel
  refine ⟨by simp [OneLine], hds, hcompact, ?_⟩
  rw [hcompact]
  decide +kernel

end

end SchemaFile

end SchemaLang
