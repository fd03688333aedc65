import SchemaLang.Proofs.DeclaredTypes
import SchemaLang.Proofs.Incompleteness
import SchemaLang.Proofs.LiteralTexts
import SchemaLang.Proofs.Provenance
import SchemaLang.Text.Similarity

/-!
# Clean reports

A value fits a declared type by the form of its text, element by element, or by
what it names or constructs, and then the arguments of the construction fit as
well. The check of one value looks at its shape and at the names in it only;
what it leaves out, the arguments of constructions in it, is checked where
these stand. So where no error is reported all arguments fit, however deep they
stand.
-/

set_option autoImplicit false

namespace SchemaLang

namespace Checker

/-! ## What fits a type -/

inductive Fits (c : Checker) : Site → DeclaredType → Prop where
  | empty {v : Site} {t : DeclaredType} (htext : c.valueText v = "_")
      (hbase : t.base = "option") : Fits c v t
  | literal {v : Site} {t : DeclaredType} {form : LiteralForm} (htext : c.valueText v ≠ "_")
      (hbase : LiteralForm.ofType? t.base = some form) (hparameters : t.parameters = [])
      (haccepts : form.accepts (c.valueText v) = true) : Fits c v t
  | option {v : Site} {t : DeclaredType} {inner : Site} (htext : c.valueText v ≠ "_")
      (hbase : t.base = "option") (hparameters : t.parameters = [inner])
      (hinner : Fits c v (.of t.file inner)) : Fits c v t
  | plainOption {v : Site} {t : DeclaredType} (htext : c.valueText v ≠ "_")
      (hbase : t.base = "option") (hparameters : t.parameters = []) : Fits c v t
  | list {v : Site} {t : DeclaredType} {inner : Site} (htext : c.valueText v ≠ "_")
      (hbase : t.base = "list") (hparameters : t.parameters = [inner]) (hkind : v.kind = .list)
      (hparts : ∀ part ∈ parts v, Fits c part (.of t.file inner)) : Fits c v t
  | plainList {v : Site} {t : DeclaredType} (htext : c.valueText v ≠ "_")
      (hbase : t.base = "list") (hparameters : t.parameters = []) (hkind : v.kind = .list) :
      Fits c v t
  | map {v : Site} {t : DeclaredType} {keys values : Site} (htext : c.valueText v ≠ "_")
      (hbase : t.base = "map") (hparameters : t.parameters = [keys, values])
      (hkind : v.kind = .map) (hkinds : ∀ entry ∈ parts v, entry.kind = .mapEntry)
      (hentries : ∀ entry ∈ parts v,
        List.Forall₂ (Fits c) (parts entry) [.of t.file keys, .of t.file values]) : Fits c v t
  | plainMap {v : Site} {t : DeclaredType} (htext : c.valueText v ≠ "_")
      (hbase : t.base = "map") (hparameters : t.parameters = []) (hkind : v.kind = .map) :
      Fits c v t
  /-- One of the values of the enum itself. -/
  | enumValue {v : Site} {t : DeclaredType} {enum found : Definition} (htext : c.valueText v ≠ "_")
      (hnamed : t.demand = .named) (htarget : c.resolver.resolve? t.file t.site t.base = some enum)
      (henum : enum.kind = .enum) (hkind : v.kind = .nameRef)
      (hfound : c.enumTarget? v t = some found) (hvalue : found.kind = .enumValue)
      (hchild : found.isChildOf enum = true) : Fits c v t
  /-- A construction of the very definition, with arguments that fit its fields. -/
  | construction {v : Site} {t : DeclaredType} {target d : Definition} {head arguments : Node}
      (htext : c.valueText v ≠ "_") (hnamed : t.demand = .named)
      (htarget : c.resolver.resolve? t.file t.site t.base = some target)
      (hinstantiable : target.isInstantiable = true) (hkind : v.kind = .construction)
      (hhead : v.node.firstChild? .constructorName = some head)
      (hd : c.resolve? v (c.text head) = some d) (hsame : d.same target = true)
      (harguments : v.node.firstChild? .arguments = some arguments)
      (hfit : List.Forall₂ (Fits c) (parts (v.child arguments)) d.fieldTypes) : Fits c v t
  /-- The bare name of the very definition, if it has no fields. -/
  | bareName {v : Site} {t : DeclaredType} {target d : Definition} (htext : c.valueText v ≠ "_")
      (hnamed : t.demand = .named)
      (htarget : c.resolver.resolve? t.file t.site t.base = some target)
      (hinstantiable : target.isInstantiable = true) (hkind : v.kind = .nameRef)
      (hd : c.resolve? v (c.valueText v) = some d) (hsame : d.same target = true)
      (hnone : target.file.orderedFields target.site.node = []) : Fits c v t
  /-- The name of a declared type that stands for no type asks nothing. -/
  | free {v : Site} {t : DeclaredType} (htext : c.valueText v ≠ "_") (hnamed : t.demand = .named)
      (htarget : ∀ target, c.resolver.resolve? t.file t.site t.base = some target →
        target.isType = false) : Fits c v t

def ArgumentsFit (c : Checker) (v : Site) : Prop :=
  ∀ head arguments d, v.node.firstChild? .constructorName = some head →
    v.node.firstChild? .arguments = some arguments → c.resolve? v (c.text head) = some d →
    List.Forall₂ c.Fits (parts (v.child arguments)) d.fieldTypes

section Values

variable {c : Checker} {v : Site} {t : DeclaredType}

theorem not_reported {problem : Problem} {n : Node} (h : (Findings.of problem n).reported = []) :
    False := by cases h

theorem fits_enumLiteral (h : WholeValue c.file v) (htext : c.valueText v ≠ "_")
    (hsound : t.Sound) (hnamed : t.demand = .named) {enum : Definition}
    (htarget : c.resolver.resolve? t.file t.site t.base = some enum) (henum : enum.kind = .enum)
    (hnil : (c.checkEnumLiteral v t enum).reported = []) : c.Fits v t := by
  rw [checkEnumLiteral, Findings.reported_append] at hnil
  replace hnil := (List.append_eq_nil_iff.mp hnil).2
  split at hnil
  · rename_i found hfound
    split at hnil
    · rename_i hvalue
      split at hnil
      · rename_i hchild
        exact .enumValue htext hnamed htarget henum
          (nameRef_of_enumTarget? h htext hsound.site hfound) hfound hvalue hchild
      · exact (not_reported hnil).elim
    · exact (not_reported hnil).elim
  · exact (not_reported hnil).elim

theorem exists_of_namesDefinition {s : Site} {name : String} {target : Definition}
    (h : c.namesDefinition s name target = true) :
    ∃ d, c.resolve? s name = some d ∧ d.same target = true := (Option.any_eq_true _ _).mp h

theorem fits_instance (h : WholeValue c.file v) (htext : c.valueText v ≠ "_")
    (hnamed : t.demand = .named) {target : Definition}
    (htarget : c.resolver.resolve? t.file t.site t.base = some target)
    (hinstantiable : target.isInstantiable = true)
    (hfit : v.kind = .construction → c.ArgumentsFit v)
    (hnil : (c.checkInstance v t target).reported = []) : c.Fits v t := by
  rw [checkInstance] at hnil
  split at hnil
  · rename_i hkind
    obtain ⟨head, arguments, behind, hchildren, hname, harguments, -⟩ :=
      c.file.construction_children h.mem hkind
    have hhead : v.node.firstChild? .constructorName = some head := by
      simp [Node.firstChild?, hchildren, hname]
    have harguments : v.node.firstChild? .arguments = some arguments := by
      simp [Node.firstChild?, hchildren, hname, harguments]
    rw [hhead] at hnil
    dsimp only at hnil
    split at hnil
    · rename_i hnames
      obtain ⟨d, hd, hsame⟩ := exists_of_namesDefinition hnames
      exact .construction htext hnamed htarget hinstantiable hkind hhead hd hsame harguments
        (hfit hkind head arguments d hhead harguments hd)
    · exact (not_reported hnil).elim
  · rename_i hkind
    rw [Findings.reported_append] at hnil
    replace hnil := (List.append_eq_nil_iff.mp hnil).2
    split at hnil
    · rename_i hnames
      obtain ⟨d, hd, hsame⟩ := exists_of_namesDefinition hnames
      split at hnil
      · exact .bareName htext hnamed htarget hinstantiable hkind hd hsame
          (List.length_eq_zero_iff.mp ‹_›)
      · exact (not_reported hnil).elim
    · exact (not_reported hnil).elim
  · exact (not_reported hnil).elim

theorem fits_named (h : WholeValue c.file v) (htext : c.valueText v ≠ "_") (hsound : t.Sound)
    (hnamed : t.demand = .named) (hfit : v.kind = .construction → c.ArgumentsFit v)
    (hnil : (c.checkNamed v t).reported = []) : c.Fits v t := by
  rw [checkNamed] at hnil
  split at hnil
  · rename_i hnone
    exact .free htext hnamed fun target htarget => by rw [hnone] at htarget; cases htarget
  · rename_i target htarget
    split at hnil
    · rename_i henum
      exact fits_enumLiteral h htext hsound hnamed htarget henum hnil
    · rename_i htype
      exact fits_instance h htext hnamed htarget (by rw [Definition.isInstantiable, htype]; rfl)
        hfit hnil
    · rename_i hcomponent
      exact fits_instance h htext hnamed htarget
        (by rw [Definition.isInstantiable, hcomponent]; rfl) hfit hnil
    · rename_i henum htype hcomponent
      refine .free htext hnamed fun target' htarget' => ?_
      obtain rfl := Option.some.inj (htarget.symm.trans htarget')
      rw [Definition.isType, Definition.isInstantiable, beq_false_of_ne henum,
        beq_false_of_ne htype, beq_false_of_ne hcomponent]
      rfl

theorem inner_of_bracketed (h : WholeValue c.file v) {form : Bracketed} {inner : Findings}
    (hnil : (c.checkBracketed form v inner).reported = []) :
    v.kind = form.node ∧ inner.reported = [] := by
  rw [checkBracketed] at hnil
  split at hnil
  · exact (not_reported hnil).elim
  · rename_i hopener
    split at hnil
    · exact (not_reported hnil).elim
    · exact ⟨(h.bracketed (not_ne_iff.mp hopener)).1, hnil⟩

theorem nil_of_mem_all {findings : List Findings} (hnil : (Findings.all findings).reported = [])
    {fs : Findings} (hfs : fs ∈ findings) : fs.reported = [] := by
  rw [Findings.reported_all, List.flatMap_eq_nil_iff] at hnil
  exact hnil fs hfs

def NestedFit (c : Checker) (v : Site) : Prop :=
  ∀ s ∈ c.file.sites, s.kind = .construction → s.node ∈ v.node.descendants → c.ArgumentsFit s

theorem NestedFit.child (h : c.NestedFit v) {w : Site} (hw : w.node ∈ v.node.children) :
    c.NestedFit w := fun s hs hkind hin => h s hs hkind <|
  List.mem_cons_of_mem _ (Node.mem_preorder_iff.mpr ⟨w.node, hw, List.mem_cons.mp hin⟩)

theorem mem_children_of_mem_parts {w : Site} (hw : w ∈ parts v) : w.node ∈ v.node.children := by
  obtain ⟨n, hn, rfl⟩ := List.mem_map.mp hw
  exact List.mem_of_mem_filter hn

section Against

variable {element : Site → Site → Findings}
  (helement : ∀ part parameter, WholeValue c.file part → c.NestedFit part →
    parameter ∈ t.parameters → (element part parameter).reported = [] →
    c.Fits part (.of t.file parameter))
  (h : WholeValue c.file v) (hnested : c.NestedFit v)
include helement h hnested

/-- An entry about which nothing is reported has a key and a value that fit. -/
theorem fits_entry (hkind : v.kind = .map) {keys values entry : Site}
    (hparameters : t.parameters = [keys, values]) (hentry : entry ∈ parts v)
    (hnil : (checkEntry element t.parameters entry).reported = []) : entry.kind = .mapEntry ∧
      List.Forall₂ c.Fits (parts entry) [.of t.file keys, .of t.file values] := by
  obtain ⟨hentryKind, key, value, hparts, hkey, hvalue, hkeyIn, hvalueIn⟩ :=
    parts_of_mem_entries h hkind entry hentry
  rw [checkEntry, hparts, hparameters] at hnil
  obtain ⟨hkeyNil, hvalueNil⟩ := List.append_eq_nil_iff.mp hnil
  have hin := hnested.child (mem_children_of_mem_parts hentry)
  rw [hparts]
  refine ⟨hentryKind, .cons ?_ (.cons ?_ .nil)⟩
  · exact helement key keys hkey (hin.child hkeyIn) (by simp [hparameters]) hkeyNil
  · exact helement value values hvalue (hin.child hvalueIn) (by simp [hparameters]) hvalueNil

/-- A value about which nothing is reported fits, if its parts do where the same is
true of them. -/
theorem fits_against (hsound : t.Sound) (hnil : (c.checkAgainst element v t).reported = []) :
    c.Fits v t := by
  rw [checkAgainst] at hnil
  split at hnil
  · rename_i htext
    split at hnil
    · exact .empty htext ‹_›
    · exact (not_reported hnil).elim
  rename_i htext
  rcases t.demand_cases with ⟨form, hdemand, hparameters, hbase⟩ | ⟨hdemand, hbase⟩ |
      ⟨hdemand, hbase⟩ | ⟨hdemand, hbase⟩ | hnamed
  · rw [hdemand] at hnil
    dsimp only at hnil
    split at hnil
    · exact .literal htext hbase hparameters ‹_›
    · exact (not_reported hnil).elim
  · rw [hdemand] at hnil
    have hcount : Parse.parameterCount? t.base = some 1 := by rw [hbase]; rfl
    rcases hsound.parameters_eq hcount with hparameters | hone
    · exact .plainOption htext hbase hparameters
    · obtain ⟨inner, hparameters⟩ := List.length_eq_one_iff.mp hone
      rw [hparameters] at hnil
      exact .option htext hbase hparameters
        (helement v inner h hnested (by simp [hparameters]) hnil)
  · rw [hdemand] at hnil
    obtain ⟨hkind, hinner⟩ := inner_of_bracketed h hnil
    have hcount : Parse.parameterCount? t.base = some 1 := by rw [hbase]; rfl
    rcases hsound.parameters_eq hcount with hparameters | hone
    · exact .plainList htext hbase hparameters hkind
    · obtain ⟨inner, hparameters⟩ := List.length_eq_one_iff.mp hone
      rw [hparameters] at hinner
      refine .list htext hbase hparameters hkind fun part hpart => ?_
      exact helement part inner (wholeValue_of_mem_parts h.site h.intact (.inl hkind) part hpart)
        (hnested.child (mem_children_of_mem_parts hpart)) (by simp [hparameters])
        (nil_of_mem_all hinner (List.mem_map_of_mem hpart))
  · rw [hdemand] at hnil
    obtain ⟨hkind, hinner⟩ := inner_of_bracketed h hnil
    have hcount : Parse.parameterCount? t.base = some 2 := by rw [hbase]; rfl
    rcases hsound.parameters_eq hcount with hparameters | htwo
    · exact .plainMap htext hbase hparameters hkind
    · obtain ⟨keys, values, hparameters⟩ := List.length_eq_two.mp htwo
      have hentries (entry : Site) (hentry : entry ∈ parts v) :=
        fits_entry helement h hnested hkind hparameters hentry
          (nil_of_mem_all hinner (List.mem_map_of_mem hentry))
      exact .map htext hbase hparameters hkind (fun entry hentry => (hentries entry hentry).1)
        fun entry hentry => (hentries entry hentry).2
  · rw [hnamed] at hnil
    exact fits_named h htext hsound hnamed
      (fun hkind => hnested v h.site hkind List.mem_cons_self) hnil

end Against

/-- A value fits the type that was found to have nothing against it. -/
theorem fits_of_checkValue (h : WholeValue c.file v) (hnested : c.NestedFit v) {file : SchemaFile}
    {type : Site} (htype : file.Has type) (hkind : type.kind = .fieldType)
    (hnil : (c.checkValue v file type).reported = []) : c.Fits v (.of file type) := by
  have hsound := DeclaredType.sound_of_fieldType htype hkind
  have hfile := DeclaredType.file_of file type
  refine fits_against (fun part parameter hpart hnested hin hnil => ?_) h hnested hsound hnil
  obtain ⟨hsound, hparameters⟩ := hsound.element hin
  rw [hfile] at hsound hparameters ⊢
  refine fits_against (fun _ _ _ _ hin => ?_) hpart hnested hsound hnil
  rw [hparameters] at hin
  cases hin

end Values

/-! ## Arguments -/

section Arguments

variable {c : Checker} {s : Site}

/-- Values that are matched with the fields of a definition fit them. -/
theorem fits_fields {d : Definition} (hd : d.file.Has d.site) {values : List Site}
    (hvalues : ∀ v ∈ values, WholeValue c.file v ∧ c.NestedFit v)
    (hnil : List.Forall₂ (fun v field => (c.checkForField d field v).reported = []) values
      (d.file.orderedFields d.site.node)) : List.Forall₂ c.Fits values d.fieldTypes := by
  have hfields (field : Node) (hfield : field ∈ d.file.orderedFields d.site.node) :=
    SchemaFile.field_of_mem_orderedFields hd.1 hfield
  rw [Definition.fieldTypes]
  generalize d.file.orderedFields d.site.node = fields at hfields hnil
  induction hnil with
  | nil => exact .nil
  | @cons v field values fields hfirst _ ih =>
    obtain ⟨⟨hwhole, hnested⟩, hvalues⟩ := List.forall_mem_cons.mp hvalues
    obtain ⟨⟨hchild, ⟨type, htype⟩, -⟩, hfields⟩ := List.forall_mem_cons.mp hfields
    rw [List.filterMap_cons_some (by rw [htype]; rfl)]
    refine .cons ?_ (ih hvalues hfields)
    rw [checkForField, htype] at hfirst
    have hkind := List.find?_some htype
    exact fits_of_checkValue hwhole hnested
      ((hd.child hchild).child (List.mem_of_find?_eq_some htype)) (eq_of_beq hkind) hfirst

/-- The name stands for nothing but is one of the standard library, or it stands for
a type or component of which the property holds. -/
def Applies (c : Checker) (s : Site) (head : Node) (P : Definition → Prop) : Prop :=
  (c.resolve? s (c.text head) = none ∧ c.file.knowsStandard (c.text head) = true) ∨
    ∃ d, c.resolve? s (c.text head) = some d ∧ d.isInstantiable = true ∧ P d

theorem applies_of_withFields [Likeness] {head : Node} {check : Definition → List Node → Findings}
    (hnil : (c.withFields head (c.resolve? s (c.text head)) check).reported = []) :
    c.Applies s head fun d => (check d (d.file.orderedFields d.site.node)).reported = [] := by
  cases htarget : c.resolve? s (c.text head) with
  | none =>
    rw [htarget, withFields, checkTargetExists] at hnil
    refine .inl ⟨htarget, ?_⟩
    by_contra hunknown
    rw [if_pos (by simpa using hunknown)] at hnil
    cases hnil
  | some d =>
    rw [htarget, withFields.eq_def] at hnil
    dsimp only at hnil
    split at hnil
    · exact .inr ⟨d, htarget, ‹_›, hnil⟩
    · exact (not_reported hnil).elim

theorem Applies.imp {head : Node} {P Q : Definition → Prop} (hs : c.file.Has s)
    (h : c.Applies s head P) (hPQ : ∀ d, d.file.Has d.site → P d → Q d) : c.Applies s head Q :=
  h.imp_right fun ⟨d, hd, hinstantiable, hP⟩ =>
    ⟨d, hd, hinstantiable, hPQ d (c.resolver.has_of_resolve? hs hd).1 hP⟩

structure Takes (c : Checker) (d : Definition) (values : List Site) : Prop where
  count : values.length = (d.file.orderedFields d.site.node).length
  fits : List.Forall₂ c.Fits values d.fieldTypes

/-- Arguments that are matched with fields agree with them one by one. -/
theorem forall₂_of_matched (check : Site → Node → Findings) {xs : List Site} {fields : List Node}
    {otherwise : Findings} (hnil : (if fields.length = xs.length then
      Findings.all ((xs.zip fields).map fun (x, field) => check x field) else
        otherwise).reported = []) (hother : otherwise.reported ≠ []) :
    List.Forall₂ (fun x field => (check x field).reported = []) xs fields := by
  split at hnil
  · rename_i hcount
    exact List.forall₂_iff_zip.mpr ⟨hcount.symm, fun {x field} hpair =>
      nil_of_mem_all hnil (List.mem_map.mpr ⟨(x, field), hpair, rfl⟩)⟩
  · exact absurd hnil hother

theorem takes_of_positional [Likeness] (hs : s ∈ c.file.sites) {head arguments : Node}
    (hchild : arguments ∈ s.node.children) (hkind : arguments.kind = .arguments)
    (hintact : arguments.Intact)
    (hnested : ∀ t ∈ c.file.sites, t.kind = .construction →
      t.node ∈ s.node.inside.preorder → c.ArgumentsFit t)
    (hnil : (c.checkPositional s head (c.resolve? s (c.text head))
      (s.child arguments)).reported = []) :
    c.Applies s head fun d => c.Takes d (parts (s.child arguments)) := by
  refine (applies_of_withFields hnil).imp (SchemaFile.has_of_mem_sites hs) fun d hd hnil => ?_
  have hmatched := forall₂_of_matched (fun v field => c.checkForField d field v) hnil
    (by simp [Findings.of])
  refine ⟨hmatched.length_eq,
    fits_fields hd (fun v hv => ⟨?_, fun t ht htkind hin => ?_⟩) hmatched⟩
  · have hsite := c.file.child_mem_sites hs hchild
    exact wholeValue_of_mem_parts hsite hintact (.inr (.inl hkind)) v hv
  · refine hnested t ht htkind (Node.mem_preorder_iff.mpr ⟨arguments, hchild, .inr ?_⟩)
    exact Node.mem_preorder_iff.mpr ⟨v.node, mem_children_of_mem_parts hv, List.mem_cons.mp hin⟩

def Gives (c : Checker) (argument : Site) (name : String) (value : Site) : Prop :=
  ∃ ref, argument.children = [argument.child ref, value] ∧ ref.kind = .fieldRef ∧ c.text ref = name

/-- The values of named arguments, with the names in front of them. -/
theorem exists_pairs {d : Definition} {arguments : List Site} {fields : List Node}
    (hs : s ∈ c.file.sites) (hintact : s.node.Intact) (hkind : s.kind ≠ .schemaFile)
    (harguments : ∀ a ∈ arguments, ∃ n ∈ s.node.children, s.child n = a ∧ n.kind = .namedArgument)
    (hfields : ∀ field ∈ fields, ∃ name, d.file.fieldName? field = some name)
    (hnil : List.Forall₂ (fun a field => (c.checkNamedArgument d field a).reported = []) arguments
      fields) :
    ∃ pairs : List (String × Site), List.Forall₂ (fun a p => c.Gives a p.1 p.2) arguments pairs ∧
      pairs.map (fun p => some p.1) = fields.map d.file.fieldName? ∧
      (∀ v ∈ pairs.map Prod.snd, WholeValue c.file v ∧ ∃ a ∈ arguments, v.node ∈ a.node.children) ∧
      List.Forall₂ (fun v field => (c.checkForField d field v).reported = [])
        (pairs.map Prod.snd) fields := by
  induction hnil with
  | nil => exact ⟨[], .nil, rfl, by simp, .nil⟩
  | @cons a field arguments fields hfirst _ ih =>
    obtain ⟨⟨n, hn, ha, hnamed⟩, hrest⟩ := List.forall_mem_cons.mp harguments
    obtain ⟨⟨declared, hdeclared⟩, hfields⟩ := List.forall_mem_cons.mp hfields
    obtain ⟨pairs, hgives, hnames, hvalues, hmatched⟩ := ih hrest hfields
    subst ha
    have hwhole := (c.file.intact_of_mem_children (mem_inside_root hs hkind) hintact hn).1
    obtain ⟨ref, value, hchildren, href, hfirstRef, hvalue, hfound⟩ :=
      namedValue?_of_intact (c.file.child_mem_sites hs hn) hwhole hnamed
    rw [checkNamedArgument, hfirstRef] at hfirst
    dsimp only at hfirst
    rw [hfound, hdeclared, Option.getD_some, Findings.reported_append] at hfirst
    obtain ⟨hnaming, hfirst⟩ := List.append_eq_nil_iff.mp hfirst
    have hwritten : c.text ref = declared := by
      by_contra hne
      rw [if_neg hne] at hnaming
      cases hnaming
    refine ⟨(declared, (s.child n).child value) :: pairs,
      .cons ⟨ref, ?_, href, hwritten⟩ hgives, ?_, ?_, .cons hfirst hmatched⟩
    · rw [Site.children, hchildren]
      rfl
    · rw [List.map_cons, List.map_cons, hnames, hdeclared]
    · rw [List.map_cons, List.forall_mem_cons]
      refine ⟨⟨hvalue, s.child n, List.mem_cons_self, ?_⟩, fun v hv => ?_⟩
      · rw [hchildren]
        exact List.mem_cons_of_mem _ List.mem_cons_self
      obtain ⟨hv, a, ha, hin⟩ := hvalues v hv
      exact ⟨hv, a, List.mem_cons_of_mem _ ha, hin⟩

def TakesNamed (c : Checker) (d : Definition) (arguments : List Site) : Prop :=
  ∃ pairs : List (String × Site), List.Forall₂ (fun a p => c.Gives a p.1 p.2) arguments pairs ∧
    pairs.map (fun p => some p.1) =
      (d.file.orderedFields d.site.node).map d.file.fieldName? ∧
    c.Takes d (pairs.map Prod.snd)

theorem takes_of_named [Likeness] (hs : s ∈ c.file.sites) (hintact : s.node.Intact)
    (hkind : s.kind ≠ .schemaFile) {head : Node}
    (hnested : ∀ t ∈ c.file.sites, t.kind = .construction →
      t.node ∈ s.node.inside.preorder → c.ArgumentsFit t)
    (hnil : (c.checkNamedArguments s head (c.resolve? s (c.text head))
      (childSites s .namedArgument)).reported = []) :
    c.Applies s head fun d => c.TakesNamed d (childSites s .namedArgument) := by
  have harguments : ∀ a ∈ childSites s .namedArgument, ∃ n ∈ s.node.children, s.child n = a ∧
      n.kind = .namedArgument := by
    intro a ha
    obtain ⟨n, hn, rfl⟩ := List.mem_map.mp ha
    obtain ⟨hn, hnamed⟩ := List.mem_filter.mp hn
    exact ⟨n, hn, rfl, eq_of_beq hnamed⟩
  refine (applies_of_withFields hnil).imp (SchemaFile.has_of_mem_sites hs) fun d hd hnil => ?_
  have hmatched := forall₂_of_matched (fun a field => c.checkNamedArgument d field a) hnil
    (by simp [Findings.of])
  obtain ⟨pairs, hgives, hnames, hvalues, hmatched⟩ := exists_pairs hs hintact hkind harguments
    (fun field hfield => (SchemaFile.field_of_mem_orderedFields hd.1 hfield).2.2) hmatched
  refine ⟨pairs, hgives, hnames, hmatched.length_eq, fits_fields hd (fun v hv => ?_) hmatched⟩
  obtain ⟨hwhole, a, ha, hin⟩ := hvalues v hv
  obtain ⟨n, hn, rfl, -⟩ := harguments a ha
  refine ⟨hwhole, fun t ht htkind hmem => hnested t ht htkind ?_⟩
  refine Node.mem_preorder_iff.mpr ⟨n, hn, .inr ?_⟩
  exact Node.mem_preorder_iff.mpr ⟨v.node, hin, List.mem_cons.mp hmem⟩

end Arguments

/-! ## Whole tags -/

/-- Named arguments and an argument list exclude each other. -/
theorem firstChild?_arguments_of_named {s : Site} {head : Node} {rest : List Node}
    (hchildren : s.node.children = head :: rest) (hhead : head.kind = .typeRef)
    (happlied : Applied (rest.map fun c => c.mark.shape)) (hne : childSites s .namedArgument ≠ []) :
    s.node.firstChild? .arguments = none := by
  obtain ⟨_, ha⟩ := List.exists_mem_of_ne_nil _ hne
  obtain ⟨n, hn, -⟩ := List.mem_map.mp ha
  obtain ⟨hn, hnamed⟩ := List.mem_filter.mp hn
  rw [hchildren] at hn
  have hin := (List.mem_cons.mp hn).resolve_left fun h => by
    rw [h, hhead] at hnamed
    cases hnamed
  rw [Node.firstChild?, hchildren, List.find?_cons_of_neg (by simp [hhead]), List.find?_eq_none]
  intro m hm
  have hother : m.kind ≠ .arguments := happlied.of_named (List.mem_map_of_mem hin)
    (eq_of_beq hnamed) (List.mem_map_of_mem hm)
  simpa using hother

section Tags

variable {c : Checker} {s : Site} (hs : s ∈ c.file.sites) (hkind : s.kind = .tag)
  (hintact : s.node.Intact)
include hs hkind hintact

theorem any_incomplete_childSites (kind : NodeKind) :
    (childSites s kind).any (·.node.incomplete) = false := by
  have hmem := mem_inside_root hs (by simp [hkind])
  rw [List.any_eq_false]
  intro part hpart
  obtain ⟨n, hn, rfl⟩ := List.mem_map.mp hpart
  have hwhole := (c.file.intact_of_mem_children hmem hintact (List.mem_of_mem_filter hn)).1
  exact (Bool.not_eq_true _).mpr hwhole.1

/-- The arguments of a tag that was not cut short are matched. -/
theorem incomplete_eq_false : (s.node.incomplete ||
    (childSites s .arguments).head?.any (·.node.incomplete) ||
    (childSites s .namedArgument).any (·.node.incomplete)) = false := by
  rw [hintact.1, any_incomplete_childSites hs hkind hintact, Bool.false_or, Bool.or_false]
  have hlists := any_incomplete_childSites hs hkind hintact .arguments
  cases hsites : childSites s .arguments with
  | nil => rfl
  | cons arguments others =>
    rw [hsites, List.any_cons, Bool.or_eq_false_iff] at hlists
    exact hlists.1

variable {head : Node} {rest : List Node} (hchildren : s.node.children = head :: rest)
  (hhead : head.kind = .typeRef)
include hchildren hhead

theorem checkTag_of_arguments [Likeness] {arguments : Node}
    (harguments : s.node.firstChild? .arguments = some arguments) : c.checkTag s =
      c.checkPositional s head (c.resolve? s (c.text head)) (s.child arguments) := by
  have hlist : (childSites s .arguments).head? = some (s.child arguments) := by
    rw [head?_childSites, Node.childrenOfKind, List.head?_filter]
    exact congrArg (Option.map s.child) harguments
  rw [checkTag, hchildren, List.head?_cons, Option.filter_some, if_pos (decide_eq_true hhead)]
  dsimp only
  rw [incomplete_eq_false hs hkind hintact, hlist]
  rfl

theorem checkTag_of_named [Likeness] (hnone : s.node.firstChild? .arguments = none)
    (hne : childSites s .namedArgument ≠ []) : c.checkTag s =
      c.checkNamedArguments s head (c.resolve? s (c.text head)) (childSites s .namedArgument) := by
  have hlist : (childSites s .arguments).head? = none := by
    rw [head?_childSites, Node.childrenOfKind, List.head?_filter]
    exact congrArg (Option.map s.child) hnone
  rw [checkTag, hchildren, List.head?_cons, Option.filter_some, if_pos (decide_eq_true hhead)]
  dsimp only
  rw [incomplete_eq_false hs hkind hintact, hlist]
  cases hsites : childSites s .namedArgument with
  | nil => exact absurd hsites hne
  | cons first others => rfl

end Tags

/-! ## Files without errors -/

structure Clean [Likeness] (c : Checker) : Prop where
  intact : ∀ n ∈ c.file.nodes, n.Intact
  tag : ∀ s ∈ c.file.sites, s.kind = .tag → (c.checkTag s).reported = []
  construction : ∀ s ∈ c.file.sites, s.kind = .construction → (c.checkConstruction s).reported = []

section Clean

variable [Likeness] {c : Checker} {s : Site} (hclean : c.Clean)
include hclean

/-- A construction is applied to arguments that fit, if those inside it are. -/
theorem applies_construction (hs : s ∈ c.file.sites) (hkind : s.kind = .construction)
    (hnested : ∀ t ∈ c.file.sites, t.kind = .construction →
      t.node ∈ s.node.inside.preorder → c.ArgumentsFit t) :
    ∃ head arguments, s.node.children.head? = some head ∧ head.kind = .constructorName ∧
      s.node.firstChild? .constructorName = some head ∧
      s.node.firstChild? .arguments = some arguments ∧
      c.Applies s head fun d => c.Takes d (parts (s.child arguments)) := by
  have hmem := mem_inside_root hs (by simp [hkind])
  obtain ⟨head, arguments, behind, hchildren, hhead, harguments, -⟩ :=
    c.file.construction_children hmem hkind
  have hfirst : s.node.firstChild? .constructorName = some head := by
    simp [Node.firstChild?, hchildren, hhead]
  have hfirst' : s.node.firstChild? .arguments = some arguments := by
    simp [Node.firstChild?, hchildren, hhead, harguments]
  have hintact := hclean.intact s.node (c.file.node_mem_nodes hs)
  have hchild : arguments ∈ s.node.children := by simp [hchildren]
  have hwhole := (c.file.intact_of_mem_children hmem hintact hchild).1
  refine ⟨head, arguments, by simp [hchildren], hhead, hfirst, hfirst',
    takes_of_positional hs hchild harguments hwhole hnested ?_⟩
  have hnil := hclean.construction s hs hkind
  have hlist : (childSites s .arguments).head? = some (s.child arguments) := by
    simp [head?_childSites, Node.childrenOfKind, hchildren, hhead, harguments]
  rw [checkConstruction, hfirst] at hnil
  dsimp only at hnil
  rw [hlist] at hnil
  dsimp only at hnil
  rw [hintact.1, show (s.child arguments).node.incomplete = false from hwhole.1] at hnil
  exact hnil

/-- Constructions stand in one another to a finite depth, so the arguments of all of
them fit. -/
theorem argumentsFit (hs : s ∈ c.file.sites) (hkind : s.kind = .construction) :
    c.ArgumentsFit s := by
  induction hsize : s.node.inside.preorder.length using Nat.strongRecOn generalizing s with
  | ind size ih =>
    subst hsize
    obtain ⟨head, arguments, -, -, hfirst, hfirst', happlies⟩ :=
      applies_construction hclean hs hkind fun t ht htkind hin =>
        ih _ (Forest.length_preorder_lt hin) ht htkind rfl
    intro head' arguments' d hhead harguments hd
    obtain rfl := Option.some.inj (hfirst.symm.trans hhead)
    obtain rfl := Option.some.inj (hfirst'.symm.trans harguments)
    rcases happlies with ⟨hnone, -⟩ | ⟨d', hd', -, htakes⟩
    · rw [hnone] at hd
      cases hd
    · obtain rfl := Option.some.inj (hd'.symm.trans hd)
      exact htakes.fits

/-- A tag with arguments is applied to arguments that fit. -/
theorem applies_tag (hs : s ∈ c.file.sites) (hkind : s.kind = .tag) :
    ∃ head, s.node.children.head? = some head ∧ head.kind = .typeRef ∧
      (∀ arguments, s.node.firstChild? .arguments = some arguments →
        c.Applies s head fun d => c.Takes d (parts (s.child arguments))) ∧
      (childSites s .namedArgument ≠ [] →
        c.Applies s head fun d => c.TakesNamed d (childSites s .namedArgument)) := by
  have hmem := mem_inside_root hs (by simp [hkind])
  have hintact := hclean.intact s.node (c.file.node_mem_nodes hs)
  have hnested (t : Site) (ht : t ∈ c.file.sites) (htkind : t.kind = .construction)
      (_ : t.node ∈ s.node.inside.preorder) : c.ArgumentsFit t := argumentsFit hclean ht htkind
  rcases c.file.tag_children hmem hkind with ⟨hcut, -⟩ |
      ⟨head, rest, hchildren, hhead, -, happlied⟩
  · rw [hintact.1] at hcut
    cases hcut
  have hnil := hclean.tag s hs hkind
  refine ⟨head, by simp [hchildren], hhead, fun arguments harguments => ?_, fun hne => ?_⟩
  · rw [checkTag_of_arguments hs hkind hintact hchildren hhead harguments] at hnil
    have hchild := List.mem_of_find?_eq_some harguments
    have hlist := List.find?_some harguments
    exact takes_of_positional hs hchild (eq_of_beq hlist)
      (c.file.intact_of_mem_children hmem hintact hchild).1 hnested hnil
  · have hnone := firstChild?_arguments_of_named hchildren hhead (happlied hintact.1) hne
    rw [checkTag_of_named hs hkind hintact hchildren hhead hnone hne] at hnil
    exact takes_of_named hs hintact (by simp [hkind]) hnested hnil

end Clean

end Checker

/-! ## All arguments -/

namespace SchemaFile

open Checker

variable {file : SchemaFile} {r : Resolver}

theorem intact_of_faults (h : file.faults = []) : ∀ n ∈ file.nodes, n.Intact := by
  have hclean : ∀ n ∈ file.nodes, n.mark.shape.isFault = false := by
    have hfaults := file.map_fst_faults
    rw [h, List.map_nil, eq_comm, List.filter_eq_nil_iff] at hfaults
    exact fun n hn => (Bool.not_eq_true _).mp (hfaults n hn)
  have hcomplete := (file.shape_of_mem_nodes (p := fun shape => shape.complete = true)).mpr
    ⟨rfl, (file.whole_of_faults h).imp fun shape _ ⟨kind, _, hshape⟩ => by rw [hshape]; rfl⟩
  intro n hn
  refine ⟨by rw [Node.incomplete, hcomplete n hn]; rfl, ?_⟩
  rw [n.faulty_content, List.any_eq_false]
  exact fun m hm => by simp [hclean m (file.mem_nodes_of_mem_inside hn hm)]

theorem severity_of_finds [Likeness] {c : Checker} {s : Site} {f : Finding} (h : c.Finds s f)
    (hkind : s.kind = .tag ∨ s.kind = .construction) : f.problem.severity = .error := by
  cases h with
  | tag _ _ _ _ h => exact Problem.severity_of_code (code_of_traced h).2
  | construction _ _ _ _ h _ => exact Problem.severity_of_code (code_of_traced h).2
  | type h _ _ _ | number h _ _ | bareName h _ _ =>
    rcases hkind with hkind | hkind <;> simp [hkind] at h

theorem clean_of_report [Likeness]
    (hclean : ∀ d ∈ (checkFile file r).map (Finding.diagnostic file), d.severity ≠ .error) :
    (Checker.mk file r).Clean := by
  have hfound (f : Finding) (hf : f ∈ checkFile file r) : f.problem.severity ≠ .error :=
    hclean _ (List.mem_map_of_mem hf)
  have hsilent (s : Site) (hs : s ∈ file.sites) (hkind : s.kind = .tag ∨ s.kind = .construction) :
      ∃ judged, ((Checker.mk file r).checkSite judged s).reported = [] := by
    obtain ⟨judged, hall⟩ := exists_judged (c := ⟨file, r⟩) [] hs
    refine ⟨judged, List.eq_nil_iff_forall_not_mem.mpr fun f hf => ?_⟩
    exact hfound f (List.mem_append_right _ (hall hf))
      (severity_of_finds (finds_of_mem_checkSite (c := ⟨file, r⟩) hs hf) hkind)
  refine ⟨intact_of_faults (List.eq_nil_iff_forall_not_mem.mpr fun p hp => ?_),
    fun s hs hkind => ?_, fun s hs hkind => ?_⟩
  · have hsyntax : ⟨.syntaxFault p.2, p.1, none, none⟩ ∈ file.syntaxFindings :=
      List.mem_map.mpr ⟨p, hp, rfl⟩
    exact hfound _ (List.mem_append_left _ hsyntax) rfl
  · obtain ⟨judged, hnil⟩ := hsilent s hs (.inl hkind)
    rwa [checkSite, hkind] at hnil
  · obtain ⟨judged, hnil⟩ := hsilent s hs (.inr hkind)
    rwa [checkSite, hkind] at hnil

/-- Where no error is reported, every tag and construction with arguments names
something of the standard library that is not at hand, or a type or component with
as many fields as there are arguments, of the same names in the named form, and
each argument fits the type of its field. -/
theorem arguments_fit [Likeness] (file : SchemaFile) (r : Resolver)
    (hclean : ∀ d ∈ (checkFile file r).map (Finding.diagnostic file), d.severity ≠ .error) :
    ∀ s ∈ file.sites, s.kind = .tag ∨ s.kind = .construction →
      ∃ head, s.node.children.head? = some head ∧
        (head.kind = .typeRef ∨ head.kind = .constructorName) ∧
        (∀ arguments, s.node.firstChild? .arguments = some arguments →
          (Checker.mk file r).Applies s head fun d =>
            (Checker.mk file r).Takes d (parts (s.child arguments))) ∧
        (childSites s .namedArgument ≠ [] →
          (Checker.mk file r).Applies s head fun d =>
            (Checker.mk file r).TakesNamed d (childSites s .namedArgument)) := by
  have hclean := clean_of_report hclean
  intro s hs hkind
  rcases hkind with hkind | hkind
  · obtain ⟨head, hhead, href, hpositional, hnamed⟩ := applies_tag hclean hs hkind
    exact ⟨head, hhead, .inl href, hpositional, hnamed⟩
  · obtain ⟨head, arguments, hhead, hname, -, hfirst, happlies⟩ :=
      applies_construction hclean hs hkind fun t ht htkind _ => argumentsFit hclean ht htkind
    refine ⟨head, hhead, .inr hname, fun arguments' h => ?_, fun hne => absurd ?_ hne⟩
    · obtain rfl := Option.some.inj (hfirst.symm.trans h)
      exact happlies
    · -- no named argument stands in a construction
      rw [childSites, List.map_eq_nil_iff, Node.childrenOfKind, List.filter_eq_nil_iff]
      intro n hn hnamed
      have hallowed := file.kind_of_mem_children (file.node_mem_nodes hs) hn
      rw [show s.node.kind = .construction from hkind, eq_of_beq hnamed] at hallowed
      exact absurd hallowed (by decide)

section

attribute [local instance] Text.likeness

/-- A construction in a list, checked from a tag. -/
theorem nested_constructions_fit :
    ∃ (file : SchemaFile) (s : Site) (arguments : Node) (d : Definition),
      file.source = "type P { bool b = 1; } type T { list<P> p = 1; } [T([P(true)])] enum E { }" ∧
      (∀ d ∈ (checkFile file .localOnly).map (Finding.diagnostic file), d.severity ≠ .error) ∧
      s ∈ file.sites ∧ s.kind = .tag ∧ s.node.firstChild? .arguments = some arguments ∧
      (parts (s.child arguments)).length = 1 ∧
      (Checker.mk file .localOnly).Takes d (parts (s.child arguments)) := by
  let file := read (.unsaved 0)
    "type P { bool b = 1; } type T { list<P> p = 1; } [T([P(true)])] enum E { }"
  have hclean : ∀ d ∈ (checkFile file .localOnly).map (Finding.diagnostic file),
      d.severity ≠ .error := by decide +kernel
  have htag : ∃ s ∈ file.sites, s.kind = .tag ∧
      (s.node.firstChild? .arguments).map (fun a => (parts (s.child a)).length) = some 1 ∧
      s.node.children.head?.map (fun n => file.knowsStandard (file.text n)) = some false := by
    decide +kernel
  obtain ⟨s, hs, hkind, hlength, hunknown⟩ := htag
  obtain ⟨arguments, harguments, hlength⟩ := Option.map_eq_some_iff.mp hlength
  obtain ⟨head, hhead, -, hpositional, -⟩ := arguments_fit file .localOnly hclean s hs (.inl hkind)
  rw [hhead, Option.map_some, Option.some.injEq] at hunknown
  rcases hpositional arguments harguments with ⟨-, hknown⟩ | ⟨d, -, -, htakes⟩
  · exact absurd (hunknown.symm.trans hknown) (by decide)
  · exact ⟨file, s, arguments, d, rfl, hclean, hs, hkind, harguments, hlength, htakes⟩

end

end SchemaFile

end SchemaLang
