import SchemaLang.FileSystem.Memory
import SchemaLang.Proofs.DeclaredTypes
import SchemaLang.Proofs.LiteralTexts
import SchemaLang.Proofs.MemberNames
import SchemaLang.Proofs.Suggestions

/-!
# Values of enums by name

Where an enum is asked for, a name with dots has to stand for one of its values,
seen from where it is written. A bare name must stand for nothing there, since
whatever it stands for is no value; then the name of the enum in front of it has
to lead to one of its values, seen from where the enum is named. So one asks of a
bare name whether the enum has a value of that name, as long as nothing else has
it where the value is written and the enum has no rivals where it is named.
-/

set_option autoImplicit false

namespace SchemaLang

theorem DeclaredType.demand_eq_named {t : DeclaredType} (hbase : isBuiltIn t.base = false)
    (hid : t.base ≠ KnownNames.entityId) : t.demand = .named := by
  rw [isBuiltIn, Bool.or_eq_false_iff, List.contains_eq_mem, List.contains_eq_mem,
    decide_eq_false_iff_not, decide_eq_false_iff_not] at hbase
  obtain ⟨hscalar, hgeneric⟩ := hbase
  simp only [KnownNames.scalars, List.mem_cons, List.mem_append, not_or] at hscalar
  simp only [KnownNames.generics, List.mem_cons, List.not_mem_nil, or_false, not_or] at hgeneric
  have hform : LiteralForm.ofType? t.base = none := by
    simp [LiteralForm.ofType?, hscalar, hid]
  rw [demand, hform, ite_self]
  simp [hgeneric]

namespace Checker

variable {c : Checker} {value : Site} {t : DeclaredType} {d enum : Definition}

/-! ## What is asked of a name -/

theorem valueText_of_nameRef (hvalue : value ∈ c.file.sites) (hkind : value.kind = .nameRef) :
    c.valueText value = c.text value.node ∧ c.text value.node ≠ "_" ∧
      IsName (c.text value.node) := by
  obtain ⟨hne, hname⟩ := c.file.text_of_nameRef (mem_inside_root hvalue (by simp [hkind])) hkind
  refine ⟨Text.trim_of_not_white fun x hx => ?_, hne, hname⟩
  exact Scan.isWhite_of_spellsName (hname.spells x hx)

theorem enumTarget?_eq_some_iff (htext : c.valueText value = c.text value.node) :
    c.enumTarget? value t = some d ↔ c.resolve? value (c.text value.node) = some d ∨
      c.resolve? value (c.text value.node) = none ∧ '.' ∉ (c.text value.node).toList ∧
        c.resolver.resolve? t.file t.site (t.base ++ "." ++ c.text value.node) = some d := by
  simp only [enumTarget?, htext, Option.orElse_eq_orElse, Option.orElse_eq_or,
    Option.or_eq_some_iff, List.contains_eq_mem, decide_eq_true_eq]
  refine or_congr_right (and_congr_right fun _ => ?_)
  split
  · rename_i hdot
    simp [hdot]
  · rename_i hdot
    simp [hdot]

theorem reported_enumLiteral_eq_nil_iff :
    (c.checkEnumLiteral value t enum).reported = [] ↔
      ∃ d, c.enumTarget? value t = some d ∧ d.IsValueOf enum := by
  rw [checkEnumLiteral, Findings.reported_append]
  show [] ++ _ = [] ↔ _
  rw [List.nil_append]
  cases htarget : c.enumTarget? value t with
  | none => simp [Findings.of]
  | some found =>
    by_cases hvalue : found.kind = .enumValue
    · by_cases hchild : found.isChildOf enum = true
      · simp [hvalue, hchild, Findings.none, Definition.IsValueOf]
      · simp [hvalue, hchild, Findings.of, Definition.IsValueOf]
    · simp [hvalue, Findings.of, Definition.IsValueOf]

theorem checkAgainst_of_enum (element : Site → Site → Findings) (hne : c.valueText value ≠ "_")
    (hnamed : t.demand = .named) (htarget : c.resolver.resolve? t.file t.site t.base = some enum)
    (henum : enum.kind = .enum) :
    c.checkAgainst element value t = c.checkEnumLiteral value t enum := by
  simp only [checkAgainst, if_neg hne, hnamed, checkNamed, htarget, henum]

/-- What a bare name stands for where it is written is no value of an enum. -/
theorem not_isValueOf_of_bare (hvalue : value ∈ c.file.sites) {name : String}
    (hplain : '.' ∉ name.toList) (hne : name ≠ "") (hd : c.resolve? value name = some d) :
    ¬d.IsValueOf enum := by
  intro hof
  obtain ⟨htype, -⟩ := (SchemaFile.resolve?_plain_iff c.resolver hvalue hplain hne).1 d hd
  rw [Definition.isType, Definition.isInstantiable, hof.1] at htype
  cases htype

theorem resolve?_eq_none_iff_of_bare (hvalue : value ∈ c.file.sites) {name : String}
    (hplain : '.' ∉ name.toList) (hne : name ≠ "") :
    c.resolve? value name = none ↔
      ∀ scope ∈ c.file.rootSite :: SchemaFile.enclosingTypes value,
        ¬c.file.Declares scope name := by
  have hreach := (SchemaFile.resolve?_plain_iff c.resolver hvalue hplain hne).2
  rw [← not_iff_not, ← ne_eq, Option.ne_none_iff_exists', resolve?, hreach]
  simp only [not_forall, not_not, exists_prop]

/-! ## Names of values -/

/-- Against an enum, a name with dots is accepted exactly when it stands for one of its
values. A bare name is accepted exactly when no type, enum or component has it in the file
or in a type around the value and, behind the name of the enum, it stands for one of its
values where the enum is named. Whatever it stands for there bears the name, and without
rivals of the enum it is one of its values just if the enum has a value of that name. -/
theorem enum_literal_accepted_iff (element : Site → Site → Findings)
    (hvalue : value ∈ c.file.sites) (hkind : value.kind = .nameRef) (ht : t.site ∈ t.file.sites)
    (hbase : isBuiltIn t.base = false) (hid : t.base ≠ KnownNames.entityId)
    (htarget : c.resolver.resolve? t.file t.site t.base = some enum) (henum : enum.kind = .enum) :
    let name := c.text value.node
    let member := c.resolver.resolve? t.file t.site (t.base ++ "." ++ name)
    ((c.checkAgainst element value t).reported = [] ↔
      ('.' ∈ name.toList ∧ ∃ d, c.resolve? value name = some d ∧ d.IsValueOf enum) ∨
      ('.' ∉ name.toList ∧
        (∀ scope ∈ c.file.rootSite :: SchemaFile.enclosingTypes value,
          ¬c.file.Declares scope name) ∧
        ∃ d, member = some d ∧ d.IsValueOf enum)) ∧
    ('.' ∉ name.toList → (∀ d, member = some d → d.name? = some name) ∧
      (c.resolver.Unrivalled t.file t.base →
        ((∃ d, member = some d ∧ d.IsValueOf enum) ↔ enum.HasValue name))) := by
  intro name member
  obtain ⟨htext, hne, hname⟩ := valueText_of_nameRef hvalue hkind
  have hempty : name ≠ "" := hname.ne_empty
  refine ⟨?_, fun hplain => ⟨fun d hd => ?_, fun hrivals => ?_⟩⟩
  · rw [checkAgainst_of_enum element (htext ▸ hne) (DeclaredType.demand_eq_named hbase hid) htarget
      henum, reported_enumLiteral_eq_nil_iff]
    simp only [enumTarget?_eq_some_iff htext]
    constructor
    · rintro ⟨d, hd | ⟨hnone, hplain, hd⟩, hof⟩
      · refine .inl ⟨?_, d, hd, hof⟩
        by_contra hplain
        exact not_isValueOf_of_bare hvalue hplain hempty hd hof
      · exact .inr ⟨hplain, (resolve?_eq_none_iff_of_bare hvalue hplain hempty).mp hnone, d, hd,
          hof⟩
    · rintro (⟨-, d, hd, hof⟩ | ⟨hplain, hfree, d, hd, hof⟩)
      · exact ⟨d, .inl hd, hof⟩
      · exact ⟨d, .inr ⟨(resolve?_eq_none_iff_of_bare hvalue hplain hempty).mpr hfree, hplain, hd⟩,
          hof⟩
  · exact Resolver.name?_of_resolve?_append ht hplain hd
  · exact hrivals.exists_value_iff ht htarget henum hplain hempty

/-- The bare name of a value of an imported enum. -/
theorem imported_enum_literal_accepted :
    let colors := SchemaFile.readSaved ⟨"/schema/lib/colors.schema"⟩
      "package lib; enum Color { RED = 0; GREEN = 1; } type Tint { Color color = 1; }"
    let c : Checker :=
      ⟨.read (.unsaved 0) "import \"lib/colors.schema\";\n[lib.Tint(RED)] type X { }",
        (MemoryFiles.ofList [(⟨"/schema/lib/colors.schema"⟩, colors.source)]).fileSystem,
        [⟨"/schema"⟩]⟩
    ∃ value ∈ c.file.sites, c.text value.node = "RED" ∧
      ∃ type ∈ colors.sites, type.kind = .fieldType ∧
        (c.checkValue value colors type).reported = [] := by
  intro colors c
  have hvalue : ∃ value ∈ c.file.sites, value.kind = .nameRef ∧ c.text value.node = "RED" ∧
      ∀ scope ∈ c.file.rootSite :: SchemaFile.enclosingTypes value,
        ¬∃ d ∈ scope.node.children, d.kind ∈ [.type, .enum, .component] ∧
          c.file.name? d = some "RED" := by decide +kernel
  have htype : ∃ type ∈ colors.sites, type.kind = .fieldType ∧
      (DeclaredType.of colors type).base = "Color" ∧
      ∃ enum ∈ c.resolver.resolve? colors type "Color",
        enum.kind = .enum ∧ enum.HasValue "RED" := by decide +kernel
  have hrivals : c.resolver.Unrivalled colors "Color" := by decide +kernel
  have hplain : '.' ∉ "RED".toList := by decide +kernel
  obtain ⟨value, hmem, hkind, htext, hfree⟩ := hvalue
  obtain ⟨type, htmem, htkind, hbase, enum, htarget, henum, hhas⟩ := htype
  refine ⟨value, hmem, htext, type, htmem, htkind, ?_⟩
  have htmem' : (DeclaredType.of colors type).site ∈ (DeclaredType.of colors type).file.sites := by
    rwa [DeclaredType.site_of, DeclaredType.file_of]
  have htarget' : c.resolver.resolve? (DeclaredType.of colors type).file
      (DeclaredType.of colors type).site (DeclaredType.of colors type).base = some enum := by
    rw [DeclaredType.site_of, DeclaredType.file_of, hbase]
    exact htarget
  have hrivals' : c.resolver.Unrivalled (DeclaredType.of colors type).file
      (DeclaredType.of colors type).base := by
    rwa [DeclaredType.file_of, hbase]
  rw [← htext] at hplain hfree hhas
  obtain ⟨haccepted, hbare⟩ := enum_literal_accepted_iff (c.checkElement colors) hmem
    hkind htmem' (by rw [hbase]; decide) (by rw [hbase]; decide) htarget' henum
  exact haccepted.mpr (.inr ⟨hplain, hfree, ((hbare hplain).2 hrivals').mpr hhas⟩)

def RefusesValue (c : Checker) : Prop :=
  ∃ value ∈ c.file.sites, value.kind = .nameRef ∧ '.' ∉ (c.text value.node).toList ∧
    ∃ type ∈ c.file.sites, type.kind = .fieldType ∧
      isBuiltIn (DeclaredType.of c.file type).base = false ∧
      (DeclaredType.of c.file type).base ≠ KnownNames.entityId ∧
      ∃ enum ∈ c.resolve? type (DeclaredType.of c.file type).base,
        enum.kind = .enum ∧ enum.HasValue (c.text value.node) ∧
          (c.checkValue value c.file type).reported ≠ []

instance (c : Checker) : Decidable c.RefusesValue := inferInstanceAs (Decidable (∃ v ∈ _, _))

/-- Another definition has the name, an imported file has that of the enum as its package,
or an enum stands beside a type of its name. -/
theorem bare_values_refused :
    RefusesValue ⟨.read (.unsaved 0)
      "enum E { A = 0; } type A { } type P { E e = 1; } [P(A)] type Q { }", .localOnly⟩ ∧
    RefusesValue ⟨.read (.unsaved 0)
      "import \"a.schema\"; import \"b.schema\"; type P { p.E e = 1; } [P(A)] type Q { }",
      (MemoryFiles.ofList [(⟨"/x/a.schema"⟩, "package p.E; type A { }"),
        (⟨"/x/b.schema"⟩, "package p; enum E { A = 0; }")]).fileSystem, [⟨"/x"⟩]⟩ ∧
    RefusesValue ⟨.read (.unsaved 0) ("enum X { Z = 0; } type X { enum E { A = 0; } } " ++
      "type T { type X { enum E { A = 0; } } X.E e = 1; } [T(A)] type Q { }"), .localOnly⟩ := by
  refine ⟨?_, ?_, ?_⟩ <;> decide +kernel

end Checker

end SchemaLang
