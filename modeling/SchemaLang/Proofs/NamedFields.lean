import SchemaLang.Proofs.DeclaredTypes
import SchemaLang.Proofs.FullNames
import SchemaLang.Proofs.Unresolved

/-!
# What the name of an argument stands for

A named argument is matched with a field by its place, and the name written in
it stands for what the name of the tag and that name, with a dot between them,
stand for. The two agree where the longer name is looked up in the type that
the tag stands for: fields are found in types and not in components, from the
root of a file and not from the types around a place, and by one segment.
Before an imported type is reached, nothing else may have the longer name.
-/

set_option autoImplicit false

namespace SchemaLang

/-- An argument of a whole named tag, and the field that it is matched with: the tag
stands for a type or component with a field for each argument, and the field at the
place of the argument has the name that is written in it. -/
structure NamedArgument (r : Resolver) (file : SchemaFile) where
  tag : Site
  name : Node
  target : Definition
  place : Nat
  argument : Node
  written : Node
  field : Node
  tag_mem : tag ∈ file.sites
  tag_kind : tag.kind = .tag
  whole : tag.node.incomplete = false
  arguments_whole : ∀ a ∈ tag.node.childrenOfKind .namedArgument, a.incomplete = false
  name_eq : tag.node.firstChild? .typeRef = some name
  target_eq : r.resolve? file tag (file.text name) = some target
  instantiable : target.isInstantiable = true
  count : (target.file.orderedFields target.site.node).length =
    (tag.node.childrenOfKind .namedArgument).length
  own : target.file.OwnFields target.site.node
  argument_eq : (tag.node.childrenOfKind .namedArgument)[place]? = some argument
  written_eq : argument.firstChild? .fieldRef = some written
  field_eq : (target.file.orderedFields target.site.node)[place]? = some field
  declares : target.file.fieldName? field = some (file.text written)

namespace NamedArgument

variable {r : Resolver} {file : SchemaFile} (a : NamedArgument r file)

def site : Site := (a.tag.child a.argument).child a.written

def declared : Definition := ⟨a.target.file, a.target.site.child a.field⟩

def fullName : String := file.text a.name ++ "." ++ file.text a.written

theorem field_mem : a.field ∈ a.target.site.node.childrenOfKind .field := by
  obtain ⟨number, hnumber⟩ :=
    SchemaFile.exists_number_of_mem_orderedFields (List.mem_of_getElem? a.field_eq)
  obtain ⟨f, hf, hnumbered⟩ := List.mem_filterMap.mp hnumber
  obtain ⟨k, -, hpair⟩ := Option.map_eq_some_iff.mp hnumbered
  cases hpair
  exact hf

theorem written_ne_empty : file.text a.written ≠ "" := by
  have hhas := (r.has_of_resolve? (SchemaFile.has_of_mem_sites a.tag_mem) a.target_eq).1
  obtain ⟨hchild, hkind⟩ := List.mem_filter.mp a.field_mem
  have hnamed := (SchemaFile.name?_of_field (eq_of_beq hkind)).trans a.declares
  exact (SchemaFile.isName_of_name? (hhas.child hchild).1 hnamed).ne_empty

/-- What is written is looked up by its full name, and from the tag. -/
theorem resolveReference?_eq :
    r.resolveReference? file a.site = r.resolve? file a.tag a.fullName := by
  have hnamed : a.argument.kind = .namedArgument := by
    have hmem := List.mem_of_getElem? a.argument_eq
    exact eq_of_beq (List.mem_filter.mp hmem).2
  have hwritten : a.written.kind = .fieldRef := by
    have hfound := List.find?_some a.written_eq
    exact eq_of_beq hfound
  have habove : a.site.above.find? (·.kind == .tag) = some a.tag.node := by
    show (a.argument :: a.tag.node :: a.tag.above).find? _ = _
    rw [List.find?_cons_of_neg (by simp [hnamed]), List.find?_cons_of_pos]
    exact beq_iff_eq.mpr a.tag_kind
  have hname : Resolver.referencedName? file a.site = some a.fullName := by
    rw [Resolver.referencedName?, show a.site.kind = .fieldRef from hwritten]
    show (a.site.above.find? (·.kind == .tag)).bind _ = _
    rw [habove, Option.bind_some, a.name_eq]
    rfl
  have htag : (a.tag.child a.argument).kind ≠ .type := by
    rw [show (a.tag.child a.argument).kind = .namedArgument from hnamed]
    decide
  rw [Resolver.resolveReference?, hname]
  show (Checker.mk file r).resolve? a.site a.fullName = _
  rw [site, Checker.resolve?_child htag, Checker.resolve?_child (by simp [a.tag_kind])]
  rfl

/-- The type stands behind its name where nothing else can have the full name: seen
from the root of the file, or at a pair of a root and an import, and then the file
itself and the pairs before that one have nothing by the full name. -/
inductive InFront : Prop where
  | own (h : file.resolve? file.rootSite (file.text a.name) = some a.target)
  | imported (i j : Nat) (target : Path)
      (h : r.Offers file (file.text a.name) i j target a.target)
      (hlocal : file.resolve? a.tag a.fullName = none)
      (hfirst : ∀ (i' j' : Nat) (target' : Path) (e : Definition),
        r.Offers file a.fullName i' j' target' e → i < i' ∨ i = i' ∧ j ≤ j')

variable {a} (hkind : a.target.kind = .type) (hplain : '.' ∉ (file.text a.written).toList)
include hkind hplain

/-- An import that offers a type by a name offers its fields by their full names. -/
theorem offers_fullName {i j : Nat} {target : Path}
    (h : r.Offers file (file.text a.name) i j target a.target) :
    r.Offers file a.fullName i j target a.declared := by
  obtain ⟨root, importPath, source, package, rest, hroot, himport, htarget, hread, hpackage, hname,
    hd⟩ := h
  refine ⟨root, importPath, source, package, rest ++ "." ++ file.text a.written, hroot, himport,
    htarget, hread, hpackage, ?_, SchemaFile.resolve?_field hd hkind a.own a.field_mem a.declares
      a.written_ne_empty hplain _⟩
  rw [fullName, hname]
  simp only [String.append_assoc]

/-- The name written in a named argument stands for the field that the argument is
matched with, when the tag stands for a type with nothing in front of it and the name
is one segment. -/
theorem names_matched_field (hfront : a.InFront) :
    r.resolveReference? file a.site = some a.declared := by
  rw [a.resolveReference?_eq]
  cases hfront with
  | own h =>
    exact Resolver.resolve?_iff.mpr (.inl (SchemaFile.resolve?_field h hkind a.own a.field_mem
      a.declares a.written_ne_empty hplain _))
  | imported i j target h hlocal hfirst =>
    have hname : ∀ segment ∈ Text.split '.' a.fullName, segment ≠ "" := by
      have hall := SchemaFile.nameSegments?_append (r.segments_of_resolve? a.target_eq)
        a.written_ne_empty hplain
      exact (nameSegments?_eq_some_iff.mp hall).2
    rw [Resolver.resolve?_of_local_eq_none hname hlocal, Resolver.resolveImported?_eq_some_iff]
    exact ⟨i, j, target, offers_fullName hkind hplain h, hfirst⟩

omit hkind hplain
variable (a)

/-! ### No other way -/

theorem kind_field : a.field.kind = .field := eq_of_beq (List.mem_filter.mp a.field_mem).2

/-- A path to the field in some file is the path of the target, and the name written. -/
theorem exists_of_hasPath {g : SchemaFile} (hfile : a.target.file = g) {path : List String}
    (h : g.HasPath g.rootSite path a.declared.site) :
    '.' ∉ (file.text a.written).toList ∧ ∃ front, path = front ++ [file.text a.written] ∧
      g.HasPath g.rootSite front a.target.site ∧ a.target.kind = .type := by
  subst hfile
  obtain ⟨front, last, rfl, hlast, hfront⟩ := h.exists_of_field a.kind_field rfl
  have hnamed := (SchemaFile.name?_of_field a.kind_field).trans a.declares
  obtain rfl := Option.some.inj (hlast.name?.symm.trans hnamed)
  refine ⟨hlast.plain, front, rfl, hfront.resolve_left fun hroot => ?_⟩
  -- a file as a whole cannot be constructed
  have hkind : a.target.kind = .schemaFile := by
    rw [Definition.kind, hroot.2]
    exact a.target.file.kind_root
  have hinstantiable := a.instantiable
  rw [Definition.isInstantiable, hkind] at hinstantiable
  cases hinstantiable

/-- The segments of the full name are those of the name of the tag, and the name written. -/
theorem split_fullName (hplain : '.' ∉ (file.text a.written).toList) :
    Text.split '.' a.fullName = Text.split '.' (file.text a.name) ++ [file.text a.written] := by
  rw [fullName, Text.split_append, Text.split_of_not_mem hplain]

/-- The tag names its target inside the file, or an import offers it. -/
theorem target_cases : file.resolve? a.tag (file.text a.name) = some a.target ∨
    ∃ i j path, r.Offers file (file.text a.name) i j path a.target := by
  rcases Resolver.resolve?_iff.mp a.target_eq with hlocal | ⟨-, -, himported⟩
  · exact .inl hlocal
  · obtain ⟨i, j, path, hfirst⟩ := Resolver.resolveImported?_eq_some_iff.mp himported
    exact .inr ⟨i, j, path, hfirst.1⟩

/-- What the full name leads to in the file itself, the name leads to from its root. -/
theorem inFront_of_local (h : file.resolve? a.tag a.fullName = some a.declared) :
    a.target.kind = .type ∧ '.' ∉ (file.text a.written).toList ∧ a.InFront := by
  have hdeclared := SchemaFile.file_of_resolve? h
  have hfile : a.target.file = file := hdeclared
  have hroot : file.resolve? file.rootSite a.fullName = some a.declared := by
    refine (SchemaFile.resolve?_cases a.tag_mem h).resolve_right ?_
    rintro ⟨scope, -, -, hfield⟩
    exact hfield a.kind_field
  obtain ⟨hplain, front, hpath, hfront, hkind⟩ :=
    a.exists_of_hasPath hfile (SchemaFile.hasPath_of_resolve?_rootSite hroot)
  rw [a.split_fullName hplain, List.append_cancel_right_eq] at hpath
  subst hpath
  refine ⟨hkind, hplain, .own ?_⟩
  rcases a.target_cases with htarget | ⟨i, j, path, htarget⟩
  · refine (SchemaFile.resolve?_cases a.tag_mem htarget).resolve_right ?_
    rintro ⟨scope, hscope, hinner, -⟩
    exact hfront.false_of_type hscope hinner
  · -- behind a package the path to the same depth would be shorter
    obtain ⟨-, -, source, package, rest, -, -, -, -, -, hname, hd⟩ := htarget
    have hdepth := (SchemaFile.hasPath_of_resolve?_rootSite hd).depth
    have hlt := Text.length_split_lt package rest
    rw [hfront.depth, hname] at hdepth
    simp only [SchemaFile.rootSite, List.length_nil] at hdepth
    omega

/-- What the full name leads to in an imported file, the name leads to there too. -/
theorem inFront_of_imported {i j : Nat} {path : Path}
    (hlocal : file.resolve? a.tag a.fullName = none)
    (h : r.FirstOffer file a.fullName i j path a.declared) :
    a.target.kind = .type ∧ '.' ∉ (file.text a.written).toList ∧ a.InFront := by
  obtain ⟨⟨root, importPath, source, package, rest, hroot, himport, htarget, hread, hpackage, hname,
    hd⟩, hfirst⟩ := h
  have hdeclared := SchemaFile.file_of_resolve? hd
  have hfile : a.target.file = .readSaved path source := hdeclared
  obtain ⟨hplain, front, hpath, hfront, hkind⟩ :=
    a.exists_of_hasPath hfile (SchemaFile.hasPath_of_resolve?_rootSite hd)
  refine ⟨hkind, hplain, .imported i j path ?_ hlocal hfirst⟩
  rcases a.target_cases with hwithin | ⟨i', j', path', hoffer⟩
  · -- without the package the path to the same depth would be longer
    have hlt := Text.length_split_lt package rest
    have hle := SchemaFile.length_le_of_resolve? a.tag_mem hwithin
    rw [← hname, a.split_fullName hplain, hpath, List.length_append, List.length_append] at hlt
    rw [hfront.depth] at hle
    simp only [SchemaFile.rootSite, List.length_nil] at hle
    omega
  · -- the file is the same, so the package in front of the name is
    obtain ⟨-, -, source', package', rest', -, -, -, -, hpackage', hname', hd'⟩ := hoffer
    have hsame := hfile.symm.trans (SchemaFile.file_of_resolve? hd')
    rw [← hsame] at hpackage' hd'
    obtain rfl := Option.some.inj (hpackage.symm.trans hpackage')
    exact ⟨root, importPath, source, package, rest', hroot, himport, htarget, hread, hpackage,
      hname', hd'⟩

/-- The name written in a named argument stands for the field that the argument is matched
with exactly when the tag stands for a type, with nothing in front of it, and the name is
one segment. -/
theorem names_matched_field_iff : r.resolveReference? file a.site = some a.declared ↔
    a.target.kind = .type ∧ '.' ∉ (file.text a.written).toList ∧ a.InFront := by
  refine ⟨fun h => ?_, fun ⟨hkind, hplain, hfront⟩ => names_matched_field hkind hplain hfront⟩
  rw [a.resolveReference?_eq, Resolver.resolve?_iff] at h
  rcases h with hlocal | ⟨hlocal, -, himported⟩
  · exact a.inFront_of_local hlocal
  · obtain ⟨i, j, path, hfirst⟩ := Resolver.resolveImported?_eq_some_iff.mp himported
    exact a.inFront_of_imported hlocal hfirst

variable {a} in
/-- A name that stands for something from the root stands for it everywhere. -/
theorem inFront_of_rootSite
    (h : (file.resolve? file.rootSite (file.text a.name)).isSome = true) : a.InFront := by
  obtain ⟨d, hd⟩ := Option.isSome_iff_exists.mp h
  have hfound : r.resolve? file a.tag (file.text a.name) = some d :=
    Resolver.resolve?_iff.mpr (.inl (SchemaFile.resolve?_of_rootSite hd a.tag))
  obtain rfl := Option.some.inj (hfound.symm.trans a.target_eq)
  exact .own hd

/-! ### First arguments -/

def first? (r : Resolver) (file : SchemaFile) : Option (NamedArgument r file) :=
  match htag : file.sites.find? (·.kind = .tag) with
  | none => none
  | some tag =>
    match hname : tag.node.firstChild? .typeRef with
    | none => none
    | some name =>
      match htarget : r.resolve? file tag (file.text name) with
      | none => none
      | some target =>
        match hargument : (tag.node.childrenOfKind .namedArgument)[0]?,
            hfield : (target.file.orderedFields target.site.node)[0]? with
        | some argument, some field =>
          match hwritten : argument.firstChild? .fieldRef with
          | none => none
          | some written =>
            if h : tag.node.incomplete = false ∧
                (∀ a ∈ tag.node.childrenOfKind .namedArgument, a.incomplete = false) ∧
                target.isInstantiable = true ∧
                (target.file.orderedFields target.site.node).length =
                  (tag.node.childrenOfKind .namedArgument).length ∧
                target.file.OwnFields target.site.node ∧
                target.file.fieldName? field = some (file.text written) then
              let ⟨whole, arguments_whole, instantiable, count, own, declares⟩ := h
              some {
                tag, name, target, place := 0, argument, written, field, whole, arguments_whole,
                instantiable, count, own, declares
                tag_mem := List.mem_of_find?_eq_some htag
                tag_kind := by simpa using List.find?_some htag
                name_eq := hname
                target_eq := htarget
                argument_eq := hargument
                written_eq := hwritten
                field_eq := hfield }
            else none
        | _, _ => none

/-- A field of a type that is known from the root of the file. -/
theorem names_matched_field_of_type :
    let file := SchemaFile.read (.unsaved 0)
      "type T { int32 x = 2; bool y = 1; } [T(y = true, x = 1)] type U { }"
    ∃ a : NamedArgument .localOnly file, a.declared.name? = some "y" ∧
      Resolver.localOnly.resolveReference? file a.site = some a.declared := by
  intro file
  refine ⟨(first? .localOnly file).get (by decide +kernel), by decide +kernel, ?_⟩
  exact (names_matched_field_iff _).mpr
    ⟨by decide +kernel, by decide +kernel, inFront_of_rootSite (by decide +kernel)⟩

/-- The name that is written in some argument stands for something else than the
field that the argument is matched with, or for nothing. -/
def Strays (r : Resolver) (file : SchemaFile) : Prop :=
  ∃ a : NamedArgument r file, r.resolveReference? file a.site ≠ some a.declared

theorem strays_of_first? {r : Resolver} {file : SchemaFile}
    (h : ((first? r file).any fun a =>
      !(r.resolveReference? file a.site).any (·.same a.declared)) = true) : Strays r file := by
  obtain ⟨a, -, ha⟩ := (Option.any_eq_true _ _).mp h
  refine ⟨a, fun hfound => ?_⟩
  rw [hfound] at ha
  simp [Definition.same, Definition.sameFile, Origin.same_refl] at ha

/-- None of the conditions can be left out. -/
theorem names_stray :
    -- the target is a component
    Strays .localOnly (.read (.unsaved 0)
      "component C { id = 1; int32 x = 1; } [C(x = 1)] type T { }") ∧
    -- the target has its name only seen from the type around the tag
    Strays .localOnly (.read (.unsaved 0)
      "type O { type T { int32 x = 1; } [T(x = 1)] int32 y = 1; }") ∧
    -- the name of the field is two segments
    Strays .localOnly (.read (.unsaved 0) "type T { int32 a.b = 1; } [T(a.b = 1)] type U { }") ∧
    -- an earlier import has the name of the target for its package
    Strays ⟨(MemoryFiles.ofList [(⟨"/x/a.schema"⟩, "package p.T; type f { }"),
        (⟨"/x/b.schema"⟩, "package p; type T { int32 f = 1; }")]).fileSystem, [⟨"/x"⟩]⟩
      (.read (.unsaved 0)
        "import \"a.schema\"; import \"b.schema\"; [p.T(f = 1)] type M { }") ∧
    -- the file has the full name in a type behind an enum, which hides the name of the target only
    Strays ⟨(MemoryFiles.ofList
        [(⟨"/x/a.schema"⟩, "package p; type T { int32 f = 1; }")]).fileSystem, [⟨"/x"⟩]⟩
      (.read (.unsaved 0) ("import \"a.schema\"; enum p { } " ++
        "type p { type T { bool f = 1; } } [p.T(f = 1)] type M { }")) := by
  refine ⟨?_, ?_, ?_, ?_, ?_⟩
  · exact strays_of_first? (by decide +kernel)
  · exact strays_of_first? (by decide +kernel)
  · exact strays_of_first? (by decide +kernel)
  · exact strays_of_first? (by decide +kernel)
  · exact strays_of_first? (by decide +kernel)

end NamedArgument

end SchemaLang
