import SchemaLang.KnownNames
import SchemaLang.Proofs.DottedNames
import SchemaLang.Proofs.SameNodes

/-!
# Names in two files with the same nodes

Where two files have the same nodes, a name stands for the same in both of them:
seen from twin sites it stands for twin definitions, or for nothing in both files.
Imported files are read from the same place, so they are the same in both runs.
What stands for something is identifiers with dots between them, so a text that
ends with a closing bracket stands for nothing anywhere.
-/

set_option autoImplicit false

namespace SchemaLang

/-! ## Inside one file -/

theorem isLexeme_of_nameKind? {kind node : NodeKind} (h : SchemaFile.nameKind? kind = some node) :
    node.isLexeme = true ∧ ∀ token, node.admits token = true → token = .identifier := by
  cases kind <;> cases h <;> exact ⟨rfl, fun token ht => eq_of_beq ht⟩

theorem isFixed_of_nameKind? {kind node : NodeKind} (h : SchemaFile.nameKind? kind = some node) :
    node.isFixed = true := by
  cases kind <;> cases h <;> rfl

namespace Twin

variable {f g : SchemaFile} {m n : Node} (h : Twin f g m n)
include h

theorem name? : f.name? m = g.name? n := by
  rw [SchemaFile.name?, SchemaFile.name?, SchemaFile.nameNode?, SchemaFile.nameNode?, ← h.kind]
  cases hkind : SchemaFile.nameKind? m.kind with
  | none => rfl
  | some node => exact h.childText (isFixed_of_nameKind? hkind)

theorem defines (kind : NodeKind) (name : String) :
    f.defines kind name m = g.defines kind name n := by
  rw [SchemaFile.defines, SchemaFile.defines, h.kind, h.name?]

end Twin

namespace TwinSite

variable {f g : SchemaFile} {s t : Site}

theorem findDefinition? (h : TwinSite f g s t) (kind : NodeKind) (name : String) :
    Option.Rel (TwinSite f g) (f.findDefinition? s kind name) (g.findDefinition? t kind name) :=
  rel_map (rel_find? h.node.children fun _ _ hcd => hcd.defines kind name) fun _ _ hcd =>
    h.child hcd.1

theorem lookup? (h : TwinSite f g s t) (fields : Bool) (name : String) :
    Option.Rel (TwinSite f g) (f.lookup? s fields name) (g.lookup? t fields name) := by
  refine rel_orElse (h.findDefinition? .enum name) (rel_orElse ?_
    (rel_orElse (h.findDefinition? .type name) (h.findDefinition? .component name)))
  split
  · exact h.findDefinition? .field name
  · exact .none

theorem walk? (h : TwinSite f g s t) (fields : Bool) (segments : List String) :
    Option.Rel (TwinSite f g) (f.walk? fields s segments) (g.walk? fields t segments) := by
  induction segments generalizing s t with
  | nil => exact .none
  | cons segment rest ih =>
    match rest with
    | [] => exact h.lookup? fields segment
    | [last] =>
      rw [SchemaFile.walk?, SchemaFile.walk?]
      have henum := h.findDefinition? .enum segment
      generalize f.findDefinition? s .enum segment = s?, g.findDefinition? t .enum segment = t?
        at henum
      cases henum with
      | some henum => exact henum.findDefinition? .enumValue last
      | none =>
        exact rel_bind (h.findDefinition? .type segment) fun _ _ hin => hin.lookup? fields last
    | next :: last :: rest =>
      exact rel_bind (h.findDefinition? .type segment) fun _ _ hin => ih hin

theorem enclosingTypes (h : TwinSite f g s t) :
    List.Forall₂ (TwinSite f g) (SchemaFile.enclosingTypes s) (SchemaFile.enclosingTypes t) :=
  (rel_filter_eq h.ancestors fun _ _ hpq => by rw [hpq.kind]).imp fun _ _ hpq => hpq.1

/-- What a name stands for inside a file, seen from twin sites. -/
theorem resolve? (h : TwinSite f g s t) (name : String) :
    Option.Rel (fun d e => d.file = f ∧ e.file = g ∧ TwinSite f g d.site e.site)
      (f.resolve? s name) (g.resolve? t name) := by
  rw [SchemaFile.resolve?, SchemaFile.resolve?]
  cases nameSegments? name with
  | none => exact .none
  | some segments =>
    have hfound := rel_orElse (h.node.files.twin_rootSite.walk? true segments)
      (rel_findSome? h.enclosingTypes fun _ _ hscope => hscope.walk? false segments)
    exact rel_bind hfound fun _ _ hst => .some ⟨rfl, rfl, hst⟩

end TwinSite

namespace SameNodes

variable {f g : SchemaFile} (h : SameNodes f g)
include h

theorem imports : f.imports = g.imports := by
  have hpaths : ((f.root.childrenOfKind .importing).filterMap (·.firstChild? .importPath)).map
        f.text = ((g.root.childrenOfKind .importing).filterMap (·.firstChild? .importPath)).map
        g.text := by
    rw [List.map_filterMap, List.map_filterMap]
    have hall := map_eq_of_forall₂ (h.twin_root.childrenOfKind .importing) fun _ _ hcd =>
      hcd.1.childText (show NodeKind.importPath.isFixed = true from rfl)
    have hflat := congrArg (List.filterMap id) hall
    rwa [List.filterMap_map, List.filterMap_map] at hflat
  have himports (file : SchemaFile) : file.imports =
      (((file.root.childrenOfKind .importing).filterMap (·.firstChild? .importPath)).map
        file.text).filterMap fun text =>
          if SchemaFile.unquote text = "" then none else some (SchemaFile.unquote text) := by
    rw [SchemaFile.imports, List.filterMap_map]
    rfl
  rw [himports, himports, hpaths]

theorem knowsStandard (name : String) : f.knowsStandard name = g.knowsStandard name := by
  rw [SchemaFile.knowsStandard, SchemaFile.knowsStandard, h.imports]

end SameNodes

/-! ## Texts that are names -/

def IsName (name : String) : Prop :=
  ∃ source, ∃ l ∈ lexemes source, l.kind = .identifier ∧ l.text = name

theorem IsName.spells {name : String} (h : IsName name) :
    ∀ c ∈ name.toList, Scan.spellsName c = true := by
  obtain ⟨source, l, hl, hkind, rfl⟩ := h
  exact spellsName_of_mem_lexemes hl hkind

theorem IsName.ne_empty {name : String} (h : IsName name) : name ≠ "" := by
  obtain ⟨source, l, hl, -, rfl⟩ := h
  intro hempty
  have hpos := size_pos_of_mem_scan _ _ hl
  rw [Lexeme.size, hempty] at hpos
  exact absurd hpos (by decide)

theorem nameSegments?_eq_some_iff {name : String} {segments : List String} :
    nameSegments? name = some segments ↔
      segments = Text.split '.' name ∧ ∀ segment ∈ Text.split '.' name, segment ≠ "" := by
  rw [nameSegments?]
  split
  · rename_i hall
    rw [Option.some_inj, eq_comm]
    exact (and_iff_left (by simpa using hall)).symm
  · rename_i hall
    exact iff_of_false (by simp) fun h => hall (by simpa using h.2)

namespace SchemaFile

variable {file : SchemaFile}

theorem isName_of_name? {n : Node} (hn : n ∈ file.nodes) {name : String}
    (h : file.name? n = some name) : IsName name := by
  obtain ⟨m, hm, rfl⟩ := Option.map_eq_some_iff.mp h
  obtain ⟨node, hkind, hfirst⟩ := Option.bind_eq_some_iff.mp hm
  obtain ⟨hlexeme, hadmits⟩ := isLexeme_of_nameKind? hkind
  have hmem := file.mem_of_mem_children hn (List.mem_of_find?_eq_some hfirst)
  have hmkind : m.kind = node := by
    have hfound := List.find?_some hfirst
    exact eq_of_beq hfound
  obtain ⟨l, hl, htoken⟩ := file.leaves_of_isLexeme hmem (hmkind ▸ hlexeme)
  obtain ⟨hlmem, htext⟩ := file.text_of_leaves_eq_singleton hmem
    (NodeKind.isLexeme_ne_error (hmkind ▸ hlexeme)) hl
  exact ⟨file.source, l, hlmem, hadmits _ (hmkind ▸ htoken), htext.symm⟩

def Has (file : SchemaFile) (s : Site) : Prop :=
  s.node ∈ file.nodes ∧ ∀ n ∈ s.above, n ∈ file.nodes

theorem has_rootSite (file : SchemaFile) : file.Has file.rootSite :=
  ⟨List.mem_cons_self, by simp [rootSite]⟩

theorem has_of_mem_sites {s : Site} (hs : s ∈ file.sites) : file.Has s := by
  refine ⟨?_, file.above_of_mem_sites hs⟩
  rw [← file.map_node_sites]
  exact List.mem_map_of_mem hs

theorem Has.ancestors {s : Site} (h : file.Has s) : ∀ t ∈ s.ancestors, file.Has t := by
  have hof (ns : List Node) (hns : ∀ n ∈ ns, n ∈ file.nodes) :
      ∀ t ∈ Site.ancestorsOf ns, file.Has t := by
    induction ns with
    | nil => simp [Site.ancestorsOf]
    | cons n ns ih =>
      obtain ⟨hn, hns⟩ := List.forall_mem_cons.mp hns
      rw [Site.ancestorsOf, List.forall_mem_cons]
      exact ⟨⟨hn, hns⟩, ih hns⟩
  exact hof s.above h.2

theorem Has.child {s : Site} (h : file.Has s) {c : Node} (hc : c ∈ s.node.children) :
    file.Has (s.child c) :=
  ⟨List.mem_cons_of_mem _ (file.mem_of_mem_children h.1 hc), List.forall_mem_cons.mpr h⟩

theorem Has.findDefinition? {s t : Site} (h : file.Has s) {kind : NodeKind} {name : String}
    (ht : file.findDefinition? s kind name = some t) : file.Has t ∧ IsName name := by
  obtain ⟨c, hc, rfl⟩ := Option.map_eq_some_iff.mp ht
  have hdefines := List.find?_some hc
  simp only [defines, Bool.and_eq_true, beq_iff_eq] at hdefines
  have hchild := h.child (List.mem_of_find?_eq_some hc)
  exact ⟨hchild, isName_of_name? hchild.1 hdefines.2⟩

theorem Has.lookup? {s t : Site} (h : file.Has s) {fields : Bool} {name : String}
    (ht : file.lookup? s fields name = some t) : file.Has t ∧ IsName name := by
  simp only [SchemaFile.lookup?, Option.orElse_eq_orElse, Option.orElse_eq_or,
    Option.or_eq_some_iff] at ht
  rcases ht with ht | ⟨-, ht | ⟨-, ht | ⟨-, ht⟩⟩⟩
  · exact h.findDefinition? ht
  · split at ht
    · exact h.findDefinition? ht
    · cases ht
  · exact h.findDefinition? ht
  · exact h.findDefinition? ht

/-- Where walking ends is in the file, and what it goes by are names. -/
theorem Has.walk? {s t : Site} (h : file.Has s) {fields : Bool} {segments : List String}
    (ht : file.walk? fields s segments = some t) :
    file.Has t ∧ ∀ segment ∈ segments, IsName segment := by
  induction segments generalizing s with
  | nil => cases ht
  | cons segment rest ih =>
    have hwithin {inner : Site} (hinner : IsName segment)
        (hrest : file.Has t ∧ ∀ next ∈ rest, IsName next) :
        file.Has t ∧ ∀ next ∈ segment :: rest, IsName next :=
      ⟨hrest.1, List.forall_mem_cons.mpr ⟨hinner, hrest.2⟩⟩
    match rest with
    | [] =>
      obtain ⟨hhas, hname⟩ := h.lookup? ht
      exact ⟨hhas, by simpa using hname⟩
    | [last] =>
      rw [SchemaFile.walk?] at ht
      cases henum : file.findDefinition? s .enum segment with
      | some enum =>
        rw [henum] at ht
        obtain ⟨hinner, hname⟩ := h.findDefinition? henum
        obtain ⟨hhas, hlast⟩ := hinner.findDefinition? ht
        exact ⟨hhas, by simpa using ⟨hname, hlast⟩⟩
      | none =>
        rw [henum] at ht
        obtain ⟨inner, hinner, ht⟩ := Option.bind_eq_some_iff.mp ht
        obtain ⟨hinner, hname⟩ := h.findDefinition? hinner
        obtain ⟨hhas, hlast⟩ := hinner.lookup? ht
        exact ⟨hhas, by simpa using ⟨hname, hlast⟩⟩
    | next :: last :: rest =>
      rw [SchemaFile.walk?] at ht
      obtain ⟨inner, hinner, ht⟩ := Option.bind_eq_some_iff.mp ht
      obtain ⟨hinner, hname⟩ := h.findDefinition? hinner
      obtain ⟨hhas, hrest⟩ := ih hinner ht
      exact ⟨hhas, List.forall_mem_cons.mpr ⟨hname, hrest⟩⟩

theorem Has.resolve? {s : Site} (h : file.Has s) {name : String} {d : Definition}
    (hd : file.resolve? s name = some d) :
    d.file.Has d.site ∧ ∀ segment ∈ Text.split '.' name, IsName segment := by
  rw [SchemaFile.resolve?] at hd
  obtain ⟨segments, hsegments, hd⟩ := Option.bind_eq_some_iff.mp hd
  obtain ⟨rfl, -⟩ := nameSegments?_eq_some_iff.mp hsegments
  obtain ⟨t, ht, hd⟩ := Option.bind_eq_some_iff.mp hd
  obtain rfl := Option.some.inj hd
  simp only [Option.orElse_eq_orElse, Option.orElse_eq_or, Option.or_eq_some_iff] at ht
  rcases ht with ht | ⟨-, ht⟩
  · exact file.has_rootSite.walk? ht
  · obtain ⟨scope, hscope, ht⟩ := List.exists_of_findSome?_eq_some ht
    exact (h.ancestors scope (List.mem_of_mem_filter hscope)).walk? ht

/-- What is left of a name is what stands behind the package and a dot. -/
theorem withoutPackage?_eq_some_iff {package name rest : String} :
    withoutPackage? package name = some rest ↔ name = package ++ "." ++ rest := by
  constructor
  · intro hrest
    rw [withoutPackage?] at hrest
    split at hrest
    · rename_i hprefix
      obtain ⟨tail, htail⟩ := List.isPrefixOf_iff_prefix.mp hprefix
      obtain rfl := Option.some.inj hrest
      rw [← String.toList_inj, String.toList_append, String.toList_ofList, ← htail,
        List.drop_left]
    · cases hrest
  · rintro rfl
    have hlist : (package ++ "." ++ rest).toList = (package ++ ".").toList ++ rest.toList :=
      String.toList_append
    rw [withoutPackage?, hlist,
      if_pos (List.isPrefixOf_iff_prefix.mpr (List.prefix_append _ _)), List.drop_left,
      String.ofList_toList]

theorem resolveExported?_eq_some_iff {name : String} {d : Definition} :
    file.resolveExported? name = some d ↔ ∃ package rest, file.package? = some package ∧
      name = package ++ "." ++ rest ∧ file.resolve? file.rootSite rest = some d := by
  rw [resolveExported?]
  constructor
  · intro hd
    obtain ⟨package, hpackage, hd⟩ := Option.bind_eq_some_iff.mp hd
    obtain ⟨rest, hrest, hd⟩ := Option.bind_eq_some_iff.mp hd
    exact ⟨package, rest, hpackage, withoutPackage?_eq_some_iff.mp hrest, hd⟩
  · rintro ⟨package, rest, hpackage, hname, hd⟩
    exact Option.bind_eq_some_iff.mpr ⟨package, hpackage,
      Option.bind_eq_some_iff.mpr ⟨rest, withoutPackage?_eq_some_iff.mpr hname, hd⟩⟩

/-- From outside a definition is known by a name behind the package. -/
theorem has_of_resolveExported? {name : String} {d : Definition}
    (hd : file.resolveExported? name = some d) : d.file.Has d.site ∧
      ∃ package rest, IsName package ∧ name = package ++ "." ++ rest ∧
        ∀ segment ∈ Text.split '.' rest, IsName segment := by
  obtain ⟨package, rest, hpackage, hname, hd⟩ := resolveExported?_eq_some_iff.mp hd
  obtain ⟨hhas, hsegments⟩ := file.has_rootSite.resolve? hd
  obtain ⟨n, hn, hnamed⟩ := Option.bind_eq_some_iff.mp hpackage
  have hmem := file.mem_of_mem_children (List.mem_cons_self (l := file.root.inside.preorder))
    (List.mem_of_find?_eq_some hn)
  exact ⟨hhas, package, rest, isName_of_name? (List.mem_cons_of_mem _ hmem) hnamed, hname,
    hsegments⟩

def Unnamed (name : String) : Prop := ∃ c, name.toList.getLast? = some c ∧ Scan.closes c = true

end SchemaFile

namespace Resolver

/-- A name with segments is looked for in the file itself, and in imports if it
stands for nothing there. -/
theorem resolve?_iff {r : Resolver} {file : SchemaFile} {s : Site} {name : String}
    {d : Definition} : r.resolve? file s name = some d ↔ file.resolve? s name = some d ∨
      file.resolve? s name = none ∧ (∀ segment ∈ Text.split '.' name, segment ≠ "") ∧
        r.resolveImported? file name = some d := by
  rw [resolve?, Option.orElse_eq_orElse, Option.orElse_eq_or, Option.or_eq_some_iff]
  refine or_congr_right (and_congr_right fun _ => ?_)
  split
  · rename_i hsome
    obtain ⟨segments, hsegments⟩ := Option.isSome_iff_exists.mp hsome
    exact (and_iff_right (nameSegments?_eq_some_iff.mp hsegments).2).symm
  · rename_i hnone
    refine iff_of_false (by simp) fun h => hnone ?_
    rw [nameSegments?_eq_some_iff.mpr ⟨rfl, h.1⟩]
    rfl

/-- What stands for something is dotted names, behind a package or not. -/
theorem has_of_resolve? (r : Resolver) {file : SchemaFile} {s : Site} (h : file.Has s)
    {name : String} {d : Definition} (hd : r.resolve? file s name = some d) :
    d.file.Has d.site ∧ ((∀ segment ∈ Text.split '.' name, IsName segment) ∨
      ∃ package rest, IsName package ∧ name = package ++ "." ++ rest ∧
        ∀ segment ∈ Text.split '.' rest, IsName segment) := by
  rcases resolve?_iff.mp hd with hd | ⟨-, -, hd⟩
  · exact (h.resolve? hd).imp_right .inl
  · obtain ⟨source, -, hd⟩ := List.exists_of_findSome?_eq_some hd
    obtain ⟨imported, -, hd⟩ := Option.bind_eq_some_iff.mp hd
    exact (SchemaFile.has_of_resolveExported? hd).imp_right .inr

/-- What stands for something has the characters of names only. -/
theorem spellsName_of_resolve? (r : Resolver) {file : SchemaFile} {s : Site} (h : file.Has s)
    {name : String} {d : Definition} (hd : r.resolve? file s name = some d) :
    ∀ c ∈ name.toList, Scan.spellsName c = true := by
  have hspells {text : String} (hall : ∀ segment ∈ Text.split '.' text, IsName segment) :
      ∀ c ∈ text.toList, Scan.spellsName c = true := by
    intro c hc
    rcases Text.mem_of_mem_toList hc with rfl | ⟨segment, hsegment, hc⟩
    · rfl
    · exact (hall segment hsegment).spells c hc
  rcases (r.has_of_resolve? h hd).2 with hall | ⟨package, rest, hpackage, rfl, hall⟩
  · exact hspells hall
  · intro c hc
    rw [String.toList_append, String.toList_append, List.mem_append, List.mem_append] at hc
    rcases hc with (hc | hc) | hc
    · exact hpackage.spells c hc
    · obtain rfl : c = '.' := by simpa using hc
      rfl
    · exact hspells hall c hc

theorem resolve?_of_unnamed (r : Resolver) {file : SchemaFile} {s : Site} (h : file.Has s)
    {name : String} (hname : SchemaFile.Unnamed name) : r.resolve? file s name = none := by
  obtain ⟨c, hc, hcloses⟩ := hname
  rw [Option.eq_none_iff_forall_ne_some]
  intro d hd
  have hspells := r.spellsName_of_resolve? h hd c (List.mem_of_getLast? hc)
  rw [Scan.spellsName_of_closes hcloses] at hspells
  cases hspells

end Resolver

/-! ## Across files -/

structure Relaid (f g : SchemaFile) : Prop where
  path : f.path? = g.path?
  nodes : SameNodes f g

/-- The files that two runs have before them at the same time: the two texts,
or one imported file. -/
inductive Kin (f g : SchemaFile) : SchemaFile → SchemaFile → Prop where
  | checked : Kin f g f g
  | imported (path : Path) (source : String) :
    Kin f g (.readSaved path source) (.readSaved path source)

structure Akin (f g : SchemaFile) (d e : Definition) : Prop where
  file : Kin f g d.file e.file
  site : TwinSite d.file e.file d.site e.site

namespace Kin

variable {f g a b c d : SchemaFile} (h : Relaid f g)
include h

theorem nodes (hab : Kin f g a b) : SameNodes a b := by
  cases hab with
  | checked => exact h.nodes
  | imported path source => exact .refl _

/-- Two texts of one file are the same file to the same others. -/
theorem same (hab : Kin f g a b) (hcd : Kin f g c d) :
    a.origin.same c.origin = b.origin.same d.origin := by
  have hsaved (path : Path) : f.origin.same (.saved path) = g.origin.same (.saved path) ∧
      Origin.same (.saved path) f.origin = Origin.same (.saved path) g.origin := by
    have hpath : f.origin.path? = g.origin.path? := h.path
    generalize f.origin = p, g.origin = q at hpath
    cases p <;> cases q <;> cases hpath <;> exact ⟨rfl, rfl⟩
  cases hab with
  | checked =>
    cases hcd with
    | checked => rw [Origin.same_refl, Origin.same_refl]
    | imported path source => exact (hsaved path).1
  | imported path source =>
    cases hcd with
    | checked => exact (hsaved path).2
    | imported path' source' => rfl

end Kin

namespace Akin

variable {f g : SchemaFile} {d e d' e' : Definition}

theorem kind (h : Akin f g d e) : d.kind = e.kind := h.site.kind

theorem isInstantiable (h : Akin f g d e) : d.isInstantiable = e.isInstantiable := by
  rw [Definition.isInstantiable, Definition.isInstantiable, h.kind]

theorem isType (h : Akin f g d e) : d.isType = e.isType := by
  rw [Definition.isType, Definition.isType, h.isInstantiable, h.kind]

theorem same (hrelaid : Relaid f g) (h : Akin f g d e) (h' : Akin f g d' e') :
    d.same d' = e.same e' := by
  rw [Definition.same, Definition.same, h.site.id, h'.site.id, Definition.sameFile,
    Definition.sameFile, h.file.same hrelaid h'.file]

theorem isChildOf (hrelaid : Relaid f g) (h : Akin f g d e) (h' : Akin f g d' e') :
    d.isChildOf d' = e.isChildOf e' := by
  rw [Definition.isChildOf, Definition.isChildOf, h.site.parent?, h'.site.id, Definition.sameFile,
    Definition.sameFile, h'.file.same hrelaid h.file]

end Akin

namespace Resolver

theorem load?_eq_some_iff {r : Resolver} {root : Path} {importPath : String} {file : SchemaFile} :
    r.load? root importPath = some file ↔ ∃ target source,
      r.files.importTarget? root importPath = some target ∧ r.files.read target = .ok source ∧
        file = .readSaved target source := by
  rw [load?]
  constructor
  · intro h
    obtain ⟨target, htarget, h⟩ := Option.bind_eq_some_iff.mp h
    obtain ⟨source, hsource, h⟩ := Option.bind_eq_some_iff.mp h
    refine ⟨target, source, htarget, ?_, (Option.some.inj h).symm⟩
    cases hread : r.files.read target with
    | error e =>
      rw [hread] at hsource
      cases hsource
    | ok text =>
      rw [hread] at hsource
      rw [Option.some.inj hsource]
  · rintro ⟨target, source, htarget, hread, rfl⟩
    refine Option.bind_eq_some_iff.mpr ⟨target, htarget, ?_⟩
    rw [hread]
    rfl

theorem exists_of_load? {r : Resolver} {root : Path} {importPath : String} {file : SchemaFile}
    (h : r.load? root importPath = some file) : ∃ path source, file = .readSaved path source := by
  obtain ⟨path, source, -, -, h⟩ := load?_eq_some_iff.mp h
  exact ⟨path, source, h⟩

theorem rel_resolveExported? (file : SchemaFile) (name : String) :
    Option.Rel (fun d e => d.file = file ∧ e.file = file ∧ TwinSite file file d.site e.site)
      (file.resolveExported? name) (file.resolveExported? name) := by
  rw [SchemaFile.resolveExported?]
  cases file.package? with
  | none => exact .none
  | some package =>
    show Option.Rel _ ((SchemaFile.withoutPackage? package name).bind _)
      ((SchemaFile.withoutPackage? package name).bind _)
    cases SchemaFile.withoutPackage? package name with
    | none => exact .none
    | some rest => exact (SameNodes.refl file).twin_rootSite.resolve? rest

variable {f g a b : SchemaFile} {s t : Site}

theorem rel_resolve? (r : Resolver) (h : Relaid f g) (hab : Kin f g a b) (hst : TwinSite a b s t)
    (name : String) : Option.Rel (Akin f g) (r.resolve? a s name) (r.resolve? b t name) := by
  have hlocal : Option.Rel (Akin f g) (a.resolve? s name) (b.resolve? t name) := by
    refine rel_imp (hst.resolve? name) ?_
    rintro d e ⟨rfl, rfl, hsite⟩
    exact ⟨hab, hsite⟩
  have himports : r.importSites a = r.importSites b := by
    rw [importSites, importSites, (hab.nodes h).imports]
  have himported : Option.Rel (Akin f g) (r.resolveImported? a name)
      (r.resolveImported? b name) := by
    rw [resolveImported?, resolveImported?, himports]
    refine rel_findSome? (R := Eq) (List.forall₂_same.mpr fun _ _ => rfl) ?_
    rintro ⟨root, importPath⟩ _ rfl
    dsimp only
    cases hload : r.load? root importPath with
    | none => exact .none
    | some file =>
      obtain ⟨path, source, rfl⟩ := exists_of_load? hload
      refine rel_imp (rel_resolveExported? _ name) ?_
      rintro d e ⟨hd, he, hsite⟩
      exact ⟨by rw [hd, he]; exact .imported path source, by rw [hd, he]; exact hsite⟩
  refine rel_orElse hlocal ?_
  split
  · exact himported
  · exact .none

end Resolver

/-! ## Fields -/

namespace Twin

variable {f g : SchemaFile} {m n : Node} (h : Twin f g m n)
include h

theorem fieldName? : f.fieldName? m = g.fieldName? n :=
  h.childText (show NodeKind.fieldName.isFixed = true from rfl)

theorem fieldNumber? : f.fieldNumber? m = g.fieldNumber? n := by
  have htext := h.childText (show NodeKind.fieldNumber.isFixed = true from rfl)
  have hnumber := congrArg (Option.bind · (Text.number? UInt64.size)) htext
  rwa [Option.bind_map, Option.bind_map] at hnumber

theorem numberedFields :
    List.Forall₂ (fun p q => p.1 = q.1 ∧ Twin f g p.2 q.2) (f.numberedFields m)
      (g.numberedFields n) := by
  refine List.rel_filterMap ?_ (h.childrenOfKind .field)
  rintro c d ⟨hcd, -⟩
  dsimp only
  rw [hcd.fieldNumber?]
  cases g.fieldNumber? d with
  | none => exact .none
  | some number => exact .some ⟨rfl, hcd⟩

theorem orderedFields :
    List.Forall₂ (Twin f g) (f.orderedFields m) (g.orderedFields n) := by
  have hput (number : Nat) {c d : Node} (hcd : Twin f g c d) {fs gs : List (Nat × Node)}
      (hfields : List.Forall₂ (fun p q => p.1 = q.1 ∧ Twin f g p.2 q.2) fs gs) :
      List.Forall₂ (fun p q => p.1 = q.1 ∧ Twin f g p.2 q.2) (SchemaFile.putField number c fs)
        (SchemaFile.putField number d gs) := by
    induction hfields with
    | nil => exact .cons ⟨rfl, hcd⟩ .nil
    | @cons p q fs gs hpq hrest ih =>
      obtain ⟨x, c'⟩ := p
      obtain ⟨y, d'⟩ := q
      obtain ⟨rfl, hnode⟩ := hpq
      rw [SchemaFile.putField, SchemaFile.putField]
      split
      · exact .cons ⟨rfl, hcd⟩ (.cons ⟨rfl, hnode⟩ hrest)
      · split
        · exact .cons ⟨rfl, hcd⟩ hrest
        · exact .cons ⟨rfl, hnode⟩ ih
  rw [SchemaFile.orderedFields, SchemaFile.orderedFields, List.forall₂_map_left_iff,
    List.forall₂_map_right_iff]
  refine (List.rel_foldl (P := List.Forall₂ fun p q => p.1 = q.1 ∧ Twin f g p.2 q.2) ?_ .nil
    h.numberedFields).imp fun _ _ hpq => hpq.2
  rintro fs gs hfields ⟨x, c⟩ ⟨y, d⟩ ⟨rfl, hcd⟩
  exact hput x hcd hfields

end Twin

end SchemaLang
