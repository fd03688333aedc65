import SchemaLang.KnownNames
import SchemaLang.Proofs.Arena
import SchemaLang.Proofs.ImportSearch

/-!
# Names in arenas

Looking up a name walks through the arenas of several files at once. A
definition is then a number together with the arena that it counts in. Every
number is read in the arena it comes from, and what it stands for is what the
trees give.
-/

set_option autoImplicit false

namespace SchemaLang

def firstOf {α : Type} (first other : Guarded (Option α)) : Guarded (Option α) := do
  match ← first with
  | some found => pure (some found)
  | none => other

theorem firstOf_pure {α β : Type} (i : α → β) (first other : Option α) :
    firstOf (pure (first.map i)) (pure (other.map i)) = pure ((first <|> other).map i) := by
  cases first <;> rfl

namespace Arena

variable (a : Arena)

/-! ## Names and fields -/

def name? (id : Nat) : Guarded (Option String) := do
  match SchemaFile.nameKind? (← a.kind id) with
  | none => pure none
  | some kind => a.text? (← a.firstChild? id kind)

def findNamed? (scope : Nat) (kind : NodeKind) (name : String) : Guarded (Option Nat) := do
  (← a.childrenOfKind scope kind).findM? fun child => (· == some name) <$> a.name? child

def package? : Guarded (Option String) := do
  match ← a.firstChild? root .package with
  | none => pure none
  | some package => a.name? package

def imports : Guarded (List String) := do
  let statements ← a.childrenOfKind root .importing
  let paths ← statements.filterMapM fun statement => a.firstChild? statement .importPath
  let texts ← paths.mapM a.text
  return texts.filterMap fun text =>
    let path := SchemaFile.unquote text
    if path = "" then none else some path

def knowsStandard (name : String) : Guarded Bool := do
  let imports ← a.imports
  return name == KnownNames.entityId ||
    (KnownNames.standardTypes.any (fun t => KnownNames.standardPackage ++ "." ++ t == name) &&
      imports.contains KnownNames.standardImport)

def fieldName? (field : Nat) : Guarded (Option String) := do
  a.text? (← a.firstChild? field .fieldName)

def fieldType? (field : Nat) : Guarded (Option Nat) := a.firstChild? field .fieldType

def fieldNumber? (field : Nat) : Guarded (Option Nat) := do
  return (← a.text? (← a.firstChild? field .fieldNumber)).bind (Text.number? UInt64.size)

def numberedFields (definition : Nat) : Guarded (List (Nat × Nat)) := do
  (← a.childrenOfKind definition .field).filterMapM fun field =>
    (·.map (·, field)) <$> a.fieldNumber? field

def putField (number field : Nat) : List (Nat × Nat) → List (Nat × Nat)
  | [] => [(number, field)]
  | (n, f) :: rest =>
    if number < n then (number, field) :: (n, f) :: rest
    else if number = n then (number, field) :: rest
    else (n, f) :: putField number field rest

def orderedFields (definition : Nat) : Guarded (List Nat) := do
  let fields ← a.numberedFields definition
  return (fields.foldl (fun fields (number, field) => putField number field fields) []).map Prod.snd

/-! ## Looking up names -/

def lookup? (scope : Nat) (fields : Bool) (name : String) : Guarded (Option Nat) :=
  firstOf (a.findNamed? scope .enum name) <|
  firstOf (if fields then a.findNamed? scope .field name else pure none) <|
  firstOf (a.findNamed? scope .type name) (a.findNamed? scope .component name)

def walk? (fields : Bool) : Nat → List String → Guarded (Option Nat)
  | _, [] => pure none
  | scope, [last] => a.lookup? scope fields last
  | scope, [owner, last] => do
    match ← a.findNamed? scope .enum owner with
    | some enum => a.findNamed? enum .enumValue last
    | none =>
      match ← a.findNamed? scope .type owner with
      | some inner => a.lookup? inner fields last
      | none => pure none
  | scope, segment :: next :: last :: rest => do
    match ← a.findNamed? scope .type segment with
    | some inner => walk? fields inner (next :: last :: rest)
    | none => pure none

def resolve? (id : Nat) (name : String) : Guarded (Option Nat) :=
  match nameSegments? name with
  | none => pure none
  | some segments =>
    firstOf (a.walk? true root segments) do
      let scopes ← (← a.ancestors id).filterM (a.isOfKind .type)
      scopes.findSomeM? fun scope => a.walk? false scope segments

def resolveExported? (name : String) : Guarded (Option Nat) := do
  match (← a.package?).bind fun package => SchemaFile.withoutPackage? package name with
  | none => pure none
  | some rest => a.resolve? root rest

end Arena

structure Handle where
  arena : Arena
  id : Nat

namespace Handle

def kind (h : Handle) : Guarded NodeKind := h.arena.kind h.id

def sameFile (h : Handle) (a : Arena) : Bool := h.arena.origin.same a.origin

def same (h g : Handle) : Bool := h.id == g.id && h.sameFile g.arena

def isChildOf (h parent : Handle) : Guarded Bool := do
  if parent.sameFile h.arena then return (← h.arena.parent? h.id) == some parent.id
  else return false

def isInstantiable (h : Handle) : Guarded Bool :=
  (fun kind => kind == .type || kind == .component) <$> h.kind

def orderedFields (h : Handle) : Guarded (List Nat) := h.arena.orderedFields h.id

end Handle

namespace Resolver

variable (r : Resolver)

def resolveImportedIn? (a : Arena) (name : String) : Guarded (Option Handle) := do
  let imports ← a.imports
  (r.roots.flatMap fun root => imports.map (root, ·)).findSomeM? fun (root, importPath) =>
    match r.load? root importPath with
    | none => pure none
    | some file => (·.map (Handle.mk file.arena)) <$> file.arena.resolveExported? name

def resolveIn? (a : Arena) (id : Nat) (name : String) : Guarded (Option Handle) :=
  firstOf ((·.map (Handle.mk a)) <$> a.resolve? id name) <|
    if (nameSegments? name).isSome then r.resolveImportedIn? a name else pure none

end Resolver

namespace SchemaFile

variable {file : SchemaFile} {n : Node} {s t : Site} {kind : NodeKind} {name : String}

/-! ## Names and fields of a file -/

theorem root_arena (file : SchemaFile) : Arena.root = file.root.id := by
  rw [file.root_eq]
  rfl

theorem mem_root (file : SchemaFile) : file.root ∈ file.nodes := List.mem_cons_self

theorem mem_childrenOfKind {c : Node} (hn : n ∈ file.nodes) (hc : c ∈ n.childrenOfKind kind) :
    c ∈ file.nodes :=
  child_mem_nodes hn (List.mem_of_mem_filter hc)

theorem mem_firstChild {c : Node} (hn : n ∈ file.nodes) (hc : n.firstChild? kind = some c) :
    c ∈ file.nodes :=
  child_mem_nodes hn (List.mem_of_find?_eq_some hc)

theorem name_arena (hn : n ∈ file.nodes) : file.arena.name? n.id = pure (file.name? n) := by
  rw [Arena.name?, kind_arena hn, pure_bind, name?, nameNode?]
  cases nameKind? n.kind with
  | none => rfl
  | some kind => exact text_firstChild_arena hn kind

theorem findNamed_arena (hs : s ∈ file.sites) : file.arena.findNamed? s.id kind name =
    pure ((file.findDefinition? s kind name).map Site.id) := by
  have hn := file.node_mem_nodes hs
  have hfind : (s.node.childrenOfKind kind).find? (fun c => file.name? c == some name) =
      s.node.children.find? (file.defines kind name) := by
    rw [Node.childrenOfKind, List.find?_filter]
    simp only [Bool.decide_and, Bool.decide_eq_true]
    rfl
  rw [Arena.findNamed?, Site.id, childrenOfKind_arena hn, pure_bind, findM?_map_pure
    (q := fun c => file.name? c == some name), hfind, findDefinition?, Option.map_map]
  · rfl
  · intro c hc
    rw [name_arena (mem_childrenOfKind hn hc)]
    rfl

theorem package_arena (file : SchemaFile) : file.arena.package? = pure file.package? := by
  rw [Arena.package?, root_arena file, firstChild_arena file.mem_root, pure_bind, package?]
  cases hfirst : file.root.firstChild? .package with
  | none => rfl
  | some package => exact name_arena (mem_firstChild file.mem_root hfirst)

theorem imports_arena (file : SchemaFile) : file.arena.imports = pure file.imports := by
  rw [Arena.imports, root_arena file, childrenOfKind_arena file.mem_root, pure_bind,
    filterMapM_map_pure (j := Node.id) fun c hc =>
      firstChild_arena (mem_childrenOfKind file.mem_root hc) _, pure_bind,
    mapM_map_pure (g := file.text), pure_bind, List.filterMap_map]
  · rfl
  · intro c hc
    obtain ⟨statement, hstatement, hfirst⟩ := List.mem_filterMap.mp hc
    exact text_arena (mem_firstChild (mem_childrenOfKind file.mem_root hstatement) hfirst)

theorem knowsStandard_arena (file : SchemaFile) (name : String) :
    file.arena.knowsStandard name = pure (file.knowsStandard name) := by
  rw [Arena.knowsStandard, imports_arena, pure_bind]
  rfl

section Fields

variable (hn : n ∈ file.nodes)
include hn

theorem fieldName_arena : file.arena.fieldName? n.id = pure (file.fieldName? n) :=
  text_firstChild_arena hn _

theorem fieldType_arena : file.arena.fieldType? n.id = pure ((fieldType? n).map Node.id) :=
  firstChild_arena hn _

theorem fieldNumber_arena : file.arena.fieldNumber? n.id = pure (file.fieldNumber? n) := by
  have htext := text_firstChild_arena hn .fieldNumber
  rw [firstChild_arena hn, pure_bind] at htext
  rw [Arena.fieldNumber?, firstChild_arena hn, pure_bind, htext, pure_bind, Option.bind_map]
  rfl

theorem numberedFields_arena : file.arena.numberedFields n.id =
    pure ((file.numberedFields n).map (Prod.map id Node.id)) := by
  rw [Arena.numberedFields, childrenOfKind_arena hn, pure_bind]
  refine filterMapM_map_pure fun c hc => ?_
  rw [fieldNumber_arena (mem_childrenOfKind hn hc), Option.map_map]
  rfl

end Fields

theorem map_putField (number : Nat) (field : Node) (fields : List (Nat × Node)) :
    (putField number field fields).map (Prod.map id Node.id) =
      Arena.putField number field.id (fields.map (Prod.map id Node.id)) := by
  induction fields with
  | nil => rfl
  | cons first rest ih =>
    obtain ⟨n, f⟩ := first
    rw [putField, List.map_cons, Prod.map_apply, id_eq, Arena.putField]
    split
    · rfl
    · split
      · rfl
      · rw [List.map_cons, ih]
        rfl

theorem orderedFields_arena (hn : n ∈ file.nodes) :
    file.arena.orderedFields n.id = pure ((file.orderedFields n).map Node.id) := by
  have hfold (numbered fields : List (Nat × Node)) :
      (numbered.map (Prod.map id Node.id)).foldl
          (fun fields pair => Arena.putField pair.1 pair.2 fields)
          (fields.map (Prod.map id Node.id)) =
        (numbered.foldl (fun fields pair => putField pair.1 pair.2 fields)
          fields).map (Prod.map id Node.id) := by
    induction numbered generalizing fields with
    | nil => rfl
    | cons first rest ih =>
      rw [List.map_cons, List.foldl_cons, List.foldl_cons, ← ih, map_putField]
      rfl
  have hfields := congrArg (List.map Prod.snd) (hfold (file.numberedFields n) [])
  rw [List.map_map] at hfields
  rw [Arena.orderedFields, numberedFields_arena hn, pure_bind, orderedFields, List.map_map]
  exact congrArg pure hfields

/-! ## Looking up names in a file -/

theorem mem_findDefinition? (hs : s ∈ file.sites) (h : file.findDefinition? s kind name = some t) :
    t ∈ file.sites := by
  obtain ⟨c, hc, rfl⟩ := Option.map_eq_some_iff.mp h
  exact file.child_mem_sites hs (List.mem_of_find?_eq_some hc)

theorem mem_lookup? (hs : s ∈ file.sites) {fields : Bool}
    (h : file.lookup? s fields name = some t) : t ∈ file.sites := by
  simp only [lookup?, Option.orElse_eq_orElse, Option.orElse_eq_or, Option.or_eq_some_iff] at h
  rcases h with h | ⟨-, h | ⟨-, h | ⟨-, h⟩⟩⟩
  · exact mem_findDefinition? hs h
  · split at h
    · exact mem_findDefinition? hs h
    · cases h
  · exact mem_findDefinition? hs h
  · exact mem_findDefinition? hs h

theorem lookup_arena (hs : s ∈ file.sites) (fields : Bool) : file.arena.lookup? s.id fields name =
    pure ((file.lookup? s fields name).map Site.id) := by
  have hfield : (if fields then file.arena.findNamed? s.id .field name else pure none) =
      pure ((if fields then file.findDefinition? s .field name else none).map Site.id) := by
    cases fields with
    | false => rfl
    | true => exact findNamed_arena hs
  rw [Arena.lookup?, findNamed_arena hs, hfield, findNamed_arena hs, findNamed_arena hs,
    firstOf_pure, firstOf_pure, firstOf_pure, lookup?]

theorem mem_walk? {fields : Bool} {segments : List String} (hs : s ∈ file.sites)
    (h : file.walk? fields s segments = some t) : t ∈ file.sites := by
  induction segments generalizing s with
  | nil => cases h
  | cons segment rest ih =>
    match rest with
    | [] => exact mem_lookup? hs h
    | [last] =>
      rw [walk?] at h
      split at h
      · rename_i enum henum
        exact mem_findDefinition? (mem_findDefinition? hs henum) h
      · obtain ⟨inner, hinner, h⟩ := Option.bind_eq_some_iff.mp h
        exact mem_lookup? (mem_findDefinition? hs hinner) h
    | next :: last :: rest =>
      obtain ⟨inner, hinner, h⟩ := Option.bind_eq_some_iff.mp h
      exact ih (mem_findDefinition? hs hinner) h

theorem walk_arena (fields : Bool) (segments : List String) (hs : s ∈ file.sites) :
    file.arena.walk? fields s.id segments =
      pure ((file.walk? fields s segments).map Site.id) := by
  induction segments generalizing s with
  | nil => rfl
  | cons segment rest ih =>
    match rest with
    | [] => exact lookup_arena hs fields
    | [last] =>
      rw [Arena.walk?, findNamed_arena hs, pure_bind, walk?]
      cases henum : file.findDefinition? s .enum segment with
      | some enum => exact findNamed_arena (mem_findDefinition? hs henum)
      | none =>
        simp only [Option.map_none]
        rw [findNamed_arena hs, pure_bind]
        cases htype : file.findDefinition? s .type segment with
        | some inner => exact lookup_arena (mem_findDefinition? hs htype) fields
        | none => rfl
    | next :: last :: rest =>
      rw [Arena.walk?, findNamed_arena hs, pure_bind, walk?]
      cases htype : file.findDefinition? s .type segment with
      | some inner => exact ih (mem_findDefinition? hs htype)
      | none => rfl

theorem mem_ancestors (hs : s ∈ file.sites) (ht : t ∈ s.ancestors) : t ∈ file.sites := by
  obtain ⟨n, above⟩ := s
  induction above generalizing n with
  | nil => cases ht
  | cons p above ih =>
    obtain ⟨u, hu, hnode, -, hst⟩ := file.exists_child hs (p := p) rfl
    obtain rfl : above = u.above := (List.cons.inj (congrArg Site.above hst)).2
    subst hnode
    rcases List.mem_cons.mp ht with rfl | ht
    · exact hu
    · exact ih u.node hu ht

theorem mem_resolve? {d : Definition} (hs : s ∈ file.sites) (h : file.resolve? s name = some d) :
    d.site ∈ file.sites := by
  obtain ⟨segments, -, h⟩ := Option.bind_eq_some_iff.mp h
  obtain ⟨found, hfound, h⟩ := Option.bind_eq_some_iff.mp h
  cases h
  simp only [Option.orElse_eq_orElse, Option.orElse_eq_or, Option.or_eq_some_iff] at hfound
  rcases hfound with hroot | ⟨-, hscopes⟩
  · exact mem_walk? List.mem_cons_self hroot
  · obtain ⟨scope, hscope, hd⟩ := List.exists_of_findSome?_eq_some hscopes
    exact mem_walk? (mem_ancestors hs (List.mem_of_mem_filter hscope)) hd

theorem resolve_arena (hs : s ∈ file.sites) (name : String) : file.arena.resolve? s.id name =
    pure ((file.resolve? s name).map fun d => d.site.id) := by
  rw [Arena.resolve?, resolve?]
  cases nameSegments? name with
  | none => rfl
  | some segments =>
    have hscopes : (do
          let scopes ← (← file.arena.ancestors s.id).filterM (file.arena.isOfKind .type)
          scopes.findSomeM? fun scope => file.arena.walk? false scope segments) =
        pure (((enclosingTypes s).findSome? fun scope => file.walk? false scope segments).map
          Site.id) := by
      rw [ancestors_arena hs, pure_bind, filterM_map_pure (q := (·.kind == .type)), pure_bind]
      · refine findSomeM?_map_pure fun scope hscope => walk_arena false segments ?_
        exact mem_ancestors hs (List.mem_of_mem_filter hscope)
      · intro scope hscope
        rw [Arena.isOfKind, Site.id, kind_arena (file.node_mem_nodes (mem_ancestors hs hscope))]
        rfl
    have hroot : file.arena.walk? true Arena.root segments =
        pure ((file.walk? true file.rootSite segments).map Site.id) := by
      rw [root_arena file]
      exact walk_arena true segments List.mem_cons_self
    simp only [hroot, hscopes, firstOf_pure, Option.bind_eq_bind, Option.bind_some]
    cases (file.walk? true file.rootSite segments) <|>
      (enclosingTypes s).findSome? fun scope => file.walk? false scope segments <;> rfl

theorem resolveExported_arena (file : SchemaFile) (name : String) :
    file.arena.resolveExported? name =
      pure ((file.resolveExported? name).map fun d => d.site.id) := by
  rw [Arena.resolveExported?, package_arena, pure_bind, resolveExported?]
  cases file.package? with
  | none => rfl
  | some package =>
    simp only [Option.bind_some, Option.bind_eq_bind]
    cases withoutPackage? package name with
    | none => rfl
    | some rest =>
      simp only [Option.bind_some]
      rw [root_arena file]
      exact resolve_arena List.mem_cons_self rest

end SchemaFile

namespace Definition

def handle (d : Definition) : Handle := ⟨d.file.arena, d.site.id⟩

def Owned (d : Definition) : Prop := d.site ∈ d.file.sites

variable {d e : Definition}

theorem kind_handle (hd : d.Owned) : d.handle.kind = pure d.kind :=
  SchemaFile.kind_arena (d.file.node_mem_nodes hd)

theorem sameFile_handle (d e : Definition) :
    d.handle.sameFile e.handle.arena = d.sameFile e.file := rfl

theorem isChildOf_handle (hd : d.Owned) :
    d.handle.isChildOf e.handle = pure (d.isChildOf e) := by
  rw [Handle.isChildOf, isChildOf, sameFile_handle]
  cases e.sameFile d.file with
  | false => rfl
  | true =>
    rw [if_pos rfl, show d.handle.arena.parent? d.handle.id = _ from SchemaFile.parent_arena hd]
    rfl

theorem isInstantiable_handle (hd : d.Owned) :
    d.handle.isInstantiable = pure d.isInstantiable := by
  rw [Handle.isInstantiable, kind_handle hd]
  rfl

theorem orderedFields_handle (hd : d.Owned) : d.handle.orderedFields =
    pure ((d.file.orderedFields d.site.node).map Node.id) :=
  SchemaFile.orderedFields_arena (d.file.node_mem_nodes hd)

end Definition

namespace Resolver

variable {r : Resolver} {file : SchemaFile} {s : Site} {name : String} {d : Definition}

/-- What a name stands for is a node of the file that it is found in. -/
theorem owned_of_resolve? (hs : s ∈ file.sites) (h : r.resolve? file s name = some d) :
    d.Owned := by
  simp only [resolve?, Option.orElse_eq_orElse, Option.orElse_eq_or, Option.or_eq_some_iff] at h
  rcases h with h | ⟨-, h⟩
  · obtain rfl := SchemaFile.file_of_resolve? h
    exact SchemaFile.mem_resolve? hs h
  · split at h
    · obtain ⟨⟨root, importPath⟩, -, h⟩ := List.exists_of_findSome?_eq_some h
      obtain ⟨imported, -, h⟩ := Option.bind_eq_some_iff.mp h
      obtain ⟨package, -, h⟩ := Option.bind_eq_some_iff.mp h
      obtain ⟨rest, -, h⟩ := Option.bind_eq_some_iff.mp h
      obtain rfl := SchemaFile.file_of_resolve? h
      exact SchemaFile.mem_resolve? List.mem_cons_self h
    · cases h

theorem map_handle {d? : Option Definition} (h : ∀ d, d? = some d → d.file = file) :
    (·.map (Handle.mk file.arena)) <$> (pure (d?.map fun d => d.site.id) : Guarded (Option Nat)) =
      pure (d?.map Definition.handle) := by
  cases d? with
  | none => rfl
  | some d =>
    obtain rfl := h d rfl
    rfl

theorem resolveImportedIn_arena (r : Resolver) (file : SchemaFile) (name : String) :
    r.resolveImportedIn? file.arena name =
      pure ((r.resolveImported? file name).map Definition.handle) := by
  rw [resolveImportedIn?, SchemaFile.imports_arena, pure_bind, resolveImported?, importSites]
  refine findSomeM?_pure fun pair _ => ?_
  obtain ⟨root, importPath⟩ := pair
  cases hload : r.load? root importPath with
  | none => simp only [hload]; rfl
  | some imported =>
    simp only [hload]
    rw [SchemaFile.resolveExported_arena, Option.bind_some]
    refine map_handle fun d hd => ?_
    obtain ⟨package, -, hd⟩ := Option.bind_eq_some_iff.mp hd
    obtain ⟨rest, -, hd⟩ := Option.bind_eq_some_iff.mp hd
    exact SchemaFile.file_of_resolve? hd

/-- Names are looked up in arenas without a breach, and found where the trees have them. -/
theorem resolveIn_arena (r : Resolver) (hs : s ∈ file.sites) (name : String) :
    r.resolveIn? file.arena s.id name = pure ((r.resolve? file s name).map Definition.handle) := by
  have hbeyond : (if (nameSegments? name).isSome then r.resolveImportedIn? file.arena name
        else pure none) =
      pure ((if (nameSegments? name).isSome then r.resolveImported? file name else none).map
        Definition.handle) := by
    split
    · exact resolveImportedIn_arena r file name
    · rfl
  rw [resolveIn?, SchemaFile.resolve_arena hs,
    map_handle fun d hd => SchemaFile.file_of_resolve? hd, hbeyond, firstOf_pure]
  rfl

end Resolver

end SchemaLang
