import SchemaLang.Proofs.ImportSearch
import SchemaLang.Proofs.LocalNames

/-!
# Names of fields behind names of types

One segment more behind the name of a type leads into the type. So a field is
known in its whole file behind the name that its type has from the root, if no
other field and no nested definition has its name. There is no other way to a
field: all but the last segment of a name that stands for one are the path of
the type, and the length of a path tells how deep it leads.
-/

set_option autoImplicit false

namespace SchemaLang

namespace SchemaFile

variable {file : SchemaFile} {scope s d : Site} {path : List String} {name : String}

/-! ## One segment more -/

theorem findDefinition?_of_lookup? (h : file.lookup? scope true name = some d)
    (hkind : d.kind = .type) : file.findDefinition? scope .enum name = none ∧
      file.findDefinition? scope .type name = some d := by
  have hfound {kind : NodeKind} (hne : kind ≠ .type)
      (hd : file.findDefinition? scope kind name = some d) : False := by
    obtain ⟨c, -, hckind, -, rfl⟩ := exists_of_findDefinition? hd
    exact hne (hckind.symm.trans hkind)
  simp only [lookup?, Option.orElse_eq_orElse, Option.orElse_eq_or, Option.or_eq_some_iff,
    if_true] at h
  rcases h with hd | ⟨henum, hd | ⟨-, hd | ⟨-, hd⟩⟩⟩
  · exact (hfound (by decide) hd).elim
  · exact (hfound (by decide) hd).elim
  · exact ⟨henum, hd⟩
  · exact (hfound (by decide) hd).elim

/-- Behind the path of a type stands what is in the type. -/
theorem walk?_append_singleton (h : file.walk? true scope path = some d) (hkind : d.kind = .type)
    (last : String) : file.walk? true scope (path ++ [last]) = file.lookup? d true last := by
  induction path generalizing scope with
  | nil => cases h
  | cons segment rest ih =>
    match rest with
    | [] =>
      obtain ⟨henum, htype⟩ := findDefinition?_of_lookup? h hkind
      show file.walk? true scope [segment, last] = _
      rw [walk?, henum, htype]
      rfl
    | [owned] =>
      rw [walk?] at h
      cases henum : file.findDefinition? scope .enum segment with
      | some enum =>
        -- an enum has values only, and no types
        rw [henum] at h
        obtain ⟨c, -, hvalue, -, rfl⟩ := exists_of_findDefinition? h
        cases hvalue.symm.trans hkind
      | none =>
        rw [henum] at h
        obtain ⟨inner, hinner, h⟩ := Option.bind_eq_some_iff.mp h
        show file.walk? true scope [segment, owned, last] = _
        rw [walk?, hinner]
        exact ih h
    | next :: owned :: rest =>
      rw [walk?] at h
      obtain ⟨inner, hinner, h⟩ := Option.bind_eq_some_iff.mp h
      show file.walk? true scope (segment :: next :: (owned :: rest ++ [last])) = _
      rw [List.cons_append, walk?, hinner]
      exact ih h

theorem name?_of_field {field : Node} (hkind : field.kind = .field) :
    file.name? field = file.fieldName? field := by
  rw [name?, nameNode?, hkind]
  rfl

/-! ## Fields with names of their own -/

def fieldNames (file : SchemaFile) (definition : Node) : List String :=
  (definition.childrenOfKind .field).filterMap file.fieldName?

def nestedNames (file : SchemaFile) (definition : Node) : List String :=
  (definition.children.filter fun n =>
    n.kind == .type || n.kind == .enum || n.kind == .component).filterMap file.name?

structure OwnFields (file : SchemaFile) (definition : Node) : Prop where
  names : (file.fieldNames definition).Nodup
  numbers : ((definition.childrenOfKind .field).filterMap file.fieldNumber?).Nodup
  apart : ∀ name ∈ file.fieldNames definition, name ∉ file.nestedNames definition

instance (file : SchemaFile) (definition : Node) : Decidable (file.OwnFields definition) :=
  decidable_of_iff
    ((file.fieldNames definition).Nodup ∧
      ((definition.childrenOfKind .field).filterMap file.fieldNumber?).Nodup ∧
      ∀ name ∈ file.fieldNames definition, name ∉ file.nestedNames definition)
    ⟨fun h => ⟨h.1, h.2.1, h.2.2⟩, fun h => ⟨h.names, h.numbers, h.apart⟩⟩

variable {field : Node}

/-- A field with a name of its own is what the name stands for in its type. -/
theorem lookup?_field (hown : file.OwnFields d.node) (hfield : field ∈ d.node.childrenOfKind .field)
    (hname : file.fieldName? field = some name) :
    file.lookup? d true name = some (d.child field) := by
  obtain ⟨hchild, hkind⟩ := List.mem_filter.mp hfield
  have hkind : field.kind = .field := eq_of_beq hkind
  have hnamed : file.name? field = some name := (name?_of_field hkind).trans hname
  have henum : file.findDefinition? d .enum name = none := by
    rw [Option.eq_none_iff_forall_ne_some]
    intro e he
    obtain ⟨c, hc, hckind, hcname, rfl⟩ := exists_of_findDefinition? he
    exact hown.apart name (List.mem_filterMap.mpr ⟨field, hfield, hname⟩)
      (List.mem_filterMap.mpr ⟨c, List.mem_filter.mpr ⟨hc, by simp [hckind]⟩, hcname⟩)
  obtain ⟨e, he⟩ : ∃ e, file.findDefinition? d field.kind name = some e :=
    exists_findDefinition? hchild hnamed
  rw [hkind] at he
  obtain ⟨c, hc, hckind, hcname, rfl⟩ := exists_of_findDefinition? he
  obtain rfl : c = field := eq_of_nodup_filterMap hown.names
    (List.mem_filter.mpr ⟨hc, beq_iff_eq.mpr hckind⟩) hfield
    ((name?_of_field hckind).symm.trans hcname) hname
  rw [lookup?, henum, if_pos rfl, he]
  rfl

theorem walk?_of_resolve?_rootSite {d : Definition}
    (h : file.resolve? file.rootSite name = some d) :
    (∀ segment ∈ Text.split '.' name, segment ≠ "") ∧
      file.walk? true file.rootSite (Text.split '.' name) = some d.site := by
  obtain ⟨segments, hsegments, h⟩ := Option.bind_eq_some_iff.mp h
  obtain ⟨rfl, hne⟩ := nameSegments?_eq_some_iff.mp hsegments
  obtain ⟨found, hfound, h⟩ := Option.bind_eq_some_iff.mp h
  cases h
  -- there is nothing around a root
  have hscopes : enclosingTypes file.rootSite = [] := rfl
  rw [hscopes, List.findSome?_nil, Option.orElse_eq_orElse, Option.orElse_eq_or,
    Option.or_none] at hfound
  exact ⟨hne, hfound⟩

theorem nameSegments?_append {last : String} (h : ∀ segment ∈ Text.split '.' name, segment ≠ "")
    (hne : last ≠ "") (hplain : '.' ∉ last.toList) :
    nameSegments? (name ++ "." ++ last) = some (Text.split '.' name ++ [last]) := by
  have hsplit : Text.split '.' (name ++ "." ++ last) = Text.split '.' name ++ [last] := by
    rw [Text.split_append, Text.split_of_not_mem hplain]
  refine nameSegments?_eq_some_iff.mpr ⟨hsplit.symm, fun segment hsegment => ?_⟩
  rw [hsplit, List.mem_append, List.mem_singleton] at hsegment
  rcases hsegment with hsegment | rfl
  · exact h segment hsegment
  · exact hne

/-- A field of a type is known everywhere in its file behind the name that the type
has from the root. -/
theorem resolve?_field {d : Definition} (h : file.resolve? file.rootSite name = some d)
    (hkind : d.kind = .type) (hown : d.file.OwnFields d.site.node)
    (hfield : field ∈ d.site.node.childrenOfKind .field) {last : String}
    (hname : d.file.fieldName? field = some last) (hne : last ≠ "") (hplain : '.' ∉ last.toList)
    (s : Site) :
    file.resolve? s (name ++ "." ++ last) = some ⟨d.file, d.site.child field⟩ := by
  obtain ⟨hsegments, hwalk⟩ := walk?_of_resolve?_rootSite h
  obtain rfl := file_of_resolve? h
  have hfound : d.file.walk? true d.file.rootSite (Text.split '.' name ++ [last]) =
      some (d.site.child field) := by
    rw [walk?_append_singleton hwalk hkind, lookup?_field hown hfield hname]
  rw [resolve?, nameSegments?_append hsegments hne hplain]
  show ((d.file.walk? true d.file.rootSite _ <|> _).bind _) = _
  rw [hfound]
  rfl

/-! ## Paths of fields -/

theorem HasPath.depth (h : file.HasPath scope path d) :
    d.above.length = scope.above.length + path.length := by
  induction h with
  | definition => rfl
  | value => rfl
  | within _ _ _ _ ih =>
    rw [ih, Site.child, List.length_cons, List.length_cons]
    omega

theorem HasPath.bottom (h : file.HasPath scope path d) :
    d.above.getLast? = (scope.node :: scope.above).getLast? := by
  induction h with
  | definition => rfl
  | value => exact List.getLast?_cons_cons
  | within _ _ _ _ ih =>
    rw [ih]
    exact List.getLast?_cons_cons

theorem HasPath.last (h : file.HasPath scope path d) : ∃ (parent : Site) (n : Node) (own : String),
    d = parent.child n ∧ n ∈ parent.node.children ∧ file.Names n own ∧
      path.getLast? = some own := by
  induction h with
  | definition hd _ _ hname => exact ⟨_, _, _, rfl, hd, hname, rfl⟩
  | value _ _ _ hd _ hname => exact ⟨_, _, _, rfl, hd, hname, rfl⟩
  | within _ _ _ h ih =>
    obtain ⟨parent, n, own, hd, hn, hname, hlast⟩ := ih
    exact ⟨parent, n, own, hd, hn, hname, by simp [List.getLast?_cons, hlast]⟩

theorem child_inj {m n : Node} (h : s.child m = d.child n) : s = d ∧ m = n := by
  obtain ⟨sNode, sAbove⟩ := s
  obtain ⟨dNode, dAbove⟩ := d
  cases h
  exact ⟨rfl, rfl⟩

/-- The path of a field is that of its type, and its name. -/
theorem HasPath.exists_of_field {e : Site} (h : file.HasPath scope path e)
    (hkind : e.kind = .field) (he : e = d.child field) :
    ∃ front last, path = front ++ [last] ∧ file.Names field last ∧
      (front = [] ∧ d = scope ∨ file.HasPath scope front d ∧ d.kind = .type) := by
  induction h with
  | definition _ _ _ hname =>
    obtain ⟨rfl, rfl⟩ := child_inj he
    exact ⟨[], _, rfl, hname, .inl ⟨rfl, rfl⟩⟩
  | value _ _ _ _ hvalue => cases hvalue.symm.trans hkind
  | within htype htypeKind hname _ ih =>
    obtain ⟨front, last, rfl, hlast, hfront⟩ := ih hkind he
    refine ⟨_ :: front, last, rfl, hlast, .inr ?_⟩
    rcases hfront with ⟨rfl, rfl⟩ | ⟨hpath, hd⟩
    · exact ⟨.definition htype (isMember_of_type htypeKind)
        (fun hfield => by cases htypeKind.symm.trans hfield) hname, htypeKind⟩
    · exact ⟨.within htype htypeKind hname hpath, hd⟩

/-- What a name stands for, it stands for from the root, or it is the path from a type
around the site. -/
theorem resolve?_cases {site : Site} (hsite : site ∈ file.sites) {d : Definition}
    (h : file.resolve? site name = some d) :
    file.resolve? file.rootSite name = some d ∨
      ∃ scope, scope.kind = .type ∧ file.HasPath scope (Text.split '.' name) d.site ∧
        d.kind ≠ .field := by
  obtain ⟨segments, hsegments, h⟩ := Option.bind_eq_some_iff.mp h
  obtain ⟨found, hfound, h⟩ := Option.bind_eq_some_iff.mp h
  cases h
  simp only [Option.orElse_eq_orElse, Option.orElse_eq_or, Option.or_eq_some_iff] at hfound
  rcases hfound with hroot | ⟨-, hscopes⟩
  · left
    rw [resolve?, hsegments]
    show ((file.walk? true file.rootSite segments <|> _).bind _) = _
    rw [hroot]
    rfl
  · right
    obtain ⟨rfl, -⟩ := nameSegments?_eq_some_iff.mp hsegments
    obtain ⟨scope, hscope, hd⟩ := List.exists_of_findSome?_eq_some hscopes
    obtain ⟨hancestor, hkind⟩ := List.mem_filter.mp hscope
    have hkind : scope.kind = .type := eq_of_beq hkind
    have hmem := ((has_of_mem_sites hsite).ancestors scope hancestor).1
    obtain ⟨hpath, hfield⟩ :=
      hasPath_of_walk? ⟨hmem, .inr hkind⟩ (fun _ => Text.not_mem_of_mem_split) hd
    exact ⟨scope, hkind, hpath, hfield rfl⟩

theorem hasPath_of_resolve?_rootSite {d : Definition}
    (h : file.resolve? file.rootSite name = some d) :
    file.HasPath file.rootSite (Text.split '.' name) d.site :=
  (hasPath_of_walk? isScope_rootSite (fun _ => Text.not_mem_of_mem_split)
    (walk?_of_resolve?_rootSite h).2).1

/-- A name inside a file has no more segments than what it stands for is deep. -/
theorem length_le_of_resolve? {site : Site} (hsite : site ∈ file.sites) {d : Definition}
    (h : file.resolve? site name = some d) :
    (Text.split '.' name).length ≤ d.site.above.length := by
  rcases resolve?_cases hsite h with hroot | ⟨scope, -, hpath, -⟩
  · rw [(hasPath_of_resolve?_rootSite hroot).depth]
    exact Nat.le_add_left _ _
  · rw [hpath.depth]
    exact Nat.le_add_left _ _

/-- No path leads from a type to where it leads from the root. -/
theorem HasPath.false_of_type (h : file.HasPath file.rootSite path d) {scope : Site}
    (hkind : scope.kind = .type) (h' : file.HasPath scope path d) : False := by
  have hdepth := h'.depth
  rw [h.depth, rootSite, List.length_nil] at hdepth
  have habove : scope.above = [] := List.length_eq_zero_iff.mp (by omega)
  have hbottom := h'.bottom
  rw [h.bottom, habove] at hbottom
  have hroot : file.root = scope.node := Option.some.inj hbottom
  cases file.kind_root.symm.trans ((congrArg Node.kind hroot).trans hkind)

end SchemaFile

theorem SchemaFile.segments_of_resolve? {file : SchemaFile} {s : Site} {name : String}
    {d : Definition} (h : file.resolve? s name = some d) :
    ∀ segment ∈ Text.split '.' name, segment ≠ "" := by
  obtain ⟨segments, hsegments, -⟩ := Option.bind_eq_some_iff.mp h
  exact (nameSegments?_eq_some_iff.mp hsegments).2

theorem Resolver.segments_of_resolve? {r : Resolver} {file : SchemaFile} {s : Site} {name : String}
    {d : Definition} (h : r.resolve? file s name = some d) :
    ∀ segment ∈ Text.split '.' name, segment ≠ "" := by
  rcases resolve?_iff.mp h with hlocal | ⟨-, hsegments, -⟩
  · exact SchemaFile.segments_of_resolve? hlocal
  · exact hsegments

/-- What a name stands for has a path that ends like the name. -/
theorem Resolver.exists_path_of_resolve? {r : Resolver} {file : SchemaFile} {s : Site}
    {name : String} {d : Definition} (hs : s ∈ file.sites) (h : r.resolve? file s name = some d) :
    ∃ scope path, d.file.HasPath scope path d.site ∧
      path.getLast? = (Text.split '.' name).getLast? := by
  rcases resolve?_iff.mp h with hd | ⟨-, -, hd⟩
  · obtain rfl := SchemaFile.file_of_resolve? hd
    rcases SchemaFile.resolve?_cases hs hd with hroot | ⟨scope, -, hpath, -⟩
    · exact ⟨_, _, SchemaFile.hasPath_of_resolve?_rootSite hroot, rfl⟩
    · exact ⟨scope, _, hpath, rfl⟩
  · obtain ⟨i, j, target, hoffer, -⟩ := resolveImported?_eq_some_iff.mp hd
    obtain ⟨root, importPath, source, package, rest, -, -, -, -, -, rfl, hrest⟩ := hoffer
    have hfile := SchemaFile.file_of_resolve? hrest
    rw [← hfile] at hrest
    refine ⟨_, _, SchemaFile.hasPath_of_resolve?_rootSite hrest, ?_⟩
    have hne : Text.split '.' rest ≠ [] := by simp [Text.split, List.splitOn_ne_nil]
    rw [Text.split_append, List.getLast?_append_of_ne_nil _ hne]

/-- A name that stands for something from the root of a file stands for it everywhere in it. -/
theorem SchemaFile.resolve?_of_rootSite {file : SchemaFile} {name : String} {d : Definition}
    (h : file.resolve? file.rootSite name = some d) (s : Site) : file.resolve? s name = some d := by
  obtain ⟨hsegments, hwalk⟩ := walk?_of_resolve?_rootSite h
  obtain rfl := file_of_resolve? h
  rw [resolve?, nameSegments?_eq_some_iff.mpr ⟨rfl, hsegments⟩]
  show ((d.file.walk? true d.file.rootSite _ <|> _).bind _) = _
  rw [hwalk]
  rfl

end SchemaLang
