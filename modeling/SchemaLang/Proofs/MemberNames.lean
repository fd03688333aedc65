import SchemaLang.Proofs.FullNames

/-!
# Names of values behind names of enums

One segment more behind the name of an enum leads to the value of that name.
Where the name of the enum leads nowhere, neither does the longer one, unless an
enum stands beside a type of its name: then the last segment but one of a name
goes by the enum and the one before it by the type. From outside there is one
more way, past a file whose package is all of the enum's name. Where there are
no such rivals the longer name stands for a value of the enum exactly when the
enum has one of that name.
-/

set_option autoImplicit false

namespace SchemaLang

namespace Definition

def IsValueOf (d enum : Definition) : Prop := d.kind = .enumValue ∧ d.isChildOf enum = true

instance (d enum : Definition) : Decidable (d.IsValueOf enum) :=
  inferInstanceAs (Decidable (_ ∧ _))

def HasValue (enum : Definition) (name : String) : Prop :=
  ∃ n ∈ enum.site.node.childrenOfKind .enumValue, enum.file.name? n = some name

instance (enum : Definition) (name : String) : Decidable (enum.HasValue name) :=
  inferInstanceAs (Decidable (∃ n ∈ _, _))

end Definition

namespace SchemaFile

variable {file : SchemaFile} {scope s d e : Site} {path : List String} {name last : String}
  {fields : Bool}

def Apart (file : SchemaFile) : Prop :=
  ∀ n ∈ file.nodes, ∀ e ∈ n.childrenOfKind .enum, ∀ t ∈ n.childrenOfKind .type,
    file.name? e = file.name? t → file.name? e = none

instance (file : SchemaFile) : Decidable file.Apart := inferInstanceAs (Decidable (∀ n ∈ _, _))

/-! ## One segment more -/

theorem kind_of_findDefinition? {kind : NodeKind}
    (h : file.findDefinition? scope kind name = some d) : d.kind = kind := by
  obtain ⟨c, -, hkind, -, rfl⟩ := exists_of_findDefinition? h
  exact hkind

theorem findDefinition?_of_lookup?_enum (h : file.lookup? scope fields name = some d)
    (hkind : d.kind = .enum) : file.findDefinition? scope .enum name = some d := by
  have hother {kind : NodeKind} (hne : kind ≠ .enum)
      (hd : file.findDefinition? scope kind name = some d) : False :=
    hne ((kind_of_findDefinition? hd).symm.trans hkind)
  simp only [lookup?, Option.orElse_eq_orElse, Option.orElse_eq_or, Option.or_eq_some_iff] at h
  rcases h with hd | ⟨-, hd | ⟨-, hd | ⟨-, hd⟩⟩⟩
  · exact hd
  · split at hd
    · exact (hother (by decide) hd).elim
    · cases hd
  · exact (hother (by decide) hd).elim
  · exact (hother (by decide) hd).elim

theorem findDefinition?_of_lookup?_none (h : file.lookup? scope fields name = none) :
    file.findDefinition? scope .enum name = none ∧
      file.findDefinition? scope .type name = none := by
  simp only [lookup?, Option.orElse_eq_orElse, Option.orElse_eq_or, Option.or_eq_none_iff] at h
  exact ⟨h.1, h.2.2.1⟩

theorem walk?_append_of_enum (h : file.walk? fields scope path = some d) (hkind : d.kind = .enum)
    (last : String) :
    file.walk? fields scope (path ++ [last]) = file.findDefinition? d .enumValue last := by
  induction path generalizing scope with
  | nil => cases h
  | cons segment rest ih =>
    match rest with
    | [] =>
      show file.walk? fields scope [segment, last] = _
      rw [walk?, findDefinition?_of_lookup?_enum h hkind]
    | [owned] =>
      rw [walk?] at h
      cases henum : file.findDefinition? scope .enum segment with
      | some enum =>
        -- a value of another enum is no enum itself
        rw [henum] at h
        cases (kind_of_findDefinition? h).symm.trans hkind
      | none =>
        rw [henum] at h
        obtain ⟨inner, hinner, h⟩ := Option.bind_eq_some_iff.mp h
        show file.walk? fields scope [segment, owned, last] = _
        rw [walk?, hinner]
        exact ih h
    | next :: owned :: rest =>
      rw [walk?] at h
      obtain ⟨inner, hinner, h⟩ := Option.bind_eq_some_iff.mp h
      show file.walk? fields scope (segment :: next :: (owned :: rest ++ [last])) = _
      rw [List.cons_append, walk?, hinner]
      exact ih h

theorem Apart.findDefinition?_type (h : file.Apart) (hscope : scope.node ∈ file.nodes)
    (henum : file.findDefinition? scope .enum name = some d) :
    file.findDefinition? scope .type name = none := by
  rw [Option.eq_none_iff_forall_ne_some]
  intro t ht
  obtain ⟨m, hm, hmkind, hmname, -⟩ := exists_of_findDefinition? henum
  obtain ⟨n, hn, hnkind, hnname, -⟩ := exists_of_findDefinition? ht
  have hnone := h _ hscope m (List.mem_filter.mpr ⟨hm, beq_iff_eq.mpr hmkind⟩) n
    (List.mem_filter.mpr ⟨hn, beq_iff_eq.mpr hnkind⟩) (hmname.trans hnname.symm)
  cases hmname.symm.trans hnone

/-- Where a path leads nowhere, one segment more leads nowhere either. -/
theorem Apart.walk?_append (h : file.Apart) (hscope : scope.node ∈ file.nodes) (hne : path ≠ [])
    (hnone : file.walk? fields scope path = none) (last : String) :
    file.walk? fields scope (path ++ [last]) = none := by
  induction path generalizing scope with
  | nil => exact absurd rfl hne
  | cons segment rest ih =>
    have hinside {inner : Site} (hinner : file.findDefinition? scope .type segment = some inner) :
        inner.node ∈ file.nodes := by
      obtain ⟨c, hc, -, -, rfl⟩ := exists_of_findDefinition? hinner
      exact List.mem_cons_of_mem _ (file.mem_of_mem_children hscope hc)
    match rest with
    | [] =>
      obtain ⟨henum, htype⟩ := findDefinition?_of_lookup?_none hnone
      show file.walk? fields scope [segment, last] = _
      rw [walk?, henum, htype]
      rfl
    | [owned] =>
      show file.walk? fields scope [segment, owned, last] = _
      rw [walk?, Option.bind_eq_none_iff]
      intro inner hinner
      rw [walk?] at hnone
      cases henum : file.findDefinition? scope .enum segment with
      | some enum =>
        rw [h.findDefinition?_type hscope henum] at hinner
        cases hinner
      | none =>
        rw [henum, hinner] at hnone
        exact ih (hinside hinner) (List.cons_ne_nil _ _) hnone
    | next :: owned :: rest =>
      show file.walk? fields scope (segment :: next :: (owned :: rest ++ [last])) = _
      rw [List.cons_append, walk?, Option.bind_eq_none_iff]
      intro inner hinner
      rw [walk?, hinner] at hnone
      exact ih (hinside hinner) (List.cons_ne_nil _ _) hnone

/-! ## In one file -/

theorem node_mem_of_mem_enclosingTypes (hs : s ∈ file.sites) {t : Site}
    (ht : t ∈ enclosingTypes s) : t.node ∈ file.nodes :=
  ((has_of_mem_sites hs).ancestors t (List.mem_of_mem_filter ht)).1

variable (hplain : '.' ∉ last.toList)
include hplain

theorem split_append_of_plain (name : String) :
    Text.split '.' (name ++ "." ++ last) = Text.split '.' name ++ [last] := by
  rw [Text.split_append, Text.split_of_not_mem hplain]

/-- Where a name stands for nothing, one segment more stands for nothing either. -/
theorem Apart.resolve?_append (h : file.Apart) (hs : s ∈ file.sites)
    (hnone : file.resolve? s name = none) : file.resolve? s (name ++ "." ++ last) = none := by
  cases hlong : nameSegments? (name ++ "." ++ last) with
  | none =>
    rw [resolve?, hlong]
    rfl
  | some segments =>
    obtain ⟨-, hall⟩ := nameSegments?_eq_some_iff.mp hlong
    have hsplit := split_append_of_plain hplain name
    have hshort : ∀ segment ∈ Text.split '.' name, segment ≠ "" := fun segment hsegment =>
      hall segment (hsplit ▸ List.mem_append_left _ hsegment)
    have hne : Text.split '.' name ≠ [] := by simp [Text.split, List.splitOn_ne_nil]
    rw [resolve?_of_segments hshort, Option.map_eq_none_iff, Option.or_eq_none_iff,
      List.findSome?_eq_none_iff] at hnone
    rw [resolve?_of_segments hall, hsplit, Option.map_eq_none_iff, Option.or_eq_none_iff,
      List.findSome?_eq_none_iff]
    exact ⟨h.walk?_append List.mem_cons_self hne hnone.1 last, fun t ht =>
      h.walk?_append (node_mem_of_mem_enclosingTypes hs ht) hne (hnone.2 t ht) last⟩

omit hplain in
theorem exists_findDefinition?_of_hasValue {e : Site}
    (h : (Definition.mk file e).HasValue last) :
    ∃ v, file.findDefinition? e .enumValue last = some v ∧
      (Definition.mk file v).IsValueOf ⟨file, e⟩ := by
  obtain ⟨n, hn, hname⟩ := h
  obtain ⟨hn, hkind⟩ := List.mem_filter.mp hn
  obtain ⟨v, hv⟩ := exists_findDefinition? hn hname
  rw [eq_of_beq hkind] at hv
  refine ⟨v, hv, kind_of_findDefinition? hv, ?_⟩
  obtain ⟨m, -, -, -, rfl⟩ := exists_of_findDefinition? hv
  simp [Definition.isChildOf, Definition.sameFile, Origin.same_refl, Site.parent?, Site.child,
    Site.id]

theorem Apart.resolve?_value (h : file.Apart) (hs : s ∈ file.sites) {enum : Definition}
    (henum : file.resolve? s name = some enum) (hkind : enum.kind = .enum) (hne : last ≠ "")
    (hvalue : enum.HasValue last) :
    ∃ d, file.resolve? s (name ++ "." ++ last) = some d ∧ d.IsValueOf enum := by
  have hshort := segments_of_resolve? henum
  have hsplit := split_append_of_plain hplain name
  have hlong : ∀ segment ∈ Text.split '.' (name ++ "." ++ last), segment ≠ "" := by
    rw [hsplit, List.forall_mem_append]
    exact ⟨hshort, by simpa using hne⟩
  have hsegments : Text.split '.' name ≠ [] := by simp [Text.split, List.splitOn_ne_nil]
  rw [resolve?_of_segments hshort, Option.map_eq_some_iff] at henum
  obtain ⟨e, he, rfl⟩ := henum
  obtain ⟨v, hv, hof⟩ := exists_findDefinition?_of_hasValue hvalue
  refine ⟨⟨file, v⟩, ?_, hof⟩
  rw [resolve?_of_segments hlong, hsplit, Option.map_eq_some_iff]
  refine ⟨v, Option.or_eq_some_iff.mpr ?_, rfl⟩
  rcases Option.or_eq_some_iff.mp he with he | ⟨hnone, he⟩
  · exact .inl ((walk?_append_of_enum he hkind last).trans hv)
  · obtain ⟨inner, t, outer, hscopes, he, hinner⟩ := List.findSome?_eq_some_iff.mp he
    refine .inr ⟨h.walk?_append List.mem_cons_self hsegments hnone last,
      List.findSome?_eq_some_iff.mpr ⟨inner, t, outer, hscopes,
        (walk?_append_of_enum he hkind last).trans hv, fun u hu => ?_⟩⟩
    have hmem : u ∈ enclosingTypes s := by simp [hscopes, hu]
    exact h.walk?_append (node_mem_of_mem_enclosingTypes hs hmem) hsegments (hinner u hu) last

/-! ## From outside -/

/-- A text before its last dot begins with a package and a dot, or is the package. -/
theorem exists_of_append_eq_package {package rest : String}
    (h : name ++ "." ++ last = package ++ "." ++ rest) :
    name = package ∨ ∃ front, name = package ++ "." ++ front ∧ rest = front ++ "." ++ last := by
  have hlists : name.toList ++ '.' :: last.toList = package.toList ++ '.' :: rest.toList := by
    simpa [String.toList_append] using congrArg String.toList h
  rcases List.append_eq_append_iff.mp hlists with ⟨mid, hpackage, hlast⟩ | ⟨mid, hname, hrest⟩
  · cases mid with
    | nil => exact .inl (String.toList_inj.mp (by simpa using hpackage.symm))
    | cons c mid =>
      -- the dot behind the package would stand in the last segment
      have htail := (List.cons.inj hlast).2
      exact absurd (htail ▸ by simp : '.' ∈ last.toList) hplain
  · cases mid with
    | nil => exact .inl (String.toList_inj.mp (by simpa using hname))
    | cons c mid =>
      obtain ⟨rfl, htail⟩ := List.cons.inj hrest
      refine .inr ⟨.ofList mid, ?_, ?_⟩
      · rw [← String.toList_inj]
        simpa [String.toList_append] using hname
      · rw [← String.toList_inj]
        simpa [String.toList_append] using htail

theorem Apart.resolveExported?_append (h : file.Apart) (hpackage : file.package? ≠ some name)
    (hnone : file.resolveExported? name = none) :
    file.resolveExported? (name ++ "." ++ last) = none := by
  rw [Option.eq_none_iff_forall_ne_some]
  intro d hd
  obtain ⟨package, rest, hp, hname, hd⟩ := resolveExported?_eq_some_iff.mp hd
  rcases exists_of_append_eq_package hplain hname with rfl | ⟨front, rfl, rfl⟩
  · exact hpackage hp
  · cases hfront : file.resolve? file.rootSite front with
    | some e =>
      cases hnone.symm.trans (resolveExported?_eq_some_iff.mpr ⟨package, front, hp, rfl, hfront⟩)
    | none =>
      cases hd.symm.trans (h.resolve?_append hplain List.mem_cons_self hfront)

theorem Apart.resolveExported?_value (h : file.Apart) {enum : Definition}
    (henum : file.resolveExported? name = some enum) (hkind : enum.kind = .enum) (hne : last ≠ "")
    (hvalue : enum.HasValue last) :
    ∃ d, file.resolveExported? (name ++ "." ++ last) = some d ∧ d.IsValueOf enum := by
  obtain ⟨package, rest, hpackage, rfl, hrest⟩ := resolveExported?_eq_some_iff.mp henum
  obtain ⟨d, hd, hof⟩ := h.resolve?_value hplain List.mem_cons_self hrest hkind hne hvalue
  refine ⟨d, resolveExported?_eq_some_iff.mpr ⟨package, rest ++ "." ++ last, hpackage, ?_, hd⟩, hof⟩
  simp only [String.append_assoc]

end SchemaFile

namespace Resolver

variable {r : Resolver} {file : SchemaFile} {s : Site} {name last : String} {d enum : Definition}

def imported (r : Resolver) (file : SchemaFile) : List SchemaFile :=
  (r.importSites file).filterMap fun (root, importPath) => r.load? root importPath

theorem resolveImported?_eq (r : Resolver) (file : SchemaFile) (name : String) :
    r.resolveImported? file name = (r.imported file).findSome? (·.resolveExported? name) := by
  rw [imported, ← List.head?_filterMap, List.filterMap_filterMap, List.head?_filterMap]
  rfl

/-- Nothing comes between an enum of this name and its values: no enum stands beside a
type of its name, no imported file has the name as its package, and one path means one
text. -/
structure Unrivalled (r : Resolver) (file : SchemaFile) (name : String) : Prop where
  apart : ∀ f ∈ file :: r.imported file, f.Apart
  packages : ∀ f ∈ r.imported file, f.package? ≠ some name
  texts : ∀ f ∈ file :: r.imported file, ∀ g ∈ file :: r.imported file,
    f.origin.same g.origin = true → f.source = g.source

instance (r : Resolver) (file : SchemaFile) (name : String) :
    Decidable (r.Unrivalled file name) :=
  decidable_of_iff
    ((∀ f ∈ file :: r.imported file, f.Apart) ∧
      (∀ f ∈ r.imported file, f.package? ≠ some name) ∧
      ∀ f ∈ file :: r.imported file, ∀ g ∈ file :: r.imported file,
        f.origin.same g.origin = true → f.source = g.source)
    ⟨fun h => ⟨h.1, h.2.1, h.2.2⟩, fun h => ⟨h.apart, h.packages, h.texts⟩⟩

/-- Behind the name of an enum stand its values, in the file and in those it imports. -/
theorem Unrivalled.resolve?_value (h : r.Unrivalled file name) (hs : s ∈ file.sites)
    (henum : r.resolve? file s name = some enum) (hkind : enum.kind = .enum)
    (hplain : '.' ∉ last.toList) (hne : last ≠ "") (hvalue : enum.HasValue last) :
    ∃ d, r.resolve? file s (name ++ "." ++ last) = some d ∧ d.IsValueOf enum := by
  have hapart := List.forall_mem_cons.mp h.apart
  rcases resolve?_iff.mp henum with henum | ⟨hlocal, hsegments, henum⟩
  · obtain ⟨d, hd, hof⟩ := hapart.1.resolve?_value hplain hs henum hkind hne hvalue
    exact ⟨d, resolve?_iff.mpr (.inl hd), hof⟩
  · rw [resolveImported?_eq] at henum
    obtain ⟨before, f, after, hfiles, henum, hbefore⟩ := List.findSome?_eq_some_iff.mp henum
    have hmem : f ∈ r.imported file := by simp [hfiles]
    obtain ⟨d, hd, hof⟩ :=
      (hapart.2 f hmem).resolveExported?_value hplain henum hkind hne hvalue
    refine ⟨d, resolve?_iff.mpr (.inr ⟨hapart.1.resolve?_append hplain hs hlocal, ?_, ?_⟩), hof⟩
    · rw [SchemaFile.split_append_of_plain hplain, List.forall_mem_append]
      exact ⟨hsegments, by simpa using hne⟩
    · rw [resolveImported?_eq]
      refine List.findSome?_eq_some_iff.mpr ⟨before, f, after, hfiles, hd, fun g hg => ?_⟩
      have hg' : g ∈ r.imported file := by simp [hfiles, hg]
      exact (hapart.2 g hg').resolveExported?_append hplain (h.packages g hg') (hbefore g hg)

/-! ## What the longer name stands for -/

theorem name?_of_resolve?_append (hs : s ∈ file.sites) (hplain : '.' ∉ last.toList)
    (hd : r.resolve? file s (name ++ "." ++ last) = some d) : d.name? = some last := by
  obtain ⟨scope, path, hpath, hlast⟩ := exists_path_of_resolve? hs hd
  obtain ⟨parent, n, own, hsite, -, hown, hpathLast⟩ := hpath.last
  rw [hpathLast, SchemaFile.split_append_of_plain hplain, List.getLast?_concat] at hlast
  rw [Definition.name?, hsite, ← Option.some.inj hlast]
  exact hown.name?

/-- What stands in the enum of one text stands in that of the same text. -/
theorem hasValue_of_isValueOf (hs : s ∈ file.sites) (hd : r.resolve? file s name = some d)
    (henum : enum.site.node ∈ enum.file.nodes) (hof : d.IsValueOf enum)
    (hsource : enum.file.source = d.file.source) (hname : d.name? = some last) :
    enum.HasValue last := by
  obtain ⟨scope, path, hpath, -⟩ := exists_path_of_resolve? hs hd
  obtain ⟨parent, n, own, hsite, hn, -⟩ := hpath.last
  obtain ⟨hkind, hchild⟩ := hof
  have hparent := ((r.has_of_resolve? (SchemaFile.has_of_mem_sites hs) hd).1).2 parent.node
    (by rw [hsite]; exact List.mem_cons_self)
  rw [Definition.kind, hsite] at hkind
  rw [Definition.name?, hsite] at hname
  rw [Definition.isChildOf, Bool.and_eq_true, beq_iff_eq, hsite] at hchild
  have hid : parent.node.id = enum.site.node.id := Option.some.inj hchild.2
  -- the two files have the same nodes
  have hroot : d.file.root = enum.file.root := by
    rw [d.file.root_eq, enum.file.root_eq, hsource]
  have hnodes : d.file.nodes = enum.file.nodes := by
    rw [SchemaFile.nodes, SchemaFile.nodes, hroot]
  rw [hnodes] at hparent
  obtain hnode := enum.file.eq_of_id_eq hparent henum hid
  refine ⟨n, List.mem_filter.mpr ⟨hnode ▸ hn, beq_iff_eq.mpr hkind⟩, ?_⟩
  obtain ⟨m, hm, htext⟩ := Option.map_eq_some_iff.mp hname
  refine Option.map_eq_some_iff.mpr ⟨m, hm, ?_⟩
  rw [← htext, SchemaFile.text, SchemaFile.text, hsource]

theorem mem_searched_of_resolve? (hd : r.resolve? file s name = some d) :
    d.file ∈ file :: r.imported file := by
  rcases resolve?_iff.mp hd with hd | ⟨-, -, hd⟩
  · exact List.mem_cons.mpr (.inl (SchemaFile.file_of_resolve? hd))
  · rw [resolveImported?_eq] at hd
    obtain ⟨f, hf, hd⟩ := List.exists_of_findSome?_eq_some hd
    obtain ⟨package, rest, -, -, hd⟩ := SchemaFile.resolveExported?_eq_some_iff.mp hd
    rw [SchemaFile.file_of_resolve? hd]
    exact List.mem_cons_of_mem _ hf

/-- Without rivals, a segment behind the name of an enum leads to a value of it exactly if
the enum has one of that name. -/
theorem Unrivalled.exists_value_iff (h : r.Unrivalled file name) (hs : s ∈ file.sites)
    (henum : r.resolve? file s name = some enum) (hkind : enum.kind = .enum)
    (hplain : '.' ∉ last.toList) (hne : last ≠ "") :
    (∃ d, r.resolve? file s (name ++ "." ++ last) = some d ∧ d.IsValueOf enum) ↔
      enum.HasValue last := by
  refine ⟨fun ⟨d, hd, hof⟩ => ?_, h.resolve?_value hs henum hkind hplain hne⟩
  have hsame : enum.file.origin.same d.file.origin = true :=
    (Bool.and_eq_true _ _ ▸ hof.2 : _ ∧ _).1
  exact hasValue_of_isValueOf hs hd
    (r.has_of_resolve? (SchemaFile.has_of_mem_sites hs) henum).1.1 hof
    (h.texts _ (mem_searched_of_resolve? henum) _ (mem_searched_of_resolve? hd) hsame)
    (name?_of_resolve?_append hs hplain hd)

end Resolver

end SchemaLang
