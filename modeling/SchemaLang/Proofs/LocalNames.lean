import SchemaLang.Proofs.Inhabitants
import SchemaLang.Proofs.Lookup

/-!
# Names inside a file

A definition has a path from every scope around it: names of nested types, of
an enum before one of its values, and its own name last. Where siblings have
names of their own, a path leads to one definition only, and walking finds it
exactly. So a name stands for the definition that has it as its path from the
root, and otherwise for the one that has it as its path from the innermost
type with any such definition but a field.
-/

set_option autoImplicit false

namespace SchemaLang

/-! ## Siblings with names of their own -/

def NodeKind.isMember (kind : NodeKind) : Bool :=
  kind == .type || kind == .enum || kind == .component || kind == .field

namespace SchemaFile

variable {file : SchemaFile}

structure Distinct (file : SchemaFile) : Prop where
  members : ∀ n ∈ file.nodes,
    ((n.children.filter (·.kind.isMember)).filterMap file.name?).Nodup
  values : ∀ n ∈ file.nodes, n.kind = .enum →
    ((n.childrenOfKind .enumValue).filterMap file.name?).Nodup

theorem eq_of_nodup_filterMap {α β : Type} {f : α → Option β} {l : List α}
    (h : (l.filterMap f).Nodup) {a b : α} (ha : a ∈ l) (hb : b ∈ l) {x : β} (hax : f a = some x)
    (hbx : f b = some x) : a = b := by
  induction l with
  | nil => cases ha
  | cons c l ih =>
    have hmem {d : α} (hd : d ∈ l) (hdx : f d = some x) : x ∈ l.filterMap f :=
      List.mem_filterMap.mpr ⟨d, hd, hdx⟩
    cases hc : f c with
    | none =>
      rw [List.filterMap_cons_none hc] at h
      refine ih h ((List.mem_cons.mp ha).resolve_left ?_) ((List.mem_cons.mp hb).resolve_left ?_)
      · rintro rfl
        simp [hc] at hax
      · rintro rfl
        simp [hc] at hbx
    | some y =>
      rw [List.filterMap_cons_some hc, List.nodup_cons] at h
      -- a name that stands at the head stands nowhere behind it
      have hfresh {d : α} (hd : d ∈ l) (hdx : f d = some x) : c ≠ a ∧ c ≠ b := by
        constructor <;> rintro rfl
        · exact h.1 (Option.some.inj (hc.symm.trans hax) ▸ hmem hd hdx)
        · exact h.1 (Option.some.inj (hc.symm.trans hbx) ▸ hmem hd hdx)
      rcases List.mem_cons.mp ha with hac | ha <;> rcases List.mem_cons.mp hb with hbc | hb
      · rw [hac, hbc]
      · exact absurd hac.symm (hfresh hb hbx).1
      · exact absurd hbc.symm (hfresh ha hax).2
      · exact ih h.2 ha hb

structure Names (file : SchemaFile) (n : Node) (name : String) : Prop where
  name? : file.name? n = some name
  plain : '.' ∉ name.toList

section Siblings

variable (h : file.Distinct) {n c d : Node} {name : String}
include h

theorem Distinct.same (hn : n ∈ file.nodes) (hc : c ∈ n.children)
    (hckind : c.kind.isMember = true) (hcname : file.Names c name) (hd : d ∈ n.children)
    (hdkind : d.kind.isMember = true) (hdname : file.Names d name) : c = d :=
  eq_of_nodup_filterMap (h.members n hn) (List.mem_filter.mpr ⟨hc, hckind⟩)
    (List.mem_filter.mpr ⟨hd, hdkind⟩) hcname.name? hdname.name?

theorem Distinct.sameValue (hn : n ∈ file.nodes) (hkind : n.kind = .enum) (hc : c ∈ n.children)
    (hckind : c.kind = .enumValue) (hcname : file.Names c name) (hd : d ∈ n.children)
    (hdkind : d.kind = .enumValue) (hdname : file.Names d name) : c = d :=
  eq_of_nodup_filterMap (h.values n hn hkind) (List.mem_filter.mpr ⟨hc, beq_iff_eq.mpr hckind⟩)
    (List.mem_filter.mpr ⟨hd, beq_iff_eq.mpr hdkind⟩) hcname.name? hdname.name?

end Siblings

theorem isMember_of_type {kind : NodeKind} (h : kind = .type) : kind.isMember = true := by
  rw [h]
  rfl

theorem isMember_of_enum {kind : NodeKind} (h : kind = .enum) : kind.isMember = true := by
  rw [h]
  rfl

/-! ## Paths -/

/-- Names that lead from a scope to a definition: those of nested types, that of
an enum before one of its values, and its own. Of fields, those of types count. -/
inductive HasPath (file : SchemaFile) : Site → List String → Site → Prop where
  | definition {scope : Site} {d : Node} {name : String} (hd : d ∈ scope.node.children)
      (hkind : d.kind.isMember = true) (hfield : d.kind = .field → scope.kind = .type)
      (hname : file.Names d name) : HasPath file scope [name] (scope.child d)
  | value {scope : Site} {enum d : Node} {owner name : String} (henum : enum ∈ scope.node.children)
      (hkind : enum.kind = .enum) (howner : file.Names enum owner) (hd : d ∈ enum.children)
      (hvalue : d.kind = .enumValue) (hname : file.Names d name) :
      HasPath file scope [owner, name] ((scope.child enum).child d)
  | within {scope d : Site} {type : Node} {name : String} {path : List String}
      (htype : type ∈ scope.node.children) (hkind : type.kind = .type)
      (hname : file.Names type name) (h : HasPath file (scope.child type) path d) :
      HasPath file scope (name :: path) d

def HasName (file : SchemaFile) (scope : Site) (name : String) (d : Site) : Prop :=
  ∃ path, file.HasPath scope path d ∧ name = ".".intercalate path

variable {scope d e : Site} {path : List String}

theorem HasPath.ne_nil (h : file.HasPath scope path d) : path ≠ [] := by
  cases h <;> exact List.cons_ne_nil _ _

theorem HasPath.plain (h : file.HasPath scope path d) : ∀ name ∈ path, '.' ∉ name.toList := by
  induction h with
  | definition _ _ _ hname => simpa using hname.plain
  | value _ _ howner _ _ hname => simpa using ⟨howner.plain, hname.plain⟩
  | within _ _ hname _ ih => exact List.forall_mem_cons.mpr ⟨hname.plain, ih⟩

theorem hasName_iff {name : String} :
    file.HasName scope name d ↔ file.HasPath scope (Text.split '.' name) d := by
  constructor
  · rintro ⟨path, hpath, rfl⟩
    rwa [Text.split_intercalate rfl hpath.plain hpath.ne_nil]
  · exact fun hpath => ⟨_, hpath, (Text.intercalate_split name).symm⟩

/-- Of definitions with names of their own, one at most has a path. -/
theorem HasPath.unique (hdistinct : file.Distinct) (hscope : scope.node ∈ file.nodes)
    (hd : file.HasPath scope path d) (he : file.HasPath scope path e) : d = e := by
  induction hd with
  | definition hd hkind _ hname =>
    cases he with
    | definition he hkind' _ hname' => rw [hdistinct.same hscope hd hkind hname he hkind' hname']
    | within _ _ _ h => exact absurd rfl h.ne_nil
  | value henum hkind howner hd hvalue hname =>
    cases he with
    | value henum' hkind' howner' he hvalue' hname' =>
      obtain rfl := hdistinct.same hscope henum (isMember_of_enum hkind) howner henum'
        (isMember_of_enum hkind') howner'
      have hmem := List.mem_cons_of_mem file.root (file.mem_of_mem_children hscope henum)
      rw [hdistinct.sameValue hmem hkind hd hvalue hname he hvalue' hname']
    | within htype hkind' hname' _ =>
      -- a type and an enum cannot share the name
      obtain rfl := hdistinct.same hscope henum (isMember_of_enum hkind) howner htype
        (isMember_of_type hkind') hname'
      rw [hkind] at hkind'
      cases hkind'
  | within htype hkind hname h ih =>
    cases he with
    | definition _ _ _ _ => exact absurd rfl h.ne_nil
    | value henum hkind' howner _ _ _ =>
      obtain rfl := hdistinct.same hscope htype (isMember_of_type hkind) hname henum
        (isMember_of_enum hkind') howner
      rw [hkind] at hkind'
      cases hkind'
    | within htype' hkind' hname' he =>
      obtain rfl := hdistinct.same hscope htype (isMember_of_type hkind) hname htype'
        (isMember_of_type hkind') hname'
      exact ih (List.mem_cons_of_mem _ (file.mem_of_mem_children hscope htype)) he

/-! ## Walking along a path -/

structure IsScope (file : SchemaFile) (s : Site) : Prop where
  mem : s.node ∈ file.nodes
  kind : s.kind = .schemaFile ∨ s.kind = .type

theorem isScope_rootSite : file.IsScope file.rootSite := ⟨List.mem_cons_self, .inl file.kind_root⟩

theorem exists_of_findDefinition? {kind : NodeKind} {name : String}
    (h : file.findDefinition? scope kind name = some d) :
    ∃ c ∈ scope.node.children, c.kind = kind ∧ file.name? c = some name ∧ scope.child c = d := by
  obtain ⟨c, hc, rfl⟩ := Option.map_eq_some_iff.mp h
  have hdefines := List.find?_some hc
  simp only [defines, Bool.and_eq_true, beq_iff_eq] at hdefines
  exact ⟨c, List.mem_of_find?_eq_some hc, hdefines.1, hdefines.2, rfl⟩

theorem exists_findDefinition? {c : Node} {name : String} (hc : c ∈ scope.node.children)
    (hname : file.name? c = some name) : ∃ d, file.findDefinition? scope c.kind name = some d := by
  cases hfound : scope.node.children.find? (file.defines c.kind name) with
  | none =>
    have := List.find?_eq_none.mp hfound c hc
    simp [defines, hname] at this
  | some found => exact ⟨scope.child found, by rw [findDefinition?, hfound, Option.map_some]⟩

theorem IsScope.inner {type : Node} (h : file.IsScope scope) (htype : type ∈ scope.node.children)
    (hkind : type.kind = .type) : file.IsScope (scope.child type) :=
  ⟨List.mem_cons_of_mem _ (file.mem_of_mem_children h.mem htype), .inr hkind⟩

theorem IsScope.type_of_field {c : Node} (h : file.IsScope scope) (hc : c ∈ scope.node.children)
    (hkind : c.kind = .field) : scope.kind = .type := by
  refine h.kind.resolve_left fun hroot => ?_
  have hallowed := file.kind_of_mem_children h.mem hc
  rw [show scope.node.kind = .schemaFile from hroot, hkind] at hallowed
  exact absurd hallowed (by decide)

theorem hasPath_of_lookup? (h : file.IsScope scope) {fields : Bool} {name : String}
    (hplain : '.' ∉ name.toList) (hd : file.lookup? scope fields name = some d) :
    file.HasPath scope [name] d ∧ (fields = false → d.kind ≠ .field) := by
  have hdefinition {kind : NodeKind} (hmember : kind.isMember = true)
      (hfield : fields = false → kind ≠ .field)
      (hd : file.findDefinition? scope kind name = some d) :
      file.HasPath scope [name] d ∧ (fields = false → d.kind ≠ .field) := by
    obtain ⟨c, hc, rfl, hname, rfl⟩ := exists_of_findDefinition? hd
    exact ⟨.definition hc hmember (h.type_of_field hc) ⟨hname, hplain⟩, hfield⟩
  simp only [lookup?, Option.orElse_eq_orElse, Option.orElse_eq_or, Option.or_eq_some_iff] at hd
  rcases hd with hd | ⟨-, hd | ⟨-, hd | ⟨-, hd⟩⟩⟩
  · exact hdefinition rfl (fun _ => by decide) hd
  · split at hd
    · exact hdefinition rfl (fun hfields => by simp_all) hd
    · cases hd
  · exact hdefinition rfl (fun _ => by decide) hd
  · exact hdefinition rfl (fun _ => by decide) hd

theorem hasPath_of_walk? (h : file.IsScope scope) {fields : Bool} {segments : List String}
    (hplain : ∀ segment ∈ segments, '.' ∉ segment.toList)
    (hd : file.walk? fields scope segments = some d) :
    file.HasPath scope segments d ∧ (fields = false → d.kind ≠ .field) := by
  induction segments generalizing scope with
  | nil => cases hd
  | cons segment rest ih =>
    obtain ⟨hsegment, hrest⟩ := List.forall_mem_cons.mp hplain
    have hwithin {inner : Site} (hinner : file.findDefinition? scope .type segment = some inner)
        (hpath : file.IsScope inner →
          file.HasPath inner rest d ∧ (fields = false → d.kind ≠ .field)) :
        file.HasPath scope (segment :: rest) d ∧ (fields = false → d.kind ≠ .field) := by
      obtain ⟨c, hc, hkind, hname, rfl⟩ := exists_of_findDefinition? hinner
      obtain ⟨hpath, hfield⟩ := hpath (h.inner hc hkind)
      exact ⟨.within hc hkind ⟨hname, hsegment⟩ hpath, hfield⟩
    match rest with
    | [] => exact hasPath_of_lookup? h hsegment hd
    | [last] =>
      rw [walk?] at hd
      cases henum : file.findDefinition? scope .enum segment with
      | some owner =>
        rw [henum] at hd
        obtain ⟨enum, hc, hkind, hname, rfl⟩ := exists_of_findDefinition? henum
        obtain ⟨value, hv, hvalue, hlast, rfl⟩ := exists_of_findDefinition? hd
        refine ⟨.value hc hkind ⟨hname, hsegment⟩ hv hvalue ⟨hlast, hrest last (by simp)⟩,
          fun _ hfield => ?_⟩
        rw [show (Site.child _ value).kind = value.kind from rfl, hvalue] at hfield
        cases hfield
      | none =>
        rw [henum] at hd
        obtain ⟨inner, hinner, hd⟩ := Option.bind_eq_some_iff.mp hd
        exact hwithin hinner fun hscope => hasPath_of_lookup? hscope (hrest last (by simp)) hd
    | next :: last :: rest =>
      rw [walk?] at hd
      obtain ⟨inner, hinner, hd⟩ := Option.bind_eq_some_iff.mp hd
      exact hwithin hinner fun hscope => ih hscope hrest hd

theorem exists_lookup? {fields : Bool} {name : String} (hd : file.HasPath scope [name] d)
    (hfield : fields = false → d.kind ≠ .field) : ∃ e, file.lookup? scope fields name = some e := by
  have hor {a? b? : Option Site} (hb : ∃ e, b? = some e) : ∃ e, a?.or b? = some e := by
    obtain ⟨e, he⟩ := hb
    cases a? with
    | none => exact ⟨e, he⟩
    | some a => exact ⟨a, rfl⟩
  cases hd with
  | within _ _ _ h => exact absurd rfl h.ne_nil
  | @definition _ c _ hc hkind _ hname =>
    obtain ⟨e, he⟩ := exists_findDefinition? hc hname.name?
    simp only [lookup?, Option.orElse_eq_orElse, Option.orElse_eq_or]
    -- the one of the four that looks for this kind finds something
    cases hck : c.kind <;> rw [hck] at hkind he <;> try cases hkind
    · exact hor (hor ⟨e, by rw [he]; rfl⟩)
    · exact ⟨e, by rw [he]; rfl⟩
    · exact hor (hor (hor ⟨e, he⟩))
    · refine hor ⟨e, ?_⟩
      cases fields with
      | false => exact absurd hck (hfield rfl)
      | true => rw [if_pos rfl, he, Option.some_or]

theorem findDefinition?_type (hdistinct : file.Distinct) (h : file.IsScope scope) {type : Node}
    {name : String} (htype : type ∈ scope.node.children) (hkind : type.kind = .type)
    (hname : file.Names type name) :
    file.findDefinition? scope .enum name = none ∧
      file.findDefinition? scope .type name = some (scope.child type) := by
  have hsame {kind : NodeKind} {e : Site} (hmember : kind.isMember = true)
      (he : file.findDefinition? scope kind name = some e) :
      type.kind = kind ∧ scope.child type = e := by
    obtain ⟨c, hc, hckind, hcname, rfl⟩ := exists_of_findDefinition? he
    obtain rfl := hdistinct.same h.mem htype (isMember_of_type hkind) hname hc (hckind ▸ hmember)
      ⟨hcname, hname.plain⟩
    exact ⟨hckind, rfl⟩
  constructor
  · cases he : file.findDefinition? scope .enum name with
    | none => rfl
    | some e =>
      have henum := (hsame rfl he).1
      rw [hkind] at henum
      cases henum
  · obtain ⟨e, he⟩ := exists_findDefinition? htype hname.name?
    rw [hkind] at he
    rw [he, (hsame rfl he).2]

theorem exists_walk? (hdistinct : file.Distinct) (h : file.IsScope scope) {fields : Bool}
    (hd : file.HasPath scope path d) (hfield : fields = false → d.kind ≠ .field) :
    ∃ e, file.walk? fields scope path = some e := by
  induction hd with
  | definition hc hkind hscope hname =>
    rw [walk?]
    exact exists_lookup? (.definition hc hkind hscope hname) hfield
  | @value scope enum c owner last henum hkind howner hc hvalue hname =>
    obtain ⟨e, he⟩ := exists_findDefinition? henum howner.name?
    rw [hkind] at he
    rw [walk?, he]
    obtain ⟨enum', henum', hkind', hname', rfl⟩ := exists_of_findDefinition? he
    obtain rfl := hdistinct.same h.mem henum (isMember_of_enum hkind) howner henum'
      (isMember_of_enum hkind') ⟨hname', howner.plain⟩
    have hlast : ∃ d, file.findDefinition? (scope.child enum) c.kind last = some d :=
      exists_findDefinition? hc hname.name?
    rwa [hvalue] at hlast
  | @within scope d type name path htype hkind hname hpath ih =>
    obtain ⟨henum, hinner⟩ := findDefinition?_type hdistinct h htype hkind hname
    have hscope := h.inner htype hkind
    rcases path with _ | ⟨last, _ | ⟨next, rest⟩⟩
    · exact absurd rfl hpath.ne_nil
    · rw [walk?, henum, hinner]
      exact exists_lookup? hpath hfield
    · rw [walk?, hinner]
      exact ih hscope hfield

theorem walk?_eq_some_iff (hdistinct : file.Distinct) (h : file.IsScope scope) {fields : Bool}
    {segments : List String} (hplain : ∀ segment ∈ segments, '.' ∉ segment.toList) :
    file.walk? fields scope segments = some d ↔
      file.HasPath scope segments d ∧ (fields = false → d.kind ≠ .field) := by
  refine ⟨hasPath_of_walk? h hplain, fun ⟨hpath, hfield⟩ => ?_⟩
  obtain ⟨e, he⟩ := exists_walk? hdistinct h hpath hfield
  rw [he, hpath.unique hdistinct h.mem (hasPath_of_walk? h hplain he).1]

/-! ## What a name stands for -/

/-- What a name stands for, seen from a site: the definition that has it as its
path from the root, or else the one, and no field, that has it as its path from
the innermost of those types around the site from which any such definition has. -/
def StandsFor (file : SchemaFile) (s : Site) (name : String) (d : Site) : Prop :=
  file.HasName file.rootSite name d ∨
    (∀ e, ¬file.HasName file.rootSite name e) ∧ ∃ inner scope outer,
      s.ancestors.filter (·.kind == .type) = inner ++ scope :: outer ∧
      (∀ t ∈ inner, ∀ e, file.HasName t name e → e.kind = .field) ∧
      file.HasName scope name d ∧ d.kind ≠ .field

theorem walk?_split_eq_some_iff (hdistinct : file.Distinct) (h : file.IsScope scope)
    {fields : Bool} {name : String} : file.walk? fields scope (Text.split '.' name) = some d ↔
      file.HasName scope name d ∧ (fields = false → d.kind ≠ .field) := by
  rw [walk?_eq_some_iff hdistinct h fun _ => Text.not_mem_of_mem_split, hasName_iff]

theorem findSome?_eq_some_iff (hdistinct : file.Distinct) {scopes : List Site}
    (hscopes : ∀ t ∈ scopes, file.IsScope t) {name : String} :
    scopes.findSome? (fun t => file.walk? false t (Text.split '.' name)) = some d ↔
      ∃ inner scope outer, scopes = inner ++ scope :: outer ∧
        (∀ t ∈ inner, ∀ e, file.HasName t name e → e.kind = .field) ∧
        file.HasName scope name d ∧ d.kind ≠ .field := by
  have hwalk {t : Site} (ht : t ∈ scopes) (e : Site) :
      file.walk? false t (Text.split '.' name) = some e ↔
        file.HasName t name e ∧ e.kind ≠ .field := by
    rw [walk?_split_eq_some_iff hdistinct (hscopes t ht)]
    simp
  rw [List.findSome?_eq_some_iff]
  constructor
  · rintro ⟨inner, scope, outer, rfl, hd, hinner⟩
    refine ⟨inner, scope, outer, rfl, fun t ht e he => ?_, (hwalk (by simp) d).mp hd⟩
    by_contra hfield
    have hfound := (hwalk (by simp [ht]) e).mpr ⟨he, hfield⟩
    rw [hinner t ht] at hfound
    cases hfound
  · rintro ⟨inner, scope, outer, rfl, hinner, hd⟩
    refine ⟨inner, scope, outer, rfl, (hwalk (by simp) d).mpr hd, fun t ht => ?_⟩
    rw [Option.eq_none_iff_forall_ne_some]
    intro e he
    obtain ⟨hname, hfield⟩ := (hwalk (by simp [ht]) e).mp he
    exact hfield (hinner t ht e hname)

/-- A name is looked for from the root, and else from the types around the place. -/
theorem resolve?_of_segments {s : Site} {name : String}
    (h : ∀ segment ∈ Text.split '.' name, segment ≠ "") :
    file.resolve? s name = ((file.walk? true file.rootSite (Text.split '.' name)).or
      ((enclosingTypes s).findSome? fun t => file.walk? false t (Text.split '.' name))).map
        fun found => ⟨file, found⟩ := by
  rw [resolve?, nameSegments?_eq_some_iff.mpr ⟨rfl, h⟩]
  show Option.bind (_ <|> _) _ = _
  rw [Option.orElse_eq_orElse, Option.orElse_eq_or]
  exact (Option.map_eq_bind ..).symm

/-- Names inside a file stand for the definitions with their paths, and for no others. -/
theorem resolve?_eq_some_iff (hdistinct : file.Distinct) {s : Site} (hs : s ∈ file.sites)
    {name : String} (hname : ∀ segment ∈ Text.split '.' name, segment ≠ "") {d : Definition} :
    file.resolve? s name = some d ↔ d.file = file ∧ file.StandsFor s name d.site := by
  have hroot (e : Site) : file.walk? true file.rootSite (Text.split '.' name) = some e ↔
      file.HasName file.rootSite name e := by
    rw [walk?_split_eq_some_iff hdistinct isScope_rootSite]
    simp
  have hscopes : ∀ t ∈ enclosingTypes s, file.IsScope t := by
    intro t ht
    obtain ⟨ht, hkind⟩ := List.mem_filter.mp ht
    exact ⟨((has_of_mem_sites hs).ancestors t ht).1, .inr (beq_iff_eq.mp hkind)⟩
  obtain ⟨owner, found⟩ := d
  rw [resolve?_of_segments hname, Option.map_eq_some_iff]
  simp only [Definition.mk.injEq]
  constructor
  · rintro ⟨e, he, rfl, rfl⟩
    refine ⟨rfl, ?_⟩
    rcases Option.or_eq_some_iff.mp he with he | ⟨hnone, he⟩
    · exact .inl ((hroot e).mp he)
    · refine .inr ⟨fun f hf => ?_, (findSome?_eq_some_iff hdistinct hscopes).mp he⟩
      rw [(hroot f).mpr hf] at hnone
      cases hnone
  · rintro ⟨rfl, hd⟩
    refine ⟨found, Option.or_eq_some_iff.mpr ?_, rfl, rfl⟩
    rcases hd with hd | ⟨hnone, hd⟩
    · exact .inl ((hroot found).mpr hd)
    · refine .inr ⟨?_, (findSome?_eq_some_iff hdistinct hscopes).mpr hd⟩
      rw [Option.eq_none_iff_forall_ne_some]
      exact fun e he => hnone e ((hroot e).mp he)

/-- The enum of an outer type, seen from a field of an inner one. -/
theorem stands_for_enum_of_outer_type :
    ∃ file : SchemaFile, file.source = "type T { enum E { A = 1; } type U { E e = 1; } }" ∧
      file.Distinct ∧ ∃ s ∈ file.sites, s.kind = .typeName ∧
        (∀ segment ∈ Text.split '.' "E", segment ≠ "") ∧
        ∃ d, d.kind = .enum ∧ file.StandsFor s "E" d := by
  let file := read (.unsaved 0)
    "type T { enum E { A = 1; } type U { E e = 1; } }"
  have hdistinct : file.Distinct := ⟨by decide +kernel, by decide +kernel⟩
  have hsegments : ∀ segment ∈ Text.split '.' "E", segment ≠ "" := by decide +kernel
  have hfound : ∃ s ∈ file.sites, s.kind = .typeName ∧
      (file.resolve? s "E").map Definition.kind = some .enum := by decide +kernel
  obtain ⟨s, hs, hkind, hd⟩ := hfound
  obtain ⟨d, hd, hdkind⟩ := Option.map_eq_some_iff.mp hd
  exact ⟨file, rfl, hdistinct, s, hs, hkind, hsegments, d.site, hdkind,
    ((resolve?_eq_some_iff hdistinct hs hsegments).mp hd).2⟩

end SchemaFile

end SchemaLang
