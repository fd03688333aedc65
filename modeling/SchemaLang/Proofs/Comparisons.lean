import SchemaLang.Check
import SchemaLang.Proofs.Fitting

/-!
# Names of arguments compared with names of fields

A check compares the name in front of an argument with the name of the field that
is there in the order of the numbers, once for each argument of a whole tag with
as many arguments as there are fields. Where the names differ it says so, and
nothing else that a check says is about names of arguments.
-/

set_option autoImplicit false

namespace SchemaLang

namespace Checker

open Findings (all_none all_judge all_of all_append all_map)

structure Matches [Likeness] (c : Checker) (s : Site) (target : Definition) : Prop where
  site : s ∈ c.file.sites
  kind : s.kind = .tag
  whole : s.node.incomplete = false
  arguments_whole : ∀ a ∈ childSites s .namedArgument, a.node.incomplete = false
  target_eq : ((s.node.children.head?.filter (·.kind = .typeRef)).bind fun name =>
    c.resolve? s (c.text name)) = some target
  checks : c.checkTag s = .all (((childSites s .namedArgument).zip
    (target.file.orderedFields target.site.node)).map fun (argument, field) =>
      c.checkNamedArgument target field argument)

/-- The name in front of an argument is compared with the name of a field. -/
def Compares [Likeness] (c : Checker) (written : Node) (declared : String) : Prop :=
  ∃ s target argument field, c.Matches s target ∧
    (argument, field) ∈ (childSites s .namedArgument).zip
      (target.file.orderedFields target.site.node) ∧
    argument.node.firstChild? .fieldRef = some written ∧
    declared = (target.file.fieldName? field).getD ""

def misnaming (c : Checker) (written : Node) (declared : String) : Finding :=
  ⟨.misnamedArgument (c.text written) declared, written, none, some declared⟩

def naming (c : Checker) (written : Node) (declared : String) : List Finding :=
  if c.text written = declared then [] else [c.misnaming written declared]

variable {c : Checker} {s : Site}

theorem checkNamedArgument_of_written {target : Definition} {field : Node} {argument : Site}
    {written : Node} (h : argument.node.firstChild? .fieldRef = some written) :
    c.checkNamedArgument target field argument =
      { reported := c.naming written ((target.file.fieldName? field).getD "") } ++
        (match namedValue? argument written with
          | none => Findings.none
          | some value => c.checkForField target field value) := by
  rw [checkNamedArgument, h]
  dsimp only
  rw [naming]
  split <;> rfl

/-- A whole tag with as many named arguments as its target has fields. -/
theorem matches_of_named [Likeness] (hs : s ∈ c.file.sites) (hkind : s.kind = .tag) {name : Node}
    (hname : s.node.children.head?.filter (·.kind = .typeRef) = some name)
    (hwhole : s.node.incomplete = false)
    (harguments : ∀ a ∈ childSites s .namedArgument, a.node.incomplete = false)
    (hnone : (childSites s .arguments).head? = none) (hne : childSites s .namedArgument ≠ [])
    {target : Definition} (htarget : c.resolve? s (c.text name) = some target)
    (hinstantiable : target.isInstantiable = true)
    (hcount : (target.file.orderedFields target.site.node).length =
      (childSites s .namedArgument).length) : c.Matches s target := by
  refine ⟨hs, hkind, hwhole, harguments, by rw [hname, Option.bind_some, htarget], ?_⟩
  have hincomplete : (childSites s .namedArgument).any (·.node.incomplete) = false :=
    List.any_eq_false.mpr fun a ha => by simp [harguments a ha]
  obtain ⟨first, others, hsites⟩ := List.exists_cons_of_ne_nil hne
  rw [checkTag, hname]
  dsimp only
  rw [hwhole, hincomplete, hnone, htarget, hsites]
  rw [hsites] at hcount
  show c.checkNamedArguments s name (some target) (first :: others) = _
  rw [checkNamedArguments, withFields]
  dsimp only
  rw [if_pos hinstantiable, if_pos hcount]

/-! ## Which names are compared -/

theorem Matches.unique [Likeness] {target target' : Definition} (h : c.Matches s target)
    (h' : c.Matches s target') : target = target' :=
  Option.some.inj (h.target_eq.symm.trans h'.target_eq)

theorem exists_of_mem_childSites {kind : NodeKind} {t : Site} (ht : t ∈ childSites s kind) :
    ∃ n ∈ s.node.children, n.kind = kind ∧ s.child n = t := by
  obtain ⟨n, hn, rfl⟩ := List.mem_map.mp ht
  obtain ⟨hn, hkind⟩ := List.mem_filter.mp hn
  exact ⟨n, hn, eq_of_beq hkind, rfl⟩

theorem nodup_childSites (hs : s ∈ c.file.sites) (kind : NodeKind) :
    (childSites s kind).Nodup := by
  have hchildren : s.node.children.Nodup :=
    (c.file.nodup_inside (c.file.node_mem_nodes hs)).sublist (Forest.nodes_sublist_preorder _)
  exact (hchildren.filter _).map fun n m h => congrArg Site.node h

theorem Compares.unique [Likeness] {written : Node} {declared declared' : String}
    (h : c.Compares written declared) (h' : c.Compares written declared') :
    declared = declared' := by
  obtain ⟨s, target, argument, field, hmatch, hpair, hwritten, rfl⟩ := h
  obtain ⟨s', target', argument', field', hmatch', hpair', hwritten', rfl⟩ := h'
  obtain ⟨n, hn, -, hargument⟩ := exists_of_mem_childSites (List.of_mem_zip hpair).1
  obtain ⟨n', hn', -, hargument'⟩ := exists_of_mem_childSites (List.of_mem_zip hpair').1
  -- the argument around the name and the tag around the argument are the same
  have hsame : argument = argument' := by
    subst hargument hargument'
    exact c.file.parent_unique (c.file.child_mem_sites hmatch.site hn)
      (c.file.child_mem_sites hmatch'.site hn') (List.mem_of_find?_eq_some hwritten)
      (List.mem_of_find?_eq_some hwritten')
  subst hsame
  have hnode : n = n' := by
    rw [← hargument'] at hargument
    exact congrArg Site.node hargument
  subst hnode
  obtain rfl := c.file.parent_unique hmatch.site hmatch'.site hn hn'
  obtain rfl := hmatch.unique hmatch'
  -- and so is the place among the arguments
  obtain ⟨i, hi, hfield⟩ := List.mem_iff_getElem.mp hpair
  obtain ⟨j, hj, hfield'⟩ := List.mem_iff_getElem.mp hpair'
  rw [List.getElem_zip, Prod.mk.injEq] at hfield hfield'
  obtain rfl := (nodup_childSites hmatch.site .namedArgument).getElem_inj_iff.mp
    (hfield.1.trans hfield'.1.symm)
  rw [← hfield.2, ← hfield'.2]

theorem Compares.kind [Likeness] {written : Node} {declared : String}
    (h : c.Compares written declared) :
    written.kind = .fieldRef := by
  obtain ⟨s, target, argument, field, -, -, hwritten, -⟩ := h
  have hfound := List.find?_some hwritten
  exact eq_of_beq hfound

theorem Compares.reported [Likeness] {written : Node} {declared : String}
    (h : c.Compares written declared) (hne : c.text written ≠ declared) :
    c.misnaming written declared ∈ checkFile c.file c.resolver := by
  obtain ⟨s, target, argument, field, hmatch, hpair, hwritten, rfl⟩ := h
  obtain ⟨judged, hsub⟩ := exists_judged (c := c) [] hmatch.site
  refine List.mem_append_right _ (hsub ?_)
  rw [checkSite, hmatch.kind]
  dsimp only
  rw [hmatch.checks, Findings.reported_all, List.flatMap_map, List.mem_flatMap]
  refine ⟨(argument, field), hpair, ?_⟩
  dsimp only
  rw [checkNamedArgument_of_written hwritten, Findings.reported_append, naming, if_neg hne]
  exact List.mem_append_left _ List.mem_cons_self

/-! ## What is said of names -/

def Unnaming (f : Finding) : Prop := f.problem.code ≠ .nameMismatch

section Values

variable {value : Site}

theorem unnaming_of {problem : Problem} {n : Node} (h : (problem.code != .nameMismatch) = true) :
    (Findings.of problem n).All Unnaming := all_of (bne_iff_ne.mp h)

theorem unnaming_enumLiteral (type : DeclaredType) (enum : Definition) :
    (c.checkEnumLiteral value type enum).All Unnaming := by
  refine all_append (all_judge _) ?_
  split
  · split
    · split
      · exact all_none
      · exact unnaming_of rfl
    · exact unnaming_of rfl
  · exact unnaming_of rfl

theorem unnaming_instance (type : DeclaredType) (target : Definition) :
    (c.checkInstance value type target).All Unnaming := by
  rw [checkInstance]
  split
  · split
    · exact all_none
    · split
      · exact all_none
      · exact unnaming_of rfl
  · refine all_append (all_judge _) ?_
    split
    · split
      · exact all_none
      · exact unnaming_of rfl
    · exact unnaming_of rfl
  · exact unnaming_of rfl

theorem unnaming_named (type : DeclaredType) : (c.checkNamed value type).All Unnaming := by
  rw [checkNamed]
  split
  · exact all_none
  · split
    · exact unnaming_enumLiteral type _
    · exact unnaming_instance type _
    · exact unnaming_instance type _
    · exact all_none

theorem unnaming_bracketed (form : Bracketed) {inner : Findings} (hinner : inner.All Unnaming) :
    (c.checkBracketed form value inner).All Unnaming := by
  rw [checkBracketed]
  split
  · exact unnaming_of rfl
  · split
    · exact unnaming_of rfl
    · exact hinner

theorem unnaming_entry {element : Site → Site → Findings}
    (helement : ∀ part parameter, (element part parameter).All Unnaming) (parameters : List Site)
    (entry : Site) : (checkEntry element parameters entry).All Unnaming := by
  rw [checkEntry]
  split
  · split
    · exact all_append (helement _ _) (helement _ _)
    · exact all_none
  · exact unnaming_of rfl

theorem unnaming_against {element : Site → Site → Findings}
    (helement : ∀ part parameter, (element part parameter).All Unnaming) (type : DeclaredType) :
    (c.checkAgainst element value type).All Unnaming := by
  rw [checkAgainst]
  split
  · split
    · exact all_none
    · exact unnaming_of rfl
  split
  · split
    · exact all_none
    · exact unnaming_of rfl
  · split
    · exact all_none
    · exact helement _ _
  · refine unnaming_bracketed .list ?_
    split
    · exact all_none
    · exact all_map fun part _ => helement _ _
  · exact unnaming_bracketed .map (all_map fun entry _ => unnaming_entry helement _ _)
  · exact unnaming_named type

theorem unnaming_forField (target : Definition) (field : Node) :
    (c.checkForField target field value).All Unnaming := by
  rw [checkForField]
  split
  · exact all_none
  · exact unnaming_against (fun _ _ => unnaming_against (fun _ _ => all_none) _) _

end Values

variable [Likeness]

theorem unnaming_targetExists (name : Node) (target? : Option Definition) :
    (c.checkTargetExists name target?).All Unnaming := by
  intro f hf
  rw [Unnaming, (code_of_targetExists hf).2]
  decide

theorem unnaming_unmatched (n name : Node) (target? : Option Definition) :
    (c.checkUnmatched n name target?).All Unnaming := by
  refine all_append (unnaming_targetExists _ _) ?_
  split
  · exact all_judge _
  · exact all_none

theorem unnaming_positional (name : Node) (target? : Option Definition) (arguments : Site) :
    (c.checkPositional s name target? arguments).All Unnaming := by
  rw [checkPositional, withFields.eq_def]
  split
  · exact unnaming_targetExists _ _
  · split
    · dsimp only
      split
      · exact all_map fun _ _ => unnaming_forField _ _
      · exact all_append (unnaming_of rfl) (all_judge _)
    · exact unnaming_of rfl

theorem unnaming_construction (s : Site) : (c.checkConstruction s).All Unnaming := by
  rw [checkConstruction]
  split
  · exact all_none
  · dsimp only
    split
    · split
      · exact unnaming_unmatched _ _ _
      · exact unnaming_positional _ _ _
    · exact unnaming_unmatched _ _ _

def Misnames (c : Checker) (f : Finding) : Prop :=
  f.problem.code = .nameMismatch → ∃ written declared, c.Compares written declared ∧
    c.text written ≠ declared ∧ f = c.misnaming written declared

theorem misnames_of_unnaming {fs : Findings} (h : fs.All Unnaming) : fs.All c.Misnames :=
  h.mono fun _ hf hcode => absurd hcode hf

theorem misnames_tag (hs : s ∈ c.file.sites) (hkind : s.kind = .tag) :
    (c.checkTag s).All c.Misnames := by
  rw [checkTag]
  split
  · exact all_none
  rename_i name hname
  dsimp only
  split
  · exact misnames_of_unnaming (unnaming_unmatched _ _ _)
  rename_i hwhole
  simp only [Bool.or_eq_true, not_or, Bool.not_eq_true, List.any_eq_false] at hwhole
  obtain ⟨⟨hcomplete, -⟩, harguments⟩ := hwhole
  split
  · exact misnames_of_unnaming (unnaming_positional _ _ _)
  · exact misnames_of_unnaming (unnaming_unmatched _ _ _)
  rename_i hnone hne
  rw [checkNamedArguments, withFields.eq_def]
  split
  · exact misnames_of_unnaming (unnaming_targetExists _ _)
  rename_i target htarget
  split
  case isFalse => exact misnames_of_unnaming (unnaming_of rfl)
  rename_i hinstantiable
  dsimp only
  split
  case isFalse =>
    exact misnames_of_unnaming (all_append (unnaming_of rfl) (all_map fun _ _ => all_judge _))
  rename_i hcount
  have hmatch := matches_of_named hs hkind hname hcomplete harguments hnone hne htarget
    hinstantiable hcount
  refine all_map ?_
  rintro ⟨argument, field⟩ hpair
  dsimp only
  cases hwritten : argument.node.firstChild? .fieldRef with
  | none =>
    rw [checkNamedArgument, hwritten]
    exact all_none
  | some written =>
    rw [checkNamedArgument_of_written hwritten]
    refine all_append (fun f hf _ => ?_) (misnames_of_unnaming ?_)
    · have hf : f ∈ c.naming written ((target.file.fieldName? field).getD "") := hf
      rw [naming] at hf
      split at hf
      · cases hf
      · exact ⟨written, _, ⟨s, target, argument, field, hmatch, hpair, hwritten, rfl⟩, ‹_›,
          List.mem_singleton.mp hf⟩
    · split
      · exact all_none
      · exact unnaming_forField _ _

theorem misnames_site (hs : s ∈ c.file.sites) (judged : List Nat) :
    (c.checkSite judged s).All c.Misnames := by
  have htype {f : Finding} (hf : f.problem.code = .unresolvedReference ∨
      ∃ name found, f.problem = .notAType name found) : Unnaming f := by
    rcases hf with hcode | ⟨name, found, hproblem⟩
    · rw [Unnaming, hcode]
      decide
    · rw [Unnaming, hproblem]
      nofun
  have hcode {f : Finding} {code : DiagnosticCode} (hne : code ≠ .nameMismatch)
      (hf : f.problem.code = code) : Unnaming f := by
    rw [Unnaming, hf]
    exact hne
  rw [checkSite]
  split
  · exact misnames_of_unnaming ((node_of_fieldType s).mono fun f hf => htype hf.2)
  · exact misnames_of_unnaming ((node_of_command s).mono fun f hf => htype hf.2)
  · exact misnames_tag hs ‹_›
  · exact misnames_of_unnaming (unnaming_construction s)
  · exact misnames_of_unnaming ((node_of_bareName judged s).mono fun f hf => hcode (by decide) hf.2)
  · exact misnames_of_unnaming ((node_of_fieldNumbers s).mono fun f hf => hcode (by decide) hf.2)
  · exact misnames_of_unnaming ((node_of_fieldNumbers s).mono fun f hf => hcode (by decide) hf.2)
  · exact all_none

end Checker

/-- What is reported of names of arguments is that they are not the names of their fields. -/
theorem misnames_of_mem_checkFile [Likeness] {file : SchemaFile} {r : Resolver} {f : Finding}
    (hf : f ∈ checkFile file r) : (Checker.mk file r).Misnames f := by
  rcases List.mem_append.mp hf with hf | hf
  · obtain ⟨⟨n, fault⟩, -, rfl⟩ := List.mem_map.mp hf
    exact nofun
  · obtain ⟨t, ht, judged, hf⟩ := Checker.exists_of_mem_checkSites hf
    exact Checker.misnames_site (c := ⟨file, r⟩) ht judged f hf

end SchemaLang
