import SchemaLang.Proofs.ArenaValues
import SchemaLang.Proofs.RepeatedNumbers

/-!
# Checking an arena

Checking by numbers does what checking does at the nodes and never comes to a
breach. Two arenas are in play at a time, that of the checked file with values
and arguments and that of the file that owns a definition with its fields, and
every note is about a number of the first. So all that is reported lies at a
node of the checked file, with the syntax faults in front.
-/

set_option autoImplicit false

namespace SchemaLang

namespace Forest

def isOpen (kind : NodeKind) : Bool := kind != .nameRef && kind != .construction

theorem bareNames_eq (f : Forest Mark Token) :
    f.bareNames = ((f.visited isOpen).filter (·.kind == .nameRef)).map Node.id := by
  induction f with
  | nil => rfl
  | leaf t next ih => exact ih
  | node mark inside next ihi ihn =>
    have hnode : (node mark inside next).visited isOpen = ⟨mark, inside⟩ ::
        ((if isOpen mark.shape.kind then inside.visited isOpen else []) ++
          next.visited isOpen) := rfl
    rw [bareNames, hnode, List.filter_cons, List.filter_append, Node.kind]
    split
    · rename_i hkind
      simp [hkind, isOpen, ihn, Node.id]
    · rename_i hkind
      simp [hkind, isOpen, ihn]
    · rename_i hname hconstruction
      have hopen : isOpen mark.shape.kind = true := by simpa [isOpen] using ⟨hname, hconstruction⟩
      have hother : (mark.shape.kind == .nameRef) = false := beq_eq_false_iff_ne.mpr hname
      rw [hopen, hother, if_pos rfl, if_neg Bool.false_ne_true, List.map_append, ihi, ihn]

end Forest

namespace ArenaChecker

variable (c : ArenaChecker)

/-! ## Reports -/

variable [Likeness]

def suggestion? (name : String) : Guarded (Option String) := do
  let definitions ← (← c.arena.nodes).filterM fun id =>
    (fun kind => kind == .type || kind == .enum || kind == .component) <$> c.arena.kind id
  let candidates ← definitions.filterMapM c.arena.name?
  return Suggestion.best? (fun candidate => Likeness.score name.toLower candidate.toLower)
    (candidates.filter (· ≠ name))

def unresolved (problem : Problem) (id : Nat) : Guarded Notes := do
  let replacement? ← c.suggestion? (← c.arena.text id)
  return { reported := [⟨problem, id, none, replacement?⟩] }

def setAside (id : Nat) : Guarded Notes := do
  let below ← c.arena.walk Forest.isOpen (← c.arena.children id)
  return .judge (← below.filterM (c.arena.isOfKind .nameRef))

/-! ## Arguments -/

def checkTargetExists (name : Nat) (target? : Option Handle) : Guarded Notes := do
  let text ← c.arena.text name
  if target?.isNone && !(← c.arena.knowsStandard text) then
    c.unresolved (.unknownType text) name
  else pure .none

def checkUnmatched (id name : Nat) (target? : Option Handle) : Guarded Notes :=
  Notes.both (c.checkTargetExists name target?)
    (if target?.isSome then c.setAside id else pure .none)

def withFields (name : Nat) (target? : Option Handle)
    (check : Handle → List Nat → Guarded Notes) : Guarded Notes :=
  match target? with
  | none => c.checkTargetExists name none
  | some target => do
    if ← target.isInstantiable then check target (← target.orderedFields)
    else return .of (.notInstantiable (← c.arena.text name) (← target.kind)) name

def depth : Nat := 2

def checkForField (target : Handle) (field value : Nat) : Guarded Notes := do
  match ← target.arena.fieldType? field with
  | none => pure .none
  | some type => c.checkField target.arena depth value type

def checkPositional (id name : Nat) (target? : Option Handle) (arguments : Nat) : Guarded Notes :=
  c.withFields name target? fun target fields => do
    let values ← c.arena.values arguments
    if fields.length = values.length then
      Notes.collect (fun (value, field) => c.checkForField target field value) (values.zip fields)
    else
      Notes.both (pure (.of (.argumentCount fields.length values.length) id))
        (c.setAside arguments)

def checkNaming (target : Handle) (field name : Nat) : Guarded Notes := do
  let written ← c.arena.text name
  let declared := (← target.arena.fieldName? field).getD ""
  if written = declared then pure .none
  else pure { reported := [⟨.misnamedArgument written declared, name, none, some declared⟩] }

def checkNamedArgument (target : Handle) (field argument : Nat) : Guarded Notes := do
  match ← c.arena.firstChild? argument .fieldRef with
  | none => pure .none
  | some name =>
    let value? := (← c.arena.values argument).find? (· != name)
    Notes.both (c.checkNaming target field name) <|
      match value? with
      | none => pure .none
      | some value => c.checkForField target field value

def checkNamedArguments (id name : Nat) (target? : Option Handle) (arguments : List Nat) :
    Guarded Notes :=
  c.withFields name target? fun target fields =>
    if fields.length = arguments.length then
      Notes.collect (fun (argument, field) => c.checkNamedArgument target field argument)
        (arguments.zip fields)
    else
      Notes.both (pure (.of (.argumentCount fields.length arguments.length) id))
        (Notes.collect c.setAside arguments)

def anyIncomplete (ids : List Nat) : Guarded Bool := (·.any id) <$> ids.mapM c.arena.incomplete

def checkTagOf (id name : Nat) : Guarded Notes := do
  let target? ← c.resolve? id (← c.arena.text name)
  let named ← c.arena.childrenOfKind id .namedArgument
  let positional? ← c.arena.firstChild? id .arguments
  if ← c.anyIncomplete (id :: (positional?.toList ++ named)) then
    c.checkUnmatched id name target?
  else
    match positional?, named with
    | some arguments, _ => c.checkPositional id name target? arguments
    | none, [] => c.checkUnmatched id name target?
    | none, arguments => c.checkNamedArguments id name target? arguments

def checkTag (id : Nat) : Guarded Notes := do
  match (← c.arena.children id).head? with
  | none => pure .none
  | some name => if ← c.arena.isOfKind .typeRef name then c.checkTagOf id name else pure .none

def checkConstruction (id : Nat) : Guarded Notes := do
  match ← c.arena.firstChild? id .constructorName with
  | none => pure .none
  | some name =>
    let target? ← c.resolve? id (← c.arena.text name)
    match ← c.arena.firstChild? id .arguments with
    | some arguments =>
      if ← c.anyIncomplete [id, arguments] then c.checkUnmatched id name target?
      else c.checkPositional id name target? arguments
    | none => c.checkUnmatched id name target?

/-! ## References -/

def checkTypeName (id : Nat) : Guarded Notes := do
  let name ← c.arena.text id
  if isBuiltIn name then pure .none
  else
    match ← c.resolve? id name with
    | some d =>
      let kind ← d.kind
      if kind = .type ∨ kind = .component ∨ kind = .enum then pure .none
      else pure (.of (.notAType name kind) id)
    | none =>
      if ← c.arena.knowsStandard name then pure .none else c.unresolved (.unknownType name) id

def checkFieldType (id : Nat) : Guarded Notes := do
  match ← c.arena.children id with
  | [] => pure .none
  | head :: parameters =>
    Notes.both (c.checkTypeName head) do
      if KnownNames.generics.contains (← c.arena.text head) then
        Notes.collect c.checkTypeName parameters
      else pure .none

def checkCommand (id : Nat) : Guarded Notes := do
  Notes.collect c.checkTypeName (← c.arena.childrenOfKind id .typeRef)

def checkBareName (judged : List Nat) (id : Nat) : Guarded Notes := do
  if judged.contains id then pure .none
  else
    let name ← c.arena.text id
    if (← c.resolve? id name).isNone && !(← c.arena.knowsStandard name) then
      c.unresolved (.unknownValue name) id
    else pure .none

/-! ## Field numbers -/

def duplicateNumbers : List (Nat × Nat) → List (Nat × Nat) → Guarded (List Note)
  | _, [] => pure []
  | seen, (number, field) :: rest =>
    match seen.find? (·.1 = number) with
    | none => duplicateNumbers (seen ++ [(number, field)]) rest
    | some (_, first) => do
      let holder := (← c.arena.fieldName? first).getD ""
      let anchor := (← c.arena.firstChild? field .fieldNumber).getD field
      (⟨.duplicateNumber number holder, anchor, some first, none⟩ :: ·) <$>
        duplicateNumbers seen rest

def checkFieldNumbers (id : Nat) : Guarded Notes := do
  let reported ← c.duplicateNumbers [] (← c.arena.numberedFields id)
  return { reported }

/-! ## All nodes -/

def checkNode (judged : List Nat) (id : Nat) : Guarded Notes := do
  match ← c.arena.kind id with
  | .fieldType => c.checkFieldType id
  | .command => c.checkCommand id
  | .tag => c.checkTag id
  | .construction => c.checkConstruction id
  | .nameRef => c.checkBareName judged id
  | .type | .component => c.checkFieldNumbers id
  | _ => pure .none

def checkNodes (judged : List Nat) : List Nat → Guarded (List Note)
  | [] => pure []
  | id :: rest => do
    let found ← c.checkNode judged id
    (found.reported ++ ·) <$> checkNodes (judged ++ found.judged) rest

end ArenaChecker

namespace Arena

variable (a : Arena)

def diagnostic (note : Note) : Guarded Diagnostic := do
  let range ← a.span note.id
  let related ← note.earlier?.toList.mapM fun earlier => do
    let range ← a.span earlier
    return ⟨"first declared here", range, .ofSpan a.source range⟩
  return {
    severity := note.problem.severity
    code := note.problem.code
    message := note.problem.message
    range
    lines? := some (.ofSpan a.source range)
    related
    fix? := note.replacement?.map fun replacement =>
      ⟨note.problem.fixDescription replacement, replacement, range⟩ }

def checkValue (r : Resolver) (other : Arena) (depth value declared : Nat) :
    Guarded (List Diagnostic) := do
  let notes ← (ArenaChecker.mk a r).checkField other depth value declared
  notes.reported.mapM a.diagnostic

def check [Likeness] (r : Resolver) : Guarded (List Diagnostic) := do
  let faults := a.faults.map fun (id, fault) => (⟨.syntaxFault fault, id, none, none⟩ : Note)
  let found ← (ArenaChecker.mk a r).checkNodes [] (← a.nodes)
  (faults ++ found).mapM a.diagnostic

end Arena

namespace Checker

variable {c : Checker} {s value : Site} {n name : Node} {target? : Option Definition}

/-! ## Reports without a breach -/

theorem suggestion_arena [Likeness] (name : String) :
    c.inArena.suggestion? name = pure (c.file.suggestion? name) := by
  have hdefinitions : (c.file.nodes.map Node.id).filterM
        (fun id => (fun kind => kind == .type || kind == .enum || kind == .component) <$>
          c.file.arena.kind id) =
      pure ((c.file.nodes.filter fun n =>
        n.kind == .type || n.kind == .enum || n.kind == .component).map Node.id) :=
    filterM_map_pure fun n hn => by rw [SchemaFile.kind_arena hn]; rfl
  rw [ArenaChecker.suggestion?, arena_inArena, SchemaFile.nodes_arena, pure_bind, hdefinitions,
    pure_bind, filterMapM_map_pure (g := c.file.name?) (j := id) fun n hn => by
      rw [SchemaFile.name_arena (List.mem_of_mem_filter hn), Option.map_id]; rfl,
    pure_bind, List.map_id]
  rfl

theorem reads_unresolved [Likeness] {problem : Problem} (hn : n ∈ c.file.nodes) :
    Reads c.file (c.inArena.unresolved problem n.id) (c.unresolved problem n) := by
  rw [ArenaChecker.unresolved, arena_inArena, SchemaFile.text_arena hn, pure_bind, suggestion_arena,
    pure_bind]
  exact .one hn

theorem reads_setAside (hn : n ∈ c.file.nodes) :
    Reads c.file (c.inArena.setAside n.id) (setAside n) := by
  have hnames : ((n.inside.visited Forest.isOpen).map Node.id).filterM
        (c.file.arena.isOfKind .nameRef) =
      pure (((n.inside.visited Forest.isOpen).filter (·.kind == .nameRef)).map Node.id) :=
    filterM_map_pure fun m hm => SchemaFile.isOfKind_arena
      (c.file.mem_nodes_of_mem_inside hn (Forest.visited_subset _ _ hm)) _
  rw [ArenaChecker.setAside, arena_inArena, SchemaFile.children_arena hn, pure_bind,
    SchemaFile.walk_children_arena Forest.isOpen hn, pure_bind, hnames, pure_bind, setAside,
    Forest.bareNames_eq]
  exact .judge _

/-! ## Arguments without a breach -/

theorem reads_targetExists [Likeness] (hname : name ∈ c.file.nodes) (target? : Option Definition) :
    Reads c.file (c.inArena.checkTargetExists name.id (target?.map Definition.handle))
      (c.checkTargetExists name target?) := by
  have htext : c.file.arena.text name.id = pure (c.text name) := SchemaFile.text_arena hname
  rw [ArenaChecker.checkTargetExists, arena_inArena, htext, pure_bind,
    SchemaFile.knowsStandard_arena, pure_bind, checkTargetExists, Option.isNone_map]
  split
  · exact reads_unresolved hname
  · exact .none

theorem reads_unmatched [Likeness] (hn : n ∈ c.file.nodes) (hname : name ∈ c.file.nodes)
    (target? : Option Definition) :
    Reads c.file (c.inArena.checkUnmatched n.id name.id (target?.map Definition.handle))
      (c.checkUnmatched n name target?) := by
  refine (reads_targetExists hname target?).both ?_
  rw [Option.isSome_map]
  split
  · exact reads_setAside hn
  · exact .none

theorem reads_withFields [Likeness] (hname : name ∈ c.file.nodes)
    (howned : ∀ target ∈ target?, target.Owned) {read : Handle → List Nat → Guarded Notes}
    {check : Definition → List Node → Findings}
    (h : ∀ target : Definition, target.Owned → ∀ fields : List Node,
      (∀ field ∈ fields, field ∈ target.site.node.children) →
        Reads c.file (read target.handle (fields.map Node.id)) (check target fields)) :
    Reads c.file (c.inArena.withFields name.id (target?.map Definition.handle) read)
      (c.withFields name target? check) := by
  cases target? with
  | none => exact reads_targetExists hname none
  | some target =>
    have htarget := howned target rfl
    have hd := target.file.node_mem_nodes htarget
    rw [Option.map_some, ArenaChecker.withFields, Definition.isInstantiable_handle htarget,
      pure_bind, Definition.orderedFields_handle htarget, pure_bind, arena_inArena,
      SchemaFile.text_arena hname, pure_bind, Definition.kind_handle htarget, pure_bind,
      withFields.eq_def]
    dsimp only
    split
    · exact h target htarget _ fun field hfield =>
        (SchemaFile.field_of_mem_orderedFields hd hfield).1
    · exact .of hname

theorem reads_forField {target : Definition} (htarget : target.Owned) {field : Node}
    (hfield : field ∈ target.site.node.children) (hv : value ∈ c.file.sites) :
    Reads c.file (c.inArena.checkForField target.handle field.id value.id)
      (c.checkForField target field value) := by
  have hmem := SchemaFile.child_mem_nodes (target.file.node_mem_nodes htarget) hfield
  have htype : target.handle.arena.fieldType? field.id =
      pure ((SchemaFile.fieldType? field).map Node.id) := SchemaFile.fieldType_arena hmem
  rw [ArenaChecker.checkForField, htype, pure_bind, checkForField]
  cases hfirst : SchemaFile.fieldType? field with
  | none => exact .none
  | some type =>
    have hsite := target.file.child_mem_sites (target.file.child_mem_sites htarget hfield)
      (List.mem_of_find?_eq_some hfirst)
    exact reads_field hv hsite 0

theorem reads_positional [Likeness] (hs : s ∈ c.file.sites) (hname : name ∈ c.file.nodes)
    (howned : ∀ target ∈ target?, target.Owned) {arguments : Site}
    (harguments : arguments ∈ c.file.sites) :
    Reads c.file
      (c.inArena.checkPositional s.id name.id (target?.map Definition.handle) arguments.id)
      (c.checkPositional s name target? arguments) := by
  refine reads_withFields hname howned fun target htarget fields hfields => ?_
  rw [arena_inArena, parts_arena harguments, pure_bind, List.length_map, List.length_map]
  dsimp only
  split
  · rw [List.zip_map]
    refine .collect fun ⟨value, field⟩ hpair => ?_
    obtain ⟨hvalue, hfield⟩ := List.of_mem_zip hpair
    exact reads_forField htarget (hfields field hfield) (mem_parts harguments hvalue)
  · exact .both (.of (c.file.node_mem_nodes hs))
      (reads_setAside (c.file.node_mem_nodes harguments))

theorem reads_naming {target : Definition} (htarget : target.Owned) {field : Node}
    (hfield : field ∈ target.site.node.children) (hname : name ∈ c.file.nodes) :
    Reads c.file (c.inArena.checkNaming target.handle field.id name.id)
      (if c.text name = (target.file.fieldName? field).getD "" then .none
        else { reported := [⟨.misnamedArgument (c.text name)
          ((target.file.fieldName? field).getD ""), name, none,
          some ((target.file.fieldName? field).getD "")⟩] }) := by
  have hmem := SchemaFile.child_mem_nodes (target.file.node_mem_nodes htarget) hfield
  have htext : c.file.arena.text name.id = pure (c.text name) := SchemaFile.text_arena hname
  have hdeclared : target.handle.arena.fieldName? field.id = pure (target.file.fieldName? field) :=
    SchemaFile.fieldName_arena hmem
  rw [ArenaChecker.checkNaming, arena_inArena, htext, pure_bind, hdeclared, pure_bind]
  dsimp only
  split
  · exact .none
  · exact .one hname

theorem reads_namedArgument {target : Definition} (htarget : target.Owned) {field : Node}
    (hfield : field ∈ target.site.node.children) {argument : Site} (ha : argument ∈ c.file.sites) :
    Reads c.file (c.inArena.checkNamedArgument target.handle field.id argument.id)
      (c.checkNamedArgument target field argument) := by
  have hn := c.file.node_mem_nodes ha
  have href : c.file.arena.firstChild? argument.id .fieldRef =
      pure ((argument.node.firstChild? .fieldRef).map Node.id) := SchemaFile.firstChild_arena hn _
  rw [ArenaChecker.checkNamedArgument, arena_inArena, href, pure_bind, checkNamedArgument]
  cases hfirst : argument.node.firstChild? .fieldRef with
  | none => exact .none
  | some name =>
    simp only [Option.map_some]
    rw [parts_arena ha, pure_bind, List.find?_map]
    refine (reads_naming htarget hfield (SchemaFile.mem_firstChild hn hfirst)).both ?_
    rw [show (parts argument).find? ((· != name.id) ∘ Site.id) = namedValue? argument name from rfl]
    cases hvalue : namedValue? argument name with
    | none => exact .none
    | some value =>
      exact reads_forField htarget hfield (mem_parts ha (List.mem_of_find?_eq_some hvalue))

theorem reads_namedArguments [Likeness] (hs : s ∈ c.file.sites) (hname : name ∈ c.file.nodes)
    (howned : ∀ target ∈ target?, target.Owned) {arguments : List Site}
    (harguments : ∀ argument ∈ arguments, argument ∈ c.file.sites) :
    Reads c.file
      (c.inArena.checkNamedArguments s.id name.id (target?.map Definition.handle)
        (arguments.map Site.id))
      (c.checkNamedArguments s name target? arguments) := by
  refine reads_withFields hname howned fun target htarget fields hfields => ?_
  dsimp only
  rw [List.length_map, List.length_map]
  split
  · rw [List.zip_map]
    refine .collect fun ⟨argument, field⟩ hpair => ?_
    obtain ⟨hargument, hfield⟩ := List.of_mem_zip hpair
    exact reads_namedArgument htarget (hfields field hfield) (harguments argument hargument)
  · refine .both (.of (c.file.node_mem_nodes hs)) (.collect fun argument hargument => ?_)
    exact reads_setAside (c.file.node_mem_nodes (harguments argument hargument))

/-! ## Tags and constructions without a breach -/

theorem owned_target? (hs : s ∈ c.file.sites) (text : String) :
    ∀ target ∈ c.resolve? s text, target.Owned :=
  fun _ htarget => Resolver.owned_of_resolve? hs htarget

theorem mem_childSites {t : Site} {kind : NodeKind} (hs : s ∈ c.file.sites)
    (ht : t ∈ childSites s kind) : t ∈ c.file.sites := by
  obtain ⟨n, hn, rfl⟩ := List.mem_map.mp ht
  exact c.file.child_mem_sites hs (List.mem_of_mem_filter hn)

theorem childSites_arena (hs : s ∈ c.file.sites) (kind : NodeKind) :
    c.file.arena.childrenOfKind s.id kind = pure ((childSites s kind).map Site.id) := by
  rw [Site.id, SchemaFile.childrenOfKind_arena (c.file.node_mem_nodes hs), childSites, List.map_map]
  rfl

theorem firstSite_arena (hs : s ∈ c.file.sites) (kind : NodeKind) :
    c.file.arena.firstChild? s.id kind = pure ((childSites s kind).head?.map Site.id) := by
  rw [Site.id, SchemaFile.firstChild_arena (c.file.node_mem_nodes hs), head?_childSites,
    Option.map_map, Node.childrenOfKind, List.head?_filter]
  rfl

theorem anyIncomplete_arena {sites : List Site} (h : ∀ t ∈ sites, t ∈ c.file.sites) :
    c.inArena.anyIncomplete (sites.map Site.id) = pure (sites.any (·.node.incomplete)) := by
  rw [ArenaChecker.anyIncomplete, arena_inArena, mapM_map_pure (g := fun t => t.node.incomplete),
    map_pure, List.any_map]
  · rfl
  · exact fun t ht => SchemaFile.incomplete_arena (c.file.node_mem_nodes (h t ht))

/-- The flags of a tag and of everything that holds its arguments. -/
theorem anyIncomplete_tag {positional? : Option Site} {named : List Site} (hs : s ∈ c.file.sites)
    (hpositional : ∀ t ∈ positional?, t ∈ c.file.sites) (hnamed : ∀ t ∈ named, t ∈ c.file.sites) :
    c.inArena.anyIncomplete (s.id :: ((positional?.map Site.id).toList ++ named.map Site.id)) =
      pure (s.node.incomplete || positional?.any (·.node.incomplete) ||
        named.any (·.node.incomplete)) := by
  have hall : ∀ t ∈ s :: (positional?.toList ++ named), t ∈ c.file.sites := by
    rw [List.forall_mem_cons, List.forall_mem_append]
    exact ⟨hs, fun t ht => hpositional t (Option.mem_toList.mp ht), hnamed⟩
  have hincomplete := anyIncomplete_arena hall
  rw [List.map_cons, List.map_append, ← Option.toList_map] at hincomplete
  rw [hincomplete, List.any_cons, List.any_append, Bool.or_assoc]
  cases positional? <;> simp

theorem reads_tagOf [Likeness] (hs : s ∈ c.file.sites) {rest : List Node}
    (hchildren : s.node.children = name :: rest) (hkind : name.kind = .typeRef) :
    Reads c.file (c.inArena.checkTagOf s.id name.id) (c.checkTag s) := by
  have hn := c.file.node_mem_nodes hs
  have hname : name ∈ c.file.nodes :=
    SchemaFile.child_mem_nodes hn (hchildren ▸ List.mem_cons_self)
  have htext : c.file.arena.text name.id = pure (c.text name) := SchemaFile.text_arena hname
  have hhead : s.node.children.head?.filter (fun n => decide (n.kind = .typeRef)) = some name := by
    rw [hchildren, List.head?_cons, Option.filter_some, if_pos (by simpa using hkind)]
  have howned := owned_target? hs (c.text name)
  have hnamed : ∀ t ∈ childSites s .namedArgument, t ∈ c.file.sites :=
    fun t ht => mem_childSites hs ht
  have hpositional : ∀ t ∈ (childSites s .arguments).head?, t ∈ c.file.sites :=
    fun t ht => mem_childSites hs (List.mem_of_head? ht)
  rw [ArenaChecker.checkTagOf, arena_inArena, htext, pure_bind, resolve_arena hs, pure_bind,
    childSites_arena hs, pure_bind, firstSite_arena hs, pure_bind, checkTag, hhead]
  dsimp only
  generalize childSites s .namedArgument = named at hnamed ⊢
  generalize (childSites s .arguments).head? = positional? at hpositional ⊢
  rw [anyIncomplete_tag hs hpositional hnamed, pure_bind]
  split
  · exact reads_unmatched hn hname _
  cases positional? with
  | some arguments => exact reads_positional hs hname howned (hpositional arguments rfl)
  | none =>
    cases named with
    | nil => exact reads_unmatched hn hname _
    | cons first others => exact reads_namedArguments hs hname howned hnamed

theorem reads_tag [Likeness] (hs : s ∈ c.file.sites) :
    Reads c.file (c.inArena.checkTag s.id) (c.checkTag s) := by
  have hn := c.file.node_mem_nodes hs
  have hread : c.file.arena.children s.id = pure (s.node.children.map Node.id) :=
    SchemaFile.children_arena hn
  rw [ArenaChecker.checkTag, arena_inArena, hread, pure_bind]
  cases hchildren : s.node.children with
  | nil =>
    rw [checkTag_of_nil hchildren]
    exact .none
  | cons name rest =>
    have hname : name ∈ c.file.nodes :=
      SchemaFile.child_mem_nodes hn (hchildren ▸ List.mem_cons_self)
    rw [List.map_cons, List.head?_cons]
    dsimp only
    rw [SchemaFile.isOfKind_arena hname, pure_bind]
    split
    · rename_i hkind
      exact reads_tagOf hs hchildren (eq_of_beq hkind)
    · rename_i hkind
      rw [checkTag, hchildren, List.head?_cons, Option.filter_some, if_neg (by simpa using hkind)]
      exact .none

theorem reads_construction [Likeness] (hs : s ∈ c.file.sites) :
    Reads c.file (c.inArena.checkConstruction s.id) (c.checkConstruction s) := by
  have hn := c.file.node_mem_nodes hs
  have hread : c.file.arena.firstChild? s.id .constructorName =
      pure ((s.node.firstChild? .constructorName).map Node.id) := SchemaFile.firstChild_arena hn _
  rw [ArenaChecker.checkConstruction, arena_inArena, hread, pure_bind, checkConstruction]
  cases hfirst : s.node.firstChild? .constructorName with
  | none => exact .none
  | some name =>
    have hname := SchemaFile.mem_firstChild hn hfirst
    have htext : c.file.arena.text name.id = pure (c.text name) := SchemaFile.text_arena hname
    have howned := owned_target? hs (c.text name)
    have harguments : ∀ t ∈ (childSites s .arguments).head?, t ∈ c.file.sites :=
      fun t ht => mem_childSites hs (List.mem_of_head? ht)
    simp only [Option.map_some]
    rw [htext, pure_bind, resolve_arena hs, pure_bind, firstSite_arena hs, pure_bind]
    generalize (childSites s .arguments).head? = arguments? at harguments ⊢
    cases arguments? with
    | none => exact reads_unmatched hn hname _
    | some arguments =>
      have hmem := harguments arguments rfl
      have hall : ∀ t ∈ [s, arguments], t ∈ c.file.sites := by simp [hs, hmem]
      have hincomplete := anyIncomplete_arena hall
      simp only [Option.map_some]
      rw [show [s.id, arguments.id] = [s, arguments].map Site.id from rfl, hincomplete, pure_bind,
        List.any_cons, List.any_cons, List.any_nil, Bool.or_false]
      split
      · exact reads_unmatched hn hname _
      · exact reads_positional hs hname howned hmem

/-! ## References and field numbers without a breach -/

theorem reads_typeName [Likeness] (hs : s ∈ c.file.sites) :
    Reads c.file (c.inArena.checkTypeName s.id) (c.checkTypeName s) := by
  have hn := c.file.node_mem_nodes hs
  have htext : c.file.arena.text s.id = pure (c.text s.node) := SchemaFile.text_arena hn
  rw [ArenaChecker.checkTypeName, arena_inArena, htext, pure_bind, checkTypeName]
  split
  · exact .none
  rw [resolve_arena hs, pure_bind]
  cases hd : c.resolve? s (c.text s.node) with
  | none =>
    simp only [Option.map_none]
    rw [SchemaFile.knowsStandard_arena, pure_bind]
    split
    · exact .none
    · exact reads_unresolved hn
  | some d =>
    have howned := owned_target? hs _ d hd
    have htype : d.isType = true ↔ d.kind = .type ∨ d.kind = .component ∨ d.kind = .enum := by
      simp [Definition.isType, Definition.isInstantiable, or_assoc]
    simp only [Option.map_some, htype]
    rw [Definition.kind_handle howned, pure_bind]
    split
    · exact .none
    · exact .of hn

theorem reads_fieldType [Likeness] (hs : s ∈ c.file.sites) :
    Reads c.file (c.inArena.checkFieldType s.id) (c.checkFieldType s) := by
  have hn := c.file.node_mem_nodes hs
  have hread : c.file.arena.children s.id = pure (s.children.map Site.id) := by
    rw [Site.id, SchemaFile.children_arena hn, Site.children, List.map_map]
    rfl
  have hchild : ∀ t ∈ s.children, t ∈ c.file.sites := fun t ht => by
    obtain ⟨n, hn, rfl⟩ := List.mem_map.mp ht
    exact c.file.child_mem_sites hs hn
  rw [ArenaChecker.checkFieldType, arena_inArena, hread, pure_bind, checkFieldType]
  generalize s.children = children at hchild
  cases children with
  | nil => exact .none
  | cons head parameters =>
    obtain ⟨hhead, hparameters⟩ := List.forall_mem_cons.mp hchild
    have htext : c.file.arena.text head.id = pure (c.text head.node) :=
      SchemaFile.text_arena (c.file.node_mem_nodes hhead)
    refine (reads_typeName hhead).both ?_
    rw [htext, pure_bind]
    split
    · exact .collect fun t ht => reads_typeName (hparameters t ht)
    · exact .none

theorem reads_command [Likeness] (hs : s ∈ c.file.sites) :
    Reads c.file (c.inArena.checkCommand s.id) (c.checkCommand s) := by
  rw [ArenaChecker.checkCommand, arena_inArena, childSites_arena hs, pure_bind, checkCommand]
  exact .collect fun t ht => reads_typeName (mem_childSites hs ht)

theorem reads_bareName [Likeness] (hs : s ∈ c.file.sites) (judged : List Nat) :
    Reads c.file (c.inArena.checkBareName judged s.id) (c.checkBareName judged s) := by
  have hn := c.file.node_mem_nodes hs
  have htext : c.file.arena.text s.id = pure (c.text s.node) := SchemaFile.text_arena hn
  rw [ArenaChecker.checkBareName, checkBareName]
  split
  · exact .none
  rw [arena_inArena, htext, pure_bind, resolve_arena hs, pure_bind, SchemaFile.knowsStandard_arena,
    pure_bind, Option.isNone_map]
  split
  · exact reads_unresolved hn
  · exact .none

theorem duplicateNumbers_arena (fields : List (Nat × Node)) {seen : List (Nat × Node)}
    (hfields : ∀ p ∈ fields, p.2 ∈ c.file.nodes) (hseen : ∀ p ∈ seen, p.2 ∈ c.file.nodes) :
    c.inArena.duplicateNumbers (seen.map (Prod.map id Node.id)) (fields.map (Prod.map id Node.id)) =
      pure ((c.duplicateNumbers seen fields).map Finding.note) := by
  induction fields generalizing seen with
  | nil => rfl
  | cons pair rest ih =>
    obtain ⟨number, field⟩ := pair
    obtain ⟨hfield, hrest⟩ := List.forall_mem_cons.mp hfields
    have hfind : (seen.map (Prod.map id Node.id)).find? (·.1 = number) =
        (seen.find? (·.1 = number)).map (Prod.map id Node.id) := by
      rw [List.find?_map]
      rfl
    rw [List.map_cons, Prod.map_apply, id_eq, ArenaChecker.duplicateNumbers, hfind,
      duplicateNumbers]
    cases hfirst : seen.find? (·.1 = number) with
    | none =>
      have hseen : ∀ p ∈ seen ++ [(number, field)], p.2 ∈ c.file.nodes := by
        rw [List.forall_mem_append]
        exact ⟨hseen, List.forall_mem_singleton.mpr hfield⟩
      have hrest := ih hrest hseen
      rwa [List.map_append] at hrest
    | some pair =>
      have hmem := hseen pair (List.mem_of_find?_eq_some hfirst)
      have hanchor : ((field.firstChild? .fieldNumber).map Node.id).getD field.id =
          ((field.firstChild? .fieldNumber).getD field).id := Option.getD_map ..
      simp only [Option.map_some, Prod.map_snd]
      rw [arena_inArena, SchemaFile.fieldName_arena hmem, pure_bind,
        SchemaFile.firstChild_arena hfield, pure_bind, ih hrest hseen, hanchor]
      rfl

theorem anchored_of_warnsOfRepeat {definition : Node} (hn : definition ∈ c.file.nodes) {f : Finding}
    (hf : c.file.WarnsOfRepeat definition f) : f.Anchored c.file := by
  obtain ⟨number, first, field, anchor, ⟨before, after, hsplit, -, hfirst⟩, hanchor, rfl⟩ := hf
  have hchild {m : Node} (hm : m ∈ before ++ field :: after) : m ∈ c.file.nodes :=
    SchemaFile.mem_childrenOfKind hn (hsplit ▸ hm)
  refine ⟨SchemaFile.mem_firstChild (hchild (by simp)) hanchor, ?_⟩
  rintro n ⟨⟩
  exact hchild (List.mem_append_left _ (List.mem_of_find?_eq_some hfirst))

theorem reads_fieldNumbers (hs : s ∈ c.file.sites) :
    Reads c.file (c.inArena.checkFieldNumbers s.id) (c.checkFieldNumbers s) := by
  have hn := c.file.node_mem_nodes hs
  have hfields : ∀ p ∈ c.file.numberedFields s.node, p.2 ∈ c.file.nodes := by
    intro p hp
    obtain ⟨field, hfield, hp⟩ := List.mem_filterMap.mp hp
    obtain ⟨number, -, rfl⟩ := Option.map_eq_some_iff.mp hp
    exact SchemaFile.mem_childrenOfKind hn hfield
  have hnumbers : c.file.arena.numberedFields s.id =
      pure ((c.file.numberedFields s.node).map (Prod.map id Node.id)) :=
    SchemaFile.numberedFields_arena hn
  refine ⟨?_, fun f hf => anchored_of_warnsOfRepeat hn
    (SchemaFile.mem_duplicateNumbers_numberedFields.mp hf)⟩
  have hread := duplicateNumbers_arena _ hfields (List.forall_mem_nil _)
  rw [ArenaChecker.checkFieldNumbers, arena_inArena, hnumbers, pure_bind]
  rw [List.map_nil] at hread
  rw [hread]
  rfl

/-! ## All nodes without a breach -/

theorem reads_node [Likeness] (hs : s ∈ c.file.sites) (judged : List Nat) :
    Reads c.file (c.inArena.checkNode judged s.id) (c.checkSite judged s) := by
  have hkind : c.file.arena.kind s.id = pure s.kind :=
    SchemaFile.kind_arena (c.file.node_mem_nodes hs)
  rw [ArenaChecker.checkNode, arena_inArena, hkind, pure_bind, checkSite]
  cases s.kind
  case fieldType => exact reads_fieldType hs
  case command => exact reads_command hs
  case tag => exact reads_tag hs
  case construction => exact reads_construction hs
  case nameRef => exact reads_bareName hs judged
  case type | component => exact reads_fieldNumbers hs
  all_goals exact .none

/-- The run over all nodes, with what was judged on the way. -/
theorem checkNodes_arena [Likeness] {sites : List Site} (h : ∀ s ∈ sites, s ∈ c.file.sites)
    (judged : List Nat) :
    c.inArena.checkNodes judged (sites.map Site.id) =
        pure ((c.checkSites judged sites).map Finding.note) ∧
      ∀ f ∈ c.checkSites judged sites, f.Anchored c.file := by
  induction sites generalizing judged with
  | nil => exact ⟨rfl, List.forall_mem_nil _⟩
  | cons s rest ih =>
    obtain ⟨hs, hrest⟩ := List.forall_mem_cons.mp h
    have hnode := reads_node hs judged
    obtain ⟨hnotes, hanchored⟩ := ih hrest (judged ++ (c.checkSite judged s).judged)
    refine ⟨?_, ?_⟩
    · rw [List.map_cons, ArenaChecker.checkNodes, hnode.notes, pure_bind, Findings.judged_notes,
        hnotes, Findings.reported_notes, checkSites, List.map_append]
      rfl
    · rw [checkSites, List.forall_mem_append]
      exact ⟨hnode.anchored, hanchored⟩

end Checker

/-! ## Reports without a breach -/

/-- Every range in a diagnostic is that of a node of the file, and its lines are
those of that range in the source. -/
structure Diagnostic.AnchoredIn (file : SchemaFile) (d : Diagnostic) : Prop where
  range : ∃ n ∈ file.nodes, d.range = n.span
  lines : d.lines? = some (.ofSpan file.source d.range)
  related : ∀ note ∈ d.related, (∃ n ∈ file.nodes, note.range = n.span) ∧
    note.lines = .ofSpan file.source note.range
  fix : ∀ fix ∈ d.fix?, ∃ n ∈ file.nodes, fix.range = n.span

namespace SchemaFile

variable {file : SchemaFile} {f : Finding}

/-- A finding about nodes of the file is reported as it is from the tree. -/
theorem diagnostic_arena (h : f.Anchored file) :
    file.arena.diagnostic f.note = pure (f.diagnostic file) := by
  have hrelated : (f.earlier?.map Node.id).toList.mapM (fun earlier => do
        let range ← file.arena.span earlier
        return (⟨"first declared here", range, .ofSpan file.source range⟩ : RelatedNote)) =
      pure (f.diagnostic file).related := by
    rw [Option.toList_map]
    refine mapM_map_pure fun n hn => ?_
    rw [span_arena (h.earlier n (Option.mem_toList.mp hn))]
    rfl
  rw [Arena.diagnostic, Finding.note, span_arena h.node, pure_bind]
  dsimp only
  rw [show file.arena.source = file.source from rfl, hrelated]
  rfl

theorem diagnostics_arena {found : List Finding} (h : ∀ f ∈ found, f.Anchored file) :
    (found.map Finding.note).mapM file.arena.diagnostic =
      pure (found.map (·.diagnostic file)) :=
  mapM_map_pure fun f hf => diagnostic_arena (h f hf)

theorem anchoredIn_diagnostic (h : f.Anchored file) : (f.diagnostic file).AnchoredIn file where
  range := ⟨f.node, h.node, rfl⟩
  lines := rfl
  related := by
    intro note hnote
    obtain ⟨n, hn, rfl⟩ := List.mem_map.mp hnote
    exact ⟨⟨n, h.earlier n (Option.mem_toList.mp hn), rfl⟩, rfl⟩
  fix := by
    intro fix hfix
    obtain ⟨replacement, -, rfl⟩ := Option.map_eq_some_iff.mp hfix
    exact ⟨f.node, h.node, rfl⟩

theorem anchored_of_mem_syntaxFindings (hf : f ∈ file.syntaxFindings) : f.Anchored file := by
  obtain ⟨⟨n, fault⟩, hfault, rfl⟩ := List.mem_map.mp hf
  obtain ⟨m, hm, hpair⟩ := List.mem_filterMap.mp hfault
  obtain ⟨_, -, ⟨⟩⟩ := Option.map_eq_some_iff.mp hpair
  exact ⟨hm, fun _ h => absurd h (Option.not_mem_none _)⟩

theorem code_of_finds [Likeness] {c : Checker} {s : Site} (h : c.Finds s f) :
    f.problem.code ≠ .syntaxError := by
  cases h with
  | type _ _ _ hcode =>
    rcases hcode with hcode | ⟨name, found, hproblem⟩
    · rw [hcode]
      decide
    · simp [hproblem, Problem.code]
  | number _ _ hcode | bareName _ _ hcode =>
    rw [hcode]
    decide
  | tag _ _ _ _ h => exact (Checker.code_of_traced h).1
  | construction _ _ _ _ h _ => exact (Checker.code_of_traced h).1

theorem code_of_mem_checkSites [Likeness] {r : Resolver}
    (hf : f ∈ (Checker.mk file r).checkSites [] file.sites) : f.problem.code ≠ .syntaxError := by
  obtain ⟨s, hs, judged, hf⟩ := Checker.exists_of_mem_checkSites hf
  exact code_of_finds (Checker.finds_of_mem_checkSite hs hf)

theorem anchored_of_mem_checkSites [Likeness] {r : Resolver}
    (hf : f ∈ (Checker.mk file r).checkSites [] file.sites) : f.Anchored file :=
  (Checker.checkNodes_arena (c := ⟨file, r⟩) (fun _ hs => hs) []).2 f hf

/-- Everything that is found in a file is about nodes of the file. -/
theorem anchored_of_mem_checkFile [Likeness] {r : Resolver} (hf : f ∈ checkFile file r) :
    f.Anchored file := by
  rcases List.mem_append.mp hf with hf | hf
  · exact anchored_of_mem_syntaxFindings hf
  · exact anchored_of_mem_checkSites hf

theorem check_arena [Likeness] (file : SchemaFile) (r : Resolver) :
    file.arena.check r = pure ((checkFile file r).map (·.diagnostic file)) := by
  have hnodes : file.arena.nodes = pure (file.sites.map Site.id) := by
    rw [nodes_arena, ← file.map_node_sites, List.map_map]
    rfl
  have hchecked := (Checker.checkNodes_arena (c := ⟨file, r⟩) (fun _ hs => hs) []).1
  have hfaults : (file.arena.faults.map fun (id, fault) =>
      (⟨.syntaxFault fault, id, none, none⟩ : Note)) = file.syntaxFindings.map Finding.note := by
    rw [arena, syntaxFindings, List.map_map, List.map_map]
    rfl
  have hreports : ((checkFile file r).map Finding.note).mapM file.arena.diagnostic =
      pure ((checkFile file r).map (·.diagnostic file)) :=
    diagnostics_arena fun f hf => anchored_of_mem_checkFile hf
  rw [checkFile, List.map_append, ← hfaults] at hreports
  rw [Arena.check, hnodes, pure_bind]
  show (do
    let found ← (Checker.inArena ⟨file, r⟩).checkNodes [] (file.sites.map Site.id)
    (_ ++ found).mapM file.arena.diagnostic) = _
  rw [hchecked, pure_bind, hreports, checkFile, List.map_append]

theorem checkValue_arena {value : Site} (hvalue : value ∈ file.sites) (r : Resolver)
    {other : SchemaFile} {type : Site} (htype : type ∈ other.sites) (depth : Nat) :
    file.arena.checkValue r other.arena (depth + 2) value.id type.id =
      pure (((Checker.mk file r).checkValue value other type).reported.map
        (·.diagnostic file)) := by
  have hread := Checker.reads_field (c := ⟨file, r⟩) hvalue htype depth
  rw [Arena.checkValue]
  show (do
    let notes ← (Checker.inArena ⟨file, r⟩).checkField other.arena (depth + 2) value.id type.id
    notes.reported.mapM file.arena.diagnostic) = _
  rw [hread.notes, pure_bind, Findings.reported_notes]
  exact diagnostics_arena hread.anchored

/-- Checking a file comes to no breach and reports what is found at the nodes,
and so does checking a value of the file against a type of any file. The report
is one syntax error for each fault, then others, all of them at nodes of the
file. -/
theorem checking_stays_in_arena [Likeness] (file : SchemaFile) (r : Resolver) :
    file.arena.check r = .ok ((checkFile file r).map (·.diagnostic file)) ∧
      (∀ value ∈ file.sites, ∀ (other : SchemaFile), ∀ type ∈ other.sites, ∀ depth ≥ 2,
        file.arena.checkValue r other.arena depth value.id type.id =
          .ok (((Checker.mk file r).checkValue value other type).reported.map
            (·.diagnostic file))) ∧
      (∃ found, (checkFile file r).map (·.diagnostic file) =
          file.faults.map (fun (n, fault) =>
            ⟨.error, .syntaxError, fault.message, n.span, some (.ofSpan file.source n.span), [],
              none⟩) ++ found ∧
        ∀ d ∈ found, d.code ≠ .syntaxError) ∧
      ∀ d ∈ (checkFile file r).map (·.diagnostic file), d.AnchoredIn file := by
  refine ⟨file.check_arena r, fun value hvalue other type htype depth hdepth => ?_, ?_,
    fun d hd => ?_⟩
  · obtain ⟨more, rfl⟩ := Nat.exists_eq_add_of_le' hdepth
    rw [checkValue_arena hvalue r htype]
    rfl
  · refine ⟨((Checker.mk file r).checkSites [] file.sites).map (·.diagnostic file), ?_,
      fun d hd => ?_⟩
    · rw [checkFile, List.map_append, syntaxFindings, List.map_map]
      rfl
    · obtain ⟨f, hf, rfl⟩ := List.mem_map.mp hd
      exact code_of_mem_checkSites hf
  · obtain ⟨f, hf, rfl⟩ := List.mem_map.mp hd
    exact anchoredIn_diagnostic (anchored_of_mem_checkFile hf)

end SchemaFile

end SchemaLang
