import SchemaLang.Proofs.ArenaNames
import SchemaLang.Proofs.DeclaredTypes
import SchemaLang.Proofs.Provenance

/-!
# Values in arenas

A value is a number in the arena of the checked file, and the declared type it
is checked against a number in the arena of any file. What is found is noted
under the number of the value. Checking goes into the parameters of a type, and
a parameter has no parameters, so it never goes deeper than that.
-/

set_option autoImplicit false

namespace SchemaLang

structure Note where
  problem : Problem
  id : Nat
  earlier? : Option Nat
  replacement? : Option String

structure Notes where
  reported : List Note := []
  judged : List Nat := []

namespace Notes

def none : Notes := {}

def of (problem : Problem) (id : Nat) : Notes := { reported := [⟨problem, id, .none, .none⟩] }

def judge (ids : List Nat) : Notes := { judged := ids }

instance : Append Notes := ⟨fun f g => ⟨f.reported ++ g.reported, f.judged ++ g.judged⟩⟩

def both (first other : Guarded Notes) : Guarded Notes := do
  let notes ← first
  return notes ++ (← other)

def collect {α : Type} (check : α → Guarded Notes) : List α → Guarded Notes
  | [] => pure none
  | x :: xs => both (check x) (collect check xs)

end Notes

structure ArenaType where
  base : String
  parameters : List Nat
  full : String

namespace ArenaType

def of (a : Arena) (id : Nat) : Guarded ArenaType := do
  let full ← a.text id
  if (← a.kind id) = .fieldType then
    let base? ← a.text? (← a.firstChild? id .typeName)
    return ⟨base?.getD full, ← a.childrenOfKind id .typeParameter, full⟩
  else return ⟨full, [], full⟩

def demand (t : ArenaType) : DeclaredType.Demand :=
  match if t.parameters.isEmpty then LiteralForm.ofType? t.base else none with
  | some form => .literal form
  | none =>
    if t.base = "option" then .option
    else if t.base = "list" then .list
    else if t.base = "map" then .map
    else .named

end ArenaType

structure ArenaChecker where
  arena : Arena
  resolver : Resolver

namespace ArenaChecker

variable (c : ArenaChecker)

def resolve? (id : Nat) (name : String) : Guarded (Option Handle) :=
  c.resolver.resolveIn? c.arena id name

def valueText (value : Nat) : Guarded String := Text.trim <$> c.arena.text value

def enumTarget? (value : Nat) (a : Arena) (declared : Nat) (type : ArenaType) :
    Guarded (Option Handle) := do
  let typed ← c.valueText value
  firstOf (c.resolve? value typed) <|
    if typed.toList.contains '.' then pure none
    else c.resolver.resolveIn? a declared (type.base ++ "." ++ typed)

def judgeEnumLiteral (value : Nat) (typed base : String) (enum : Handle) :
    Option Handle → Guarded Notes
  | none => pure (.of (.notAnEnumValue typed base) value)
  | some found => do
    if (← found.kind) = .enumValue then
      if ← found.isChildOf enum then pure .none
      else pure (.of (.foreignEnumValue typed base) value)
    else pure (.of (.notAnEnumValue typed base) value)

def checkEnumLiteral (value : Nat) (a : Arena) (declared : Nat) (type : ArenaType) (enum : Handle) :
    Guarded Notes := do
  let typed ← c.valueText value
  let found? ← c.enumTarget? value a declared type
  Notes.both (pure (.judge [value])) (judgeEnumLiteral value typed type.base enum found?)

def namesDefinition (id : Nat) (name : String) (d : Handle) : Guarded Bool :=
  (·.any (·.same d)) <$> c.resolve? id name

def checkConstructed (value : Nat) (base : String) (target : Handle) : Guarded Notes := do
  match ← c.arena.firstChild? value .constructorName with
  | none => pure .none
  | some name =>
    let text ← c.arena.text name
    if ← c.namesDefinition value text target then pure .none
    else pure (.of (.otherType base text) value)

def checkBare (value : Nat) (typed base : String) (target : Handle) : Guarded Notes := do
  if ← c.namesDefinition value typed target then
    match (← target.orderedFields).length with
    | 0 => pure .none
    | fields + 1 => pure (.of (.argumentCount (fields + 1) 0) value)
  else pure (.of (.otherType base typed) value)

def checkInstance (value : Nat) (type : ArenaType) (target : Handle) : Guarded Notes := do
  let typed ← c.valueText value
  let kind ← c.arena.kind value
  if kind = .construction then c.checkConstructed value type.base target
  else if kind = .nameRef then
    Notes.both (pure (.judge [value])) (c.checkBare value typed type.base target)
  else pure (.of (.otherType type.base typed) value)

def checkNamed (value : Nat) (a : Arena) (declared : Nat) (type : ArenaType) :
    Guarded Notes := do
  match ← c.resolver.resolveIn? a declared type.base with
  | none => pure .none
  | some target =>
    let kind ← target.kind
    if kind = .enum then c.checkEnumLiteral value a declared type target
    else if kind = .type ∨ kind = .component then c.checkInstance value type target
    else pure .none

def checkBracketed (form : Bracketed) (value : Nat) (inner : Guarded Notes) : Guarded Notes := do
  let cs := (← c.valueText value).toList
  if cs.head? ≠ some form.opener then pure (.of (.missingOpener form) value)
  else if cs.getLast? ≠ some form.closer then pure (.of (.missingCloser form) value)
  else inner

def checkEntry (element : Nat → Nat → Guarded Notes) (parameters : List Nat) (entry : Nat) :
    Guarded Notes := do
  match ← c.arena.values entry with
  | [key, value] =>
    match parameters with
    | [keyType, valueType] => Notes.both (element key keyType) (element value valueType)
    | _ => pure .none
  | _ => pure (.of .notAnEntry entry)

def checkAgainst (element : Nat → Nat → Guarded Notes) (value : Nat) (a : Arena) (declared : Nat)
    (type : ArenaType) : Guarded Notes := do
  let typed ← c.valueText value
  if typed = "_" then
    if type.base = "option" then pure .none else pure (.of (.emptyOption type.full) value)
  else
    match type.demand with
    | .literal form =>
      if form.accepts typed then pure .none
      else pure (.of (.notLiteral form.description typed) value)
    | .option =>
      match type.parameters with
      | [] => pure .none
      | inner :: _ => element value inner
    | .list =>
      c.checkBracketed .list value <|
        match type.parameters with
        | [] => pure .none
        | inner :: _ => do Notes.collect (element · inner) (← c.arena.values value)
    | .map =>
      c.checkBracketed .map value do
        Notes.collect (c.checkEntry element type.parameters) (← c.arena.values value)
    | .named => c.checkNamed value a declared type

def checkField (a : Arena) : Nat → Nat → Nat → Guarded Notes
  | 0, _, _ => throw .endless
  | depth + 1, value, declared => do
    c.checkAgainst (checkField a depth) value a declared (← ArenaType.of a declared)

end ArenaChecker

/-! ## Findings as notes -/

def Finding.note (f : Finding) : Note :=
  ⟨f.problem, f.node.id, f.earlier?.map Node.id, f.replacement?⟩

def Findings.notes (f : Findings) : Notes := ⟨f.reported.map Finding.note, f.judged⟩

@[simp] theorem Findings.reported_notes (f : Findings) :
    f.notes.reported = f.reported.map Finding.note := rfl

@[simp] theorem Findings.judged_notes (f : Findings) : f.notes.judged = f.judged := rfl

theorem Findings.notes_append (f g : Findings) : (f ++ g).notes = f.notes ++ g.notes := by
  rw [notes, reported_append, judged_append, List.map_append]
  rfl

structure Finding.Anchored (file : SchemaFile) (f : Finding) : Prop where
  node : f.node ∈ file.nodes
  earlier : ∀ n ∈ f.earlier?, n ∈ file.nodes

/-- Reading makes the notes of these findings, which are about nodes of the file. -/
structure Reads (file : SchemaFile) (read : Guarded Notes) (f : Findings) : Prop where
  notes : read = pure f.notes
  anchored : f.All (·.Anchored file)

namespace Reads

variable {file : SchemaFile} {read other : Guarded Notes} {f g : Findings} {n : Node}

theorem none : Reads file (pure .none) .none := ⟨rfl, Findings.all_none⟩

theorem judge (ids : List Nat) : Reads file (pure (.judge ids)) (.judge ids) :=
  ⟨rfl, Findings.all_judge ids⟩

theorem one {problem : Problem} {replacement? : Option String} (hn : n ∈ file.nodes) :
    Reads file (pure { reported := [⟨problem, n.id, .none, replacement?⟩] })
      { reported := [⟨problem, n, .none, replacement?⟩] } := by
  refine ⟨rfl, fun f hf => ?_⟩
  rw [List.mem_singleton.mp hf]
  exact ⟨hn, fun _ h => absurd h (Option.not_mem_none _)⟩

theorem of {problem : Problem} (hn : n ∈ file.nodes) :
    Reads file (pure (.of problem n.id)) (.of problem n) := one hn

theorem both (hf : Reads file read f) (hg : Reads file other g) :
    Reads file (Notes.both read other) (f ++ g) := by
  refine ⟨?_, Findings.all_append hf.anchored hg.anchored⟩
  rw [hf.notes, hg.notes, Findings.notes_append]
  rfl

theorem collect {α β : Type} {check : β → Guarded Notes} {plain : α → Findings} {i : α → β}
    {xs : List α} (h : ∀ x ∈ xs, Reads file (check (i x)) (plain x)) :
    Reads file (Notes.collect check (xs.map i)) (.all (xs.map plain)) := by
  induction xs with
  | nil => exact none
  | cons x xs ih =>
    obtain ⟨hx, hxs⟩ := List.forall_mem_cons.mp h
    exact both hx (ih hxs)

end Reads

namespace DeclaredType

def inArena (t : DeclaredType) : ArenaType := ⟨t.base, t.parameters.map Site.id, t.text⟩

theorem demand_inArena (t : DeclaredType) : t.inArena.demand = t.demand := by
  obtain ⟨file, site, base, parameters⟩ := t
  cases parameters <;> rfl

@[simp] theorem base_inArena (t : DeclaredType) : t.inArena.base = t.base := rfl

@[simp] theorem full_inArena (t : DeclaredType) : t.inArena.full = t.text := rfl

@[simp] theorem parameters_inArena (t : DeclaredType) :
    t.inArena.parameters = t.parameters.map Site.id := rfl

/-- The type at a node of a file, read in the arena of that file. -/
theorem of_arena {file : SchemaFile} {s : Site} (hs : s ∈ file.sites) :
    ArenaType.of file.arena s.id = pure (of file s).inArena := by
  have hn := file.node_mem_nodes hs
  have hkind : file.arena.kind s.id = pure s.kind := SchemaFile.kind_arena hn
  have htext : file.arena.text s.id = pure (file.text s.node) := SchemaFile.text_arena hn
  rw [ArenaType.of, htext, pure_bind, hkind, pure_bind, of]
  split
  · have hname := SchemaFile.text_firstChild_arena hn .typeName
    have hparameters := SchemaFile.childrenOfKind_arena hn .typeParameter
    rw [SchemaFile.firstChild_arena hn, pure_bind] at hname
    rw [Site.id, SchemaFile.firstChild_arena hn, pure_bind, hname, pure_bind, hparameters,
      pure_bind, inArena, List.map_map]
    cases s.node.firstChild? .typeName <;> rfl
  · rfl

theorem mem_parameters {file : SchemaFile} {s p : Site} (hs : s ∈ file.sites)
    (hp : p ∈ (of file s).parameters) : p ∈ file.sites ∧ (of file p).parameters = [] := by
  rw [of] at hp
  split at hp
  · obtain ⟨n, hn, rfl⟩ := List.mem_map.mp hp
    obtain ⟨hchild, hkind⟩ := List.mem_filter.mp hn
    refine ⟨file.child_mem_sites hs hchild, ?_⟩
    have hkind : (s.child n).kind = .typeParameter := eq_of_beq hkind
    rw [of, if_neg (by rw [hkind]; decide)]
  · cases hp

end DeclaredType

namespace Checker

variable (c : Checker)

def inArena : ArenaChecker := ⟨c.file.arena, c.resolver⟩

@[simp] theorem arena_inArena : c.inArena.arena = c.file.arena := rfl

@[simp] theorem resolver_inArena : c.inArena.resolver = c.resolver := rfl

variable {c} {s value : Site} {type : DeclaredType} {name : String}

theorem resolve_arena (hs : s ∈ c.file.sites) (name : String) :
    c.inArena.resolve? s.id name = pure ((c.resolve? s name).map Definition.handle) :=
  Resolver.resolveIn_arena c.resolver hs name

theorem valueText_arena (hv : value ∈ c.file.sites) :
    c.inArena.valueText value.id = pure (c.valueText value) := by
  have htext : c.file.arena.text value.id = pure (c.text value.node) :=
    SchemaFile.text_arena (c.file.node_mem_nodes hv)
  rw [ArenaChecker.valueText, arena_inArena, htext]
  rfl

/-! ## Names as values -/

theorem owned_enumTarget? (hv : value ∈ c.file.sites) (ht : type.site ∈ type.file.sites)
    {d : Definition} (h : c.enumTarget? value type = some d) : d.Owned := by
  simp only [enumTarget?, Option.orElse_eq_orElse, Option.orElse_eq_or,
    Option.or_eq_some_iff] at h
  rcases h with h | ⟨-, h⟩
  · exact Resolver.owned_of_resolve? hv h
  · split at h
    · cases h
    · exact Resolver.owned_of_resolve? ht h

theorem enumTarget_arena (hv : value ∈ c.file.sites) (ht : type.site ∈ type.file.sites) :
    c.inArena.enumTarget? value.id type.file.arena type.site.id type.inArena =
      pure ((c.enumTarget? value type).map Definition.handle) := by
  have hbare : (if (c.valueText value).toList.contains '.' then pure none
        else c.resolver.resolveIn? type.file.arena type.site.id
          (type.base ++ "." ++ c.valueText value)) =
      pure ((if (c.valueText value).toList.contains '.' then none
        else c.resolver.resolve? type.file type.site
          (type.base ++ "." ++ c.valueText value)).map Definition.handle) := by
    split
    · rfl
    · exact Resolver.resolveIn_arena c.resolver ht _
  rw [ArenaChecker.enumTarget?, valueText_arena hv, pure_bind, resolve_arena hv, resolver_inArena,
    DeclaredType.base_inArena, hbare, firstOf_pure, enumTarget?]

theorem reads_enumLiteral (hv : value ∈ c.file.sites) (ht : type.site ∈ type.file.sites)
    (enum : Definition) :
    Reads c.file
      (c.inArena.checkEnumLiteral value.id type.file.arena type.site.id type.inArena enum.handle)
      (c.checkEnumLiteral value type enum) := by
  have hn := c.file.node_mem_nodes hv
  rw [ArenaChecker.checkEnumLiteral, valueText_arena hv, pure_bind, enumTarget_arena hv ht,
    pure_bind]
  refine (Reads.judge _).both ?_
  cases htarget : c.enumTarget? value type with
  | none => exact .of hn
  | some found =>
    have hfound := owned_enumTarget? hv ht htarget
    rw [Option.map_some, ArenaChecker.judgeEnumLiteral, Definition.kind_handle hfound, pure_bind,
      Definition.isChildOf_handle hfound, pure_bind]
    dsimp only
    split
    · split
      · exact .none
      · exact .of hn
    · exact .of hn

theorem namesDefinition_arena (hs : s ∈ c.file.sites) (name : String) (d : Definition) :
    c.inArena.namesDefinition s.id name d.handle = pure (c.namesDefinition s name d) := by
  rw [ArenaChecker.namesDefinition, resolve_arena hs, namesDefinition]
  cases c.resolve? s name <;> rfl

theorem reads_instance (hv : value ∈ c.file.sites) {target : Definition} (htarget : target.Owned) :
    Reads c.file (c.inArena.checkInstance value.id type.inArena target.handle)
      (c.checkInstance value type target) := by
  have hn := c.file.node_mem_nodes hv
  have hkind : c.file.arena.kind value.id = pure value.kind := SchemaFile.kind_arena hn
  have hname : c.file.arena.firstChild? value.id .constructorName =
      pure ((value.node.firstChild? .constructorName).map Node.id) :=
    SchemaFile.firstChild_arena hn _
  rw [ArenaChecker.checkInstance, valueText_arena hv, pure_bind, arena_inArena, hkind, pure_bind,
    checkInstance]
  split
  · rename_i hconstruction
    simp only [hconstruction]
    rw [ArenaChecker.checkConstructed, arena_inArena, hname, pure_bind]
    cases hfirst : value.node.firstChild? .constructorName with
    | none => exact .none
    | some name =>
      simp only [Option.map_some]
      rw [SchemaFile.text_arena (SchemaFile.mem_firstChild hn hfirst), pure_bind,
        namesDefinition_arena hv, pure_bind, text]
      split
      · exact .none
      · exact .of hn
  split
  · rename_i hbare
    simp only [hbare]
    refine (Reads.judge _).both ?_
    rw [ArenaChecker.checkBare, namesDefinition_arena hv, pure_bind]
    split
    · rw [Definition.orderedFields_handle htarget, pure_bind, List.length_map]
      cases (target.file.orderedFields target.site.node).length with
      | zero => exact .none
      | succ fields => exact .of hn
    · exact .of hn
  · split
    · contradiction
    · contradiction
    · exact .of hn

theorem reads_named (hv : value ∈ c.file.sites) (ht : type.site ∈ type.file.sites) :
    Reads c.file (c.inArena.checkNamed value.id type.file.arena type.site.id type.inArena)
      (c.checkNamed value type) := by
  rw [ArenaChecker.checkNamed, resolver_inArena, Resolver.resolveIn_arena c.resolver ht, pure_bind,
    checkNamed, DeclaredType.base_inArena]
  cases htarget : c.resolver.resolve? type.file type.site type.base with
  | none => exact .none
  | some target =>
    have howned := Resolver.owned_of_resolve? ht htarget
    simp only [Option.map_some]
    rw [Definition.kind_handle howned, pure_bind]
    split
    · rename_i henum
      simp only [henum]
      exact reads_enumLiteral hv ht target
    split
    · rename_i hinstance
      rcases hinstance with hinstance | hinstance <;>
        simp only [hinstance] <;> exact reads_instance hv howned
    · rename_i hinstance
      split
      · contradiction
      · rename_i htype
        exact absurd (.inl htype) hinstance
      · rename_i hcomponent
        exact absurd (.inr hcomponent) hinstance
      · exact .none

/-! ## Values with parts -/

theorem parts_arena (hv : value ∈ c.file.sites) :
    c.file.arena.values value.id = pure ((parts value).map Site.id) := by
  rw [Site.id, SchemaFile.values_arena (c.file.node_mem_nodes hv), parts, List.map_map]
  rfl

theorem mem_parts {part : Site} (hv : value ∈ c.file.sites) (hp : part ∈ parts value) :
    part ∈ c.file.sites := by
  obtain ⟨n, hn, rfl⟩ := List.mem_map.mp hp
  exact c.file.child_mem_sites hv (List.mem_of_mem_filter hn)

theorem reads_bracketed (hv : value ∈ c.file.sites) (form : Bracketed) {inner : Guarded Notes}
    {plain : Findings} (h : Reads c.file inner plain) :
    Reads c.file (c.inArena.checkBracketed form value.id inner)
      (c.checkBracketed form value plain) := by
  have hn := c.file.node_mem_nodes hv
  rw [ArenaChecker.checkBracketed, valueText_arena hv, pure_bind, checkBracketed]
  dsimp only
  split
  · exact .of hn
  · split
    · exact .of hn
    · exact h

section Against

variable {element : Nat → Nat → Guarded Notes} {plain : Site → Site → Findings}
  (helement : ∀ part ∈ c.file.sites, ∀ parameter ∈ type.parameters,
    Reads c.file (element part.id parameter.id) (plain part parameter))
include helement

theorem reads_entry {entry : Site} (he : entry ∈ c.file.sites) :
    Reads c.file (c.inArena.checkEntry element (type.parameters.map Site.id) entry.id)
      (checkEntry plain type.parameters entry) := by
  have hn := c.file.node_mem_nodes he
  rw [ArenaChecker.checkEntry, arena_inArena, parts_arena he, pure_bind, checkEntry]
  have hmem : ∀ part ∈ parts entry, part ∈ c.file.sites := fun part hp => mem_parts he hp
  generalize parts entry = row at hmem
  rcases row with _ | ⟨key, _ | ⟨value, _ | _⟩⟩
  · exact .of hn
  · exact .of hn
  · obtain ⟨hkey, hvalue⟩ := List.forall_mem_cons.mp hmem
    generalize type.parameters = parameters at helement
    rcases parameters with _ | ⟨keyType, _ | ⟨valueType, _ | _⟩⟩
    · exact .none
    · exact .none
    · exact (helement key hkey keyType List.mem_cons_self).both
        (helement value (hvalue value List.mem_cons_self) valueType
          (List.mem_cons_of_mem _ List.mem_cons_self))
    · exact .none
  · exact .of hn

/-- If parts of a value are read without a breach, so is the value. -/
theorem reads_against (hv : value ∈ c.file.sites) (ht : type.site ∈ type.file.sites) :
    Reads c.file
      (c.inArena.checkAgainst element value.id type.file.arena type.site.id type.inArena)
      (c.checkAgainst plain value type) := by
  have hn := c.file.node_mem_nodes hv
  rw [ArenaChecker.checkAgainst, valueText_arena hv, pure_bind, checkAgainst,
    DeclaredType.demand_inArena, DeclaredType.base_inArena, DeclaredType.full_inArena,
    DeclaredType.parameters_inArena]
  split
  · split
    · exact .none
    · exact .of hn
  cases type.demand with
  | literal form =>
    dsimp only
    split
    · exact .none
    · exact .of hn
  | option =>
    cases hparameters : type.parameters with
    | nil => exact .none
    | cons inner _ => exact helement value hv inner (hparameters ▸ List.mem_cons_self)
  | list =>
    refine reads_bracketed hv .list ?_
    cases hparameters : type.parameters with
    | nil => exact .none
    | cons inner _ =>
      have hinner : inner ∈ type.parameters := hparameters ▸ List.mem_cons_self
      simp only [List.map_cons]
      rw [arena_inArena, parts_arena hv, pure_bind]
      exact .collect fun part hpart => helement part (mem_parts hv hpart) inner hinner
  | map =>
    refine reads_bracketed hv .map ?_
    rw [arena_inArena, parts_arena hv, pure_bind]
    exact .collect fun entry hentry => reads_entry helement (mem_parts hv hentry)
  | named => exact reads_named hv ht

end Against

/-- Checking a value ends two calls deep, whatever the type and the file it is declared in. -/
theorem reads_field (hv : value ∈ c.file.sites) {file : SchemaFile} {declared : Site}
    (hd : declared ∈ file.sites) (depth : Nat) :
    Reads c.file (c.inArena.checkField file.arena (depth + 2) value.id declared.id)
      (c.checkValue value file declared) := by
  -- One call, given what the calls for the parameters read.
  have hcall {element : Nat → Nat → Guarded Notes} {plain : Site → Site → Findings} {value s : Site}
      (hv : value ∈ c.file.sites) (hs : s ∈ file.sites)
      (helement : ∀ part ∈ c.file.sites, ∀ parameter ∈ (DeclaredType.of file s).parameters,
        Reads c.file (element part.id parameter.id) (plain part parameter)) :
      Reads c.file
        (do
          let type ← ArenaType.of file.arena s.id
          c.inArena.checkAgainst element value.id file.arena s.id type)
        (c.checkAgainst plain value (.of file s)) := by
    have hagainst := reads_against helement hv
      (by rwa [DeclaredType.site_of, DeclaredType.file_of])
    rw [DeclaredType.site_of, DeclaredType.file_of] at hagainst
    rwa [DeclaredType.of_arena hs, pure_bind]
  refine hcall hv hd fun part hpart parameter hparameter => ?_
  obtain ⟨hmem, hnone⟩ := DeclaredType.mem_parameters hd hparameter
  refine hcall hpart hmem fun _ _ inner hinner => ?_
  rw [hnone] at hinner
  cases hinner

end Checker

end SchemaLang
