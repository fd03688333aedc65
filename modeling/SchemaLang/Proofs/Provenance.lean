import SchemaLang.Proofs.Parts
import SchemaLang.Proofs.RepeatedNumbers

/-!
# Where findings come from

A value is judged only where all arguments around it are whole. What is found
then is about the value or one of its parts, and never about how its brackets
close or how its entries are made: of whole values both are as they should be.
Besides, a tag or a construction has a name that may stand for nothing, and an
incomplete one is looked at for no more than that.
-/

set_option autoImplicit false

namespace SchemaLang

/-! ## Findings of one sort -/

namespace Findings

def All (P : Finding → Prop) (fs : Findings) : Prop := ∀ f ∈ fs.reported, P f

variable {P Q : Finding → Prop} {fs gs : Findings}

theorem All.mono (h : fs.All P) (hPQ : ∀ f, P f → Q f) : fs.All Q := fun f hf => hPQ f (h f hf)

theorem all_none : Findings.none.All P := by simp [All, none]

theorem all_judge (ids : List Nat) : (judge ids).All P := by simp [All, judge]

theorem all_of {problem : Problem} {n : Node} (h : P ⟨problem, n, .none, .none⟩) :
    (of problem n).All P := by simpa [All, of] using h

theorem all_append (hf : fs.All P) (hg : gs.All P) : (fs ++ gs).All P := by
  simpa [All, or_imp, forall_and] using ⟨hf, hg⟩

theorem all_map {α : Type} {xs : List α} {check : α → Findings} (h : ∀ x ∈ xs, (check x).All P) :
    (all (xs.map check)).All P := by
  intro f hf
  rw [reported_all, List.flatMap_map, List.mem_flatMap] at hf
  obtain ⟨x, hx, hf⟩ := hf
  exact h x hx f hf

end Findings

def Problem.isMatching : Problem → Bool
  | notInstantiable _ _ | argumentCount _ _ | misnamedArgument _ _ | emptyOption _ | notLiteral _ _
  | missingOpener _ | foreignEnumValue _ _ | notAnEnumValue _ _ | otherType _ _ => true
  | _ => false

theorem Problem.code_of_isMatching {problem : Problem} (h : problem.isMatching = true) :
    problem.code = .typeMismatch ∨ problem.code = .arityMismatch ∨
      problem.code = .nameMismatch := by
  cases problem <;> first | cases h; done | simp [code]

theorem Problem.severity_of_code {problem : Problem} (h : problem.code ≠ .duplicateFieldNumber) :
    problem.severity = .error := by
  cases problem <;> first | rfl | exact absurd rfl h

structure Finding.Concerns (f : Finding) (n : Node) : Prop where
  node : f.node ∈ n.descendants
  problem : f.problem.isMatching = true

theorem Finding.Concerns.of_child {f : Finding} {n c : Node} (h : f.Concerns c)
    (hc : c ∈ n.children) : f.Concerns n :=
  ⟨List.mem_cons_of_mem _ (Node.mem_preorder_iff.mpr ⟨c, hc, List.mem_cons.mp h.node⟩),
    h.problem⟩

namespace Checker

open Findings

variable (c : Checker)

theorem concerns_self {problem : Problem} {n : Node} (h : problem.isMatching = true) :
    (Findings.of problem n).All (·.Concerns n) := all_of ⟨List.mem_cons_self, h⟩

/-! ## Values -/

section Values

variable {c} {value : Site}

theorem concerns_enumLiteral (type : DeclaredType) (enum : Definition) :
    (c.checkEnumLiteral value type enum).All (·.Concerns value.node) := by
  refine all_append (all_judge _) ?_
  split
  · split
    · split
      · exact all_none
      · exact concerns_self rfl
    · exact concerns_self rfl
  · exact concerns_self rfl

theorem concerns_instance (type : DeclaredType) (target : Definition) :
    (c.checkInstance value type target).All (·.Concerns value.node) := by
  rw [checkInstance]
  split
  · split
    · exact all_none
    · split
      · exact all_none
      · exact concerns_self rfl
  · refine all_append (all_judge _) ?_
    split
    · split
      · exact all_none
      · exact concerns_self rfl
    · exact concerns_self rfl
  · exact concerns_self rfl

theorem concerns_named (type : DeclaredType) :
    (c.checkNamed value type).All (·.Concerns value.node) := by
  rw [checkNamed]
  split
  · exact all_none
  · split
    · exact concerns_enumLiteral type _
    · exact concerns_instance type _
    · exact concerns_instance type _
    · exact all_none

/-- Of a whole value that begins with an opening bracket the closing one is never missed. -/
theorem concerns_bracketed (h : WholeValue c.file value) (form : Bracketed) {inner : Findings}
    (hinner : value.kind = form.node → inner.All (·.Concerns value.node)) :
    (c.checkBracketed form value inner).All (·.Concerns value.node) := by
  rw [checkBracketed]
  split
  · exact concerns_self rfl
  · rename_i hopener
    obtain ⟨hkind, hcloser⟩ := h.bracketed (not_ne_iff.mp hopener)
    split
    · rename_i hmissing
      exact absurd hcloser hmissing
    · exact hinner hkind

/-- How a part of a value is checked against a parameter. -/
theorem concerns_against {element : Site → Site → Findings}
    (helement : ∀ part parameter, WholeValue c.file part →
      (element part parameter).All (·.Concerns part.node))
    (h : WholeValue c.file value) (type : DeclaredType) :
    (c.checkAgainst element value type).All (·.Concerns value.node) := by
  rw [checkAgainst]
  split
  · split
    · exact all_none
    · exact concerns_self rfl
  split
  · split
    · exact all_none
    · exact concerns_self rfl
  · split
    · exact all_none
    · exact helement _ _ h
  · refine concerns_bracketed h .list fun hkind => ?_
    split
    · exact all_none
    · refine all_map fun part hpart => ?_
      have hwhole := wholeValue_of_mem_parts h.site h.intact (.inl hkind) part hpart
      rw [parts_eq_children h.mem h.intact] at hpart
      obtain ⟨n, hn, rfl⟩ := List.mem_map.mp hpart
      exact (helement _ _ hwhole).mono fun f hf => hf.of_child hn
  · refine concerns_bracketed h .map fun hkind => all_map fun entry hentry => ?_
    obtain ⟨-, key, part, hparts, hkey, hpart, hkeyIn, hpartIn⟩ :=
      parts_of_mem_entries h hkind entry hentry
    rw [parts_eq_children h.mem h.intact] at hentry
    obtain ⟨n, hn, rfl⟩ := List.mem_map.mp hentry
    rw [checkEntry, hparts]
    dsimp only
    split
    · exact all_append ((helement _ _ hkey).mono fun f hf => (hf.of_child hkeyIn).of_child hn)
        ((helement _ _ hpart).mono fun f hf => (hf.of_child hpartIn).of_child hn)
    · exact all_none
  · exact concerns_named type

theorem concerns_value (h : WholeValue c.file value) (file : SchemaFile) (type : Site) :
    (c.checkValue value file type).All (·.Concerns value.node) :=
  concerns_against (fun _ _ hpart => concerns_against (fun _ _ _ => all_none) hpart _) h _

theorem concerns_forField (h : WholeValue c.file value) (target : Definition) (field : Node) :
    (c.checkForField target field value).All (·.Concerns value.node) := by
  rw [checkForField]
  split
  · exact all_none
  · exact concerns_value h _ _

end Values

/-! ## Tags and constructions -/

section Targets

variable {c} {s : Site}

theorem head?_childSites (s : Site) (kind : NodeKind) :
    (childSites s kind).head? = ((s.node.childrenOfKind kind).head?).map s.child := by
  rw [childSites, List.head?_map]

/-- What is found at a tag or construction: that its name stands for nothing, or
when nothing inside it was cut short the number of its arguments, or something
about its name or an argument. -/
def Traced [Likeness] (c : Checker) (n name : Node) (target? : Option Definition) (f : Finding) :
    Prop :=
  f ∈ (c.checkTargetExists name target?).reported ∨
    n.Intact ∧ ((f.node = n ∧ f.problem.code = .arityMismatch) ∨ ∃ m ∈ n.children, f.Concerns m)

theorem code_of_targetExists [Likeness] {name : Node} {target? : Option Definition}
    {f : Finding} (hf : f ∈ (c.checkTargetExists name target?).reported) :
    f.node = name ∧ f.problem.code = .unresolvedReference := by
  rw [checkTargetExists] at hf
  split at hf
  · rw [List.mem_singleton.mp hf]
    exact ⟨rfl, rfl⟩
  · cases hf

theorem code_of_traced [Likeness] {n name : Node} {target? : Option Definition} {f : Finding}
    (h : c.Traced n name target? f) :
    f.problem.code ≠ .syntaxError ∧ f.problem.code ≠ .duplicateFieldNumber := by
  rcases h with h | ⟨-, ⟨-, hcode⟩ | ⟨m, -, hconcerns⟩⟩
  · rw [(code_of_targetExists h).2]
    decide
  · rw [hcode]
    decide
  · rcases Problem.code_of_isMatching hconcerns.problem with h | h | h <;> rw [h] <;> decide

theorem traced_unmatched [Likeness] (n name : Node) (target? : Option Definition) :
    (c.checkUnmatched n name target?).All (c.Traced n name target?) := by
  refine all_append (fun f hf => .inl hf) ?_
  split
  · exact all_judge _
  · exact all_none

theorem traced_withFields [Likeness] {n name : Node} (hn : n.Intact) (hname : name ∈ n.children)
    (target? : Option Definition) {check : Definition → List Node → Findings}
    (h : ∀ target fields, (check target fields).All fun f =>
      (f.node = n ∧ f.problem.code = .arityMismatch) ∨ ∃ m ∈ n.children, f.Concerns m) :
    (c.withFields name target? check).All (c.Traced n name target?) := by
  cases target? with
  | none => exact fun f hf => .inl hf
  | some target =>
    rw [withFields.eq_def]
    dsimp only
    split
    · exact (h _ _).mono fun f hf => .inr ⟨hn, hf⟩
    · exact (concerns_self rfl).mono fun f hf => .inr ⟨hn, .inr ⟨name, hname, hf⟩⟩

/-- The arguments of a whole construct with its arguments in a list. -/
theorem traced_positional [Likeness] (hs : s ∈ c.file.sites) (h : s.node.Intact)
    {name arguments : Node} (hname : name ∈ s.node.children) (target? : Option Definition)
    (harguments : arguments ∈ s.node.children) (hintact : arguments.Intact)
    (hkind : arguments.kind = .arguments) :
    (c.checkPositional s name target? (s.child arguments)).All (c.Traced s.node name target?) := by
  refine traced_withFields h hname target? fun target fields => ?_
  dsimp only
  split
  · refine all_map fun ⟨value, field⟩ hpair => ?_
    have hsite := c.file.child_mem_sites hs harguments
    have hvalue := (List.of_mem_zip hpair).1
    have hwhole := wholeValue_of_mem_parts hsite hintact (.inr (.inl hkind)) value hvalue
    obtain ⟨n, hn, rfl⟩ := List.mem_map.mp hvalue
    exact (concerns_forField hwhole target field).mono fun f hf =>
      .inr ⟨arguments, harguments, hf.of_child (List.mem_of_mem_filter hn)⟩
  · exact all_append (all_of (.inl ⟨rfl, rfl⟩)) (all_judge _)

/-- The value of a whole named argument is the other one of its two children. -/
theorem namedValue?_of_intact (hs : s ∈ c.file.sites) (h : s.node.Intact)
    (hkind : s.kind = .namedArgument) : ∃ name value, s.node.children = [name, value] ∧
      name.kind = .fieldRef ∧ s.node.firstChild? .fieldRef = some name ∧
      WholeValue c.file (s.child value) ∧ namedValue? s name = some (s.child value) := by
  have hn := c.file.mem_of_kind_ne (c.file.node_mem_nodes hs) fun hroot => by
    rw [Site.kind, hroot] at hkind
    cases hkind
  obtain ⟨name, value, hchildren, hname, hintact, hvalue⟩ :=
    c.file.namedArgument_children hn h hkind
  have hin : value ∈ s.node.children := by simp [hchildren]
  have hne : name ≠ value := fun heq => by
    rw [← heq, hname] at hvalue
    cases hvalue
  have hid : value.id ≠ name.id := fun hid => by
    have hmem {m : Node} (hm : m ∈ s.node.children) : m ∈ c.file.nodes :=
      List.mem_cons_of_mem _ (c.file.mem_of_mem_children (c.file.node_mem_nodes hs) hm)
    exact hne (c.file.eq_of_id_eq (hmem (by simp [hchildren])) (hmem hin) hid.symm)
  refine ⟨name, value, hchildren, hname, by simp [Node.firstChild?, hchildren, hname],
    ⟨c.file.child_mem_sites hs hin, hintact, hvalue⟩, ?_⟩
  rw [namedValue?, parts_eq_children hn h, Site.children, hchildren]
  simp [Site.id, Site.child, hid]

theorem traced_namedArguments [Likeness] (hs : s ∈ c.file.sites) (h : s.node.Intact) {name : Node}
    (hname : name ∈ s.node.children) (target? : Option Definition)
    (hmem : s.node ∈ c.file.root.inside.preorder) :
    (c.checkNamedArguments s name target? (childSites s .namedArgument)).All
      (c.Traced s.node name target?) := by
  refine traced_withFields h hname target? fun target fields => ?_
  dsimp only
  split
  · refine all_map fun ⟨argument, field⟩ hpair => ?_
    obtain ⟨a, ha, rfl⟩ := List.mem_map.mp (List.of_mem_zip hpair).1
    obtain ⟨hchild, hkind⟩ := List.mem_filter.mp ha
    have hintact := (c.file.intact_of_mem_children hmem h hchild).1
    obtain ⟨ref, value, hchildren, -, href, hvalue, hfound⟩ :=
      namedValue?_of_intact (c.file.child_mem_sites hs hchild) hintact (beq_iff_eq.mp hkind)
    rw [checkNamedArgument, href]
    dsimp only
    rw [hfound]
    refine all_append ?_ ((concerns_forField hvalue target field).mono fun f hf =>
      .inr ⟨a, hchild, hf.of_child
        (show value ∈ (s.child a).node.children by simp [hchildren])⟩)
    split
    · exact all_none
    · intro f hf
      rw [List.mem_singleton.mp hf]
      have hnaming : Finding.Concerns ⟨.misnamedArgument (c.text ref)
          ((target.file.fieldName? field).getD ""), ref, .none,
          some ((target.file.fieldName? field).getD "")⟩ ref := ⟨List.mem_cons_self, rfl⟩
      exact .inr ⟨a, hchild, hnaming.of_child
        (show ref ∈ (s.child a).node.children by simp [hchildren])⟩
  · exact all_append (all_of (.inl ⟨rfl, rfl⟩)) (all_map fun _ _ => all_judge _)

theorem mem_inside_root (hs : s ∈ c.file.sites) (hkind : s.kind ≠ .schemaFile) :
    s.node ∈ c.file.root.inside.preorder :=
  c.file.mem_of_kind_ne (c.file.node_mem_nodes hs) hkind

theorem traced_tag [Likeness] (hs : s ∈ c.file.sites) (hkind : s.kind = .tag) {name : Node}
    {rest : List Node} (hchildren : s.node.children = name :: rest) (hname : name.kind = .typeRef) :
    (c.checkTag s).All (c.Traced s.node name (c.resolve? s (c.text name))) := by
  have hmem := mem_inside_root hs (by simp [hkind])
  have hin : name ∈ s.node.children := by simp [hchildren]
  have hhead : s.node.children.head?.filter (fun n => decide (n.kind = .typeRef)) = some name := by
    simp [hchildren, hname]
  rw [checkTag, hhead, head?_childSites]
  dsimp only
  split
  · exact traced_unmatched _ _ _
  rename_i hwhole
  simp only [Bool.or_eq_true, not_or, Bool.not_eq_true] at hwhole
  obtain ⟨⟨hcomplete, hpositional⟩, hnamed⟩ := hwhole
  have hintact : s.node.Intact := by
    refine c.file.intact_of_tag hmem hkind hcomplete (fun a ha => ?_) fun a ha => ?_
    · rw [ha] at hpositional
      exact hpositional
    · exact (Bool.not_eq_true _).mp
        (List.any_eq_false.mp hnamed (s.child a) (List.mem_map_of_mem ha))
  split
  · rename_i arguments harguments
    obtain ⟨a, ha, rfl⟩ := Option.map_eq_some_iff.mp harguments
    obtain ⟨hchild, hkindA⟩ := List.mem_filter.mp (List.mem_of_head? ha)
    exact traced_positional hs hintact hin _ hchild
      (c.file.intact_of_mem_children hmem hintact hchild).1 (beq_iff_eq.mp hkindA)
  · exact traced_unmatched _ _ _
  · exact traced_namedArguments hs hintact hin _ hmem

theorem checkTag_of_nil [Likeness] (hnil : s.node.children = []) : c.checkTag s = .none := by
  rw [checkTag, hnil]
  rfl

theorem traced_construction [Likeness] (hs : s ∈ c.file.sites) (hkind : s.kind = .construction)
    {name : Node} (hname : s.node.firstChild? .constructorName = some name) :
    (c.checkConstruction s).All (c.Traced s.node name (c.resolve? s (c.text name))) := by
  have hmem := mem_inside_root hs (by simp [hkind])
  have hin := List.mem_of_find?_eq_some hname
  rw [checkConstruction, hname, head?_childSites]
  dsimp only
  split
  · rename_i arguments harguments
    obtain ⟨a, ha, rfl⟩ := Option.map_eq_some_iff.mp harguments
    obtain ⟨hchild, hkindA⟩ := List.mem_filter.mp (List.mem_of_head? ha)
    split
    · exact traced_unmatched _ _ _
    rename_i hwhole
    simp only [Bool.or_eq_true, not_or, Bool.not_eq_true] at hwhole
    have hintact : s.node.Intact := by
      refine c.file.intact_of_construction hmem hkind hwhole.1 fun b hb => ?_
      rw [ha] at hb
      obtain rfl := Option.some.inj hb
      exact hwhole.2
    exact traced_positional hs hintact hin _ hchild
      (c.file.intact_of_mem_children hmem hintact hchild).1 (beq_iff_eq.mp hkindA)
  · exact traced_unmatched _ _ _

end Targets

/-! ## Places -/

section Places

variable {c} {s : Site}

variable [Likeness]

/-- A name that has to stand for a type is reported itself, if at all. -/
theorem node_of_typeName (s : Site) : (c.checkTypeName s).All fun f => f.node = s.node ∧
    (f.problem.code = .unresolvedReference ∨ ∃ name found, f.problem = .notAType name found) := by
  rw [checkTypeName]
  split
  · exact all_none
  · split
    · split
      · exact all_none
      · exact all_of ⟨rfl, .inr ⟨_, _, rfl⟩⟩
    · split
      · exact all_none
      · intro f hf
        rw [List.mem_singleton.mp hf]
        exact ⟨rfl, .inl rfl⟩

theorem node_of_fieldType (s : Site) :
    (c.checkFieldType s).All fun f => f.node ∈ s.node.children ∧
      (f.problem.code = .unresolvedReference ∨ ∃ name found, f.problem = .notAType name found) := by
  rw [checkFieldType]
  split
  · exact all_none
  · rename_i head parameters hchildren
    have hpart {t : Site} (ht : t ∈ head :: parameters) : (c.checkTypeName t).All fun f =>
        f.node ∈ s.node.children ∧
          (f.problem.code = .unresolvedReference ∨
            ∃ name found, f.problem = .notAType name found) := by
      rw [← hchildren] at ht
      obtain ⟨n, hn, rfl⟩ := List.mem_map.mp ht
      exact (node_of_typeName _).mono fun f hf => ⟨by rw [hf.1]; exact hn, hf.2⟩
    refine all_append (hpart List.mem_cons_self) ?_
    split
    · exact all_map fun t ht => hpart (List.mem_cons_of_mem _ ht)
    · exact all_none

theorem node_of_command (s : Site) :
    (c.checkCommand s).All fun f => f.node ∈ s.node.childrenOfKind .typeRef ∧
      (f.problem.code = .unresolvedReference ∨ ∃ name found, f.problem = .notAType name found) := by
  refine all_map fun t ht => ?_
  obtain ⟨n, hn, rfl⟩ := List.mem_map.mp ht
  exact (node_of_typeName _).mono fun f hf => ⟨by rw [hf.1]; exact hn, hf.2⟩

theorem node_of_bareName (judged : List Nat) (s : Site) :
    (c.checkBareName judged s).All fun f => f.node = s.node ∧
      f.problem.code = .unresolvedReference := by
  rw [checkBareName]
  split
  · exact all_none
  · split
    · intro f hf
      rw [List.mem_singleton.mp hf]
      exact ⟨rfl, rfl⟩
    · exact all_none

omit [Likeness] in
/-- A number that was used before is reported at the number. -/
theorem node_of_fieldNumbers (s : Site) :
    (c.checkFieldNumbers s).All fun f => (f.node.kind = .field ∨ f.node.kind = .fieldNumber) ∧
      f.problem.code = .duplicateFieldNumber := by
  intro f hf
  obtain ⟨number, first, field, anchor, -, hanchor, rfl⟩ :=
    SchemaFile.mem_duplicateNumbers_numberedFields.mp hf
  have hkind := List.find?_some hanchor
  exact ⟨.inr (eq_of_beq hkind), rfl⟩

theorem exists_of_mem_checkSites {judged : List Nat} {sites : List Site} {f : Finding}
    (hf : f ∈ c.checkSites judged sites) :
    ∃ t ∈ sites, ∃ judged', f ∈ (c.checkSite judged' t).reported := by
  induction sites generalizing judged with
  | nil => cases hf
  | cons t rest ih =>
    rcases List.mem_append.mp hf with hf | hf
    · exact ⟨t, List.mem_cons_self, judged, hf⟩
    · obtain ⟨u, hu, found⟩ := ih hf
      exact ⟨u, List.mem_cons_of_mem _ hu, found⟩

theorem exists_judged (judged : List Nat) {sites : List Site} {t : Site} (ht : t ∈ sites) :
    ∃ judged', (c.checkSite judged' t).reported ⊆ c.checkSites judged sites := by
  induction sites generalizing judged with
  | nil => cases ht
  | cons u rest ih =>
    rcases List.mem_cons.mp ht with rfl | ht
    · exact ⟨judged, List.subset_append_left _ _⟩
    · obtain ⟨judged', h⟩ := ih (judged ++ (c.checkSite judged u).judged) ht
      exact ⟨judged', fun f hf => List.mem_append_right _ (h hf)⟩

inductive Finds (c : Checker) (t : Site) (f : Finding) : Prop where
  | type (hkind : t.kind = .fieldType ∨ t.kind = .command) (hnode : f.node ∈ t.node.children)
      (hname : t.kind = .command → f.node.kind = .typeRef)
      (hcode : f.problem.code = .unresolvedReference ∨
        ∃ name found, f.problem = .notAType name found)
  | number (hkind : t.kind = .type ∨ t.kind = .component)
      (hnode : f.node.kind = .field ∨ f.node.kind = .fieldNumber)
      (hcode : f.problem.code = .duplicateFieldNumber)
  | bareName (hkind : t.kind = .nameRef) (hnode : f.node = t.node)
      (hcode : f.problem.code = .unresolvedReference)
  | tag (hkind : t.kind = .tag) (name : Node) (hname : name ∈ t.node.children)
      (href : name.kind = .typeRef) (h : c.Traced t.node name (c.resolve? t (c.text name)) f)
  | construction (hkind : t.kind = .construction) (name : Node) (hname : name ∈ t.node.children)
      (hconstructor : name.kind = .constructorName)
      (h : c.Traced t.node name (c.resolve? t (c.text name)) f)
      (hf : f ∈ (c.checkConstruction t).reported)

theorem finds_of_mem_checkSite {judged : List Nat} {t : Site} (ht : t ∈ c.file.sites)
    {f : Finding} (hf : f ∈ (c.checkSite judged t).reported) : c.Finds t f := by
  rw [checkSite] at hf
  split at hf
  · rename_i hkind
    obtain ⟨hnode, hcode⟩ := node_of_fieldType t f hf
    exact .type (.inl hkind) hnode (fun h => by rw [hkind] at h; cases h) hcode
  · rename_i hkind
    obtain ⟨hnode, hcode⟩ := node_of_command t f hf
    obtain ⟨hchild, href⟩ := List.mem_filter.mp hnode
    exact .type (.inr hkind) hchild (fun _ => eq_of_beq href) hcode
  · rename_i hkind
    have hmem := mem_inside_root ht (by simp [hkind])
    rcases c.file.tag_children hmem hkind with ⟨-, hnil⟩ | ⟨name, rest, hchildren, hname, -⟩
    · rw [checkTag_of_nil hnil] at hf
      cases hf
    · exact .tag hkind name (by simp [hchildren]) hname (traced_tag ht hkind hchildren hname f hf)
  · rename_i hkind
    have hmem := mem_inside_root ht (by simp [hkind])
    obtain ⟨name, arguments, behind, hchildren, hname, -⟩ :=
      c.file.construction_children hmem hkind
    exact .construction hkind name (by simp [hchildren]) hname
      (traced_construction ht hkind (by simp [Node.firstChild?, hchildren, hname]) f hf) hf
  · rename_i hkind
    obtain ⟨hnode, hcode⟩ := node_of_bareName judged t f hf
    exact .bareName hkind hnode hcode
  · rename_i hkind
    obtain ⟨hnode, hcode⟩ := node_of_fieldNumbers t f hf
    exact .number (.inl hkind) hnode hcode
  · rename_i hkind
    obtain ⟨hnode, hcode⟩ := node_of_fieldNumbers t f hf
    exact .number (.inr hkind) hnode hcode
  · cases hf

end Places

end Checker

/-- Every finding is a syntax fault or has its origin at a place of the file. -/
theorem mem_checkFile [Likeness] {file : SchemaFile} {r : Resolver} {f : Finding}
    (hf : f ∈ checkFile file r) :
    (∃ fault, f.problem = .syntaxFault fault) ∨
      ∃ t ∈ file.sites, (Checker.mk file r).Finds t f := by
  rcases List.mem_append.mp hf with hf | hf
  · obtain ⟨⟨n, fault⟩, -, rfl⟩ := List.mem_map.mp hf
    exact .inl ⟨fault, rfl⟩
  · obtain ⟨t, ht, judged, hf⟩ := Checker.exists_of_mem_checkSites hf
    exact .inr ⟨t, ht, Checker.finds_of_mem_checkSite (c := ⟨file, r⟩) ht hf⟩

end SchemaLang
