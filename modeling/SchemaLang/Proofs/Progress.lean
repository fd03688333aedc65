import SchemaLang.Proofs.Blame
import SchemaLang.Proofs.Contents
import SchemaLang.Proofs.Filled
import SchemaLang.Proofs.Lookahead

/-!
# Loops move on by themselves

A member of a file or of a body takes a lexeme whenever it applies, so the
lexeme that a loop would skip for an idle member is never skipped, and no fault
says that a lexeme was unexpected. The loops over parameters, arguments and
elements have no such guard: each of their turns takes the comma in front of it.
-/

set_option autoImplicit false

namespace SchemaLang

open SchemaLang.Parser SchemaLang.Parse Step

/-! ## Members that apply take something -/

def MovesOn (member : Parser Bool) : Prop :=
  ∀ s, (member.run s).value = true → (member.run s).rest.length < s.length

theorem rest_length_lt {α : Type} {p : Parser α} {s : List Lexeme}
    (h : (p.run s).built.leaves ≠ []) : (p.run s).rest.length < s.length := by
  have hlength := congrArg List.length (p.lossless s)
  have hpos := List.length_pos_iff.mpr h
  rw [List.length_append] at hlength
  omega

/-- A statement that builds no empty construct takes something. -/
theorem moves_of_fills {P : List Lexeme → Prop} {kind : NodeKind} {body : Step Unit}
    (h : Fills P (statement kind body)) : Moves P (statement kind body) := by
  intro s hs
  obtain ⟨_, _, hrow⟩ := exists_built_statement kind body s
  have hfilled := h s hs
  rw [hrow] at hfilled ⊢
  exact List.append_ne_nil_of_left_ne_nil hfilled.1 _

theorem moves_skip {P : List Lexeme → Prop} {extent : List Lexeme → Nat}
    (h : ∀ s, P s → s ≠ [] ∧ 0 < extent s) (fault : Fault) : Moves P (skip fault extent) := by
  intro s hs
  obtain ⟨hne, hpos⟩ := h s hs
  rw [run_skip]
  simpa [Forest.leaves, List.take_eq_nil_iff, hne] using Nat.ne_of_gt hpos

theorem extent_topLevel_pos {s : List Lexeme} (hs : s ≠ []) : 0 < Recovery.topLevel.extent s := by
  cases s with
  | nil => exact absurd rfl hs
  | cons t s =>
    rw [Recovery.extent]
    split
    · exact Nat.one_pos
    · exact Nat.succ_pos _

theorem balancedExtent_pos_of_word {word : String} {s : List Lexeme}
    (hs : startsWord word s = true) : 0 < balancedExtent 0 s := by
  cases s with
  | nil => cases hs
  | cons t s =>
    have ht : t.kind = .identifier := by
      simp only [startsWord, Lexeme.isWord, Bool.and_eq_true, beq_iff_eq] at hs
      exact hs.1
    simp only [balancedExtent, ht]
    exact Nat.succ_pos _

theorem present_lt {P : List Lexeme → Prop} {p : Parser Unit} (h : Moves P p) {s : List Lexeme}
    (hs : P s) : ((present p).run s).rest.length < s.length := by
  refine rest_length_lt ?_
  rw [built_present]
  exact h s hs

theorem moves_discard {P : List Lexeme → Prop}
    (h : ∀ s, P s → s ≠ [] ∧ 0 < balancedExtent 0 s) : Moves P (discard tooDeep) :=
  fun s hs => moves_skip h .tooDeep s hs

theorem balancedExtent_of_word {word : String} (s : List Lexeme)
    (hs : startsWord word s = true) : s ≠ [] ∧ 0 < balancedExtent 0 s :=
  ⟨ahead_of_startsWord hs, balancedExtent_pos_of_word hs⟩

/-- Even where there is no room for a definition, its keyword is skipped. -/
theorem moves_nested {kind : NodeKind} {word w : String} {member : Nat → Parser Bool}
    (h : ∀ room, Fills Ahead (block kind w (member room))) (room : Nat) :
    Moves (fun s => startsWord word s = true)
      (nested (fun room => block kind w (member room)) room) := by
  cases room with
  | zero => exact moves_discard balancedExtent_of_word
  | succ room => exact (moves_of_fills (h room)).mono fun _ => ahead_of_startsWord

theorem moves_typeDefinition (word : String) (room : Nat) :
    Moves (fun s => startsWord word s = true) (typeDefinition room) := by
  cases room with
  | zero => exact moves_discard balancedExtent_of_word
  | succ room =>
    have h : Fills Ahead (block .type "type" (typeMember room (typeDefinition room))) :=
      fills_typeDefinition (room + 1)
    exact (moves_of_fills h).mono fun _ => ahead_of_startsWord

theorem moves_enumDefinition (word : String) (room : Nat) :
    Moves (fun s => startsWord word s = true) (enumDefinition room) :=
  moves_nested (fun room => fills_block _ _ (fills_enumMember room)) room

theorem moves_componentDefinition (word : String) (room : Nat) :
    Moves (fun s => startsWord word s = true) (componentDefinition room) :=
  moves_nested (fun room => fills_block _ _ (fills_componentMember room)) room

theorem moves_tag (room : Nat) : Moves Ahead (tag (value room)) :=
  moves_of_fills (fills_tag (fills_value room))

theorem movesOn_enumMember (room : Nat) : MovesOn (enumMember room) := by
  intro s
  rw [enumMember, Parser.run_choose]
  split
  · exact fun _ => present_lt (moves_tag room) (ahead_of_starts ‹_›)
  split
  · exact fun _ => present_lt (moves_of_fills fills_enumValue) (ahead_of_starts ‹_›)
  · exact fun h => Bool.noConfusion h

theorem movesOn_typeMember (room : Nat) : MovesOn (typeMember room (typeDefinition room)) := by
  intro s
  rw [typeMember, Parser.run_choose]
  split
  · rename_i hs
    exact fun _ => present_lt (moves_of_fills fills_settingStatement)
      (ahead_of_startsWord (Bool.and_eq_true _ _ ▸ hs).1)
  split
  · exact fun _ => present_lt (moves_tag room) (ahead_of_starts ‹_›)
  split
  · exact fun _ => present_lt (moves_enumDefinition _ room) ‹_›
  split
  · exact fun _ => present_lt (moves_typeDefinition _ room) ‹_›
  split
  · exact fun _ => present_lt (moves_of_fills fills_field) (ahead_of_starts ‹_›)
  · exact fun h => Bool.noConfusion h

theorem movesOn_componentMember (room : Nat) : MovesOn (componentMember room) := by
  intro s
  rw [componentMember, Parser.run_choose]
  split
  · rename_i hs
    exact fun _ => present_lt (moves_of_fills fills_settingStatement)
      (ahead_of_startsWord (Bool.and_eq_true _ _ ▸ hs).1)
  split
  · exact fun _ => present_lt (moves_tag room) (ahead_of_starts ‹_›)
  split
  · exact fun _ => present_lt (moves_of_fills fills_componentId) (ahead_of_startsWord ‹_›)
  split
  · exact fun _ => present_lt (moves_of_fills fills_dataMember) (ahead_of_startsWord ‹_›)
  split
  · exact fun _ => present_lt (moves_of_fills fills_eventMember) (ahead_of_startsWord ‹_›)
  split
  · exact fun _ => present_lt (moves_of_fills fills_commandMember) (ahead_of_startsWord ‹_›)
  split
  · exact fun _ => present_lt (moves_of_fills fills_field) (ahead_of_starts ‹_›)
  · exact fun h => Bool.noConfusion h

/-- At the top of a file there is a member as long as there is a lexeme. -/
theorem moves_topLevel (room : Nat) {s : List Lexeme} (hs : s ≠ []) :
    ((topLevel room).run s).value = true ∧ ((topLevel room).run s).rest.length < s.length := by
  have hpresent {P : List Lexeme → Prop} {p : Parser Unit} (h : Moves P p) (hp : P s) :
      ((present p).run s).value = true ∧ ((present p).run s).rest.length < s.length :=
    ⟨rfl, present_lt h hp⟩
  rw [topLevel, Parser.run_choose, if_neg (by simpa using hs)]
  split
  · exact hpresent (moves_of_fills fills_packageStatement) hs
  split
  · exact hpresent (moves_of_fills fills_importStatement) hs
  split
  · exact hpresent (moves_of_fills fills_settingStatement) hs
  split
  · exact hpresent (moves_enumDefinition _ room) ‹_›
  split
  · exact hpresent (moves_typeDefinition _ room) ‹_›
  split
  · exact hpresent (moves_componentDefinition _ room) ‹_›
  split
  · exact hpresent (moves_tag room) hs
  · exact hpresent (moves_skip (fun s hs => ⟨hs, extent_topLevel_pos hs⟩) _) hs

theorem movesOn_topLevel (room : Nat) : MovesOn (topLevel room) := by
  intro s hvalue
  refine (moves_topLevel room ?_).2
  rintro rfl
  cases hvalue

/-! ## Loops over members -/

def loopMembers (room : Nat) : List (Parser Bool) :=
  [topLevel room, enumMember room, typeMember room (typeDefinition room), componentMember room]

theorem movesOn_of_mem_loopMembers {room : Nat} {member : Parser Bool}
    (h : member ∈ loopMembers room) : MovesOn member := by
  simp only [loopMembers, List.mem_cons, List.not_mem_nil, or_false] at h
  rcases h with rfl | rfl | rfl | rfl
  · exact movesOn_topLevel room
  · exact movesOn_enumMember room
  · exact movesOn_typeMember room
  · exact movesOn_componentMember room

/-- A loop whose member moves on never skips a lexeme for it. -/
theorem MovesOn.loop_eq {member : Parser Bool} (h : MovesOn member) (s : List Lexeme) :
    members.loop member s =
      if (member.run s).value then
        ⟨(), (member.run s).built ++ (members.loop member (member.run s).rest).built,
          (members.loop member (member.run s).rest).rest⟩
      else ⟨(), (member.run s).built, (member.run s).rest⟩ := by
  rw [members.loop_eq]
  split
  · rw [if_pos (h s ‹_›)]
  · rfl

theorem MovesOn.orderly_members {member : Parser Bool} (h : MovesOn member)
    (horderly : Yields Orderly member) : Yields Orderly (members member) := by
  intro s
  show Orderly (members.loop member s).built
  induction hn : s.length using Nat.strongRecOn generalizing s with
  | ind n ih =>
    rw [h.loop_eq]
    split
    · exact joins_orderly.append (horderly s) (ih _ (hn ▸ h s ‹_›) _ rfl)
    · exact horderly s

theorem orderly_block (kind : NodeKind) (word : String) {member : Parser Bool}
    (h : MovesOn member) (horderly : Yields Orderly member) :
    Yields Orderly (block kind word member) :=
  fun s => orderly_statement
    (yields_then joins_orderly (yields_keyword.mono fun _ => orderly_of_worded) (fun _ =>
      yields_then joins_orderly (orderly_expect _ _ _ _) fun _ =>
      yields_then joins_orderly (yields_punct joins_orderly _ _ _) fun _ =>
      yields_then joins_orderly (yields_liftM (h.orderly_members horderly)) fun _ =>
        yields_punct joins_orderly _ _ _) s)
    (blames_then blames_keyword fun _ => blames_then (blames_expect _ _ _ fun _ => rfl) fun _ =>
      blames_then (blames_punct _ _ fun _ => rfl) fun _ => blames_then (blames_liftM _) fun _ =>
        blames_punct _ _ fun _ => rfl) _

theorem orderly_nested {p : Nat → Parser Unit} (h : ∀ room, Yields Orderly (p room))
    (room : Nat) : Yields Orderly (nested p room) := by
  cases room with
  | zero => exact fun s => orderly_tooDeep s
  | succ room => exact h room

theorem orderly_presentTag (room : Nat) : Yields Orderly (present (tag (value room))) :=
  yields_present joins_orderly (orderly_tag (orderly_value room))

theorem orderly_enumMember (room : Nat) : Yields Orderly (enumMember room) := by
  intro s
  rw [enumMember, Parser.run_choose]
  split
  · exact orderly_presentTag room s
  split
  · rw [built_present]
    exact orderly_enumValue ‹_›
  · exact yields_absent joins_orderly s

theorem orderly_enumDefinition (room : Nat) : Yields Orderly (enumDefinition room) :=
  orderly_nested
    (fun room => orderly_block _ _ (movesOn_enumMember room) (orderly_enumMember room)) room

theorem orderly_typeMember (room : Nat) {typeDefinition : Parser Unit}
    (h : Yields Orderly typeDefinition) : Yields Orderly (typeMember room typeDefinition) := by
  refine yields_choose fun s => ?_
  split
  · exact yields_present joins_orderly orderly_settingStatement
  split
  · exact orderly_presentTag room
  split
  · exact yields_present joins_orderly (orderly_enumDefinition room)
  split
  · exact yields_present joins_orderly h
  split
  · exact yields_present joins_orderly orderly_field
  · exact yields_absent joins_orderly

theorem orderly_typeDefinition (room : Nat) : Yields Orderly (typeDefinition room) := by
  induction room with
  | zero => exact fun s => orderly_tooDeep s
  | succ room ih => exact orderly_block _ _ (movesOn_typeMember room) (orderly_typeMember room ih)

theorem orderly_componentMember (room : Nat) : Yields Orderly (componentMember room) := by
  refine yields_choose fun s => ?_
  split
  · exact yields_present joins_orderly orderly_settingStatement
  split
  · exact orderly_presentTag room
  split
  · exact yields_present joins_orderly orderly_componentId
  split
  · exact yields_present joins_orderly orderly_dataMember
  split
  · exact yields_present joins_orderly orderly_eventMember
  split
  · exact yields_present joins_orderly orderly_commandMember
  split
  · exact yields_present joins_orderly orderly_field
  · exact yields_absent joins_orderly

theorem orderly_topLevel (room : Nat) : Yields Orderly (topLevel room) := by
  refine yields_choose fun s => ?_
  split
  · exact yields_absent joins_orderly
  split
  · exact yields_present joins_orderly orderly_packageStatement
  split
  · exact yields_present joins_orderly orderly_importStatement
  split
  · exact yields_present joins_orderly orderly_settingStatement
  split
  · exact yields_present joins_orderly (orderly_enumDefinition room)
  split
  · exact yields_present joins_orderly (orderly_typeDefinition room)
  split
  · exact yields_present joins_orderly (orderly_nested (fun room =>
      orderly_block _ _ (movesOn_componentMember room) (orderly_componentMember room)) room)
  split
  · exact orderly_presentTag room
  · exact yields_present joins_orderly (orderly_skip rfl _)

/-- Whatever is read, no lexeme is skipped for a member that took nothing. -/
theorem orderly_parseWith (room : Nat) (s : List Lexeme) : Orderly (parseWith room s) :=
  (movesOn_topLevel room).orderly_members (orderly_topLevel room) s

/-! ## Loops over elements -/

section

variable {α : Type} {item : Step α} {closer : TokenKind} {s s' : List Lexeme}

/-- One turn of the loop over the elements behind the first one: a comma is
taken, and the element behind it goes through. -/
inductive Turn (item : Step α) (closer : TokenKind) : List Lexeme → List Lexeme → Prop
  | comma {t : Lexeme} {s : List Lexeme} {a : α} (hcloser : t.kind ≠ closer)
      (hcomma : t.kind = .comma) (hitem : (run item s).value = .ok a) :
      Turn item closer (t :: s) (run item s).rest

theorem Turn.length_lt (h : Turn item closer s s') : s'.length < s.length := by
  cases h
  exact Nat.lt_succ_of_le (Parser.rest_length_le item _)

theorem Turn.loop_eq (h : Turn item closer s s') (otherwise : String → Stop) :
    ∃ a front, front.leaves ++ s' = s ∧ sepTail.loop item closer otherwise s =
      ⟨(sepTail.loop item closer otherwise s').value.map (a :: ·),
        front ++ (sepTail.loop item closer otherwise s').built,
        (sepTail.loop item closer otherwise s').rest⟩ := by
  cases h with
  | @comma t s a hcloser hcomma hitem =>
    refine ⟨a, .leaf t (run item s).built, ?_, ?_⟩
    · rw [Forest.leaves, List.cons_append, Parser.lossless item s]
    · rw [sepTail.loop, if_neg hcloser, if_pos hcomma]
      simp only [hitem]
      rfl

theorem eq_nil_of_no_turn (h : ∀ s', ¬Turn item closer s s') {otherwise : String → Stop}
    {as : List α} (has : (sepTail.loop item closer otherwise s).value = .ok as) : as = [] := by
  cases s with
  | nil =>
    rw [sepTail.loop] at has
    cases has
  | cons t s =>
    rw [sepTail.loop] at has
    by_cases hcloser : t.kind = closer
    · rw [if_pos hcloser] at has
      exact (Except.ok.inj has).symm
    by_cases hcomma : t.kind = .comma
    · rw [if_neg hcloser, if_pos hcomma] at has
      cases hitem : (run item s).value with
      | error e =>
        simp only [hitem] at has
        cases has
      | ok a => exact absurd (.comma hcloser hcomma hitem) (h _)
    · rw [if_neg hcloser, if_neg hcomma] at has
      cases has

end

/-! ## Files -/

namespace SchemaFile

theorem not_stray_of_mem_faults {file : SchemaFile} {p : Node × Fault} (hp : p ∈ file.faults) :
    p.2.isStray = false := by
  obtain ⟨n, hn, hmap⟩ := List.mem_filterMap.mp hp
  obtain ⟨fault, hfault, rfl⟩ := Option.map_eq_some_iff.mp hmap
  rcases List.mem_cons.mp hn with rfl | hn
  · rw [Node.fault?, file.root_eq] at hfault
    cases hfault
  · exact file.content_of_each (orderly_parseWith maxNesting _) hn fault hfault

/-- Every loop of the parser moves on by itself. Members take a lexeme whenever they
apply, so that none is ever skipped for them; every turn of a loop over elements
(the parameters of a type, named arguments, arguments, the elements of a list and
the entries of a map) takes a comma. -/
theorem loops_move_on :
    (∀ room, ∀ member ∈ loopMembers room, ∀ s,
      ((member.run s).value = true → (member.run s).rest.length < s.length) ∧
      members.loop member s =
        if (member.run s).value then
          ⟨(), (member.run s).built ++ (members.loop member (member.run s).rest).built,
            (members.loop member (member.run s).rest).rest⟩
        else ⟨(), (member.run s).built, (member.run s).rest⟩) ∧
    (∀ room s, s ≠ [] → ((topLevel room).run s).value = true) ∧
    (∀ file : SchemaFile, ∀ p ∈ file.faults,
      ¬"Unexpected '".toList <+: p.2.message.toList) ∧
    ∀ {α : Type} (item : Step α) (closer : TokenKind) (otherwise : String → Stop) (s : List Lexeme),
      (∀ s', Turn item closer s s' → s'.length < s.length ∧
        ∃ a front, front.leaves ++ s' = s ∧ sepTail.loop item closer otherwise s =
          ⟨(sepTail.loop item closer otherwise s').value.map (a :: ·),
            front ++ (sepTail.loop item closer otherwise s').built,
            (sepTail.loop item closer otherwise s').rest⟩) ∧
      ((∀ s', ¬Turn item closer s s') →
        ∀ as, (sepTail.loop item closer otherwise s).value = .ok as → as = []) := by
  refine ⟨fun room member hmember s => ?_, fun room s hs => (moves_topLevel room hs).1,
    fun file p hp => p.2.message_of_not_stray (not_stray_of_mem_faults hp),
    fun item closer otherwise s => ?_⟩
  · have hmoves := movesOn_of_mem_loopMembers hmember
    exact ⟨hmoves s, hmoves.loop_eq s⟩
  · exact ⟨fun s' h => ⟨h.length_lt, h.loop_eq otherwise⟩, fun h as has => eq_nil_of_no_turn h has⟩

end SchemaFile

end SchemaLang
