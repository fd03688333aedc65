import SchemaLang.Proofs.Profiles

/-!
# Walks through a row that lacks one closer

The construct that lost its closer ends at the token before it and is
incomplete. An empty fault stands there, and no other node changes. The nodes
behind the fault only move on in their numbering by one.
-/

set_option autoImplicit false

namespace SchemaLang

def leavingOut (e i : Nat) : Nat := if e < i then i - 1 else i

def Profile.cutShort (stop : Nat) (p : Profile) : Profile :=
  { p with
    shape := .construct p.shape.kind false
    span := ⟨p.span.start, stop⟩
    tokens := p.tokens.dropLast }

structure Profile.Owns (p : Profile) (t : Token) : Prop where
  isTerminated : p.shape.kind.isTerminated = true
  last : p.tokens.getLast? = some t

/-- One walk meets what another one does, but for the construct that lacks
`t` behind `p` and the fault numbered `e` after what it holds. -/
inductive Mended (fault : Fault) (p t : Token) (e : Nat) : List Profile → List Profile → Prop where
  | intro (before inside after : List Profile) {owner : Profile} (howner : owner.Owns t) :
      Mended fault p t e
        (before ++ owner :: (inside ++ after.map (Profile.renumber (leavingOut e))))
        (before ++ owner.cutShort p.stop ::
          (inside ++ ⟨e, .skipped fault, ⟨p.stop, p.stop⟩, owner.parent?, []⟩ :: after))

theorem map_leavingOut {e : Nat} {parent : Option Nat} (h : ∀ q ∈ parent, q ≤ e) :
    parent.map (leavingOut e) = parent := by
  cases parent with
  | none => rfl
  | some q =>
    have hq : ¬ e < q := Nat.not_lt.mpr (h q rfl)
    rw [Option.map_some, leavingOut, if_neg hq]

/-- Whatever stands in front of the fault keeps its number. -/
theorem Profile.renumber_of_lt {e : Nat} {q : Profile} (hid : q.id < e)
    (hparent : ∀ k ∈ q.parent?, k < q.id) : q.renumber (leavingOut e) = q := by
  have hq : ¬ e < q.id := Nat.lt_asymm hid
  have hp := map_leavingOut (e := e) (fun k hk => ((hparent k hk).trans hid).le)
  rw [Profile.renumber, hp, leavingOut, if_neg hq]

/-- Without the profile numbered `e`, those behind it move up. -/
theorem filter_leavingOut {front after : List Profile} {x : Profile}
    (hsorted : (front ++ x :: after).Pairwise (fun q r => q.id < r.id))
    (hparent : ∀ q ∈ front, ∀ k ∈ q.parent?, k < q.id) :
    ((front ++ x :: after).filter (fun q => q.id != x.id)).map
        (Profile.renumber (leavingOut x.id)) =
      front ++ after.map (Profile.renumber (leavingOut x.id)) := by
  obtain ⟨-, hback, hcross⟩ := List.pairwise_append.mp hsorted
  have hlt : ∀ q ∈ front, q.id < x.id := fun q hq => hcross q hq x List.mem_cons_self
  have hgt := (List.pairwise_cons.mp hback).1
  have hfront : front.filter (fun q => q.id != x.id) = front := by
    apply List.filter_eq_self.mpr
    intro q hq
    simpa using (hlt q hq).ne
  have hafter : after.filter (fun q => q.id != x.id) = after := by
    apply List.filter_eq_self.mpr
    intro q hq
    simpa using (hgt q hq).ne'
  have hsame : ∀ q ∈ front, q.renumber (leavingOut x.id) = id q := by
    intro q hq
    exact Profile.renumber_of_lt (hlt q hq) (hparent q hq)
  rw [List.filter_append, List.filter_cons_of_neg (by simp), hfront, hafter, List.map_append,
    List.map_congr_left hsame, List.map_id]

theorem map_at_id {before after : List Profile} {x : Profile}
    (hsorted : (before ++ x :: after).Pairwise (fun q r => q.id < r.id))
    (f : Profile → Profile) :
    (before ++ x :: after).map (fun q => if q.id = x.id then f q else q) =
      before ++ f x :: after := by
  obtain ⟨-, hback, hcross⟩ := List.pairwise_append.mp hsorted
  have hgt := (List.pairwise_cons.mp hback).1
  have hbefore : ∀ q ∈ before, (if q.id = x.id then f q else q) = id q := by
    intro q hq
    exact if_neg (hcross q hq x List.mem_cons_self).ne
  have hafter : ∀ q ∈ after, (if q.id = x.id then f q else q) = id q := by
    intro q hq
    exact if_neg (hgt q hq).ne'
  rw [List.map_append, List.map_cons, if_pos rfl, List.map_congr_left hbefore,
    List.map_congr_left hafter, List.map_id, List.map_id]

namespace Mended

variable {fault : Fault} {p t : Token} {e : Nat} {old new : List Profile}

theorem append_left (h : Mended fault p t e old new) (front : List Profile) :
    Mended fault p t e (front ++ old) (front ++ new) := by
  cases h with
  | intro before inside after howner =>
    rw [← List.append_assoc, ← List.append_assoc]
    exact .intro (front ++ before) inside after howner

theorem append_right (h : Mended fault p t e old new) (rest : List Profile) :
    Mended fault p t e (old ++ rest.map (Profile.renumber (leavingOut e))) (new ++ rest) := by
  cases h with
  | intro before inside after howner =>
    simp only [List.append_assoc, List.cons_append, ← List.map_append]
    exact .intro before inside (after ++ rest) howner

/-- Among walks with numbers in order, the mended one without its fault is the
other one with the owner cut short. -/
theorem leaves_out (h : Mended fault p t e old new) (hold : old.Pairwise (fun q r => q.id < r.id))
    (hnew : new.Pairwise (fun q r => q.id < r.id))
    (hparent : ∀ q ∈ new, ∀ k ∈ q.parent?, k < q.id) :
    ∃ owner ∈ old, owner.Owns t ∧
      (new.filter (fun q => q.id != e)).map (Profile.renumber (leavingOut e)) =
        old.map (fun q => if q.id = owner.id then q.cutShort p.stop else q) := by
  cases h with
  | @intro before inside after owner howner =>
    refine ⟨owner, by simp, howner, ?_⟩
    have hsplit (tail : List Profile) : before ++ owner.cutShort p.stop :: (inside ++ tail) =
        (before ++ owner.cutShort p.stop :: inside) ++ tail := by simp
    rw [hsplit] at hnew hparent ⊢
    rw [map_at_id hold, hsplit]
    exact filter_leavingOut hnew fun q hq => hparent q (List.mem_append_left _ hq)

theorem exists_fault (h : Mended fault p t e old new) (hold : ∀ q ∈ old, q.shape.fault? = none) :
    ∃ front x after, new = front ++ x :: after ∧ x.id = e ∧ x.shape = .skipped fault ∧
      x.span = ⟨p.stop, p.stop⟩ ∧ ∀ q ∈ front ++ after, q.shape.fault? = none := by
  cases h with
  | @intro before inside after owner howner =>
    refine ⟨before ++ owner.cutShort p.stop :: inside,
      ⟨e, .skipped fault, ⟨p.stop, p.stop⟩, owner.parent?, []⟩, after, by simp, rfl, rfl, rfl,
      fun q hq => ?_⟩
    simp only [List.mem_append, List.mem_cons] at hq
    rcases hq with (hq | rfl | hq) | hq
    · exact hold q (by simp [hq])
    · rfl
    · exact hold q (by simp [hq])
    · have hmem := List.mem_map_of_mem (f := Profile.renumber (leavingOut e)) hq
      exact hold (q.renumber (leavingOut e)) (by simp [hmem])

end Mended

theorem startOf_append {ts : List Token} (h : ts ≠ []) (offset : Nat) (us : List Token) :
    startOf offset (ts ++ us) = startOf offset ts := by
  cases ts with
  | nil => exact absurd rfl h
  | cons t ts => rfl

theorem stopOf_of_getLast? {ts : List Token} {p : Token} (h : ts.getLast? = some p) (offset : Nat) :
    stopOf offset ts = p.stop := by
  obtain ⟨us, rfl⟩ := List.getLast?_eq_some_iff.mp h
  rw [stopOf_append]
  rfl

/-- A row behind the fault, with the number of the fault left out. -/
theorem Forest.survey_leavingOut (row : Forest Shape Token) {e id : Nat} {parent : Option Nat}
    (he : e ≤ id) (hparent : ∀ q ∈ parent, q ≤ e) (offset : Nat) :
    (row.survey parent offset (id + 1)).map (Profile.renumber (leavingOut e)) =
      row.survey parent offset id := by
  have hmove (n : Nat) : leavingOut e (id + 1 + n) = id + n := by
    rw [leavingOut, if_pos (by omega)]
    omega
  have h := row.survey_renumber (leavingOut e) parent offset (id + 1) fun n => by
    rw [hmove n, hmove 0, Nat.add_zero]
  rw [map_leavingOut hparent, hmove 0, Nat.add_zero] at h
  exact h.symm

namespace Cut

variable {τ : Type} {fault : Fault}

theorem tokens_eq {row row' : Forest Shape τ} {a b : List τ} {t : τ}
    (h : Cut fault row a t b row') : row'.tokens = row.tokens := by
  induction h with
  | here hk hlen t next => rfl
  | behindLeaf u _ ih => rw [Forest.tokens, Forest.tokens, ih]
  | within shape next hb _ ih => rfl
  | behindNode shape held _ ih => exact ih

theorem nodeCount_eq {row row' : Forest Shape τ} {a b : List τ} {t : τ}
    (h : Cut fault row a t b row') : row'.nodeCount = row.nodeCount + 1 := by
  induction h with
  | here hk hlen t next =>
    simp only [Forest.nodeCount, Forest.nodeCount_append]
    omega
  | behindLeaf u _ ih => exact ih
  | within shape next hb _ ih =>
    simp only [Forest.nodeCount, ih]
    omega
  | behindNode shape held _ ih =>
    simp only [Forest.nodeCount, ih]
    omega

theorem ne_nil {row row' : Forest Shape τ} {a b : List τ} {t : τ}
    (h : Cut fault row a t b row') : a ≠ [] := by
  intro hnil
  have hlen := h.two_le_length
  simp [hnil] at hlen

theorem bare {row row' : Forest Shape τ} {a b : List τ} {t : τ} (h : Cut fault row a t b row')
    (hrow : row.Each Shape.Bare) : row'.Each Shape.Bare := by
  induction h with
  | here hk hlen t next =>
    have hheld := ((Forest.each_append _ _ _).mp hrow.2.1).1
    exact ⟨fun hnil => by simp [hnil] at hlen, hheld, rfl, trivial, hrow.2.2⟩
  | behindLeaf u _ ih => exact ih hrow
  | within shape next hb h ih =>
    refine ⟨?_, ih hrow.2.1, hrow.2.2⟩
    cases shape with
    | construct kind complete =>
      intro hnil
      exact h.ne_nil (List.append_eq_nil_iff.mp (h.leaves_remaining ▸ hnil)).1
    | skipped fault =>
      obtain rfl := hrow.1
      cases h
  | behindNode shape held _ ih => exact ⟨hrow.1, hrow.2.1, ih hrow.2.2⟩

/-- The construct that lacks its closer, and the fault behind it. -/
theorem survey_here {kind : NodeKind} {held next : Forest Shape Token} {t p : Token}
    (hk : kind.isTerminated = true) (hnext : next.Each (fun _ inside => inside.leaves ≠ []))
    (hp : held.leaves.getLast? = some p) (parent : Option Nat) (offset id : Nat)
    (hparent : ∀ q ∈ parent, q < id) :
    Mended fault p t (id + 1 + held.nodeCount)
      ((Forest.node (.construct kind true) (held ++ .leaf t .nil) next).survey parent offset id)
      ((Forest.node (.construct kind false) held (.node (.skipped fault) .nil next)).survey parent
        offset id) := by
  have hne : held.leaves ≠ [] := by
    intro hnil
    simp [hnil] at hp
  have hbehind := next.survey_leavingOut (Nat.le_refl (id + 1 + held.nodeCount))
    (fun q hq => by have := hparent q hq; omega) p.stop
  have howner : Profile.Owns ⟨id, .construct kind true, ⟨startOf offset held.leaves, t.stop⟩,
      parent, held.tokens ++ [t]⟩ t := ⟨hk, by simp⟩
  have h : Mended fault p t (id + 1 + held.nodeCount) _ _ := .intro []
    (held.survey (some id) (startOf offset held.leaves) (id + 1))
    (next.survey parent p.stop (id + 1 + held.nodeCount + 1)) howner
  rw [hbehind, next.survey_offset parent _ hnext p.stop t.stop] at h
  have hold : (Forest.node (.construct kind true) (held ++ .leaf t .nil) next).survey parent offset
      id = [] ++ ⟨id, .construct kind true, ⟨startOf offset held.leaves, t.stop⟩, parent,
        held.tokens ++ [t]⟩ :: (held.survey (some id) (startOf offset held.leaves) (id + 1) ++
          next.survey parent t.stop (id + 1 + held.nodeCount)) := by
    rw [Forest.survey, Forest.leaves_append, Forest.tokens_append, Forest.survey_append,
      Forest.nodeCount_append, startOf_append hne, stopOf_append]
    simp only [Forest.survey, Forest.leaves, Forest.tokens, Forest.nodeCount, List.append_nil,
      Nat.add_zero, stopOf, List.nil_append]
  have hnew : (Forest.node (.construct kind false) held (.node (.skipped fault) .nil next)).survey
      parent offset id = [] ++ Profile.cutShort p.stop ⟨id, .construct kind true,
        ⟨startOf offset held.leaves, t.stop⟩, parent, held.tokens ++ [t]⟩ ::
        (held.survey (some id) (startOf offset held.leaves) (id + 1) ++
          ⟨id + 1 + held.nodeCount, .skipped fault, ⟨p.stop, p.stop⟩, parent, []⟩ ::
            next.survey parent p.stop (id + 1 + held.nodeCount + 1)) := by
    rw [Forest.survey, Forest.survey, stopOf_of_getLast? hp, Profile.cutShort, List.dropLast_concat]
    simp only [Forest.survey, Forest.leaves, Forest.tokens, Forest.nodeCount, Nat.add_zero,
      startOf, stopOf, List.nil_append]
    rfl
  rw [hold, hnew]
  exact h

/-- A cut mends the walk through a row in which no node is empty. -/
theorem survey {row row' : Forest Shape Token} {a b : List Token} {t p : Token}
    (h : Cut fault row a t b row') (hrow : row.Each (fun _ inside => inside.leaves ≠ []))
    (hp : a.getLast? = some p) (parent : Option Nat) (offset id : Nat)
    (hparent : ∀ q ∈ parent, q < id) :
    ∃ e, id < e ∧ e < id + row'.nodeCount ∧
      Mended fault p t e (row.survey parent offset id) (row'.survey parent offset id) := by
  induction h generalizing parent offset id with
  | @here kind held hk hlen t next =>
    refine ⟨id + 1 + held.nodeCount, by omega, ?_,
      survey_here hk hrow.2.2 hp parent offset id hparent⟩
    simp only [Forest.nodeCount]
    omega
  | @behindLeaf next next' a b t u h ih =>
    rw [List.getLast?_cons_of_ne_nil h.ne_nil] at hp
    exact ih hrow hp parent u.stop id hparent
  | @within held held' a b t shape next hb h ih =>
    obtain ⟨e, hlow, hhigh, hmended⟩ := ih hrow.2.1 hp (some id) (startOf offset held.leaves)
      (id + 1) (fun q hq => by simp at hq; omega)
    have hcount := h.nodeCount_eq
    -- the node around begins and ends with other tokens than the closer, so its range stays
    have hstart : startOf offset held'.leaves = startOf offset held.leaves := by
      rw [h.leaves_eq, h.leaves_remaining, startOf_append h.ne_nil, startOf_append h.ne_nil]
    have hstop : stopOf offset held'.leaves = stopOf offset held.leaves := by
      rw [h.leaves_eq, h.leaves_remaining, stopOf_append, stopOf_append]
      exact stopOf_of_ne_nil hb _ _
    have hbehind := next.survey_leavingOut (show e ≤ id + 1 + held.nodeCount by omega)
      (fun q hq => by have := hparent q hq; omega) (stopOf offset held.leaves)
    refine ⟨e, by omega, ?_, ?_⟩
    · rw [Forest.nodeCount]
      omega
    · have hwhole := (hmended.append_right (next.survey parent (stopOf offset held.leaves)
        (id + 1 + held.nodeCount + 1))).append_left [⟨id, shape,
          ⟨startOf offset held.leaves, stopOf offset held.leaves⟩, parent, held.tokens⟩]
      rw [hbehind] at hwhole
      rw [Forest.survey, Forest.survey, hstart, hstop, h.tokens_eq, hcount]
      exact hwhole
  | @behindNode next next' a b t shape held h ih =>
    rw [List.getLast?_append_of_ne_nil _ h.ne_nil] at hp
    obtain ⟨e, hlow, hhigh, hmended⟩ := ih hrow.2.2 hp parent (stopOf offset held.leaves)
      (id + 1 + held.nodeCount) (fun q hq => by have := hparent q hq; omega)
    refine ⟨e, by omega, ?_, ?_⟩
    · rw [Forest.nodeCount]
      omega
    · exact hmended.append_left (_ :: held.survey (some id) (startOf offset held.leaves) (id + 1))

end Cut

end SchemaLang
