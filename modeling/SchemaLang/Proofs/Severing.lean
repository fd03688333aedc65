import SchemaLang.Proofs.Forest
import SchemaLang.Parse.Recovery

/-!
# Rows that lack one closer

A statement ends with `;` and a tag with a bracket. When that lexeme is
missing and another member may begin in its place, recovery closes the
statement as incomplete and puts an empty fault behind it; nothing else of
the row changes. `Cut` relates a row to what is left of it then.
-/

set_option autoImplicit false

namespace SchemaLang

def NodeKind.isTerminated : NodeKind → Bool
  | package | importing | setting | enumValue | field | componentId | data | event | command
  | tag => true
  | _ => false

variable {σ τ : Type}

/-- `Cut fault row a t b row'`: the leaf `t` behind `a` and in front of `b`
is the last one of a statement or tag, which is cut short in `row'`. -/
inductive Cut (fault : Fault) : Forest Shape τ → List τ → τ → List τ → Forest Shape τ → Prop where
  | here {kind : NodeKind} {held : Forest Shape τ} (hk : kind.isTerminated = true)
      (hlen : 2 ≤ held.leaves.length) (t : τ) (next : Forest Shape τ) :
      Cut fault (.node (.construct kind true) (held ++ .leaf t .nil) next) held.leaves t next.leaves
        (.node (.construct kind false) held (.node (.skipped fault) .nil next))
  | behindLeaf {next next' : Forest Shape τ} {a b : List τ} {t : τ} (u : τ)
      (h : Cut fault next a t b next') : Cut fault (.leaf u next) (u :: a) t b (.leaf u next')
  | within {held held' : Forest Shape τ} {a b : List τ} {t : τ} (shape : Shape)
      (next : Forest Shape τ) (hb : b ≠ []) (h : Cut fault held a t b held') :
      Cut fault (.node shape held next) a t (b ++ next.leaves) (.node shape held' next)
  | behindNode {next next' : Forest Shape τ} {a b : List τ} {t : τ} (shape : Shape)
      (held : Forest Shape τ) (h : Cut fault next a t b next') :
      Cut fault (.node shape held next) (held.leaves ++ a) t b (.node shape held next')

theorem split_of_append_eq {α : Type} {xs ys a b : List α} {t : α}
    (h : xs ++ ys = a ++ t :: b) :
    (∃ b', xs = a ++ t :: b' ∧ b = b' ++ ys) ∨ ∃ a', ys = a' ++ t :: b ∧ a = xs ++ a' := by
  rcases List.append_eq_append_iff.mp h with ⟨a', ha, hys⟩ | ⟨c, hxs, hc⟩
  · exact .inr ⟨a', hys, ha⟩
  · cases c with
    | nil => exact .inr ⟨[], hc.symm, hxs.symm ▸ by simp⟩
    | cons u c =>
      obtain ⟨rfl, rfl⟩ := List.cons.inj hc
      exact .inl ⟨c, hxs, rfl⟩

namespace Cut

variable {fault : Fault} {row row' : Forest Shape τ} {a b : List τ} {t : τ}

theorem leaves_eq (h : Cut fault row a t b row') : row.leaves = a ++ t :: b := by
  induction h with
  | here hk hlen t next => simp [Forest.leaves]
  | behindLeaf u _ ih => simp [Forest.leaves, ih]
  | within shape next hb _ ih => simp [Forest.leaves, ih]
  | behindNode shape held _ ih => simp [Forest.leaves, ih]

theorem leaves_remaining (h : Cut fault row a t b row') : row'.leaves = a ++ b := by
  induction h with
  | here hk hlen t next => simp [Forest.leaves]
  | behindLeaf u _ ih => simp [Forest.leaves, ih]
  | within shape next hb _ ih => simp [Forest.leaves, ih]
  | behindNode shape held _ ih => simp [Forest.leaves, ih]

theorem two_le_length (h : Cut fault row a t b row') : 2 ≤ a.length := by
  induction h with
  | here hk hlen t next => exact hlen
  | behindLeaf u _ ih => exact Nat.le_succ_of_le ih
  | within shape next hb _ ih => exact ih
  | behindNode shape held _ ih =>
    rw [List.length_append]
    omega

theorem append_left (h : Cut fault row a t b row') (front : Forest Shape τ) :
    Cut fault (front ++ row) (front.leaves ++ a) t b (front ++ row') := by
  induction front with
  | nil => exact h
  | leaf u next ih => exact .behindLeaf u ih
  | node shape held next _ ih =>
    rw [Forest.leaves, List.append_assoc]
    exact .behindNode shape held ih

theorem append_right (h : Cut fault row a t b row') (rest : Forest Shape τ) :
    Cut fault (row ++ rest) a t (b ++ rest.leaves) (row' ++ rest) := by
  induction h with
  | here hk hlen t next =>
    rw [← Forest.leaves_append]
    exact .here hk hlen t (next ++ rest)
  | behindLeaf u _ ih => exact .behindLeaf u ih
  | within shape next hb h _ =>
    rw [List.append_assoc, ← Forest.leaves_append]
    exact .within shape (next ++ rest) hb h
  | behindNode shape held _ ih => exact .behindNode shape held ih

theorem lift {f : σ → τ} (h : Cut fault row a t b row') {r : Forest Shape σ}
    (hr : r.mapLeaves f = row) {a₀ b₀ : List σ} {t₀ : σ} (hl : r.leaves = a₀ ++ t₀ :: b₀)
    (ha : a₀.length = a.length) : ∃ r', Cut fault r a₀ t₀ b₀ r' ∧ r'.mapLeaves f = row' := by
  induction h generalizing r a₀ b₀ with
  | here hk hlen t next =>
    obtain ⟨i, rest, rfl, hi, rfl⟩ := Forest.exists_of_mapLeaves_eq_node hr
    obtain ⟨held, tail, rfl, rfl, htail⟩ := Forest.exists_of_mapLeaves_eq_append hi
    obtain ⟨u, r', rfl, rfl, hnil⟩ := Forest.exists_of_mapLeaves_eq_leaf htail
    cases r' with
    | leaf => cases hnil
    | node => cases hnil
    | nil =>
      have hsplit : held.leaves ++ u :: rest.leaves = a₀ ++ t₀ :: b₀ := by
        simpa [Forest.leaves] using hl
      have hheld : held.leaves.length = a₀.length := by simpa using ha.symm
      obtain ⟨rfl, htail⟩ := List.append_inj hsplit hheld
      obtain ⟨rfl, rfl⟩ := List.cons.inj htail
      exact ⟨_, .here hk (by simpa using hlen) u rest, rfl⟩
  | behindLeaf u _ ih =>
    obtain ⟨v, rest, rfl, rfl, hrest⟩ := Forest.exists_of_mapLeaves_eq_leaf hr
    cases a₀ with
    | nil => simp at ha
    | cons w a₀ =>
      obtain ⟨rfl, hl'⟩ := List.cons.inj hl
      obtain ⟨r', hcut, rfl⟩ := ih hrest hl' (by simpa using ha)
      exact ⟨_, hcut.behindLeaf v, rfl⟩
  | @within held held' a b t shape next hb h ih =>
    obtain ⟨i, rest, rfl, hi, rfl⟩ := Forest.exists_of_mapLeaves_eq_node hr
    have hlen : i.leaves.length = a.length + (b.length + 1) := by
      rw [← List.length_map f, ← Forest.leaves_mapLeaves, hi, h.leaves_eq, List.length_append,
        List.length_cons]
    have hpos := List.length_pos_iff.mpr hb
    rcases split_of_append_eq hl with ⟨b', hl', rfl⟩ | ⟨a', -, rfl⟩
    · obtain ⟨r', hcut, rfl⟩ := ih hi hl' ha
      have hb' : b' ≠ [] := by
        rintro rfl
        rw [hl', List.length_append, List.length_singleton] at hlen
        omega
      exact ⟨_, hcut.within _ rest hb', rfl⟩
    · rw [List.length_append] at ha
      omega
  | behindNode shape held h ih =>
    obtain ⟨i, rest, rfl, rfl, hrest⟩ := Forest.exists_of_mapLeaves_eq_node hr
    rw [Forest.leaves_mapLeaves, List.length_append, List.length_map] at ha
    rcases split_of_append_eq hl with ⟨b', hl', -⟩ | ⟨a', hl', rfl⟩
    · rw [hl', List.length_append, List.length_cons] at ha
      omega
    · rw [List.length_append] at ha
      obtain ⟨r', hcut, rfl⟩ := ih hrest hl' (by omega)
      exact ⟨_, hcut.behindNode _ i, rfl⟩

end Cut

def IsCloser (row : Row) (a : List Lexeme) (t : Lexeme) : Prop :=
  t.kind = .semicolon ∨ ∃ before held after i,
    row.At before (.construct .tag true) held after ∧ held.leaves = i ++ [t] ∧ a = before ++ i

/-- Only a tag adds a closer to those of the row it holds. -/
theorem IsCloser.of_node {shape : Shape} {held : Row} {a : List Lexeme} {t : Lexeme}
    (h : IsCloser (.node shape held .nil) a t) (hshape : shape ≠ .construct .tag true) :
    IsCloser held a t := by
  rcases h with ht | ⟨before, inside, after, i, hat, hi, ha⟩
  · exact .inl ht
  · cases hat with
    | here => exact absurd rfl hshape
    | within _ _ h => exact .inr ⟨before, inside, _, i, h, hi, ha⟩
    | behindNode _ _ h => cases h

/-- A closer of two rows side by side is a closer of one of them. -/
theorem IsCloser.of_append {f g : Row} {a b : List Lexeme} {t : Lexeme}
    (h : IsCloser (f ++ g) a t) (hl : (f ++ g).leaves = a ++ t :: b) :
    (∃ b', f.leaves = a ++ t :: b' ∧ b = b' ++ g.leaves ∧ IsCloser f a t) ∨
      ∃ a', g.leaves = a' ++ t :: b ∧ a = f.leaves ++ a' ∧ IsCloser g a' t := by
  rw [Forest.leaves_append] at hl
  rcases h with ht | ⟨before, held, after, i, hat, hi, rfl⟩
  · rcases split_of_append_eq hl with ⟨b', hf, hb⟩ | ⟨a', hg, ha⟩
    · exact .inl ⟨b', hf, hb, .inl ht⟩
    · exact .inr ⟨a', hg, ha, .inl ht⟩
  · rcases hat.of_append with ⟨after', hf', rfl⟩ | ⟨before', hg', rfl⟩
    · have hf : f.leaves = before ++ i ++ t :: after' := by
        rw [hf'.leaves_eq, hi]
        simp
      rw [hf, List.append_assoc (before ++ i)] at hl
      have hb := List.append_cancel_left hl
      exact .inl ⟨after', hf, (List.cons.inj hb).2.symm, .inr ⟨_, _, _, i, hf', hi, rfl⟩⟩
    · rw [List.append_assoc f.leaves, List.append_assoc f.leaves] at hl
      exact .inr ⟨before' ++ i, List.append_cancel_left hl, List.append_assoc _ _ _,
        .inr ⟨_, _, _, i, hg', hi, rfl⟩⟩

end SchemaLang
