import Mathlib.Data.List.Forall2

/-!
# Related lists and options

What is computed in the same way from lists that are related item by item is
related again, or equal. `Option.Rel` relates what is found in them.
-/

set_option autoImplicit false

namespace SchemaLang

variable {α β γ δ : Type} {R : α → β → Prop} {S : γ → δ → Prop} {xs : List α} {ys : List β}
  {x? : Option α} {y? : Option β}

/-! ## Lists -/

theorem forall₂_of_map_eq {p : α → γ} {q : β → γ} (h : xs.map p = ys.map q) :
    List.Forall₂ (fun x y => x ∈ xs ∧ y ∈ ys ∧ p x = q y) xs ys := by
  induction xs generalizing ys with
  | nil =>
    obtain rfl := List.map_eq_nil_iff.mp h.symm
    exact .nil
  | cons x xs ih =>
    obtain ⟨y, ys, rfl, hxy, hrest⟩ := List.map_eq_cons_iff.mp h.symm
    refine .cons ⟨List.mem_cons_self, List.mem_cons_self, hxy.symm⟩ ((ih hrest.symm).imp ?_)
    rintro a b ⟨ha, hb, hab⟩
    exact ⟨List.mem_cons_of_mem x ha, List.mem_cons_of_mem y hb, hab⟩

theorem map_eq_of_forall₂ (h : List.Forall₂ R xs ys) {p : α → γ} {q : β → γ}
    (hpq : ∀ x y, R x y → p x = q y) : xs.map p = ys.map q := by
  induction h with
  | nil => rfl
  | cons hxy _ ih => rw [List.map_cons, List.map_cons, hpq _ _ hxy, ih]

theorem any_eq_of_forall₂ (h : List.Forall₂ R xs ys) {p : α → Bool} {q : β → Bool}
    (hpq : ∀ x y, R x y → p x = q y) : xs.any p = ys.any q := by
  induction h with
  | nil => rfl
  | cons hxy _ ih => rw [List.any_cons, List.any_cons, hpq _ _ hxy, ih]

theorem forall_of_forall₂ {P : α → Prop} {Q : β → Prop} (h : List.Forall₂ R xs ys)
    (hR : ∀ x y, R x y → P x ∧ Q y) :
    (∀ x ∈ xs, P x) ∧ ∀ y ∈ ys, Q y := by
  induction h with
  | nil => simp
  | cons hxy _ ih =>
    obtain ⟨hx, hy⟩ := hR _ _ hxy
    exact ⟨List.forall_mem_cons.mpr ⟨hx, ih.1⟩, List.forall_mem_cons.mpr ⟨hy, ih.2⟩⟩

theorem rel_filter_eq (h : List.Forall₂ R xs ys) {p : α → Bool} {q : β → Bool}
    (hpq : ∀ x y, R x y → p x = q y) :
    List.Forall₂ (fun x y => R x y ∧ p x = true) (xs.filter p) (ys.filter q) := by
  induction h with
  | nil => exact .nil
  | @cons x y xs ys hxy _ ih =>
    rw [List.filter_cons, List.filter_cons, ← hpq x y hxy]
    cases hp : p x with
    | true => exact .cons ⟨hxy, hp⟩ ih
    | false => exact ih

theorem forall₂_zip_zip {us : List γ} {vs : List δ} (h : List.Forall₂ R xs ys)
    (h' : List.Forall₂ S us vs) :
    List.Forall₂ (fun p q => R p.1 q.1 ∧ S p.2 q.2) (xs.zip us) (ys.zip vs) := by
  induction h generalizing us vs with
  | nil => exact .nil
  | cons hxy _ ih =>
    cases h' with
    | nil => exact .nil
    | cons huv huvs => exact .cons ⟨hxy, huv⟩ (ih huvs)

/-! ## What is found in lists -/

theorem rel_head? (h : List.Forall₂ R xs ys) : Option.Rel R xs.head? ys.head? := by
  cases h with
  | nil => exact .none
  | cons hxy _ => exact .some hxy

theorem rel_find? (h : List.Forall₂ R xs ys) {p : α → Bool} {q : β → Bool}
    (hpq : ∀ x y, R x y → p x = q y) :
    Option.Rel (fun x y => R x y ∧ p x = true) (xs.find? p) (ys.find? q) := by
  induction h with
  | nil => exact .none
  | @cons x y xs ys hxy _ ih =>
    rw [List.find?_cons, List.find?_cons, ← hpq x y hxy]
    cases hp : p x with
    | true => exact .some ⟨hxy, hp⟩
    | false => exact ih

theorem rel_findSome? (h : List.Forall₂ R xs ys) {p : α → Option γ} {q : β → Option δ}
    (hpq : ∀ x y, R x y → Option.Rel S (p x) (q y)) :
    Option.Rel S (xs.findSome? p) (ys.findSome? q) := by
  induction h with
  | nil => exact .none
  | @cons x y xs ys hxy _ ih =>
    rw [List.findSome?_cons, List.findSome?_cons]
    have hfirst := hpq x y hxy
    generalize p x = p?, q y = q? at hfirst
    cases hfirst with
    | some hs => exact .some hs
    | none => exact ih

/-! ## Options -/

theorem rel_imp {T : α → β → Prop} (h : Option.Rel R x? y?) (himp : ∀ x y, R x y → T x y) :
    Option.Rel T x? y? := by
  cases h with
  | some hxy => exact .some (himp _ _ hxy)
  | none => exact .none

theorem rel_map (h : Option.Rel R x? y?) {p : α → γ} {q : β → δ}
    (hpq : ∀ x y, R x y → S (p x) (q y)) : Option.Rel S (x?.map p) (y?.map q) := by
  cases h with
  | some hxy => exact .some (hpq _ _ hxy)
  | none => exact .none

theorem rel_bind (h : Option.Rel R x? y?) {p : α → Option γ} {q : β → Option δ}
    (hpq : ∀ x y, R x y → Option.Rel S (p x) (q y)) : Option.Rel S (x?.bind p) (y?.bind q) := by
  cases h with
  | some hxy => exact hpq _ _ hxy
  | none => exact .none

theorem rel_filter (h : Option.Rel R x? y?) {p : α → Bool} {q : β → Bool}
    (hpq : ∀ x y, R x y → p x = q y) :
    Option.Rel (fun x y => R x y ∧ p x = true) (x?.filter p) (y?.filter q) := by
  cases h with
  | none => exact .none
  | @some x y hxy =>
    rw [Option.filter_some, Option.filter_some, ← hpq x y hxy]
    split
    · rename_i hp
      exact .some ⟨hxy, hp⟩
    · exact .none

theorem rel_orElse {x'? : Option α} {y'? : Option β} (h : Option.Rel R x? y?)
    (h' : Option.Rel R x'? y'?) : Option.Rel R (x? <|> x'?) (y? <|> y'?) := by
  cases h with
  | some hxy => exact .some hxy
  | none => exact h'

theorem map_eq_of_rel (h : Option.Rel R x? y?) {p : α → γ} {q : β → γ}
    (hpq : ∀ x y, R x y → p x = q y) : x?.map p = y?.map q := by
  cases h with
  | some hxy => exact congrArg some (hpq _ _ hxy)
  | none => rfl

theorem any_eq_of_rel (h : Option.Rel R x? y?) {p : α → Bool} {q : β → Bool}
    (hpq : ∀ x y, R x y → p x = q y) : x?.any p = y?.any q := by
  cases h with
  | none => rfl
  | some hxy => exact hpq _ _ hxy

theorem isSome_eq_of_rel (h : Option.Rel R x? y?) : x?.isSome = y?.isSome := by
  cases h <;> rfl

end SchemaLang
