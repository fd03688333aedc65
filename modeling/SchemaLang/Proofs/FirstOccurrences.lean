import SchemaLang.Proofs.Related
import SchemaLang.Proofs.JoinedPaths
import SchemaLang.SearchRoots

/-!
# First occurrences

Search roots keep of equal paths the one that comes first. Dropping the others
early or late makes no difference to a list that is mapped by something that
cannot tell equal paths apart.
-/

set_option autoImplicit false

namespace SchemaLang

namespace Path

variable {p q r : Path}

theorem same_refl (p : Path) : p.same p = true := (same_iff p p).mpr rfl

theorem same_eq_of_same (h : p.same q = true) (r : Path) : p.same r = q.same r := by
  simp only [same, (same_iff p q).mp h]

theorem same_eq_of_same_right (h : p.same q = true) (r : Path) : r.same p = r.same q := by
  simp only [same, (same_iff p q).mp h]

def firsts : List Path → List Path
  | [] => []
  | p :: ps => p :: (firsts ps).filter (!·.same p)

theorem pairwise_firsts (ps : List Path) : (firsts ps).Pairwise fun p q => p.same q = false := by
  induction ps with
  | nil => exact .nil
  | cons p ps ih =>
    refine List.pairwise_cons.mpr ⟨fun q hq => ?_, ih.filter _⟩
    have hother := (List.mem_filter.mp hq).2
    rw [Bool.not_eq_true'] at hother
    exact not_same_symm hother

/-- What is chosen without telling equal paths apart may be chosen before or after. -/
theorem filter_firsts {choose : Path → Bool}
    (h : ∀ p q : Path, p.same q = true → choose p = choose q) (ps : List Path) :
    (firsts ps).filter choose = firsts (ps.filter choose) := by
  induction ps with
  | nil => rfl
  | cons p ps ih =>
    cases hp : choose p with
    | true =>
      rw [firsts, List.filter_cons_of_pos hp, List.filter_cons_of_pos hp, firsts, ← ih,
        List.filter_filter, List.filter_filter]
      simp only [Bool.and_comm]
    | false =>
      rw [firsts, List.filter_cons_of_neg (by simp [hp]), List.filter_cons_of_neg (by simp [hp]),
        ← ih, List.filter_filter]
      refine List.filter_congr fun q _ => ?_
      cases hsame : q.same p with
      | true => rw [h q p hsame, hp]; rfl
      | false => rw [Bool.not_false, Bool.and_true]

theorem firsts_map_firsts {f : Path → Path}
    (h : ∀ p q : Path, p.same q = true → (f p).same (f q) = true) (ps : List Path) :
    firsts ((firsts ps).map f) = firsts (ps.map f) := by
  induction ps with
  | nil => rfl
  | cons p ps ih =>
    have hsame : ∀ q r : Path, q.same r = true → (!q.same (f p)) = !r.same (f p) :=
      fun q r hqr => by rw [same_eq_of_same hqr]
    have hdropped : (((firsts ps).filter (!·.same p)).map f).filter (!·.same (f p)) =
        ((firsts ps).map f).filter (!·.same (f p)) := by
      rw [List.filter_map, List.filter_map, List.filter_filter]
      refine congrArg _ (List.filter_congr fun q _ => ?_)
      cases hq : q.same p with
      | true => simp [h q p hq]
      | false => simp
    rw [List.map_cons, firsts, firsts, List.map_cons, firsts, filter_firsts hsame, hdropped,
      ← filter_firsts hsame, ih]

/-- What cannot tell equal paths apart holds of a path when it holds of a first one. -/
theorem any_firsts {choose : Path → Bool}
    (h : ∀ p q : Path, p.same q = true → choose p = choose q) (ps : List Path) :
    (firsts ps).any choose = ps.any choose := by
  have hnone (qs : List Path) : qs.any choose = !(qs.filter choose).isEmpty := by
    rw [Bool.eq_iff_iff, List.any_eq_true, Bool.not_eq_true', List.isEmpty_eq_false_iff_exists_mem]
    simp only [List.mem_filter]
  have hempty (qs : List Path) : (firsts qs).isEmpty = qs.isEmpty := by cases qs <;> rfl
  rw [hnone, hnone, filter_firsts h, hempty]

/-- Lists that are related path by path have their first occurrences in the same
places when the relation holds of equal paths only. -/
theorem forall₂_firsts {R : Path → Path → Prop} (hR : ∀ p q : Path, R p q → p.same q = true)
    {ps qs : List Path} (h : List.Forall₂ R ps qs) : List.Forall₂ R (firsts ps) (firsts qs) := by
  induction h with
  | nil => exact .nil
  | @cons p q ps qs hpq _ ih =>
    refine .cons hpq ((rel_filter_eq ih fun p' q' h => ?_).imp fun _ _ h => h.1)
    rw [same_eq_of_same (hR p' q' h), same_eq_of_same_right (hR p q hpq)]

end Path

namespace RootList

theorem contains_eq (r : SearchRoots) (p : Path) : r.contains p = r.paths.any (·.same p) := rfl

theorem relativeTo_eq (r : SearchRoots) (base : Path) :
    r.relativeTo base = ofList (r.paths.map base.join) := rfl

/-- Adding roots one after the other keeps the first occurrences. -/
theorem paths_foldl_push (ps : List Path) (r : SearchRoots) :
    (ps.foldl push r).paths = r.paths ++ (Path.firsts ps).filter (!r.contains ·) := by
  induction ps generalizing r with
  | nil => simp [Path.firsts]
  | cons p ps ih =>
    rw [List.foldl_cons, ih, Path.firsts]
    cases hp : r.contains p with
    | true =>
      rw [push_of_contains hp, List.filter_cons_of_neg (by simp [hp]), List.filter_filter]
      refine congrArg _ (List.filter_congr fun q _ => ?_)
      cases hq : q.same p with
      | true =>
        have hcontains : r.contains q = true := by
          rw [← hp, contains_eq, contains_eq]
          simp only [Path.same_eq_of_same_right hq]
        rw [hcontains]
        rfl
      | false => rw [Bool.not_false, Bool.and_true]
    | false =>
      rw [push_of_not_contains hp, List.filter_cons_of_pos (by simp [hp]), List.append_assoc,
        List.singleton_append, List.filter_filter]
      refine congrArg (r.paths ++ ·) (congrArg (p :: ·) (List.filter_congr fun q _ => ?_))
      have hsymm : p.same q = q.same p := by
        rw [Bool.eq_iff_iff, Path.same_iff, Path.same_iff, eq_comm]
      rw [contains_eq, contains_eq]
      simp [hsymm]

theorem paths_ofList (ps : List Path) : (ofList ps).paths = Path.firsts ps := by
  rw [ofList, paths_foldl_push]
  exact List.filter_eq_self.mpr fun _ _ => rfl

/-- Seeing listed roots from a directory keeps the first occurrences of what is seen. -/
theorem paths_relativeTo_ofList (ps : List Path) (base : Path) :
    ((ofList ps).relativeTo base).paths = Path.firsts (ps.map base.join) := by
  rw [relativeTo_eq, paths_ofList, paths_ofList, Path.firsts_map_firsts]
  exact fun p q h => Path.same_join base.same_refl h

theorem paths_relativeTo_relativeTo_ofList (ps : List Path) (base base' : Path) :
    (((ofList ps).relativeTo base).relativeTo base').paths =
      Path.firsts (ps.map fun p => base'.join (base.join p)) := by
  rw [relativeTo_eq, paths_ofList, paths_relativeTo_ofList, Path.firsts_map_firsts, List.map_map]
  · rfl
  · exact fun p q h => Path.same_join base'.same_refl h

end RootList

end SchemaLang
