import SchemaLang.Path
import SchemaLang.Proofs.DottedNames

/-!
# Joined paths

The parts of a path are its front, which tells absolute paths and those that
begin with `.` apart, and then its steps. Joining a relative path keeps the
front and puts the steps behind one another, so a path always lies below the
one it was joined to. Joining cannot tell paths with equal parts apart.
-/

set_option autoImplicit false

namespace SchemaLang

namespace Path

def front (p : Path) : List (PathPart String) :=
  if p.isAbsolute then [.root] else if p.pieces.head? = some "." then [.here] else []

def steps (p : Path) : List (PathPart String) := p.pieces.filterMap PathPart.ofPiece?

variable {p p' q q' : Path}

theorem parts_eq (p : Path) : p.parts = p.front ++ p.steps := rfl

theorem pieces_ne_nil (p : Path) : p.pieces ≠ [] := by
  simp [pieces, Text.split, List.splitOn_ne_nil]

theorem pieces_append_slash (cs ds : List Char) :
    pieces ⟨String.ofList (cs ++ '/' :: ds)⟩ =
      pieces ⟨String.ofList cs⟩ ++ pieces ⟨String.ofList ds⟩ := by
  simp only [pieces, Text.split, String.toList_ofList, splitOn_append_cons, List.map_append]

theorem not_same_symm (h : p.same q = false) : q.same p = false := by
  rw [Bool.eq_false_iff, Ne, same_iff] at h ⊢
  exact fun heq => h heq.symm

/-! ## Front and steps tell the parts -/

theorem not_mem_steps (p : Path) : PathPart.root ∉ p.steps ∧ PathPart.here ∉ p.steps := by
  have hpart {part : PathPart String} (h : part ∈ p.steps) :
      part = .up ∨ ∃ text, part = .name text := by
    obtain ⟨piece, -, hpiece⟩ := List.mem_filterMap.mp h
    unfold PathPart.ofPiece? at hpiece
    split at hpiece
    · cases hpiece
    · cases hpiece
    · exact .inl (Option.some.inj hpiece).symm
    · exact .inr ⟨_, (Option.some.inj hpiece).symm⟩
  constructor <;> intro h <;> rcases hpart h with h | ⟨text, h⟩ <;> cases h

theorem isAbsolute_iff (p : Path) : p.isAbsolute = true ↔ PathPart.root ∈ p.parts := by
  rw [parts_eq, List.mem_append, or_iff_left p.not_mem_steps.1, front]
  split
  · rename_i h
    exact iff_of_true h List.mem_cons_self
  · rename_i h
    refine iff_of_false h ?_
    split <;> simp

theorem isAbsolute_of_same (h : p.same q = true) : p.isAbsolute = q.isAbsolute := by
  rw [Bool.eq_iff_iff, isAbsolute_iff, isAbsolute_iff, (same_iff p q).mp h]

theorem steps_eq_filter (p : Path) :
    p.steps = p.parts.filter fun part => part ≠ .root ∧ part ≠ .here := by
  have hfront : p.front.filter (fun part => part ≠ .root ∧ part ≠ .here) = [] := by
    unfold front
    split
    · rfl
    · split <;> rfl
  rw [parts_eq, List.filter_append, hfront, List.nil_append, eq_comm, List.filter_eq_self]
  intro part hpart
  have := p.not_mem_steps
  rw [decide_eq_true_eq]
  exact ⟨fun h => this.1 (h ▸ hpart), fun h => this.2 (h ▸ hpart)⟩

theorem steps_of_same (h : p.same q = true) : p.steps = q.steps := by
  rw [steps_eq_filter, steps_eq_filter, (same_iff p q).mp h]

/-! ## Joining -/

theorem join_of_isAbsolute (h : q.isAbsolute = true) : p.join q = q := by
  rw [join, if_pos h]

theorem join_of_spelling_eq (h : p.spelling = "") : p.join q = q := by
  rw [join]
  split
  · rfl
  · rw [if_pos (by simp [h]), h, String.empty_append]

/-- The pieces of a joined path are those of both, but for a blank one at the end
of the first. -/
theorem exists_pieces_join (hp : p.spelling ≠ "") (hq : q.isAbsolute = false) :
    ∃ before, before ≠ [] ∧ (p.pieces = before ∨ p.pieces = before ++ [""]) ∧
      (p.join q).pieces = before ++ q.pieces := by
  have hself (r : Path) : r = ⟨String.ofList r.spelling.toList⟩ := by rw [String.ofList_toList]
  rw [join, if_neg (by simp [hq])]
  split
  · rename_i hends
    obtain ⟨cs, hcs⟩ : ∃ cs, p.spelling.toList = cs ++ ['/'] := by
      simp only [Bool.or_eq_true, decide_eq_true_eq, beq_iff_eq] at hends
      exact List.getLast?_eq_some_iff.mp (hends.resolve_left hp)
    refine ⟨pieces ⟨String.ofList cs⟩, pieces_ne_nil _, .inr ?_, ?_⟩
    · rw [hself p, hcs, pieces_append_slash]
      rfl
    · rw [← String.ofList_toList (s := p.spelling ++ q.spelling), String.toList_append, hcs,
        List.append_assoc, List.cons_append, List.nil_append, pieces_append_slash,
        String.ofList_toList]
  · refine ⟨p.pieces, p.pieces_ne_nil, .inl rfl, ?_⟩
    rw [← String.ofList_toList (s := p.spelling ++ "/" ++ q.spelling), String.toList_append,
      String.toList_append, List.append_assoc]
    show pieces ⟨String.ofList (p.spelling.toList ++ '/' :: q.spelling.toList)⟩ = _
    rw [pieces_append_slash, String.ofList_toList, String.ofList_toList]

theorem isAbsolute_join (hp : p.spelling ≠ "") (hq : q.isAbsolute = false) :
    (p.join q).isAbsolute = p.isAbsolute := by
  have hne : p.spelling.toList ≠ [] := by simpa using hp
  obtain ⟨c, cs, hcs⟩ := List.exists_cons_of_ne_nil hne
  rw [join, if_neg (by simp [hq])]
  split <;> simp [isAbsolute, String.toList_append, hcs]

theorem steps_join (hp : p.spelling ≠ "") (hq : q.isAbsolute = false) :
    (p.join q).steps = p.steps ++ q.steps := by
  obtain ⟨before, -, hpieces, hjoin⟩ := exists_pieces_join hp hq
  rw [steps, hjoin, List.filterMap_append, steps, steps]
  rcases hpieces with hpieces | hpieces <;> rw [hpieces]
  rw [List.filterMap_append]
  simp [PathPart.ofPiece?]

/-- A joined path has the front of the first one and the steps of both. -/
theorem parts_join (hp : p.spelling ≠ "") (hq : q.isAbsolute = false) :
    (p.join q).parts = p.parts ++ q.steps := by
  obtain ⟨before, hne, hpieces, hjoin⟩ := exists_pieces_join hp hq
  have hhead : (p.join q).pieces.head? = p.pieces.head? := by
    obtain ⟨first, others, rfl⟩ := List.exists_cons_of_ne_nil hne
    rw [hjoin]
    rcases hpieces with hpieces | hpieces <;> rw [hpieces] <;> rfl
  rw [parts_eq, parts_eq, steps_join hp hq, front, isAbsolute_join hp hq, hhead, List.append_assoc]
  rfl

theorem exists_first_piece (p : Path) : ∃ first others, p.pieces = first :: others :=
  List.exists_cons_of_ne_nil p.pieces_ne_nil

/-- Only absolute paths and the empty one begin with a slash or with nothing. -/
theorem first_piece_ne_empty (habsolute : p.isAbsolute = false) (hne : p.spelling ≠ "")
    {first : String} {others : List String} (h : p.pieces = first :: others) : first ≠ "" := by
  rintro rfl
  obtain ⟨c, cs, hcs⟩ := List.exists_cons_of_ne_nil (show p.spelling.toList ≠ [] by simpa using hne)
  have hslash : c ≠ '/' := fun hc => by simp [isAbsolute, hcs, hc] at habsolute
  rw [pieces, Text.split, hcs, List.splitOn_cons_eq_if_modifyHead,
    if_neg (by simpa using hslash)] at h
  cases hrest : cs.splitOn '/' with
  | nil => exact List.splitOn_ne_nil _ _ hrest
  | cons head tail =>
    rw [hrest, List.modifyHead_cons, List.map_cons] at h
    have hhead := congrArg String.toList (List.cons.inj h).1
    simp at hhead

theorem parts_eq_nil_iff (p : Path) : p.parts = [] ↔ p.spelling = "" := by
  constructor
  · intro h
    obtain ⟨hfront, hsteps⟩ := List.append_eq_nil_iff.mp (p.parts_eq ▸ h)
    by_contra hne
    unfold front at hfront
    split at hfront
    · cases hfront
    split at hfront
    · cases hfront
    rename_i habsolute hhere
    obtain ⟨first, others, hpieces⟩ := p.exists_first_piece
    have hfirst := first_piece_ne_empty ((Bool.not_eq_true _).mp habsolute) hne hpieces
    rw [hpieces, List.head?_cons, Option.some.injEq] at hhere
    rw [steps, hpieces] at hsteps
    have hpart := List.filterMap_eq_nil_iff.mp hsteps first List.mem_cons_self
    unfold PathPart.ofPiece? at hpart
    split at hpart
    · exact hfirst rfl
    · exact hhere rfl
    · cases hpart
    · cases hpart
  · intro h
    obtain ⟨spelling⟩ := p
    obtain rfl : spelling = "" := h
    decide

theorem same_join (hp : p.same p' = true) (hq : q.same q' = true) :
    (p.join q).same (p'.join q') = true := by
  have hempty : p.spelling = "" ↔ p'.spelling = "" := by
    rw [← parts_eq_nil_iff, ← parts_eq_nil_iff, (same_iff p p').mp hp]
  cases habsolute : q.isAbsolute with
  | true =>
    rw [join_of_isAbsolute habsolute,
      join_of_isAbsolute (by rw [← isAbsolute_of_same hq, habsolute]), hq]
  | false =>
    have habsolute' : q'.isAbsolute = false := by rw [← isAbsolute_of_same hq, habsolute]
    by_cases hp' : p.spelling = ""
    · rw [join_of_spelling_eq hp', join_of_spelling_eq (hempty.mp hp'), hq]
    · rw [same_iff, parts_join hp' habsolute, parts_join (mt hempty.mpr hp') habsolute',
        (same_iff p p').mp hp, steps_of_same hq]

/-! ## Names below a directory -/

variable {name : String}

theorem isAbsolute_of_not_mem (h : '/' ∉ name.toList) : isAbsolute ⟨name⟩ = false := by
  cases hcs : name.toList with
  | nil => simp [isAbsolute, hcs]
  | cons c cs =>
    have hc : c ≠ '/' := fun hc => h (by rw [hcs, hc]; exact List.mem_cons_self)
    simp [isAbsolute, hcs, hc]

theorem pieces_of_not_mem (h : '/' ∉ name.toList) : pieces ⟨name⟩ = [name] := by
  have hwhole : ['/'].intercalate [name.toList] = name.toList := by simp [List.intercalate]
  have hsplit : name.toList.splitOn '/' = [name.toList] := by
    conv_lhs => rw [← hwhole]
    exact List.splitOn_intercalate '/' (by simpa using h) (by simp)
  rw [pieces, Text.split, hsplit, List.map_singleton, String.ofList_toList]

theorem exists_parts_joinName (p : Path) (h : '/' ∉ name.toList) (hempty : name ≠ "")
    (hhere : name ≠ ".") : ∃ part, (p.joinName name).parts = p.parts ++ [part] := by
  have hsteps : ∃ part, steps ⟨name⟩ = [part] := by
    rw [steps, pieces_of_not_mem h]
    by_cases hup : name = ".."
    · exact ⟨.up, by rw [hup]; rfl⟩
    · exact ⟨.name name, by simp [PathPart.ofPiece?]⟩
  obtain ⟨part, hsteps⟩ := hsteps
  refine ⟨part, ?_⟩
  by_cases hp : p.spelling = ""
  · rw [joinName, join_of_spelling_eq hp, (parts_eq_nil_iff p).mpr hp, parts_eq, hsteps, front,
      isAbsolute_of_not_mem h, pieces_of_not_mem h]
    simp [hhere]
  · rw [joinName, parts_join hp (isAbsolute_of_not_mem h), hsteps]

theorem parts_isPrefix_joinName (p : Path) (h : '/' ∉ name.toList) :
    p.parts <+: (p.joinName name).parts := by
  by_cases hp : p.spelling = ""
  · rw [(parts_eq_nil_iff p).mpr hp]
    exact List.nil_prefix
  · rw [joinName, parts_join hp (isAbsolute_of_not_mem h)]
    exact List.prefix_append _ _

end Path

end SchemaLang
