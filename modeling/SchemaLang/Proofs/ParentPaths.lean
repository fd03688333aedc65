import Mathlib.Data.List.TakeWhile
import SchemaLang.Proofs.JoinedPaths

/-!
# The directory that holds a file

The parent of a name joined to a directory is that directory, spelled without
the blank pieces at its end: both begin alike and have the same other pieces.
-/

set_option autoImplicit false

namespace SchemaLang

namespace Path

def isBlank (piece : String) : Bool := piece == "" || piece == "."

def solid (p : Path) : List String := p.pieces.filter (!isBlank ·)

variable {p q dir : Path} {name : String} {before : List String}

theorem steps_eq_filterMap_solid (p : Path) : p.steps = p.solid.filterMap PathPart.ofPiece? := by
  rw [steps, solid, List.filterMap_filter]
  refine List.filterMap_congr fun piece _ => ?_
  cases hblank : isBlank piece with
  | false => rfl
  | true =>
    simp only [isBlank, Bool.or_eq_true, beq_iff_eq] at hblank
    rcases hblank with rfl | rfl <;> rfl

structure Alike (p q : Path) : Prop where
  absolute : p.isAbsolute = q.isAbsolute
  empty : p.spelling = "" ↔ q.spelling = ""
  here : p.pieces.head? = some "." ↔ q.pieces.head? = some "."
  solid : p.solid = q.solid

theorem Alike.same (h : p.Alike q) : p.same q = true := by
  rw [same_iff, parts_eq, parts_eq, steps_eq_filterMap_solid, steps_eq_filterMap_solid, h.solid,
    front, front, h.absolute]
  simp only [h.here]

/-- A path begins with a slash when its first piece is empty. -/
theorem isAbsolute_iff_head? (hne : p.spelling ≠ "") :
    p.isAbsolute = true ↔ p.pieces.head? = some "" := by
  obtain ⟨first, others, hpieces⟩ := p.exists_first_piece
  constructor
  · intro habsolute
    obtain ⟨cs, hcs⟩ := List.head?_eq_some_iff.mp (beq_iff_eq.mp habsolute)
    have hsplit := pieces_append_slash [] cs
    rw [List.nil_append, ← hcs, String.ofList_toList] at hsplit
    rw [show p.pieces = _ from hsplit]
    rfl
  · intro hhead
    rw [hpieces, List.head?_cons, Option.some.injEq] at hhead
    by_contra habsolute
    exact first_piece_ne_empty ((Bool.not_eq_true _).mp habsolute) hne hpieces hhead

theorem Alike.of_head? (hp : p.spelling ≠ "") (hq : q.spelling ≠ "")
    (hhead : p.pieces.head? = q.pieces.head?) (hsolid : p.solid = q.solid) : p.Alike q where
  absolute := by rw [Bool.eq_iff_iff, isAbsolute_iff_head? hp, isAbsolute_iff_head? hq, hhead]
  empty := iff_of_false hp hq
  here := by rw [hhead]
  solid := hsolid

/-! ## Pieces with slashes between them -/

def trimmed (pieces : List String) : List String := (pieces.reverse.dropWhile isBlank).reverse

theorem exists_trimmed_append (pieces : List String) :
    ∃ blanks, pieces = trimmed pieces ++ blanks ∧ ∀ piece ∈ blanks, isBlank piece = true := by
  refine ⟨(pieces.reverse.takeWhile isBlank).reverse, ?_, fun piece hpiece => ?_⟩
  · rw [trimmed, ← List.reverse_append, List.takeWhile_append_dropWhile, List.reverse_reverse]
  · exact List.mem_takeWhile_imp (List.mem_reverse.mp hpiece)

theorem filter_trimmed (pieces : List String) :
    (trimmed pieces).filter (!isBlank ·) = pieces.filter (!isBlank ·) := by
  obtain ⟨blanks, hsplit, hblanks⟩ := exists_trimmed_append pieces
  have hnone : blanks.filter (!isBlank ·) = [] :=
    List.filter_eq_nil_iff.mpr fun piece hpiece => by simp [hblanks piece hpiece]
  conv_rhs => rw [hsplit, List.filter_append, hnone, List.append_nil]

theorem mem_of_mem_trimmed {piece : String} {pieces : List String} (h : piece ∈ trimmed pieces) :
    piece ∈ pieces := by
  obtain ⟨blanks, hsplit, -⟩ := exists_trimmed_append pieces
  rw [hsplit]
  exact List.mem_append_left blanks h

theorem pieces_intercalate {pieces : List String} (hplain : ∀ piece ∈ pieces, '/' ∉ piece.toList)
    (hne : pieces ≠ []) : Path.pieces ⟨"/".intercalate pieces⟩ = pieces :=
  Text.split_intercalate rfl hplain hne

theorem pieces_behind_slash (front rest : String) :
    Path.pieces ⟨front ++ "/" ++ rest⟩ = Path.pieces ⟨front⟩ ++ Path.pieces ⟨rest⟩ := by
  rw [← String.ofList_toList (s := front ++ "/" ++ rest), String.toList_append,
    String.toList_append, List.append_assoc]
  show Path.pieces ⟨String.ofList (front.toList ++ '/' :: rest.toList)⟩ = _
  rw [pieces_append_slash, String.ofList_toList, String.ofList_toList]

/-- The pieces of a row with slashes between them are blank or stand in the row. -/
theorem solid_intercalate {pieces : List String} (hplain : ∀ piece ∈ pieces, '/' ∉ piece.toList) :
    (Path.pieces ⟨"/".intercalate pieces⟩).filter (!isBlank ·) = pieces.filter (!isBlank ·) := by
  by_cases hne : pieces = []
  · rw [hne]
    rfl
  · rw [pieces_intercalate hplain hne]

theorem not_mem_of_mem_pieces {piece : String} (h : piece ∈ p.pieces) : '/' ∉ piece.toList :=
  Text.not_mem_of_mem_split h

/-! ## Parents -/

section Parents

variable (hpieces : p.pieces = before ++ [name]) (hname : isBlank name = false)
include hpieces hname

theorem parent?_of_isAbsolute (habsolute : p.isAbsolute = true) (hne : before ≠ []) :
    p.parent? = some ⟨"/" ++ "/".intercalate (trimmed before.tail)⟩ := by
  obtain ⟨first, others, rfl⟩ := List.exists_cons_of_ne_nil hne
  have hdrop : (p.pieces.drop 1).reverse.dropWhile isBlank = name :: others.reverse := by
    rw [hpieces]
    simp [hname]
  rw [parent?]
  simp only [habsolute, Bool.true_or, if_true]
  rw [show (p.pieces.drop 1).reverse.dropWhile (fun piece => piece == "" || piece == ".") =
    name :: others.reverse from hdrop]
  rfl

theorem parent?_of_here (habsolute : p.isAbsolute = false) (hhere : before.head? = some ".") :
    p.parent? = some ⟨if trimmed before.tail = [] then "."
      else "." ++ "/" ++ "/".intercalate (trimmed before.tail)⟩ := by
  obtain ⟨others, rfl⟩ := List.head?_eq_some_iff.mp hhere
  have hdrop : (p.pieces.drop 1).reverse.dropWhile isBlank = name :: others.reverse := by
    rw [hpieces]
    simp [hname]
  have hfirst : p.pieces.head? = some "." := by rw [hpieces]; rfl
  rw [parent?]
  simp only [habsolute, hfirst, Bool.false_or, beq_self_eq_true, if_true, Bool.false_eq_true,
    if_false]
  rw [show (p.pieces.drop 1).reverse.dropWhile (fun piece => piece == "" || piece == ".") =
    name :: others.reverse from hdrop]
  show some (Path.mk (if (decide ("." = ".") && !(trimmed others).isEmpty) = true then
    "./" ++ "/".intercalate (trimmed others) else "." ++ "/".intercalate (trimmed others))) = _
  rw [List.tail_cons]
  by_cases hnil : trimmed others = []
  · rw [hnil]
    rfl
  · rw [if_neg hnil, if_pos (by simpa using hnil)]
    rfl

theorem parent?_of_plain (habsolute : p.isAbsolute = false) (hhere : p.pieces.head? ≠ some ".") :
    p.parent? = some ⟨"/".intercalate (trimmed before)⟩ := by
  have hdrop : p.pieces.reverse.dropWhile isBlank = name :: before.reverse := by
    rw [hpieces]
    simp [hname]
  have hfirst : (p.pieces.head? == some ".") = false := by simpa using hhere
  rw [parent?]
  simp only [habsolute, hfirst, Bool.or_self, Bool.false_eq_true, if_false]
  rw [show p.pieces.reverse.dropWhile (fun piece => piece == "" || piece == ".") =
    name :: before.reverse from hdrop]
  exact congrArg (fun spelling => some (Path.mk spelling)) String.empty_append

end Parents

section Holders

variable {first : String} {others : List String} (hempty : dir.spelling ≠ "")
  (hhead : dir.pieces.head? = some first)
  (hsolid : dir.solid = (first :: others).filter (!isBlank ·))
  (hplain : ∀ piece ∈ first :: others, '/' ∉ piece.toList)
include hempty hhead hsolid hplain

/-- A directory that begins with a blank piece, spelled with the others behind that one. -/
theorem alike_of_blank (hfirst : isBlank first = true) :
    Alike ⟨first ++ "/" ++ "/".intercalate (trimmed others)⟩ dir := by
  have hpieces := pieces_behind_slash first ("/".intercalate (trimmed others))
  rw [pieces_of_not_mem (hplain first List.mem_cons_self)] at hpieces
  refine .of_head? (by simp) hempty (by rw [hpieces, hhead]; rfl) ?_
  have htrimmed : ∀ piece ∈ trimmed others, '/' ∉ piece.toList := fun piece hpiece =>
    hplain piece (List.mem_cons_of_mem _ (mem_of_mem_trimmed hpiece))
  rw [hsolid, solid, hpieces, List.singleton_append,
    List.filter_cons_of_neg (by simp [hfirst]), List.filter_cons_of_neg (by simp [hfirst]),
    solid_intercalate htrimmed, filter_trimmed]

/-- A directory that begins with a step, spelled with its pieces as they are. -/
theorem alike_of_solid (hfirst : isBlank first = false) :
    Alike ⟨"/".intercalate (trimmed (first :: others))⟩ dir := by
  obtain ⟨blanks, hsplit, hblanks⟩ := exists_trimmed_append (first :: others)
  obtain ⟨rest, hrest⟩ : ∃ rest, trimmed (first :: others) = first :: rest := by
    cases hkept : trimmed (first :: others) with
    | nil =>
      rw [hkept, List.nil_append] at hsplit
      rw [hblanks first (hsplit ▸ List.mem_cons_self)] at hfirst
      cases hfirst
    | cons kept rest =>
      rw [hkept, List.cons_append] at hsplit
      exact ⟨rest, by rw [(List.cons.inj hsplit).1]⟩
  have hpieces := pieces_intercalate
    (fun piece hpiece => hplain piece (mem_of_mem_trimmed hpiece))
    (by rw [hrest]; exact List.cons_ne_nil _ _)
  refine .of_head? (fun hspelling => ?_) hempty ?_ ?_
  · have hnone : pieces ⟨"/".intercalate (trimmed (first :: others))⟩ = [""] :=
      congrArg (fun spelling => pieces ⟨spelling⟩) hspelling
    rw [hpieces, hrest] at hnone
    rw [(List.cons.inj hnone).1] at hfirst
    cases hfirst
  · rw [hpieces, hrest, hhead]
    rfl
  · rw [hsolid, solid, hpieces, filter_trimmed]

/-- Of a joined name all pieces are known: those in front of it are the directory's. -/
theorem exists_parent_of_pieces (hjoin : p.pieces = (first :: others) ++ [name])
    (hname : isBlank name = false) (habsolute : p.isAbsolute = dir.isAbsolute) :
    ∃ base, p.parent? = some base ∧ base.Alike dir := by
  cases hroot : dir.isAbsolute with
  | true =>
    refine ⟨_, parent?_of_isAbsolute hjoin hname (habsolute.trans hroot) (List.cons_ne_nil _ _), ?_⟩
    obtain rfl : first = "" := by
      rw [isAbsolute_iff_head? hempty, hhead] at hroot
      exact Option.some.inj hroot
    exact alike_of_blank hempty hhead hsolid hplain rfl
  | false =>
    have hrelative := habsolute.trans hroot
    by_cases hfirst : first = "."
    · subst hfirst
      refine ⟨_, parent?_of_here hjoin hname hrelative rfl, ?_⟩
      rw [List.tail_cons]
      split
      · rename_i hnone
        refine .of_head? (by simp) hempty hhead.symm ?_
        rw [hsolid, List.filter_cons_of_neg (by decide), ← filter_trimmed, hnone]
        rfl
      · exact alike_of_blank hempty hhead hsolid hplain rfl
    · have hnonempty : first ≠ "" := fun h => by
        rw [h, ← isAbsolute_iff_head? hempty, hroot] at hhead
        cases hhead
      have hplace : p.pieces.head? ≠ some "." := by
        rw [hjoin]
        simpa using hfirst
      refine ⟨_, parent?_of_plain hjoin hname hrelative hplace,
        alike_of_solid hempty hhead hsolid hplain (by simp [isBlank, hnonempty, hfirst])⟩

end Holders

/-- The parent of a name in a directory is spelled like the directory. -/
theorem exists_parent_joinName (dir : Path) (hslash : '/' ∉ name.toList)
    (hname : isBlank name = false) :
    ∃ base, (dir.joinName name).parent? = some base ∧ base.Alike dir := by
  have hrelative := isAbsolute_of_not_mem hslash
  have hhere : name ≠ "." := fun h => by
    rw [h] at hname
    cases hname
  by_cases hempty : dir.spelling = ""
  · have hpieces : pieces ⟨name⟩ = [] ++ [name] := pieces_of_not_mem hslash
    rw [joinName, join_of_spelling_eq hempty,
      parent?_of_plain hpieces hname hrelative (by rw [hpieces]; simpa using hhere)]
    obtain ⟨spelling⟩ := dir
    obtain rfl : spelling = "" := hempty
    exact ⟨_, rfl, rfl, Iff.rfl, Iff.rfl, rfl⟩
  obtain ⟨before, hne, hdir, hjoin⟩ := exists_pieces_join (q := ⟨name⟩) hempty hrelative
  rw [pieces_of_not_mem hslash] at hjoin
  obtain ⟨first, others, rfl⟩ := List.exists_cons_of_ne_nil hne
  have hhead : dir.pieces.head? = some first := by rcases hdir with h | h <;> rw [h] <;> rfl
  have hsolid : dir.solid = (first :: others).filter (!isBlank ·) := by
    rcases hdir with h | h <;> rw [solid, h]
    rw [List.filter_append]
    exact List.append_nil _
  have hplain : ∀ piece ∈ first :: others, '/' ∉ piece.toList := fun piece hpiece =>
    not_mem_of_mem_pieces (p := dir) (by
      rcases hdir with h | h <;> rw [h]
      · exact hpiece
      · exact List.mem_append_left _ hpiece)
  exact exists_parent_of_pieces hempty hhead hsolid hplain hjoin hname
    (isAbsolute_join hempty hrelative)

end Path

end SchemaLang
