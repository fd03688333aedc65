import SchemaLang.Proofs.FirstOccurrences
import SchemaLang.Proofs.Parts

/-!
# Roots on lines of text

Roots are kept as text with one of them on a line, and read back without the blanks
around a line. Slashes and dots are no blanks, so a path tells by its parts which
blanks its spelling has: what is read for a root is equal to it only if nothing was
taken off or cut. So the roots that come back are those with something to them, on
one line, with no blanks at their ends, and what was read once comes back always.
-/

set_option autoImplicit false

namespace SchemaLang

/-! ## Blanks in a path -/

namespace PathPart

def characters : PathPart String → List Char
  | name text => text.toList
  | _ => []

end PathPart

namespace Path

variable {p q : Path}

theorem filter_intercalate {α : Type} {keep : α → Bool} {separator : α}
    (h : keep separator = false) (pieces : List (List α)) :
    ([separator].intercalate pieces).filter keep = pieces.flatMap (List.filter keep) := by
  induction pieces with
  | nil => rfl
  | cons first others ih =>
    cases others with
    | nil => simp [List.intercalate]
    | cons second others =>
      rw [List.intercalate_cons_cons, List.filter_append, List.filter_append, ih,
        List.filter_cons_of_neg (by simp [h]), List.filter_nil, List.append_nil]
      rfl

theorem filter_ofPiece? (piece : String) :
    (((PathPart.ofPiece? piece).toList.flatMap PathPart.characters).filter Text.isWhite) =
      piece.toList.filter Text.isWhite := by
  unfold PathPart.ofPiece?
  split
  · rfl
  · decide
  · decide
  · simp [PathPart.characters]

theorem filter_parts (p : Path) :
    (p.parts.flatMap PathPart.characters).filter Text.isWhite =
      p.spelling.toList.filter Text.isWhite := by
  have hfront : p.front.flatMap PathPart.characters = [] := by
    unfold front
    split
    · rfl
    · split <;> rfl
  have hspelling : ['/'].intercalate (p.spelling.toList.splitOn '/') = p.spelling.toList :=
    List.intercalate_splitOn '/'
  rw [parts_eq, List.flatMap_append, hfront, List.nil_append, steps, pieces, Text.split,
    List.filterMap_eq_flatMap_toList, List.flatMap_assoc, List.filter_flatMap, List.flatMap_map,
    ← hspelling, filter_intercalate (by decide), hspelling]
  simp only [filter_ofPiece?, String.toList_ofList]

theorem filter_isWhite_of_same (h : p.same q = true) :
    p.spelling.toList.filter Text.isWhite = q.spelling.toList.filter Text.isWhite := by
  rw [← filter_parts, ← filter_parts, (same_iff p q).mp h]

end Path

/-! ## Trimming -/

namespace Text

variable {s : String} {cs : List Char} {c : Char}

/-- A text is what trimming leaves of it with blanks around. -/
theorem exists_append_trim (s : String) : ∃ lead behind,
    s.toList = lead ++ (trim s).toList ++ behind ∧
      (∀ c ∈ lead, isWhite c = true) ∧ ∀ c ∈ behind, isWhite c = true := by
  refine ⟨s.toList.takeWhile isWhite, ((trimStart s.toList).reverse.takeWhile isWhite).reverse,
    ?_, fun c hc => List.mem_takeWhile_imp hc,
    fun c hc => List.mem_takeWhile_imp (List.mem_reverse.mp hc)⟩
  rw [trim, String.toList_ofList, List.append_assoc, trimEnd, ← List.reverse_append,
    List.takeWhile_append_dropWhile, List.reverse_reverse, trimStart,
    List.takeWhile_append_dropWhile]

theorem trim_eq_of_filter (h : (trim s).toList.filter isWhite = s.toList.filter isWhite) :
    trim s = s := by
  obtain ⟨lead, behind, hs, hlead, hbehind⟩ := exists_append_trim s
  have hlength := congrArg List.length h
  rw [hs, List.filter_append, List.filter_append, List.filter_eq_self.mpr hlead,
    List.filter_eq_self.mpr hbehind, List.length_append, List.length_append] at hlength
  have hnone : lead = [] ∧ behind = [] := by
    rw [← List.length_eq_zero_iff, ← List.length_eq_zero_iff]
    omega
  rw [hnone.1, hnone.2, List.nil_append, List.append_nil] at hs
  exact (String.toList_inj.mp hs).symm

structure Bare (s : String) : Prop where
  head : ∀ c ∈ s.toList.head?, isWhite c = false
  last : ∀ c ∈ s.toList.getLast?, isWhite c = false

theorem Bare.trim_eq (h : Bare s) : trim s = s := by
  obtain ⟨lead, behind, hs, hlead, hbehind⟩ := exists_append_trim s
  have hnolead : lead = [] := by
    cases lead with
    | nil => rfl
    | cons c lead =>
      have hhead := h.head c (by simp [hs])
      rw [hlead c List.mem_cons_self] at hhead
      cases hhead
  have hnobehind : behind = [] := by
    rcases List.eq_nil_or_concat behind with rfl | ⟨behind, c, rfl⟩
    · rfl
    · have hlast := h.last c (by simp [hs])
      rw [hbehind c (by simp)] at hlast
      cases hlast
  rw [hnolead, hnobehind, List.nil_append, List.append_nil] at hs
  exact (String.toList_inj.mp hs).symm

theorem not_white_of_head?_dropWhile (h : (cs.dropWhile isWhite).head? = some c) :
    isWhite c = false := by
  have hnot := List.head?_dropWhile_not isWhite cs
  rwa [h] at hnot

theorem bare_trim (s : String) : Bare (trim s) where
  head c hc := by
    have hprefix : trimEnd (trimStart s.toList) <+: trimStart s.toList := by
      rw [trimEnd, ← List.reverse_suffix, List.reverse_reverse]
      exact List.dropWhile_suffix _
    obtain ⟨behind, hbehind⟩ := hprefix
    obtain ⟨rest, hrest⟩ := List.head?_eq_some_iff.mp hc
    rw [trim, String.toList_ofList] at hrest
    rw [hrest] at hbehind
    have hhead : (s.toList.dropWhile isWhite).head? = some c := by
      show (trimStart s.toList).head? = some c
      rw [← hbehind]
      rfl
    exact not_white_of_head?_dropWhile hhead
  last c hc := by
    rw [trim, String.toList_ofList, trimEnd, List.getLast?_reverse] at hc
    exact not_white_of_head?_dropWhile hc

/-- A blank at the end of a line makes no difference to what is left of it. -/
theorem trim_dropLast (hc : cs.getLast? = some c) (hwhite : isWhite c = true) :
    trim (String.ofList cs.dropLast) = trim (String.ofList cs) := by
  obtain ⟨front, rfl⟩ := List.getLast?_eq_some_iff.mp hc
  rw [List.dropLast_concat, trim, trim, String.toList_ofList, String.toList_ofList, trimStart,
    trimStart, List.dropWhile_append]
  split
  · rename_i hall
    rw [List.isEmpty_iff.mp hall, List.dropWhile_cons_of_pos hwhite]
    rfl
  · rw [trimEnd, trimEnd, List.reverse_append, List.reverse_singleton, List.singleton_append,
      List.dropWhile_cons_of_pos hwhite]

/-- A text that comes back from a line of its own: there is something to it, it is on one
line, and it has no blanks at its ends. -/
structure Persists (s : String) : Prop where
  nonempty : s ≠ ""
  oneLine : '\n' ∉ s.toList
  bare : Bare s

theorem bare_iff {s : String} : Bare s ↔
    s.toList.head?.all (!isWhite ·) = true ∧ s.toList.getLast?.all (!isWhite ·) = true := by
  simp only [Option.all_eq_true, Bool.not_eq_true']
  exact ⟨fun h => ⟨h.head, h.last⟩, fun ⟨hhead, hlast⟩ => ⟨hhead, hlast⟩⟩

instance (s : String) : Decidable (Bare s) := decidable_of_iff' _ bare_iff

instance (s : String) : Decidable (Persists s) :=
  decidable_of_iff (s ≠ "" ∧ '\n' ∉ s.toList ∧ Bare s)
    ⟨fun ⟨hne, hline, hbare⟩ => ⟨hne, hline, hbare⟩, fun h => ⟨h.nonempty, h.oneLine, h.bare⟩⟩

end Text

/-! ## Reading roots -/

namespace Path

variable {ps : List Path}

theorem sublist_firsts (ps : List Path) : (firsts ps).Sublist ps := by
  induction ps with
  | nil => exact .slnil
  | cons p ps ih => exact (List.filter_sublist.trans ih).cons_cons p

theorem pairwise_of_same {qs : List Path} (h : List.Forall₂ (fun p q => p.same q = true) ps qs)
    (hdistinct : ps.Pairwise fun p q => p.same q = false) :
    qs.Pairwise fun p q => p.same q = false := by
  induction h with
  | nil => exact .nil
  | @cons p q ps qs hsame hrest ih =>
    rw [List.pairwise_cons] at hdistinct ⊢
    have hfirst : List.Forall₂ (fun p' q' => p.same p' = false ∧ p'.same q' = true) ps qs :=
      (List.forall₂_and_left _ _).mpr ⟨hdistinct.1, hrest⟩
    refine ⟨(forall_of_forall₂ hfirst fun p' q' ⟨hother, hsame'⟩ => ⟨hother, ?_⟩).2,
      ih hdistinct.2⟩
    rwa [← same_eq_of_same hsame, ← same_eq_of_same_right hsame']

theorem firsts_of_pairwise (h : ps.Pairwise fun p q => p.same q = false) : firsts ps = ps := by
  induction h with
  | nil => rfl
  | @cons p ps hp _ ih =>
    rw [firsts, ih, List.filter_eq_self.mpr fun q hq => ?_]
    rw [not_same_symm (hp q hq)]
    rfl

end Path

namespace RootList

def Distinct {π : Type} [RootPath π] (r : RootList π) : Prop :=
  r.paths.Pairwise fun p q => RootPath.same p q = false

instance {π : Type} [RootPath π] (r : RootList π) : Decidable r.Distinct :=
  inferInstanceAs (Decidable (List.Pairwise _ _))

def ComesBack {π : Type} [RootPath π] (r : RootList π) : Prop :=
  List.Forall₂ (fun p q => RootPath.same p q = true) (parse (π := π) r.format).paths r.paths

variable {r : SearchRoots} {text : String} {p : Path}

def rootLines (text : String) : List String :=
  ((Text.split '\n' text).map Text.trim).filter (· ≠ "")

/-- The ending of a line is a blank, so it makes no difference how lines are ended. -/
theorem filter_trim_lines (text : String) :
    ((Text.lines text).map Text.trim).filter (· ≠ "") = rootLines text := by
  obtain ⟨before, last, hpieces⟩ :=
    (List.eq_nil_or_concat (text.toList.splitOn '\n')).resolve_left (List.splitOn_ne_nil _ _)
  have hended : (before.map fun line =>
      if line.getLast? = some '\r' then line.dropLast else line).map (Text.trim ∘ String.ofList) =
        before.map (Text.trim ∘ String.ofList) := by
    rw [List.map_map]
    refine List.map_congr_left fun line _ => ?_
    dsimp only [Function.comp_apply]
    split
    · exact Text.trim_dropLast ‹_› (by decide)
    · rfl
  rw [List.concat_eq_append] at hpieces
  rw [Text.lines, rootLines, Text.split, hpieces, List.dropLast_concat, List.getLast?_concat]
  rw [List.map_map, List.map_map, List.map_append, List.map_append, hended, List.filter_append,
    List.filter_append]
  refine congrArg _ ?_
  by_cases hlast : last = []
  · subst hlast
    decide
  · simp [hlast]

theorem paths_parse (text : String) :
    (SearchRoots.parse text).paths = Path.firsts ((rootLines text).map Path.mk) := by
  have hfilter (lines : List String) :
      lines.filterMap (fun line => if line = "" then none else some (Path.mk line)) =
        (lines.filter (· ≠ "")).map Path.mk := by
    induction lines with
    | nil => rfl
    | cons line lines ih =>
      by_cases hline : line = "" <;> simp [hline, ih]
  rw [SearchRoots.parse, parse, paths_ofList, ← filter_trim_lines, ← hfilter]
  rfl

theorem distinct_parse (text : String) : (SearchRoots.parse text).Distinct := by
  rw [Distinct, paths_parse]
  exact Path.pairwise_firsts _

theorem persists_of_mem_parse (h : p ∈ (SearchRoots.parse text).paths) :
    Text.Persists p.spelling := by
  rw [paths_parse] at h
  obtain ⟨line, hline, rfl⟩ := List.mem_map.mp ((Path.sublist_firsts _).subset h)
  obtain ⟨hline, hne⟩ := List.mem_filter.mp hline
  obtain ⟨piece, hpiece, rfl⟩ := List.mem_map.mp hline
  refine ⟨of_decide_eq_true hne, fun hbreak => ?_, Text.bare_trim piece⟩
  obtain ⟨lead, behind, hs, -, -⟩ := Text.exists_append_trim piece
  refine Text.not_mem_of_mem_split hpiece ?_
  rw [hs]
  exact List.mem_append_left _ (List.mem_append_right _ hbreak)

theorem rootLines_format (h : ∀ p ∈ r.paths, '\n' ∉ p.spelling.toList) :
    rootLines r.format = ((r.paths.map fun p => Text.trim p.spelling)).filter (· ≠ "") := by
  have hformat : r.format = "\n".intercalate (r.paths.map Path.spelling) := rfl
  rw [rootLines, hformat]
  cases hr : r.paths with
  | nil => decide
  | cons p ps =>
    rw [← hr, Text.split_intercalate (show "\n".toList = ['\n'] from rfl)
      (List.forall_mem_map.mpr h) (by simp [hr]), List.map_map]
    rfl

/-- Distinct roots that persist come back as they are spelled. -/
theorem parse_format (hdistinct : r.Distinct) (h : ∀ p ∈ r.paths, Text.Persists p.spelling) :
    SearchRoots.parse r.format = r := by
  have hlines : (rootLines r.format).map Path.mk = r.paths := by
    have htrim : r.paths.map (fun p => Text.trim p.spelling) = r.paths.map Path.spelling :=
      List.map_congr_left fun p hp => (h p hp).bare.trim_eq
    rw [rootLines_format fun p hp => (h p hp).oneLine, htrim, List.filter_eq_self.mpr ?_,
      List.map_map]
    · exact List.map_id _
    · exact List.forall_mem_map.mpr fun p hp => decide_eq_true (h p hp).nonempty
  refine RootList.ext ?_
  rw [paths_parse, hlines, Path.firsts_of_pairwise hdistinct]

theorem persists_of_comesBack (h : r.ComesBack) :
    ∀ p ∈ r.paths, Text.Persists p.spelling := by
  have hread : List.Forall₂ (fun q p => '\n' ∉ q.spelling.toList ∧ q.same p = true)
      (SearchRoots.parse r.format).paths r.paths :=
    (List.forall₂_and_left _ _).mpr ⟨fun q hq => (persists_of_mem_parse hq).oneLine, h⟩
  have hbreak : ∀ p ∈ r.paths, '\n' ∉ p.spelling.toList := by
    refine (forall_of_forall₂ hread fun q p ⟨hbreak, hsame⟩ => ⟨hbreak, fun hmem => ?_⟩).2
    have hwhite : '\n' ∈ p.spelling.toList.filter Text.isWhite :=
      List.mem_filter.mpr ⟨hmem, by decide⟩
    rw [← Path.filter_isWhite_of_same hsame] at hwhite
    exact hbreak (List.mem_of_mem_filter hwhite)
  -- as many roots come back as there were, so none was blank and no two fell together
  have hpaths : (SearchRoots.parse r.format).paths =
      r.paths.map fun p => ⟨Text.trim p.spelling⟩ := by
    have hsub : (SearchRoots.parse r.format).paths.Sublist
        (r.paths.map fun p => ⟨Text.trim p.spelling⟩) := by
      have hlines : ((r.paths.map fun p => Text.trim p.spelling).filter (· ≠ "")).Sublist
          (r.paths.map fun p => Text.trim p.spelling) := List.filter_sublist
      have hmap := (Path.sublist_firsts _).trans (hlines.map Path.mk)
      rwa [← rootLines_format hbreak, ← paths_parse, List.map_map] at hmap
    exact hsub.eq_of_length (by rw [List.length_map]; exact h.length_eq)
  have hback : List.Forall₂ (fun p q : Path => p.same q = true)
    (SearchRoots.parse r.format).paths r.paths := h
  intro p hp
  rw [hpaths, List.forall₂_map_left_iff, List.forall₂_same] at hback
  have hspelling : Text.trim p.spelling = p.spelling :=
    Text.trim_eq_of_filter (Path.filter_isWhite_of_same (hback p hp))
  have hmem : p ∈ (SearchRoots.parse r.format).paths := by
    rw [hpaths]
    exact List.mem_map.mpr ⟨p, hp, congrArg Path.mk hspelling⟩
  exact persists_of_mem_parse hmem

/-- Roots come back exactly when they are distinct and each is spelled by something on one
line with no blanks at its ends. -/
theorem comesBack_iff :
    r.ComesBack ↔ r.Distinct ∧ ∀ p ∈ r.paths, Text.Persists p.spelling := by
  refine ⟨fun h => ⟨Path.pairwise_of_same h (distinct_parse _), persists_of_comesBack h⟩,
    fun ⟨hdistinct, h⟩ => ?_⟩
  have hparse : parse r.format = r := parse_format hdistinct h
  rw [ComesBack, hparse, List.forall₂_same]
  exact fun p _ => p.same_refl

end RootList

end SchemaLang
