import Mathlib.Order.Minimal
import SchemaLang.Project
import SchemaLang.Proofs.FirstOccurrences
import SchemaLang.Proofs.ParentPaths
import SchemaLang.Yaml.ProjectFile

/-!
# The roots of a project

The places that may name roots are read one after the other until one names
any. Seen from the project directory, its paths are the search roots. The
paths of a project file are joined to the directory that holds it before all
roots are joined to the project directory, which is the same directory. The
second joining changes nothing when that directory is absolute, empty or `.`,
and moves every relative path once more below it otherwise.
-/

set_option autoImplicit false

namespace SchemaLang

namespace Disk

/-! ## Looking up joined paths

A look-up only minds that the pieces which are no steps stand where there is a
directory, and the step behind them minds the same.
-/

/-- A blank piece makes no difference in front of another piece. -/
theorem step_blank_bind (disk : Disk) (here : Location) {blank : String}
    (hblank : Path.isBlank blank = true) (piece : String) :
    (disk.step here blank).bind (fun there => disk.step there piece) = disk.step here piece := by
  have hstep : blank = "" ∨ blank = "." := by simpa [Path.isBlank] using hblank
  cases hget : disk.get? here with
  | none => simp [step, hget, Except.bind]
  | some entry =>
    cases entry with
    | file text? => simp [step, hget, Except.bind]
    | directory => rw [step, hget, if_pos hstep]; rfl

/-- Only the steps count in what stands in front of the last pieces. -/
theorem foldlM_step_append (disk : Disk) {last : List String} (hlast : last ≠ [])
    (before : List String) (here : Location) :
    (before ++ last).foldlM disk.step here =
      (before.filter (!Path.isBlank ·) ++ last).foldlM disk.step here := by
  induction before generalizing here with
  | nil => rfl
  | cons piece before ih =>
    cases hblank : Path.isBlank piece with
    | false =>
      rw [List.filter_cons_of_pos (by simp [hblank]), List.cons_append, List.cons_append,
        List.foldlM_cons, List.foldlM_cons]
      exact congrArg ((disk.step here piece).bind ·) (funext ih)
    | true =>
      rw [List.filter_cons_of_neg (by simp [hblank]), ← ih here, List.cons_append,
        List.foldlM_cons]
      obtain ⟨next, others, hnext⟩ : ∃ next others, before ++ last = next :: others :=
        List.exists_cons_of_ne_nil (by simp [hlast])
      rw [hnext, List.foldlM_cons, ← step_blank_bind disk here hblank next]
      cases disk.step here piece <;> rfl

/-- Paths that begin at one place and have the same pieces, but for blank ones in
front of the last, lead to the same place. -/
theorem lookup_eq_of_pieces (disk : Disk) {p q : Path} {before before' last : List String}
    (hp : p.pieces = before ++ last) (hq : q.pieces = before' ++ last) (hlast : last ≠ [])
    (hsolid : before.filter (!Path.isBlank ·) = before'.filter (!Path.isBlank ·))
    (habsolute : p.isAbsolute = q.isAbsolute) (hpe : p.spelling ≠ "") (hqe : q.spelling ≠ "") :
    disk.lookup p = disk.lookup q := by
  have hlocate : disk.locate p = disk.locate q := by
    rw [locate, if_neg hpe, locate, if_neg hqe, hp, hq, foldlM_step_append disk hlast,
      foldlM_step_append disk hlast before', hsolid, habsolute]
  rw [lookup, lookup, hlocate]

def isMisplaced (disk : Disk) (p : Path) : Bool :=
  (disk.lookup p).toBool && !disk.isDirectory p

theorem isMisplaced_of_lookup_eq {disk : Disk} {p q : Path} (h : disk.lookup p = disk.lookup q) :
    disk.isMisplaced p = disk.isMisplaced q := by
  rw [isMisplaced, isMisplaced, isDirectory, isDirectory, h]

end Disk

namespace Path

variable {p q base dir : Path}

/-- The steps in front of a joined relative path are those of the first path. -/
theorem exists_solid_join (hp : p.spelling ≠ "") (hq : q.isAbsolute = false) :
    ∃ before, before.filter (!isBlank ·) = p.solid ∧ (p.join q).pieces = before ++ q.pieces := by
  obtain ⟨before, -, hpieces, hjoin⟩ := exists_pieces_join hp hq
  refine ⟨before, ?_, hjoin⟩
  rcases hpieces with hpieces | hpieces <;> rw [solid, hpieces]
  rw [List.filter_append]
  exact (List.append_nil _).symm

theorem join_spelling_ne (hp : p.spelling ≠ "") (hq : q.isAbsolute = false) :
    (p.join q).spelling ≠ "" := by
  rw [join, if_neg (by simp [hq])]
  split
  · exact fun h => hp (String.append_eq_empty_iff.mp h).1
  · simp

def isHere (p : Path) : Bool := p.parts.all (· == .here)

theorem isAbsolute_of_isHere (h : p.isHere = true) : p.isAbsolute = false := by
  rw [Bool.eq_false_iff, Ne, isAbsolute_iff]
  intro hroot
  cases beq_iff_eq.mp (List.all_eq_true.mp h _ hroot)

theorem solid_of_isHere (h : p.isHere = true) : p.solid = [] := by
  have hsteps : p.steps = [] := by
    refine List.eq_nil_iff_forall_not_mem.mpr fun part hpart => p.not_mem_steps.2 ?_
    have hhere := List.all_eq_true.mp h part (by rw [parts_eq]; exact List.mem_append_right _ hpart)
    rwa [beq_iff_eq.mp hhere] at hpart
  rw [steps_eq_filterMap_solid, List.filterMap_eq_nil_iff] at hsteps
  refine List.eq_nil_iff_forall_not_mem.mpr fun piece hpiece => ?_
  have hnone := hsteps piece hpiece
  have hsolid := (List.mem_filter.mp hpiece).2
  unfold PathPart.ofPiece? at hnone
  split at hnone <;> first | exact absurd hsolid (by decide) | cases hnone

end Path

namespace Disk

structure Agree (disk : Disk) (p q : Path) : Prop where
  same : p.same q = true
  lookup : disk.lookup p = disk.lookup q

variable (disk : Disk) {base dir root : Path}

theorem agree_refl (p : Path) : disk.Agree p p := ⟨p.same_refl, rfl⟩

/-- A base that is spelled like an absolute directory hides that directory. -/
theorem agree_join_of_isAbsolute (halike : base.Alike dir) (hdir : dir.isAbsolute = true)
    (hroot : root.isAbsolute = false) : disk.Agree (dir.join (base.join root)) (dir.join root) := by
  have hne : dir.spelling ≠ "" := fun h => by simp [Path.isAbsolute, h] at hdir
  have hbase : base.spelling ≠ "" := mt halike.empty.mp hne
  have habsolute : (base.join root).isAbsolute = true := by
    rw [Path.isAbsolute_join hbase hroot, halike.absolute, hdir]
  rw [Path.join_of_isAbsolute habsolute]
  obtain ⟨before, hbefore, hpieces⟩ := Path.exists_solid_join hbase hroot
  obtain ⟨before', hbefore', hpieces'⟩ := Path.exists_solid_join hne hroot
  refine ⟨Path.same_join halike.same root.same_refl, disk.lookup_eq_of_pieces hpieces hpieces'
    root.pieces_ne_nil ?_ ?_ (Path.join_spelling_ne hbase hroot) (Path.join_spelling_ne hne hroot)⟩
  · rw [hbefore, hbefore', halike.solid]
  · rw [habsolute, Path.isAbsolute_join hne hroot, hdir]

/-- Joining to a directory without steps once more adds no steps. -/
theorem agree_join_of_isHere (halike : base.Alike dir) (hdir : dir.isHere = true)
    (hroot : root.isAbsolute = false) : disk.Agree (dir.join (base.join root)) (dir.join root) := by
  by_cases hempty : dir.spelling = ""
  · rw [Path.join_of_spelling_eq (halike.empty.mpr hempty)]
    exact disk.agree_refl _
  have hbase : base.spelling ≠ "" := mt halike.empty.mp hempty
  have hrelative : (base.join root).isAbsolute = false := by
    rw [Path.isAbsolute_join hbase hroot, halike.absolute, Path.isAbsolute_of_isHere hdir]
  have hnone : base.solid = [] := by rw [halike.solid, Path.solid_of_isHere hdir]
  obtain ⟨before, hbefore, hpieces⟩ := Path.exists_solid_join hempty hrelative
  obtain ⟨middle, hmiddle, hbaseJoin⟩ := Path.exists_solid_join hbase hroot
  obtain ⟨before', hbefore', hpieces'⟩ := Path.exists_solid_join hempty hroot
  constructor
  · rw [Path.same_iff, Path.parts_join hempty hrelative, Path.parts_join hempty hroot,
      Path.steps_join hbase hroot, Path.steps_eq_filterMap_solid base, hnone]
    rfl
  · rw [hbaseJoin, ← List.append_assoc] at hpieces
    refine disk.lookup_eq_of_pieces hpieces hpieces' root.pieces_ne_nil ?_ ?_
      (Path.join_spelling_ne hempty hrelative) (Path.join_spelling_ne hempty hroot)
    · rw [List.filter_append, hbefore, hmiddle, hnone, List.append_nil, hbefore']
    · rw [Path.isAbsolute_join hempty hrelative, Path.isAbsolute_join hempty hroot]

end Disk

namespace Project

variable (disk : Disk) (dir : Path) (given : List Path) (environment? : Option String)

/-! ## The places that name roots -/

def listedInEnvironment : List Path :=
  if (environment?.getD "").isEmpty then [] else splitPaths (environment?.getD "")

def listedInPathsFile : Except SettingsError (List Path) :=
  if disk.isFile (pathsFile dir) then
    (readText disk (pathsFile dir)).map fun text =>
      ((Text.lines text).map Text.trim).filterMap fun line =>
        if line = "" then none else some ⟨line⟩
  else pure []

/-- The paths of the first list that is not empty. A list that cannot be read
counts only when all before it are empty. -/
def firstListed : List (Except SettingsError (List Path)) → Except SettingsError (List Path)
  | [] => pure []
  | .error e :: _ => throw e
  | .ok [] :: others => firstListed others
  | .ok listed :: _ => pure listed

def earlierPlaces : List (Except SettingsError (List Path)) :=
  [pure given, pure (listedInEnvironment environment?), listedInPathsFile disk dir]

def seenFrom (root : Path) : Path := if root.isRelative then dir.join root else root

/-- The directory that the roots of a project file are relative to. -/
def holder : Path := (projectFile dir).parent?.getD dir

theorem seenFrom_eq_join : seenFrom dir = dir.join := by
  funext root
  rw [seenFrom, Path.isRelative]
  cases h : root.isAbsolute with
  | true => rw [Path.join_of_isAbsolute h]; rfl
  | false => rfl

theorem holder_alike : (holder dir).Alike dir := by
  have hslash : '/' ∉ "spatial-schema.yaml".toList := by decide
  obtain ⟨base, hbase, halike⟩ := dir.exists_parent_joinName hslash (by decide)
  rwa [holder, projectFile, hbase]

theorem readPathsFile_eq :
    readPathsFile disk dir = (listedInPathsFile disk dir).map RootList.ofList := by
  rw [readPathsFile, listedInPathsFile]
  split
  · cases readText disk (pathsFile dir) <;> rfl
  · rfl

theorem isEmpty_ofList (listed : List Path) :
    (RootList.ofList listed).isEmpty = listed.isEmpty := by
  rw [RootList.isEmpty, RootList.paths_ofList]
  cases listed <;> rfl

theorem splitPaths_ne_nil (list : String) : splitPaths list ≠ [] := by
  simp [splitPaths, Text.split, List.splitOn_ne_nil]

variable {disk dir given environment?}

theorem firstListed_append_singleton (lists : List (Except SettingsError (List Path)))
    (last : Except SettingsError (List Path)) :
    firstListed (lists ++ [last]) =
      match firstListed lists with
      | .ok [] => last
      | settled => settled := by
  induction lists with
  | nil =>
    match last with
    | .error _ => rfl
    | .ok [] => rfl
    | .ok (_ :: _) => rfl
  | cons list lists ih =>
    match list with
    | .error _ => rfl
    | .ok [] => exact ih
    | .ok (_ :: _) => rfl

theorem exists_ok_of_toOption {result : Except SettingsError SearchRoots} {paths : List Path}
    (h : result.toOption.map RootList.paths = some paths) :
    ∃ roots, result = .ok roots ∧ roots.paths = paths := by
  cases result with
  | error e => cases h
  | ok roots => exact ⟨roots, rfl, Option.some.inj h⟩

/-- A relative directory that is spelled with more than `.` has a step. -/
theorem steps_holder_ne_nil (habsolute : dir.isAbsolute = false) (hhere : dir.isHere = false) :
    (holder dir).steps ≠ [] := by
  rw [Path.steps_eq_filterMap_solid, (holder_alike dir).solid, ← Path.steps_eq_filterMap_solid]
  intro hnone
  rw [Path.isHere, Path.parts_eq, hnone, List.append_nil, Path.front, habsolute,
    if_neg Bool.false_ne_true] at hhere
  revert hhere
  split <;> simp

/-- A root joined to a relative directory twice is seen where one with more steps is
seen that is joined once. -/
theorem steps_lt_of_same_join (habsolute : dir.isAbsolute = false) (hhere : dir.isHere = false)
    {root root' : Path} (hroot : root.isAbsolute = false)
    (h : (dir.join ((holder dir).join root')).same (dir.join root) = true) :
    root'.isAbsolute = false ∧ root'.steps.length < root.steps.length := by
  have hempty : dir.spelling ≠ "" := fun hspelling => by
    rw [Path.isHere, (dir.parts_eq_nil_iff).mpr hspelling] at hhere
    cases hhere
  have hholder : (holder dir).spelling ≠ "" := mt (holder_alike dir).empty.mp hempty
  cases hroot' : root'.isAbsolute with
  | true =>
    rw [Path.join_of_isAbsolute (p := holder dir) hroot', Path.join_of_isAbsolute hroot'] at h
    have hfront := Path.isAbsolute_of_same h
    rw [hroot', Path.isAbsolute_join hempty hroot, habsolute] at hfront
    cases hfront
  | false =>
    have hjoined : ((holder dir).join root').isAbsolute = false := by
      rw [Path.isAbsolute_join hholder hroot', (holder_alike dir).absolute, habsolute]
    rw [Path.same_iff, Path.parts_join hempty hjoined, Path.parts_join hempty hroot,
      Path.steps_join hholder hroot', List.append_cancel_left_eq] at h
    have hlength := congrArg List.length h
    have hsteps := List.length_pos_iff.mpr (steps_holder_ne_nil habsolute hhere)
    rw [List.length_append] at hlength
    exact ⟨rfl, by omega⟩

/-! ## The search roots in effect -/

section

variable [ProjectFormat]

section

variable (disk : Disk) (dir : Path) (given : List Path) (environment? : Option String)

def listedInProjectFile : Except SettingsError (List Path) :=
  if disk.isFile (projectFile dir) then do
    match ProjectFormat.roots? (← readText disk (projectFile dir)) with
    | some roots => pure roots
    | none => throw (.invalidProjectFile (projectFile dir))
  else pure []

def places : List (Except SettingsError (List Path)) :=
  earlierPlaces disk dir given environment? ++ [listedInProjectFile disk dir]

theorem readProjectFile_eq :
    (if disk.isFile (projectFile dir) then readProjectFile disk (projectFile dir) dir
      else pure .empty) =
    (listedInProjectFile disk dir).map fun listed =>
      (RootList.ofList listed).relativeTo (holder dir) := by
  rw [readProjectFile, listedInProjectFile]
  split
  · cases readText disk (projectFile dir) with
    | error e => rfl
    | ok text =>
      show (match ProjectFormat.roots? text with | some roots => _ | none => _) =
        Except.map _ (match ProjectFormat.roots? text with | some roots => _ | none => _)
      cases ProjectFormat.roots? text <;> rfl
  · rfl

/-- The project file is asked when no earlier place names a root, and only its
roots have been joined to a directory. -/
theorem findRoots_eq : findRoots disk dir given environment? =
    match firstListed (earlierPlaces disk dir given environment?) with
    | .error e => throw e
    | .ok [] => (listedInProjectFile disk dir).map fun listed =>
        (RootList.ofList listed).relativeTo (holder dir)
    | .ok listed => pure (.ofList listed) := by
  rw [findRoots, earlierPlaces]
  cases given with
  | cons root given => rfl
  | nil =>
    cases henvironment : (environment?.getD "").isEmpty with
    | false =>
      rw [listedInEnvironment, henvironment]
      obtain ⟨root, roots, hsplit⟩ :=
        List.exists_cons_of_ne_nil (splitPaths_ne_nil (environment?.getD ""))
      simp only [hsplit]
      rfl
    | true =>
      rw [listedInEnvironment, henvironment, readPathsFile_eq, readProjectFile_eq]
      cases listedInPathsFile disk dir with
      | error e => rfl
      | ok listed =>
        cases listed with
        | nil => rfl
        | cons root roots =>
          show (if (!(RootList.ofList (root :: roots)).isEmpty) = true then _ else _) = _
          rw [isEmpty_ofList]
          rfl

/-- No relative root is joined to the project directory twice, or that makes no difference. -/
def JoinedOnce : Prop :=
  dir.isAbsolute = true ∨ dir.isHere = true ∨
  ∀ listed, firstListed (earlierPlaces disk dir given environment?) = .ok [] →
    listedInProjectFile disk dir = .ok listed → ∀ root ∈ listed, root.isAbsolute = true

end

/-- A root of the project file is seen from the project directory as if it had
been joined to it once. -/
theorem agree_of_joinedOnce (h : JoinedOnce disk dir given environment?)
    (hearlier : firstListed (earlierPlaces disk dir given environment?) = .ok [])
    {listed : List Path} (hlisted : listedInProjectFile disk dir = .ok listed) {root : Path}
    (hroot : root ∈ listed) : disk.Agree (dir.join ((holder dir).join root)) (dir.join root) := by
  cases habsolute : root.isAbsolute with
  | true =>
    rw [Path.join_of_isAbsolute (p := holder dir) habsolute]
    exact disk.agree_refl _
  | false =>
    rcases h with hdir | hdir | hall
    · exact disk.agree_join_of_isAbsolute (holder_alike dir) hdir habsolute
    · exact disk.agree_join_of_isHere (holder_alike dir) hdir habsolute
    · rw [hall listed hearlier hlisted root hroot] at habsolute
      cases habsolute

/-- What is found, seen from the project directory, is what the first list names. -/
theorem exists_findRoots (h : JoinedOnce disk dir given environment?) {listed : List Path}
    (hlisted : firstListed (places disk dir given environment?) = .ok listed) :
    ∃ found, findRoots disk dir given environment? = .ok found ∧
      List.Forall₂ disk.Agree (found.relativeTo dir).paths
        (Path.firsts (listed.map (seenFrom dir))) := by
  rw [places, firstListed_append_singleton] at hlisted
  rw [seenFrom_eq_join, findRoots_eq]
  cases hearlier : firstListed (earlierPlaces disk dir given environment?) with
  | error e =>
    rw [hearlier] at hlisted
    cases hlisted
  | ok earlier =>
    rw [hearlier] at hlisted
    cases earlier with
    | nil =>
      have hfile : listedInProjectFile disk dir = .ok listed := hlisted
      simp only [hfile]
      refine ⟨_, rfl, ?_⟩
      rw [RootList.paths_relativeTo_relativeTo_ofList]
      refine Path.forall₂_firsts (fun _ _ hagree => hagree.same) ?_
      rw [List.forall₂_map_left_iff, List.forall₂_map_right_iff, List.forall₂_same]
      exact fun root hroot => agree_of_joinedOnce h hearlier hfile hroot
    | cons root roots =>
      obtain rfl : root :: roots = listed := Except.ok.inj hlisted
      refine ⟨_, rfl, ?_⟩
      rw [RootList.paths_relativeTo_ofList]
      exact List.forall₂_same.mpr fun root _ => disk.agree_refl root

theorem findRoots_of_error {e : SettingsError}
    (h : firstListed (places disk dir given environment?) = .error e) :
    findRoots disk dir given environment? = .error e := by
  rw [places, firstListed_append_singleton] at h
  rw [findRoots_eq]
  cases hearlier : firstListed (earlierPlaces disk dir given environment?) with
  | error e' =>
    rw [hearlier] at h
    exact congrArg Except.error (Except.error.inj h)
  | ok earlier =>
    rw [hearlier] at h
    cases earlier with
    | nil =>
      have hfile : listedInProjectFile disk dir = .error e := h
      simp only [hfile]
      rfl
    | cons root roots => cases h

/-- What is found is refused when a root of it is misplaced. -/
theorem searchRoots_of_findRoots {found : SearchRoots}
    (h : findRoots disk dir given environment? = .ok found) :
    searchRoots disk dir given environment? =
      match (found.relativeTo dir).paths.find? disk.isMisplaced with
      | some root => throw (.notADirectory root)
      | none => pure (found.relativeTo dir) := by
  rw [searchRoots, h]
  rfl

theorem paths_of_project_file {roots : SearchRoots} {listed : List Path}
    (hearlier : firstListed (earlierPlaces disk dir given environment?) = .ok [])
    (hfile : listedInProjectFile disk dir = .ok listed)
    (hroots : searchRoots disk dir given environment? = .ok roots) :
    roots.paths = Path.firsts (listed.map fun root => dir.join ((holder dir).join root)) := by
  have hfound : findRoots disk dir given environment? =
      .ok ((RootList.ofList listed).relativeTo (holder dir)) := by
    rw [findRoots_eq, hearlier]
    simp only [hfile]
    rfl
  rw [← RootList.paths_relativeTo_relativeTo_ofList]
  rw [searchRoots_of_findRoots hfound] at hroots
  split at hroots
  · cases hroots
  · rw [← Except.ok.inj hroots]

/-- In all other cases some root is not where the list names it. -/
theorem roots_joined_twice (h : ¬ JoinedOnce disk dir given environment?) {roots : SearchRoots}
    (hroots : searchRoots disk dir given environment? = .ok roots) {listed : List Path}
    (hlisted : firstListed (places disk dir given environment?) = .ok listed) :
    ¬ List.Forall₂ (fun p q => p.same q = true) roots.paths
      (Path.firsts (listed.map (seenFrom dir))) := by
  simp only [JoinedOnce, not_or, not_forall, Bool.not_eq_true] at h
  obtain ⟨habsolute, hhere, listed', hearlier, hfile, hrelative⟩ := h
  rw [places, firstListed_append_singleton, hearlier] at hlisted
  obtain rfl : listed' = listed := Except.ok.inj (hfile.symm.trans hlisted)
  -- The relative root with the fewest steps is seen nearer than all that are joined twice.
  obtain ⟨root, ⟨hmem, hroot⟩, hleast⟩ := exists_minimalFor_of_wellFoundedLT
    (fun root => root ∈ listed' ∧ root.isAbsolute = false) (fun root => root.steps.length)
    (by simpa using hrelative)
  intro hsame
  have hcongr : ∀ p q : Path, p.same q = true → p.same (dir.join root) = q.same (dir.join root) :=
    fun p q hpq => Path.same_eq_of_same hpq _
  have hseen : (listed'.map fun root => dir.join ((holder dir).join root)).any
      (·.same (dir.join root)) = true := by
    rw [← Path.any_firsts hcongr, ← paths_of_project_file hearlier hfile hroots,
      any_eq_of_forall₂ hsame hcongr, Path.any_firsts hcongr, seenFrom_eq_join, List.any_map,
      List.any_eq_true]
    exact ⟨root, hmem, Path.same_refl _⟩
  rw [List.any_map, List.any_eq_true] at hseen
  obtain ⟨root', hmem', htwice⟩ := hseen
  obtain ⟨hroot', hfewer⟩ := steps_lt_of_same_join habsolute hhere hroot htwice
  exact absurd (hleast ⟨hmem', hroot'⟩ hfewer.le) (Nat.not_le.mpr hfewer)

/-- The search roots are the first list, seen from the project directory without
what an earlier root is equal to; there are none when a place that was asked
cannot be read, or a root exists that is no directory. -/
theorem roots_joined_once (h : JoinedOnce disk dir given environment?) :
    (∀ roots, searchRoots disk dir given environment? = .ok roots →
      ∃ listed, firstListed (places disk dir given environment?) = .ok listed ∧
        List.Forall₂ (fun p q => p.same q = true) roots.paths
          (Path.firsts (listed.map (seenFrom dir)))) ∧
    ((∃ e, searchRoots disk dir given environment? = .error e) ↔
      (∃ e, firstListed (places disk dir given environment?) = .error e) ∨
      ∃ listed, firstListed (places disk dir given environment?) = .ok listed ∧
        ∃ root ∈ Path.firsts (listed.map (seenFrom dir)), disk.isMisplaced root = true) := by
  cases hlisted : firstListed (places disk dir given environment?) with
  | error e =>
    have hnone : searchRoots disk dir given environment? = .error e := by
      rw [searchRoots, findRoots_of_error hlisted]
      rfl
    rw [hnone]
    exact ⟨nofun, iff_of_true ⟨e, rfl⟩ (.inl ⟨e, rfl⟩)⟩
  | ok listed =>
    obtain ⟨found, hfound, hagree⟩ := exists_findRoots h hlisted
    have hmisplaced : (∃ root ∈ (found.relativeTo dir).paths, disk.isMisplaced root = true) ↔
        ∃ root ∈ Path.firsts (listed.map (seenFrom dir)), disk.isMisplaced root = true := by
      rw [← List.any_eq_true, ← List.any_eq_true, any_eq_of_forall₂ hagree fun _ _ hroot =>
        Disk.isMisplaced_of_lookup_eq hroot.lookup]
    rw [searchRoots_of_findRoots hfound]
    cases hfind : (found.relativeTo dir).paths.find? disk.isMisplaced with
    | some root =>
      refine ⟨nofun, iff_of_true ⟨_, rfl⟩ (.inr ⟨listed, rfl, hmisplaced.mp ⟨root, ?_, ?_⟩⟩)⟩
      · exact List.mem_of_find?_eq_some hfind
      · exact List.find?_some hfind
    | none =>
      refine ⟨fun roots hroots => ⟨listed, rfl, ?_⟩, iff_of_false nofun ?_⟩
      · rw [← Except.ok.inj hroots]
        exact hagree.imp fun _ _ hroot => hroot.same
      · rintro (⟨e, he⟩ | ⟨listed', hlisted', hroot⟩)
        · cases he
        · obtain rfl := Except.ok.inj hlisted'
          obtain ⟨root, hroot, hbad⟩ := hmisplaced.mpr hroot
          exact List.find?_eq_none.mp hfind root hroot hbad

end

section

attribute [local instance] Yaml.projectFormat

/-- Roots listed in the project file of an absolute directory: the second `a` is dropped. -/
theorem roots_joined_once_absolute :
    ∃ roots, searchRoots
        (Disk.empty.addFile ["w", "spatial-schema.yaml"] (some "search_roots: [a, /b, a/]\n"))
        ⟨"/w"⟩ [] none = .ok roots ∧
      roots.paths = [⟨"/w/a"⟩, ⟨"/b"⟩] ∧
      ∃ listed, firstListed (places
          (Disk.empty.addFile ["w", "spatial-schema.yaml"] (some "search_roots: [a, /b, a/]\n"))
          ⟨"/w"⟩ [] none) = .ok listed ∧
        List.Forall₂ (fun p q => p.same q = true) roots.paths
          (Path.firsts (listed.map (seenFrom ⟨"/w"⟩))) := by
  obtain ⟨roots, hroots, hpaths⟩ : ∃ roots, searchRoots
      (Disk.empty.addFile ["w", "spatial-schema.yaml"] (some "search_roots: [a, /b, a/]\n"))
      ⟨"/w"⟩ [] none = .ok roots ∧ roots.paths = [⟨"/w/a"⟩, ⟨"/b"⟩] :=
    exists_ok_of_toOption (by decide +kernel)
  exact ⟨roots, hroots, hpaths, (roots_joined_once (.inl (by decide))).1 roots hroots⟩

/-- The root `a` of the project file in `sub` is looked for in `sub/sub`. -/
theorem relative_project_joined_twice :
    ∃ roots, searchRoots
        ((Disk.mk [([], .directory)] ["w"]).addFile ["w", "sub", "spatial-schema.yaml"]
          (some "search_roots: [a, /b]\n")) ⟨"sub"⟩ [] none = .ok roots ∧
      roots.paths = [⟨"sub/sub/a"⟩, ⟨"/b"⟩] ∧
      ¬ ∃ listed, firstListed (places
          ((Disk.mk [([], .directory)] ["w"]).addFile ["w", "sub", "spatial-schema.yaml"]
            (some "search_roots: [a, /b]\n")) ⟨"sub"⟩ [] none) = .ok listed ∧
        List.Forall₂ (fun p q => p.same q = true) roots.paths
          (Path.firsts (listed.map (seenFrom ⟨"sub"⟩))) := by
  obtain ⟨roots, hroots, hpaths⟩ : ∃ roots, searchRoots
      ((Disk.mk [([], .directory)] ["w"]).addFile ["w", "sub", "spatial-schema.yaml"]
        (some "search_roots: [a, /b]\n")) ⟨"sub"⟩ [] none = .ok roots ∧
      roots.paths = [⟨"sub/sub/a"⟩, ⟨"/b"⟩] :=
    exists_ok_of_toOption (by decide +kernel)
  have hfirst : firstListed (places
      ((Disk.mk [([], .directory)] ["w"]).addFile ["w", "sub", "spatial-schema.yaml"]
        (some "search_roots: [a, /b]\n")) ⟨"sub"⟩ [] none) = .ok [⟨"a"⟩, ⟨"/b"⟩] := by
    decide +kernel
  refine ⟨roots, hroots, hpaths, ?_⟩
  rintro ⟨listed, hlisted, hsame⟩
  obtain rfl := Except.ok.inj (hfirst.symm.trans hlisted)
  rw [hpaths] at hsame
  cases hsame with
  | cons hhead _ => exact absurd hhead (by decide)

end

end Project

end SchemaLang
