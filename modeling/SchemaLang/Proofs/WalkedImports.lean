import SchemaLang.Proofs.Saving

/-!
# Walks to imported files

An import is walked to through one directory after the other, and a directory is
there when a file below it is. So nothing but the file at the end has to be there:
the walk finds what stands at the root with all segments joined to it at once. A
segment `.` is no part of a path, so that a file may stand where the walk asks for
a directory; without such segments walking and looking up are the same.
-/

set_option autoImplicit false

namespace SchemaLang

namespace Path

variable {p q : Path} {name rest : String}

def lead (p : Path) : String :=
  if p.spelling = "" || p.spelling.toList.getLast? == some '/' then p.spelling
  else p.spelling ++ "/"

theorem join_of_relative (p : Path) (h : q.isAbsolute = false) :
    p.join q = ⟨p.lead ++ q.spelling⟩ := by
  rw [join, if_neg (by simp [h]), lead]
  split <;> rfl

/-- Joining a name and then a relative path is joining both at once. -/
theorem join_joinName (p : Path) (hslash : '/' ∉ name.toList) (hname : name ≠ "")
    (hrest : isAbsolute ⟨rest⟩ = false) :
    (p.joinName name).join ⟨rest⟩ = p.join ⟨name ++ "/" ++ rest⟩ := by
  obtain ⟨c, cs, hcs⟩ := List.exists_cons_of_ne_nil (show name.toList ≠ [] by simpa using hname)
  have hrelative : isAbsolute ⟨name ++ "/" ++ rest⟩ = false := by
    have hc : c ≠ '/' := fun hc => hslash (by simp [hcs, hc])
    simp [isAbsolute, hcs, hc]
  have hjoined : p.joinName name = ⟨p.lead ++ name⟩ :=
    join_of_relative p (isAbsolute_of_not_mem hslash)
  have hlead : lead ⟨p.lead ++ name⟩ = p.lead ++ name ++ "/" := by
    have hlast : name.toList.getLast? ≠ some '/' := fun hlast =>
      hslash (List.mem_of_getLast? hlast)
    have hends : (p.lead ++ name).toList.getLast? = name.toList.getLast? := by
      rw [String.toList_append, List.getLast?_append, hcs, List.getLast?_cons]
      rfl
    rw [lead, if_neg]
    simpa [hends, hname] using hlast
  rw [join_of_relative _ hrest, hjoined, hlead, join_of_relative _ hrelative]
  simp [String.append_assoc]

end Path

namespace MemoryFiles

variable {m : MemoryFiles} {dir target : Path} {segments : List String}

theorem foldl_joinName (hplain : Plain segments) (hne : segments ≠ []) (dir : Path) :
    segments.foldl Path.joinName dir = dir.join ⟨"/".intercalate segments⟩ := by
  induction segments generalizing dir with
  | nil => exact absurd rfl hne
  | cons segment rest ih =>
    obtain ⟨⟨hslash, hempty⟩, hplain⟩ := List.forall_mem_cons.mp hplain
    cases rest with
    | nil => simp [Path.joinName]
    | cons next rest =>
      have hrest : Path.isAbsolute ⟨"/".intercalate (next :: rest)⟩ = false := by
        obtain ⟨hslash, hempty⟩ := hplain next List.mem_cons_self
        obtain ⟨c, cs, hcs⟩ := List.exists_cons_of_ne_nil
          (show next.toList ≠ [] by simpa using hempty)
        have hc : c ≠ '/' := fun hc => hslash (by simp [hcs, hc])
        cases rest <;> simp [Path.isAbsolute, String.toList_intercalate, hcs, hc]
      have hjoined : segment ++ "/" ++ "/".intercalate (next :: rest) =
          "/".intercalate (segment :: next :: rest) := by
        simp
      rw [List.foldl_cons, ih hplain (List.cons_ne_nil _ _),
        Path.join_joinName _ hslash hempty hrest, hjoined]

/-- A walk finds the file whose path is that of the directory with all names joined. -/
theorem walk?_plain_eq_some_iff (hplain : Plain segments) (hhere : "." ∉ segments) :
    m.fileSystem.walk? dir segments = some target ↔ segments ≠ [] ∧
      target = segments.foldl Path.joinName dir ∧ (m.get? target).isSome = true := by
  induction segments generalizing dir with
  | nil => exact iff_of_false (by simp [FileSystem.walk?]) fun h => h.1 rfl
  | cons segment rest ih =>
    obtain ⟨-, hplain⟩ := List.forall_mem_cons.mp hplain
    have hhere : "." ∉ rest := fun h => hhere (List.mem_cons_of_mem _ h)
    cases rest with
    | nil =>
      refine file?_eq_some_iff.trans ⟨fun h => ⟨List.cons_ne_nil _ _, h⟩, And.right⟩
    | cons next rest =>
      have hlast : (next :: rest).getLast? ≠ some "." := fun h => hhere (List.mem_of_getLast? h)
      rw [List.foldl_cons]
      constructor
      · intro h
        obtain ⟨below, hbelow, hwalk⟩ := Option.bind_eq_some_iff.mp h
        obtain ⟨rfl, -⟩ := subdirectory?_eq_some_iff.mp hbelow
        exact ⟨List.cons_ne_nil _ _, ((ih hplain hhere).mp hwalk).2⟩
      · rintro ⟨-, htarget⟩
        have hwalk : m.fileSystem.walk? (dir.joinName segment) (next :: rest) = some target :=
          (ih hplain hhere).mpr ⟨List.cons_ne_nil _ _, htarget⟩
        refine Option.bind_eq_some_iff.mpr ⟨dir.joinName segment, ?_, hwalk⟩
        exact subdirectory?_eq_some_iff.mpr ⟨rfl, hasDirectory_of_walk? hplain hlast hwalk⟩

/-- Without `.` among its segments an import leads to a file exactly when it has a segment
and there is a file at the root with all its segments joined. Then it leads to that very
path, and the file can be read. -/
theorem import_walk_is_lookup (m : MemoryFiles) (root : Path) (importPath : String)
    (hhere : "." ∉ Text.split '/' importPath) :
    let segments := FileSystem.segments importPath
    let joined := root.join ⟨"/".intercalate segments⟩
    ((∃ target, m.fileSystem.importTarget? root importPath = some target) ↔
      segments ≠ [] ∧ ∃ key ∈ m.keys, key.same joined = true) ∧
    ∀ target, m.fileSystem.importTarget? root importPath = some target →
      target = joined ∧ ∃ text, m.fileSystem.read target = .ok text := by
  intro segments joined
  have hplain : Plain segments := plain_segments importPath
  have hwalk (target : Path) : m.fileSystem.importTarget? root importPath = some target ↔
      segments ≠ [] ∧ target = joined ∧ (m.get? target).isSome = true := by
    refine (walk?_plain_eq_some_iff hplain fun h => hhere (List.mem_of_mem_filter h)).trans ?_
    refine and_congr_right fun hne => ?_
    rw [foldl_joinName hplain hne]
  simp only [hwalk]
  refine ⟨⟨?_, ?_⟩, ?_⟩
  · rintro ⟨_, hne, rfl, hsome⟩
    exact ⟨hne, isSome_get?_iff.mp hsome⟩
  · rintro ⟨hne, hkey⟩
    exact ⟨joined, hne, rfl, isSome_get?_iff.mpr hkey⟩
  · rintro target ⟨-, htarget, hsome⟩
    obtain ⟨text, htext⟩ := Option.isSome_iff_exists.mp hsome
    exact ⟨htarget, text, by simp only [fileSystem, htext]⟩

/-- Slashes may be repeated, and `..` is a segment like any other. -/
theorem import_walk_is_lookup_up :
    let m := MemoryFiles.ofList [(⟨"/r/../a/b.schema"⟩, "package p;")]
    "." ∉ Text.split '/' "..//a/b.schema" ∧
    m.fileSystem.importTarget? ⟨"/r/"⟩ "..//a/b.schema" = some ⟨"/r/../a/b.schema"⟩ := by
  intro m
  have hhere : "." ∉ Text.split '/' "..//a/b.schema" := by decide +kernel
  obtain ⟨hiff, htarget⟩ := import_walk_is_lookup m ⟨"/r/"⟩ "..//a/b.schema" hhere
  obtain ⟨target, hfound⟩ := hiff.mpr
    ⟨by decide +kernel, ⟨"/r/../a/b.schema"⟩, by decide +kernel, by decide +kernel⟩
  refine ⟨hhere, hfound.trans (congrArg some ((htarget target hfound).1.trans ?_))⟩
  decide +kernel

end MemoryFiles

end SchemaLang
