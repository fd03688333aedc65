import SchemaLang.Check
import SchemaLang.Proofs.DeclaredTypes
import SchemaLang.Proofs.ImportSearch
import SchemaLang.Text.Similarity

/-!
# Two hops of imports

A name seen from a file is looked up in the file and in those it imports, and
no further. Checking looks names up from the checked file and from where the
types of fields are declared, which is the checked file or one that it
imports. So what is reported about a file depends on its own imports and on
those of the files it imports, and on nothing else that is kept anywhere.
-/

set_option autoImplicit false

namespace SchemaLang

/-! ## One hop -/

def FileSystem.SameImports (files files' : FileSystem) (roots : List Path) (file : SchemaFile) :
    Prop :=
  ∀ root ∈ roots, ∀ importPath ∈ file.imports,
    files.importTarget? root importPath = files'.importTarget? root importPath ∧
      ∀ target, files.importTarget? root importPath = some target →
        (files.read target).toOption = (files'.read target).toOption

theorem findSome?_congr {α β : Type} {l : List α} {f g : α → Option β} (h : ∀ x ∈ l, f x = g x) :
    l.findSome? f = l.findSome? g := by
  rw [← Function.id_comp f, ← Function.id_comp g, ← List.findSome?_map, ← List.findSome?_map,
    List.map_congr_left h]

namespace Resolver

variable {files files' : FileSystem} {roots : List Path} {file : SchemaFile}

theorem load?_eq_of_sameImports (h : files.SameImports files' roots file) {root : Path}
    {importPath : String} (hsite : (root, importPath) ∈ importSites ⟨files, roots⟩ file) :
    load? ⟨files, roots⟩ root importPath = load? ⟨files', roots⟩ root importPath := by
  obtain ⟨root', hroot, hpair⟩ := List.mem_flatMap.mp hsite
  obtain ⟨importPath', himport, hpair⟩ := List.mem_map.mp hpair
  cases hpair
  obtain ⟨htarget, hread⟩ := h root hroot importPath himport
  rw [load?, load?]
  dsimp only
  rw [← htarget]
  cases hfound : files.importTarget? root importPath with
  | none => rfl
  | some target =>
    show (files.read target).toOption.bind _ = (files'.read target).toOption.bind _
    rw [hread target hfound]

/-- What a name stands for, seen from a file, depends on the imports of that file. -/
theorem resolve?_eq_of_sameImports (h : files.SameImports files' roots file) (s : Site)
    (name : String) :
    resolve? ⟨files, roots⟩ file s name = resolve? ⟨files', roots⟩ file s name := by
  have himported : resolveImported? ⟨files, roots⟩ file name =
      resolveImported? ⟨files', roots⟩ file name := by
    rw [resolveImported?, resolveImported?]
    show _ = (importSites ⟨files, roots⟩ file).findSome? _
    apply findSome?_congr
    rintro ⟨root, importPath⟩ hsite
    dsimp only
    rw [load?_eq_of_sameImports h hsite]
  rw [resolve?, resolve?, himported]

end Resolver

/-! ## Two hops -/

def Resolver.Near (r : Resolver) (file origin : SchemaFile) : Prop :=
  origin = file ∨ r.Imports file origin

theorem Resolver.near_of_resolve? {r : Resolver} {file : SchemaFile} {s : Site} {name : String}
    {d : Definition} (h : r.resolve? file s name = some d) : r.Near file d.file :=
  file_of_resolve? h

def Resolver.Concur (r r' : Resolver) (file : SchemaFile) : Prop :=
  ∀ origin, r.Near file origin → ∀ s name,
    r.resolve? origin s name = r'.resolve? origin s name

theorem Resolver.concur_of_sameImports {files files' : FileSystem} {roots : List Path}
    {file : SchemaFile} (hfile : files.SameImports files' roots file)
    (himported : ∀ imported, Imports ⟨files, roots⟩ file imported →
      files.SameImports files' roots imported) : Concur ⟨files, roots⟩ ⟨files', roots⟩ file := by
  rintro origin (rfl | horigin)
  · exact resolve?_eq_of_sameImports hfile
  · exact resolve?_eq_of_sameImports (himported origin horigin)

namespace Checker

variable {file : SchemaFile} {r r' : Resolver}

theorem valueText_eq (r r' : Resolver) (value : Site) :
    (Checker.mk file r).valueText value = (Checker.mk file r').valueText value := rfl

variable (h : r.Concur r' file)
include h

theorem resolve?_eq (s : Site) (name : String) :
    (Checker.mk file r).resolve? s name = (Checker.mk file r').resolve? s name :=
  h file (.inl rfl) s name

/-! ### Values -/

section Values

variable {type : DeclaredType} (htype : r.Near file type.file)
include htype

theorem enumTarget?_eq (value : Site) :
    (Checker.mk file r).enumTarget? value type = (Checker.mk file r').enumTarget? value type := by
  rw [enumTarget?, enumTarget?, valueText_eq r r', resolve?_eq h]
  dsimp only
  rw [h type.file htype]

theorem checkEnumLiteral_eq (value : Site) (enum : Definition) :
    (Checker.mk file r).checkEnumLiteral value type enum =
      (Checker.mk file r').checkEnumLiteral value type enum := by
  rw [checkEnumLiteral, checkEnumLiteral, enumTarget?_eq h htype, valueText_eq r r']

omit htype in
theorem checkInstance_eq (value : Site) (target : Definition) :
    (Checker.mk file r).checkInstance value type target =
      (Checker.mk file r').checkInstance value type target := by
  have hnames (name : String) : (Checker.mk file r).namesDefinition value name target =
      (Checker.mk file r').namesDefinition value name target := by
    rw [namesDefinition, namesDefinition, resolve?_eq h]
  unfold checkInstance
  simp only [hnames]
  rfl

theorem checkNamed_eq (value : Site) :
    (Checker.mk file r).checkNamed value type = (Checker.mk file r').checkNamed value type := by
  rw [checkNamed, checkNamed]
  dsimp only
  rw [h type.file htype]
  split
  · rfl
  · rw [checkEnumLiteral_eq h htype, checkInstance_eq h]

theorem checkAgainst_eq (element : Site → Site → Findings) (value : Site) :
    (Checker.mk file r).checkAgainst element value type =
      (Checker.mk file r').checkAgainst element value type := by
  rw [checkAgainst, checkAgainst, checkNamed_eq h htype]
  rfl

omit htype in
theorem checkElement_eq {owner : SchemaFile} (howner : r.Near file owner) :
    (Checker.mk file r).checkElement owner = (Checker.mk file r').checkElement owner := by
  funext value parameter
  rw [checkElement, checkElement, checkAgainst_eq h (by rwa [DeclaredType.file_of])]

omit htype in
theorem checkValue_eq {owner : SchemaFile} (howner : r.Near file owner)
    (value type : Site) :
    (Checker.mk file r).checkValue value owner type =
      (Checker.mk file r').checkValue value owner type := by
  rw [checkValue, checkValue, checkAgainst_eq h (by rwa [DeclaredType.file_of]),
    checkElement_eq h howner]

end Values

/-! ### Arguments -/

section Arguments

variable {target : Definition} (htarget : r.Near file target.file)
include htarget

theorem checkForField_eq (field : Node) (value : Site) :
    (Checker.mk file r).checkForField target field value =
      (Checker.mk file r').checkForField target field value := by
  rw [checkForField, checkForField]
  split
  · rfl
  · rw [checkValue_eq h htarget]

theorem checkNamedArgument_eq (field : Node) (argument : Site) :
    (Checker.mk file r).checkNamedArgument target field argument =
      (Checker.mk file r').checkNamedArgument target field argument := by
  rw [checkNamedArgument, checkNamedArgument]
  split
  · rfl
  · simp only [checkForField_eq h htarget]
    rfl

end Arguments

section Targets

variable {target? : Option Definition}
  (htarget : ∀ target, target? = some target → r.Near file target.file)
include htarget

omit h in
theorem withFields_eq [Likeness] (name : Node) {check check' : Definition → List Node → Findings}
    (hcheck : ∀ target fields, r.Near file target.file →
      check target fields = check' target fields) :
    (Checker.mk file r).withFields name target? check =
      (Checker.mk file r').withFields name target? check' := by
  cases target? with
  | none => rfl
  | some target =>
    rw [withFields, withFields, hcheck _ _ (htarget target rfl)]
    rfl

theorem checkPositional_eq [Likeness] (s : Site) (name : Node) (arguments : Site) :
    (Checker.mk file r).checkPositional s name target? arguments =
      (Checker.mk file r').checkPositional s name target? arguments := by
  refine withFields_eq htarget name fun target fields hfile => ?_
  simp only [checkForField_eq h hfile]

theorem checkNamedArguments_eq [Likeness] (s : Site) (name : Node) (arguments : List Site) :
    (Checker.mk file r).checkNamedArguments s name target? arguments =
      (Checker.mk file r').checkNamedArguments s name target? arguments := by
  refine withFields_eq htarget name fun target fields hfile => ?_
  simp only [checkNamedArgument_eq h hfile]

end Targets

/-! ### Places -/

variable [Likeness]

theorem checkTag_eq (s : Site) :
    (Checker.mk file r).checkTag s = (Checker.mk file r').checkTag s := by
  rw [checkTag, checkTag]
  split
  · rfl
  · rename_i name _
    have htarget (target : Definition) :
        (Checker.mk file r).resolve? s (file.text name) = some target →
          r.Near file target.file := Resolver.near_of_resolve?
    rw [show (Checker.mk file r').resolve? s ((Checker.mk file r').text name) =
      (Checker.mk file r).resolve? s (file.text name) from (resolve?_eq h s _).symm]
    dsimp only
    split
    · rfl
    · split
      · exact checkPositional_eq h htarget s name _
      · rfl
      · exact checkNamedArguments_eq h htarget s name _

theorem checkConstruction_eq (s : Site) :
    (Checker.mk file r).checkConstruction s = (Checker.mk file r').checkConstruction s := by
  rw [checkConstruction, checkConstruction]
  split
  · rfl
  · rename_i name _
    have htarget (target : Definition) :
        (Checker.mk file r).resolve? s (file.text name) = some target →
          r.Near file target.file := Resolver.near_of_resolve?
    rw [show (Checker.mk file r').resolve? s ((Checker.mk file r').text name) =
      (Checker.mk file r).resolve? s (file.text name) from (resolve?_eq h s _).symm]
    dsimp only
    split
    · split
      · rfl
      · exact checkPositional_eq h htarget s name _
    · rfl

theorem checkTypeName_eq :
    (Checker.mk file r).checkTypeName = (Checker.mk file r').checkTypeName := by
  funext s
  rw [checkTypeName, checkTypeName, resolve?_eq h]
  rfl

theorem checkFieldType_eq (s : Site) :
    (Checker.mk file r).checkFieldType s = (Checker.mk file r').checkFieldType s := by
  rw [checkFieldType, checkFieldType, checkTypeName_eq h]
  rfl

theorem checkCommand_eq (s : Site) :
    (Checker.mk file r).checkCommand s = (Checker.mk file r').checkCommand s := by
  rw [checkCommand, checkCommand, checkTypeName_eq h]

theorem checkBareName_eq (judged : List Nat) (s : Site) :
    (Checker.mk file r).checkBareName judged s = (Checker.mk file r').checkBareName judged s := by
  rw [checkBareName, checkBareName, resolve?_eq h]
  rfl

omit [Likeness] in
omit h in
theorem duplicateNumbers_eq (r r' : Resolver) (seen fields : List (Nat × Node)) :
    (Checker.mk file r).duplicateNumbers seen fields =
      (Checker.mk file r').duplicateNumbers seen fields := by
  induction fields generalizing seen with
  | nil => rfl
  | cons field rest ih => rw [duplicateNumbers, duplicateNumbers, ih, ih]

theorem checkSite_eq (judged : List Nat) (s : Site) :
    (Checker.mk file r).checkSite judged s = (Checker.mk file r').checkSite judged s := by
  have hnumbers : (Checker.mk file r).checkFieldNumbers s =
      (Checker.mk file r').checkFieldNumbers s := by
    rw [checkFieldNumbers, checkFieldNumbers, duplicateNumbers_eq r r']
  rw [checkSite, checkSite, checkFieldType_eq h, checkCommand_eq h, checkTag_eq h,
    checkConstruction_eq h, checkBareName_eq h, hnumbers]

theorem checkSites_eq (judged : List Nat) (sites : List Site) :
    (Checker.mk file r).checkSites judged sites = (Checker.mk file r').checkSites judged sites := by
  induction sites generalizing judged with
  | nil => rfl
  | cons s rest ih => rw [checkSites, checkSites, checkSite_eq h, ih]

end Checker

/-- A report depends on the imports of the file and of the files it imports, and
what a name stands for on the imports of the file alone. -/
theorem report_within_two_hops [Likeness] (files files' : FileSystem) (roots : List Path)
    (file : SchemaFile) (hfile : files.SameImports files' roots file) :
    (∀ (s : Site) (name : String), Resolver.resolve? ⟨files, roots⟩ file s name =
      Resolver.resolve? ⟨files', roots⟩ file s name) ∧
    ((∀ imported, Resolver.Imports ⟨files, roots⟩ file imported →
        files.SameImports files' roots imported) →
      (checkFile file ⟨files, roots⟩).map (Finding.diagnostic file) =
        (checkFile file ⟨files', roots⟩).map (Finding.diagnostic file)) := by
  refine ⟨Resolver.resolve?_eq_of_sameImports hfile, fun himported => ?_⟩
  have hconcur := Resolver.concur_of_sameImports hfile himported
  rw [checkFile, checkFile, Checker.checkSites_eq hconcur]

section

attribute [local instance] Text.likeness

/-- A value is judged by a type two hops away, and what that file imports does not count. -/
theorem report_within_two_hops_third_file :
    let file := SchemaFile.readSaved ⟨"/m.schema"⟩ "import \"a.schema\"; [p.T(1)] type M { }"
    let near : List (Path × String) :=
      [(⟨"/x/a.schema"⟩, "package p; import \"b.schema\"; type T { q.U u = 1; }"),
        (⟨"/x/b.schema"⟩, "package q; import \"c.schema\"; type U { r.V v = 1; }")]
    let files := (MemoryFiles.ofList near).fileSystem
    let far : List (Path × String) := near ++ [(⟨"/x/c.schema"⟩, "package r; type V { }")]
    let files' := (MemoryFiles.ofList far).fileSystem
    let roots : List Path := [⟨"/x"⟩]
    (checkFile file ⟨files, roots⟩).map (Finding.diagnostic file) =
      (checkFile file ⟨files', roots⟩).map (Finding.diagnostic file) ∧
    ((checkFile file ⟨files, roots⟩).map (Finding.diagnostic file)).map (·.code) =
      [.typeMismatch] := by
  intro file near files far files' roots
  have hsame (g : SchemaFile) (name : String) (target : Path) (himports : g.imports = [name])
      (htarget : files.importTarget? ⟨"/x"⟩ name = some target)
      (htarget' : files'.importTarget? ⟨"/x"⟩ name = some target)
      (hread : (files.read target).toOption = (files'.read target).toOption) :
      files.SameImports files' roots g := by
    intro root hroot importPath himport
    obtain rfl : root = ⟨"/x"⟩ := List.mem_singleton.mp hroot
    rw [himports, List.mem_singleton] at himport
    subst himport
    refine ⟨htarget.trans htarget'.symm, fun found hfound => ?_⟩
    obtain rfl : target = found := Option.some.inj (htarget.symm.trans hfound)
    exact hread
  have himports : file.imports = ["a.schema"] := by decide +kernel
  have htarget : files.importTarget? ⟨"/x"⟩ "a.schema" = some ⟨"/x/a.schema"⟩ := by decide +kernel
  refine ⟨(report_within_two_hops files files' roots file
    (hsame file "a.schema" ⟨"/x/a.schema"⟩ himports htarget (by decide +kernel)
      (by decide +kernel))).2 ?_, by decide +kernel⟩
  rintro imported ⟨root, hroot, importPath, himport, target, source, hfound, hread, rfl⟩
  obtain rfl : root = ⟨"/x"⟩ := List.mem_singleton.mp hroot
  rw [himports, List.mem_singleton] at himport
  subst himport
  obtain rfl : target = ⟨"/x/a.schema"⟩ := Option.some.inj (hfound.symm.trans htarget)
  obtain rfl : "package p; import \"b.schema\"; type T { q.U u = 1; }" = source := by
    have htext : (files.read ⟨"/x/a.schema"⟩).toOption =
      some "package p; import \"b.schema\"; type T { q.U u = 1; }" := by decide +kernel
    rw [hread] at htext
    exact (Option.some.inj htext).symm
  exact hsame _ "b.schema" ⟨"/x/b.schema"⟩ (by decide +kernel) (by decide +kernel)
    (by decide +kernel) (by decide +kernel)

end

end SchemaLang
