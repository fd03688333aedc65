import SchemaLang.FileSystem
import SchemaLang.SchemaFile

/-!
# Name resolution

A dotted name, seen from a place in a file, stands for a definition. It is
looked for

1. from the root of the file, through nested types
2. from each type around the place, innermost first
3. in the files that the file imports, under every search root in turn, where
   the package of the imported file starts the name

Imported files are read when they are asked for, and their own imports are
not followed.
-/

set_option autoImplicit false

namespace SchemaLang

structure Definition where
  file : SchemaFile
  site : Site

namespace Definition

def kind (d : Definition) : NodeKind := d.site.kind

def name? (d : Definition) : Option String := d.file.name? d.site.node

def sameFile (d : Definition) (file : SchemaFile) : Bool := d.file.origin.same file.origin

def same (d e : Definition) : Bool := d.site.id == e.site.id && d.sameFile e.file

def isChildOf (d parent : Definition) : Bool :=
  parent.sameFile d.file && d.site.parent?.map Node.id == some parent.site.id

def isInstantiable (d : Definition) : Bool := d.kind == .type || d.kind == .component

def isType (d : Definition) : Bool := d.isInstantiable || d.kind == .enum

end Definition

def nameSegments? (name : String) : Option (List String) :=
  let segments := Text.split '.' name
  if segments.all (· ≠ "") then some segments else none

namespace SchemaFile

/-- What a single name stands for in a scope. An enum comes before a field,
and a field, where fields count, before a type or a component. -/
def lookup? (file : SchemaFile) (scope : Site) (fields : Bool) (name : String) : Option Site :=
  (file.findDefinition? scope .enum name)
    <|> (if fields then file.findDefinition? scope .field name else none)
    <|> (file.findDefinition? scope .type name)
    <|> (file.findDefinition? scope .component name)

/-- What a dotted name stands for in a scope. Every segment but the last
leads into a nested type; the last but one may also be an enum, and then the
last one is a value of it. -/
def walk? (file : SchemaFile) (fields : Bool) : Site → List String → Option Site
  | _, [] => none
  | scope, [last] => file.lookup? scope fields last
  | scope, [owner, last] =>
    match file.findDefinition? scope .enum owner with
    | some enum => file.findDefinition? enum .enumValue last
    | none => (file.findDefinition? scope .type owner).bind fun inner =>
        file.lookup? inner fields last
  | scope, segment :: next :: last :: rest =>
    (file.findDefinition? scope .type segment).bind fun inner =>
      file.walk? fields inner (next :: last :: rest)

def enclosingTypes (s : Site) : List Site := s.ancestors.filter (·.kind == .type)

def resolve? (file : SchemaFile) (s : Site) (name : String) : Option Definition := do
  let segments ← nameSegments? name
  let found ← (file.walk? true file.rootSite segments)
    <|> ((enclosingTypes s).findSome? fun scope => file.walk? false scope segments)
  some ⟨file, found⟩

def withoutPackage? (package name : String) : Option String :=
  let head := (package ++ ".").toList
  if head.isPrefixOf name.toList then some (String.ofList (name.toList.drop head.length)) else none

def resolveExported? (file : SchemaFile) (name : String) : Option Definition := do
  let package ← file.package?
  let rest ← withoutPackage? package name
  file.resolve? file.rootSite rest

end SchemaFile

structure Resolver where
  files : FileSystem
  roots : List Path

namespace Resolver

def localOnly : Resolver := ⟨.empty, []⟩

def load? (r : Resolver) (root : Path) (importPath : String) : Option SchemaFile := do
  let target ← r.files.importTarget? root importPath
  let source ← (r.files.read target).toOption
  some (.readSaved target source)

def importSites (r : Resolver) (file : SchemaFile) : List (Path × String) :=
  r.roots.flatMap fun root => file.imports.map (root, ·)

def resolveImported? (r : Resolver) (file : SchemaFile) (name : String) : Option Definition :=
  (r.importSites file).findSome? fun (root, importPath) =>
    (r.load? root importPath).bind (·.resolveExported? name)

def resolve? (r : Resolver) (file : SchemaFile) (s : Site) (name : String) : Option Definition :=
  (file.resolve? s name) <|>
    (if (nameSegments? name).isSome then r.resolveImported? file name else none)

def referencedName? (file : SchemaFile) (s : Site) : Option String :=
  match s.kind with
  | .typeName | .typeParameter | .typeRef | .constructorName | .nameRef => some (file.text s.node)
  | .fieldType => (s.node.firstChild? .typeName).map file.text
  | .fieldRef => do
    let tag ← s.above.find? (·.kind == .tag)
    let target ← tag.firstChild? .typeRef
    some (file.text target ++ "." ++ file.text s.node)
  | _ => none

def resolveReference? (r : Resolver) (file : SchemaFile) (s : Site) : Option Definition :=
  (referencedName? file s).bind (r.resolve? file s)

end Resolver

end SchemaLang
