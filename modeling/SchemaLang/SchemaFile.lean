import SchemaLang.Lexeme.Scan
import SchemaLang.Parse.Definitions
import SchemaLang.Path
import SchemaLang.Syntax.Node
import SchemaLang.Text.Decimal

/-!
# Schema files

A schema file is a source text with the tree that was read from it. Reading
never fails: what could not be read stands in the tree as faults.

The questions that resolution and checking ask about a node are answered
here: its text, the name it defines, the fields it numbers, the package and
the imports of the file.
-/

set_option autoImplicit false

namespace SchemaLang

def parseTree (source : String) : Node :=
  let all := lexemes source
  let located := locate (attachAll (parseRow (significant all)) all) 0 1
  ⟨⟨0, .construct .schemaFile true, 0, located.stop⟩, located.row⟩

/-- Where a text came from. Buffers without a path are told apart by number. -/
inductive Origin where
  | saved (path : Path)
  | unsaved (number : Nat)

namespace Origin

def path? : Origin → Option Path
  | saved path => some path
  | unsaved _ => none

def same : Origin → Origin → Bool
  | saved p, saved q => p.same q
  | unsaved m, unsaved n => m == n
  | _, _ => false

theorem same_refl (o : Origin) : o.same o = true := by
  cases o <;> simp [same, Path.same]

end Origin

structure SchemaFile where
  origin : Origin
  source : String
  root : Node
  root_eq : root = parseTree source

namespace SchemaFile

def read (origin : Origin) (source : String) : SchemaFile :=
  ⟨origin, source, parseTree source, rfl⟩

def readSaved (path : Path) (source : String) : SchemaFile := read (.saved path) source

def path? (file : SchemaFile) : Option Path := file.origin.path?

/-! ## Places in the tree -/

def rootSite (file : SchemaFile) : Site := ⟨file.root, []⟩

def sites (file : SchemaFile) : List Site := file.rootSite :: file.root.inside.sites [file.root]

def nodes (file : SchemaFile) : List Node := file.root.descendants

theorem map_node_sites (file : SchemaFile) : file.sites.map Site.node = file.nodes := by
  simp [sites, nodes, rootSite, Node.descendants, Forest.map_node_sites]

def siteAt (file : SchemaFile) (offset : Nat) : Site :=
  (file.root.inside.siteAt? offset [file.root]).getD file.rootSite

def nodeCount (file : SchemaFile) : Nat := 1 + file.root.inside.nodeCount

def faults (file : SchemaFile) : List (Node × Fault) :=
  file.nodes.filterMap fun n => n.fault?.map (n, ·)

/-! ## Texts and names -/

def text (file : SchemaFile) (n : Node) : String :=
  Text.slice file.source n.span.start n.span.stop

def nameKind? : NodeKind → Option NodeKind
  | .type | .enum | .component => some .definitionName
  | .enumValue | .field | .event | .command => some .fieldName
  | .package => some .packageName
  | .setting => some .settingName
  | _ => none

def nameNode? (n : Node) : Option Node := (nameKind? n.kind).bind n.firstChild?

def name? (file : SchemaFile) (n : Node) : Option String := (nameNode? n).map file.text

def defines (file : SchemaFile) (kind : NodeKind) (name : String) (n : Node) : Bool :=
  n.kind == kind && file.name? n == some name

def findDefinition? (file : SchemaFile) (s : Site) (kind : NodeKind) (name : String) :
    Option Site :=
  (s.node.children.find? (file.defines kind name)).map s.child

def package? (file : SchemaFile) : Option String :=
  (file.root.firstChild? .package).bind file.name?

def unquote (text : String) : String :=
  let cs := text.toList
  let cs := if cs.head? = some '"' then cs.tail else cs
  String.ofList (if cs.getLast? = some '"' then cs.dropLast else cs)

def imports (file : SchemaFile) : List String :=
  ((file.root.childrenOfKind .importing).filterMap (·.firstChild? .importPath)).filterMap
    fun path =>
      let path := unquote (file.text path)
      if path = "" then none else some path

/-! ## Fields -/

def fieldName? (file : SchemaFile) (field : Node) : Option String :=
  (field.firstChild? .fieldName).map file.text

def fieldType? (field : Node) : Option Node := field.firstChild? .fieldType

/-- Field numbers fit into 64 bits; a greater one counts as no number. -/
def fieldNumber? (file : SchemaFile) (field : Node) : Option Nat :=
  (field.firstChild? .fieldNumber).bind fun n => Text.number? UInt64.size (file.text n)

def putField (number : Nat) (field : Node) : List (Nat × Node) → List (Nat × Node)
  | [] => [(number, field)]
  | (n, f) :: rest =>
    if number < n then (number, field) :: (n, f) :: rest
    else if number = n then (number, field) :: rest
    else (n, f) :: putField number field rest

def numberedFields (file : SchemaFile) (definition : Node) : List (Nat × Node) :=
  (definition.childrenOfKind .field).filterMap fun field =>
    (file.fieldNumber? field).map (·, field)

/-- The fields of a type or component by ascending number. Numbers may leave
gaps, and of two fields with one number the later one counts. -/
def orderedFields (file : SchemaFile) (definition : Node) : List Node :=
  ((file.numberedFields definition).foldl (fun fields (number, field) =>
    putField number field fields) []).map Prod.snd

end SchemaFile

end SchemaLang
