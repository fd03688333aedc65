import SchemaLang.SchemaFile

/-!
# Names that need no definition

The scalar types and the generic types are part of the language. Names of
the standard library count as known where a file imports it, and `EntityId`
everywhere.
-/

set_option autoImplicit false

namespace SchemaLang

namespace KnownNames

def integerTypes : List String :=
  ["uint32", "uint64", "int32", "int64", "sint32", "sint64", "fixed32", "fixed64", "sfixed32",
    "sfixed64"]

def decimalTypes : List String := ["float", "double"]

def textTypes : List String := ["string", "bytes"]

def scalars : List String := "bool" :: (decimalTypes ++ textTypes ++ integerTypes)

def generics : List String := ["option", "list", "map"]

def entityId : String := "EntityId"

def standardPackage : String := "improbable"

def standardImport : String := "improbable/standard_library.schema"

def standardTypes : List String :=
  ["Position", "Coordinates", "WorkerAttributeSet", "WorkerRequirementSet", "EntityAcl",
    "Persistence", "Metadata", "Interest"]

end KnownNames

def isBuiltIn (name : String) : Bool :=
  KnownNames.scalars.contains name || KnownNames.generics.contains name

/-- Whether a file may use a name of the standard library without seeing its
definition. -/
def SchemaFile.knowsStandard (file : SchemaFile) (name : String) : Bool :=
  name == KnownNames.entityId ||
    (KnownNames.standardTypes.any (fun t => KnownNames.standardPackage ++ "." ++ t == name) &&
      file.imports.contains KnownNames.standardImport)

end SchemaLang
