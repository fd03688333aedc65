import SchemaLang.Project
import SchemaLang.Yaml.Reader

/-!
# Project files in YAML

A project file is a mapping that lists its roots under one of its keys.
-/

set_option autoImplicit false

namespace SchemaLang.Yaml

def rootsKey : String := "search_roots"

def pathList? (document value : Yaml) : Option (List Path) :=
  match document.resolve value with
  | .sequence _ items => items.mapM fun item => (document.resolve item).text?.map Path.mk
  | value => if value.isEmpty then some [] else none

/-- The paths under the key of the roots. Other keys do not matter, but every
key has to be a scalar, and this one may be given once. -/
def listedRoots? (document : Yaml) : Option (List Path) :=
  match document with
  | .mapping _ entries => do
    let keys ← entries.mapM fun (key, _) => (document.resolve key).text?
    match (keys.zip entries).filter (·.1 == rootsKey) with
    | [] => some []
    | [(_, _, value)] => pathList? document value
    | _ => none
  | _ => if document.isEmpty then some [] else none

@[reducible]
def projectFormat : ProjectFormat := ⟨fun text => (read? text).bind listedRoots?⟩

end SchemaLang.Yaml
