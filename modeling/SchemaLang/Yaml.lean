/-!
# YAML documents

The nodes of the YAML texts that project files are written in. An anchor
numbers a node, and an alias stands for the node that carries its number. When
a text gives a name to several nodes, numbers can repeat, and the last node
with a number counts. A plain scalar and a quoted one are told apart, because
only a plain one can be empty in the sense of "no value".
-/

set_option autoImplicit false

namespace SchemaLang

inductive Yaml where
  | scalar (anchor? : Option Nat) (plain : Bool) (text : String)
  | sequence (anchor? : Option Nat) (items : List Yaml)
  | mapping (anchor? : Option Nat) (entries : List (Yaml × Yaml))
  | aliasOf (anchor : Nat)

namespace Yaml

def empty : Yaml := scalar none true ""

def isEmpty : Yaml → Bool
  | scalar _ plain text => plain && text.isEmpty
  | _ => false

def text? : Yaml → Option String
  | scalar _ _ text => some text
  | _ => none

def anchor? : Yaml → Option Nat
  | scalar anchor? _ _ | sequence anchor? _ | mapping anchor? _ => anchor?
  | aliasOf _ => none

mutual

def nodes : Yaml → List Yaml
  | scalar anchor? plain text => [scalar anchor? plain text]
  | aliasOf anchor => [aliasOf anchor]
  | sequence anchor? items => sequence anchor? items :: nodesOfItems items
  | mapping anchor? entries => mapping anchor? entries :: nodesOfEntries entries

def nodesOfItems : List Yaml → List Yaml
  | [] => []
  | item :: rest => nodes item ++ nodesOfItems rest

def nodesOfEntries : List (Yaml × Yaml) → List Yaml
  | [] => []
  | (key, value) :: rest => nodes key ++ nodes value ++ nodesOfEntries rest

end

def resolve (document : Yaml) : Yaml → Yaml
  | aliasOf anchor =>
    (document.nodes.filter (·.anchor? == some anchor)).getLast?.getD (aliasOf anchor)
  | node => node

end Yaml

end SchemaLang
