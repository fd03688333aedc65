import SchemaLang.Syntax.Placement

/-!
# Nodes and their sites

A node is a mark with the row it holds, so everything below it is at hand. A
site is a node together with the nodes around it, nearest first; walking down
extends a site and walking up shortens it, and neither can lead out of the
tree.
-/

set_option autoImplicit false

namespace SchemaLang

structure Node where
  mark : Mark
  inside : Forest Mark Token

namespace Forest

def nodes : Forest Mark Token → List Node
  | .nil => []
  | .leaf _ next => next.nodes
  | .node mark inside next => ⟨mark, inside⟩ :: next.nodes

def preorder : Forest Mark Token → List Node
  | .nil => []
  | .leaf _ next => next.preorder
  | .node mark inside next => ⟨mark, inside⟩ :: (inside.preorder ++ next.preorder)

end Forest

namespace Node

def id (n : Node) : Nat := n.mark.id

def kind (n : Node) : NodeKind := n.mark.shape.kind

def span (n : Node) : Span := n.mark.span

def incomplete (n : Node) : Bool := !n.mark.shape.complete

def fault? (n : Node) : Option Fault := n.mark.shape.fault?

def children (n : Node) : List Node := n.inside.nodes

def childrenOfKind (n : Node) (kind : NodeKind) : List Node :=
  n.children.filter (·.kind == kind)

def firstChild? (n : Node) (kind : NodeKind) : Option Node :=
  n.children.find? (·.kind == kind)

def values (n : Node) : List Node := n.children.filter (·.kind != .error)

def descendants (n : Node) : List Node := n :: n.inside.preorder

def leafText (n : Node) : String := String.join (n.inside.leaves.map Token.text)

end Node

structure Site where
  node : Node
  above : List Node

namespace Forest

def sites (above : List Node) : Forest Mark Token → List Site
  | .nil => []
  | .leaf _ next => next.sites above
  | .node mark inside next =>
    ⟨⟨mark, inside⟩, above⟩ :: (inside.sites (⟨mark, inside⟩ :: above) ++ next.sites above)

theorem map_node_sites (f : Forest Mark Token) (above : List Node) :
    (f.sites above).map Site.node = f.preorder := by
  induction f generalizing above with
  | nil => rfl
  | leaf t next ih => simp [sites, preorder, ih]
  | node mark inside next ihi ihn => simp [sites, preorder, ihi, ihn]

def siteAt? (offset : Nat) (above : List Node) : Forest Mark Token → Option Site
  | .nil => none
  | .leaf _ next => next.siteAt? offset above
  | .node mark inside next =>
    if mark.span.contains offset then
      some ((inside.siteAt? offset (⟨mark, inside⟩ :: above)).getD ⟨⟨mark, inside⟩, above⟩)
    else next.siteAt? offset above

end Forest

namespace Site

def id (s : Site) : Nat := s.node.id

def kind (s : Site) : NodeKind := s.node.kind

def parent? (s : Site) : Option Node := s.above.head?

def child (s : Site) (n : Node) : Site := ⟨n, s.node :: s.above⟩

def children (s : Site) : List Site := s.node.children.map s.child

def ancestorsOf : List Node → List Site
  | [] => []
  | n :: above => ⟨n, above⟩ :: ancestorsOf above

def ancestors (s : Site) : List Site := ancestorsOf s.above

end Site

end SchemaLang
