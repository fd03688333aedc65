import SchemaLang.SchemaFile
import SchemaLang.Text.Quoted

/-!
# Outlines

An outline shows a tree with one line for each node and each significant
token, two blanks deeper than what holds it. Blanks and comments are left
out; a node of skipped lexemes shows why they were skipped.
-/

set_option autoImplicit false

namespace SchemaLang

namespace Outline

structure Line where
  depth : Nat
  text : String

def Line.render (l : Line) : String := String.ofList (List.replicate (2 * l.depth) ' ') ++ l.text

def nodeText (mark : Mark) : String :=
  let heading := s!"{mark.shape.kind.label}@{mark.span.start}..{mark.span.stop}"
  let cut := if mark.shape.complete then "" else " (incomplete)"
  let reason := match mark.shape.fault? with
    | some fault => " " ++ Text.quoted fault.message
    | none => ""
  heading ++ cut ++ reason

def tokenText (t : Token) : String := t.kind.label ++ " " ++ Text.quoted t.text

def lines (depth : Nat) : Forest Mark Token → List Line
  | .nil => []
  | .leaf t next =>
    if t.isTrivia then lines depth next else ⟨depth, tokenText t⟩ :: lines depth next
  | .node mark inside next =>
    ⟨depth, nodeText mark⟩ :: (lines (depth + 1) inside ++ lines depth next)

end Outline

def Node.outline (n : Node) : String :=
  let lines := ⟨0, Outline.nodeText n.mark⟩ :: Outline.lines 1 n.inside
  String.join (lines.map fun line => line.render ++ "\n")

end SchemaLang
