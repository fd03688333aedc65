import SchemaLang.Check.Finding

/-!
# Suggestions

For a name that stands for nothing, the definition of the file with the most
similar name is offered, if it is similar enough. Case does not count. The
measure of similarity is not part of the check.
-/

set_option autoImplicit false

namespace SchemaLang

/-- How alike two words are. -/
class Likeness where
  score : String → String → Float

namespace Suggestion

def threshold : Float := 0.85

def candidates (file : SchemaFile) : List String :=
  (file.nodes.filter fun n => n.kind == .type || n.kind == .enum || n.kind == .component).filterMap
    file.name?

def best? (score : String → Float) (names : List String) : Option String :=
  let better := fun (best : Option (Float × String)) (name : String) =>
    let s := score name
    if s ≥ threshold then
      match best with
      | some (b, kept) => if s ≥ b then some (s, name) else some (b, kept)
      | none => some (s, name)
    else best
  (names.foldl better none).map Prod.snd

end Suggestion

def SchemaFile.suggestion? [Likeness] (file : SchemaFile) (name : String) : Option String :=
  Suggestion.best? (fun candidate => Likeness.score name.toLower candidate.toLower)
    ((Suggestion.candidates file).filter (· ≠ name))

end SchemaLang
