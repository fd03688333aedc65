import SchemaLang.Check.Suggestion

/-!
# Similarity of words

How alike two words are, from 0 to 1. Equal characters that stand near each
other match; the score is the mean of the share of matches in either word and
of the share of matches that stand in the same order. Words that start alike
score higher.
-/

set_option autoImplicit false

namespace SchemaLang.Text

abbrev Slot := Char × Bool

def pair? (c : Char) : Nat → Nat → List Slot → Option (List Slot)
  | _, _, [] => none
  | skip + 1, width, d :: rest => (pair? c skip width rest).map (d :: ·)
  | 0, 0, _ => none
  | 0, width + 1, (d, used) :: rest =>
    if c = d ∧ used = false then some ((d, true) :: rest)
    else (pair? c 0 width rest).map ((d, used) :: ·)

def matchWords (reach : Nat) : Nat → List Char → List Slot → List Char × List Slot
  | _, [], other => ([], other)
  | index, c :: cs, other =>
    let skip := index - reach
    match pair? c skip (index + reach + 1 - skip) other with
    | some other =>
      let (matched, rest) := matchWords reach (index + 1) cs other
      (c :: matched, rest)
    | none => matchWords reach (index + 1) cs other

def matchScore (a b : List Char) : Float :=
  if a = [] ∧ b = [] then 1.0
  else
    let reach := max a.length b.length / 2 - 1
    let (matched, slots) := matchWords reach 0 a (b.map (·, false))
    let other := (slots.filter (·.2)).map (·.1)
    let outOfOrder := ((matched.zip other).filter fun (c, d) => c ≠ d).length / 2
    let count := matched.length.toFloat
    if matched = [] then 0.0
    else
      (count / a.length.toFloat + count / b.length.toFloat +
        (matched.length - outOfOrder).toFloat / count) / 3.0

def commonStart (a b : List Char) : Nat :=
  (((a.take 4).zip b).takeWhile fun (c, d) => c = d).length

def similarity (a b : String) : Float :=
  let score := matchScore a.toList b.toList
  if score > 0.7 then
    score + 0.1 * (commonStart a.toList b.toList).toFloat * (1.0 - score)
  else score

@[reducible]
def likeness : Likeness := ⟨similarity⟩

end SchemaLang.Text
