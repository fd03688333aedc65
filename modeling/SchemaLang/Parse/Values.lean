import SchemaLang.Parse.Recovery

/-!
# Values

    1   1.5   true   "text"   _   Name   Name(value, ..)   [value, ..]   (key: value, ..)

with braces around the last form. A production answers whether its value is
sound all through, and every list, map and argument list around an unsound
value is closed as incomplete. Lists, maps and constructions nest as deeply
as there is room; one that has no room left is skipped whole.
-/

set_option autoImplicit false

namespace SchemaLang.Parse

open SchemaLang.Parser Step

def literal (kind : NodeKind) : Parser Bool := do
  let _ ← take kind
  pure true

def number : Parser Bool :=
  Parser.choose fun s =>
    if startsWord "." s.tail then
      construct .decimalValue do
        bump
        bump
        punct .integer .value fun _ => .missingAfter "digits" s!"{found s}."
        pure true
    else literal .intValue

def elements (item : Step Bool) (closer : TokenKind) (otherwise : String → Stop) : Step Bool := do
  let first ← item
  let others ← sepTail item closer otherwise
  pure (first && others.all id)

def list (value : Parser Bool) : Parser Bool :=
  construct .list do
    bump
    Step.choose fun s =>
      if starts .rbracket s then do
        bump
        pure true
      else
        elements value .rbracket fun found =>
          ⟨.delimited .rbracket, .misplaced "',' or ']'" .list found⟩

def mapEntry (value : Parser Bool) : Step Bool :=
  group .mapEntry id do
    let key ← value
    punct .colon (.delimited .rbrace) fun found => .misplaced "':'" .mapEntry found
    let entry ← value
    pure (key && entry)

def map (value : Parser Bool) : Parser Bool :=
  construct .map do
    bump
    Step.choose fun s =>
      if starts .rbrace s then do
        bump
        pure true
      else
        elements (mapEntry value) .rbrace fun found =>
          ⟨.delimited .rbrace, .misplaced "',' or '\x7d'" .map found⟩

def arguments (value : Parser Bool) : Parser Bool :=
  construct .arguments do
    bump
    Step.choose fun s =>
      if starts .rparen s then do
        bump
        pure true
      else
        elements
          (Step.choose fun s =>
            if s.isEmpty then stop (.delimited .rparen) .unclosedArguments else value)
          .rparen
          fun found => ⟨.delimited .rparen, .misplaced "',' or ')'" .argumentList found⟩

def construction (value : Parser Bool) : Parser Bool :=
  wrap .construction do
    let _ ← take .constructorName
    arguments value

def notAValue : Parser Bool :=
  Parser.choose fun s => do
    skip (.notAValue (found s)) fun
      | [] => 0
      | t :: _ =>
        match t.kind with
        | .rparen | .rbracket | .rbrace | .comma | .semicolon => 0
        | _ => 1
    pure false

def valueOf (list map construction : Parser Bool) : Parser Bool :=
  Parser.choose fun
    | [] => notAValue
    | t :: s =>
      match t.kind with
      | .integer => number
      | .boolean => literal .boolValue
      | .string => literal .stringValue
      | .lbracket => list
      | .lbrace => map
      | .identifier =>
        if t.text == "_" then literal .emptyOption
        else if starts .lparen s then construction
        else literal .nameRef
      | _ => notAValue

def value : Nat → Parser Bool
  | 0 => valueOf tooDeep tooDeep tooDeep
  | room + 1 =>
    defer fun _ => valueOf (list (value room)) (map (value room)) (construction (value room))

end SchemaLang.Parse
