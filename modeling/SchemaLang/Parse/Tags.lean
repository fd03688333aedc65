import SchemaLang.Parse.Values

/-!
# Tags

A tag is an annotation in brackets in front of a definition:

    [Type]                      bare
    [Type(value, value)]        positional
    [Type(field = value, ..)]   named

The named form is chosen when `=` is the second lexeme after the parenthesis.
-/

set_option autoImplicit false

namespace SchemaLang.Parse

open SchemaLang.Parser Step

def namedArgument (value : Parser Bool) : Step Bool :=
  group .namedArgument id do
    let field ← expect .identifier .fieldRef .tag fun found => .misplaced "field name" .tag found
    punct .equals .tag fun _ => .missingAfter "'='" field
    value

def isNamed (s : List Lexeme) : Bool := starts .equals (s.drop 2)

def tag (value : Parser Bool) : Parser Unit :=
  statement .tag do
    bump
    let _ ← expect .identifier .typeRef .tag fun _ => .missingAfter "type" "["
    Step.choose fun s =>
      if starts .lparen s then
        if isNamed s then do
          bump
          let _ ← elements (namedArgument value) .rparen fun found =>
            ⟨.tag, .misplaced "',' or ')'" .tag found⟩
        else do
          let _ ← arguments value
      else pure ()
    closing .rbracket .tag .unclosedTag

end SchemaLang.Parse
