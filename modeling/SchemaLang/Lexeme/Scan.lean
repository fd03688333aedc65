import SchemaLang.Lexeme
import SchemaLang.Text.Bytes
import SchemaLang.Text.Whitespace

/-!
# Cutting a text into lexemes

Every text has lexemes: a character that starts no rule is a lexeme of its
own. A rule looks at the first character and answers how many of the
following ones belong to it, so no lexeme is empty and none is lost. The
rules are tried in this order:

    blanks, comment, boolean, name, integer, string, punctuation

A name may be qualified (`a.b.c`), and a dot at either end belongs to it, so
that a half typed `Color.` is one lexeme.
-/

set_option autoImplicit false

namespace SchemaLang

namespace Scan

def startsName (c : Char) : Bool := c.isAlpha || c == '_'

def continuesName (c : Char) : Bool := c.isAlphanum || c == '_'

def runLength (p : Char → Bool) (cs : List Char) : Nat := (cs.takeWhile p).length

def blockTail : List Char → Nat
  | [] => 0
  | c :: cs => if c = '*' ∧ cs.head? = some '/' then 2 else blockTail cs + 1

def commentTail? (c : Char) (cs : List Char) : Option Nat :=
  if c = '/' then
    match cs with
    | '/' :: _ => some (runLength (· != '\n') cs)
    | '*' :: rest => some (blockTail rest + 1)
    | _ => none
  else none

def wordLength? (word : String) (cs : List Char) : Option Nat :=
  if (cs.take word.length).map Char.toLower = word.toList ∧
      (cs.drop word.length).head?.any (fun c => continuesName c || c == '.') = false then
    some word.length
  else none

def booleanTail? (c : Char) (cs : List Char) : Option Nat :=
  ((wordLength? "true" (c :: cs)).or (wordLength? "false" (c :: cs))).map (· - 1)

def nameTail : List Char → Nat
  | [] => 0
  | c :: cs =>
    if continuesName c then nameTail cs + 1
    else if c = '.' then (if cs.head?.any startsName then nameTail cs + 1 else 1)
    else 0

def nameTail? (c : Char) (cs : List Char) : Option Nat :=
  if startsName c then some (nameTail cs)
  else if c = '.' then some (if cs.head?.any startsName then nameTail cs else 0)
  else none

def stringTail : List Char → Nat
  | [] => 0
  | c :: cs => if c = '"' then 1 else if c = '\n' then 0 else stringTail cs + 1

def punctuation? : Char → Option TokenKind
  | '{' => some .lbrace
  | '}' => some .rbrace
  | '(' => some .lparen
  | ')' => some .rparen
  | '[' => some .lbracket
  | ']' => some .rbracket
  | '<' => some .langle
  | '>' => some .rangle
  | '=' => some .equals
  | ',' => some .comma
  | ':' => some .colon
  | ';' => some .semicolon
  | _ => none

def lead (c : Char) (cs : List Char) : TokenKind × Nat :=
  if Text.isWhite c then (.whitespace, runLength Text.isWhite cs)
  else if let some n := commentTail? c cs then (.comment, n)
  else if let some n := booleanTail? c cs then (.boolean, n)
  else if let some n := nameTail? c cs then (.identifier, n)
  else if c.isDigit then (.integer, runLength Char.isDigit cs)
  else if c = '"' then (.string, stringTail cs)
  else ((punctuation? c).getD .badChar, 0)

end Scan

def scan : List Char → List Lexeme
  | [] => []
  | c :: cs =>
    let (kind, n) := Scan.lead c cs
    ⟨kind, String.ofList (c :: cs.take n)⟩ :: scan (cs.drop n)
termination_by cs => cs.length
decreasing_by simp only [List.length_drop, List.length_cons]; omega

theorem flatMap_text_scan (cs : List Char) : (scan cs).flatMap (fun l => l.text.toList) = cs := by
  induction hn : cs.length using Nat.strongRecOn generalizing cs with
  | ind n ih =>
    cases cs with
    | nil => simp [scan]
    | cons c cs =>
      rw [scan]
      simp only [List.flatMap_cons, String.toList_ofList]
      rw [ih _ (by subst hn; simp only [List.length_drop, List.length_cons]; omega) _ rfl]
      simp

def lexemes (source : String) : List Lexeme := scan source.toList

def tokenize (source : String) : List Token := tokensFrom 0 (lexemes source)

def tokensBetween (source : String) (start stop : Nat) : List Token :=
  let cs := source.toList
  let last := Text.floorBoundary cs stop
  let first := Text.floorBoundary cs (min start last)
  tokensFrom first (scan (Text.charsBefore (last - first) (Text.charsFrom first cs)))

end SchemaLang
