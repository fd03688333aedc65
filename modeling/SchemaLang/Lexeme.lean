/-!
# Lexemes and tokens

A lexeme is a piece of source text with its lexical category. A token is a
lexeme that knows where it starts. Lexemes that stand next to one another
cover the text between them, so offsets are sums of sizes and need no
separate bookkeeping.
-/

set_option autoImplicit false

namespace SchemaLang

inductive TokenKind where
  | whitespace
  | comment
  | identifier
  | integer
  | boolean
  | string
  | lbrace
  | rbrace
  | lparen
  | rparen
  | lbracket
  | rbracket
  | langle
  | rangle
  | equals
  | comma
  | colon
  | semicolon
  | badChar
  deriving DecidableEq

namespace TokenKind

def label : TokenKind → String
  | whitespace => "WHITESPACE"
  | comment => "COMMENT"
  | identifier => "IDENTIFIER"
  | integer => "INTEGER"
  | boolean => "BOOLEAN"
  | string => "STRING"
  | lbrace => "LBRACE"
  | rbrace => "RBRACE"
  | lparen => "LPARENTHESES"
  | rparen => "RPARENTHESES"
  | lbracket => "LBRACKET"
  | rbracket => "RBRACKET"
  | langle => "LANGLE"
  | rangle => "RANGLE"
  | equals => "EQUALS"
  | comma => "COMMA"
  | colon => "COLON"
  | semicolon => "SEMICOLON"
  | badChar => "BAD_CHARACTER"

def isTrivia : TokenKind → Bool
  | whitespace | comment => true
  | _ => false

end TokenKind

structure Lexeme where
  kind : TokenKind
  text : String
  deriving DecidableEq

namespace Lexeme

def isTrivia (l : Lexeme) : Bool := l.kind.isTrivia

def size (l : Lexeme) : Nat := l.text.utf8ByteSize

/-- Keywords are ordinary identifiers; only their place makes them keywords. -/
def isWord (l : Lexeme) (word : String) : Bool := l.kind == .identifier && l.text == word

end Lexeme

structure Token where
  kind : TokenKind
  text : String
  start : Nat
  deriving DecidableEq

namespace Token

def stop (t : Token) : Nat := t.start + t.text.utf8ByteSize

def lexeme (t : Token) : Lexeme := ⟨t.kind, t.text⟩

def isTrivia (t : Token) : Bool := t.kind.isTrivia

end Token

def tokensFrom : Nat → List Lexeme → List Token
  | _, [] => []
  | start, l :: ls => ⟨l.kind, l.text, start⟩ :: tokensFrom (start + l.size) ls

theorem lexeme_tokensFrom (start : Nat) (ls : List Lexeme) :
    (tokensFrom start ls).map Token.lexeme = ls := by
  induction ls generalizing start with
  | nil => rfl
  | cons l ls ih => simp [tokensFrom, Token.lexeme, ih]

def totalSize : List Lexeme → Nat
  | [] => 0
  | l :: ls => l.size + totalSize ls

theorem totalSize_append (ls ms : List Lexeme) :
    totalSize (ls ++ ms) = totalSize ls + totalSize ms := by
  induction ls with
  | nil => simp [totalSize]
  | cons l ls ih => simp [totalSize, ih, Nat.add_assoc]

theorem tokensFrom_append (start : Nat) (ls ms : List Lexeme) :
    tokensFrom start (ls ++ ms) = tokensFrom start ls ++ tokensFrom (start + totalSize ls) ms := by
  induction ls generalizing start with
  | nil => simp [tokensFrom, totalSize]
  | cons l ls ih => simp [tokensFrom, totalSize, ih, Nat.add_assoc]

def significant (ls : List Lexeme) : List Lexeme := ls.filter (fun l => !l.isTrivia)

end SchemaLang
