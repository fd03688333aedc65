import SchemaLang.Parse.Parser

/-!
# Steps and recovery

A step either goes on or stops with a fault and with the boundary at which
reading may resume. A construct runs its steps and closes: whole when they
went through, and as incomplete, followed by the skipped lexemes, when one of
them stopped. Closing delimiters of an enclosing construct are never skipped
by a construct inside it.
-/

set_option autoImplicit false

namespace SchemaLang

/-- Where reading resumes after a fault.

* `here`: nothing is skipped
* `statement`: after `;`, or before a closing brace
* `tag`: after `;` or the closing bracket, or before a closing brace
* `value`: after `;`, or before any closer
* `delimited c`: after `;` or `c`, or before any other closer
* `braces`: after a closing brace
* `topLevel`: after `;` or a closing brace -/
inductive Recovery where
  | here
  | statement
  | tag
  | value
  | delimited (closer : TokenKind)
  | braces
  | topLevel
  deriving DecidableEq

namespace Recovery

def stopsAfter : Recovery → TokenKind → Bool
  | here, _ => false
  | statement, k | value, k => k == .semicolon
  | tag, k => k == .semicolon || k == .rbracket
  | delimited closer, k => k == .semicolon || k == closer
  | braces, k => k == .rbrace
  | topLevel, k => k == .semicolon || k == .rbrace

def stopsBefore : Recovery → TokenKind → Bool
  | here, _ => true
  | statement, k | tag, k => k == .rbrace
  | value, k | delimited _, k => k == .rparen || k == .rbracket || k == .rbrace
  | braces, _ | topLevel, _ => false

def extent (r : Recovery) : List Lexeme → Nat
  | [] => 0
  | t :: s =>
    if r.stopsAfter t.kind then 1
    else if r.stopsBefore t.kind then 0
    else r.extent s + 1

end Recovery

/-- How many lexemes make up one construct that is skipped whole: up to the
closer that balances its first opener, or up to a `;` outside all brackets.
`depth` brackets are open already. -/
def balancedExtent (depth : Nat) : List Lexeme → Nat
  | [] => 0
  | t :: s =>
    match t.kind with
    | .lbrace | .lbracket | .lparen => balancedExtent (depth + 1) s + 1
    | .rbrace | .rbracket | .rparen =>
      match depth with
      | 0 => 0
      | 1 => 1
      | d + 2 => balancedExtent (d + 1) s + 1
    | .semicolon => if depth = 0 then 1 else balancedExtent depth s + 1
    | _ => balancedExtent depth s + 1

structure Stop where
  recovery : Recovery
  fault : Fault
  deriving DecidableEq

def found : List Lexeme → String
  | [] => "<EOF>"
  | t :: _ => t.text

def starts (kind : TokenKind) : List Lexeme → Bool
  | [] => false
  | t :: _ => t.kind == kind

def startsWord (word : String) : List Lexeme → Bool
  | [] => false
  | t :: _ => t.isWord word

def startsMember (s : List Lexeme) : Bool :=
  starts .identifier s || starts .lbracket s || starts .rbrace s

abbrev Step := ExceptT Stop Parser

namespace Step

variable {α : Type}

def choose (f : List Lexeme → Step α) : Step α := Parser.choose f

def stop (recovery : Recovery) (fault : Fault) : Step α := throw ⟨recovery, fault⟩

def require (kind : TokenKind) (recovery : Recovery) (fault : String → Fault) : Step Unit :=
  choose fun s => if starts kind s then pure () else stop recovery (fault (found s))

def punct (kind : TokenKind) (recovery : Recovery) (fault : String → Fault) : Step Unit := do
  require kind recovery fault
  Parser.bump

def expect (kind : TokenKind) (node : NodeKind) (recovery : Recovery)
    (fault : String → Fault) : Step String := do
  require kind recovery fault
  Parser.take node

/-- Takes the closer of a construct. When it is missing and another member may
begin, nothing is skipped: one forgotten closer costs one fault. -/
def closing (closer : TokenKind) (recovery : Recovery) (fault : String → Fault) : Step Unit :=
  choose fun s =>
    if starts closer s then Parser.bump
    else if s.isEmpty || startsMember s then stop .here (fault (found s))
    else stop recovery (fault (found s))

def terminator (before : String) : Step Unit :=
  closing .semicolon .statement fun _ => .missingAfter "';'" before

/-- A construct inside the steps of another. When a step stops, what was built
stays with the enclosing construct. -/
def group (kind : NodeKind) (complete : α → Bool) (body : Step α) : Step α :=
  Parser.within (fun
    | .ok a => some (.construct kind (complete a))
    | .error _ => none) body

def sepTail.loop (item : Step α) (closer : TokenKind) (otherwise : String → Stop) :
    List Lexeme → Parsed (Except Stop (List α))
  | [] => ⟨.error (otherwise (found [])), .nil, []⟩
  | t :: s =>
    if t.kind = closer then ⟨.ok [], .leaf t .nil, s⟩
    else if t.kind = .comma then
      let o := Parser.run item s
      match o.value with
      | .error e => ⟨.error e, .leaf t o.built, o.rest⟩
      | .ok a =>
        let r := loop item closer otherwise o.rest
        ⟨r.value.map (a :: ·), .leaf t (o.built ++ r.built), r.rest⟩
    else ⟨.error (otherwise (found (t :: s))), .nil, t :: s⟩
termination_by s => s.length
decreasing_by
  have h := Parser.rest_length_le item s
  simp only [List.length_cons]
  omega

theorem sepTail.loop_lossless (item : Step α) (closer : TokenKind) (otherwise : String → Stop)
    (s : List Lexeme) :
    (loop item closer otherwise s).built.leaves ++ (loop item closer otherwise s).rest = s := by
  fun_induction loop item closer otherwise s with
  | case1 => rfl
  | case2 t s h => rfl
  | case3 t s h hc o e he =>
    simp only [Forest.leaves, List.cons_append]
    rw [Parser.lossless item s]
  | case4 t s h hc o a ha r ih =>
    simp only [Forest.leaves, Forest.leaves_append, List.cons_append, List.append_assoc]
    rw [ih, Parser.lossless item s]
  | case5 t s h hc => rfl

def sepTail (item : Step α) (closer : TokenKind) (otherwise : String → Stop) : Step (List α) :=
  ExceptT.mk ⟨sepTail.loop item closer otherwise, sepTail.loop_lossless item closer otherwise⟩

end Step

namespace Parser

def construct (kind : NodeKind) (body : Step Bool) : Parser Bool := do
  let outcome ← within (fun
    | .ok sound => some (.construct kind sound)
    | .error _ => some (.construct kind false)) body
  match outcome with
  | .ok sound => pure sound
  | .error e =>
    skip e.fault e.recovery.extent
    pure false

def statement (kind : NodeKind) (body : Step Unit) : Parser Unit := do
  let _ ← construct kind do
    body
    pure true

def tooDeep : Parser Bool := do
  skip .tooDeep (balancedExtent 0)
  pure false

end Parser

end SchemaLang
