import SchemaLang.Path
import SchemaLang.Text.Decimal
import SchemaLang.Text.Position

/-!
# Invocations

What the arguments of a call ask for. Options stand before or after the
command; the format, the roots and the project belong to every command, and
given behind the command they replace those in front of it.

    [options] tokens [--file FILE]
    [options] parse [--file FILE]
    [options] check [PATH ..]
    [options] definition FILE (--offset N | --line N --col N)
    [options] roots
-/

set_option autoImplicit false

namespace SchemaLang

inductive OutputFormat where
  | json
  | text
  | pretty
  deriving DecidableEq

def OutputFormat.ofName? : String → Option OutputFormat
  | "json" => some json
  | "text" => some text
  | "pretty" => some pretty
  | _ => none

inductive Target where
  | offset (n : Nat)
  | position (p : Position)
  deriving DecidableEq

inductive Command where
  | tokens (file? : Option Path)
  | parse (file? : Option Path)
  | check (paths : List Path)
  | definition (file : Path) (target? : Option Target)
  | roots
  deriving DecidableEq

namespace Command

def paths : Command → List Path
  | tokens file? | parse file? => file?.toList
  | check paths => paths
  | definition file _ => [file]
  | roots => []

def readsInput : Command → Bool
  | tokens file? | parse file? => file?.isNone
  | check paths => paths.isEmpty
  | definition _ _ | roots => false

end Command

structure Invocation where
  command : Command
  format : OutputFormat
  roots : List Path
  project? : Option Path
  deriving DecidableEq

namespace Invocation

inductive Refusal where
  | invalid
  | help
  | version
  deriving DecidableEq

inductive CommandName where
  | tokens
  | parse
  | check
  | definition
  | roots
  deriving DecidableEq

def CommandName.ofName? : String → Option CommandName
  | "tokens" => some tokens
  | "parse" => some parse
  | "check" => some check
  | "definition" => some definition
  | "roots" => some roots
  | _ => none

inductive Flag where
  | format
  | root
  | project
  | file
  | offset
  | line
  | column
  | help
  | version
  deriving DecidableEq

namespace Flag

def ofLong? : String → Option Flag
  | "format" => some format
  | "root" => some root
  | "project" => some project
  | "file" => some file
  | "offset" => some offset
  | "line" => some line
  | "col" => some column
  | "help" => some help
  | "version" => some version
  | _ => none

def ofShort? : Char → Option Flag
  | 'o' => some format
  | 'r' => some root
  | 'f' => some file
  | 'h' => some help
  | 'V' => some version
  | _ => none

def belongsTo (flag : Flag) (command? : Option CommandName) : Bool :=
  match flag with
  | format | root | project | help => true
  | file => command? == some .tokens || command? == some .parse
  | offset | line | column => command? == some .definition
  | version => command?.isNone

def takesValue : Flag → Bool
  | help | version => false
  | _ => true

def count? (value : String) : Option Nat :=
  let cs := value.toList
  Text.number? UInt64.size (if cs.head? = some '+' then String.ofList cs.tail else value)

def accepts (flag : Flag) (value : String) : Bool :=
  match flag with
  | format => (OutputFormat.ofName? value).isSome
  | root | project | file => value != ""
  | offset | line | column => (count? value).isSome
  | help | version => false

end Flag

structure Given where
  values : List (Flag × String) := []
  paths : List String := []

namespace Given

def all (g : Given) (flag : Flag) : List String :=
  (g.values.filter (·.1 == flag)).map Prod.snd

def first? (g : Given) (flag : Flag) : Option String := (g.all flag).head?

def add (g : Given) (flag : Flag) (value : String) : Except Refusal Given :=
  if flag.accepts value && (flag == .root || (g.first? flag).isNone) then
    .ok { g with values := g.values ++ [(flag, value)] }
  else .error .invalid

def addPath (g : Given) (path : String) : Except Refusal Given :=
  if path = "" then .error .invalid else .ok { g with paths := g.paths ++ [path] }

end Given

/-- How an argument reads by itself. A flag that has no value is not known with
one behind its long name. -/
inductive Argument where
  | separator
  | flag (flag? : Option Flag) (value? : Option String)
  | word (text : String)

def Argument.ofText (text : String) : Argument :=
  match text.toList with
  | ['-', '-'] => .separator
  | '-' :: '-' :: rest =>
    let name := rest.takeWhile (· != '=')
    let value? :=
      if name.length < rest.length then some (String.ofList (rest.drop (name.length + 1))) else none
    .flag ((Flag.ofLong? (String.ofList name)).filter fun f => f.takesValue || value?.isNone) value?
  | '-' :: c :: rest =>
    let value := if rest.head? = some '=' then rest.tail else rest
    .flag (Flag.ofShort? c) (if rest.isEmpty then none else some (String.ofList value))
  | _ => .word text

def isWord (text : String) : Bool :=
  match Argument.ofText text with
  | .word _ => true
  | _ => false

def helpOn : List String → Refusal
  | [] | ["help"] => .help
  | [name] => if (CommandName.ofName? name).isSome then .help else .invalid
  | _ => .invalid

def takeFlag (command? : Option CommandName) (g : Given) (flag? : Option Flag)
    (value? : Option String) (rest : List String) : Except Refusal (Given × List String) :=
  match flag?.filter (·.belongsTo command?) with
  | none => .error .invalid
  | some .help => .error .help
  | some .version => .error .version
  | some flag =>
    match value?, rest with
    | some value, _ => (g.add flag value).map (·, rest)
    | none, value :: rest =>
      if isWord value then (g.add flag value).map (·, rest) else .error .invalid
    | none, [] => .error .invalid

def readBehind (fuel : Nat) (command : CommandName) (g : Given) (args : List String) :
    Except Refusal Given :=
  match fuel with
  | 0 => .ok g
  | fuel + 1 =>
    match args with
    | [] => .ok g
    | arg :: rest =>
      match Argument.ofText arg with
      | .separator => rest.foldlM Given.addPath g
      | .word text => do readBehind fuel command (← g.addPath text) rest
      | .flag flag? value? => do
        let (g, rest) ← takeFlag (some command) g flag? value? rest
        readBehind fuel command g rest

def readFront (fuel : Nat) (g : Given) (args : List String) :
    Except Refusal (Given × CommandName × List String) :=
  match fuel with
  | 0 => .error .invalid
  | fuel + 1 =>
    match args with
    | [] => .error .invalid
    | arg :: rest =>
      match Argument.ofText arg with
      | .separator => .error .invalid
      | .word "help" => .error (helpOn rest)
      | .word text =>
        match CommandName.ofName? text with
        | some command => .ok (g, command, rest)
        | none => .error .invalid
      | .flag flag? value? => do
        let (g, rest) ← takeFlag none g flag? value? rest
        readFront fuel g rest

def readTarget (g : Given) : Except Refusal (Option Target) :=
  let number := fun flag => (g.first? flag).bind Flag.count?
  match number .offset, number .line, number .column with
  | some n, none, none => .ok (some (.offset n))
  | none, some line, some column => .ok (some (.position ⟨line, column⟩))
  | none, none, none => .ok none
  | _, _, _ => .error .invalid

def readCommand (name : CommandName) (g : Given) : Except Refusal Command :=
  let file? := (g.first? .file).map Path.mk
  match name, g.paths with
  | .tokens, [] => .ok (.tokens file?)
  | .parse, [] => .ok (.parse file?)
  | .check, paths => .ok (.check (paths.map Path.mk))
  | .definition, [file] => (readTarget g).map (.definition ⟨file⟩)
  | .roots, [] => .ok .roots
  | _, _ => .error .invalid

def read (args : List String) (projectVariable? : Option String) : Except Refusal Invocation := do
  let (front, name, rest) ← readFront (args.length + 1) {} args
  let behind ← readBehind (rest.length + 1) name {} rest
  let given? := fun flag => (behind.first? flag).or (front.first? flag)
  if projectVariable? = some "" ∧
      ((front.first? .project).isNone ∨ (behind.first? .project).isNone) then
    throw .invalid
  let roots := if (behind.all .root).isEmpty then front.all .root else behind.all .root
  pure {
    command := ← readCommand name behind
    format := ((given? .format).bind OutputFormat.ofName?).getD .pretty
    roots := roots.map Path.mk
    project? := ((given? .project).or projectVariable?).map Path.mk }

end Invocation

end SchemaLang
