import SchemaLang.Yaml.Cursor

/-!
# Scalars of YAML texts

A reader starts at the first character of a scalar and answers its text and
the place behind it. Lines fold in plain, quoted and folded scalars: one break
reads as a blank, and of several breaks all but the first are kept.

Every loop gets as much fuel as the text has characters, and a step of it
takes at least one of them.
-/

set_option autoImplicit false

namespace SchemaLang.Yaml

/-! ## Gaps between words -/

structure Gap where
  /-- blanks in front of the first break -/
  blanks : List Char := []
  broken : Bool := false
  firstBreak : List Char := []
  furtherBreaks : List Char := []

namespace Gap

def text (g : Gap) : List Char :=
  if !g.broken then g.blanks
  else if g.firstBreak = ['\n'] then
    if g.furtherBreaks.isEmpty then [' '] else g.furtherBreaks
  else g.firstBreak ++ g.furtherBreaks

def addBreak (g : Gap) (read : List Char) : Gap :=
  if g.broken then { g with furtherBreaks := g.furtherBreaks ++ read }
  else { broken := true, firstBreak := read }

def read (fuel margin : Nat) (g : Gap) (c : Cursor) : Option (Gap × Cursor) :=
  match fuel with
  | 0 => none
  | fuel + 1 =>
    match c.rest with
    | [] => some (g, c)
    | x :: _ =>
      if isBlank x then
        if g.broken then
          if x == '\t' && c.column < margin then none else read fuel margin g (c.skip 1)
        else read fuel margin { g with blanks := g.blanks ++ [x] } (c.skip 1)
      else if isBreak x then read fuel margin (g.addBreak c.takeBreak.1) c.takeBreak.2
      else some (g, c)

end Gap

/-! ## Plain scalars -/

def startsPlain (inFlow : Bool) (c : Cursor) : Bool :=
  match c.rest with
  | [] => false
  | '-' :: rest => !rest.head?.any isBlank
  | x :: _ =>
    if x == '?' || x == ':' then !inFlow && !c.spaceAt 1
    else !(isSpace x || isFlowMark x || "#&*!|>'\"%@\x60".toList.contains x)

def plainWord (inFlow : Bool) : List Char → Option (List Char)
  | [] => some []
  | x :: rest =>
    if isSpace x then some []
    else if x == ':' && inFlow && rest.head?.any (fun y => isFlowMark y || y == '?') then none
    else if (x == ':' && rest.head?.all isSpace) || (inFlow && isFlowMark x) then some []
    else (plainWord inFlow rest).map (x :: ·)

structure Plain where
  text : List Char
  broken : Bool
  behind : Cursor

def plainTail (fuel : Nat) (inFlow : Bool) (margin : Nat) (text : List Char) (gap : Gap)
    (c : Cursor) : Option Plain :=
  match fuel with
  | 0 => none
  | fuel + 1 =>
    if c.atDocumentMark || c.isAt '#' then some ⟨text, gap.broken, c⟩
    else do
      let word ← plainWord inFlow c.rest
      if word.isEmpty then some ⟨text, gap.broken, c⟩
      else
        let text := text ++ gap.text ++ word
        let c := c.skip word.length
        let (gap, c) ← Gap.read (c.rest.length + 1) margin {} c
        if !inFlow && c.column < margin then some ⟨text, gap.broken, c⟩
        else plainTail fuel inFlow margin text gap c

def plain? (inFlow : Bool) (margin : Nat) (c : Cursor) : Option Plain :=
  plainTail (c.rest.length + 1) inFlow margin [] {} c

/-! ## Quoted scalars -/

def escaped? : Char → Option Char
  | '0' => some '\x00'
  | 'a' => some '\x07'
  | 'b' => some '\x08'
  | 't' | '\t' => some '\t'
  | 'n' => some '\n'
  | 'v' => some '\x0b'
  | 'f' => some '\x0c'
  | 'r' => some '\r'
  | 'e' => some '\x1b'
  | ' ' => some ' '
  | '"' => some '"'
  | '/' => some '/'
  | '\\' => some '\\'
  | 'N' => some '\x85'
  | '_' => some '\xa0'
  | 'L' => some '\u2028'
  | 'P' => some '\u2029'
  | _ => none

def escapeWidth? : Char → Option Nat
  | 'x' => some 2
  | 'u' => some 4
  | 'U' => some 8
  | _ => none

def hexChar? (digits : List Char) : Option Char := do
  let n := (← digits.mapM hexDigit?).foldl (fun n d => 16 * n + d) 0
  if n.isValidChar then some (Char.ofNat n) else none

def escape? (c : Cursor) : Option (Char × Nat) := do
  let letter ← c.at? 1
  match escapeWidth? letter with
  | none => (escaped? letter).map (·, 2)
  | some width =>
    let digits := (c.rest.drop 2).take width
    if digits.length < width then none else (hexChar? digits).map (·, 2 + width)

inductive Quote where
  | single
  | double
  deriving DecidableEq

def Quote.mark : Quote → Char
  | single => '\''
  | double => '"'

structure QuotedWord where
  text : List Char
  /-- whether an escaped break ends it -/
  escapedBreak : Bool
  behind : Cursor

def QuotedWord.cons (x : Char) (w : QuotedWord) : QuotedWord := { w with text := x :: w.text }

def quotedWord (fuel : Nat) (quote : Quote) (c : Cursor) : Option QuotedWord :=
  match fuel with
  | 0 => none
  | fuel + 1 =>
    match quote, c.rest with
    | _, [] => some ⟨[], false, c⟩
    | .single, '\'' :: '\'' :: _ => (quotedWord fuel quote (c.skip 2)).map (.cons '\'')
    | .double, '\\' :: rest =>
      if rest.head?.any isBreak then some ⟨[], true, (c.skip 1).takeBreak.2⟩
      else do
        let (x, width) ← escape? c
        (quotedWord fuel quote (c.skip width)).map (.cons x)
    | _, x :: _ =>
      if x == quote.mark || isSpace x then some ⟨[], false, c⟩
      else (quotedWord fuel quote (c.skip 1)).map (.cons x)

def quotedTail (fuel : Nat) (quote : Quote) (text : List Char) (c : Cursor) :
    Option (List Char × Cursor) :=
  match fuel with
  | 0 => none
  | fuel + 1 =>
    if c.atDocumentMark || c.rest.isEmpty then none
    else do
      let word ← quotedWord (c.rest.length + 1) quote c
      let text := text ++ word.text
      if word.behind.isAt quote.mark then some (text, word.behind.skip 1)
      else
        let (gap, c) ← Gap.read (c.rest.length + 1) 0 { broken := word.escapedBreak } word.behind
        quotedTail fuel quote (text ++ gap.text) c

def quoted? (quote : Quote) (c : Cursor) : Option (List Char × Cursor) :=
  quotedTail (c.rest.length + 1) quote [] (c.skip 1)

/-! ## Literal and folded scalars -/

inductive Chomping where
  | strip
  | clip
  | keep
  deriving DecidableEq

def Chomping.ofMark? : Char → Option Chomping
  | '-' => some strip
  | '+' => some keep
  | _ => none

structure Header where
  chomping : Chomping := .clip
  increment? : Option Nat := none

def increment? (x : Char) : Option Nat :=
  if x.isDigit && x != '0' then some (x.toNat - '0'.toNat) else none

def header? (c : Cursor) : Option (Header × Cursor) :=
  let chomping? := (c.at? 0).bind Chomping.ofMark?
  let digitAt := fun n => ((c.at? n).filter Char.isDigit)
  match chomping?, digitAt 0, digitAt 1 with
  | some chomping, _, none => (c.skip 1).skipLineEnd?.map (⟨chomping, none⟩, ·)
  | some chomping, _, some d => do
    some (⟨chomping, some (← increment? d)⟩, ← (c.skip 2).skipLineEnd?)
  | none, some d, _ => do
    let n ← increment? d
    match (c.at? 1).bind Chomping.ofMark? with
    | some chomping => some (⟨chomping, some n⟩, ← (c.skip 2).skipLineEnd?)
    | none => some ({ increment? := some n }, ← (c.skip 1).skipLineEnd?)
  | none, none, _ => c.skipLineEnd?.map ({}, ·)

structure EmptyLines where
  breaks : List Char
  /-- the rightmost column that their blanks reach -/
  deepest : Nat
  behind : Cursor

def emptyLines? (fuel : Nat) (column? : Option Nat) (breaks : List Char) (deepest : Nat)
    (c : Cursor) : Option EmptyLines :=
  match fuel with
  | 0 => none
  | fuel + 1 =>
    let blanks := (c.rest.takeWhile (· == ' ')).length
    let c := c.skip (match column? with
      | some column => min blanks (column - c.column)
      | none => blanks)
    let deepest := max deepest c.column
    if c.isAt '\t' && column?.all (c.column < ·) then none
    else if c.rest.head?.any isBreak then
      emptyLines? fuel column? (breaks ++ c.takeBreak.1) deepest c.takeBreak.2
    else some ⟨breaks, deepest, c⟩

structure Lines where
  text : List Char := []
  /-- the break behind the last line that is not empty -/
  lastBreak : List Char := []
  /-- the breaks of the empty lines behind it -/
  breaks : List Char := []
  /-- whether that line starts with a blank -/
  startsBlank : Bool := false

namespace Lines

def add (l : Lines) (folded : Bool) (line lastBreak breaks : List Char) : Lines :=
  let startsBlank := line.head?.any isBlank
  let join :=
    if folded && l.lastBreak = ['\n'] && !l.startsBlank && !startsBlank then
      if l.breaks.isEmpty then [' '] else []
    else l.lastBreak
  ⟨l.text ++ join ++ l.breaks ++ line, lastBreak, breaks, startsBlank⟩

def chomped (l : Lines) : Chomping → List Char
  | .strip => l.text
  | .clip => l.text ++ l.lastBreak
  | .keep => l.text ++ l.lastBreak ++ l.breaks

def read (fuel : Nat) (folded : Bool) (column : Nat) (l : Lines) (c : Cursor) :
    Option (Lines × Cursor) :=
  match fuel with
  | 0 => none
  | fuel + 1 =>
    if c.column = column ∧ ¬c.rest.isEmpty then do
      let line := c.rest.takeWhile (fun x => !isBreak x)
      let (lastBreak, c) := (c.skip line.length).takeBreak
      let empty ← emptyLines? (c.rest.length + 1) (some column) [] 0 c
      read fuel folded column (l.add folded line lastBreak empty.breaks) empty.behind
    else some (l, c)

end Lines

def block? (folded : Bool) (margin : Nat) (c : Cursor) : Option (List Char × Cursor) := do
  let (header, c) ← header? (c.skip 1)
  let column? := header.increment?.map (margin - 1 + ·)
  let empty ← emptyLines? (c.rest.length + 1) column? [] 0 c
  let column := column?.getD (max (max empty.deepest margin) 1)
  let (lines, c) ←
    Lines.read (c.rest.length + 1) folded column { breaks := empty.breaks } empty.behind
  some (lines.chomped header.chomping, c)

end SchemaLang.Yaml
