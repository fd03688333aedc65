import SchemaLang.Proofs.Layout

/-!
# Files side by side

A file without faults can be put in front of any other file: as long as the
texts do not grow together into other tokens, the nodes of both stand side by
side, those of the second file further back by the size of the first text.
Only blanks and comments at the seam may change hands. A row of the grammar is
read whole whatever follows, and what is parsed begins with a node that holds
a lexeme, so its place does not depend on what stands in front of it.
-/

set_option autoImplicit false

namespace SchemaLang

/-- Definitions in front are read as if nothing followed. -/
theorem parseWith_append {room : Nat} {s : List Lexeme} (hs : s ∈ Grammar.schemaFile room)
    (rest : List Lexeme) :
    parseWith room (s ++ rest) = parseWith room s ++ parseWith room rest := by
  have hm := Parse.serves_topLevel room
  obtain ⟨row, -, -, hrun, -⟩ := Parser.complete_members hm s hs
  have hend := hrun []
  rw [List.append_nil, Parser.run_members_idle (hm.idle [] (by simp)), Forest.append_nil] at hend
  rw [parseWith, hrun, parseWith, hend]
  rfl

/-! ## Rows that begin with a lexeme -/

def Forest.Leads {α τ : Type} : Forest α τ → Prop
  | .node _ inside _ => inside.leaves ≠ []
  | _ => False

theorem Forest.Leads.append {α τ : Type} {f : Forest α τ} (h : f.Leads) (g : Forest α τ) :
    (f ++ g).Leads := by
  cases f with
  | nil => exact h.elim
  | leaf t next => exact h.elim
  | node a inside next => exact h

namespace Parser

theorem leads_statement {kind : NodeKind} {body : Step Unit} {s : List Lexeme}
    (h : ((statement kind body).run s).built.Each Shape.Filled) :
    ((statement kind body).run s).built.Leads := by
  cases hv : (run body s).value with
  | ok u =>
    rw [run_statement_of_ok hv] at h ⊢
    exact h.1
  | error e =>
    rw [run_statement_of_error hv] at h ⊢
    exact h.1

theorem leads_skip (fault : Fault) {extent : List Lexeme → Nat} {t : Lexeme} {s : List Lexeme}
    (h : 0 < extent (t :: s)) : ((skip fault extent).run (t :: s)).built.Leads := by
  rw [run_skip]
  obtain ⟨n, hn⟩ := Nat.exists_eq_succ_of_ne_zero (Nat.pos_iff_ne_zero.mp h)
  simp [Forest.Leads, hn]

end Parser

namespace Parse

open SchemaLang.Parser

/-- A definition that nests too deeply is skipped with its keyword. -/
theorem leads_tooDeep {text : String} {s : List Lexeme} (h : startsWord text s = true) :
    ((discard tooDeep).run s).built.Leads := by
  cases s with
  | nil => simp [startsWord] at h
  | cons t s =>
    simp only [startsWord, Lexeme.isWord, Bool.and_eq_true, beq_iff_eq] at h
    have hextent : 0 < balancedExtent 0 (t :: s) := by
      rw [balancedExtent_cons, h.1]
      exact Nat.succ_pos _
    exact leads_skip .tooDeep hextent

theorem leads_nested {p : Nat → Parser Unit} {text : String} {s : List Lexeme}
    (h : startsWord text s = true) (hp : ∀ room, ((p room).run s).built.Leads) (room : Nat) :
    ((nested p room).run s).built.Leads := by
  cases room with
  | zero => exact leads_tooDeep h
  | succ room => exact hp room

theorem leads_topLevel (room : Nat) (t : Lexeme) (s : List Lexeme) :
    ((topLevel room).run (t :: s)).built.Leads := by
  have hs : Ahead (t :: s) := List.cons_ne_nil t s
  rw [topLevel, run_choose, if_neg (by simp)]
  split
  · rw [run_present]
    exact leads_statement (fills_packageStatement _ hs)
  split
  · rw [run_present]
    exact leads_statement (fills_importStatement _ hs)
  split
  · rw [run_present]
    exact leads_statement (fills_settingStatement _ hs)
  split
  · rw [run_present]
    exact leads_nested ‹_› (fun room => leads_statement
      (fills_block _ _ (fills_enumMember room) _ hs)) room
  split
  · rw [run_present]
    cases room with
    | zero => exact leads_tooDeep ‹_›
    | succ room => exact leads_statement (fills_typeDefinition (room + 1) _ hs)
  split
  · rw [run_present]
    exact leads_nested ‹_› (fun room => leads_statement
      (fills_block _ _ (fills_componentMember room) _ hs)) room
  split
  · rw [run_present]
    exact leads_statement (fills_tag (fills_value room) _ hs)
  · rw [run_present]
    refine leads_skip _ ?_
    rw [Recovery.extent]
    split
    · exact Nat.one_pos
    · exact Nat.succ_pos _

end Parse

theorem parseWith_nil (room : Nat) : parseWith room [] = .nil := by
  have hidle := (Parse.serves_topLevel room).idle [] (by simp)
  rw [parseWith, Parser.run_members_idle hidle]

theorem leads_parseWith (room : Nat) (t : Lexeme) (s : List Lexeme) :
    (parseWith room (t :: s)).Leads := by
  obtain ⟨row, hrow⟩ := Parser.built_members (Parse.topLevel room) (t :: s)
  show (Parser.members.loop _ _).built.Leads
  rw [hrow]
  exact (Parse.leads_topLevel room t s).append row

/-! ## Rows further back -/

theorem Shape.Laid.mapLeaves {σ τ : Type} {shape : Shape} {inside : Forest Shape σ}
    (h : shape.Laid inside) (f : σ → τ) : shape.Laid (inside.mapLeaves f) := by
  cases shape with
  | construct kind complete =>
    intro hnil
    rw [Forest.leaves_mapLeaves, List.map_eq_nil_iff] at hnil
    exact h hnil
  | skipped fault =>
    have hflat := congrArg (Forest.mapLeaves f) h
    rwa [Forest.mapLeaves_ofTokens, ← Forest.leaves_mapLeaves] at hflat

def Token.shift (n : Nat) (t : Token) : Token := { t with start := n + t.start }

def Span.shift (n : Nat) (s : Span) : Span := ⟨n + s.start, n + s.stop⟩

theorem startOf_shift (n offset : Nat) (ts : List Token) :
    startOf (n + offset) (ts.map (Token.shift n)) = n + startOf offset ts := by
  cases ts <;> rfl

theorem stopOf_shift (n offset : Nat) (ts : List Token) :
    stopOf (n + offset) (ts.map (Token.shift n)) = n + stopOf offset ts := by
  induction ts generalizing offset with
  | nil => rfl
  | cons t ts ih =>
    rw [List.map_cons, stopOf, stopOf, ← ih]
    rw [Token.stop, Token.stop, Token.shift, Nat.add_assoc]

namespace Forest

def shifted (n : Nat) : Forest (Shape × Span) Token → Forest (Shape × Span) Token
  | nil => nil
  | leaf t next => leaf (t.shift n) (next.shifted n)
  | node a inside next => node (a.1, a.2.shift n) (inside.shifted n) (next.shifted n)

theorem labels_shifted (n : Nat) (f : Forest (Shape × Span) Token) :
    (f.shifted n).labels = f.labels.map (fun a => (a.1, a.2.shift n)) := by
  induction f with
  | nil => rfl
  | leaf t next ih => exact ih
  | node a inside next ihi ihn => simp [shifted, labels, ihi, ihn]

theorem spanned_shift (row : Forest Shape Token) (n offset : Nat) :
    (row.mapLeaves (Token.shift n)).spanned (n + offset) = (row.spanned offset).shifted n := by
  induction row generalizing offset with
  | nil => rfl
  | leaf t next ih =>
    have hstop : (t.shift n).stop = n + t.stop := Nat.add_assoc _ _ _
    rw [mapLeaves, spanned, hstop, ih, spanned, shifted]
  | node shape inside next ihi ihn =>
    rw [mapLeaves, spanned, leaves_mapLeaves, startOf_shift, stopOf_shift, ihi, ihn, spanned,
      shifted]
    rfl

/-- Where a row begins with a lexeme, it does not matter what it stands behind. -/
theorem spanned_offset {row : Forest Shape Token} (h : row.Leads) (m n : Nat) :
    row.spanned m = row.spanned n := by
  cases row with
  | nil => exact h.elim
  | leaf t next => exact h.elim
  | node shape inside next =>
    rw [spanned, spanned, startOf_of_ne_nil h m n, stopOf_of_ne_nil h m n]

/-- What is parsed from no lexemes or begins with one can stand behind anything. -/
theorem spanned_parsed {row : Forest Shape Token} {room : Nat}
    (h : row.mapLeaves Token.lexeme = parseWith room (row.leaves.map Token.lexeme)) (m n : Nat) :
    row.spanned m = row.spanned n := by
  cases row with
  | nil => rfl
  | leaf t next => rfl
  | node shape inside next =>
    apply spanned_offset
    cases hl : (node shape inside next).leaves with
    | nil =>
      rw [hl, List.map_nil, parseWith_nil] at h
      cases h
    | cons t ts =>
      have hleads := leads_parseWith room t.lexeme (ts.map Token.lexeme)
      rw [hl, List.map_cons] at h
      rw [← h] at hleads
      exact fun hnil => hleads (by rw [leaves_mapLeaves, hnil, List.map_nil])

end Forest

namespace SchemaFile

def followedBy (a b : SchemaFile) : SchemaFile := read a.origin (a.source ++ b.source)

variable (a b : SchemaFile)

/-- The layout of a faultless file and another one behind it is that of both, side by side. -/
theorem layout_followedBy (hfaults : a.faults = [])
    (htokens : tokenize (a.followedBy b).source =
      tokenize a.source ++ (tokenize b.source).map (Token.shift a.source.utf8ByteSize)) :
    (a.followedBy b).layout = a.layout ++ b.layout.shifted a.source.utf8ByteSize := by
  obtain ⟨row, hrow, hleaves, hlaid, hlayout⟩ := a.exists_spanned
  obtain ⟨row', hrow', hleaves', hlaid', hlayout'⟩ := b.exists_spanned
  have hall : (row ++ row'.mapLeaves (Token.shift a.source.utf8ByteSize)).leaves =
      significantFrom 0 (lexemes (a.followedBy b).source) := by
    show _ = (tokenize (a.followedBy b).source).filter (fun t => !t.isTrivia)
    rw [htokens, List.filter_append, List.filter_map, Forest.leaves_append,
      Forest.leaves_mapLeaves, hleaves, hleaves']
    rfl
  have hlexemes (t : Token) : (t.shift a.source.utf8ByteSize).lexeme = t.lexeme := rfl
  have hsignificant : significant (lexemes (a.followedBy b).source) =
      significant (lexemes a.source) ++ significant (lexemes b.source) := by
    rw [← lexeme_significantFrom 0, ← hall, Forest.leaves_append, Forest.leaves_mapLeaves,
      List.map_append, List.map_map, hleaves, hleaves', ← lexeme_significantFrom 0,
      ← lexeme_significantFrom 0]
    rfl
  have hparsed : (row ++ row'.mapLeaves (Token.shift a.source.utf8ByteSize)).mapLeaves
      Token.lexeme = parseRow (significant (lexemes (a.followedBy b).source)) := by
    rw [hsignificant, parseRow, parseWith_append (a.derivable_of_faults hfaults),
      Forest.mapLeaves_append, Forest.mapLeaves_mapLeaves, hrow]
    exact congrArg _ hrow'
  have hboth : (row ++ row'.mapLeaves (Token.shift a.source.utf8ByteSize)).Each Shape.Laid := by
    refine (Forest.each_append _ _ _).mpr ⟨hlaid, Forest.each_mapLeaves.mpr (hlaid'.imp ?_)⟩
    exact fun shape inside h => h.mapLeaves _
  have hbehind : (row'.mapLeaves (Token.shift a.source.utf8ByteSize)).mapLeaves Token.lexeme =
      parseWith Parse.maxNesting
        ((row'.mapLeaves (Token.shift a.source.utf8ByteSize)).leaves.map Token.lexeme) := by
    rw [Forest.mapLeaves_mapLeaves, Forest.leaves_mapLeaves, List.map_map, hleaves']
    exact hrow'.trans (congrArg parseRow (lexeme_significantFrom 0 _).symm)
  rw [(a.followedBy b).layout_eq _ hboth hall hparsed, hlayout, hlayout', Forest.spanned_append,
    Forest.spanned_parsed hbehind _ (a.source.utf8ByteSize + 0), Forest.spanned_shift]

/-- The nodes of a faultless file and of one behind it stand side by side, and
the faults are those of the second file, further back by the size of the first. -/
theorem concatenation (hfaults : a.faults = [])
    (htokens : tokenize (a.followedBy b).source =
      tokenize a.source ++ (tokenize b.source).map (Token.shift a.source.utf8ByteSize)) :
    (a.followedBy b).layout = a.layout ++ b.layout.shifted a.source.utf8ByteSize ∧
      (a.followedBy b).faults.map (fun p => (p.1.span, p.2)) =
        b.faults.map (fun p => (p.1.span.shift a.source.utf8ByteSize, p.2)) := by
  have hlayout := a.layout_followedBy b hfaults htokens
  refine ⟨hlayout, ?_⟩
  have hnone := a.faults_layout
  rw [hfaults, List.map_nil] at hnone
  have hsecond :=
    congrArg (List.map fun p => (p.1.shift a.source.utf8ByteSize, p.2)) b.faults_layout
  rw [List.map_map, List.map_filterMap] at hsecond
  rw [faults_layout, hlayout, Forest.labels_append, List.filterMap_append, ← hnone, List.nil_append,
    Forest.labels_shifted, List.filterMap_map]
  simp only [Option.map_map] at hsecond
  exact hsecond.symm

theorem concatenation_of_statements :
    (read (.unsaved 0) "package a; ").faults = [] ∧
      ((read (.unsaved 0) "package a; ").followedBy
          (read (.unsaved 1) "type T \x7b A b \x7d")).layout =
        (read (.unsaved 0) "package a; ").layout ++
          (read (.unsaved 1) "type T \x7b A b \x7d").layout.shifted 11 ∧
      ((read (.unsaved 0) "package a; ").followedBy
          (read (.unsaved 1) "type T \x7b A b \x7d")).faults.map (fun p => (p.1.span, p.2)) =
        [(⟨23, 23⟩, .missingAfter "'=' or ';'" "A b")] := by
  have hfaults : (read (.unsaved 0) "package a; ").faults = [] :=
    List.isEmpty_iff.mp (by decide +kernel)
  have h := concatenation (read (.unsaved 0) "package a; ")
    (read (.unsaved 1) "type T \x7b A b \x7d") hfaults (by decide +kernel)
  exact ⟨hfaults, h.1, h.2.trans (by decide +kernel)⟩

end SchemaFile

end SchemaLang
