import SchemaLang.Proofs.Building
import SchemaLang.Proofs.Lossless
import SchemaLang.Proofs.Seams

/-!
# How high a tree is

Every level of nesting that a value takes up adds two levels of nodes at most:
a construction and its arguments, or a map and its entry. A definition adds one
level for each that it takes up, and what stands at its bottom is a tag, of
which the name of the argument list and the arguments are two more. So the
height of a tree is bounded by the room that nesting has, and the bound is met
by one construction inside another.
-/

set_option autoImplicit false

namespace SchemaLang

namespace Forest

variable {α β τ : Type}

theorem height_append (f g : Forest α τ) : (f ++ g).height = max f.height g.height := by
  induction f with
  | nil => simp [height]
  | leaf t next ih => simpa [height] using ih
  | node a inside next _ ih => rw [node_append, height, ih, height, Nat.max_assoc]

@[simp] theorem height_ofTokens (ts : List τ) : (ofTokens ts : Forest α τ).height = 0 := by
  induction ts with
  | nil => rfl
  | cons t ts ih => exact ih

theorem height_attach (row : Row) (all : List Lexeme) :
    (attach row all).1.height = row.height := by
  induction row generalizing all with
  | nil => rfl
  | leaf t next ih => simp [attach, height_append, height, ih]
  | node shape inside next ihi ihn =>
    cases shape <;> simp [attach, height_append, height, ihi, ihn]

theorem height_locate (row : Row) (start id : Nat) :
    (locate row start id).row.height = row.height := by
  induction row generalizing start id with
  | nil => rfl
  | leaf t next ih => exact ih _ _
  | node shape inside next ihi ihn => simp only [locate, height, ihi, ihn]

theorem length_above_lt_of_mem_sites {f : Forest Mark Token} {above : List Node} {s : Site}
    (hs : s ∈ f.sites above) : s.above.length < above.length + f.height := by
  induction f generalizing above with
  | nil => cases hs
  | leaf t next ih => exact ih hs
  | node mark inside next ihi ihn =>
    rw [height]
    rcases List.mem_cons.mp hs with rfl | hs
    · show above.length < _
      omega
    rcases List.mem_append.mp hs with hs | hs
    · have := ihi hs
      rw [List.length_cons] at this
      omega
    · have := ihn hs
      omega

theorem exists_site_of_height_pos {f : Forest Mark Token} (above : List Node)
    (h : 0 < f.height) : ∃ s ∈ f.sites above, s.above.length + 1 = above.length + f.height := by
  induction f generalizing above with
  | nil => cases h
  | leaf t next ih => exact ih above h
  | node mark inside next ihi ihn =>
    rw [height]
    rcases Nat.lt_or_ge inside.height next.height with hlt | hge
    · obtain ⟨s, hs, hdepth⟩ := ihn above (Nat.zero_lt_of_lt hlt)
      refine ⟨s, List.mem_cons_of_mem _ (List.mem_append_right _ hs), ?_⟩
      omega
    rcases Nat.eq_zero_or_pos inside.height with hzero | hpos
    · refine ⟨_, List.mem_cons_self, ?_⟩
      show above.length + 1 = _
      omega
    · obtain ⟨s, hs, hdepth⟩ := ihi (⟨mark, inside⟩ :: above) hpos
      rw [List.length_cons] at hdepth
      refine ⟨s, List.mem_cons_of_mem _ (List.mem_append_left _ hs), ?_⟩
      omega

end Forest

/-! ## What productions add to the height -/

def Low (n : Nat) (row : Row) : Prop := row.height ≤ n

theorem joins_low (n : Nat) : Joins (Low n) := by
  refine ⟨Nat.zero_le n, fun _ => Nat.zero_le n, fun hf hg => ?_⟩
  rw [Low, Forest.height_append]
  exact max_le hf hg

theorem Low.mono {m n : Nat} (h : m ≤ n) (row : Row) (hrow : Low m row) : Low n row :=
  hrow.trans h

theorem Low.node {n : Nat} {inside : Row} (shape : Shape) (h : Low n inside) :
    Low (n + 1) (.node shape inside .nil) := by
  rw [Low, Forest.height, Forest.height]
  have : inside.height ≤ n := h
  omega

theorem low_skipped {n : Nat} (hn : 0 < n) (fault : Fault) (ls : List Lexeme) :
    Low n (.node (.skipped fault) (.ofTokens ls) .nil) := by
  simpa [Low, Forest.height] using Nat.succ_le_of_lt hn

open SchemaLang.Parser SchemaLang.Parse Step

variable {α : Type} {n : Nat}

theorem low_skip (hn : 0 < n) (fault : Fault) (extent : List Lexeme → Nat) :
    Yields (Low n) (skip fault extent) := fun _ => low_skipped hn _ _

theorem low_construct {body : Step Bool} (h : Yields (Low n) body) (kind : NodeKind) :
    Yields (Low (n + 1)) (construct kind body) := by
  intro s
  cases hvalue : (run body s).value with
  | ok sound =>
    rw [run_construct_of_ok hvalue]
    exact (h s).node _
  | error e =>
    rw [run_construct_of_error hvalue]
    exact (joins_low _).append ((h s).node (.construct kind false))
      (low_skipped (Nat.succ_pos n) _ _)

theorem low_statement {body : Step Unit} {s : List Lexeme} (h : Low n (run body s).built)
    (kind : NodeKind) : Low (n + 1) ((statement kind body).run s).built := by
  cases hvalue : (run body s).value with
  | ok =>
    rw [run_statement_of_ok hvalue]
    exact h.node _
  | error e =>
    rw [run_statement_of_error hvalue]
    exact (joins_low _).append (h.node (.construct kind false))
      (low_skipped (Nat.succ_pos n) _ _)

theorem low_group {body : Step α} (h : Yields (Low n) body) (kind : NodeKind)
    (complete : α → Bool) : Yields (Low (n + 1)) (group kind complete body) := by
  intro s
  rw [run_group]
  split
  · exact (h s).node _
  · exact (h s).mono (Nat.le_succ n)

theorem low_take (hn : 0 < n) (kind : NodeKind) : Yields (Low n) (take kind) := by
  rintro (_ | ⟨t, s⟩)
  · exact Nat.zero_le n
  · exact Nat.succ_le_of_lt hn

theorem low_of_worded {row : Row} (h : Worded row) : Low 1 row := by
  induction h with
  | nil => exact Nat.zero_le 1
  | leaf t _ ih => exact ih
  | lexeme _ _ _ ih => exact max_le (Nat.le_refl 1) ih

theorem low_of_simple {row : Row} (h : Simple row) : Low 2 row := by
  induction h with
  | nil => exact Nat.zero_le 2
  | leaf t _ ih => exact ih
  | lexeme _ _ _ ih => exact max_le (Nat.le_succ 1) ih
  | type hinside _ ih =>
    have := low_of_worded hinside.worded
    exact max_le (Nat.add_le_add_left this 1) ih

/-! ## Values -/

section

variable {value : Parser Bool} (h : Yields (Low n) value)
include h

theorem low_list : Yields (Low (n + 1)) (list value) :=
  low_construct (yields_between (joins_low _) (yields_liftM h) .rbracket _) .list

theorem low_arguments : Yields (Low (n + 1)) (arguments value) := by
  refine low_construct (yields_between (joins_low n) (yields_choose fun s => ?_) _ _) .arguments
  split
  · exact yields_stop (joins_low n) _ _
  · exact yields_liftM h

theorem low_mapEntry : Yields (Low (n + 1)) (mapEntry value) :=
  low_group (yields_then (joins_low n) (yields_liftM h) fun _ =>
    yields_then (joins_low n) (yields_punct (joins_low n) _ _ _) fun _ =>
    yields_then (joins_low n) (yields_liftM h) fun _ => yields_done (joins_low n) _) _ _

theorem low_map : Yields (Low (n + 2)) (map value) :=
  low_construct (yields_between (joins_low _) (low_mapEntry h) .rbrace _) .map

theorem low_construction : Yields (Low (n + 2)) (construction value) := by
  have hsteps : Yields (Low (n + 1)) (do
      let _ ← take .constructorName
      arguments value) :=
    .bind (joins_low _) (low_take (Nat.succ_pos n) _) fun _ => low_arguments h
  exact fun s => (hsteps s).node _

end

theorem low_literal (hn : 0 < n) (kind : NodeKind) : Yields (Low n) (literal kind) :=
  .bind (joins_low n) (low_take hn kind) fun _ => .pure (joins_low n) true

theorem low_number : Yields (Low 1) number := by
  refine yields_choose fun s => ?_
  split
  · exact low_construct (yields_then (joins_low 0) (yields_liftM (.bump (joins_low 0))) fun _ =>
      yields_then (joins_low 0) (yields_liftM (.bump (joins_low 0))) fun _ =>
      yields_then (joins_low 0) (yields_punct (joins_low 0) _ _ _) fun _ =>
        yields_done (joins_low 0) true) _
  · exact low_literal Nat.one_pos _

theorem low_notAValue (hn : 0 < n) : Yields (Low n) notAValue :=
  yields_choose fun _ => .bind (joins_low n) (low_skip hn _ _) fun _ => .pure (joins_low n) false

theorem low_tooDeep (hn : 0 < n) : Yields (Low n) tooDeep :=
  .bind (joins_low n) (low_skip hn _ _) fun _ => .pure (joins_low n) false

theorem low_valueOf {list map construction : Parser Bool} (hn : 0 < n)
    (hlist : Yields (Low n) list) (hmap : Yields (Low n) map)
    (hconstruction : Yields (Low n) construction) :
    Yields (Low n) (valueOf list map construction) := by
  refine yields_choose fun s => ?_
  split
  · exact low_notAValue hn
  split
  · exact low_number.mono (Low.mono hn)
  · exact low_literal hn _
  · exact low_literal hn _
  · exact hlist
  · exact hmap
  · split
    · exact low_literal hn _
    · split
      · exact hconstruction
      · exact low_literal hn _
  · exact low_notAValue hn

theorem low_value (room : Nat) : Yields (Low (2 * room + 1)) (value room) := by
  induction room with
  | zero =>
    have hdeep : Yields (Low 1) tooDeep := low_tooDeep Nat.one_pos
    exact low_valueOf Nat.one_pos hdeep hdeep hdeep
  | succ room ih =>
    exact low_valueOf (Nat.succ_pos _) ((low_list ih).mono (Low.mono (by omega))) (low_map ih)
      (low_construction ih)

/-! ## Tags and definitions -/

theorem low_expect (hn : 0 < n) (kind : TokenKind) (node : NodeKind) (recovery : Recovery)
    (fault : String → Fault) : Yields (Low n) (expect kind node recovery fault) :=
  yields_then (joins_low n) (yields_require (joins_low n) _ _ _) fun _ =>
    yields_liftM (low_take hn node)

theorem low_namedArgument (hn : 0 < n) {value : Parser Bool} (h : Yields (Low n) value) :
    Yields (Low (n + 1)) (namedArgument value) :=
  low_group (yields_then (joins_low n) (low_expect hn _ _ _ _) fun _ =>
    yields_then (joins_low n) (yields_punct (joins_low n) _ _ _) fun _ => yields_liftM h) _ _

theorem low_tag {value : Parser Bool} (hn : 0 < n) (h : Yields (Low n) value) :
    Yields (Low (n + 2)) (tag value) := by
  have hjoins := joins_low (n + 1)
  refine fun s => low_statement (yields_then hjoins (yields_liftM (.bump hjoins)) (fun _ =>
    yields_then hjoins (low_expect (Nat.succ_pos n) _ _ _ _) fun _ =>
    yields_then hjoins (yields_choose fun s => ?_) fun _ => yields_closing hjoins _ _ _) s) _
  split
  · split
    · exact yields_then hjoins (yields_liftM (.bump hjoins)) fun _ =>
        yields_then hjoins (yields_elements (joins_low _) (low_namedArgument hn h) _ _) fun _ =>
          yields_done hjoins ()
    · exact yields_then hjoins (yields_liftM (low_arguments h)) fun _ => yields_done hjoins ()
  · exact yields_done hjoins ()

theorem low_brief {ahead : List Lexeme → Prop} {kind : NodeKind} {p : Parser Unit}
    (h : Brief ahead kind p) (hn : 3 ≤ n) {s : List Lexeme} (hs : ahead s) :
    Low n ((present p).run s).built := by
  obtain ⟨body, rfl, hbody⟩ := h
  rw [built_present]
  exact (low_statement (low_of_simple (hbody s hs)) kind).mono hn

theorem low_block (hn : 0 < n) (kind : NodeKind) (word : String) {member : Parser Bool}
    (h : Yields (Low n) member) : Yields (Low (n + 1)) (block kind word member) := by
  have hjoins := joins_low n
  exact fun s => low_statement (yields_then hjoins
    (yields_keyword.mono fun _ hrow => (low_of_worded hrow).mono hn) (fun _ =>
    yields_then hjoins (low_expect hn _ _ _ _) fun _ =>
    yields_then hjoins (yields_punct hjoins _ _ _) fun _ =>
    yields_then hjoins (yields_liftM (.members hjoins h fun _ => low_skipped hn _ [_])) fun _ =>
      yields_punct hjoins _ _ _) s) _

theorem low_discard (hn : 0 < n) : Yields (Low n) (discard tooDeep) :=
  fun s => low_tooDeep hn s

theorem low_presentTag (room : Nat) :
    Yields (Low (2 * room + 3)) (present (tag (value room))) :=
  yields_present (joins_low _) (low_tag (Nat.succ_pos _) (low_value room))

theorem low_enumMember (room : Nat) : Yields (Low (2 * room + 3)) (enumMember room) := by
  intro s
  rw [enumMember, Parser.run_choose]
  split
  · exact low_presentTag room s
  split
  · exact low_brief brief_enumValue (by omega) ‹_›
  · exact yields_absent (joins_low _) s

theorem low_nested {p : Nat → Parser Unit} (h : ∀ room, Yields (Low (2 * room + 4)) (p room))
    (room : Nat) : Yields (Low (2 * room + 2)) (nested p room) := by
  cases room with
  | zero => exact low_discard (Nat.succ_pos _)
  | succ room => exact h room

theorem low_enumDefinition (room : Nat) : Yields (Low (2 * room + 2)) (enumDefinition room) :=
  low_nested (fun room => low_block (Nat.succ_pos _) .enum _ (low_enumMember room)) room

/-- Statements that begin with a word stand in a definition beside its tags. -/
theorem low_statements (room : Nat) {kind : NodeKind} {p : Parser Unit}
    (h : Brief (fun _ => True) kind p) : Yields (Low (2 * room + 3)) (present p) :=
  fun _ => low_brief h (by omega) trivial

theorem low_typeMember (room : Nat) {typeDefinition : Parser Unit}
    (h : Yields (Low (2 * room + 2)) typeDefinition) :
    Yields (Low (2 * room + 3)) (typeMember room typeDefinition) := by
  refine yields_choose fun s => ?_
  split
  · exact low_statements room brief_settingStatement
  split
  · exact low_presentTag room
  split
  · exact yields_present (joins_low _) ((low_enumDefinition room).mono (Low.mono (Nat.le_succ _)))
  split
  · exact yields_present (joins_low _) (h.mono (Low.mono (Nat.le_succ _)))
  split
  · exact low_statements room brief_field
  · exact yields_absent (joins_low _)

theorem low_typeDefinition (room : Nat) : Yields (Low (2 * room + 2)) (typeDefinition room) := by
  induction room with
  | zero => exact low_discard (Nat.succ_pos _)
  | succ room ih => exact low_block (Nat.succ_pos _) .type _ (low_typeMember room ih)

theorem low_componentMember (room : Nat) :
    Yields (Low (2 * room + 3)) (componentMember room) := by
  refine yields_choose fun s => ?_
  split
  · exact low_statements room brief_settingStatement
  split
  · exact low_presentTag room
  split
  · exact low_statements room brief_componentId
  split
  · exact low_statements room brief_dataMember
  split
  · exact low_statements room brief_eventMember
  split
  · exact low_statements room brief_commandMember
  split
  · exact low_statements room brief_field
  · exact yields_absent (joins_low _)

theorem low_componentDefinition (room : Nat) :
    Yields (Low (2 * room + 2)) (componentDefinition room) :=
  low_nested (fun room => low_block (Nat.succ_pos _) .component _ (low_componentMember room)) room

theorem low_topLevel (room : Nat) : Yields (Low (2 * room + 3)) (topLevel room) := by
  have hdefinition {p : Parser Unit} (h : Yields (Low (2 * room + 2)) p) :
      Yields (Low (2 * room + 3)) (present p) :=
    yields_present (joins_low _) (h.mono (Low.mono (Nat.le_succ _)))
  refine yields_choose fun s => ?_
  split
  · exact yields_absent (joins_low _)
  split
  · exact low_statements room brief_packageStatement
  split
  · exact low_statements room brief_importStatement
  split
  · exact low_statements room brief_settingStatement
  split
  · exact hdefinition (low_enumDefinition room)
  split
  · exact hdefinition (low_typeDefinition room)
  split
  · exact hdefinition (low_componentDefinition room)
  split
  · exact low_presentTag room
  · exact yields_present (joins_low _) (low_skip (Nat.succ_pos _) _ _)

/-- What is read with some room for nesting is at most so high. -/
theorem low_parseWith (room : Nat) (s : List Lexeme) : Low (2 * room + 3) (parseWith room s) :=
  Yields.members (joins_low _) (low_topLevel room) (fun _ => low_skipped (Nat.succ_pos _) _ [_]) s

/-! ## One construction inside another -/

/-- `A(A(..A(_)..))` -/
def calls : Nat → List Lexeme
  | 0 => [⟨.identifier, "_"⟩]
  | n + 1 => ⟨.identifier, "A"⟩ :: ⟨.lparen, "("⟩ :: (calls n ++ [⟨.rparen, ")"⟩])

theorem exists_calls (n : Nat) : ∃ t s, calls n = ⟨.identifier, t⟩ :: s := by
  cases n <;> exact ⟨_, _, rfl⟩

theorem trivia_calls (n : Nat) : ∀ l ∈ calls n, l.isTrivia = false := by
  induction n with
  | zero => simp [calls, Lexeme.isTrivia, TokenKind.isTrivia]
  | succ n ih => simpa [calls, Lexeme.isTrivia, TokenKind.isTrivia, or_imp, forall_and] using ih

theorem run_between_of_ok {closer : TokenKind} {item : Step Bool} (otherwise : String → Stop)
    (o : Lexeme) {c t : Lexeme} {s rest : List Lexeme} {row : Row} (ht : t.kind ≠ closer)
    (hc : c.kind = closer) (h : run item (t :: s) = ⟨.ok true, row, c :: rest⟩) :
    run (between closer item otherwise) (o :: t :: s) =
      ⟨.ok true, .leaf o (row ++ .leaf c .nil), rest⟩ := by
  have hnot : ¬ starts closer (t :: s) = true := by simpa [starts] using ht
  have htail : run (sepTail item closer otherwise) (c :: rest) = ⟨.ok [], .leaf c .nil, rest⟩ := by
    show sepTail.loop item closer otherwise (c :: rest) = _
    rw [sepTail.loop, if_pos hc]
  have hitems : run (elements item closer otherwise) (t :: s) =
      ⟨.ok true, row ++ .leaf c .nil, rest⟩ := by
    rw [elements, run_bind_of_ok _ (by rw [h]), h, run_bind_of_ok _ (by rw [htail]), htail]
    rfl
  rw [between, run_bump_then, Step.run_choose, if_neg hnot, hitems]

theorem run_arguments_of_ok {value : Parser Bool} {t : Lexeme} {s rest : List Lexeme} {row : Row}
    {o c : Lexeme} (ht : t.kind ≠ .rparen) (hc : c.kind = .rparen)
    (h : value.run (t :: s) = ⟨true, row, c :: rest⟩) :
    (arguments value).run (o :: t :: s) =
      ⟨true, .node (.construct .arguments true) (.leaf o (row ++ .leaf c .nil)) .nil, rest⟩ := by
  have hitem : run (Step.choose fun s =>
      if s.isEmpty then stop (.delimited .rparen) .unclosedArguments else value) (t :: s) =
        ⟨.ok true, row, c :: rest⟩ := by
    rw [Step.run_choose, if_neg (by simp), run_liftM, h]
  have hsteps := run_between_of_ok (fun found =>
    ⟨.delimited .rparen, .misplaced "',' or ')'" .argumentList found⟩) o ht hc hitem
  refine (run_construct_of_ok (congrArg Parsed.value hsteps)).trans ?_
  rw [hsteps]

theorem run_construction {value : Parser Bool} {s rest : List Lexeme} {row : Row} {sound : Bool}
    (t : Lexeme) (h : (arguments value).run s = ⟨sound, row, rest⟩) :
    (construction value).run (t :: s) =
      ⟨sound, .node (.construct .construction true)
        (.node (.construct .constructorName true) (.leaf t .nil) row) .nil, rest⟩ := by
  simp only [construction, wrap, within, run_bind, run_take_cons, h]
  rfl

def callsRow : Nat → Row
  | 0 => .node (.construct .emptyOption true) (.leaf ⟨.identifier, "_"⟩ .nil) .nil
  | n + 1 =>
    .node (.construct .construction true)
      (.node (.construct .constructorName true) (.leaf ⟨.identifier, "A"⟩ .nil)
        (.node (.construct .arguments true)
          (.leaf ⟨.lparen, "("⟩ (callsRow n ++ .leaf ⟨.rparen, ")"⟩ .nil)) .nil)) .nil

theorem height_callsRow (n : Nat) : (callsRow n).height = 2 * n + 1 := by
  induction n with
  | zero => rfl
  | succ n ih =>
    simp [callsRow, Forest.height, Forest.height_append, ih]
    omega

theorem run_value_calls (n extra : Nat) (rest : List Lexeme) :
    (value (n + extra)).run (calls n ++ rest) = ⟨true, callsRow n, rest⟩ := by
  induction n generalizing rest with
  | zero => cases extra <;> rfl
  | succ n ih =>
    have hrow := ih (⟨.rparen, ")"⟩ :: rest)
    obtain ⟨text, s, hcalls⟩ := exists_calls n
    rw [hcalls, List.cons_append] at hrow
    have harguments := run_arguments_of_ok (o := ⟨.lparen, "("⟩) (t := ⟨.identifier, text⟩)
      (by simp) rfl hrow
    refine Eq.trans ?_ (run_construction ⟨.identifier, "A"⟩ harguments)
    rw [calls, hcalls, List.cons_append, List.cons_append, List.append_assoc, Nat.succ_add]
    rfl

def tagOver (n : Nat) : List Lexeme :=
  ⟨.lbracket, "["⟩ :: ⟨.identifier, "A"⟩ :: ⟨.lparen, "("⟩ ::
    (calls n ++ [⟨.rparen, ")"⟩, ⟨.rbracket, "]"⟩])

theorem significant_tagOver (n : Nat) : significant (tagOver n) = tagOver n := by
  refine List.filter_eq_self.mpr fun l hl => ?_
  have htrivia : ∀ l ∈ tagOver n, l.isTrivia = false := by
    simpa [tagOver, Lexeme.isTrivia, TokenKind.isTrivia, or_imp, forall_and]
      using trivia_calls n
  rw [htrivia l hl]
  rfl

theorem isNamed_calls (n : Nat) (t : Lexeme) :
    isNamed (t :: (calls n ++ [⟨.rparen, ")"⟩, ⟨.rbracket, "]"⟩])) = false := by
  cases n <;> rfl

/-- A tag whose arguments went through and that is closed behind them. -/
theorem run_tag_of_arguments {value : Parser Bool} {o c name : Lexeme} {s rest : List Lexeme}
    {row : Row} (hname : name.kind = .identifier) (hs : starts .lparen s = true)
    (hnamed : isNamed s = false) (hc : c.kind = .rbracket)
    (h : (arguments value).run s = ⟨true, row, c :: rest⟩) :
    (tag value).run (o :: name :: s) =
      ⟨(), .node (.construct .tag true) (.leaf o (.node (.construct .typeRef true)
        (.leaf name .nil) (row ++ .leaf c .nil))) .nil, rest⟩ := by
  have hopen : run (liftM bump : Step Unit) (o :: name :: s) =
      ⟨.ok (), .leaf o .nil, name :: s⟩ := run_liftM _ _
  refine run_statement_eq <| run_bind_eq hopen <| run_bind_eq (run_expect hname _ _ _ s) <|
    run_bind_eq (a := ()) (r := c :: rest) ?_ ?_
  · rw [Step.run_choose, if_pos hs, if_neg (by simp [hnamed]), run_bind_of_ok (a := true) _
      (by rw [run_liftM, h]), run_liftM, h, Step.run_pure, Forest.append_nil]
  · exact run_closing hc _ _ _

def tagRow (n : Nat) : Row :=
  .node (.construct .tag true)
    (.leaf ⟨.lbracket, "["⟩ (.node (.construct .typeRef true) (.leaf ⟨.identifier, "A"⟩ .nil)
      (.node (.construct .arguments true)
        (.leaf ⟨.lparen, "("⟩ (callsRow n ++ .leaf ⟨.rparen, ")"⟩ .nil))
        (.leaf ⟨.rbracket, "]"⟩ .nil)))) .nil

theorem height_tagRow (n : Nat) : (tagRow n).height = 2 * n + 3 := by
  simp [tagRow, Forest.height, Forest.height_append, height_callsRow]
  omega

theorem run_tag_tagOver (n extra : Nat) :
    (tag (value (n + extra))).run (tagOver n) = ⟨(), tagRow n, []⟩ := by
  have hrow := run_value_calls n extra [⟨.rparen, ")"⟩, ⟨.rbracket, "]"⟩]
  obtain ⟨text, s, hcalls⟩ := exists_calls n
  have hnamed := isNamed_calls n ⟨.lparen, "("⟩
  rw [hcalls, List.cons_append] at hrow hnamed
  have harguments := run_arguments_of_ok (o := ⟨.lparen, "("⟩) (t := ⟨.identifier, text⟩)
    (by simp) rfl hrow
  rw [tagOver, hcalls, List.cons_append]
  exact run_tag_of_arguments rfl rfl hnamed rfl harguments

/-- With room for the calls, or more of it, the tag is read whole. -/
theorem parseWith_tagOver (n extra : Nat) : parseWith (n + extra) (tagOver n) = tagRow n := by
  have htop : (topLevel (n + extra)).run (tagOver n) = ⟨true, tagRow n, []⟩ := by
    rw [topLevel, Parser.run_choose]
    show (present (tag (value (n + extra)))).run (tagOver n) = _
    rw [present, run_bind, run_tag_tagOver, Parser.run_pure, Forest.append_nil]
  have hend : (topLevel (n + extra)).run [] = ⟨false, .nil, []⟩ := rfl
  rw [parseWith]
  show (members.loop (topLevel (n + extra)) (tagOver n)).built = _
  rw [members.loop_eq, htop, if_pos rfl, if_pos (by simp [tagOver]), members.loop_eq, hend,
    if_neg Bool.false_ne_true, Forest.append_nil]

/-! ## The text of a tag over calls -/

theorem scan_opener (rest : List Char) :
    scan ('A' :: '(' :: rest) = ⟨.identifier, "A"⟩ :: ⟨.lparen, "("⟩ :: scan rest := by
  have hname : (⟨.identifier, "A"⟩ : Lexeme).EndsBefore ('(' :: rest) := ⟨'A', [], rfl, rfl⟩
  have hopen : (⟨.lparen, "("⟩ : Lexeme).EndsBefore rest := ⟨'(', [], rfl, rfl⟩
  exact hname.scan_append.trans (congrArg _ hopen.scan_append)

theorem scan_rparen (rest : List Char) : scan (')' :: rest) = ⟨.rparen, ")"⟩ :: scan rest :=
  Lexeme.EndsBefore.scan_append (l := ⟨.rparen, ")"⟩) ⟨')', [], rfl, rfl⟩

theorem scan_calls (n : Nat) (rest : List Char) :
    scan (characters (calls n) ++ ')' :: rest) = calls n ++ scan (')' :: rest) := by
  induction n generalizing rest with
  | zero =>
    exact Lexeme.EndsBefore.scan_append (l := ⟨.identifier, "_"⟩) ⟨'_', [], rfl, rfl⟩
  | succ n ih =>
    have htext : characters (calls (n + 1)) ++ ')' :: rest =
        'A' :: '(' :: (characters (calls n) ++ ')' :: ')' :: rest) := by
      simp [calls, characters]
    rw [htext, scan_opener, ih, scan_rparen, calls, List.cons_append, List.cons_append,
      List.append_assoc]
    rfl

theorem lexemes_tagOver (n : Nat) :
    lexemes (String.ofList (characters (tagOver n))) = tagOver n := by
  have htext : characters (tagOver n) =
      '[' :: 'A' :: '(' :: (characters (calls n) ++ [')', ']']) := by
    simp [tagOver, characters]
  have hbegin (rest : List Char) : scan ('[' :: rest) = ⟨.lbracket, "["⟩ :: scan rest :=
    Lexeme.EndsBefore.scan_append (l := ⟨.lbracket, "["⟩) ⟨'[', [], rfl, rfl⟩
  have hend : scan [']'] = [⟨.rbracket, "]"⟩] := by
    have hlast : (⟨.rbracket, "]"⟩ : Lexeme).EndsBefore [] := ⟨']', [], rfl, rfl⟩
    exact hlast.scan_append.trans (by rw [scan])
  rw [lexemes, String.toList_ofList, htext, hbegin, scan_opener, scan_calls, scan_rparen, hend,
    tagOver]

namespace SchemaFile

variable (file : SchemaFile) {s : Site}

theorem length_ancestors (s : Site) : s.ancestors.length = s.above.length := by
  have h (ns : List Node) : (Site.ancestorsOf ns).length = ns.length := by
    induction ns with
    | nil => rfl
    | cons n ns ih => rw [Site.ancestorsOf, List.length_cons, ih, List.length_cons]
  exact h s.above

theorem height_inside_root :
    file.root.inside.height = (parseRow (significant (lexemes file.source))).height := by
  rw [inside_root, Forest.height_locate, placedRow, attachAll, Forest.height_append,
    Forest.height_ofTokens, Nat.max_zero, Forest.height_attach]

theorem length_ancestors_le (hs : s ∈ file.sites) :
    s.ancestors.length ≤ 2 * maxNesting + 3 := by
  rw [length_ancestors]
  rcases List.mem_cons.mp hs with rfl | hs
  · exact Nat.zero_le _
  · have hdepth := Forest.length_above_lt_of_mem_sites hs
    have hheight : file.root.inside.height ≤ 2 * maxNesting + 3 := by
      rw [height_inside_root]
      exact low_parseWith maxNesting _
    rw [List.length_singleton] at hdepth
    omega

/-- No node has more nodes around it than nesting has room for, and a tag over
calls in one another has a node with so many. -/
theorem height_le_and_reached :
    (∀ file : SchemaFile, ∀ s ∈ file.sites, s.ancestors.length ≤ 2 * maxNesting + 3) ∧
      ∃ file : SchemaFile, ∃ s ∈ file.sites, s.ancestors.length = 2 * maxNesting + 3 := by
  refine ⟨fun file s hs => file.length_ancestors_le hs, ?_⟩
  let file := SchemaFile.read (.unsaved 0) (String.ofList (characters (tagOver maxNesting)))
  have hheight : file.root.inside.height = 2 * maxNesting + 3 := by
    rw [height_inside_root]
    have hrow : parseRow (tagOver maxNesting) = tagRow maxNesting := parseWith_tagOver maxNesting 0
    show (parseRow (significant (lexemes (String.ofList _)))).height = _
    rw [lexemes_tagOver, significant_tagOver, hrow]
    exact height_tagRow maxNesting
  obtain ⟨s, hs, hdepth⟩ := Forest.exists_site_of_height_pos [file.root]
    (f := file.root.inside) (by omega)
  refine ⟨file, s, List.mem_cons_of_mem _ hs, ?_⟩
  rw [length_ancestors]
  rw [List.length_singleton] at hdepth
  omega

end SchemaFile

end SchemaLang
