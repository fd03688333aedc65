import SchemaLang.Proofs.Arrangement
import SchemaLang.Proofs.Lookahead
import SchemaLang.Proofs.Values
import SchemaLang.Proofs.Verdicts

/-!
# Tags with other names for their arguments

A whole tag does not depend on the names in front of the values of its
arguments. Written with other names and read again, it gives the same row with
the other names in it, whatever follows.
-/

set_option autoImplicit false

namespace SchemaLang

open Forest

/-- Lexemes that are the same but for names of arguments: such a name stands
behind a parenthesis or a comma and in front of `=`. -/
inductive Respelt : List Lexeme → List Lexeme → Prop
  | nil : Respelt [] []
  | same (l : Lexeme) {ls ls' : List Lexeme} (h : Respelt ls ls') : Respelt (l :: ls) (l :: ls')
  | name {opener name name' mark : Lexeme} {ls ls' : List Lexeme}
      (hopener : opener.kind = .lparen ∨ opener.kind = .comma) (hname : name.kind = .identifier)
      (hname' : name'.kind = .identifier) (hmark : mark.kind = .equals) (h : Respelt ls ls') :
      Respelt (opener :: name :: mark :: ls) (opener :: name' :: mark :: ls')

namespace Respelt

variable {ls ls' ms ms' : List Lexeme}

theorem refl (ls : List Lexeme) : Respelt ls ls := by
  induction ls with
  | nil => exact .nil
  | cons l ls ih => exact .same l ih

theorem append (h : Respelt ls ls') (h' : Respelt ms ms') : Respelt (ls ++ ms) (ls' ++ ms') := by
  induction h with
  | nil => exact h'
  | same l _ ih => exact .same l ih
  | name hopener hname hname' hmark _ ih => exact .name hopener hname hname' hmark ih

theorem length_eq (h : Respelt ls ls') : ls'.length = ls.length := by
  induction h with
  | nil => rfl
  | same l _ ih => rw [List.length_cons, List.length_cons, ih]
  | name _ _ _ _ _ ih => simp [ih]

end Respelt

/-! ## Rows that differ in what some nodes hold -/

inductive Altered (S : Shape → Row → Row → Prop) : Row → Row → Prop
  | nil : Altered S .nil .nil
  | leaf (t : Lexeme) {next next' : Row} (h : Altered S next next') :
      Altered S (.leaf t next) (.leaf t next')
  | node (shape : Shape) {inside inside' next next' : Row} (hinside : Altered S inside inside')
      (hnext : Altered S next next') :
      Altered S (.node shape inside next) (.node shape inside' next')
  | changed {shape : Shape} {inside inside' next next' : Row} (hinside : S shape inside inside')
      (hnext : Altered S next next') :
      Altered S (.node shape inside next) (.node shape inside' next')

namespace Altered

variable {S : Shape → Row → Row → Prop} {f g row : Row}

theorem of_append (h : Altered S (f ++ g) row) :
    ∃ f' g', row = f' ++ g' ∧ Altered S f f' ∧ Altered S g g' := by
  induction f generalizing row with
  | nil => exact ⟨.nil, row, rfl, .nil, h⟩
  | leaf t next ih =>
    cases h with
    | leaf _ h =>
      obtain ⟨f', g', rfl, hf, hg⟩ := ih h
      exact ⟨.leaf t f', g', rfl, .leaf t hf, hg⟩
  | node shape inside next _ ih =>
    cases h with
    | node _ hinside h =>
      obtain ⟨f', g', rfl, hf, hg⟩ := ih h
      exact ⟨.node shape _ f', g', rfl, .node shape hinside hf, hg⟩
    | changed hinside h =>
      obtain ⟨f', g', rfl, hf, hg⟩ := ih h
      exact ⟨.node shape _ f', g', rfl, .changed hinside hf, hg⟩

theorem eq_of_labels (h : Altered S f row)
    (hlabels : ∀ shape ∈ f.labels, ∀ inside inside', ¬ S shape inside inside') : row = f := by
  induction h with
  | nil => rfl
  | leaf t _ ih => rw [ih hlabels]
  | node shape _ _ ihi ihn =>
    rw [labels, List.forall_mem_cons, List.forall_mem_append] at hlabels
    rw [ihi hlabels.2.1, ihn hlabels.2.2]
  | changed hinside _ _ =>
    rw [labels, List.forall_mem_cons] at hlabels
    exact absurd hinside (hlabels.1 _ _)

end Altered

def NameFor (shape : Shape) (inside inside' : Row) : Prop :=
  shape = .construct .fieldRef true ∧ ∃ t t' : Lexeme, inside = .leaf t .nil ∧
    inside' = .leaf t' .nil ∧ t.kind = .identifier ∧ t'.kind = .identifier

abbrev Renamed : Row → Row → Prop := Altered NameFor

theorem Renamed.eq_of_nameless {f row : Row} (h : Renamed f row)
    (hlabels : ∀ shape ∈ f.labels, shape.kind ≠ .fieldRef) : row = f := by
  refine h.eq_of_labels fun shape hshape inside inside' hname => hlabels shape hshape ?_
  rw [hname.1]
  rfl

theorem faultless_of_not_faulty {row : Row} (h : Faulty row = false) : Faultless row := by
  rw [Faulty, List.any_eq_false] at h
  refine each_iff_labels.mpr fun shape hshape => ?_
  cases shape with
  | construct kind complete => rfl
  | skipped fault => exact absurd rfl (h _ hshape)

namespace Step

open SchemaLang.Parser

variable {α β : Type} {p : Step α} {f : α → Step β} {s rest : List Lexeme}

theorem exists_of_run_bind {b : β} {row : Row}
    (h : Parser.run (p >>= f : Step β) s = ⟨.ok b, row, rest⟩) :
    ∃ a front r behind, Parser.run p s = ⟨.ok a, front, r⟩ ∧
      Parser.run (f a) r = ⟨.ok b, behind, rest⟩ ∧ row = front ++ behind := by
  cases hvalue : (Parser.run p s).value with
  | error e =>
    rw [run_bind_of_error f hvalue] at h
    cases h
  | ok a =>
    rw [run_bind_of_ok f hvalue, Parsed.mk.injEq] at h
    obtain ⟨hok, rfl, rfl⟩ := h
    exact ⟨a, _, _, _, by rw [← hvalue], by rw [← hok], rfl⟩

theorem exists_of_run_closing {closer : TokenKind} {recovery : Recovery} {fault : String → Fault}
    {row : Row} (h : Parser.run (closing closer recovery fault) s = ⟨.ok (), row, rest⟩) :
    ∃ t, t.kind = closer ∧ s = t :: rest ∧ row = .leaf t .nil := by
  cases hs : starts closer s with
  | false =>
    rw [closing, Step.run_choose, if_neg (by simp [hs])] at h
    split at h <;> cases h
  | true =>
    obtain ⟨t, s, rfl⟩ := List.exists_cons_of_ne_nil (ahead_of_starts hs)
    have ht : t.kind = closer := by simpa [starts] using hs
    rw [run_closing ht, Parsed.mk.injEq] at h
    obtain ⟨-, rfl, rfl⟩ := h
    exact ⟨t, ht, rfl, rfl⟩

theorem exists_of_run_expect {kind : TokenKind} {node : NodeKind} {recovery : Recovery}
    {fault : String → Fault} {text : String} {row : Row}
    (h : Parser.run (expect kind node recovery fault) s = ⟨.ok text, row, rest⟩) :
    ∃ t, t.kind = kind ∧ s = t :: rest ∧ text = t.text ∧
      row = .node (.construct node true) (.leaf t .nil) .nil := by
  cases hs : starts kind s with
  | false =>
    rw [run_expect_of_not_starts _ _ _ hs] at h
    cases h
  | true =>
    obtain ⟨t, s, rfl⟩ := List.exists_cons_of_ne_nil (ahead_of_starts hs)
    have ht : t.kind = kind := by simpa [starts] using hs
    rw [run_expect ht, Parsed.mk.injEq, Except.ok.injEq] at h
    obtain ⟨rfl, rfl, rfl⟩ := h
    exact ⟨t, ht, rfl, rfl, rfl⟩

theorem exists_of_run_punct {kind : TokenKind} {recovery : Recovery} {fault : String → Fault}
    {row : Row} (h : Parser.run (punct kind recovery fault) s = ⟨.ok (), row, rest⟩) :
    ∃ t, t.kind = kind ∧ s = t :: rest ∧ row = .leaf t .nil := by
  cases hs : starts kind s with
  | false =>
    rw [punct, run_bind_of_error _ (by rw [run_require_of_not_starts _ _ hs])] at h
    cases h
  | true =>
    obtain ⟨t, s, rfl⟩ := List.exists_cons_of_ne_nil (ahead_of_starts hs)
    have ht : t.kind = kind := by simpa [starts] using hs
    rw [run_punct ht, Parsed.mk.injEq] at h
    obtain ⟨-, rfl, rfl⟩ := h
    exact ⟨t, ht, rfl, rfl⟩

end Step

namespace Parse

open SchemaLang.Parser Step

def belowValues : List NodeKind := .arguments :: .mapEntry :: .constructorName :: NodeKind.values

theorem nameless_value (room : Nat) (s : List Lexeme) :
    ∀ shape ∈ ((value room).run s).built.labels, shape.kind ≠ .fieldRef := by
  intro shape hshape hkind
  have hbelow := (seated_value room s).1.labels (by decide : _ ⊆ belowValues) (by decide)
    shape hshape
  rw [hkind] at hbelow
  exact absurd hbelow (by decide)

variable {room : Nat} {s rest : List Lexeme} {row row' : Row}

/-- A sound value is read again the same, whatever follows that does not carry it on. -/
theorem value_again (h : (value room).run s = ⟨true, row, rest⟩) (hends : EndsValue rest)
    {rest' : List Lexeme} (hends' : EndsValue rest') :
    (value room).run (row.leaves ++ rest') = ⟨true, row, rest'⟩ := by
  have hfaulty : Faulty ((value room).run s).built = false := by
    have hvalue := (reports_value room s).2
    rw [h] at hvalue ⊢
    simpa using hvalue.symm
  obtain ⟨-, hword⟩ := (accepts_value room).sound s trivial (faultless_of_not_faulty hfaulty)
  obtain ⟨found, hleaves, -, hrun⟩ := (accepts_value room).complete _ hword
  have hsame := hrun rest hends
  have hlossless := (value room).lossless s
  rw [h] at hlossless hleaves hrun hsame
  rw [hlossless, h] at hsame
  obtain rfl : row = found := congrArg Parsed.built hsame
  exact hrun rest' hends'

theorem run_namedArgument (value : Parser Bool) {name mark : Lexeme}
    (hname : name.kind = .identifier) (hmark : mark.kind = .equals) (s : List Lexeme) :
    Parser.run (namedArgument value) (name :: mark :: s) =
      ⟨.ok (value.run s).value, .node (.construct .namedArgument (value.run s).value)
        (.node (.construct .fieldRef true) (.leaf name .nil) (.leaf mark (value.run s).built)) .nil,
        (value.run s).rest⟩ := by
  rw [namedArgument, run_group, run_bind_of_ok _ (by rw [run_expect hname]), run_expect hname]
  dsimp only
  rw [run_bind_of_ok _ (by rw [run_punct hmark]), run_punct hmark, run_liftM]
  rfl

theorem exists_of_run_namedArgument {value : Parser Bool} {a : Bool}
    (h : Parser.run (namedArgument value) s = ⟨.ok a, row, rest⟩) :
    ∃ name mark s', s = name :: mark :: s' ∧ name.kind = .identifier ∧ mark.kind = .equals := by
  rw [namedArgument, run_group] at h
  split at h
  case h_2 hvalue =>
    rw [h] at hvalue
    cases hvalue
  case h_1 b hvalue =>
    obtain ⟨field, _, r, _, hname, hbehind, -⟩ := exists_of_run_bind (b := b) (by rw [← hvalue])
    obtain ⟨name, hnameKind, rfl, -, -⟩ := exists_of_run_expect hname
    obtain ⟨_, _, s', _, hmark, -, -⟩ := exists_of_run_bind hbehind
    obtain ⟨mark, hmarkKind, rfl, -⟩ := exists_of_run_punct hmark
    exact ⟨name, mark, s', rfl, hnameKind, hmarkKind⟩

theorem namedArgument_again {a : Bool}
    (h : Parser.run (namedArgument (value room)) s = ⟨.ok a, row, rest⟩) (hends : EndsValue rest)
    (hwhole : ∀ shape ∈ row.tops, shape.complete = true) (hrow : Renamed row row') :
    ∃ name name' mark ls, row.leaves = name :: mark :: ls ∧ row'.leaves = name' :: mark :: ls ∧
      name.kind = .identifier ∧ name'.kind = .identifier ∧ mark.kind = .equals ∧
      ∀ rest', EndsValue rest' →
        Parser.run (namedArgument (value room)) (row'.leaves ++ rest') = ⟨.ok a, row', rest'⟩ := by
  obtain ⟨name, mark, s, rfl, hname, hmark⟩ := exists_of_run_namedArgument h
  rw [run_namedArgument _ hname hmark, Parsed.mk.injEq, Except.ok.injEq] at h
  obtain ⟨rfl, rfl, rfl⟩ := h
  have hsound : ((value room).run s).value = true := hwhole _ List.mem_cons_self
  -- the name may be another one, and the value is the same
  obtain ⟨name', hname', rfl⟩ : ∃ name' : Lexeme, name'.kind = .identifier ∧
      row' = .node (.construct .namedArgument ((value room).run s).value)
        (.node (.construct .fieldRef true) (.leaf name' .nil)
          (.leaf mark ((value room).run s).built)) .nil := by
    have hvalue {next : Row} (hnext : Renamed (.leaf mark ((value room).run s).built) next) :
        next = .leaf mark ((value room).run s).built :=
      hnext.eq_of_nameless (nameless_value room s)
    cases hrow with
    | changed hinside _ => cases hinside.1
    | node _ hinside hnil =>
      cases hnil
      cases hinside with
      | changed hnames hnext =>
        obtain ⟨-, t, t', ht, rfl, -, ht'⟩ := hnames
        exact ⟨t', ht', by rw [hvalue hnext]⟩
      | node _ hsame hnext =>
        cases hsame with
        | leaf _ hnil =>
          cases hnil
          exact ⟨name, hname, by rw [hvalue hnext]⟩
  refine ⟨name, name', mark, ((value room).run s).built.leaves, by simp [leaves],
    by simp [leaves], hname, hname', hmark, fun rest' hends' => ?_⟩
  have hagain := value_again (by rw [← hsound]) hends hends'
  have hleaves : (Forest.node (.construct .namedArgument ((value room).run s).value)
      (.node (.construct .fieldRef true) (.leaf name' .nil)
        (.leaf mark ((value room).run s).built)) .nil : Row).leaves ++ rest' =
      name' :: mark :: (((value room).run s).built.leaves ++ rest') := by
    simp [leaves]
  rw [hleaves, run_namedArgument _ hname' hmark, hagain, hsound]

/-- Whole arguments behind commas, up to the parenthesis, are read again with other names. -/
theorem sepTail_again {otherwise : String → Stop} {as : List Bool}
    (h : sepTail.loop (namedArgument (value room)) .rparen otherwise s = ⟨.ok as, row, rest⟩)
    (hwhole : ∀ shape ∈ row.tops, shape.complete = true) (hrow : Renamed row row') :
    (∃ t ls ls', s = t :: ls ∧ row'.leaves = t :: ls' ∧ (t.kind = .comma ∨ t.kind = .rparen)) ∧
      Respelt row.leaves row'.leaves ∧ ∀ rest',
        sepTail.loop (namedArgument (value room)) .rparen otherwise (row'.leaves ++ rest') =
          ⟨.ok as, row', rest'⟩ := by
  induction hn : s.length using Nat.strongRecOn generalizing s as row row' with
  | ind n ih =>
    subst hn
    cases s with
    | nil =>
      rw [sepTail.loop] at h
      cases h
    | cons t s =>
      by_cases hcloser : t.kind = .rparen
      · rw [sepTail.loop, if_pos hcloser, Parsed.mk.injEq] at h
        obtain ⟨hvalue, rfl, rfl⟩ := h
        cases hrow with
        | leaf _ hnil =>
          cases hnil
          refine ⟨⟨t, s, [], rfl, rfl, .inr hcloser⟩, .refl _, fun rest' => ?_⟩
          rw [leaves, leaves, List.cons_append, List.nil_append, sepTail.loop, if_pos hcloser,
            hvalue]
      by_cases hcomma : t.kind = .comma
      case neg =>
        rw [sepTail.loop, if_neg hcloser, if_neg hcomma] at h
        cases h
      rw [sepTail.loop_comma _ otherwise s hcloser hcomma] at h
      cases hitem : (Parser.run (namedArgument (value room)) s).value with
      | error e =>
        rw [hitem] at h
        cases h
      | ok a =>
        rw [hitem, Parsed.mk.injEq] at h
        obtain ⟨hvalue, rfl, rfl⟩ := h
        cases hothers : (sepTail.loop (namedArgument (value room)) .rparen otherwise
            (Parser.run (namedArgument (value room)) s).rest).value with
        | error e =>
          rw [hothers] at hvalue
          cases hvalue
        | ok others =>
          rw [hothers] at hvalue
          obtain ⟨next, rfl, hnext⟩ : ∃ next, row' = .leaf t next ∧ Renamed _ next := by
            cases hrow with
            | leaf _ h => exact ⟨_, rfl, h⟩
          obtain ⟨item', others', rfl, hitemRow, hothersRow⟩ := hnext.of_append
          rw [tops, tops_append, List.forall_mem_append] at hwhole
          have hlt : (Parser.run (namedArgument (value room)) s).rest.length < (t :: s).length :=
            Nat.lt_succ_of_le (Parser.rest_length_le _ s)
          obtain ⟨⟨u, ms, ms', hrest, hmore, hdelimiter⟩, hspelling, hagain⟩ :=
            ih _ hlt (by rw [← hothers]) hwhole.2 hothersRow rfl
          have hdelimits :=
            endsValue_delimiter (by decide : .rparen ≠ TokenKind.identifier) (by decide) u
          obtain ⟨name, name', mark, ls, hleaves, hleaves', hname, hname', hmark, hitemAgain⟩ :=
            namedArgument_again (by rw [← hitem]) (by rw [hrest]; exact hdelimits ms hdelimiter)
              hwhole.1 hitemRow
          refine ⟨⟨t, s, _, rfl, rfl, .inl hcomma⟩, ?_, fun rest' => ?_⟩
          · rw [leaves, leaves, leaves_append, leaves_append, hleaves, hleaves']
            exact .name (.inr hcomma) hname hname' hmark ((Respelt.refl ls).append hspelling)
          · have hends : EndsValue (others'.leaves ++ rest') := by
              rw [hmore]
              exact hdelimits _ hdelimiter
            rw [leaves, List.cons_append, leaves_append, List.append_assoc,
              sepTail.loop_comma _ otherwise _ hcloser hcomma, hitemAgain _ hends]
            dsimp only
            rw [hagain, ← hvalue]

/-- The whole arguments of a tag, up to the parenthesis, are read again with other names. -/
theorem elements_again {otherwise : String → Stop} {a : Bool}
    (h : Parser.run (elements (namedArgument (value room)) .rparen otherwise) s =
      ⟨.ok a, row, rest⟩)
    (hwhole : ∀ shape ∈ row.tops, shape.complete = true) (hrow : Renamed row row') :
    ∃ name name' mark ls ls', row.leaves = name :: mark :: ls ∧
      row'.leaves = name' :: mark :: ls' ∧ name.kind = .identifier ∧ name'.kind = .identifier ∧
      mark.kind = .equals ∧ Respelt ls ls' ∧ ∀ rest',
        Parser.run (elements (namedArgument (value room)) .rparen otherwise)
          (row'.leaves ++ rest') = ⟨.ok a, row', rest'⟩ := by
  obtain ⟨first, item, r, row, hfirst, hbehind, rfl⟩ := exists_of_run_bind h
  obtain ⟨others, tail, r', row, hothers, hdone, rfl⟩ := exists_of_run_bind hbehind
  rw [Step.run_pure, Parsed.mk.injEq, Except.ok.injEq] at hdone
  obtain ⟨rfl, rfl, rfl⟩ := hdone
  rw [append_nil] at hrow hwhole ⊢
  obtain ⟨item', tail', rfl, hitemRow, htailRow⟩ := hrow.of_append
  rw [tops_append, List.forall_mem_append] at hwhole
  obtain ⟨⟨u, ms, ms', rfl, hmore, hdelimiter⟩, hspelling, hagain⟩ :=
    sepTail_again hothers hwhole.2 htailRow
  have hdelimits (rest : List Lexeme) : EndsValue (u :: rest) :=
    endsValue_delimiter (by decide : .rparen ≠ TokenKind.identifier) (by decide) u rest hdelimiter
  obtain ⟨name, name', mark, ls, hleaves, hleaves', hname, hname', hmark, hitemAgain⟩ :=
    namedArgument_again hfirst (hdelimits ms) hwhole.1 hitemRow
  refine ⟨name, name', mark, _, _, by rw [leaves_append, hleaves]; rfl,
    by rw [leaves_append, hleaves']; rfl, hname, hname', hmark,
    (Respelt.refl ls).append hspelling, fun rest' => ?_⟩
  have hends : EndsValue (tail'.leaves ++ rest') := by
    rw [hmore]
    exact hdelimits _
  rw [leaves_append, List.append_assoc]
  have hothersAgain : Parser.run (do
      let others ← sepTail (namedArgument (value room)) .rparen otherwise
      pure (first && others.all id) : Step Bool) (tail'.leaves ++ rest') =
        ⟨.ok (first && others.all id), tail' ++ .nil, rest'⟩ :=
    run_bind_eq (hagain rest') (by exact Step.run_pure _ _)
  rw [elements, run_bind_eq (hitemAgain _ hends) hothersAgain, append_nil]

/-- The whole arguments of a tag in their parentheses are read again with other names. -/
theorem list_again {otherwise : String → Stop}
    (h : Parser.run (do
      bump
      let _ ← elements (namedArgument (value room)) .rparen otherwise : Step Unit) s =
        ⟨.ok (), row, rest⟩)
    (hparen : starts .lparen s = true)
    (hwhole : ∀ shape ∈ row.tops, shape.kind = .namedArgument → shape.complete = true)
    (hrow : Renamed row row') :
    (∃ opener name mark ls, row'.leaves = opener :: name :: mark :: ls ∧ opener.kind = .lparen ∧
      mark.kind = .equals) ∧ Respelt row.leaves row'.leaves ∧ ∀ rest',
        Parser.run (do
          bump
          let _ ← elements (namedArgument (value room)) .rparen otherwise : Step Unit)
            (row'.leaves ++ rest') = ⟨.ok (), row', rest'⟩ := by
  obtain ⟨opener, s, rfl⟩ := List.exists_cons_of_ne_nil (ahead_of_starts hparen)
  have hopener : opener.kind = .lparen := by simpa [starts] using hparen
  obtain ⟨_, front, r, behind, hbump, hlist, rfl⟩ := exists_of_run_bind h
  obtain ⟨rfl, rfl⟩ : front = .leaf opener .nil ∧ r = s := by
    rw [run_liftM, run_bump_cons, Parsed.mk.injEq] at hbump
    exact ⟨hbump.2.1.symm, hbump.2.2.symm⟩
  obtain ⟨a, items, r', nothing, helements, hdone, rfl⟩ := exists_of_run_bind hlist
  rw [Step.run_pure, Parsed.mk.injEq] at hdone
  obtain ⟨-, rfl, rfl⟩ := hdone
  rw [append_nil, leaf_append, nil_append] at hrow hwhole ⊢
  obtain ⟨items', rfl, hitems⟩ : ∃ items', row' = .leaf opener items' ∧ Renamed items items' := by
    cases hrow with
    | leaf _ hitems => exact ⟨_, rfl, hitems⟩
  have hcomplete : ∀ shape ∈ items.tops, shape.complete = true := by
    have hkinds := (makes_namedArguments (value room) otherwise r a (by rw [helements])).2
    rw [helements] at hkinds
    exact fun shape hshape => hwhole shape hshape (hkinds shape hshape)
  obtain ⟨name, name', mark, ls, ls', hleaves, hleaves', hname, hname', hmark, hspelling, hagain⟩ :=
    elements_again helements hcomplete hitems
  rw [leaves, leaves, hleaves, hleaves']
  refine ⟨⟨opener, name', mark, ls', rfl, hopener, hmark⟩,
    .name (.inl hopener) hname hname' hmark hspelling, fun rest' => ?_⟩
  have hbehind := hagain rest'
  rw [hleaves'] at hbehind
  rw [List.cons_append, run_bump_then, run_bind_eq hbehind (by exact Step.run_pure _ _), append_nil]

theorem run_behindTagName (value : Parser Bool) (s : List Lexeme) :
    Parser.run (behindTagName value) s =
      Parser.run ((if starts .lparen s then
          if isNamed s then do
            bump
            let _ ← elements (namedArgument value) .rparen fun found =>
              ⟨.tag, .misplaced "',' or ')'" .tag found⟩
          else do
            let _ ← arguments value
        else pure () : Step Unit) >>= fun _ => closing .rbracket .tag .unclosedTag : Step Unit) s :=
  rfl

/-- Unless a tag has named arguments, no name of an argument stands in it. -/
theorem nameless_behindTagName (hs : ¬ (starts .lparen s = true ∧ isNamed s = true)) :
    ∀ shape ∈ (Parser.run (behindTagName (value room)) s).built.labels, shape.kind ≠ .fieldRef := by
  have harranged : Arranged [.arguments, .error]
      (Parser.run (behindTagName (value room)) s).built := by
    rw [run_behindTagName]
    refine yields_then joins_arranged ?_ (fun _ => yields_closing joins_arranged _ _ _) s
    split
    · rename_i hparen
      rw [if_neg fun hnamed => hs ⟨hparen, hnamed⟩]
      exact yields_then joins_arranged (yields_liftM (arranged_arguments (seated_value room)
        (by decide) (by decide))) fun _ => yields_done joins_arranged ()
    · exact yields_done joins_arranged ()
  intro shape hshape hkind
  have hbelow := harranged.labels (by decide : _ ⊆ belowValues) (by decide) shape hshape
  rw [hkind] at hbelow
  exact absurd hbelow (by decide)

/-- The steps of a whole tag take its bracket and its name, and go on behind them. -/
theorem exists_of_run_tagSteps
    (h : Parser.run (tagSteps (value room)) s = ⟨.ok (), row, rest⟩) :
    ∃ mark t r behind, s = mark :: t :: r ∧ t.kind = .identifier ∧
      row = .leaf mark (.node (.construct .typeRef true) (.leaf t .nil) behind) ∧
      Parser.run (behindTagName (value room)) r = ⟨.ok (), behind, rest⟩ := by
  obtain ⟨_, front, r, row, hbump, hname, rfl⟩ := exists_of_run_bind h
  obtain ⟨_, name, r', row, hexpect, hbehind, rfl⟩ := exists_of_run_bind hname
  obtain ⟨t, ht, rfl, -, rfl⟩ := exists_of_run_expect hexpect
  rw [run_liftM, Parsed.mk.injEq] at hbump
  obtain ⟨-, rfl, hrest⟩ := hbump
  cases s with
  | nil => cases hrest
  | cons mark s =>
    obtain rfl : s = t :: r' := hrest
    exact ⟨mark, t, r', row, rfl, ht, rfl, hbehind⟩

/-- The steps of a whole tag go through again with other names for its arguments. -/
theorem tagSteps_again (h : Parser.run (tagSteps (value room)) s = ⟨.ok (), row, rest⟩)
    (hwhole : ∀ shape ∈ row.tops, shape.kind = .namedArgument → shape.complete = true)
    (hrow : Renamed row row') : row' = row ∨ row'.leaves.take 2 = row.leaves.take 2 ∧
      Respelt row.leaves row'.leaves ∧ ∀ rest',
        Parser.run (tagSteps (value room)) (row'.leaves ++ rest') = ⟨.ok (), row', rest'⟩ := by
  obtain ⟨mark, t, r', row, rfl, ht, rfl, hbehind⟩ := exists_of_run_tagSteps h
  obtain ⟨row', rfl, hbehindRow⟩ : ∃ behind, row' = .leaf mark (.node (.construct .typeRef true)
      (.leaf t .nil) behind) ∧ Renamed row behind := by
    cases hrow with
    | leaf _ hrow =>
      cases hrow with
      | changed hinside _ => cases hinside.1
      | node _ hinside hnext =>
        cases hinside with
        | leaf _ hnil =>
          cases hnil
          exact ⟨_, rfl, hnext⟩
  by_cases hnamed : starts .lparen r' = true ∧ isNamed r' = true
  case neg =>
    left
    have hnameless : ∀ shape ∈ (Parser.run (behindTagName (value room)) r').built.labels,
        shape.kind ≠ .fieldRef := nameless_behindTagName hnamed
    rw [hbehind] at hnameless
    rw [hbehindRow.eq_of_nameless hnameless]
  right
  rw [run_behindTagName, if_pos hnamed.1, if_pos hnamed.2] at hbehind
  obtain ⟨_, list, r, last, hlist, hclosing, rfl⟩ := exists_of_run_bind hbehind
  obtain ⟨closer, hcloser, rfl, rfl⟩ := exists_of_run_closing hclosing
  obtain ⟨list', last', rfl, hlistRow, hlast⟩ := hbehindRow.of_append
  obtain rfl : last' = .leaf closer .nil := by
    cases hlast with
    | leaf _ hnil =>
      cases hnil
      rfl
  obtain ⟨⟨opener, name, sign, ls, hleaves, hopener, hsign⟩, hspelling, hagain⟩ :=
    list_again hlist hnamed.1 (fun shape hshape => hwhole shape (by simp [tops, hshape])) hlistRow
  refine ⟨by simp [leaves], ?_, fun rest' => ?_⟩
  · simp only [leaves, leaves_append, List.cons_append, List.nil_append]
    exact .same _ (.same _ (hspelling.append (.refl _)))
  · have hbehindAgain : Parser.run (behindTagName (value room))
        ((list' ++ .leaf closer .nil).leaves ++ rest') =
          ⟨.ok (), list' ++ .leaf closer .nil, rest'⟩ := by
      have hlistAgain := hagain ([closer] ++ rest')
      rw [run_behindTagName, leaves_append, List.append_assoc, if_pos, if_pos]
      · exact run_bind_eq hlistAgain (run_closing hcloser _ _ _)
      · rw [hleaves]
        simpa [isNamed, starts] using hsign
      · rw [hleaves]
        simpa [starts] using hopener
    show Parser.run (tagSteps (value room))
      (mark :: t :: ((list' ++ .leaf closer .nil).leaves ++ rest')) = _
    rw [tagSteps, run_bump_then, run_bind_eq (run_expect ht _ _ _ _) hbehindAgain]
    rfl

end Parse

end SchemaLang
