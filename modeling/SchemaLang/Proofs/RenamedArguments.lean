import SchemaLang.Proofs.NamedTags

/-!
# Files with other names for arguments

Where whole tags get other names for their arguments, the lexemes of the new row
are read as the new row. Outside of tags nothing has changed, and a parser looks
at no more than two lexemes ahead, where no name of an argument ever stands. One
law says so for each way of putting parsers together.
-/

set_option autoImplicit false

namespace SchemaLang

open Forest

def TagFor (shape : Shape) (inside inside' : Row) : Prop :=
  shape = .construct .tag true ∧
    (∀ a ∈ inside.tops, a.kind = .namedArgument → a.complete = true) ∧ Renamed inside inside'

abbrev Retold : Row → Row → Prop := Altered TagFor

theorem Retold.eq_of_tagless {f row : Row} (h : Retold f row)
    (hlabels : ∀ shape ∈ f.labels, shape.kind ≠ .tag) : row = f := by
  refine h.eq_of_labels fun shape hshape inside inside' htag => hlabels shape hshape ?_
  rw [htag.1]
  rfl

theorem take_append_congr {α : Type} {n : Nat} {xs xs' ys ys' : List α}
    (hxs : xs'.take n = xs.take n) (hys : ys'.take n = ys.take n) :
    (xs' ++ ys').take n = (xs ++ ys).take n := by
  have hlength := congrArg List.length hxs
  rw [List.length_take, List.length_take] at hlength
  have hleft : n - xs'.length = n - xs.length := by omega
  have hcut (zs : List α) : zs.take (n - xs.length) = (zs.take n).take (n - xs.length) := by
    rw [List.take_take, Nat.min_eq_left (Nat.sub_le _ _)]
  rw [List.take_append, List.take_append, hxs, hleft, hcut ys', hys, ← hcut]

/-- Lists that agree so far are the same, or longer than that. -/
theorem eq_or_le_length_of_take_eq {α : Type} {n : Nat} {xs xs' : List α}
    (h : xs'.take n = xs.take n) : xs' = xs ∨ n ≤ xs.length := by
  by_cases hle : n ≤ xs.length
  · exact .inr hle
  · have hlength := congrArg List.length h
    rw [List.length_take, List.length_take] at hlength
    left
    rwa [List.take_of_length_le (by omega), List.take_of_length_le (by omega)] at h

/-- The outcome `o` of a run, with `row` in place of what was built: the new row
begins alike, and reading its lexemes gives it. -/
structure Reread {α : Type} (p : Parser α) (o : Parsed α) (row : Row) : Prop where
  front : row.leaves.take 2 = o.built.leaves.take 2
  spelling : Respelt o.built.leaves row.leaves
  again : ∀ rest, rest.take 2 = o.rest.take 2 → p.run (row.leaves ++ rest) = ⟨o.value, row, rest⟩

def Retells {α : Type} (p : Parser α) : Prop :=
  ∀ s row, Retold (p.run s).built row → Reread p (p.run s) row

namespace Parser

variable {α β : Type}

/-- A steady parser builds the same row again, if two lexemes behind it are the same. -/
theorem reread_of_steady {p : Parser α} (h : Steady p) (s : List Lexeme) :
    Reread p (p.run s) (p.run s).built where
  front := rfl
  spelling := .refl _
  again rest hrest := by
    have hlossless := p.lossless s
    rcases eq_or_le_length_of_take_eq hrest with rfl | hlong
    · rw [hlossless]
    · have hagree := h.agree ((p.run s).built.leaves ++ (p.run s).rest.take 2)
        ((p.run s).rest.drop 2) (rest.drop 2)
      rw [List.append_assoc, List.append_assoc, List.take_append_drop, ← hrest,
        List.take_append_drop, hlossless] at hagree
      cases hagree with
      | late hlate =>
        have hleft := hlate.left
        rw [hrest, List.length_append, List.length_take] at hleft
        omega
      | @same value row r hw ho ho' =>
        have hbuilt : (p.run s).built = row := congrArg Parsed.built ho
        have hvalue : (p.run s).value = value := congrArg Parsed.value ho
        rw [hbuilt] at hw
        obtain rfl : r = rest.take 2 := List.append_cancel_left hw
        rw [ho', List.take_append_drop, hbuilt, hvalue]

theorem retells_of_tagless {p : Parser α} (h : Steady p)
    (hlabels : ∀ s, ∀ shape ∈ (p.run s).built.labels, shape.kind ≠ .tag) : Retells p := by
  intro s row hrow
  rw [hrow.eq_of_tagless (hlabels s)]
  exact reread_of_steady h s

theorem retells_pure (a : α) : Retells (pure a : Parser α) :=
  retells_of_tagless (steady_pure a) fun _ _ h => by cases h

theorem retells_bind {p : Parser α} {f : α → Parser β} (hp : Retells p)
    (hf : ∀ a, Retells (f a)) : Retells (p >>= f) := by
  intro s row hrow
  rw [run_bind] at hrow ⊢
  obtain ⟨front, behind, rfl, hfront, hbehind⟩ := hrow.of_append
  have hfirst := hp s front hfront
  have hthen := hf (p.run s).value (p.run s).rest behind hbehind
  refine ⟨?_, ?_, fun rest hrest => ?_⟩
  · rw [leaves_append, leaves_append]
    exact take_append_congr hfirst.front hthen.front
  · rw [leaves_append, leaves_append]
    exact hfirst.spelling.append hthen.spelling
  · have hnext : (behind.leaves ++ rest).take 2 = (p.run s).rest.take 2 := by
      rw [← (f (p.run s).value).lossless (p.run s).rest]
      exact take_append_congr hthen.front hrest
    rw [leaves_append, List.append_assoc, run_bind, hfirst.again _ hnext]
    dsimp only
    rw [hthen.again rest hrest]

theorem retells_choose {f : List Lexeme → Parser α} (h : ∀ s, Retells (f s))
    (hf : ∀ t u s s', f (t :: u :: s) = f (t :: u :: s')) : Retells (choose f) := by
  intro s row hrow
  have hsame := h s s row hrow
  refine ⟨hsame.front, hsame.spelling, fun rest hrest => ?_⟩
  have hahead : (row.leaves ++ rest).take 2 = s.take 2 := by
    have hlossless := (f s).lossless s
    rw [← hlossless]
    exact take_append_congr hsame.front hrest
  have hpick : f (row.leaves ++ rest) = f s := by
    rcases eq_or_le_length_of_take_eq hahead with heq | hlong
    · rw [heq]
    · match s, hlong with
      | t :: u :: s, _ =>
        match hnew : row.leaves ++ rest with
        | [] => simp [hnew] at hahead
        | [_] => simp [hnew] at hahead
        | t' :: u' :: s' =>
          rw [hnew] at hahead
          obtain ⟨rfl, rfl⟩ : t' = t ∧ u' = u := by simpa using hahead
          exact hf t' u' s' s
  rw [run_choose, run_choose, hpick]
  exact hsame.again rest hrest

theorem retells_defer {p : Unit → Parser α} (h : Retells (p ())) : Retells (defer p) :=
  fun s row hrow => ⟨(h s row hrow).front, (h s row hrow).spelling, (h s row hrow).again⟩

theorem retells_within {label : α → Option Shape} {p : Parser α} (h : Retells p)
    (hlabel : ∀ a shape, label a = some shape → shape.kind ≠ .tag) :
    Retells (within label p) := by
  intro s row hrow
  cases hshape : label (p.run s).value with
  | none =>
    have hrun : (within label p).run s = p.run s := by simp only [within, hshape]
    rw [hrun] at hrow ⊢
    have hsame := h s row hrow
    refine ⟨hsame.front, hsame.spelling, fun rest hrest => ?_⟩
    simp only [within, hsame.again rest hrest, hshape]
  | some shape =>
    have hrun : (within label p).run s =
        ⟨(p.run s).value, .node shape (p.run s).built .nil, (p.run s).rest⟩ := by
      simp only [within, hshape]
    rw [hrun] at hrow ⊢
    cases hrow with
    | changed htag _ => exact absurd (by rw [htag.1]; rfl) (hlabel _ _ hshape)
    | node _ hinside hnil =>
      cases hnil
      have hsame := h s _ hinside
      refine ⟨by simpa [leaves] using hsame.front, by simpa [leaves] using hsame.spelling,
        fun rest hrest => ?_⟩
      have hagain := hsame.again rest hrest
      rw [leaves, leaves, List.append_nil]
      simp only [within, hagain, hshape]

section Members

variable {member : Parser Bool} {s : List Lexeme} {front behind : Row}
  (hfirst : Reread member (member.run s) front)

include hfirst

/-- As many lexemes are taken as before, so a loop goes the same way. -/
theorem reread_length_lt_iff (ls : List Lexeme) :
    ls.length < (front.leaves ++ ls).length ↔ (member.run s).rest.length < s.length := by
  have hlossless := congrArg List.length (member.lossless s)
  rw [List.length_append] at hlossless ⊢
  rw [hfirst.spelling.length_eq]
  omega

/-- A member is read again, and then the members behind it. -/
theorem reread_members (hv : (member.run s).value = true)
    (hlt : (member.run s).rest.length < s.length)
    (hthen : Reread (members member) (members.loop member (member.run s).rest) behind) :
    Reread (members member)
      ⟨(), (member.run s).built ++ (members.loop member (member.run s).rest).built,
        (members.loop member (member.run s).rest).rest⟩ (front ++ behind) := by
  refine ⟨?_, ?_, fun rest hrest => ?_⟩
  · rw [leaves_append, leaves_append]
    exact take_append_congr hfirst.front hthen.front
  · rw [leaves_append, leaves_append]
    exact hfirst.spelling.append hthen.spelling
  · have hnext : (behind.leaves ++ rest).take 2 = (member.run s).rest.take 2 := by
      rw [← (members member).lossless (member.run s).rest]
      exact take_append_congr hthen.front hrest
    have hmember := hfirst.again _ hnext
    have hrest : members.loop member (behind.leaves ++ rest) = ⟨(), behind, rest⟩ :=
      hthen.again rest hrest
    show members.loop member _ = _
    rw [leaves_append, List.append_assoc, members.loop_eq, hmember]
    dsimp only
    rw [if_pos hv, if_pos ((reread_length_lt_iff hfirst _).mpr hlt), hrest]

/-- A lexeme that no member takes is skipped again. -/
theorem reread_stray (hv : (member.run s).value = true)
    (hlt : ¬(member.run s).rest.length < s.length) {t : Lexeme} {later : List Lexeme}
    (hr : (member.run s).rest = t :: later)
    (hthen : Reread (members member) (members.loop member later) behind) :
    Reread (members member)
      ⟨(), (member.run s).built ++
          .node (.skipped (.stray t.text)) (.leaf t .nil) (members.loop member later).built,
        (members.loop member later).rest⟩
      (front ++ .node (.skipped (.stray t.text)) (.leaf t .nil) behind) := by
  refine ⟨?_, ?_, fun rest hrest => ?_⟩
  · simp only [leaves_append, leaves]
    exact take_append_congr hfirst.front
      (take_append_congr (rfl : [t].take 2 = [t].take 2) hthen.front)
  · simp only [leaves_append, leaves]
    exact hfirst.spelling.append (.same t hthen.spelling)
  · have hnext : ([t] ++ (behind.leaves ++ rest)).take 2 = (member.run s).rest.take 2 := by
      rw [hr, ← List.singleton_append, ← (members member).lossless later]
      exact take_append_congr rfl (take_append_congr hthen.front hrest)
    have hmember := hfirst.again _ hnext
    have hrest : members.loop member (behind.leaves ++ rest) = ⟨(), behind, rest⟩ :=
      hthen.again rest hrest
    have hleaves : (front ++ .node (.skipped (.stray t.text)) (.leaf t .nil) behind).leaves ++
        rest = front.leaves ++ ([t] ++ (behind.leaves ++ rest)) := by
      simp [leaves]
    show members.loop member _ = _
    rw [hleaves, members.loop_eq, hmember]
    dsimp only
    rw [if_pos hv, if_neg fun hlt' => hlt ((reread_length_lt_iff hfirst _).mp hlt')]
    show (⟨(), front ++ .node _ _ (members.loop member (behind.leaves ++ rest)).built,
      (members.loop member (behind.leaves ++ rest)).rest⟩ : Parsed Unit) = _
    rw [hrest]

end Members

theorem retells_members {member : Parser Bool} (h : Retells member) : Retells (members member) := by
  intro s row hrow
  change Retold (members.loop member s).built row at hrow
  show Reread (members member) (members.loop member s) row
  fun_induction members.loop member s generalizing row with
  | case1 s o hv hlt r ih =>
    obtain ⟨front, behind, rfl, hfront, hbehind⟩ := hrow.of_append
    exact reread_members (h s front hfront) hv hlt (ih behind hbehind)
  | case2 s o hv hlt hr =>
    have hfirst : Reread member o row := h s row hrow
    refine ⟨hfirst.front, hfirst.spelling, fun rest hrest => ?_⟩
    obtain rfl : rest = [] := List.take_eq_nil_iff.mp hrest |>.resolve_left (by decide)
    have hmember := hfirst.again [] (by rw [hr])
    show members.loop member _ = _
    rw [members.loop_eq, hmember]
    dsimp only
    rw [if_pos hv, if_neg fun hlt' => hlt ((reread_length_lt_iff hfirst _).mp hlt')]
  | case3 s o hv hlt t rest hr r ih =>
    obtain ⟨front, behind, rfl, hfront, hstray⟩ := hrow.of_append
    obtain ⟨behind, rfl, hbehind⟩ : ∃ next, behind =
        .node (.skipped (.stray t.text)) (.leaf t .nil) next ∧ Retold r.built next := by
      cases hstray with
      | changed htag _ => cases htag.1
      | node _ hinside hnext =>
        cases hinside with
        | leaf _ hnil =>
          cases hnil
          exact ⟨_, rfl, hnext⟩
    exact reread_stray (h s front hfront) hv hlt hr (ih behind hbehind)
  | case4 s o hv =>
    have hfirst : Reread member o row := h s row hrow
    refine ⟨hfirst.front, hfirst.spelling, fun rest hrest => ?_⟩
    show members.loop member _ = _
    rw [members.loop_eq, hfirst.again rest hrest]
    dsimp only
    rw [if_neg hv]

theorem retells_construct {kind : NodeKind} (hkind : kind ≠ .tag) {body : Step Bool}
    (h : Retells body) : Retells (construct kind body) := by
  refine retells_bind (retells_within h ?_) ?_
  · rintro (e | sound) shape hshape <;> obtain rfl := Option.some.inj hshape <;> exact hkind
  · rintro (e | sound)
    · refine retells_of_tagless (steady_bind (steady_skip _ (scans_extent _)) fun _ =>
        steady_pure false) fun s shape hshape => ?_
      simp only [run_bind, run_skip, run_pure, append_nil, labels, labels_ofTokens,
        List.append_nil, List.mem_singleton] at hshape
      rw [hshape]
      simp [Shape.kind]
    · exact retells_pure sound

end Parser

namespace Step

open SchemaLang.Parser

variable {α β : Type}

theorem retells_done (a : α) : Retells (pure a : Step α) := retells_pure (Except.ok a)

theorem retells_liftM {p : Parser α} (h : Retells p) : Retells (liftM p : Step α) :=
  retells_bind h fun a => retells_pure (Except.ok a)

theorem retells_then {p : Step α} {f : α → Step β} (hp : Retells p) (hf : ∀ a, Retells (f a)) :
    Retells (p >>= f : Step β) := by
  apply retells_bind hp
  rintro (e | a)
  · exact retells_pure (Except.error e)
  · exact hf a

end Step

namespace Parser

theorem retells_statement {kind : NodeKind} (hkind : kind ≠ .tag) {body : Step Unit}
    (h : Retells body) : Retells (statement kind body) :=
  retells_bind (retells_construct hkind (Step.retells_then h fun _ => Step.retells_done true))
    fun _ => retells_pure ()

end Parser

namespace Parse

open SchemaLang.Parser Step

def plainKinds : List NodeKind :=
  [.package, .importing, .setting, .enumValue, .field, .componentId, .data, .event, .command,
    .keyword, .packageName, .importPath, .settingName, .settingValue, .definitionName, .fieldType,
    .typeName, .typeParameter, .typeRef, .fieldName, .fieldNumber, .error]

theorem retells_of_arranged {α : Type} {p : Parser α} (h : Steady p)
    (hplain : Yields (Arranged plainKinds) p) : Retells p := by
  refine retells_of_tagless h fun s shape hshape hkind => ?_
  have hbelow := (hplain s).labels (List.Subset.refl _) (by decide) shape hshape
  rw [hkind] at hbelow
  exact absurd hbelow (by decide)

def belowTags : List NodeKind := .namedArgument :: .fieldRef :: .typeRef :: belowValues

/-- A whole tag is read again with other names; one that was cut short stays as it is. -/
theorem retells_tag (room : Nat) : Retells (tag (value room)) := by
  intro s row hrow
  have hagain : Reread (tag (value room)) ((statement .tag (tagSteps (value room))).run s)
      ((statement .tag (tagSteps (value room))).run s).built :=
    reread_of_steady (steady_tag (steady_value room)) s
  have hinside : ∀ shape ∈ (Parser.run (tagSteps (value room)) s).built.labels,
      shape.kind ≠ .tag := by
    intro shape hshape hkind
    have hbelow := (arranged_tagSteps (seated_value room) s).labels
      (by decide : _ ⊆ belowTags) (by decide) shape hshape
    rw [hkind] at hbelow
    exact absurd hbelow (by decide)
  change Retold ((statement .tag (tagSteps (value room))).run s).built row at hrow
  show Reread (tag (value room)) ((statement .tag (tagSteps (value room))).run s) row
  cases hvalue : (Parser.run (tagSteps (value room)) s).value with
  | error e =>
    rw [run_statement_of_error hvalue] at hrow hagain ⊢
    rwa [hrow.eq_of_labels ?_]
    rintro shape hshape _ _ ⟨rfl, -⟩
    rcases List.mem_cons.mp hshape with hcut | hshape
    · cases hcut
    · rcases List.mem_append.mp hshape with hshape | hshape
      · exact hinside _ hshape rfl
      · simp [labels] at hshape
  | ok _ =>
    rw [run_statement_of_ok hvalue] at hrow hagain ⊢
    cases hrow with
    | node _ hsteps hnil =>
      cases hnil
      rwa [Retold.eq_of_tagless hsteps hinside]
    | changed htag hnil =>
      cases hnil
      obtain ⟨-, hwhole, hsteps⟩ := htag
      rcases tagSteps_again (by rw [← hvalue]) hwhole hsteps with rfl | ⟨hfront, hspelling, hrun⟩
      · exact hagain
      · refine ⟨by simpa [leaves] using hfront, by simpa [leaves] using hspelling,
          fun rest _ => ?_⟩
        have hrun' := hrun rest
        show (statement .tag (tagSteps (value room))).run _ = _
        rw [leaves, leaves, List.append_nil, run_statement_of_ok (by rw [hrun']), hrun']

theorem retells_present {p : Parser Unit} (h : Retells p) : Retells (present p) :=
  retells_bind h fun _ => retells_pure true

theorem retells_absent : Retells absent := retells_pure false

theorem retells_block {kind : NodeKind} (hkind : kind ≠ .tag) (word : String)
    {member : Parser Bool} (h : Retells member) : Retells (block kind word member) :=
  retells_statement hkind
    (retells_then (retells_of_arranged steady_keyword (arranged_keyword (by decide))) fun _ =>
      retells_then (retells_of_arranged (steady_expect _ _ _ _)
        (arranged_expect (by decide) rfl rfl _ _)) fun _ =>
      retells_then (retells_of_arranged (steady_punct _ _ _) (yields_punct joins_arranged _ _ _))
        fun _ => retells_then (retells_liftM (retells_members h)) fun _ =>
          retells_of_arranged (steady_punct _ _ _) (yields_punct joins_arranged _ _ _))

theorem retells_nested {p : Nat → Parser Unit} (h : ∀ room, Retells (p room)) (room : Nat) :
    Retells (nested p room) := by
  cases room with
  | zero => exact retells_of_arranged steady_discard_tooDeep (arranged_discard (by decide))
  | succ room => exact h room

theorem retells_setting : Retells (present settingStatement) :=
  retells_present (retells_of_arranged steady_settingStatement
    (arranged_settingStatement (by decide) (by decide)))

theorem retells_field : Retells (present field) :=
  retells_present (retells_of_arranged steady_field (arranged_field (by decide) (by decide)))

theorem retells_enumMember (room : Nat) : Retells (enumMember room) := by
  refine retells_choose (fun s => ?_) fun t u s s' => rfl
  split
  · exact retells_present (retells_tag room)
  split
  · exact retells_present (retells_of_arranged steady_enumValue
      (arranged_enumValue (by decide) (by decide)))
  · exact retells_absent

theorem retells_enumDefinition (room : Nat) : Retells (enumDefinition room) :=
  retells_nested (fun room => retells_block (by decide) _ (retells_enumMember room)) room

theorem retells_typeMember (room : Nat) {typeDefinition : Parser Unit}
    (h : Retells typeDefinition) : Retells (typeMember room typeDefinition) := by
  refine retells_choose (fun s => ?_) fun t u s s' => rfl
  split
  · exact retells_setting
  split
  · exact retells_present (retells_tag room)
  split
  · exact retells_present (retells_enumDefinition room)
  split
  · exact retells_present h
  split
  · exact retells_field
  · exact retells_absent

theorem retells_typeDefinition (room : Nat) : Retells (typeDefinition room) := by
  induction room with
  | zero => exact retells_of_arranged steady_discard_tooDeep (arranged_discard (by decide))
  | succ room ih =>
    exact retells_defer (retells_block (by decide) _ (retells_typeMember room ih))

theorem retells_componentMember (room : Nat) : Retells (componentMember room) := by
  refine retells_choose (fun s => ?_) fun t u s s' => rfl
  split
  · exact retells_setting
  split
  · exact retells_present (retells_tag room)
  split
  · exact retells_present (retells_of_arranged steady_componentId
      (arranged_componentId (by decide) (by decide)))
  split
  · exact retells_present (retells_of_arranged steady_dataMember
      (arranged_dataMember (by decide) (by decide)))
  split
  · exact retells_present (retells_of_arranged steady_eventMember
      (arranged_eventMember (by decide) (by decide)))
  split
  · exact retells_present (retells_of_arranged steady_commandMember
      (arranged_commandMember (by decide) (by decide)))
  split
  · exact retells_field
  · exact retells_absent

theorem retells_componentDefinition (room : Nat) : Retells (componentDefinition room) :=
  retells_nested (fun room => retells_block (by decide) _ (retells_componentMember room)) room

theorem retells_topLevel (room : Nat) : Retells (topLevel room) := by
  refine retells_choose (fun s => ?_) fun t u s s' => rfl
  split
  · exact retells_absent
  split
  · exact retells_present (retells_of_arranged steady_packageStatement
      (arranged_packageStatement (by decide) (by decide)))
  split
  · exact retells_present (retells_of_arranged steady_importStatement
      (arranged_importStatement (by decide) (by decide)))
  split
  · exact retells_setting
  split
  · exact retells_present (retells_enumDefinition room)
  split
  · exact retells_present (retells_typeDefinition room)
  split
  · exact retells_present (retells_componentDefinition room)
  split
  · exact retells_present (retells_tag room)
  · exact retells_present (retells_of_arranged (steady_skip _ (scans_extent _))
      fun _ => arranged_skipped (by decide) _ _)

end Parse

/-- With other names for the arguments of whole tags, the lexemes of a file are read as its
row with those names. -/
theorem parseWith_retold {room : Nat} {s : List Lexeme} {row : Row}
    (h : Retold (parseWith room s) row) :
    Respelt s row.leaves ∧ parseWith room row.leaves = row := by
  have hagain := Parser.retells_members (Parse.retells_topLevel room) s row h
  have hspelling := hagain.spelling
  rw [show ((Parser.members (Parse.topLevel room)).run s).built.leaves = s from
    leaves_parseWith room s] at hspelling
  have hrun := hagain.again [] (by rw [rest_members_topLevel])
  rw [List.append_nil] at hrun
  exact ⟨hspelling, by rw [parseWith, hrun]⟩

end SchemaLang
