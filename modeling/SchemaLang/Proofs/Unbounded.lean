import SchemaLang.Proofs.Lookahead

/-!
# Reading without a bound on nesting

A production that nests takes a lexeme before it reads what it nests, so a
short input never uses up the room that it is read with. Reading with as much
room as there are lexemes is therefore reading without a bound: the productions
for it refer to themselves, with no test of depth in between.
-/

set_option autoImplicit false

namespace SchemaLang

abbrev Below (n : Nat) : List Lexeme → Prop := fun s => s.length < n

abbrev AtMost (n : Nat) : List Lexeme → Prop := fun s => s ≠ [] ∧ s.length ≤ n

namespace Parser

variable {α β : Type} {P Q : List Lexeme → Prop} {n : Nat}

def Coincides (P : List Lexeme → Prop) (p q : Parser α) : Prop := ∀ s, P s → p.run s = q.run s

theorem Coincides.refl (p : Parser α) : Coincides P p p := fun _ _ => rfl

theorem Coincides.mono {p q : Parser α} (h : Coincides P p q) (hP : ∀ s, Q s → P s) :
    Coincides Q p q :=
  fun s hs => h s (hP s hs)

theorem below_rest (p : Parser α) (s : List Lexeme) (hs : Below n s) : Below n (p.run s).rest :=
  Nat.lt_of_le_of_lt (p.rest_length_le s) hs

theorem coincides_bind {p q : Parser α} {f g : α → Parser β} (hp : Coincides P p q)
    (hrest : ∀ s, P s → Q (p.run s).rest) (hf : ∀ a, Coincides Q (f a) (g a)) :
    Coincides P (p >>= f) (q >>= g) := by
  intro s hs
  rw [run_bind, run_bind, ← hp s hs, hf _ _ (hrest s hs)]

theorem coincides_choose {f g : List Lexeme → Parser α}
    (h : ∀ s, P s → Coincides (· = s) (f s) (g s)) :
    Coincides P (choose f) (choose g) := fun s hs => h s hs s rfl

theorem coincides_within (label : α → Option Shape) {p q : Parser α} (h : Coincides P p q) :
    Coincides P (within label p) (within label q) := by
  intro s hs
  simp only [within, h s hs]

theorem coincides_wrap (kind : NodeKind) {p q : Parser α} (h : Coincides P p q) :
    Coincides P (wrap kind p) (wrap kind q) := coincides_within _ h

theorem coincides_construct (kind : NodeKind) {p q : Step Bool} (h : Coincides P p q) :
    Coincides P (construct kind p) (construct kind q) :=
  coincides_bind (Q := Always) (coincides_within _ h) (fun _ _ => trivial) fun _ => .refl _

theorem below_of_atMost {s : List Lexeme} {r : List Lexeme} (hs : AtMost n s)
    (h : r.length < s.length) : Below n r := Nat.lt_of_lt_of_le h hs.2

theorem rest_bump_lt {s : List Lexeme} (hs : s ≠ []) : (bump.run s).rest.length < s.length := by
  cases s with
  | nil => exact absurd rfl hs
  | cons t s => exact Nat.lt_succ_self _

theorem rest_take_lt (kind : NodeKind) {s : List Lexeme} (hs : s ≠ []) :
    ((take kind).run s).rest.length < s.length := by
  cases s with
  | nil => exact absurd rfl hs
  | cons t s => exact Nat.lt_succ_self _

theorem coincides_members {p q : Parser Bool} (h : Coincides (Below n) p q) :
    Coincides (Below n) (members p) (members q) := by
  intro s hs
  show members.loop p s = members.loop q s
  fun_induction members.loop p s with
  | case1 s o hv hlt r ih =>
    rw [members.loop_eq, ← h s hs, if_pos hv, if_pos hlt, ← ih (below_rest p s hs)]
  | case2 s o hv hlt hr =>
    rw [members.loop_eq, ← h s hs, if_pos hv, if_neg hlt, show (p.run s).rest = [] from hr]
  | case3 s o hv hlt t rest hr r ih =>
    have hrest := below_rest p s hs
    rw [show (p.run s).rest = t :: rest from hr] at hrest
    rw [members.loop_eq, ← h s hs, if_pos hv, if_neg hlt,
      show (p.run s).rest = t :: rest from hr]
    dsimp only
    rw [← ih (Nat.lt_of_succ_lt hrest)]
  | case4 s o hv => rw [members.loop_eq, ← h s hs, if_neg hv]

end Parser

namespace Step

open SchemaLang.Parser

variable {α β : Type} {P Q : List Lexeme → Prop} {n : Nat}

theorem coincides_liftM {p q : Parser α} (h : Coincides P p q) :
    Coincides P (liftM p : Step α) (liftM q : Step α) := by
  intro s hs
  rw [run_liftM, run_liftM, h s hs]

theorem coincides_then {p q : Step α} {f g : α → Step β} (hp : Coincides P p q)
    (hrest : ∀ s, P s → Q (Parser.run p s).rest) (hf : ∀ a, Coincides Q (f a) (g a)) :
    Coincides P (p >>= f : Step β) (q >>= g : Step β) := by
  intro s hs
  cases h : (Parser.run p s).value with
  | error e => rw [run_bind_of_error f h, run_bind_of_error g (hp s hs ▸ h), hp s hs]
  | ok a =>
    rw [run_bind_of_ok f h, run_bind_of_ok g (hp s hs ▸ h), ← hp s hs, hf a _ (hrest s hs)]

/-- The second step of two, where the first is the same. -/
theorem coincides_then_right (p : Step α) {f g : α → Step β}
    (hf : ∀ a, Coincides (Below n) (f a) (g a)) :
    Coincides (Below n) (p >>= f : Step β) (p >>= g : Step β) :=
  coincides_then (.refl p) (below_rest p) hf

theorem coincides_group (kind : NodeKind) (complete : α → Bool) {p q : Step α}
    (h : Coincides P p q) : Coincides P (group kind complete p) (group kind complete q) :=
  coincides_within _ h

theorem coincides_sepTail {p q : Step α} (h : Coincides (Below n) p q) (closer : TokenKind)
    (otherwise : String → Stop) :
    Coincides (Below n) (sepTail p closer otherwise) (sepTail q closer otherwise) := by
  intro s hs
  show sepTail.loop p closer otherwise s = sepTail.loop q closer otherwise s
  fun_induction sepTail.loop p closer otherwise s with
  | case1 => rw [sepTail.loop]
  | case2 t s hc => rw [sepTail.loop, if_pos hc]
  | case3 t s hc hcomma o e he =>
    have hs : Below n s := Nat.lt_of_succ_lt hs
    rw [sepTail.loop, if_neg hc, if_pos hcomma, ← h s hs]
    simp only [o] at he
    simp only [he, o]
  | case4 t s hc hcomma o a ha r ih =>
    have hs : Below n s := Nat.lt_of_succ_lt hs
    rw [sepTail.loop, if_neg hc, if_pos hcomma, ← h s hs]
    simp only [o] at ha
    simp only [ha, o, r, ih (below_rest p s hs)]
  | case5 t s hc hcomma => rw [sepTail.loop, if_neg hc, if_neg hcomma]

end Step

namespace Parse

open SchemaLang.Parser Step

variable {n : Nat}

/-! ## Values -/

theorem coincides_bump_then {α : Type} {f g : Unit → Step α}
    (h : Coincides (Below n) (f ()) (g ())) :
    Coincides (AtMost n) ((liftM bump : Step Unit) >>= f : Step α) (liftM bump >>= g : Step α) := by
  refine coincides_then (.refl _) (fun s hs => ?_) fun _ => h
  rw [run_liftM]
  exact below_of_atMost hs (rest_bump_lt hs.1)

theorem below_keyword (s : List Lexeme) (hs : AtMost n s) :
    Below n (Parser.run keyword s).rest := by
  rw [keyword, run_bind_of_ok _ (by rw [run_liftM]), run_liftM]
  exact below_of_atMost hs (rest_take_lt _ hs.1)

theorem coincides_elements {p q : Step Bool} (h : Coincides (Below n) p q) (closer : TokenKind)
    (otherwise : String → Stop) :
    Coincides (Below n) (elements p closer otherwise) (elements q closer otherwise) :=
  coincides_then h (below_rest p) fun _ =>
    coincides_then (coincides_sepTail h closer otherwise) (below_rest _) fun _ => .refl _

theorem coincides_bracketed (kind : NodeKind) (closer : TokenKind) {p q : Step Bool}
    (h : Coincides (Below n) p q) (otherwise : String → Stop) :
    Coincides (AtMost n)
      (construct kind (between closer p otherwise))
      (construct kind (between closer q otherwise)) := by
  refine coincides_construct kind (coincides_bump_then (coincides_choose fun s hs => ?_))
  split
  · exact .refl _
  · exact (coincides_elements h closer otherwise).mono fun r hr => hr ▸ hs

theorem coincides_list {p q : Parser Bool} (h : Coincides (Below n) p q) :
    Coincides (AtMost n) (list p) (list q) :=
  coincides_bracketed .list .rbracket (coincides_liftM h) _

theorem coincides_mapEntry {p q : Parser Bool} (h : Coincides (Below n) p q) :
    Coincides (Below n) (mapEntry p) (mapEntry q) :=
  coincides_group _ _ <| coincides_then (coincides_liftM h) (below_rest _) fun _ =>
    coincides_then_right _ fun _ =>
      coincides_then (coincides_liftM h) (below_rest _) fun _ => .refl _

theorem coincides_map {p q : Parser Bool} (h : Coincides (Below n) p q) :
    Coincides (AtMost n) (map p) (map q) :=
  coincides_bracketed .map .rbrace (coincides_mapEntry h) _

theorem coincides_arguments {p q : Parser Bool} (h : Coincides (Below n) p q) :
    Coincides (AtMost n) (arguments p) (arguments q) := by
  refine coincides_bracketed .arguments .rparen (coincides_choose fun s hs => ?_) _
  split
  · exact .refl _
  · exact (coincides_liftM h).mono fun r hr => hr ▸ hs

/-- A construction whose name nothing follows has no argument to read. -/
theorem coincides_construction {p q : Parser Bool} (h : Coincides (Below n) p q) :
    Coincides (fun s => starts .lparen s.tail = true ∧ s.length ≤ n)
      (construction p) (construction q) := by
  refine coincides_wrap _ (coincides_bind (.refl _) (fun s hs => ?_) fun _ => coincides_arguments h)
  obtain ⟨hs, hn⟩ := hs
  rcases s with _ | ⟨t, s⟩
  · cases hs
  · exact ⟨ahead_of_starts hs, Nat.le_of_succ_le hn⟩

theorem coincides_valueOf {p q : Parser Bool} (h : Coincides (Below n) p q) :
    Coincides (fun s => s.length ≤ n) (valueOf (list p) (map p) (construction p))
      (valueOf (list q) (map q) (construction q)) := by
  apply coincides_choose
  intro s hs
  split
  · exact .refl _
  · rename_i t s
    have hs : AtMost n (t :: s) := ⟨List.cons_ne_nil t s, hs⟩
    split
    · exact .refl _
    · exact .refl _
    · exact .refl _
    · exact (coincides_list h).mono fun r hr => hr ▸ hs
    · exact (coincides_map h).mono fun r hr => hr ▸ hs
    · split
      · exact .refl _
      · split
        · rename_i hparen
          exact (coincides_construction h).mono fun r hr => hr ▸ ⟨hparen, hs.2⟩
        · exact .refl _
    · exact .refl _

/-- Room beyond the length of the input changes nothing. -/
theorem coincides_value {m : Nat} (hm : n ≤ m) : Coincides (Below n) (value n) (value m) := by
  induction n generalizing m with
  | zero => exact fun s hs => absurd hs (Nat.not_lt_zero _)
  | succ n ih =>
    obtain ⟨m, rfl⟩ := Nat.exists_eq_add_of_le' hm
    exact (coincides_valueOf (ih (Nat.le_add_left n m))).mono fun s hs => Nat.le_of_lt_succ hs

def valueUnbounded : Parser Bool := Parser.choose fun s => value (s.length + 1)

theorem coincides_valueUnbounded (n : Nat) : Coincides (Below n) (value n) valueUnbounded :=
  fun s hs => (coincides_value hs s (Nat.lt_succ_self _)).symm

theorem valueUnbounded_eq :
    valueUnbounded =
      valueOf (list valueUnbounded) (map valueUnbounded) (construction valueUnbounded) := by
  ext s
  exact coincides_valueOf (coincides_valueUnbounded s.length) s (Nat.le_refl _)

/-! ## Definitions -/

def enumMemberOf (value : Parser Bool) : Parser Bool :=
  Parser.choose fun s =>
    if starts .lbracket s then present (tag value)
    else if starts .identifier s then present enumValue
    else absent

def typeMemberOf (value : Parser Bool) (enum type : Parser Unit) : Parser Bool :=
  Parser.choose fun s =>
    if startsWord "option" s && !starts .langle s.tail then present settingStatement
    else if starts .lbracket s then present (tag value)
    else if startsWord "enum" s then present enum
    else if startsWord "type" s then present type
    else if starts .identifier s then present field
    else absent

def componentMemberOf (value : Parser Bool) : Parser Bool :=
  Parser.choose fun s =>
    if startsWord "option" s && !starts .langle s.tail then present settingStatement
    else if starts .lbracket s then present (tag value)
    else if startsWord "id" s then present componentId
    else if startsWord "data" s then present dataMember
    else if startsWord "event" s then present eventMember
    else if startsWord "command" s then present commandMember
    else if starts .identifier s then present field
    else absent

def topLevelOf (value : Parser Bool) (enum type component : Parser Unit) : Parser Bool :=
  Parser.choose fun s =>
    if s.isEmpty then absent
    else if startsWord "package" s then present packageStatement
    else if startsWord "import" s then present importStatement
    else if startsWord "option" s then present settingStatement
    else if startsWord "enum" s then present enum
    else if startsWord "type" s then present type
    else if startsWord "component" s then present component
    else if starts .lbracket s then present (tag value)
    else present (skip .notADefinition Recovery.topLevel.extent)

theorem coincides_present {P : List Lexeme → Prop} {p q : Parser Unit} (h : Coincides P p q) :
    Coincides P (present p) (present q) :=
  coincides_bind (Q := Always) h (fun _ _ => trivial) fun _ => .refl _

theorem coincides_statement {P : List Lexeme → Prop} (kind : NodeKind) {p q : Step Unit}
    (h : Coincides P p q) : Coincides P (statement kind p) (statement kind q) :=
  coincides_bind (Q := Always)
    (coincides_construct kind
      (coincides_then (Q := Always) h (fun _ _ => trivial) fun _ => .refl _))
    (fun _ _ => trivial) fun _ => .refl _

theorem coincides_namedArgument {p q : Parser Bool} (h : Coincides (Below n) p q) :
    Coincides (Below n) (namedArgument p) (namedArgument q) :=
  coincides_group _ _ <| coincides_then_right _ fun _ => coincides_then_right _ fun _ =>
    coincides_liftM h

theorem coincides_tag {p q : Parser Bool} (h : Coincides (Below n) p q) :
    Coincides (AtMost n) (tag p) (tag q) := by
  refine coincides_statement _ (coincides_bump_then (coincides_then_right _ fun _ =>
    coincides_then (coincides_choose fun s hs => ?_) (below_rest _) fun _ => .refl _))
  split
  · rename_i hparen
    split
    · exact (coincides_then_right _ fun _ =>
        coincides_then (coincides_elements (coincides_namedArgument h) _ _) (below_rest _)
          fun _ => .refl _).mono fun r hr => hr ▸ hs
    · exact coincides_then (Q := Always) (coincides_liftM ((coincides_arguments h).mono fun r hr =>
        hr ▸ ⟨ahead_of_starts hparen, Nat.le_of_lt hs⟩)) (fun _ _ => trivial) fun _ => .refl _
  · exact .refl _

theorem coincides_block {P : List Lexeme → Prop} (kind : NodeKind) (word : String)
    {p q : Parser Bool} (h : Coincides (Below n) p q)
    (hP : ∀ s, P s → Below n (Parser.run keyword s).rest) :
    Coincides P (block kind word p) (block kind word q) :=
  coincides_statement _ <| coincides_then (.refl _) hP fun _ => coincides_then_right _ fun _ =>
    coincides_then_right _ fun _ =>
      coincides_then (coincides_liftM (coincides_members h)) (below_rest _) fun _ => .refl _

section Members

variable {value value' : Parser Bool} {enum enum' type type' component component' : Parser Unit}
  (hvalue : Coincides (Below n) value value') (henum : Coincides (AtMost n) enum enum')
  (htype : Coincides (AtMost n) type type')
  (hcomponent : Coincides (AtMost n) component component')

include hvalue in
theorem coincides_present_tag {s : List Lexeme} (h : starts .lbracket s = true)
    (hs : s.length ≤ n) : Coincides (· = s) (present (tag value)) (present (tag value')) :=
  coincides_present ((coincides_tag hvalue).mono fun _ hr => hr ▸ ⟨ahead_of_starts h, hs⟩)

theorem coincides_present_definition {p q : Parser Unit} (hp : Coincides (AtMost n) p q)
    {word : String} {s : List Lexeme} (h : startsWord word s = true) (hs : s.length ≤ n) :
    Coincides (· = s) (present p) (present q) :=
  coincides_present (hp.mono fun _ hr => hr ▸ ⟨ahead_of_startsWord h, hs⟩)

include hvalue in
theorem coincides_enumMemberOf :
    Coincides (fun s => s.length ≤ n) (enumMemberOf value) (enumMemberOf value') := by
  apply coincides_choose
  intro s hs
  split
  · exact coincides_present_tag hvalue ‹_› hs
  split
  · exact .refl _
  · exact .refl _

include hvalue in
theorem coincides_componentMemberOf :
    Coincides (fun s => s.length ≤ n) (componentMemberOf value) (componentMemberOf value') := by
  apply coincides_choose
  intro s hs
  split
  · exact .refl _
  split
  · exact coincides_present_tag hvalue ‹_› hs
  · exact .refl _

include hvalue henum htype in
theorem coincides_typeMemberOf :
    Coincides (fun s => s.length ≤ n) (typeMemberOf value enum type)
      (typeMemberOf value' enum' type') := by
  apply coincides_choose
  intro s hs
  split
  · exact .refl _
  split
  · exact coincides_present_tag hvalue ‹_› hs
  split
  · exact coincides_present_definition henum ‹_› hs
  split
  · exact coincides_present_definition htype ‹_› hs
  · exact .refl _

include hvalue henum htype hcomponent in
theorem coincides_topLevelOf :
    Coincides (fun s => s.length ≤ n) (topLevelOf value enum type component)
      (topLevelOf value' enum' type' component') := by
  apply coincides_choose
  intro s hs
  split
  · exact .refl _
  split
  · exact .refl _
  split
  · exact .refl _
  split
  · exact .refl _
  split
  · exact coincides_present_definition henum ‹_› hs
  split
  · exact coincides_present_definition htype ‹_› hs
  split
  · exact coincides_present_definition hcomponent ‹_› hs
  split
  · exact coincides_present_tag hvalue ‹_› hs
  · exact .refl _

end Members

def enumUnbounded : Parser Unit := block .enum "enum" (enumMemberOf valueUnbounded)

def componentUnbounded : Parser Unit :=
  block .component "component" (componentMemberOf valueUnbounded)

theorem coincides_enumUnbounded (n : Nat) :
    Coincides (AtMost n) (enumDefinition n) enumUnbounded := by
  cases n with
  | zero => exact fun s hs => absurd (List.length_eq_zero_iff.mp (Nat.le_zero.mp hs.2)) hs.1
  | succ n =>
    have hmember : Coincides (Below (n + 1)) (enumMemberOf (value n))
        (enumMemberOf valueUnbounded) :=
      (coincides_enumMemberOf (coincides_valueUnbounded n)).mono fun _ hs => Nat.le_of_lt_succ hs
    exact coincides_block _ _ hmember below_keyword

theorem coincides_componentUnbounded (n : Nat) :
    Coincides (AtMost n) (componentDefinition n) componentUnbounded := by
  cases n with
  | zero => exact fun s hs => absurd (List.length_eq_zero_iff.mp (Nat.le_zero.mp hs.2)) hs.1
  | succ n =>
    have hmember : Coincides (Below (n + 1)) (componentMemberOf (value n))
        (componentMemberOf valueUnbounded) :=
      (coincides_componentMemberOf (coincides_valueUnbounded n)).mono
        fun _ hs => Nat.le_of_lt_succ hs
    exact coincides_block _ _ hmember below_keyword

theorem coincides_typeDefinition {m : Nat} (hm : n ≤ m) :
    Coincides (AtMost n) (typeDefinition n) (typeDefinition m) := by
  induction n generalizing m with
  | zero => exact fun s hs => absurd (List.length_eq_zero_iff.mp (Nat.le_zero.mp hs.2)) hs.1
  | succ n ih =>
    obtain ⟨m, rfl⟩ := Nat.exists_eq_add_of_le' hm
    have hle := Nat.le_add_left n m
    have henum : Coincides (AtMost n) (enumDefinition n) (enumDefinition (m + n)) := fun s hs =>
      (coincides_enumUnbounded n s hs).trans
        (coincides_enumUnbounded (m + n) s ⟨hs.1, Nat.le_trans hs.2 hle⟩).symm
    have hmember := coincides_typeMemberOf (coincides_value hle) henum (ih hle)
    exact coincides_block _ _ (hmember.mono fun _ hs => Nat.le_of_lt_succ hs) below_keyword

def typeUnbounded : Parser Unit := Parser.choose fun s => typeDefinition (s.length + 1)

theorem coincides_typeUnbounded (n : Nat) :
    Coincides (AtMost n) (typeDefinition n) typeUnbounded := by
  intro s hs
  have hself : AtMost s.length s := ⟨hs.1, Nat.le_refl _⟩
  have hroom := coincides_typeDefinition hs.2 s hself
  exact hroom.symm.trans (coincides_typeDefinition (Nat.le_succ _) s hself)

theorem typeUnbounded_eq :
    typeUnbounded =
      block .type "type" (typeMemberOf valueUnbounded enumUnbounded typeUnbounded) := by
  ext s
  have hmember := coincides_typeMemberOf (coincides_valueUnbounded s.length)
    (coincides_enumUnbounded s.length) (coincides_typeUnbounded s.length)
  exact coincides_block .type "type" (hmember.mono fun _ hs => Nat.le_of_lt_succ hs)
    (below_rest keyword) s (Nat.lt_succ_self _)

def topLevelUnbounded : Parser Bool :=
  topLevelOf valueUnbounded enumUnbounded typeUnbounded componentUnbounded

theorem coincides_topLevelUnbounded (n : Nat) :
    Coincides (fun s => s.length ≤ n) (topLevel n) topLevelUnbounded :=
  coincides_topLevelOf (coincides_valueUnbounded n) (coincides_enumUnbounded n)
    (coincides_typeUnbounded n) (coincides_componentUnbounded n)

end Parse

def parseUnbounded (significant : List Lexeme) : Row :=
  ((Parser.members Parse.topLevelUnbounded).run significant).built

/-- As much room as there are lexemes is as good as no bound. -/
theorem parseUnbounded_eq (s : List Lexeme) : parseUnbounded s = parseWith s.length s := by
  have hmember : Parser.Coincides (Below (s.length + 1)) (Parse.topLevel s.length)
      Parse.topLevelUnbounded :=
    (Parse.coincides_topLevelUnbounded s.length).mono fun _ hr => Nat.le_of_lt_succ hr
  rw [parseUnbounded, parseWith, Parser.coincides_members hmember s (Nat.lt_succ_self _)]

end SchemaLang
