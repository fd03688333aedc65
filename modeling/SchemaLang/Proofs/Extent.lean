import SchemaLang.Proofs.Brackets
import SchemaLang.Proofs.Values

/-!
# What is skipped for want of room

The words of the grammar are balanced: they close the brackets that they open,
in proper order. A skip that counts brackets of all sorts alike therefore ends
where the construct ends, though it knows nothing of the grammar.
-/

set_option autoImplicit false

namespace SchemaLang

variable {closers later : List TokenKind}

theorem due_append (closers : List TokenKind) (u v : List Lexeme) :
    due closers (u ++ v) = (due closers u).bind (fun c => due c v) := List.foldlM_append

theorem due_frame (around : List TokenKind) {v : List Lexeme} (h : due closers v = some later) :
    due (closers ++ around) v = some (later ++ around) := by
  induction v generalizing closers with
  | nil =>
    obtain rfl : closers = later := Option.some.inj h
    rfl
  | cons t v ih =>
    rcases due_cases h with ⟨closer, hk, hv⟩ | ⟨hplain, hv⟩ | ⟨hc, closers', rfl, hv⟩
    · rw [due_opener hk]
      exact ih hv
    · rw [due_plain hplain]
      exact ih hv
    · rw [List.cons_append, due_closer hc]
      exact ih hv

theorem Balanced.append {u v : List Lexeme} (hu : Balanced u) (hv : Balanced v) :
    Balanced (u ++ v) := by
  rw [Balanced, due_append, show due [] u = some [] from hu]
  exact hv

theorem Balanced.enclose {t u : Lexeme} {v : List Lexeme} (ht : t.kind.closer? = some u.kind)
    (hu : u.kind.isCloser = true) (hv : Balanced v) : Balanced (t :: (v ++ [u])) := by
  have hframe := due_frame [u.kind] hv
  rw [List.nil_append] at hframe
  rw [Balanced, due_opener ht, due_append, hframe, Option.bind_some, due_closer hu]
  rfl

/-- With a bracket open around it, a row is skipped whole. -/
theorem balancedExtent_append {v : List Lexeme} (r : List Lexeme) (h : due closers v = some later) :
    balancedExtent (closers.length + 1) (v ++ r) =
      v.length + balancedExtent (later.length + 1) r := by
  induction v generalizing closers with
  | nil =>
    obtain rfl : closers = later := Option.some.inj h
    simp
  | cons t v ih =>
    rw [List.cons_append, balancedExtent_cons, List.length_cons]
    rcases due_cases h with ⟨closer, hk, hv⟩ | ⟨hplain, hv⟩ | ⟨hc, closers', rfl, hv⟩
    · rw [if_pos (by simp [hk])]
      have := ih hv
      rw [List.length_cons] at this
      omega
    · obtain ⟨hk, hc⟩ := TokenKind.isBracket_eq_false.mp hplain
      rw [if_neg (by simp [hk]), if_neg (by simp [hc]), if_neg (by simp)]
      have := ih hv
      omega
    · rw [if_neg (by simp [TokenKind.closer?_of_isCloser hc]), if_pos hc, if_neg (by simp)]
      have := ih hv
      simp only [List.length_cons, Nat.add_sub_cancel]
      omega

namespace Grammar

open Computability

def Balances (L : Language Lexeme) : Prop := ∀ w ∈ L, Balanced w

variable {L M : Language Lexeme}

theorem balances_zero : Balances 0 := fun _ hw => hw.elim

theorem balances_unit : Balances 1 := by
  rintro _ rfl
  rfl

theorem balances_one {p : Lexeme → Prop} (h : ∀ t, p t → t.kind.isBracket = false) :
    Balances (one p) := by
  rintro _ ⟨t, ht, rfl⟩
  rw [Balanced, due_plain (h t ht)]
  rfl

theorem balances_token {kind : TokenKind} (h : kind.isBracket = false) : Balances (token kind) :=
  balances_one fun _ ht => ht ▸ h

theorem balances_word (text : String) : Balances (word text) := by
  refine balances_one fun t ht => ?_
  rw [Parse.kind_of_isWord ht]
  rfl

theorem balances_nameBut (text : String) : Balances (nameBut text) :=
  balances_one fun _ ht => ht.1 ▸ rfl

theorem Balances.add (hL : Balances L) (hM : Balances M) : Balances (L + M) := by
  rintro w (hw | hw)
  · exact hL w hw
  · exact hM w hw

theorem Balances.mul (hL : Balances L) (hM : Balances M) : Balances (L * M) := by
  rintro _ ⟨u, hu, v, hv, rfl⟩
  exact (hL u hu).append (hM v hv)

theorem Balances.pow (hL : Balances L) (n : Nat) : Balances (L ^ n) := by
  induction n with
  | zero => exact balances_unit
  | succ n ih => exact pow_succ L n ▸ ih.mul hL

theorem Balances.kstar (hL : Balances L) : Balances (L∗) := by
  intro w hw
  rw [Language.kstar_eq_iSup_pow] at hw
  obtain ⟨n, hn⟩ := Language.mem_iSup.mp hw
  exact hL.pow n w hn

theorem Balances.separated (hL : Balances L) : Balances (separated L) :=
  hL.mul ((balances_token rfl).mul hL).kstar

theorem mem_enclosed {opener closer : TokenKind} {w : List Lexeme}
    (hw : w ∈ token opener * L * token closer) :
    ∃ t v u, w = t :: (v ++ [u]) ∧ t.kind = opener ∧ v ∈ L ∧ u.kind = closer := by
  obtain ⟨_, ⟨_, ⟨t, ht, rfl⟩, v, hv, rfl⟩, _, ⟨u, hu, rfl⟩, rfl⟩ := hw
  exact ⟨t, v, u, rfl, ht, hv, hu⟩

theorem Balances.enclose {opener closer : TokenKind} (ho : opener.closer? = some closer)
    (hc : closer.isCloser = true) (hL : Balances L) :
    Balances (token opener * L * token closer) := by
  intro w hw
  obtain ⟨t, v, u, rfl, rfl, hv, rfl⟩ := mem_enclosed hw
  exact .enclose ho hc (hL v hv)

theorem Balances.bracketed {opener closer : TokenKind} (ho : opener.closer? = some closer)
    (hc : closer.isCloser = true) (hL : Balances L) : Balances (bracketed opener closer L) :=
  .enclose ho hc (balances_unit.add hL.separated)

/-! ## The productions -/

theorem balances_scalar : Balances scalar :=
  .add (.add (.add (.add (.add (balances_token rfl)
    (((balances_token rfl).mul (balances_word _)).mul (balances_token rfl))) (balances_token rfl))
    (balances_token rfl)) (balances_word _)) (balances_nameBut _)

theorem Balances.arguments (hL : Balances L) : Balances (arguments L) := .bracketed rfl rfl hL

theorem balances_value (room : Nat) : Balances (value room) := by
  induction room with
  | zero => exact balances_scalar
  | succ room ih =>
    exact .add (.add (.add balances_scalar (.bracketed rfl rfl ih))
      (.bracketed rfl rfl ((ih.mul (balances_token rfl)).mul ih)))
      ((balances_nameBut _).mul ih.arguments)

theorem Balances.tag (hL : Balances L) : Balances (tag L) := by
  have hnamed : Balances (namedArguments L) :=
    .enclose rfl rfl (((balances_token rfl).mul (balances_token rfl)).mul hL).separated
  rw [Grammar.tag, mul_assoc (token .lbracket)]
  exact .enclose rfl rfl ((balances_token rfl).mul ((balances_unit.add hL.arguments).add hnamed))

theorem balances_fieldType : Balances fieldType := by
  have hparameters (count : Nat) : Balances (parameters count) := by
    cases count with
    | zero => exact balances_zero
    | succ count =>
      exact ((((balances_token rfl).mul (balances_token rfl)).mul
        (((balances_token rfl).mul (balances_token rfl)).pow count)).mul (balances_token rfl))
  have hgeneric : Balances genericType :=
    .add (.add ((balances_word _).mul (hparameters _)) ((balances_word _).mul (hparameters _)))
      ((balances_word _).mul (hparameters _))
  exact .add (.add (balances_nameBut _) hgeneric) ((balances_word _).mul hgeneric)

theorem balances_fieldBut (reserved : List String) : Balances (fieldBut reserved) := by
  have hfield : Balances field :=
    ((balances_fieldType.mul (balances_token rfl)).mul
      (balances_unit.add ((balances_token rfl).mul (balances_token rfl)))).mul (balances_token rfl)
  exact fun w hw => hfield w hw.1

theorem balances_settingStatement : Balances settingStatement :=
  ((((balances_word _).mul (balances_token rfl)).mul (balances_token rfl)).mul
    (.add (.add (.add (balances_token rfl) (balances_token rfl)) (balances_token rfl))
      (balances_token rfl))).mul (balances_token rfl)

theorem balances_enumValue : Balances enumValue :=
  (((balances_token rfl).mul (balances_token rfl)).mul (balances_token rfl)).mul
    (balances_token rfl)

theorem balances_commandMember : Balances commandMember := by
  have hrequest : Balances (token .lparen * token .identifier * token .rparen) :=
    .enclose rfl rfl (balances_token rfl)
  have hname : Balances (token .identifier) := balances_token rfl
  have hend : Balances (token .semicolon) := balances_token rfl
  have hcommand := ((((balances_word "command").mul hname).mul hname).mul hrequest).mul hend
  rw [← mul_assoc, ← mul_assoc] at hcommand
  exact hcommand

theorem balances_enumMember (room : Nat) : Balances (enumMember room) :=
  (balances_value room).tag.add balances_enumValue

theorem Balances.block (keyword : String) (hL : Balances L) : Balances (block keyword L) := by
  rw [Grammar.block, mul_assoc, mul_assoc, ← mul_assoc (token .lbrace)]
  exact ((balances_word _).mul (balances_token rfl)).mul (.enclose rfl rfl hL.kstar)

theorem balances_enumDefinition (room : Nat) : Balances (enumDefinition room) := by
  cases room with
  | zero => exact balances_zero
  | succ room => exact (balances_enumMember room).block _

theorem balances_typeMember {type : Language Lexeme} (room : Nat) (htype : Balances type) :
    Balances (typeMember room type) :=
  .add (.add (.add (.add balances_settingStatement (balances_value room).tag)
    (balances_enumDefinition room)) htype) (balances_fieldBut _)

theorem balances_typeDefinition (room : Nat) : Balances (typeDefinition room) := by
  induction room with
  | zero => exact balances_zero
  | succ room ih => exact (balances_typeMember room ih).block _

theorem balances_componentMember (room : Nat) : Balances (componentMember room) := by
  have hdata : Balances dataMember :=
    ((balances_word _).mul balances_fieldType).mul (balances_token rfl)
  have hevent : Balances eventMember :=
    (((balances_word _).mul balances_fieldType).mul (balances_token rfl)).mul (balances_token rfl)
  have hid : Balances componentId :=
    (((balances_word _).mul (balances_token rfl)).mul (balances_token rfl)).mul
      (balances_token rfl)
  exact .add (.add (.add (.add (.add (.add balances_settingStatement (balances_value room).tag)
    hid) hdata) hevent) balances_commandMember) (balances_fieldBut _)

/-! ## Skipping a word -/

/-- The skip that counts brackets takes each word of the language whole, whatever follows. -/
def Skipped (L : Language Lexeme) : Prop :=
  ∀ w ∈ L, ∀ r, balancedExtent 0 (w ++ r) = w.length

theorem skipped_enclosed {opener closer : TokenKind} (ho : opener.closer? = some closer)
    (hc : closer.isCloser = true) (hL : Balances L) :
    Skipped (token opener * L * token closer) := by
  intro w hw r
  obtain ⟨t, v, u, rfl, rfl, hv, rfl⟩ := mem_enclosed hw
  have hskip := balancedExtent_append (u :: r) (hL v hv)
  rw [List.cons_append, List.append_assoc, balancedExtent_cons, if_pos (by simp [ho])]
  rw [balancedExtent_cons, if_neg (by simp [TokenKind.closer?_of_isCloser hc]), if_pos hc] at hskip
  simpa using hskip

/-- Lexemes in front that are neither brackets nor `;` are skipped with the word. -/
theorem Skipped.behind {p : Lexeme → Prop}
    (hp : ∀ t, p t → t.kind.isBracket = false ∧ t.kind ≠ .semicolon) (hL : Skipped L) :
    Skipped (one p * L) := by
  rintro _ ⟨_, ⟨t, ht, rfl⟩, v, hv, rfl⟩ r
  obtain ⟨hplain, hsemi⟩ := hp t ht
  obtain ⟨hk, hc⟩ := TokenKind.isBracket_eq_false.mp hplain
  show balancedExtent 0 (t :: (v ++ r)) = v.length + 1
  rw [balancedExtent_cons, if_neg (by simp [hk]), if_neg (by simp [hc]), if_neg (by simp [hsemi]),
    hL v hv r]

theorem skipped_bracketed {opener closer : TokenKind} (ho : opener.closer? = some closer)
    (hc : closer.isCloser = true) (hL : Balances L) : Skipped (bracketed opener closer L) :=
  skipped_enclosed ho hc (balances_unit.add hL.separated)

theorem skipped_construction (hL : Balances L) : Skipped (construction L) := by
  refine .behind (fun t ht => ?_) (skipped_bracketed rfl rfl hL)
  rw [ht.1]
  decide

theorem skipped_block (keyword : String) (hL : Balances L) : Skipped (block keyword L) := by
  rw [Grammar.block, mul_assoc, mul_assoc, ← mul_assoc (token .lbrace), mul_assoc]
  refine .behind (fun t ht => ?_) (.behind (fun t ht => ?_) (skipped_enclosed rfl rfl hL.kstar))
  · rw [Parse.kind_of_isWord ht]
    decide
  · rw [show t.kind = .identifier from ht]
    decide

end Grammar

end SchemaLang
