import SchemaLang.Proofs.Acceptance
import SchemaLang.Proofs.Extent
import SchemaLang.Proofs.Unbounded
import SchemaLang.Proofs.Verdicts

/-!
# Pruning what nests too deeply

Pruning a row replaces each outermost construct for which there is no room by
skipped lexemes, and closes constructs around values as incomplete when one is
replaced in them. Reading with limited room builds the pruned row of what
reading without a bound builds, and goes on at the same place: the skip ends
where the construct does.
-/

set_option autoImplicit false

namespace SchemaLang

def NodeKind.nests : NodeKind → Bool
  | type | enum | component | list | map | construction => true
  | _ => false

def NodeKind.roomInside? (kind : NodeKind) : Nat → Option Nat
  | 0 => if kind.nests then none else some 0
  | room + 1 => some (if kind.nests then room else room + 1)

theorem roomInside?_of_not_nests {kind : NodeKind} (h : kind.nests = false) (room : Nat) :
    kind.roomInside? room = some room := by
  cases room <;> simp [NodeKind.roomInside?, h]

def Shape.closed (faulty : Bool) : Shape → Shape
  | construct kind complete => construct kind (complete && !(kind.holdsValues && faulty))
  | skipped fault => skipped fault

class Shaped (α : Type) where
  shape : α → Shape
  reshape : Shape → α → α

instance : Shaped Shape := ⟨id, fun shape _ => shape⟩

instance : Shaped (Shape × Span) := ⟨Prod.fst, fun shape label => (shape, label.2)⟩

namespace Forest

open Shaped

variable {α σ τ : Type} [Shaped α]

def faulty (f : Forest α τ) : Bool := f.labels.any fun a => (shape a).isFault

/-- The row with `room` levels of nesting left. -/
def prune : Forest α τ → Nat → Forest α τ
  | nil, _ => nil
  | leaf t next, room => leaf t (next.prune room)
  | node a inside next, room =>
    match (shape a).kind.roomInside? room with
    | some within =>
      node (reshape ((shape a).closed (inside.prune within).faulty) a) (inside.prune within)
        (next.prune room)
    | none => node (reshape (.skipped .tooDeep) a) (.ofTokens inside.leaves) (next.prune room)

theorem prune_append (f g : Forest α τ) (room : Nat) :
    (f ++ g).prune room = f.prune room ++ g.prune room := by
  induction f with
  | nil => rfl
  | leaf t next ih => rw [leaf_append, prune, ih, prune, leaf_append]
  | node a inside next _ ih =>
    rw [node_append, prune, prune, ih]
    split <;> rfl

@[simp] theorem leaves_prune (f : Forest α τ) (room : Nat) : (f.prune room).leaves = f.leaves := by
  induction f generalizing room with
  | nil => rfl
  | leaf t next ih => rw [prune, leaves, ih, leaves]
  | node a inside next ihi ihn =>
    rw [prune]
    split
    · rw [leaves, ihi, ihn, leaves]
    · rw [leaves, leaves_ofTokens, ihn, leaves]

theorem prune_ofTokens (ts : List τ) (room : Nat) :
    (ofTokens ts : Forest α τ).prune room = ofTokens ts := by
  induction ts with
  | nil => rfl
  | cons t ts ih => rw [ofTokens, prune, ih]

end Forest

/-! ## Rows that are not pruned -/

def Shallow (row : Row) : Prop := ∀ room, row.prune room = row

theorem joins_shallow : Joins Shallow where
  nil _ := rfl
  leaf _ _ := rfl
  append hf hg room := by rw [Forest.prune_append, hf, hg]

def NodeKind.isShallow (kind : NodeKind) : Bool := !kind.nests && !kind.holdsValues

theorem prune_shallow {kind : NodeKind} (hkind : kind.isShallow = true) (complete : Bool)
    (inside next : Row) (room : Nat) :
    (Forest.node (.construct kind complete) inside next : Row).prune room =
      .node (.construct kind complete) (inside.prune room) (next.prune room) := by
  obtain ⟨hnests, hvalues⟩ : kind.nests = false ∧ kind.holdsValues = false := by
    simpa [NodeKind.isShallow] using hkind
  rw [Forest.prune, show (Shaped.shape (Shape.construct kind complete)).kind = kind from rfl,
    roomInside?_of_not_nests hnests]
  simp [Shaped.shape, Shaped.reshape, Shape.closed, hvalues]

theorem shallow_node {kind : NodeKind} (hkind : kind.isShallow = true) (complete : Bool)
    {inside next : Row} (hinside : Shallow inside) (hnext : Shallow next) :
    Shallow (.node (.construct kind complete) inside next) := by
  intro room
  rw [prune_shallow hkind, hinside, hnext]

theorem NodeKind.isShallow_of_isLexeme {kind : NodeKind} (h : kind.isLexeme = true) :
    kind.isShallow = true := by
  cases kind <;> first | rfl | exact absurd h (by decide)

theorem Worded.shallow {row : Row} (h : Worded row) : Shallow row := by
  induction h with
  | nil => exact joins_shallow.nil
  | leaf t _ ih => exact joins_shallow.append (joins_shallow.leaf t) ih
  | lexeme hkind ht _ ih =>
    exact shallow_node (NodeKind.isShallow_of_isLexeme hkind) _ (joins_shallow.leaf _) ih

theorem Simple.shallow {row : Row} (h : Simple row) : Shallow row := by
  induction h with
  | nil => exact joins_shallow.nil
  | leaf t _ ih => exact joins_shallow.append (joins_shallow.leaf t) ih
  | lexeme hkind ht _ ih =>
    exact shallow_node (NodeKind.isShallow_of_isLexeme hkind) _ (joins_shallow.leaf _) ih
  | type hinside _ ih => exact shallow_node rfl _ hinside.worded.shallow ih

theorem shallow_skipped (fault : Fault) (ls : List Lexeme) :
    Shallow (.node (.skipped fault) (.ofTokens ls) .nil) := by
  intro room
  rw [Forest.prune, show (Shaped.shape (Shape.skipped fault)).kind = .error from rfl,
    roomInside?_of_not_nests rfl]
  dsimp only
  rw [Forest.prune_ofTokens]
  rfl

namespace Parser

theorem shallow_take {kind : NodeKind} (h : kind.isLexeme = true) : Yields Shallow (take kind) := by
  rintro (_ | ⟨t, s⟩)
  · exact joins_shallow.nil
  · exact shallow_node (NodeKind.isShallow_of_isLexeme h) _ (joins_shallow.leaf t) joins_shallow.nil

theorem shallow_construct {kind : NodeKind} (hkind : kind.isShallow = true) {body : Step Bool}
    (h : Yields Shallow body) : Yields Shallow (construct kind body) := by
  intro s
  cases hv : (run body s).value with
  | ok sound =>
    rw [run_construct_of_ok hv]
    exact shallow_node hkind sound (h s) joins_shallow.nil
  | error e =>
    rw [run_construct_of_error hv]
    exact shallow_node hkind false (h s) (shallow_skipped _ _)

theorem Brief.shallow {ahead : List Lexeme → Prop} {kind : NodeKind} {p : Parser Unit}
    (h : Brief ahead kind p) (hkind : kind.isShallow = true) {s : List Lexeme} (hs : ahead s) :
    Shallow (p.run s).built := by
  obtain ⟨body, rfl, hbody⟩ := h
  have hsteps := (hbody s hs).shallow
  cases hvalue : (run body s).value with
  | ok u =>
    rw [run_statement_of_ok hvalue]
    exact shallow_node hkind true hsteps joins_shallow.nil
  | error e =>
    rw [run_statement_of_error hvalue]
    exact shallow_node hkind false hsteps (shallow_skipped _ _)

end Parser

/-! ## Reading in step -/

theorem faulty_of_faultless {row : Row} (h : Faultless row) (hfaults : ∀ shape ∈ row.labels,
    shape.isFault = true → shape.fault?.isSome = true) : Faulty row = false := by
  rw [Faultless, Forest.each_iff_labels] at h
  rw [Faulty, List.any_eq_false]
  intro shape hshape hfault
  have := hfaults shape hshape hfault
  rw [h shape hshape] at this
  cases this

namespace Parser

variable {α β : Type} {P Q : List Lexeme → Prop} {room within : Nat}

/-- Where `q` meets no fault, `p` builds the pruned row and leaves the same. -/
def Prunes (room : Nat) (P : List Lexeme → Prop) (p q : Parser α) : Prop :=
  ∀ s, P s → Faultless (q.run s).built →
    (p.run s).built = (q.run s).built.prune room ∧ (p.run s).rest = (q.run s).rest

theorem Prunes.mono {p q : Parser α} (h : Prunes room P p q) (hP : ∀ s, Q s → P s) :
    Prunes room Q p q := fun s hs => h s (hP s hs)

theorem prunes_same_at {p : Parser α} (h : ∀ s, P s → Shallow (p.run s).built) :
    Prunes room P p p := fun s hs _ => ⟨(h s hs room).symm, rfl⟩

theorem prunes_same {p : Parser α} (h : Yields Shallow p) : Prunes room P p p :=
  prunes_same_at fun s _ => h s

theorem prunes_choose {f g : List Lexeme → Parser α}
    (h : ∀ s, P s → Prunes room (· = s) (f s) (g s)) :
    Prunes room P (choose f) (choose g) := fun s hs => h s hs s rfl

/-- Whatever its answer, the first parser is followed by parsers that are in step. -/
theorem prunes_bind {p q : Parser α} {f g : α → Parser β} (hp : Prunes room P p q)
    (hf : ∀ a b, Prunes room Always (f a) (g b)) : Prunes room P (p >>= f) (q >>= g) := by
  intro s hs hfl
  rw [run_bind, faultless_append] at hfl
  obtain ⟨hbuilt, hrest⟩ := hp s hs hfl.1
  obtain ⟨hbuilt', hrest'⟩ := hf (p.run s).value _ _ trivial hfl.2
  rw [run_bind, run_bind, Forest.prune_append, hbuilt, hrest]
  exact ⟨by rw [hbuilt'], hrest'⟩

theorem prunes_skip (p : Parser Unit) (fault : Fault) (extent : List Lexeme → Nat) :
    Prunes room P p (skip fault extent) :=
  fun _ _ hfl => absurd hfl (not_faultless_skipped _ _ _)

theorem prunes_members {p q : Parser Bool} (h : Prunes room Always p q)
    (hvalue : ∀ s, (p.run s).value = (q.run s).value) :
    Prunes room P (members p) (members q) := by
  rintro s - hfl
  change Faultless (members.loop q s).built at hfl
  show (members.loop p s).built = (members.loop q s).built.prune room ∧
    (members.loop p s).rest = (members.loop q s).rest
  fun_induction members.loop q s with
  | case1 s o hv hlt r ih =>
    obtain ⟨hfl, hfl'⟩ := faultless_append.mp hfl
    obtain ⟨hbuilt, hrest⟩ := h s trivial hfl
    obtain ⟨hbuilt', hrest'⟩ := ih hfl'
    rw [members.loop_eq, hvalue, if_pos hv, hrest, if_pos hlt, Forest.prune_append]
    exact ⟨by rw [hbuilt, hbuilt'], hrest'⟩
  | case2 s o hv hlt hr =>
    obtain ⟨hbuilt, hrest⟩ := h s trivial hfl
    rw [members.loop_eq, hvalue, if_pos hv, hrest, if_neg hlt,
      show (q.run s).rest = [] from hr]
    exact ⟨hbuilt, rfl⟩
  | case3 s o hv hlt t rest hr r ih =>
    exact absurd (faultless_append.mp hfl).2 (not_faultless_skipped _ _ _)
  | case4 s o hv =>
    obtain ⟨hbuilt, hrest⟩ := h s trivial hfl
    rw [members.loop_eq, hvalue, if_neg hv]
    exact ⟨hbuilt, hrest⟩

end Parser

namespace Step

open SchemaLang.Parser

variable {α β : Type} {P Q : List Lexeme → Prop} {room within : Nat}

def Prunes (room : Nat) (P : List Lexeme → Prop) (p q : Step α) : Prop :=
  ∀ s b, P s → (Parser.run q s).value = .ok b → Faultless (Parser.run q s).built →
    ∃ a, Parser.run p s = ⟨.ok a, (Parser.run q s).built.prune room, (Parser.run q s).rest⟩

theorem Prunes.mono {p q : Step α} (h : Prunes room P p q) (hP : ∀ s, Q s → P s) :
    Prunes room Q p q := fun s b hs => h s b (hP s hs)

theorem prunes_done (a b : α) : Prunes room P (pure a : Step α) (pure b) :=
  fun _ _ _ _ _ => ⟨a, rfl⟩

theorem prunes_liftM {p q : Parser α} (h : Parser.Prunes room P p q) :
    Prunes room P (liftM p : Step α) (liftM q) := by
  intro s b hs _ hfl
  rw [run_liftM] at hfl
  obtain ⟨hbuilt, hrest⟩ := h s hs hfl
  exact ⟨(p.run s).value, by rw [run_liftM, run_liftM, hbuilt, hrest]⟩

theorem prunes_choose {f g : List Lexeme → Step α}
    (h : ∀ s, P s → Prunes room (· = s) (f s) (g s)) : Prunes room P (choose f) (choose g) :=
  fun s b hs => h s hs s b rfl

theorem prunes_stop (p : Step α) (recovery : Recovery) (fault : Fault) :
    Prunes room P p (stop recovery fault) := by
  intro s b _ hv
  rw [run_stop] at hv
  cases hv

theorem prunes_then {p q : Step α} {f g : α → Step β} (hp : Prunes room P p q)
    (hf : ∀ a b, Prunes room Always (f a) (g b)) :
    Prunes room P (p >>= f : Step β) (q >>= g : Step β) := by
  intro s c hs hv hfl
  cases h : (Parser.run q s).value with
  | error e =>
    rw [run_bind_of_error g h] at hv
    cases hv
  | ok b =>
    rw [run_bind_of_ok g h] at hv hfl ⊢
    obtain ⟨hfl, hfl'⟩ := faultless_append.mp hfl
    obtain ⟨a, ha⟩ := hp s b hs h hfl
    obtain ⟨a', ha'⟩ := hf a b _ c trivial hv hfl'
    exact ⟨a', by rw [run_bind_of_ok f (by rw [ha]), ha, ha', Forest.prune_append]⟩

theorem prunes_require (kind : TokenKind) (recovery : Recovery) (fault fault' : String → Fault) :
    Prunes room P (require kind recovery fault) (require kind recovery fault') := by
  apply prunes_choose
  intro s _
  split
  · exact prunes_done () ()
  · exact prunes_stop _ _ _

theorem prunes_punct (kind : TokenKind) (recovery : Recovery) (fault fault' : String → Fault) :
    Prunes room P (punct kind recovery fault) (punct kind recovery fault') :=
  prunes_then (prunes_require _ _ _ _) fun _ _ =>
    prunes_liftM (prunes_same (.bump joins_shallow))

theorem prunes_expect (kind : TokenKind) {node : NodeKind} (h : node.isLexeme = true)
    (recovery : Recovery) (fault fault' : String → Fault) :
    Prunes room P (expect kind node recovery fault) (expect kind node recovery fault') :=
  prunes_then (prunes_require _ _ _ _) fun _ _ =>
    prunes_liftM (prunes_same (shallow_take h))

theorem prunes_sepTail {p q : Step α} (h : Prunes room Always p q) (closer : TokenKind)
    (otherwise : String → Stop) :
    Prunes room P (sepTail p closer otherwise) (sepTail q closer otherwise) := by
  rintro s bs - hv hfl
  change (sepTail.loop q closer otherwise s).value = .ok bs at hv
  change Faultless (sepTail.loop q closer otherwise s).built at hfl
  show ∃ as, sepTail.loop p closer otherwise s = ⟨.ok as,
    (sepTail.loop q closer otherwise s).built.prune room, (sepTail.loop q closer otherwise s).rest⟩
  fun_induction sepTail.loop q closer otherwise s generalizing bs with
  | case1 => cases hv
  | case2 t s hc => exact ⟨[], by rw [sepTail.loop, if_pos hc]; rfl⟩
  | case3 t s hc hcomma o e he => cases hv
  | case4 t s hc hcomma o b hb r ih =>
    obtain ⟨hfl, hfl'⟩ := faultless_append.mp (show Faultless (o.built ++ r.built) from hfl)
    obtain ⟨a, ha⟩ := h s b trivial hb hfl
    cases hr : r.value with
    | error e =>
      rw [hr] at hv
      cases hv
    | ok bs' =>
      obtain ⟨as, has⟩ := ih bs' hr hfl'
      have has : sepTail.loop p closer otherwise (Parser.run q s).rest =
          ⟨.ok as, r.built.prune room, r.rest⟩ := has
      refine ⟨a :: as, ?_⟩
      rw [sepTail.loop_comma p otherwise s hc hcomma, ha]
      simp only [has, Forest.prune, Forest.prune_append]
      rfl
  | case5 t s hc hcomma => cases hv

end Step

theorem not_faulty_of_reports {p : Parser Bool} (h : Parser.Reports p) {s : List Lexeme}
    (hfl : Faultless (p.run s).built) : Faulty (p.run s).built = false :=
  faulty_of_faultless hfl (h s).1.fault

/-! ## Constructs -/

theorem prune_construct {kind : NodeKind} {room within : Nat}
    (hroom : kind.roomInside? room = some within) (complete : Bool) (inside next : Row) :
    (Forest.node (.construct kind complete) inside next : Row).prune room =
      .node (.construct kind (complete && !(kind.holdsValues && Faulty (inside.prune within))))
        (inside.prune within) (next.prune room) := by
  rw [Forest.prune, show (Shaped.shape (Shape.construct kind complete)).kind = kind from rfl, hroom]
  rfl

namespace Parser

open Step

variable {P : List Lexeme → Prop} {room within : Nat}

theorem ne_error_of_holdsValues {kind : NodeKind} (h : kind.holdsValues = true) :
    kind ≠ .error := by
  rintro rfl
  cases h

/-- The label of a construct around values that says whether there is a fault in it. -/
theorem prune_sound {kind : NodeKind} (hroom : kind.roomInside? room = some within)
    (hvalues : kind.holdsValues = true) {a b : Bool} {inside next : Row}
    (ha : a = !Faulty (inside.prune within)) (hb : b = true) :
    (Forest.node (.construct kind b) inside next : Row).prune room =
      .node (.construct kind a) (inside.prune within) (next.prune room) := by
  rw [prune_construct hroom, hb, hvalues, Bool.true_and, Bool.true_and, ha]

/-- A construct around values: in both runs its label tells of its faults. -/
theorem prunes_construct {kind : NodeKind} (hroom : kind.roomInside? room = some within)
    (hvalues : kind.holdsValues = true) {p q : Step Bool} (h : Step.Prunes within P p q)
    (hp : Reports (construct kind p)) (hq : Reports (construct kind q)) :
    Prunes room P (construct kind p) (construct kind q) := by
  have hkind := ne_error_of_holdsValues hvalues
  intro s hs hfl
  have hsound := not_faulty_of_reports hq hfl
  have hanswer := (hq s).2
  cases hv : (run q s).value with
  | error e =>
    rw [run_construct_of_error hv] at hfl
    exact absurd hfl.2.2 (not_faultless_skipped _ _ _)
  | ok b =>
    rw [hsound, run_construct_of_ok hv] at hanswer
    rw [run_construct_of_ok hv] at hfl ⊢
    obtain ⟨a, ha⟩ := h s b hs hv hfl.2.1
    have hrun : (construct kind p).run s =
        ⟨a, .node (.construct kind a) ((run q s).built.prune within) .nil, (run q s).rest⟩ := by
      rw [run_construct_of_ok (by rw [ha]), ha]
    have hanswer' := (hp s).2
    rw [hrun] at hanswer'
    have hfaults : a = !Faulty ((run q s).built.prune within) := by
      simpa [isFault_construct hkind] using hanswer'
    rw [hrun, prune_sound hroom hvalues hfaults hanswer]
    exact ⟨rfl, rfl⟩

theorem prunes_group {kind : NodeKind} (hroom : kind.roomInside? room = some within)
    (hvalues : kind.holdsValues = true) {p q : Step Bool} (h : Step.Prunes within P p q)
    (hp : Step.Reports id true (group kind id p)) (hq : Step.Reports id true (group kind id q)) :
    Step.Prunes room P (group kind id p) (group kind id q) := by
  have hkind := ne_error_of_holdsValues hvalues
  have hok {r : Step Bool} {s : List Lexeme} {a : Bool} (ha : (run r s).value = .ok a) :
      run (group kind id r) s =
        ⟨.ok a, .node (.construct kind a) (run r s).built .nil, (run r s).rest⟩ := by
    rw [run_group, ha]
    rfl
  intro s c hs hv hfl
  have hanswer := (hq s).2 c hv
  rw [faulty_of_faultless hfl (hq s).1.fault] at hanswer
  cases hb : (run q s).value with
  | error e =>
    rw [run_group, hb] at hv
    exact absurd (hb.symm.trans hv) (by simp)
  | ok b =>
    rw [hok hb] at hv hfl ⊢
    obtain rfl : b = c := Except.ok.inj hv
    obtain ⟨a, ha⟩ := h s b hs hb hfl.2.1
    have hrun : run (group kind id p) s = ⟨.ok a, .node (.construct kind a)
        ((run q s).built.prune within) .nil, (run q s).rest⟩ := by
      rw [hok (by rw [ha]), ha]
    have hanswer' := (hp s).2 a (by rw [hrun])
    rw [hrun] at hanswer'
    have hfaults : a = !Faulty ((run q s).built.prune within) := by
      simpa [isFault_construct hkind] using hanswer'
    refine ⟨a, ?_⟩
    rw [hrun]
    dsimp only
    rw [prune_sound hroom hvalues hfaults (show b = true from hanswer)]
    rfl

theorem prune_whole {kind : NodeKind} (hroom : kind.roomInside? room = some within)
    (hvalues : kind.holdsValues = false) (inside : Row) :
    (Forest.node (.construct kind true) inside .nil : Row).prune room =
      .node (.construct kind true) (inside.prune within) .nil := by
  rw [prune_construct hroom, hvalues]
  rfl

theorem prunes_wrap {kind : NodeKind} (hroom : kind.roomInside? room = some within)
    (hvalues : kind.holdsValues = false) {p q : Parser Bool} (h : Prunes within P p q) :
    Prunes room P (wrap kind p) (wrap kind q) := by
  intro s hs hfl
  change Faultless (.node (.construct kind true) (q.run s).built .nil) at hfl
  obtain ⟨hbuilt, hrest⟩ := h s hs hfl.2.1
  refine ⟨?_, hrest⟩
  show Forest.node (.construct kind true) (p.run s).built .nil =
    (Forest.node (.construct kind true) (q.run s).built .nil : Row).prune room
  rw [prune_whole hroom hvalues, hbuilt]

theorem prunes_statement {kind : NodeKind} (hroom : kind.roomInside? room = some within)
    (hvalues : kind.holdsValues = false) {p q : Step Unit} (h : Step.Prunes within P p q) :
    Prunes room P (statement kind p) (statement kind q) := by
  intro s hs hfl
  cases hv : (run q s).value with
  | error e =>
    rw [run_statement_of_error hv] at hfl
    exact absurd hfl.2.2 (not_faultless_skipped _ _ _)
  | ok u =>
    rw [run_statement_of_ok hv] at hfl ⊢
    obtain ⟨a, ha⟩ := h s u hs hv hfl.2.1
    rw [run_statement_of_ok (by rw [ha]), ha, prune_whole hroom hvalues]
    exact ⟨rfl, rfl⟩

theorem built_construct_of_faultless {kind : NodeKind} {body : Step Bool} {s : List Lexeme}
    (hfl : Faultless ((construct kind body).run s).built) :
    ∃ complete inside, ((construct kind body).run s).built =
      .node (.construct kind complete) inside .nil := by
  cases hv : (run body s).value with
  | error e =>
    rw [run_construct_of_error hv] at hfl
    exact absurd hfl.2.2 (not_faultless_skipped _ _ _)
  | ok sound => exact ⟨sound, _, by rw [run_construct_of_ok hv]⟩

/-- For want of room a construct is skipped, and the skip ends where it does. -/
theorem prunes_tooDeep {α : Type} {p q : Parser α} (kind : NodeKind) (hkind : kind.nests = true)
    (hp : ∀ s, (p.run s).built = (tooDeep.run s).built ∧ (p.run s).rest = (tooDeep.run s).rest)
    (hnode : ∀ s, Faultless (q.run s).built →
      ∃ complete inside, (q.run s).built = .node (.construct kind complete) inside .nil)
    (hq : ∀ s, P s → Faultless (q.run s).built →
      ∃ L, Grammar.Skipped L ∧ (q.run s).built.leaves ∈ L) :
    Prunes 0 P p q := by
  intro s hs hfl
  obtain ⟨L, hL, hmem⟩ := hq s hs hfl
  have hextent := hL _ hmem (q.run s).rest
  rw [q.lossless] at hextent
  obtain ⟨complete, inside, hbuilt⟩ := hnode s hfl
  have hleaves : (q.run s).built.leaves = inside.leaves := by
    rw [hbuilt]
    exact List.append_nil _
  have hskip : tooDeep.run s = ⟨false, .node (.skipped .tooDeep) (.ofTokens inside.leaves) .nil,
      (q.run s).rest⟩ := by
    have hsplit := q.lossless s
    rw [hleaves] at hsplit hextent
    have htake : s.take inside.leaves.length = inside.leaves := by
      rw [← hsplit, List.take_left]
    have hdrop : s.drop inside.leaves.length = (q.run s).rest := by
      conv_lhs => rw [← hsplit]
      exact List.drop_left
    simp only [tooDeep, run_bind, run_skip, run_pure, hextent, htake, hdrop, Forest.append_nil]
  have hprune : (Forest.node (.construct kind complete) inside .nil : Row).prune 0 =
      .node (.skipped .tooDeep) (.ofTokens inside.leaves) .nil := by
    rw [Forest.prune, show (Shaped.shape (Shape.construct kind complete)).kind = kind from rfl,
      NodeKind.roomInside?, if_pos hkind]
    rfl
  rw [(hp s).1, (hp s).2, hskip, hbuilt, hprune]
  exact ⟨rfl, rfl⟩

end Parser

namespace Parse

open SchemaLang.Parser Step

variable {P : List Lexeme → Prop} {room : Nat}

theorem ne_nil_of_begins {p : Lexeme → Prop} {Q : List Lexeme → Prop} {s : List Lexeme}
    (h : Begins p Q s) : s ≠ [] := by
  rintro rfl
  exact h

/-! ## Values -/

theorem reports_valueUnbounded : Parser.Reports valueUnbounded := fun s =>
  reports_value (s.length + 1) s

theorem prunes_literal {kind : NodeKind} (h : kind.isLexeme = true) :
    Parser.Prunes room P (literal kind) (literal kind) :=
  prunes_same <| .bind joins_shallow (shallow_take h) fun _ =>
    .pure joins_shallow true

theorem prunes_number : Parser.Prunes room P number number := by
  apply Parser.prunes_choose
  intro s _
  split
  · have hbump : Yields Shallow (liftM bump : Step Unit) := yields_liftM (.bump joins_shallow)
    exact prunes_same <| shallow_construct rfl <| yields_then joins_shallow hbump fun _ =>
      yields_then joins_shallow hbump fun _ =>
      yields_then joins_shallow (yields_punct joins_shallow _ _ _) fun _ =>
      yields_done joins_shallow true
  · exact prunes_literal rfl

theorem prunes_elements {p q : Step Bool} (h : Step.Prunes room Always p q) (closer : TokenKind)
    (otherwise : String → Stop) :
    Step.Prunes room P (elements p closer otherwise) (elements q closer otherwise) :=
  prunes_then (h.mono fun _ _ => trivial) fun _ _ =>
    prunes_then (prunes_sepTail h closer otherwise) fun _ _ => prunes_done _ _

theorem prunes_bracketed {kind : NodeKind} {within : Nat}
    (hroom : kind.roomInside? room = some within) (hvalues : kind.holdsValues = true)
    (closer : TokenKind) {p q : Step Bool} (h : Step.Prunes within Always p q)
    (hp : Step.Reports id true p) (hq : Step.Reports id true q) (otherwise : String → Stop) :
    Parser.Prunes room P
      (construct kind (between closer p otherwise))
      (construct kind (between closer q otherwise)) := by
  have hbump : Step.Prunes within Always (liftM bump : Step Unit) (liftM bump) :=
    prunes_liftM (prunes_same (.bump joins_shallow))
  refine prunes_construct hroom hvalues
    (prunes_then (hbump.mono fun _ _ => trivial) fun _ _ => Step.prunes_choose fun s _ => ?_)
    (reports_bracketed (ne_error_of_holdsValues hvalues) closer hp otherwise)
    (reports_bracketed (ne_error_of_holdsValues hvalues) closer hq otherwise)
  split
  · exact prunes_then (hbump.mono fun _ _ => trivial) fun _ _ => prunes_done _ _
  · exact prunes_elements h closer otherwise

section Nesting

variable {p q : Parser Bool} (h : Parser.Prunes room Always p q) (hp : Parser.Reports p)
  (hq : Parser.Reports q)

include h hp hq

theorem prunes_list : Parser.Prunes (room + 1) P (list p) (list q) :=
  prunes_bracketed rfl rfl .rbracket (prunes_liftM h) (reports_liftM hp) (reports_liftM hq) _

theorem prunes_mapEntry : Step.Prunes room P (mapEntry p) (mapEntry q) := by
  refine prunes_group (roomInside?_of_not_nests rfl room) rfl ?_ (reports_mapEntry hp)
    (reports_mapEntry hq)
  exact prunes_then (prunes_liftM (h.mono fun _ _ => trivial)) fun _ _ =>
    prunes_then (prunes_punct _ _ _ _) fun _ _ =>
    prunes_then (prunes_liftM h) fun _ _ => prunes_done _ _

theorem prunes_map : Parser.Prunes (room + 1) P (map p) (map q) :=
  prunes_bracketed rfl rfl .rbrace (prunes_mapEntry h hp hq) (reports_mapEntry hp)
    (reports_mapEntry hq) _

theorem prunes_arguments : Parser.Prunes room P (arguments p) (arguments q) := by
  have hreports {r : Parser Bool} (hr : Parser.Reports r) : Step.Reports id true
      (Step.choose fun s =>
        if s.isEmpty then stop (.delimited .rparen) .unclosedArguments else r) := by
    refine Step.reports_choose fun s => ?_
    split
    · exact reports_stop _ _
    · exact reports_liftM hr
  refine prunes_bracketed (roomInside?_of_not_nests rfl room) rfl .rparen
    (Step.prunes_choose fun s _ => ?_) (hreports hp) (hreports hq) _
  split
  · exact prunes_stop _ _ _
  · exact prunes_liftM (h.mono fun _ _ => trivial)

theorem prunes_construction : Parser.Prunes (room + 1) P (construction p) (construction q) :=
  prunes_wrap rfl rfl <|
    prunes_bind (prunes_same (shallow_take rfl)) fun _ _ =>
      prunes_arguments h hp hq

end Nesting

theorem prunes_valueOf {list map construction list' map' construction' : Parser Bool}
    (hl : Parser.Prunes room (AtToken .lbracket) list list')
    (hm : Parser.Prunes room (AtToken .lbrace) map map')
    (hc : Parser.Prunes room
      (Begins (fun t => t.kind = .identifier ∧ t.text ≠ "_") (fun s => starts .lparen s = true))
      construction construction') :
    Parser.Prunes room P (valueOf list map construction) (valueOf list' map' construction') := by
  have hnone : Parser.Prunes room P notAValue notAValue :=
    fun s _ hfl => absurd hfl (not_faultless_notAValue s)
  apply Parser.prunes_choose
  intro s _
  split
  · exact fun s _ hfl => absurd hfl (not_faultless_notAValue s)
  · split
    · exact prunes_number
    · exact prunes_literal rfl
    · exact prunes_literal rfl
    · rename_i hk
      exact hl.mono fun r hr => hr ▸ ⟨hk, trivial⟩
    · rename_i hk
      exact hm.mono fun r hr => hr ▸ ⟨hk, trivial⟩
    · rename_i hk
      split
      · exact prunes_literal rfl
      · rename_i hname
        split
        · rename_i hparen
          exact hc.mono fun r hr => hr ▸ ⟨⟨hk, by simpa using hname⟩, hparen⟩
        · exact prunes_literal rfl
    · exact fun s _ hfl => absurd hfl (not_faultless_notAValue s)

theorem prunes_tooDeep_list :
    Parser.Prunes 0 (AtToken .lbracket) tooDeep (list valueUnbounded) := by
  refine prunes_tooDeep .list rfl (fun _ => ⟨rfl, rfl⟩) (fun _ => built_construct_of_faultless) ?_
  intro s hs hfl
  rw [← coincides_list (coincides_valueUnbounded s.length) s
    ⟨ne_nil_of_begins hs, Nat.le_refl _⟩] at hfl ⊢
  exact ⟨_, Grammar.skipped_bracketed rfl rfl (Grammar.balances_value _),
    (accepts_list (F := Always) (accepts_value s.length) (heads_value _)).sound s hs hfl |>.2⟩

theorem prunes_tooDeep_map :
    Parser.Prunes 0 (AtToken .lbrace) tooDeep (map valueUnbounded) := by
  refine prunes_tooDeep .map rfl (fun _ => ⟨rfl, rfl⟩) (fun _ => built_construct_of_faultless) ?_
  intro s hs hfl
  rw [← coincides_map (coincides_valueUnbounded s.length) s
    ⟨ne_nil_of_begins hs, Nat.le_refl _⟩] at hfl ⊢
  have hvalue := Grammar.balances_value s.length
  exact ⟨_, Grammar.skipped_bracketed rfl rfl
    ((hvalue.mul (Grammar.balances_token rfl)).mul hvalue),
    (accepts_map (F := Always) (accepts_value s.length) (heads_value _)).sound s hs hfl |>.2⟩

theorem prunes_tooDeep_construction :
    Parser.Prunes 0
      (Begins (fun t => t.kind = .identifier ∧ t.text ≠ "_") (fun s => starts .lparen s = true))
      tooDeep (construction valueUnbounded) := by
  refine prunes_tooDeep .construction rfl (fun _ => ⟨rfl, rfl⟩)
    (fun _ _ => ⟨true, _, rfl⟩) ?_
  intro s hs hfl
  have hparen : starts .lparen s.tail = true := by
    cases s with
    | nil => exact hs.elim
    | cons t s => exact hs.2
  rw [← coincides_construction (coincides_valueUnbounded s.length) s ⟨hparen, Nat.le_refl _⟩]
    at hfl ⊢
  exact ⟨_, Grammar.skipped_construction (Grammar.balances_value _),
    (accepts_construction (F := Always) (accepts_value s.length)
      (heads_value _)).sound s hs hfl |>.2⟩

theorem prunes_value (room : Nat) : Parser.Prunes room P (value room) valueUnbounded := by
  induction room generalizing P with
  | zero =>
    rw [valueUnbounded_eq]
    exact prunes_valueOf prunes_tooDeep_list prunes_tooDeep_map prunes_tooDeep_construction
  | succ room ih =>
    have hreports := reports_value room
    rw [valueUnbounded_eq]
    exact prunes_valueOf (prunes_list ih hreports reports_valueUnbounded)
      (prunes_map ih hreports reports_valueUnbounded)
      (prunes_construction ih hreports reports_valueUnbounded)

/-! ## Tags and definitions -/

theorem prunes_namedArgument {p q : Parser Bool} (h : Parser.Prunes room Always p q)
    (hp : Parser.Reports p) (hq : Parser.Reports q) :
    Step.Prunes room P (namedArgument p) (namedArgument q) :=
  prunes_group (roomInside?_of_not_nests rfl room) rfl
    (prunes_then (prunes_expect _ rfl _ _ _) fun _ _ =>
      prunes_then (prunes_punct _ _ _ _) fun _ _ => prunes_liftM h)
    (reports_namedArgument hp) (reports_namedArgument hq)

theorem prunes_closing (closer : TokenKind) (recovery : Recovery) (fault fault' : String → Fault) :
    Step.Prunes room P (closing closer recovery fault) (closing closer recovery fault') := by
  apply Step.prunes_choose
  intro s _
  split
  · exact prunes_liftM (prunes_same (.bump joins_shallow))
  · split
    · exact prunes_stop _ _ _
    · exact prunes_stop _ _ _

theorem prunes_tag {p q : Parser Bool} (h : Parser.Prunes room Always p q)
    (hp : Parser.Reports p) (hq : Parser.Reports q) : Parser.Prunes room P (tag p) (tag q) := by
  have hbump {Q : List Lexeme → Prop} :
      Step.Prunes room Q (liftM bump : Step Unit) (liftM bump) :=
    prunes_liftM (prunes_same (.bump joins_shallow))
  refine prunes_statement (roomInside?_of_not_nests rfl room) rfl
    (prunes_then hbump fun _ _ => prunes_then (prunes_expect _ rfl _ _ _) fun _ _ =>
      prunes_then (Step.prunes_choose fun s _ => ?_) fun _ _ => prunes_closing _ _ _ _)
  split
  · split
    · exact prunes_then hbump fun _ _ =>
        prunes_then (prunes_elements (prunes_namedArgument h hp hq) _ _) fun _ _ =>
          prunes_done () ()
    · exact prunes_then (prunes_liftM (prunes_arguments h hp hq)) fun _ _ => prunes_done () ()
  · exact prunes_done () ()

theorem prunes_keyword : Step.Prunes room P keyword keyword :=
  prunes_then (prunes_liftM (prunes_same (shallow_take rfl)))
    fun _ _ => prunes_done () ()

theorem prunes_block {kind : NodeKind} {within : Nat} (hroom : kind.roomInside? room = some within)
    (hvalues : kind.holdsValues = false) (word : String) {p q : Parser Bool}
    (h : Parser.Prunes within Always p q) (hvalue : ∀ s, (p.run s).value = (q.run s).value) :
    Parser.Prunes room P (block kind word p) (block kind word q) :=
  prunes_statement hroom hvalues <|
    prunes_then prunes_keyword fun _ _ => prunes_then (prunes_expect _ rfl _ _ _) fun _ _ =>
      prunes_then (prunes_punct _ _ _ _) fun _ _ =>
      prunes_then (prunes_liftM (prunes_members h hvalue)) fun _ _ => prunes_punct _ _ _ _

theorem prunes_present {p q : Parser Unit} (h : Parser.Prunes room P p q) :
    Parser.Prunes room P (present p) (present q) :=
  prunes_bind h fun _ _ => prunes_same (.pure joins_shallow true)

theorem prunes_present_tag (room : Nat) :
    Parser.Prunes room P (present (tag (value room))) (present (tag valueUnbounded)) :=
  prunes_present (prunes_tag (prunes_value room) (reports_value room) reports_valueUnbounded)

theorem prunes_brief {kind : NodeKind} {p : Parser Unit} (h : Brief P kind p)
    (hkind : kind.isShallow = true) : Parser.Prunes room P (present p) (present p) :=
  prunes_present (prunes_same_at fun _ => h.shallow hkind)

theorem prunes_absent : Parser.Prunes room P absent absent :=
  prunes_same (.pure joins_shallow false)

theorem prunes_enumMember (room : Nat) :
    Parser.Prunes room P (enumMember room) (enumMemberOf valueUnbounded) := by
  apply Parser.prunes_choose
  intro s _
  split
  · exact prunes_present_tag room
  split
  · rename_i h
    refine prunes_brief (brief_enumValue.mono ?_) rfl
    rintro _ rfl
    exact h
  · exact prunes_absent

theorem prunes_componentMember (room : Nat) :
    Parser.Prunes room P (componentMember room) (componentMemberOf valueUnbounded) := by
  apply Parser.prunes_choose
  intro s _
  split
  · exact prunes_brief brief_settingStatement rfl
  split
  · exact prunes_present_tag room
  split
  · exact prunes_brief brief_componentId rfl
  split
  · exact prunes_brief brief_dataMember rfl
  split
  · exact prunes_brief brief_eventMember rfl
  split
  · exact prunes_brief brief_commandMember rfl
  split
  · exact prunes_brief brief_field rfl
  · exact prunes_absent

theorem value_present (p : Parser Unit) (s : List Lexeme) : ((present p).run s).value = true := rfl

/-- Whether there is a member is told by the next lexemes, not by what reads it. -/
theorem value_enumMemberOf (value value' : Parser Bool) (s : List Lexeme) :
    ((enumMemberOf value).run s).value = ((enumMemberOf value').run s).value := by
  rw [enumMemberOf, enumMemberOf, Parser.run_choose, Parser.run_choose]
  split_ifs <;> simp only [value_present]

theorem value_componentMemberOf (value value' : Parser Bool) (s : List Lexeme) :
    ((componentMemberOf value).run s).value = ((componentMemberOf value').run s).value := by
  rw [componentMemberOf, componentMemberOf, Parser.run_choose, Parser.run_choose]
  split_ifs <;> simp only [value_present]

theorem value_typeMemberOf (value value' : Parser Bool) (enum enum' type type' : Parser Unit)
    (s : List Lexeme) :
    ((typeMemberOf value enum type).run s).value =
      ((typeMemberOf value' enum' type').run s).value := by
  rw [typeMemberOf, typeMemberOf, Parser.run_choose, Parser.run_choose]
  split_ifs <;> simp only [value_present]

theorem value_topLevelOf (value value' : Parser Bool)
    (enum enum' type type' component component' : Parser Unit) (s : List Lexeme) :
    ((topLevelOf value enum type component).run s).value =
      ((topLevelOf value' enum' type' component').run s).value := by
  rw [topLevelOf, topLevelOf, Parser.run_choose, Parser.run_choose]
  split_ifs <;> simp only [value_present]

theorem built_statement {kind : NodeKind} {body : Step Unit} {s : List Lexeme}
    (hfl : Faultless ((statement kind body).run s).built) :
    ∃ complete inside, ((statement kind body).run s).built =
      .node (.construct kind complete) inside .nil := by
  cases hv : (run body s).value with
  | error e =>
    rw [run_statement_of_error hv] at hfl
    exact absurd hfl.2.2 (not_faultless_skipped _ _ _)
  | ok u => exact ⟨true, _, by rw [run_statement_of_ok hv]⟩

theorem skipped_zero : Grammar.Skipped 0 := fun _ hw => hw.elim

theorem prunes_enumDefinition (room : Nat) :
    Parser.Prunes room (AtWord "enum") (enumDefinition room) enumUnbounded := by
  cases room with
  | zero =>
    refine prunes_tooDeep .enum rfl (fun _ => ⟨rfl, rfl⟩) (fun _ => built_statement) ?_
    intro s hs hfl
    rw [← coincides_enumUnbounded s.length s ⟨ne_nil_of_begins hs, Nat.le_refl _⟩] at hfl ⊢
    refine ⟨_, ?_, (reads_enumDefinition s.length).sound s hs hfl⟩
    cases s.length with
    | zero => exact skipped_zero
    | succ n => exact Grammar.skipped_block _ (Grammar.balances_enumMember n)
  | succ room =>
    exact prunes_block rfl rfl "enum" (prunes_enumMember room) (value_enumMemberOf _ _)

theorem prunes_componentDefinition (room : Nat) :
    Parser.Prunes room (AtWord "component") (componentDefinition room) componentUnbounded := by
  cases room with
  | zero =>
    refine prunes_tooDeep .component rfl (fun _ => ⟨rfl, rfl⟩)
      (fun _ => built_statement) ?_
    intro s hs hfl
    rw [← coincides_componentUnbounded s.length s ⟨ne_nil_of_begins hs, Nat.le_refl _⟩] at hfl ⊢
    refine ⟨_, ?_, (reads_componentDefinition s.length).sound s hs hfl⟩
    cases s.length with
    | zero => exact skipped_zero
    | succ n => exact Grammar.skipped_block _ (Grammar.balances_componentMember n)
  | succ room =>
    exact prunes_block rfl rfl "component" (prunes_componentMember room)
      (value_componentMemberOf _ _)

theorem prunes_typeMember {type : Parser Unit} (room : Nat)
    (h : Parser.Prunes room (AtWord "type") type typeUnbounded) :
    Parser.Prunes room P (typeMember room type)
      (typeMemberOf valueUnbounded enumUnbounded typeUnbounded) := by
  apply Parser.prunes_choose
  intro s _
  split
  · exact prunes_brief brief_settingStatement rfl
  split
  · exact prunes_present_tag room
  split
  · exact prunes_present ((prunes_enumDefinition room).mono fun r hr =>
      hr ▸ begins_of_startsWord ‹_›)
  split
  · exact prunes_present (h.mono fun r hr => hr ▸ begins_of_startsWord ‹_›)
  split
  · exact prunes_brief brief_field rfl
  · exact prunes_absent

theorem prunes_typeDefinition (room : Nat) :
    Parser.Prunes room (AtWord "type") (typeDefinition room) typeUnbounded := by
  induction room with
  | zero =>
    refine prunes_tooDeep .type rfl (fun _ => ⟨rfl, rfl⟩) (fun s hfl => ?_) ?_
    · rw [typeUnbounded_eq] at hfl ⊢
      exact built_statement hfl
    · intro s hs hfl
      rw [← coincides_typeUnbounded s.length s ⟨ne_nil_of_begins hs, Nat.le_refl _⟩] at hfl ⊢
      refine ⟨_, ?_, (reads_typeDefinition s.length).sound s hs hfl⟩
      cases s.length with
      | zero => exact skipped_zero
      | succ n =>
        exact Grammar.skipped_block _
          (Grammar.balances_typeMember n (Grammar.balances_typeDefinition n))
  | succ room ih =>
    rw [typeUnbounded_eq]
    exact prunes_block rfl rfl "type" (prunes_typeMember room ih) (value_typeMemberOf _ _ _ _ _ _)

theorem prunes_topLevel (room : Nat) :
    Parser.Prunes room P (topLevel room) topLevelUnbounded := by
  apply Parser.prunes_choose
  intro s _
  split
  · exact prunes_absent
  split
  · exact prunes_brief brief_packageStatement rfl
  split
  · exact prunes_brief brief_importStatement rfl
  split
  · exact prunes_brief brief_settingStatement rfl
  split
  · exact prunes_present ((prunes_enumDefinition room).mono fun r hr =>
      hr ▸ begins_of_startsWord ‹_›)
  split
  · exact prunes_present ((prunes_typeDefinition room).mono fun r hr =>
      hr ▸ begins_of_startsWord ‹_›)
  split
  · exact prunes_present ((prunes_componentDefinition room).mono fun r hr =>
      hr ▸ begins_of_startsWord ‹_›)
  split
  · exact prunes_present_tag room
  · exact prunes_present (prunes_skip _ _ _)

end Parse

/-- With limited room a file is read as without a bound, and pruned. -/
theorem parseWith_eq_prune (room : Nat) (s : List Lexeme) (h : Faultless (parseUnbounded s)) :
    parseWith room s = (parseUnbounded s).prune room :=
  (Parser.prunes_members (P := Always) (Parse.prunes_topLevel room)
    (Parse.value_topLevelOf _ _ _ _ _ _ _ _) s trivial h).1

end SchemaLang
