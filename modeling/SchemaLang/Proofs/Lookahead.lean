import SchemaLang.Proofs.Brackets
import SchemaLang.Proofs.Filled

/-!
# Inputs that begin alike

Two inputs that begin alike are read alike for as long as they do. A parser
looks at no more than two lexemes before it takes the first of them, so when
the readings part, all lexemes that the inputs share are taken but at most
one. The nodes that were closed earlier are settled: they are the same in
both rows, whatever follows.

The law is carried from combinators to productions. One production looks
further, for the sign that names an argument, and it takes a lexeme on either
branch.
-/

set_option autoImplicit false

namespace SchemaLang

/-! ## Where nodes reach -/

structure Stretch (α : Type) where
  label : α
  first : Nat
  stop : Nat
  deriving DecidableEq

def Stretch.isSettled {α : Type} (k : Nat) (s : Stretch α) : Bool :=
  s.first < s.stop && s.stop + 1 < k

namespace Forest

variable {α τ : Type}

def stretches : Forest α τ → Nat → List (Stretch α)
  | nil, _ => []
  | leaf _ next, n => next.stretches (n + 1)
  | node a inside next, n =>
    ⟨a, n, n + inside.leaves.length⟩ ::
      (inside.stretches n ++ next.stretches (n + inside.leaves.length))

theorem stretches_append (f g : Forest α τ) (n : Nat) :
    (f ++ g).stretches n = f.stretches n ++ g.stretches (n + f.leaves.length) := by
  induction f generalizing n with
  | nil => rfl
  | leaf t next ih =>
    rw [leaf_append, stretches, ih, leaves, List.length_cons, Nat.add_assoc n, Nat.add_comm 1]
    rfl
  | node a inside next _ ih =>
    rw [node_append, stretches, stretches, ih, leaves, List.length_append, List.cons_append,
      List.append_assoc, Nat.add_assoc]

theorem le_first_of_mem_stretches {f : Forest α τ} {n : Nat} {s : Stretch α}
    (h : s ∈ f.stretches n) : n ≤ s.first := by
  induction f generalizing n with
  | nil => simp [stretches] at h
  | leaf t next ih => exact Nat.le_of_succ_le (ih h)
  | node a inside next ihi ihn =>
    rcases List.mem_cons.mp h with rfl | hrest
    · exact Nat.le_refl n
    rcases List.mem_append.mp hrest with hin | hnext
    · exact ihi hin
    · exact Nat.le_trans (Nat.le_add_right n _) (ihn hnext)

def settled (k : Nat) (f : Forest α τ) (n : Nat) : List (Stretch α) :=
  (f.stretches n).filter (Stretch.isSettled k)

theorem settled_append (k : Nat) (f g : Forest α τ) (n : Nat) :
    (f ++ g).settled k n = f.settled k n ++ g.settled k (n + f.leaves.length) := by
  rw [settled, stretches_append, List.filter_append]
  rfl

theorem settled_eq_nil {k n : Nat} (h : k ≤ n + 2) (f : Forest α τ) : f.settled k n = [] := by
  apply List.filter_eq_nil_iff.mpr
  intro s hs
  have hfirst := le_first_of_mem_stretches hs
  simp only [Stretch.isSettled, Bool.and_eq_true, decide_eq_true_eq]
  omega

/-- A node that ends near `k` is not settled, but those inside it may be. -/
theorem settled_node_nil {k n : Nat} (a : α) (f : Forest α τ) (h : k ≤ n + f.leaves.length + 1) :
    (node a f nil).settled k n = f.settled k n := by
  rw [settled, stretches, List.filter_cons_of_neg]
  · simp [settled, stretches]
  · simp only [Stretch.isSettled, Bool.and_eq_true, decide_eq_true_eq]
    omega

theorem settled_ofTokens (k : Nat) (ts : List τ) (n : Nat) :
    (ofTokens ts : Forest α τ).settled k n = [] := by
  induction ts generalizing n with
  | nil => rfl
  | cons t ts ih => exact ih (n + 1)

end Forest

/-! ## Inputs that begin alike -/

/-- Two rows that took all but one of the `k` lexemes which their inputs share,
and are the same as far as they are settled. -/
structure Late (k : Nat) (f g : Row) : Prop where
  left : k ≤ f.leaves.length + 1
  right : k ≤ g.leaves.length + 1
  settled : ∀ n, f.settled (n + k) n = g.settled (n + k) n

namespace Late

variable {k : Nat} {f g : Row}

theorem of_le_one (h : k ≤ 1) (f g : Row) : Late k f g where
  left := by omega
  right := by omega
  settled n := by rw [Forest.settled_eq_nil (by omega), Forest.settled_eq_nil (by omega)]

theorem of_le_two (h : k ≤ 2) (hf : f.leaves ≠ []) (hg : g.leaves ≠ []) : Late k f g where
  left := by
    have := List.length_pos_iff.mpr hf
    omega
  right := by
    have := List.length_pos_iff.mpr hg
    omega
  settled n := by rw [Forest.settled_eq_nil (by omega), Forest.settled_eq_nil (by omega)]

/-- Whatever the two readings go on to build is not settled. -/
theorem append (h : Late k f g) (f' g' : Row) : Late k (f ++ f') (g ++ g') where
  left := by
    have := h.left
    rw [Forest.leaves_append, List.length_append]
    omega
  right := by
    have := h.right
    rw [Forest.leaves_append, List.length_append]
    omega
  settled n := by
    have hl := h.left
    have hr := h.right
    rw [Forest.settled_append, Forest.settled_append, h.settled n,
      Forest.settled_eq_nil (f := f') (by omega), Forest.settled_eq_nil (f := g') (by omega)]

theorem symm (h : Late k f g) : Late k g f := ⟨h.right, h.left, fun n => (h.settled n).symm⟩

/-- A node around what was built reaches too far to be settled. -/
theorem node (h : Late k f g) (a : Shape) : Late k (.node a f .nil) g where
  left := by simpa [Forest.leaves] using h.left
  right := h.right
  settled n := by
    have hl := h.left
    rw [Forest.settled_node_nil a f (by omega), h.settled n]

theorem behind (h : Late k f g) (row : Row) : Late (row.leaves.length + k) (row ++ f) (row ++ g)
    where
  left := by
    have := h.left
    rw [Forest.leaves_append, List.length_append]
    omega
  right := by
    have := h.right
    rw [Forest.leaves_append, List.length_append]
    omega
  settled n := by
    rw [Forest.settled_append, Forest.settled_append, ← Nat.add_assoc, h.settled]

end Late

/-- What became of two inputs that begin with `w`. Either both readings did the
same and stopped inside `w`, or both came close to its end. -/
inductive Agree {α : Type} (w x y : List Lexeme) (o o' : Parsed α) : Prop where
  | same {value : α} (row : Row) {r : List Lexeme} (hw : row.leaves ++ r = w)
      (h : o = ⟨value, row, r ++ x⟩) (h' : o' = ⟨value, row, r ++ y⟩)
  | late (h : Late w.length o.built o'.built)

/-- What agrees behind a common row agrees with the row in front of it. -/
theorem Agree.behind {α β : Type} {r x y : List Lexeme} {o o' : Parsed α} (h : Agree r x y o o')
    (row : Row) (g : α → β) :
    Agree (row.leaves ++ r) x y ⟨g o.value, row ++ o.built, o.rest⟩
      ⟨g o'.value, row ++ o'.built, o'.rest⟩ := by
  cases h with
  | late h =>
    apply Agree.late
    rw [List.length_append]
    exact h.behind row
  | @same a row' r' hr h h' =>
    subst h h'
    refine .same (row ++ row') ?_ rfl rfl
    rw [Forest.leaves_append, List.append_assoc, hr]

def Shape.Flat : Shape → Row → Prop
  | .construct _ _, _ => True
  | .skipped _, inside => inside = .ofTokens inside.leaves

def Scans (extent : List Lexeme → Nat) : Prop :=
  ∀ w x y, (extent (w ++ x) = extent (w ++ y) ∧ extent (w ++ x) ≤ w.length) ∨
    (w.length ≤ extent (w ++ x) ∧ w.length ≤ extent (w ++ y))

theorem scans_extent (r : Recovery) : Scans r.extent := by
  intro w x y
  induction w with
  | nil => exact .inr ⟨Nat.zero_le _, Nat.zero_le _⟩
  | cons t w ih =>
    simp only [List.cons_append, Recovery.extent, List.length_cons]
    split
    · exact .inl ⟨rfl, by omega⟩
    split
    · exact .inl ⟨rfl, by omega⟩
    · omega

theorem scans_balancedExtent (depth : Nat) : Scans (balancedExtent depth) := by
  intro w x y
  induction w generalizing depth with
  | nil => exact .inr ⟨Nat.zero_le _, Nat.zero_le _⟩
  | cons t w ih =>
    have hdeeper := ih (depth + 1)
    have hhere := ih depth
    have hback := ih (depth - 1)
    simp only [List.cons_append, balancedExtent_cons, List.length_cons]
    split
    · omega
    split
    · split
      · exact .inl ⟨rfl, by omega⟩
      · omega
    split
    · exact .inl ⟨rfl, by omega⟩
    · omega

structure Steady {α : Type} (p : Parser α) : Prop where
  flat : ∀ s, (p.run s).built.Each Shape.Flat
  agree : ∀ w x y, Agree w x y (p.run (w ++ x)) (p.run (w ++ y))

namespace Parser

variable {α β : Type}

theorem steady_pure (a : α) : Steady (pure a : Parser α) where
  flat _ := trivial
  agree _ _ _ := .same .nil rfl rfl rfl

theorem steady_bind {p : Parser α} {f : α → Parser β} (hp : Steady p) (hf : ∀ a, Steady (f a)) :
    Steady (p >>= f) where
  flat s := (Forest.each_append _ _ _).mpr ⟨hp.flat s, (hf _).flat _⟩
  agree w x y := by
    rw [run_bind, run_bind]
    cases hp.agree w x y with
    | late h => exact .late (h.append _ _)
    | @same a row r hw h h' =>
      rw [h, h', ← hw]
      exact ((hf a).agree r x y).behind row id

theorem steady_choose {f : List Lexeme → Parser α} (h : ∀ s, Steady (f s))
    (hf : ∀ t u s s', f (t :: u :: s) = f (t :: u :: s')) : Steady (choose f) where
  flat s := (h s).flat s
  agree w x y := by
    rw [run_choose, run_choose]
    match w with
    | [] => exact .late (.of_le_one (by simp) _ _)
    | [t] => exact .late (.of_le_one (by simp) _ _)
    | t :: u :: w =>
      rw [List.cons_append, List.cons_append, List.cons_append, List.cons_append,
        hf t u (w ++ y) (w ++ x)]
      exact (h _).agree (t :: u :: w) x y

/-- A parser that is picked by the next three lexemes, and takes something unless
two are enough. -/
theorem steady_choose_far {f : List Lexeme → Parser α} (h : ∀ s, Steady (f s))
    (hf : ∀ t u v s s', f (t :: u :: v :: s) = f (t :: u :: v :: s'))
    (hm : ∀ t u, (∀ s s', f (t :: u :: s) = f (t :: u :: s')) ∨
      ∀ s, Moves Ahead (f (t :: u :: s))) : Steady (choose f) where
  flat s := (h s).flat s
  agree w x y := by
    rw [run_choose, run_choose]
    match w with
    | [] => exact .late (.of_le_one (by simp) _ _)
    | [t] => exact .late (.of_le_one (by simp) _ _)
    | [t, u] =>
      rcases hm t u with heq | hmoves
      · have hxy : f ([t, u] ++ y) = f ([t, u] ++ x) := heq y x
        rw [hxy]
        exact (h _).agree [t, u] x y
      · exact .late (.of_le_two (by simp) (hmoves x _ (List.cons_ne_nil _ _))
          (hmoves y _ (List.cons_ne_nil _ _)))
    | t :: u :: v :: w =>
      have hxy : f (t :: u :: v :: w ++ y) = f (t :: u :: v :: w ++ x) :=
        hf t u v (w ++ y) (w ++ x)
      rw [hxy]
      exact (h _).agree (t :: u :: v :: w) x y

theorem steady_defer {p : Unit → Parser α} (h : Steady (p ())) : Steady (defer p) where
  flat := h.flat
  agree := h.agree

theorem steady_bump : Steady bump where
  flat s := by cases s <;> trivial
  agree w x y := by
    cases w with
    | nil => exact .late (.of_le_one (by simp) _ _)
    | cons t w => exact .same (.leaf t .nil) rfl rfl rfl

theorem steady_take (kind : NodeKind) : Steady (take kind) where
  flat s := by
    cases s with
    | nil => trivial
    | cons t s => exact ⟨trivial, trivial, trivial⟩
  agree w x y := by
    cases w with
    | nil => exact .late (.of_le_one (by simp) _ _)
    | cons t w =>
      exact .same (.node (.construct kind true) (.leaf t .nil) .nil) rfl rfl rfl

/-- A node may come out different only when it reaches as far as the inputs are alike. -/
theorem steady_within {label : α → Option Shape} {p : Parser α} (hp : Steady p)
    (hlabel : ∀ a shape, label a = some shape → ∀ row, Shape.Flat shape row) :
    Steady (within label p) where
  flat s := by
    dsimp only [within]
    split
    · exact ⟨hlabel _ _ ‹_› _, hp.flat s, trivial⟩
    · exact hp.flat s
  agree w x y := by
    dsimp only [within]
    cases hp.agree w x y with
    | same _ hw h h' =>
      rw [h, h']
      dsimp only
      split
      · exact .same _ (by simpa [Forest.leaves] using hw) rfl rfl
      · exact .same _ hw rfl rfl
    | late h =>
      apply Agree.late
      split
      · split
        · exact ((h.node _).symm.node _).symm
        · exact h.node _
      · split
        · exact (h.symm.node _).symm
        · exact h

theorem steady_wrap (kind : NodeKind) {p : Parser α} (h : Steady p) : Steady (wrap kind p) := by
  apply steady_within h
  intro a shape hshape row
  obtain rfl := Option.some.inj hshape
  trivial

theorem steady_skip (fault : Fault) {extent : List Lexeme → Nat} (h : Scans extent) :
    Steady (skip fault extent) where
  flat s := ⟨by simp [Shape.Flat], Forest.each_ofTokens _ _, trivial⟩
  agree w x y := by
    rw [run_skip, run_skip]
    rcases h w x y with ⟨heq, hle⟩ | ⟨hle, hle'⟩
    · rw [← heq, List.take_append_of_le_length hle, List.take_append_of_le_length hle,
        List.drop_append_of_le_length hle, List.drop_append_of_le_length hle]
      exact .same _ (by simp [Forest.leaves]) rfl rfl
    · have hlate : Late w.length (.ofTokens ((w ++ x).take (extent (w ++ x))))
          (.ofTokens ((w ++ y).take (extent (w ++ y)))) := by
        refine ⟨?_, ?_, fun n => by rw [Forest.settled_ofTokens, Forest.settled_ofTokens]⟩
        · rw [Forest.leaves_ofTokens, List.length_take, List.length_append]
          omega
        · rw [Forest.leaves_ofTokens, List.length_take, List.length_append]
          omega
      exact .late ((hlate.node _).symm.node _).symm

/-! ## Members -/

theorem members.loop_eq (member : Parser Bool) (s : List Lexeme) :
    loop member s =
      if (member.run s).value then
        if (member.run s).rest.length < s.length then
          ⟨(), (member.run s).built ++ (loop member (member.run s).rest).built,
            (loop member (member.run s).rest).rest⟩
        else
          match (member.run s).rest with
          | [] => ⟨(), (member.run s).built, []⟩
          | t :: rest =>
            ⟨(), (member.run s).built ++
                .node (.skipped (.stray t.text)) (.leaf t .nil) (loop member rest).built,
              (loop member rest).rest⟩
      else ⟨(), (member.run s).built, (member.run s).rest⟩ := by
  rw [loop]
  split
  · split
    · rfl
    · split
      · rename_i h
        rw [h]
      · rename_i h
        rw [h]
  · rfl

theorem built_members (member : Parser Bool) (s : List Lexeme) :
    ∃ row, (members.loop member s).built = (member.run s).built ++ row := by
  rw [members.loop_eq]
  split
  · split
    · exact ⟨_, rfl⟩
    · split
      · exact ⟨.nil, (Forest.append_nil _).symm⟩
      · exact ⟨_, rfl⟩
  · exact ⟨.nil, (Forest.append_nil _).symm⟩

theorem agree_members {member : Parser Bool} (h : Steady member) (w x y : List Lexeme) :
    Agree w x y (members.loop member (w ++ x)) (members.loop member (w ++ y)) := by
  induction hn : w.length using Nat.strongRecOn generalizing w with
  | ind n ih =>
    subst hn
    cases h.agree w x y with
    | late hlate =>
      obtain ⟨row, hrow⟩ := built_members member (w ++ x)
      obtain ⟨row', hrow'⟩ := built_members member (w ++ y)
      apply Agree.late
      rw [hrow, hrow']
      exact hlate.append row row'
    | @same more row r hw hrun hrun' =>
      rw [members.loop_eq member (w ++ x), members.loop_eq member (w ++ y), hrun, hrun']
      have hlength : row.leaves.length + r.length = w.length := by rw [← hw, List.length_append]
      cases more with
      | false => exact .same _ hw rfl rfl
      | true =>
        simp only [if_true, List.length_append]
        by_cases hlt : r.length < w.length
        · rw [if_pos (by omega), if_pos (by omega)]
          have hr := (ih r.length hlt r rfl).behind row id
          rwa [hw] at hr
        · -- nothing is taken, so one lexeme is skipped on both sides
          rw [if_neg (by omega), if_neg (by omega)]
          obtain ⟨-, rfl⟩ : row.leaves = [] ∧ r = w := by
            have hnil : row.leaves = [] := List.length_eq_zero_iff.mp (by omega)
            exact ⟨hnil, by rwa [hnil] at hw⟩
          cases r with
          | nil => exact .late (.of_le_one (by simp) _ _)
          | cons t r =>
            have hr := (ih r.length (by simp) r rfl).behind
              (row ++ .node (.skipped (.stray t.text)) (.leaf t .nil) .nil) id
            rw [Forest.leaves_append, List.append_assoc] at hr
            simpa [Forest.leaves, Forest.append_assoc, hw] using hr

theorem steady_members {member : Parser Bool} (h : Steady member) : Steady (members member) where
  flat s := by
    show (members.loop member s).built.Each Shape.Flat
    fun_induction members.loop member s with
    | case1 s o hv hlt r ih => exact (Forest.each_append _ _ _).mpr ⟨h.flat s, ih⟩
    | case2 s o hv hlt hr => exact h.flat s
    | case3 s o hv hlt t rest hr r ih =>
      exact (Forest.each_append _ _ _).mpr ⟨h.flat s, rfl, trivial, ih⟩
    | case4 s o hv => exact h.flat s
  agree := agree_members h

theorem moves_construct {kind : NodeKind} {body : Step Bool} {P : List Lexeme → Prop}
    (h : Moves P body) : Moves P (construct kind body) := by
  intro s hs
  have hbody := h s hs
  cases hv : (run body s).value with
  | ok sound =>
    rw [run_construct_of_ok hv]
    simpa [Forest.leaves] using hbody
  | error e =>
    rw [run_construct_of_error hv]
    exact List.append_ne_nil_of_left_ne_nil hbody _

theorem steady_construct {kind : NodeKind} {body : Step Bool} (h : Steady body) :
    Steady (construct kind body) := by
  apply steady_bind
  · apply steady_within h
    rintro (e | sound) shape hshape row <;> obtain rfl := Option.some.inj hshape <;> trivial
  · rintro (e | sound)
    · exact steady_bind (steady_skip _ (scans_extent _)) fun _ => steady_pure false
    · exact steady_pure sound

end Parser

namespace Step

open SchemaLang.Parser

variable {α β : Type}

theorem steady_done (a : α) : Steady (pure a : Step α) := steady_pure (Except.ok a)

theorem steady_liftM {p : Parser α} (h : Steady p) : Steady (liftM p : Step α) :=
  steady_bind h fun a => steady_pure (Except.ok a)

theorem steady_stop (recovery : Recovery) (fault : Fault) :
    Steady (stop recovery fault : Step α) := steady_pure (Except.error (Stop.mk recovery fault))

theorem steady_then {p : Step α} {f : α → Step β} (hp : Steady p) (hf : ∀ a, Steady (f a)) :
    Steady (p >>= f : Step β) := by
  apply steady_bind hp
  rintro (e | a)
  · exact steady_pure (Except.error e)
  · exact hf a

theorem steady_require (kind : TokenKind) (recovery : Recovery) (fault : String → Fault) :
    Steady (require kind recovery fault) := by
  refine steady_choose (fun s => ?_) fun t u s s' => rfl
  split
  · exact steady_done ()
  · exact steady_stop _ _

theorem steady_punct (kind : TokenKind) (recovery : Recovery) (fault : String → Fault) :
    Steady (punct kind recovery fault) :=
  steady_then (steady_require kind recovery fault) fun _ => steady_liftM steady_bump

theorem steady_expect (kind : TokenKind) (node : NodeKind) (recovery : Recovery)
    (fault : String → Fault) : Steady (expect kind node recovery fault) :=
  steady_then (steady_require kind recovery fault) fun _ => steady_liftM (steady_take node)

theorem steady_closing (closer : TokenKind) (recovery : Recovery) (fault : String → Fault) :
    Steady (closing closer recovery fault) := by
  refine steady_choose (fun s => ?_) fun t u s s' => rfl
  split
  · exact steady_liftM steady_bump
  split
  · exact steady_stop _ _
  · exact steady_stop _ _

theorem steady_group {kind : NodeKind} {complete : α → Bool} {body : Step α} (h : Steady body) :
    Steady (group kind complete body) := by
  apply steady_within h
  rintro (e | a) shape hshape row
  · cases hshape
  · obtain rfl := Option.some.inj hshape
    trivial

theorem sepTail.loop_comma (item : Step α) {closer : TokenKind} (otherwise : String → Stop)
    {t : Lexeme} (s : List Lexeme) (hcloser : t.kind ≠ closer) (hcomma : t.kind = .comma) :
    loop item closer otherwise (t :: s) =
      match (Parser.run item s).value with
      | .error e => ⟨.error e, .leaf t (Parser.run item s).built, (Parser.run item s).rest⟩
      | .ok a =>
        ⟨(loop item closer otherwise (Parser.run item s).rest).value.map (a :: ·),
          .leaf t ((Parser.run item s).built ++
            (loop item closer otherwise (Parser.run item s).rest).built),
          (loop item closer otherwise (Parser.run item s).rest).rest⟩ := by
  cases hvalue : (Parser.run item s).value <;>
    simp only [loop, if_neg hcloser, if_pos hcomma, hvalue]

theorem built_sepTail (item : Step α) {closer : TokenKind} (otherwise : String → Stop)
    {t : Lexeme} (s : List Lexeme) (hcloser : t.kind ≠ closer) (hcomma : t.kind = .comma) :
    ∃ row, (sepTail.loop item closer otherwise (t :: s)).built =
      .leaf t .nil ++ (Parser.run item s).built ++ row := by
  rw [sepTail.loop_comma item otherwise s hcloser hcomma]
  split
  · exact ⟨.nil, (Forest.append_nil _).symm⟩
  · exact ⟨_, rfl⟩

theorem agree_sepTail {item : Step α} (h : Steady item) (closer : TokenKind)
    (otherwise : String → Stop) (w x y : List Lexeme) :
    Agree w x y (sepTail.loop item closer otherwise (w ++ x))
      (sepTail.loop item closer otherwise (w ++ y)) := by
  induction hn : w.length using Nat.strongRecOn generalizing w with
  | ind n ih =>
    subst hn
    cases w with
    | nil => exact .late (.of_le_one (by simp) _ _)
    | cons t w =>
      rw [List.cons_append, List.cons_append]
      by_cases hcloser : t.kind = closer
      · rw [sepTail.loop, sepTail.loop, if_pos hcloser, if_pos hcloser]
        exact .same (.leaf t .nil) rfl rfl rfl
      by_cases hcomma : t.kind = .comma
      case neg =>
        rw [sepTail.loop, sepTail.loop, if_neg hcloser, if_neg hcloser, if_neg hcomma,
          if_neg hcomma]
        exact .same .nil rfl rfl rfl
      cases h.agree w x y with
      | late hlate =>
        obtain ⟨row, hrow⟩ := built_sepTail item otherwise (w ++ x) hcloser hcomma
        obtain ⟨row', hrow'⟩ := built_sepTail item otherwise (w ++ y) hcloser hcomma
        apply Agree.late
        rw [hrow, hrow', List.length_cons, Nat.add_comm]
        exact (hlate.behind (.leaf t .nil)).append row row'
      | @same value row r hw hrun hrun' =>
        rw [sepTail.loop_comma item otherwise _ hcloser hcomma,
          sepTail.loop_comma item otherwise _ hcloser hcomma, hrun, hrun', ← hw]
        cases value with
        | error e => exact .same (.leaf t row) rfl rfl rfl
        | ok a =>
          have hlength : row.leaves.length + r.length = w.length := by rw [← hw, List.length_append]
          have hlt : r.length < (t :: w).length := by
            rw [List.length_cons]
            omega
          exact (ih r.length hlt r rfl).behind (.leaf t row) (Except.map (a :: ·))

theorem steady_sepTail {item : Step α} (h : Steady item) (closer : TokenKind)
    (otherwise : String → Stop) : Steady (sepTail item closer otherwise) where
  flat s := by
    show (sepTail.loop item closer otherwise s).built.Each Shape.Flat
    fun_induction sepTail.loop item closer otherwise s with
    | case1 => trivial
    | case2 t s hc => trivial
    | case3 t s hc hcomma o e he => exact h.flat s
    | case4 t s hc hcomma o a ha r ih => exact (Forest.each_append _ _ _).mpr ⟨h.flat s, ih⟩
    | case5 t s hc hcomma => trivial
  agree := agree_sepTail h closer otherwise

end Step

namespace Parser

theorem steady_statement {kind : NodeKind} {body : Step Unit} (h : Steady body) :
    Steady (statement kind body) :=
  steady_bind (steady_construct (Step.steady_then h fun _ => Step.steady_done true)) fun _ =>
    steady_pure ()

theorem steady_tooDeep : Steady tooDeep :=
  steady_bind (steady_skip _ (scans_balancedExtent 0)) fun _ => steady_pure false

end Parser

namespace Parse

open SchemaLang.Parser Step

/-! ## Values -/

theorem steady_literal (kind : NodeKind) : Steady (literal kind) :=
  steady_bind (steady_take kind) fun _ => steady_pure true

theorem steady_number : Steady number := by
  refine steady_choose (fun s => ?_) fun t u s s' => rfl
  split
  · exact steady_construct (steady_then (steady_liftM steady_bump) fun _ =>
      steady_then (steady_liftM steady_bump) fun _ =>
        steady_then (steady_punct _ _ _) fun _ => steady_done true)
  · exact steady_literal .intValue

theorem steady_elements {item : Step Bool} (h : Steady item) (closer : TokenKind)
    (otherwise : String → Stop) : Steady (elements item closer otherwise) :=
  steady_then h fun _ => steady_then (steady_sepTail h closer otherwise) fun _ => steady_done _

/-- An opener, and elements up to the closer unless it comes at once. -/
theorem steady_bracketed (kind : NodeKind) (closer : TokenKind) {item : Step Bool}
    (h : Steady item) (otherwise : String → Stop) :
    Steady (construct kind (between closer item otherwise)) := by
  refine steady_construct (steady_then (steady_liftM steady_bump) fun _ =>
    steady_choose (fun s => ?_) fun t u s s' => rfl)
  split
  · exact steady_then (steady_liftM steady_bump) fun _ => steady_done true
  · exact steady_elements h closer otherwise

theorem steady_list {value : Parser Bool} (h : Steady value) : Steady (list value) :=
  steady_bracketed .list .rbracket (steady_liftM h) _

theorem steady_mapEntry {value : Parser Bool} (h : Steady value) : Steady (mapEntry value) :=
  steady_group (steady_then (steady_liftM h) fun _ => steady_then (steady_punct _ _ _) fun _ =>
    steady_then (steady_liftM h) fun _ => steady_done _)

theorem steady_map {value : Parser Bool} (h : Steady value) : Steady (map value) :=
  steady_bracketed .map .rbrace (steady_mapEntry h) _

theorem steady_arguments {value : Parser Bool} (h : Steady value) : Steady (arguments value) := by
  refine steady_bracketed .arguments .rparen (steady_choose (fun s => ?_) fun t u s s' => rfl) _
  split
  · exact steady_stop _ _
  · exact steady_liftM h

theorem steady_construction {value : Parser Bool} (h : Steady value) :
    Steady (construction value) :=
  steady_wrap _ (steady_bind (steady_take _) fun _ => steady_arguments h)

theorem steady_notAValue : Steady notAValue := by
  refine steady_choose (fun s => steady_bind (steady_skip _ ?_) fun _ => steady_pure false)
    fun t u s s' => rfl
  rintro (_ | ⟨t, w⟩) x y
  · exact .inr ⟨Nat.zero_le _, Nat.zero_le _⟩
  · refine .inl ⟨rfl, ?_⟩
    rw [List.cons_append, List.length_cons]
    dsimp only
    split <;> omega

theorem steady_valueOf {list map construction : Parser Bool} (hl : Steady list) (hm : Steady map)
    (hc : Steady construction) : Steady (valueOf list map construction) := by
  refine steady_choose (fun s => ?_) fun t u s s' => rfl
  split
  · exact steady_notAValue
  split
  · exact steady_number
  · exact steady_literal _
  · exact steady_literal _
  · exact hl
  · exact hm
  · split
    · exact steady_literal _
    split
    · exact hc
    · exact steady_literal _
  · exact steady_notAValue

theorem steady_value (room : Nat) : Steady (value room) := by
  induction room with
  | zero => exact steady_valueOf steady_tooDeep steady_tooDeep steady_tooDeep
  | succ room ih =>
    exact steady_defer (steady_valueOf (steady_list ih) (steady_map ih) (steady_construction ih))

/-! ## Tags and statements -/

theorem steady_namedArgument {value : Parser Bool} (h : Steady value) :
    Steady (namedArgument value) :=
  steady_group (steady_then (steady_expect _ _ _ _) fun _ =>
    steady_then (steady_punct _ _ _) fun _ => steady_liftM h)

/-- The arguments of a tag. The sign that names them is the third lexeme ahead,
and both forms take the parenthesis. -/
theorem steady_tagArguments {value : Parser Bool} (h : Steady value)
    (otherwise : String → Stop) :
    Steady (Step.choose fun s =>
      if starts .lparen s then
        if isNamed s then do
          bump
          let _ ← elements (namedArgument value) .rparen otherwise
        else do
          let _ ← arguments value
      else pure () : Step Unit) := by
  have hnamed : Steady (do
      bump
      let _ ← elements (namedArgument value) .rparen otherwise : Step Unit) :=
    steady_then (steady_liftM steady_bump) fun _ =>
      steady_then (steady_elements (steady_namedArgument h) _ _) fun _ => steady_done ()
  have hplain : Steady (do let _ ← arguments value : Step Unit) :=
    steady_then (steady_liftM (steady_arguments h)) fun _ => steady_done ()
  refine steady_choose_far (fun s => ?_) (fun t u v s s' => rfl) fun t u => ?_
  · split
    · split
      · exact hnamed
      · exact hplain
    · exact steady_done ()
  · cases ht : starts .lparen [t] with
    | false =>
      left
      intro s s'
      have hstarts : ∀ s, starts .lparen (t :: s) = false := fun _ => ht
      simp only [hstarts, Bool.false_eq_true, if_false]
    | true =>
      right
      intro s
      have hstarts : starts .lparen (t :: u :: s) = true := ht
      simp only [hstarts, if_true]
      split
      · exact moves_then _ (moves_liftM moves_bump)
      · exact moves_then _ (moves_liftM (moves_construct (moves_then _ (moves_liftM moves_bump))))

theorem steady_tag {value : Parser Bool} (h : Steady value) : Steady (tag value) :=
  steady_statement (steady_then (steady_liftM steady_bump) fun _ =>
    steady_then (steady_expect _ _ _ _) fun _ =>
      steady_then (steady_tagArguments h _) fun _ => steady_closing _ _ _)

theorem steady_keyword : Steady keyword :=
  steady_then (steady_liftM (steady_take _)) fun _ => steady_done ()

theorem steady_follow (kind : TokenKind) (node : NodeKind) (wanted before : String) :
    Steady (follow kind node wanted before) := steady_expect _ _ _ _

theorem steady_followPunct (kind : TokenKind) (wanted before : String) :
    Steady (followPunct kind wanted before) := steady_punct _ _ _

theorem steady_terminator (before : String) : Steady (terminator before) := steady_closing _ _ _

theorem steady_packageStatement : Steady packageStatement :=
  steady_statement (steady_then steady_keyword fun _ => steady_then (steady_follow _ _ _ _)
    fun _ => steady_terminator _)

theorem steady_importStatement : Steady importStatement :=
  steady_statement (steady_then steady_keyword fun _ => steady_then (steady_follow _ _ _ _)
    fun _ => steady_terminator _)

theorem steady_settingStatement : Steady settingStatement := by
  refine steady_statement (steady_then steady_keyword fun _ =>
    steady_then (steady_follow _ _ _ _) fun _ => steady_then (steady_followPunct _ _ _) fun _ =>
      steady_then (steady_choose (fun s => ?_) fun t u s s' => rfl) fun _ => steady_terminator _)
  split
  · exact steady_liftM (steady_take _)
  · exact steady_stop _ _

theorem steady_enumValue : Steady enumValue :=
  steady_statement (steady_then (steady_liftM (steady_take _)) fun _ =>
    steady_then (steady_followPunct _ _ _) fun _ => steady_then (steady_follow _ _ _ _) fun _ =>
      steady_terminator _)

theorem steady_typeParameters (base : String) : Steady (typeParameters base) := by
  apply steady_then (steady_liftM steady_bump)
  intro _
  split
  · exact steady_stop _ _
  · refine steady_then (steady_follow _ _ _ _) fun _ =>
      steady_then (steady_sepTail (steady_follow _ _ _ _) _ _) fun _ => ?_
    split
    · exact steady_done _
    · exact steady_stop _ _

theorem steady_fieldType : Steady fieldType := by
  have hgroup : ∀ transient : Bool, Steady (group .fieldType (fun _ => true) do
      let base ← take .typeName
      Step.choose fun s =>
        if starts .langle s then typeParameters base
        else if transient then stop .statement (.transientScalar base)
        else pure base) := by
    intro transient
    refine steady_group (steady_then (steady_liftM (steady_take _)) fun _ =>
      steady_choose (fun s => ?_) fun t u s s' => rfl)
    split
    · exact steady_typeParameters _
    split
    · exact steady_stop _ _
    · exact steady_done _
  refine steady_choose (fun s => ?_) fun t u s s' => rfl
  dsimp only
  split
  · exact steady_then steady_keyword fun _ => steady_then (steady_require _ _ _) fun _ =>
      hgroup true
  · exact hgroup false

theorem steady_field : Steady field := by
  refine steady_statement (steady_then steady_fieldType fun _ =>
    steady_then (steady_follow _ _ _ _) fun _ =>
      steady_choose (fun s => ?_) fun t u s s' => rfl)
  split
  · exact steady_then (steady_liftM steady_bump) fun _ =>
      steady_then (steady_follow _ _ _ _) fun _ => steady_terminator _
  · exact steady_closing _ _ _

theorem steady_componentId : Steady componentId :=
  steady_statement (steady_then steady_keyword fun _ => steady_then (steady_followPunct _ _ _)
    fun _ => steady_then (steady_follow _ _ _ _) fun _ => steady_terminator _)

theorem steady_memberType (word : String) : Steady (memberType word) :=
  steady_then steady_keyword fun _ => steady_then (steady_require _ _ _) fun _ => steady_fieldType

theorem steady_dataMember : Steady dataMember :=
  steady_statement (steady_then (steady_memberType _) fun _ => steady_terminator _)

theorem steady_eventMember : Steady eventMember :=
  steady_statement (steady_then (steady_memberType _) fun _ => steady_then (steady_follow _ _ _ _)
    fun _ => steady_terminator _)

theorem steady_commandMember : Steady commandMember :=
  steady_statement (steady_then steady_keyword fun _ => steady_then (steady_follow _ _ _ _)
    fun _ => steady_then (steady_follow _ _ _ _) fun _ => steady_then (steady_followPunct _ _ _)
    fun _ => steady_then (steady_follow _ _ _ _) fun _ => steady_then (steady_followPunct _ _ _)
    fun _ => steady_terminator _)

/-! ## Members and files -/

theorem steady_present {p : Parser Unit} (h : Steady p) : Steady (present p) :=
  steady_bind h fun _ => steady_pure true

theorem steady_absent : Steady absent := steady_pure false

theorem steady_block (kind : NodeKind) (word : String) {member : Parser Bool}
    (h : Steady member) : Steady (block kind word member) :=
  steady_statement (steady_then steady_keyword fun _ => steady_then (steady_expect _ _ _ _)
    fun _ => steady_then (steady_punct _ _ _) fun _ =>
      steady_then (steady_liftM (steady_members h)) fun _ => steady_punct _ _ _)

theorem steady_discard_tooDeep : Steady (discard tooDeep) :=
  steady_bind steady_tooDeep fun _ => steady_pure ()

theorem steady_nested {p : Nat → Parser Unit} (h : ∀ room, Steady (p room)) (room : Nat) :
    Steady (nested p room) := by
  cases room with
  | zero => exact steady_discard_tooDeep
  | succ room => exact h room

theorem steady_enumMember (room : Nat) : Steady (enumMember room) := by
  refine steady_choose (fun s => ?_) fun t u s s' => rfl
  split
  · exact steady_present (steady_tag (steady_value room))
  split
  · exact steady_present steady_enumValue
  · exact steady_absent

theorem steady_enumDefinition (room : Nat) : Steady (enumDefinition room) :=
  steady_nested (fun room => steady_block _ _ (steady_enumMember room)) room

theorem steady_typeMember (room : Nat) {typeDefinition : Parser Unit} (h : Steady typeDefinition) :
    Steady (typeMember room typeDefinition) := by
  refine steady_choose (fun s => ?_) fun t u s s' => rfl
  split
  · exact steady_present steady_settingStatement
  split
  · exact steady_present (steady_tag (steady_value room))
  split
  · exact steady_present (steady_enumDefinition room)
  split
  · exact steady_present h
  split
  · exact steady_present steady_field
  · exact steady_absent

theorem steady_typeDefinition (room : Nat) : Steady (typeDefinition room) := by
  induction room with
  | zero => exact steady_discard_tooDeep
  | succ room ih => exact steady_defer (steady_block _ _ (steady_typeMember room ih))

theorem steady_componentMember (room : Nat) : Steady (componentMember room) := by
  refine steady_choose (fun s => ?_) fun t u s s' => rfl
  split
  · exact steady_present steady_settingStatement
  split
  · exact steady_present (steady_tag (steady_value room))
  split
  · exact steady_present steady_componentId
  split
  · exact steady_present steady_dataMember
  split
  · exact steady_present steady_eventMember
  split
  · exact steady_present steady_commandMember
  split
  · exact steady_present steady_field
  · exact steady_absent

theorem steady_componentDefinition (room : Nat) : Steady (componentDefinition room) :=
  steady_nested (fun room => steady_block _ _ (steady_componentMember room)) room

theorem steady_topLevel (room : Nat) : Steady (topLevel room) := by
  refine steady_choose (fun s => ?_) fun t u s s' => rfl
  split
  · exact steady_absent
  split
  · exact steady_present steady_packageStatement
  split
  · exact steady_present steady_importStatement
  split
  · exact steady_present steady_settingStatement
  split
  · exact steady_present (steady_enumDefinition room)
  split
  · exact steady_present (steady_typeDefinition room)
  split
  · exact steady_present (steady_componentDefinition room)
  split
  · exact steady_present (steady_tag (steady_value room))
  · exact steady_present (steady_skip _ (scans_extent _))

end Parse

theorem flat_parseWith (room : Nat) (s : List Lexeme) : (parseWith room s).Each Shape.Flat :=
  (Parser.steady_members (Parse.steady_topLevel room)).flat s

/-- Of two files that begin with the same lexemes, the nodes that are settled
in front of the end of these are the same. -/
theorem settled_parseWith (room : Nat) (w x y : List Lexeme) :
    (parseWith room (w ++ x)).settled w.length 0 =
      (parseWith room (w ++ y)).settled w.length 0 := by
  have hagree := (Parser.steady_members (Parse.steady_topLevel room)).agree w x y
  rw [parseWith, parseWith]
  cases hagree with
  | same _ hw h h' => rw [h, h']
  | late h => simpa using h.settled 0

end SchemaLang
