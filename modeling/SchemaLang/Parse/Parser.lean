import SchemaLang.Lexeme
import SchemaLang.Syntax.Fault
import SchemaLang.Syntax.Forest

/-!
# Parsers that lose nothing

A parser reads lexemes from the front and builds a row of nodes over them.
What it built and what it left are together what it was given: the law is
part of the type, so it holds of every production without further proof and
bounds every loop.

A parser never fails. A step may stop with a fault; what was built before
the stop is kept, and the construct around it is closed as incomplete.
-/

set_option autoImplicit false

namespace SchemaLang

abbrev Row := Forest Shape Lexeme

structure Parsed (α : Type) where
  value : α
  built : Row
  rest : List Lexeme

structure Parser (α : Type) where
  run : List Lexeme → Parsed α
  lossless : ∀ s, (run s).built.leaves ++ (run s).rest = s

namespace Parser

variable {α β : Type}

@[ext] theorem ext {p q : Parser α} (h : ∀ s, p.run s = q.run s) : p = q := by
  cases p
  cases q
  simp only [mk.injEq]
  exact funext h

theorem rest_length_le (p : Parser α) (s : List Lexeme) :
    (p.run s).rest.length ≤ s.length := by
  have h := congrArg List.length (p.lossless s)
  rw [List.length_append] at h
  omega

instance : Monad Parser where
  pure a := ⟨fun s => ⟨a, .nil, s⟩, fun _ => rfl⟩
  bind p f :=
    ⟨fun s =>
      let o := p.run s
      let r := (f o.value).run o.rest
      ⟨r.value, o.built ++ r.built, r.rest⟩,
     fun s => by simp [List.append_assoc, (f _).lossless, p.lossless]⟩

@[simp] theorem run_pure (a : α) (s : List Lexeme) :
    (pure a : Parser α).run s = ⟨a, .nil, s⟩ := rfl

@[simp] theorem run_bind (p : Parser α) (f : α → Parser β) (s : List Lexeme) :
    (p >>= f).run s =
      ⟨((f (p.run s).value).run (p.run s).rest).value,
        (p.run s).built ++ ((f (p.run s).value).run (p.run s).rest).built,
        ((f (p.run s).value).run (p.run s).rest).rest⟩ := rfl

instance : LawfulMonad Parser :=
  LawfulMonad.mk' _
    (fun p => by ext s; simp [Functor.map])
    (fun a f => by ext s; simp)
    (fun p f g => by ext s; simp [Forest.append_assoc])

def choose (f : List Lexeme → Parser α) : Parser α :=
  ⟨fun s => (f s).run s, fun s => (f s).lossless s⟩

@[simp] theorem run_choose (f : List Lexeme → Parser α) (s : List Lexeme) :
    (choose f).run s = (f s).run s := rfl

/-- A parser that is set up only when it runs, for productions that nest. -/
def defer (p : Unit → Parser α) : Parser α := ⟨fun s => (p ()).run s, fun s => (p ()).lossless s⟩

@[simp] theorem run_defer (p : Unit → Parser α) (s : List Lexeme) :
    (defer p).run s = (p ()).run s := rfl

def bump : Parser Unit where
  run
    | [] => ⟨(), .nil, []⟩
    | t :: s => ⟨(), .leaf t .nil, s⟩
  lossless s := by cases s <;> rfl

@[simp] theorem run_bump_cons (t : Lexeme) (s : List Lexeme) :
    bump.run (t :: s) = ⟨(), .leaf t .nil, s⟩ := rfl

def take (kind : NodeKind) : Parser String where
  run
    | [] => ⟨"", .nil, []⟩
    | t :: s => ⟨t.text, .node (.construct kind true) (.leaf t .nil) .nil, s⟩
  lossless s := by cases s <;> rfl

@[simp] theorem run_take_cons (kind : NodeKind) (t : Lexeme) (s : List Lexeme) :
    (take kind).run (t :: s) = ⟨t.text, .node (.construct kind true) (.leaf t .nil) .nil, s⟩ := rfl

def within (label : α → Option Shape) (p : Parser α) : Parser α where
  run s :=
    let o := p.run s
    match label o.value with
    | some shape => ⟨o.value, .node shape o.built .nil, o.rest⟩
    | none => o
  lossless s := by
    have h := p.lossless s
    dsimp only
    split <;> simpa [Forest.leaves] using h

def skip (fault : Fault) (extent : List Lexeme → Nat) : Parser Unit where
  run s := ⟨(), .node (.skipped fault) (.ofTokens (s.take (extent s))) .nil, s.drop (extent s)⟩
  lossless s := by simp [Forest.leaves]

@[simp] theorem run_skip (fault : Fault) (extent : List Lexeme → Nat) (s : List Lexeme) :
    (skip fault extent).run s =
      ⟨(), .node (.skipped fault) (.ofTokens (s.take (extent s))) .nil, s.drop (extent s)⟩ := rfl

def wrap (kind : NodeKind) (p : Parser α) : Parser α :=
  p.within fun _ => some (.construct kind true)

/-- Runs `member` while it applies. A member that takes nothing has one lexeme
skipped for it, so the loop always moves on. -/
def members.loop (member : Parser Bool) (s : List Lexeme) : Parsed Unit :=
  let o := member.run s
  if o.value then
    if _h : o.rest.length < s.length then
      let r := members.loop member o.rest
      ⟨(), o.built ++ r.built, r.rest⟩
    else
      match _h : o.rest with
      | [] => ⟨(), o.built, []⟩
      | t :: rest =>
        let r := members.loop member rest
        ⟨(), o.built ++ .node (.skipped (.stray t.text)) (.leaf t .nil) r.built, r.rest⟩
  else ⟨(), o.built, o.rest⟩
termination_by s.length
decreasing_by
  · exact _h
  · have h := member.rest_length_le s
    rw [show (member.run s).rest = t :: rest from _h, List.length_cons] at h
    omega

theorem members.loop_lossless (member : Parser Bool) (s : List Lexeme) :
    (loop member s).built.leaves ++ (loop member s).rest = s := by
  fun_induction loop member s with
  | case1 s o hv hlt r ih =>
    simp only [Forest.leaves_append, List.append_assoc]
    rw [ih]
    exact member.lossless s
  | case2 s o hv hlt hr =>
    have h := member.lossless s
    rw [show (member.run s).rest = [] from hr] at h
    exact h
  | case3 s o hv hlt t rest hr r ih =>
    have h := member.lossless s
    rw [show (member.run s).rest = t :: rest from hr] at h
    simp only [Forest.leaves_append, Forest.leaves, List.append_assoc, List.cons_append,
      List.nil_append]
    rw [ih]
    exact h
  | case4 s o hv => exact member.lossless s

def members (member : Parser Bool) : Parser Unit :=
  ⟨members.loop member, members.loop_lossless member⟩

end Parser

end SchemaLang
