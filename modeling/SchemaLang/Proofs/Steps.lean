import SchemaLang.Parse.Definitions

/-!
# What a step does when it runs

Laws for running steps one after the other. A step that went through hands
its answer and what it left to the next one; a step that stopped ends the run
and keeps what was built.
-/

set_option autoImplicit false

namespace SchemaLang

namespace Step

variable {α β : Type}

@[simp] theorem run_pure (a : α) (s : List Lexeme) :
    Parser.run (pure a : Step α) s = ⟨.ok a, .nil, s⟩ := rfl

@[simp] theorem run_liftM (p : Parser α) (s : List Lexeme) :
    Parser.run (liftM p : Step α) s = ⟨.ok (p.run s).value, (p.run s).built, (p.run s).rest⟩ := by
  show (⟨.ok (p.run s).value, (p.run s).built ++ .nil, (p.run s).rest⟩ : Parsed (Except Stop α)) = _
  rw [Forest.append_nil]

@[simp] theorem run_stop (recovery : Recovery) (fault : Fault) (s : List Lexeme) :
    Parser.run (stop recovery fault : Step α) s = ⟨.error ⟨recovery, fault⟩, .nil, s⟩ := rfl

@[simp] theorem run_choose (f : List Lexeme → Step α) (s : List Lexeme) :
    Parser.run (choose f) s = Parser.run (f s) s := rfl

theorem run_bind_of_ok {p : Step α} (f : α → Step β) {s : List Lexeme} {a : α}
    (h : (Parser.run p s).value = .ok a) :
    Parser.run (p >>= f : Step β) s =
      ⟨(Parser.run (f a) (Parser.run p s).rest).value,
        (Parser.run p s).built ++ (Parser.run (f a) (Parser.run p s).rest).built,
        (Parser.run (f a) (Parser.run p s).rest).rest⟩ := by
  show Parser.run (p.run >>= ExceptT.bindCont f) s = _
  have hp : (p.run.run s).value = .ok a := h
  rw [Parser.run_bind, hp]
  rfl

theorem run_bind_of_error {p : Step α} (f : α → Step β) {s : List Lexeme} {e : Stop}
    (h : (Parser.run p s).value = .error e) :
    Parser.run (p >>= f : Step β) s =
      ⟨.error e, (Parser.run p s).built, (Parser.run p s).rest⟩ := by
  show Parser.run (p.run >>= ExceptT.bindCont f) s = _
  have hp : (p.run.run s).value = .error e := h
  rw [Parser.run_bind, hp]
  show (⟨.error e, (p.run.run s).built ++ .nil, (p.run.run s).rest⟩ : Parsed (Except Stop β)) = _
  rw [Forest.append_nil]
  rfl

theorem run_bind_eq {p : Step α} {f : α → Step β} {s r rest : List Lexeme} {a : α}
    {v : Except Stop β} {front behind : Row} (hp : Parser.run p s = ⟨.ok a, front, r⟩)
    (hf : Parser.run (f a) r = ⟨v, behind, rest⟩) :
    Parser.run (p >>= f : Step β) s = ⟨v, front ++ behind, rest⟩ := by
  rw [run_bind_of_ok f (by rw [hp]), hp, hf]

theorem run_bump_then (f : Unit → Step β) (u : Lexeme) (s : List Lexeme) :
    Parser.run ((liftM Parser.bump : Step Unit) >>= f : Step β) (u :: s) =
      ⟨(Parser.run (f ()) s).value, .leaf u (Parser.run (f ()) s).built,
        (Parser.run (f ()) s).rest⟩ := by
  rw [run_bind_of_ok f (a := ()) (by rw [run_liftM]), run_liftM]
  rfl

theorem exists_of_bind {p : Step α} {f : α → Step β} {s : List Lexeme} {b : β}
    (h : (Parser.run (p >>= f : Step β) s).value = .ok b) :
    ∃ a, (Parser.run p s).value = .ok a ∧
      (Parser.run (f a) (Parser.run p s).rest).value = .ok b ∧
      (Parser.run (p >>= f : Step β) s).built =
        (Parser.run p s).built ++ (Parser.run (f a) (Parser.run p s).rest).built := by
  cases hvalue : (Parser.run p s).value with
  | error e =>
    rw [run_bind_of_error f hvalue] at h
    cases h
  | ok a =>
    rw [run_bind_of_ok f hvalue] at h ⊢
    exact ⟨a, rfl, h, rfl⟩

/-- Of two steps, what the first one took stands in front. -/
theorem built_bind (p : Step α) (f : α → Step β) (s : List Lexeme) :
    ∃ row, (Parser.run (p >>= f : Step β) s).built = (Parser.run p s).built ++ row := by
  cases h : (Parser.run p s).value with
  | error e => exact ⟨.nil, by rw [run_bind_of_error f h, Forest.append_nil]⟩
  | ok a => exact ⟨_, by rw [run_bind_of_ok f h]⟩

theorem run_require_of_starts {kind : TokenKind} {s : List Lexeme} (recovery : Recovery)
    (fault : String → Fault) (h : starts kind s = true) :
    Parser.run (require kind recovery fault) s = ⟨.ok (), .nil, s⟩ := by
  rw [require, run_choose, if_pos h, run_pure]

theorem run_require_of_not_starts {kind : TokenKind} {s : List Lexeme} (recovery : Recovery)
    (fault : String → Fault) (h : starts kind s = false) :
    Parser.run (require kind recovery fault) s = ⟨.error ⟨recovery, fault (found s)⟩, .nil, s⟩ := by
  rw [require, run_choose, if_neg (by simp [h]), run_stop]

theorem run_punct {kind : TokenKind} {t : Lexeme} (ht : t.kind = kind) (recovery : Recovery)
    (fault : String → Fault) (s : List Lexeme) :
    Parser.run (punct kind recovery fault) (t :: s) = ⟨.ok (), .leaf t .nil, s⟩ := by
  have h := run_require_of_starts recovery fault (s := t :: s) (by simpa [starts] using ht)
  rw [punct, run_bind_of_ok _ (by rw [h]), h, run_liftM]
  rfl

theorem run_expect {kind : TokenKind} {t : Lexeme} (ht : t.kind = kind) (node : NodeKind)
    (recovery : Recovery) (fault : String → Fault) (s : List Lexeme) :
    Parser.run (expect kind node recovery fault) (t :: s) =
      ⟨.ok t.text, .node (.construct node true) (.leaf t .nil) .nil, s⟩ := by
  have h := run_require_of_starts recovery fault (s := t :: s) (by simpa [starts] using ht)
  rw [expect, run_bind_of_ok _ (by rw [h]), h, run_liftM]
  rfl

theorem run_expect_of_not_starts {kind : TokenKind} {s : List Lexeme} (node : NodeKind)
    (recovery : Recovery) (fault : String → Fault) (h : starts kind s = false) :
    Parser.run (expect kind node recovery fault) s =
      ⟨.error ⟨recovery, fault (found s)⟩, .nil, s⟩ := by
  have hrequire := run_require_of_not_starts recovery fault h
  rw [expect, run_bind_of_error _ (by rw [hrequire]), hrequire]

theorem run_closing {closer : TokenKind} {t : Lexeme} (ht : t.kind = closer) (recovery : Recovery)
    (fault : String → Fault) (s : List Lexeme) :
    Parser.run (closing closer recovery fault) (t :: s) = ⟨.ok (), .leaf t .nil, s⟩ := by
  rw [closing, Step.run_choose, if_pos (by simpa [starts] using ht), run_liftM]
  rfl

theorem run_group (kind : NodeKind) (complete : α → Bool) (body : Step α) (s : List Lexeme) :
    Parser.run (group kind complete body) s =
      match (Parser.run body s).value with
      | .ok a => ⟨.ok a, .node (.construct kind (complete a)) (Parser.run body s).built .nil,
          (Parser.run body s).rest⟩
      | .error _ => Parser.run body s := by
  cases h : (Parser.run body s).value <;> simp only [group, Parser.within, h]

end Step

namespace Parser

theorem run_construct_of_ok {kind : NodeKind} {body : Step Bool} {s : List Lexeme} {sound : Bool}
    (h : (run body s).value = .ok sound) :
    (construct kind body).run s =
      ⟨sound, .node (.construct kind sound) (run body s).built .nil, (run body s).rest⟩ := by
  simp only [construct, run_bind, within, h, run_pure, Forest.node_append, Forest.nil_append]

theorem run_construct_of_error {kind : NodeKind} {body : Step Bool} {s : List Lexeme} {e : Stop}
    (h : (run body s).value = .error e) :
    (construct kind body).run s =
      ⟨false, .node (.construct kind false) (run body s).built
        (.node (.skipped e.fault)
          (.ofTokens ((run body s).rest.take (e.recovery.extent (run body s).rest))) .nil),
        (run body s).rest.drop (e.recovery.extent (run body s).rest)⟩ := by
  simp only [construct, run_bind, within, h, run_pure, run_skip, Forest.node_append,
    Forest.nil_append]

theorem run_statement_of_ok {kind : NodeKind} {body : Step Unit} {s : List Lexeme}
    (h : (run body s).value = .ok ()) :
    (statement kind body).run s =
      ⟨(), .node (.construct kind true) (run body s).built .nil, (run body s).rest⟩ := by
  have hb := Step.run_bind_of_ok (fun _ => (pure true : Step Bool)) h
  simp only [Step.run_pure, Forest.append_nil] at hb
  have hv : (run (body >>= fun _ => pure true : Step Bool) s).value = .ok true := by rw [hb]
  simp only [statement, run_bind, run_construct_of_ok hv, run_pure, hb, Forest.append_nil]

theorem run_statement_eq {kind : NodeKind} {body : Step Unit} {s rest : List Lexeme} {row : Row}
    (h : run body s = ⟨.ok (), row, rest⟩) :
    (statement kind body).run s = ⟨(), .node (.construct kind true) row .nil, rest⟩ := by
  rw [run_statement_of_ok (by rw [h]), h]

theorem run_statement_of_error {kind : NodeKind} {body : Step Unit} {s : List Lexeme} {e : Stop}
    (h : (run body s).value = .error e) :
    (statement kind body).run s =
      ⟨(), .node (.construct kind false) (run body s).built
        (.node (.skipped e.fault)
          (.ofTokens ((run body s).rest.take (e.recovery.extent (run body s).rest))) .nil),
        (run body s).rest.drop (e.recovery.extent (run body s).rest)⟩ := by
  have hb := Step.run_bind_of_error (fun _ => (pure true : Step Bool)) h
  have hv : (run (body >>= fun _ => pure true : Step Bool) s).value = .error e := by rw [hb]
  simp only [statement, run_bind, run_construct_of_error hv, run_pure, hb, Forest.append_nil]

end Parser

namespace Parse

open SchemaLang.Parser Step

/-- Items up to the closer, or nothing, behind an opener that is next: what a
list, a map and an argument list are read by. -/
def between (closer : TokenKind) (item : Step Bool) (otherwise : String → Stop) : Step Bool := do
  bump
  Step.choose fun s =>
    if starts closer s then do
      bump
      pure true
    else elements item closer otherwise

end Parse

end SchemaLang
