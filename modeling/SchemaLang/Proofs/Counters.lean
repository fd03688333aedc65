import Mathlib.Algebra.Group.Nat.Defs
import SchemaLang.Text.Position

/-!
# Counting in machine words

A position is found by reading the characters in front of it with two counters, one for
lines and one for columns. Neither is ever greater than the number of characters that were
read, so counters in machine words come to the position of every offset of a text that is
not too long for them.
-/

set_option autoImplicit false

namespace SchemaLang

namespace Position

theorem line_after_le (cs : List Char) : (after cs).line ≤ 1 + cs.length :=
  Nat.add_le_add_left List.count_le_length 1

theorem column_after_le (cs : List Char) : (after cs).column ≤ 1 + cs.length := by
  have hrun := (List.takeWhile_prefix (l := cs.reverse) (· != '\n')).length_le
  rw [List.length_reverse] at hrun
  exact Nat.add_le_add_left hrun 1

end Position

structure Counters where
  line : UInt32
  column : UInt32

namespace Counters

open Text Position

variable {k : Counters} {front : List Char}

def position (k : Counters) : Position := ⟨k.line.toNat, k.column.toNat⟩

def step (k : Counters) (c : Char) : Counters :=
  if c = '\n' then ⟨k.line + 1, 1⟩ else ⟨k.line, k.column + 1⟩

/-- Counts the characters that stand at `start` and behind it, up to the first one that
does not start before `offset`. -/
def run (offset : Nat) : Nat → Counters → List Char → Counters
  | _, k, [] => k
  | start, k, c :: cs =>
    if offset ≤ start then k else run offset (start + c.utf8Size) (k.step c) cs

def upTo (source : String) (offset : Nat) : Counters := run offset 0 ⟨1, 1⟩ source.toList

theorem toNat_add_one {n : UInt32} (h : n.toNat + 1 < 2 ^ 32) : (n + 1).toNat = n.toNat + 1 := by
  rw [UInt32.toNat_add, UInt32.toNat_one, Nat.mod_eq_of_lt h]

/-- One more character is counted as it should be while there is room for it. -/
theorem position_step (h : k.position = after front) (hroom : front.length + 1 < 2 ^ 32 - 1)
    (c : Char) : (k.step c).position = after (front ++ [c]) := by
  have hline : k.line.toNat = (after front).line := congrArg Position.line h
  have hcolumn : k.column.toNat = (after front).column := congrArg Position.column h
  have hlines := line_after_le front
  have hcolumns := column_after_le front
  by_cases hc : c = '\n'
  · rw [step, if_pos hc, hc, after_append_newline, ← hline, ← toNat_add_one (by omega)]
    rfl
  · rw [step, if_neg hc, after_append_of_ne _ _ hc, ← hline, ← hcolumn, ← toNat_add_one (by omega)]
    rfl

/-- Counting on from the characters in `front` gives the position behind all that are read. -/
theorem position_run (offset start : Nat) {cs : List Char} (h : k.position = after front)
    (hroom : (front ++ cs).length < 2 ^ 32 - 1) :
    (run offset start k cs).position = after (front ++ charsBefore (offset - start) cs) := by
  induction cs generalizing start k front with
  | nil => rw [run, charsBefore, List.append_nil, h]
  | cons c cs ih =>
    rw [run, charsBefore]
    by_cases hstop : offset ≤ start
    · rw [if_pos hstop, if_pos (by omega), List.append_nil, h]
    · -- the next character is one of those that there is room for
      rw [List.append_cons] at hroom
      have hfits : front.length + 1 < 2 ^ 32 - 1 := by
        rw [List.length_append, List.length_append, List.length_singleton] at hroom
        omega
      have hstep := position_step h hfits c
      rw [if_neg hstop, if_neg (by omega), ih _ hstep hroom, Nat.sub_sub,
        List.append_assoc, List.singleton_append]

theorem position_upTo {source : String} (hroom : source.length < 2 ^ 32 - 1) (offset : Nat) :
    (upTo source offset).position = ofOffset source offset := by
  have hstart : position ⟨1, 1⟩ = after [] := rfl
  rw [upTo, position_run offset 0 hstart (by rwa [List.nil_append, String.length_toList])]
  rfl

end Counters

end SchemaLang
