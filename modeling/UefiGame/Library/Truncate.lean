import Mathlib.Algebra.Order.Floor.Ring
import Mathlib.Tactic.Linarith

/-! # Truncation to an integer

Casting a number to an integer type drops its fraction. For numbers that are not
negative that is the floor, and two steps of less than one in the same direction
that both leave a cell of the integer grid enter the same neighbouring cell.
-/

namespace Truncate

variable {K : Type*} [Field K] [LinearOrder K] [FloorRing K]

/-- The integer part of a number, rounded toward zero. -/
def truncate (a : K) : ℤ := if 0 ≤ a then ⌊a⌋ else ⌈a⌉

variable {a c d : K}

theorem truncate_of_nonneg (h : 0 ≤ a) : truncate a = ⌊a⌋ := if_pos h

theorem le_of_truncate_pos (h : 0 < truncate a) : (truncate a : K) ≤ a ∧ a < truncate a + 1 := by
  unfold truncate at *
  split_ifs at * with ha
  · exact ⟨Int.floor_le a, Int.lt_floor_add_one a⟩
  · have hceil : ⌈a⌉ ≤ 0 := Int.ceil_le.mpr (by push_cast; exact le_of_lt (not_le.mp ha))
    omega

variable [IsStrictOrderedRing K]

theorem nonneg_of_truncate_pos (h : 0 < truncate a) (hd : -1 ≤ d) : 0 ≤ a + d := by
  have hone : (1 : K) ≤ truncate a := by exact_mod_cast h
  have hle := (le_of_truncate_pos h).1
  linarith

theorem truncate_add_mem (h : 0 < truncate a) (hd : -1 ≤ d) (hd' : d ≤ 1) :
    truncate a - 1 ≤ truncate (a + d) ∧ truncate (a + d) ≤ truncate a + 1 := by
  obtain ⟨hle, hlt⟩ := le_of_truncate_pos h
  rw [truncate_of_nonneg (nonneg_of_truncate_pos h hd)]
  constructor
  · rw [Int.le_floor]
    push_cast
    linarith
  · rw [← Int.lt_add_one_iff, Int.floor_lt]
    push_cast
    linarith

/-- If a step leaves the cell, a step in its direction that is longer, but not longer than one,
ends in the same cell. -/
theorem truncate_add_eq_of_ne (h : 0 < truncate a) (hc : 1 ≤ c) (hcd : |c * d| ≤ 1)
    (hne : truncate (a + d) ≠ truncate a) : truncate (a + c * d) = truncate (a + d) := by
  obtain ⟨hle, hlt⟩ := le_of_truncate_pos h
  obtain ⟨hlo, hhi⟩ := abs_le.mp hcd
  have hefloor := truncate_of_nonneg (nonneg_of_truncate_pos h hlo)
  have he := truncate_add_mem h hlo hhi
  rcases le_or_gt 0 d with hd0 | hd0
  · have hdc : d ≤ c * d := le_mul_of_one_le_left hd0 hc
    have hd := truncate_add_mem h (by linarith) (hdc.trans hhi)
    have hdfloor := truncate_of_nonneg (nonneg_of_truncate_pos h (d := d) (by linarith))
    have hge : truncate a ≤ truncate (a + d) := by
      rw [hdfloor, Int.le_floor]
      linarith
    have hmono : truncate (a + d) ≤ truncate (a + c * d) := by
      rw [hdfloor, hefloor]
      exact Int.floor_le_floor (by linarith)
    omega
  · have hdc : c * d ≤ d := mul_le_of_one_le_left hd0.le hc
    have hd := truncate_add_mem h (hlo.trans hdc) (by linarith)
    have hdfloor := truncate_of_nonneg (nonneg_of_truncate_pos h (hlo.trans hdc))
    have hge : truncate (a + d) ≤ truncate a := by
      rw [hdfloor, ← Int.lt_add_one_iff, Int.floor_lt]
      push_cast
      linarith
    have hmono : truncate (a + c * d) ≤ truncate (a + d) := by
      rw [hdfloor, hefloor]
      exact Int.floor_le_floor (by linarith)
    omega

/-- A step that is taken if the cell twice as far ahead is open leads into the cell the step ends
in, if that one is open. -/
theorem truncate_step (p : ℤ → Prop) [DecidablePred p] (h : 0 < truncate a) (hd : |2 * d| ≤ 1) :
    truncate (if p (truncate (a + 2 * d)) then a + d else a) =
      if p (truncate (a + d)) then truncate (a + d) else truncate a := by
  by_cases hne : truncate (a + d) = truncate a
  · rw [hne, ite_self, apply_ite truncate, hne, ite_self]
  · rw [truncate_add_eq_of_ne h one_le_two hd hne, apply_ite truncate]

end Truncate
