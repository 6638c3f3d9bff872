import Mathlib.Algebra.Group.Basic
import Mathlib.Data.Fin.Basic
import Mathlib.Data.List.Basic
import Mathlib.Data.Nat.ModEq
import Mathlib.Logic.Function.Basic

/-! # Ring buffers with free-running counters

A ring of `n` cells is filled and emptied through counters that are only ever
increased and wrap around at `2 ^ w`. If `n` divides `2 ^ w` the cells between
two counters are a queue, whether or not a counter has wrapped in between.
-/

namespace RingBuffer

variable {β : Type*} {n w : ℕ} [NeZero n] {cells : Fin n → β} {c r e : BitVec w} {b : β} {i j k : ℕ}

/-- The cell a counter stands for. -/
def slot (n : ℕ) [NeZero n] (c : BitVec w) : Fin n := Fin.ofNat n c.toNat

/-- The `k` cells from a counter on. -/
def window (cells : Fin n → β) (c : BitVec w) (k : ℕ) : List β :=
  (List.range k).map fun i => cells (slot n (c + BitVec.ofNat w i))

/-- How many cells lie between two counters. -/
def held (r c : BitVec w) : ℕ := (c - r).toNat

/-- The cells between two counters. -/
def contents (cells : Fin n → β) (r c : BitVec w) : List β := window cells r (held r c)

theorem slot_add (hdvd : n ∣ 2 ^ w) : (slot n (c + BitVec.ofNat w i)).val = (c.toNat + i) % n := by
  rw [slot, Fin.val_ofNat, BitVec.toNat_add, BitVec.toNat_ofNat, Nat.add_mod_mod,
    Nat.mod_mod_of_dvd _ hdvd]

theorem slot_add_inj (hdvd : n ∣ 2 ^ w) (hi : i < n) (hj : j < n) :
    slot n (c + BitVec.ofNat w i) = slot n (c + BitVec.ofNat w j) ↔ i = j := by
  refine ⟨fun h => ?_, fun h => by rw [h]⟩
  rw [Fin.ext_iff, slot_add hdvd, slot_add hdvd] at h
  have hmod : i ≡ j [MOD n] := Nat.ModEq.add_left_cancel' _ h
  exact Nat.ModEq.eq_of_lt_of_lt hmod hi hj

@[simp] theorem length_window : (window cells c k).length = k := by simp [window]

theorem window_succ : window cells c (k + 1) = cells (slot n c) :: window cells (c + 1) k := by
  rw [window, List.range_succ_eq_map, List.map_cons, List.map_map, window]
  congr 1
  · simp
  · apply List.map_congr_left
    intro i _
    rw [Function.comp_apply, Nat.succ_eq_add_one, Nat.add_comm, BitVec.ofNat_add,
      ← BitVec.add_assoc]
    rfl

theorem window_add :
    window cells c (k + j) = window cells c k ++ window cells (c + BitVec.ofNat w k) j := by
  rw [window, List.range_add, List.map_append, List.map_map, window, window]
  congr 1
  apply List.map_congr_left
  intro i _
  rw [Function.comp_apply, BitVec.ofNat_add, BitVec.add_assoc]

theorem window_update (hdvd : n ∣ 2 ^ w) (hkj : k ≤ j) (hj : j < n) :
    window (Function.update cells (slot n (c + BitVec.ofNat w j)) b) c k = window cells c k := by
  apply List.map_congr_left
  intro i hi
  rw [List.mem_range] at hi
  apply Function.update_of_ne
  rw [ne_eq, slot_add_inj hdvd (by omega) hj]
  omega

theorem window_push (hdvd : n ∣ 2 ^ w) (hk : k < n) :
    window (Function.update cells (slot n (c + BitVec.ofNat w k)) b) c (k + 1) =
      window cells c k ++ [b] := by
  rw [window_add, window_update hdvd le_rfl hk]
  simp [window]

theorem held_lt : held r c < 2 ^ w := (c - r).isLt

@[simp] theorem held_self : held c c = 0 := by simp [held]

theorem add_held : r + BitVec.ofNat w (held r c) = c := by
  rw [held, BitVec.ofNat_toNat, BitVec.setWidth_eq, BitVec.add_comm, BitVec.sub_add_cancel]

theorem held_add_ofNat (hk : k < 2 ^ w) : held r (r + BitVec.ofNat w k) = k := by
  rw [held, BitVec.add_comm, BitVec.add_sub_cancel, BitVec.toNat_ofNat, Nat.mod_eq_of_lt hk]

theorem held_eq_iff (hk : k < 2 ^ w) : held r c = k ↔ c = r + BitVec.ofNat w k := by
  constructor
  · rintro rfl
    exact add_held.symm
  · rintro rfl
    exact held_add_ofNat hk

theorem held_eq_zero_iff : held r c = 0 ↔ r = c := by
  rw [held_eq_iff (Nat.two_pow_pos w)]
  simp [eq_comm]

theorem held_add_one (h : held r c + 1 < 2 ^ w) : held r (c + 1) = held r c + 1 := by
  rw [held_eq_iff h, BitVec.ofNat_add, ← BitVec.add_assoc, add_held]
  rfl

theorem held_sub_one (h : 0 < held r c) : held r (c - 1) = held r c - 1 := by
  have hlt := held_lt (r := r) (c := c)
  rw [held_eq_iff (by omega)]
  have hc : r + BitVec.ofNat w (held r c - 1) + 1 = c := by
    rw [BitVec.add_assoc, show (1 : BitVec w) = BitVec.ofNat w 1 from rfl, ← BitVec.ofNat_add,
      Nat.sub_add_cancel h, add_held]
  rw [← hc, BitVec.add_sub_cancel, hc]

theorem held_advance (h : 0 < held r c) : held (r + 1) c = held r c - 1 := by
  have hlt := held_lt (r := r) (c := c)
  rw [held_eq_iff (by omega)]
  calc c = r + BitVec.ofNat w (1 + (held r c - 1)) := by
        rw [Nat.add_sub_cancel' h, add_held]
    _ = r + 1 + BitVec.ofNat w (held r c - 1) := by
        rw [BitVec.ofNat_add, ← BitVec.add_assoc]
        rfl

@[simp] theorem length_contents : (contents cells r c).length = held r c := length_window

@[simp] theorem contents_self : contents cells c c = [] := by simp [contents, window]

theorem contents_eq_nil_iff : contents cells r c = [] ↔ r = c := by
  rw [← List.length_eq_zero_iff, length_contents, held_eq_zero_iff]

/-- Storing at the later counter and advancing it puts a value at the end of the queue. -/
theorem contents_push (hdvd : n ∣ 2 ^ w) (hn : n < 2 ^ w) (h : held r c < n) :
    contents (Function.update cells (slot n c) b) r (c + 1) = contents cells r c ++ [b] := by
  have hpush : window (Function.update cells (slot n (r + BitVec.ofNat w (held r c))) b) r
      (held r c + 1) = window cells r (held r c) ++ [b] := window_push hdvd h
  rw [add_held] at hpush
  rw [contents, held_add_one (by omega), hpush, contents]

/-- Advancing the earlier counter takes the first value off the queue. -/
theorem contents_pop (h : 0 < held r c) :
    contents cells r c = cells (slot n r) :: contents cells (r + 1) c := by
  obtain ⟨k, hk⟩ := Nat.exists_eq_add_of_lt h
  rw [contents, contents, held_advance h, show held r c = k + 1 by omega, window_succ]
  rfl

theorem contents_concat (h : 0 < held r c) :
    contents cells r c = contents cells r (c - 1) ++ [cells (slot n (c - 1))] := by
  obtain ⟨k, hk⟩ := Nat.exists_eq_add_of_lt h
  have hsub := held_sub_one h
  have hc : r + BitVec.ofNat w k = c - 1 := by
    rw [← add_held (r := r) (c := c - 1), hsub, show held r c - 1 = k by omega]
  rw [contents, contents, hsub, show held r c = k + 1 by omega, window_add, hc]
  simp [window]

theorem contents_dropLast (h : 0 < held r c) :
    contents cells r (c - 1) = (contents cells r c).dropLast := by
  rw [contents_concat h, List.dropLast_concat]

theorem contents_update (hdvd : n ∣ 2 ^ w) (hle : held r c ≤ held r e) (h : held r e < n) :
    contents (Function.update cells (slot n e) b) r c = contents cells r c := by
  have hupdate : window (Function.update cells (slot n (r + BitVec.ofNat w (held r e))) b) r
      (held r c) = window cells r (held r c) := window_update hdvd hle h
  rwa [add_held] at hupdate

theorem held_add (h : held r c ≤ held r e) : held r e = held r c + held c e := by
  obtain ⟨k, hk⟩ := Nat.exists_eq_add_of_le h
  have hlt := held_lt (r := r) (c := e)
  have he : held c e = k := by
    rw [held_eq_iff (by omega), ← add_held (r := r) (c := e), hk, BitVec.ofNat_add,
      ← BitVec.add_assoc, add_held]
  rw [hk, he]

/-- A counter between two others splits the queue. -/
theorem contents_append (h : held r c ≤ held r e) :
    contents cells r e = contents cells r c ++ contents cells c e := by
  rw [contents, held_add h, window_add, add_held, contents, contents]

end RingBuffer
