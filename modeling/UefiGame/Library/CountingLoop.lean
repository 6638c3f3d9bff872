import Mathlib.Data.Int.Notation
import Mathlib.Data.List.Nodup
import Mathlib.Logic.Function.Iterate

/-! # Loops that count up to a bound

A loop `for (i = a; i < b; i++)` compares and counts in signed machine
integers. The counter is below the bound whenever it is increased, so it never
overflows, and the loop makes one pass for each integer from `a` up to the bound.
-/

namespace CountingLoop

variable {w : ℕ} {σ : Type*} {next : σ → σ} {a b : BitVec w} {s : σ}

theorem toInt_add_one (h : a.slt b) : (a + 1).toInt = a.toInt + 1 := by
  rw [BitVec.slt_iff_toInt_lt] at h
  have hlo := BitVec.le_two_mul_toInt (x := a)
  have hhi := BitVec.two_mul_toInt_lt (x := b)
  have hadd : a + 1 = BitVec.ofInt w (a.toInt + 1) := by
    rw [BitVec.ofInt_add, BitVec.ofInt_toInt]
    rfl
  rw [hadd, BitVec.toInt_ofInt, Int.bmod_eq_of_le_mul_two]
  · push_cast
    omega
  · push_cast
    omega

/-- The passes of the loop, each with its counter and the state it begins in. -/
def passes (next : σ → σ) (b a : BitVec w) (s : σ) : List (BitVec w × σ) :=
  if a.slt b then (a, s) :: passes next b (a + 1) (next s) else []
termination_by (b.toInt - a.toInt).toNat
decreasing_by
  rename_i h
  have hnext := toInt_add_one h
  rw [BitVec.slt_iff_toInt_lt] at h
  omega

theorem passes_of_slt (h : a.slt b) :
    passes next b a s = (a, s) :: passes next b (a + 1) (next s) := by
  rw [passes, if_pos h]

theorem passes_of_not_slt (h : ¬ a.slt b) : passes next b a s = [] := by
  rw [passes, if_neg h]

theorem length_passes : (passes next b a s).length = (b.toInt - a.toInt).toNat := by
  fun_induction passes next b a s with
  | case1 a s h ih =>
    rw [toInt_add_one h] at ih
    rw [BitVec.slt_iff_toInt_lt] at h
    rw [List.length_cons, ih]
    omega
  | case2 a s h =>
    rw [BitVec.slt_iff_toInt_lt] at h
    rw [List.length_nil]
    omega

theorem getElem_passes {k : ℕ} (hk : k < (passes next b a s).length) :
    (passes next b a s)[k].1.toInt = a.toInt + k ∧ (passes next b a s)[k].2 = next^[k] s := by
  induction k generalizing a s with
  | zero =>
    by_cases h : a.slt b
    · simp only [passes_of_slt h]
      simp
    · simp only [passes_of_not_slt h] at hk
      simp at hk
  | succ k ih =>
    by_cases h : a.slt b
    · simp only [passes_of_slt h, List.length_cons, Nat.add_lt_add_iff_right] at hk ⊢
      obtain ⟨hcount, hstate⟩ := ih hk
      rw [List.getElem_cons_succ, hcount, hstate, toInt_add_one h]
      refine ⟨?_, rfl⟩
      push_cast
      omega
    · simp only [passes_of_not_slt h] at hk
      simp at hk

theorem counters_eq : (passes next b a s).map (fun p => p.1.toInt) =
    (List.range (b.toInt - a.toInt).toNat).map fun k : ℕ => a.toInt + k := by
  apply List.ext_getElem
  · rw [List.length_map, List.length_map, List.length_range, length_passes]
  · intro k hk _
    rw [List.length_map] at hk
    rw [List.getElem_map, List.getElem_map, List.getElem_range, (getElem_passes hk).1]

theorem nodup_counters : ((passes next b a s).map fun p => p.1.toInt).Nodup := by
  rw [counters_eq]
  refine List.nodup_range.map ?_
  intro k k' h
  exact Int.ofNat_inj.mp (Int.add_left_cancel h)

theorem mem_counters {r : ℤ} :
    r ∈ (passes next b a s).map (fun p => p.1.toInt) ↔ a.toInt ≤ r ∧ r < b.toInt := by
  rw [counters_eq, List.mem_map]
  constructor
  · rintro ⟨k, hk, rfl⟩
    rw [List.mem_range] at hk
    omega
  · rintro ⟨hle, hlt⟩
    exact ⟨(r - a.toInt).toNat, List.mem_range.mpr (by omega), by omega⟩

theorem state_of_mem {p : BitVec w × σ} (hp : p ∈ passes next b a s) :
    p.2 = next^[(p.1.toInt - a.toInt).toNat] s := by
  obtain ⟨k, hk, rfl⟩ := List.getElem_of_mem hp
  obtain ⟨hcount, hstate⟩ := getElem_passes hk
  rw [hstate, hcount]
  congr
  omega

/-! ## Passes that may fail -/

/-- An invariant under which no pass fails carries a loop to its end. -/
theorem exists_foldlM_range {f : σ → ℕ → Option σ} {I : ℕ → σ → Prop} {n : ℕ} (hs : I 0 s)
    (hpass : ∀ k < n, ∀ t, I k t → ∃ u, f t k = some u ∧ I (k + 1) u) :
    ∃ t, (List.range n).foldlM f s = some t ∧ I n t := by
  induction n with
  | zero => exact ⟨s, rfl, hs⟩
  | succ n ih =>
    obtain ⟨t, ht, hI⟩ := ih fun k hk => hpass k (Nat.lt_succ_of_lt hk)
    obtain ⟨u, hu, hI'⟩ := hpass n (Nat.lt_succ_self n) t hI
    refine ⟨u, ?_, hI'⟩
    rw [List.range_succ, List.foldlM_append, ht, Option.bind_eq_bind, Option.bind_some,
      List.foldlM_cons, hu]
    rfl

end CountingLoop
