import Mathlib.Algebra.Ring.Nat
import Mathlib.Data.Set.Lattice
import Mathlib.Order.CompletePartialOrder
import Mathlib.Order.Interval.Set.Basic
import Mathlib.Order.Nat

/-! # Linear memory

A memory is a function from addresses to bytes. Copying and filling change one
range of addresses and leave the rest alone.
-/

namespace LinearMemory

variable {β σ : Type*} {m : ℕ → β} {a dst src n : ℕ}

/-- The addresses of a block of `n` bytes. -/
def block (base n : ℕ) : Set ℕ := Set.Ico base (base + n)

@[simp] theorem mem_block {base : ℕ} : a ∈ block base n ↔ base ≤ a ∧ a < base + n := Iff.rfl

theorem disjoint_block {k : ℕ} (h : a + n ≤ dst ∨ dst + k ≤ a) :
    Disjoint (block a n) (block dst k) := by
  rw [Set.disjoint_left]
  intro x hx hx'
  rw [mem_block] at hx hx'
  omega

/-- Copy `n` bytes; the source is read before anything is written. -/
def copy (m : ℕ → β) (dst src n : ℕ) : ℕ → β :=
  fun a => if dst ≤ a ∧ a < dst + n then m (src + (a - dst)) else m a

/-- Set `n` bytes to `v`. -/
def fill (m : ℕ → β) (dst n : ℕ) (v : β) : ℕ → β :=
  fun a => if dst ≤ a ∧ a < dst + n then v else m a

theorem copy_of_notMem (h : a ∉ block dst n) : copy m dst src n a = m a := if_neg h

theorem copy_add {k : ℕ} (hk : k < n) : copy m dst src n (dst + k) = m (src + k) := by
  rw [copy, if_pos ⟨by omega, by omega⟩, Nat.add_sub_cancel_left]

theorem fill_of_notMem {v : β} (h : a ∉ block dst n) : fill m dst n v a = m a := if_neg h

theorem fill_of_mem {v : β} (h : a ∈ block dst n) : fill m dst n v a = v := if_pos h

/-- The bytes `bs` lie at address `base`. -/
def Holds (m : ℕ → β) (base : ℕ) (bs : List β) : Prop :=
  ∀ j b, bs[j]? = some b → m (base + j) = b

theorem holds_append {base : ℕ} {bs cs : List β} :
    Holds m base (bs ++ cs) ↔ Holds m base bs ∧ Holds m (base + bs.length) cs := by
  constructor
  · intro h
    constructor
    · intro j b hj
      have hlt := (List.getElem?_eq_some_iff.mp hj).1
      exact h j b (by rw [List.getElem?_append_left hlt, hj])
    · intro j b hj
      rw [Nat.add_assoc]
      exact h (bs.length + j) b (by rw [List.getElem?_append_right (by omega)]; simpa using hj)
  · rintro ⟨hb, hc⟩ j b hj
    by_cases hlt : j < bs.length
    · exact hb j b (by rwa [List.getElem?_append_left hlt] at hj)
    · rw [List.getElem?_append_right (by omega)] at hj
      have h := hc _ b hj
      rwa [Nat.add_assoc, Nat.add_sub_cancel' (by omega)] at h

theorem map_range_of_holds {base : ℕ} {bs : List β} (h : Holds m base bs) :
    ((List.range bs.length).map fun j => m (base + j)) = bs := by
  apply List.ext_getElem
  · simp
  · intro j _ hj
    simpa using h j _ (List.getElem?_eq_getElem hj)

/-- In a sequence of records of equal size, record number `k` lies at its multiple. -/
theorem holds_flatMap {base w : ℕ} {l : List σ} {f : σ → List β} (hf : ∀ r ∈ l, (f r).length = w)
    (h : Holds m base (l.flatMap f)) {k : ℕ} {r : σ} (hk : l[k]? = some r) :
    Holds m (base + w * k) (f r) := by
  induction l generalizing base k with
  | nil => simp at hk
  | cons t l ih =>
    rw [List.forall_mem_cons] at hf
    rw [List.flatMap_cons, holds_append, hf.1] at h
    cases k with
    | zero => exact Option.some.inj hk ▸ h.1
    | succ k =>
      have htail := ih hf.2 h.2 hk
      rwa [Nat.add_assoc, Nat.add_comm w, ← Nat.mul_succ] at htail

end LinearMemory
