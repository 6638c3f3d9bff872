import Mathlib.Data.List.Nodup
import Mathlib.Data.List.ProdSigma

/-! # Loops of indexed writes

A loop that stores one value per pass is a fold of `List.set`. When the passes
write pairwise distinct indices, every pass is the last one to its index, so
the final list is known entry by entry and every other entry is untouched.
-/

namespace WriteLoop

variable {ι α : Type*} {index : ι → ℕ} {value : ι → α} {is : List ι} {xs : List α}

/-- Store `value i` at `index i` for each pass `i`, in order. -/
def writeAll (index : ι → ℕ) (value : ι → α) (is : List ι) (xs : List α) : List α :=
  is.foldl (fun xs i => xs.set (index i) (value i)) xs

@[simp] theorem writeAll_nil : writeAll index value [] xs = xs := rfl

@[simp] theorem writeAll_cons (i : ι) :
    writeAll index value (i :: is) xs = writeAll index value is (xs.set (index i) (value i)) := rfl

@[simp] theorem length_writeAll : (writeAll index value is xs).length = xs.length := by
  induction is generalizing xs with
  | nil => rfl
  | cons i is ih => rw [writeAll_cons, ih, List.length_set]

theorem getElem?_writeAll_of_not_mem {j : ℕ} (h : ∀ i ∈ is, index i ≠ j) :
    (writeAll index value is xs)[j]? = xs[j]? := by
  induction is generalizing xs with
  | nil => rfl
  | cons i is ih =>
    rw [writeAll_cons, ih fun k hk => h k (List.mem_cons_of_mem _ hk)]
    exact List.getElem?_set_ne (h i List.mem_cons_self)

/-- The last pass to store at an index leaves its value there. -/
theorem getElem?_writeAll_of_last {r : ι → ι → Prop} (value : ι → α) (xs : List α)
    (hr : is.Pairwise r) {i : ι} (hi : i ∈ is) (hlast : ∀ k ∈ is, r i k → index k ≠ index i)
    (hlt : index i < xs.length) : (writeAll index value is xs)[index i]? = some (value i) := by
  induction is generalizing xs with
  | nil => simp at hi
  | cons k is ih =>
    rw [List.pairwise_cons] at hr
    rw [writeAll_cons]
    by_cases hk : i ∈ is
    · exact ih _ hr.2 hk (fun m hm => hlast m (List.mem_cons_of_mem _ hm)) (by simpa using hlt)
    · obtain rfl := (List.mem_cons.mp hi).resolve_right hk
      rw [getElem?_writeAll_of_not_mem, List.getElem?_set_self hlt]
      exact fun m hm => hlast m (List.mem_cons_of_mem _ hm) (hr.1 m hm)

theorem getElem?_writeAll_of_mem (value : ι → α) (xs : List α) (hn : (is.map index).Nodup)
    {i : ι} (hi : i ∈ is) (hlt : index i < xs.length) :
    (writeAll index value is xs)[index i]? = some (value i) :=
  getElem?_writeAll_of_last value xs (List.pairwise_map.mp hn) hi (fun _ _ h => h.symm) hlt

/-- A loop whose passes write every index once leaves exactly the written values. -/
theorem getElem?_writeAll_map (hn : (is.map index).Nodup)
    (hlt : ∀ i ∈ is, index i < xs.length) {f : ℕ → α} (hf : ∀ i ∈ is, value i = f (index i))
    (hall : ∀ j < xs.length, ∃ i ∈ is, index i = j) {j : ℕ} (hj : j < xs.length) :
    (writeAll index value is xs)[j]? = some (f j) := by
  obtain ⟨i, hi, rfl⟩ := hall j hj
  rw [getElem?_writeAll_of_mem value xs hn hi (hlt i hi), hf i hi]

end WriteLoop
