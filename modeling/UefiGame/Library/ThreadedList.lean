import Mathlib.Logic.Function.Basic

/-! # Lists threaded through memory

The members of a list hold the link to the next member themselves, and a pointer
names the first one. A list survives writes outside its members, grows at its
front and shrinks there.
-/

namespace ThreadedList

variable {α : Type*} {next next' : α → α} {null p x : α} {xs : List α}

/-- The pointer names the first member, each member the next one, and the last names none. -/
def Threaded (next : α → α) (null : α) : α → List α → Prop
  | p, [] => p = null
  | p, x :: xs => p = x ∧ x ≠ null ∧ Threaded next null (next x) xs

theorem Threaded.congr (h : Threaded next null p xs) (hnext : ∀ x ∈ xs, next' x = next x) :
    Threaded next' null p xs := by
  induction xs generalizing p with
  | nil => exact h
  | cons x xs ih =>
    obtain ⟨rfl, hnull, htail⟩ := h
    rw [List.forall_mem_cons] at hnext
    refine ⟨rfl, hnull, ?_⟩
    rw [hnext.1]
    exact ih htail hnext.2

theorem Threaded.eq_nil_iff (h : Threaded next null p xs) : p = null ↔ xs = [] := by
  cases xs with
  | nil => exact ⟨fun _ => rfl, fun _ => h⟩
  | cons x xs =>
    obtain ⟨rfl, hnull, -⟩ := h
    simpa using hnull

theorem Threaded.pop (h : Threaded next null p xs) (hp : p ≠ null) :
    ∃ ys, xs = p :: ys ∧ Threaded next null (next p) ys := by
  cases xs with
  | nil => exact absurd h hp
  | cons x xs =>
    obtain ⟨rfl, -, htail⟩ := h
    exact ⟨xs, rfl, htail⟩

theorem Threaded.push (h : Threaded next null p xs) (hx : x ≠ null) (hlink : next' x = p)
    (hnext : ∀ y ∈ xs, next' y = next y) : Threaded next' null x (x :: xs) := by
  refine ⟨rfl, hx, ?_⟩
  rw [hlink]
  exact h.congr hnext

end ThreadedList
