import Mathlib.Data.Set.Lattice
import Mathlib.Order.CompletePartialOrder

/-! # Sequences of local updates

A store assigns a value to every address. A sequence of updates that each stay
in a range of their own, and read only what none of them writes, leaves every
range as its own update made it.
-/

namespace Updates

variable {α β σ : Type*} {update : (α → β) → σ → (α → β)} {segs : List σ} {m : α → β} {a : α}

theorem foldl_of_notMem (range : σ → Set α)
    (hframe : ∀ s ∈ segs, ∀ m, ∀ a ∉ range s, update m s a = m a)
    (ha : ∀ s ∈ segs, a ∉ range s) : segs.foldl update m a = m a := by
  induction segs generalizing m with
  | nil => rfl
  | cons s segs ih =>
    rw [List.forall_mem_cons] at hframe ha
    rw [List.foldl_cons, ih hframe.2 ha.2]
    exact hframe.1 m a ha.1

/-- Each of a sequence of updates with disjoint ranges, reading only a set `R` that none of them
touches, leaves in its range what it would have written into the original store. -/
theorem foldl_of_mem (range : σ → Set α) (R : Set α) {s : σ}
    (hframe : ∀ s ∈ segs, ∀ m, ∀ a ∉ range s, update m s a = m a)
    (hread : ∀ s ∈ segs, ∀ m m', (∀ a ∈ R, m a = m' a) →
      ∀ a ∈ range s, update m s a = update m' s a)
    (hR : ∀ s ∈ segs, Disjoint (range s) R)
    (hd : segs.Pairwise fun s t => Disjoint (range s) (range t))
    (hs : s ∈ segs) (ha : a ∈ range s) : segs.foldl update m a = update m s a := by
  induction segs generalizing m with
  | nil => simp at hs
  | cons t segs ih =>
    rw [List.forall_mem_cons] at hframe hread hR
    obtain ⟨hd₁, hd₂⟩ := List.pairwise_cons.mp hd
    rw [List.foldl_cons]
    rcases List.mem_cons.mp hs with rfl | hs
    · exact foldl_of_notMem range hframe.2 fun u hu hau => Set.disjoint_left.mp (hd₁ u hu) ha hau
    · rw [ih hframe.2 hread.2 hR.2 hd₂ hs]
      -- what `s` reads is as it was before the update of `t`
      have hsame : ∀ b ∈ R, update m t b = m b := by
        intro b hb
        apply hframe.1
        intro hbt
        exact Set.disjoint_left.mp hR.1 hbt hb
      exact hread.2 s hs _ _ hsame a ha

end Updates
