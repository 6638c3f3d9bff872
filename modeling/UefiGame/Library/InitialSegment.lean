import Mathlib.Data.List.Basic
import Mathlib.Data.List.Count

/-! # Predicates true on an initial segment

A predicate holds exactly on an initial segment of a list when no position
where it fails comes before one where it holds. Equivalently, every position
where it holds is smaller than the number of such positions.
-/

namespace InitialSegment

variable {α : Type*} {p : α → Bool} {l : List α}

/-- No failing position precedes a position where the predicate holds. -/
def Leads (p : α → Bool) (l : List α) : Prop := l.Pairwise fun a b => p b = true → p a = true

instance : Decidable (Leads p l) := inferInstanceAs (Decidable (List.Pairwise _ _))

theorem leads_of_split {s t : List α} (hs : ∀ a ∈ s, p a = true) (ht : ∀ b ∈ t, p b = false) :
    Leads p (s ++ t) := by
  rw [Leads, List.pairwise_append]
  refine ⟨?_, ?_, fun a ha _ _ _ => hs a ha⟩
  · exact List.pairwise_of_forall_mem_list fun a ha _ _ _ => hs a ha
  · apply List.pairwise_of_forall_mem_list
    intro a _ b hb h
    simp [ht b hb] at h

theorem leads_cons_iff {a : α} :
    Leads p (a :: l) ↔ (p a = true ∨ ∀ b ∈ l, p b = false) ∧ Leads p l := by
  rw [Leads, List.pairwise_cons]
  apply and_congr_left
  intro _
  constructor
  · intro h
    cases ha : p a with
    | true => exact Or.inl rfl
    | false =>
      right
      intro b hb
      rw [Bool.eq_false_iff]
      intro hp
      simp [h b hb hp] at ha
  · rintro (h | h) b hb hp
    · exact h
    · simp [h b hb] at hp

theorem exists_split (h : Leads p l) :
    ∃ s t, l = s ++ t ∧ (∀ a ∈ s, p a = true) ∧ ∀ b ∈ t, p b = false := by
  induction l with
  | nil => exact ⟨[], [], rfl, by simp, by simp⟩
  | cons a l ih =>
    obtain ⟨ha | ha, hl⟩ := leads_cons_iff.mp h
    · obtain ⟨s, t, rfl, hs, ht⟩ := ih hl
      exact ⟨a :: s, t, rfl, List.forall_mem_cons.mpr ⟨ha, hs⟩, ht⟩
    · cases hp : p a with
      | true => exact ⟨[a], l, rfl, by simpa using hp, ha⟩
      | false => exact ⟨[], a :: l, rfl, by simp, List.forall_mem_cons.mpr ⟨hp, ha⟩⟩

/-- The positions where the predicate holds are the first `countP` ones just when it leads. -/
theorem leads_iff_lt_countP :
    Leads p l ↔ ∀ i a, l[i]? = some a → p a = true → i < l.countP p := by
  constructor
  · intro h i a hi ha
    obtain ⟨s, t, rfl, hs, ht⟩ := exists_split h
    have hcount : (s ++ t).countP p = s.length := by
      rw [List.countP_append, List.countP_eq_length.mpr hs,
        List.countP_eq_zero.mpr fun b hb => by simp [ht b hb], Nat.add_zero]
    rw [hcount]
    by_contra hge
    rw [List.getElem?_append_right (Nat.le_of_not_lt hge)] at hi
    simp [ht a (List.mem_of_getElem? hi)] at ha
  · intro h
    have htail : (l.drop (l.countP p)).countP p = 0 := by
      rw [List.countP_eq_zero]
      intro a ha hp
      obtain ⟨i, hi⟩ := List.mem_iff_getElem?.mp ha
      rw [List.getElem?_drop] at hi
      exact absurd (h _ a hi hp) (by omega)
    have hfull : (l.take (l.countP p)).countP p = (l.take (l.countP p)).length := by
      have hsum : l.countP p = (l.take (l.countP p)).countP p + (l.drop (l.countP p)).countP p := by
        rw [← List.countP_append, List.take_append_drop]
      rw [List.length_take_of_le List.countP_le_length]
      omega
    rw [← List.take_append_drop (l.countP p) l]
    exact leads_of_split (List.countP_eq_length.mp hfull) fun b hb =>
      Bool.eq_false_iff.mpr (List.countP_eq_zero.mp htail b hb)

end InitialSegment
