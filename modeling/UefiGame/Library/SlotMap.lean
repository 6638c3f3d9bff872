import Mathlib.Logic.Function.Basic
import Mathlib.Tactic.SplitIfs

/-! # Slots that own resources

Slots hold resources of a pool, or none, and marks tell which resources are in
use. The marks are right when each resource in use is held by exactly one slot.
Filling an empty slot with a resource that is not in use keeps them right, and so
does emptying any slots together with the marks of what they held.
-/

namespace SlotMap

variable {σ β : Type*} {null b : β} {pool : β → Prop} {slot slot' : σ → β} {used used' : β → Prop}
  {p q : σ}

/-- The marks are right for the slots. -/
structure Consistent (null : β) (pool : β → Prop) (slot : σ → β) (used : β → Prop) : Prop where
  inj : ∀ p q, slot p ≠ null → slot p = slot q → p = q
  mem_pool : ∀ p, slot p ≠ null → pool (slot p)
  used_iff : ∀ b, pool b → (used b ↔ ∃ p, slot p = b)

theorem Consistent.congr (h : Consistent null pool slot used) (hslot : ∀ p, slot' p = slot p)
    (hused : ∀ b, pool b → (used' b ↔ used b)) : Consistent null pool slot' used' := by
  obtain rfl : slot' = slot := funext hslot
  exact ⟨h.inj, h.mem_pool, fun b hb => (hused b hb).trans (h.used_iff b hb)⟩

theorem Consistent.used_slot (h : Consistent null pool slot used) (hp : slot p ≠ null) :
    used (slot p) :=
  (h.used_iff _ (h.mem_pool p hp)).mpr ⟨p, rfl⟩

theorem Consistent.ne (h : Consistent null pool slot used) (hp : slot p ≠ null) (hne : p ≠ q) :
    slot p ≠ slot q := fun heq => hne (h.inj p q hp heq)

/-- A slot that was empty gets a resource that was not in use. -/
theorem Consistent.fill [DecidableEq σ] (h : Consistent null pool slot used) (hnull : ¬ pool null)
    (hp : slot p = null) (hb : pool b) (hfree : ¬ used b)
    (hslot : ∀ q, slot' q = if q = p then b else slot q)
    (hused : ∀ c, pool c → (used' c ↔ c = b ∨ used c)) : Consistent null pool slot' used' where
  inj q r hq hqr := by
    have hnot : ∀ q, slot q ≠ b := fun q hq => hfree ((h.used_iff b hb).mpr ⟨q, hq⟩)
    rw [hslot] at hq
    rw [hslot, hslot] at hqr
    split_ifs at hq hqr with hqp hrp
    · exact hqp.trans hrp.symm
    · exact absurd hqr.symm (hnot r)
    · exact absurd hqr (hnot q)
    · exact h.inj q r hq hqr
  mem_pool q hq := by
    rw [hslot] at hq ⊢
    split_ifs at hq ⊢
    · exact hb
    · exact h.mem_pool q hq
  used_iff c hc := by
    rw [hused c hc, h.used_iff c hc]
    constructor
    · rintro (rfl | ⟨q, rfl⟩)
      · exact ⟨p, by rw [hslot, if_pos rfl]⟩
      · refine ⟨q, ?_⟩
        rw [hslot, if_neg]
        rintro rfl
        rw [hp] at hc
        exact hnull hc
    · rintro ⟨q, hq⟩
      rw [hslot] at hq
      split_ifs at hq
      · exact Or.inl hq.symm
      · exact Or.inr ⟨q, hq⟩

/-- Some slots are emptied, and what they held is marked as free. -/
theorem Consistent.clear (h : Consistent null pool slot used) (hnull : ¬ pool null) (P : σ → Prop)
    [DecidablePred P] (hslot : ∀ q, slot' q = if P q then null else slot q)
    (hused : ∀ b, pool b → (used' b ↔ used b ∧ ∀ q, P q → slot q ≠ b)) :
    Consistent null pool slot' used' where
  inj q r hq hqr := by
    rw [hslot] at hq
    rw [hslot, hslot] at hqr
    split_ifs at hq hqr with hqP hrP
    · exact absurd rfl hq
    · exact absurd rfl hq
    · exact absurd hqr hq
    · exact h.inj q r hq hqr
  mem_pool q hq := by
    rw [hslot] at hq ⊢
    split_ifs at hq ⊢
    · exact absurd rfl hq
    · exact h.mem_pool q hq
  used_iff b hb := by
    rw [hused b hb, h.used_iff b hb]
    constructor
    · rintro ⟨⟨q, rfl⟩, hall⟩
      refine ⟨q, ?_⟩
      rw [hslot, if_neg]
      exact fun hP => hall q hP rfl
    · rintro ⟨q, hq⟩
      rw [hslot] at hq
      split_ifs at hq with hP
      · rw [← hq] at hb
        exact absurd hb hnull
      · refine ⟨⟨q, hq⟩, fun r hr hrb => ?_⟩
        have hqnull : slot q ≠ null := by
          rintro hnil
          rw [hq] at hnil
          rw [hnil] at hb
          exact hnull hb
        obtain rfl := h.inj q r hqnull (hq.trans hrb.symm)
        exact hP hr

end SlotMap
