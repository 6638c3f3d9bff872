import Mathlib.Data.List.Basic

/-! # Runs of a machine that halts

A machine consumes its inputs one at a time until it halts; inputs after that
are not looked at. Invariants and simulations need to be checked for one step
of a machine that has not halted yet.
-/

namespace Run

variable {σ τ ι : Type*} {step : σ → ι → σ} {halted : σ → Bool}

/-- The state after the inputs, the machine stopping as soon as it has halted. -/
def run (step : σ → ι → σ) (halted : σ → Bool) : σ → List ι → σ
  | s, [] => s
  | s, k :: ks => if halted s then s else run step halted (step s k) ks

/-- The inputs read before the machine halts. -/
def consumed (step : σ → ι → σ) (halted : σ → Bool) : σ → List ι → List ι
  | _, [] => []
  | s, k :: ks => if halted s then [] else k :: consumed step halted (step s k) ks

/-- The steps taken before the machine halts, each with the state it is taken in. -/
def passes (step : σ → ι → σ) (halted : σ → Bool) : σ → List ι → List (σ × ι)
  | _, [] => []
  | s, k :: ks => if halted s then [] else (s, k) :: passes step halted (step s k) ks

@[simp] theorem run_nil (s : σ) : run step halted s [] = s := rfl

theorem run_cons_of_not_halted {s : σ} (h : halted s = false) (k : ι) (ks : List ι) :
    run step halted s (k :: ks) = run step halted (step s k) ks := by
  simp [run, h]

theorem run_of_halted {s : σ} (h : halted s = true) (ks : List ι) : run step halted s ks = s := by
  cases ks with
  | nil => rfl
  | cons k ks => simp [run, h]

theorem consumed_cons_of_not_halted {s : σ} (h : halted s = false) (k : ι) (ks : List ι) :
    consumed step halted s (k :: ks) = k :: consumed step halted (step s k) ks := by
  simp [consumed, h]

theorem consumed_of_halted {s : σ} (h : halted s = true) (ks : List ι) :
    consumed step halted s ks = [] := by
  cases ks with
  | nil => rfl
  | cons k ks => simp [consumed, h]

@[simp] theorem passes_nil (s : σ) : passes step halted s [] = [] := rfl

theorem passes_cons_of_not_halted {s : σ} (h : halted s = false) (k : ι) (ks : List ι) :
    passes step halted s (k :: ks) = (s, k) :: passes step halted (step s k) ks := by
  simp [passes, h]

theorem passes_of_halted {s : σ} (h : halted s = true) (ks : List ι) :
    passes step halted s ks = [] := by
  cases ks with
  | nil => rfl
  | cons k ks => simp [passes, h]

/-- A property kept by every step taken before halting holds at the end of every run. -/
theorem invariant {I : σ → Prop} (hstep : ∀ s k, halted s = false → I s → I (step s k))
    {s : σ} (hs : I s) (ks : List ι) : I (run step halted s ks) := by
  induction ks generalizing s with
  | nil => exact hs
  | cons k ks ih =>
    cases h : halted s with
    | true => rwa [run_of_halted h]
    | false => rw [run_cons_of_not_halted h]; exact ih (hstep s k h hs)

theorem run_append (s : σ) (ks ks' : List ι) :
    run step halted s (ks ++ ks') = run step halted (run step halted s ks) ks' := by
  induction ks generalizing s with
  | nil => rfl
  | cons k ks ih =>
    cases h : halted s with
    | true => rw [run_of_halted h, run_of_halted h, run_of_halted h]
    | false => rw [List.cons_append, run_cons_of_not_halted h, run_cons_of_not_halted h, ih]

theorem not_halted_of_mem_passes {s : σ} {ks : List ι} {p : σ × ι}
    (hp : p ∈ passes step halted s ks) : halted p.1 = false := by
  induction ks generalizing s with
  | nil => cases hp
  | cons k ks ih =>
    cases h : halted s with
    | true =>
      rw [passes_of_halted h] at hp
      cases hp
    | false =>
      rw [passes_cons_of_not_halted h] at hp
      rcases List.mem_cons.mp hp with rfl | hp
      · exact h
      · exact ih hp

theorem mem_passes_append {s : σ} {ks : List ι} (h : halted (run step halted s ks) = false)
    (k : ι) :
    (run step halted s ks, k) ∈ passes step halted s (ks ++ [k]) := by
  induction ks generalizing s with
  | nil =>
    rw [run_nil] at h ⊢
    rw [List.nil_append, passes_cons_of_not_halted h]
    exact List.mem_cons_self
  | cons k' ks ih =>
    cases hs : halted s with
    | true =>
      rw [run_of_halted hs, hs] at h
      cases h
    | false =>
      rw [run_cons_of_not_halted hs] at h ⊢
      rw [List.cons_append, passes_cons_of_not_halted hs]
      exact List.mem_cons_of_mem _ (ih h)

theorem forall_passes {I : σ → Prop} {P : σ → ι → Prop}
    (hstep : ∀ s k, halted s = false → I s → P s k ∧ I (step s k))
    {s : σ} (hs : I s) (ks : List ι) : ∀ p ∈ passes step halted s ks, P p.1 p.2 := by
  induction ks generalizing s with
  | nil => simp
  | cons k ks ih =>
    cases h : halted s with
    | true => simp [passes_of_halted h]
    | false =>
      obtain ⟨hP, hnext⟩ := hstep s k h hs
      rw [passes_cons_of_not_halted h, List.forall_mem_cons]
      exact ⟨hP, ih hnext⟩

/-- A property kept by every step taken under a condition holds in all states of a run whose steps
meet the condition. -/
theorem invariant_of_passes {I : σ → Prop} {C : σ → ι → Prop}
    (hstep : ∀ s k, halted s = false → C s k → I s → I (step s k)) {s : σ} (hs : I s) (ks : List ι)
    (hC : ∀ p ∈ passes step halted s ks, C p.1 p.2) :
    (∀ p ∈ passes step halted s ks, I p.1) ∧ I (run step halted s ks) := by
  induction ks generalizing s with
  | nil => exact ⟨by simp, hs⟩
  | cons k ks ih =>
    cases h : halted s with
    | true =>
      rw [passes_of_halted h, run_of_halted h]
      exact ⟨by simp, hs⟩
    | false =>
      rw [passes_cons_of_not_halted h, List.forall_mem_cons] at hC
      obtain ⟨hhead, htail⟩ := hC
      obtain ⟨hpasses, hend⟩ := ih (hstep s k h hhead hs) htail
      rw [passes_cons_of_not_halted h, run_cons_of_not_halted h, List.forall_mem_cons]
      exact ⟨⟨hs, hpasses⟩, hend⟩

/-- Along a run two properties of steps agree if they agree under an invariant that the first of
them keeps. -/
theorem forall_passes_iff {I : σ → Prop} {P Q : σ → ι → Prop}
    (hiff : ∀ s k, halted s = false → I s → (P s k ↔ Q s k))
    (hstep : ∀ s k, halted s = false → I s → P s k → I (step s k))
    {s : σ} (hs : I s) (ks : List ι) :
    (∀ p ∈ passes step halted s ks, P p.1 p.2) ↔ ∀ p ∈ passes step halted s ks, Q p.1 p.2 := by
  induction ks generalizing s with
  | nil => simp
  | cons k ks ih =>
    cases h : halted s with
    | true => simp [passes_of_halted h]
    | false =>
      rw [passes_cons_of_not_halted h, List.forall_mem_cons, List.forall_mem_cons,
        ← hiff s k h hs]
      apply and_congr_right
      intro hP
      exact ih (hstep s k h hs hP)

/-- Two machines whose steps keep a relation that makes them halt together stay related. -/
theorem simulation {step' : τ → ι → τ} {halted' : τ → Bool} {R : σ → τ → Prop}
    (hhalt : ∀ s t, R s t → halted s = halted' t)
    (hstep : ∀ s t k, halted s = false → R s t → R (step s k) (step' t k))
    {s : σ} {t : τ} (hR : R s t) (ks : List ι) :
    R (run step halted s ks) (run step' halted' t ks) ∧
      consumed step halted s ks = consumed step' halted' t ks := by
  induction ks generalizing s t with
  | nil => exact ⟨hR, rfl⟩
  | cons k ks ih =>
    have ht := hhalt s t hR
    cases h : halted s with
    | true =>
      rw [h] at ht
      rw [run_of_halted h, run_of_halted ht.symm, consumed_of_halted h, consumed_of_halted ht.symm]
      exact ⟨hR, rfl⟩
    | false =>
      rw [h] at ht
      obtain ⟨hrun, hcons⟩ := ih (hstep s t k h hR)
      rw [run_cons_of_not_halted h, run_cons_of_not_halted ht.symm, consumed_cons_of_not_halted h,
        consumed_cons_of_not_halted ht.symm, hcons]
      exact ⟨hrun, rfl⟩

end Run
