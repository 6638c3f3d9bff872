import Mathlib.Data.List.Basic

/-! # Interleaved actions

Several parties act on one state, in any order. An action that is not possible
in a state has no successor there, and a run is a sequence of possible actions.
-/

namespace Interleaving

variable {σ α : Type*} {step : σ → α → Option σ} {s t u : σ} {a : α} {as bs : List α}

/-- The state after a sequence of actions, if each of them is possible in its turn. -/
def run (step : σ → α → Option σ) : σ → List α → Option σ
  | s, [] => some s
  | s, a :: as => (step s a).bind fun t => run step t as

@[simp] theorem run_nil : run step s [] = some s := rfl

theorem run_cons_eq_some :
    run step s (a :: as) = some u ↔ ∃ t, step s a = some t ∧ run step t as = some u := by
  rw [run, Option.bind_eq_some_iff]

theorem run_append_eq_some :
    run step s (as ++ bs) = some u ↔ ∃ t, run step s as = some t ∧ run step t bs = some u := by
  induction as generalizing s with
  | nil => simp
  | cons a as ih =>
    rw [List.cons_append, run_cons_eq_some]
    constructor
    · rintro ⟨t, hst, hrest⟩
      obtain ⟨t', htt', ht'⟩ := ih.mp hrest
      exact ⟨t', run_cons_eq_some.mpr ⟨t, hst, htt'⟩, ht'⟩
    · rintro ⟨t', hst', ht'⟩
      obtain ⟨t, hst, htt'⟩ := run_cons_eq_some.mp hst'
      exact ⟨t, hst, ih.mpr ⟨t', htt', ht'⟩⟩

/-- A property kept by the actions that meet a condition holds after every run of such actions. -/
theorem invariant_of_forall {I : σ → Prop} {C : α → Prop}
    (hstep : ∀ s a t, I s → C a → step s a = some t → I t) (hs : I s) (hC : ∀ a ∈ as, C a)
    (hrun : run step s as = some t) : I t := by
  induction as generalizing s with
  | nil =>
    obtain rfl : s = t := by simpa using hrun
    exact hs
  | cons a as ih =>
    obtain ⟨u, hsu, hut⟩ := run_cons_eq_some.mp hrun
    rw [List.forall_mem_cons] at hC
    exact ih (hstep s a u hs hC.1 hsu) hC.2 hut

/-- A property kept by every action holds after every run. -/
theorem invariant {I : σ → Prop} (hstep : ∀ s a t, I s → step s a = some t → I t) (hs : I s)
    (hrun : run step s as = some t) : I t :=
  invariant_of_forall (fun s a t hs _ => hstep s a t hs) hs (fun _ _ => trivial) hrun

/-! ## Common logs -/

variable {ι β : Type*} [DecidableEq ι] {log : List (ι × β)} {i j : ι} {bs : List β}

/-- The entries of one party in a common log. -/
def entries (log : List (ι × β)) (i : ι) : List β := (log.filter fun x => x.1 = i).map Prod.snd

@[simp] theorem entries_nil : entries ([] : List (ι × β)) i = [] := rfl

theorem entries_append_self : entries (log ++ bs.map fun b => (i, b)) i = entries log i ++ bs := by
  simp [entries, List.filter_map, Function.comp_def]

theorem entries_append_of_ne (h : j ≠ i) :
    entries (log ++ bs.map fun b => (i, b)) j = entries log j := by
  simp [entries, List.filter_map, Function.comp_def, h.symm]

end Interleaving
