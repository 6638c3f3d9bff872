import Mathlib.Data.List.Basic

/-! # Calls and their replies

A machine answers one call after the other, or stops in the middle of one. If a map
of states takes each call on a machine to the same call on another one, with the
same reply, then so it takes all sequences of calls.
-/

namespace Service

variable {σ τ α β : Type*} {call : σ → α → Option (β × σ)} {call' : τ → α → Option (β × τ)}
  {s : σ} {a : α} {as : List α} {r : List β × σ}

/-- The replies to some calls and the state after the last of them. -/
def serve (call : σ → α → Option (β × σ)) : σ → List α → Option (List β × σ)
  | s, [] => some ([], s)
  | s, a :: as => (call s a).bind fun r => (serve call r.2 as).map fun q => (r.1 :: q.1, q.2)

theorem serve_cons_eq_some :
    serve call s (a :: as) = some r ↔
      ∃ p, call s a = some p ∧ ∃ q, serve call p.2 as = some q ∧ (p.1 :: q.1, q.2) = r := by
  rw [serve, Option.bind_eq_some_iff]
  exact exists_congr fun p => and_congr_right fun _ => Option.map_eq_some_iff

/-- A property kept by the calls that meet a condition holds after all sequences of such calls. -/
theorem invariant {I : σ → Prop} {C : α → Prop}
    (hcall : ∀ s a p, I s → C a → call s a = some p → I p.2) (hs : I s) (hC : ∀ a ∈ as, C a)
    (hserve : serve call s as = some r) : I r.2 := by
  induction as generalizing s r with
  | nil =>
    obtain rfl : ([], s) = r := Option.some.inj hserve
    exact hs
  | cons a as ih =>
    obtain ⟨p, hp, q, hq, rfl⟩ := serve_cons_eq_some.mp hserve
    rw [List.forall_mem_cons] at hC
    have hlast : I q.2 := ih (hcall s a p hs hC.1 hp) hC.2 hq
    exact hlast

/-- Two machines cannot be told apart, also by where they stop, if their calls agree under an
invariant of the first. -/
theorem refines {I : σ → Prop} {f : σ → τ} (hinv : ∀ s a p, I s → call s a = some p → I p.2)
    (hcall : ∀ s a, I s → (call s a).map (Prod.map id f) = call' (f s) a) (hs : I s) (as : List α) :
    (serve call s as).map (Prod.map id f) = serve call' (f s) as := by
  induction as generalizing s with
  | nil => rfl
  | cons a as ih =>
    rw [serve, serve, ← hcall s a hs]
    cases hp : call s a with
    | none => rfl
    | some p =>
      rw [Option.bind_some, Option.map_some, Option.bind_some, Option.map_map, Prod.map_snd,
        ← ih (hinv s a p hs hp), Option.map_map]
      rfl

end Service
