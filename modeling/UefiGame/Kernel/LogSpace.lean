import UefiGame.Kernel.LogRuns
import Mathlib.Algebra.Group.Action.Defs
import Mathlib.Algebra.Order.BigOperators.Group.List
import Mathlib.Algebra.Order.Group.Nat
import Mathlib.Data.List.Perm.Lattice
import Mathlib.Tactic.IntervalCases

/-! # Space in the log

`begin_op` lets an operation in only if the log has room for `MAXOPBLOCKS` more
blocks, so operations that call `log_write` no more often than that never
outgrow the log. (Blocks alone are no measure: a full log makes `log_write`
panic also for a block it has.) One block of the log is its header, though:
with as many blocks as `LOGSIZE` the last reserved block has no slot, and
`log_write` panics.
-/

namespace UefiGame.Kernel

open Interleaving

variable {ι : Type*} [DecidableEq ι] {start size : ℕ} {s t : LogSystem ι} {i : ι}

/-- A call of `log_write` is one of the `MAXOPBLOCKS` that its operation may make. -/
def WithinLimit (s : LogSystem ι) : LogAction ι → Prop
  | .log_write i _ _ => s.calls i < MAXOPBLOCKS
  | _ => True

instance (s : LogSystem ι) : DecidablePred (WithinLimit s)
  | .log_write _ _ _ => inferInstanceAs (Decidable (_ < _))
  | .begin_op _ | .end_op _ _ | .crash | .recover _ => isTrue trivial

/-- The steps of operations that keep to the limit. -/
def limitedStep (start size : ℕ) (s : LogSystem ι) (a : LogAction ι) : Option (LogSystem ι) :=
  if WithinLimit s a then logStep start size s a else none

/-- How often operation `i` may still call `log_write`. -/
def callsLeft (s : LogSystem ι) (i : ι) : ℕ := MAXOPBLOCKS - s.calls i

/-- How often the operations under way may still call `log_write`. -/
def reserved (s : LogSystem ι) : ℕ := (s.active.map (callsLeft s)).sum

/-- What has been logged and what may still be logged fit together. -/
structure SpaceInv (s : LogSystem ι) : Prop where
  outstanding : s.outstanding = s.active.length
  nodup : s.active.Nodup
  room : s.lh.length + reserved s ≤ LOGSIZE

theorem map_update_of_notMem {l : List ι} (hi : i ∉ l) (f : ι → ℕ) (v : ℕ) :
    l.map (Function.update f i v) = l.map f := by
  refine List.map_congr_left fun j hj => Function.update_of_ne ?_ _ _
  rintro rfl
  exact hi hj

theorem sum_map_erase {l : List ι} (hi : i ∈ l) (f : ι → ℕ) :
    f i + ((l.erase i).map f).sum = (l.map f).sum := by
  have hperm := ((List.perm_cons_erase hi).map f).sum_eq
  rw [hperm, List.map_cons, List.sum_cons]

theorem sum_map_update {l : List ι} (hn : l.Nodup) (hi : i ∈ l) (f : ι → ℕ) (v : ℕ) :
    f i + (l.map (Function.update f i v)).sum = v + (l.map f).sum := by
  rw [← sum_map_erase hi f, ← sum_map_erase hi (Function.update f i v), Function.update_self,
    map_update_of_notMem hn.not_mem_erase]
  omega

theorem callsLeft_of_update {c : ℕ} (ht : t.calls = Function.update s.calls i c) :
    callsLeft t = Function.update (callsLeft s) i (MAXOPBLOCKS - c) := by
  funext j
  rw [callsLeft, ht]
  by_cases hj : j = i
  · rw [hj, Function.update_self, Function.update_self]
  · rw [Function.update_of_ne hj, Function.update_of_ne hj, callsLeft]

theorem SpaceInv.beginOp (hs : SpaceInv s) (hi : i ∉ s.active) (h : beginOp s i = some t) :
    SpaceInv t := by
  rw [Kernel.beginOp] at h
  split_ifs at h with hfull
  obtain rfl := Option.some_inj.mp h
  have hsum : reserved s ≤ s.outstanding * MAXOPBLOCKS := by
    have hle := List.sum_le_card_nsmul (s.active.map (callsLeft s)) MAXOPBLOCKS
      (by simp [callsLeft])
    rwa [smul_eq_mul, List.length_map, ← hs.outstanding] at hle
  refine ⟨by simp [hs.outstanding], List.nodup_cons.mpr ⟨hi, hs.nodup⟩, ?_⟩
  rw [reserved] at hsum
  rw [reserved, callsLeft_of_update rfl, List.map_cons, List.sum_cons, Function.update_self,
    map_update_of_notMem hi]
  rw [Nat.add_mul] at hfull
  dsimp only
  omega

/-- A call within the limit uses up one of the reserved slots at most. -/
theorem SpaceInv.logWrite (hs : SpaceInv s) (hi : i ∈ s.active) (hcall : s.calls i < MAXOPBLOCKS)
    (size b : ℕ) (data : Block) : SpaceInv (logWrite size s i b data) := by
  have hsum := sum_map_update hs.nodup hi (callsLeft s) (MAXOPBLOCKS - (s.calls i + 1))
  have hleft : callsLeft s i = MAXOPBLOCKS - s.calls i := rfl
  have hroom := hs.room
  rw [reserved] at hroom
  rw [Kernel.logWrite]
  dsimp only
  split_ifs
  all_goals
    refine ⟨hs.outstanding, hs.nodup, ?_⟩
    rw [reserved, callsLeft_of_update rfl]
    dsimp only
  · omega
  · omega
  · rw [List.length_append, List.length_singleton]
    omega

omit [DecidableEq ι] in
theorem spaceInv_crash (s : LogSystem ι) (disk : ℕ → Block) : SpaceInv (crash s disk) :=
  ⟨rfl, List.nodup_nil, by simp [crash, powerOn, reserved]⟩

omit [DecidableEq ι] in
theorem SpaceInv.recovery (hs : SpaceInv s) (start : ℕ) (cut : Option ℕ) :
    SpaceInv (recovery start s cut) := by
  cases cut with
  | some k => exact spaceInv_crash s _
  | none =>
    refine ⟨hs.outstanding, hs.nodup, ?_⟩
    have hroom : s.lh.length + reserved s ≤ LOGSIZE := hs.room
    change 0 + reserved s ≤ LOGSIZE
    omega

theorem SpaceInv.endOp (hs : SpaceInv s) (hi : i ∈ s.active) {cut : Option ℕ}
    (h : endOp start s i cut = some t) : SpaceInv t := by
  have hsum := sum_map_erase hi (callsLeft s)
  have hroom := hs.room
  rw [reserved] at hroom
  have hlen : s.outstanding - 1 = (s.active.erase i).length := by
    rw [hs.outstanding, List.length_erase_of_mem hi]
  unfold Kernel.endOp at h
  dsimp only at h
  split_ifs at h
  · cases cut with
    | some k =>
      obtain rfl := Option.some_inj.mp h
      exact spaceInv_crash _ _
    | none =>
      obtain rfl := Option.some_inj.mp h
      refine ⟨hlen, hs.nodup.erase i, ?_⟩
      change 0 + ((s.active.erase i).map (callsLeft s)).sum ≤ LOGSIZE
      omega
  · cases cut with
    | some k => cases h
    | none =>
      obtain rfl := Option.some_inj.mp h
      refine ⟨hlen, hs.nodup.erase i, ?_⟩
      change s.lh.length + ((s.active.erase i).map (callsLeft s)).sum ≤ LOGSIZE
      omega

theorem limitedStep_eq_some {a : LogAction ι} :
    limitedStep start size s a = some t ↔ WithinLimit s a ∧ logStep start size s a = some t := by
  rw [limitedStep]
  split_ifs with h
  · exact (and_iff_right h).symm
  · exact iff_of_false (by simp) fun ⟨h', _⟩ => h h'

theorem SpaceInv.step (hs : SpaceInv s) {a : LogAction ι}
    (h : limitedStep start size s a = some t) : SpaceInv t := by
  obtain ⟨hlimit, h⟩ := limitedStep_eq_some.mp h
  cases a with
  | begin_op i =>
    simp only [logStep] at h
    split_ifs at h with hguard
    exact hs.beginOp hguard.2.2 h
  | log_write i b data =>
    simp only [logStep] at h
    split_ifs at h with hguard
    obtain rfl := Option.some_inj.mp h
    exact hs.logWrite hguard.2.2.1 hlimit size b data
  | end_op i cut =>
    simp only [logStep] at h
    split_ifs at h with hguard
    exact hs.endOp hguard.2.2 h
  | crash =>
    obtain rfl := Option.some_inj.mp h
    exact spaceInv_crash s _
  | recover cut =>
    simp only [logStep] at h
    split_ifs at h
    obtain rfl := Option.some_inj.mp h
    exact hs.recovery start cut

/-! ## Panics -/

/-- The condition under which `log_write` panics. -/
def TooBig (size : ℕ) (s : LogSystem ι) : Prop :=
  LOGSIZE ≤ s.lh.length ∨ size ≤ s.lh.length + 1 ∨ s.outstanding < 1

theorem panicked_logWrite (size b : ℕ) (data : Block) :
    (logWrite size s i b data).panicked = true ↔ TooBig size s ∨ s.panicked = true := by
  rw [logWrite]
  dsimp only
  split_ifs with h
  · exact iff_of_true rfl (Or.inl h)
  · exact ⟨Or.inr, fun hp => hp.resolve_left h⟩
  · exact ⟨Or.inr, fun hp => hp.resolve_left h⟩

theorem SpaceInv.not_tooBig (hs : SpaceInv s) (hi : i ∈ s.active)
    (hcall : s.calls i < MAXOPBLOCKS) (hsize : LOGSIZE < size) : ¬ TooBig size s := by
  have hsum := sum_map_erase hi (callsLeft s)
  have hleft : callsLeft s i = MAXOPBLOCKS - s.calls i := rfl
  have hroom := hs.room
  rw [reserved] at hroom
  have hpos := List.length_pos_of_mem hi
  rw [TooBig, hs.outstanding]
  omega

theorem panicked_step (hs : SpaceInv s) (hsize : LOGSIZE < size) (hrunning : s.panicked = false)
    {a : LogAction ι} (h : limitedStep start size s a = some t) : t.panicked = false := by
  obtain ⟨hlimit, h⟩ := limitedStep_eq_some.mp h
  cases a with
  | begin_op i =>
    simp only [logStep, beginOp] at h
    split_ifs at h
    obtain rfl := Option.some_inj.mp h
    exact hrunning
  | log_write i b data =>
    simp only [logStep] at h
    split_ifs at h with hguard
    obtain rfl := Option.some_inj.mp h
    have hnot := hs.not_tooBig hguard.2.2.1 hlimit hsize
    rw [Bool.eq_false_iff, ne_eq, panicked_logWrite, hrunning]
    simpa using hnot
  | end_op i cut =>
    simp only [logStep, endOp] at h
    split_ifs at h
    · cases cut <;> cases h
      · exact hrunning
      · rfl
    · cases cut <;> cases h
      exact hrunning
  | crash =>
    obtain rfl := Option.some_inj.mp h
    rfl
  | recover cut =>
    simp only [logStep] at h
    split_ifs at h
    obtain rfl := Option.some_inj.mp h
    cases cut with
    | some k => rfl
    | none => exact hrunning

theorem not_panicked_of_run {disk durable : ℕ → Block} {as : List (LogAction ι)}
    (hsize : LOGSIZE < size)
    (h : run (limitedStep start size) (powerOn disk durable) as = some s) :
    s.panicked = false := by
  have hs : SpaceInv s ∧ s.panicked = false := by
    refine invariant (I := fun s => SpaceInv s ∧ s.panicked = false) ?_ ?_ h
    · exact fun s a t hs h => ⟨hs.1.step h, panicked_step hs.1 hsize hs.2 h⟩
    · exact ⟨spaceInv_crash (powerOn disk durable) disk, rfl⟩
  exact hs.2

/-- The blocks that three operations log, each of them as many as it may. -/
def fillingBlock (start size t : ℕ) : ℕ := start + size + t + 1

/-- Three operations begin and log `n` different blocks, one operation after the other. -/
def filling (start size n : ℕ) : List (LogAction ℕ) :=
  [.recover none, .begin_op 0, .begin_op 1, .begin_op 2] ++ (List.range n).map fun t =>
    .log_write (t / MAXOPBLOCKS) (fillingBlock start size t) fun _ => 0

theorem filling_succ (n : ℕ) : filling start size (n + 1) = filling start size n ++
    [.log_write (n / MAXOPBLOCKS) (fillingBlock start size n) fun _ => 0] := by
  rw [filling, filling, List.range_succ, List.map_append, List.append_assoc]
  rfl

/-- The log while it fills. -/
structure Filled (start size n : ℕ) (s : LogSystem ℕ) : Prop where
  up : s.up = true
  running : s.panicked = false
  active : s.active = [2, 1, 0]
  outstanding : s.outstanding = 3
  lh : s.lh = (List.range n).map (fillingBlock start size)
  calls : ∀ i < 3, s.calls i = min (n - MAXOPBLOCKS * i) MAXOPBLOCKS

theorem Filled.guard {n : ℕ} {s : LogSystem ℕ} (hs : Filled start size n s) (hn : n < LOGSIZE)
    (hsize : size ≤ LOGSIZE) (hstart : start + 2 * LOGSIZE < 2 ^ 32) :
    s.calls (n / MAXOPBLOCKS) < MAXOPBLOCKS ∧ s.up ∧ ¬ s.panicked ∧
      n / MAXOPBLOCKS ∈ s.active ∧ Loggable start size (fillingBlock start size n) := by
  have hlog : LOGSIZE = 30 := rfl
  have hlt : n / MAXOPBLOCKS < 3 := by
    rw [MAXOPBLOCKS]
    omega
  refine ⟨?_, hs.up, by simp [hs.running], ?_, ?_⟩
  · rw [hs.calls _ hlt, MAXOPBLOCKS]
    omega
  · rw [hs.active]
    interval_cases n / MAXOPBLOCKS <;> simp
  · unfold Loggable fillingBlock
    omega

/-- The next call, which is the first to panic if the log is full. -/
theorem Filled.limitedStep {n : ℕ} {s : LogSystem ℕ} (hs : Filled start size n s)
    (hn : n < LOGSIZE) (hsize : size ≤ LOGSIZE) (hstart : start + 2 * LOGSIZE < 2 ^ 32) :
    limitedStep start size s
        (.log_write (n / MAXOPBLOCKS) (fillingBlock start size n) fun _ => 0) =
      some (logWrite size s (n / MAXOPBLOCKS) (fillingBlock start size n) fun _ => 0) := by
  obtain ⟨hlimit, hguard⟩ := hs.guard hn hsize hstart
  exact limitedStep_eq_some.mpr ⟨hlimit, if_pos hguard⟩

theorem filled_filling (disk durable : ℕ → Block) {n : ℕ} (hn : n ≤ LOGSIZE)
    (hlt : n = 0 ∨ n < size) (hsize : size ≤ LOGSIZE) (hstart : start + 2 * LOGSIZE < 2 ^ 32) :
    ∃ s, run (limitedStep start size) (powerOn disk durable) (filling start size n) = some s ∧
      Filled start size n s := by
  induction n with
  | zero =>
    refine ⟨_, rfl, rfl, rfl, rfl, rfl, rfl, fun i hi => ?_⟩
    interval_cases i <;> rfl
  | succ n ih =>
    obtain ⟨s, hrun, hs⟩ := ih (by omega) (by omega)
    have hstep := hs.limitedStep (by omega) hsize hstart
    have hlen : s.lh.length = n := by rw [hs.lh, List.length_map, List.length_range]
    have hroom : ¬ (LOGSIZE ≤ s.lh.length ∨ size ≤ s.lh.length + 1 ∨ s.outstanding < 1) := by
      rw [hlen, hs.outstanding]
      omega
    have hnew : fillingBlock start size n ∉ s.lh := by
      rw [hs.lh, List.mem_map]
      rintro ⟨t, ht, heq⟩
      rw [List.mem_range] at ht
      unfold fillingBlock at heq
      omega
    refine ⟨logWrite size s (n / MAXOPBLOCKS) (fillingBlock start size n) fun _ => 0, ?_, ?_⟩
    · rw [filling_succ, run_append_eq_some]
      exact ⟨s, hrun, by rw [run, hstep]; rfl⟩
    · rw [logWrite]
      dsimp only
      rw [if_neg hroom]
      refine ⟨hs.up, hs.running, hs.active, hs.outstanding, ?_, fun i hi => ?_⟩
      · rw [if_neg hnew, hs.lh, List.range_succ, List.map_append]
        rfl
      · have hcalls := hs.calls i hi
        simp only [MAXOPBLOCKS] at hcalls ⊢
        by_cases hi' : i = n / 10
        · subst hi'
          rw [Function.update_self, hcalls]
          omega
        · rw [Function.update_of_ne hi', hcalls]
          omega

/-- Operations that call `log_write` no more than `MAXOPBLOCKS` times make it panic in some run if
and only if the log has no more blocks than `LOGSIZE`, its header among them. -/
theorem log_write_panics_iff (disk durable : ℕ → Block) (hstart : start + 2 * LOGSIZE < 2 ^ 32) :
    (∃ (as : List (LogAction ℕ)) (s : LogSystem ℕ),
      run (limitedStep start size) (powerOn disk durable) as = some s ∧ s.panicked = true) ↔
      size ≤ LOGSIZE := by
  constructor
  · rintro ⟨as, s, hrun, hpanicked⟩
    by_contra hsize
    have hrunning := not_panicked_of_run (by omega) hrun
    rw [hpanicked] at hrunning
    cases hrunning
  · intro hsize
    have hlog : LOGSIZE = 30 := rfl
    obtain ⟨s, hrun, hs⟩ := filled_filling disk durable (n := size - 1)
      (by omega) (by omega) hsize hstart
    have hstep := hs.limitedStep (by omega) hsize hstart
    have hlen : s.lh.length = size - 1 := by rw [hs.lh, List.length_map, List.length_range]
    refine ⟨filling start size (size - 1 + 1), logWrite size s ((size - 1) / MAXOPBLOCKS)
      (fillingBlock start size (size - 1)) fun _ => 0, ?_, ?_⟩
    · rw [filling_succ, run_append_eq_some]
      exact ⟨s, hrun, by rw [run, hstep]; rfl⟩
    · rw [panicked_logWrite]
      left
      rw [TooBig, hlen]
      omega

/-- The log that `mkfs` lays out has `LOGSIZE` blocks from block 2 on, so it can be outgrown. -/
theorem log_write_panics_iff_mkfs : ∃ (as : List (LogAction ℕ)) (s : LogSystem ℕ),
    run (limitedStep 2 LOGSIZE) (powerOn (fun _ _ => 0) fun _ _ => 0) as = some s ∧
      s.panicked = true :=
  (log_write_panics_iff (fun _ _ => 0) (fun _ _ => 0) (by decide)).mpr le_rfl

end UefiGame.Kernel
