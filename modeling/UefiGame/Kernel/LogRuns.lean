import UefiGame.Kernel.Log
import UefiGame.Library.Interleaving
import Mathlib.Algebra.BigOperators.Group.List.Basic

/-! # File system operations under the log

Operations begin, log blocks and end in any order; the last one to end commits
what all of them have logged. A crash can come at any time, between any two
writes of a commit or of a recovery as well. What recovery makes of the disk is
then always the state some commit has left, and a commit takes place only while
no operation is going on.
-/

namespace UefiGame.Kernel

open Interleaving

/-- The log with its operations: `active` are those between `begin_op` and `end_op`. The machine is
`up` from the end of a recovery to the next crash. Two fields only record what has happened: how
often each operation has called `log_write`, and what the last commit left on the disk. -/
structure LogSystem (ι : Type*) where
  disk : ℕ → Block
  cache : ℕ → Block
  lh : List ℕ
  outstanding : ℕ
  active : List ι
  calls : ι → ℕ
  up : Bool
  panicked : Bool
  durable : ℕ → Block

variable {ι : Type*}

/-- The machine as it is switched on. -/
def powerOn (disk durable : ℕ → Block) : LogSystem ι where
  disk := disk
  cache := disk
  lh := []
  outstanding := 0
  active := []
  calls _ := 0
  up := false
  panicked := false
  durable := durable

/-- Everything but the disk is lost. -/
def crash (s : LogSystem ι) (disk : ℕ → Block) : LogSystem ι :=
  powerOn disk s.durable

/-- `recover_from_log`, cut off after some of its writes or run to its end. -/
def recovery (start : ℕ) (s : LogSystem ι) (cut : Option ℕ) : LogSystem ι :=
  let d := recover_from_log start ⟨s.disk, [], s.cache⟩
  match cut with
  | some k => crash s (RedoLog.apply (d.writes.take k) s.disk)
  | none => { s with disk := d.disk, cache := d.cache, lh := [], up := true }

variable [DecidableEq ι]

/-- `begin_op`, once it does not have to wait. -/
def beginOp (s : LogSystem ι) (i : ι) : Option (LogSystem ι) :=
  if s.lh.length + (s.outstanding + 1) * MAXOPBLOCKS > LOGSIZE then none
  else some { s with
    outstanding := s.outstanding + 1
    active := i :: s.active
    calls := Function.update s.calls i 0 }

/-- `log_write`, the caller having put `data` into the buffer of block `b`. -/
def logWrite (size : ℕ) (s : LogSystem ι) (i : ι) (b : ℕ) (data : Block) : LogSystem ι :=
  let s := { s with
    cache := Function.update s.cache b data
    calls := Function.update s.calls i (s.calls i + 1) }
  if LOGSIZE ≤ s.lh.length ∨ size ≤ s.lh.length + 1 ∨ s.outstanding < 1 then
    { s with panicked := true }
  else { s with lh := if b ∈ s.lh then s.lh else s.lh ++ [b] }

/-- `end_op`; if it commits, the commit is cut off after some of its writes or runs to its end. -/
def endOp (start : ℕ) (s : LogSystem ι) (i : ι) (cut : Option ℕ) : Option (LogSystem ι) :=
  let s := { s with outstanding := s.outstanding - 1, active := s.active.erase i }
  if s.outstanding = 0 then
    let d := commit start s.lh ⟨s.disk, [], s.cache⟩
    match cut with
    | some k =>
      let durable := if k ≤ s.lh.length then s.durable else s.cache
      some (crash { s with durable := durable } (RedoLog.apply (d.writes.take k) s.disk))
    | none => some { s with disk := d.disk, cache := d.cache, lh := [], durable := s.cache }
  else match cut with
    | some _ => none
    | none => some s

inductive LogAction (ι : Type*)
  | begin_op (i : ι)
  | log_write (i : ι) (b : ℕ) (data : Block)
  | end_op (i : ι) (cut : Option ℕ)
  | crash
  | recover (cut : Option ℕ)

/-- The block numbers operations may log: those outside the log. -/
def Loggable (start size b : ℕ) : Prop :=
  b ≠ start ∧ (b < start ∨ start + size ≤ b) ∧ b < 2 ^ 32

instance (start size b : ℕ) : Decidable (Loggable start size b) := by
  unfold Loggable
  infer_instance

def logStep (start size : ℕ) (s : LogSystem ι) : LogAction ι → Option (LogSystem ι)
  | .begin_op i => if s.up ∧ ¬ s.panicked ∧ i ∉ s.active then beginOp s i else none
  | .log_write i b data =>
    if s.up ∧ ¬ s.panicked ∧ i ∈ s.active ∧ Loggable start size b then
      some (logWrite size s i b data)
    else none
  | .end_op i cut => if s.up ∧ ¬ s.panicked ∧ i ∈ s.active then endOp start s i cut else none
  | .crash => some (crash s s.disk)
  | .recover cut => if s.up then none else some (recovery start s cut)

/-! ## What every step keeps -/

variable {start size : ℕ} {s t : LogSystem ι} {i : ι}

theorem Loggable.home {b : ℕ} (h : Loggable start size b) : (logLayout start size).Home b := by
  obtain ⟨hne, hout, -⟩ := h
  refine ⟨hne, fun t ht => ?_⟩
  change b ≠ start + t + 1
  change t < size - 1 at ht
  omega

/-- What `read_head` asks of a header: it copies the block numbers into the `LOGSIZE` entries of
`log.lh.block`. -/
structure HeaderFits (start size : ℕ) (bs : List ℕ) : Prop where
  fits : (logLayout start size).Fits bs
  length_le : bs.length ≤ LOGSIZE

theorem headerFits_nil : HeaderFits start size [] := ⟨RedoLog.fits_nil, Nat.zero_le _⟩

theorem HeaderFits.of_eq_or {bs cs : List ℕ} (hbs : HeaderFits start size bs)
    (h : cs = bs ∨ cs = []) : HeaderFits start size cs := by
  rcases h with rfl | rfl
  · exact hbs
  · exact headerFits_nil

/-- What the disk stands for is what the last commit left, and while the machine is up only the
blocks logged since then differ from it. -/
structure LogInv (start size : ℕ) (s : LogSystem ι) : Prop where
  listed : HeaderFits start size ((logLayout start size).listed s.disk)
  durable : ∀ b, (logLayout start size).Home b →
    (logLayout start size).meaning s.disk b = s.durable b
  down : s.up = false → s.cache = s.disk
  empty : s.up = true → (logLayout start size).listed s.disk = []
  cached : s.up = true → s.panicked = false →
    ∀ b, (logLayout start size).Home b → b ∉ s.lh → s.cache b = s.disk b
  lh : HeaderFits start size s.lh
  lt : ∀ b ∈ s.lh, b < 2 ^ 32

omit [DecidableEq ι] in
/-- A crash may leave any disk that stands for the durable state. -/
theorem logInv_crash {disk : ℕ → Block}
    (hheader : HeaderFits start size ((logLayout start size).listed disk))
    (hdurable : ∀ b, (logLayout start size).Home b →
      (logLayout start size).meaning disk b = s.durable b) :
    LogInv start size (crash s disk) where
  listed := hheader
  durable := hdurable
  down _ := rfl
  empty h := by cases h
  cached h := by cases h
  lh := headerFits_nil
  lt b h := by cases h

omit [DecidableEq ι] in
theorem LogInv.recovery (hs : LogInv start size s) (hdown : s.up = false) (cut : Option ℕ) :
    LogInv start size (recovery start s cut) := by
  have hcache := hs.down hdown
  have hfits : (logLayout start size).Fits (readHeader (s.cache start)) := by
    rw [hcache]
    exact hs.listed.fits
  have heq := recover_from_log_eq (d := ⟨s.disk, [], s.cache⟩) hfits
  have hh' : (logLayout start size).decode (cleared (s.disk start)) = [] :=
    readHeader_cleared (s.disk start)
  rw [hcache] at heq
  cases cut with
  | some k =>
    simp only [Kernel.recovery, hcache, heq, List.nil_append]
    have hlisted := RedoLog.listed_take_recovery hs.listed.fits hh' k
    refine logInv_crash (hs.listed.of_eq_or hlisted) fun b hb => ?_
    rw [← hs.durable b hb]
    exact RedoLog.meaning_take_recovery hs.listed.fits hh' hb k
  | none =>
    simp only [Kernel.recovery, hcache, heq, List.nil_append]
    obtain ⟨hlisted, hcells⟩ := RedoLog.apply_recovery hs.listed.fits hh'
    refine ⟨hs.listed.of_eq_or (Or.inr hlisted), fun b hb => ?_, fun h => (by cases h),
      fun _ => hlisted, fun _ _ b _ _ => rfl, headerFits_nil, fun b h => (by cases h)⟩
    rw [← hs.durable b hb, ← hcells b hb]
    exact RedoLog.meaning_of_listed_nil hlisted

theorem LogInv.beginOp (hs : LogInv start size s) (h : beginOp s i = some t) :
    LogInv start size t := by
  rw [Kernel.beginOp] at h
  split_ifs at h
  obtain rfl := Option.some_inj.mp h
  exact ⟨hs.listed, hs.durable, hs.down, hs.empty, hs.cached, hs.lh, hs.lt⟩

theorem LogInv.logWrite (hs : LogInv start size s) (hup : s.up = true)
    (hrunning : s.panicked = false) {b : ℕ} (data : Block) (hb : Loggable start size b) :
    LogInv start size (logWrite size s i b data) := by
  rw [Kernel.logWrite]
  dsimp only
  split_ifs with hfull hmem
  · exact ⟨hs.listed, hs.durable, fun h => (by simp [hup] at h), hs.empty,
      fun _ h => (by cases h), hs.lh, hs.lt⟩
  · refine ⟨hs.listed, hs.durable, fun h => (by simp [hup] at h), hs.empty, fun _ _ c hc hnot => ?_,
      hs.lh, hs.lt⟩
    have hne : c ≠ b := by
      rintro rfl
      exact hnot hmem
    exact (Function.update_of_ne hne _ _).trans (hs.cached hup hrunning c hc hnot)
  · rw [not_or, not_or] at hfull
    have hlen : (s.lh ++ [b]).length = s.lh.length + 1 := by simp
    refine ⟨hs.listed, hs.durable, fun h => (by simp [hup] at h), hs.empty, fun _ _ c hc hnot => ?_,
      ⟨⟨?_, ?_, ?_⟩, ?_⟩, ?_⟩
    · rw [List.mem_append, List.mem_singleton, not_or] at hnot
      exact (Function.update_of_ne hnot.2 _ _).trans (hs.cached hup hrunning c hc hnot.1)
    · exact hs.lh.fits.nodup.append (List.nodup_singleton b) (by simpa using hmem)
    · intro c hc
      rcases List.mem_append.mp hc with hc | hc
      · exact hs.lh.fits.home c hc
      · rw [List.mem_singleton.mp hc]
        exact hb.home
    · change (s.lh ++ [b]).length ≤ size - 1
      omega
    · rw [hlen]
      omega
    · intro c hc
      rcases List.mem_append.mp hc with hc | hc
      · exact hs.lt c hc
      · rw [List.mem_singleton.mp hc]
        exact hb.2.2

omit [DecidableEq ι] in
theorem LogInv.readHeader_header (hs : LogInv start size s) (h : Block) :
    (logLayout start size).decode (header s.lh h) = s.lh := by
  have hlen := hs.lh.length_le
  have hsize : LOGSIZE < 128 := by decide
  exact Kernel.readHeader_header (by omega) hs.lt h

omit [DecidableEq ι] in
/-- What the writes of the commit in progress make of the disk. -/
theorem LogInv.commit (hs : LogInv start size s) (hup : s.up = true) (hrunning : s.panicked = false)
    {d : Dev} (hd : d = commit start s.lh ⟨s.disk, [], s.cache⟩) :
    (∀ k, ((logLayout start size).listed (RedoLog.apply (d.writes.take k) s.disk) = s.lh ∨
        (logLayout start size).listed (RedoLog.apply (d.writes.take k) s.disk) = []) ∧
      ∀ b, (logLayout start size).Home b →
        (logLayout start size).meaning (RedoLog.apply (d.writes.take k) s.disk) b =
          if k ≤ s.lh.length then s.durable b else s.cache b) ∧
    (logLayout start size).listed d.disk = [] ∧
    ∀ b, (logLayout start size).Home b → d.disk b = s.cache b ∧ d.cache b = s.cache b := by
  have hempty := hs.empty hup
  have hsame : ∀ b, (logLayout start size).Home b → s.disk b = s.durable b := fun b hb => by
    rw [← hs.durable b hb, RedoLog.meaning_of_listed_nil hempty]
  rcases Nat.eq_zero_or_pos s.lh.length with hzero | hpos
  · -- nothing logged, nothing written
    have hnil := List.length_eq_zero_iff.mp hzero
    have hcached : ∀ b, (logLayout start size).Home b → s.cache b = s.disk b := fun b hb =>
      hs.cached hup hrunning b hb (by simp [hnil])
    rw [Kernel.commit, hnil] at hd
    subst hd
    refine ⟨fun k => ⟨?_, fun b hb => ?_⟩, hempty, fun b hb => ⟨(hcached b hb).symm, rfl⟩⟩
    · exact Or.inr (by simpa using hempty)
    · simp only [List.length_nil, lt_irrefl, if_false, List.take_nil, RedoLog.apply_nil]
      rw [RedoLog.meaning_of_listed_nil hempty, hcached b hb, hsame b hb, ite_self]
  · have hnew : ∀ b, (logLayout start size).Home b → b ∉ s.lh → s.cache b = s.disk b :=
      hs.cached hup hrunning
    have hh := hs.readHeader_header (s.cache start)
    have hh' : (logLayout start size).decode (cleared (header s.lh (s.cache start))) = [] :=
      readHeader_cleared (header s.lh (s.cache start))
    rw [commit_eq hs.lh.fits hpos] at hd
    subst hd
    obtain ⟨hlisted, hdisk⟩ := RedoLog.apply_commit (d := s.disk) hs.lh.fits hh hh' hnew
    obtain ⟨-, hcache⟩ := RedoLog.apply_commit (d := s.cache) hs.lh.fits hh hh' fun _ _ _ => rfl
    refine ⟨fun k => ⟨?_, fun b hb => ?_⟩, ?_, fun b hb => ⟨hdisk b hb, hcache b hb⟩⟩
    · exact RedoLog.listed_take_commit hempty hs.lh.fits hh hh' hnew k
    · have hmeaning := RedoLog.meaning_take_commit hempty hs.lh.fits hh hh' hnew hb k
      rw [← hsame b hb]
      exact hmeaning
    · exact hlisted

theorem LogInv.endOp (hs : LogInv start size s) (hup : s.up = true) (hrunning : s.panicked = false)
    {cut : Option ℕ} (h : endOp start s i cut = some t) : LogInv start size t := by
  obtain ⟨hcut, hlisted, hdone⟩ := hs.commit hup hrunning rfl
  unfold Kernel.endOp at h
  dsimp only at h
  split_ifs at h with hlast
  · cases cut with
    | some k =>
      obtain rfl := Option.some_inj.mp h
      obtain ⟨hlisted, hmeaning⟩ := hcut k
      refine logInv_crash (hs.lh.of_eq_or hlisted) fun b hb => ?_
      rw [hmeaning b hb]
      dsimp only
      split_ifs <;> rfl
    | none =>
      obtain rfl := Option.some_inj.mp h
      refine ⟨hs.lh.of_eq_or (Or.inr hlisted), fun b hb => ?_, fun h => (by simp [hup] at h),
        fun _ => hlisted, fun _ _ b hb _ => ?_, headerFits_nil, fun b h => (by cases h)⟩
      · exact (RedoLog.meaning_of_listed_nil hlisted).trans (hdone b hb).1
      · exact (hdone b hb).2.trans (hdone b hb).1.symm
  · cases cut with
    | some k => cases h
    | none =>
      obtain rfl := Option.some_inj.mp h
      exact ⟨hs.listed, hs.durable, hs.down, hs.empty, hs.cached, hs.lh, hs.lt⟩

theorem LogInv.step (hs : LogInv start size s) {a : LogAction ι}
    (h : logStep start size s a = some t) : LogInv start size t := by
  cases a with
  | begin_op i =>
    simp only [logStep] at h
    split_ifs at h
    exact hs.beginOp h
  | log_write i b data =>
    simp only [logStep] at h
    split_ifs at h with hguard
    obtain rfl := Option.some_inj.mp h
    exact hs.logWrite hguard.1 (by simpa using hguard.2.1) data hguard.2.2.2
  | end_op i cut =>
    simp only [logStep] at h
    split_ifs at h with hguard
    exact hs.endOp hguard.1 (by simpa using hguard.2.1) h
  | crash =>
    obtain rfl := Option.some_inj.mp h
    exact logInv_crash hs.listed hs.durable
  | recover cut =>
    simp only [logStep] at h
    split_ifs at h with hup
    obtain rfl := Option.some_inj.mp h
    exact hs.recovery (by simpa using hup) cut

omit [DecidableEq ι] in
theorem logInv_powerOn {disk : ℕ → Block}
    (hdisk : HeaderFits start size ((logLayout start size).listed disk)) :
    LogInv start size (powerOn disk ((logLayout start size).meaning disk) : LogSystem ι) where
  listed := hdisk
  durable _ _ := rfl
  down _ := rfl
  empty h := by cases h
  cached h := by cases h
  lh := headerFits_nil
  lt b h := by cases h

omit [DecidableEq ι] in
/-- What a recovery run to its end makes of the disk of any state. -/
theorem LogInv.recovered (hs : LogInv start size s) {b : ℕ} (hb : (logLayout start size).Home b) :
    (recover_from_log start ⟨s.disk, [], s.disk⟩).disk b = s.durable b := by
  have hh' : (logLayout start size).decode (cleared (s.disk start)) = [] :=
    readHeader_cleared (s.disk start)
  rw [recover_from_log_eq hs.listed.fits, Dev.disk, ← hs.durable b hb]
  exact (RedoLog.apply_recovery hs.listed.fits hh').2 b hb

/-- Whatever operations, crashes, unfinished commits and unfinished recoveries have come before: a
crash now costs exactly what has been logged since the last commit. The end of the last operation
makes all of it durable, and if the machine stops within that commit, all of it or nothing. -/
theorem log_crash_atomic {disk : ℕ → Block} {as : List (LogAction ι)}
    (hdisk : HeaderFits start size ((logLayout start size).listed disk))
    (h : run (logStep start size) (powerOn disk ((logLayout start size).meaning disk)) as =
      some s) :
    HeaderFits start size ((logLayout start size).listed s.disk) ∧
    (∀ b, (logLayout start size).Home b →
      (recover_from_log start ⟨s.disk, [], s.disk⟩).disk b = s.durable b) ∧
    (s.up = true → s.panicked = false → ∀ b, (logLayout start size).Home b → b ∉ s.lh →
      s.cache b = s.durable b) ∧
    (∀ i t, logStep start size s (.end_op i none) = some t → t.outstanding = 0 →
      ∀ b, (logLayout start size).Home b →
        (recover_from_log start ⟨t.disk, [], t.disk⟩).disk b = s.cache b) ∧
    ∀ i k t, logStep start size s (.end_op i (some k)) = some t →
      (∀ b, (logLayout start size).Home b →
        (recover_from_log start ⟨t.disk, [], t.disk⟩).disk b = s.durable b) ∨
      ∀ b, (logLayout start size).Home b →
        (recover_from_log start ⟨t.disk, [], t.disk⟩).disk b = s.cache b := by
  have hs : LogInv start size s :=
    invariant (fun _ _ _ hs h => hs.step h) (logInv_powerOn hdisk) h
  refine ⟨hs.listed, fun b hb => hs.recovered hb, fun hup hrunning b hb hnot => ?_,
    fun i t ht hzero b hb => ?_, fun i k t ht => ?_⟩
  · rw [hs.cached hup hrunning b hb hnot, ← hs.durable b hb,
      RedoLog.meaning_of_listed_nil (hs.empty hup)]
  · rw [(hs.step ht).recovered hb]
    simp only [logStep, endOp] at ht
    split_ifs at ht with hguard hlast
    · obtain rfl := Option.some_inj.mp ht
      rfl
    · obtain rfl := Option.some_inj.mp ht
      exact absurd hzero hlast
  · have hinv := hs.step ht
    simp only [logStep, endOp] at ht
    split_ifs at ht with hguard hlast hk
    · left
      intro b hb
      rw [hinv.recovered hb, ← Option.some_inj.mp ht]
      rfl
    · right
      intro b hb
      rw [hinv.recovered hb, ← Option.some_inj.mp ht]
      rfl

/-- One operation logs one block twelve times, and the machine stops after the first write of the
commit. -/
theorem log_crash_atomic_one_block : ∃ s, run (logStep 2 30)
      (powerOn (fun _ _ => 0) ((logLayout 2 30).meaning fun _ _ => 0) : LogSystem ℕ)
      ([.recover none, .begin_op 0] ++ List.replicate 12 (.log_write 0 100 fun _ => 1) ++
        [.end_op 0 (some 1)]) = some s ∧
    (recover_from_log 2 ⟨s.disk, [], s.disk⟩).disk 100 = s.durable 100 := by
  have h : run (logStep 2 30)
      (powerOn (fun _ _ => 0) ((logLayout 2 30).meaning fun _ _ => 0) : LogSystem ℕ)
      ([.recover none, .begin_op 0] ++ List.replicate 12 (.log_write 0 100 fun _ => 1) ++
        [.end_op 0 (some 1)]) = some _ := rfl
  exact ⟨_, h, (log_crash_atomic headerFits_nil h).2.1 100 (Loggable.home (by decide))⟩

end UefiGame.Kernel
