import UefiGame.Kernel.PipeRuns

/-! # Sleep and wakeup in pipes

A process asleep in a pipe has nothing to do there. A writer that finds itself
killed is the exception: it returns without waking the readers of what it has
stored.
-/

namespace UefiGame.Kernel

open RingBuffer

variable {ι : Type*} [DecidableEq ι] {s t : PipeSystem ι} {i : ι} {e : End}

/-- A process asleep in the pipe could not go on if it were woken. -/
structure PipeAsleep (s : PipeSystem ι) : Prop where
  reader : ∀ i n, s.task i = .reading n true →
    s.pipe.nread = s.pipe.nwrite ∧ s.pipe.writeopen = true
  writer : ∀ i addr k, s.task i = .writing addr k true →
    s.pipe.full = true ∧ s.pipe.readopen = true

/-- Falling asleep, or going on awake, leaves the other processes as they are. -/
theorem PipeAsleep.setTask (hs : PipeAsleep s) (t : Task)
    (hreader : ∀ n, t = .reading n true →
      s.pipe.nread = s.pipe.nwrite ∧ s.pipe.writeopen = true)
    (hwriter : ∀ addr k, t = .writing addr k true →
      s.pipe.full = true ∧ s.pipe.readopen = true) :
    PipeAsleep { s with task := Function.update s.task i t } where
  reader j n h := by
    by_cases hj : j = i
    · subst hj
      exact hreader n (by simpa using h)
    · exact hs.reader j n (by simpa [hj] using h)
  writer j addr k h := by
    by_cases hj : j = i
    · subst hj
      exact hwriter addr k (by simpa using h)
    · exact hs.writer j addr k (by simpa [hj] using h)

theorem PipeAsleep.fileclose (hs : PipeAsleep s) (i : ι) (e : End) :
    PipeAsleep (fileclose s i e) := by
  rw [Kernel.fileclose]
  simp only [Function.update_self]
  split_ifs with hpos
  · exact ⟨hs.reader, hs.writer⟩
  · rw [pipeclose_eq]
    cases e with
    | read =>
      constructor
      · exact fun j n h => hs.reader j n (Task.wakeWriter_eq_reading.mp h)
      · intro j addr k h
        obtain ⟨hfalse, -⟩ := Task.exists_of_wakeWriter h
        cases hfalse
    | write =>
      constructor
      · intro j n h
        obtain ⟨hfalse, -⟩ := Task.exists_of_wakeReader h
        cases hfalse
      · exact fun j addr k h => hs.writer j addr k (Task.wakeReader_eq_writing.mp h)

theorem PipeAsleep.runWrite (hs : PipeAsleep s) (hinv : PipeInv s) {addr : List CHAR8} {k : ℕ}
    (h : s.task i = .writing addr k false) : PipeAsleep (runWrite s i addr k false) := by
  have hspec := pipewrite_spec false hinv.count_le k (addr.drop k)
  rw [Kernel.runWrite]
  generalize pipewrite false s.pipe k (addr.drop k) = r at hspec
  obtain ⟨p, k', stop⟩ := r
  obtain ⟨-, hcontents, hcount, -, hread, -, -, hlt, hfailed, hsleeps⟩ := hspec
  dsimp only at hcontents hcount hread hlt hfailed hsleeps
  -- a writer asleep before has left no room for this stretch
  have hwriter : ∀ j addr k, s.task j = .writing addr k true →
      p.full = true ∧ p.readopen = true := by
    intro j addr' l hj
    obtain ⟨hfull, hopen⟩ := hs.writer j addr' l hj
    have hlen := congrArg List.length hcontents
    rw [List.length_append, Pipe.contents, Pipe.contents, length_contents, length_contents] at hlen
    rw [Pipe.full_iff, Pipe.count] at hfull ⊢
    rw [Pipe.count] at hcount
    exact ⟨by omega, by rw [hread, hopen]⟩
  -- the readers are woken before the stretch ends, so only the writers matter
  have hwoken : ∀ (task : ι → Task),
      (∀ j addr k, task j = .writing addr k true → p.full = true ∧ p.readopen = true) →
      ∀ calls written, PipeAsleep (Kernel.wakeReaders { s with
        pipe := p, task := task, calls := calls, written := written }) := by
    intro task htask calls written
    constructor
    · intro j n h
      obtain ⟨hfalse, -⟩ := Task.exists_of_wakeReader h
      cases hfalse
    · exact fun j addr k h => htask j addr k (Task.wakeReader_eq_writing.mp h)
  cases stop with
  | done =>
    refine hwoken _ (fun j addr k hj => ?_) _ _
    by_cases hji : j = i
    · subst hji
      simp at hj
    · exact hwriter j addr k (by simpa [hji] using hj)
  | failed =>
    -- no reader is left, and no writer has been asleep
    have hclosed : s.pipe.readopen = false := by simpa using hfailed rfl
    constructor
    · intro j n hj
      have hji : j ≠ i := by
        rintro rfl
        simp at hj
      have hmem :=
        hinv.holder j .read (by simp only [Function.update_of_ne hji] at hj; rw [hj]; rfl)
      have hopen := (hinv.open_iff .read).mpr (List.ne_nil_of_mem hmem)
      rw [Pipe.isOpen, hclosed] at hopen
      cases hopen
    · intro j addr l hj
      have hji : j ≠ i := by
        rintro rfl
        simp at hj
      exact hwriter j addr l (by simpa [hji] using hj)
  | sleeps =>
    have hasleep :=
      hwoken (Function.update s.task i (.writing addr k' true)) (fun j addr' l hj => ?_)
      s.calls (s.written ++ ((addr.take k').drop k).map fun b => (i, b))
    · simp only [Kernel.wakeReaders, wakeReader_update] at hasleep
      exact hasleep
    · by_cases hji : j = i
      · exact ⟨(hlt (by simp)).2, by rw [hread]; exact hsleeps rfl⟩
      · exact hwriter j addr' l (by simpa [hji] using hj)

theorem PipeAsleep.runRead (hs : PipeAsleep s) {n : ℕ} (h : s.task i = .reading n false)
    (killed : Bool) : PipeAsleep (runRead s i n killed) := by
  rw [Kernel.runRead, piperead]
  by_cases hwait : s.pipe.nread = s.pipe.nwrite ∧ s.pipe.writeopen = true
  · rw [if_pos hwait]
    cases killed with
    | false => exact hs.setTask _ (fun _ _ => hwait) (fun addr k heq => by cases heq)
    | true => exact hs.setTask _ (fun n heq => by cases heq) (fun addr k heq => by cases heq)
  · rw [if_neg hwait]
    constructor
    · intro j m hj
      have hj' := Task.wakeWriter_eq_reading.mp hj
      have hji : j ≠ i := by
        rintro rfl
        simp at hj'
      exact absurd (hs.reader j m (by simpa [hji] using hj')) hwait
    · intro j addr k hj
      obtain ⟨hfalse, -⟩ := Task.exists_of_wakeWriter hj
      cases hfalse

theorem PipeAsleep.step (hs : PipeAsleep s) (hinv : PipeInv s) {a : PipeAction ι}
    (ha : ∀ i, a ≠ .runWrite i true) (h : pipeStep s a = some t) : PipeAsleep t := by
  cases pipeStep_cases h with
  | dup => exact ⟨hs.reader, hs.writer⟩
  | close i e => exact hs.fileclose i e
  | write => exact hs.setTask _ (fun n heq => by cases heq) (fun addr k heq => by cases heq)
  | read => exact hs.setTask _ (fun n heq => by cases heq) (fun addr k heq => by cases heq)
  | runWrite i killed addr k htask =>
    cases killed with
    | false => exact hs.runWrite hinv htask
    | true => exact absurd rfl (ha i)
  | runRead i killed n htask => exact hs.runRead htask killed
  | kill =>
    refine hs.setTask _ (fun n heq => ?_) (fun addr k heq => ?_)
    · obtain ⟨hfalse, -⟩ := Task.exists_of_wakeReader (Task.wakeWriter_eq_reading.mp heq)
      cases hfalse
    · obtain ⟨hfalse, -⟩ := Task.exists_of_wakeWriter heq
      cases hfalse

/-- As long as no writer finds itself killed, nobody misses a wakeup: a sleeping reader has nothing
to read, a sleeping writer has no room, and so a reader and a writer never both sleep. -/
theorem pipe_no_lost_wakeup (data : Fin PIPESIZE → CHAR8) (creator : ι)
    {as : List (PipeAction ι)} (has : ∀ i, PipeAction.runWrite i true ∉ as)
    (h : Interleaving.run pipeStep (pipealloc data creator) as = some s) :
    (∀ i n, s.task i = .reading n true →
      s.pipe.nread = s.pipe.nwrite ∧ s.pipe.writeopen = true) ∧
    (∀ i addr k, s.task i = .writing addr k true →
      s.pipe.full = true ∧ s.pipe.readopen = true) ∧
    ¬ ∃ i n j addr k, s.task i = .reading n true ∧ s.task j = .writing addr k true := by
  have hstart : PipeInv (pipealloc data creator) ∧ PipeAsleep (pipealloc data creator) :=
    ⟨pipeInv_pipealloc data creator, ⟨fun i n h => (by cases h), fun i addr k h => (by cases h)⟩⟩
  have hawake : ∀ a ∈ as, ∀ i, a ≠ PipeAction.runWrite i true := by
    rintro a ha i rfl
    exact has i ha
  have hstep : ∀ (s : PipeSystem ι) (a : PipeAction ι) (t : PipeSystem ι),
      PipeInv s ∧ PipeAsleep s → (∀ i, a ≠ .runWrite i true) → pipeStep s a = some t →
      PipeInv t ∧ PipeAsleep t := fun s a t hs ha h => ⟨hs.1.step h, hs.2.step hs.1 ha h⟩
  obtain ⟨-, hs⟩ := Interleaving.invariant_of_forall hstep hstart hawake h
  refine ⟨hs.reader, hs.writer, ?_⟩
  rintro ⟨i, n, j, addr, k, hi, hj⟩
  have hempty := Pipe.count_eq_zero_iff.mpr (hs.reader i n hi).1
  rw [Pipe.full_iff.mp (hs.writer j addr k hj).1] at hempty
  cases hempty

/-- A reader asleep on an empty pipe. -/
theorem pipe_no_lost_wakeup_reader : ∃ s, Interleaving.run pipeStep
      (pipealloc (fun _ => 0) (0 : ℕ)) [.read 0 1, .runRead 0 false] = some s ∧
    s.task 0 = .reading 1 true ∧ s.pipe.nread = s.pipe.nwrite := by
  have h : Interleaving.run pipeStep (pipealloc (fun _ => 0) (0 : ℕ))
    [.read 0 1, .runRead 0 false] = some _ := rfl
  exact ⟨_, h, rfl, ((pipe_no_lost_wakeup _ _ (by simp) h).1 0 1 rfl).1⟩

end UefiGame.Kernel
