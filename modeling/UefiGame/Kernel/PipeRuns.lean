import UefiGame.Kernel.Pipe
import Mathlib.Data.List.Perm.Lattice

/-! # What holds of a pipe whatever its processes do

The bytes read are the bytes written, in order, up to those still in the ring,
and the page of the pipe lives as long as a descriptor.
-/

namespace UefiGame.Kernel

open Interleaving RingBuffer

variable {ι : Type*} [DecidableEq ι] {s t : PipeSystem ι} {i : ι} {e : End}

/-- `p->readopen` or `p->writeopen`. -/
def Pipe.isOpen (p : Pipe) : End → Bool
  | .read => p.readopen
  | .write => p.writeopen

/-- What every action of every process keeps. -/
structure PipeInv (s : PipeSystem ι) : Prop where
  ref_eq : ∀ e, s.ref e = (s.holders e).length
  open_iff : ∀ e, s.pipe.isOpen e = true ↔ s.holders e ≠ []
  freed_iff : s.freed = true ↔ ∀ e, s.holders e = []
  holder : ∀ i e, (s.task i).file = some e → i ∈ s.holders e
  index_le : ∀ i addr k asleep, s.task i = .writing addr k asleep → k ≤ addr.length
  count_le : s.pipe.count ≤ PIPESIZE
  fifo : s.written.map Prod.snd = s.delivered ++ s.pipe.contents
  calls : ∀ i, entries s.written i = (s.calls i).flatten ++ (s.task i).stored

@[simp] theorem Task.file_wakeReader (t : Task) : t.wakeReader.file = t.file := by cases t <;> rfl

@[simp] theorem Task.file_wakeWriter (t : Task) : t.wakeWriter.file = t.file := by cases t <;> rfl

@[simp] theorem Task.stored_wakeReader (t : Task) : t.wakeReader.stored = t.stored := by
  cases t <;> rfl

@[simp] theorem Task.stored_wakeWriter (t : Task) : t.wakeWriter.stored = t.stored := by
  cases t <;> rfl

theorem Task.wakeReader_eq_writing {t : Task} {addr : List CHAR8} {k : ℕ} {asleep : Bool} :
    t.wakeReader = .writing addr k asleep ↔ t = .writing addr k asleep := by
  cases t <;> simp [Task.wakeReader]

theorem Task.wakeWriter_eq_reading {t : Task} {n : ℕ} {asleep : Bool} :
    t.wakeWriter = .reading n asleep ↔ t = .reading n asleep := by
  cases t <;> simp [Task.wakeWriter]

theorem Task.exists_of_wakeWriter {t : Task} {addr : List CHAR8} {k : ℕ} {asleep : Bool}
    (h : t.wakeWriter = .writing addr k asleep) :
    asleep = false ∧ ∃ before, t = .writing addr k before := by
  cases t <;> simp_all [Task.wakeWriter]

theorem Task.exists_of_wakeReader {t : Task} {n : ℕ} {asleep : Bool}
    (h : t.wakeReader = .reading n asleep) : asleep = false ∧ ∃ before, t = .reading n before := by
  cases t <;> simp_all [Task.wakeReader]

/-! ## Waking -/

theorem PipeInv.wakeReaders (hs : PipeInv s) : PipeInv (wakeReaders s) where
  __ := hs
  holder i e h := hs.holder i e (by simpa [Kernel.wakeReaders] using h)
  index_le i addr k asleep h := hs.index_le i addr k asleep (Task.wakeReader_eq_writing.mp h)
  calls i := by simpa [Kernel.wakeReaders] using hs.calls i

theorem PipeInv.wakeWriters (hs : PipeInv s) : PipeInv (wakeWriters s) where
  __ := hs
  holder i e h := hs.holder i e (by simpa [Kernel.wakeWriters] using h)
  index_le i addr k asleep h := by
    obtain ⟨-, before, hbefore⟩ := Task.exists_of_wakeWriter h
    exact hs.index_le i addr k before hbefore
  calls i := by simpa [Kernel.wakeWriters] using hs.calls i

/-- A process may change what it does if it keeps to its descriptors and its bytes. -/
theorem PipeInv.setTask (hs : PipeInv s) (t : Task) (hfile : ∀ e, t.file = some e → i ∈ s.holders e)
    (hindex : ∀ addr k asleep, t = .writing addr k asleep → k ≤ addr.length)
    (hstored : t.stored = (s.task i).stored) :
    PipeInv { s with task := Function.update s.task i t } where
  __ := hs
  holder j e h := by
    by_cases hj : j = i
    · subst hj
      exact hfile e (by simpa using h)
    · exact hs.holder j e (by simpa [hj] using h)
  index_le j addr k asleep h := by
    by_cases hj : j = i
    · subst hj
      exact hindex addr k asleep (by simpa using h)
    · exact hs.index_le j addr k asleep (by simpa [hj] using h)
  calls j := by
    by_cases hj : j = i
    · subst hj
      simpa [hstored] using hs.calls j
    · simpa [hj] using hs.calls j

/-! ## Descriptors -/

theorem PipeInv.filedup (hs : PipeInv s) (hi : i ∈ s.holders e) (j : ι) :
    PipeInv (filedup s j e) where
  __ := hs
  ref_eq e' := by
    by_cases he : e' = e
    · subst he
      simp [Kernel.filedup, hs.ref_eq]
    · simpa [Kernel.filedup, he] using hs.ref_eq e'
  open_iff e' := by
    by_cases he : e' = e
    · subst he
      simpa [Kernel.filedup] using (hs.open_iff e').mpr (List.ne_nil_of_mem hi)
    · simpa [Kernel.filedup, he] using hs.open_iff e'
  freed_iff := by
    have hfreed : s.freed = false := by
      rw [Bool.eq_false_iff, ne_eq, hs.freed_iff]
      exact fun h => List.ne_nil_of_mem hi (h e)
    simp only [Kernel.filedup, hfreed, Bool.false_eq_true, false_iff]
    intro h
    have he := h e
    simp at he
  holder k e' h := by
    have hk := hs.holder k e' h
    by_cases he : e' = e
    · subst he
      simpa [Kernel.filedup] using Or.inr hk
    · simpa [Kernel.filedup, he] using hk

/-- The flag of one end cleared. -/
def Pipe.close (p : Pipe) : End → Pipe
  | .read => { p with readopen := false }
  | .write => { p with writeopen := false }

/-- Closing an end wakes the processes at the other one. -/
def Task.wakeAcross : End → Task → Task
  | .read => wakeWriter
  | .write => wakeReader

theorem Task.exists_of_wakeAcross {t : Task} {addr : List CHAR8} {k : ℕ} {asleep : Bool}
    (h : t.wakeAcross e = .writing addr k asleep) : ∃ before, t = .writing addr k before := by
  cases e with
  | read => exact (Task.exists_of_wakeWriter h).2
  | write => exact ⟨asleep, Task.wakeReader_eq_writing.mp h⟩

theorem End.forall {P : End → Prop} : (∀ e, P e) ↔ P .read ∧ P .write := by
  constructor
  · exact fun h => ⟨h .read, h .write⟩
  · rintro ⟨hr, hw⟩ (_ | _)
    · exact hr
    · exact hw

theorem isOpen_close (p : Pipe) (e e' : End) :
    (p.close e).isOpen e' = (decide (e' ≠ e) && p.isOpen e') := by
  cases e <;> cases e' <;> rfl

omit [DecidableEq ι] in
theorem pipeclose_eq (s : PipeSystem ι) (e : End) :
    pipeclose s e = { s with
      pipe := s.pipe.close e
      task := fun i => (s.task i).wakeAcross e
      freed := s.freed ||
        (!(s.pipe.close e).isOpen .read && !(s.pipe.close e).isOpen .write) } := by
  cases e with
  | read =>
    cases h : s.pipe.writeopen <;>
      simp [pipeclose, wakeWriters, Pipe.close, Pipe.isOpen, Task.wakeAcross, h]
  | write =>
    cases h : s.pipe.readopen <;>
      simp [pipeclose, wakeReaders, Pipe.close, Pipe.isOpen, Task.wakeAcross, h]

/-- The invariant once a descriptor has been given up, but for the flags that tell of it. -/
theorem PipeInv.fileclose (hs : PipeInv s) (hi : i ∈ s.holders e) (hidle : s.task i = .idle) :
    PipeInv (fileclose s i e) := by
  have hlen := List.length_erase_of_mem hi
  have hholder : ∀ j e', (s.task j).file = some e' →
      j ∈ Function.update s.holders e ((s.holders e).erase i) e' := by
    intro j e' h
    have hj := hs.holder j e' h
    have hne : j ≠ i := by
      rintro rfl
      rw [hidle] at h
      cases h
    by_cases he : e' = e
    · subst he
      rwa [Function.update_self, List.mem_erase_of_ne hne]
    · rwa [Function.update_of_ne he]
  have href : ∀ e', Function.update s.ref e (s.ref e - 1) e' =
      (Function.update s.holders e ((s.holders e).erase i) e').length := by
    intro e'
    by_cases he : e' = e
    · subst he
      rw [Function.update_self, Function.update_self, hs.ref_eq, hlen]
    · rw [Function.update_of_ne he, Function.update_of_ne he, hs.ref_eq]
  have hnonempty : s.holders e ≠ [] := List.ne_nil_of_mem hi
  have hfreed : s.freed = false := by
    rw [Bool.eq_false_iff, ne_eq, hs.freed_iff]
    exact fun h => hnonempty (h e)
  rw [Kernel.fileclose]
  simp only [Function.update_self]
  split_ifs with hpos
  · have hleft : (s.holders e).erase i ≠ [] := by
      rw [← List.length_pos_iff_ne_nil, hlen, ← hs.ref_eq]
      exact hpos
    refine { hs with ref_eq := href, holder := hholder, open_iff := ?_, freed_iff := ?_ }
    · intro e'
      by_cases he : e' = e
      · subst he
        simpa [hleft] using (hs.open_iff e').mpr hnonempty
      · simpa [he] using hs.open_iff e'
    · simp only [hfreed, Bool.false_eq_true, false_iff]
      exact fun h => hleft (by simpa using h e)
  · have hempty : (s.holders e).erase i = [] := by
      rw [← List.length_eq_zero_iff, hlen, ← hs.ref_eq]
      omega
    rw [pipeclose_eq]
    have hopen : ∀ e', (s.pipe.close e).isOpen e' = true ↔
        Function.update s.holders e ((s.holders e).erase i) e' ≠ [] := by
      intro e'
      rw [isOpen_close]
      by_cases he : e' = e
      · subst he
        simp [hempty]
      · simpa [he] using hs.open_iff e'
    constructor
    · exact href
    · exact hopen
    · have hclosed : ∀ e', (s.pipe.close e).isOpen e' = false ↔
          Function.update s.holders e ((s.holders e).erase i) e' = [] := by
        intro e'
        rw [← Bool.not_eq_true, hopen, Decidable.not_not]
      simp only [hfreed, Bool.false_or, Bool.and_eq_true, Bool.not_eq_true']
      rw [End.forall]
      exact and_congr (hclosed .read) (hclosed .write)
    · intro j e' h
      refine hholder j e' ?_
      cases e <;> simpa [Task.wakeAcross] using h
    · intro j addr k asleep h
      obtain ⟨before, hbefore⟩ := Task.exists_of_wakeAcross h
      exact hs.index_le j addr k before hbefore
    · cases e <;> exact hs.count_le
    · cases e <;> exact hs.fifo
    · intro j
      cases e <;> simpa [Task.wakeAcross] using hs.calls j

/-! ## Stretches of reading and writing -/

/-- A process has stored `bs` and goes on as `t`, its finished calls now being `cs`. -/
theorem PipeInv.store (hs : PipeInv s) {p : Pipe} {bs : List CHAR8} {t : Task}
    {cs : List (List CHAR8)} (hcontents : p.contents = s.pipe.contents ++ bs)
    (hcount : p.count ≤ PIPESIZE) (hopen : ∀ e, p.isOpen e = s.pipe.isOpen e)
    (hfile : ∀ e, t.file = some e → i ∈ s.holders e)
    (hindex : ∀ addr k asleep, t = .writing addr k asleep → k ≤ addr.length)
    (hcalls : cs.flatten ++ t.stored = (s.calls i).flatten ++ (s.task i).stored ++ bs) :
    PipeInv { s with
      pipe := p
      written := s.written ++ bs.map fun b => (i, b)
      task := Function.update s.task i t
      calls := Function.update s.calls i cs } where
  ref_eq := hs.ref_eq
  open_iff e := by simpa [hopen] using hs.open_iff e
  freed_iff := hs.freed_iff
  holder j e h := by
    by_cases hj : j = i
    · subst hj
      exact hfile e (by simpa using h)
    · exact hs.holder j e (by simpa [hj] using h)
  index_le j addr k asleep h := by
    by_cases hj : j = i
    · subst hj
      exact hindex addr k asleep (by simpa using h)
    · exact hs.index_le j addr k asleep (by simpa [hj] using h)
  count_le := hcount
  fifo := by
    rw [List.map_append, hs.fifo, hcontents, List.append_assoc]
    simp
  calls j := by
    by_cases hj : j = i
    · subst hj
      simp only [entries_append_self, hs.calls, Function.update_self, hcalls]
    · simp only [entries_append_of_ne hj, hs.calls, Function.update_of_ne hj]

/-- A process has taken `bs` out of the ring and returns them. -/
theorem PipeInv.deliver (hs : PipeInv s) {p : Pipe} {bs : List CHAR8}
    (hcontents : s.pipe.contents = bs ++ p.contents) (hcount : p.count ≤ s.pipe.count)
    (hopen : ∀ e, p.isOpen e = s.pipe.isOpen e) (hstored : (s.task i).stored = []) :
    PipeInv { s with
      pipe := p
      delivered := s.delivered ++ bs
      task := Function.update s.task i .idle } := by
  have hidle : PipeInv { s with task := Function.update s.task i .idle } :=
    hs.setTask .idle (fun e h => by cases h) (fun addr k asleep h => by cases h) hstored.symm
  refine { hidle with open_iff := ?_, count_le := hcount.trans hs.count_le, fifo := ?_ }
  · intro e
    simpa [hopen] using hs.open_iff e
  · rw [hs.fifo, hcontents, List.append_assoc]

/-- A writer falling asleep is not among the readers it has just woken. -/
theorem wakeReader_update (task : ι → Task) (i : ι) (addr : List CHAR8) (k : ℕ) (asleep : Bool) :
    (fun j => (Function.update task i (.writing addr k asleep) j).wakeReader) =
      Function.update (fun j => (task j).wakeReader) i (.writing addr k asleep) := by
  funext j
  by_cases hj : j = i
  · subst hj
    simp [Task.wakeReader]
  · simp [hj]

theorem PipeInv.runWrite (hs : PipeInv s) {addr : List CHAR8} {k : ℕ}
    (h : s.task i = .writing addr k false) (killed : Bool) :
    PipeInv (runWrite s i addr k killed) := by
  have hk := hs.index_le i addr k false h
  have hspec := pipewrite_spec killed hs.count_le k (addr.drop k)
  have hmem : i ∈ s.holders .write := hs.holder i .write (by rw [h]; rfl)
  have hstored : (s.task i).stored = addr.take k := by rw [h]; rfl
  rw [Kernel.runWrite]
  generalize pipewrite killed s.pipe k (addr.drop k) = r at hspec
  obtain ⟨p, k', stop⟩ := r
  obtain ⟨hle, hcontents, hcount, -, hread, hwrite, hdone, hlt, -, -⟩ := hspec
  dsimp only at hle hcontents hcount hread hwrite hdone hlt
  rw [← List.drop_take] at hcontents
  rw [List.length_drop] at hdone hlt
  have hopen : ∀ e, p.isOpen e = s.pipe.isOpen e := End.forall.mpr ⟨hread, hwrite⟩
  -- what was stored before and what this stretch has stored
  have htake : addr.take k ++ (addr.take k').drop k = addr.take k' := by
    conv_rhs => rw [← List.take_append_drop k (addr.take k')]
    rw [List.take_take, Nat.min_eq_left hle]
  have hnone : ∀ e, Task.idle.file = some e → i ∈ s.holders e := fun e h => by cases h
  have hidle : ∀ addr k asleep, Task.idle = .writing addr k asleep → k ≤ addr.length :=
    fun addr k asleep h => by cases h
  cases stop with
  | done =>
    refine (hs.store hcontents hcount hopen hnone hidle ?_).wakeReaders
    have hlen : k' = addr.length := by
      rw [hdone rfl]
      omega
    rw [hstored, List.append_assoc, htake, hlen, List.take_length]
    simp [Task.stored]
  | failed =>
    refine hs.store hcontents hcount hopen hnone hidle ?_
    rw [hstored, List.append_assoc, htake]
    simp [Task.stored]
  | sleeps =>
    have hstop := hlt (by simp)
    have hnext : PipeInv (Kernel.wakeReaders { s with
        pipe := p
        written := s.written ++ ((addr.take k').drop k).map fun b => (i, b)
        task := Function.update s.task i (.writing addr k' true)
        calls := Function.update s.calls i (s.calls i) }) := by
      refine (hs.store hcontents hcount hopen ?_ ?_ ?_).wakeReaders
      · intro e he
        obtain rfl : End.write = e := Option.some_inj.mp he
        exact hmem
      · intro addr' j asleep heq
        injection heq with haddr hj
        subst haddr hj
        omega
      · rw [hstored, List.append_assoc, htake]
        rfl
    simp only [Function.update_eq_self, Kernel.wakeReaders, wakeReader_update] at hnext
    exact hnext

theorem pipecopy_isOpen (n : ℕ) (p : Pipe) (e : End) : (pipecopy n p).1.isOpen e = p.isOpen e := by
  obtain ⟨-, -, -, hread, hwrite⟩ := pipecopy_spec n p
  cases e with
  | read => exact hread
  | write => exact hwrite

theorem PipeInv.runRead (hs : PipeInv s) {n : ℕ} (h : s.task i = .reading n false)
    (killed : Bool) : PipeInv (runRead s i n killed) := by
  have hmem : i ∈ s.holders .read := hs.holder i .read (by rw [h]; rfl)
  have hstored : (s.task i).stored = [] := by rw [h]; rfl
  rw [Kernel.runRead, piperead]
  by_cases hwait : s.pipe.nread = s.pipe.nwrite ∧ s.pipe.writeopen = true
  · rw [if_pos hwait]
    cases killed with
    | false =>
      refine hs.setTask (.reading n true) (fun e he => ?_) (fun addr k asleep h => by cases h)
        hstored.symm
      obtain rfl : End.read = e := Option.some_inj.mp he
      exact hmem
    | true =>
      exact hs.setTask .idle (fun e h => by cases h)
        (fun addr k asleep h => by cases h) hstored.symm
  · rw [if_neg hwait]
    obtain ⟨hcontents, -, hcount, -, -⟩ := pipecopy_spec n s.pipe
    exact (hs.deliver hcontents (by omega) (pipecopy_isOpen n s.pipe) hstored).wakeWriters

/-! ## Runs -/

theorem Task.stored_rouse (t : Task) : t.rouse.stored = t.stored := by simp [Task.rouse]

theorem Task.file_rouse (t : Task) : t.rouse.file = t.file := by simp [Task.rouse]

/-- The possible actions, with what each of them requires. -/
inductive PipeStep (s : PipeSystem ι) : PipeAction ι → PipeSystem ι → Prop
  | dup (i j : ι) (e : End) (hidle : s.task i = .idle) (hi : i ∈ s.holders e) :
      PipeStep s (.dup i j e) (filedup s j e)
  | close (i : ι) (e : End) (hidle : s.task i = .idle) (hi : i ∈ s.holders e) :
      PipeStep s (.close i e) (fileclose s i e)
  | write (i : ι) (addr : List CHAR8) (hidle : s.task i = .idle) (hi : i ∈ s.holders .write) :
      PipeStep s (.write i addr)
        { s with task := Function.update s.task i (.writing addr 0 false) }
  | read (i : ι) (n : ℕ) (hidle : s.task i = .idle) (hi : i ∈ s.holders .read) :
      PipeStep s (.read i n) { s with task := Function.update s.task i (.reading n false) }
  | runWrite (i : ι) (killed : Bool) (addr : List CHAR8) (k : ℕ)
      (htask : s.task i = .writing addr k false) :
      PipeStep s (.runWrite i killed) (runWrite s i addr k killed)
  | runRead (i : ι) (killed : Bool) (n : ℕ) (htask : s.task i = .reading n false) :
      PipeStep s (.runRead i killed) (runRead s i n killed)
  | kill (i : ι) :
      PipeStep s (.kill i) { s with task := Function.update s.task i (s.task i).rouse }

theorem pipeStep_cases {a : PipeAction ι} (h : pipeStep s a = some t) : PipeStep s a t := by
  cases a <;> simp only [pipeStep] at h <;> (try split at h) <;> (try split_ifs at h) <;>
    cases h <;> constructor <;> assumption

theorem PipeInv.step (hs : PipeInv s) {a : PipeAction ι} (h : pipeStep s a = some t) :
    PipeInv t := by
  cases pipeStep_cases h with
  | dup i j e _ hi => exact hs.filedup hi j
  | close i e hidle hi => exact hs.fileclose hi hidle
  | write i addr hidle hi =>
    refine hs.setTask _ (fun e he => ?_) (fun addr k asleep heq => ?_) (by rw [hidle]; rfl)
    · obtain rfl : End.write = e := Option.some_inj.mp he
      exact hi
    · injection heq with _ hk
      omega
  | read i n hidle hi =>
    refine hs.setTask _ (fun e he => ?_) (fun addr k asleep heq => by cases heq)
      (by rw [hidle]; rfl)
    obtain rfl : End.read = e := Option.some_inj.mp he
    exact hi
  | runWrite i killed addr k htask => exact hs.runWrite htask killed
  | runRead i killed n htask => exact hs.runRead htask killed
  | kill i =>
    refine hs.setTask _ (fun e he => hs.holder i e (by rwa [Task.file_rouse] at he))
      (fun addr k asleep heq => ?_) (Task.stored_rouse _)
    obtain ⟨-, before, hbefore⟩ := Task.exists_of_wakeWriter heq
    exact hs.index_le i addr k before (Task.wakeReader_eq_writing.mp hbefore)

theorem PipeInv.run {as : List (PipeAction ι)} (hs : PipeInv s)
    (h : run pipeStep s as = some t) : PipeInv t :=
  invariant (fun _ _ _ hs h => hs.step h) hs h

theorem pipeInv_pipealloc (data : Fin PIPESIZE → CHAR8) (creator : ι) :
    PipeInv (pipealloc data creator) where
  ref_eq e := rfl
  open_iff e := by cases e <;> simp [pipealloc, Pipe.isOpen]
  freed_iff := by simp [End.forall, pipealloc]
  holder i e h := by cases h
  index_le i addr k asleep h := by cases h
  count_le := by simp [pipealloc, Pipe.count]
  fifo := by simp [pipealloc, Pipe.contents]
  calls i := by simp [pipealloc, Task.stored]

/-- The bytes delivered are the bytes written, in the order they were written, up to those in the
ring, of which there are never more than it holds; and each process has written its calls' bytes
one call after the other. -/
theorem pipe_fifo (data : Fin PIPESIZE → CHAR8) (creator : ι) {as : List (PipeAction ι)}
    (h : run pipeStep (pipealloc data creator) as = some s) :
    s.written.map Prod.snd = s.delivered ++ s.pipe.contents ∧ s.pipe.count ≤ PIPESIZE ∧
      ∀ i, entries s.written i = (s.calls i).flatten ++ (s.task i).stored := by
  have hs := (pipeInv_pipealloc data creator).run h
  exact ⟨hs.fifo, hs.count_le, hs.calls⟩

/-- Two bytes written, one of them read. -/
theorem pipe_fifo_two_bytes : ∃ s, run pipeStep (pipealloc (fun _ => 0) (0 : ℕ))
      [.write 0 [7, 8], .runWrite 0 false, .read 0 1, .runRead 0 false] = some s ∧
    s.written.map Prod.snd = s.delivered ++ s.pipe.contents := by
  have h : run pipeStep (pipealloc (fun _ => 0) (0 : ℕ))
    [.write 0 [7, 8], .runWrite 0 false, .read 0 1, .runRead 0 false] = some _ := rfl
  exact ⟨_, h, (pipe_fifo _ _ h).1⟩

/-! ## The life of a pipe -/

theorem piperead_eq_done_nil {p : Pipe} {killed : Bool} {n : ℕ} (hn : 0 < n)
    (h : (piperead killed n p).2 = .done []) : p.nread = p.nwrite ∧ p.writeopen = false := by
  rw [piperead] at h
  by_cases hwait : p.nread = p.nwrite ∧ p.writeopen = true
  · rw [if_pos hwait] at h
    cases killed <;> cases h
  · rw [if_neg hwait] at h
    have hbytes : (pipecopy n p).2 = [] := by
      injection h
    obtain ⟨-, hlength, -⟩ := pipecopy_spec n p
    rw [hbytes, List.length_nil] at hlength
    have hempty : p.nread = p.nwrite := Pipe.count_eq_zero_iff.mp (by omega)
    exact ⟨hempty, by simpa [hempty] using hwait⟩

/-- Without a descriptor for writing nothing is written any more, and none appears. -/
theorem written_step (hs : PipeInv s) (hnone : s.holders .write = []) {a : PipeAction ι}
    (h : pipeStep s a = some t) : t.holders .write = [] ∧ t.written = s.written := by
  cases pipeStep_cases h with
  | dup i j e _ hi =>
    have he : End.write ≠ e := by
      rintro rfl
      rw [hnone] at hi
      cases hi
    exact ⟨by simpa [filedup, he] using hnone, rfl⟩
  | close i e _ hi =>
    have he : End.write ≠ e := by
      rintro rfl
      rw [hnone] at hi
      cases hi
    rw [fileclose]
    simp only [pipeclose_eq]
    split_ifs <;> exact ⟨by simpa [he] using hnone, rfl⟩
  | write => exact ⟨hnone, rfl⟩
  | read => exact ⟨hnone, rfl⟩
  | runWrite i killed addr k htask =>
    have hmem := hs.holder i .write (by rw [htask]; rfl)
    rw [hnone] at hmem
    cases hmem
  | runRead i killed n htask =>
    rw [runRead]
    generalize piperead killed n s.pipe = r
    obtain ⟨p, _ | _ | _⟩ := r <;> exact ⟨hnone, rfl⟩
  | kill => exact ⟨hnone, rfl⟩

/-- The page of a pipe is given back with the last descriptor and never used after that; and who
reads an end of file has seen the end: every byte has been delivered, and none will follow. -/
theorem pipe_lifetime (data : Fin PIPESIZE → CHAR8) (creator : ι) {as : List (PipeAction ι)}
    (h : run pipeStep (pipealloc data creator) as = some s) :
    (s.freed = true ↔ ∀ e, s.holders e = []) ∧ (∀ i, s.task i ≠ .idle → s.freed = false) ∧
    ∀ i n killed, s.task i = .reading n false → 0 < n →
      (piperead killed n s.pipe).2 = .done [] →
      s.written.map Prod.snd = s.delivered ∧
        ∀ bs t, run pipeStep s bs = some t → t.written = s.written := by
  have hs := (pipeInv_pipealloc data creator).run h
  refine ⟨hs.freed_iff, ?_, ?_⟩
  · intro i hi
    rw [Bool.eq_false_iff, ne_eq, hs.freed_iff]
    intro hnone
    obtain ⟨e, he⟩ : ∃ e, (s.task i).file = some e := by
      cases htask : s.task i with
      | idle => exact absurd htask hi
      | writing => exact ⟨.write, rfl⟩
      | reading => exact ⟨.read, rfl⟩
    have hmem := hs.holder i e he
    rw [hnone e] at hmem
    cases hmem
  · intro i n killed htask hn hdone
    obtain ⟨hempty, hclosed⟩ := piperead_eq_done_nil hn hdone
    have hnone : s.holders .write = [] := by
      have hiff := hs.open_iff .write
      rw [Pipe.isOpen, hclosed] at hiff
      simpa using hiff
    refine ⟨?_, fun bs t hrun => ?_⟩
    · rw [hs.fifo, Pipe.contents, contents_eq_nil_iff.mpr hempty, List.append_nil]
    · have hlast : PipeInv t ∧ t.holders .write = [] ∧ t.written = s.written := by
        refine invariant (I := fun t => PipeInv t ∧ t.holders .write = [] ∧
          t.written = s.written) ?_ ⟨hs, hnone, rfl⟩ hrun
        rintro u a v ⟨hu, hunone, huwritten⟩ huv
        obtain ⟨hvnone, hvwritten⟩ := written_step hu hunone huv
        exact ⟨hu.step huv, hvnone, hvwritten.trans huwritten⟩
      exact hlast.2.2

/-- Both ends closed. -/
theorem pipe_lifetime_closed : ∃ s, run pipeStep (pipealloc (fun _ => 0) (0 : ℕ))
      [.close 0 .write, .close 0 .read] = some s ∧
    (s.freed = true ↔ ∀ e, s.holders e = []) := by
  have h : run pipeStep (pipealloc (fun _ => 0) (0 : ℕ)) [.close 0 .write, .close 0 .read] =
    some _ := rfl
  exact ⟨_, h, (pipe_lifetime _ _ h).1⟩

end UefiGame.Kernel
