import UefiGame.Firmware.Types
import UefiGame.Library.Interleaving
import UefiGame.Library.RingBuffer

/-! # Pipes of the kernel

A pipe is a ring of bytes shared by any number of processes through two files,
one per end, with reference counts. `pipewrite` and `piperead` hold the pipe's
lock from the call, or from the return of `sleep`, up to the next `sleep` or the
end. These stretches are what interleaves.
-/

namespace UefiGame.Kernel

open RingBuffer

def PIPESIZE : ℕ := 512

instance : NeZero PIPESIZE := ⟨by decide⟩

structure Pipe where
  data : Fin PIPESIZE → CHAR8
  nread : UINT32
  nwrite : UINT32
  readopen : Bool
  writeopen : Bool

namespace Pipe

/-- `p->nwrite == p->nread + PIPESIZE`. -/
def full (p : Pipe) : Bool := p.nwrite == p.nread + BitVec.ofNat 32 PIPESIZE

/-- `p->data[p->nwrite++ % PIPESIZE] = b`. -/
def put (p : Pipe) (b : CHAR8) : Pipe :=
  { p with data := Function.update p.data (slot PIPESIZE p.nwrite) b, nwrite := p.nwrite + 1 }

/-- The byte `p->data[p->nread % PIPESIZE]`. -/
def front (p : Pipe) : CHAR8 := p.data (slot PIPESIZE p.nread)

/-- `p->nread++`. -/
def advance (p : Pipe) : Pipe := { p with nread := p.nread + 1 }

/-- The bytes written and not yet read. -/
def contents (p : Pipe) : List CHAR8 := RingBuffer.contents p.data p.nread p.nwrite

def count (p : Pipe) : ℕ := held p.nread p.nwrite

end Pipe

/-- How a stretch of `pipewrite` under the lock ends. -/
inductive WriteStop
  | done
  | failed
  | sleeps
  deriving DecidableEq

/-- The loop of `pipewrite` from index `i` on, over the bytes of `addr` from there. -/
def pipewrite (killed : Bool) : Pipe → ℕ → List CHAR8 → Pipe × ℕ × WriteStop
  | p, i, [] => (p, i, .done)
  | p, i, b :: bs =>
    if p.full then (p, i, if !p.readopen || killed then .failed else .sleeps)
    else pipewrite killed (p.put b) (i + 1) bs

/-- How a stretch of `piperead` under the lock ends. -/
inductive ReadStop
  | done (bytes : List CHAR8)
  | failed
  | sleeps
  deriving DecidableEq

/-- The copying loop of `piperead`. -/
def pipecopy : ℕ → Pipe → Pipe × List CHAR8
  | 0, p => (p, [])
  | n + 1, p =>
    if p.nread = p.nwrite then (p, [])
    else
      let (q, bytes) := pipecopy n p.advance
      (q, p.front :: bytes)

/-- `piperead` from its first loop on. -/
def piperead (killed : Bool) (n : ℕ) (p : Pipe) : Pipe × ReadStop :=
  if p.nread = p.nwrite ∧ p.writeopen then (p, if killed then .failed else .sleeps)
  else
    let (q, bytes) := pipecopy n p
    (q, .done bytes)

/-! ## Processes and descriptors -/

/-- The files `f0`, for reading, and `f1`, for writing. -/
inductive End
  | read
  | write
  deriving DecidableEq

/-- What a process is doing with the pipe, and whether it sleeps in there. -/
inductive Task
  | idle
  | writing (addr : List CHAR8) (i : ℕ) (asleep : Bool)
  | reading (n : ℕ) (asleep : Bool)

namespace Task

/-- The effect of `wakeup(&p->nread)` on a process. -/
def wakeReader : Task → Task
  | reading n _ => reading n false
  | t => t

/-- The effect of `wakeup(&p->nwrite)` on a process. -/
def wakeWriter : Task → Task
  | writing addr i _ => writing addr i false
  | t => t

/-- `kill` makes a sleeping process runnable whatever it waits for. -/
def rouse (t : Task) : Task := t.wakeReader.wakeWriter

/-- The bytes the current call has stored so far. -/
def stored : Task → List CHAR8
  | writing addr i _ => addr.take i
  | _ => []

/-- The file a call in progress goes through. -/
def file : Task → Option End
  | idle => none
  | writing _ _ _ => some .write
  | reading _ _ => some .read

end Task

/-- The pipe with the processes around it. One element of `holders e` is one descriptor of the
file `e`. `written`, `delivered` and `calls` record what has happened. -/
structure PipeSystem (ι : Type*) where
  pipe : Pipe
  freed : Bool
  ref : End → ℕ
  holders : End → List ι
  task : ι → Task
  written : List (ι × CHAR8)
  delivered : List CHAR8
  calls : ι → List (List CHAR8)

variable {ι : Type*}

/-- The pipe a process has just made, on a page with any contents. -/
def pipealloc (data : Fin PIPESIZE → CHAR8) (creator : ι) : PipeSystem ι where
  pipe := ⟨data, 0, 0, true, true⟩
  freed := false
  ref _ := 1
  holders _ := [creator]
  task _ := .idle
  written := []
  delivered := []
  calls _ := []

def wakeReaders (s : PipeSystem ι) : PipeSystem ι :=
  { s with task := fun i => (s.task i).wakeReader }

def wakeWriters (s : PipeSystem ι) : PipeSystem ι :=
  { s with task := fun i => (s.task i).wakeWriter }

/-- `pipeclose`, run by the `fileclose` that drops the last reference to a file. -/
def pipeclose (s : PipeSystem ι) (e : End) : PipeSystem ι :=
  let s := match e with
    | .write => wakeReaders { s with pipe := { s.pipe with writeopen := false } }
    | .read => wakeWriters { s with pipe := { s.pipe with readopen := false } }
  if !s.pipe.readopen && !s.pipe.writeopen then { s with freed := true } else s

variable [DecidableEq ι]

def filedup (s : PipeSystem ι) (j : ι) (e : End) : PipeSystem ι :=
  { s with
    ref := Function.update s.ref e (s.ref e + 1)
    holders := Function.update s.holders e (j :: s.holders e) }

def fileclose (s : PipeSystem ι) (i : ι) (e : End) : PipeSystem ι :=
  let s := { s with
    ref := Function.update s.ref e (s.ref e - 1)
    holders := Function.update s.holders e ((s.holders e).erase i) }
  if 0 < s.ref e then s else pipeclose s e

/-- A stretch of `pipewrite` by process `i`. -/
def runWrite (s : PipeSystem ι) (i : ι) (addr : List CHAR8) (k : ℕ) (killed : Bool) :
    PipeSystem ι :=
  let (p, k', stop) := pipewrite killed s.pipe k (addr.drop k)
  let s := { s with
    pipe := p, written := s.written ++ ((addr.take k').drop k).map fun b => (i, b) }
  match stop with
  | .done => wakeReaders { s with
      task := Function.update s.task i .idle
      calls := Function.update s.calls i (s.calls i ++ [addr]) }
  | .failed => { s with
      task := Function.update s.task i .idle
      calls := Function.update s.calls i (s.calls i ++ [addr.take k']) }
  | .sleeps =>
    let s := wakeReaders s
    { s with task := Function.update s.task i (.writing addr k' true) }

/-- A stretch of `piperead` by process `i`. -/
def runRead (s : PipeSystem ι) (i : ι) (n : ℕ) (killed : Bool) : PipeSystem ι :=
  let (p, stop) := piperead killed n s.pipe
  let s := { s with pipe := p }
  match stop with
  | .done bytes => wakeWriters { s with
      delivered := s.delivered ++ bytes
      task := Function.update s.task i .idle }
  | .failed => { s with task := Function.update s.task i .idle }
  | .sleeps => { s with task := Function.update s.task i (.reading n true) }

/-- What a process does next. `dup` stands for every system call that gives `j` a descriptor of
its own: `dup`, and `fork` for the child. -/
inductive PipeAction (ι : Type*)
  | dup (i j : ι) (e : End)
  | close (i : ι) (e : End)
  | write (i : ι) (addr : List CHAR8)
  | read (i : ι) (n : ℕ)
  | runWrite (i : ι) (killed : Bool)
  | runRead (i : ι) (killed : Bool)
  | kill (i : ι)

/-- A process begins a call only when no call of its own is in progress and through a descriptor
it holds; a sleeping process does not run. -/
def pipeStep (s : PipeSystem ι) : PipeAction ι → Option (PipeSystem ι)
  | .dup i j e => match s.task i with
    | .idle => if i ∈ s.holders e then some (filedup s j e) else none
    | _ => none
  | .close i e => match s.task i with
    | .idle => if i ∈ s.holders e then some (fileclose s i e) else none
    | _ => none
  | .write i addr => match s.task i with
    | .idle =>
      if i ∈ s.holders .write then
        some { s with task := Function.update s.task i (.writing addr 0 false) }
      else none
    | _ => none
  | .read i n => match s.task i with
    | .idle =>
      if i ∈ s.holders .read then
        some { s with task := Function.update s.task i (.reading n false) }
      else none
    | _ => none
  | .runWrite i killed => match s.task i with
    | .writing addr k false => some (runWrite s i addr k killed)
    | _ => none
  | .runRead i killed => match s.task i with
    | .reading n false => some (runRead s i n killed)
    | _ => none
  | .kill i => some { s with task := Function.update s.task i (s.task i).rouse }

/-! ## One stretch -/

namespace Pipe

theorem pipesize_dvd : PIPESIZE ∣ 2 ^ 32 := ⟨2 ^ 23, by decide⟩

theorem pipesize_lt : PIPESIZE < 2 ^ 32 := by decide

theorem full_iff {p : Pipe} : p.full = true ↔ p.count = PIPESIZE := by
  rw [full, beq_iff_eq, count, held_eq_iff pipesize_lt]

theorem contents_put {p : Pipe} (h : p.count < PIPESIZE) (b : CHAR8) :
    (p.put b).contents = p.contents ++ [b] :=
  contents_push pipesize_dvd pipesize_lt h

theorem count_put {p : Pipe} (h : p.count < PIPESIZE) (b : CHAR8) :
    (p.put b).count = p.count + 1 := by
  have hlen := congrArg List.length (contents_put h b)
  simpa [contents, count] using hlen

theorem count_eq_zero_iff {p : Pipe} : p.count = 0 ↔ p.nread = p.nwrite := held_eq_zero_iff

theorem contents_front {p : Pipe} (h : p.nread ≠ p.nwrite) :
    p.contents = p.front :: p.advance.contents := by
  rw [ne_eq, ← count_eq_zero_iff] at h
  exact contents_pop (Nat.pos_of_ne_zero h)

theorem count_advance {p : Pipe} (h : p.nread ≠ p.nwrite) : p.advance.count = p.count - 1 := by
  rw [ne_eq, ← count_eq_zero_iff] at h
  exact held_advance (Nat.pos_of_ne_zero h)

end Pipe

/-- What a stretch of `pipewrite` does to the pipe. -/
structure PipewriteSpec (killed : Bool) (p : Pipe) (i : ℕ) (bs : List CHAR8)
    (r : Pipe × ℕ × WriteStop) : Prop where
  le : i ≤ r.2.1
  contents : r.1.contents = p.contents ++ bs.take (r.2.1 - i)
  count_le : r.1.count ≤ PIPESIZE
  nread : r.1.nread = p.nread
  readopen : r.1.readopen = p.readopen
  writeopen : r.1.writeopen = p.writeopen
  done : r.2.2 = .done → r.2.1 = i + bs.length
  lt : r.2.2 ≠ .done → r.2.1 < i + bs.length ∧ r.1.full = true
  failed : r.2.2 = .failed → p.readopen = false ∨ killed = true
  sleeps : r.2.2 = .sleeps → p.readopen = true

theorem pipewrite_spec (killed : Bool) {p : Pipe} (h : p.count ≤ PIPESIZE) (i : ℕ)
    (bs : List CHAR8) : PipewriteSpec killed p i bs (pipewrite killed p i bs) := by
  induction bs generalizing p i with
  | nil => constructor <;> simp [pipewrite, h]
  | cons b bs ih =>
    rw [pipewrite]
    by_cases hfull : p.full = true
    · rw [if_pos hfull]
      cases hopen : p.readopen <;> cases killed <;>
        constructor <;> simp [hfull, h, hopen]
    · rw [if_neg hfull]
      have hroom : p.count < PIPESIZE := lt_of_le_of_ne h (mt Pipe.full_iff.mpr hfull)
      have hcount := Pipe.count_put hroom b
      have hnext := ih (p := p.put b) (by omega) (i + 1)
      have hle := hnext.le
      constructor
      · omega
      · rw [hnext.contents, Pipe.contents_put hroom, List.append_assoc,
          show (pipewrite killed (p.put b) (i + 1) bs).2.1 - i =
            (pipewrite killed (p.put b) (i + 1) bs).2.1 - (i + 1) + 1 by omega]
        rfl
      · exact hnext.count_le
      · exact hnext.nread
      · exact hnext.readopen
      · exact hnext.writeopen
      · intro hdone
        rw [hnext.done hdone, List.length_cons]
        omega
      · intro hstop
        obtain ⟨hlt, hfull'⟩ := hnext.lt hstop
        exact ⟨by rw [List.length_cons]; omega, hfull'⟩
      · exact hnext.failed
      · exact hnext.sleeps

theorem pipecopy_spec (n : ℕ) (p : Pipe) :
    p.contents = (pipecopy n p).2 ++ (pipecopy n p).1.contents ∧
      (pipecopy n p).2.length = min n p.count ∧
      (pipecopy n p).1.count = p.count - (pipecopy n p).2.length ∧
      (pipecopy n p).1.readopen = p.readopen ∧ (pipecopy n p).1.writeopen = p.writeopen := by
  induction n generalizing p with
  | zero => simp [pipecopy]
  | succ n ih =>
    rw [pipecopy]
    by_cases hempty : p.nread = p.nwrite
    · rw [if_pos hempty]
      simp [Pipe.count_eq_zero_iff.mpr hempty]
    · rw [if_neg hempty]
      obtain ⟨hcontents, hlength, hcount, hread, hwrite⟩ := ih p.advance
      have hpos := mt Pipe.count_eq_zero_iff.mp hempty
      rw [Pipe.count_advance hempty] at hlength hcount
      refine ⟨?_, ?_, ?_, hread, hwrite⟩
      · rw [Pipe.contents_front hempty, hcontents]
        rfl
      · simp only [List.length_cons]
        omega
      · simp only [List.length_cons]
        omega

end UefiGame.Kernel
