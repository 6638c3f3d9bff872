import UefiGame.Kernel.Log
import UefiGame.Library.CircularList
import UefiGame.Library.Interleaving

/-! # The buffer cache

Disk blocks are cached in a fixed number of buffers, which hang in a ring of
links with the most recently used one first. `bget` looks a block up, or takes
the least recently used buffer that nobody uses; a sleeping lock gives the
buffer to one process at a time. What the cache's spin lock covers is one step
here, and so is what a process does with a buffer it has locked.
-/

namespace UefiGame.Kernel

open CircularList

def NBUF : ℕ := MAXOPBLOCKS * 3

/-- A buffer without its links; `locked` is the holder of its sleeping lock. -/
structure Buf (ι : Type*) where
  valid : Bool
  dirty : Bool
  dev : UINT32
  blockno : UINT32
  locked : Option ι
  refcnt : ℕ
  data : Block

/-- A node of the ring; the head is a buffer that caches nothing. -/
abbrev Node := Option (Fin NBUF)

structure Bcache (ι : Type*) where
  buf : Fin NBUF → Buf ι
  links : Links Node

namespace Bcache

variable {ι : Type*} (c : Bcache ι)

/-- Assign to a buffer. -/
def set (k : Fin NBUF) (b : Buf ι) : Bcache ι := { c with buf := Function.update c.buf k b }

/-- The test of the first loop of `bget`. -/
def caches (dev blockno : UINT32) : Node → Bool
  | none => false
  | some k => (c.buf k).dev = dev ∧ (c.buf k).blockno = blockno

/-- The test of the second one. -/
def unused : Node → Bool
  | none => false
  | some k => (c.buf k).refcnt = 0 ∧ (c.buf k).dirty = false

end Bcache

/-- The links `binit` makes, from any. -/
def binit (l : Links Node) : Links Node :=
  (List.finRange NBUF).foldl (fun l k => l.linkFirst none (some k))
    ⟨Function.update l.next none none, Function.update l.prev none none⟩

/-- How `bget` ends before it waits for the lock of the buffer. -/
inductive BgetEnd
  | cached (k : Fin NBUF)
  | recycled (k : Fin NBUF)
  | panic
  deriving DecidableEq

/-- The loops of `bget`; `none` if they do not end. -/
def bgetEnd {ι : Type*} (c : Bcache ι) (dev blockno : UINT32) : Option BgetEnd :=
  (find c.links.next none (c.caches dev blockno) (NBUF + 1) (c.links.next none)).bind fun r =>
    match r with
    | some (some k) => some (.cached k)
    | _ => (find c.links.prev none c.unused (NBUF + 1) (c.links.prev none)).bind fun r =>
      match r with
      | some (some k) => some (.recycled k)
      | _ => some .panic

/-- `iderw` on a buffer that is locked, with a disk of `disksize` blocks; `none` if it panics. -/
def iderw {ι : Type*} (disksize : ℕ) (b : Buf ι) (disk : ℕ → Block) :
    Option (Buf ι × (ℕ → Block)) :=
  if b.valid && !b.dirty then none
  else if b.dev ≠ 1 then none
  else if disksize ≤ b.blockno.toNat then none
  else if b.dirty then
    some ({ b with dirty := false, valid := true }, Function.update disk b.blockno.toNat b.data)
  else some ({ b with data := disk b.blockno.toNat, valid := true }, disk)

/-! ## Processes and the disk -/

/-- What a process does with the cache besides using buffers it has locked. -/
inductive BioTask
  | idle
  | waiting (k : Fin NBUF)
  | releasing (k : Fin NBUF)
  deriving DecidableEq

def BioTask.buffer : BioTask → Option (Fin NBUF)
  | idle => none
  | waiting k => some k
  | releasing k => some k

/-- The cache with the disk below and the processes above it. `order` and `holders` are the ring and
the references as lists, `touched` tells which buffers were changed after they were last written or
logged, and `current` is what was last stored for each block. -/
structure BioSystem (ι : Type*) where
  cache : Bcache ι
  disk : ℕ → Block
  task : ι → BioTask
  panicked : Bool
  order : List (Fin NBUF)
  holders : Fin NBUF → List ι
  touched : Fin NBUF → Bool
  current : ℕ → Block

inductive BioAction (ι : Type*)
  | bget (i : ι) (dev blockno : UINT32)
  | acquire (i : ι)
  | store (i : ι) (k : Fin NBUF) (data : Block)
  | bwrite (i : ι) (k : Fin NBUF)
  | log_write (i : ι) (k : Fin NBUF)
  | brelse (i : ι) (k : Fin NBUF)
  | putBack (i : ι)

variable {ι : Type*}

/-- The cache before any use, over any disk: static memory, with the links made by `binit`. -/
def bioStart (l : Links Node) (data : Fin NBUF → Block) (disk : ℕ → Block) : BioSystem ι where
  cache := ⟨fun k => ⟨false, false, 0, 0, none, 0, data k⟩, binit l⟩
  disk := disk
  task _ := .idle
  panicked := false
  order := (List.finRange NBUF).reverse
  holders _ := []
  touched _ := false
  current := disk

variable [DecidableEq ι]

/-- `bget` up to the wait for the sleeping lock. -/
def bgetStep (s : BioSystem ι) (i : ι) (dev blockno : UINT32) : Option (BioSystem ι) :=
  (bgetEnd s.cache dev blockno).map fun r =>
    match r with
    | .cached k => { s with
        cache := s.cache.set k { s.cache.buf k with refcnt := (s.cache.buf k).refcnt + 1 }
        task := Function.update s.task i (.waiting k)
        holders := Function.update s.holders k (i :: s.holders k) }
    | .recycled k => { s with
        cache := s.cache.set k
          { s.cache.buf k with
            dev := dev, blockno := blockno, valid := false, dirty := false, refcnt := 1 }
        task := Function.update s.task i (.waiting k)
        holders := Function.update s.holders k (i :: s.holders k) }
    | .panic => { s with panicked := true }

/-- `acquiresleep` of the buffer, and the rest of `bread`. -/
def acquireStep (disksize : ℕ) (s : BioSystem ι) (i : ι) (k : Fin NBUF) : BioSystem ι :=
  let b := { s.cache.buf k with locked := some i }
  if b.valid then { s with
    cache := s.cache.set k b
    task := Function.update s.task i .idle }
  else match iderw disksize b s.disk with
    | none => { s with panicked := true }
    | some (b, disk) => { s with
        cache := s.cache.set k b
        disk := disk
        task := Function.update s.task i .idle }

/-- A process changes the data of a buffer. -/
def storeStep (s : BioSystem ι) (k : Fin NBUF) (data : Block) : BioSystem ι :=
  { s with
    cache := s.cache.set k { s.cache.buf k with data := data }
    touched := Function.update s.touched k true
    current := Function.update s.current (s.cache.buf k).blockno.toNat data }

/-- `bwrite`. -/
def bwriteStep (disksize : ℕ) (s : BioSystem ι) (i : ι) (k : Fin NBUF) : BioSystem ι :=
  if (s.cache.buf k).locked ≠ some i then { s with panicked := true }
  else match iderw disksize { s.cache.buf k with dirty := true } s.disk with
    | none => { s with panicked := true }
    | some (b, disk) => { s with
        cache := s.cache.set k b
        disk := disk
        touched := Function.update s.touched k false }

/-- What `log_write` does to a buffer. -/
def logWriteStep (s : BioSystem ι) (k : Fin NBUF) : BioSystem ι :=
  { s with
    cache := s.cache.set k { s.cache.buf k with dirty := true }
    touched := Function.update s.touched k false }

/-- `brelse` up to the release of the sleeping lock. -/
def brelseStep (s : BioSystem ι) (i : ι) (k : Fin NBUF) : BioSystem ι :=
  if (s.cache.buf k).locked ≠ some i then { s with panicked := true }
  else { s with
    cache := s.cache.set k { s.cache.buf k with locked := none }
    task := Function.update s.task i (.releasing k) }

/-- The rest of `brelse`. -/
def putBackStep (s : BioSystem ι) (i : ι) (k : Fin NBUF) : BioSystem ι :=
  let b := { s.cache.buf k with refcnt := (s.cache.buf k).refcnt - 1 }
  let s := { s with
    cache := s.cache.set k b
    task := Function.update s.task i .idle
    holders := Function.update s.holders k ((s.holders k).erase i) }
  if b.refcnt = 0 then { s with
    cache := { s.cache with links := (s.cache.links.unlink (some k)).linkFirst none (some k) }
    order := k :: s.order.erase k }
  else s

/-- One step of the system. A process uses buffers it has locked, and before it releases one it has
written or logged what it changed. -/
def bioStep (disksize : ℕ) (s : BioSystem ι) (a : BioAction ι) : Option (BioSystem ι) :=
  if s.panicked then none
  else match a with
    | .bget i dev blockno =>
      if s.task i = .idle then bgetStep s i dev blockno else none
    | .acquire i =>
      match s.task i with
      | .waiting k =>
        if (s.cache.buf k).locked = none then some (acquireStep disksize s i k) else none
      | _ => none
    | .store i k data =>
      if s.task i = .idle ∧ (s.cache.buf k).locked = some i then some (storeStep s k data) else none
    | .bwrite i k => if s.task i = .idle then some (bwriteStep disksize s i k) else none
    | .log_write i k =>
      if s.task i = .idle ∧ (s.cache.buf k).locked = some i then some (logWriteStep s k) else none
    | .brelse i k =>
      if s.task i = .idle ∧ s.touched k = false then some (brelseStep s i k) else none
    | .putBack i =>
      match s.task i with
      | .releasing k => some (putBackStep s i k)
      | _ => none

/-! ## The ring -/

section Ring

variable {ι : Type*} {c : Bcache ι} {order : List (Fin NBUF)} {dev blockno : UINT32}

theorem binit_ring (l : Links Node) :
    (binit l).Ring none ((List.finRange NBUF).reverse.map some) := by
  have hall : ∀ (ks done : List (Fin NBUF)) (l : Links Node), (ks ++ done).Nodup →
      l.Ring none (done.map some) →
      (ks.foldl (fun l k => l.linkFirst none (some k)) l).Ring none
        ((ks.reverse ++ done).map some) := by
    intro ks
    induction ks with
    | nil => exact fun done l _ hl => hl
    | cons k ks ih =>
      intro done l hnodup hl
      have hk : some k ∉ none :: done.map some := by
        rw [List.cons_append, List.nodup_cons, List.mem_append, not_or] at hnodup
        simpa using hnodup.1.2
      have hperm : (ks ++ k :: done).Nodup :=
        (List.perm_middle.nodup_iff).mpr hnodup
      have hnext := ih (k :: done) _ hperm (hl.linkFirst hk)
      rw [List.foldl_cons, List.reverse_cons, List.append_assoc]
      exact hnext
  have hstart : (⟨Function.update l.next none none, Function.update l.prev none none⟩ :
      Links Node).Ring none [] := by
    refine ⟨?_, List.nodup_singleton none⟩
    rw [List.cons_append, List.nil_append, List.isChain_pair]
    exact ⟨Function.update_self none none l.next, Function.update_self none none l.prev⟩
  have hring := hall (List.finRange NBUF) [] _ (by simpa using List.nodup_finRange NBUF) hstart
  rwa [List.append_nil] at hring

/-- The loops of `bget` search the list of the buffers from its front and from its back. -/
theorem bgetEnd_eq (hring : c.links.Ring none (order.map some)) (hlen : order.length = NBUF) :
    bgetEnd c dev blockno = some
      (match order.find? fun k => c.caches dev blockno (some k) with
      | some k => .cached k
      | none => match order.reverse.find? fun k => c.unused (some k) with
        | some k => .recycled k
        | none => .panic) := by
  have hfind : ∀ (p : Node → Bool) (ks : List (Fin NBUF)),
      (ks.map some).find? p = (ks.find? fun k => p (some k)).map some := by
    intro p ks
    rw [List.find?_map]
    rfl
  have hnext := hring.find_eq (p := c.caches dev blockno) (n := NBUF + 1) (by simp [hlen])
  have hprev := hring.reverse.find_eq (p := c.unused) (n := NBUF + 1) (by simp [hlen])
  rw [← List.map_reverse] at hprev
  rw [hfind] at hnext hprev
  dsimp only at hprev
  rw [bgetEnd, hnext, Option.bind_some]
  cases order.find? fun k => c.caches dev blockno (some k) with
  | some k => rfl
  | none =>
    rw [Option.map_none]
    dsimp only
    rw [hprev, Option.bind_some]
    cases order.reverse.find? fun k => c.unused (some k) with
    | some k => rfl
    | none => rfl

end Ring

end UefiGame.Kernel
