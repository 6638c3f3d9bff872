import UefiGame.Kernel.Bio

/-! # Runs of the buffer cache

Two things hold in every state that processes can bring the cache to: how the
buffers hang together and who refers to them, and where the content of each
block is. The second needs the first, since it rests on a block being cached
only once.
-/

namespace UefiGame.Kernel

open CircularList Interleaving

variable {ι : Type*} [DecidableEq ι] {s t : BioSystem ι} {i j : ι} {k k' : Fin NBUF}
  {dev blockno : UINT32} {disksize : ℕ}

/-- The ring has all buffers, at most one for each block of a device, and a buffer counts the
references to it: that of its holder, and those of processes that wait for it or put it back. -/
structure BioInv (s : BioSystem ι) : Prop where
  ring : s.cache.links.Ring none (s.order.map some)
  perm : s.order.Perm (List.finRange NBUF)
  unique : ∀ k k', (s.cache.buf k).dev ≠ 0 → (s.cache.buf k).dev = (s.cache.buf k').dev →
    (s.cache.buf k).blockno = (s.cache.buf k').blockno → k = k'
  refcnt : ∀ k, (s.cache.buf k).refcnt = (s.holders k).length
  holders : ∀ k i, (s.holders k).count i = (if (s.task i).buffer = some k then 1 else 0) +
    if (s.cache.buf k).locked = some i then 1 else 0

/-- A buffer that is valid has what was last stored for its block, and so has the disk, unless the
buffer is dirty or a process is changing it. -/
structure BufData (disksize : ℕ) (b : Buf ι) (touched : Bool) (disk current : ℕ → Block) :
    Prop where
  onDisk : b.valid = true → b.dev = 1 ∧ b.blockno.toNat < disksize
  locked : ∀ i, b.locked = some i → b.valid = true
  dirty : b.dirty = true → b.valid = true
  changing : touched = true → b.locked ≠ none
  data : b.valid = true → b.data = current b.blockno.toNat
  clean : b.valid = true → b.dirty = false → touched = false →
    disk b.blockno.toNat = current b.blockno.toNat

/-- Of blocks that are in no valid buffer the disk has what was last stored. -/
structure BioData (disksize : ℕ) (s : BioSystem ι) : Prop where
  buf : ∀ k, BufData disksize (s.cache.buf k) (s.touched k) s.disk s.current
  absent : ∀ n, (∀ k, (s.cache.buf k).valid = true → (s.cache.buf k).blockno.toNat ≠ n) →
    s.disk n = s.current n

namespace Bcache

variable {c : Bcache ι} {b : Buf ι}

omit [DecidableEq ι] in
@[simp] theorem set_links : (c.set k b).links = c.links := rfl

omit [DecidableEq ι] in
@[simp] theorem set_buf_self : (c.set k b).buf k = b := Function.update_self ..

omit [DecidableEq ι] in
theorem set_buf_of_ne (h : k' ≠ k) : (c.set k b).buf k' = c.buf k' := Function.update_of_ne h ..

omit [DecidableEq ι] in
theorem caches_some : c.caches dev blockno (some k) = true ↔
    (c.buf k).dev = dev ∧ (c.buf k).blockno = blockno := by simp [caches]

omit [DecidableEq ι] in
theorem unused_some :
    c.unused (some k) = true ↔ (c.buf k).refcnt = 0 ∧ (c.buf k).dirty = false := by
  simp [unused]

end Bcache

theorem BioInv.mem_order (hs : BioInv s) (k : Fin NBUF) : k ∈ s.order :=
  hs.perm.mem_iff.mpr (List.mem_finRange k)

theorem BioInv.length_order (hs : BioInv s) : s.order.length = NBUF := by
  rw [hs.perm.length_eq, List.length_finRange]

/-- What `bget` finds, or that nobody can use the cache any more. -/
theorem BioInv.bgetEnd_spec (hs : BioInv s) (dev blockno : UINT32) :
    (∃ k, bgetEnd s.cache dev blockno = some (.cached k) ∧ (s.cache.buf k).dev = dev ∧
      (s.cache.buf k).blockno = blockno) ∨
    ((∀ k, ¬ ((s.cache.buf k).dev = dev ∧ (s.cache.buf k).blockno = blockno)) ∧
      ((∃ k, bgetEnd s.cache dev blockno = some (.recycled k) ∧ (s.cache.buf k).refcnt = 0 ∧
          (s.cache.buf k).dirty = false ∧
          s.order.reverse.find? (fun k => s.cache.unused (some k)) = some k) ∨
        (bgetEnd s.cache dev blockno = some .panic ∧
          ∀ k, (s.cache.buf k).refcnt ≠ 0 ∨ (s.cache.buf k).dirty = true))) := by
  rw [bgetEnd_eq hs.ring hs.length_order]
  cases hcached : s.order.find? fun k => s.cache.caches dev blockno (some k) with
  | some k =>
    left
    have hfound := List.find?_some hcached
    exact ⟨k, rfl, Bcache.caches_some.mp hfound⟩
  | none =>
    right
    refine ⟨fun k hk => ?_, ?_⟩
    · exact List.find?_eq_none.mp hcached k (hs.mem_order k) (Bcache.caches_some.mpr hk)
    · cases hunused : s.order.reverse.find? fun k => s.cache.unused (some k) with
      | some k =>
        left
        have hfound := List.find?_some hunused
        obtain ⟨hrefcnt, hdirty⟩ := Bcache.unused_some.mp hfound
        exact ⟨k, rfl, hrefcnt, hdirty, rfl⟩
      | none =>
        right
        refine ⟨rfl, fun k => ?_⟩
        have hnot := List.find?_eq_none.mp hunused k (List.mem_reverse.mpr (hs.mem_order k))
        rw [Bcache.unused_some, not_and_or, Bool.not_eq_false] at hnot
        exact hnot

omit [DecidableEq ι] in
theorem iderw_frame {b b' : Buf ι} {disk disk' : ℕ → Block}
    (h : iderw disksize b disk = some (b', disk')) :
    b'.dev = b.dev ∧ b'.blockno = b.blockno ∧ b'.locked = b.locked ∧ b'.refcnt = b.refcnt := by
  unfold iderw at h
  split_ifs at h
  · obtain ⟨rfl, rfl⟩ := Prod.mk.inj (Option.some.inj h)
    exact ⟨rfl, rfl, rfl, rfl⟩
  · obtain ⟨rfl, rfl⟩ := Prod.mk.inj (Option.some.inj h)
    exact ⟨rfl, rfl, rfl, rfl⟩

/-! ## References -/

theorem BioInv.of_refcnt (hs : BioInv s) (h : (s.cache.buf k).refcnt = 0) :
    (s.cache.buf k).locked = none ∧ ∀ i, (s.task i).buffer ≠ some k := by
  rw [hs.refcnt, List.length_eq_zero_iff] at h
  constructor
  · rw [Option.eq_none_iff_forall_ne_some]
    intro i hi
    have hcount := hs.holders k i
    rw [h, if_pos hi, List.count_nil] at hcount
    omega
  · intro i hi
    have hcount := hs.holders k i
    rw [h, if_pos hi, List.count_nil] at hcount
    omega

theorem bioInv_bioStart (l : Links Node) (data : Fin NBUF → Block) (disk : ℕ → Block) :
    BioInv (bioStart l data disk : BioSystem ι) where
  ring := binit_ring l
  perm := List.reverse_perm _
  unique k k' h := absurd rfl h
  refcnt k := rfl
  holders k i := by simp [bioStart, BioTask.buffer]

theorem BioInv.set (hs : BioInv s) {b : Buf ι} {f : ι → BioTask}
    (hdev : b.dev = (s.cache.buf k).dev) (hblockno : b.blockno = (s.cache.buf k).blockno)
    (hrefcnt : b.refcnt = (s.cache.buf k).refcnt)
    (hrefs : ∀ j k', ((if (f j).buffer = some k' then 1 else 0) +
      if ((s.cache.set k b).buf k').locked = some j then 1 else 0 : ℕ) =
      (if (s.task j).buffer = some k' then 1 else 0) +
        if (s.cache.buf k').locked = some j then 1 else 0)
    (disk : ℕ → Block) (touched : Fin NBUF → Bool) (current : ℕ → Block) :
    BioInv { s with
      cache := s.cache.set k b, task := f, disk := disk, touched := touched
      current := current } := by
  have hsame : ∀ k', ((s.cache.set k b).buf k').dev = (s.cache.buf k').dev ∧
      ((s.cache.set k b).buf k').blockno = (s.cache.buf k').blockno ∧
      ((s.cache.set k b).buf k').refcnt = (s.cache.buf k').refcnt := by
    intro k'
    by_cases hk : k' = k
    · subst hk
      rw [Bcache.set_buf_self]
      exact ⟨hdev, hblockno, hrefcnt⟩
    · rw [Bcache.set_buf_of_ne hk]
      exact ⟨rfl, rfl, rfl⟩
  constructor
  case ring => exact hs.ring
  case perm => exact hs.perm
  case unique =>
    intro k₁ k₂
    dsimp only
    rw [(hsame k₁).1, (hsame k₂).1, (hsame k₁).2.1, (hsame k₂).2.1]
    exact hs.unique k₁ k₂
  case refcnt =>
    intro k'
    dsimp only
    rw [(hsame k').2.2, hs.refcnt]
  case holders =>
    intro k' j
    exact (hs.holders k' j).trans (hrefs j k').symm

theorem BioInv.refer (hs : BioInv s) {b : Buf ι} (hidle : s.task i = .idle)
    (hrefcnt : b.refcnt = (s.cache.buf k).refcnt + 1)
    (hlocked : b.locked = (s.cache.buf k).locked)
    (hunique : ∀ k', k' ≠ k → (s.cache.buf k').dev = b.dev → (s.cache.buf k').blockno = b.blockno →
      b.dev = 0) :
    BioInv { s with
      cache := s.cache.set k b
      task := Function.update s.task i (.waiting k)
      holders := Function.update s.holders k (i :: s.holders k) } := by
  constructor
  case ring => exact hs.ring
  case perm => exact hs.perm
  case unique =>
    intro k₁ k₂ hne hdev hblockno
    dsimp only at hne hdev hblockno
    by_cases h₁ : k₁ = k
    · subst h₁
      by_contra hnot
      rw [Bcache.set_buf_self] at hne hdev hblockno
      rw [Bcache.set_buf_of_ne (Ne.symm hnot)] at hdev hblockno
      exact hne (hunique k₂ (Ne.symm hnot) hdev.symm hblockno.symm)
    · rw [Bcache.set_buf_of_ne h₁] at hne hdev hblockno
      by_cases h₂ : k₂ = k
      · subst h₂
        rw [Bcache.set_buf_self] at hdev hblockno
        exact absurd (hdev.trans (hunique k₁ h₁ hdev hblockno)) hne
      · rw [Bcache.set_buf_of_ne h₂] at hdev hblockno
        exact hs.unique k₁ k₂ hne hdev hblockno
  case refcnt =>
    intro k'
    dsimp only
    by_cases hk : k' = k
    · subst hk
      rw [Bcache.set_buf_self, Function.update_self, hrefcnt, hs.refcnt, List.length_cons]
    · rw [Bcache.set_buf_of_ne hk, Function.update_of_ne hk, hs.refcnt]
  case holders =>
    intro k' j
    have hcount := hs.holders k' j
    dsimp only
    have hlock : ((s.cache.set k b).buf k').locked = (s.cache.buf k').locked := by
      by_cases hk : k' = k
      · subst hk
        rw [Bcache.set_buf_self, hlocked]
      · rw [Bcache.set_buf_of_ne hk]
    rw [hlock]
    by_cases hj : j = i
    · subst hj
      rw [hidle] at hcount
      by_cases hk : k' = k
      · subst hk
        simp only [Function.update_self, List.count_cons_self, hcount]
        simp [BioTask.buffer, Nat.add_comm]
      · simp only [Function.update_self, Function.update_of_ne hk, hcount]
        simp [BioTask.buffer, Ne.symm hk]
    · simp only [Function.update_of_ne hj]
      by_cases hk : k' = k
      · subst hk
        rw [Function.update_self, List.count_cons_of_ne (Ne.symm hj), hcount]
      · rw [Function.update_of_ne hk, hcount]

theorem BioInv.bget (hs : BioInv s) (hidle : s.task i = .idle)
    (h : bgetStep s i dev blockno = some t) :
    BioInv t := by
  rw [bgetStep] at h
  rcases hs.bgetEnd_spec dev blockno with ⟨k, hend, hdev, hblockno⟩ | ⟨hnone, hrest⟩
  · rw [hend] at h
    obtain rfl := Option.some.inj h
    refine hs.refer hidle rfl rfl fun k' hk hdev' hblockno' => ?_
    by_contra hzero
    exact hk (hs.unique k' k (hdev' ▸ hzero) hdev' hblockno')
  · rcases hrest with ⟨k, hend, hrefcnt, -, -⟩ | ⟨hend, -⟩
    · rw [hend] at h
      obtain rfl := Option.some.inj h
      refine hs.refer hidle (by rw [hrefcnt]) rfl fun k' _ hdev' hblockno' => ?_
      exact absurd ⟨hdev', hblockno'⟩ (hnone k')
    · rw [hend] at h
      obtain rfl := Option.some.inj h
      exact ⟨hs.ring, hs.perm, hs.unique, hs.refcnt, hs.holders⟩

/-- Getting the lock turns the reference of a process that waits into that of the holder. -/
theorem BioInv.acquire (hs : BioInv s) (hwaiting : s.task i = .waiting k)
    (hfree : (s.cache.buf k).locked = none) : BioInv (acquireStep disksize s i k) := by
  have hrefs : ∀ (b : Buf ι), b.locked = some i → ∀ j k',
      ((if (Function.update s.task i .idle j).buffer = some k' then 1 else 0) +
        if ((s.cache.set k b).buf k').locked = some j then 1 else 0 : ℕ) =
        (if (s.task j).buffer = some k' then 1 else 0) +
          if (s.cache.buf k').locked = some j then 1 else 0 := by
    intro b hb j k'
    by_cases hj : j = i
    · subst hj
      simp only [Function.update_self, hwaiting]
      by_cases hk : k' = k
      · subst hk
        rw [Bcache.set_buf_self, hb, hfree]
        simp [BioTask.buffer]
      · rw [Bcache.set_buf_of_ne hk]
        simp [BioTask.buffer, Ne.symm hk]
    · simp only [Function.update_of_ne hj]
      by_cases hk : k' = k
      · subst hk
        rw [Bcache.set_buf_self, hb, hfree]
        simp [Ne.symm hj]
      · rw [Bcache.set_buf_of_ne hk]
  rw [acquireStep]
  dsimp only
  split_ifs with hvalid
  · exact hs.set (k := k) (b := { s.cache.buf k with locked := some i }) rfl rfl rfl
      (hrefs _ rfl) _ _ _
  · cases hread : iderw disksize { s.cache.buf k with locked := some i } s.disk with
    | none => exact ⟨hs.ring, hs.perm, hs.unique, hs.refcnt, hs.holders⟩
    | some r =>
      obtain ⟨b, disk⟩ := r
      obtain ⟨hdev, hblockno, hlocked, hrefcnt⟩ := iderw_frame hread
      exact hs.set hdev hblockno hrefcnt (hrefs b hlocked) _ _ _

theorem BioInv.of_set (hs : BioInv s) {b : Buf ι}
    (hdev : b.dev = (s.cache.buf k).dev) (hblockno : b.blockno = (s.cache.buf k).blockno)
    (hlocked : b.locked = (s.cache.buf k).locked) (hrefcnt : b.refcnt = (s.cache.buf k).refcnt)
    (disk : ℕ → Block) (touched : Fin NBUF → Bool) (current : ℕ → Block) :
    BioInv { s with
      cache := s.cache.set k b, disk := disk, touched := touched, current := current } := by
  refine hs.set hdev hblockno hrefcnt (fun j k' => ?_) disk touched current
  by_cases hk : k' = k
  · subst hk
    rw [Bcache.set_buf_self, hlocked]
  · rw [Bcache.set_buf_of_ne hk]

theorem BioInv.bwrite (hs : BioInv s) : BioInv (bwriteStep disksize s i k) := by
  rw [bwriteStep]
  split_ifs
  · exact ⟨hs.ring, hs.perm, hs.unique, hs.refcnt, hs.holders⟩
  · cases hwrite : iderw disksize { s.cache.buf k with dirty := true } s.disk with
    | none => exact ⟨hs.ring, hs.perm, hs.unique, hs.refcnt, hs.holders⟩
    | some r =>
      obtain ⟨b, disk⟩ := r
      obtain ⟨hdev, hblockno, hlocked, hrefcnt⟩ := iderw_frame hwrite
      exact hs.of_set hdev hblockno hlocked hrefcnt _ _ _

/-- Letting the lock go turns the reference of the holder into that of a process that puts back. -/
theorem BioInv.brelse (hs : BioInv s) (hidle : s.task i = .idle) : BioInv (brelseStep s i k) := by
  rw [brelseStep]
  split_ifs with hlocked
  · exact ⟨hs.ring, hs.perm, hs.unique, hs.refcnt, hs.holders⟩
  · rw [not_not] at hlocked
    refine hs.set (k := k) (b := { s.cache.buf k with locked := none }) rfl rfl rfl
      (fun j k' => ?_) _ _ _
    by_cases hj : j = i
    · subst hj
      simp only [Function.update_self, hidle]
      by_cases hk : k' = k
      · subst hk
        rw [Bcache.set_buf_self, hlocked]
        simp [BioTask.buffer]
      · rw [Bcache.set_buf_of_ne hk]
        simp [BioTask.buffer, Ne.symm hk]
    · simp only [Function.update_of_ne hj]
      by_cases hk : k' = k
      · subst hk
        rw [Bcache.set_buf_self, hlocked]
        simp [Ne.symm hj]
      · rw [Bcache.set_buf_of_ne hk]

/-- A buffer that loses its last reference goes to the front of the ring. -/
theorem BioInv.putBack (hs : BioInv s) (hreleasing : s.task i = .releasing k) :
    BioInv (putBackStep s i k) := by
  have hmem : i ∈ s.holders k := by
    rw [← List.count_pos_iff, hs.holders, hreleasing, BioTask.buffer, if_pos rfl]
    omega
  have hbuf : ∀ k', ((s.cache.set k { s.cache.buf k with
      refcnt := (s.cache.buf k).refcnt - 1 }).buf k').dev = (s.cache.buf k').dev ∧
      ((s.cache.set k { s.cache.buf k with refcnt := (s.cache.buf k).refcnt - 1 }).buf k').blockno =
        (s.cache.buf k').blockno ∧
      ((s.cache.set k { s.cache.buf k with refcnt := (s.cache.buf k).refcnt - 1 }).buf k').locked =
        (s.cache.buf k').locked := by
    intro k'
    by_cases hk : k' = k
    · subst hk
      rw [Bcache.set_buf_self]
      exact ⟨rfl, rfl, rfl⟩
    · rw [Bcache.set_buf_of_ne hk]
      exact ⟨rfl, rfl, rfl⟩
  have hless : BioInv { s with
      cache := s.cache.set k { s.cache.buf k with refcnt := (s.cache.buf k).refcnt - 1 }
      task := Function.update s.task i .idle
      holders := Function.update s.holders k ((s.holders k).erase i) } := by
    constructor
    case ring => exact hs.ring
    case perm => exact hs.perm
    case unique =>
      intro k₁ k₂
      dsimp only
      rw [(hbuf k₁).1, (hbuf k₂).1, (hbuf k₁).2.1, (hbuf k₂).2.1]
      exact hs.unique k₁ k₂
    case refcnt =>
      intro k'
      dsimp only
      by_cases hk : k' = k
      · subst hk
        rw [Bcache.set_buf_self, Function.update_self, List.length_erase_of_mem hmem, hs.refcnt]
      · rw [Bcache.set_buf_of_ne hk, Function.update_of_ne hk, hs.refcnt]
    case holders =>
      intro k' j
      have hcount := hs.holders k' j
      dsimp only
      rw [(hbuf k').2.2]
      by_cases hj : j = i
      · subst hj
        rw [hreleasing] at hcount
        by_cases hk : k' = k
        · subst hk
          simp only [Function.update_self, List.count_erase_self, hcount]
          simp [BioTask.buffer]
        · simp only [Function.update_self, Function.update_of_ne hk, hcount]
          simp [BioTask.buffer, Ne.symm hk]
      · simp only [Function.update_of_ne hj]
        by_cases hk : k' = k
        · subst hk
          rw [Function.update_self, List.count_erase_of_ne hj, hcount]
        · rw [Function.update_of_ne hk, hcount]
  rw [putBackStep]
  dsimp only
  split_ifs
  · obtain ⟨xs, ys, hsplit, hxs⟩ := List.eq_append_cons_of_mem (hs.mem_order k)
    have herase : s.order.erase k = xs ++ ys := by
      rw [hsplit, List.erase_append_right _ hxs, List.erase_cons_head]
    have hring := hs.ring
    have hperm := hs.perm
    rw [hsplit, List.map_append, List.map_cons] at hring
    rw [hsplit] at hperm
    have hys : k ∉ ys := by
      have hnodup := hperm.nodup_iff.mpr (List.nodup_finRange NBUF)
      rw [List.nodup_middle, List.nodup_cons, List.mem_append, not_or] at hnodup
      exact hnodup.1.2
    refine { hless with ring := ?_, perm := ?_ }
    · dsimp only
      rw [herase, List.map_cons, List.map_append]
      refine hring.unlink.linkFirst ?_
      simp [hxs, hys]
    · dsimp only
      rw [herase]
      exact List.perm_middle.symm.trans hperm
  · exact hless

theorem BioInv.step (hs : BioInv s) {a : BioAction ι} (h : bioStep disksize s a = some t) :
    BioInv t := by
  unfold bioStep at h
  split at h
  · cases h
  · split at h
    · next i dev blockno =>
      split at h
      · next hidle => exact hs.bget hidle h
      · cases h
    · next i =>
      split at h
      · next k hwaiting =>
        split at h
        · next hfree =>
          obtain rfl := Option.some.inj h
          exact hs.acquire hwaiting hfree
        · cases h
      · cases h
    · next i k data =>
      split at h
      · obtain rfl := Option.some.inj h
        exact hs.of_set (k := k) (b := { s.cache.buf k with data := data }) rfl rfl rfl rfl _ _ _
      · cases h
    · next i k =>
      split at h
      · obtain rfl := Option.some.inj h
        exact hs.bwrite
      · cases h
    · next i k =>
      split at h
      · obtain rfl := Option.some.inj h
        exact hs.of_set (k := k) (b := { s.cache.buf k with dirty := true }) rfl rfl rfl rfl _ _ _
      · cases h
    · next i k =>
      split at h
      · next hidle =>
        obtain rfl := Option.some.inj h
        exact hs.brelse hidle.1
      · cases h
    · next i =>
      split at h
      · next k hreleasing =>
        obtain rfl := Option.some.inj h
        exact hs.putBack hreleasing
      · cases h

/-! ## Contents -/

omit [DecidableEq ι] in
theorem bioData_bioStart (l : Links Node) (data : Fin NBUF → Block) (disk : ℕ → Block) :
    BioData disksize (bioStart l data disk : BioSystem ι) where
  buf k := by
    constructor
    case locked => exact fun i h => by cases h
    all_goals exact fun h => by cases h
  absent n h := rfl

omit [DecidableEq ι] in
/-- A step that changes one buffer, and the disk and the last contents in no block that another
valid buffer has. -/
theorem BioData.of_set (hd : BioData disksize s)
    (hcache : ∀ k', k' ≠ k → t.cache.buf k' = s.cache.buf k')
    (htouched : ∀ k', k' ≠ k → t.touched k' = s.touched k')
    (hbuf : BufData disksize (t.cache.buf k) (t.touched k) t.disk t.current)
    (hothers : ∀ k', k' ≠ k → (s.cache.buf k').valid = true →
      t.disk (s.cache.buf k').blockno.toNat = s.disk (s.cache.buf k').blockno.toNat ∧
      t.current (s.cache.buf k').blockno.toNat = s.current (s.cache.buf k').blockno.toNat)
    (habsent : ∀ n, (∀ k', (t.cache.buf k').valid = true → (t.cache.buf k').blockno.toNat ≠ n) →
      t.disk n = t.current n) : BioData disksize t where
  buf k' := by
    by_cases hk : k' = k
    · subst hk
      exact hbuf
    · have hold := hd.buf k'
      rw [hcache k' hk, htouched k' hk]
      refine ⟨hold.onDisk, hold.locked, hold.dirty, hold.changing, fun hvalid => ?_,
        fun hvalid hdirty htouched => ?_⟩
      · rw [(hothers k' hk hvalid).2]
        exact hold.data hvalid
      · rw [(hothers k' hk hvalid).1, (hothers k' hk hvalid).2]
        exact hold.clean hvalid hdirty htouched
  absent := habsent

omit [DecidableEq ι] in
theorem BioData.of_keep (hd : BioData disksize s)
    (hcache : ∀ k', k' ≠ k → t.cache.buf k' = s.cache.buf k')
    (htouched : ∀ k', k' ≠ k → t.touched k' = s.touched k')
    (hbuf : BufData disksize (t.cache.buf k) (t.touched k) s.disk s.current)
    (hkeep : (s.cache.buf k).valid = true → (t.cache.buf k).valid = true ∧
      (t.cache.buf k).blockno = (s.cache.buf k).blockno)
    (hdisk : t.disk = s.disk) (hcurrent : t.current = s.current) : BioData disksize t := by
  refine hd.of_set hcache htouched (hdisk ▸ hcurrent ▸ hbuf)
    (fun k' _ _ => by rw [hdisk, hcurrent]; simp)
    fun n hn => ?_
  rw [hdisk, hcurrent]
  refine hd.absent n fun k' hvalid => ?_
  by_cases hk : k' = k
  · subst hk
    obtain ⟨hvalid', hblockno⟩ := hkeep hvalid
    rw [← hblockno]
    exact hn k' hvalid'
  · rw [← hcache k' hk] at hvalid ⊢
    exact hn k' hvalid

theorem BioData.blockno_ne (hd : BioData disksize s) (hs : BioInv s)
    (hdev : (s.cache.buf k).dev = 1) (hk : k' ≠ k) (hvalid : (s.cache.buf k').valid = true) :
    (s.cache.buf k').blockno.toNat ≠ (s.cache.buf k).blockno.toNat := by
  intro hblockno
  have hdev' := ((hd.buf k').onDisk hvalid).1
  refine hk (hs.unique k' k ?_ (hdev'.trans hdev.symm) (BitVec.eq_of_toNat_eq hblockno))
  rw [hdev']
  decide

theorem BioData.bget (hd : BioData disksize s) (hs : BioInv s)
    (h : bgetStep s i dev blockno = some t) : BioData disksize t := by
  rw [bgetStep] at h
  rcases hs.bgetEnd_spec dev blockno with ⟨k, hend, -⟩ |
    ⟨-, ⟨k, hend, hrefcnt, hdirty, -⟩ | ⟨hend, -⟩⟩
  · rw [hend] at h
    obtain rfl := Option.some.inj h
    have hbuf := hd.buf k
    refine hd.of_keep (k := k) (fun k' hk => Bcache.set_buf_of_ne hk) (fun _ _ => rfl) ?_ ?_ rfl rfl
    · dsimp only
      rw [Bcache.set_buf_self]
      exact ⟨hbuf.onDisk, hbuf.locked, hbuf.dirty, hbuf.changing, hbuf.data, hbuf.clean⟩
    · intro hvalid
      dsimp only
      rw [Bcache.set_buf_self]
      exact ⟨hvalid, rfl⟩
  · rw [hend] at h
    obtain rfl := Option.some.inj h
    have hbuf := hd.buf k
    have hfree := (hs.of_refcnt hrefcnt).1
    have htouched : s.touched k = false := by
      by_contra hnot
      exact hbuf.changing ((Bool.not_eq_false _).mp hnot) hfree
    refine hd.of_set (k := k) (fun k' hk => Bcache.set_buf_of_ne hk) (fun _ _ => rfl) ?_
      (fun _ _ _ => ⟨rfl, rfl⟩) fun n hn => ?_
    · dsimp only
      rw [Bcache.set_buf_self, htouched]
      constructor
      case locked =>
        intro j hj
        dsimp only at hj
        rw [hfree] at hj
        cases hj
      all_goals exact fun h => by cases h
    · -- the block the buffer had is on disk, as the buffer is clean
      dsimp only at hn ⊢
      by_cases hold : (s.cache.buf k).valid = true ∧ (s.cache.buf k).blockno.toNat = n
      · rw [← hold.2]
        exact hbuf.clean hold.1 hdirty htouched
      · refine hd.absent n fun k' hvalid hblockno => ?_
        by_cases hk : k' = k
        · subst hk
          exact hold ⟨hvalid, hblockno⟩
        · refine hn k' ?_ ?_
          · rw [Bcache.set_buf_of_ne hk]
            exact hvalid
          · rw [Bcache.set_buf_of_ne hk]
            exact hblockno
  · rw [hend] at h
    obtain rfl := Option.some.inj h
    exact ⟨hd.buf, hd.absent⟩

theorem BioData.acquire (hd : BioData disksize s) (hs : BioInv s)
    (hfree : (s.cache.buf k).locked = none) : BioData disksize (acquireStep disksize s i k) := by
  have hbuf := hd.buf k
  have htouched : s.touched k = false := by
    by_contra hnot
    exact hbuf.changing ((Bool.not_eq_false _).mp hnot) hfree
  rw [acquireStep]
  dsimp only
  split_ifs with hvalid
  · refine hd.of_keep (k := k) (fun k' hk => Bcache.set_buf_of_ne hk) (fun _ _ => rfl) ?_ ?_ rfl rfl
    · dsimp only
      rw [Bcache.set_buf_self, htouched]
      exact ⟨hbuf.onDisk, fun _ _ => hvalid, hbuf.dirty, (fun h => by cases h), hbuf.data,
        fun hvalid hdirty _ => hbuf.clean hvalid hdirty htouched⟩
    · intro _
      dsimp only
      rw [Bcache.set_buf_self]
      exact ⟨hvalid, rfl⟩
  · have hclean : (s.cache.buf k).dirty = false := by
      by_contra hnot
      exact hvalid (hbuf.dirty ((Bool.not_eq_false _).mp hnot))
    unfold iderw
    rw [hclean]
    simp only [hvalid, Bool.false_and, Bool.false_eq_true, if_false]
    by_cases hdev : (s.cache.buf k).dev = 1
    · by_cases hsize : disksize ≤ (s.cache.buf k).blockno.toNat
      · rw [if_neg (not_not.mpr hdev), if_pos hsize]
        exact ⟨hd.buf, hd.absent⟩
      · rw [if_neg (not_not.mpr hdev), if_neg hsize]
        -- no other buffer has the block, so the disk has what was last stored
        have hlast : s.disk (s.cache.buf k).blockno.toNat =
            s.current (s.cache.buf k).blockno.toNat := by
          refine hd.absent _ fun k' hvalid' => hd.blockno_ne hs hdev ?_ hvalid'
          rintro rfl
          exact hvalid hvalid'
        refine hd.of_keep (k := k) (fun k' hk => Bcache.set_buf_of_ne hk)
          (fun _ _ => rfl) ?_ ?_ rfl rfl
        · dsimp only
          rw [Bcache.set_buf_self, htouched]
          exact ⟨fun _ => ⟨hdev, not_le.mp hsize⟩, fun _ _ => rfl, fun _ => rfl,
            (fun h => by cases h), fun _ => hlast, fun _ _ _ => hlast⟩
        · intro hnot
          exact absurd hnot hvalid
    · rw [if_pos hdev]
      exact ⟨hd.buf, hd.absent⟩

theorem BioData.store (hd : BioData disksize s) (hs : BioInv s) {data : Block}
    (hlocked : (s.cache.buf k).locked = some i) : BioData disksize (storeStep s k data) := by
  have hbuf := hd.buf k
  have hvalid := hbuf.locked i hlocked
  obtain ⟨hdev, hsize⟩ := hbuf.onDisk hvalid
  rw [storeStep]
  refine hd.of_set (k := k) (fun k' hk => Bcache.set_buf_of_ne hk)
    (fun k' hk => Function.update_of_ne hk ..) ?_ ?_ fun n hn => ?_
  · dsimp only
    rw [Bcache.set_buf_self, Function.update_self]
    refine ⟨fun _ => ⟨hdev, hsize⟩, fun _ _ => hvalid, fun _ => hvalid, fun _ => ?_,
      fun _ => (Function.update_self (s.cache.buf k).blockno.toNat data s.current).symm,
      fun _ _ h => by cases h⟩
    rw [hlocked]
    exact Option.some_ne_none i
  · intro k' hk hvalid'
    exact ⟨rfl, Function.update_of_ne (hd.blockno_ne hs hdev hk hvalid') ..⟩
  · dsimp only at hn ⊢
    have hself := hn k
    rw [Bcache.set_buf_self] at hself
    rw [Function.update_of_ne (Ne.symm (hself hvalid))]
    refine hd.absent n fun k' hvalid' => ?_
    by_cases hk : k' = k
    · subst hk
      exact hself hvalid
    · have hother := hn k'
      rw [Bcache.set_buf_of_ne hk] at hother
      exact hother hvalid'

theorem BioData.bwriteStep_eq (hd : BioData disksize s)
    (hlocked : (s.cache.buf k).locked = some i) :
    bwriteStep disksize s i k = { s with
      cache := s.cache.set k { s.cache.buf k with dirty := false }
      disk := Function.update s.disk (s.cache.buf k).blockno.toNat (s.cache.buf k).data
      touched := Function.update s.touched k false } := by
  have hvalid := (hd.buf k).locked i hlocked
  obtain ⟨hdev, hsize⟩ := (hd.buf k).onDisk hvalid
  rw [bwriteStep, if_neg (not_not.mpr hlocked), iderw]
  simp [hvalid, hdev, not_le.mpr hsize]

theorem BioData.bwrite (hd : BioData disksize s) (hs : BioInv s) :
    BioData disksize (bwriteStep disksize s i k) := by
  by_cases hlocked : (s.cache.buf k).locked = some i
  · have hbuf := hd.buf k
    have hvalid := hbuf.locked i hlocked
    obtain ⟨hdev, hsize⟩ := hbuf.onDisk hvalid
    rw [hd.bwriteStep_eq hlocked]
    refine hd.of_set (k := k) (fun k' hk => Bcache.set_buf_of_ne hk)
      (fun k' hk => Function.update_of_ne hk ..) ?_ ?_ fun n hn => ?_
    · dsimp only
      rw [Bcache.set_buf_self, Function.update_self]
      refine ⟨fun _ => ⟨hdev, hsize⟩, fun _ _ => hvalid, (fun h => by cases h),
        (fun h => by cases h),
        fun _ => hbuf.data hvalid, fun _ _ _ => ?_⟩
      exact (Function.update_self ..).trans (hbuf.data hvalid)
    · intro k' hk hvalid'
      exact ⟨Function.update_of_ne (hd.blockno_ne hs hdev hk hvalid') .., rfl⟩
    · dsimp only at hn ⊢
      have hself := hn k
      rw [Bcache.set_buf_self] at hself
      rw [Function.update_of_ne (Ne.symm (hself hvalid))]
      refine hd.absent n fun k' hvalid' => ?_
      by_cases hk : k' = k
      · subst hk
        exact hself hvalid
      · have hother := hn k'
        rw [Bcache.set_buf_of_ne hk] at hother
        exact hother hvalid'
  · rw [bwriteStep, if_pos hlocked]
    exact ⟨hd.buf, hd.absent⟩

omit [DecidableEq ι] in
theorem BioData.log_write (hd : BioData disksize s) (hlocked : (s.cache.buf k).locked = some i) :
    BioData disksize (logWriteStep s k) := by
  have hbuf := hd.buf k
  have hvalid := hbuf.locked i hlocked
  refine hd.of_keep (k := k) (fun k' hk => Bcache.set_buf_of_ne hk)
    (fun k' hk => Function.update_of_ne hk ..) ?_ ?_ rfl rfl
  · rw [logWriteStep]
    dsimp only
    rw [Bcache.set_buf_self, Function.update_self]
    exact ⟨hbuf.onDisk, hbuf.locked, fun _ => hvalid, (fun h => by cases h), hbuf.data,
      fun _ h => by cases h⟩
  · intro hvalid
    rw [logWriteStep]
    dsimp only
    rw [Bcache.set_buf_self]
    exact ⟨hvalid, rfl⟩

theorem BioData.brelse (hd : BioData disksize s) (htouched : s.touched k = false) :
    BioData disksize (brelseStep s i k) := by
  have hbuf := hd.buf k
  rw [brelseStep]
  split_ifs
  · exact ⟨hd.buf, hd.absent⟩
  · refine hd.of_keep (k := k) (fun k' hk => Bcache.set_buf_of_ne hk) (fun _ _ => rfl) ?_ ?_ rfl rfl
    · dsimp only
      rw [Bcache.set_buf_self, htouched]
      exact ⟨hbuf.onDisk, (fun _ h => by cases h), hbuf.dirty, (fun h => by cases h), hbuf.data,
        fun hvalid hdirty _ => hbuf.clean hvalid hdirty htouched⟩
    · intro hvalid
      dsimp only
      rw [Bcache.set_buf_self]
      exact ⟨hvalid, rfl⟩

theorem BioData.putBack (hd : BioData disksize s) : BioData disksize (putBackStep s i k) := by
  have hbuf := hd.buf k
  rw [putBackStep]
  dsimp only
  split_ifs
  all_goals
    refine hd.of_keep (k := k) (fun k' hk => Bcache.set_buf_of_ne hk) (fun _ _ => rfl) ?_ ?_ rfl rfl
    · dsimp only
      rw [Bcache.set_buf_self]
      exact ⟨hbuf.onDisk, hbuf.locked, hbuf.dirty, hbuf.changing, hbuf.data, hbuf.clean⟩
    · intro hvalid
      dsimp only
      rw [Bcache.set_buf_self]
      exact ⟨hvalid, rfl⟩

theorem BioData.step (hd : BioData disksize s) (hs : BioInv s) {a : BioAction ι}
    (h : bioStep disksize s a = some t) : BioData disksize t := by
  unfold bioStep at h
  split at h
  · cases h
  · split at h
    · split at h
      · exact hd.bget hs h
      · cases h
    · split at h
      · split at h
        · next hfree =>
          obtain rfl := Option.some.inj h
          exact hd.acquire hs hfree
        · cases h
      · cases h
    · split at h
      · next hlocked =>
        obtain rfl := Option.some.inj h
        exact hd.store hs hlocked.2
      · cases h
    · split at h
      · obtain rfl := Option.some.inj h
        exact hd.bwrite hs
      · cases h
    · split at h
      · next hlocked =>
        obtain rfl := Option.some.inj h
        exact hd.log_write hlocked.2
      · cases h
    · split at h
      · next htouched =>
        obtain rfl := Option.some.inj h
        exact hd.brelse htouched.2
      · cases h
    · split at h
      · obtain rfl := Option.some.inj h
        exact hd.putBack
      · cases h

/-! ## Runs -/

section Runs

variable {l : Links Node} {data : Fin NBUF → Block} {disk : ℕ → Block} {as : List (BioAction ι)}

theorem bio_run (hrun : run (bioStep disksize) (bioStart l data disk) as = some s) :
    BioInv s ∧ BioData disksize s := by
  refine invariant (I := fun s => BioInv s ∧ BioData disksize s) ?_ ?_ hrun
  · rintro s a t ⟨hs, hd⟩ h
    exact ⟨hs.step h, hd.step hs h⟩
  · exact ⟨bioInv_bioStart l data disk, bioData_bioStart l data disk⟩

/-- In every state that processes reach, the links are a ring of all buffers in the order of their
last use, a block of a device is cached at most once, and each buffer counts those who hold it, wait
for it or put it back. So the loops of `bget` end, with the buffer that has the block; else with the
unused buffer whose use is longest ago; and in a panic only when each buffer is in use or pinned. -/
theorem bcache_ring (hrun : run (bioStep disksize) (bioStart l data disk) as = some s) :
    s.cache.links.Ring none (s.order.map some) ∧ s.order.Perm (List.finRange NBUF) ∧
    (∀ k k', (s.cache.buf k).dev ≠ 0 → (s.cache.buf k).dev = (s.cache.buf k').dev →
      (s.cache.buf k).blockno = (s.cache.buf k').blockno → k = k') ∧
    (∀ k, (s.cache.buf k).refcnt = (s.holders k).length ∧ ∀ i, (s.holders k).count i =
      (if (s.task i).buffer = some k then 1 else 0) +
        if (s.cache.buf k).locked = some i then 1 else 0) ∧
    ∀ dev blockno,
      (∃ k, bgetEnd s.cache dev blockno = some (.cached k) ∧ (s.cache.buf k).dev = dev ∧
        (s.cache.buf k).blockno = blockno) ∨
      ((∀ k, ¬ ((s.cache.buf k).dev = dev ∧ (s.cache.buf k).blockno = blockno)) ∧
        ((∃ k, bgetEnd s.cache dev blockno = some (.recycled k) ∧ (s.cache.buf k).refcnt = 0 ∧
            (s.cache.buf k).dirty = false ∧
            s.order.reverse.find? (fun k => s.cache.unused (some k)) = some k) ∨
          (bgetEnd s.cache dev blockno = some .panic ∧
            ∀ k, (s.cache.buf k).refcnt ≠ 0 ∨ (s.cache.buf k).dirty = true))) := by
  obtain ⟨hs, -⟩ := bio_run hrun
  exact ⟨hs.ring, hs.perm, hs.unique, fun k => ⟨hs.refcnt k, hs.holders k⟩, hs.bgetEnd_spec⟩

/-- In every state that processes reach, a buffer that a process has locked has what was last stored
for its block, and the disk has it of every block that is in no buffer, or in one that is neither
pinned nor locked. The driver panics for a block that is not on the disk, and only then. -/
theorem bcache_coherent (hrun : run (bioStep disksize) (bioStart l data disk) as = some s) :
    (∀ k i, (s.cache.buf k).locked = some i → (s.cache.buf k).valid = true ∧
      (s.cache.buf k).data = s.current (s.cache.buf k).blockno.toNat ∧
      (bwriteStep disksize s i k).panicked = s.panicked) ∧
    (∀ k, (s.cache.buf k).valid = true → (s.cache.buf k).dirty = false →
      (s.cache.buf k).locked = none →
      s.disk (s.cache.buf k).blockno.toNat = s.current (s.cache.buf k).blockno.toNat) ∧
    (∀ n, (∀ k, (s.cache.buf k).valid = true → (s.cache.buf k).blockno.toNat ≠ n) →
      s.disk n = s.current n) ∧
    ∀ i k, (s.cache.buf k).locked = none → s.panicked = false →
      ((acquireStep disksize s i k).panicked = true ↔
        ¬ ((s.cache.buf k).dev = 1 ∧ (s.cache.buf k).blockno.toNat < disksize)) := by
  obtain ⟨-, hd⟩ := bio_run hrun
  refine ⟨fun k i hlocked => ?_, fun k hvalid hdirty hfree => ?_, hd.absent, fun i k _ hnot => ?_⟩
  · have hvalid := (hd.buf k).locked i hlocked
    refine ⟨hvalid, (hd.buf k).data hvalid, ?_⟩
    rw [hd.bwriteStep_eq hlocked]
  · refine (hd.buf k).clean hvalid hdirty ?_
    by_contra htouched
    exact (hd.buf k).changing ((Bool.not_eq_false _).mp htouched) hfree
  · rw [acquireStep]
    dsimp only
    split_ifs with hvalid
    · simp [hnot, (hd.buf k).onDisk hvalid]
    · have hclean : (s.cache.buf k).dirty = false := by
        by_contra hdirty
        exact hvalid ((hd.buf k).dirty ((Bool.not_eq_false _).mp hdirty))
      unfold iderw
      rw [hclean]
      simp only [hvalid, Bool.false_and, Bool.false_eq_true, if_false]
      by_cases hdev : (s.cache.buf k).dev = 1
      · by_cases hsize : disksize ≤ (s.cache.buf k).blockno.toNat
        · simp [hdev, hsize]
        · simp [hdev, hsize, hnot, not_le.mp hsize]
      · rw [if_pos hdev]
        simp only [true_iff]
        exact fun hgood => hdev hgood.1

end Runs

theorem NBUF_pos : 0 < NBUF := by decide

/-- One process changes and writes a block while another one waits for its buffer. -/
def bioShared : List (BioAction Bool) :=
  [.bget false 1 7, .acquire false, .bget true 1 7, .store false ⟨0, NBUF_pos⟩ fun _ => 5,
    .bwrite false ⟨0, NBUF_pos⟩, .brelse false ⟨0, NBUF_pos⟩, .acquire true, .putBack false]

def bioZero : BioSystem Bool := bioStart ⟨id, id⟩ (fun _ _ => 0) fun _ _ => 0

theorem isSome_bioShared : (run (bioStep 1000) bioZero bioShared).isSome = true := by decide +kernel

theorem bcache_ring_bioShared : ∃ s, run (bioStep 1000) bioZero bioShared = some s ∧
    s.cache.links.Ring none (s.order.map some) := by
  obtain ⟨s, hs⟩ := Option.isSome_iff_exists.mp isSome_bioShared
  exact ⟨s, hs, (bcache_ring hs).1⟩

theorem bcache_coherent_bioShared : ∃ s, run (bioStep 1000) bioZero bioShared = some s ∧
    ∀ k i, (s.cache.buf k).locked = some i →
      (s.cache.buf k).data = s.current (s.cache.buf k).blockno.toNat := by
  obtain ⟨s, hs⟩ := Option.isSome_iff_exists.mp isSome_bioShared
  exact ⟨s, hs, fun k i hlocked => ((bcache_coherent hs).1 k i hlocked).2.1⟩

end UefiGame.Kernel
