import UefiGame.Firmware.Types
import UefiGame.Library.RedoLog

/-! # The kernel's log

A transaction is kept in the buffer cache until it commits. The commit copies
its blocks to the log, writes the header, copies them home and clears the
header. Every `bwrite` is one write of the disk, and a crash can come between
any two of them; the code is followed through the writes it makes.
-/

namespace UefiGame.Kernel

/-- The data of a disk block, as its `BSIZE / sizeof(uint)` words. -/
abbrev Block := Fin 128 → UINT32

def MAXOPBLOCKS : ℕ := 10

def LOGSIZE : ℕ := MAXOPBLOCKS * 3

/-! ## The header -/

/-- `write_head` on the words of the header block: the count, then the block numbers. -/
def header (lh : List ℕ) (h : Block) : Block := fun j =>
  match j.val with
  | 0 => BitVec.ofNat 32 lh.length
  | i + 1 => match lh[i]? with
    | some b => BitVec.ofNat 32 b
    | none => h j

/-- `read_head`: as many block numbers as the first word says. -/
def readHeader (h : Block) : List ℕ :=
  (List.range (h 0).toInt.toNat).map fun i => (h (Fin.ofNat 128 (i + 1))).toNat

theorem readHeader_header {lh : List ℕ} (hlen : lh.length < 128) (hlt : ∀ b ∈ lh, b < 2 ^ 32)
    (h : Block) : readHeader (header lh h) = lh := by
  have hcount : (header lh h 0).toInt.toNat = lh.length := by
    simp only [header]
    rw [BitVec.toInt_eq_toNat_of_lt (by rw [BitVec.toNat_ofNat]; omega), BitVec.toNat_ofNat]
    omega
  rw [readHeader, hcount]
  apply List.ext_getElem
  · simp
  · intro i hi hi'
    have hmod : (i + 1) % 128 = i + 1 := Nat.mod_eq_of_lt (by omega)
    have hb := hlt lh[i] (List.getElem_mem hi')
    simp only [List.getElem_map, List.getElem_range, header, Fin.val_ofNat, hmod,
      List.getElem?_eq_getElem hi', BitVec.toNat_ofNat]
    exact Nat.mod_eq_of_lt hb

/-! ## Blocks read and written -/

/-- The disk before the writes so far, those writes, and what `bread` returns for each block. -/
structure Dev where
  base : ℕ → Block
  writes : List (ℕ × Block)
  cache : ℕ → Block

namespace Dev

def disk (d : Dev) : ℕ → Block := RedoLog.apply d.writes d.base

def bread (d : Dev) (b : ℕ) : Block := d.cache b

def bwrite (d : Dev) (b : ℕ) (data : Block) : Dev :=
  { d with writes := d.writes ++ [(b, data)], cache := Function.update d.cache b data }

end Dev

/-- Copy committed blocks from log to their home location. -/
def install_trans (start : ℕ) (lh : List ℕ) (d : Dev) : Dev :=
  lh.zipIdx.foldl (fun d (b, tail) => d.bwrite b (d.bread (start + tail + 1))) d

/-- Copy modified blocks from cache to log. -/
def write_log (start : ℕ) (lh : List ℕ) (d : Dev) : Dev :=
  lh.zipIdx.foldl (fun d (b, tail) => d.bwrite (start + tail + 1) (d.bread b)) d

/-- Write in-memory log header to disk. -/
def write_head (start : ℕ) (lh : List ℕ) (d : Dev) : Dev :=
  d.bwrite start (header lh (d.bread start))

def recover_from_log (start : ℕ) (d : Dev) : Dev :=
  write_head start [] (install_trans start (readHeader (d.bread start)) d)

def commit (start : ℕ) (lh : List ℕ) (d : Dev) : Dev :=
  if 0 < lh.length then
    write_head start [] (install_trans start lh (write_head start lh (write_log start lh d)))
  else d

/-- The log of the kernel: `size` blocks from `start`, the first of them the header. -/
def logLayout (start size : ℕ) : RedoLog.Layout ℕ Block where
  head := start
  capacity := size - 1
  slot t := start + t + 1
  decode := readHeader
  slot_inj t _ u _ h := by omega
  slot_ne_head t _ := by omega

/-! ## The writes the code makes -/

/-- A loop that copies blocks, none of them one that an earlier pass has written. -/
theorem copy_spec {γ : Type*} (dst src : γ → ℕ) (xs : List γ)
    (h : ∀ x ∈ xs, ∀ y ∈ xs, dst x ≠ src y) (d : Dev) :
    xs.foldl (fun d x => d.bwrite (dst x) (d.bread (src x))) d =
      { d with
        writes := d.writes ++ xs.map fun x => (dst x, d.cache (src x))
        cache := RedoLog.apply (xs.map fun x => (dst x, d.cache (src x))) d.cache } := by
  induction xs generalizing d with
  | nil => simp
  | cons x xs ih =>
    have hcons := List.forall_mem_cons.mp h
    rw [List.foldl_cons, ih fun y hy z hz => h y (List.mem_cons_of_mem _ hy) z
      (List.mem_cons_of_mem _ hz)]
    have hsame : ∀ y ∈ xs, (d.bwrite (dst x) (d.bread (src x))).cache (src y) =
        d.cache (src y) := by
      intro y hy
      exact Function.update_of_ne (Ne.symm (hcons.1 y (List.mem_cons_of_mem _ hy))) _ _
    have hmap : (xs.map fun y => (dst y, (d.bwrite (dst x) (d.bread (src x))).cache (src y))) =
        xs.map fun y => (dst y, d.cache (src y)) :=
      List.map_congr_left fun y hy => by rw [hsame y hy]
    rw [hmap]
    simp [Dev.bwrite, Dev.bread, RedoLog.apply_cons]

theorem zipIdx_map_of_nodup {β : Type*} {lh : List ℕ} (hn : lh.Nodup) (f : ℕ → ℕ → β) :
    (lh.zipIdx.map fun x => f x.1 x.2) = lh.map fun b => f b (lh.idxOf b) := by
  apply List.ext_getElem
  · simp
  · intro i hi hi'
    rw [List.length_map] at hi'
    simp [hn.idxOf_getElem i hi']

theorem snd_lt_of_mem_zipIdx {lh : List ℕ} {x : ℕ × ℕ} (hx : x ∈ lh.zipIdx) : x.2 < lh.length := by
  have hget := List.mk_mem_zipIdx_iff_getElem?.mp (by exact hx : (x.1, x.2) ∈ lh.zipIdx)
  exact (List.getElem?_eq_some_iff.mp hget).1

variable {start size : ℕ} {lh : List ℕ} {d : Dev}

theorem write_log_eq (hb : (logLayout start size).Fits lh) (d : Dev) :
    write_log start lh d = { d with
      writes := d.writes ++ (logLayout start size).fill lh d.cache
      cache := RedoLog.apply ((logLayout start size).fill lh d.cache) d.cache } := by
  have hcopy := copy_spec (fun x : ℕ × ℕ => start + x.2 + 1) Prod.fst lh.zipIdx ?_ d
  · have hfill : (lh.zipIdx.map fun x => (start + x.2 + 1, d.cache x.1)) =
        (logLayout start size).fill lh d.cache :=
      zipIdx_map_of_nodup hb.nodup fun b t => (start + t + 1, d.cache b)
    rw [hfill] at hcopy
    exact hcopy
  · intro x hx y hy
    exact Ne.symm ((hb.home y.1 (List.fst_mem_of_mem_zipIdx hy)).2 x.2
      ((snd_lt_of_mem_zipIdx hx).trans_le hb.length_le))

theorem install_trans_eq (hb : (logLayout start size).Fits lh) (d : Dev) :
    install_trans start lh d = { d with
      writes := d.writes ++ lh.map fun b => (b, d.cache ((logLayout start size).slot (lh.idxOf b)))
      cache := RedoLog.apply
        (lh.map fun b => (b, d.cache ((logLayout start size).slot (lh.idxOf b))))
        d.cache } := by
  have hcopy := copy_spec Prod.fst (fun x : ℕ × ℕ => start + x.2 + 1) lh.zipIdx ?_ d
  · have hmap : (lh.zipIdx.map fun x => (x.1, d.cache (start + x.2 + 1))) =
        lh.map fun b => (b, d.cache ((logLayout start size).slot (lh.idxOf b))) :=
      zipIdx_map_of_nodup hb.nodup fun b t => (b, d.cache (start + t + 1))
    rw [hmap] at hcopy
    exact hcopy
  · intro x hx y hy
    exact (hb.home x.1 (List.fst_mem_of_mem_zipIdx hx)).2 y.2
      ((snd_lt_of_mem_zipIdx hy).trans_le hb.length_le)

/-- The empty header that a header block becomes. -/
def cleared (h : Block) : Block := header [] h

theorem readHeader_cleared (h : Block) : readHeader (cleared h) = [] :=
  readHeader_header (by simp) (by simp) h

theorem recover_from_log_eq (hs : (logLayout start size).Fits (readHeader (d.cache start))) :
    recover_from_log start d =
    { d with
      writes := d.writes ++ (logLayout start size).recovery d.cache (cleared (d.cache start))
      cache := RedoLog.apply ((logLayout start size).recovery d.cache (cleared (d.cache start)))
        d.cache } := by
  have hcopies : ((readHeader (d.cache start)).map fun b =>
      (b, d.cache ((logLayout start size).slot ((readHeader (d.cache start)).idxOf b)))) =
      (readHeader (d.cache start)).map fun b => (b, (logLayout start size).meaning d.cache b) :=
    List.map_congr_left fun b hb => by rw [RedoLog.meaning_of_mem hb]; rfl
  have hframe : RedoLog.apply ((readHeader (d.cache start)).map fun b =>
      (b, (logLayout start size).meaning d.cache b)) d.cache start = d.cache start :=
    (RedoLog.copied_frame hs fun w hw => RedoLog.fst_mem_of_mem_copies hw).1
  rw [recover_from_log, Dev.bread, install_trans_eq hs, write_head, Dev.bwrite, Dev.bread]
  dsimp only
  rw [hcopies, hframe]
  rw [RedoLog.Layout.recovery, RedoLog.apply_append, RedoLog.apply_singleton, List.append_assoc]
  rfl

theorem commit_eq (hb : (logLayout start size).Fits lh) (hpos : 0 < lh.length) (d : Dev) :
    commit start lh d =
    { d with
      writes := d.writes ++ (logLayout start size).commit lh d.cache (header lh (d.cache start))
        (cleared (header lh (d.cache start)))
      cache := RedoLog.apply ((logLayout start size).commit lh d.cache (header lh (d.cache start))
        (cleared (header lh (d.cache start)))) d.cache } := by
  have hhead : RedoLog.apply ((logLayout start size).fill lh d.cache) d.cache start =
      d.cache start :=
    (RedoLog.fill_frame hb fun w hw => hw).1
  have hslots :
      (lh.map fun b => (b, Function.update (RedoLog.apply ((logLayout start size).fill lh d.cache)
      d.cache) start (header lh (d.cache start)) ((logLayout start size).slot (lh.idxOf b)))) =
      lh.map fun b => (b, d.cache b) := by
    refine List.map_congr_left fun b hmem => ?_
    have hne : (logLayout start size).slot (lh.idxOf b) ≠ start :=
      (logLayout start size).slot_ne_head _ (hb.idxOf_lt hmem)
    rw [Function.update_of_ne hne, RedoLog.apply_fill hb hmem]
  have hinstalled : RedoLog.apply (lh.map fun b => (b, d.cache b)) (Function.update
      (RedoLog.apply ((logLayout start size).fill lh d.cache) d.cache) start
        (header lh (d.cache start)))
      start = header lh (d.cache start) := by
    rw [RedoLog.apply_of_forall_ne, Function.update_self]
    intro w hw
    obtain ⟨b, hmem, rfl⟩ := List.mem_map.mp hw
    exact (hb.home b hmem).1
  rw [commit, if_pos hpos, write_log_eq hb]
  simp only [write_head, Dev.bwrite, Dev.bread, hhead]
  rw [install_trans_eq hb]
  simp only [hslots, hinstalled]
  rw [RedoLog.Layout.commit, RedoLog.apply_append, RedoLog.apply_cons, RedoLog.apply_append,
    RedoLog.apply_singleton]
  simp [cleared, logLayout]

end UefiGame.Kernel
