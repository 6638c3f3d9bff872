import UefiGame.Xv6.Elf
import UefiGame.Library.Updates

/-! # Loading the segments

The second program-header loop copies every loadable segment to its physical
address and zeroes the rest of it. The headers are read from the memory the
loop writes; since no segment meets the file buffer, every pass still sees the
table and the file as they were.
-/

namespace UefiGame

open LinearMemory

/-- The memory functions of the firmware kit the loader calls. -/
structure BaseMemoryLib where
  copyMem : Memory → ℕ → ℕ → ℕ → Memory
  setMem : Memory → ℕ → ℕ → UINT8 → Memory

/-- What the kit documents: `CopyMem` handles overlap, and neither touches anything else. -/
structure BaseMemoryLib.Documented (lib : BaseMemoryLib) : Prop where
  copyMem_eq : ∀ m dst src n, lib.copyMem m dst src n = copy m dst src n
  setMem_eq : ∀ m dst n v, lib.setMem m dst n v = fill m dst n v

/-- The body of the second loop, for the header `ph`. -/
def loadSegment (lib : BaseMemoryLib) (buffer : ℕ) (m : Memory) (ph : ProgHdr) : Memory :=
  if ph.type ≠ 1 then m
  else
    let m' := lib.copyMem m ph.paddr.toNat (buffer + ph.off.toNat) ph.filesz.toNat
    if ph.filesz < ph.memsz then
      lib.setMem m' (ph.paddr.toNat + ph.filesz.toNat) (ph.memsz - ph.filesz).toNat 0
    else m'

/-- The second loop: `ph` and `eph` are fixed on entry, each header is read when it is reached. -/
def loadSegments (lib : BaseMemoryLib) (m : Memory) (buffer : ℕ) : Memory :=
  (List.range (phnum m buffer)).foldl
    (fun m' i => loadSegment lib buffer m' (progHdrAt m' (phAddr m buffer i))) m

/-- The physical addresses a header claims. -/
def ProgHdr.range (ph : ProgHdr) : Set ℕ := block ph.paddr.toNat ph.memsz.toNat

/-- What a loadable header asks of a `len`-byte file buffer. -/
structure ProgHdr.Fits (buffer len : ℕ) (ph : ProgHdr) : Prop where
  file_inside : ph.off.toNat + ph.filesz.toNat ≤ len
  filesz_le : ph.filesz.toNat ≤ ph.memsz.toNat
  off_file : Disjoint ph.range (block buffer len)

/-- The `len` bytes at `buffer` are an ELF file the loop can load. -/
structure Loadable (m : Memory) (buffer len : ℕ) : Prop where
  table_inside : phoff m buffer + PackedRecord.size progHdrLayout * phnum m buffer ≤ len
  fits : ∀ ph ∈ progHdrs m buffer, ph.IsLoad → ph.Fits buffer len
  disjoint : (progHdrs m buffer).Pairwise fun p q =>
    p.IsLoad → q.IsLoad → Disjoint p.range q.range

section Load

variable {lib : BaseMemoryLib} {m m' : Memory} {ph : ProgHdr} {buffer len a : ℕ}

theorem loadSegment_of_not_isLoad (h : ¬ ph.IsLoad) : loadSegment lib buffer m ph = m := if_pos h

theorem loadSegment_of_lt (hlib : lib.Documented) (h : ph.IsLoad)
    (hf : ph.filesz.toNat ≤ ph.memsz.toNat) {k : ℕ} (hk : k < ph.memsz.toNat) :
    loadSegment lib buffer m ph (ph.paddr.toNat + k) =
      if k < ph.filesz.toNat then m (buffer + ph.off.toNat + k) else 0 := by
  have hsub : ph.filesz < ph.memsz → (ph.memsz - ph.filesz).toNat =
      ph.memsz.toNat - ph.filesz.toNat := fun hlt => BitVec.toNat_sub_of_le (BitVec.le_of_lt hlt)
  have hload : ¬ ph.type ≠ 1 := not_not.mpr h
  rw [loadSegment, if_neg hload]
  simp only [hlib.copyMem_eq, hlib.setMem_eq]
  by_cases hlt : ph.filesz < ph.memsz
  · rw [if_pos hlt, hsub hlt]
    by_cases hk' : k < ph.filesz.toNat
    · rw [if_pos hk', fill_of_notMem (by rw [mem_block]; omega), copy_add hk']
    · rw [if_neg hk', fill_of_mem (by rw [mem_block]; omega)]
  · have hk' : k < ph.filesz.toNat := by
      rw [BitVec.not_lt, BitVec.le_def] at hlt; omega
    rw [if_neg hlt, if_pos hk', copy_add hk']

theorem loadSegment_of_notMem (hlib : lib.Documented)
    (ha : a ∉ block ph.paddr.toNat ph.extent) : loadSegment lib buffer m ph a = m a := by
  rw [mem_block, ProgHdr.extent] at ha
  rw [loadSegment]
  simp only [hlib.copyMem_eq, hlib.setMem_eq]
  have hcopy : copy m ph.paddr.toNat (buffer + ph.off.toNat) ph.filesz.toNat a = m a :=
    copy_of_notMem (by rw [mem_block]; omega)
  split_ifs with _ hlt
  · rfl
  · rw [fill_of_notMem, hcopy]
    rw [mem_block, BitVec.toNat_sub_of_le (BitVec.le_of_lt hlt)]
    omega
  · exact hcopy

/-- The addresses a header's pass may write: none if it is not loadable. -/
def ProgHdr.written (ph : ProgHdr) : Set ℕ := {a | ph.IsLoad ∧ a ∈ ph.range}

theorem loadSegment_frame (hlib : lib.Documented) (hl : Loadable m buffer len)
    (hph : ph ∈ progHdrs m buffer) (m' : Memory) :
    ∀ a ∉ ph.written, loadSegment lib buffer m' ph a = m' a := by
  intro a ha
  by_cases h : ph.IsLoad
  · apply loadSegment_of_notMem hlib
    rw [ProgHdr.extent, Nat.max_eq_right (hl.fits ph hph h).filesz_le]
    exact fun hr => ha ⟨h, hr⟩
  · rw [loadSegment_of_not_isLoad h]

theorem Loadable.written_disjoint (hl : Loadable m buffer len) (hph : ph ∈ progHdrs m buffer) :
    Disjoint ph.written (block buffer len) :=
  Set.disjoint_left.mpr fun _ ⟨h, hr⟩ => Set.disjoint_left.mp (hl.fits ph hph h).off_file hr

theorem progHdrAt_phAddr (hl : Loadable m buffer len) {i : ℕ} (hi : i < phnum m buffer)
    (hsame : ∀ a ∈ block buffer len, m' a = m a) :
    progHdrAt m' (phAddr m buffer i) = progHdr m buffer i := by
  apply progHdrAt_congr
  intro b hb
  apply hsame
  have ht := hl.table_inside
  have hmul := Nat.mul_le_mul_left (PackedRecord.size progHdrLayout) hi
  rw [Nat.mul_succ] at hmul
  rw [mem_block, phAddr] at hb
  rw [mem_block]
  omega

theorem loadSegment_file (hlib : lib.Documented) (hl : Loadable m buffer len)
    (hph : ph ∈ progHdrs m buffer) (m' : Memory) :
    ∀ a ∈ block buffer len, loadSegment lib buffer m' ph a = m' a := by
  intro a ha
  apply loadSegment_frame hlib hl hph
  exact fun hw => Set.disjoint_left.mp (hl.written_disjoint hph) hw ha

/-- As long as the file is as it was, reading each header when it is reached makes no
difference. -/
theorem foldl_loadSegment (hlib : lib.Documented) (hl : Loadable m buffer len) {is : List ℕ}
    (his : ∀ i ∈ is, i < phnum m buffer) (hsame : ∀ a ∈ block buffer len, m' a = m a) :
    is.foldl (fun m' i => loadSegment lib buffer m' (progHdrAt m' (phAddr m buffer i))) m' =
      is.foldl (fun m' i => loadSegment lib buffer m' (progHdr m buffer i)) m' := by
  induction is generalizing m' with
  | nil => rfl
  | cons i is ih =>
    rw [List.forall_mem_cons] at his
    have hph : progHdr m buffer i ∈ progHdrs m buffer :=
      List.mem_map_of_mem (List.mem_range.mpr his.1)
    rw [List.foldl_cons, List.foldl_cons, progHdrAt_phAddr hl his.1 hsame]
    apply ih his.2
    intro a ha
    rw [loadSegment_file hlib hl hph m' a ha, hsame a ha]

theorem loadSegments_eq (hlib : lib.Documented) (hl : Loadable m buffer len) :
    loadSegments lib m buffer = (progHdrs m buffer).foldl (loadSegment lib buffer) m := by
  rw [loadSegments, progHdrs, List.foldl_map]
  exact foldl_loadSegment hlib hl (fun _ hi => List.mem_range.mp hi) fun _ _ => rfl

/-- After the second loop every loadable segment is in place: its file bytes, then zeroes. -/
theorem loadSegments_segment (hlib : lib.Documented) (hl : Loadable m buffer len)
    (hph : ph ∈ progHdrs m buffer) (h : ph.IsLoad) {k : ℕ} (hk : k < ph.memsz.toNat) :
    loadSegments lib m buffer (ph.paddr.toNat + k) =
      if k < ph.filesz.toNat then m (buffer + ph.off.toNat + k) else 0 := by
  have hmem : ph.paddr.toNat + k ∈ ph.written := ⟨h, by rw [ProgHdr.range, mem_block]; omega⟩
  rw [loadSegments_eq hlib hl, ← loadSegment_of_lt hlib h (hl.fits ph hph h).filesz_le hk]
  refine Updates.foldl_of_mem ProgHdr.written (block buffer len)
    (fun p hp m' => loadSegment_frame hlib hl hp m') ?_ (fun p hp => hl.written_disjoint hp) ?_
    hph hmem
  · rintro p hp m₁ m₂ hsame a ⟨hpl, hr⟩
    obtain ⟨hin, hle, -⟩ := hl.fits p hp hpl
    rw [ProgHdr.range, mem_block] at hr
    obtain ⟨j, rfl⟩ := Nat.exists_eq_add_of_le hr.1
    have hj : j < p.memsz.toNat := by omega
    rw [loadSegment_of_lt hlib hpl hle hj, loadSegment_of_lt hlib hpl hle hj]
    split_ifs with hjf
    · exact hsame _ (by rw [mem_block]; omega)
    · rfl
  · apply hl.disjoint.imp
    intro p q hpq
    rw [Set.disjoint_left]
    rintro a ⟨hp, hpa⟩ ⟨hq, hqa⟩
    exact Set.disjoint_left.mp (hpq hp hq) hpa hqa

/-- After the second loop every address outside the loadable segments is as it was. -/
theorem loadSegments_frame (hlib : lib.Documented) (hl : Loadable m buffer len)
    (ha : ∀ ph ∈ progHdrs m buffer, ph.IsLoad → a ∉ ph.range) :
    loadSegments lib m buffer a = m a := by
  rw [loadSegments_eq hlib hl]
  exact Updates.foldl_of_notMem ProgHdr.written
    (fun p hp m' => loadSegment_frame hlib hl hp m') fun p hp hw => ha p hp hw.1 hw.2

/-- After the second loop memory holds the image of every loadable segment, and everything else,
the file buffer included, is as it was. -/
theorem loadSegments_image (hlib : lib.Documented) (hl : Loadable m buffer len) :
    (∀ ph ∈ progHdrs m buffer, ph.IsLoad → ∀ k < ph.memsz.toNat,
      loadSegments lib m buffer (ph.paddr.toNat + k) =
        if k < ph.filesz.toNat then m (buffer + ph.off.toNat + k) else 0) ∧
    (∀ a, (∀ ph ∈ progHdrs m buffer, ph.IsLoad → a ∉ ph.range) →
      loadSegments lib m buffer a = m a) ∧
    ∀ a ∈ block buffer len, loadSegments lib m buffer a = m a := by
  refine ⟨?_, ?_, ?_⟩
  · intro ph hph h k hk
    exact loadSegments_segment hlib hl hph h hk
  · intro a ha
    exact loadSegments_frame hlib hl ha
  · intro a ha
    apply loadSegments_frame hlib hl
    intro ph hph h hr
    exact Set.disjoint_left.mp (hl.fits ph hph h).off_file hr ha

end Load

/-- A file at `0x1000` with a segment of two bytes and a zeroed one, a note, and a zeroed segment
below the first. -/
def sampleMemory : Memory := memoryOf 0x1000 (elfFile
  [hdrFields 1 148 0x200000 2 3, hdrFields 4 0 0 9 9, hdrFields 1 150 0x100000 0 2] [7, 8])

/-- The memory functions themselves. -/
def baseMemoryLib : BaseMemoryLib := ⟨copy, fill⟩

theorem baseMemoryLib_documented : baseMemoryLib.Documented :=
  ⟨fun _ _ _ _ => rfl, fun _ _ _ _ => rfl⟩

theorem progHdrs_sampleMemory : progHdrs sampleMemory 0x1000 =
    [⟨1, 148, 0, 0x200000, 2, 3, 0, 4096⟩, ⟨4, 0, 0, 0, 9, 9, 0, 4096⟩,
      ⟨1, 150, 0, 0x100000, 0, 2, 0, 4096⟩] := by
  decide +kernel

theorem loadable_sampleMemory : Loadable sampleMemory 0x1000 150 where
  table_inside := by decide +kernel
  fits := by
    rw [progHdrs_sampleMemory]
    intro ph hph hload
    simp only [List.mem_cons, List.not_mem_nil, or_false] at hph
    rcases hph with rfl | rfl | rfl
    · exact ⟨by decide, by decide, disjoint_block (by decide)⟩
    · exact absurd hload (by decide)
    · exact ⟨by decide, by decide, disjoint_block (by decide)⟩
  disjoint := by
    rw [progHdrs_sampleMemory]
    simp only [List.pairwise_cons, List.mem_cons, List.not_mem_nil, or_false]
    refine ⟨?_, ?_, by simp⟩
    · rintro q (rfl | rfl) _ hq
      · exact absurd hq (by decide)
      · exact disjoint_block (by decide)
    · rintro q rfl hp
      exact absurd hp (by decide)

theorem loadSegments_image_sample :
    loadSegments baseMemoryLib sampleMemory 0x1000 (0x200000 + 1) = 8 ∧
    loadSegments baseMemoryLib sampleMemory 0x1000 (0x200000 + 2) = 0 ∧
    loadSegments baseMemoryLib sampleMemory 0x1000 0x1034 = 1 := by
  obtain ⟨himage, -, hfile⟩ := loadSegments_image baseMemoryLib_documented loadable_sampleMemory
  have hph : (⟨1, 148, 0, 0x200000, 2, 3, 0, 4096⟩ : ProgHdr) ∈ progHdrs sampleMemory 0x1000 := by
    rw [progHdrs_sampleMemory]
    exact List.mem_cons_self
  have hbyte := himage _ hph rfl 1 (by decide)
  have hzero := himage _ hph rfl 2 (by decide)
  refine ⟨hbyte.trans (by decide +kernel), hzero.trans (by decide +kernel), ?_⟩
  rw [hfile 0x1034 (by rw [mem_block]; decide)]
  decide +kernel

end UefiGame
