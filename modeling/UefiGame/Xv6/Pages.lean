import Mathlib.Data.Nat.Bitwise
import UefiGame.Xv6.Elf

/-! # Reserving the pages of the kernel

The first program-header loop is meant to widen a page range to all loadable
segments, but the statements that do so stand behind a `continue`. The range
that reaches `AllocatePages` is therefore the one computed from the first
header before the loop.
-/

namespace UefiGame

/-- The locals `pages_start` and `pages_end`. -/
structure PageRange where
  start : BitVec 64
  stop : BitVec 64
  deriving DecidableEq, Repr

/-- `(end + mask) & ~mask` for `mask = ph->align - 1`; the subtraction is one of `UINT32`. -/
def alignEnd (ph : ProgHdr) (stop : BitVec 64) : BitVec 64 :=
  let mask := (ph.align - 1).setWidth 64
  (stop + mask) &&& ~~~mask

/-- The locals before the first loop, computed from `*ph`. -/
def initialPages (ph : ProgHdr) : PageRange :=
  let start := ph.paddr.setWidth 64
  { start := start
    stop := alignEnd ph (start + ph.memsz.setWidth 64) }

/-- The body of the first loop. -/
def pagesStep (p : PageRange) (ph : ProgHdr) : PageRange :=
  -- a header that is not loadable takes the `continue`, and the widening after it in the same
  -- block is unreachable; a loadable one only prints
  if ph.type ≠ 1 then p else p

/-- The page range after the first loop. -/
def reservedPages (m : Memory) (buffer : ℕ) : PageRange :=
  (progHdrs m buffer).foldl pagesStep (initialPages (progHdr m buffer 0))

/-- `page_size`, the number of pages passed to `AllocatePages`. -/
def PageRange.pageSize (p : PageRange) : BitVec 64 := (p.stop - p.start) / 4096 + 1

/-- Every byte the second loop copies or zeroes for the header lies in the pages. -/
def PageRange.Covers (p : PageRange) (ph : ProgHdr) : Prop :=
  ∀ k < ph.extent, p.start.toNat ≤ ph.paddr.toNat + k ∧
    ph.paddr.toNat + k < p.start.toNat + 4096 * p.pageSize.toNat

/-- The loader reserves what it writes: every loadable header of the table is covered. -/
def ReservesAll (m : Memory) (buffer : ℕ) : Prop :=
  ∀ ph ∈ progHdrs m buffer, ph.IsLoad → (reservedPages m buffer).Covers ph

/-- The next multiple of `a`. -/
def roundUp (x a : ℕ) : ℕ := (x + a - 1) / a * a

/-- The bytes in the pages from `ph`'s start that hold its rounded extent. -/
def ProgHdr.ownPages (ph : ProgHdr) : ℕ :=
  4096 * ((roundUp (ph.paddr.toNat + ph.memsz.toNat) ph.align.toNat - ph.paddr.toNat) / 4096 + 1)

/-- What is written for `ph` lies in the pages of its own that `first` needs. -/
def ProgHdr.WithinPagesOf (first ph : ProgHdr) : Prop :=
  0 < ph.extent → first.paddr.toNat ≤ ph.paddr.toNat ∧
    ph.paddr.toNat + ph.extent ≤ first.paddr.toNat + first.ownPages

section Reserve

variable {m : Memory} {buffer : ℕ} {ph : ProgHdr}

theorem foldl_pagesStep (p : PageRange) (phs : List ProgHdr) : phs.foldl pagesStep p = p := by
  induction phs with
  | nil => rfl
  | cons ph phs ih => rw [List.foldl_cons, pagesStep, ite_self, ih]

/-- Clearing the low `k` bits rounds down to a multiple of `2 ^ k`. -/
theorem toNat_and_not_mask (x : BitVec 64) (k : ℕ) :
    (x &&& ~~~BitVec.ofNat 64 (2 ^ k - 1)).toNat = x.toNat / 2 ^ k * 2 ^ k := by
  have hshift : x &&& ~~~BitVec.ofNat 64 (2 ^ k - 1) = x >>> k <<< k := by
    apply BitVec.eq_of_getLsbD_eq
    intro i hi
    have hmask : (BitVec.ofNat 64 (2 ^ k - 1)).getLsbD i = decide (i < k) := by
      rw [BitVec.getLsbD_ofNat, Nat.testBit_two_pow_sub_one]
      simp [hi]
    rw [BitVec.getLsbD_and, BitVec.getLsbD_not, hmask, BitVec.getLsbD_shiftLeft,
      BitVec.getLsbD_ushiftRight]
    by_cases hik : i < k
    · simp [hik]
    · simp [hi, hik, Nat.add_sub_cancel' (Nat.le_of_not_lt hik)]
  have hle := Nat.div_mul_le_self x.toNat (2 ^ k)
  rw [hshift, BitVec.toNat_shiftLeft, BitVec.toNat_ushiftRight, Nat.shiftRight_eq_div_pow,
    Nat.shiftLeft_eq, Nat.mod_eq_of_lt (by omega)]

theorem alignMask_eq {align : UINT32} {k : ℕ} (h : align.toNat = 2 ^ k) :
    (align - 1).setWidth 64 = BitVec.ofNat 64 (2 ^ k - 1) := by
  have hpos : 1 ≤ align.toNat := h ▸ Nat.one_le_two_pow
  apply BitVec.eq_of_toNat_eq
  rw [← h, BitVec.toNat_setWidth, BitVec.toNat_sub_of_le (by bv_omega), BitVec.toNat_ofNat]
  rfl

theorem le_roundUp (x : ℕ) {a : ℕ} (ha : 0 < a) : x ≤ roundUp x a := by
  have hdiv := Nat.div_add_mod' (x + a - 1) a
  have hmod := Nat.mod_lt (x + a - 1) ha
  unfold roundUp
  omega

theorem roundUp_le (x a : ℕ) : roundUp x a ≤ x + a - 1 := Nat.div_mul_le_self _ _

theorem toNat_alignEnd {k : ℕ} (h : ph.align.toNat = 2 ^ k) {stop : BitVec 64}
    (hstop : stop.toNat < 2 ^ 33) :
    (alignEnd ph stop).toNat = roundUp stop.toNat ph.align.toNat := by
  have hpos : 1 ≤ ph.align.toNat := h ▸ Nat.one_le_two_pow
  have hlt := ph.align.isLt
  have hmask : (BitVec.ofNat 64 (2 ^ k - 1)).toNat = ph.align.toNat - 1 := by
    rw [← h, BitVec.toNat_ofNat, Nat.mod_eq_of_lt (by omega)]
  have hsum : (stop + BitVec.ofNat 64 (2 ^ k - 1)).toNat = stop.toNat + ph.align.toNat - 1 := by
    rw [BitVec.toNat_add, hmask, Nat.mod_eq_of_lt (by omega)]
    omega
  simp only [alignEnd, alignMask_eq h]
  rw [toNat_and_not_mask, hsum, ← h, roundUp]

theorem toNat_initialPages_start (ph : ProgHdr) :
    (initialPages ph).start.toNat = ph.paddr.toNat := by
  have hlt := ph.paddr.isLt
  rw [initialPages, BitVec.toNat_setWidth, Nat.mod_eq_of_lt (by omega)]

theorem toNat_initialPages_stop {k : ℕ} (h : ph.align.toNat = 2 ^ k) :
    (initialPages ph).stop.toNat =
      roundUp (ph.paddr.toNat + ph.memsz.toNat) ph.align.toNat := by
  have hp := ph.paddr.isLt
  have hm := ph.memsz.isLt
  have hend : (ph.paddr.setWidth 64 + ph.memsz.setWidth 64).toNat =
      ph.paddr.toNat + ph.memsz.toNat := by
    rw [BitVec.toNat_add, BitVec.toNat_setWidth, BitVec.toNat_setWidth]
    omega
  rw [initialPages, toNat_alignEnd h (by omega), hend]

theorem initialPages_bytes {k : ℕ} (h : ph.align.toNat = 2 ^ k) :
    4096 * (initialPages ph).pageSize.toNat = ph.ownPages := by
  have hpos : 0 < ph.align.toNat := h ▸ Nat.two_pow_pos k
  have hstart := toNat_initialPages_start ph
  have hstop := toNat_initialPages_stop h
  have hle := le_roundUp (ph.paddr.toNat + ph.memsz.toNat) hpos
  have hge := roundUp_le (ph.paddr.toNat + ph.memsz.toNat) ph.align.toNat
  have hp := ph.paddr.isLt
  have hm := ph.memsz.isLt
  have ha := ph.align.isLt
  have hsub : ((initialPages ph).stop - (initialPages ph).start).toNat =
      roundUp (ph.paddr.toNat + ph.memsz.toNat) ph.align.toNat - ph.paddr.toNat := by
    rw [BitVec.toNat_sub_of_le (by rw [BitVec.le_def]; omega), hstop, hstart]
  have hpage : (initialPages ph).pageSize.toNat =
      (roundUp (ph.paddr.toNat + ph.memsz.toNat) ph.align.toNat - ph.paddr.toNat) / 4096 + 1 := by
    rw [PageRange.pageSize, BitVec.toNat_add, BitVec.toNat_udiv, hsub]
    change (_ / 4096 + 1) % 2 ^ 64 = _
    rw [Nat.mod_eq_of_lt (by omega)]
  rw [hpage, ProgHdr.ownPages]

theorem initialPages_covers_iff {first : ProgHdr} {k : ℕ} (h : first.align.toNat = 2 ^ k) :
    (initialPages first).Covers ph ↔ first.WithinPagesOf ph := by
  rw [PageRange.Covers, initialPages_bytes h, toNat_initialPages_start, ProgHdr.WithinPagesOf]
  constructor
  · intro hc hpos
    have hfirst := hc 0 hpos
    have hlast := hc (ph.extent - 1) (by omega)
    omega
  · intro hw j hj
    have := hw (Nat.zero_lt_of_lt hj)
    omega

end Reserve

/-- The loader reserves what it writes just when the pages of the first header of the table hold
every loadable segment. -/
theorem reservesAll_iff (m : Memory) (buffer : ℕ)
    (hload : ∃ ph ∈ progHdrs m buffer, ph.IsLoad)
    (halign : ∀ ph ∈ progHdrs m buffer, ∃ k, ph.align.toNat = 2 ^ k) :
    ReservesAll m buffer ↔ ∀ ph ∈ progHdrs m buffer, ph.IsLoad →
      (progHdr m buffer 0).WithinPagesOf ph := by
  have hfirst : progHdr m buffer 0 ∈ progHdrs m buffer := by
    obtain ⟨ph, hph, -⟩ := hload
    obtain ⟨i, hi, -⟩ := List.mem_map.mp hph
    exact List.mem_map_of_mem (List.mem_range.mpr (Nat.zero_lt_of_lt (List.mem_range.mp hi)))
  obtain ⟨k, hk⟩ := halign _ hfirst
  simp only [ReservesAll, reservedPages, foldl_pagesStep, initialPages_covers_iff hk]

/-- A file with two loadable headers, the second one at `paddr`. -/
def twoSegments (paddr : ℕ) : Memory := memoryOf 0x1000 (elfFile
  [hdrFields 1 0 0x100000 0 0x2000, hdrFields 1 0 paddr 0 0x1000] [])

theorem progHdrs_twoSegments : progHdrs (twoSegments 0x101000) 0x1000 =
    [⟨1, 0, 0, 0x100000, 0, 0x2000, 0, 4096⟩, ⟨1, 0, 0, 0x101000, 0, 0x1000, 0, 4096⟩] := by
  decide +kernel

theorem reservesAll_iff_twoSegments :
    ReservesAll (twoSegments 0x101000) 0x1000 ↔
      ∀ ph ∈ progHdrs (twoSegments 0x101000) 0x1000, ph.IsLoad →
        (progHdr (twoSegments 0x101000) 0x1000 0).WithinPagesOf ph := by
  refine reservesAll_iff (twoSegments 0x101000) 0x1000 ?_ ?_
  · rw [progHdrs_twoSegments]
    exact ⟨_, List.mem_cons_self, rfl⟩
  · rw [progHdrs_twoSegments]
    intro ph hph
    simp only [List.mem_cons, List.not_mem_nil, or_false] at hph
    rcases hph with rfl | rfl
    · exact ⟨12, rfl⟩
    · exact ⟨12, rfl⟩

/-- A second segment behind the pages of the first is written to memory nobody reserved. -/
theorem not_reservesAll_twoSegments : ¬ ReservesAll (twoSegments 0x200000) 0x1000 := by
  have hphs : progHdrs (twoSegments 0x200000) 0x1000 =
      [⟨1, 0, 0, 0x100000, 0, 0x2000, 0, 4096⟩, ⟨1, 0, 0, 0x200000, 0, 0x1000, 0, 4096⟩] := by
    decide +kernel
  have hpages : reservedPages (twoSegments 0x200000) 0x1000 = ⟨0x100000, 0x102000⟩ := by
    decide +kernel
  intro h
  rw [ReservesAll, hphs, hpages] at h
  have hcovers := h _ (List.mem_cons_of_mem _ List.mem_cons_self) rfl 0 (by decide)
  exact absurd hcovers.2 (by decide)

end UefiGame
