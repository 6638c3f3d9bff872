import Mathlib.Algebra.Order.Group.Nat
import Mathlib.Data.Finset.Card
import UefiGame.Kernel.Fs

/-! # Blocks of files

Every block number in an inode or in an indirect block is a slot, and the bitmap
marks what slots hold. Allocation fills one empty slot, and the blocks of a file
are those of its first slots.
-/

namespace UefiGame.Kernel

open SlotMap

variable {sb : Superblock} {s s' t : Fs} {i bn k : ℕ} {a b : UINT32} {p q : ℕ × ℕ}

/-- The bitmap has the block as used. -/
def Marked (sb : Superblock) (s : Fs) (b : ℕ) : Prop :=
  isFree (s.disk (b / BPB + sb.bmapstart)) (b % BPB) = false

instance : DecidablePred (Marked sb s) := fun _ => inferInstanceAs (Decidable (_ = _))

def free (sb : Superblock) (s : Fs) : Finset ℕ :=
  (Finset.range sb.size).filter fun b => ¬ Marked sb s b

/-- The number of a data block. -/
def IsData (sb : Superblock) (b : UINT32) : Prop :=
  sb.size - sb.nblocks ≤ b.toNat ∧ b.toNat < sb.size

/-- The block numbers of the files: of an inode's blocks in their order, and last
of the indirect one. -/
def slot (s : Fs) (p : ℕ × ℕ) : UINT32 :=
  let addrs := (s.inode p.1).addrs
  if p.2 < NDIRECT then addrs p.2
  else if p.2 < MAXFILE then
    if addrs NDIRECT = 0 then 0 else word (s.disk (addrs NDIRECT).toNat) (p.2 - NDIRECT)
  else if p.2 = MAXFILE then addrs NDIRECT
  else 0

/-- The bitmap has as used the blocks of the files, each in one place,
and those that are no data blocks. -/
structure FsOk (sb : Superblock) (s : Fs) : Prop where
  slots : Consistent 0 (IsData sb) (slot s) fun b => Marked sb s b.toNat
  reserved : ∀ b < sb.size - sb.nblocks, Marked sb s b

/-- What steps that only add blocks leave as it is: the blocks there are and what is in them. -/
structure Keeps (s s' : Fs) : Prop where
  dinode : s'.dinode = s.dinode
  size : ∀ j, (s'.inode j).size = (s.inode j).size
  slot : ∀ p, slot s p ≠ 0 → slot s' p = slot s p
  data : ∀ j, ∀ bm < MAXFILE, Kernel.slot s (j, bm) ≠ 0 →
    s'.disk (Kernel.slot s (j, bm)).toNat = s.disk (Kernel.slot s (j, bm)).toNat

theorem Keeps.refl (s : Fs) : Keeps s s := ⟨rfl, fun _ => rfl, fun _ _ => rfl, fun _ _ _ _ => rfl⟩

theorem Keeps.trans (h : Keeps s t) (h' : Keeps t s') : Keeps s s' where
  dinode := h'.dinode.trans h.dinode
  size j := (h'.size j).trans (h.size j)
  slot p hp := by rw [h'.slot p (by rwa [h.slot p hp]), h.slot p hp]
  data j bm hbm hp := by
    have hmid := h.slot _ hp
    have hdata := h'.data j bm hbm (by rwa [hmid])
    rw [hmid] at hdata
    rw [hdata, h.data j bm hbm hp]

/-! ## The bitmap -/

theorem bitmap_lt {b : ℕ} (hb : b < sb.size) : b / BPB + sb.bmapstart < sb.size - sb.nblocks := by
  have hle := sb.bitmap_le
  simp only [BPB, BSIZE] at hle ⊢
  omega

theorem not_isData_zero : ¬ IsData sb 0 := by
  rintro ⟨hlow, -⟩
  have hpos := sb.bmapstart_pos
  have hle := sb.bitmap_le
  change sb.size - sb.nblocks ≤ 0 at hlow
  generalize (sb.size + BPB - 1) / BPB = n at hle
  omega

theorem IsData.ne_zero (h : IsData sb b) : b ≠ 0 := by
  rintro rfl
  exact not_isData_zero h

theorem marked_congr {n : ℕ} (h : ∀ b < sb.size - sb.nblocks, s'.disk b = s.disk b)
    (hn : n < sb.size) :
    Marked sb s' n ↔ Marked sb s n := by
  rw [Marked, Marked, h _ (bitmap_lt hn)]

theorem mem_free {n : ℕ} : n ∈ free sb s ↔ n < sb.size ∧ ¬ Marked sb s n := by
  rw [free, Finset.mem_filter, Finset.mem_range]

theorem free_congr (h : ∀ b < sb.size - sb.nblocks, s'.disk b = s.disk b) :
    free sb s' = free sb s := by
  ext n
  rw [mem_free, mem_free]
  exact and_congr_right fun hn => not_congr (marked_congr h hn)

theorem findFree_spec {n : ℕ} (h : findFree sb s = some n) : n ∈ free sb s := by
  obtain ⟨k, hk, hfind⟩ := List.exists_of_findSome?_eq_some h
  obtain ⟨bi, hbi, rfl⟩ := Option.map_eq_some_iff.mp hfind
  have hlt := List.mem_range.mp (List.mem_of_find?_eq_some hbi)
  have hfound := List.find?_some hbi
  rw [Bool.and_eq_true, decide_eq_true_eq] at hfound
  refine mem_free.mpr ⟨hfound.1, ?_⟩
  have hdiv : (k * BPB + bi) / BPB = k := by
    simp only [BPB, BSIZE] at hlt ⊢
    omega
  have hmod : (k * BPB + bi) % BPB = bi := by
    simp only [BPB, BSIZE] at hlt ⊢
    omega
  rw [Marked, hdiv, hmod, hfound.2]
  exact fun h => by cases h

theorem findFree_eq_none_iff : findFree sb s = none ↔ free sb s = ∅ := by
  constructor
  · intro h
    rw [Finset.eq_empty_iff_forall_notMem]
    intro n hmem
    obtain ⟨hn, hfree⟩ := mem_free.mp hmem
    apply hfree
    rw [findFree, List.findSome?_eq_none_iff] at h
    have hk : n / BPB < (sb.size + BPB - 1) / BPB := by
      simp only [BPB, BSIZE]
      omega
    have hbi : n % BPB < BPB := Nat.mod_lt _ (by decide)
    have hnone := h (n / BPB) (List.mem_range.mpr hk)
    rw [Option.map_eq_none_iff, List.find?_eq_none] at hnone
    have hnot := hnone (n % BPB) (List.mem_range.mpr hbi)
    rw [Nat.div_add_mod', Bool.and_eq_true, decide_eq_true_eq, not_and, Bool.not_eq_true] at hnot
    exact hnot hn
  · intro h
    cases hfind : findFree sb s with
    | none => rfl
    | some n =>
      have hmem := findFree_spec hfind
      rw [h] at hmem
      exact absurd hmem (Finset.notMem_empty n)

theorem balloc_eq_none_iff : balloc sb s = none ↔ (free sb s).card = 0 := by
  rw [balloc, Option.map_eq_none_iff, findFree_eq_none_iff, Finset.card_eq_zero]

/-- What `balloc` does: a data block that was free is marked and zeroed. -/
theorem FsOk.balloc_spec (hok : FsOk sb s) (h : balloc sb s = some (a, t)) :
    IsData sb a ∧ ¬ Marked sb s a.toNat ∧ t.inode = s.inode ∧ t.dinode = s.dinode ∧
      (t.disk a.toNat = fun _ => 0) ∧
      (∀ b, sb.size - sb.nblocks ≤ b → b ≠ a.toNat → t.disk b = s.disk b) ∧
      ∀ b < sb.size, Marked sb t b ↔ b = a.toNat ∨ Marked sb s b := by
  obtain ⟨n, hn, hres⟩ := Option.map_eq_some_iff.mp h
  obtain ⟨rfl, rfl⟩ := Prod.mk.inj hres
  obtain ⟨hlt, hfree⟩ := mem_free.mp (findFree_spec hn)
  have hsize := sb.size_lt
  have hnat : (BitVec.ofNat 32 n).toNat = n := by
    rw [BitVec.toNat_ofNat]
    exact Nat.mod_eq_of_lt (by omega)
  have hlow : sb.size - sb.nblocks ≤ n := by
    by_contra hnot
    exact hfree (hok.reserved n (by omega))
  have hbitmap := bitmap_lt hlt
  rw [IsData, hnat]
  refine ⟨⟨hlow, hlt⟩, hfree, rfl, rfl, Function.update_self .., fun b hb hne => ?_, fun b hb => ?_⟩
  · dsimp only
    rw [Function.update_of_ne hne, Function.update_of_ne (by omega)]
  · have hbitmap' := bitmap_lt hb
    rw [Marked, Marked]
    dsimp only
    rw [Function.update_of_ne (by omega)]
    by_cases hsame : b / BPB = n / BPB
    · rw [hsame, Function.update_self, ← Bool.not_eq_true, ← Bool.not_eq_true, isFree_setBit,
        not_and_or, not_not]
      have hiff : b % BPB = n % BPB ↔ b = n := by
        refine ⟨fun hmod => ?_, fun heq => by rw [heq]⟩
        rw [← Nat.div_add_mod b BPB, ← Nat.div_add_mod n BPB, hsame, hmod]
      rw [hiff]
      exact or_comm
    · rw [Function.update_of_ne (by omega)]
      refine ⟨Or.inr, ?_⟩
      rintro (rfl | hmarked)
      · exact absurd rfl hsame
      · exact hmarked

theorem bfree_spec (hb : IsData sb b) (hmarked : Marked sb s b.toNat) :
    ∃ t, bfree sb s b = some t ∧ t.inode = s.inode ∧ t.dinode = s.dinode ∧
      (∀ c, sb.size - sb.nblocks ≤ c → t.disk c = s.disk c) ∧
      ∀ c < sb.size, Marked sb t c ↔ Marked sb s c ∧ c ≠ b.toNat := by
  have hbitmap := bitmap_lt hb.2
  rw [Marked] at hmarked
  have hfree : bfree sb s b = some { s with
      disk := Function.update s.disk (b.toNat / BPB + sb.bmapstart)
        (clearBit (s.disk (b.toNat / BPB + sb.bmapstart)) (b.toNat % BPB)) } := by
    rw [bfree]
    rw [if_neg (by rw [hmarked]; exact Bool.false_ne_true)]
  refine ⟨_, hfree, rfl, rfl, fun c hc => ?_, fun c hc => ?_⟩
  · generalize b.toNat / BPB + sb.bmapstart = n at hbitmap
    exact Function.update_of_ne (by omega) ..
  · rw [Marked, Marked]
    dsimp only
    by_cases hsame : c / BPB = b.toNat / BPB
    · rw [hsame, Function.update_self, ← Bool.not_eq_true, ← Bool.not_eq_true, isFree_clearBit,
        not_or]
      have hiff : c % BPB = b.toNat % BPB ↔ c = b.toNat := by
        refine ⟨fun hmod => ?_, fun heq => by rw [heq]⟩
        rw [← Nat.div_add_mod c BPB, ← Nat.div_add_mod b.toNat BPB, hsame, hmod]
      rw [hiff]
    · rw [Function.update_of_ne (by omega)]
      refine ⟨fun hm => ⟨hm, ?_⟩, And.left⟩
      rintro rfl
      exact hsame rfl

/-! ## Slots -/

theorem slot_direct (h : bn < NDIRECT) : slot s (i, bn) = (s.inode i).addrs bn := if_pos h

@[simp] theorem slot_maxfile : slot s (i, MAXFILE) = (s.inode i).addrs NDIRECT := rfl

theorem slot_entry (h : NDIRECT ≤ bn) (h' : bn < MAXFILE) :
    slot s (i, bn) = if slot s (i, MAXFILE) = 0 then 0
      else word (s.disk (slot s (i, MAXFILE)).toNat) (bn - NDIRECT) := by
  rw [slot_maxfile, slot]
  dsimp only
  rw [if_neg (not_lt.mpr h), if_pos h']

theorem slot_of_gt (h : MAXFILE < bn) : slot s (i, bn) = 0 := by
  have hlt : NDIRECT < MAXFILE := by decide
  rw [slot]
  dsimp only
  rw [if_neg (by omega), if_neg (by omega), if_neg (by omega)]

theorem slot_congr (hinode : (t.inode i).addrs = (s.inode i).addrs)
    (hdisk : slot s (i, MAXFILE) ≠ 0 →
      t.disk (slot s (i, MAXFILE)).toNat = s.disk (slot s (i, MAXFILE)).toNat) :
    slot t (i, bn) = slot s (i, bn) := by
  rw [slot_maxfile] at hdisk
  rw [slot, slot]
  dsimp only
  rw [hinode]
  by_cases hzero : (s.inode i).addrs NDIRECT = 0
  · rw [if_pos hzero, if_pos hzero]
  · rw [hdisk hzero]

theorem slot_setAddr_of_ne {j : ℕ} (h : j ≠ i) :
    slot (s.setAddr i k a) (j, bn) = slot s (j, bn) := by
  refine slot_congr ?_ fun _ => rfl
  exact congrArg Inode.addrs (Function.update_of_ne h ..)

theorem addrs_setAddr_self :
    ((s.setAddr i k a).inode i).addrs = Function.update (s.inode i).addrs k a := by
  rw [Fs.setAddr]
  dsimp only
  rw [Function.update_self]

theorem size_setAddr (j : ℕ) : ((s.setAddr i k a).inode j).size = (s.inode j).size := by
  rw [Fs.setAddr]
  dsimp only
  by_cases hj : j = i
  · rw [hj, Function.update_self]
  · rw [Function.update_of_ne hj]

theorem slot_setAddr_direct (hk : k < NDIRECT) (q : ℕ × ℕ) :
    slot (s.setAddr i k a) q = if q = (i, k) then a else slot s q := by
  obtain ⟨j, bm⟩ := q
  have hlt : NDIRECT < MAXFILE := by decide
  by_cases hj : j = i
  · subst hj
    have hind : Function.update (s.inode j).addrs k a NDIRECT = (s.inode j).addrs NDIRECT :=
      Function.update_of_ne (by omega) ..
    by_cases hbm : bm = k
    · subst hbm
      rw [if_pos rfl, slot_direct hk, addrs_setAddr_self, Function.update_self]
    · rw [if_neg fun h => hbm (congrArg Prod.snd h), slot, slot]
      dsimp only
      rw [addrs_setAddr_self, Function.update_of_ne hbm, hind]
      rfl
  · rw [if_neg fun h => hj (congrArg Prod.fst h), slot_setAddr_of_ne hj]

theorem slot_setAddr_indirect (hzero : slot s (i, MAXFILE) = 0)
    (hdisk : s.disk a.toNat = fun _ => 0)
    (q : ℕ × ℕ) : slot (s.setAddr i NDIRECT a) q = if q = (i, MAXFILE) then a else slot s q := by
  obtain ⟨j, bm⟩ := q
  have hlt : NDIRECT < MAXFILE := by decide
  by_cases hj : j = i
  · subst hj
    have hself : slot (s.setAddr j NDIRECT a) (j, MAXFILE) = a := by
      rw [slot_maxfile, addrs_setAddr_self, Function.update_self]
    rcases Nat.lt_trichotomy bm MAXFILE with hbm | rfl | hbm
    · rw [if_neg fun h => hbm.ne (congrArg Prod.snd h)]
      by_cases hdirect : bm < NDIRECT
      · rw [slot_direct hdirect, slot_direct hdirect, addrs_setAddr_self,
          Function.update_of_ne hdirect.ne]
      · rw [slot_entry (not_lt.mp hdirect) hbm, slot_entry (not_lt.mp hdirect) hbm, hself,
          if_pos hzero]
        split_ifs
        · rfl
        · rw [Fs.setAddr, hdisk, word_zero]
    · rw [if_pos rfl, hself]
    · rw [if_neg fun h => hbm.ne' (congrArg Prod.snd h), slot_of_gt hbm, slot_of_gt hbm]
  · rw [if_neg fun h => hj (congrArg Prod.fst h), slot_setAddr_of_ne hj]

theorem slot_setDisk_entry {j : ℕ} (hind : slot s (i, MAXFILE) = b) (hb : b ≠ 0)
    (hj : j < NINDIRECT)
    (hne : ∀ j, j ≠ i → (slot s (j, MAXFILE)).toNat ≠ b.toNat) (q : ℕ × ℕ) :
    slot (s.setDisk b.toNat (setWord (s.disk b.toNat) j a)) q =
      if q = (i, NDIRECT + j) then a else slot s q := by
  obtain ⟨l, bm⟩ := q
  have hmax : MAXFILE = NDIRECT + NINDIRECT := rfl
  by_cases hl : l = i
  · subst hl
    have hself : slot (s.setDisk b.toNat (setWord (s.disk b.toNat) j a)) (l, MAXFILE) = b := hind
    by_cases hdirect : bm < NDIRECT
    · rw [if_neg fun h => absurd (congrArg Prod.snd h) (by dsimp only; omega), slot_direct hdirect,
        slot_direct hdirect]
      rfl
    · rcases Nat.lt_trichotomy bm MAXFILE with hbm | rfl | hbm
      · rw [slot_entry (not_lt.mp hdirect) hbm, slot_entry (not_lt.mp hdirect) hbm, hself, hind,
          if_neg hb, if_neg hb]
        have hdisk : (s.setDisk b.toNat (setWord (s.disk b.toNat) j a)).disk b.toNat =
            setWord (s.disk b.toNat) j a := Function.update_self ..
        rw [hdisk]
        by_cases hentry : bm = NDIRECT + j
        · rw [if_pos (by rw [hentry]), hentry, Nat.add_sub_cancel_left, word_setWord_self]
        · rw [if_neg fun h => hentry (congrArg Prod.snd h), word_setWord_of_ne]
          omega
      · rw [if_neg fun h => absurd (congrArg Prod.snd h) (by dsimp only; omega), hself, hind]
      · rw [if_neg fun h => absurd (congrArg Prod.snd h) (by dsimp only; omega), slot_of_gt hbm,
          slot_of_gt hbm]
  · rw [if_neg fun h => hl (congrArg Prod.fst h)]
    exact slot_congr rfl fun _ => Function.update_of_ne (hne l hl) ..

/-! ## Allocation -/

theorem FsOk.isData (hok : FsOk sb s) (hp : slot s p ≠ 0) : IsData sb (slot s p) :=
  hok.slots.mem_pool p hp

theorem FsOk.toNat_ne (hok : FsOk sb s) (hp : slot s p ≠ 0) (hne : p ≠ q) :
    (slot s p).toNat ≠ (slot s q).toNat := fun h => hok.slots.ne hp hne (BitVec.eq_of_toNat_eq h)

theorem FsOk.card_free_balloc (hok : FsOk sb s) (h : balloc sb s = some (a, t)) :
    (free sb t).card + 1 = (free sb s).card := by
  obtain ⟨ha, hfree, -, -, -, -, hmarked⟩ := hok.balloc_spec h
  have hmem : a.toNat ∈ free sb s := mem_free.mpr ⟨ha.2, hfree⟩
  have herase : free sb t = (free sb s).erase a.toNat := by
    ext n
    rw [Finset.mem_erase, mem_free, mem_free]
    constructor
    · rintro ⟨hn, hnot⟩
      rw [hmarked n hn, not_or] at hnot
      exact ⟨hnot.1, hn, hnot.2⟩
    · rintro ⟨hne, hn, hnot⟩
      refine ⟨hn, ?_⟩
      rw [hmarked n hn, not_or]
      exact ⟨hne, hnot⟩
  rw [herase, Finset.card_erase_add_one hmem]

/-- A block from `balloc` is put into an empty slot, by writing an inode or an indirect block. -/
theorem FsOk.link {u : Fs} (hok : FsOk sb s) (h : balloc sb s = some (a, t))
    (hp : slot s p = 0) (hdinode : u.dinode = t.dinode)
    (hsize : ∀ j, (u.inode j).size = (t.inode j).size)
    (hslot : (∀ q, slot t q = slot s q) → ∀ q, slot u q = if q = p then a else slot t q)
    (hdisk : ∀ c, (∀ j, slot s (j, MAXFILE) ≠ 0 → c ≠ (slot s (j, MAXFILE)).toNat) →
      u.disk c = t.disk c) :
    FsOk sb u ∧ Keeps s u ∧ (∀ q, slot u q = if q = p then a else slot s q) ∧
      (free sb u).card + 1 = (free sb s).card := by
  obtain ⟨ha, hfree, hinode, hdinode', -, hsame, hmarked⟩ := hok.balloc_spec h
  have hused : ∀ q, slot s q ≠ 0 → (slot s q).toNat ≠ a.toNat := by
    intro q hq heq
    apply hfree
    rw [← heq]
    exact hok.slots.used_slot hq
  have ht : ∀ q, slot t q = slot s q := fun q => slot_congr (by rw [hinode]) fun hind =>
    hsame _ (hok.isData hind).1 (hused _ hind)
  have hslot' : ∀ q, slot u q = if q = p then a else slot s q := fun q => by rw [hslot ht, ht]
  have hbitmap : ∀ b < sb.size - sb.nblocks, u.disk b = t.disk b := by
    intro b hb
    refine hdisk b fun j hj heq => ?_
    have := (hok.isData hj).1
    omega
  have hmarked' : ∀ b < sb.size, Marked sb u b ↔ b = a.toNat ∨ Marked sb s b := fun b hb =>
    (marked_congr hbitmap hb).trans (hmarked b hb)
  refine ⟨⟨?_, fun b hb => ?_⟩, ⟨hdinode.trans hdinode', fun j => ?_, fun q hq => ?_,
    fun j bm hbm hq => ?_⟩, hslot', ?_⟩
  · refine hok.slots.fill not_isData_zero hp ha hfree hslot' fun c hc => ?_
    rw [hmarked' _ hc.2]
    exact or_congr_left ⟨fun heq => BitVec.eq_of_toNat_eq heq, fun heq => by rw [heq]⟩
  · exact (hmarked' b (by omega)).mpr (Or.inr (hok.reserved b hb))
  · rw [hsize, hinode]
  · rw [hslot', if_neg]
    rintro rfl
    exact hq hp
  · rw [hdisk, hsame _ (hok.isData hq).1 (hused _ hq)]
    intro l _
    exact hok.toNat_ne hq fun heq => absurd (congrArg Prod.snd heq) (by dsimp only; omega)
  · rw [free_congr hbitmap, hok.card_free_balloc h]

/-- The blocks that `bmap` has to allocate. -/
def missing (s : Fs) (i bn : ℕ) : ℕ :=
  (if NDIRECT ≤ bn ∧ slot s (i, MAXFILE) = 0 then 1 else 0) + if slot s (i, bn) = 0 then 1 else 0

/-- The indirect block of an inode, which `bmap` makes if there is none. -/
def bmapIndirect (sb : Superblock) (s : Fs) (i : ℕ) : Option (UINT32 × Fs) :=
  if slot s (i, MAXFILE) = 0 then (balloc sb s).map fun r => (r.1, r.2.setAddr i NDIRECT r.1)
  else some (slot s (i, MAXFILE), s)

theorem bmap_direct (h : bn < NDIRECT) : bmap sb s i bn =
    if slot s (i, bn) = 0 then (balloc sb s).map fun r => (r.1, r.2.setAddr i bn r.1)
    else some (slot s (i, bn), s) := by
  rw [bmap, if_pos h, slot_direct h]

theorem bmap_entry (h : NDIRECT ≤ bn) (h' : bn < MAXFILE) : bmap sb s i bn =
    (bmapIndirect sb s i).bind fun r =>
      if word (r.2.disk r.1.toNat) (bn - NDIRECT) = 0 then
        (balloc sb r.2).map fun r' =>
          (r'.1, r'.2.setDisk r.1.toNat (setWord (r'.2.disk r.1.toNat) (bn - NDIRECT) r'.1))
      else some (word (r.2.disk r.1.toNat) (bn - NDIRECT), r.2) := by
  have hmax : MAXFILE = NDIRECT + NINDIRECT := rfl
  rw [bmap, if_neg (not_lt.mpr h), if_pos (by omega), bmapIndirect, slot_maxfile]

theorem FsOk.bmapIndirect_spec (hok : FsOk sb s) (h : bmapIndirect sb s i = some (b, t)) :
    FsOk sb t ∧ Keeps s t ∧ b ≠ 0 ∧ (∀ q, slot t q = if q = (i, MAXFILE) then b else slot s q) ∧
      (free sb t).card + (if slot s (i, MAXFILE) = 0 then 1 else 0) = (free sb s).card ∧
      (slot s (i, MAXFILE) ≠ 0 → t = s) := by
  rw [bmapIndirect] at h
  split_ifs at h with hzero
  · obtain ⟨⟨c, u⟩, halloc, hres⟩ := Option.map_eq_some_iff.mp h
    obtain ⟨rfl, rfl⟩ := Prod.mk.inj hres
    obtain ⟨hc, -, hinode, -, hblock, -, -⟩ := hok.balloc_spec halloc
    have hnone : slot u (i, MAXFILE) = 0 := by
      rw [slot_maxfile, hinode]
      exact hzero
    obtain ⟨hok', hkeeps, hslot, hcard⟩ := hok.link (u := u.setAddr i NDIRECT c) halloc hzero rfl
      size_setAddr (fun _ => slot_setAddr_indirect hnone hblock) (fun _ _ => rfl)
    refine ⟨hok', hkeeps, hc.ne_zero, hslot, ?_, fun hne => absurd hzero hne⟩
    rw [if_pos hzero, hcard]
  · obtain ⟨rfl, rfl⟩ := Prod.mk.inj (Option.some.inj h)
    refine ⟨hok, .refl s, hzero, fun q => ?_, by rw [if_neg hzero, Nat.add_zero], fun _ => rfl⟩
    split_ifs with hq
    · rw [hq]
    · rfl

theorem bmapIndirect_eq_none_iff :
    bmapIndirect sb s i = none ↔ slot s (i, MAXFILE) = 0 ∧ (free sb s).card = 0 := by
  rw [bmapIndirect]
  by_cases hzero : slot s (i, MAXFILE) = 0
  · rw [if_pos hzero, Option.map_eq_none_iff, balloc_eq_none_iff, and_iff_right hzero]
  · rw [if_neg hzero]
    exact ⟨fun h => absurd h (Option.some_ne_none _), fun h => absurd h.1 hzero⟩

theorem inode_balloc (h : balloc sb s = some (a, t)) : t.inode = s.inode := by
  obtain ⟨n, -, hres⟩ := Option.map_eq_some_iff.mp h
  obtain ⟨-, rfl⟩ := Prod.mk.inj hres
  rfl

theorem inode_setAddr_of_ne {j : ℕ} (h : j ≠ i) : (s.setAddr i k a).inode j = s.inode j :=
  Function.update_of_ne h ..

theorem inode_bmap_of_ne {j : ℕ} (hlt : bn < MAXFILE) (h : bmap sb s i bn = some (b, t))
    (hj : j ≠ i) :
    t.inode j = s.inode j := by
  by_cases hdirect : bn < NDIRECT
  · rw [bmap_direct hdirect] at h
    split_ifs at h with hzero
    · obtain ⟨⟨c, u⟩, halloc, hres⟩ := Option.map_eq_some_iff.mp h
      obtain ⟨rfl, rfl⟩ := Prod.mk.inj hres
      rw [inode_setAddr_of_ne hj, inode_balloc halloc]
    · obtain ⟨rfl, rfl⟩ := Prod.mk.inj (Option.some.inj h)
      rfl
  · rw [bmap_entry (not_lt.mp hdirect) hlt] at h
    obtain ⟨⟨ind, u⟩, hfirst, hrest⟩ := Option.bind_eq_some_iff.mp h
    have hu : u.inode j = s.inode j := by
      rw [bmapIndirect] at hfirst
      split_ifs at hfirst with hzero
      · obtain ⟨⟨c, v⟩, halloc, hres⟩ := Option.map_eq_some_iff.mp hfirst
        obtain ⟨rfl, rfl⟩ := Prod.mk.inj hres
        rw [inode_setAddr_of_ne hj, inode_balloc halloc]
      · obtain ⟨rfl, rfl⟩ := Prod.mk.inj (Option.some.inj hfirst)
        rfl
    split_ifs at hrest with hzero
    · obtain ⟨⟨c, v⟩, halloc, hres⟩ := Option.map_eq_some_iff.mp hrest
      obtain ⟨rfl, rfl⟩ := Prod.mk.inj hres
      rw [← hu, ← inode_balloc halloc]
      rfl
    · obtain ⟨rfl, rfl⟩ := Prod.mk.inj (Option.some.inj hrest)
      exact hu

/-- `bmap` returns the block in the slot, which it fills first if it is empty. -/
theorem FsOk.bmap_spec (hok : FsOk sb s) (hlt : bn < MAXFILE) (h : bmap sb s i bn = some (b, t)) :
    FsOk sb t ∧ Keeps s t ∧ slot t (i, bn) = b ∧ b ≠ 0 ∧
      (∀ q, slot t q ≠ 0 ↔ slot s q ≠ 0 ∨ q = (i, bn) ∨ q = (i, MAXFILE) ∧ NDIRECT ≤ bn) ∧
      (free sb t).card + missing s i bn = (free sb s).card ∧ (slot s (i, bn) ≠ 0 → t = s) := by
  by_cases hdirect : bn < NDIRECT
  · rw [bmap_direct hdirect] at h
    rw [missing, if_neg fun hand => by omega, Nat.zero_add]
    split_ifs at h with hzero
    · obtain ⟨⟨c, u⟩, halloc, hres⟩ := Option.map_eq_some_iff.mp h
      obtain ⟨rfl, rfl⟩ := Prod.mk.inj hres
      obtain ⟨hok', hkeeps, hslot, hcard⟩ := hok.link (u := u.setAddr i bn c) halloc hzero rfl
        size_setAddr (fun _ => slot_setAddr_direct hdirect) (fun _ _ => rfl)
      have hc : c ≠ 0 := (hok.balloc_spec halloc).1.ne_zero
      refine ⟨hok', hkeeps, by rw [hslot, if_pos rfl], hc, fun q => ?_, by rw [if_pos hzero, hcard],
        fun hne => absurd hzero hne⟩
      rw [hslot]
      split_ifs with hq
      · exact ⟨fun _ => Or.inr (Or.inl hq), fun _ => hc⟩
      · refine ⟨Or.inl, ?_⟩
        rintro (hne | heq | ⟨-, hle⟩)
        · exact hne
        · exact absurd heq hq
        · omega
    · obtain ⟨rfl, rfl⟩ := Prod.mk.inj (Option.some.inj h)
      refine ⟨hok, .refl s, rfl, hzero, fun q => ⟨Or.inl, ?_⟩, by rw [if_neg hzero, Nat.add_zero],
        fun _ => rfl⟩
      rintro (hne | rfl | ⟨-, hle⟩)
      · exact hne
      · exact hzero
      · omega
  · rw [not_lt] at hdirect
    rw [bmap_entry hdirect hlt] at h
    obtain ⟨⟨ind, u⟩, hfirst, hrest⟩ := Option.bind_eq_some_iff.mp h
    obtain ⟨hu, hsu, hind0, hslot, hcard, hsame⟩ := hok.bmapIndirect_spec hfirst
    have hind : slot u (i, MAXFILE) = ind := by rw [hslot, if_pos rfl]
    have hentry : slot u (i, bn) = word (u.disk ind.toNat) (bn - NDIRECT) := by
      rw [slot_entry hdirect hlt, hind, if_neg hind0]
    have hentry' : slot u (i, bn) = slot s (i, bn) := by
      rw [hslot, if_neg fun heq => hlt.ne (congrArg Prod.snd heq)]
    dsimp only at hrest
    rw [← hentry, hentry'] at hrest
    have hcond : (NDIRECT ≤ bn ∧ slot s (i, MAXFILE) = 0) = (slot s (i, MAXFILE) = 0) :=
      propext (and_iff_right hdirect)
    rw [missing, if_congr (Iff.of_eq hcond) rfl rfl]
    split_ifs at hrest with hzero
    · obtain ⟨⟨c, v⟩, halloc, hres⟩ := Option.map_eq_some_iff.mp hrest
      obtain ⟨rfl, rfl⟩ := Prod.mk.inj hres
      have hc : c ≠ 0 := (hu.balloc_spec halloc).1.ne_zero
      have hedit : (∀ q, slot v q = slot u q) → ∀ q,
          slot (v.setDisk ind.toNat (setWord (v.disk ind.toNat) (bn - NDIRECT) c)) q =
            if q = (i, bn) then c else slot v q := by
        intro hv q
        have heq : NDIRECT + (bn - NDIRECT) = bn := by omega
        have hmax : MAXFILE = NDIRECT + NINDIRECT := rfl
        rw [slot_setDisk_entry (by rw [hv, hind]) hind0 (by omega), heq]
        intro j hj
        rw [hv, ← hind]
        exact (hu.toNat_ne (by rwa [hind]) fun heq => hj (congrArg Prod.fst heq).symm).symm
      obtain ⟨hok', hkeeps, hslot', hcard'⟩ := hu.link
        (u := v.setDisk ind.toNat (setWord (v.disk ind.toNat) (bn - NDIRECT) c)) halloc
        (hentry'.trans hzero) rfl (fun _ => rfl) hedit
        (fun k hk => Function.update_of_ne (by rw [← hind]; exact hk i (by rwa [hind])) ..)
      refine ⟨hok', hsu.trans hkeeps, by rw [hslot', if_pos rfl], hc, fun q => ?_, ?_,
        fun hne => absurd hzero hne⟩
      · rw [hslot', hslot]
        split_ifs with hq hq'
        · exact ⟨fun _ => Or.inr (Or.inl hq), fun _ => hc⟩
        · exact ⟨fun _ => Or.inr (Or.inr ⟨hq', hdirect⟩), fun _ => hind0⟩
        · exact ⟨Or.inl, fun hor => hor.resolve_right fun hor =>
            hor.elim hq fun hand => hq' hand.1⟩
      · rw [if_pos hzero, ← hcard, ← hcard']
        dsimp only
        omega
    · obtain ⟨rfl, rfl⟩ := Prod.mk.inj (Option.some.inj hrest)
      have hfull : slot s (i, MAXFILE) ≠ 0 := by
        intro hnone
        rw [slot_entry hdirect hlt, if_pos hnone] at hzero
        exact hzero rfl
      obtain rfl := hsame hfull
      refine ⟨hu, .refl u, rfl, hzero, fun q => ⟨Or.inl, ?_⟩, ?_, fun _ => rfl⟩
      · rintro (hne | rfl | ⟨rfl, -⟩)
        · exact hne
        · exact hzero
        · exact hfull
      · rw [if_neg hzero, if_neg hfull, Nat.add_zero]

theorem FsOk.bmap_eq_none_iff (hok : FsOk sb s) (hlt : bn < MAXFILE) :
    bmap sb s i bn = none ↔ (free sb s).card < missing s i bn := by
  by_cases hdirect : bn < NDIRECT
  · have hcond : ¬ (NDIRECT ≤ bn ∧ slot s (i, MAXFILE) = 0) := fun hand => by omega
    rw [bmap_direct hdirect, missing, if_neg hcond, Nat.zero_add]
    by_cases hzero : slot s (i, bn) = 0
    · rw [if_pos hzero, if_pos hzero, Option.map_eq_none_iff, balloc_eq_none_iff, Nat.lt_one_iff]
    · rw [if_neg hzero, if_neg hzero]
      exact ⟨fun h => absurd h (Option.some_ne_none _), fun h => by omega⟩
  · rw [not_lt] at hdirect
    rw [bmap_entry hdirect hlt, missing]
    cases hfirst : bmapIndirect sb s i with
    | none =>
      obtain ⟨hzero, hcard⟩ := bmapIndirect_eq_none_iff.mp hfirst
      rw [Option.bind_none, if_pos ⟨hdirect, hzero⟩]
      exact ⟨fun _ => by omega, fun _ => rfl⟩
    | some r =>
      obtain ⟨hu, -, hind0, hslot, hcard, -⟩ := hok.bmapIndirect_spec hfirst
      have hind : slot r.2 (i, MAXFILE) = r.1 := by rw [hslot, if_pos rfl]
      have hentry : word (r.2.disk r.1.toNat) (bn - NDIRECT) = slot s (i, bn) := by
        have hslot' := hslot (i, bn)
        rw [if_neg fun heq => hlt.ne (congrArg Prod.snd heq), slot_entry hdirect hlt, hind,
          if_neg hind0] at hslot'
        exact hslot'
      have hcond : (NDIRECT ≤ bn ∧ slot s (i, MAXFILE) = 0) ↔ slot s (i, MAXFILE) = 0 :=
        and_iff_right hdirect
      rw [Option.bind_some, hentry, if_congr hcond rfl rfl]
      by_cases hzero : slot s (i, bn) = 0
      · rw [if_pos hzero, if_pos hzero, Option.map_eq_none_iff, balloc_eq_none_iff]
        omega
      · rw [if_neg hzero, if_neg hzero]
        exact ⟨fun h => absurd h (Option.some_ne_none _), fun h => by omega⟩

end UefiGame.Kernel
