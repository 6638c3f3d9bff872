import Mathlib.Data.BitVec
import Mathlib.Logic.Function.Basic
import UefiGame.Firmware.Types
import UefiGame.Library.SlotMap

/-! # The content of files

A file's bytes lie in blocks of the disk, whose numbers are in the inode and in
one more block. A bitmap on the disk tells which blocks are in use. Blocks are
taken here as the buffer cache presents them, by their bytes; a `panic` is
`none`. Left out are inodes of devices, which have no content, and `log_write`
with its limit on the blocks of a transaction: the calls are those the log has
room for, as `filewrite` makes them.
-/

namespace UefiGame.Kernel

def BSIZE : ℕ := 512
def NDIRECT : ℕ := 12
def NINDIRECT : ℕ := 128
def MAXFILE : ℕ := NDIRECT + NINDIRECT
def BPB : ℕ := BSIZE * 8

/-- The bytes of a block. -/
abbrev Data := ℕ → UINT8

/-! ## Words and bits of blocks -/

/-- `((uint*)d)[j]`. -/
def word (d : Data) (j : ℕ) : UINT32 :=
  (d (4 * j + 3) ++ d (4 * j + 2) ++ d (4 * j + 1) ++ d (4 * j) :)

def setWord (d : Data) (j : ℕ) (v : UINT32) : Data := fun k =>
  if k / 4 = j then v.extractLsb' (8 * (k % 4)) 8 else d k

/-- `1 << (bi % 8)`. -/
def mask (bi : ℕ) : UINT8 := 1 <<< (bi % 8)

/-- `(d[bi/8] & m) == 0`. -/
def isFree (d : Data) (bi : ℕ) : Bool := d (bi / 8) &&& mask bi = 0

def setBit (d : Data) (bi : ℕ) : Data := Function.update d (bi / 8) (d (bi / 8) ||| mask bi)

def clearBit (d : Data) (bi : ℕ) : Data := Function.update d (bi / 8) (d (bi / 8) &&& ~~~mask bi)

/-- `memmove` of some bytes into a block. -/
def patch (d : Data) (o : ℕ) (bs : List UINT8) : Data := fun k =>
  if o ≤ k then bs[k - o]?.getD (d k) else d k

section Data

variable {d : Data} {j j' k bi bi' o : ℕ} {v : UINT32} {bs : List UINT8}

theorem word_congr {d' : Data} (h : ∀ k, k / 4 = j → d' k = d k) : word d' j = word d j := by
  rw [word, word, h _ (by omega), h _ (by omega), h _ (by omega), h _ (by omega)]

theorem word_setWord_of_ne (h : j' ≠ j) : word (setWord d j v) j' = word d j' :=
  word_congr fun k hk => if_neg (by rw [hk]; exact h)

theorem word_setWord_self : word (setWord d j v) j = v := by
  have hbyte : ∀ t < 4, setWord d j v (4 * j + t) = v.extractLsb' (8 * t) 8 := by
    intro t ht
    have hmod : (4 * j + t) % 4 = t := by omega
    rw [setWord, if_pos (by omega), hmod]
  have h0 := hbyte 0 (by omega)
  rw [Nat.add_zero] at h0
  rw [word, h0, hbyte 1 (by omega), hbyte 2 (by omega), hbyte 3 (by omega)]
  apply BitVec.eq_of_getLsbD_eq
  intro i hi
  simp only [BitVec.getLsbD_append, BitVec.getLsbD_extractLsb']
  by_cases h1 : i < 8
  · simp [h1]
  · by_cases h2 : i < 16
    · have hi2 : i - 8 < 8 := by omega
      have heq : 8 + (i - 8) = i := by omega
      simp [h1, hi2, heq]
    · by_cases h3 : i < 24
      · have hi2 : ¬ i - 8 < 8 := by omega
        have hi3 : i - 8 - 8 < 8 := by omega
        have heq : 16 + (i - 8 - 8) = i := by omega
        simp [h1, hi2, hi3, heq]
      · have hi2 : ¬ i - 8 < 8 := by omega
        have hi3 : ¬ i - 8 - 8 < 8 := by omega
        have hi4 : i - 8 - 8 - 8 < 8 := by omega
        have heq : 24 + (i - 8 - 8 - 8) = i := by omega
        simp [h1, hi2, hi3, hi4, heq]

@[simp] theorem word_zero : word (fun _ => 0) j = 0 := by
  rw [word]
  rfl

theorem and_shift_eq_zero_iff : ∀ j < 8, ∀ x : UINT8, x &&& 1 <<< j = 0 ↔ x.getLsbD j = false := by
  decide +kernel

theorem isFree_eq_true : isFree d bi = true ↔ (d (bi / 8)).getLsbD (bi % 8) = false := by
  rw [isFree, decide_eq_true_eq, mask]
  exact and_shift_eq_zero_iff _ (Nat.mod_lt _ (by decide)) _

theorem getLsbD_mask {t : ℕ} (ht : t < 8) : (mask bi).getLsbD t = decide (t = bi % 8) := by
  have hall : ∀ i < 8, ∀ t < 8, ((1 : UINT8) <<< i).getLsbD t = decide (t = i) := by decide
  exact hall _ (Nat.mod_lt _ (by decide)) t ht

theorem isFree_setBit : isFree (setBit d bi) bi' = true ↔ isFree d bi' = true ∧ bi' ≠ bi := by
  rw [isFree_eq_true, isFree_eq_true, setBit]
  have ht : bi' % 8 < 8 := Nat.mod_lt _ (by decide)
  by_cases h : bi' / 8 = bi / 8
  · rw [h, Function.update_self, BitVec.getLsbD_or, getLsbD_mask ht, Bool.or_eq_false_iff,
      decide_eq_false_iff_not]
    refine and_congr_right fun _ => not_congr ⟨fun hmod => ?_, fun heq => by rw [heq]⟩
    omega
  · rw [Function.update_of_ne h]
    exact ⟨fun hfree => ⟨hfree, fun heq => h (by rw [heq])⟩, And.left⟩

theorem isFree_clearBit : isFree (clearBit d bi) bi' = true ↔ isFree d bi' = true ∨ bi' = bi := by
  rw [isFree_eq_true, isFree_eq_true, clearBit]
  have ht : bi' % 8 < 8 := Nat.mod_lt _ (by decide)
  by_cases h : bi' / 8 = bi / 8
  · rw [h, Function.update_self, BitVec.getLsbD_and, BitVec.getLsbD_not, getLsbD_mask ht,
      Bool.and_eq_false_iff]
    refine or_congr_right ⟨fun hmask => ?_, fun heq => ?_⟩
    · have hmod : bi' % 8 = bi % 8 := by simpa [ht] using hmask
      omega
    · rw [heq]
      simp
  · rw [Function.update_of_ne h]
    refine ⟨Or.inl, ?_⟩
    rintro (hfree | heq)
    · exact hfree
    · exact absurd (by rw [heq]) h

theorem patch_of_mem (h : k < bs.length) : patch d o bs (o + k) = bs[k] := by
  rw [patch, if_pos (by omega), Nat.add_sub_cancel_left, List.getElem?_eq_getElem h,
    Option.getD_some]

theorem patch_of_notMem (h : k < o ∨ o + bs.length ≤ k) : patch d o bs k = d k := by
  rw [patch]
  split_ifs with ho
  · rw [List.getElem?_eq_none (by omega), Option.getD_none]
  · rfl

end Data

/-! ## The file system -/

/-- What the code uses of the super block, which `mkfs` writes: the bitmap comes before the data
blocks, and these are the last ones. -/
structure Superblock where
  size : ℕ
  nblocks : ℕ
  bmapstart : ℕ
  bmapstart_pos : 0 < bmapstart
  bitmap_le : bmapstart + (size + BPB - 1) / BPB ≤ size - nblocks
  size_lt : size < 2 ^ 31

structure Inode where
  size : ℕ
  addrs : ℕ → UINT32

/-- The blocks, and the inodes on disk and in memory. -/
structure Fs where
  disk : ℕ → Data
  dinode : ℕ → Inode
  inode : ℕ → Inode

variable (sb : Superblock)

/-- The loops of `balloc`: the first block that is free. -/
def findFree (s : Fs) : Option ℕ :=
  (List.range ((sb.size + BPB - 1) / BPB)).findSome? fun k =>
    ((List.range BPB).find? fun bi =>
      k * BPB + bi < sb.size && isFree (s.disk (k + sb.bmapstart)) bi).map (k * BPB + ·)

/-- `balloc`, with the block zeroed by `bzero`. -/
def balloc (s : Fs) : Option (UINT32 × Fs) :=
  (findFree sb s).map fun b =>
    let bmap := b / BPB + sb.bmapstart
    let disk := Function.update s.disk bmap (setBit (s.disk bmap) (b % BPB))
    (BitVec.ofNat 32 b, { s with disk := Function.update disk b (fun _ => 0) })

def bfree (s : Fs) (b : UINT32) : Option Fs :=
  let bmap := b.toNat / BPB + sb.bmapstart
  if isFree (s.disk bmap) (b.toNat % BPB) then none
  else some { s with
    disk := Function.update s.disk bmap (clearBit (s.disk bmap) (b.toNat % BPB)) }

namespace Fs

variable (s : Fs)

/-- Assign to a block number of an inode in memory. -/
def setAddr (i k : ℕ) (b : UINT32) : Fs :=
  let ip := s.inode i
  { s with inode := Function.update s.inode i { ip with addrs := Function.update ip.addrs k b } }

def setDisk (b : ℕ) (d : Data) : Fs := { s with disk := Function.update s.disk b d }

/-- `iupdate`. -/
def iupdate (i : ℕ) : Fs := { s with dinode := Function.update s.dinode i (s.inode i) }

end Fs

def bmap (s : Fs) (i bn : ℕ) : Option (UINT32 × Fs) :=
  if bn < NDIRECT then
    let addr := (s.inode i).addrs bn
    if addr = 0 then (balloc sb s).map fun r => (r.1, r.2.setAddr i bn r.1) else some (addr, s)
  else if bn - NDIRECT < NINDIRECT then
    let addr := (s.inode i).addrs NDIRECT
    (if addr = 0 then (balloc sb s).map fun r => (r.1, r.2.setAddr i NDIRECT r.1)
      else some (addr, s)).bind fun ⟨ind, s⟩ =>
        let addr := word (s.disk ind.toNat) (bn - NDIRECT)
        if addr = 0 then (balloc sb s).map fun r =>
          (r.1, r.2.setDisk ind.toNat (setWord (r.2.disk ind.toNat) (bn - NDIRECT) r.1))
        else some (addr, s)
  else none

/-- The loop of `readi`, with a bound on its passes. -/
def readLoop (i : ℕ) : ℕ → Fs → ℕ → ℕ → Option (List UINT8 × Fs)
  | 0, _, _, _ => none
  | k + 1, s, off, n =>
    if n = 0 then some ([], s)
    else (bmap sb s i (off / BSIZE)).bind fun ⟨b, s⟩ =>
      let m := min n (BSIZE - off % BSIZE)
      (readLoop i k s (off + m) (n - m)).map fun r =>
        ((List.range m).map (fun j => s.disk b.toNat (off % BSIZE + j)) ++ r.1, r.2)

/-- `readi`: the bytes, or nothing for `-1`. -/
def readi (s : Fs) (i : ℕ) (off n : UINT32) : Option (Option (List UINT8) × Fs) :=
  if (s.inode i).size < off.toNat ∨ off + n < off then some (none, s)
  else
    let count :=
      if (s.inode i).size < (off + n).toNat then (s.inode i).size - off.toNat else n.toNat
    (readLoop sb i (count + 1) s off.toNat count).map fun r => (some r.1, r.2)

/-- The loop of `writei`. -/
def writeLoop (i : ℕ) : ℕ → Fs → ℕ → List UINT8 → Option Fs
  | 0, _, _, _ => none
  | k + 1, s, off, src =>
    if src = [] then some s
    else (bmap sb s i (off / BSIZE)).bind fun ⟨b, s⟩ =>
      let m := min src.length (BSIZE - off % BSIZE)
      let s := s.setDisk b.toNat (patch (s.disk b.toNat) (off % BSIZE) (src.take m))
      writeLoop i k s (off + m) (src.drop m)

/-- `writei` of bytes, whose number is an unsigned integer; the number written,
or nothing for `-1`. -/
def writei (s : Fs) (i : ℕ) (off : UINT32) (src : List UINT8) : Option (Option ℕ × Fs) :=
  let n := BitVec.ofNat 32 src.length
  if (s.inode i).size < off.toNat ∨ off + n < off then some (none, s)
  else if MAXFILE * BSIZE < (off + n).toNat then some (none, s)
  else (writeLoop sb i (src.length + 1) s off.toNat src).map fun s =>
    let last := off.toNat + src.length
    if src ≠ [] ∧ (s.inode i).size < last then
      (some src.length,
        Fs.iupdate { s with inode := Function.update s.inode i { s.inode i with size := last } } i)
    else (some src.length, s)

/-- Free a block that there is. -/
def bfreeSome (s : Fs) (b : UINT32) : Option Fs := if b = 0 then some s else bfree sb s b

/-- The first loop of `itrunc`. -/
def truncDirect (s : Fs) (i : ℕ) : Option Fs :=
  (List.range NDIRECT).foldlM (fun s k =>
    let b := (s.inode i).addrs k
    if b = 0 then some s else (bfree sb s b).map fun s => s.setAddr i k 0) s

/-- The rest of it before the size is set. -/
def truncIndirect (s : Fs) (i : ℕ) : Option Fs :=
  let ind := (s.inode i).addrs NDIRECT
  if ind = 0 then some s
  else ((List.range NINDIRECT).foldlM
    (fun s j => bfreeSome sb s (word (s.disk ind.toNat) j)) s).bind
    fun s => (bfree sb s ind).map fun s => s.setAddr i NDIRECT 0

def itrunc (s : Fs) (i : ℕ) : Option Fs :=
  (truncDirect sb s i).bind fun s => (truncIndirect sb s i).map fun s =>
    Fs.iupdate { s with inode := Function.update s.inode i { s.inode i with size := 0 } } i

end UefiGame.Kernel
