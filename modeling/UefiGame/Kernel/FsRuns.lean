import Mathlib.Algebra.BigOperators.Group.Finset.Basic
import UefiGame.Kernel.FsFiles
import UefiGame.Library.Service

/-! # Runs of calls on files

Whatever calls are made on inodes, one after the other, the replies are those of
lists of bytes, and `balloc` panics where these run out of blocks. No block is
ever lost or in two places.
-/

namespace UefiGame.Kernel

open Service SlotMap

variable {sb : Superblock} {s : Fs} {i n : ℕ} {l : List UINT8} {f g : Files} {S : Finset ℕ}

namespace Files

/-- A call on an inode; the number of bytes of a write is an unsigned integer. -/
inductive Call
  | read (i : ℕ) (off n : UINT32)
  | write (i : ℕ) (off : UINT32) (src : { l : List UINT8 // l.length < 2 ^ 32 })
  | trunc (i : ℕ)

/-- What a call returns; nothing is `-1`. -/
inductive Reply
  | bytes (l : Option (List UINT8))
  | count (n : Option ℕ)
  | done
  deriving DecidableEq

def Call.inode : Call → ℕ
  | read i .. => i
  | write i .. => i
  | trunc i => i

def call (f : Files) : Call → Option (Reply × Files)
  | .read i off n => some (.bytes (f.read i off.toNat n.toNat), f)
  | .write i off src => (f.write i off.toNat src.1).map (Prod.map .count id)
  | .trunc i => (f.set i []).map (Prod.mk .done)

end Files

def Fs.call (sb : Superblock) (s : Fs) : Files.Call → Option (Files.Reply × Fs)
  | .read i off n => (readi sb s i off n).map (Prod.map .bytes id)
  | .write i off src => (writei sb s i off src.1).map (Prod.map .count id)
  | .trunc i => (itrunc sb s i).map (Prod.mk .done)

theorem FilesOk.call_spec (h : FilesOk sb s) (c : Files.Call) :
    (Fs.call sb s c).map (Prod.map id (files sb)) = (files sb s).call c ∧
      ∀ r, Fs.call sb s c = some r → FilesOk sb r.2 := by
  cases c with
  | read i off n =>
    rw [Fs.call, h.readi_eq]
    refine ⟨rfl, ?_⟩
    rintro r ⟨⟩
    exact h
  | write i off src =>
    obtain ⟨heq, hok⟩ := h.writei_spec i off src.2
    rw [Fs.call, Files.call, ← heq, Option.map_map, Option.map_map]
    refine ⟨rfl, fun r hr => ?_⟩
    obtain ⟨q, hq, rfl⟩ := Option.map_eq_some_iff.mp hr
    exact hok q hq
  | trunc i =>
    obtain ⟨t, ht, hok, hset⟩ := h.itrunc_spec i
    rw [Fs.call, Files.call, ht, hset]
    refine ⟨rfl, ?_⟩
    rintro r ⟨⟩
    exact hok

theorem FilesOk.serve (h : FilesOk sb s) {cs : List Files.Call} {r : List Files.Reply × Fs}
    (hserve : serve (Fs.call sb) s cs = some r) : FilesOk sb r.2 :=
  invariant (C := fun _ => True) (fun _ c p hs _ hp => (hs.call_spec c).2 p hp) h
    (fun _ _ => trivial) hserve

theorem FilesOk.serve_eq (h : FilesOk sb s) (cs : List Files.Call) :
    (Service.serve (Fs.call sb) s cs).map (Prod.map id (files sb)) =
      Service.serve Files.call (files sb s) cs :=
  refines (fun _ c p hs hp => (hs.call_spec c).2 p hp) (fun _ c hs => (hs.call_spec c).1) h cs

/-! ## The image that `mkfs` writes -/

/-- The bitmap block of `balloc` in `mkfs`. -/
def mkfsBitmap (used : ℕ) : Data := (List.range used).foldl setBit fun _ => 0

theorem isFree_mkfsBitmap {used bi : ℕ} : isFree (mkfsBitmap used) bi = true ↔ used ≤ bi := by
  induction used with
  | zero =>
    rw [isFree_eq_true]
    exact iff_of_true (BitVec.getLsbD_zero ..) (Nat.zero_le _)
  | succ used ih =>
    rw [mkfsBitmap, List.range_succ, List.foldl_append]
    change isFree (setBit (mkfsBitmap used) used) bi = true ↔ used + 1 ≤ bi
    rw [isFree_setBit, ih]
    omega

/-- What `mkfs` would write without any directory and file. -/
def mkfs (sb : Superblock) : Fs where
  disk := Function.update (fun _ _ => 0) sb.bmapstart (mkfsBitmap (sb.size - sb.nblocks))
  dinode _ := ⟨0, fun _ => 0⟩
  inode _ := ⟨0, fun _ => 0⟩

theorem marked_mkfs (hsize : sb.size ≤ BPB) {b : ℕ} (hb : b < sb.size) :
    Marked sb (mkfs sb) b ↔ b < sb.size - sb.nblocks := by
  have hlt : b < BPB := hb.trans_le hsize
  have hdisk : (mkfs sb).disk sb.bmapstart = mkfsBitmap (sb.size - sb.nblocks) := by
    simp only [mkfs, Function.update_self]
  rw [Marked, Nat.div_eq_of_lt hlt, Nat.zero_add, Nat.mod_eq_of_lt hlt, hdisk, ← Bool.not_eq_true,
    isFree_mkfsBitmap, not_le]

theorem slot_mkfs (q : ℕ × ℕ) : slot (mkfs sb) q = 0 := by
  rw [slot]
  split_ifs with hdirect hentry hind
  · rfl
  · rfl
  · exact absurd rfl hind
  · rfl
  · rfl

theorem filesOk_mkfs (hsize : sb.size ≤ BPB) : FilesOk sb (mkfs sb) where
  ok := by
    refine ⟨⟨fun p q hp => absurd (slot_mkfs p) hp, fun p hp => absurd (slot_mkfs p) hp,
      fun b hb => ?_⟩,
      fun b hb => (marked_mkfs hsize (by omega)).mpr hb⟩
    refine iff_of_false (fun hmarked => ?_) ?_
    · exact absurd ((marked_mkfs hsize hb.2).mp hmarked) (not_lt.mpr hb.1)
    · rintro ⟨p, rfl⟩
      exact hb.ne_zero (slot_mkfs p)
  sized := by
    have hzero : blocks 0 = 0 := rfl
    refine ⟨fun i k => iff_of_false (fun hne => hne (slot_mkfs _)) ?_, fun i => ?_⟩
    · change ¬ (k < blocks 0 ∨ k = MAXFILE ∧ NDIRECT < blocks 0)
      omega
    · exact hzero.trans_le (Nat.zero_le _)
  through := rfl

/-- The layout that `mkfs` computes. -/
def mkfsLayout : Superblock where
  size := 1000
  nblocks := 941
  bmapstart := 58
  bmapstart_pos := by decide
  bitmap_le := by decide
  size_lt := by decide

/-- Two writes, the second behind the first one, a read of both and the end of the file. -/
def sampleCalls : List Files.Call :=
  [.write 1 0 ⟨[1, 2, 3], by decide⟩, .write 1 3 ⟨[4], by decide⟩, .read 1 1 9, .trunc 1]

/-! ## The replies -/

/-- In every run of calls that the log has room for, the replies are those of lists of bytes, it
ends in a panic exactly when these have too few blocks, and inodes are on the disk as in memory. -/
theorem files_refine (h : FilesOk sb s) (cs : List Files.Call) :
    (serve (Fs.call sb) s cs).map (Prod.map id (files sb)) = serve Files.call (files sb s) cs ∧
      ∀ r, serve (Fs.call sb) s cs = some r → r.2.dinode = r.2.inode :=
  ⟨h.serve_eq cs, fun _ hr => (h.serve hr).through⟩

theorem files_refine_mkfs :
    (serve (Fs.call mkfsLayout) (mkfs mkfsLayout) sampleCalls).map
      (Prod.map id (files mkfsLayout)) =
      serve Files.call (files mkfsLayout (mkfs mkfsLayout)) sampleCalls :=
  (files_refine (filesOk_mkfs (by decide)) sampleCalls).1

example : (serve (Fs.call mkfsLayout) (mkfs mkfsLayout) sampleCalls).map Prod.fst =
    some [.count (some 3), .count (some 1), .bytes (some [2, 3, 4]), .done] := by
  decide +kernel

/-! ## The blocks -/

namespace Files

/-- The free blocks and those of some inodes. -/
def capacity (f : Files) (S : Finset ℕ) : ℕ := f.free + ∑ i ∈ S, total (blocks (f.content i).length)

theorem capacity_set (hi : i ∈ S) (h : f.set i l = some g) : g.capacity S = f.capacity S := by
  rw [set] at h
  split_ifs at h with hlack
  obtain rfl := Option.some.inj h
  have hrest : ∀ j ∈ S.erase i, total (blocks (Function.update f.content i l j).length) =
      total (blocks (f.content j).length) := by
    intro j hj
    rw [Function.update_of_ne (Finset.ne_of_mem_erase hj)]
  rw [capacity, capacity, ← Finset.add_sum_erase S _ hi, ← Finset.add_sum_erase S _ hi]
  dsimp only
  rw [Finset.sum_congr rfl hrest, Function.update_self]
  omega

theorem capacity_call {c : Call} {p : Reply × Files} (hc : c.inode ∈ S) (h : f.call c = some p) :
    p.2.capacity S = f.capacity S := by
  cases c with
  | read i off n =>
    obtain rfl := Option.some.inj h
    rfl
  | write i off src =>
    obtain ⟨q, hq, rfl⟩ := Option.map_eq_some_iff.mp h
    rw [write] at hq
    split_ifs at hq with hbad
    · obtain rfl := Option.some.inj hq
      rfl
    · obtain ⟨g, hg, rfl⟩ := Option.map_eq_some_iff.mp hq
      exact capacity_set hc hg
  | trunc i =>
    rw [call] at h
    obtain ⟨g, hg, rfl⟩ := Option.map_eq_some_iff.mp h
    exact capacity_set hc hg

end Files

/-- In every run of calls each data block is in one place at most, the bitmap marks those that are
in one, and none is lost: the free ones and those of the inodes on which calls
are made stay as many. -/
theorem files_blocks (h : FilesOk sb s) {cs : List Files.Call} (hS : ∀ c ∈ cs, c.inode ∈ S)
    {r : List Files.Reply × Fs} (hserve : serve (Fs.call sb) s cs = some r) :
    (∀ p q, slot r.2 p ≠ 0 → slot r.2 p = slot r.2 q → p = q) ∧
      (∀ b, IsData sb b → (Marked sb r.2 b.toNat ↔ ∃ p, slot r.2 p = b)) ∧
      (free sb r.2).card + ∑ i ∈ S, total (blocks (r.2.inode i).size) =
        (free sb s).card + ∑ i ∈ S, total (blocks (s.inode i).size) := by
  have hr := h.serve hserve
  have heq := h.serve_eq cs
  rw [hserve, Option.map_some] at heq
  have hcapacity : (files sb r.2).capacity S = (files sb s).capacity S :=
    invariant (I := fun f => f.capacity S = (files sb s).capacity S)
      (fun _ _ _ hf hc hp => (Files.capacity_call hc hp).trans hf) rfl hS heq.symm
  have hsum : ∀ t, (files sb t).capacity S =
      (free sb t).card + ∑ i ∈ S, total (blocks (t.inode i).size) := by
    intro t
    rw [Files.capacity]
    simp only [files, length_content]
  rw [hsum, hsum] at hcapacity
  exact ⟨hr.ok.slots.inj, hr.ok.slots.used_iff, hcapacity⟩

theorem files_blocks_mkfs : ∃ r, serve (Fs.call mkfsLayout) (mkfs mkfsLayout) sampleCalls = some r ∧
    (free mkfsLayout r.2).card + ∑ i ∈ {1}, total (blocks (r.2.inode i).size) =
      (free mkfsLayout (mkfs mkfsLayout)).card +
        ∑ i ∈ {1}, total (blocks ((mkfs mkfsLayout).inode i).size) := by
  have hsome : (serve (Fs.call mkfsLayout) (mkfs mkfsLayout) sampleCalls).isSome = true := by
    decide +kernel
  obtain ⟨r, hr⟩ := Option.isSome_iff_exists.mp hsome
  have hinodes : ∀ c ∈ sampleCalls, c.inode ∈ ({1} : Finset ℕ) := by decide
  exact ⟨r, hr, (files_blocks (filesOk_mkfs (by decide)) hinodes hr).2.2⟩

end UefiGame.Kernel
