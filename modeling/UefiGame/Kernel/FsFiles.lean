import UefiGame.Kernel.FsTrunc

/-! # Files as lists of bytes

Seen from outside, an inode is a list of bytes that is read, overwritten from a
place in it or at its end, and emptied, and the disk is a number of free blocks.
The code does exactly this from any state where each file has just the blocks
that its size needs, and leaves such a state.
-/

namespace UefiGame.Kernel

open SlotMap

variable {sb : Superblock} {s t : Fs} {i j k off n : ℕ} {bs src l : List UINT8}

/-- The list with bytes in place of those from `off` on, and longer if it must be. -/
def overwrite (l : List UINT8) (off : ℕ) (bs : List UINT8) : List UINT8 :=
  l.take off ++ bs ++ l.drop (off + bs.length)

/-- The content of inodes and the number of free blocks. -/
@[ext] structure Files where
  content : ℕ → List UINT8
  free : ℕ

namespace Files

variable (f : Files)

/-- An inode gets another content, if there are blocks for it. -/
def set (i : ℕ) (l : List UINT8) : Option Files :=
  let old := total (blocks (f.content i).length)
  let new := total (blocks l.length)
  if f.free + old < new then none
  else some { content := Function.update f.content i l, free := f.free + old - new }

def read (i off n : ℕ) : Option (List UINT8) :=
  if (f.content i).length < off ∨ 2 ^ 32 ≤ off + n then none
  else some (((f.content i).drop off).take n)

def write (i off : ℕ) (src : List UINT8) : Option (Option ℕ × Files) :=
  if (f.content i).length < off ∨ MAXFILE * BSIZE < off + src.length then some (none, f)
  else (f.set i (overwrite (f.content i) off src)).map fun g => (some src.length, g)

end Files

/-- The content of an inode. -/
def content (s : Fs) (i : ℕ) : List UINT8 := (List.range (s.inode i).size).map (fileData s i)

def files (sb : Superblock) (s : Fs) : Files where
  content := content s
  free := (free sb s).card

/-- Each inode has the blocks that its size needs, and is on the disk as in memory. -/
structure FilesOk (sb : Superblock) (s : Fs) : Prop where
  ok : FsOk sb s
  sized : Sized s fun i => blocks (s.inode i).size
  through : s.dinode = s.inode

/-! ## Content -/

theorem length_overwrite (h : off ≤ l.length) :
    (overwrite l off bs).length = max l.length (off + bs.length) := by
  rw [overwrite, List.length_append, List.length_append, List.length_take, List.length_drop]
  omega

theorem map_patch {d : Data} (h : off ≤ n) :
    (List.range (max n (off + bs.length))).map (patch d off bs) =
      overwrite ((List.range n).map d) off bs := by
  have hlen : ((List.range n).map d).length = n := by rw [List.length_map, List.length_range]
  apply List.ext_getElem
  · rw [length_overwrite (by rw [hlen]; exact h), hlen, List.length_map, List.length_range]
  · intro k hk _
    rw [List.length_map, List.length_range] at hk
    rw [List.getElem_map, List.getElem_range]
    have htake : (((List.range n).map d).take off).length = off := by
      rw [List.length_take, hlen]
      omega
    have hfirst : (((List.range n).map d).take off ++ bs).length = off + bs.length := by
      rw [List.length_append, htake]
    simp only [overwrite]
    -- the byte is before, in or behind the new ones
    by_cases hlow : k < off
    · rw [patch_of_notMem (Or.inl hlow), List.getElem_append_left (by omega),
        List.getElem_append_left (by omega), List.getElem_take, List.getElem_map,
        List.getElem_range]
    · obtain ⟨m, rfl⟩ := Nat.exists_eq_add_of_le (not_lt.mp hlow)
      by_cases hm : m < bs.length
      · rw [patch_of_mem hm, List.getElem_append_left (by omega),
          List.getElem_append_right (by omega)]
        congr 1
        omega
      · rw [patch_of_notMem (by omega), List.getElem_append_right (by omega), List.getElem_drop,
          List.getElem_map, List.getElem_range]
        congr 1
        omega

theorem length_content : (content s i).length = (s.inode i).size := by
  rw [content, List.length_map, List.length_range]

theorem div_lt_blocks (h : k < n) : k / BSIZE < blocks n := by
  simp only [blocks, BSIZE]
  omega

theorem le_blocks : n ≤ blocks n * BSIZE := blocks_le_iff.mp le_rfl

/-! ## New contents -/

namespace Fs

/-- Set the size of an inode, also on the disk. -/
def resize (s : Fs) (i n : ℕ) : Fs :=
  Fs.iupdate { s with inode := Function.update s.inode i { s.inode i with size := n } } i

theorem addrs_resize : ((s.resize i n).inode j).addrs = (s.inode j).addrs := by
  rw [resize, iupdate]
  dsimp only
  by_cases hj : j = i
  · rw [hj, Function.update_self]
  · rw [Function.update_of_ne hj]

end Fs

theorem slot_resize {q : ℕ × ℕ} : slot (s.resize i n) q = slot s q :=
  slot_congr Fs.addrs_resize fun _ => rfl

theorem size_resize : ((s.resize i n).inode j).size = if j = i then n else (s.inode j).size := by
  rw [Fs.resize, Fs.iupdate]
  dsimp only
  by_cases hj : j = i
  · rw [hj, Function.update_self, if_pos rfl]
  · rw [Function.update_of_ne hj, if_neg hj]

theorem dinode_resize (h : ∀ j, j ≠ i → s.dinode j = s.inode j) :
    (s.resize i n).dinode = (s.resize i n).inode := by
  funext j
  rw [Fs.resize, Fs.iupdate]
  dsimp only
  by_cases hj : j = i
  · rw [hj, Function.update_self]
  · rw [Function.update_of_ne hj, Function.update_of_ne hj, h j hj]

theorem FsOk.congr (h : FsOk sb s) (hdisk : t.disk = s.disk) (hslot : ∀ q, slot t q = slot s q) :
    FsOk sb t where
  slots := h.slots.congr hslot fun b hb => marked_congr (fun c _ => by rw [hdisk]) hb.2
  reserved b hb := (marked_congr (fun c _ => by rw [hdisk]) (by omega)).mpr (h.reserved b hb)

/-- The end of `writei`: the size is set if the file has grown. -/
def Fs.grow (t : Fs) (i last : ℕ) (src : List UINT8) : Fs :=
  if src ≠ [] ∧ (t.inode i).size < last then t.resize i last else t

theorem Files.set_eq_none_iff {f : Files} :
    f.set i l = none ↔ f.free + total (blocks (f.content i).length) < total (blocks l.length) := by
  rw [Files.set]
  by_cases hlack : f.free + total (blocks (f.content i).length) < total (blocks l.length)
  · rw [if_pos hlack]
    exact iff_of_true rfl hlack
  · rw [if_neg hlack]
    exact iff_of_false (Option.some_ne_none _) hlack

/-- A state in which one inode has another content, and the blocks for it. -/
theorem FilesOk.of_content (hok : FsOk sb t)
    (hsized : Sized t (Function.update (fun j => blocks (s.inode j).size) i (blocks l.length)))
    (hsize : ∀ j, j ≠ i → (t.inode j).size = (s.inode j).size) (hself : content t i = l)
    (hthrough : t.dinode = t.inode)
    (hcard : (free sb t).card + total (blocks l.length) =
      (free sb s).card + total (blocks (s.inode i).size))
    (hother : ∀ j, j ≠ i → ∀ k < (s.inode j).size, fileData t j k = fileData s j k) :
    FilesOk sb t ∧ (files sb s).set i l = some (files sb t) := by
  have hlen : l.length = (t.inode i).size := by rw [← hself, length_content]
  have hblocks : Function.update (fun j => blocks (s.inode j).size) i (blocks l.length) =
      fun j => blocks (t.inode j).size := by
    funext j
    by_cases hj : j = i
    · rw [hj, Function.update_self, hlen]
    · rw [Function.update_of_ne hj, hsize j hj]
  refine ⟨⟨hok, hblocks ▸ hsized, hthrough⟩, ?_⟩
  have hold : ((files sb s).content i).length = (s.inode i).size := length_content
  rw [Files.set, hold]
  have hfree : (files sb s).free = (free sb s).card := rfl
  rw [if_neg (by omega), hfree, ← hcard, Nat.add_sub_cancel]
  congr 1
  refine Files.ext (funext fun j => ?_) rfl
  dsimp only
  by_cases hj : j = i
  · rw [hj, Function.update_self]
    exact hself.symm
  · rw [Function.update_of_ne hj]
    change content s j = content t j
    rw [content, content, hsize j hj]
    exact List.map_congr_left fun k hk => (hother j hj k (List.mem_range.mp hk)).symm

/-- What the end of `writei` changes after its loop, and that it brings the inode to the disk. -/
theorem Written.grow_spec (h : FilesOk sb s)
    (hw : Written sb s t (fun j => blocks (s.inode j).size) i off src)
    (hoff : off ≤ (s.inode i).size) :
    let u := t.grow i (off + src.length) src
    u.disk = t.disk ∧ (∀ q, slot u q = slot t q) ∧ u.dinode = u.inode ∧
      ∀ j, (u.inode j).size =
        if j = i then max (s.inode i).size (off + src.length) else (s.inode j).size := by
  intro u
  by_cases hgrow : src ≠ [] ∧ (t.inode i).size < off + src.length
  · rw [show u = t.resize i (off + src.length) from if_pos hgrow]
    rw [hw.size] at hgrow
    refine ⟨rfl, fun q => slot_resize, dinode_resize fun j hj => ?_, fun j => ?_⟩
    · rw [hw.dinode, h.through, hw.inode_of_ne j hj]
    · rw [size_resize, max_eq_right hgrow.2.le, hw.size]
  · rw [show u = t from if_neg hgrow]
    rw [hw.size, not_and_or, not_not, not_lt] at hgrow
    have hle : off + src.length ≤ (s.inode i).size := by
      rcases hgrow with rfl | hle
      · exact hoff
      · exact hle
    refine ⟨rfl, fun q => rfl, ?_, fun j => ?_⟩
    · rw [hw.dinode, h.through]
      exact (hw.inode_of_le (blocks_le_iff.mpr (hle.trans le_blocks))).symm
    · rw [hw.size, max_eq_left hle]
      split_ifs with hj
      · rw [hj]
      · rfl

theorem Written.filesOk (h : FilesOk sb s)
    (hw : Written sb s t (fun j => blocks (s.inode j).size) i off src)
    (hoff : off ≤ (s.inode i).size) :
    FilesOk sb (t.grow i (off + src.length) src) ∧
    (files sb s).set i (overwrite (content s i) off src) =
      some (files sb (t.grow i (off + src.length) src)) := by
  have hlast : (overwrite (content s i) off src).length =
      max (s.inode i).size (off + src.length) := by
    rw [length_overwrite (by rwa [length_content]), length_content]
  obtain ⟨hdisk, hslot, hthrough, hsize⟩ := hw.grow_spec h hoff
  generalize t.grow i (off + src.length) src = u at hdisk hslot hthrough hsize ⊢
  have hdata : fileData u = fileData t := by
    funext j k
    rw [fileData, fileData, hslot, hdisk]
  have hsized := hw.sized
  have hcard := hw.card
  rw [← blocks_max, ← hlast] at hsized hcard
  refine FilesOk.of_content (hw.ok.congr hdisk hslot)
    ⟨fun j k => by rw [hslot, hsized.filled], hsized.le⟩
    (fun j hj => by rw [hsize, if_neg hj]) ?_ hthrough ?_ fun j hj k hk => ?_
  · rw [content, hsize, if_pos rfl, hdata, content, ← map_patch hoff]
    refine List.map_congr_left fun k hk => ?_
    rw [List.mem_range] at hk
    rw [hw.data i k, Function.update_self]
    rcases Nat.lt_or_ge k (s.inode i).size with hlow | hhigh
    · exact Or.inl (div_lt_blocks hlow)
    · exact Or.inr ⟨rfl, by omega, by omega⟩
  · have hfree : free sb u = free sb t := free_congr fun b _ => by rw [hdisk]
    rw [hfree]
    exact hcard
  · rw [hdata, hw.data j k (Or.inl (div_lt_blocks hk)), Function.update_of_ne hj]

/-! ## Operations -/

/-- The sum of two unsigned integers is less than the first one when it wraps. -/
theorem add_lt_self_iff {a b : UINT32} : a + b < a ↔ 2 ^ 32 ≤ a.toNat + b.toNat := by
  have ha := a.isLt
  have hb := b.isLt
  rw [BitVec.lt_def, BitVec.toNat_add]
  omega

theorem FilesOk.readi_eq (h : FilesOk sb s) (off n : UINT32) :
    readi sb s i off n = some ((files sb s).read i off.toNat n.toNat, s) := by
  rw [readi, Files.read]
  have hlen : ((files sb s).content i).length = (s.inode i).size := length_content
  rw [hlen, if_congr (or_congr_right add_lt_self_iff) rfl rfl]
  by_cases hbad : (s.inode i).size < off.toNat ∨ 2 ^ 32 ≤ off.toNat + n.toNat
  · rw [if_pos hbad, if_pos hbad]
  · rw [if_neg hbad, if_neg hbad]
    rw [not_or, not_lt, not_le] at hbad
    rw [BitVec.toNat_add_of_lt hbad.2]
    dsimp only
    generalize hcount : (if (s.inode i).size < off.toNat + n.toNat then (s.inode i).size - off.toNat
      else n.toNat) = count
    have hle : off.toNat + count ≤ (s.inode i).size := by
      rw [← hcount]
      split_ifs <;> omega
    rw [readLoop_eq h.ok h.sized (hle.trans le_blocks) (Nat.lt_succ_self count), Option.map_some]
    dsimp only
    congr 3
    have hmin : count = min n.toNat ((s.inode i).size - off.toNat) := by
      rw [← hcount]
      split_ifs <;> omega
    apply List.ext_getElem
    · rw [List.length_map, List.length_range, List.length_take, List.length_drop, hlen, hmin]
    · intro k hk _
      simp only [files, content, List.getElem_map, List.getElem_range, List.getElem_take,
        List.getElem_drop]

theorem writei_eq {off : UINT32} (hsrc : src.length < 2 ^ 32) : writei sb s i off src =
    if (s.inode i).size < off.toNat ∨ MAXFILE * BSIZE < off.toNat + src.length then some (none, s)
    else (writeLoop sb i (src.length + 1) s off.toNat src).map fun t =>
      (some src.length, t.grow i (off.toNat + src.length) src) := by
  have hmax : MAXFILE * BSIZE < 2 ^ 32 := by decide
  have hn : (BitVec.ofNat 32 src.length).toNat = src.length := by
    rw [BitVec.toNat_ofNat]
    exact Nat.mod_eq_of_lt hsrc
  have hwrap : off + BitVec.ofNat 32 src.length < off ↔ 2 ^ 32 ≤ off.toNat + src.length := by
    rw [add_lt_self_iff, hn]
  rw [writei]
  dsimp only
  by_cases hover : 2 ^ 32 ≤ off.toNat + src.length
  · rw [if_pos (Or.inr (hwrap.mpr hover)), if_pos (Or.inr (by omega))]
  · have hsum : (off + BitVec.ofNat 32 src.length).toNat = off.toNat + src.length := by
      rw [BitVec.toNat_add_of_lt (by omega), hn]
    rw [hsum, if_congr (or_iff_left (hwrap.not.mpr hover)) rfl rfl]
    by_cases hbad : (s.inode i).size < off.toNat
    · rw [if_pos hbad, if_pos (Or.inl hbad)]
    · rw [if_neg hbad, if_congr (or_iff_right hbad) rfl rfl]
      split_ifs
      · rfl
      · congr 1
        funext t
        rw [Fs.grow]
        split_ifs <;> rfl

/-- `writei` panics when there are not enough free blocks, and else changes the content. -/
theorem FilesOk.writei_spec (h : FilesOk sb s) (i : ℕ) (off : UINT32) (hsrc : src.length < 2 ^ 32) :
    (writei sb s i off src).map (Prod.map id (files sb)) = (files sb s).write i off.toNat src ∧
      ∀ r, writei sb s i off src = some r → FilesOk sb r.2 := by
  have hlen : ((files sb s).content i).length = (s.inode i).size := length_content
  rw [writei_eq hsrc, Files.write, hlen]
  by_cases hbad : (s.inode i).size < off.toNat ∨ MAXFILE * BSIZE < off.toNat + src.length
  · rw [if_pos hbad, if_pos hbad]
    refine ⟨rfl, ?_⟩
    rintro r ⟨⟩
    exact h
  · rw [if_neg hbad, if_neg hbad]
    rw [not_or, not_lt, not_lt] at hbad
    obtain ⟨hnone, hsome⟩ :=
      writeLoop_spec h.ok h.sized (hbad.1.trans le_blocks) hbad.2 (Nat.lt_succ_self _)
    cases hloop : writeLoop sb i (src.length + 1) s off.toNat src with
    | none =>
      have hlack := hnone.mp hloop
      rw [← blocks_max, ← hlen, ← length_overwrite (by rw [hlen]; exact hbad.1)] at hlack
      rw [Files.set_eq_none_iff.mpr hlack]
      refine ⟨rfl, ?_⟩
      rintro r ⟨⟩
    | some t =>
      obtain ⟨hok, hset⟩ := (hsome t hloop).filesOk h hbad.1
      have hset' : (files sb s).set i (overwrite ((files sb s).content i) off.toNat src) = _ := hset
      rw [hset']
      refine ⟨rfl, ?_⟩
      rintro r ⟨⟩
      exact hok

theorem FilesOk.itrunc_spec (h : FilesOk sb s) (i : ℕ) :
    ∃ t, itrunc sb s i = some t ∧ FilesOk sb t ∧ (files sb s).set i [] = some (files sb t) := by
  obtain ⟨t, ht, hdirect⟩ := h.ok.truncDirect_spec i
  have hind : (t.inode i).addrs NDIRECT = (s.inode i).addrs NDIRECT := by
    rw [hdirect.addrs, if_neg (lt_irrefl _)]
  obtain ⟨u, hu, hfreed, haddrs, huother⟩ := h.ok.truncIndirect_spec hdirect.freed hind
  have hother' : ∀ j, j ≠ i → u.inode j = s.inode j := fun j hj =>
    (huother j hj).trans (hdirect.inode_of_ne j hj)
  have hzeros' : ∀ k ≤ NDIRECT, (u.inode i).addrs k = 0 := by
    intro k hk
    rw [haddrs]
    rcases hk.lt_or_eq with hlt | rfl
    · rw [Function.update_of_ne hlt.ne, hdirect.addrs, if_pos hlt]
    · exact Function.update_self ..
  have hslot := hfreed.slot_eq h.ok hzeros' hother'
  have hcard := hfreed.card h.ok (h.sized.filled i) (h.sized.le i)
  refine ⟨u.resize i 0, by rw [itrunc, ht, Option.bind_some, hu]; rfl, ?_⟩
  refine FilesOk.of_content (l := []) ((hfreed.fsOk h.ok hslot).congr rfl fun q => slot_resize)
    ⟨fun j k => ?_, fun j => ?_⟩ (fun j hj => ?_) ?_
      (dinode_resize fun j hj => ?_) ?_ fun j hj k hk => ?_
  · rw [slot_resize, hslot]
    by_cases hj : j = i
    · rw [if_pos hj, hj, Function.update_self]
      have hzero : blocks ([] : List UINT8).length = 0 := rfl
      exact iff_of_false (fun hne => hne rfl) (by omega)
    · rw [if_neg hj, Function.update_of_ne hj]
      exact h.sized.filled j k
  · by_cases hj : j = i
    · rw [hj, Function.update_self]
      exact Nat.zero_le _
    · rw [Function.update_of_ne hj]
      exact h.sized.le j
  · rw [size_resize, if_neg hj, hother' j hj]
  · rw [content, size_resize, if_pos rfl, List.range_zero, List.map_nil]
  · rw [hfreed.dinode, h.through, hother' j hj]
  · exact hcard
  · have hslot' : slot s (j, k / BSIZE) ≠ 0 := h.sized.slot_ne_zero (div_lt_blocks hk)
    rw [fileData, fileData, slot_resize, hslot, if_neg hj]
    rw [show (u.resize i 0).disk = u.disk from rfl, hfreed.data _ (h.ok.isData hslot').1]

end UefiGame.Kernel
