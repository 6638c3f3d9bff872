import UefiGame.Kernel.FsAlloc

/-! # Reading and writing blocks of files

The loop of `readi` returns bytes that a file has and changes nothing. The loop
of `writei` either runs out of blocks or changes the bytes it is to change and no
others, adding just the blocks that they need.
-/

namespace UefiGame.Kernel

open SlotMap

variable {sb : Superblock} {s s' t : Fs} {i j bn k off m n : ℕ} {a b : UINT32} {nb : ℕ → ℕ}
  {bs src : List UINT8}

/-- The bytes in the blocks of an inode. -/
def fileData (s : Fs) (i : ℕ) : Data := fun k => s.disk (slot s (i, k / BSIZE)).toNat (k % BSIZE)

/-- The number of blocks for so many bytes. -/
def blocks (size : ℕ) : ℕ := (size + BSIZE - 1) / BSIZE

/-- The same with the indirect block. -/
def total (n : ℕ) : ℕ := n + if NDIRECT < n then 1 else 0

/-- Each inode has as many blocks as `nb` says, its first ones. -/
structure Sized (s : Fs) (nb : ℕ → ℕ) : Prop where
  filled : ∀ i k, slot s (i, k) ≠ 0 ↔ k < nb i ∨ k = MAXFILE ∧ NDIRECT < nb i
  le : ∀ i, nb i ≤ MAXFILE

/-! ## Blocks and bytes -/

theorem total_mono (h : m ≤ n) : total m ≤ total n := by
  rw [total, total]
  split_ifs <;> omega

theorem blocks_le_iff : blocks m ≤ n ↔ m ≤ n * BSIZE := by
  simp only [blocks, BSIZE]
  omega

theorem blocks_max : blocks (max m n) = max (blocks m) (blocks n) := by
  simp only [blocks, BSIZE]
  omega

theorem fileData_of_keeps (h : Keeps s t) (hk : k / BSIZE < MAXFILE)
    (hslot : slot s (j, k / BSIZE) ≠ 0) :
    fileData t j k = fileData s j k := by
  rw [fileData, fileData, h.slot _ hslot, h.data _ _ hk hslot]

theorem patch_patch {d : Data} :
    patch (patch d off (src.take m)) (off + m) (src.drop m) = patch d off src := by
  funext k
  by_cases hlow : k < off
  · rw [patch_of_notMem (by omega), patch_of_notMem (by omega), patch_of_notMem (by omega)]
  · obtain ⟨l, rfl⟩ := Nat.exists_eq_add_of_le (not_lt.mp hlow)
    by_cases hl : l < src.length
    · rw [patch_of_mem hl]
      by_cases hm : l < m
      · have htake : l < (src.take m).length := by
          rw [List.length_take]
          omega
        rw [patch_of_notMem (by omega), patch_of_mem htake, List.getElem_take]
      · have hdrop : l - m < (src.drop m).length := by
          rw [List.length_drop]
          omega
        have hsum : off + l = off + m + (l - m) := by omega
        rw [hsum, patch_of_mem hdrop, List.getElem_drop]
        congr 1
        omega
    · have htake : (src.take m).length ≤ src.length := by
        rw [List.length_take]
        omega
      rw [patch_of_notMem (by rw [List.length_drop]; omega), patch_of_notMem (by omega),
        patch_of_notMem (by omega)]

theorem patch_congr {d d' : Data} (h : d' k = d k ∨ off ≤ k ∧ k < off + bs.length) :
    patch d' off bs k = patch d off bs k := by
  rcases h with h | ⟨hlow, hhigh⟩
  · rw [patch, patch, h]
  · obtain ⟨l, rfl⟩ := Nat.exists_eq_add_of_le hlow
    rw [patch_of_mem (by omega), patch_of_mem (by omega)]

theorem FsOk.fileData_patch (hok : FsOk sb s) (hslot : slot s (i, off / BSIZE) = b) (hb : b ≠ 0)
    (hlt : off / BSIZE < MAXFILE) (hbs : bs.length ≤ BSIZE - off % BSIZE) :
    let u := s.setDisk b.toNat (patch (s.disk b.toNat) (off % BSIZE) bs)
    FsOk sb u ∧ (∀ q, slot u q = slot s q) ∧ free sb u = free sb s ∧
      fileData u = Function.update (fileData s) i (patch (fileData s i) off bs) := by
  intro u
  have hne : ∀ q, q ≠ (i, off / BSIZE) → (slot s q).toNat ≠ b.toNat := by
    intro q hq
    rw [← hslot]
    exact (hok.toNat_ne (by rwa [hslot]) hq.symm).symm
  have hdata : IsData sb b := by
    rw [← hslot]
    exact hok.isData (by rwa [hslot])
  have hbitmap : ∀ c < sb.size - sb.nblocks, u.disk c = s.disk c := fun c hc =>
    Function.update_of_ne (by have := hdata.1; omega) ..
  have hsame : ∀ q, slot u q = slot s q := fun q => slot_congr rfl fun _ =>
    Function.update_of_ne (hne _ fun heq => hlt.ne' (congrArg Prod.snd heq)) ..
  refine ⟨⟨hok.slots.congr hsame fun c hc => marked_congr hbitmap hc.2, fun c hc => ?_⟩, hsame,
    free_congr hbitmap, ?_⟩
  · exact (marked_congr hbitmap (by omega)).mpr (hok.reserved c hc)
  · funext j k
    rw [fileData, hsame]
    by_cases hq : (j, k / BSIZE) = (i, off / BSIZE)
    · obtain ⟨rfl, hdiv⟩ := Prod.mk.inj hq
      have hdisk : u.disk b.toNat = patch (s.disk b.toNat) (off % BSIZE) bs :=
        Function.update_self ..
      rw [hq, hslot, hdisk, Function.update_self]
      have hold : fileData s j k = s.disk b.toNat (k % BSIZE) := by
        rw [fileData, hq, hslot]
      have hk := Nat.div_add_mod k BSIZE
      have hoff := Nat.div_add_mod off BSIZE
      rw [hdiv] at hk
      by_cases hlow : k < off
      · rw [patch_of_notMem (by omega), patch_of_notMem (by omega), hold]
      · rw [patch, patch, if_pos (by omega), if_pos (by omega), hold]
        have hsub : k % BSIZE - off % BSIZE = k - off := by omega
        rw [hsub]
    · rw [show u.disk (slot s (j, k / BSIZE)).toNat = s.disk (slot s (j, k / BSIZE)).toNat from
        Function.update_of_ne (hne _ hq) ..]
      by_cases hj : j = i
      · subst hj
        rw [Function.update_self, patch_of_notMem, fileData]
        have hdiv : k / BSIZE ≠ off / BSIZE := fun heq => hq (by rw [heq])
        simp only [BSIZE] at hdiv hbs ⊢
        omega
      · rw [Function.update_of_ne hj, fileData]

/-! ## The loops -/

theorem Sized.slot_ne_zero (h : Sized s nb) (hbn : bn < nb i) : slot s (i, bn) ≠ 0 :=
  (h.filled i bn).mpr (Or.inl hbn)

theorem Sized.missing_add (h : Sized s nb) (hbn : bn ≤ nb i) (hlt : bn < MAXFILE) :
    missing s i bn + total (nb i) = total (max (nb i) (bn + 1)) := by
  have hdirect : NDIRECT < MAXFILE := by decide
  have hentry : slot s (i, bn) = 0 ↔ bn = nb i := by
    rw [← not_iff_not, ← ne_eq, h.filled i bn]
    omega
  have hind : slot s (i, MAXFILE) = 0 ↔ nb i ≤ NDIRECT := by
    have := h.le i
    rw [← not_iff_not, ← ne_eq, h.filled i MAXFILE]
    omega
  rw [missing, total, total, if_congr hentry rfl rfl,
    if_congr (and_congr_right fun _ => hind) rfl rfl]
  split_ifs <;> omega

theorem Sized.bmap (h : Sized s nb) (hok : FsOk sb s) (hbn : bn ≤ nb i) (hlt : bn < MAXFILE)
    (hbmap : bmap sb s i bn = some (b, t)) :
    Sized t (Function.update nb i (max (nb i) (bn + 1))) where
  filled l k := by
    obtain ⟨-, -, -, -, hfilled, -, -⟩ := hok.bmap_spec hlt hbmap
    rw [hfilled, h.filled, Prod.mk.injEq, Prod.mk.injEq]
    by_cases hl : l = i
    · subst hl
      rw [Function.update_self]
      omega
    · rw [Function.update_of_ne hl]
      simp only [hl, false_and, or_false]
  le l := by
    by_cases hl : l = i
    · subst hl
      rw [Function.update_self]
      have := h.le l
      omega
    · rw [Function.update_of_ne hl]
      exact h.le l

theorem FsOk.bmap_of_ne_zero (hok : FsOk sb s) (hlt : bn < MAXFILE) (h : slot s (i, bn) ≠ 0) :
    bmap sb s i bn = some (slot s (i, bn), s) := by
  cases hbmap : bmap sb s i bn with
  | none =>
    rw [hok.bmap_eq_none_iff hlt, missing, if_neg h, if_neg] at hbmap
    · omega
    · rintro ⟨hdirect, hzero⟩
      rw [slot_entry hdirect hlt, if_pos hzero] at h
      exact h rfl
  | some r =>
    obtain ⟨-, -, hslot, -, -, -, hsame⟩ := hok.bmap_spec hlt hbmap
    have hstate := hsame h
    rw [hstate] at hslot
    rw [hslot, ← hstate]

theorem readLoop_eq (hok : FsOk sb s) (hsized : Sized s nb) (hle : off + n ≤ nb i * BSIZE)
    (hk : n < k) :
    readLoop sb i k s off n = some ((List.range n).map fun j => fileData s i (off + j), s) := by
  induction k generalizing off n with
  | zero => omega
  | succ k ih =>
    rw [readLoop]
    by_cases hn : n = 0
    · rw [if_pos hn, hn, List.range_zero, List.map_nil]
    · rw [if_neg hn]
      have hbn : off / BSIZE < nb i := by
        simp only [BSIZE] at hle ⊢
        omega
      have hlt : off / BSIZE < MAXFILE := by
        have := hsized.le i
        omega
      rw [hok.bmap_of_ne_zero hlt (hsized.slot_ne_zero hbn), Option.bind_some]
      generalize hm : min n (BSIZE - off % BSIZE) = m
      have hmod : off % BSIZE < BSIZE := Nat.mod_lt _ (by decide)
      dsimp only
      rw [ih (by omega) (by omega), Option.map_some]
      dsimp only
      have hsum : n = m + (n - m) := by omega
      conv_rhs => rw [hsum, List.range_add, List.map_append, List.map_map]
      congr 3
      · refine List.map_congr_left fun j hj => ?_
        rw [List.mem_range] at hj
        rw [fileData]
        have hdiv : (off + j) / BSIZE = off / BSIZE := by
          simp only [BSIZE] at hm ⊢
          omega
        have hmod' : (off + j) % BSIZE = off % BSIZE + j := by
          simp only [BSIZE] at hm ⊢
          omega
        rw [hdiv, hmod']
      · refine List.map_congr_left fun j _ => ?_
        rw [Function.comp_apply, Nat.add_assoc]

/-- What writing bytes to an inode does. -/
structure Written (sb : Superblock) (s t : Fs) (nb : ℕ → ℕ) (i off : ℕ) (bs : List UINT8) :
    Prop where
  ok : FsOk sb t
  sized : Sized t (Function.update nb i (max (nb i) (blocks (off + bs.length))))
  card : (free sb t).card + total (max (nb i) (blocks (off + bs.length))) =
    (free sb s).card + total (nb i)
  dinode : t.dinode = s.dinode
  size : ∀ j, (t.inode j).size = (s.inode j).size
  inode_of_ne : ∀ j, j ≠ i → t.inode j = s.inode j
  inode_of_le : blocks (off + bs.length) ≤ nb i → t.inode = s.inode
  data : ∀ j l, l / BSIZE < nb j ∨ j = i ∧ off ≤ l ∧ l < off + bs.length →
    fileData t j l = Function.update (fileData s) i (patch (fileData s i) off bs) j l

theorem Written.nil (hok : FsOk sb s) (hsized : Sized s nb) (hoff : off ≤ nb i * BSIZE) :
    Written sb s s nb i off [] := by
  have hmax : max (nb i) (blocks (off + ([] : List UINT8).length)) = nb i :=
    max_eq_left (blocks_le_iff.mpr hoff)
  refine ⟨hok, by rwa [hmax, Function.update_eq_self], by rw [hmax], rfl, fun _ => rfl,
    fun _ _ => rfl,
    fun _ => rfl, fun j l _ => ?_⟩
  by_cases hj : j = i
  · subst hj
    rw [Function.update_self, patch_of_notMem (by rw [List.length_nil]; omega)]
  · rw [Function.update_of_ne hj]

theorem Written.pass (hok : FsOk sb s) (hsized : Sized s nb) (hbn : off / BSIZE ≤ nb i)
    (hlt : off / BSIZE < MAXFILE) (hpos : bs ≠ []) (hbs : bs.length ≤ BSIZE - off % BSIZE)
    (hbmap : bmap sb s i (off / BSIZE) = some (b, t)) :
    Written sb s (t.setDisk b.toNat (patch (t.disk b.toNat) (off % BSIZE) bs)) nb i off bs := by
  obtain ⟨ht, hkeeps, hslot, hb, -, hcard, hsame⟩ := hok.bmap_spec hlt hbmap
  obtain ⟨hu, huslot, hufree, hudata⟩ := ht.fileData_patch hslot hb hlt hbs
  have hblocks : blocks (off + bs.length) = off / BSIZE + 1 := by
    have := List.length_pos_iff.mpr hpos
    simp only [blocks, BSIZE] at hbs ⊢
    omega
  have hsized' := hsized.bmap hok hbn hlt hbmap
  have hmissing := hsized.missing_add hbn hlt
  have hinode : ∀ j, j ≠ i → t.inode j = s.inode j := fun j hj => inode_bmap_of_ne hlt hbmap hj
  refine ⟨hu, ?_, ?_, hkeeps.dinode, hkeeps.size, hinode, fun hle => ?_, fun j l hl => ?_⟩
  · rw [hblocks]
    exact ⟨fun j k => by rw [huslot, hsized'.filled], hsized'.le⟩
  · rw [hblocks, hufree]
    omega
  · rw [hblocks] at hle
    have hstate : t = s := hsame (hsized.slot_ne_zero (by omega))
    rw [hstate]
    rfl
  · rw [hudata]
    by_cases hj : j = i
    · subst hj
      rw [Function.update_self, Function.update_self]
      refine patch_congr ?_
      rcases hl with hl | ⟨-, hrange⟩
      · have hlt' := hsized.le j
        exact Or.inl (fileData_of_keeps hkeeps (by omega) (hsized.slot_ne_zero hl))
      · exact Or.inr hrange
    · have hl := hl.resolve_right fun hand => hj hand.1
      have hlt' := hsized.le j
      rw [Function.update_of_ne hj, Function.update_of_ne hj]
      exact fileData_of_keeps hkeeps (by omega) (hsized.slot_ne_zero hl)

theorem Written.trans (hm : m ≤ bs.length) (h : Written sb s t nb i off (bs.take m))
    (h' : Written sb t s' (Function.update nb i (max (nb i) (blocks (off + m)))) i (off + m)
      (bs.drop m)) :
    Written sb s s' nb i off bs := by
  have htake : (bs.take m).length = m := by
    rw [List.length_take]
    omega
  have hsum : off + m + (bs.drop m).length = off + bs.length := by
    rw [List.length_drop]
    omega
  have hmono : blocks (off + m) ≤ blocks (off + bs.length) := by
    simp only [blocks, BSIZE]
    omega
  have hmax : max (max (nb i) (blocks (off + m))) (blocks (off + bs.length)) =
      max (nb i) (blocks (off + bs.length)) := by
    rw [max_assoc, max_eq_right hmono]
  have hcard := h.card
  have hcard' := h'.card
  have hsized := h'.sized
  rw [htake] at hcard
  rw [hsum, Function.update_self, hmax] at hcard' hsized
  rw [Function.update_idem] at hsized
  refine ⟨h'.ok, hsized, by omega, h'.dinode.trans h.dinode, fun j => (h'.size j).trans (h.size j),
    fun j hj => (h'.inode_of_ne j hj).trans (h.inode_of_ne j hj), fun hle => ?_, fun j l hl => ?_⟩
  · have hfirst := h.inode_of_le (by rw [htake]; omega)
    have hsecond := h'.inode_of_le (by rw [hsum, Function.update_self]; omega)
    exact hsecond.trans hfirst
  · have hl' : l / BSIZE < Function.update nb i (max (nb i) (blocks (off + m))) j ∨
        j = i ∧ off + m ≤ l ∧ l < off + m + (bs.drop m).length := by
      rw [hsum]
      by_cases hj : j = i
      · subst hj
        rw [Function.update_self]
        rcases hl with hl | ⟨-, hlow, hhigh⟩
        · exact Or.inl (by omega)
        · by_cases hlm : off + m ≤ l
          · exact Or.inr ⟨rfl, hlm, hhigh⟩
          · left
            simp only [blocks, BSIZE]
            omega
      · rw [Function.update_of_ne hj]
        exact Or.inl (hl.resolve_right fun hand => hj hand.1)
    have hpatch : patch (fileData s i) off bs =
        patch (patch (fileData s i) off (bs.take m)) (off + m) (bs.drop m) := patch_patch.symm
    rw [h'.data j l hl', hpatch]
    by_cases hj : j = i
    · subst hj
      rw [Function.update_self, Function.update_self]
      by_cases hlm : off + m ≤ l ∧ l < off + m + (bs.drop m).length
      · exact patch_congr (Or.inr hlm)
      · refine patch_congr (Or.inl ?_)
        rw [h.data j l, Function.update_self]
        rw [htake]
        omega
    · have hl := hl.resolve_right fun hand => hj hand.1
      rw [Function.update_of_ne hj, Function.update_of_ne hj, h.data j l (Or.inl hl),
        Function.update_of_ne hj]

/-- The loop of `writei` runs out of blocks, or writes the bytes. -/
theorem writeLoop_spec (hok : FsOk sb s) (hsized : Sized s nb) (hoff : off ≤ nb i * BSIZE)
    (hle : off + src.length ≤ MAXFILE * BSIZE) (hk : src.length < k) :
    (writeLoop sb i k s off src = none ↔
      (free sb s).card + total (nb i) < total (max (nb i) (blocks (off + src.length)))) ∧
    ∀ t, writeLoop sb i k s off src = some t → Written sb s t nb i off src := by
  induction k generalizing s nb off src with
  | zero => omega
  | succ k ih =>
    rw [writeLoop]
    by_cases hsrc : src = []
    · subst hsrc
      rw [if_pos rfl, List.length_nil, Nat.add_zero, max_eq_left (blocks_le_iff.mpr hoff)]
      refine ⟨⟨fun h => absurd h (Option.some_ne_none _), fun h => by omega⟩, ?_⟩
      rintro t ⟨⟩
      exact .nil hok hsized hoff
    · rw [if_neg hsrc]
      have hpos : 0 < src.length := List.length_pos_iff.mpr hsrc
      have hbn : off / BSIZE ≤ nb i := by
        simp only [BSIZE] at hoff ⊢
        omega
      have hlt : off / BSIZE < MAXFILE := by
        simp only [BSIZE] at hle ⊢
        omega
      cases hbmap : bmap sb s i (off / BSIZE) with
      | none =>
        rw [hok.bmap_eq_none_iff hlt] at hbmap
        have hmissing := hsized.missing_add hbn hlt
        have hmono : total (max (nb i) (off / BSIZE + 1)) ≤
            total (max (nb i) (blocks (off + src.length))) := by
          refine total_mono (max_le_max le_rfl ?_)
          simp only [blocks, BSIZE]
          omega
        refine ⟨⟨fun _ => by omega, fun _ => rfl⟩, ?_⟩
        rintro t ⟨⟩
      | some r =>
        obtain ⟨b, u⟩ := r
        rw [Option.bind_some]
        dsimp only
        generalize hm : min src.length (BSIZE - off % BSIZE) = m
        have hmod : off % BSIZE < BSIZE := Nat.mod_lt _ (by decide)
        have htake : (src.take m).length = m := by
          rw [List.length_take]
          omega
        have hdrop : (src.drop m).length = src.length - m := List.length_drop ..
        have hwritten : Written sb s _ nb i off (src.take m) := .pass hok hsized hbn hlt
          (by rw [← List.length_pos_iff]; omega) (by rw [htake]; omega) hbmap
        generalize u.setDisk b.toNat (patch (u.disk b.toNat) (off % BSIZE) (src.take m)) = v
          at hwritten ⊢
        have hcard := hwritten.card
        have hvsized := hwritten.sized
        rw [htake] at hcard hvsized
        have hoff' : off + m ≤ Function.update nb i (max (nb i) (blocks (off + m))) i * BSIZE := by
          rw [Function.update_self, ← blocks_le_iff]
          exact le_max_right _ _
        have hsum : off + m + (src.drop m).length = off + src.length := by omega
        have hrest : (src.drop m).length < k := by omega
        obtain ⟨hnone, hsome⟩ := ih hwritten.ok hvsized hoff' (hsum.trans_le hle) hrest
        have hmono : blocks (off + m) ≤ blocks (off + src.length) := by
          simp only [blocks, BSIZE]
          omega
        rw [hsum, Function.update_self, max_assoc, max_eq_right hmono] at hnone
        exact ⟨by rw [hnone]; omega, fun t ht => hwritten.trans (by omega) (hsome t ht)⟩

end UefiGame.Kernel
