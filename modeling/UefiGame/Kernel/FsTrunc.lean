import UefiGame.Kernel.FsLoops
import UefiGame.Library.CountingLoop

/-! # Freeing the blocks of a file

`itrunc` first frees blocks in the bitmap that inodes still refer to, so its loops
are followed by the slots whose blocks are already free.
-/

namespace UefiGame.Kernel

open SlotMap

variable {sb : Superblock} {s t : Fs} {i k n : ℕ} {a : UINT32}

/-- The blocks of some slots have been freed in the bitmap,
and nothing else has changed on the disk. -/
structure Freed (sb : Superblock) (s t : Fs) (P : ℕ × ℕ → Prop) : Prop where
  dinode : t.dinode = s.dinode
  data : ∀ c, sb.size - sb.nblocks ≤ c → t.disk c = s.disk c
  marked : ∀ c < sb.size, Marked sb t c ↔ Marked sb s c ∧ ∀ q, P q → slot s q ≠ 0 →
    (slot s q).toNat ≠ c

theorem Freed.bfree {P Q : ℕ × ℕ → Prop} {p : ℕ × ℕ} (hok : FsOk sb s) (h : Freed sb s t P)
    (hp : ¬ P p)
    (hslot : slot s p ≠ 0) (hQ : ∀ q, Q q ↔ P q ∨ q = p) :
    ∃ u, bfree sb t (slot s p) = some u ∧ u.inode = t.inode ∧ Freed sb s u Q := by
  have hdata := hok.isData hslot
  have hmarked : Marked sb t (slot s p).toNat := by
    refine (h.marked _ hdata.2).mpr ⟨hok.slots.used_slot hslot, fun q hq hne => ?_⟩
    refine hok.toNat_ne hne ?_
    rintro rfl
    exact hp hq
  obtain ⟨u, hfree, hinode, hdinode, hsame, hiff⟩ := bfree_spec hdata hmarked
  refine ⟨u, hfree, hinode, hdinode.trans h.dinode, fun c hc => (hsame c hc).trans (h.data c hc),
    fun c hc => ?_⟩
  rw [hiff c hc, h.marked c hc, and_assoc]
  refine and_congr_right fun _ => ⟨fun hand q hq hne => ?_, fun hall => ⟨fun q hq => ?_, ?_⟩⟩
  · rcases (hQ q).mp hq with hq | rfl
    · exact hand.1 q hq hne
    · exact hand.2.symm
  · exact hall q ((hQ q).mpr (Or.inl hq))
  · exact (hall p ((hQ p).mpr (Or.inr rfl)) hslot).symm

theorem Freed.congr {P Q : ℕ × ℕ → Prop} (h : Freed sb s t P)
    (hQ : ∀ q, slot s q ≠ 0 → (Q q ↔ P q)) : Freed sb s t Q := by
  refine ⟨h.dinode, h.data, fun c hc => ?_⟩
  rw [h.marked c hc]
  refine and_congr_right fun _ => forall_congr' fun q => ?_
  exact ⟨fun hall hq hne => hall ((hQ q hne).mp hq) hne,
    fun hall hq hne => hall ((hQ q hne).mpr hq) hne⟩

theorem Freed.bfreeSome {P Q : ℕ × ℕ → Prop} {p : ℕ × ℕ} (hok : FsOk sb s) (h : Freed sb s t P)
    (hp : ¬ P p)
    (hQ : ∀ q, Q q ↔ P q ∨ q = p) :
    ∃ u, bfreeSome sb t (slot s p) = some u ∧ u.inode = t.inode ∧ Freed sb s u Q := by
  by_cases hzero : slot s p = 0
  · refine ⟨t, by rw [Kernel.bfreeSome, if_pos hzero], rfl, h.congr fun q hq => ?_⟩
    rw [hQ]
    refine or_iff_left ?_
    rintro rfl
    exact hq hzero
  · obtain ⟨u, hu, hrest⟩ := h.bfree hok hp hzero hQ
    exact ⟨u, by rw [Kernel.bfreeSome, if_neg hzero, hu], hrest⟩

theorem Freed.setAddr {P : ℕ × ℕ → Prop} (h : Freed sb s t P) : Freed sb s (t.setAddr i k a) P :=
  ⟨h.dinode, h.data, h.marked⟩

theorem first_succ (q : ℕ × ℕ) : q.1 = i ∧ q.2 < n + 1 ↔ (q.1 = i ∧ q.2 < n) ∨ q = (i, n) := by
  rw [Prod.ext_iff]
  dsimp only
  omega

theorem slot_eq_zero (h : slot s (i, MAXFILE) = 0) (hk : NDIRECT ≤ k) : slot s (i, k) = 0 := by
  rcases Nat.lt_trichotomy k MAXFILE with hlt | rfl | hgt
  · rw [slot_entry hk hlt, if_pos h]
  · exact h
  · exact slot_of_gt hgt

/-! ## The loops -/

theorem setAddr_eq_self (h : (s.inode i).addrs k = a) : s.setAddr i k a = s := by
  rw [Fs.setAddr, ← h, Function.update_eq_self, Function.update_eq_self]

/-- The pass of the first loop of `itrunc` can be written without its branches. -/
theorem truncPass_eq : (if (t.inode i).addrs k = 0 then some t
      else (bfree sb t ((t.inode i).addrs k)).map fun u => u.setAddr i k 0) =
    (bfreeSome sb t ((t.inode i).addrs k)).map fun u => u.setAddr i k 0 := by
  rw [bfreeSome]
  by_cases hzero : (t.inode i).addrs k = 0
  · rw [if_pos hzero, if_pos hzero, Option.map_some, setAddr_eq_self hzero]
  · rw [if_neg hzero, if_neg hzero]

/-- What holds after `n` passes of the first loop of `itrunc`. -/
structure DirectFreed (sb : Superblock) (s t : Fs) (i n : ℕ) : Prop where
  freed : Freed sb s t fun q => q.1 = i ∧ q.2 < n
  addrs : ∀ k, (t.inode i).addrs k = if k < n then 0 else (s.inode i).addrs k
  inode_of_ne : ∀ j, j ≠ i → t.inode j = s.inode j

theorem DirectFreed.zero : DirectFreed sb s s i 0 :=
  ⟨⟨rfl, fun _ _ => rfl, fun _ _ => ⟨fun h => ⟨h, fun _ hq => by omega⟩, And.left⟩⟩,
    fun _ => (if_neg (by omega)).symm, fun _ _ => rfl⟩

theorem DirectFreed.pass (hok : FsOk sb s) (h : DirectFreed sb s t i n) (hn : n < NDIRECT) :
    ∃ u, (if (t.inode i).addrs n = 0 then some t
      else (bfree sb t ((t.inode i).addrs n)).map fun u => u.setAddr i n 0) = some u ∧
      DirectFreed sb s u i (n + 1) := by
  have haddr : (t.inode i).addrs n = slot s (i, n) := by
    rw [h.addrs, if_neg (by omega), slot_direct hn]
  obtain ⟨u, hu, hinode, hfreed⟩ := h.freed.bfreeSome hok (by dsimp only; omega) first_succ
  refine ⟨u.setAddr i n 0, by rw [truncPass_eq, haddr, hu]; rfl, hfreed.setAddr, fun k => ?_,
    fun j hj => ?_⟩
  · rw [addrs_setAddr_self, hinode]
    by_cases hk : k = n
    · rw [hk, Function.update_self, if_pos (by omega)]
    · rw [Function.update_of_ne hk, h.addrs]
      exact if_congr (by omega) rfl rfl
  · rw [inode_setAddr_of_ne hj, hinode, h.inode_of_ne j hj]

/-- The first loop of `itrunc` frees the direct blocks. -/
theorem FsOk.truncDirect_spec (hok : FsOk sb s) (i : ℕ) :
    ∃ t, truncDirect sb s i = some t ∧ DirectFreed sb s t i NDIRECT :=
  CountingLoop.exists_foldlM_range (I := fun n t => DirectFreed sb s t i n) .zero
    fun _ hn _ h => h.pass hok hn

theorem FsOk.truncIndirect_loop (hok : FsOk sb s) (hzero : slot s (i, MAXFILE) ≠ 0)
    (hfreed : Freed sb s t fun q => q.1 = i ∧ q.2 < NDIRECT) :
    ∃ u, (List.range NINDIRECT).foldlM (fun u j =>
        bfreeSome sb u (word (u.disk (slot s (i, MAXFILE)).toNat) j)) t = some u ∧
      u.inode = t.inode ∧ Freed sb s u fun q => q.1 = i ∧ q.2 < MAXFILE := by
  refine CountingLoop.exists_foldlM_range
    (I := fun n u => u.inode = t.inode ∧ Freed sb s u fun q => q.1 = i ∧ q.2 < NDIRECT + n)
    ⟨rfl, hfreed⟩ fun n hn u hu => ?_
  obtain ⟨hinode, hfreed'⟩ := hu
  have hmax : MAXFILE = NDIRECT + NINDIRECT := rfl
  have hword : word (u.disk (slot s (i, MAXFILE)).toNat) n = slot s (i, NDIRECT + n) := by
    rw [hfreed'.data _ (hok.isData hzero).1, slot_entry (Nat.le_add_right NDIRECT n) (by omega),
      if_neg hzero, Nat.add_sub_cancel_left]
  obtain ⟨v, hv, hvinode, hvfreed⟩ := hfreed'.bfreeSome hok (by dsimp only; omega) first_succ
  exact ⟨v, by rw [hword, hv], hvinode.trans hinode, hvfreed⟩

/-- The rest of `itrunc` frees the blocks behind them and the indirect one. -/
theorem FsOk.truncIndirect_spec (hok : FsOk sb s)
    (hfreed : Freed sb s t fun q => q.1 = i ∧ q.2 < NDIRECT)
    (hind : (t.inode i).addrs NDIRECT = slot s (i, MAXFILE)) :
    ∃ u, truncIndirect sb t i = some u ∧ Freed sb s u (fun q => q.1 = i) ∧
      (u.inode i).addrs = Function.update (t.inode i).addrs NDIRECT 0 ∧
      ∀ j, j ≠ i → u.inode j = t.inode j := by
  rw [truncIndirect, hind]
  by_cases hzero : slot s (i, MAXFILE) = 0
  · refine ⟨t, if_pos hzero, hfreed.congr fun q hq => ⟨fun h => ⟨h, ?_⟩, And.left⟩, ?_,
      fun _ _ => rfl⟩
    · obtain ⟨j, k⟩ := q
      obtain rfl : j = i := h
      by_contra hk
      exact hq (slot_eq_zero hzero (not_lt.mp hk))
    · rw [← hzero, ← hind, Function.update_eq_self]
  · obtain ⟨u, hu, hinode, hall⟩ := hok.truncIndirect_loop hzero hfreed
    obtain ⟨v, hv, hvinode, hvfreed⟩ := hall.bfree hok (by dsimp only; omega) hzero first_succ
    refine ⟨v.setAddr i NDIRECT 0, ?_, ?_, ?_, fun j hj => ?_⟩
    · rw [if_neg hzero, hu, Option.bind_some, hv, Option.map_some]
    · refine hvfreed.setAddr.congr fun q hq => ⟨fun h => ⟨h, ?_⟩, And.left⟩
      by_contra hk
      obtain ⟨j, k⟩ := q
      exact hq (slot_of_gt (not_lt.mp hk))
    · rw [addrs_setAddr_self, hvinode, hinode]
    · rw [inode_setAddr_of_ne hj, hvinode, hinode]

/-! ## The state afterwards -/

theorem Freed.slot_eq {u : Fs} (hok : FsOk sb s) (h : Freed sb s u fun q => q.1 = i)
    (haddrs : ∀ k ≤ NDIRECT, (u.inode i).addrs k = 0) (hother : ∀ j, j ≠ i → u.inode j = s.inode j)
    (q : ℕ × ℕ) : slot u q = if q.1 = i then 0 else slot s q := by
  obtain ⟨j, k⟩ := q
  dsimp only
  split_ifs with hj
  · subst hj
    have hind : slot u (j, MAXFILE) = 0 := haddrs NDIRECT le_rfl
    rcases Nat.lt_or_ge k NDIRECT with hk | hk
    · rw [slot_direct hk, haddrs k hk.le]
    · exact slot_eq_zero hind hk
  · exact slot_congr (by rw [hother j hj]) fun hne => h.data _ (hok.isData hne).1

theorem Freed.fsOk {u : Fs} (hok : FsOk sb s) (h : Freed sb s u fun q => q.1 = i)
    (hslot : ∀ q, slot u q = if q.1 = i then 0 else slot s q) : FsOk sb u where
  slots := by
    refine hok.slots.clear not_isData_zero (fun q => q.1 = i) hslot fun b hb => ?_
    rw [h.marked _ hb.2]
    refine and_congr_right fun _ => forall_congr' fun q => forall_congr' fun _ => ?_
    constructor
    · rintro hne rfl
      exact hne hb.ne_zero rfl
    · exact fun hne _ heq => hne (BitVec.eq_of_toNat_eq heq)
  reserved c hc := by
    refine (h.marked c (by omega)).mpr ⟨hok.reserved c hc, fun q _ hne => ?_⟩
    have := (hok.isData hne).1
    omega

theorem Freed.card {u : Fs} (hok : FsOk sb s) (h : Freed sb s u fun q => q.1 = i)
    (hn : ∀ k, slot s (i, k) ≠ 0 ↔ k < n ∨ k = MAXFILE ∧ NDIRECT < n) (hle : n ≤ MAXFILE) :
    (free sb u).card = (free sb s).card + total n := by
  let held := if NDIRECT < n then insert MAXFILE (Finset.range n) else Finset.range n
  have hmem : ∀ k, k ∈ held ↔ slot s (i, k) ≠ 0 := by
    intro k
    rw [hn]
    dsimp only [held]
    split_ifs with hlt
    · rw [Finset.mem_insert, Finset.mem_range]
      omega
    · rw [Finset.mem_range]
      omega
  have hcard : held.card = total n := by
    dsimp only [held]
    rw [total]
    split_ifs with hlt
    · rw [Finset.card_insert_of_notMem (by rw [Finset.mem_range]; omega), Finset.card_range]
    · rw [Finset.card_range, Nat.add_zero]
  have hinj : Set.InjOn (fun k => (slot s (i, k)).toNat) held := by
    intro k hk l _ heq
    by_contra hne
    exact hok.toNat_ne ((hmem k).mp hk) (fun h => hne (congrArg Prod.snd h)) heq
  have hunion : free sb u = free sb s ∪ held.image fun k => (slot s (i, k)).toNat := by
    ext c
    rw [Finset.mem_union, mem_free, mem_free, Finset.mem_image]
    constructor
    · rintro ⟨hc, hnot⟩
      rw [h.marked c hc, not_and_or] at hnot
      rcases hnot with hnot | hnot
      · exact Or.inl ⟨hc, hnot⟩
      · push Not at hnot
        obtain ⟨⟨j, k⟩, rfl, hne, rfl⟩ := hnot
        exact Or.inr ⟨k, (hmem k).mpr hne, rfl⟩
    · rintro (⟨hc, hnot⟩ | ⟨k, hk, rfl⟩)
      · exact ⟨hc, fun hmarked => hnot ((h.marked c hc).mp hmarked).1⟩
      · have hne := (hmem k).mp hk
        have hlt := (hok.isData hne).2
        exact ⟨hlt, fun hmarked => ((h.marked _ hlt).mp hmarked).2 _ rfl hne rfl⟩
  have hdisjoint : Disjoint (free sb s) (held.image fun k => (slot s (i, k)).toNat) := by
    rw [Finset.disjoint_left]
    intro c hc hmem'
    obtain ⟨k, hk, rfl⟩ := Finset.mem_image.mp hmem'
    exact (mem_free.mp hc).2 (hok.slots.used_slot ((hmem k).mp hk))
  rw [hunion, Finset.card_union_of_disjoint hdisjoint, Finset.card_image_of_injOn hinj, hcard]

end UefiGame.Kernel
