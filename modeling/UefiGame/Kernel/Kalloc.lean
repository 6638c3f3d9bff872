import Mathlib.Data.BitVec
import UefiGame.Firmware.Types
import UefiGame.Library.Interleaving
import UefiGame.Library.LinearMemory
import UefiGame.Library.ThreadedList

/-! # The page allocator

The kernel hands out the pages behind its own image. Free pages form a list
whose links stand in the pages themselves, where everybody wrote who had the
page before. Memory is taken as words here, each at the address of its first
byte. A page that is in use is its owner's alone.
-/

namespace UefiGame.Kernel

open Interleaving LinearMemory ThreadedList

def PGSIZE : UINT32 := 4096

def KERNBASE : UINT32 := 0x80000000

def PHYSTOP : UINT32 := 0xE000000

def V2P (a : UINT32) : UINT32 := a - KERNBASE

def P2V (a : UINT32) : UINT32 := a + KERNBASE

def PGROUNDUP (sz : UINT32) : UINT32 := (sz + PGSIZE - 1) &&& ~~~(PGSIZE - 1)

structure Kmem where
  freelist : UINT32
  memory : ℕ → UINT32

/-- `kfree`, in a kernel whose image ends at `kernelEnd`; `none` if it panics. -/
def kfree (kernelEnd : UINT32) (s : Kmem) (v : UINT32) : Option Kmem :=
  if v % PGSIZE ≠ 0 ∨ v < kernelEnd ∨ PHYSTOP ≤ V2P v then none
  else some {
    freelist := v
    memory := Function.update (fill s.memory v.toNat PGSIZE.toNat 0x01010101) v.toNat s.freelist }

def kalloc (s : Kmem) : UINT32 × Kmem :=
  (s.freelist, if s.freelist = 0 then s else { s with freelist := s.memory s.freelist.toNat })

/-- The loop of `freerange`; `none` if it panics or does not end within `n` passes. -/
def freePages (kernelEnd : UINT32) : ℕ → UINT32 → UINT32 → Kmem → Option Kmem
  | 0, _, _, _ => none
  | n + 1, p, vend, s =>
    if p + PGSIZE ≤ vend then (kfree kernelEnd s p).bind (freePages kernelEnd n (p + PGSIZE) vend)
    else some s

def freerange (kernelEnd vstart vend : UINT32) (s : Kmem) : Option Kmem :=
  freePages kernelEnd (2 ^ 20) (PGROUNDUP vstart) vend s

/-! ## Rounding -/

theorem toNat_PGROUNDUP {sz : UINT32} (h : sz.toNat + 4095 < 2 ^ 32) :
    (PGROUNDUP sz).toNat = (sz.toNat + 4095) / 4096 * 4096 := by
  have hmask : ∀ x : UINT32, x &&& ~~~(PGSIZE - 1) = (x >>> 12) <<< 12 := by
    intro x
    apply BitVec.eq_of_getLsbD_eq
    intro i hi
    have hbit : (PGSIZE - 1).getLsbD i = decide (i < 12) := by
      revert i
      decide
    rw [BitVec.getLsbD_and, BitVec.getLsbD_not, hbit, BitVec.getLsbD_shiftLeft,
      BitVec.getLsbD_ushiftRight]
    by_cases hlow : i < 12
    · simp [hlow]
    · simp [hlow, hi, Nat.add_sub_cancel' (Nat.le_of_not_lt hlow)]
  have hsum : (sz + PGSIZE - 1).toNat = sz.toNat + 4095 := by
    have hsize : PGSIZE = 4096#32 := rfl
    bv_omega
  rw [PGROUNDUP, hmask, BitVec.toNat_shiftLeft, BitVec.toNat_ushiftRight, hsum,
    Nat.shiftRight_eq_div_pow, Nat.shiftLeft_eq]
  exact Nat.mod_eq_of_lt (by omega)

/-! ## Freeing -/

variable {kernelEnd v p vend : UINT32} {s s' : Kmem} {free : List UINT32}

/-- The addresses that can be freed: those of whole pages behind the image, in mapped memory. -/
structure Freeable (kernelEnd v : UINT32) : Prop where
  aligned : v.toNat % 4096 = 0
  low : KERNBASE ≤ v
  above : kernelEnd ≤ v
  below : v < P2V PHYSTOP

/-- The words that hold the links of free pages. -/
def Kmem.next (s : Kmem) (v : UINT32) : UINT32 := s.memory v.toNat

theorem kfree_isSome (hv : Freeable kernelEnd v) : kfree kernelEnd s v = some {
    freelist := v
    memory :=
      Function.update (fill s.memory v.toNat PGSIZE.toNat 0x01010101) v.toNat s.freelist } := by
  obtain ⟨haligned, hlow, habove, hbelow⟩ := hv
  have hmod : v % PGSIZE = 0 := by
    apply BitVec.eq_of_toNat_eq
    rw [BitVec.toNat_umod]
    exact haligned
  rw [kfree, if_neg]
  rw [not_or, not_or, not_not]
  refine ⟨hmod, BitVec.not_lt.mpr habove, ?_⟩
  have hbase : KERNBASE = 0x80000000#32 := rfl
  have hstop : PHYSTOP = 0xE000000#32 := rfl
  rw [P2V] at hbelow
  rw [V2P]
  bv_omega

theorem kfree_memory (h : kfree kernelEnd s v = some s') {a : ℕ} (ha : a ∉ block v.toNat 4096) :
    s'.memory a = s.memory a := by
  rw [kfree] at h
  split_ifs at h
  obtain rfl := Option.some.inj h
  dsimp only
  rw [Function.update_of_ne]
  · exact fill_of_notMem ha
  · rintro rfl
    exact ha ⟨le_rfl, by omega⟩

theorem notMem_block_of_aligned {w : UINT32} (hv : v.toNat % 4096 = 0) (hw : w.toNat % 4096 = 0)
    (hne : v ≠ w) {a : ℕ} (ha : a ∈ block w.toNat 4096) : a ∉ block v.toNat 4096 := by
  have hnat : v.toNat ≠ w.toNat := fun h => hne (BitVec.eq_of_toNat_eq h)
  rw [mem_block] at ha ⊢
  omega

theorem kfree_threaded (hs : Threaded s.next 0 s.freelist free) (hv : Freeable kernelEnd v)
    (hfree : ∀ w ∈ free, w.toNat % 4096 = 0) (hnot : v ∉ free) :
    ∃ s', kfree kernelEnd s v = some s' ∧ Threaded s'.next 0 s'.freelist (v :: free) := by
  refine ⟨_, kfree_isSome hv, hs.push ?_ ?_ fun w hw => ?_⟩
  · rintro rfl
    exact absurd hv.low (by decide)
  · exact Function.update_self ..
  · refine kfree_memory (kfree_isSome hv) ?_
    refine notMem_block_of_aligned hv.aligned (hfree w hw) ?_ ⟨le_rfl, by omega⟩
    rintro rfl
    exact hnot hw

theorem freePages_spec (n : ℕ) (hs : Threaded s.next 0 s.freelist free) (hnodup : free.Nodup)
    (hfree : ∀ w ∈ free, w.toNat % 4096 = 0 ∧ w.toNat + 4096 ≤ p.toNat)
    (hp : p.toNat % 4096 = 0) (hlow : KERNBASE ≤ p) (habove : kernelEnd ≤ p)
    (hvend : vend ≤ P2V PHYSTOP) (hn : vend.toNat < p.toNat + 4096 * n) (hpvend : p ≤ vend) :
    ∃ s' free', freePages kernelEnd n p vend s = some s' ∧ Threaded s'.next 0 s'.freelist free' ∧
      free'.Nodup ∧
      (∀ v, v ∈ free' ↔ v ∈ free ∨ v.toNat % 4096 = 0 ∧ p ≤ v ∧ v.toNat + 4096 ≤ vend.toNat) ∧
      ∀ a < p.toNat, s'.memory a = s.memory a := by
  have hstop : (P2V PHYSTOP).toNat = 0x8E000000 := rfl
  have hsize : PGSIZE = 4096#32 := rfl
  induction n generalizing p s free with
  | zero =>
    rw [BitVec.le_def] at hpvend
    omega
  | succ n ih =>
    have hnat : p.toNat ≤ vend.toNat ∧ vend.toNat ≤ 0x8E000000 := by
      rw [BitVec.le_def] at hpvend hvend
      omega
    have hnext : (p + PGSIZE).toNat = p.toNat + 4096 := by
      rw [hsize, BitVec.toNat_add, BitVec.toNat_ofNat]
      omega
    rw [freePages]
    by_cases hfits : p + PGSIZE ≤ vend
    · rw [if_pos hfits]
      rw [BitVec.le_def, hnext] at hfits
      have hpage : Freeable kernelEnd p := by
        refine ⟨hp, hlow, habove, ?_⟩
        rw [BitVec.lt_def]
        omega
      have hnot : p ∉ free := by
        intro hmem
        have := (hfree p hmem).2
        omega
      obtain ⟨t, ht, hthreaded⟩ := kfree_threaded hs hpage (fun w hw => (hfree w hw).1) hnot
      rw [ht, Option.bind_some]
      have hle : ∀ q : UINT32, q ≤ p → q ≤ p + PGSIZE := by
        intro q hq
        rw [BitVec.le_def] at hq ⊢
        omega
      obtain ⟨s', free', hloop, hlist, hnodup', hmem, hmemory⟩ := ih hthreaded
        (List.nodup_cons.mpr ⟨hnot, hnodup⟩)
        (by
          intro w hw
          rw [hnext]
          rcases List.mem_cons.mp hw with rfl | hw
          · exact ⟨hp, le_rfl⟩
          · have := hfree w hw
            omega)
        (by omega) (hle _ hlow) (hle _ habove) (by omega) (by rw [BitVec.le_def]; omega)
      refine ⟨s', free', hloop, hlist, hnodup', fun v => ?_, fun a ha => ?_⟩
      · rw [hmem, List.mem_cons, BitVec.le_def, BitVec.le_def, hnext]
        constructor
        · rintro ((rfl | hv) | hv)
          · exact Or.inr ⟨hp, le_rfl, hfits⟩
          · exact Or.inl hv
          · exact Or.inr ⟨hv.1, by omega, hv.2.2⟩
        · rintro (hv | ⟨haligned, hpv, hvv⟩)
          · exact Or.inl (Or.inr hv)
          · by_cases hsame : v = p
            · exact Or.inl (Or.inl hsame)
            · have hne : v.toNat ≠ p.toNat := fun h => hsame (BitVec.eq_of_toNat_eq h)
              exact Or.inr ⟨haligned, by omega, hvv⟩
      · rw [hmemory a (by omega)]
        exact kfree_memory ht fun h => by rw [mem_block] at h; omega
    · rw [if_neg hfits]
      rw [BitVec.le_def, hnext] at hfits
      refine ⟨s, free, rfl, hs, hnodup, fun v => ⟨Or.inl, ?_⟩, fun _ _ => rfl⟩
      rintro (hv | ⟨haligned, hpv, hvv⟩)
      · exact hv
      · rw [BitVec.le_def] at hpv
        omega

/-! ## Pages in use -/

/-- The allocator with the owners of pages; `full` tells whether `kinit2` has been called. -/
structure KmemSystem (ι : Type*) where
  kmem : Kmem
  owner : UINT32 → Option ι
  full : Bool

inductive KmemAction (ι : Type*)
  | kinit2
  | kalloc (i : ι)
  | kfree (i : ι) (v : UINT32)
  | store (i : ι) (v : UINT32) (offset : Fin 1024) (word : UINT32)

variable {ι : Type*}

/-- The allocator as `main` starts it with `kinit1`, over any memory. -/
def kmemStart (kernelEnd : UINT32) (memory : ℕ → UINT32) : Option (KmemSystem ι) :=
  (freerange kernelEnd kernelEnd (P2V 0x400000) ⟨0, memory⟩).map fun m => ⟨m, fun _ => none, false⟩

/-- One step of the system. Owners free their own pages and write into these only. -/
def kmemStep [DecidableEq ι] (kernelEnd : UINT32) (s : KmemSystem ι) (a : KmemAction ι) :
    Option (KmemSystem ι) :=
  match a with
  | .kinit2 =>
    if s.full then none
    else (freerange kernelEnd (P2V 0x400000) (P2V PHYSTOP) s.kmem).map fun m =>
      { s with kmem := m, full := true }
  | .kalloc i =>
    let r := kalloc s.kmem
    some { s with
      kmem := r.2
      owner := if r.1 = 0 then s.owner else Function.update s.owner r.1 (some i) }
  | .kfree i v =>
    if s.owner v = some i then (kfree kernelEnd s.kmem v).map fun m =>
      { s with kmem := m, owner := Function.update s.owner v none }
    else none
  | .store i v offset word =>
    if s.owner v = some i then some { s with
      kmem := { s.kmem with
        memory := Function.update s.kmem.memory (v.toNat + 4 * offset.val) word } }
    else none

/-- The pages that the allocator has got. -/
def Page (kernelEnd : UINT32) (full : Bool) (v : UINT32) : Prop :=
  v.toNat % 4096 = 0 ∧ kernelEnd ≤ v ∧
    v.toNat + 4096 ≤ (if full then P2V PHYSTOP else P2V 0x400000).toNat

/-- The list holds the pages without an owner, each of them once. -/
def KmemInv (kernelEnd : UINT32) (s : KmemSystem ι) : Prop :=
  ∃ free, Threaded s.kmem.next 0 s.kmem.freelist free ∧ free.Nodup ∧
    (∀ v, v ∈ free ↔ Page kernelEnd s.full v ∧ s.owner v = none) ∧
    ∀ v, s.owner v ≠ none → Page kernelEnd s.full v

theorem page_false : Page kernelEnd false v ↔
    v.toNat % 4096 = 0 ∧ kernelEnd.toNat ≤ v.toNat ∧ v.toNat + 4096 ≤ 0x80400000 := Iff.rfl

theorem page_true : Page kernelEnd true v ↔
    v.toNat % 4096 = 0 ∧ kernelEnd.toNat ≤ v.toNat ∧ v.toNat + 4096 ≤ 0x8E000000 := Iff.rfl

theorem Page.freeable {full : Bool} (hlow : KERNBASE ≤ kernelEnd) (hv : Page kernelEnd full v) :
    Freeable kernelEnd v := by
  obtain ⟨haligned, habove, hbelow⟩ := hv
  have hfirst : (P2V 0x400000).toNat = 0x80400000 := rfl
  have hstop : (P2V PHYSTOP).toNat = 0x8E000000 := rfl
  refine ⟨haligned, ?_, habove, ?_⟩
  · rw [BitVec.le_def] at *
    omega
  · rw [BitVec.lt_def]
    cases full with
    | false =>
      rw [if_neg (by simp)] at hbelow
      omega
    | true =>
      rw [if_pos rfl] at hbelow
      omega

/-- `kinit1` ends and leaves all pages of the first four megabytes on the list. -/
theorem kmemStart_spec (hlow : KERNBASE ≤ kernelEnd) (hhigh : kernelEnd ≤ P2V 0x400000)
    (memory : ℕ → UINT32) :
    ∃ s : KmemSystem ι, kmemStart kernelEnd memory = some s ∧ KmemInv kernelEnd s := by
  have hfirst : (P2V 0x400000).toNat = 0x80400000 := rfl
  have hstop : (P2V PHYSTOP).toNat = 0x8E000000 := rfl
  rw [BitVec.le_def] at hlow hhigh
  have hround : (PGROUNDUP kernelEnd).toNat = (kernelEnd.toNat + 4095) / 4096 * 4096 :=
    toNat_PGROUNDUP (by omega)
  have hempty : Threaded (⟨0, memory⟩ : Kmem).next 0 (⟨0, memory⟩ : Kmem).freelist [] := rfl
  have hlow' : KERNBASE ≤ PGROUNDUP kernelEnd := by
    rw [BitVec.le_def]
    omega
  have habove : kernelEnd ≤ PGROUNDUP kernelEnd := by
    rw [BitVec.le_def]
    omega
  have hhigh' : PGROUNDUP kernelEnd ≤ P2V 0x400000 := by
    rw [BitVec.le_def]
    omega
  have hvend : P2V 0x400000 ≤ P2V PHYSTOP := by decide
  obtain ⟨m, free, hloop, hlist, hnodup, hmem, -⟩ := freePages_spec (2 ^ 20) hempty List.nodup_nil
    (by simp) (by omega) hlow' habove hvend (by omega) hhigh'
  refine ⟨⟨m, fun _ => none, false⟩, ?_, free, hlist, hnodup, fun v => ?_,
    fun v hv => absurd rfl hv⟩
  · rw [kmemStart, freerange, hloop]
    rfl
  · rw [hmem, Page, BitVec.le_def, BitVec.le_def]
    simp only [List.not_mem_nil, false_or, Bool.false_eq_true, if_false, and_true]
    omega

/-- What `kinit2` does: the rest of memory goes to the front of the list. -/
theorem KmemInv.kinit2 {s : KmemSystem ι} (hs : KmemInv kernelEnd s)
    (hhigh : kernelEnd ≤ P2V 0x400000) (hfull : s.full = false) :
    ∃ m, freerange kernelEnd (P2V 0x400000) (P2V PHYSTOP) s.kmem = some m ∧
      KmemInv kernelEnd { s with kmem := m, full := true } ∧
      ∀ a < (P2V 0x400000).toNat, m.memory a = s.kmem.memory a := by
  obtain ⟨free, hlist, hnodup, hmem, howned⟩ := hs
  have hfirst : (P2V 0x400000).toNat = 0x80400000 := rfl
  have hstop : (P2V PHYSTOP).toNat = 0x8E000000 := rfl
  have hround : PGROUNDUP (P2V 0x400000) = P2V 0x400000 := by decide
  have hvend : P2V 0x400000 ≤ P2V PHYSTOP := by decide
  rw [hfull] at hmem howned
  have hold : ∀ w ∈ free, w.toNat % 4096 = 0 ∧ w.toNat + 4096 ≤ (P2V 0x400000).toNat := by
    intro w hw
    have hpage := page_false.mp ((hmem w).mp hw).1
    omega
  obtain ⟨m, free', hloop, hlist', hnodup', hmem', hmemory⟩ := freePages_spec (2 ^ 20) hlist hnodup
    hold (by decide) (by decide) hhigh (BitVec.le_refl _) (by omega) hvend
  refine ⟨m, by rw [freerange, hround, hloop],
    ⟨free', hlist', hnodup', fun v => ?_, fun v hv => ?_⟩,
    hmemory⟩
  · rw [BitVec.le_def] at hhigh
    rw [hmem', hmem, page_false, page_true, BitVec.le_def]
    have hnone : s.owner v ≠ none → v.toNat + 4096 ≤ 0x80400000 := fun h =>
      (page_false.mp (howned v h)).2.2
    constructor
    · rintro (⟨hpage, hfree⟩ | ⟨haligned, habove, hbelow⟩)
      · exact ⟨by omega, hfree⟩
      · refine ⟨by omega, ?_⟩
        by_contra hown
        have := hnone hown
        omega
    · rintro ⟨hpage, hfree⟩
      by_cases hsplit : v.toNat + 4096 ≤ 0x80400000
      · exact Or.inl ⟨by omega, hfree⟩
      · exact Or.inr ⟨by omega, by omega, by omega⟩
  · have hpage := page_false.mp (howned v hv)
    exact page_true.mpr (by omega)

theorem KmemInv.kalloc_spec {s : KmemSystem ι} (hs : KmemInv kernelEnd s) :
    ((kalloc s.kmem).1 = 0 ∧ (kalloc s.kmem).2 = s.kmem ∧
        ∀ v, Page kernelEnd s.full v → s.owner v ≠ none) ∨
      ((kalloc s.kmem).1 ≠ 0 ∧ Page kernelEnd s.full (kalloc s.kmem).1 ∧
        s.owner (kalloc s.kmem).1 = none ∧ (kalloc s.kmem).2.memory = s.kmem.memory ∧
        ∃ free, Threaded s.kmem.next 0 (kalloc s.kmem).2.freelist free ∧ free.Nodup ∧
          ∀ v, v ∈ free ↔ v ≠ (kalloc s.kmem).1 ∧ Page kernelEnd s.full v ∧ s.owner v = none) := by
  obtain ⟨free, hlist, hnodup, hmem, -⟩ := hs
  by_cases hnull : s.kmem.freelist = 0
  · left
    obtain rfl := hlist.eq_nil_iff.mp hnull
    refine ⟨hnull, if_pos hnull, fun v hpage hnone => ?_⟩
    exact List.not_mem_nil ((hmem v).mpr ⟨hpage, hnone⟩)
  · right
    obtain ⟨ys, rfl, htail⟩ := hlist.pop hnull
    rw [List.nodup_cons] at hnodup
    obtain ⟨hpage, hnone⟩ := (hmem _).mp List.mem_cons_self
    have hrest : (kalloc s.kmem).2 =
        { s.kmem with freelist := s.kmem.memory s.kmem.freelist.toNat } :=
      if_neg hnull
    refine ⟨hnull, hpage, hnone, by rw [hrest], ys, by rw [hrest]; exact htail, hnodup.2,
      fun v => ?_⟩
    rw [← hmem, List.mem_cons]
    constructor
    · intro hv
      exact ⟨ne_of_mem_of_not_mem hv hnodup.1, Or.inr hv⟩
    · rintro ⟨hne, rfl | hv⟩
      · exact absurd rfl hne
      · exact hv

theorem KmemInv.kalloc {s : KmemSystem ι} (hs : KmemInv kernelEnd s) (i : ι) :
    KmemInv kernelEnd { s with
      kmem := (Kernel.kalloc s.kmem).2
      owner := if (Kernel.kalloc s.kmem).1 = 0 then s.owner
        else Function.update s.owner (Kernel.kalloc s.kmem).1 (some i) } := by
  rcases hs.kalloc_spec with ⟨hnull, hkmem, -⟩ |
    ⟨hnull, hpage, -, hmemory, free, hlist, hnodup, hmem⟩
  · rw [hkmem, if_pos hnull]
    exact hs
  · rw [if_neg hnull]
    obtain ⟨-, -, -, -, howned⟩ := hs
    refine ⟨free, ?_, hnodup, fun v => ?_, fun v hv => ?_⟩
    · exact hlist.congr fun w _ => congrFun hmemory w.toNat
    · rw [hmem]
      dsimp only
      by_cases hsame : v = (Kernel.kalloc s.kmem).1
      · rw [hsame, Function.update_self]
        simp
      · rw [Function.update_of_ne hsame]
        simp [hsame]
    · dsimp only at hv
      by_cases hsame : v = (Kernel.kalloc s.kmem).1
      · rw [hsame]
        exact hpage
      · rw [Function.update_of_ne hsame] at hv
        exact howned v hv

theorem KmemInv.kfree {s : KmemSystem ι} (hs : KmemInv kernelEnd s) (hlow : KERNBASE ≤ kernelEnd)
    {i : ι} (hv : s.owner v = some i) :
    ∃ m, Kernel.kfree kernelEnd s.kmem v = some m ∧
      KmemInv kernelEnd { s with kmem := m, owner := Function.update s.owner v none } := by
  obtain ⟨free, hlist, hnodup, hmem, howned⟩ := hs
  have hpage := howned v (by rw [hv]; exact Option.some_ne_none i)
  have hnot : v ∉ free := by
    intro h
    rw [hmem, hv] at h
    cases h.2
  obtain ⟨m, hm, hlist'⟩ := kfree_threaded hlist (hpage.freeable hlow)
    (fun w hw => ((hmem w).mp hw).1.1) hnot
  refine ⟨m, hm, v :: free, hlist', List.nodup_cons.mpr ⟨hnot, hnodup⟩, fun w => ?_, fun w hw => ?_⟩
  · dsimp only
    by_cases hsame : w = v
    · subst hsame
      simp [hpage]
    · rw [Function.update_of_ne hsame, ← hmem]
      simp [hsame]
  · dsimp only at hw
    by_cases hsame : w = v
    · subst hsame
      exact hpage
    · rw [Function.update_of_ne hsame] at hw
      exact howned w hw

/-- Writing into a page that is in use leaves the links of free pages alone. -/
theorem KmemInv.store {s : KmemSystem ι} (hs : KmemInv kernelEnd s) {i : ι}
    (hv : s.owner v = some i)
    (offset : Fin 1024) (word : UINT32) :
    KmemInv kernelEnd { s with
      kmem := { s.kmem with
        memory := Function.update s.kmem.memory (v.toNat + 4 * offset.val) word } } := by
  obtain ⟨free, hlist, hnodup, hmem, howned⟩ := hs
  refine ⟨free, ?_, hnodup, hmem, howned⟩
  refine hlist.congr fun w hw => Function.update_of_ne ?_ ..
  obtain ⟨hpage, hnone⟩ := (hmem w).mp hw
  have hpage' := howned v (by rw [hv]; exact Option.some_ne_none i)
  have hne : w ≠ v := by
    rintro rfl
    rw [hv] at hnone
    cases hnone
  have hnat : w.toNat ≠ v.toNat := fun h => hne (BitVec.eq_of_toNat_eq h)
  have haligned := hpage.1
  have haligned' := hpage'.1
  omega

section Steps

variable [DecidableEq ι] {t : KmemSystem ι} {memory : ℕ → UINT32}

theorem KmemInv.step (hlow : KERNBASE ≤ kernelEnd) (hhigh : kernelEnd ≤ P2V 0x400000)
    {s : KmemSystem ι} (hs : KmemInv kernelEnd s) {a : KmemAction ι}
    (h : kmemStep kernelEnd s a = some t) : KmemInv kernelEnd t := by
  cases a with
  | kinit2 =>
    rw [kmemStep] at h
    split_ifs at h with hfull
    obtain ⟨m, hm, ht, -⟩ := hs.kinit2 hhigh ((Bool.not_eq_true _).mp hfull)
    rw [hm] at h
    obtain rfl := Option.some.inj h
    exact ht
  | kalloc i =>
    obtain rfl := Option.some.inj h
    exact hs.kalloc i
  | kfree i v =>
    rw [kmemStep] at h
    split_ifs at h with hv
    obtain ⟨m, hm, ht⟩ := hs.kfree hlow hv
    rw [hm] at h
    obtain rfl := Option.some.inj h
    exact ht
  | store i v offset word =>
    rw [kmemStep] at h
    split_ifs at h with hv
    obtain rfl := Option.some.inj h
    exact hs.store hv offset word

theorem kmemStep_keeps (hhigh : kernelEnd ≤ P2V 0x400000) {s : KmemSystem ι}
    (hs : KmemInv kernelEnd s) {a : KmemAction ι} (h : kmemStep kernelEnd s a = some t) {i : ι}
    (hv : s.owner v = some i)
    (ha : a ≠ .kfree i v ∧ ∀ offset word, a ≠ .store i v offset word) :
    t.owner v = some i ∧ ∀ b ∈ block v.toNat 4096, t.kmem.memory b = s.kmem.memory b := by
  have howned := hs.choose_spec.2.2.2
  have hpage := howned v (by rw [hv]; exact Option.some_ne_none i)
  cases a with
  | kinit2 =>
    rw [kmemStep] at h
    split_ifs at h with hfull
    rw [Bool.not_eq_true] at hfull
    obtain ⟨m, hm, -, hmemory⟩ := hs.kinit2 hhigh hfull
    rw [hm] at h
    obtain rfl := Option.some.inj h
    refine ⟨hv, fun b hb => hmemory b ?_⟩
    rw [hfull] at hpage
    have hbelow := (page_false.mp hpage).2.2
    have hfirst : (P2V 0x400000).toNat = 0x80400000 := rfl
    rw [mem_block] at hb
    omega
  | kalloc j =>
    obtain rfl := Option.some.inj h
    rcases hs.kalloc_spec with ⟨hnull, hkmem, -⟩ | ⟨hnull, -, hnone, hmemory, -⟩
    · dsimp only
      rw [hkmem, if_pos hnull]
      exact ⟨hv, fun _ _ => rfl⟩
    · dsimp only
      rw [hmemory, if_neg hnull, Function.update_of_ne]
      · exact ⟨hv, fun _ _ => rfl⟩
      · rintro rfl
        rw [hv] at hnone
        cases hnone
  | kfree j w =>
    rw [kmemStep] at h
    split_ifs at h with hw
    obtain ⟨m, hm, rfl⟩ := Option.map_eq_some_iff.mp h
    have hne : v ≠ w := by
      rintro rfl
      obtain rfl : j = i := Option.some.inj (hw.symm.trans hv)
      exact ha.1 rfl
    have hpage' := howned w (by rw [hw]; exact Option.some_ne_none j)
    refine ⟨(Function.update_of_ne hne ..).trans hv, fun b hb => kfree_memory hm ?_⟩
    exact notMem_block_of_aligned hpage'.1 hpage.1 hne.symm hb
  | store j w offset word =>
    rw [kmemStep] at h
    split_ifs at h with hw
    obtain rfl := Option.some.inj h
    have hne : v ≠ w := by
      rintro rfl
      obtain rfl : j = i := Option.some.inj (hw.symm.trans hv)
      exact ha.2 offset word rfl
    have hpage' := howned w (by rw [hw]; exact Option.some_ne_none j)
    refine ⟨hv, fun b hb => Function.update_of_ne ?_ ..⟩
    rintro rfl
    refine notMem_block_of_aligned hpage'.1 hpage.1 hne.symm hb ⟨by omega, by omega⟩

/-! ## Runs -/

/-- Whatever processes do with the pages they own, the free list holds each page without an owner
once; so `kalloc` fails only when all pages have owners and else returns one that has none, and
`kfree` of an owned page does not panic. Neither `kinit1` nor, whenever it comes, `kinit2` panics or
loops: `freerange` has a result. -/
theorem kalloc_pages (hlow : KERNBASE ≤ kernelEnd) (hhigh : kernelEnd ≤ P2V 0x400000)
    (memory : ℕ → UINT32) :
    ∃ s₀ : KmemSystem ι, kmemStart kernelEnd memory = some s₀ ∧
      ∀ as s, run (kmemStep kernelEnd) s₀ as = some s →
        (∃ free, Threaded s.kmem.next 0 s.kmem.freelist free ∧ free.Nodup ∧
          ∀ v, v ∈ free ↔ Page kernelEnd s.full v ∧ s.owner v = none) ∧
        (∀ v i, s.owner v = some i →
          Page kernelEnd s.full v ∧ Kernel.kfree kernelEnd s.kmem v ≠ none) ∧
        ((Kernel.kalloc s.kmem).1 = 0 ↔ ∀ v, Page kernelEnd s.full v → s.owner v ≠ none) ∧
        ((Kernel.kalloc s.kmem).1 ≠ 0 → Page kernelEnd s.full (Kernel.kalloc s.kmem).1 ∧
          s.owner (Kernel.kalloc s.kmem).1 = none) ∧
        (s.full = false → kmemStep kernelEnd s .kinit2 ≠ none) := by
  obtain ⟨s₀, hstart, hs₀⟩ := kmemStart_spec (ι := ι) hlow hhigh memory
  refine ⟨s₀, hstart, fun as s hrun => ?_⟩
  have hs : KmemInv kernelEnd s := invariant (fun s a t hs h => hs.step hlow hhigh h) hs₀ hrun
  have hspec := hs.kalloc_spec
  refine ⟨?_, fun v i hv => ?_, ?_, ?_, fun hfull => ?_⟩
  · obtain ⟨free, hlist, hnodup, hmem, -⟩ := hs
    exact ⟨free, hlist, hnodup, hmem⟩
  · obtain ⟨m, hm, -⟩ := hs.kfree hlow hv
    refine ⟨hs.choose_spec.2.2.2 v (by rw [hv]; exact Option.some_ne_none i), ?_⟩
    rw [hm]
    exact Option.some_ne_none m
  · rcases hspec with ⟨hnull, -, hall⟩ | ⟨hnull, hpage, hnone, -⟩
    · exact ⟨fun _ => hall, fun _ => hnull⟩
    · exact ⟨fun h => absurd h hnull, fun hall => absurd hnone (hall _ hpage)⟩
  · intro hnot
    rcases hspec with ⟨hnull, -⟩ | ⟨-, hpage, hnone, -⟩
    · exact absurd hnull hnot
    · exact ⟨hpage, hnone⟩
  · obtain ⟨m, hm, -⟩ := hs.kinit2 hhigh hfull
    rw [kmemStep, if_neg (by simp [hfull]), hm]
    exact Option.some_ne_none _

/-- In every run a page keeps its owner and every word in it until its owner frees it or writes into
it, whatever is allocated and freed meanwhile. -/
theorem kalloc_isolated (hlow : KERNBASE ≤ kernelEnd) (hhigh : kernelEnd ≤ P2V 0x400000)
    {s₀ s : KmemSystem ι}
    (hstart : kmemStart kernelEnd memory = some s₀) {as bs : List (KmemAction ι)}
    (hs : run (kmemStep kernelEnd) s₀ as = some s)
    (ht : run (kmemStep kernelEnd) s bs = some t) {i : ι}
    (hv : s.owner v = some i)
    (hbs : ∀ b ∈ bs, b ≠ .kfree i v ∧ ∀ offset word, b ≠ .store i v offset word) :
    t.owner v = some i ∧ ∀ b ∈ block v.toNat 4096, t.kmem.memory b = s.kmem.memory b := by
  obtain ⟨s₁, hstart₁, hs₁⟩ := kmemStart_spec (ι := ι) hlow hhigh memory
  obtain rfl : s₁ = s₀ := Option.some.inj (hstart₁.symm.trans hstart)
  have hinv : KmemInv kernelEnd s := invariant (fun s a t hs h => hs.step hlow hhigh h) hs₁ hs
  refine (invariant_of_forall (I := fun u => KmemInv kernelEnd u ∧ u.owner v = some i ∧
    ∀ b ∈ block v.toNat 4096, u.kmem.memory b = s.kmem.memory b) ?_ ⟨hinv, hv, fun _ _ => rfl⟩ hbs
    ht).2
  rintro u a w ⟨hu, huv, hsame⟩ ha h
  obtain ⟨howner, hkeeps⟩ := kmemStep_keeps hhigh hu h huv ha
  exact ⟨hu.step hlow hhigh h, howner, fun b hb => (hkeeps b hb).trans (hsame b hb)⟩

end Steps

theorem twoPages_low : KERNBASE ≤ 0x803FE000 := by decide

theorem twoPages_high : (0x803FE000 : UINT32) ≤ P2V 0x400000 := by decide

theorem kalloc_pages_two : ∃ s₀ : KmemSystem Bool, kmemStart 0x803FE000 (fun _ => 0) = some s₀ ∧
    ∀ as s, run (kmemStep 0x803FE000) s₀ as = some s →
      ((Kernel.kalloc s.kmem).1 ≠ 0 → s.owner (Kernel.kalloc s.kmem).1 = none) ∧
      (s.full = false → kmemStep 0x803FE000 s .kinit2 ≠ none) := by
  obtain ⟨s₀, hstart, hruns⟩ := kalloc_pages (ι := Bool) twoPages_low twoPages_high fun _ => 0
  refine ⟨s₀, hstart, fun as s hrun => ?_⟩
  obtain ⟨-, -, -, hsome, hkinit2⟩ := hruns as s hrun
  exact ⟨fun hnull => (hsome hnull).2, hkinit2⟩

/-- One process keeps a page while another one gets, frees and gets a page. -/
theorem kalloc_isolated_two : ∃ s₀ s t : KmemSystem Bool,
    kmemStart 0x803FE000 (fun _ => 0) = some s₀ ∧
    run (kmemStep 0x803FE000) s₀ [.kalloc false, .kalloc true] = some s ∧
    run (kmemStep 0x803FE000) s [.kfree true 0x803FE000, .kalloc true] = some t ∧
    t.owner 0x803FF000 = some false := by
  have h : ((kmemStart 0x803FE000 (fun _ => 0) : Option (KmemSystem Bool)).bind fun s₀ =>
      (run (kmemStep 0x803FE000) s₀ [.kalloc false, .kalloc true]).bind fun s =>
        (run (kmemStep 0x803FE000) s [.kfree true 0x803FE000, .kalloc true]).map fun _ =>
          s.owner 0x803FF000) = some (some false) := by
    decide +kernel
  obtain ⟨s₀, hstart, h⟩ := Option.bind_eq_some_iff.mp h
  obtain ⟨s, hs, h⟩ := Option.bind_eq_some_iff.mp h
  obtain ⟨t, ht, hv⟩ := Option.map_eq_some_iff.mp h
  refine ⟨s₀, s, t, hstart, hs, ht,
    (kalloc_isolated twoPages_low twoPages_high hstart hs ht hv ?_).1⟩
  intro b hb
  simp only [List.mem_cons, List.not_mem_nil, or_false] at hb
  rcases hb with rfl | rfl
  · exact ⟨by simp, fun _ _ => by simp⟩
  · exact ⟨by simp, fun _ _ => by simp⟩

end UefiGame.Kernel
