import UefiGame.Firmware.Types
import UefiGame.Library.InitialSegment

/-! # Locating the partitions

`LocateFSPartitions` walks the device path of every file-system handle twice:
once to count the handles with a hard-drive node, which sizes the array, and
once to fill it. The filling pass indexes the array by handle, so it fits the
counted size only when the drives come first.
-/

namespace UefiGame

/-- A device path node; `signature` is the `Signature` field of a hard-drive node. -/
structure DevicePathNode where
  type : UINT8
  subType : UINT8
  signature : BitVec 128
  deriving DecidableEq, Repr

/-- `IsDevicePathEndType`. -/
def DevicePathNode.isEnd (n : DevicePathNode) : Bool := n.type = 0x7f

/-- `MEDIA_DEVICE_PATH` with subtype `MEDIA_HARDDRIVE_DP`. -/
def DevicePathNode.isHardDrive (n : DevicePathNode) : Bool := n.type = 0x04 ∧ n.subType = 0x01

/-- `PARTITION`; both fields are NULL in a zeroed entry. -/
structure Partition (H : Type*) where
  handle : Option H
  guid : Option (BitVec 128)
  deriving DecidableEq, Repr

def Partition.zero {H : Type*} : Partition H := ⟨none, none⟩

section Model

variable {H : Type*}

/-- The counting walk along one path, left at the first hard-drive node. -/
def countsPath : List DevicePathNode → Bool
  | [] => false
  | n :: path => if n.isEnd then false else if n.isHardDrive then true else countsPath path

/-- The first pass: `*PartitionsCount`. -/
def countPartitions (devicePath : H → Option (List DevicePathNode)) (handles : List H) : ℕ :=
  handles.countP fun h => ((devicePath h).map countsPath).getD false

/-- The array being filled, and the indices stored to so far. -/
structure Fill (H : Type*) where
  partitions : List (Partition H)
  written : List ℕ

/-- `(*Partitions)[i] = p`; a store outside the array is only recorded. -/
def Fill.store (st : Fill H) (i : ℕ) (p : Partition H) : Fill H where
  partitions := st.partitions.set i p
  written := st.written ++ [i]

/-- The filling walk along the path of handle number `i`; it does not stop at a hard-drive node. -/
def fillPath (i : ℕ) (h : H) : List DevicePathNode → Fill H → Fill H
  | [], st => st
  | n :: path, st =>
    if n.isEnd then st
    else fillPath i h path (if n.isHardDrive then st.store i ⟨some h, some n.signature⟩ else st)

/-- The second pass, from handle number `i` on. -/
def fillHandles (devicePath : H → Option (List DevicePathNode)) : ℕ → List H → Fill H → Fill H
  | _, [], st => st
  | i, h :: handles, st =>
    fillHandles devicePath (i + 1) handles (fillPath i h ((devicePath h).getD []) st)

/-- What the firmware answers to `LocateFSPartitions`. -/
structure FsHandles (H : Type*) where
  locateStatus : EFI_STATUS
  handles : List H
  devicePath : H → Option (List DevicePathNode)
  allocated : Bool

/-- `LocateFSPartitions`: the status, `*PartitionsCount`, and the array where one was allocated. -/
def locateFSPartitions (fw : FsHandles H) : EFI_STATUS × ℕ × Option (Fill H) :=
  if efiError fw.locateStatus then (fw.locateStatus, 0, none)
  else
    let count := countPartitions fw.devicePath fw.handles
    if fw.allocated then
      (fw.locateStatus, count,
        some (fillHandles fw.devicePath 0 fw.handles ⟨List.replicate count Partition.zero, []⟩))
    else (EFI_OUT_OF_RESOURCES, count, none)

end Model

section Drives

variable {H : Type*} {devicePath : H → Option (List DevicePathNode)} {path : List DevicePathNode}
  {st : Fill H} {h : H} {handles : List H} {i j : ℕ}

/-- The hard-drive nodes of a path, up to its end node. -/
def driveNodes (path : List DevicePathNode) : List DevicePathNode :=
  (path.takeWhile fun n => !n.isEnd).filter DevicePathNode.isHardDrive

/-- The partition a handle stands for: its innermost hard-drive node, if its path has one. -/
def partitionOf (devicePath : H → Option (List DevicePathNode)) (h : H) : Option (Partition H) :=
  (driveNodes ((devicePath h).getD [])).getLast?.map fun n => ⟨some h, some n.signature⟩

/-- The handle's path contains a hard-drive node. -/
def isDrive (devicePath : H → Option (List DevicePathNode)) (h : H) : Bool :=
  (partitionOf devicePath h).isSome

@[simp] theorem driveNodes_nil : driveNodes [] = [] := rfl

theorem driveNodes_cons (n : DevicePathNode) :
    driveNodes (n :: path) =
      if n.isEnd then [] else if n.isHardDrive then n :: driveNodes path else driveNodes path := by
  by_cases he : n.isEnd <;> by_cases hd : n.isHardDrive <;> simp [driveNodes, he, hd]

theorem countsPath_eq : countsPath path = (driveNodes path).getLast?.isSome := by
  induction path with
  | nil => rfl
  | cons n path ih =>
    rw [countsPath, driveNodes_cons]
    split_ifs
    · rfl
    · simp
    · exact ih

theorem countPartitions_eq :
    countPartitions devicePath handles = handles.countP (isDrive devicePath) := by
  apply List.countP_congr
  intro h _
  cases hp : devicePath h <;> simp [isDrive, partitionOf, hp, countsPath_eq]

theorem partitions_fillPath :
    (fillPath i h path st).partitions = ((driveNodes path).getLast?.map fun n =>
      st.partitions.set i ⟨some h, some n.signature⟩).getD st.partitions := by
  induction path generalizing st with
  | nil => rfl
  | cons n path ih =>
    rw [fillPath, driveNodes_cons]
    split_ifs
    · rfl
    · rw [ih]
      cases hl : (driveNodes path).getLast? <;> simp [Fill.store, List.getLast?_cons, hl]
    · exact ih

theorem mem_written_fillPath :
    j ∈ (fillPath i h path st).written ↔ j ∈ st.written ∨ (j = i ∧ driveNodes path ≠ []) := by
  induction path generalizing st with
  | nil => simp [fillPath]
  | cons n path ih =>
    rw [fillPath, driveNodes_cons]
    split_ifs
    · simp
    · rw [ih]
      simp [Fill.store]
      tauto
    · exact ih

theorem isDrive_iff : isDrive devicePath h = true ↔ driveNodes ((devicePath h).getD []) ≠ [] := by
  simp [isDrive, partitionOf]

theorem mem_written_fillHandles :
    j ∈ (fillHandles devicePath i handles st).written ↔
      j ∈ st.written ∨ ∃ k h, handles[k]? = some h ∧ isDrive devicePath h = true ∧ j = i + k := by
  induction handles generalizing i st with
  | nil => simp [fillHandles]
  | cons h handles ih =>
    rw [fillHandles, ih, mem_written_fillPath, ← isDrive_iff, or_assoc]
    apply or_congr_right
    constructor
    · rintro (⟨rfl, hd⟩ | ⟨k, h', hk, hd, rfl⟩)
      · exact ⟨0, h, rfl, hd, rfl⟩
      · exact ⟨k + 1, h', hk, hd, by omega⟩
    · rintro ⟨k, h', hk, hd, rfl⟩
      cases k with
      | zero => exact Or.inl ⟨rfl, Option.some.inj hk ▸ hd⟩
      | succ k => exact Or.inr ⟨k, h', hk, hd, by omega⟩

theorem partitions_fillHandles_of_none (hn : ∀ h ∈ handles, isDrive devicePath h = false) :
    (fillHandles devicePath i handles st).partitions = st.partitions := by
  induction handles generalizing i st with
  | nil => rfl
  | cons h handles ih =>
    have hnil : driveNodes ((devicePath h).getD []) = [] := by
      have := hn h List.mem_cons_self
      rwa [Bool.eq_false_iff, ne_eq, isDrive_iff, not_not] at this
    rw [fillHandles, ih fun h' hh => hn h' (List.mem_cons_of_mem _ hh), partitions_fillPath, hnil]
    rfl

theorem partitions_fillHandles_of_drives (done : List (Partition H))
    (hd : ∀ h ∈ handles, isDrive devicePath h = true)
    (hst : st.partitions = done ++ List.replicate handles.length Partition.zero) :
    (fillHandles devicePath done.length handles st).partitions =
      done ++ handles.filterMap (partitionOf devicePath) := by
  induction handles generalizing done st with
  | nil => simpa [fillHandles] using hst
  | cons h handles ih =>
    obtain ⟨p, hp⟩ := Option.isSome_iff_exists.mp (hd h List.mem_cons_self)
    have hset : (fillPath done.length h ((devicePath h).getD []) st).partitions =
        (done ++ [p]) ++ List.replicate handles.length Partition.zero := by
      have hp' := hp
      rw [partitionOf, Option.map_eq_some_iff] at hp'
      obtain ⟨n, hn, rfl⟩ := hp'
      rw [partitions_fillPath, hn, hst]
      simp [List.replicate_succ]
    have htail := ih (done ++ [p]) (fun h' hh => hd h' (List.mem_cons_of_mem _ hh)) hset
    rw [List.length_append, List.length_singleton] at htail
    rw [fillHandles, htail, List.filterMap_cons_some hp, List.append_assoc, List.singleton_append]

theorem fillHandles_append (s t : List H) (i : ℕ) (st : Fill H) :
    fillHandles devicePath i (s ++ t) st =
      fillHandles devicePath (i + s.length) t (fillHandles devicePath i s st) := by
  induction s generalizing i st with
  | nil => rfl
  | cons h s ih =>
    rw [List.cons_append, fillHandles, ih, fillHandles, List.length_cons, Nat.add_right_comm,
      Nat.add_assoc]

theorem partitions_fillHandles_of_leads (hl : InitialSegment.Leads (isDrive devicePath) handles) :
    (fillHandles devicePath 0 handles
        ⟨List.replicate (handles.countP (isDrive devicePath)) Partition.zero, []⟩).partitions =
      handles.filterMap (partitionOf devicePath) := by
  obtain ⟨s, t, rfl, hs, ht⟩ := InitialSegment.exists_split hl
  have hcount : (s ++ t).countP (isDrive devicePath) = s.length := by
    rw [List.countP_append, List.countP_eq_length.mpr hs,
      List.countP_eq_zero.mpr fun b hb => by simp [ht b hb], Nat.add_zero]
  have hnone : t.filterMap (partitionOf devicePath) = [] := by
    rw [List.filterMap_eq_nil_iff]
    intro h hh
    simpa [isDrive] using ht h hh
  rw [hcount, fillHandles_append, partitions_fillHandles_of_none ht, List.filterMap_append, hnone,
    List.append_nil]
  exact partitions_fillHandles_of_drives [] hs rfl

end Drives

/-- After a successful call the array has `*PartitionsCount` entries, was only stored to inside,
and lists exactly the partitions of the handles that have one, in handle order. -/
def LocatesExactly {H : Type*} (fw : FsHandles H) : Prop :=
  ∀ status count st, locateFSPartitions fw = (status, count, some st) →
    st.partitions.length = count ∧ (∀ i ∈ st.written, i < count) ∧
      st.partitions = fw.handles.filterMap (partitionOf fw.devicePath)

/-- The array is right just when no handle without a drive precedes one with a drive. -/
theorem locatesExactly_iff {H : Type*} (fw : FsHandles H)
    (hlocate : efiError fw.locateStatus = false) (halloc : fw.allocated = true) :
    LocatesExactly fw ↔ InitialSegment.Leads (isDrive fw.devicePath) fw.handles := by
  have hrun : ∀ status count st, locateFSPartitions fw = (status, count, some st) ↔
      fw.locateStatus = status ∧ fw.handles.countP (isDrive fw.devicePath) = count ∧
      fillHandles fw.devicePath 0 fw.handles
        ⟨List.replicate (fw.handles.countP (isDrive fw.devicePath)) Partition.zero, []⟩ = st := by
    simp [locateFSPartitions, hlocate, halloc, countPartitions_eq]
  constructor
  · intro h
    obtain ⟨-, hw, -⟩ := h _ _ _ ((hrun ..).mpr ⟨rfl, rfl, rfl⟩)
    rw [InitialSegment.leads_iff_lt_countP]
    intro i a hi ha
    exact hw i (mem_written_fillHandles.mpr (Or.inr ⟨i, a, hi, ha, by omega⟩))
  · rintro hl status count st he
    obtain ⟨-, rfl, rfl⟩ := (hrun ..).mp he
    have hparts := partitions_fillHandles_of_leads hl
    refine ⟨?_, ?_, hparts⟩
    · rw [hparts, List.countP_eq_length_filter, List.length_filterMap_eq_countP,
        List.countP_eq_length_filter]
      rfl
    · intro i hi
      rcases mem_written_fillHandles.mp hi with hi | ⟨k, h, hk, hd, rfl⟩
      · simp at hi
      · rw [Nat.zero_add]
        exact InitialSegment.leads_iff_lt_countP.mp hl k h hk hd

/-- The path of a hard-drive partition, and of a device without one. -/
def drivePath : List DevicePathNode := [⟨0x04, 0x01, 7⟩, ⟨0x7f, 0xff, 0⟩]
def plainPath : List DevicePathNode := [⟨0x01, 0x01, 0⟩, ⟨0x7f, 0xff, 0⟩]

/-- Successful answers for two handles, `false` and `true`; `drive` tells which are drives. -/
def twoHandles (drive : Bool → Bool) : FsHandles Bool where
  locateStatus := EFI_SUCCESS
  handles := [false, true]
  devicePath := fun h => some (if drive h then drivePath else plainPath)
  allocated := true

theorem locatesExactly_iff_driveFirst :
    LocatesExactly (twoHandles fun h => !h) ↔
      InitialSegment.Leads (isDrive (twoHandles fun h => !h).devicePath) [false, true] :=
  locatesExactly_iff (twoHandles fun h => !h) (by decide) rfl

/-- A drive behind a handle without one is stored behind the array. -/
theorem not_locatesExactly_driveLast : ¬ LocatesExactly (twoHandles fun h => h) := by
  intro h
  obtain ⟨-, hwritten, -⟩ := h EFI_SUCCESS 1 _ rfl
  exact absurd (hwritten 1 (by decide)) (by decide)

end UefiGame
