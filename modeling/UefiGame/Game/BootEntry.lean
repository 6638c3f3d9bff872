import UefiGame.Config.Boot
import UefiGame.Firmware.Partitions

/-! # Booting the chosen entry

`BootEntry`, the same in both programs, compares the volume GUID of the entry
with that of each partition, loads the loader from the first partition that
matches and starts it. What it returns is the status of the loading, and success
if nothing matches: the results of `StrToGuid`, `HandleProtocol` and
`StartImage` are not looked at.
-/

namespace UefiGame

abbrev GUID := BitVec 128

/-- A `PARTITION` whose `guid` points to a GUID. -/
structure GuidPartition (H : Type*) extends Partition H where
  guid_isSome : guid.isSome = true

/-- `CompareGuid`. -/
def GuidPartition.compareGuid {H : Type*} (p : GuidPartition H) (guid : GUID) : Bool :=
  guid = p.guid.get p.guid_isSome

/-- The statuses of the calls made for the image of a partition. -/
structure ImageCalls where
  loadImage : EFI_STATUS
  handleProtocol : EFI_STATUS
  startImage : EFI_STATUS

/-- What `BootEntry` finds outside its arguments: the GUID that `StrToGuid` stores if it succeeds,
what `entry_guid` holds before, and the answers of the firmware, both by the pass of the loop. -/
structure BootFirmware where
  strToGuid : Str16 → Option GUID
  stack : ℕ → GUID
  calls : ℕ → ImageCalls

/-- A call of `StartImage`: the device and the file the image was loaded from, its `LoadOptions` and
`LoadOptionsSize` if `HandleProtocol` told where they are, and the status returned. -/
structure StartedImage (H : Type*) where
  device : Option H
  loaderName : Str16
  loadOptions : Option (Str16 × UINT32)
  status : EFI_STATUS

/-- What `BootEntry` returns, and the images it starts. -/
structure BootRun (H : Type*) where
  status : EFI_STATUS
  started : List (StartedImage H)

/-- The bytes of a string with its terminator; NULL has none. -/
def optionsBytes : Str16 → ℕ
  | none => 0
  | some s => (s.length + 1) * 2

section Model

variable {H : Type*} (fw : BootFirmware) (entry : BootEntry)

/-- `entry_guid` in pass `i`: a string that does not parse leaves it as it was. -/
def entryGuid (i : ℕ) : GUID := (fw.strToGuid entry.volumeGuid).getD (fw.stack i)

/-- The image started in pass `i`; the size of the options is cut to the
`UINT32` it is stored to. -/
def startedImage (i : ℕ) (p : GuidPartition H) : StartedImage H where
  device := p.handle
  loaderName := entry.loaderName
  loadOptions :=
    if efiError (fw.calls i).handleProtocol then none
    else some (entry.options, BitVec.ofNat 32 (optionsBytes entry.options))
  status := (fw.calls i).startImage

/-- The branch of pass `i` that boots. -/
def bootImage (i : ℕ) (p : GuidPartition H) : BootRun H :=
  if efiError (fw.calls i).loadImage then ⟨(fw.calls i).loadImage, []⟩
  else ⟨(fw.calls i).loadImage, [startedImage fw entry i p]⟩

/-- The loop, from pass `i` on. -/
def bootEntryFrom : ℕ → List (GuidPartition H) → BootRun H
  | _, [] => ⟨EFI_SUCCESS, []⟩
  | i, p :: partitions =>
    if p.compareGuid (entryGuid fw entry i) then bootImage fw entry i p
    else bootEntryFrom (i + 1) partitions

/-- `BootEntry`. -/
def bootEntry (partitions : List (GuidPartition H)) : BootRun H :=
  bootEntryFrom fw entry 0 partitions

/-- The partition whose pass boots, and the number of that pass. -/
def bootedPartition (partitions : List (GuidPartition H)) : Option (GuidPartition H × ℕ) :=
  partitions.zipIdx.find? fun q => q.1.compareGuid (entryGuid fw entry q.2)

end Model

/-- The first partition in the list that has the GUID, and its number. -/
def firstMatch {H : Type*} (guid : GUID) (partitions : List (GuidPartition H)) :
    Option (GuidPartition H × ℕ) :=
  partitions.zipIdx.find? fun q => q.1.compareGuid guid

/-- The entry's loader was loaded from the first partition that has the entry's GUID, got the
entry's options, and was started without an error. -/
def Booted {H : Type*} (fw : BootFirmware) (entry : BootEntry)
    (partitions : List (GuidPartition H)) (run : BootRun H) : Prop :=
  ∃ guid p i image, fw.strToGuid entry.volumeGuid = some guid ∧
    firstMatch guid partitions = some (p, i) ∧ efiError (fw.calls i).loadImage = false ∧
    run.started = [image] ∧ image.device = p.handle ∧ image.loaderName = entry.loaderName ∧
    (∃ size, image.loadOptions = some (entry.options, size) ∧
      size.toNat = optionsBytes entry.options) ∧
    efiError image.status = false

/-- `BootEntry` returns success just when it booted, and starts at most one image. -/
def ReportsBoot {H : Type*} (fw : BootFirmware) (entry : BootEntry)
    (partitions : List (GuidPartition H)) : Prop :=
  let run := bootEntry fw entry partitions
  (run.status = EFI_SUCCESS ↔ Booted fw entry partitions run) ∧ run.started.length ≤ 1

/-- The image of pass `i` gets the entry's options and is started. -/
structure Starts (fw : BootFirmware) (entry : BootEntry) (i : ℕ) : Prop where
  guid : ∃ guid, fw.strToGuid entry.volumeGuid = some guid
  handleProtocol : efiError (fw.calls i).handleProtocol = false
  options : optionsBytes entry.options < 2 ^ 32
  startImage : efiError (fw.calls i).startImage = false

section Boot

variable {H : Type*} {fw : BootFirmware} {e : BootEntry} {ps : List (GuidPartition H)}
  {p : GuidPartition H} {g : GUID} {i : ℕ}

theorem bootEntryFrom_eq (fw : BootFirmware) (e : BootEntry) (i : ℕ)
    (ps : List (GuidPartition H)) : bootEntryFrom fw e i ps =
      (((ps.zipIdx i).find? fun q => q.1.compareGuid (entryGuid fw e q.2)).map
        fun q => bootImage fw e q.2 q.1).getD ⟨EFI_SUCCESS, []⟩ := by
  induction ps generalizing i with
  | nil => rfl
  | cons p ps ih =>
    unfold bootEntryFrom
    rw [List.zipIdx_cons, List.find?_cons]
    split_ifs with h
    · simp [h]
    · simp [h, ih]

theorem bootEntry_eq (fw : BootFirmware) (e : BootEntry) (ps : List (GuidPartition H)) :
    bootEntry fw e ps =
      ((bootedPartition fw e ps).map fun q => bootImage fw e q.2 q.1).getD ⟨EFI_SUCCESS, []⟩ :=
  bootEntryFrom_eq fw e 0 ps

theorem bootedPartition_eq (hg : fw.strToGuid e.volumeGuid = some g) :
    bootedPartition fw e ps = firstMatch g ps := by
  unfold bootedPartition firstMatch entryGuid
  rw [hg]
  rfl

theorem status_bootImage (fw : BootFirmware) (e : BootEntry) (i : ℕ) (p : GuidPartition H) :
    (bootImage fw e i p).status = (fw.calls i).loadImage := by
  unfold bootImage
  split_ifs <;> rfl

theorem length_started_le (fw : BootFirmware) (e : BootEntry) (ps : List (GuidPartition H)) :
    (bootEntry fw e ps).started.length ≤ 1 := by
  rw [bootEntry_eq]
  rcases bootedPartition fw e ps with _ | ⟨p, i⟩
  · exact Nat.zero_le 1
  · change (bootImage fw e i p).started.length ≤ 1
    unfold bootImage
    split_ifs <;> simp

theorem loadOptions_iff : (∃ size, (startedImage fw e i p).loadOptions = some (e.options, size) ∧
    size.toNat = optionsBytes e.options) ↔
      efiError (fw.calls i).handleProtocol = false ∧ optionsBytes e.options < 2 ^ 32 := by
  unfold startedImage
  rcases efiError (fw.calls i).handleProtocol with _ | _
  · simp only [Bool.false_eq_true, if_false, Option.some.injEq, Prod.mk.injEq, true_and,
      exists_eq_left', BitVec.toNat_ofNat]
    exact Nat.mod_eq_iff_lt (by decide)
  · simp

theorem not_booted_of_none (h : bootedPartition fw e ps = none) :
    ¬ Booted fw e ps (bootEntry fw e ps) := by
  rintro ⟨g, p, i, -, hg, hfirst, -⟩
  rw [bootedPartition_eq hg, hfirst] at h
  cases h

/-- The pass that boots does all that is asked for just when the calls after the loading do. -/
theorem booted_iff (h : bootedPartition fw e ps = some (p, i)) :
    Booted fw e ps (bootEntry fw e ps) ↔
      efiError (fw.calls i).loadImage = false ∧ Starts fw e i := by
  have hrun : bootEntry fw e ps = bootImage fw e i p := by
    rw [bootEntry_eq, h]
    rfl
  rw [hrun]
  constructor
  · rintro ⟨g, p', i', image, hg, hfirst, hload, hstarted, -, -, hoptions, hstatus⟩
    rw [← bootedPartition_eq hg, h] at hfirst
    obtain ⟨rfl, rfl⟩ := Prod.mk.inj (Option.some.inj hfirst)
    unfold bootImage at hstarted
    rw [hload] at hstarted
    obtain rfl : startedImage fw e i p = image := List.singleton_inj.mp hstarted
    obtain ⟨hprotocol, hbytes⟩ := loadOptions_iff.mp hoptions
    exact ⟨hload, ⟨g, hg⟩, hprotocol, hbytes, hstatus⟩
  · rintro ⟨hload, ⟨g, hg⟩, hprotocol, hbytes, hstart⟩
    refine ⟨g, p, i, startedImage fw e i p, hg, ?_, hload, ?_, rfl, rfl, ?_, hstart⟩
    · rw [← bootedPartition_eq hg, h]
    · unfold bootImage
      rw [hload]
      rfl
    · exact loadOptions_iff.mpr ⟨hprotocol, hbytes⟩

theorem not_reportsBoot_of_none (h : bootedPartition fw e ps = none) :
    ¬ ReportsBoot fw e ps := by
  rintro ⟨hboots, -⟩
  have hstatus : (bootEntry fw e ps).status = EFI_SUCCESS := by
    rw [bootEntry_eq, h]
    rfl
  exact not_booted_of_none h (hboots.mp hstatus)

theorem reportsBoot_iff_of_some (h : bootedPartition fw e ps = some (p, i)) :
    ReportsBoot fw e ps ↔ ((fw.calls i).loadImage = EFI_SUCCESS ↔
      efiError (fw.calls i).loadImage = false ∧ Starts fw e i) := by
  have hstatus : (bootEntry fw e ps).status = (fw.calls i).loadImage := by
    rw [bootEntry_eq, h]
    exact status_bootImage fw e i p
  change ((bootEntry fw e ps).status = EFI_SUCCESS ↔ _) ∧ _ ↔ _
  rw [hstatus, booted_iff h, and_iff_left (length_started_le fw e ps)]

theorem loadImage_iff {status : EFI_STATUS} {P : Prop} :
    (status = EFI_SUCCESS ↔ efiError status = false ∧ P) ↔
      efiError status = true ∨ (status = EFI_SUCCESS ↔ P) := by
  rcases hload : efiError status with _ | _
  · simp
  · have hne : status ≠ EFI_SUCCESS := by
      rintro rfl
      cases hload
    simp [hne]

end Boot

/-- The status tells whether the entry booted just when some pass boots, and there the loading
fails, or succeeds without a warning just when the calls after it do what they should. -/
theorem reportsBoot_iff {H : Type*} (fw : BootFirmware) (e : BootEntry)
    (ps : List (GuidPartition H)) :
    ReportsBoot fw e ps ↔ ∃ p i, bootedPartition fw e ps = some (p, i) ∧
      (efiError (fw.calls i).loadImage = true ∨
        ((fw.calls i).loadImage = EFI_SUCCESS ↔ Starts fw e i)) := by
  rcases h : bootedPartition fw e ps with _ | ⟨p, i⟩
  · simp [not_reportsBoot_of_none h]
  · rw [reportsBoot_iff_of_some h, loadImage_iff]
    constructor
    · intro hcalls
      exact ⟨p, i, rfl, hcalls⟩
    · rintro ⟨p', i', hp, hcalls⟩
      obtain ⟨rfl, rfl⟩ := Prod.mk.inj (Option.some.inj hp)
      exact hcalls

/-- The text `00000000-0000-0000-0000-000000000000`. -/
def zeroGuidText : List CHAR16 :=
  [45].intercalate [List.replicate 8 48, List.replicate 4 48, List.replicate 4 48,
    List.replicate 4 48, List.replicate 12 48]

/-- A firmware all of whose calls succeed. -/
def willingFirmware : BootFirmware where
  strToGuid := fun s => if s = some zeroGuidText then some 0 else none
  stack := fun _ => 0
  calls := fun _ => ⟨EFI_SUCCESS, EFI_SUCCESS, EFI_SUCCESS⟩

/-- No partition has the GUID of the entry: nothing is booted, and success is returned. -/
theorem not_reportsBoot_noMatch :
    ¬ ReportsBoot willingFirmware ⟨none, some zeroGuidText, some [], none, none⟩
      [⟨⟨some (), some 7⟩, rfl⟩] :=
  not_reportsBoot_of_none (by decide +kernel)

end UefiGame
