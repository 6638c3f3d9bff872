import UefiGame.Xv6.Load
import UefiGame.Xv6.Pages

/-! # Handing over to the kernel

`LoadFile` returns at the first call that fails, but `UefiMain` only prints or
overwrites every status it gets: whatever the firmware answers, control reaches
the jump. So a complete kernel is handed over only if all the calls it takes
happen to succeed.
-/

namespace UefiGame

abbrev EFI_PHYSICAL_ADDRESS := BitVec 64

def ELF_MAGIC : ℕ := 0x464C457F

/-- A firmware call, with the arguments and results that matter. -/
inductive FirmwareCall where
  | locateProtocol
  | openVolume
  | openFile
  | getInfo
  | allocatePages (start pages : UINTN)
  | read (bytes : ℕ)
  | getMemoryMap (mapSize : UINTN)
  | allocatePool (size : UINTN)
  | exitBootServices (mapKey : UINTN)
  deriving DecidableEq, Repr

/-- What the loader does: a call with the status it got, the release of the file buffer, or the jump
to the kernel. -/
inductive HandoverEvent where
  | call (c : FirmwareCall) (status : EFI_STATUS)
  | freePages (start pages : UINTN)
  | jump (entry : EFI_PHYSICAL_ADDRESS)
  deriving DecidableEq, Repr

/-- The out-parameters of `LoadFile`. -/
structure LoadedFile where
  fileAddr : EFI_PHYSICAL_ADDRESS
  filePageSize : UINTN

/-- The members of `struct MemoryMap` after a call of `GetMemoryMap`, and its status. -/
structure MapAnswer where
  status : EFI_STATUS
  mapSize : UINTN
  mapKey : UINTN

/-- What the loader finds: memory, the locals it never initialises, the kernel file, and the status
and the results of each call. -/
structure Xv6Env where
  lib : BaseMemoryLib
  memory : Memory
  stack : LoadedFile
  parameterPages : EFI_STATUS
  locateProtocol : EFI_STATUS
  openVolume : EFI_STATUS
  openFile : EFI_STATUS
  getInfo : EFI_STATUS
  bufferPages : EFI_STATUS
  /-- What `*FileAddr` holds after the call that allocates the buffer. -/
  bufferAddress : EFI_PHYSICAL_ADDRESS
  read : EFI_STATUS
  file : List UINT8
  bytesRead : ℕ
  bytesRead_le : bytesRead ≤ file.length
  kernelPages : EFI_STATUS
  firstMap : MapAnswer
  allocatePool : EFI_STATUS
  secondMap : MapAnswer
  exitBootServices : EFI_STATUS

/-- What `LoadFile` returns: the status, the out-parameters, memory, and the calls it made. -/
structure LoadRun where
  status : EFI_STATUS
  out : LoadedFile
  memory : Memory
  events : List HandoverEvent

/-- A call of `LoadFile`: an error is returned at once, and leaves what has been done so far. -/
def LoadRun.after (c : FirmwareCall) (status : EFI_STATUS) (out : LoadedFile) (m : Memory)
    (rest : LoadRun) : LoadRun :=
  if efiError status then ⟨status, out, m, [.call c status]⟩
  else { rest with events := .call c status :: rest.events }

/-- `File->Read` at address `a`. -/
def readInto (m : Memory) (a : ℕ) (bs : List UINT8) : Memory := fun b =>
  if a ≤ b then bs[b - a]?.getD (m b) else m b

namespace Xv6Env

variable (env : Xv6Env)

/-- `*FilePageSize`. -/
def filePageSize : UINTN := (BitVec.ofNat 64 env.file.length + 4095) / 4096

/-- `LoadFile`. -/
def loadFile : LoadRun :=
  let out : LoadedFile := ⟨env.bufferAddress, env.filePageSize⟩
  let m := readInto env.memory env.bufferAddress.toNat (env.file.take env.bytesRead)
  .after .locateProtocol env.locateProtocol env.stack env.memory <|
  .after .openVolume env.openVolume env.stack env.memory <|
  .after .openFile env.openFile env.stack env.memory <|
  .after .getInfo env.getInfo env.stack env.memory <|
  .after (.allocatePages 0 env.filePageSize) env.bufferPages out env.memory <|
  .after (.read env.bytesRead) env.read out m ⟨env.read, out, m, []⟩

/-- Memory after the segments are loaded, from wherever `buffer_address` points. -/
def kernelMemory : Memory :=
  loadSegments env.lib env.loadFile.memory env.loadFile.out.fileAddr.toNat

/-- `elf->entry`, read after the segments are loaded. -/
def entryAddress : EFI_PHYSICAL_ADDRESS :=
  BitVec.ofNat 64 (PackedRecord.read elfHdrLayout env.kernelMemory
    env.loadFile.out.fileAddr.toNat .entry)

/-- `UefiMain`. -/
def handover : List HandoverEvent :=
  let load := env.loadFile
  let pages := reservedPages load.memory load.out.fileAddr.toNat
  [.call (.allocatePages 0x50000 1) env.parameterPages] ++ load.events ++
    [.call (.allocatePages pages.start pages.pageSize) env.kernelPages,
      .freePages load.out.fileAddr load.out.filePageSize,
      .call (.getMemoryMap 0) env.firstMap.status,
      .call (.allocatePool env.firstMap.mapSize) env.allocatePool,
      .call (.getMemoryMap env.firstMap.mapSize) env.secondMap.status,
      .call (.exitBootServices env.secondMap.mapKey) env.exitBootServices,
      .jump env.entryAddress]

end Xv6Env

/-- The file begins with `ELF_MAGIC`. -/
def HasMagic (file : List UINT8) : Prop :=
  4 ≤ file.length ∧ PackedRecord.read elfHdrLayout (memoryOf 0 file) 0 .magic = ELF_MAGIC

/-- The whole file was read and is an ELF file, every page allocation succeeded, and so did
`ExitBootServices`. -/
structure CompleteKernel (file : List UINT8) (events : List HandoverEvent) : Prop where
  whole : ∃ status, .call (.read file.length) status ∈ events ∧ efiError status = false
  magic : HasMagic file
  pages : ∀ start pages status, .call (.allocatePages start pages) status ∈ events →
    efiError status = false
  exit : ∃ mapKey status, .call (.exitBootServices mapKey) status ∈ events ∧
    efiError status = false

/-- Control reaches the jump only with a complete kernel. -/
def HandsOverComplete (env : Xv6Env) : Prop :=
  ∀ entry, .jump entry ∈ env.handover → CompleteKernel env.file env.handover

/-- The calls that a complete kernel takes succeed, and the file is one. -/
structure KernelAnswers (env : Xv6Env) : Prop where
  parameterPages : efiError env.parameterPages = false
  locateProtocol : efiError env.locateProtocol = false
  openVolume : efiError env.openVolume = false
  openFile : efiError env.openFile = false
  getInfo : efiError env.getInfo = false
  bufferPages : efiError env.bufferPages = false
  read : efiError env.read = false
  bytesRead : env.bytesRead = env.file.length
  magic : HasMagic env.file
  kernelPages : efiError env.kernelPages = false
  exitBootServices : efiError env.exitBootServices = false

section Handover

variable {env : Xv6Env} {e : HandoverEvent} {c : FirmwareCall} {status : EFI_STATUS}
  {out : LoadedFile} {m : Memory} {rest : LoadRun}

/-- The calls behind a call of `LoadFile` are made only if it succeeds. -/
theorem mem_events_after : e ∈ (rest.after c status out m).events ↔
    e = .call c status ∨ efiError status = false ∧ e ∈ rest.events := by
  unfold LoadRun.after
  rcases h : efiError status with _ | _ <;> simp

theorem mem_events_loadFile : e ∈ env.loadFile.events ↔
    e = .call .locateProtocol env.locateProtocol ∨ efiError env.locateProtocol = false ∧
      (e = .call .openVolume env.openVolume ∨ efiError env.openVolume = false ∧
        (e = .call .openFile env.openFile ∨ efiError env.openFile = false ∧
          (e = .call .getInfo env.getInfo ∨ efiError env.getInfo = false ∧
            (e = .call (.allocatePages 0 env.filePageSize) env.bufferPages ∨
              efiError env.bufferPages = false ∧
                e = .call (.read env.bytesRead) env.read)))) := by
  unfold Xv6Env.loadFile
  simp only [mem_events_after, List.not_mem_nil, and_false, or_false]

theorem jump_mem_handover (env : Xv6Env) : .jump env.entryAddress ∈ env.handover := by
  unfold Xv6Env.handover
  simp

theorem read_mem_handover {n : ℕ} : .call (.read n) status ∈ env.handover ↔
    efiError env.locateProtocol = false ∧ efiError env.openVolume = false ∧
      efiError env.openFile = false ∧ efiError env.getInfo = false ∧
      efiError env.bufferPages = false ∧ n = env.bytesRead ∧ status = env.read := by
  unfold Xv6Env.handover
  simp [mem_events_loadFile]

theorem allocatePages_mem_handover : (∃ start pages, .call (.allocatePages start pages) status ∈
    env.handover) ↔ status = env.parameterPages ∨ (efiError env.locateProtocol = false ∧
      efiError env.openVolume = false ∧ efiError env.openFile = false ∧
      efiError env.getInfo = false ∧ status = env.bufferPages) ∨ status = env.kernelPages := by
  unfold Xv6Env.handover
  constructor
  · rintro ⟨start, pages, hmem⟩
    simp [mem_events_loadFile] at hmem
    tauto
  · rintro (rfl | ⟨hlocate, hvolume, hopen, hinfo, rfl⟩ | rfl)
    · exact ⟨_, _, List.mem_cons_self⟩
    · refine ⟨0, env.filePageSize, List.mem_append_left _ (List.mem_append_right _ ?_)⟩
      simp [mem_events_loadFile, hlocate, hvolume, hopen, hinfo]
    · exact ⟨_, _, List.mem_append_right _ List.mem_cons_self⟩

theorem exitBootServices_mem_handover {mapKey : UINTN} :
    .call (.exitBootServices mapKey) status ∈ env.handover ↔
      mapKey = env.secondMap.mapKey ∧ status = env.exitBootServices := by
  unfold Xv6Env.handover
  simp [mem_events_loadFile]

theorem completeKernel_iff (env : Xv6Env) :
    CompleteKernel env.file env.handover ↔ KernelAnswers env := by
  constructor
  · rintro ⟨⟨status, hread, hstatus⟩, hmagic, hpages, ⟨mapKey, status', hexit, hstatus'⟩⟩
    obtain ⟨hlocate, hvolume, hopen, hinfo, hbuffer, hbytes, rfl⟩ := read_mem_handover.mp hread
    obtain ⟨-, rfl⟩ := exitBootServices_mem_handover.mp hexit
    have hall : ∀ status, (∃ start pages, .call (.allocatePages start pages) status ∈
        env.handover) → efiError status = false :=
      fun status ⟨start, pages, hmem⟩ => hpages start pages status hmem
    exact ⟨hall _ (allocatePages_mem_handover.mpr (Or.inl rfl)), hlocate, hvolume, hopen, hinfo,
      hbuffer, hstatus, hbytes.symm, hmagic,
      hall _ (allocatePages_mem_handover.mpr (Or.inr (Or.inr rfl))), hstatus'⟩
  · intro h
    constructor
    case whole =>
      exact ⟨env.read, read_mem_handover.mpr ⟨h.locateProtocol, h.openVolume, h.openFile, h.getInfo,
        h.bufferPages, h.bytesRead.symm, rfl⟩, h.read⟩
    case magic => exact h.magic
    case pages =>
      intro start pages status hmem
      rcases allocatePages_mem_handover.mp ⟨start, pages, hmem⟩ with rfl | ⟨-, -, -, -, rfl⟩ | rfl
      · exact h.parameterPages
      · exact h.bufferPages
      · exact h.kernelPages
    case exit =>
      exact ⟨_, _, exitBootServices_mem_handover.mpr ⟨rfl, rfl⟩, h.exitBootServices⟩

end Handover

/-- The loader hands over complete kernels only, just when all that it does not check is fine: it
jumps after every run. -/
theorem handsOverComplete_iff (env : Xv6Env) : HandsOverComplete env ↔ KernelAnswers env := by
  rw [← completeKernel_iff]
  constructor
  · intro h
    exact h env.entryAddress (jump_mem_handover env)
  · intro h entry _
    exact h

/-- A firmware whose calls succeed, and a kernel file of zeroes. -/
def zeroKernel : Xv6Env where
  lib := baseMemoryLib
  memory := fun _ => 0
  stack := ⟨0, 0⟩
  parameterPages := EFI_SUCCESS
  locateProtocol := EFI_SUCCESS
  openVolume := EFI_SUCCESS
  openFile := EFI_SUCCESS
  getInfo := EFI_SUCCESS
  bufferPages := EFI_SUCCESS
  bufferAddress := 0x100000
  read := EFI_SUCCESS
  file := List.replicate 52 0
  bytesRead := 52
  bytesRead_le := by decide
  kernelPages := EFI_SUCCESS
  firstMap := ⟨EFI_SUCCESS, 48, 1⟩
  allocatePool := EFI_SUCCESS
  secondMap := ⟨EFI_SUCCESS, 48, 2⟩
  exitBootServices := EFI_SUCCESS

/-- It is handed over to, although it is no ELF file. -/
theorem not_handsOverComplete_zeroKernel : ¬ HandsOverComplete zeroKernel := by
  intro h
  have hmagic := (h zeroKernel.entryAddress (jump_mem_handover zeroKernel)).magic
  unfold HasMagic at hmagic
  revert hmagic
  decide +kernel

end UefiGame
