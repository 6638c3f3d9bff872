import UefiGame.Firmware.Types
import UefiGame.Library.LinearMemory

/-! # Reading a whole file

`ReadFile` opens a file through the firmware, allocates a zeroed pool block of
the reported size and reads into it. The firmware's answers for one file are a
`FileIo`; the out-parameters are passed in and returned, so that a failed call
visibly leaves them as they were.
-/

namespace UefiGame

/-- The block `*Data` points to: the `*Size` bytes read, and the memory after them. -/
structure FileBuffer where
  bytes : List CHAR8
  beyond : List CHAR8
  deriving DecidableEq

/-- The bytes reached from the pointer `*Data`. -/
def FileBuffer.memory (b : FileBuffer) (i : ℕ) : CHAR8 := (b.bytes ++ b.beyond)[i]?.getD 0

theorem FileBuffer.holds_bytes (b : FileBuffer) : LinearMemory.Holds b.memory 0 b.bytes := by
  intro j c hj
  have hlt := (List.getElem?_eq_some_iff.mp hj).1
  rw [FileBuffer.memory, Nat.zero_add, List.getElem?_append_left hlt, hj]
  rfl

/-- The answers of the firmware calls made to read one file. -/
structure FileIo where
  handleProtocol : EFI_STATUS
  openVolume : EFI_STATUS
  openFile : EFI_STATUS
  fileSize : ℕ
  read : EFI_STATUS
  content : List CHAR8
  heap : List CHAR8
  content_le : content.length ≤ fileSize
  fileSize_lt : fileSize < 2 ^ 64

namespace FileIo

/-- What `*Data` and `*Size` designate after `File->Read`: a short read leaves zeroes behind it. -/
def buffer (io : FileIo) : FileBuffer where
  bytes := io.content
  beyond := List.replicate (io.fileSize - io.content.length) 0 ++ io.heap

/-- A file all of whose calls succeed and whose content is read in full. -/
def ofBytes (c heap : List CHAR8) (h : c.length < 2 ^ 64) : FileIo where
  handleProtocol := EFI_SUCCESS
  openVolume := EFI_SUCCESS
  openFile := EFI_SUCCESS
  fileSize := c.length
  read := EFI_SUCCESS
  content := c
  heap := heap
  content_le := le_rfl
  fileSize_lt := h

theorem length_content_lt (io : FileIo) : io.content.length < 2 ^ 64 :=
  lt_of_le_of_lt io.content_le io.fileSize_lt

end FileIo

/-- A partition: what reading each file name gives. -/
abbrev FileSystem := List CHAR16 → FileIo

/-- `ReadFile`: the status, and the out-parameters `*Data` and `*Size` after the call. -/
def readFile (fs : FileSystem) (filename : Str16) (out : FileBuffer) :
    EFI_STATUS × FileBuffer :=
  match filename with
  | none => (EFI_INVALID_PARAMETER, out)
  | some name =>
    let io := fs name
    if efiError io.handleProtocol then (io.handleProtocol, out)
    else if efiError io.openVolume then (io.openVolume, out)
    else if efiError io.openFile then (io.openFile, out)
    else (io.read, io.buffer)

/-- The file `name` opens and its whole content is read without an error. -/
structure Reads (fs : FileSystem) (name : List CHAR16) (c : List CHAR8) : Prop where
  handleProtocol : efiError (fs name).handleProtocol = false
  openVolume : efiError (fs name).openVolume = false
  openFile : efiError (fs name).openFile = false
  read : efiError (fs name).read = false
  content : (fs name).content = c

namespace Reads

variable {fs : FileSystem} {name : List CHAR16} {c : List CHAR8}

theorem ofBytes {heap : List CHAR8} {h : c.length < 2 ^ 64} :
    Reads (fun _ => FileIo.ofBytes c heap h) name c := by
  constructor <;> simp [FileIo.ofBytes]

theorem length_lt (r : Reads fs name c) : c.length < 2 ^ 64 :=
  r.content ▸ (fs name).length_content_lt

theorem readFile_eq (r : Reads fs name c) (out : FileBuffer) :
    readFile fs (some name) out = ((fs name).read, (fs name).buffer) := by
  simp [readFile, r.handleProtocol, r.openVolume, r.openFile]

theorem bytes_eq (r : Reads fs name c) : (fs name).buffer.bytes = c := r.content

end Reads

end UefiGame
