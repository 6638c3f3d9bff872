import UefiGame.Firmware.ReadFile

/-! # The boot configuration parser

`ParseConfigFile` makes two passes over the file. The first counts the entries,
the second is a byte-at-a-time scanner that counts the characters of the value
it is in and copies them back out of the buffer when the line ends.
-/

namespace UefiGame

/-- `BOOT_ENTRY`. -/
structure BootEntry where
  title : Str16
  volumeGuid : Str16
  loaderName : Str16
  icon : Str16
  options : Str16
  deriving DecidableEq, Repr

/-- A zeroed `BOOT_ENTRY`. -/
def BootEntry.zero : BootEntry := ⟨none, none, none, none, none⟩

def newline : CHAR8 := 10
def space : CHAR8 := 32
def colon : CHAR8 := 58

/-- `AsciiStrToUnicodeStrS(Source, Destination, DestMax)`, a library function of the firmware kit:
from the block at `Source` and `DestMax`, the status and the string left at `Destination`. -/
abbrev AsciiStrToUnicodeStrS := List CHAR8 → ℕ → EFI_STATUS × List CHAR16

/-- The check of `DestMax` against the maximal string length that the kit is configured with; 0
stands for none. -/
def KitAllows (max destMax : ℕ) : Prop := max = 0 ∨ destMax ≤ max

theorem KitAllows.mono {max n k : ℕ} (h : KitAllows max n) (hle : k ≤ n) : KitAllows max k :=
  h.imp_right hle.trans

/-- What the kit documents for `AsciiStrToUnicodeStrS`: a NUL-terminated ASCII string that fits is
copied, each character widened. -/
def AsciiStrToUnicodeStrS.Documented (convert : AsciiStrToUnicodeStrS) (max : ℕ) : Prop :=
  ∀ s destMax, (∀ c ∈ s, c ≠ 0 ∧ c.toNat < 128) → s.length < destMax → KitAllows max destMax →
    convert (s ++ [0]) destMax = (EFI_SUCCESS, s.map (BitVec.setWidth 16))

/-- The function of the firmware kit, on NUL-terminated strings, no maximal length configured. -/
def asciiStrToUnicodeStrS : AsciiStrToUnicodeStrS := fun source destMax =>
  let s := source.takeWhile fun c => c ≠ 0
  if s.length < destMax then (EFI_SUCCESS, s.map (BitVec.setWidth 16))
  else (EFI_INVALID_PARAMETER, [])

theorem asciiStrToUnicodeStrS_documented : asciiStrToUnicodeStrS.Documented 0 := by
  intro s destMax hs hlt _
  have htake : (s ++ [0]).takeWhile (fun c => c ≠ 0) = s := by
    rw [List.takeWhile_append_of_pos fun c hc => by simpa using (hs c hc).1]
    simp
  simp only [asciiStrToUnicodeStrS, htake, if_pos hlt]

/-- The counting pass: `prev` and `*result_size`. -/
def countStep (s : CHAR8 × ℕ) (cur : CHAR8) : CHAR8 × ℕ :=
  (cur, if cur = newline ∧ s.1 = newline then s.2 + 1 else s.2)

def resultSize (fileData : List CHAR8) : ℕ := (fileData.foldl countStep (0, 1)).2

/-- The locals of the second pass, with the status and the entries written so far. -/
structure ConfigScan where
  prev : CHAR8
  curStruct : ℕ
  curValue : ℕ
  curChar : ℕ
  write : Bool
  status : EFI_STATUS
  result : List BootEntry
  deriving DecidableEq, Repr

/-- The switch on `cur_value`: further lines of a block are dropped. -/
def BootEntry.setField (dest : List CHAR16) : ℕ → BootEntry → BootEntry
  | 0, e => { e with title := some dest }
  | 1, e => { e with volumeGuid := some dest }
  | 2, e => { e with loaderName := some dest }
  | 3, e => { e with icon := some dest }
  | 4, e => { e with options := some dest }
  | _, e => e

/-- The copy loop `cur_elem[j] = FileData[i - cur_char + j]`. -/
def copyBack (fileData : List CHAR8) (i curChar : ℕ) : List CHAR8 :=
  (List.range curChar).map fun j => fileData[i - curChar + j]?.getD 0

/-- The second branch of the scanner: a line that is not blank ends at offset `i`. -/
def flushLine (convert : AsciiStrToUnicodeStrS) (fileData : List CHAR8) (i : ℕ) (s : ConfigScan) :
    ConfigScan :=
  let r := convert (copyBack fileData i s.curChar ++ [0]) (s.curChar + 1)
  { s with
    write := false
    status := r.1
    curChar := 0
    result := s.result.modify s.curStruct (BootEntry.setField r.2 s.curValue)
    curValue := s.curValue + 1 }

/-- One pass of the scanner, on the byte `c.1` at offset `c.2`. -/
def configStep (convert : AsciiStrToUnicodeStrS) (fileData : List CHAR8) (s : ConfigScan)
    (c : CHAR8 × ℕ) : ConfigScan :=
  let s' :=
    if c.1 = newline ∧ s.prev = newline then
      { s with curStruct := s.curStruct + 1, curValue := 0 }
    else if c.1 = newline then flushLine convert fileData c.2 s
    else if c.1 = space ∧ s.prev = colon then { s with write := true }
    else if s.write then { s with curChar := s.curChar + 1 }
    else s
  { s' with prev := c.1 }

/-- The locals on entry to the second pass, with `*result` freshly allocated and zeroed. -/
def ConfigScan.start (size : ℕ) : ConfigScan where
  prev := 0
  curStruct := 0
  curValue := 0
  curChar := 0
  write := false
  status := EFI_SUCCESS
  result := List.replicate size BootEntry.zero

/-- Both passes over the bytes of the file: the final locals of the scanner. -/
def scanConfig (convert : AsciiStrToUnicodeStrS) (fileData : List CHAR8) : ConfigScan :=
  fileData.zipIdx.foldl (configStep convert fileData) (ConfigScan.start (resultSize fileData))

/-- The return value of `ParseConfigFile` and its out-parameters. -/
structure ConfigResult where
  status : EFI_STATUS
  result : List BootEntry
  resultSize : ℕ
  deriving DecidableEq, Repr

/-- `ParseConfigFile`. The status of `ReadFile` is ignored: after a failed call the locals
`FileData` and `length` designate whatever `garbage` they held. -/
def parseConfigFile (convert : AsciiStrToUnicodeStrS) (fs : FileSystem) (filename : Str16)
    (garbage : FileBuffer) : ConfigResult :=
  let fileData := (readFile fs filename garbage).2.bytes
  let s := scanConfig convert fileData
  { status := s.status, result := s.result, resultSize := resultSize fileData }

end UefiGame
