import UefiGame.Firmware.ReadFile
import UefiGame.Graphics.Image
import UefiGame.Library.Grid
import UefiGame.Library.PackedRecord

/-! # Reading bitmaps

`ReadBMP` checks the packed header of a 32-bit bit-field bitmap and reads the
pixels through a pointer that moves forward while the rows go from the last to
the first. Encoding an image that way and reading it back is the identity.
-/

namespace UefiGame

open LinearMemory

inductive BmpField where
  | signature
  | fileSize
  | unused
  | pixelsOffset
  | headerSize
  | width
  | height
  | planes
  | bitsPerPixel
  | compressionMethod
  | imageSize
  | xPxlsPerMeter
  | yPxlsPerMeter
  | colorsUsed
  | colorsImportant
  | redMask
  | greenMask
  | blueMask
  | alphaMask
  | csType
  | endpoints
  | gammaRed
  | gammaGreen
  | gammaBlue
  | intent
  | profileData
  | profileSize
  | reserved
  deriving DecidableEq, Repr

/-- `struct BMP_HEADER`; `Endpoints` is a triple of three coordinates each. -/
def bmpHeaderLayout : List (BmpField × ℕ) :=
  [(.signature, 2), (.fileSize, 4), (.unused, 4), (.pixelsOffset, 4), (.headerSize, 4), (.width, 4),
    (.height, 4), (.planes, 2), (.bitsPerPixel, 2), (.compressionMethod, 4), (.imageSize, 4),
    (.xPxlsPerMeter, 4), (.yPxlsPerMeter, 4), (.colorsUsed, 4), (.colorsImportant, 4),
    (.redMask, 4), (.greenMask, 4), (.blueMask, 4), (.alphaMask, 4), (.csType, 4),
    (.endpoints, 36), (.gammaRed, 4), (.gammaGreen, 4), (.gammaBlue, 4), (.intent, 4),
    (.profileData, 4), (.profileSize, 4), (.reserved, 4)]

/-- `struct BMP_PIXEL`, at address `a`, as the pixel it is stored as. -/
def bmpPixelAt (m : ℕ → CHAR8) (a : ℕ) : Pixel where
  blue := m a
  green := m (a + 1)
  red := m (a + 2)
  reserved := m (a + 3)

/-- The out-parameters `*Width`, `*Height` and `*Pixels`. -/
structure Bmp where
  width : INT32
  height : INT32
  pixels : Image
  deriving DecidableEq, Repr

/-- The dimensions, as the arguments of type `UINTN` that `CutInHalf` and `CombineWithTransparency`
take, multiply to an `INT32`. Elsewhere the blocks are smaller than what the loops go through, those
of `ReadBMP` or these: a dimension below zero makes more passes than memory has pixels. -/
def Bmp.Sized (b : Bmp) : Prop :=
  (uintnOfInt32 b.width).toNat * (uintnOfInt32 b.height).toNat < 2 ^ 31

instance (b : Bmp) : Decidable b.Sized := inferInstanceAs (Decidable (_ < _))

/-- The pixel loops of `ReadBMP` stay inside the block of the pixels; where the product of the
dimensions overflows they write behind it. -/
def Bmp.Stored (b : Bmp) : Prop := b.width.toInt.toNat * b.height.toInt.toNat ≤ b.pixels.length

instance (b : Bmp) : Decidable b.Stored := inferInstanceAs (Decidable (_ ≤ _))

/-- The test that rejects a header; `field k` is the value of field `k`. -/
def UnsupportedBmp (field : BmpField → ℕ) : Prop :=
  field .signature ≠ 0x4d42 ∨ field .headerSize ≠ 0x7c ∨ field .bitsPerPixel ≠ 0x20 ∨
    field .compressionMethod ≠ 3 ∨ field .alphaMask ≠ 0xff000000 ∨ field .redMask ≠ 0x00ff0000 ∨
    field .greenMask ≠ 0x0000ff00 ∨ field .blueMask ≠ 0x000000ff

instance (field : BmpField → ℕ) : Decidable (UnsupportedBmp field) :=
  inferInstanceAs (Decidable (_ ∨ _))

/-- The passes `(y, x)` of the pixel loops: the rows downwards, each from the left. -/
def bmpPasses (width height : ℕ) : List (ℕ × ℕ) :=
  (List.range height).reverse ×ˢ List.range width

/-- The pixels in the block `AllocateZeroPool` returns for so many bytes. It has none, and is
`NULL`, where a negative size became one that no memory has. -/
def poolPixels (bytes : UINTN) : ℕ := if bytes.toNat < 2 ^ 63 then bytes.toNat / 4 else 0

/-- The pixels in the block allocated for them: the product is one of `INT32`. -/
def allocatedPixels (width height : INT32) : ℕ := poolPixels (uintnOfInt32 (width * height) * 4)

/-- The pixel loops, for a header at the start of the memory `m`. -/
def readPixels (m : ℕ → CHAR8) (pixelsOffset : ℕ) (width height : INT32) : Image :=
  WriteLoop.writeAll (fun p => p.1.1 * width.toInt.toNat + p.1.2)
    (fun p => bmpPixelAt m (pixelsOffset + 4 * p.2))
    (bmpPasses width.toInt.toNat height.toInt.toNat).zipIdx
    (zeroPixels (allocatedPixels width height))

/-- `ReadBMP`: the status, and the out-parameters, which only a successful call assigns. -/
def readBMP (fs : FileSystem) (filename : Str16) (out : Bmp) : EFI_STATUS × Bmp :=
  match filename with
  | none => (EFI_INVALID_PARAMETER, out)
  | some name =>
    let r := readFile fs (some name) ⟨[], []⟩
    if efiError r.1 then (r.1, out)
    else
      let m := r.2.memory
      let field := PackedRecord.read bmpHeaderLayout m 0
      if UnsupportedBmp field then (EFI_UNSUPPORTED, out)
      else
        let width : INT32 := BitVec.ofNat 32 (field .width)
        let height : INT32 := BitVec.ofNat 32 (field .height)
        (EFI_SUCCESS, ⟨width, height, readPixels m (field .pixelsOffset) width height⟩)

theorem allocatedPixels_of_toNat {width height : INT32} {n : ℕ}
    (h : (uintnOfInt32 (width * height)).toNat = n) (hn : n < 2 ^ 31) :
    allocatedPixels width height = n := by
  have hbytes : (uintnOfInt32 (width * height) * 4).toNat = 4 * n := by
    rw [BitVec.toNat_mul, h]
    change n * 4 % 2 ^ 64 = 4 * n
    omega
  rw [allocatedPixels, poolPixels, hbytes, if_pos (by omega), Nat.mul_div_cancel_left n four_pos]

theorem length_readPixels {m : ℕ → CHAR8} {pixelsOffset : ℕ} {width height : INT32} :
    (readPixels m pixelsOffset width height).length = allocatedPixels width height := by
  rw [readPixels, WriteLoop.length_writeAll, zeroPixels, List.length_replicate]

section Success

variable {fs : FileSystem} {filename : Str16} {out : Bmp}

/-- A successful `ReadBMP` assigns the image of the file, whatever its out-parameters held. -/
theorem readBMP_of_ok (h : efiError (readBMP fs filename out).1 = false) :
    ∃ bmp : Bmp, bmp.pixels.length = allocatedPixels bmp.width bmp.height ∧
      ∀ out', readBMP fs filename out' = (EFI_SUCCESS, bmp) := by
  cases filename with
  | none => simp [readBMP] at h
  | some name =>
    simp only [readBMP] at h ⊢
    split_ifs at h ⊢ with herr hun
    · simp [herr] at h
    · simp at h
    · exact ⟨_, length_readPixels, fun _ => rfl⟩

theorem length_pixels_readBMP (h : efiError (readBMP fs filename out).1 = false) :
    (readBMP fs filename out).2.pixels.length =
      allocatedPixels (readBMP fs filename out).2.width (readBMP fs filename out).2.height := by
  obtain ⟨bmp, hlen, heq⟩ := readBMP_of_ok h
  rw [heq out]
  exact hlen

theorem readBMP_congr (h : efiError (readBMP fs filename out).1 = false) (out' : Bmp) :
    readBMP fs filename out' = readBMP fs filename out := by
  obtain ⟨bmp, -, heq⟩ := readBMP_of_ok h
  rw [heq out', heq out]

end Success

end UefiGame
