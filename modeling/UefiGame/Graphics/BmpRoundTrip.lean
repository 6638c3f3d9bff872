import UefiGame.Graphics.Bmp

/-! # Bitmap round trip

An image written as a bottom-up bitmap with the header fields `ReadBMP` checks
is read back pixel by pixel. The other header fields and the bytes between the
header and the pixels are arbitrary.
-/

namespace UefiGame

open LinearMemory

def pixelBytes (p : Pixel) : List CHAR8 := [p.blue, p.green, p.red, p.reserved]

@[simp] theorem length_pixelBytes (p : Pixel) : (pixelBytes p).length = 4 := rfl

/-- The pixel data of an image whose pixel in column `x` and row `y` is `px x y`. -/
def bmpPixelData (px : ℕ → ℕ → Pixel) (w h : ℕ) : List CHAR8 :=
  (List.range h).reverse.flatMap fun y => (List.range w).flatMap fun x => pixelBytes (px x y)

/-- The file with the header fields `v`, the bytes `gap` after the header, and the pixel data. -/
def encodeBmp (v : BmpField → ℕ) (gap : List CHAR8) (px : ℕ → ℕ → Pixel) (w h : ℕ) : List CHAR8 :=
  PackedRecord.encode bmpHeaderLayout v ++ gap ++ bmpPixelData px w h

/-- The header fields are supported and describe a `w` by `h` image `gap` bytes behind them. -/
structure Describes (v : BmpField → ℕ) (gap : List CHAR8) (w h : ℕ) : Prop where
  supported : ¬ UnsupportedBmp v
  width : v .width = w
  height : v .height = h
  pixelsOffset : v .pixelsOffset = 138 + gap.length
  offset_lt : 138 + gap.length < 2 ^ 32

section RoundTrip

variable {m : ℕ → CHAR8} {v : BmpField → ℕ} {gap : List CHAR8} {px : ℕ → ℕ → Pixel} {w h x y : ℕ}

theorem bmpPixelData_eq :
    bmpPixelData px w h = (bmpPasses w h).flatMap fun p => pixelBytes (px p.2 p.1) := by
  change _ = ((List.range h).reverse.flatMap fun y => (List.range w).map (Prod.mk y)).flatMap _
  simp only [bmpPixelData, List.flatMap_assoc, List.flatMap_map]

theorem mem_bmpPasses : (y, x) ∈ bmpPasses w h ↔ y < h ∧ x < w := by
  rw [bmpPasses, List.mem_product, List.mem_reverse, List.mem_range, List.mem_range]

theorem nodup_bmpPasses (w h : ℕ) : (bmpPasses w h).Nodup :=
  (List.nodup_reverse.mpr List.nodup_range).product List.nodup_range

theorem bmpPixelAt_of_holds {a : ℕ} {p : Pixel} (hp : Holds m a (pixelBytes p)) :
    bmpPixelAt m a = p := by
  have h₀ := hp 0 p.blue rfl
  have h₁ := hp 1 p.green rfl
  have h₂ := hp 2 p.red rfl
  have h₃ := hp 3 p.reserved rfl
  rw [Nat.add_zero] at h₀
  rw [bmpPixelAt, h₀, h₁, h₂, h₃]

theorem toInt_ofNat (hw : w < 2 ^ 31) : (BitVec.ofNat 32 w).toInt = w := by
  have hnat : (BitVec.ofNat 32 w).toNat = w := Nat.mod_eq_of_lt (by omega)
  rw [BitVec.toInt_eq_toNat_of_lt (by omega), hnat]

/-- With dimensions that multiply to less than `2 ^ 29`, the `INT32` arithmetic is exact. -/
theorem allocatedPixels_ofNat (hsize : 4 * w * h < 2 ^ 31) :
    allocatedPixels (BitVec.ofNat 32 w) (BitVec.ofNat 32 h) = w * h := by
  have hprod : w * h < 2 ^ 29 := by rw [Nat.mul_assoc] at hsize; omega
  have hmul : BitVec.ofNat 32 w * BitVec.ofNat 32 h = BitVec.ofNat 32 (w * h) :=
    (BitVec.ofNat_mul ..).symm
  have hnat : (BitVec.ofNat 32 (w * h)).toNat = w * h := Nat.mod_eq_of_lt (by omega)
  have hext : (uintnOfInt32 (BitVec.ofNat 32 (w * h))).toNat = w * h := by
    rw [uintnOfInt32, BitVec.signExtend_eq_setWidth_of_msb_false, BitVec.toNat_setWidth, hnat,
      Nat.mod_eq_of_lt (by omega)]
    rw [BitVec.msb_eq_false_iff_two_mul_lt, hnat]
    omega
  exact allocatedPixels_of_toNat (by rw [hmul, hext]) (by omega)

theorem getElem?_readPixels {offset : ℕ} (hw : w < 2 ^ 31) (hh : h < 2 ^ 31)
    (hsize : 4 * w * h < 2 ^ 31) (hm : Holds m offset (bmpPixelData px w h)) (hx : x < w)
    (hy : y < h) :
    (readPixels m offset (BitVec.ofNat 32 w) (BitVec.ofNat 32 h))[Grid.rowMajor w x y]? =
      some (px x y) := by
  obtain ⟨k, hk⟩ := List.mem_iff_getElem?.mp (mem_bmpPasses.mpr ⟨hy, hx⟩)
  have hmem : ((y, x), k) ∈ (bmpPasses w h).zipIdx := List.mem_zipIdx_iff_getElem?.mpr hk
  have hpixel : bmpPixelAt m (offset + 4 * k) = px x y := by
    rw [bmpPixelData_eq] at hm
    have hp := holds_flatMap (fun _ _ => length_pixelBytes _) hm hk
    exact bmpPixelAt_of_holds hp
  have hnodup : ((bmpPasses w h).zipIdx.map fun p => p.1.1 * w + p.1.2).Nodup := by
    have hfst : (bmpPasses w h).zipIdx.map (fun p => p.1.1 * w + p.1.2) =
        (bmpPasses w h).map fun p => Grid.rowMajor w p.2 p.1 := by
      rw [← List.zipIdx_map_fst 0 (bmpPasses w h), List.map_map, List.zipIdx_map_fst]
      rfl
    rw [hfst]
    refine (nodup_bmpPasses w h).map_on ?_
    rintro ⟨y₁, x₁⟩ h₁ ⟨y₂, x₂⟩ h₂ he
    obtain ⟨hxe, hye⟩ :=
      (Grid.rowMajor_inj (mem_bmpPasses.mp h₁).2 (mem_bmpPasses.mp h₂).2).mp he
    exact Prod.ext_iff.mpr ⟨hye, hxe⟩
  have hlt : Grid.rowMajor w x y < w * h := Grid.rowMajor_lt hx hy
  rw [readPixels, toInt_ofNat hw, toInt_ofNat hh, Int.toNat_natCast, Int.toNat_natCast]
  have hwrite := WriteLoop.getElem?_writeAll_of_mem
    (fun p => bmpPixelAt m (offset + 4 * p.2))
    (zeroPixels (allocatedPixels (BitVec.ofNat 32 w) (BitVec.ofNat 32 h))) hnodup hmem
    (by rw [zeroPixels, List.length_replicate, allocatedPixels_ofNat hsize]; exact hlt)
  rw [hpixel] at hwrite
  exact hwrite

theorem read_encodeBmp {b : FileBuffer} (hb : b.bytes = encodeBmp v gap px w h) (k : BmpField) :
    PackedRecord.read bmpHeaderLayout b.memory 0 k =
      v k % 256 ^ PackedRecord.width bmpHeaderLayout k := by
  have hbytes := b.holds_bytes
  rw [hb, encodeBmp, holds_append, holds_append] at hbytes
  exact PackedRecord.read_of_holds (by cases k <;> decide) hbytes.1.1

theorem holds_pixelData {b : FileBuffer} (hb : b.bytes = encodeBmp v gap px w h) :
    Holds b.memory (138 + gap.length) (bmpPixelData px w h) := by
  have hbytes := b.holds_bytes
  rw [hb, encodeBmp, holds_append, List.length_append, PackedRecord.length_encode] at hbytes
  have hsize : PackedRecord.size bmpHeaderLayout = 138 := by decide
  rw [hsize, Nat.zero_add] at hbytes
  exact hbytes.2

theorem not_unsupportedBmp_read {b : FileBuffer} (hb : b.bytes = encodeBmp v gap px w h)
    (hv : ¬ UnsupportedBmp v) :
    ¬ UnsupportedBmp (PackedRecord.read bmpHeaderLayout b.memory 0) := by
  simp only [UnsupportedBmp, not_or, not_not] at hv ⊢
  obtain ⟨hsig, hhead, hbits, hcomp, halpha, hred, hgreen, hblue⟩ := hv
  simp only [read_encodeBmp hb, hsig, hhead, hbits, hcomp, halpha, hred, hgreen, hblue]
  decide

end RoundTrip

/-- Encoding an image as a supported bitmap and reading it gives the image back. -/
theorem readBMP_encodeBmp {w h : ℕ} (hw : 1 ≤ w) (hh : 1 ≤ h) (hsize : 4 * w * h < 2 ^ 31)
    (px : ℕ → ℕ → Pixel) {v : BmpField → ℕ} {gap : List CHAR8} (hv : Describes v gap w h)
    {fs : FileSystem} {filename : List CHAR16}
    (hread : Reads fs filename (encodeBmp v gap px w h)) (out : Bmp) :
    ∃ bmp, readBMP fs (some filename) out = (EFI_SUCCESS, bmp) ∧
      bmp.width.toInt = w ∧ bmp.height.toInt = h ∧ bmp.pixels.length = w * h ∧
      ∀ x < w, ∀ y < h, bmp.pixels[Grid.rowMajor w x y]? = some (px x y) := by
  have hwlt : w < 2 ^ 31 := by
    have hle : w ≤ w * h := Nat.le_mul_of_pos_right w hh
    rw [Nat.mul_assoc] at hsize
    omega
  have hhlt : h < 2 ^ 31 := by
    have hle : h ≤ w * h := Nat.le_mul_of_pos_left h hw
    rw [Nat.mul_assoc] at hsize
    omega
  have hb : (fs filename).buffer.bytes = encodeBmp v gap px w h := hread.bytes_eq
  have hwidth : PackedRecord.read bmpHeaderLayout (fs filename).buffer.memory 0 .width = w := by
    rw [read_encodeBmp hb, hv.width]
    exact Nat.mod_eq_of_lt (by change w < 2 ^ 32; omega)
  have hheight : PackedRecord.read bmpHeaderLayout (fs filename).buffer.memory 0 .height = h := by
    rw [read_encodeBmp hb, hv.height]
    exact Nat.mod_eq_of_lt (by change h < 2 ^ 32; omega)
  have hoffset : PackedRecord.read bmpHeaderLayout (fs filename).buffer.memory 0 .pixelsOffset =
      138 + gap.length := by
    rw [read_encodeBmp hb, hv.pixelsOffset]
    exact Nat.mod_eq_of_lt hv.offset_lt
  refine ⟨⟨BitVec.ofNat 32 w, BitVec.ofNat 32 h, readPixels (fs filename).buffer.memory
    (138 + gap.length) (BitVec.ofNat 32 w) (BitVec.ofNat 32 h)⟩, ?_, toInt_ofNat hwlt,
    toInt_ofNat hhlt, (length_readPixels.trans (allocatedPixels_ofNat hsize)), ?_⟩
  · simp only [readBMP, hread.readFile_eq, hread.read, Bool.false_eq_true, if_false,
      if_neg (not_unsupportedBmp_read hb hv.supported), hwidth, hheight, hoffset]
  · intro x hx y hy
    exact getElem?_readPixels hwlt hhlt hsize (holds_pixelData hb) hx hy

/-- The header fields of a bitmap; the unchecked ones are zero. -/
def bmpFields (w h gap : ℕ) : BmpField → ℕ
  | .signature => 0x4d42
  | .pixelsOffset => 138 + gap
  | .headerSize => 0x7c
  | .width => w
  | .height => h
  | .bitsPerPixel => 0x20
  | .compressionMethod => 3
  | .redMask => 0x00ff0000
  | .greenMask => 0x0000ff00
  | .blueMask => 0x000000ff
  | .alphaMask => 0xff000000
  | _ => 0

theorem describes_bmpFields {w h : ℕ} (gap : List CHAR8) (hgap : 138 + gap.length < 2 ^ 32) :
    Describes (bmpFields w h gap.length) gap w h where
  supported := by simp [UnsupportedBmp, bmpFields]
  width := rfl
  height := rfl
  pixelsOffset := rfl
  offset_lt := hgap

/-- Pixels that tell their position. -/
def samplePixels (x y : ℕ) : Pixel := ⟨BitVec.ofNat 8 x, 5, BitVec.ofNat 8 y, 255⟩

theorem readBMP_encodeBmp_sample :
    ∃ bmp, readBMP (fun _ => FileIo.ofBytes
        (encodeBmp (bmpFields 3 2 3) [1, 2, 3] samplePixels 3 2) [] (by decide +kernel))
        (some []) ⟨0, 0, []⟩ = (EFI_SUCCESS, bmp) ∧
      bmp.width.toInt = (3 : ℕ) ∧ bmp.height.toInt = (2 : ℕ) ∧ bmp.pixels.length = 3 * 2 ∧
      ∀ x < 3, ∀ y < 2, bmp.pixels[Grid.rowMajor 3 x y]? = some (samplePixels x y) :=
  readBMP_encodeBmp (by decide) (by decide) (by decide) samplePixels
    (describes_bmpFields [1, 2, 3] (by decide)) Reads.ofBytes ⟨0, 0, []⟩

end UefiGame
