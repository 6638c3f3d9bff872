import UefiGame.Firmware.Types
import UefiGame.Library.Grid
import UefiGame.Library.WriteLoop

/-! # Pixel images

An image is the flat block of its pixels. `CutInHalf` keeps every second pixel
of every second row, and `CombineWithTransparency` lays one image over another
wherever the upper one is opaque.
-/

namespace UefiGame

/-- `EFI_GRAPHICS_OUTPUT_BLT_PIXEL`. -/
structure Pixel where
  blue : UINT8
  green : UINT8
  red : UINT8
  reserved : UINT8
  deriving DecidableEq, Repr

/-- A zeroed pixel, fully transparent. -/
def Pixel.zero : Pixel := ⟨0, 0, 0, 0⟩

/-- A block of pixels. -/
abbrev Image := List Pixel

/-- `Image[i]`; the value of a read outside the block is immaterial. -/
def Image.at (image : Image) (i : ℕ) : Pixel := image[i]?.getD Pixel.zero

/-- `AllocateZeroPool` for `n` pixels. -/
def zeroPixels (n : ℕ) : Image := List.replicate n Pixel.zero

/-- The passes `(i, j)` of the loops of `CutInHalf` that store a pixel. -/
def cutPasses (width height : ℕ) : List (ℕ × ℕ) :=
  (List.range height ×ˢ List.range width).filter fun p => p.1 % 2 = 0 ∧ p.2 % 2 = 0

/-- `CutInHalf`. -/
def cutInHalf (image : Image) (width height : ℕ) : Image :=
  let newWidth := width / 2
  let newHeight := height / 2
  WriteLoop.writeAll (fun p => p.1 / 2 * newWidth + p.2 / 2) (fun p => image.at (p.1 * width + p.2))
    (cutPasses width height) (zeroPixels (newWidth * newHeight))

/-- What `CombineWithTransparency` stores at offset `i`. -/
def combinedPixel (foreground background : Image) (i : ℕ) : Pixel :=
  if (foreground.at i).reserved ≠ 0xff then background.at i else foreground.at i

/-- `CombineWithTransparency`. -/
def combineWithTransparency (foreground background : Image) (width height : ℕ) : Image :=
  WriteLoop.writeAll (fun p => p.1 * width + p.2)
    (fun p => combinedPixel foreground background (p.1 * width + p.2))
    (List.range height ×ˢ List.range width) (zeroPixels (width * height))

@[simp] theorem length_cutInHalf {image : Image} {width height : ℕ} :
    (cutInHalf image width height).length = width / 2 * (height / 2) := by
  rw [cutInHalf, WriteLoop.length_writeAll, zeroPixels, List.length_replicate]

section Composite

variable {foreground background : Image} {width height : ℕ}

@[simp] theorem length_combineWithTransparency :
    (combineWithTransparency foreground background width height).length = width * height := by
  rw [combineWithTransparency, WriteLoop.length_writeAll, zeroPixels, List.length_replicate]

theorem getElem?_combineWithTransparency {i : ℕ} (hi : i < width * height) :
    (combineWithTransparency foreground background width height)[i]? =
      some (combinedPixel foreground background i) := by
  have hmem : ∀ p : ℕ × ℕ,
      p ∈ List.range height ×ˢ List.range width ↔ p.1 < height ∧ p.2 < width := by
    simp
  have hw : 0 < width := Nat.pos_of_mul_pos_right (Nat.zero_lt_of_lt hi)
  apply WriteLoop.getElem?_writeAll_map
  · apply List.Nodup.map_on
    · rintro ⟨y, x⟩ hp ⟨y', x'⟩ hq he
      obtain ⟨hx, hy⟩ := (Grid.rowMajor_inj ((hmem _).mp hp).2 ((hmem _).mp hq).2).mp he
      exact Prod.ext_iff.mpr ⟨hy, hx⟩
    · exact List.nodup_range.product List.nodup_range
  · intro p hp
    rw [zeroPixels, List.length_replicate]
    exact Grid.rowMajor_lt ((hmem p).mp hp).2 ((hmem p).mp hp).1
  · exact fun _ _ => rfl
  · intro j hj
    rw [zeroPixels, List.length_replicate] at hj
    have hy := Nat.div_lt_of_lt_mul hj
    exact ⟨(j / width, j % width), (hmem _).mpr ⟨hy, Nat.mod_lt j hw⟩,
      Grid.rowMajor_mod_div j width⟩
  · rwa [zeroPixels, List.length_replicate]

theorem at_combineWithTransparency {i : ℕ} (hi : i < width * height) :
    (combineWithTransparency foreground background width height).at i =
      combinedPixel foreground background i := by
  rw [Image.at, getElem?_combineWithTransparency hi, Option.getD_some]

end Composite

section Half

variable {image : Image} {width height x y : ℕ}

theorem mem_cutPasses {p : ℕ × ℕ} : p ∈ cutPasses width height ↔
    (p.1 < height ∧ p.2 < width) ∧ p.1 % 2 = 0 ∧ p.2 % 2 = 0 := by
  rw [cutPasses, List.mem_filter, decide_eq_true_eq, List.mem_product, List.mem_range,
    List.mem_range]

theorem nodup_cutPasses (width height : ℕ) : (cutPasses width height).Nodup :=
  (List.nodup_range.product List.nodup_range).filter _

/-- In an image of even width no two passes store to the same pixel of the half. -/
theorem nodup_cutPasses_index (hw : Even width) (height : ℕ) :
    ((cutPasses width height).map fun p => p.1 / 2 * (width / 2) + p.2 / 2).Nodup := by
  obtain ⟨w, rfl⟩ := hw
  apply (nodup_cutPasses (w + w) height).map_on
  rintro ⟨i, j⟩ hp ⟨i', j'⟩ hq he
  obtain ⟨⟨-, hj⟩, hi2, hj2⟩ := mem_cutPasses.mp hp
  obtain ⟨⟨-, hj'⟩, hi2', hj2'⟩ := mem_cutPasses.mp hq
  obtain ⟨hx, hy⟩ := (Grid.rowMajor_inj (w := (w + w) / 2) (by omega) (by omega)).mp he
  rw [Prod.mk.injEq]
  constructor <;> omega

theorem getElem?_cutInHalf (hw : Even width) (hx : x < width / 2) (hy : y < height / 2) :
    (cutInHalf image width height)[Grid.rowMajor (width / 2) x y]? =
      some (image.at (Grid.rowMajor width (2 * x) (2 * y))) := by
  have hmem : (2 * y, 2 * x) ∈ cutPasses width height := by
    rw [mem_cutPasses]
    omega
  have hindex : 2 * y / 2 * (width / 2) + 2 * x / 2 = Grid.rowMajor (width / 2) x y := by
    rw [Nat.mul_div_cancel_left y two_pos, Nat.mul_div_cancel_left x two_pos, Grid.rowMajor]
  have hlt : 2 * y / 2 * (width / 2) + 2 * x / 2 <
      (zeroPixels (width / 2 * (height / 2))).length := by
    rw [zeroPixels, List.length_replicate, hindex]
    exact Grid.rowMajor_lt hx hy
  have hwrite := WriteLoop.getElem?_writeAll_of_mem (fun p => image.at (p.1 * width + p.2))
    (zeroPixels (width / 2 * (height / 2))) (nodup_cutPasses_index hw height) hmem hlt
  rw [hindex] at hwrite
  exact hwrite

theorem at_cutInHalf (hw : Even width) (hx : x < width / 2) (hy : y < height / 2) :
    (cutInHalf image width height).at (Grid.rowMajor (width / 2) x y) =
      image.at (Grid.rowMajor width (2 * x) (2 * y)) := by
  rw [Image.at, getElem?_cutInHalf hw hx hy, Option.getD_some]

theorem cutInHalf_combine (hw : Even width) (foreground background : Image) (height : ℕ) :
    cutInHalf (combineWithTransparency foreground background width height) width height =
      combineWithTransparency (cutInHalf foreground width height)
        (cutInHalf background width height) (width / 2) (height / 2) := by
  apply List.ext_getElem?
  intro k
  by_cases hk : k < width / 2 * (height / 2)
  · have hpos : 0 < width / 2 := Nat.pos_of_mul_pos_right (Nat.zero_lt_of_lt hk)
    have hx : k % (width / 2) < width / 2 := Nat.mod_lt k hpos
    have hy : k / (width / 2) < height / 2 := Nat.div_lt_of_lt_mul hk
    have hin : Grid.rowMajor width (2 * (k % (width / 2))) (2 * (k / (width / 2))) <
        width * height :=
      Grid.rowMajor_lt (by omega) (by omega)
    rw [getElem?_combineWithTransparency hk, ← Grid.rowMajor_mod_div k (width / 2),
      getElem?_cutInHalf hw hx hy, at_combineWithTransparency hin]
    simp only [combinedPixel, at_cutInHalf hw hx hy]
  · rw [List.getElem?_eq_none (by rw [length_cutInHalf]; omega),
      List.getElem?_eq_none (by rw [length_combineWithTransparency]; omega)]

end Half

end UefiGame
