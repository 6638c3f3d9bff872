import UefiGame.Game.ScreenLayout
import UefiGame.Graphics.Image
import UefiGame.Library.CountingLoop
import UefiGame.Raycaster.Frame

/-! # Slices of the wall

In every column of a frame `Game` of the 3D program draws a slice of the wall it
has found, as high as the wall is close. The first row and the row that ends the
loop are clamped to the screen. The loop stops before the row that ends it, but
the clamp takes that row for the last one to draw. The `double`s of the program
are exact numbers of an ordered field here.
-/

namespace UefiGame

open Truncate

/-- `texWidth` and `texHeight`. -/
def texWidth : INT32 := 64

def texHeight : INT32 := 64

/-- The locals of a column at the loop that draws it; `side` stands for `side == 1`. -/
structure WallSlice where
  lineHeight : INT32
  texture : Image
  texX : INT32
  side : Bool

section Column

variable {K : Type*} [Field K] [LinearOrder K] [FloorRing K]

/-- An `int` in an expression of `double`s. -/
def castDouble (K : Type*) [Field K] (v : INT32) : K := v.toInt

namespace View

variable (v : View K) (x : ℕ) (d : SideDist K) (s : DdaState)

/-- `perpWallDist`, for the distances and locals at the end of a search. -/
def perpWallDist : K :=
  if s.side then d.sideDistY - d.deltaDistY else d.sideDistX - d.deltaDistX

def wallX : K :=
  let wallX := if s.side then v.posX + perpWallDist d s * v.rayDirX x
    else v.posY + perpWallDist d s * v.rayDirY x
  wallX - ⌊wallX⌋

def texX : INT32 :=
  let texX := castInt (v.wallX x d s * castDouble K texWidth)
  let texX := if s.side = false ∧ 0 < v.rayDirX x then texWidth - texX - 1 else texX
  if s.side = true ∧ v.rayDirY x < 0 then texWidth - texX - 1 else texX

/-- The slice that is drawn in column `x` after a search. -/
def wallSlice (m : MazeMap) (textures : List Image) : WallSlice where
  lineHeight := castInt ((GameView.imageHeight.toNat : K) / perpWallDist d s)
  texture := textures[(texNum m s).toNat]?.getD []
  texX := v.texX x d s
  side := s.side

end View

end Column

/-- The division of a color by two on the darker sides. -/
def Pixel.darker (p : Pixel) : Pixel :=
  { p with blue := p.blue / 2, green := p.green / 2, red := p.red / 2 }

/-- The index `y * ImageWidth + x`. -/
def screenIndex (x y : INT32) : ℕ :=
  (uintnOfInt32 y * GameView.imageWidth + uintnOfInt32 x).toNat

namespace WallSlice

variable (s : WallSlice)

/-- `drawStart`: the negated height is an `int`, the sum a `UINTN`. -/
def drawStart : INT32 :=
  let drawStart := (uintnOfInt32 ((-s.lineHeight).sdiv 2) + GameView.imageHeight / 2).setWidth 32
  if drawStart.slt 0 then 0 else drawStart

/-- `drawEnd`. -/
def drawEnd : INT32 :=
  let drawEnd := (uintnOfInt32 (s.lineHeight.sdiv 2) + GameView.imageHeight / 2).setWidth 32
  if GameView.imageHeight ≤ uintnOfInt32 drawEnd then (GameView.imageHeight - 1).setWidth 32
  else drawEnd

section Numbers

variable (K : Type*) [Field K]

def step : K := 1 * castDouble K texHeight / castDouble K s.lineHeight

/-- `texPos` before the loop. -/
def firstTexPos : K :=
  (castDouble K s.drawStart - (GameView.imageHeight.toNat : K) / castDouble K 2 +
    castDouble K s.lineHeight / castDouble K 2) * s.step K

/-- The passes of the loop, each with its `y` and `texPos`. -/
def passes : List (INT32 × K) :=
  CountingLoop.passes (· + s.step K) s.drawEnd s.drawStart (s.firstTexPos K)

/-- The rows that the loop visits. -/
def rows : List ℤ := (s.passes K).map fun p => p.1.toInt

end Numbers

section Pixels

variable {K : Type*} [Field K] [LinearOrder K] [FloorRing K]

/-- The color of the texture in row `texY` and column `texX`. -/
def color (texPos : K) : Pixel :=
  let texY := castInt texPos &&& (texHeight - 1)
  let color := s.texture.at (texY * texWidth + s.texX).toNat
  if s.side then color.darker else color

/-- `screen` after the loop of column `x`. -/
def draw (K : Type*) [Field K] [LinearOrder K] [FloorRing K] (x : INT32) (screen : Image) : Image :=
  WriteLoop.writeAll (fun p => screenIndex x p.1) (fun p => s.color p.2) (s.passes K) screen

end Pixels

/-- The loop visits each row of the wall that is on the screen once and no other row, all rows for a
wall as high as the screen, and stores to pixels of the screen. -/
structure Clipped (K : Type*) [Field K] : Prop where
  nodup : (s.rows K).Nodup
  mem_rows : ∀ r, r ∈ s.rows K ↔
    (320 - s.lineHeight.toInt / 2 ≤ r ∧ r < 320 + s.lineHeight.toInt / 2) ∧ 0 ≤ r ∧ r < 640
  covers : 640 ≤ s.lineHeight.toInt → ∀ r, 0 ≤ r → r < 640 → r ∈ s.rows K
  inside : ∀ x : INT32, 0 ≤ x.toInt → x.toInt < 960 → ∀ p ∈ s.passes K,
    screenIndex x p.1 < 960 * 640

section Rows

variable {s} {K : Type*} [Field K]

theorem toInt_setWidth_add {v : INT32} (hlo : -2 ^ 30 ≤ v.toInt) (hhi : v.toInt ≤ 2 ^ 30) :
    ((uintnOfInt32 v + GameView.imageHeight / 2).setWidth 32).toInt = v.toInt + 320 := by
  have hhalf : (GameView.imageHeight / 2).setWidth 32 = (320 : INT32) := by decide
  have hv : (uintnOfInt32 v).setWidth 32 = v := by
    ext i hi
    rw [BitVec.getElem_setWidth, uintnOfInt32, BitVec.getLsbD_signExtend]
    simp [hi, Nat.lt_trans hi]
  have hint : (320 : INT32).toInt = 320 := by decide
  rw [BitVec.setWidth_add _ _ (by omega), hhalf, hv, BitVec.toInt_add, hint, Int.bmod_eq_of_le]
  · omega
  · omega

theorem toInt_drawStart (h : 0 ≤ s.lineHeight.toInt) :
    s.drawStart.toInt = max 0 (320 - s.lineHeight.toInt / 2) := by
  have hlt := BitVec.toInt_lt (x := s.lineHeight)
  have hneg : (-s.lineHeight).toInt = -s.lineHeight.toInt := by
    rw [BitVec.toInt_neg, Int.bmod_eq_of_le] <;> omega
  have hhalf := toInt_sdiv_two (-s.lineHeight)
  rw [hneg] at hhalf
  have hsum :
      ((uintnOfInt32 ((-s.lineHeight).sdiv 2) + GameView.imageHeight / 2).setWidth 32).toInt =
      320 - s.lineHeight.toInt / 2 := by
    split_ifs at hhalf
    · rw [toInt_setWidth_add (by omega) (by omega)]
      omega
    · rw [toInt_setWidth_add (by omega) (by omega)]
      omega
  have hzero : (0 : INT32).toInt = 0 := by decide
  simp only [drawStart, BitVec.slt_iff_toInt_lt, hsum, hzero]
  split_ifs with hclamp
  · rw [hzero, max_eq_left hclamp.le]
  · rw [hsum, max_eq_right (not_lt.mp hclamp)]

/-- The clamped end is the last row of the screen, not the row after it. -/
theorem toInt_drawEnd (h : 0 ≤ s.lineHeight.toInt) :
    s.drawEnd.toInt = if s.lineHeight.toInt < 640 then 320 + s.lineHeight.toInt / 2 else 639 := by
  have hlt := BitVec.toInt_lt (x := s.lineHeight)
  have hhalf := toInt_sdiv_two s.lineHeight
  rw [if_pos h] at hhalf
  have hsum : ((uintnOfInt32 (s.lineHeight.sdiv 2) + GameView.imageHeight / 2).setWidth 32).toInt =
      320 + s.lineHeight.toInt / 2 := by
    rw [toInt_setWidth_add (by omega) (by omega)]
    omega
  have hnat := toNat_uintnOfInt32 (v := (uintnOfInt32 (s.lineHeight.sdiv 2) +
    GameView.imageHeight / 2).setWidth 32) (by omega)
  have hheight : GameView.imageHeight.toNat = 640 := rfl
  have hlast : ((GameView.imageHeight - 1).setWidth 32 : INT32).toInt = 639 := by decide
  simp only [drawEnd, BitVec.le_def, hnat, hheight]
  by_cases hclamp : s.lineHeight.toInt < 640
  · rw [if_neg (by omega), if_pos hclamp, hsum]
  · rw [if_pos (by omega), if_neg hclamp, hlast]

theorem mem_rows_iff (h : 0 ≤ s.lineHeight.toInt) {r : ℤ} :
    r ∈ s.rows K ↔ (320 - s.lineHeight.toInt / 2 ≤ r ∧ 0 ≤ r) ∧
      r < if s.lineHeight.toInt < 640 then 320 + s.lineHeight.toInt / 2 else 639 := by
  rw [rows, passes, CountingLoop.mem_counters, toInt_drawStart h, toInt_drawEnd h, max_le_iff,
    and_comm (a := 0 ≤ r)]

theorem screenIndex_lt {x y : INT32} (hx : 0 ≤ x.toInt) (hx' : x.toInt < 960) (hy : 0 ≤ y.toInt)
    (hy' : y.toInt < 640) : screenIndex x y = Grid.rowMajor 960 x.toInt.toNat y.toInt.toNat ∧
      screenIndex x y < 960 * 640 := by
  have hxnat := toNat_uintnOfInt32 hx
  have hynat := toNat_uintnOfInt32 hy
  have hwidth : GameView.imageWidth.toNat = 960 := rfl
  have hindex : screenIndex x y = Grid.rowMajor 960 x.toInt.toNat y.toInt.toNat := by
    rw [screenIndex, Grid.rowMajor, BitVec.toNat_add, BitVec.toNat_mul, hxnat, hynat, hwidth]
    omega
  exact ⟨hindex, hindex ▸ Grid.rowMajor_lt (by omega) (by omega)⟩

theorem screen_of_mem_rows (h : 0 ≤ s.lineHeight.toInt) {r : ℤ} (hr : r ∈ s.rows K) :
    0 ≤ r ∧ r < 640 := by
  rw [mem_rows_iff h] at hr
  obtain ⟨⟨-, hlo⟩, hhi⟩ := hr
  refine ⟨hlo, ?_⟩
  split_ifs at hhi <;> omega

theorem screenIndex_of_mem_passes (h : 0 ≤ s.lineHeight.toInt) {x : INT32} (hx : 0 ≤ x.toInt)
    (hx' : x.toInt < 960) {p : INT32 × K} (hp : p ∈ s.passes K) :
    screenIndex x p.1 = Grid.rowMajor 960 x.toInt.toNat p.1.toInt.toNat ∧
      screenIndex x p.1 < 960 * 640 := by
  obtain ⟨hlo, hhi⟩ := screen_of_mem_rows h (List.mem_map_of_mem hp)
  exact screenIndex_lt hx hx' hlo hhi

end Rows

section Pixels

variable {s} {K : Type*} [Field K] [LinearOrder K] [FloorRing K] {x : INT32} {screen : Image}

theorem texel_lt (texPos : K) (hlo : 0 ≤ s.texX.toInt) (hhi : s.texX.toInt < 64) :
    ((castInt texPos &&& (texHeight - 1)) * texWidth + s.texX).toNat < 64 * 64 := by
  have hrow : (castInt texPos &&& (texHeight - 1)).toNat ≤ 63 := by
    rw [BitVec.toNat_and]
    exact Nat.and_le_right
  have hwidth : texWidth.toNat = 64 := rfl
  have hcol : s.texX.toNat < 64 := by
    have hnat := BitVec.toInt_eq_toNat_cond s.texX
    split_ifs at hnat <;> omega
  rw [BitVec.toNat_add, BitVec.toNat_mul, hwidth]
  omega

theorem texWidth_sub_mem {t : INT32} (h : 0 ≤ t.toInt ∧ t.toInt < 64) :
    0 ≤ (texWidth - t - 1).toInt ∧ (texWidth - t - 1).toInt < 64 := by
  have hint : texWidth.toInt = 64 := by decide
  have hone : (1 : INT32).toInt = 1 := by decide
  have hsub : (texWidth - t).toInt = 64 - t.toInt := by
    rw [BitVec.toInt_sub, hint, Int.bmod_eq_of_le] <;> omega
  have hflip : (texWidth - t - 1).toInt = 63 - t.toInt := by
    rw [BitVec.toInt_sub, hsub, hone, Int.bmod_eq_of_le] <;> omega
  omega

/-- The column of the texture that shows the wall is one of the texture, from either side. -/
theorem texX_mem [IsStrictOrderedRing K] (v : View K) (x : ℕ) (d : SideDist K) (s : DdaState) :
    0 ≤ (v.texX x d s).toInt ∧ (v.texX x d s).toInt < 64 := by
  have hwidth : castDouble K texWidth = 64 := by
    have hint : texWidth.toInt = 64 := by decide
    rw [castDouble, hint]
    norm_num
  have hfract : 0 ≤ v.wallX x d s ∧ v.wallX x d s < 1 := ⟨Int.fract_nonneg _, Int.fract_lt_one _⟩
  have htruncate : 0 ≤ truncate (v.wallX x d s * castDouble K texWidth) ∧
      truncate (v.wallX x d s * castDouble K texWidth) < (64 : ℕ) := by
    rw [hwidth, truncate_of_nonneg (by linarith), Int.floor_lt]
    refine ⟨Int.floor_nonneg.mpr (by linarith), ?_⟩
    push_cast
    linarith
  have hcast : 0 ≤ (castInt (v.wallX x d s * castDouble K texWidth)).toInt ∧
      (castInt (v.wallX x d s * castDouble K texWidth)).toInt < 64 := by
    rwa [toInt_castInt (by omega) htruncate]
  unfold View.texX
  dsimp only
  split_ifs
  · exact texWidth_sub_mem (texWidth_sub_mem hcast)
  · exact texWidth_sub_mem hcast
  · exact texWidth_sub_mem hcast
  · exact hcast

theorem texel_wallSlice_lt [IsStrictOrderedRing K] (v : View K) (x : ℕ) (d : SideDist K)
    (s : DdaState) (m : MazeMap) (textures : List Image) (texPos : K) :
    ((castInt texPos &&& (texHeight - 1)) * texWidth + (v.wallSlice x d s m textures).texX).toNat <
      64 * 64 :=
  texel_lt texPos (texX_mem v x d s).1 (texX_mem v x d s).2

/-- The rows visited show the wall, the texture position growing by one step a row. -/
theorem getElem?_draw_of_mem (h : 0 ≤ s.lineHeight.toInt) (hx : 0 ≤ x.toInt) (hx' : x.toInt < 960)
    (hscreen : screen.length = 960 * 640) {r : ℕ} (hr : (r : ℤ) ∈ s.rows K) :
    (s.draw K x screen)[Grid.rowMajor 960 x.toInt.toNat r]? =
      some (s.color (s.firstTexPos K + (r - s.drawStart.toInt).toNat * s.step K)) := by
  have hnodup : ((s.passes K).map fun q => screenIndex x q.1).Nodup := by
    have hmap : ((s.passes K).map fun q => screenIndex x q.1) =
        (s.rows K).map fun y => Grid.rowMajor 960 x.toInt.toNat y.toNat := by
      rw [rows, List.map_map]
      exact List.map_congr_left fun q hq => (screenIndex_of_mem_passes h hx hx' hq).1
    rw [hmap]
    apply CountingLoop.nodup_counters.map_on
    intro y hy y' hy' he
    have hrow := ((Grid.rowMajor_inj (by omega) (by omega)).mp he).2
    have hlo := (screen_of_mem_rows h hy).1
    have hlo' := (screen_of_mem_rows h hy').1
    omega
  obtain ⟨p, hp, hrow⟩ := List.mem_map.mp hr
  have hat : screenIndex x p.1 = Grid.rowMajor 960 x.toInt.toNat r := by
    rw [(screenIndex_of_mem_passes h hx hx' hp).1, hrow, Int.toNat_natCast]
  have hstored := WriteLoop.getElem?_writeAll_of_mem (fun q => s.color q.2) screen hnodup hp
    (by rw [hscreen]; exact (screenIndex_of_mem_passes h hx hx' hp).2)
  rw [hat] at hstored
  rw [draw, hstored, CountingLoop.state_of_mem hp, hrow, add_right_iterate, nsmul_eq_mul]

theorem getElem?_draw_of_notMem (h : 0 ≤ s.lineHeight.toInt) (hx : 0 ≤ x.toInt)
    (hx' : x.toInt < 960) {q r : ℕ} (hq : q < 960)
    (hne : q ≠ x.toInt.toNat ∨ (r : ℤ) ∉ s.rows K) :
    (s.draw K x screen)[Grid.rowMajor 960 q r]? = screen[Grid.rowMajor 960 q r]? := by
  apply WriteLoop.getElem?_writeAll_of_not_mem
  intro p hp he
  rw [(screenIndex_of_mem_passes h hx hx' hp).1, Grid.rowMajor_inj (by omega) hq] at he
  obtain ⟨hcol, hrow⟩ := he
  have hmem : p.1.toInt ∈ s.rows K := List.mem_map_of_mem hp
  have hlo := (screen_of_mem_rows h hmem).1
  rcases hne with hne | hne
  · exact hne hcol.symm
  · rw [← hrow, Int.toNat_of_nonneg hlo] at hne
    exact hne hmem

end Pixels

/-- The loop draws its part of the screen exactly for walls lower than the screen; of a higher wall
it leaves out the last row of the screen. -/
theorem clipped_iff {K : Type*} [Field K] (s : WallSlice) (h : 0 ≤ s.lineHeight.toInt) :
    s.Clipped K ↔ s.lineHeight.toInt < 640 := by
  constructor
  · intro hclipped
    by_contra hhigh
    have hlast := hclipped.covers (not_lt.mp hhigh) 639 (by omega) (by omega)
    rw [mem_rows_iff h, if_neg hhigh] at hlast
    omega
  · intro hlow
    constructor
    · exact CountingLoop.nodup_counters
    · intro r
      rw [mem_rows_iff h, if_pos hlow]
      omega
    · intro hhigh
      omega
    · intro x hx hx' p hp
      exact (screenIndex_of_mem_passes h hx hx' hp).2

end WallSlice

/-- A wall as high as the screen. -/
def tallWall : WallSlice := ⟨640, [], 0, false⟩

theorem clipped_iff_tallWall : tallWall.Clipped ℚ ↔ tallWall.lineHeight.toInt < 640 :=
  tallWall.clipped_iff (by decide)

theorem not_clipped_tallWall :
    ¬ ∀ s : WallSlice, 0 ≤ s.lineHeight.toInt → s.Clipped ℚ := by
  intro h
  have hlast := (h tallWall (by decide)).covers (by decide) 639 (by decide) (by decide)
  rw [WallSlice.mem_rows_iff (by decide)] at hlast
  exact absurd hlast (by decide)

end UefiGame
