import Mathlib.Data.Rat.Floor
import Mathlib.Tactic.NormNum
import Mathlib.Tactic.Ring
import UefiGame.Game.Loop
import UefiGame.Library.Truncate
import UefiGame.Raycaster.Dda

/-! # The player's view in the 3D program

`Game` of the 3D program keeps the position, the direction and the camera plane
as numbers, read here as exact ones. SCAN_UP and SCAN_DOWN test the cell ahead
in each coordinate with the other one unchanged, so the cell the player enters
goes untested when he crosses a corner.
-/

namespace UefiGame

open Truncate

/-- The locals `posX` to `planeY`. -/
structure View (K : Type*) where
  posX : K
  posY : K
  dirX : K
  dirY : K
  planeX : K
  planeY : K

/-- `Map[y * MapWidth + x]` for the values of two casts to `int`. -/
def MazeMap.look (m : MazeMap) (x y : ℤ) : INTN :=
  m.read (m.index (BitVec.ofInt 64 x) (BitVec.ofInt 64 y))

/-- The test `next == 0 || next >= bootable_start`. -/
def Passable (bootableStart v : UINTN) : Prop := v = 0 ∨ bootableStart ≤ v

instance (bootableStart v : UINTN) : Decidable (Passable bootableStart v) :=
  inferInstanceAs (Decidable (_ ∨ _))

section Step

variable {K : Type*} [Field K] [LinearOrder K] [FloorRing K]

/-- `moveSpeed`. -/
def moveSpeed : K := 5 / 100

/-- The arm of SCAN_UP. -/
def walkForward (m : MazeMap) (bootableStart : UINTN) (v : View K) : View K :=
  let nextY := m.look (truncate v.posX) (truncate (v.posY + v.dirY * (moveSpeed + 5 / 100)))
  let nextX := m.look (truncate (v.posX + v.dirX * (moveSpeed + 5 / 100))) (truncate v.posY)
  { v with
    posY := if Passable bootableStart nextY then v.posY + v.dirY * moveSpeed else v.posY
    posX := if Passable bootableStart nextX then v.posX + v.dirX * moveSpeed else v.posX }

/-- The arm of SCAN_DOWN. -/
def walkBackward (m : MazeMap) (bootableStart : UINTN) (v : View K) : View K :=
  let nextY := m.look (truncate v.posX) (truncate (v.posY - v.dirY * (moveSpeed + 5 / 100)))
  let nextX := m.look (truncate (v.posX - v.dirX * (moveSpeed + 5 / 100))) (truncate v.posY)
  { v with
    posY := if Passable bootableStart nextY then v.posY - v.dirY * moveSpeed else v.posY
    posX := if Passable bootableStart nextX then v.posX - v.dirX * moveSpeed else v.posX }

/-- The arms of SCAN_LEFT and SCAN_RIGHT, for an angle with the given cosine and sine. -/
def turn (cosine sine : K) (v : View K) : View K where
  posX := v.posX
  posY := v.posY
  dirX := v.dirX * cosine - v.dirY * sine
  dirY := v.dirX * sine + v.dirY * cosine
  planeX := v.planeX * cosine - v.planeY * sine
  planeY := v.planeX * sine + v.planeY * cosine

/-- The key switch; `cosine` and `sine` are those of `rotSpeed`. -/
def viewSwitch (m : MazeMap) (bootableStart : UINTN) (cosine sine : K) (v : View K) :
    ScanCode → View K
  | .up => walkForward m bootableStart v
  | .down => walkBackward m bootableStart v
  | .left => turn cosine (-sine) v
  | .right => turn cosine sine v
  | .esc => v
  | .other _ => v

/-- `Map[(int)(posY) * MapWidth + (int)(posX)]`, the value of the player's cell. -/
def View.tile (m : MazeMap) (v : View K) : INTN := m.look (truncate v.posX) (truncate v.posY)

/-- The player's cell lies in the map, but not on its border. -/
def View.Interior (m : MazeMap) (v : View K) : Prop :=
  (0 < truncate v.posX ∧ truncate v.posX + 1 < m.width.toNat) ∧
    0 < truncate v.posY ∧ truncate v.posY + 1 < m.height.toNat

/-- What SCAN_UP and SCAN_DOWN would add to the position. -/
def View.stride (v : View K) : ScanCode → K × K
  | .up => (v.dirX * moveSpeed, v.dirY * moveSpeed)
  | .down => (-(v.dirX * moveSpeed), -(v.dirY * moveSpeed))
  | _ => (0, 0)

/-- The cells that the two parts of the step lead to, each taken alone, are passable, and the one
that both lead to is not. -/
def View.CutsCorner (m : MazeMap) (bootableStart : UINTN) (v : View K) (key : ScanCode) : Prop :=
  Passable bootableStart (m.look (truncate (v.posX + (v.stride key).1)) (truncate v.posY)) ∧
  Passable bootableStart (m.look (truncate v.posX) (truncate (v.posY + (v.stride key).2))) ∧
  ¬ Passable bootableStart
    (m.look (truncate (v.posX + (v.stride key).1)) (truncate (v.posY + (v.stride key).2)))

variable {m : MazeMap} {bs : UINTN} {v : View K} {key : ScanCode}

theorem look_of_mem {x y : ℤ} (hx : 0 ≤ x ∧ x < m.width.toNat) (hy : 0 ≤ y ∧ y < m.height.toNat) :
    (m.index (BitVec.ofInt 64 x) (BitVec.ofInt 64 y)).toNat < m.cells.length ∧
      m.look x y = m.cell x.toNat y.toNat := by
  obtain ⟨x, rfl⟩ := Int.eq_ofNat_of_zero_le hx.1
  obtain ⟨y, rfl⟩ := Int.eq_ofNat_of_zero_le hy.1
  have hX : x < m.width.toNat := by omega
  have hY : y < m.height.toNat := by omega
  rw [MazeMap.look, BitVec.ofInt_natCast, BitVec.ofInt_natCast]
  constructor
  · rw [MazeMap.toNat_index_ofNat hX hY, m.length_eq]
    exact Grid.rowMajor_lt hX hY
  · exact MazeMap.read_index_ofNat hX hY

theorem viewSwitch_pos (m : MazeMap) (bs : UINTN) (cosine sine : K)
    (hkey : key = .up ∨ key = .down) :
    (viewSwitch m bs cosine sine v key).posX =
        (if Passable bs (m.look (truncate (v.posX + 2 * (v.stride key).1)) (truncate v.posY)) then
          v.posX + (v.stride key).1 else v.posX) ∧
      (viewSwitch m bs cosine sine v key).posY =
        if Passable bs (m.look (truncate v.posX) (truncate (v.posY + 2 * (v.stride key).2))) then
          v.posY + (v.stride key).2 else v.posY := by
  have hahead : ∀ a : K, a * (moveSpeed + 5 / 100) = 2 * (a * moveSpeed) := by
    intro a
    unfold moveSpeed
    ring
  rcases hkey with rfl | rfl
  · simp only [viewSwitch, walkForward, View.stride, hahead]
    exact ⟨rfl, rfl⟩
  · simp only [viewSwitch, walkBackward, View.stride, hahead, sub_eq_add_neg, mul_neg, and_self]

variable [IsStrictOrderedRing K]

theorem abs_two_mul_stride_le (hdir : v.dirX ^ 2 + v.dirY ^ 2 ≤ 1) (key : ScanCode) :
    |2 * (v.stride key).1| ≤ 1 ∧ |2 * (v.stride key).2| ≤ 1 := by
  have hx : |v.dirX| ≤ 1 := abs_le_one_iff_mul_self_le_one.mpr (by nlinarith [sq_nonneg v.dirY])
  have hy : |v.dirY| ≤ 1 := abs_le_one_iff_mul_self_le_one.mpr (by nlinarith [sq_nonneg v.dirX])
  rw [abs_le] at hx hy
  unfold View.stride moveSpeed
  cases key <;> simp only [abs_le] <;> refine ⟨⟨?_, ?_⟩, ?_, ?_⟩ <;> linarith

/-- The cell after SCAN_UP or SCAN_DOWN: each coordinate has changed if the cell its part of the
step leads to is passable. -/
theorem truncate_viewSwitch (bs : UINTN) (cosine sine : K) (hkey : key = .up ∨ key = .down)
    (hin : v.Interior m) (hdir : v.dirX ^ 2 + v.dirY ^ 2 ≤ 1) :
    truncate (viewSwitch m bs cosine sine v key).posX =
        (if Passable bs (m.look (truncate (v.posX + (v.stride key).1)) (truncate v.posY)) then
          truncate (v.posX + (v.stride key).1) else truncate v.posX) ∧
      truncate (viewSwitch m bs cosine sine v key).posY =
        if Passable bs (m.look (truncate v.posX) (truncate (v.posY + (v.stride key).2))) then
          truncate (v.posY + (v.stride key).2) else truncate v.posY := by
  obtain ⟨hx, hy⟩ := abs_two_mul_stride_le hdir key
  obtain ⟨hposX, hposY⟩ := viewSwitch_pos m bs cosine sine hkey
  rw [hposX, hposY]
  constructor
  · exact truncate_step (fun x => Passable bs (m.look x (truncate v.posY))) hin.1.1 hx
  · exact truncate_step (fun y => Passable bs (m.look (truncate v.posX) y)) hin.2.1 hy

end Step

/-- From a free cell inside the border, SCAN_UP and SCAN_DOWN lead to a passable cell just when
they do not cut the corner of a wall. -/
theorem passable_viewSwitch_iff {K : Type*} [Field K] [LinearOrder K] [FloorRing K]
    [IsStrictOrderedRing K] (m : MazeMap) (bs : UINTN) (cosine sine : K) (v : View K)
    (key : ScanCode) (hkey : key = .up ∨ key = .down) (hin : v.Interior m) (hfree : v.tile m = 0)
    (hdir : v.dirX ^ 2 + v.dirY ^ 2 ≤ 1) :
    Passable bs ((viewSwitch m bs cosine sine v key).tile m) ↔ ¬ v.CutsCorner m bs key := by
  obtain ⟨hx, hy⟩ := truncate_viewSwitch bs cosine sine hkey hin hdir
  rw [View.tile] at hfree ⊢
  rw [hx, hy, View.CutsCorner]
  split_ifs with hpx hpy hpy
  · simp [hpx, hpy]
  · exact iff_of_true hpx (by simp [hpy])
  · exact iff_of_true hpy (by simp [hpx])
  · exact iff_of_true (Or.inl hfree) (by simp [hpx])

/-- Two free cells beside the start cell, and a wall at the corner between them. -/
def cornerMap : MazeMap :=
  MazeMap.ofRows 4 4 [[1, 1, 1, 1], [1, 0, 0, 1], [1, 0, 1, 1], [1, 1, 1, 1]]
    (by decide) (by decide) (by decide)

/-- Close to the corner, looking at it. -/
def cornerView : View ℚ := ⟨99 / 50, 99 / 50, 7 / 10, 7 / 10, 0, 0⟩

theorem cornerView_interior : cornerView.Interior cornerMap := by
  have htruncate : truncate (99 / 50 : ℚ) = 1 := by decide +kernel
  simp only [View.Interior, cornerView, htruncate]
  decide

theorem passable_viewSwitch_iff_cornerMap :
    Passable 11 ((viewSwitch cornerMap 11 1 0 cornerView .down).tile cornerMap) ↔
      ¬ cornerView.CutsCorner cornerMap 11 .down :=
  passable_viewSwitch_iff cornerMap 11 1 0 cornerView .down (Or.inr rfl) cornerView_interior
    (by decide +kernel) (by norm_num [cornerView])

/-- Walking forward there leads into the wall. -/
theorem not_passable_viewSwitch_cornerMap :
    ¬ (cornerMap.Bordered → cornerView.Interior cornerMap → cornerView.tile cornerMap = 0 →
      cornerView.dirX ^ 2 + cornerView.dirY ^ 2 ≤ 1 →
      Passable 11 ((viewSwitch cornerMap 11 1 0 cornerView .up).tile cornerMap)) := by
  intro h
  have hpass := h (by decide) cornerView_interior (by decide +kernel) (by norm_num [cornerView])
  exact absurd hpass (by decide +kernel)

end UefiGame
