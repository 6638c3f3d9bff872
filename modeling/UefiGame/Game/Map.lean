import UefiGame.Firmware.Types
import UefiGame.Library.Grid

/-! # Maze maps

A map is the flat block `Map` with its dimensions. The code addresses it with
64-bit arithmetic; inside the map that arithmetic does not wrap, because the
block fits into the address space.
-/

namespace UefiGame

/-- The block `Map` of `MapWidth * MapHeight` cells. -/
structure MazeMap where
  width : UINTN
  height : UINTN
  cells : List INTN
  length_eq : cells.length = width.toNat * height.toNat
  fits : width.toNat * height.toNat < 2 ^ 64

namespace MazeMap

/-- The map with the given rows, all of them `width` wide. -/
def ofRows (width height : UINTN) (rows : List (List INTN))
    (hw : ∀ row ∈ rows, row.length = width.toNat) (hh : rows.length = height.toNat)
    (fits : width.toNat * height.toNat < 2 ^ 64) : MazeMap where
  width := width
  height := height
  cells := rows.flatten
  length_eq := by rw [Grid.length_flatten hw, hh]
  fits := fits

variable {m : MazeMap} {i : UINTN} {v : INTN} {x y : ℕ}

/-- `Map[i]`; the value of a lookup outside the block is immaterial. -/
def read (m : MazeMap) (i : UINTN) : INTN := m.cells[i.toNat]?.getD 0

/-- `Map[i] = v`. -/
def write (m : MazeMap) (i : UINTN) (v : INTN) : MazeMap :=
  { m with
    cells := m.cells.set i.toNat v
    length_eq := by rw [List.length_set, m.length_eq] }

/-- The index expression `y * MapWidth + x`. -/
def index (m : MazeMap) (x y : UINTN) : UINTN := y * m.width + x

/-- The value shown at column `x` and row `y`. -/
def cell (m : MazeMap) (x y : ℕ) : INTN := m.cells[Grid.rowMajor m.width.toNat x y]?.getD 0

@[simp] theorem write_width : (m.write i v).width = m.width := rfl
@[simp] theorem write_cells : (m.write i v).cells = m.cells.set i.toNat v := rfl

theorem toNat_index {x y : UINTN} (hx : x.toNat < m.width.toNat) (hy : y.toNat < m.height.toNat) :
    (m.index x y).toNat = Grid.rowMajor m.width.toNat x.toNat y.toNat := by
  have h := Grid.rowMajor_lt hx hy
  have hf := m.fits
  unfold Grid.rowMajor at *
  rw [index, BitVec.toNat_add, BitVec.toNat_mul, Nat.mod_add_mod, Nat.mod_eq_of_lt (by omega)]

theorem index_lt {x y : UINTN} (hx : x.toNat < m.width.toNat) (hy : y.toNat < m.height.toNat) :
    (m.index x y).toNat < m.cells.length := by
  rw [toNat_index hx hy, m.length_eq]
  exact Grid.rowMajor_lt hx hy

theorem read_index {x y : UINTN} (hx : x.toNat < m.width.toNat) (hy : y.toNat < m.height.toNat) :
    m.read (m.index x y) = m.cell x.toNat y.toNat := by
  rw [read, cell, toNat_index hx hy]

theorem toNat_column (hx : x < m.width.toNat) : (BitVec.ofNat 64 x).toNat = x :=
  Nat.mod_eq_of_lt (Nat.lt_trans hx m.width.isLt)

theorem toNat_row (hy : y < m.height.toNat) : (BitVec.ofNat 64 y).toNat = y :=
  Nat.mod_eq_of_lt (Nat.lt_trans hy m.height.isLt)

theorem toNat_index_ofNat (hx : x < m.width.toNat) (hy : y < m.height.toNat) :
    (m.index (BitVec.ofNat 64 x) (BitVec.ofNat 64 y)).toNat =
      Grid.rowMajor m.width.toNat x y := by
  have hx' := toNat_column hx
  have hy' := toNat_row hy
  rw [toNat_index (hx'.symm ▸ hx) (hy'.symm ▸ hy), hx', hy']

theorem read_index_ofNat (hx : x < m.width.toNat) (hy : y < m.height.toNat) :
    m.read (m.index (BitVec.ofNat 64 x) (BitVec.ofNat 64 y)) = m.cell x y := by
  rw [read, cell, toNat_index_ofNat hx hy]

theorem cell_write_self (hx : x < m.width.toNat) (hy : y < m.height.toNat) :
    (m.write (m.index (BitVec.ofNat 64 x) (BitVec.ofNat 64 y)) v).cell x y = v := by
  have hlt := Grid.rowMajor_lt hx hy
  rw [← m.length_eq] at hlt
  simp [cell, toNat_index_ofNat hx hy, hlt]

theorem cell_write_of_ne {x' y' : ℕ} (hx : x < m.width.toNat) (hy : y < m.height.toNat)
    (hx' : x' < m.width.toNat) (hne : (x', y') ≠ (x, y)) :
    (m.write (m.index (BitVec.ofNat 64 x) (BitVec.ofNat 64 y)) v).cell x' y' = m.cell x' y' := by
  have hidx : Grid.rowMajor m.width.toNat x y ≠ Grid.rowMajor m.width.toNat x' y' := by
    intro he
    obtain ⟨h₁, h₂⟩ := (Grid.rowMajor_inj hx hx').mp he
    exact hne (by rw [h₁, h₂])
  simp only [cell, write_cells, write_width, toNat_index_ofNat hx hy]
  rw [List.getElem?_set_ne hidx]

end MazeMap

end UefiGame
