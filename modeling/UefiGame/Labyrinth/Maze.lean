import Mathlib.Data.List.Induction
import Mathlib.Data.List.ProdSigma
import UefiGame.Game.Loop

/-! # The labyrinth game

`UefiMain` of the Maze application paints the labyrinth pixel by pixel, noticing
the start and the exit on the way, and then moves the player from cell to cell
until he stands on the exit or ESC is pressed.
-/

namespace UefiGame

/-- `MAZE_CELL_TYPE`. -/
inductive MazeCell where
  | EMPTY
  | WALL
  | START
  | END
  | UNKNOWN
  deriving DecidableEq, Repr

/-- `MAZE`, with dimensions that the layout can divide by; a lookup outside the block of the cells
reads whatever lies there. -/
structure Maze where
  width : ℕ
  height : ℕ
  mazeCells : List MazeCell
  outside : ℤ → MazeCell
  width_pos : 0 < width
  height_pos : 0 < height
  length_eq : mazeCells.length = width * height

namespace Maze

/-- `mazeCells[i]`. -/
def read (m : Maze) (i : ℤ) : MazeCell :=
  if 0 ≤ i then m.mazeCells[i.toNat]?.getD (m.outside i) else m.outside i

/-- The cell in column `x` and row `y`. -/
def cell (m : Maze) (x y : ℤ) : MazeCell := m.read (y * m.width + x)

/-- The column and row lie in the labyrinth. -/
def Inside (m : Maze) (x y : ℤ) : Prop := (0 ≤ x ∧ x < m.width) ∧ 0 ≤ y ∧ y < m.height

instance (m : Maze) (x y : ℤ) : Decidable (m.Inside x y) := inferInstanceAs (Decidable (_ ∧ _))

end Maze

/-- `cell_side`, for a screen of the given resolution. -/
def cellSide (m : Maze) (width height : UINT16) : ℕ :=
  let cellWidth := width.toNat / m.width
  let cellHeight := height.toNat / m.height
  if cellWidth < cellHeight then cellWidth else cellHeight

/-- What the painting loops notice besides the pixels they paint. -/
structure Noticed where
  posX : ℕ
  posY : ℕ
  endX : ℕ
  endY : ℕ
  deriving DecidableEq, Repr

/-- The switch on the cell in row `c.1` and column `c.2`, executed for each of its pixels. -/
def paintPixel (m : Maze) (c : ℕ × ℕ) (p : Noticed) : Noticed :=
  match m.cell c.2 c.1 with
  | .START => { p with posX := c.2, posY := c.1 }
  | .END => { p with endX := c.2, endY := c.1 }
  | _ => p

/-- The two inner painting loops, over the pixels of one cell. -/
def paintCell (m : Maze) (side : ℕ) (p : Noticed) (c : ℕ × ℕ) : Noticed :=
  (List.range side ×ˢ List.range side).foldl (fun p _ => paintPixel m c p) p

/-- The cells in the order of the painting loops. -/
def Maze.positions (m : Maze) : List (ℕ × ℕ) := List.range m.height ×ˢ List.range m.width

/-- All four painting loops. -/
def paintMaze (m : Maze) (side : ℕ) : Noticed :=
  m.positions.foldl (paintCell m side) ⟨0, 0, 0, 0⟩

/-- The locals of the key loop; `newX` and `newY` equal `posX` and `posY` at the head of each
pass. `left` tells that the loop was left by its `break`. -/
structure MazeState where
  posX : ℤ
  posY : ℤ
  escaped : Bool
  left : Bool
  deriving DecidableEq, Repr

/-- The index the key switch reads from `mazeCells`; `none` where it reads nothing. -/
def mazeLookup (m : Maze) (posX posY : ℤ) : ScanCode → Option ℤ
  | .up => if posY = 0 then none else some ((posY - 1) * m.width + posX)
  | .down => if posY = m.height then none else some ((posY + 1) * m.width + posX)
  | .left => if posX = 0 then none else some (posY * m.width + posX - 1)
  | .right => if posX = m.width then none else some (posY * m.width + posX + 1)
  | .esc => none
  | .other _ => none

/-- `newX` and `newY` where the switch does not take the `continue`. -/
def mazeShift (posX posY : ℤ) : ScanCode → ℤ × ℤ
  | .up => (posX, posY - 1)
  | .down => (posX, posY + 1)
  | .left => (posX - 1, posY)
  | .right => (posX + 1, posY)
  | .esc => (posX, posY)
  | .other _ => (posX, posY)

/-- The key switch: `newX` and `newY`, or `none` where it takes the `continue`. -/
def mazeSwitch (m : Maze) (posX posY : ℤ) : ScanCode → Option (ℤ × ℤ)
  | .esc => some (posX, posY)
  | .other _ => some (posX, posY)
  | key => (mazeLookup m posX posY key).bind fun i =>
      if m.read i = .WALL then none else some (mazeShift posX posY key)

/-- One pass of the key loop. -/
def mazeStep (m : Maze) (e : Noticed) (s : MazeState) (key : ScanCode) : MazeState :=
  match mazeSwitch m s.posX s.posY key with
  | none => s
  | some (newX, newY) =>
    { posX := newX
      posY := newY
      escaped := if key = .esc then true else s.escaped
      left := newX = e.endX ∧ newY = e.endY }

/-- The loop is over: `escaped` is set, or its `break` was taken. -/
def MazeState.over (s : MazeState) : Bool := s.escaped || s.left

/-- The locals on entry to the key loop. -/
def mazeStart (e : Noticed) : MazeState where
  posX := e.posX
  posY := e.posY
  escaped := false
  left := false

/-- The key loop over the given keys. -/
def mazeRun (m : Maze) (e : Noticed) (keys : List ScanCode) : MazeState :=
  Run.run (mazeStep m e) MazeState.over (mazeStart e) keys

/-- The passes of the key loop over the given keys. -/
def mazePasses (m : Maze) (e : Noticed) (keys : List ScanCode) : List (MazeState × ScanCode) :=
  Run.passes (mazeStep m e) MazeState.over (mazeStart e) keys

section Painting

variable {m : Maze} {c : ℕ × ℕ} {p : Noticed} {side : ℕ}

theorem mem_positions : c ∈ m.positions ↔ c.1 < m.height ∧ c.2 < m.width := by
  rw [Maze.positions, List.mem_product, List.mem_range, List.mem_range]

/-- The last cell of the given type in reading order, as row and column. -/
def Maze.last (m : Maze) (t : MazeCell) : Option (ℕ × ℕ) :=
  (m.positions.filter fun c => m.cell c.2 c.1 = t).getLast?

theorem Maze.last_spec {t : MazeCell} (h : m.last t = some c) :
    m.Inside c.2 c.1 ∧ m.cell c.2 c.1 = t := by
  have hmem := List.mem_of_getLast? h
  rw [List.mem_filter, mem_positions, decide_eq_true_eq] at hmem
  obtain ⟨⟨hy, hx⟩, hcell⟩ := hmem
  exact ⟨⟨⟨by omega, by omega⟩, by omega, by omega⟩, hcell⟩

theorem Maze.exists_last {t : MazeCell} (h : t ∈ m.mazeCells) : ∃ c, m.last t = some c := by
  obtain ⟨i, hi⟩ := List.mem_iff_getElem?.mp h
  have hlt : i < m.width * m.height := m.length_eq ▸ (List.getElem?_eq_some_iff.mp hi).1
  have hcell : m.cell (i % m.width : ℕ) (i / m.width : ℕ) = t := by
    have hidx : ((i / m.width : ℕ) : ℤ) * m.width + (i % m.width : ℕ) = i := by
      exact_mod_cast Nat.div_add_mod' i m.width
    rw [Maze.cell, hidx, Maze.read, if_pos (by omega), Int.toNat_natCast, hi, Option.getD_some]
  have hmem : (i / m.width, i % m.width) ∈ m.positions.filter fun c => m.cell c.2 c.1 = t := by
    rw [List.mem_filter, mem_positions, decide_eq_true_eq]
    exact ⟨⟨Nat.div_lt_of_lt_mul hlt, Nat.mod_lt _ m.width_pos⟩, hcell⟩
  exact ⟨_, List.getLast?_eq_getLast_of_ne_nil (List.ne_nil_of_mem hmem)⟩

theorem paintPixel_paintPixel : paintPixel m c (paintPixel m c p) = paintPixel m c p := by
  unfold paintPixel
  cases m.cell c.2 c.1 <;> rfl

theorem paintCell_eq : paintCell m side p c = if side = 0 then p else paintPixel m c p := by
  have hrepeat : ∀ l : List (ℕ × ℕ), l.foldl (fun p _ => paintPixel m c p) (paintPixel m c p) =
      paintPixel m c p := by
    intro l
    induction l with
    | nil => rfl
    | cons _ l ih => rw [List.foldl_cons, paintPixel_paintPixel, ih]
  unfold paintCell
  cases side with
  | zero => rfl
  | succ n =>
    obtain ⟨q, l, hl⟩ := List.exists_cons_of_ne_nil (l := List.range (n + 1) ×ˢ List.range (n + 1))
      (List.ne_nil_of_mem (List.mem_product.mpr ⟨List.mem_range.mpr n.succ_pos,
        List.mem_range.mpr n.succ_pos⟩ : ((0, 0) : ℕ × ℕ) ∈ _))
    rw [hl, List.foldl_cons, hrepeat, if_neg n.succ_ne_zero]

theorem paintMaze_zero (m : Maze) : paintMaze m 0 = ⟨0, 0, 0, 0⟩ := by
  unfold paintMaze
  induction m.positions with
  | nil => rfl
  | cons c l ih => rw [List.foldl_cons, paintCell_eq, if_pos rfl, ih]

/-- Where there are pixels, the start and the exit noticed are the last ones in reading order. -/
theorem paintMaze_of_pos (hside : 0 < side) : paintMaze m side =
    { posX := ((m.last .START).getD (0, 0)).2
      posY := ((m.last .START).getD (0, 0)).1
      endX := ((m.last .END).getD (0, 0)).2
      endY := ((m.last .END).getD (0, 0)).1 } := by
  unfold paintMaze Maze.last
  induction m.positions using List.reverseRecOn with
  | nil => rfl
  | append_singleton l c ih =>
    rw [List.foldl_append, ih, List.foldl_cons, List.foldl_nil, paintCell_eq,
      if_neg (Nat.ne_of_gt hside), paintPixel]
    simp only [List.filter_append, List.getLast?_append]
    cases h : m.cell c.2 c.1 <;> simp [h]

end Painting

end UefiGame
