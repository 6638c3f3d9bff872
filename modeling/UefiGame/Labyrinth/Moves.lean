import Mathlib.Algebra.Order.Ring.Int
import Mathlib.Tactic.Linarith
import UefiGame.Labyrinth.Maze

/-! # Moving in the labyrinth

Every guard but two keeps the player inside: on the last row SCAN_DOWN looks
below the block of cells, and on the last column SCAN_RIGHT looks at the first
cell of the next row. Runs that avoid the first, and meet a wall in the second,
are exactly the safe ones.
-/

namespace UefiGame

variable {m : Maze} {e : Noticed} {s : MazeState} {key : ScanCode} {x y i : ℤ}

/-- The player stands in the labyrinth, and not in a wall. -/
structure MazeState.Safe (m : Maze) (s : MazeState) : Prop where
  inside : m.Inside s.posX s.posY
  notWall : m.cell s.posX s.posY ≠ .WALL

/-- A pass looks only at cells of the labyrinth and moves by at most the one cell the key asks for,
to a place that is safe again. -/
structure SafePass (m : Maze) (e : Noticed) (s : MazeState) (key : ScanCode) : Prop where
  lookup : ∀ i, mazeLookup m s.posX s.posY key = some i → 0 ≤ i ∧ i < m.mazeCells.length
  moved : ((mazeStep m e s key).posX, (mazeStep m e s key).posY) = (s.posX, s.posY) ∨
    ((mazeStep m e s key).posX, (mazeStep m e s key).posY) = mazeShift s.posX s.posY key
  safe : (mazeStep m e s key).Safe m

/-- The key is not SCAN_DOWN on the last row, and if it is SCAN_RIGHT on the last column there is a
next row and it begins with a wall. -/
structure StaysInside (m : Maze) (s : MazeState) (key : ScanCode) : Prop where
  down : key = .down → s.posY + 1 < m.height
  right : key = .right → s.posX + 1 < m.width ∨
    (s.posY + 1 < m.height ∧ m.cell 0 (s.posY + 1) = .WALL)

theorem Maze.length_cells (m : Maze) : (m.mazeCells.length : ℤ) = m.height * m.width := by
  rw [m.length_eq, Nat.mul_comm]
  push_cast
  rfl

theorem Maze.index_nonneg (hx : 0 ≤ x) (hy : 0 ≤ y) : 0 ≤ y * m.width + x := by
  have := mul_nonneg hy (Int.natCast_nonneg m.width)
  omega

theorem Maze.index_lt_iff (hx : 0 ≤ x ∧ x < m.width) :
    y * m.width + x < m.mazeCells.length ↔ y < m.height := by
  rw [m.length_cells]
  constructor
  · intro h
    by_contra hge
    have := mul_le_mul_of_nonneg_right (not_lt.mp hge) (Int.natCast_nonneg m.width)
    omega
  · intro h
    have := mul_le_mul_of_nonneg_right (Int.add_one_le_of_lt h) (Int.natCast_nonneg m.width)
    rw [add_mul, one_mul] at this
    omega

theorem Maze.Inside.index (h : m.Inside x y) :
    0 ≤ y * m.width + x ∧ y * m.width + x < m.mazeCells.length :=
  ⟨Maze.index_nonneg h.1.1 h.2.1, (Maze.index_lt_iff h.1).mpr h.2.2⟩

theorem mazeSwitch_of_lookup (h : mazeLookup m x y key = some i) : mazeSwitch m x y key =
    if m.read i = .WALL then none else some (mazeShift x y key) := by
  cases key with
  | esc => cases h
  | other code => cases h
  | _ => simp only [mazeSwitch, h, Option.bind_some]

theorem mazeStep_stays (h : ∀ i, mazeLookup m s.posX s.posY key = some i → m.read i = .WALL) :
    (mazeStep m e s key).posX = s.posX ∧ (mazeStep m e s key).posY = s.posY := by
  cases hl : mazeLookup m s.posX s.posY key with
  | some i =>
    rw [mazeStep, mazeSwitch_of_lookup hl, if_pos (h i hl)]
    exact ⟨rfl, rfl⟩
  | none =>
    cases key with
    | esc => exact ⟨rfl, rfl⟩
    | other code => exact ⟨rfl, rfl⟩
    | _ =>
      simp only [mazeStep, mazeSwitch, hl, Option.bind_none]
      exact ⟨trivial, trivial⟩

theorem mazeStep_moves (h : mazeLookup m s.posX s.posY key = some i) (hi : m.read i ≠ .WALL) :
    ((mazeStep m e s key).posX, (mazeStep m e s key).posY) = mazeShift s.posX s.posY key := by
  rw [mazeStep, mazeSwitch_of_lookup h, if_neg hi]

theorem safePass_of_stays (hs : s.Safe m)
    (hlookup : ∀ i, mazeLookup m s.posX s.posY key = some i →
      m.read i = .WALL ∧ 0 ≤ i ∧ i < m.mazeCells.length) : SafePass m e s key := by
  obtain ⟨hx, hy⟩ := mazeStep_stays (e := e) fun i hi => (hlookup i hi).1
  constructor
  case lookup => exact fun i hi => (hlookup i hi).2
  case moved => exact Or.inl (by rw [hx, hy])
  case safe =>
    constructor
    · rw [hx, hy]; exact hs.inside
    · rw [hx, hy]; exact hs.notWall

theorem safePass_of_inside (hs : s.Safe m)
    (hl : mazeLookup m s.posX s.posY key = some (y * m.width + x))
    (hshift : mazeShift s.posX s.posY key = (x, y)) (hin : m.Inside x y) :
    SafePass m e s key := by
  by_cases hw : m.read (y * m.width + x) = .WALL
  · apply safePass_of_stays hs
    intro i hi
    obtain rfl := Option.some.inj (hl.symm.trans hi)
    exact ⟨hw, hin.index⟩
  · have hmove := mazeStep_moves (e := e) hl hw
    have hpos := hmove.trans hshift
    rw [Prod.mk.injEq] at hpos
    constructor
    case lookup =>
      intro i hi
      obtain rfl := Option.some.inj (hl.symm.trans hi)
      exact hin.index
    case moved => exact Or.inr hmove
    case safe =>
      constructor
      · rw [hpos.1, hpos.2]; exact hin
      · rw [hpos.1, hpos.2]; exact hw

theorem safePass_down_iff (hs : s.Safe m) :
    SafePass m e s .down ↔ s.posY + 1 < m.height := by
  obtain ⟨hx, hy⟩ := hs.inside
  have hl : mazeLookup m s.posX s.posY .down = some ((s.posY + 1) * m.width + s.posX) :=
    if_neg (ne_of_lt hy.2)
  constructor
  · intro h
    exact (Maze.index_lt_iff hx).mp (h.lookup _ hl).2
  · intro h
    exact safePass_of_inside hs hl rfl ⟨hx, by omega, h⟩

theorem safePass_right_iff (hs : s.Safe m) :
    SafePass m e s .right ↔ s.posX + 1 < m.width ∨
      (s.posY + 1 < m.height ∧ m.cell 0 (s.posY + 1) = .WALL) := by
  obtain ⟨hx, hy⟩ := hs.inside
  have hl : mazeLookup m s.posX s.posY .right = some (s.posY * m.width + (s.posX + 1)) := by
    rw [← add_assoc]
    exact if_neg (ne_of_lt hx.2)
  by_cases hlast : s.posX + 1 < m.width
  · exact iff_of_true (safePass_of_inside hs hl rfl ⟨⟨by omega, hlast⟩, hy⟩) (Or.inl hlast)
  · -- the cell looked at is the first one of the next row
    have hwidth := m.width_pos
    have hnext : s.posY * m.width + (s.posX + 1) = (s.posY + 1) * m.width + 0 := by
      rw [add_mul, one_mul]
      omega
    have hzero : (0 : ℤ) ≤ 0 ∧ (0 : ℤ) < m.width := ⟨le_rfl, by omega⟩
    rw [hnext] at hl
    rw [or_iff_right hlast]
    constructor
    · intro h
      refine ⟨(Maze.index_lt_iff hzero).mp (h.lookup _ hl).2, ?_⟩
      by_contra hw
      have hpos := mazeStep_moves (e := e) hl hw
      rw [mazeShift, Prod.mk.injEq] at hpos
      have hin := h.safe.inside
      rw [hpos.1] at hin
      exact hlast hin.1.2
    · rintro ⟨hrow, hw⟩
      apply safePass_of_stays hs
      intro i hi
      obtain rfl := Option.some.inj (hl.symm.trans hi)
      exact ⟨hw, Maze.index_nonneg le_rfl (by omega), (Maze.index_lt_iff hzero).mpr hrow⟩

theorem safePass_iff (hs : s.Safe m) : SafePass m e s key ↔ StaysInside m s key := by
  obtain ⟨hx, hy⟩ := hs.inside
  cases key with
  | up =>
    refine iff_of_true ?_ ⟨nofun, nofun⟩
    by_cases h0 : s.posY = 0
    · exact safePass_of_stays hs fun i hi => by simp [mazeLookup, h0] at hi
    · exact safePass_of_inside hs (if_neg h0) rfl ⟨hx, by omega, by omega⟩
  | down =>
    rw [safePass_down_iff hs]
    constructor
    · intro h
      exact ⟨fun _ => h, nofun⟩
    · intro h
      exact h.down rfl
  | left =>
    refine iff_of_true ?_ ⟨nofun, nofun⟩
    by_cases h0 : s.posX = 0
    · exact safePass_of_stays hs fun i hi => by simp [mazeLookup, h0] at hi
    · have hl : mazeLookup m s.posX s.posY .left = some (s.posY * m.width + (s.posX - 1)) := by
        rw [← add_sub_assoc]
        exact if_neg h0
      exact safePass_of_inside hs hl rfl ⟨⟨by omega, by omega⟩, hy⟩
  | right =>
    rw [safePass_right_iff hs]
    constructor
    · intro h
      exact ⟨nofun, fun _ => h⟩
    · intro h
      exact h.right rfl
  | esc => exact iff_of_true (safePass_of_stays hs fun i hi => by cases hi) ⟨nofun, nofun⟩
  | other code => exact iff_of_true (safePass_of_stays hs fun i hi => by cases hi) ⟨nofun, nofun⟩

/-- The start noticed lies in the labyrinth, and where cells have pixels it is a START cell. -/
theorem paintMaze_start (hstart : .START ∈ m.mazeCells) (side : ℕ) :
    m.Inside (paintMaze m side).posX (paintMaze m side).posY ∧
      (0 < side → m.cell (paintMaze m side).posX (paintMaze m side).posY = .START) := by
  rcases Nat.eq_zero_or_pos side with rfl | hside
  · have hw := m.width_pos
    have hh := m.height_pos
    rw [paintMaze_zero]
    exact ⟨⟨⟨by simp, by simpa⟩, by simp, by simpa⟩, fun h => absurd h (Nat.lt_irrefl 0)⟩
  · obtain ⟨c, hc⟩ := Maze.exists_last hstart
    obtain ⟨hin, hcell⟩ := Maze.last_spec hc
    rw [paintMaze_of_pos hside, hc]
    exact ⟨hin, fun _ => hcell⟩

theorem mazeStart_safe_iff (hstart : .START ∈ m.mazeCells) (side : ℕ) :
    (mazeStart (paintMaze m side)).Safe m ↔ 0 < side ∨ m.cell 0 0 ≠ .WALL := by
  obtain ⟨hin, hcell⟩ := paintMaze_start hstart side
  constructor
  · intro h
    rcases Nat.eq_zero_or_pos side with rfl | hside
    · have hw := h.notWall
      rw [paintMaze_zero] at hw
      exact Or.inr hw
    · exact Or.inl hside
  · intro h
    refine ⟨hin, ?_⟩
    rcases Nat.eq_zero_or_pos side with rfl | hside
    · rw [paintMaze_zero]
      exact h.resolve_left (Nat.lt_irrefl 0)
    · intro hw
      exact absurd ((hcell hside).symm.trans hw) (by decide)

/-- The whole run is safe: its start, and every pass it makes. -/
def MazeSafe (m : Maze) (side : ℕ) (keys : List ScanCode) : Prop :=
  (mazeStart (paintMaze m side)).Safe m ∧
    ∀ p ∈ mazePasses m (paintMaze m side) keys, SafePass m (paintMaze m side) p.1 p.2

/-- A run is safe just when cells have pixels, or the first cell is no wall, and no pass of it
leaves the labyrinth at the lower or the right edge. -/
theorem mazeSafe_iff (m : Maze) (hstart : .START ∈ m.mazeCells) (width height : UINT16)
    (keys : List ScanCode) :
    MazeSafe m (cellSide m width height) keys ↔
      (0 < cellSide m width height ∨ m.cell 0 0 ≠ .WALL) ∧
        ∀ p ∈ mazePasses m (paintMaze m (cellSide m width height)) keys,
          StaysInside m p.1 p.2 := by
  rw [MazeSafe, mazeStart_safe_iff hstart]
  apply and_congr_right
  intro h
  rw [mazePasses]
  exact Run.forall_passes_iff (I := MazeState.Safe m) (fun _ _ _ hs => safePass_iff hs)
    (fun _ _ _ _ hp => hp.safe) ((mazeStart_safe_iff hstart _).mpr h) keys

/-- One row, the start on the left and an open cell on the right border. -/
def openRow : Maze where
  width := 2
  height := 1
  mazeCells := [.START, .EMPTY]
  outside := fun _ => .EMPTY
  width_pos := by decide
  height_pos := by decide
  length_eq := by decide

theorem mazeSafe_iff_openRow :
    MazeSafe openRow (cellSide openRow 800 600) [.right, .up] ↔
      (0 < cellSide openRow 800 600 ∨ openRow.cell 0 0 ≠ .WALL) ∧
        ∀ p ∈ mazePasses openRow (paintMaze openRow (cellSide openRow 800 600)) [.right, .up],
          StaysInside openRow p.1 p.2 :=
  mazeSafe_iff openRow (by decide) 800 600 [.right, .up]

theorem paintMaze_openRow : paintMaze openRow (cellSide openRow 800 600) = ⟨0, 0, 0, 0⟩ := by
  rw [paintMaze_of_pos (by decide)]
  decide

/-- A second SCAN_RIGHT reads behind the row. -/
theorem not_mazeSafe_openRow : ¬ MazeSafe openRow (cellSide openRow 800 600) [.right, .right] := by
  rintro ⟨-, h⟩
  rw [paintMaze_openRow] at h
  have hmem : (⟨1, 0, false, false⟩, ScanCode.right) ∈
      mazePasses openRow ⟨0, 0, 0, 0⟩ [.right, .right] := by
    decide
  have hread := (h _ hmem).lookup 2 rfl
  exact absurd hread.2 (by decide)

end UefiGame
