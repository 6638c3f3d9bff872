import UefiGame.Labyrinth.Moves

/-! # Leaving the labyrinth

The key loop compares the player's position with one cell, the last END cell
that the painting loops came by. Where they painted no END cell that is the
first cell of the labyrinth. So the loop boots on reaching an exit, and only
then, just when no cell the player can visit is an exit without being that cell
or that cell without being an exit.
-/

namespace UefiGame

/-- The player's position, as column and row. -/
def MazeState.pos (s : MazeState) : ℤ × ℤ := (s.posX, s.posY)

/-- The cell in column `p.1` and row `p.2` is an exit. -/
def Maze.IsExit (m : Maze) (p : ℤ × ℤ) : Prop := m.Inside p.1 p.2 ∧ m.cell p.1 p.2 = .END

/-- The last cell of type `t` in reading order, as column and row; the first cell of the labyrinth
if there is none or cells have no pixels. -/
def Maze.noticed (m : Maze) (side : ℕ) (t : MazeCell) : ℤ × ℤ :=
  if side = 0 then (0, 0)
  else (((m.last t).getD (0, 0)).2, ((m.last t).getD (0, 0)).1)

/-- The cells the player can visit on the way from `start`, if the way ends at `exit`. -/
inductive Maze.Visits (m : Maze) (start exit : ℤ × ℤ) : ℤ × ℤ → Prop where
  | start : Visits m start exit start
  | move {p q : ℤ × ℤ} {key : ScanCode} : Visits m start exit p → p ≠ exit →
      mazeSwitch m p.1 p.2 key = some q → Visits m start exit q

/-- The pass makes the loop end without `escaped` just when it leaves the player on an exit. -/
def PassBootsOnExit (m : Maze) (e : Noticed) (s : MazeState) (key : ScanCode) : Prop :=
  ((mazeStep m e s key).left = true ∧ (mazeStep m e s key).escaped = false) ↔
    m.IsExit (mazeStep m e s key).pos

/-- So does every pass of the run. -/
def BootsOnExit (m : Maze) (side : ℕ) (keys : List ScanCode) : Prop :=
  ∀ p ∈ mazePasses m (paintMaze m side) keys, PassBootsOnExit m (paintMaze m side) p.1 p.2

/-- The player does not start on the cell noticed as the exit, and among the cells he can visit
that cell is the only one that is an exit. -/
structure ExitsMatch (m : Maze) (side : ℕ) : Prop where
  start_ne : m.noticed side .START ≠ m.noticed side .END
  visits : ∀ q, m.Visits (m.noticed side .START) (m.noticed side .END) q →
    (m.IsExit q ↔ q = m.noticed side .END)

section Exit

variable {m : Maze} {e : Noticed} {s : MazeState} {key : ScanCode} {q : ℤ × ℤ} {side : ℕ}

/-- The exit the loop compares with. -/
def Noticed.exit (e : Noticed) : ℤ × ℤ := (e.endX, e.endY)

theorem paintMaze_noticed (m : Maze) (side : ℕ) :
    (mazeStart (paintMaze m side)).pos = m.noticed side .START ∧
      (paintMaze m side).exit = m.noticed side .END := by
  unfold Maze.noticed
  rcases Nat.eq_zero_or_pos side with rfl | hside
  · rw [paintMaze_zero, if_pos rfl, if_pos rfl]
    exact ⟨rfl, rfl⟩
  · rw [paintMaze_of_pos hside, if_neg (Nat.ne_of_gt hside), if_neg (Nat.ne_of_gt hside)]
    exact ⟨rfl, rfl⟩

theorem mazeStep_of_none (h : mazeSwitch m s.posX s.posY key = none) : mazeStep m e s key = s := by
  rw [mazeStep, h]

theorem mazeStep_of_some (h : mazeSwitch m s.posX s.posY key = some q) :
    (mazeStep m e s key).pos = q ∧
      ((mazeStep m e s key).left = true ↔ q = e.exit) ∧
      (mazeStep m e s key).escaped = if key = .esc then true else s.escaped := by
  obtain ⟨x, y⟩ := q
  rw [mazeStep, h]
  exact ⟨rfl, by simp [Noticed.exit], rfl⟩

theorem over_eq_false_iff : s.over = false ↔ s.escaped = false ∧ s.left = false := by
  rw [MazeState.over, Bool.or_eq_false_iff]

/-- While the loop goes on the player stands on a cell he can visit, and not on the exit. -/
def MazeState.OnWay (m : Maze) (side : ℕ) (s : MazeState) : Prop :=
  s.over = false → m.Visits (m.noticed side .START) (m.noticed side .END) s.pos ∧
    s.pos ≠ m.noticed side .END

theorem mazeStep_onWay (h : ExitsMatch m side) (hover : s.over = false) (hs : s.OnWay m side) :
    PassBootsOnExit m (paintMaze m side) s key ∧
      (mazeStep m (paintMaze m side) s key).OnWay m side := by
  rw [PassBootsOnExit]
  obtain ⟨-, hexit⟩ := paintMaze_noticed m side
  obtain ⟨hvisits, hne⟩ := hs hover
  have hno : ¬ m.IsExit s.pos := fun he => hne ((h.visits _ hvisits).mp he)
  obtain ⟨hescaped, hleft⟩ := over_eq_false_iff.mp hover
  cases hq : mazeSwitch m s.posX s.posY key with
  | none =>
    rw [mazeStep_of_none hq]
    exact ⟨iff_of_false (by simp [hleft]) hno, hs⟩
  | some q =>
    obtain ⟨hpos, hleft', hescaped'⟩ := mazeStep_of_some (e := paintMaze m side) hq
    rw [hexit] at hleft'
    by_cases hkey : key = .esc
    · subst hkey
      obtain rfl : s.pos = q := Option.some.inj hq
      rw [if_pos rfl] at hescaped'
      constructor
      · rw [hpos]
        exact iff_of_false (by simp [hescaped']) hno
      · intro hover'
        rw [(over_eq_false_iff.mp hover').1] at hescaped'
        cases hescaped'
    · have hnext := hvisits.move hne hq
      rw [if_neg hkey, hescaped] at hescaped'
      constructor
      · rw [hpos, h.visits q hnext, hleft']
        exact and_iff_left hescaped'
      · intro hover'
        rw [hpos]
        refine ⟨hnext, fun he => ?_⟩
        have hstop := hleft'.mpr he
        rw [(over_eq_false_iff.mp hover').2] at hstop
        cases hstop

theorem bootsOnExit_of_exitsMatch (h : ExitsMatch m side) (keys : List ScanCode) :
    BootsOnExit m side keys := by
  refine Run.forall_passes (I := MazeState.OnWay m side) (P := PassBootsOnExit m (paintMaze m side))
    ?_ ?_ keys
  · intro s key hover hs
    exact mazeStep_onWay h hover hs
  · intro _
    rw [(paintMaze_noticed m side).1]
    exact ⟨.start, h.start_ne⟩

/-- If every run boots on exits, a cell that can be visited is visited by a run, and told apart
from the exit there. -/
theorem exists_run_of_visits (h : ∀ keys, BootsOnExit m side keys)
    (hne : m.noticed side .START ≠ m.noticed side .END)
    (hstart : ¬ m.IsExit (m.noticed side .START))
    (hq : m.Visits (m.noticed side .START) (m.noticed side .END) q) :
    (m.IsExit q ↔ q = m.noticed side .END) ∧ ∃ keys,
      (mazeRun m (paintMaze m side) keys).pos = q ∧
        (q ≠ m.noticed side .END → (mazeRun m (paintMaze m side) keys).over = false) := by
  obtain ⟨hpos₀, hexit⟩ := paintMaze_noticed m side
  induction hq with
  | start => exact ⟨iff_of_false hstart hne, [], hpos₀, fun _ => rfl⟩
  | @move p q key _ hp hq ih =>
    obtain ⟨hiff, keys, hpos, hover⟩ := ih
    have hgoing := hover hp
    by_cases hkey : key = .esc
    · subst hkey
      obtain rfl : p = q := Option.some.inj hq
      exact ⟨hiff, keys, hpos, hover⟩
    · have hmem := h (keys ++ [key]) _ (Run.mem_passes_append hgoing key)
      have hrun : mazeRun m (paintMaze m side) (keys ++ [key]) =
          mazeStep m (paintMaze m side) (mazeRun m (paintMaze m side) keys) key := by
        rw [mazeRun, Run.run_append]
        exact Run.run_cons_of_not_halted hgoing ..
      rw [← hpos] at hq
      obtain ⟨hpos', hleft, hescaped⟩ := mazeStep_of_some (e := paintMaze m side) hq
      rw [if_neg hkey, (over_eq_false_iff.mp hgoing).1] at hescaped
      rw [hexit] at hleft
      change PassBootsOnExit m _ (mazeRun m _ keys) key at hmem
      rw [PassBootsOnExit, hpos', hleft] at hmem
      refine ⟨?_, keys ++ [key], by rw [hrun, hpos'], fun hqe => ?_⟩
      · rw [← hmem]
        exact and_iff_left hescaped
      · rw [hrun, over_eq_false_iff, ← Bool.not_eq_true (MazeState.left _), hleft]
        exact ⟨hescaped, hqe⟩

theorem exitsMatch_of_bootsOnExit (h : ∀ keys, BootsOnExit m side keys) : ExitsMatch m side := by
  obtain ⟨hpos, hexit⟩ := paintMaze_noticed m side
  have hpass : ∀ key, (mazeStart (paintMaze m side), key) ∈
      mazePasses m (paintMaze m side) [key] := fun key => List.mem_cons_self
  -- ESC leaves the player where he starts, and the loop with `escaped`
  have hstart : ¬ m.IsExit (m.noticed side .START) := by
    intro he
    have hesc := (h [.esc] _ (hpass .esc)).mpr (hpos ▸ he)
    exact absurd hesc.2 (by simp [mazeStep, mazeSwitch])
  have hne : m.noticed side .START ≠ m.noticed side .END := by
    intro he
    have hleft : (mazeStart (paintMaze m side)).pos = (paintMaze m side).exit := by
      rw [hpos, hexit, he]
    have hother := (h [.other 0] _ (hpass (.other 0))).mp
      ⟨(mazeStep_of_some (q := (mazeStart (paintMaze m side)).pos) rfl).2.1.mpr hleft, rfl⟩
    exact hstart (hpos ▸ hother)
  exact ⟨hne, fun q hq => (exists_run_of_visits h hne hstart hq).1⟩

theorem exitsMatch_of_single (hside : 0 < side) (hstart : .START ∈ m.mazeCells)
    (hexit : .END ∈ m.mazeCells) (hsingle : ∀ p q, m.IsExit p → m.IsExit q → p = q) :
    ExitsMatch m side := by
  obtain ⟨c, hc⟩ := Maze.exists_last hstart
  obtain ⟨d, hd⟩ := Maze.exists_last hexit
  obtain ⟨-, hcell⟩ := Maze.last_spec hc
  have hend : m.IsExit ((d.2 : ℤ), (d.1 : ℤ)) := Maze.last_spec hd
  have hnoticed : m.noticed side .END = ((d.2 : ℤ), (d.1 : ℤ)) := by
    rw [Maze.noticed, if_neg (Nat.ne_of_gt hside), hd]
    rfl
  constructor
  case start_ne =>
    rw [hnoticed, Maze.noticed, if_neg (Nat.ne_of_gt hside), hc]
    intro he
    obtain ⟨hx, hy⟩ := Prod.mk.inj he
    change (c.2 : ℤ) = d.2 at hx
    change (c.1 : ℤ) = d.1 at hy
    rw [hx, hy, hend.2] at hcell
    cases hcell
  case visits =>
    intro q _
    rw [hnoticed]
    constructor
    · intro hq
      exact hsingle _ _ hq hend
    · rintro rfl
      exact hend

theorem not_exitsMatch_zero (m : Maze) : ¬ ExitsMatch m 0 := fun h => h.start_ne rfl

end Exit

/-- For a labyrinth on a screen, every run boots exactly on reaching an exit just when the exit
noticed is the only exit among the cells that can be visited, and not where the player starts. -/
theorem bootsOnExit_iff (m : Maze) (width height : UINT16) :
    (∀ keys, BootsOnExit m (cellSide m width height) keys) ↔
      ExitsMatch m (cellSide m width height) := by
  constructor
  · exact exitsMatch_of_bootsOnExit
  · intro h keys
    exact bootsOnExit_of_exitsMatch h keys

/-- Without an exit the loop boots on the first cell of the labyrinth. -/
theorem not_bootsOnExit_openRow :
    ¬ ∀ keys, BootsOnExit openRow (cellSide openRow 800 600) keys := by
  intro h
  have hpass := h [.other 0]
  rw [BootsOnExit, paintMaze_openRow] at hpass
  have hexit := (hpass (⟨0, 0, false, false⟩, .other 0) List.mem_cons_self).mp ⟨rfl, rfl⟩
  exact absurd hexit.2 (by decide)

end UefiGame
