import UefiGame.Game.Map
import UefiGame.Library.Run

/-! # The key loop of the two-dimensional game

Each pass of the loop in `Game` reads one key, lets the key switch look at one
neighbouring cell, and then tests `MapValue`. That local is not initialised and
only some arms of the switch assign it, so it is part of the loop's state.
-/

namespace UefiGame

/-- The scan codes the switch distinguishes. -/
inductive ScanCode where
  | up
  | down
  | left
  | right
  | esc
  | other (code : UINT16)
  deriving DecidableEq, Repr

/-- `ESCAPE_ENTRY`, that is `MAX_UINTN`. -/
def ESCAPE_ENTRY : UINTN := BitVec.allOnes 64

/-- The locals of `Game` that live across the passes of its loop. -/
structure GameState where
  curX : UINTN
  curY : UINTN
  mapValue : UINTN
  entryToBoot : UINTN
  escaped : Bool
  deriving DecidableEq, Repr

/-- The locals on entry to the loop; `garbage` is what `MapValue` happens to hold. -/
def gameStart (garbage : UINTN) : GameState where
  curX := 1
  curY := 17
  mapValue := garbage
  entryToBoot := ESCAPE_ENTRY
  escaped := false

/-- The index the key switch reads from `Map`; `none` where it breaks before reading. -/
def lookup (m : MazeMap) (curX curY : UINTN) : ScanCode → Option UINTN
  | .up => if curY = 0 then none else some ((curY - 1) * m.width + curX)
  | .down => if curY = m.height - 1 then none else some ((curY + 1) * m.width + curX)
  | .left => if curX = 0 then none else some (curY * m.width + curX - 1)
  | .right => if curX = m.width - 1 then none else some (curY * m.width + curX + 1)
  | .esc => none
  | .other _ => none

/-- `NewX` and `NewY` where the switch does not break early. -/
def shifted (curX curY : UINTN) : ScanCode → UINTN × UINTN
  | .up => (curX, curY - 1)
  | .down => (curX, curY + 1)
  | .left => (curX - 1, curY)
  | .right => (curX + 1, curY)
  | .esc => (curX, curY)
  | .other _ => (curX, curY)

/-- The test that lets the player onto a cell: `!(MapValue != 0 && MapValue < bootable_start)`. -/
def Walkable (bootableStart v : UINTN) : Prop := ¬ (v ≠ 0 ∧ v < bootableStart)

instance (bootableStart v : UINTN) : Decidable (Walkable bootableStart v) :=
  inferInstanceAs (Decidable (¬ _))

/-- The key switch together with the assignment of `CurX` and `CurY` after it. -/
def keySwitch (m : MazeMap) (bootableStart : UINTN) (s : GameState) (key : ScanCode) : GameState :=
  match lookup m s.curX s.curY key with
  | some i =>
    let v := m.read i
    if Walkable bootableStart v then
      { s with
        curX := (shifted s.curX s.curY key).1
        curY := (shifted s.curX s.curY key).2
        mapValue := v }
    else { s with mapValue := v }
  | none => if key = .esc then { s with escaped := true } else s

/-- The test of `MapValue` that ends each pass. -/
def testMapValue (bootableStart : UINTN) (s : GameState) : GameState :=
  if bootableStart ≤ s.mapValue then
    { s with entryToBoot := s.mapValue - bootableStart, escaped := true }
  else s

/-- One pass of the loop. -/
def gameStep (m : MazeMap) (bootableStart : UINTN) (s : GameState) (key : ScanCode) : GameState :=
  testMapValue bootableStart (keySwitch m bootableStart s key)

/-- The loop over the given keys; it waits for a further key as long as `escaped` is unset. -/
def gameRun (m : MazeMap) (bootableStart : UINTN) (s : GameState) (keys : List ScanCode) :
    GameState :=
  Run.run (gameStep m bootableStart) GameState.escaped s keys

section Position

variable {m : MazeMap} {b : UINTN} {s : GameState} {key : ScanCode}

/-- The player stands inside the map. -/
def GameState.Inside (m : MazeMap) (s : GameState) : Prop :=
  s.curX.toNat < m.width.toNat ∧ s.curY.toNat < m.height.toNat

/-- The two cells share an edge. -/
def Adjacent (x y x' y' : ℕ) : Prop :=
  (x' = x ∧ (y' + 1 = y ∨ y' = y + 1)) ∨ (y' = y ∧ (x' + 1 = x ∨ x' = x + 1))

/-- A pass leaves the player in place or takes one step onto a cell open to him. -/
def SafeMove (m : MazeMap) (b : UINTN) (s s' : GameState) : Prop :=
  (s'.curX = s.curX ∧ s'.curY = s.curY) ∨
  (Adjacent s.curX.toNat s.curY.toNat s'.curX.toNat s'.curY.toNat ∧
    (m.cell s'.curX.toNat s'.curY.toNat = 0 ∨ b ≤ m.cell s'.curX.toNat s'.curY.toNat))

theorem walkable_iff {v : UINTN} : Walkable b v ↔ v = 0 ∨ b ≤ v := by
  rw [Walkable, not_and, BitVec.not_lt]
  exact Decidable.or_iff_not_imp_left.symm

theorem toNat_sub_one {x : UINTN} (h : x ≠ 0) : (x - 1).toNat + 1 = x.toNat := by
  bv_omega

theorem toNat_add_one {x n : UINTN} (hx : x.toNat < n.toNat) : (x + 1).toNat = x.toNat + 1 := by
  bv_omega

theorem add_one_lt {x n : UINTN} (hx : x.toNat < n.toNat) (h : x ≠ n - 1) :
    (x + 1).toNat < n.toNat := by
  bv_omega

/-- A lookup that is not guarded off reads the cell next to the player in the key's direction. -/
theorem lookup_spec (hs : s.Inside m) {i : UINTN} (h : lookup m s.curX s.curY key = some i) :
    (shifted s.curX s.curY key).1.toNat < m.width.toNat ∧
    (shifted s.curX s.curY key).2.toNat < m.height.toNat ∧
    i = m.index (shifted s.curX s.curY key).1 (shifted s.curX s.curY key).2 ∧
    Adjacent s.curX.toNat s.curY.toNat
      (shifted s.curX s.curY key).1.toNat (shifted s.curX s.curY key).2.toNat := by
  obtain ⟨hx, hy⟩ := hs
  cases key <;> simp only [lookup, Option.ite_none_left_eq_some, Option.some.injEq,
    reduceCtorEq] at h <;> obtain ⟨hg, rfl⟩ := h <;> simp only [shifted, MazeMap.index]
  case up =>
    have he := toNat_sub_one hg
    exact ⟨hx, by omega, trivial, Or.inl ⟨rfl, Or.inl he⟩⟩
  case down =>
    exact ⟨hx, add_one_lt hy hg, trivial, Or.inl ⟨rfl, Or.inr (toNat_add_one hy)⟩⟩
  case left =>
    have he := toNat_sub_one hg
    exact ⟨by omega, hy, by bv_omega, Or.inr ⟨rfl, Or.inl he⟩⟩
  case right =>
    exact ⟨add_one_lt hx hg, hy, BitVec.add_assoc .., Or.inr ⟨rfl, Or.inr (toNat_add_one hx)⟩⟩

theorem lookup_lt (hs : s.Inside m) {i : UINTN} (h : lookup m s.curX s.curY key = some i) :
    i.toNat < m.cells.length := by
  obtain ⟨hx, hy, rfl, -⟩ := lookup_spec hs h
  exact MazeMap.index_lt hx hy

@[simp] theorem testMapValue_curX : (testMapValue b s).curX = s.curX := by
  unfold testMapValue; split <;> rfl

@[simp] theorem testMapValue_curY : (testMapValue b s).curY = s.curY := by
  unfold testMapValue; split <;> rfl

/-- What one pass does to the position: it stays, or a lookup succeeded and the cell is open. -/
theorem gameStep_position (m : MazeMap) (b : UINTN) (s : GameState) (key : ScanCode) :
    ((gameStep m b s key).curX = s.curX ∧ (gameStep m b s key).curY = s.curY) ∨
    ∃ i, lookup m s.curX s.curY key = some i ∧ Walkable b (m.read i) ∧
      (gameStep m b s key).curX = (shifted s.curX s.curY key).1 ∧
      (gameStep m b s key).curY = (shifted s.curX s.curY key).2 := by
  simp only [gameStep, testMapValue_curX, testMapValue_curY, keySwitch]
  cases h : lookup m s.curX s.curY key with
  | none =>
    left
    by_cases he : key = .esc
    · simp [he]
    · simp [he]
  | some i =>
    by_cases hw : Walkable b (m.read i)
    · right; exact ⟨i, rfl, hw, by simp [hw], by simp [hw]⟩
    · left; simp [hw]

theorem gameStep_inside (hs : s.Inside m) : (gameStep m b s key).Inside m := by
  rcases gameStep_position m b s key with ⟨hx, hy⟩ | ⟨i, hi, -, hx, hy⟩
  · exact ⟨hx ▸ hs.1, hy ▸ hs.2⟩
  · obtain ⟨hx', hy', -⟩ := lookup_spec hs hi
    exact ⟨hx ▸ hx', hy ▸ hy'⟩

theorem gameStep_safeMove (hs : s.Inside m) : SafeMove m b s (gameStep m b s key) := by
  rcases gameStep_position m b s key with h | ⟨i, hi, hw, hx, hy⟩
  · exact Or.inl h
  · obtain ⟨hx', hy', rfl, ha⟩ := lookup_spec hs hi
    rw [MazeMap.read_index hx' hy', walkable_iff] at hw
    rw [SafeMove, hx, hy]
    exact Or.inr ⟨ha, hw⟩

theorem gameRun_inside (hs : s.Inside m) (keys : List ScanCode) :
    (gameRun m b s keys).Inside m :=
  Run.invariant (fun _ _ _ h => gameStep_inside h) hs keys

theorem gameStart_inside (hw : 2 ≤ m.width.toNat) (hh : 18 ≤ m.height.toNat) (garbage : UINTN) :
    (gameStart garbage).Inside m := by
  constructor
  · change (1#64).toNat < m.width.toNat; bv_omega
  · change (17#64).toNat < m.height.toNat; bv_omega

/-- In every state the loop reaches the player is inside the map, the next key reads inside the
block, and it moves him by at most one cell onto an open one. -/
theorem gameRun_safe (m : MazeMap) (b garbage : UINTN) (hw : 2 ≤ m.width.toNat)
    (hh : 18 ≤ m.height.toNat) (keys : List ScanCode) (key : ScanCode) :
    (gameRun m b (gameStart garbage) keys).Inside m ∧
    (∀ i, lookup m (gameRun m b (gameStart garbage) keys).curX
        (gameRun m b (gameStart garbage) keys).curY key = some i → i.toNat < m.cells.length) ∧
    SafeMove m b (gameRun m b (gameStart garbage) keys)
      (gameStep m b (gameRun m b (gameStart garbage) keys) key) := by
  have h := gameRun_inside (b := b) (gameStart_inside hw hh garbage) keys
  exact ⟨h, fun i hi => lookup_lt h hi, gameStep_safeMove h⟩

end Position

/-- A map of the smallest size that has the start cell inside. -/
def narrowMap (rows : List (List INTN)) (hw : ∀ row ∈ rows, row.length = 2)
    (hh : rows.length = 18) : MazeMap :=
  MazeMap.ofRows 2 18 rows hw hh (by decide)

def smallestMap : MazeMap := narrowMap (List.replicate 18 [0, 0]) (by decide) (by decide)

theorem gameRun_safe_smallestMap :
    (gameRun smallestMap 11 (gameStart 0) [.up, .left, .left]).Inside smallestMap ∧
    (∀ i, lookup smallestMap (gameRun smallestMap 11 (gameStart 0) [.up, .left, .left]).curX
        (gameRun smallestMap 11 (gameStart 0) [.up, .left, .left]).curY .down = some i →
      i.toNat < smallestMap.cells.length) ∧
    SafeMove smallestMap 11 (gameRun smallestMap 11 (gameStart 0) [.up, .left, .left])
      (gameStep smallestMap 11 (gameRun smallestMap 11 (gameStart 0) [.up, .left, .left]) .down) :=
  gameRun_safe smallestMap 11 0 (by decide) (by decide) [.up, .left, .left] .down

end UefiGame
