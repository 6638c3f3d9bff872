import UefiGame.Game.Map

/-! # Searching for the wall

For every column of the screen `Game` of the 3D program walks from cell to cell
along a ray, one step in the direction whose next grid line is closer, until it
comes to a cell with a positive value. The loop has no bound of its own: it
ends because the border of the map is positive.
-/

namespace UefiGame

/-- `stepX` and `stepY` of a ray. -/
structure Ray where
  stepX : INT32
  stepY : INT32
  stepX_unit : stepX = 1 ∨ stepX = -1
  stepY_unit : stepY = 1 ∨ stepY = -1

/-- The locals `mapX`, `mapY` and `side` of the search; `side` stands for `side == 1`. -/
structure DdaState where
  mapX : INT32
  mapY : INT32
  side : Bool
  deriving DecidableEq, Repr

/-- One step along the ray; `closer` is the outcome of `sideDistX < sideDistY`. -/
def ddaStep (r : Ray) (closer : Bool) (s : DdaState) : DdaState :=
  if closer then { s with mapX := s.mapX + r.stepX, side := false }
  else { s with mapY := s.mapY + r.stepY, side := true }

/-- `Map[mapY * MapWidth + mapX]`. -/
def MazeMap.tile (m : MazeMap) (mapX mapY : INT32) : INTN :=
  m.read (m.index (uintnOfInt32 mapX) (uintnOfInt32 mapY))

/-- At most `n` passes of the search, with the outcomes `o` of the comparison; `none` if it has not
ended by then. -/
def ddaLoop (m : MazeMap) (r : Ray) : ℕ → (ℕ → Bool) → DdaState → Option DdaState
  | 0, _, _ => none
  | n + 1, o, s =>
    let s' := ddaStep r (o 0) s
    if 0 < (m.tile s'.mapX s'.mapY).toInt then some s'
    else ddaLoop m r n (fun i => o (i + 1)) s'

/-- The locals after `k` steps. -/
def ddaState (r : Ray) : (ℕ → Bool) → DdaState → ℕ → DdaState
  | _, s, 0 => s
  | o, s, k + 1 => ddaState r (fun i => o (i + 1)) (ddaStep r (o 0) s) k

namespace MazeMap

/-- The column and row lie in the map. -/
def Contains (m : MazeMap) (mapX mapY : INT32) : Prop :=
  (0 ≤ mapX.toInt ∧ mapX.toInt < m.width.toNat) ∧ 0 ≤ mapY.toInt ∧ mapY.toInt < m.height.toNat

/-- The column and row lie in the map, but not on its border. -/
def Interior (m : MazeMap) (mapX mapY : INT32) : Prop :=
  (0 < mapX.toInt ∧ mapX.toInt + 1 < m.width.toNat) ∧
    0 < mapY.toInt ∧ mapY.toInt + 1 < m.height.toNat

/-- Every cell on the border is positive. -/
def Bordered (m : MazeMap) : Prop :=
  ∀ x < m.width.toNat, ∀ y < m.height.toNat,
    x = 0 ∨ y = 0 ∨ x + 1 = m.width.toNat ∨ y + 1 = m.height.toNat → 0 < (m.cell x y).toInt

instance (m : MazeMap) (mapX mapY : INT32) : Decidable (m.Interior mapX mapY) :=
  inferInstanceAs (Decidable (_ ∧ _))

instance (m : MazeMap) : Decidable m.Bordered :=
  inferInstanceAs (Decidable (∀ _ < _, ∀ _ < _, _ → _))

variable {m : MazeMap} {mapX mapY : INT32}

theorem Contains.tile_eq (h : m.Contains mapX mapY) :
    (m.index (uintnOfInt32 mapX) (uintnOfInt32 mapY)).toNat < m.cells.length ∧
      m.tile mapX mapY = m.cell mapX.toInt.toNat mapY.toInt.toNat := by
  obtain ⟨⟨hx, hx'⟩, hy, hy'⟩ := h
  have hX := toNat_uintnOfInt32 hx
  have hY := toNat_uintnOfInt32 hy
  have hXlt : (uintnOfInt32 mapX).toNat < m.width.toNat := by omega
  have hYlt : (uintnOfInt32 mapY).toNat < m.height.toNat := by omega
  refine ⟨index_lt hXlt hYlt, ?_⟩
  rw [tile, read_index hXlt hYlt, hX, hY]

theorem Contains.interior (hb : m.Bordered) (h : m.Contains mapX mapY)
    (hopen : ¬ 0 < (m.tile mapX mapY).toInt) : m.Interior mapX mapY := by
  rw [h.tile_eq.2] at hopen
  obtain ⟨⟨hx, hx'⟩, hy, hy'⟩ := h
  have hborder := mt (hb mapX.toInt.toNat (by omega) mapY.toInt.toNat (by omega)) hopen
  unfold Interior
  omega

end MazeMap

/-- The number of steps after which the ray would leave the map. -/
def Ray.room (r : Ray) (m : MazeMap) (s : DdaState) : ℕ :=
  (if r.stepX = 1 then m.width.toNat - 1 - s.mapX.toInt.toNat else s.mapX.toInt.toNat) +
    if r.stepY = 1 then m.height.toNat - 1 - s.mapY.toInt.toNat else s.mapY.toInt.toNat

/-- The search for a wall has ended after `n` passes in `s'`. All cells it looked at lie in the
map, and the last one is the first that is positive. -/
structure DdaEnds (m : MazeMap) (r : Ray) (o : ℕ → Bool) (s : DdaState) (n : ℕ) (s' : DdaState) :
    Prop where
  loop : ddaLoop m r n o s = some s'
  reached : s' = ddaState r o s n
  contains : ∀ k, 1 ≤ k → k ≤ n → m.Contains (ddaState r o s k).mapX (ddaState r o s k).mapY
  passed : ∀ k, 1 ≤ k → k < n →
    ¬ 0 < (m.tile (ddaState r o s k).mapX (ddaState r o s k).mapY).toInt
  wall : 0 < (m.tile s'.mapX s'.mapY).toInt

section Search

variable {m : MazeMap} {r : Ray} {o : ℕ → Bool} {s s' : DdaState} {n : ℕ}

theorem toInt_add_one {v : INT32} {w : ℕ} (h : v.toInt + 1 < w) (hw : w ≤ 2 ^ 31) :
    (v + 1).toInt = v.toInt + 1 := by
  have hlo : -2 ^ 31 ≤ v.toInt := BitVec.le_toInt v
  have hone : (1 : INT32).toInt = 1 := by decide
  rw [BitVec.toInt_add, hone, Int.bmod_eq_of_le] <;> omega

theorem toInt_sub_one {v : INT32} (h : 0 < v.toInt) : (v + -1).toInt = v.toInt - 1 := by
  have hhi : v.toInt < 2 ^ 31 := BitVec.toInt_lt
  have hone : (-1 : INT32).toInt = -1 := by decide
  rw [BitVec.toInt_add, hone, Int.bmod_eq_of_le] <;> omega

/-- A step from the interior stays in the map and uses up one step of its room. -/
theorem ddaStep_spec (hw : m.width.toNat ≤ 2 ^ 31) (hh : m.height.toNat ≤ 2 ^ 31)
    (hs : m.Interior s.mapX s.mapY) (closer : Bool) :
    m.Contains (ddaStep r closer s).mapX (ddaStep r closer s).mapY ∧
      r.room m (ddaStep r closer s) + 1 = r.room m s := by
  obtain ⟨⟨hx, hx'⟩, hy, hy'⟩ := hs
  have hne : (-1 : INT32) ≠ 1 := by decide
  cases closer with
  | true =>
    rw [ddaStep, if_pos rfl]
    rcases r.stepX_unit with h | h
    · have hadd := toInt_add_one hx' hw
      simp only [MazeMap.Contains, Ray.room, h, hadd, if_true]
      omega
    · have hsub := toInt_sub_one hx
      simp only [MazeMap.Contains, Ray.room, h, hsub, if_neg hne]
      omega
  | false =>
    rw [ddaStep, if_neg Bool.false_ne_true]
    rcases r.stepY_unit with h | h
    · have hadd := toInt_add_one hy' hh
      simp only [MazeMap.Contains, Ray.room, h, hadd, if_true]
      omega
    · have hsub := toInt_sub_one hy
      simp only [MazeMap.Contains, Ray.room, h, hsub, if_neg hne]
      omega

theorem room_lt (hs : m.Interior s.mapX s.mapY) :
    r.room m s ≤ m.width.toNat + m.height.toNat := by
  obtain ⟨⟨hx, hx'⟩, hy, hy'⟩ := hs
  unfold Ray.room
  split_ifs <;> omega

theorem ddaEnds_one (hin : m.Contains (ddaStep r (o 0) s).mapX (ddaStep r (o 0) s).mapY)
    (hwall : 0 < (m.tile (ddaStep r (o 0) s).mapX (ddaStep r (o 0) s).mapY).toInt) :
    DdaEnds m r o s 1 (ddaStep r (o 0) s) := by
  constructor
  case loop => rw [ddaLoop]; exact if_pos hwall
  case reached => rfl
  case contains =>
    intro k hk hk'
    obtain rfl : k = 1 := le_antisymm hk' hk
    exact hin
  case passed =>
    intro k hk hk'
    omega
  case wall => exact hwall

theorem DdaEnds.step (hin : m.Contains (ddaStep r (o 0) s).mapX (ddaStep r (o 0) s).mapY)
    (hopen : ¬ 0 < (m.tile (ddaStep r (o 0) s).mapX (ddaStep r (o 0) s).mapY).toInt)
    (h : DdaEnds m r (fun i => o (i + 1)) (ddaStep r (o 0) s) n s') :
    DdaEnds m r o s (n + 1) s' := by
  constructor
  case loop =>
    rw [ddaLoop, ← h.loop]
    exact if_neg hopen
  case reached => exact h.reached
  case contains =>
    intro k hk hk'
    cases k with
    | zero => omega
    | succ k =>
      rcases Nat.eq_zero_or_pos k with rfl | hpos
      · exact hin
      · exact h.contains k hpos (Nat.le_of_succ_le_succ hk')
  case passed =>
    intro k hk hk'
    cases k with
    | zero => omega
    | succ k =>
      rcases Nat.eq_zero_or_pos k with rfl | hpos
      · exact hopen
      · exact h.passed k hpos (Nat.lt_of_succ_lt_succ hk')
  case wall => exact h.wall

theorem exists_ddaEnds_le (hb : m.Bordered) (hw : m.width.toNat ≤ 2 ^ 31)
    (hh : m.height.toNat ≤ 2 ^ 31) (hs : m.Interior s.mapX s.mapY) :
    ∃ k s', k ≤ r.room m s ∧ DdaEnds m r o s k s' := by
  induction hn : r.room m s using Nat.strong_induction_on generalizing o s with
  | _ n ih =>
    obtain ⟨hin, hroom⟩ := ddaStep_spec (r := r) hw hh hs (o 0)
    by_cases hwall : 0 < (m.tile (ddaStep r (o 0) s).mapX (ddaStep r (o 0) s).mapY).toInt
    · exact ⟨1, _, by omega, ddaEnds_one hin hwall⟩
    · obtain ⟨k, s', hk, h⟩ := ih _ (by omega) (o := fun i => o (i + 1)) (hin.interior hb hwall) rfl
      exact ⟨k + 1, s', by omega, h.step hin hwall⟩

end Search

/-- In a bordered map whose dimensions fit `int`, the search from a cell inside the border ends
within `MapWidth + MapHeight` passes, for all outcomes of the comparison. -/
theorem exists_ddaEnds (m : MazeMap) (hb : m.Bordered) (hw : m.width.toNat ≤ 2 ^ 31)
    (hh : m.height.toNat ≤ 2 ^ 31) (r : Ray) (s : DdaState) (hs : m.Interior s.mapX s.mapY)
    (o : ℕ → Bool) :
    ∃ n s', n ≤ m.width.toNat + m.height.toNat ∧ DdaEnds m r o s n s' := by
  obtain ⟨n, s', hn, h⟩ := exists_ddaEnds_le (r := r) (o := o) hb hw hh hs
  exact ⟨n, s', hn.trans (room_lt hs), h⟩

/-- Three rows of walls around one free cell. -/
def closet : MazeMap :=
  MazeMap.ofRows 3 3 [[1, 1, 1], [1, 0, 1], [1, 1, 1]] (by decide) (by decide) (by decide)

/-- The ray to the right and down. -/
def downRight : Ray := ⟨1, 1, Or.inl rfl, Or.inl rfl⟩

/-- A room of four by three open cells. -/
def room : MazeMap :=
  MazeMap.ofRows 6 5 [[1, 1, 1, 1, 1, 1], [1, 0, 0, 0, 0, 1], [1, 0, 0, 0, 0, 1],
    [1, 0, 0, 0, 0, 1], [1, 1, 1, 1, 1, 1]] (by decide) (by decide) (by decide)

/-- Across the room the search takes six passes, by columns and rows in turn. -/
theorem exists_ddaEnds_room :
    ∃ n s', n ≤ room.width.toNat + room.height.toNat ∧
      DdaEnds room downRight (fun i => i % 2 = 0) ⟨1, 1, false⟩ n s' :=
  exists_ddaEnds room (by decide) (by decide) (by decide) downRight ⟨1, 1, false⟩ (by decide)
    fun i => i % 2 = 0

example : (ddaLoop room downRight 6 (fun i => i % 2 = 0) ⟨1, 1, false⟩) = some ⟨4, 4, true⟩ := by
  decide

/-- A map of walls with more rows than `int` can count. -/
def tallMap : MazeMap where
  width := 3
  height := BitVec.ofNat 64 (2 ^ 31 + 1)
  cells := List.replicate (3 * (2 ^ 31 + 1)) 1
  length_eq := List.length_replicate.trans (by decide)
  fits := by decide

theorem tallMap_cell {x y : ℕ} (hx : x < tallMap.width.toNat) (hy : y < tallMap.height.toNat) :
    tallMap.cell x y = 1 := by
  have hlt : Grid.rowMajor tallMap.width.toNat x y < 3 * (2 ^ 31 + 1) := by
    have h := Grid.rowMajor_lt hx hy
    rwa [← tallMap.length_eq, tallMap, List.length_replicate] at h
  rw [MazeMap.cell]
  change (List.replicate _ _)[_]?.getD 0 = _
  rw [List.getElem?_replicate_of_lt hlt, Option.getD_some]

/-- There the row overflows on the step onto the border, and the search looks behind the map. -/
theorem not_exists_ddaEnds_tallMap :
    ¬ (tallMap.Bordered → tallMap.Interior 1 (BitVec.ofNat 32 (2 ^ 31 - 1)) →
      ∃ n s', n ≤ tallMap.width.toNat + tallMap.height.toNat ∧
        DdaEnds tallMap downRight (fun _ => false) ⟨1, BitVec.ofNat 32 (2 ^ 31 - 1), false⟩ n
          s') := by
  intro h
  have hb : tallMap.Bordered := by
    intro x hx y hy _
    rw [tallMap_cell hx hy]
    decide
  obtain ⟨n, s', -, hends⟩ := h hb (by unfold MazeMap.Interior tallMap; decide)
  have hn : 1 ≤ n := by
    rcases Nat.eq_zero_or_pos n with rfl | hpos
    · cases hends.loop
    · exact hpos
  have hin := (hends.contains 1 le_rfl hn).2.1
  exact absurd hin (by decide)

end UefiGame
