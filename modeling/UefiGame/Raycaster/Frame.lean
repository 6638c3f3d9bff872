import Mathlib.Tactic.LinearCombination
import UefiGame.Raycaster.View

/-! # Frames and keys of the 3D program

Before each key `Game` of the 3D program draws a frame: in every column it
searches a wall and samples the texture whose number the cell of the wall holds.
After the key it looks at the cell the player is in, which ends the loop if its
value is not below `bootable_start`.
-/

namespace UefiGame

open Truncate

/-- `sideDistX` and `sideDistY`, and what they grow by. -/
structure SideDist (K : Type*) where
  sideDistX : K
  sideDistY : K
  deltaDistX : K
  deltaDistY : K

/-- The locals of `Game` that live across the passes of its loop. -/
structure ViewState (K : Type*) where
  view : View K
  entryToBoot : UINTN
  readyToBoot : Bool

/-- `ImageWidth`. -/
def imageWidth : ℕ := 960

/-- `int texNum = Map[mapY * MapWidth + mapX]`, at the end of a search. -/
def texNum (m : MazeMap) (s : DdaState) : INT32 := (m.tile s.mapX s.mapY).setWidth 32

section Frame

variable {K : Type*} [Field K] [LinearOrder K] [FloorRing K]

/-- A cast to `int`. -/
def castInt (a : K) : INT32 := BitVec.ofInt 32 (truncate a)

/-- `deltaDistX` or `deltaDistY`. -/
def deltaDist (rayDir : K) : K := if rayDir = 0 then 2 ^ 32 - 1 else |1 / rayDir|

/-- `sideDistX` or `sideDistY` before the search. -/
def firstSideDist (rayDir pos : K) (cell : INT32) : K :=
  if rayDir < 0 then (pos - cell.toInt) * deltaDist rayDir
  else (cell.toInt + 1 - pos) * deltaDist rayDir

namespace SideDist

/-- One pass of the search. -/
def step (d : SideDist K) : SideDist K :=
  if d.sideDistX < d.sideDistY then { d with sideDistX := d.sideDistX + d.deltaDistX }
  else { d with sideDistY := d.sideDistY + d.deltaDistY }

/-- The outcomes of `sideDistX < sideDistY` in the passes of the search. -/
def closer (d : SideDist K) (i : ℕ) : Bool :=
  decide ((step^[i] d).sideDistX < (step^[i] d).sideDistY)

end SideDist

namespace View

variable (v : View K) (x : ℕ)

/-- `cameraX` in column `x`. -/
def cameraX : K := 2 * x / imageWidth - 1

def rayDirX : K := v.dirX + v.planeX * cameraX x

def rayDirY : K := v.dirY + v.planeY * cameraX x

/-- `mapX` and `mapY` before the search; `side` is not initialised. -/
def searchStart : DdaState := ⟨castInt v.posX, castInt v.posY, false⟩

def ray : Ray where
  stepX := if v.rayDirX x < 0 then -1 else 1
  stepY := if v.rayDirY x < 0 then -1 else 1
  stepX_unit := by split_ifs <;> simp
  stepY_unit := by split_ifs <;> simp

def sideDist : SideDist K where
  sideDistX := firstSideDist (v.rayDirX x) v.posX (castInt v.posX)
  sideDistY := firstSideDist (v.rayDirY x) v.posY (castInt v.posY)
  deltaDistX := deltaDist (v.rayDirX x)
  deltaDistY := deltaDist (v.rayDirY x)

/-- In every column of the frame the search ends, all cells it looks at are in the map, and `texNum`
is the index of one of `count` textures. -/
def FrameInside (m : MazeMap) (count : ℕ) (v : View K) : Prop :=
  ∀ x < imageWidth, ∃ n s', DdaEnds m (v.ray x) (v.sideDist x).closer v.searchStart n s' ∧
    0 ≤ (texNum m s').toInt ∧ (texNum m s').toInt < count

end View

/-- The locals on entry to the loop. -/
def viewStart : ViewState K where
  view := ⟨1.5, 17.5, 1.0, 0.0, 0.0, 0.66⟩
  entryToBoot := ESCAPE_ENTRY
  readyToBoot := false

/-- The test of the player's cell that ends each pass. -/
def testTile (m : MazeMap) (bootableStart : UINTN) (s : ViewState K) : ViewState K :=
  if bootableStart ≤ s.view.tile m then
    { s with entryToBoot := s.view.tile m - bootableStart, readyToBoot := true }
  else s

/-- One pass of the loop. -/
def viewStep (m : MazeMap) (bootableStart : UINTN) (cosine sine : K) (s : ViewState K)
    (key : ScanCode) : ViewState K :=
  testTile m bootableStart
    { s with
      view := viewSwitch m bootableStart cosine sine s.view key
      readyToBoot := if key = .esc then true else s.readyToBoot }

/-- The loop over the given keys. -/
def viewRun (m : MazeMap) (bootableStart : UINTN) (cosine sine : K) (keys : List ScanCode) :
    ViewState K :=
  Run.run (viewStep m bootableStart cosine sine) ViewState.readyToBoot viewStart keys

/-- The passes of the loop, each with the state its frame is drawn in. -/
def viewPasses (m : MazeMap) (bootableStart : UINTN) (cosine sine : K) (keys : List ScanCode) :
    List (ViewState K × ScanCode) :=
  Run.passes (viewStep m bootableStart cosine sine) ViewState.readyToBoot viewStart keys

end Frame

/-- A map for `count` textures and `n` boot entries: positive on its border, no larger than `int`
can count, and with values that are the numbers of textures or of entries where the program takes
them for these. -/
structure MazeMap.Searchable (m : MazeMap) (bootableStart : UINTN) (count n : ℕ) : Prop where
  bordered : m.Bordered
  width_le : m.width.toNat ≤ 2 ^ 31
  height_le : m.height.toNat ≤ 2 ^ 31
  walls : ∀ x < m.width.toNat, ∀ y < m.height.toNat, 0 < (m.cell x y).toInt →
    0 ≤ ((m.cell x y).setWidth 32).toInt ∧ ((m.cell x y).setWidth 32).toInt < count
  doors : ∀ x < m.width.toNat, ∀ y < m.height.toNat, bootableStart ≤ m.cell x y →
    (m.cell x y).toNat < bootableStart.toNat + n

section Search

variable {K : Type*} [Field K] [LinearOrder K] [FloorRing K] {m : MazeMap} {bs : UINTN}
  {count n : ℕ} {v : View K}

theorem toInt_castInt {a : K} {w : ℕ} (hw : w ≤ 2 ^ 31) (h : 0 ≤ truncate a ∧ truncate a < w) :
    (castInt a).toInt = truncate a := by
  rw [castInt, BitVec.toInt_ofInt]
  apply Int.bmod_eq_of_le <;> omega

theorem View.Interior.searchStart (hw : m.width.toNat ≤ 2 ^ 31) (hh : m.height.toNat ≤ 2 ^ 31)
    (hin : v.Interior m) : m.Interior v.searchStart.mapX v.searchStart.mapY := by
  obtain ⟨⟨hx, hx'⟩, hy, hy'⟩ := hin
  rw [MazeMap.Interior, View.searchStart, toInt_castInt hw ⟨hx.le, by omega⟩,
    toInt_castInt hh ⟨hy.le, by omega⟩]
  exact ⟨⟨hx, hx'⟩, hy, hy'⟩

theorem MazeMap.Searchable.texNum_mem (hm : m.Searchable bs count n) {r : Ray} {o : ℕ → Bool}
    {s s' : DdaState} {k : ℕ} (hends : DdaEnds m r o s k s') :
    0 ≤ (texNum m s').toInt ∧ (texNum m s').toInt < count := by
  have hpos : 1 ≤ k := by
    rcases Nat.eq_zero_or_pos k with rfl | hpos
    · cases hends.loop
    · exact hpos
  have hcontains := hends.contains k hpos le_rfl
  rw [← hends.reached] at hcontains
  have hwall := hends.wall
  obtain ⟨-, htile⟩ := hcontains.tile_eq
  obtain ⟨⟨hx, hx'⟩, hy, hy'⟩ := hcontains
  rw [texNum, htile]
  rw [htile] at hwall
  exact hm.walls _ (by omega) _ (by omega) hwall

theorem MazeMap.Searchable.frameInside (hm : m.Searchable bs count n) (hin : v.Interior m) :
    v.FrameInside m count := by
  intro x _
  obtain ⟨k, s', hk, hends⟩ := exists_ddaEnds m hm.bordered hm.width_le hm.height_le (v.ray x)
    v.searchStart (hin.searchStart hm.width_le hm.height_le) (v.sideDist x).closer
  exact ⟨k, s', hends, hm.texNum_mem hends⟩

end Search

section Tiles

variable {K : Type*} [Field K] [LinearOrder K] [FloorRing K] {m : MazeMap} {bs : UINTN} {n : ℕ}
  {v : View K} {s : ViewState K} {cosine sine : K} {key : ScanCode}

/-- The player's cell lies in the map. -/
def View.Contained (m : MazeMap) (v : View K) : Prop :=
  (0 ≤ truncate v.posX ∧ truncate v.posX < m.width.toNat) ∧
    0 ≤ truncate v.posY ∧ truncate v.posY < m.height.toNat

theorem View.Contained.tile_eq (h : v.Contained m) :
    v.tile m = m.cell (truncate v.posX).toNat (truncate v.posY).toNat :=
  (look_of_mem h.1 h.2).2

theorem View.Contained.interior (hb : m.Bordered) (h : v.Contained m) (hfree : v.tile m = 0) :
    v.Interior m := by
  rw [h.tile_eq] at hfree
  obtain ⟨⟨hx, hx'⟩, hy, hy'⟩ := h
  have hborder := mt (hb (truncate v.posX).toNat (by omega) (truncate v.posY).toNat (by omega))
    (by rw [hfree]; decide)
  unfold View.Interior
  omega

/-- The direction is no longer than one, and `EntryToBoot` is `ESCAPE_ENTRY` or one of `n`
entries. -/
structure ViewState.Sound (n : ℕ) (s : ViewState K) : Prop where
  dir : s.view.dirX ^ 2 + s.view.dirY ^ 2 ≤ 1
  entry : s.entryToBoot = ESCAPE_ENTRY ∨ s.entryToBoot.toNat < n

theorem viewStart_sound : (viewStart : ViewState K).Sound n where
  dir := by norm_num [viewStart]
  entry := Or.inl rfl

@[simp] theorem testTile_view : (testTile m bs s).view = s.view := by
  unfold testTile
  split_ifs <;> rfl

theorem testTile_entryToBoot : (testTile m bs s).entryToBoot =
    if bs ≤ s.view.tile m then s.view.tile m - bs else s.entryToBoot := by
  unfold testTile
  split_ifs <;> rfl

theorem viewStep_view :
    (viewStep m bs cosine sine s key).view = viewSwitch m bs cosine sine s.view key :=
  testTile_view

end Tiles

section Keys

variable {K : Type*} [Field K] [LinearOrder K] [FloorRing K] [IsStrictOrderedRing K] {m : MazeMap}
  {bs : UINTN} {count n : ℕ} {v : View K} {s : ViewState K} {cosine sine : K} {key : ScanCode}

theorem viewSwitch_dir (m : MazeMap) (bs : UINTN) (hturn : cosine ^ 2 + sine ^ 2 = 1)
    (key : ScanCode) :
    (viewSwitch m bs cosine sine v key).dirX ^ 2 + (viewSwitch m bs cosine sine v key).dirY ^ 2 =
      v.dirX ^ 2 + v.dirY ^ 2 := by
  cases key with
  | up => rfl
  | down => rfl
  | left =>
    simp only [viewSwitch, turn]
    linear_combination (v.dirX ^ 2 + v.dirY ^ 2) * hturn
  | right =>
    simp only [viewSwitch, turn]
    linear_combination (v.dirX ^ 2 + v.dirY ^ 2) * hturn
  | esc => rfl
  | other code => rfl

theorem viewSwitch_contained (bs : UINTN) (cosine sine : K) (hin : v.Interior m)
    (hdir : v.dirX ^ 2 + v.dirY ^ 2 ≤ 1) (key : ScanCode) :
    (viewSwitch m bs cosine sine v key).Contained m := by
  have hstay : v.Contained m := by
    obtain ⟨hx, hy⟩ := hin
    exact ⟨⟨hx.1.le, by omega⟩, hy.1.le, by omega⟩
  have hwalk : key = .up ∨ key = .down → (viewSwitch m bs cosine sine v key).Contained m := by
    intro hkey
    obtain ⟨hx, hy⟩ := truncate_viewSwitch bs cosine sine hkey hin hdir
    obtain ⟨hdx, hdy⟩ := abs_two_mul_stride_le hdir key
    rw [abs_le] at hdx hdy
    have hX := truncate_add_mem (d := (v.stride key).1) hin.1.1 (by linarith) (by linarith)
    have hY := truncate_add_mem (d := (v.stride key).2) hin.2.1 (by linarith) (by linarith)
    obtain ⟨⟨hxlo, hxhi⟩, hylo, hyhi⟩ := hin
    rw [View.Contained, hx, hy]
    split_ifs <;> omega
  cases key with
  | up => exact hwalk (Or.inl rfl)
  | down => exact hwalk (Or.inr rfl)
  | left => exact hstay
  | right => exact hstay
  | esc => exact hstay
  | other code => exact hstay

theorem viewStep_sound (hm : m.Searchable bs count n) (hturn : cosine ^ 2 + sine ^ 2 = 1)
    (hin : s.view.Interior m) (hs : s.Sound n) : (viewStep m bs cosine sine s key).Sound n := by
  obtain ⟨hdir, hentry⟩ := hs
  have hcontained := viewSwitch_contained bs cosine sine hin hdir key
  have htile := hcontained.tile_eq
  obtain ⟨⟨hx, hx'⟩, hy, hy'⟩ := hcontained
  constructor
  case dir => rwa [viewStep_view, viewSwitch_dir m bs hturn]
  case entry =>
    rw [viewStep, testTile_entryToBoot]
    dsimp only
    rw [htile]
    split_ifs with hdoor
    · have hlt := hm.doors _ (by omega) _ (by omega) hdoor
      have hle := BitVec.le_def.mp hdoor
      right
      rw [BitVec.toNat_sub_of_le hdoor]
      omega
    · exact hentry

/-- In a run that keeps the player inside the border every frame samples textures of the table, and
the result is one of the entries. -/
theorem MazeMap.Searchable.run_inside (hm : m.Searchable bs count n)
    (hturn : cosine ^ 2 + sine ^ 2 = 1) (keys : List ScanCode)
    (hin : ∀ p ∈ viewPasses m bs cosine sine keys, p.1.view.Interior m) :
    (∀ p ∈ viewPasses m bs cosine sine keys, p.1.view.FrameInside m count) ∧
      (viewRun m bs cosine sine keys).Sound n := by
  have hstep : ∀ (s : ViewState K) (key : ScanCode), s.readyToBoot = false → s.view.Interior m →
      s.Sound n → (viewStep m bs cosine sine s key).Sound n :=
    fun _ _ _ hin hs => viewStep_sound hm hturn hin hs
  refine ⟨fun p hp => hm.frameInside (hin p hp), ?_⟩
  exact (Run.invariant_of_passes hstep viewStart_sound keys hin).2

/-- The player stands on a free cell inside the border. -/
structure ViewState.Free (m : MazeMap) (s : ViewState K) : Prop where
  dir : s.view.dirX ^ 2 + s.view.dirY ^ 2 ≤ 1
  interior : s.view.Interior m
  free : s.view.tile m = 0

theorem viewStep_free (hb : m.Bordered) (hturn : cosine ^ 2 + sine ^ 2 = 1) (hs : s.Free m)
    (hcut : ¬ s.view.CutsCorner m bs key)
    (hwait : (viewStep m bs cosine sine s key).readyToBoot = false) :
    (viewStep m bs cosine sine s key).Free m := by
  obtain ⟨hdir, hin, hfree⟩ := hs
  have hcontained := viewSwitch_contained bs cosine sine hin hdir key
  -- the cell is passable, and the loop has not ended on it
  have hpass : Passable bs ((viewSwitch m bs cosine sine s.view key).tile m) := by
    have hstay : Passable bs (s.view.tile m) := Or.inl hfree
    cases key with
    | up => exact (passable_viewSwitch_iff m bs cosine sine s.view .up (Or.inl rfl) hin hfree
        hdir).mpr hcut
    | down => exact (passable_viewSwitch_iff m bs cosine sine s.view .down (Or.inr rfl) hin hfree
        hdir).mpr hcut
    | left => exact hstay
    | right => exact hstay
    | esc => exact hstay
    | other code => exact hstay
  have hfree' : (viewSwitch m bs cosine sine s.view key).tile m = 0 := by
    rcases hpass with hzero | hdoor
    · exact hzero
    · simp only [viewStep, testTile, if_pos hdoor] at hwait
      cases hwait
  constructor
  case dir => rwa [viewStep_view, viewSwitch_dir m bs hturn]
  case interior =>
    rw [viewStep_view]
    exact hcontained.interior hb hfree'
  case free => rwa [viewStep_view]

/-- A player who starts on a free cell inside the border and cuts no corner stays inside it. -/
theorem interior_of_forall_not_cutsCorner (hb : m.Bordered) (hturn : cosine ^ 2 + sine ^ 2 = 1)
    (hstart : (viewStart : ViewState K).view.Interior m)
    (hfree : (viewStart : ViewState K).view.tile m = 0) (keys : List ScanCode)
    (hcut : ∀ p ∈ viewPasses m bs cosine sine keys, ¬ p.1.view.CutsCorner m bs p.2) :
    ∀ p ∈ viewPasses m bs cosine sine keys, p.1.view.Interior m := by
  have hstep : ∀ (s : ViewState K) (key : ScanCode), s.readyToBoot = false →
      ¬ s.view.CutsCorner m bs key → (s.readyToBoot = false → s.Free m) →
      (viewStep m bs cosine sine s key).readyToBoot = false →
      (viewStep m bs cosine sine s key).Free m :=
    fun _ _ h hcut hs hwait => viewStep_free hb hturn (hs h) hcut hwait
  have hfirst : (viewStart : ViewState K).readyToBoot = false → viewStart.Free m :=
    fun _ => ⟨(viewStart_sound (n := 0)).dir, hstart, hfree⟩
  intro p hp
  have hwaiting := (Run.invariant_of_passes hstep hfirst keys hcut).1 p hp
  exact (hwaiting (Run.not_halted_of_mem_passes hp)).interior

end Keys

end UefiGame
