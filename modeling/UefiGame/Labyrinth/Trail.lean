import UefiGame.Labyrinth.Exit
import UefiGame.Labyrinth.Layout
import UefiGame.Library.WriteLoop

/-! # The trail of the player

The Maze application paints the labyrinth once and copies it to the screen. From
then on a pass of the key loop paints the square of the cell the player leaves
black, whatever its cell is, and his picture on the square of the cell he
enters. So the screen shows the way he has come, until the loop is left and the
screen is filled.
-/

namespace UefiGame

instance (r : Raster.Rect) (width height : ℕ) : Decidable (r.Inside width height) :=
  inferInstanceAs (Decidable (_ ∧ _))

/-- The members of a pixel that the application sets. -/
structure Rgb where
  red : UINT8
  green : UINT8
  blue : UINT8
  deriving DecidableEq, Repr

def Rgb.black : Rgb := ⟨0, 0, 0⟩

/-- The switch on the cell in the painting loops. -/
def MazeCell.rgb : MazeCell → Rgb
  | .START => Rgb.black
  | .EMPTY => Rgb.black
  | .WALL => ⟨112, 157, 100⟩
  | .END => ⟨77, 109, 243⟩
  | .UNKNOWN => ⟨255, 0, 0⟩

/-- The layout of a labyrinth on a screen. -/
def Maze.layout (m : Maze) (width height : UINT16) : MazeLayout :=
  mazeLayout (BitVec.ofNat 64 m.width) (BitVec.ofNat 64 m.height) width height

/-- The passes of the painting loops: row and column of the cell, row and column in its square. -/
def paintPasses (m : Maze) (side : ℕ) : List ((ℕ × ℕ) × (ℕ × ℕ)) :=
  m.positions ×ˢ (List.range side ×ˢ List.range side)

/-- The index of the pixel that a pass paints. -/
def MazeLayout.paintIndex (l : MazeLayout) (width : UINT16) (p : (ℕ × ℕ) × (ℕ × ℕ)) : ℕ :=
  (l.index width (BitVec.ofNat 64 p.1.1) (BitVec.ofNat 64 p.1.2) (BitVec.ofNat 64 p.2.1)
    (BitVec.ofNat 64 p.2.2)).toNat

/-- `pixels` after the painting loops. -/
def mazePixels (m : Maze) (width height : UINT16) : List Rgb :=
  WriteLoop.writeAll ((m.layout width height).paintIndex width) (fun p => (m.cell p.1.2 p.1.1).rgb)
    (paintPasses m (m.layout width height).cellSide.toNat)
    (List.replicate (width.toNat * height.toNat) Rgb.black)

/-- What the key loop draws with. -/
structure MazeScene where
  maze : Maze
  width : UINT16
  height : UINT16
  actor : List Rgb

namespace MazeScene

variable (c : MazeScene)

def layout : MazeLayout := c.maze.layout c.width c.height

def side : ℕ := c.layout.cellSide.toNat

/-- `Blt` with `EfiBltBufferToVideo`, the rows of the buffer as long as the rectangle is wide. A
rectangle that is not on the screen is refused. -/
def blt (buffer : List Rgb) (r : Raster.Rect) (s : ℕ × ℕ → Rgb) : ℕ × ℕ → Rgb :=
  if r.Inside c.width.toNat c.height.toNat then
    Raster.copy s r fun p => buffer[p.2 * r.width + p.1]?.getD Rgb.black
  else s

/-- The calls of `Blt` for the cell in column `p.1` and row `p.2`. -/
def bltCell (buffer : List Rgb) (p : ℤ × ℤ) (s : ℕ × ℕ → Rgb) : ℕ × ℕ → Rgb :=
  c.blt buffer (c.layout.cellRect (BitVec.ofInt 64 p.1) (BitVec.ofInt 64 p.2)) s

/-- `emptyCell`. -/
def emptyCell : List Rgb := List.replicate (c.side * c.side) Rgb.black

/-- The two calls of `Blt` before the key loop. -/
def firstScreen (background : ℕ × ℕ → Rgb) (start : ℤ × ℤ) : ℕ × ℕ → Rgb :=
  c.bltCell c.actor start (c.blt (mazePixels c.maze c.width c.height)
    ⟨0, 0, c.width.toNat, c.height.toNat⟩ background)

/-- A pass of the key loop, with the screen. -/
def trailStep (e : Noticed) (p : MazeState × (ℕ × ℕ → Rgb)) (key : ScanCode) :
    MazeState × (ℕ × ℕ → Rgb) :=
  (mazeStep c.maze e p.1 key,
    match mazeSwitch c.maze p.1.posX p.1.posY key with
    | none => p.2
    | some new => c.bltCell c.actor new (c.bltCell c.emptyCell (p.1.posX, p.1.posY) p.2))

/-- `Blt` with `EfiBltVideoFill`: the whole screen in the color of the first pixel
of `emptyCell`. -/
def fill (s : ℕ × ℕ → Rgb) : ℕ × ℕ → Rgb :=
  Raster.copy s ⟨0, 0, c.width.toNat, c.height.toNat⟩ fun _ => c.emptyCell[0]?.getD Rgb.black

/-- The key loop from the first drawing on, and the fill behind it when it is left. -/
def trailRun (background : ℕ × ℕ → Rgb) (keys : List ScanCode) : MazeState × (ℕ × ℕ → Rgb) :=
  let e := paintMaze c.maze c.side
  let p := Run.run (c.trailStep e) (fun p => p.1.over)
    (mazeStart e, c.firstScreen background (e.posX, e.posY)) keys
  if p.1.over then (p.1, c.fill p.2) else p

/-- The square of the cell in row `p.1` and column `p.2`. -/
def square (p : ℕ × ℕ) : Raster.Rect :=
  Raster.tile c.side c.layout.widthMargin.toNat c.layout.heightMargin.toNat (p.2, p.1)

/-- The picture of a cell for a player in `cur` who has been in the cells of `trail`. -/
def picture (trail : List (ℤ × ℤ)) (cur : ℤ × ℤ) (p q : ℕ × ℕ) : Rgb :=
  if ((p.2 : ℤ), (p.1 : ℤ)) = cur then c.actor[q.2 * c.side + q.1]?.getD Rgb.black
  else if ((p.2 : ℤ), (p.1 : ℤ)) ∈ trail then Rgb.black
  else (c.maze.cell p.2 p.1).rgb

/-- The labyrinth drawn afresh. -/
def drawn (background : ℕ × ℕ → Rgb) (trail : List (ℤ × ℤ)) (cur : ℤ × ℤ) : ℕ × ℕ → Rgb :=
  Raster.drawAll c.square (c.picture trail cur) c.maze.positions
    (Raster.copy background ⟨0, 0, c.width.toNat, c.height.toNat⟩ fun _ => Rgb.black)

/-- The dimensions of the labyrinth are numbers of the program. -/
structure Small : Prop where
  width : c.maze.width < 2 ^ 63
  height : c.maze.height < 2 ^ 63

section Squares

variable {c} {s : ℕ × ℕ → Rgb} {p q : ℕ × ℕ} {buffer : List Rgb}

theorem dimension {n : ℕ} (hpos : 0 < n) (hlt : n < 2 ^ 63) :
    (BitVec.ofNat 64 n : INTN).toNat = n ∧ 1 ≤ (BitVec.ofNat 64 n : INTN).toInt := by
  have hnat : (BitVec.ofNat 64 n : INTN).toNat = n := by
    rw [BitVec.toNat_ofNat, Nat.mod_eq_of_lt (by omega)]
  rw [BitVec.toInt_eq_toNat_of_lt (by omega)]
  omega

theorem Small.centred (h : c.Small) : c.layout.Centred (BitVec.ofNat 64 c.maze.width)
    (BitVec.ofNat 64 c.maze.height) c.width c.height :=
  mazeLayout_centred (dimension c.maze.width_pos h.width).2 (dimension c.maze.height_pos h.height).2
    c.width c.height

theorem Small.below (h : c.Small) (hp : p ∈ c.maze.positions) :
    (Below (BitVec.ofNat 64 p.1) (BitVec.ofNat 64 c.maze.height) ∧
      (BitVec.ofNat 64 p.1 : INTN).toNat = p.1) ∧
    Below (BitVec.ofNat 64 p.2) (BitVec.ofNat 64 c.maze.width) ∧
      (BitVec.ofNat 64 p.2 : INTN).toNat = p.2 := by
  obtain ⟨hrow, hcol⟩ := mem_positions.mp hp
  obtain ⟨hw, hw1⟩ := dimension c.maze.width_pos h.width
  obtain ⟨hh, hh1⟩ := dimension c.maze.height_pos h.height
  exact ⟨below_ofNat (by omega) (by rwa [hh]), below_ofNat (by omega) (by rwa [hw])⟩

theorem Small.below_side (h : c.Small) {a : ℕ} (ha : a < c.side) :
    Below (BitVec.ofNat 64 a) c.layout.cellSide ∧ (BitVec.ofNat 64 a : INTN).toNat = a := by
  have hfits := h.centred.width_le
  have hw := c.width.isLt
  rw [(dimension c.maze.width_pos h.width).1] at hfits
  have hle : c.layout.cellSide.toNat ≤ c.layout.cellSide.toNat * c.maze.width :=
    Nat.le_mul_of_pos_right _ c.maze.width_pos
  exact below_ofNat (toInt_nonneg_of_toNat (by omega)) ha

theorem Small.cellRect_eq (h : c.Small) (hp : p ∈ c.maze.positions) :
    c.layout.cellRect (BitVec.ofInt 64 p.2) (BitVec.ofInt 64 p.1) = c.square p ∧
      (c.square p).Inside c.width.toNat c.height.toNat := by
  obtain ⟨⟨hrow, hrow'⟩, hcol, hcol'⟩ := h.below hp
  have heq := h.centred.cellRect_eq hcol hrow
  have hin := h.centred.cellRect_inside hrow hcol
  rw [hrow', hcol'] at heq
  rw [BitVec.ofInt_natCast, BitVec.ofInt_natCast]
  rw [heq] at hin ⊢
  exact ⟨rfl, hin⟩

theorem Small.bltCell_eq (h : c.Small) (hp : p ∈ c.maze.positions) :
    c.bltCell buffer (p.2, p.1) s =
      Raster.copy s (c.square p) fun q => buffer[q.2 * c.side + q.1]?.getD Rgb.black := by
  obtain ⟨heq, hin⟩ := h.cellRect_eq hp
  rw [bltCell, heq, blt, if_pos hin]
  rfl

theorem pairwise_disjoint_square :
    c.maze.positions.Pairwise fun p q => Disjoint (c.square p).area (c.square q).area := by
  have hnodup : c.maze.positions.Nodup := List.nodup_range.product List.nodup_range
  apply hnodup.imp
  intro p q hne
  apply Raster.disjoint_tile
  intro heq
  obtain ⟨hx, hy⟩ := Prod.mk.inj heq
  exact hne (Prod.ext hy hx)

theorem mem_paintPasses {p : (ℕ × ℕ) × (ℕ × ℕ)} :
    p ∈ paintPasses c.maze c.side ↔
      p.1 ∈ c.maze.positions ∧ p.2.1 < c.side ∧ p.2.2 < c.side := by
  rw [paintPasses, List.mem_product, List.mem_product, List.mem_range, List.mem_range]

theorem Small.paintIndex_eq (h : c.Small) {p : (ℕ × ℕ) × (ℕ × ℕ)}
    (hp : p ∈ paintPasses c.maze c.side) :
    c.layout.paintIndex c.width p = Grid.rowMajor c.width.toNat
      (c.layout.widthMargin.toNat + c.side * p.1.2 + p.2.2)
      (c.layout.heightMargin.toNat + c.side * p.1.1 + p.2.1) ∧
    c.layout.widthMargin.toNat + c.side * p.1.2 + p.2.2 < c.width.toNat ∧
    c.layout.heightMargin.toNat + c.side * p.1.1 + p.2.1 < c.height.toNat := by
  obtain ⟨hcell, ha, hb⟩ := mem_paintPasses.mp hp
  obtain ⟨⟨hrow, hrow'⟩, hcol, hcol'⟩ := h.below hcell
  obtain ⟨hbelow, ha'⟩ := h.below_side ha
  obtain ⟨hbelow', hb'⟩ := h.below_side hb
  have hindex := h.centred.toNat_index hrow hcol hbelow hbelow'
  have hx := MazeLayout.lt_of_cell h.centred.width_le hcol.toNat_lt hbelow'.toNat_lt
  have hy := MazeLayout.lt_of_cell h.centred.height_le hrow.toNat_lt hbelow.toNat_lt
  rw [hrow', hcol', ha', hb'] at hindex
  rw [hcol', hb'] at hx
  rw [hrow', ha'] at hy
  exact ⟨hindex, hx, hy⟩

theorem Small.paintIndex_inj (h : c.Small) {p q : (ℕ × ℕ) × (ℕ × ℕ)}
    (hp : p ∈ paintPasses c.maze c.side) (hq : q ∈ paintPasses c.maze c.side)
    (heq : c.layout.paintIndex c.width p = c.layout.paintIndex c.width q) : p = q := by
  obtain ⟨hindex, hx, -⟩ := h.paintIndex_eq hp
  obtain ⟨hindex', hx', -⟩ := h.paintIndex_eq hq
  obtain ⟨-, ha, hb⟩ := mem_paintPasses.mp hp
  obtain ⟨-, ha', hb'⟩ := mem_paintPasses.mp hq
  rw [hindex, hindex', Grid.rowMajor_inj hx hx'] at heq
  obtain ⟨hcol, hcol'⟩ := MazeLayout.cell_inj hb hb' heq.1
  obtain ⟨hrow, hrow'⟩ := MazeLayout.cell_inj ha ha' heq.2
  exact Prod.ext (Prod.ext hrow hcol) (Prod.ext hrow' hcol')

theorem Small.nodup_paintIndex (h : c.Small) :
    ((paintPasses c.maze c.side).map (c.layout.paintIndex c.width)).Nodup := by
  have hnodup : (paintPasses c.maze c.side).Nodup :=
    (List.nodup_range.product List.nodup_range).product (List.nodup_range.product List.nodup_range)
  exact hnodup.map_on fun p hp q hq heq => h.paintIndex_inj hp hq heq

theorem Small.mazePixels_of_notMem (h : c.Small) {x y : ℕ} (hx : x < c.width.toNat)
    (hy : y < c.height.toNat) (hnot : ∀ p ∈ c.maze.positions, (x, y) ∉ (c.square p).area) :
    (mazePixels c.maze c.width c.height)[Grid.rowMajor c.width.toNat x y]? = some Rgb.black := by
  rw [mazePixels, WriteLoop.getElem?_writeAll_of_not_mem, List.getElem?_replicate_of_lt]
  · exact Grid.rowMajor_lt hx hy
  · intro p hp heq
    obtain ⟨hindex, hpx, -⟩ := h.paintIndex_eq hp
    obtain ⟨hcell, ha, hb⟩ := mem_paintPasses.mp hp
    have hsame : Grid.rowMajor c.width.toNat _ _ = Grid.rowMajor c.width.toNat x y := hindex ▸ heq
    obtain ⟨rfl, rfl⟩ := (Grid.rowMajor_inj hpx hx).mp hsame
    apply hnot p.1 hcell
    rw [Raster.Rect.mem_area]
    simp only [square, Raster.tile]
    rw [Nat.mul_comm p.1.2, Nat.mul_comm p.1.1]
    omega

theorem Small.mazePixels_of_mem (h : c.Small) {x y : ℕ} (hp : p ∈ c.maze.positions)
    (hmem : (x, y) ∈ (c.square p).area) :
    (mazePixels c.maze c.width c.height)[Grid.rowMajor c.width.toNat x y]? =
      some (c.maze.cell p.2 p.1).rgb := by
  rw [Raster.Rect.mem_area] at hmem
  simp only [square, Raster.tile] at hmem
  rw [Nat.mul_comm p.2, Nat.mul_comm p.1] at hmem
  obtain ⟨⟨hxl, hxr⟩, hyt, hyb⟩ := hmem
  obtain ⟨b, rfl⟩ := Nat.exists_eq_add_of_le hxl
  obtain ⟨a, rfl⟩ := Nat.exists_eq_add_of_le hyt
  have hpass : (p, (a, b)) ∈ paintPasses c.maze c.side :=
    mem_paintPasses.mpr ⟨hp, show a < c.side by omega, show b < c.side by omega⟩
  obtain ⟨hindex, hx, hy⟩ := h.paintIndex_eq hpass
  rw [mazePixels, ← hindex]
  refine WriteLoop.getElem?_writeAll_of_mem (fun p => (c.maze.cell p.1.2 p.1.1).rgb) _
    h.nodup_paintIndex hpass ?_
  rw [List.length_replicate]
  rw [hindex]
  exact Grid.rowMajor_lt hx hy

end Squares

section Drawing

variable {c} {background : ℕ × ℕ → Rgb} {trail trail' : List (ℤ × ℤ)} {cur : ℤ × ℤ} {x y : ℤ}
  {s : ℕ × ℕ → Rgb} {buffer : List Rgb}

theorem mem_positions_of_inside (h : c.maze.Inside x y) :
    (y.toNat, x.toNat) ∈ c.maze.positions := by
  obtain ⟨⟨hx, hx'⟩, hy, hy'⟩ := h
  rw [mem_positions]
  constructor
  · change y.toNat < c.maze.height
    omega
  · change x.toNat < c.maze.width
    omega

theorem cell_eq_iff (hx : 0 ≤ x) (hy : 0 ≤ y) {p : ℕ × ℕ} :
    ((p.2 : ℤ), (p.1 : ℤ)) = (x, y) ↔ p = (y.toNat, x.toNat) := by
  rw [Prod.ext_iff, Prod.ext_iff]
  omega

theorem Small.bltCell_of_inside (h : c.Small) (hin : c.maze.Inside x y) :
    c.bltCell buffer (x, y) s = Raster.copy s (c.square (y.toNat, x.toNat))
      fun q => buffer[q.2 * c.side + q.1]?.getD Rgb.black := by
  have heq := (cell_eq_iff hin.1.1 hin.2.1).mpr (rfl : (y.toNat, x.toNat) = _)
  rw [← h.bltCell_eq (mem_positions_of_inside hin), heq]

theorem picture_self (c : MazeScene) (trail : List (ℤ × ℤ)) (hx : 0 ≤ x) (hy : 0 ≤ y) :
    c.picture trail (x, y) (y.toNat, x.toNat) =
      fun q => c.actor[q.2 * c.side + q.1]?.getD Rgb.black := by
  funext q
  rw [picture, if_pos ((cell_eq_iff hx hy).mpr rfl)]

/-- Only cells other than the player's show whether he has been there. -/
theorem drawn_congr (h : ∀ q, q ≠ cur → (q ∈ trail ↔ q ∈ trail')) :
    c.drawn background trail cur = c.drawn background trail' cur := by
  rw [drawn, drawn]
  congr 1
  funext p q
  unfold picture
  split_ifs with hcur hmem hmem' hmem'
  · rfl
  · rfl
  · exact absurd ((h _ hcur).mp hmem) hmem'
  · exact absurd ((h _ hcur).mpr hmem') hmem
  · rfl

theorem emptyCell_getD (i : ℕ) : c.emptyCell[i]?.getD Rgb.black = Rgb.black := by
  rw [emptyCell, List.getElem?_replicate]
  split_ifs <;> rfl

theorem copy_copy_self {r : Raster.Rect} {a b : ℕ × ℕ → Rgb} :
    Raster.copy (Raster.copy s r a) r b = Raster.copy s r b := by
  funext q
  by_cases hq : q ∈ r.area
  · rw [Raster.copy_of_mem hq, Raster.copy_of_mem hq]
  · rw [Raster.copy_of_notMem hq, Raster.copy_of_notMem hq, Raster.copy_of_notMem hq]

theorem Small.bltCell_drawn (h : c.Small) (hin : c.maze.Inside x y) {x' y' : ℤ}
    (hin' : c.maze.Inside x' y') :
    c.bltCell c.actor (x', y') (c.bltCell c.emptyCell (x, y) (c.drawn background trail (x, y))) =
      c.drawn background (trail ++ [(x, y)]) (x', y') := by
  have hp := mem_positions_of_inside hin
  have hp' := mem_positions_of_inside hin'
  have hactor := picture_self c (trail ++ [(x, y)]) hin'.1.1 hin'.2.1
  rw [h.bltCell_of_inside hin', h.bltCell_of_inside hin, ← hactor]
  by_cases hsame : (x, y) = (x', y')
  · obtain ⟨rfl, rfl⟩ := Prod.mk.inj hsame
    have hshown : c.drawn background trail (x, y) = c.drawn background (trail ++ [(x, y)]) (x, y) :=
      drawn_congr fun q hq => by simp [hq]
    rw [copy_copy_self, hshown, ← copy_copy_self (a := c.picture (trail ++ [(x, y)]) (x, y) _),
      drawn]
    exact Raster.copy_copy_drawAll pairwise_disjoint_square hp hp fun _ _ _ _ => rfl
  · have hleft : (fun q : ℕ × ℕ => c.emptyCell[q.2 * c.side + q.1]?.getD Rgb.black) =
        c.picture (trail ++ [(x, y)]) (x', y') (y.toNat, x.toNat) := by
      funext q
      have heq := (cell_eq_iff hin.1.1 hin.2.1).mpr (rfl : (y.toNat, x.toNat) = _)
      rw [emptyCell_getD, picture]
      simp only [heq]
      rw [if_neg hsame, if_pos (by simp)]
    rw [hleft, drawn, drawn]
    apply Raster.copy_copy_drawAll pairwise_disjoint_square hp hp'
    intro p _ hne hne'
    funext q
    have hcur := mt (cell_eq_iff hin.1.1 hin.2.1).mp hne
    have hnew := mt (cell_eq_iff hin'.1.1 hin'.2.1).mp hne'
    rw [picture, picture, if_neg hcur, if_neg hnew]
    simp [hcur]

/-- Both calls of `Blt` before the key loop draw the labyrinth afresh. -/
theorem Small.firstScreen_eq (h : c.Small) (background : ℕ × ℕ → Rgb) (hin : c.maze.Inside x y) :
    c.firstScreen background (x, y) = c.drawn background [] (x, y) := by
  have hpaint : c.blt (mazePixels c.maze c.width c.height) ⟨0, 0, c.width.toNat, c.height.toNat⟩
      background = Raster.drawAll c.square (fun p _ => (c.maze.cell p.2 p.1).rgb) c.maze.positions
        (Raster.copy background ⟨0, 0, c.width.toNat, c.height.toNat⟩ fun _ => Rgb.black) := by
    have hon : (⟨0, 0, c.width.toNat, c.height.toNat⟩ : Raster.Rect).Inside c.width.toNat
        c.height.toNat := by simp [Raster.Rect.Inside]
    rw [blt, if_pos hon]
    funext q
    by_cases hq : ∃ p ∈ c.maze.positions, q ∈ (c.square p).area
    · obtain ⟨p, hp, hmem⟩ := hq
      have hscreen : q ∈ (⟨0, 0, c.width.toNat, c.height.toNat⟩ : Raster.Rect).area := by
        have hin := (h.cellRect_eq hp).2
        unfold Raster.Rect.Inside at hin
        rw [Raster.Rect.mem_area] at hmem ⊢
        simp only at hmem ⊢
        omega
      rw [Raster.drawAll_of_mem pairwise_disjoint_square hp hmem, Raster.copy_of_mem hscreen]
      have hpixel := h.mazePixels_of_mem hp hmem
      rw [Grid.rowMajor] at hpixel
      simp only [Nat.sub_zero, hpixel, Option.getD_some]
    · have hnone : ∀ p ∈ c.maze.positions, q ∉ (c.square p).area :=
        fun p hp hmem => hq ⟨p, hp, hmem⟩
      rw [Raster.drawAll_of_notMem hnone]
      by_cases hscreen : q ∈ (⟨0, 0, c.width.toNat, c.height.toNat⟩ : Raster.Rect).area
      · rw [Raster.copy_of_mem hscreen, Raster.copy_of_mem hscreen]
        rw [Raster.Rect.mem_area] at hscreen
        simp only at hscreen
        have hpixel := h.mazePixels_of_notMem (x := q.1) (y := q.2) (by omega) (by omega) hnone
        rw [Grid.rowMajor] at hpixel
        simp only [Nat.sub_zero, hpixel, Option.getD_some]
      · rw [Raster.copy_of_notMem hscreen, Raster.copy_of_notMem hscreen]
  have hp := mem_positions_of_inside hin
  have hactor := picture_self c [] hin.1.1 hin.2.1
  rw [firstScreen, hpaint, h.bltCell_of_inside hin, ← hactor,
    ← copy_copy_self (a := c.picture [] (x, y) _),
    drawn]
  apply Raster.copy_copy_drawAll pairwise_disjoint_square hp hp
  intro p _ hne _
  funext q
  rw [picture, if_neg (mt (cell_eq_iff hin.1.1 hin.2.1).mp hne), if_neg (by simp)]

theorem mem_screen {q : ℕ × ℕ} :
    q ∈ (⟨0, 0, c.width.toNat, c.height.toNat⟩ : Raster.Rect).area ↔
      q.1 < c.width.toNat ∧ q.2 < c.height.toNat := by
  rw [Raster.Rect.mem_area]
  simp only
  omega

theorem drawn_of_mem (background : ℕ × ℕ → Rgb) (trail : List (ℤ × ℤ)) (cur : ℤ × ℤ) {p : ℕ × ℕ}
    (hp : p ∈ c.maze.positions) {a b : ℕ} (ha : a < c.side) (hb : b < c.side) :
    c.drawn background trail cur (c.layout.widthMargin.toNat + p.2 * c.side + b,
      c.layout.heightMargin.toNat + p.1 * c.side + a) = c.picture trail cur p (b, a) := by
  have hmem : (c.layout.widthMargin.toNat + p.2 * c.side + b,
      c.layout.heightMargin.toNat + p.1 * c.side + a) ∈ (c.square p).area := by
    rw [Raster.Rect.mem_area]
    simp only [square, Raster.tile]
    omega
  rw [drawn, Raster.drawAll_of_mem pairwise_disjoint_square hp hmem]
  simp only [square, Raster.tile, Nat.add_sub_cancel_left]

theorem drawn_of_notMem (background : ℕ × ℕ → Rgb) (trail : List (ℤ × ℤ)) (cur : ℤ × ℤ)
    {q : ℕ × ℕ} (hx : q.1 < c.width.toNat) (hy : q.2 < c.height.toNat)
    (hnone : ∀ p ∈ c.maze.positions, q ∉ (c.square p).area) :
    c.drawn background trail cur q = Rgb.black := by
  rw [drawn, Raster.drawAll_of_notMem hnone, Raster.copy_of_mem (mem_screen.mpr ⟨hx, hy⟩)]

theorem fill_of_lt (s : ℕ × ℕ → Rgb) {q : ℕ × ℕ} (hx : q.1 < c.width.toNat)
    (hy : q.2 < c.height.toNat) : c.fill s q = Rgb.black := by
  rw [fill, Raster.copy_of_mem (mem_screen.mpr ⟨hx, hy⟩), emptyCell_getD]

end Drawing

section Run

variable {c} {background : ℕ × ℕ → Rgb} {trail : List (ℤ × ℤ)} {e : Noticed} {s : MazeState}
  {key : ScanCode}

/-- A pass that stays in the labyrinth keeps the screen that of a labyrinth drawn afresh. -/
theorem Small.trailStep_eq (h : c.Small) (hs : s.Safe c.maze) (hkey : StaysInside c.maze s key) :
    c.trailStep e (s, c.drawn background trail s.pos) key =
      (mazeStep c.maze e s key,
        c.drawn background (trail ++ [s.pos]) (mazeStep c.maze e s key).pos) := by
  have hnext := ((safePass_iff (e := e) hs).mpr hkey).safe
  rw [trailStep]
  cases hswitch : mazeSwitch c.maze s.posX s.posY key with
  | none =>
    rw [mazeStep_of_none hswitch]
    exact congrArg (Prod.mk s) (drawn_congr fun q hq => by simp [hq])
  | some q =>
    have hpos : (mazeStep c.maze e s key).pos = q := (mazeStep_of_some hswitch).1
    have hin : c.maze.Inside q.1 q.2 := by
      rw [← hpos]
      exact hnext.inside
    rw [hpos]
    exact congrArg (Prod.mk _) (h.bltCell_drawn hs.inside hin)

theorem Small.run_trailStep (h : c.Small) (background : ℕ × ℕ → Rgb) (trail : List (ℤ × ℤ))
    (hs : s.Safe c.maze) (keys : List ScanCode)
    (hkeys : ∀ p ∈ Run.passes (mazeStep c.maze e) MazeState.over s keys,
      StaysInside c.maze p.1 p.2) :
    Run.run (c.trailStep e) (fun p => p.1.over) (s, c.drawn background trail s.pos) keys =
      (Run.run (mazeStep c.maze e) MazeState.over s keys,
        c.drawn background
          (trail ++ (Run.passes (mazeStep c.maze e) MazeState.over s keys).map fun p => p.1.pos)
          (Run.run (mazeStep c.maze e) MazeState.over s keys).pos) := by
  induction keys generalizing s trail with
  | nil => simp
  | cons key keys ih =>
    cases hover : s.over with
    | true =>
      rw [Run.run_of_halted (by exact hover), Run.run_of_halted hover, Run.passes_of_halted hover]
      simp
    | false =>
      rw [Run.passes_cons_of_not_halted hover, List.forall_mem_cons] at hkeys
      have hsafe := ((safePass_iff (e := e) hs).mpr hkeys.1).safe
      rw [Run.run_cons_of_not_halted (by exact hover), Run.run_cons_of_not_halted hover,
        Run.passes_cons_of_not_halted hover, h.trailStep_eq hs hkeys.1, ih _ hsafe hkeys.2]
      simp

/-- The run of the key loop keeps the screen that of a labyrinth drawn afresh, and leaving the loop
fills it. -/
theorem Small.trailRun_eq (h : c.Small) (hside : 0 < c.side) (hstart : .START ∈ c.maze.mazeCells)
    (background : ℕ × ℕ → Rgb) (keys : List ScanCode)
    (hkeys : ∀ p ∈ mazePasses c.maze (paintMaze c.maze c.side) keys, StaysInside c.maze p.1 p.2) :
    c.trailRun background keys =
      let s := mazeRun c.maze (paintMaze c.maze c.side) keys
      let screen := c.drawn background
        ((mazePasses c.maze (paintMaze c.maze c.side) keys).map fun p => p.1.pos) s.pos
      if s.over then (s, c.fill screen) else (s, screen) := by
  have hsafe := (mazeStart_safe_iff hstart c.side).mpr (Or.inl hside)
  have hfirst := h.firstScreen_eq background hsafe.inside
  have hrun := h.run_trailStep background [] hsafe keys hkeys
  rw [List.nil_append, ← mazeRun, ← mazePasses] at hrun
  have hloop : Run.run (c.trailStep (paintMaze c.maze c.side)) (fun p => p.1.over)
      (mazeStart (paintMaze c.maze c.side), c.firstScreen background
        ((paintMaze c.maze c.side).posX, (paintMaze c.maze c.side).posY)) keys = _ :=
    (congrArg (fun screen => Run.run _ _ (_, screen) keys) hfirst).trans hrun
  rw [trailRun]
  dsimp only
  rw [hloop]

end Run

end MazeScene

/-- The open row on a small screen, and a white player. -/
def openRowScene : MazeScene := ⟨openRow, 20, 10, List.replicate 100 ⟨255, 255, 255⟩⟩

end UefiGame
