import UefiGame.Game.Loop
import UefiGame.Graphics.Image
import UefiGame.Library.Raster

/-! # Redrawing the player

`Game` draws the whole map once. A pass of the key loop that moves the player
copies two squares: the bare texture of the cell he leaves, and the sprite over
the texture of the cell he enters. The screen stays the one the first drawing
would give for the new position, with what the memory behind the sprite held
when he moved; a sprite of a whole square leaves none of that to see.
-/

namespace UefiGame

/-- The pixels of the screen, by column and row. -/
abbrev Framebuffer := ℕ × ℕ → Pixel

/-- The memory behind the block of the sprite, which other calls of the program may change. -/
abbrev Behind := ℕ → Pixel

/-- What `Game` draws with: its arguments and the resolution of the screen. -/
structure Scene where
  map : MazeMap
  textures : List Image
  sprite : Image
  screenWidth : UINTN
  screenHeight : UINTN

namespace Scene

def cellSide : UINTN := 32

variable (c : Scene)

def widthMargin : UINTN := (c.screenWidth - cellSide * c.map.width) / 2

def heightMargin : UINTN := (c.screenHeight - cellSide * c.map.height) / 2

/-- `Blt` with `EfiBltBufferToVideo`, the rows of the buffer `width` pixels long. A rectangle that
is not on the screen is refused. -/
def blt (buffer : Image) (destX destY width height : UINTN) (s : Framebuffer) : Framebuffer :=
  if destX.toNat + width.toNat ≤ c.screenWidth.toNat ∧
      destY.toNat + height.toNat ≤ c.screenHeight.toNat then
    Raster.copy s ⟨destX.toNat, destY.toNat, width.toNat, height.toNat⟩
      fun p => buffer.at (p.2 * width.toNat + p.1)
  else s

/-- The call of `Blt` for the cell `(x, y)`. -/
def bltCell (buffer : Image) (x y : UINTN) (s : Framebuffer) : Framebuffer :=
  c.blt buffer (x * cellSide + c.widthMargin) (y * cellSide + c.heightMargin) cellSide cellSide s

/-- `Textures[Map[y * MapWidth + x]]`. -/
def texture (x y : UINTN) : Image := c.textures[(c.map.read (c.map.index x y)).toNat]?.getD []

/-- The square `Sprite[0]`, …, `Sprite[32 * 32 - 1]` that is read, whatever the sprite has. -/
def spriteRead (behind : Behind) : Image :=
  c.sprite ++ (List.range (32 * 32 - c.sprite.length)).map behind

/-- The sprite over the texture of a cell. -/
def combinedSprite (behind : Behind) (x y : UINTN) : Image :=
  combineWithTransparency (c.spriteRead behind) (c.texture x y) cellSide.toNat cellSide.toNat

/-- The body of the first drawing, in row `p.1` and column `p.2`. -/
def drawCell (behind : Behind) (curX curY : UINTN) (s : Framebuffer) (p : ℕ × ℕ) : Framebuffer :=
  let x := BitVec.ofNat 64 p.2
  let y := BitVec.ofNat 64 p.1
  let curCell := if x = curX ∧ y = curY then c.combinedSprite behind x y else c.texture x y
  c.bltCell curCell x y s

/-- The passes `(y, x)` of the drawing loops. -/
def passes : List (ℕ × ℕ) := List.range c.map.height.toNat ×ˢ List.range c.map.width.toNat

/-- The drawing loops before the key loop. -/
def draw (behind : Behind) (curX curY : UINTN) (s : Framebuffer) : Framebuffer :=
  c.passes.foldl (c.drawCell behind curX curY) s

/-- The drawing in the key loop. -/
def redraw (behind : Behind) (curX curY newX newY : UINTN) (s : Framebuffer) : Framebuffer :=
  if newX ≠ curX ∨ newY ≠ curY then
    c.bltCell (c.combinedSprite behind newX newY) newX newY
      (c.bltCell (c.texture curX curY) curX curY s)
  else s

/-- One pass of the key loop, with the screen: the key read, and the memory behind the sprite. -/
def screenStep (bootableStart : UINTN) (p : GameState × Framebuffer) (input : ScanCode × Behind) :
    GameState × Framebuffer :=
  let s := keySwitch c.map bootableStart p.1 input.1
  (testMapValue bootableStart s, c.redraw input.2 p.1.curX p.1.curY s.curX s.curY p.2)

/-- The key loop from the first drawing over the background on. -/
def screenRun (bootableStart garbage : UINTN) (background : Framebuffer) (behind : Behind)
    (inputs : List (ScanCode × Behind)) : GameState × Framebuffer :=
  let s := gameStart garbage
  Run.run (c.screenStep bootableStart) (fun p => p.1.escaped)
    (s, c.draw behind s.curX s.curY background) inputs

/-- The map fits on the screen. -/
structure Fits : Prop where
  width : 32 * c.map.width.toNat ≤ c.screenWidth.toNat
  height : 32 * c.map.height.toNat ≤ c.screenHeight.toNat

/-- The square of the screen for the cell in row `p.1` and column `p.2`. -/
def square (p : ℕ × ℕ) : Raster.Rect :=
  Raster.tile 32 c.widthMargin.toNat c.heightMargin.toNat (p.2, p.1)

/-- The image drawn for a cell while the player is in row `cur.1` and column `cur.2`. -/
def face (behind : Behind) (cur p : ℕ × ℕ) : Image :=
  let texture := c.textures[(c.map.cell p.2 p.1).toNat]?.getD []
  if p = cur then combineWithTransparency (c.spriteRead behind) texture 32 32 else texture

/-- The picture on a square, in coordinates of the square. -/
def picture (behind : Behind) (cur p q : ℕ × ℕ) : Pixel :=
  (c.face behind cur p).at (q.2 * 32 + q.1)

/-- Each cell shows its own texture, the one of the player the sprite over it, and the background is
untouched around them. -/
structure Shows (curX curY : UINTN) (background s : Framebuffer) : Prop where
  player : ∀ i < 32, ∀ j < 32,
    (combineWithTransparency c.sprite
      (c.textures[(c.map.cell curX.toNat curY.toNat).toNat]?.getD [])
        32 32)[j * 32 + i]? =
      some (s (curX.toNat * 32 + c.widthMargin.toNat + i,
        curY.toNat * 32 + c.heightMargin.toNat + j))
  others : ∀ x < c.map.width.toNat, ∀ y < c.map.height.toNat, (x, y) ≠ (curX.toNat, curY.toNat) →
    ∀ i < 32, ∀ j < 32, (c.textures[(c.map.cell x y).toNat]?.getD [])[j * 32 + i]? =
      some (s (x * 32 + c.widthMargin.toNat + i, y * 32 + c.heightMargin.toNat + j))
  around : ∀ q : ℕ × ℕ, (∀ p ∈ c.passes, q ∉ (c.square p).area) → s q = background q

section Draw

variable {c} {x y curX curY newX newY : UINTN} {buffer : Image} {s background : Framebuffer}
  {p q : ℕ × ℕ} {behind behind' : Behind}

theorem spriteRead_of_le (hsprite : 32 * 32 ≤ c.sprite.length) :
    c.spriteRead behind = c.sprite := by
  rw [spriteRead, Nat.sub_eq_zero_of_le hsprite, List.range_zero, List.map_nil, List.append_nil]

theorem draw_congr (hsprite : 32 * 32 ≤ c.sprite.length) :
    c.draw behind curX curY s = c.draw behind' curX curY s := by
  have hcell : c.drawCell behind curX curY = c.drawCell behind' curX curY := by
    funext s p
    simp only [drawCell, combinedSprite, spriteRead_of_le hsprite]
  rw [draw, draw, hcell]

theorem mem_passes : p ∈ c.passes ↔ p.1 < c.map.height.toNat ∧ p.2 < c.map.width.toNat := by
  rw [passes, List.mem_product, List.mem_range, List.mem_range]

theorem pairwise_disjoint_square :
    c.passes.Pairwise fun p q => Disjoint (c.square p).area (c.square q).area := by
  have hnodup : c.passes.Nodup := List.nodup_range.product List.nodup_range
  apply hnodup.imp
  intro p q hne
  apply Raster.disjoint_tile
  intro heq
  obtain ⟨hx, hy⟩ := Prod.mk.inj heq
  exact hne (Prod.ext hy hx)

theorem toNat_room {screen n : UINTN} (hfits : 32 * n.toNat ≤ screen.toNat) :
    (screen - 32 * n).toNat = screen.toNat - 32 * n.toNat := by
  have hmul : ((32 : UINTN) * n).toNat = 32 * n.toNat := by
    rw [BitVec.toNat_mul]
    exact Nat.mod_eq_of_lt (lt_of_le_of_lt hfits screen.isLt)
  rw [BitVec.toNat_sub_of_le (by rwa [BitVec.le_def, hmul]), hmul]

/-- Half of the room around the cells, and the distance of a cell from the border of the screen. -/
theorem toNat_destination {screen n x : UINTN} (side : UINTN) (hside : side = 32)
    (hfits : 32 * n.toNat ≤ screen.toNat) (hx : x.toNat < n.toNat) :
    (x * side + (screen - side * n) / 2).toNat =
      ((screen - side * n) / 2).toNat + x.toNat * 32 ∧
    x.toNat * 32 + ((screen - side * n) / 2).toNat + 32 ≤ screen.toNat := by
  subst hside
  have hscreen := screen.isLt
  have hhalf : ((screen - 32 * n) / 2).toNat = (screen.toNat - 32 * n.toNat) / 2 := by
    rw [BitVec.toNat_udiv, toNat_room hfits]
    rfl
  have hmul : (x * 32).toNat = x.toNat * 32 := by
    rw [BitVec.toNat_mul]
    exact Nat.mod_eq_of_lt (by change x.toNat * 32 < _; omega)
  rw [BitVec.toNat_add, hmul, hhalf, Nat.mod_eq_of_lt (by omega)]
  omega

theorem bltCell_eq (hfits : c.Fits) (hx : x.toNat < c.map.width.toNat)
    (hy : y.toNat < c.map.height.toNat) :
    c.bltCell buffer x y s =
      Raster.copy s (c.square (y.toNat, x.toNat)) fun q => buffer.at (q.2 * 32 + q.1) := by
  obtain ⟨hleft, hright⟩ := toNat_destination cellSide rfl hfits.width hx
  obtain ⟨htop, hbottom⟩ := toNat_destination cellSide rfl hfits.height hy
  have hside : cellSide.toNat = 32 := rfl
  have hon : (x * cellSide + c.widthMargin).toNat + cellSide.toNat ≤ c.screenWidth.toNat ∧
      (y * cellSide + c.heightMargin).toNat + cellSide.toNat ≤ c.screenHeight.toNat := by
    rw [widthMargin, heightMargin, hleft, htop, hside]
    omega
  rw [bltCell, blt, if_pos hon, widthMargin, heightMargin, hleft, htop, hside]
  rfl

theorem texture_eq (hx : x.toNat < c.map.width.toNat) (hy : y.toNat < c.map.height.toNat) :
    c.texture x y = c.textures[(c.map.cell x.toNat y.toNat).toNat]?.getD [] := by
  rw [texture, MazeMap.read_index hx hy]

theorem draw_eq (hfits : c.Fits) :
    c.draw behind curX curY s =
      Raster.drawAll c.square (c.picture behind (curY.toNat, curX.toNat)) c.passes s := by
  apply List.foldl_ext
  intro s p hp
  obtain ⟨hy, hx⟩ := mem_passes.mp hp
  have hx' := MazeMap.toNat_column hx
  have hy' := MazeMap.toNat_row hy
  have hiff : (BitVec.ofNat 64 p.2 = curX ∧ BitVec.ofNat 64 p.1 = curY) ↔
      p = (curY.toNat, curX.toNat) := by
    rw [Prod.ext_iff, BitVec.toNat_eq, BitVec.toNat_eq, hx', hy', and_comm]
  rw [drawCell, bltCell_eq hfits (by rwa [hx']) (by rwa [hy']), hx', hy', combinedSprite,
    texture_eq (by rwa [hx']) (by rwa [hy']), hx', hy']
  simp only [hiff]
  rfl

/-- Two squares redrawn after a move are the whole map drawn afresh; without a move nothing is. -/
theorem redraw_draw (hfits : c.Fits) (hx : curX.toNat < c.map.width.toNat)
    (hy : curY.toNat < c.map.height.toNat) (hx' : newX.toNat < c.map.width.toNat)
    (hy' : newY.toNat < c.map.height.toNat) :
    ∃ b, c.redraw behind' curX curY newX newY (c.draw behind curX curY background) =
      c.draw b newX newY background := by
  unfold redraw
  split_ifs with hmoved
  · refine ⟨behind', ?_⟩
    have hne : (curY.toNat, curX.toNat) ≠ (newY.toNat, newX.toNat) := by
      intro heq
      obtain ⟨hyeq, hxeq⟩ := Prod.mk.inj heq
      rcases hmoved with h | h
      · exact h (BitVec.eq_of_toNat_eq hxeq).symm
      · exact h (BitVec.eq_of_toNat_eq hyeq).symm
    have hleft : (fun q : ℕ × ℕ => (c.texture curX curY).at (q.2 * 32 + q.1)) =
        c.picture behind' (newY.toNat, newX.toNat) (curY.toNat, curX.toNat) := by
      ext q
      rw [picture, face, if_neg hne, texture_eq hx hy]
    have hentered : (fun q : ℕ × ℕ => (c.combinedSprite behind' newX newY).at (q.2 * 32 + q.1)) =
        c.picture behind' (newY.toNat, newX.toNat) (newY.toNat, newX.toNat) := by
      ext q
      rw [picture, face, if_pos rfl, combinedSprite, texture_eq hx' hy']
      rfl
    rw [bltCell_eq hfits hx' hy', bltCell_eq hfits hx hy, draw_eq hfits, draw_eq hfits, hleft,
      hentered]
    apply Raster.copy_copy_drawAll pairwise_disjoint_square (mem_passes.mpr ⟨hy, hx⟩)
      (mem_passes.mpr ⟨hy', hx'⟩)
    intro p _ hcur hnew
    ext q
    rw [picture, picture, face, face, if_neg hcur, if_neg hnew]
  · rw [not_or, not_not, not_not] at hmoved
    rw [hmoved.1, hmoved.2]
    exact ⟨behind, rfl⟩

theorem at_eq_of_getElem? {image : Image} {i : ℕ} (h : i < image.length) :
    image[i]? = some (image.at i) := by
  rw [Image.at, List.getElem?_eq_getElem h]
  rfl

theorem draw_pixel (hfits : c.Fits) (hp : p ∈ c.passes) {i j : ℕ} (hi : i < 32) (hj : j < 32) :
    c.draw behind curX curY background
        (p.2 * 32 + c.widthMargin.toNat + i, p.1 * 32 + c.heightMargin.toNat + j) =
      (c.face behind (curY.toNat, curX.toNat) p).at (j * 32 + i) := by
  have harea : (p.2 * 32 + c.widthMargin.toNat + i, p.1 * 32 + c.heightMargin.toNat + j) ∈
      (c.square p).area := by
    rw [Raster.Rect.mem_area]
    simp only [square, Raster.tile]
    omega
  rw [draw_eq hfits, Raster.drawAll_of_mem pairwise_disjoint_square hp harea, picture]
  have hleft : p.2 * 32 + c.widthMargin.toNat + i - (c.square p).left = i := by
    simp only [square, Raster.tile]
    omega
  have htop : p.1 * 32 + c.heightMargin.toNat + j - (c.square p).top = j := by
    simp only [square, Raster.tile]
    omega
  rw [hleft, htop]

/-- The first pixel read behind a short sprite is on the screen. -/
theorem draw_ne_of_short (hfits : c.Fits) (hx : curX.toNat < c.map.width.toNat)
    (hy : curY.toNat < c.map.height.toNat) (hshort : c.sprite.length < 32 * 32)
    (hne : behind 0 ≠ behind' 0) (hcovers : (behind 0).reserved = 0xff)
    (hcovers' : (behind' 0).reserved = 0xff) :
    c.draw behind curX curY background ≠ c.draw behind' curX curY background := by
  have hpixel : ∀ b : Behind, (b 0).reserved = 0xff →
      (c.face b (curY.toNat, curX.toNat) (curY.toNat, curX.toNat)).at c.sprite.length = b 0 := by
    intro b hb
    have hread : (c.spriteRead b).at c.sprite.length = b 0 := by
      rw [Image.at, spriteRead, List.getElem?_append_right le_rfl, Nat.sub_self, List.getElem?_map,
        List.getElem?_range (Nat.sub_pos_of_lt hshort)]
      rfl
    rw [face, if_pos rfl, at_combineWithTransparency hshort, combinedPixel, hread,
      if_neg (not_not.mpr hb)]
  have hpass : (curY.toNat, curX.toNat) ∈ c.passes := mem_passes.mpr ⟨hy, hx⟩
  have hcolumn : c.sprite.length % 32 < 32 := Nat.mod_lt _ (by decide)
  have hrow : c.sprite.length / 32 < 32 := Nat.div_lt_of_lt_mul hshort
  intro heq
  have hat := congrFun heq (curX.toNat * 32 + c.widthMargin.toNat + c.sprite.length % 32,
    curY.toNat * 32 + c.heightMargin.toNat + c.sprite.length / 32)
  rw [draw_pixel hfits hpass hcolumn hrow, draw_pixel hfits hpass hcolumn hrow, Nat.div_add_mod',
    hpixel behind hcovers, hpixel behind' hcovers'] at hat
  exact hne hat

theorem draw_shows (hfits : c.Fits) (hsprite : 32 * 32 ≤ c.sprite.length)
    (htextures : ∀ x < c.map.width.toNat, ∀ y < c.map.height.toNat,
      ∃ t, c.textures[(c.map.cell x y).toNat]? = some t ∧ t.length = 32 * 32)
    (hx : curX.toNat < c.map.width.toNat) (hy : curY.toNat < c.map.height.toNat) :
    c.Shows curX curY background (c.draw behind curX curY background) := by
  constructor
  · intro i hi j hj
    rw [draw_pixel (p := (curY.toNat, curX.toNat)) hfits (mem_passes.mpr ⟨hy, hx⟩) hi hj, face,
      if_pos rfl, spriteRead_of_le hsprite]
    apply at_eq_of_getElem?
    rw [length_combineWithTransparency]
    omega
  · intro x hxlt y hylt hne i hi j hj
    have hne' : (y, x) ≠ (curY.toNat, curX.toNat) := by
      rintro heq
      obtain ⟨rfl, rfl⟩ := Prod.mk.inj heq
      exact hne rfl
    rw [draw_pixel (p := (y, x)) hfits (mem_passes.mpr ⟨hylt, hxlt⟩) hi hj, face, if_neg hne']
    obtain ⟨t, ht, hlen⟩ := htextures x hxlt y hylt
    simp only [ht, Option.getD_some]
    apply at_eq_of_getElem?
    omega
  · intro q hq
    rw [draw_eq hfits, Raster.drawAll_of_notMem hq]

end Draw

section Run

variable {c} {bs : UINTN} {s : GameState} {background : Framebuffer} {behind : Behind}

/-- The screen is one drawn afresh for the position of the player, who is inside the map. -/
def Fresh (c : Scene) (background : Framebuffer) (p : GameState × Framebuffer) : Prop :=
  p.1.Inside c.map ∧ ∃ behind, p.2 = c.draw behind p.1.curX p.1.curY background

theorem screenStep_fresh (hfits : c.Fits) {p : GameState × Framebuffer}
    (input : ScanCode × Behind) (h : c.Fresh background p) :
    c.Fresh background (c.screenStep bs p input) := by
  obtain ⟨hin, behind, hdrawn⟩ := h
  have hnext : (c.screenStep bs p input).1.Inside c.map := gameStep_inside hin
  obtain ⟨hx, hy⟩ := hnext
  refine ⟨⟨hx, hy⟩, ?_⟩
  simp only [screenStep, testMapValue_curX, testMapValue_curY] at hx hy ⊢
  rw [hdrawn]
  exact redraw_draw hfits hin.1 hin.2 hx hy

theorem screenRun_fresh (hfits : c.Fits) (garbage : UINTN) (hw : 2 ≤ c.map.width.toNat)
    (hh : 18 ≤ c.map.height.toNat) (inputs : List (ScanCode × Behind)) :
    c.Fresh background (c.screenRun bs garbage background behind inputs) :=
  Run.invariant (fun _ input _ h => screenStep_fresh hfits input h)
    ⟨gameStart_inside hw hh garbage, behind, rfl⟩ inputs

theorem screenStep_other (p : GameState × Framebuffer) (code : UINT16) :
    c.screenStep bs p (.other code, behind) = (testMapValue bs p.1, p.2) := by
  simp [screenStep, keySwitch, lookup, redraw]

/-- With a sprite of a whole square, the screen after every pass of the key loop is the one the
drawing loops give over the same background for the position of the player, whatever the memory
behind the sprite holds now and held then, and it shows every cell and him alone. -/
theorem screenRun_eq_draw (c : Scene) (bs garbage : UINTN) (background : Framebuffer)
    (hw : 2 ≤ c.map.width.toNat) (hh : 18 ≤ c.map.height.toNat) (hfits : c.Fits)
    (htextures : ∀ x < c.map.width.toNat, ∀ y < c.map.height.toNat,
      ∃ t, c.textures[(c.map.cell x y).toNat]? = some t ∧ t.length = 32 * 32)
    (hsprite : 32 * 32 ≤ c.sprite.length) (behind : Behind) (inputs : List (ScanCode × Behind)) :
    (∀ now, (c.screenRun bs garbage background behind inputs).2 =
        c.draw now (c.screenRun bs garbage background behind inputs).1.curX
          (c.screenRun bs garbage background behind inputs).1.curY background) ∧
      c.Shows (c.screenRun bs garbage background behind inputs).1.curX
        (c.screenRun bs garbage background behind inputs).1.curY background
        (c.screenRun bs garbage background behind inputs).2 := by
  have hfresh : c.Fresh background (c.screenRun bs garbage background behind inputs) :=
    screenRun_fresh hfits garbage hw hh inputs
  obtain ⟨hin, b, hdrawn⟩ := hfresh
  constructor
  · intro now
    rw [hdrawn]
    exact draw_congr hsprite
  · rw [hdrawn]
    exact draw_shows hfits hsprite htextures hin.1 hin.2

end Run

end Scene

/-- One texture on all cells of the smallest map, and an opaque sprite. -/
def smallestScene : Scene where
  map := smallestMap
  textures := [zeroPixels (32 * 32)]
  sprite := List.replicate (32 * 32) ⟨0, 0, 0xff, 0xff⟩
  screenWidth := 800
  screenHeight := 600

theorem smallestScene_textures : ∀ x < smallestScene.map.width.toNat,
    ∀ y < smallestScene.map.height.toNat,
    ∃ t, smallestScene.textures[(smallestScene.map.cell x y).toNat]? = some t ∧
      t.length = 32 * 32 := by
  have hcell : ∀ x < 2, ∀ y < 18, smallestScene.map.cell x y = 0 := by decide
  intro x hx y hy
  rw [hcell x hx y hy]
  exact ⟨zeroPixels (32 * 32), rfl, List.length_replicate⟩

theorem Scene.screenRun_eq_draw_smallestScene :
    let p := smallestScene.screenRun 11 0 (fun _ => Pixel.zero) (fun _ => Pixel.zero)
      [(.up, fun _ => ⟨0, 0, 0xff, 0xff⟩), (.left, fun _ => Pixel.zero)]
    (∀ now, p.2 = smallestScene.draw now p.1.curX p.1.curY fun _ => Pixel.zero) ∧
      smallestScene.Shows p.1.curX p.1.curY (fun _ => Pixel.zero) p.2 :=
  Scene.screenRun_eq_draw smallestScene 11 0 (fun _ => Pixel.zero) (by decide) (by decide)
    ⟨by decide, by decide⟩ smallestScene_textures List.length_replicate.ge (fun _ => Pixel.zero)
    [(.up, fun _ => ⟨0, 0, 0xff, 0xff⟩), (.left, fun _ => Pixel.zero)]

/-- A sprite of 31 rows, as many as `ParseSprite` counts in 32 lines without a final newline. -/
def shortScene : Scene :=
  { smallestScene with sprite := List.replicate (31 * 32) ⟨0, 0, 0xff, 0xff⟩ }

/-- A full drawing would show what the memory behind the sprite holds by then. -/
theorem Scene.not_screenRun_eq_draw_shortScene :
    ¬ ∀ (c : Scene) (bs garbage : UINTN) (background : Framebuffer), 2 ≤ c.map.width.toNat →
      18 ≤ c.map.height.toNat → c.Fits →
      (∀ x < c.map.width.toNat, ∀ y < c.map.height.toNat,
        ∃ t, c.textures[(c.map.cell x y).toNat]? = some t ∧ t.length = 32 * 32) →
      ∀ (behind : Behind) (inputs : List (ScanCode × Behind)) (now : Behind),
        (c.screenRun bs garbage background behind inputs).2 =
          c.draw now (c.screenRun bs garbage background behind inputs).1.curX
            (c.screenRun bs garbage background behind inputs).1.curY background := by
  intro h
  have hfits : shortScene.Fits := ⟨by decide, by decide⟩
  have heq := h shortScene 11 0 (fun _ => Pixel.zero) (by decide) (by decide) hfits
    smallestScene_textures (fun _ => ⟨0xff, 0, 0, 0xff⟩)
    [(.other 0, fun _ => ⟨0xff, 0, 0, 0xff⟩)] fun _ => ⟨0, 0xff, 0, 0xff⟩
  rw [screenRun, Run.run_cons_of_not_halted rfl, Run.run_nil, screenStep_other] at heq
  simp only [testMapValue_curX, testMapValue_curY] at heq
  have hshort : shortScene.sprite.length < 32 * 32 := by
    rw [shortScene, List.length_replicate]
    decide
  exact draw_ne_of_short hfits (by decide) (by decide) hshort (by decide) rfl rfl heq

end UefiGame
