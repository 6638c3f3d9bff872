import UefiGame.Labyrinth.Maze
import UefiGame.Library.Grid
import UefiGame.Library.Raster

/-! # Where the labyrinth lies on the screen

`UefiMain` of the Maze application makes the cells as large as both dimensions
of the screen allow, and centres the labyrinth. All of this is signed 64-bit
arithmetic; nothing in it overflows, so the pixels of a cell are those of a
square of the screen.
-/

namespace UefiGame

/-- A `UINT16` in an `INTN` expression. -/
def intnOfUint16 (v : UINT16) : INTN := v.setWidth 64

/-- The locals `cell_side`, `height_margin`, `width_margin` and `offset`. -/
structure MazeLayout where
  cellSide : INTN
  heightMargin : INTN
  widthMargin : INTN
  offset : INTN
  deriving DecidableEq, Repr

/-- The layout of a labyrinth of the given dimensions on a screen of the given resolution. -/
def mazeLayout (mazeWidth mazeHeight : INTN) (width height : UINT16) : MazeLayout :=
  let cellWidth := (intnOfUint16 width).sdiv mazeWidth
  let cellHeight := (intnOfUint16 height).sdiv mazeHeight
  let cellSide := if cellWidth.slt cellHeight then cellWidth else cellHeight
  let heightMargin := (intnOfUint16 height - cellSide * mazeHeight).sdiv 2
  let widthMargin := (intnOfUint16 width - cellSide * mazeWidth).sdiv 2
  ⟨cellSide, heightMargin, widthMargin, heightMargin * intnOfUint16 width + widthMargin⟩

namespace MazeLayout

/-- The index the painting loops write for pixel `(a, b)` of the cell in row `i`, column `j`. -/
def index (l : MazeLayout) (width : UINT16) (i j a b : INTN) : INTN :=
  l.offset + intnOfUint16 width * (l.cellSide * i + a) + l.cellSide * j + b

/-- The rectangle passed to `Blt` for the cell in column `posX` and row `posY`. -/
def cellRect (l : MazeLayout) (posX posY : INTN) : Raster.Rect where
  left := (posX * l.cellSide + l.widthMargin).toNat
  top := (posY * l.cellSide + l.heightMargin).toNat
  width := l.cellSide.toNat
  height := l.cellSide.toNat

end MazeLayout

/-- The range of a loop variable. -/
def Below (i n : INTN) : Prop := 0 ≤ i.toInt ∧ i.toInt < n.toInt

section Signed

theorem toInt_eq_toNat_of_nonneg {v : INTN} (h : 0 ≤ v.toInt) : v.toInt = v.toNat := by
  apply BitVec.toInt_eq_toNat_of_msb
  rw [BitVec.msb_eq_toInt]
  exact decide_eq_false (not_lt.mpr h)

theorem Below.toNat_lt {i n : INTN} (h : Below i n) : i.toNat < n.toNat := by
  have hi := toInt_eq_toNat_of_nonneg h.1
  have hn := toInt_eq_toNat_of_nonneg (h.1.trans h.2.le)
  have hlt := h.2
  omega

theorem below_ofNat {k : ℕ} {n : INTN} (hn : 0 ≤ n.toInt) (h : k < n.toNat) :
    Below (BitVec.ofNat 64 k) n ∧ (BitVec.ofNat 64 k : INTN).toNat = k := by
  have hnat := toInt_eq_toNat_of_nonneg hn
  have hlt := BitVec.toInt_lt (x := n)
  have hk : (BitVec.ofNat 64 k : INTN).toNat = k := by
    rw [BitVec.toNat_ofNat, Nat.mod_eq_of_lt (lt_trans h n.isLt)]
  have hint : (BitVec.ofNat 64 k : INTN).toInt = k := by
    rw [BitVec.toInt_eq_toNat_of_lt (by omega), hk]
  exact ⟨⟨by omega, by omega⟩, hk⟩

theorem toNat_sdiv_of_nonneg {x y : INTN} (hx : 0 ≤ x.toInt) (hy : 0 ≤ y.toInt) :
    (x.sdiv y).toNat = x.toNat / y.toNat := by
  have hmsb : ∀ v : INTN, 0 ≤ v.toInt → v.msb = false := by
    intro v hv
    rw [BitVec.msb_eq_toInt]
    exact decide_eq_false (not_lt.mpr hv)
  rw [BitVec.toNat_sdiv, hmsb x hx, hmsb y hy]
  exact BitVec.toNat_udiv

theorem toInt_nonneg_of_toNat {v : INTN} (h : v.toNat < 2 ^ 63) : 0 ≤ v.toInt := by
  rw [BitVec.toInt_eq_toNat_of_lt (by omega)]
  exact Int.natCast_nonneg _

@[simp] theorem toNat_intnOfUint16 (v : UINT16) : (intnOfUint16 v).toNat = v.toNat := by
  rw [intnOfUint16, BitVec.toNat_setWidth]
  have hv := v.isLt
  exact Nat.mod_eq_of_lt (by omega)

end Signed

namespace MazeLayout

variable {l : MazeLayout} {mazeWidth mazeHeight i j a b i' j' a' b' : INTN} {width height : UINT16}

/-- Margins and cells together are no larger than the screen, and the offset is that of the corner
of the labyrinth. -/
structure Centred (l : MazeLayout) (mazeWidth mazeHeight : INTN) (width height : UINT16) :
    Prop where
  width_le : l.widthMargin.toNat + l.cellSide.toNat * mazeWidth.toNat ≤ width.toNat
  height_le : l.heightMargin.toNat + l.cellSide.toNat * mazeHeight.toNat ≤ height.toNat
  offset_eq : l.offset.toNat = l.heightMargin.toNat * width.toNat + l.widthMargin.toNat

theorem lt_of_cell {margin side n screen k d : ℕ} (hfits : margin + side * n ≤ screen) (hk : k < n)
    (hd : d < side) : margin + side * k + d < screen := by
  have hnext : side * (k + 1) ≤ side * n := Nat.mul_le_mul_left side hk
  rw [Nat.mul_succ] at hnext
  omega

theorem Centred.toNat_index (h : l.Centred mazeWidth mazeHeight width height)
    (hi : Below i mazeHeight) (hj : Below j mazeWidth) (ha : Below a l.cellSide)
    (hb : Below b l.cellSide) :
    (l.index width i j a b).toNat =
      Grid.rowMajor width.toNat (l.widthMargin.toNat + l.cellSide.toNat * j.toNat + b.toNat)
        (l.heightMargin.toNat + l.cellSide.toNat * i.toNat + a.toNat) := by
  have hx := lt_of_cell h.width_le hj.toNat_lt hb.toNat_lt
  have hy := lt_of_cell h.height_le hi.toNat_lt ha.toNat_lt
  have hwidth := width.isLt
  have hheight := height.isLt
  have hlt := Grid.rowMajor_lt hx hy
  have hscreen : width.toNat * height.toNat < 2 ^ 32 := by
    calc width.toNat * height.toNat ≤ 2 ^ 16 * height.toNat :=
        Nat.mul_le_mul_right _ hwidth.le
      _ < 2 ^ 32 := by omega
  unfold Grid.rowMajor at hlt ⊢
  unfold index
  have hrow : (l.cellSide * i + a).toNat = l.cellSide.toNat * i.toNat + a.toNat := by
    rw [BitVec.toNat_add, BitVec.toNat_mul, Nat.mod_eq_of_lt (a := _ * _) (by omega),
      Nat.mod_eq_of_lt (by omega)]
  have hcol : (l.cellSide * j).toNat = l.cellSide.toNat * j.toNat := by
    rw [BitVec.toNat_mul, Nat.mod_eq_of_lt (by omega)]
  have hexpand : (l.heightMargin.toNat + l.cellSide.toNat * i.toNat + a.toNat) * width.toNat =
      l.heightMargin.toNat * width.toNat +
        width.toNat * (l.cellSide.toNat * i.toNat + a.toNat) := by ring
  have hmul : (intnOfUint16 width * (l.cellSide * i + a)).toNat =
      width.toNat * (l.cellSide.toNat * i.toNat + a.toNat) := by
    rw [BitVec.toNat_mul, toNat_intnOfUint16, hrow, Nat.mod_eq_of_lt (by omega)]
  rw [BitVec.toNat_add, BitVec.toNat_add, BitVec.toNat_add, hmul, hcol, h.offset_eq, hexpand,
    Nat.mod_eq_of_lt (a := _ + _ * (_ + _)) (by omega),
    Nat.mod_eq_of_lt (a := _ + _ * _) (by omega),
    Nat.mod_eq_of_lt (by omega)]
  omega

theorem cell_inj {margin side k d k' d' : ℕ} (hd : d < side) (hd' : d' < side)
    (he : margin + side * k + d = margin + side * k' + d') : k = k' ∧ d = d' := by
  have hrow : Grid.rowMajor side d k = Grid.rowMajor side d' k' := by
    unfold Grid.rowMajor
    rw [Nat.mul_comm k, Nat.mul_comm k']
    omega
  exact ((Grid.rowMajor_inj hd hd').mp hrow).symm

theorem Centred.index_inj (h : l.Centred mazeWidth mazeHeight width height)
    (hi : Below i mazeHeight) (hj : Below j mazeWidth) (ha : Below a l.cellSide)
    (hb : Below b l.cellSide) (hi' : Below i' mazeHeight) (hj' : Below j' mazeWidth)
    (ha' : Below a' l.cellSide) (hb' : Below b' l.cellSide)
    (he : l.index width i j a b = l.index width i' j' a' b') :
    i = i' ∧ j = j' ∧ a = a' ∧ b = b' := by
  have hnat := congrArg BitVec.toNat he
  rw [h.toNat_index hi hj ha hb, h.toNat_index hi' hj' ha' hb', Grid.rowMajor_inj
    (lt_of_cell h.width_le hj.toNat_lt hb.toNat_lt)
    (lt_of_cell h.width_le hj'.toNat_lt hb'.toNat_lt)] at hnat
  obtain ⟨hcol, hrow⟩ := hnat
  obtain ⟨hjj, hbb⟩ := cell_inj hb.toNat_lt hb'.toNat_lt hcol
  obtain ⟨hii, haa⟩ := cell_inj ha.toNat_lt ha'.toNat_lt hrow
  exact ⟨BitVec.eq_of_toNat_eq hii, BitVec.eq_of_toNat_eq hjj, BitVec.eq_of_toNat_eq haa,
    BitVec.eq_of_toNat_eq hbb⟩

theorem Centred.cellRect_eq (h : l.Centred mazeWidth mazeHeight width height)
    (hx : Below j mazeWidth) (hy : Below i mazeHeight) :
    l.cellRect j i = Raster.tile l.cellSide.toNat l.widthMargin.toNat l.heightMargin.toNat
      (j.toNat, i.toNat) := by
  have hdest : ∀ {k n margin : INTN} {screen : UINT16},
      margin.toNat + l.cellSide.toNat * n.toNat ≤ screen.toNat → Below k n →
        (k * l.cellSide + margin).toNat = margin.toNat + k.toNat * l.cellSide.toNat := by
    intro k n margin screen hfits hk
    have hscreen := screen.isLt
    have hle : k.toNat * l.cellSide.toNat ≤ l.cellSide.toNat * n.toNat := by
      rw [Nat.mul_comm]
      exact Nat.mul_le_mul_left _ hk.toNat_lt.le
    rw [BitVec.toNat_add, BitVec.toNat_mul, Nat.mod_eq_of_lt (a := _ * _) (by omega),
      Nat.mod_eq_of_lt (by omega), Nat.add_comm]
  unfold cellRect Raster.tile
  rw [hdest h.width_le hx, hdest h.height_le hy]

theorem Centred.toNat_index_lt (h : l.Centred mazeWidth mazeHeight width height)
    (hi : Below i mazeHeight) (hj : Below j mazeWidth) (ha : Below a l.cellSide)
    (hb : Below b l.cellSide) :
    (l.index width i j a b).toNat < width.toNat * height.toNat := by
  rw [h.toNat_index hi hj ha hb]
  exact Grid.rowMajor_lt (lt_of_cell h.width_le hj.toNat_lt hb.toNat_lt)
    (lt_of_cell h.height_le hi.toNat_lt ha.toNat_lt)

theorem Centred.toInt_index (h : l.Centred mazeWidth mazeHeight width height)
    (hi : Below i mazeHeight) (hj : Below j mazeWidth) (ha : Below a l.cellSide)
    (hb : Below b l.cellSide) :
    (l.index width i j a b).toInt = (l.index width i j a b).toNat := by
  have hlt := h.toNat_index_lt hi hj ha hb
  have hscreen := Nat.mul_le_mul width.isLt.le height.isLt.le
  exact BitVec.toInt_eq_toNat_of_lt (by omega)

theorem Centred.cellRect_inside (h : l.Centred mazeWidth mazeHeight width height)
    (hi : Below i mazeHeight) (hj : Below j mazeWidth) :
    (l.cellRect j i).left + (l.cellRect j i).width ≤ width.toNat ∧
      (l.cellRect j i).top + (l.cellRect j i).height ≤ height.toNat := by
  have hx : l.cellSide.toNat * (j.toNat + 1) ≤ l.cellSide.toNat * mazeWidth.toNat :=
    Nat.mul_le_mul_left _ hj.toNat_lt
  have hy : l.cellSide.toNat * (i.toNat + 1) ≤ l.cellSide.toNat * mazeHeight.toNat :=
    Nat.mul_le_mul_left _ hi.toNat_lt
  have hwle := h.width_le
  have hhle := h.height_le
  rw [Nat.mul_succ, Nat.mul_comm] at hx hy
  rw [h.cellRect_eq hj hi]
  unfold Raster.tile
  constructor
  · simp only
    omega
  · simp only
    omega

/-- The rectangle of a cell holds exactly the pixels that the loops paint for it. -/
theorem Centred.mem_cellRect (h : l.Centred mazeWidth mazeHeight width height)
    (hside : 0 ≤ l.cellSide.toInt) (hi : Below i mazeHeight) (hj : Below j mazeWidth) {x y : ℕ} :
    (x, y) ∈ (l.cellRect j i).area ↔ x < width.toNat ∧ ∃ a b, Below a l.cellSide ∧
      Below b l.cellSide ∧ (l.index width i j a b).toInt = y * width.toNat + x := by
  rw [h.cellRect_eq hj hi, Raster.Rect.mem_area]
  simp only [Raster.tile]
  rw [Nat.mul_comm j.toNat, Nat.mul_comm i.toNat]
  constructor
  · rintro ⟨⟨hxl, hxr⟩, hyt, hyb⟩
    obtain ⟨b, rfl⟩ := Nat.exists_eq_add_of_le hxl
    obtain ⟨a, rfl⟩ := Nat.exists_eq_add_of_le hyt
    obtain ⟨ha, hanat⟩ := below_ofNat (k := a) hside (by omega)
    obtain ⟨hb, hbnat⟩ := below_ofNat (k := b) hside (by omega)
    refine ⟨lt_of_cell h.width_le hj.toNat_lt (by omega), _, _, ha, hb, ?_⟩
    rw [h.toInt_index hi hj ha hb, h.toNat_index hi hj ha hb, hanat, hbnat, Grid.rowMajor]
    push_cast
    rfl
  · rintro ⟨hx, a, b, ha, hb, he⟩
    have hnat : (l.index width i j a b).toNat = Grid.rowMajor width.toNat x y := by
      rw [h.toInt_index hi hj ha hb] at he
      unfold Grid.rowMajor
      exact_mod_cast he
    rw [h.toNat_index hi hj ha hb,
      Grid.rowMajor_inj (lt_of_cell h.width_le hj.toNat_lt hb.toNat_lt) hx] at hnat
    obtain ⟨rfl, rfl⟩ := hnat
    have halt := ha.toNat_lt
    have hblt := hb.toNat_lt
    omega

end MazeLayout

section Spec

variable {mazeWidth mazeHeight : INTN} {width height : UINT16}

theorem toNat_margin {side n : INTN} {screen : UINT16}
    (hfits : side.toNat * n.toNat ≤ screen.toNat) :
    ((intnOfUint16 screen - side * n).sdiv 2).toNat =
      (screen.toNat - side.toNat * n.toNat) / 2 := by
  have hscreen := screen.isLt
  have hmul : (side * n).toNat = side.toNat * n.toNat := by
    rw [BitVec.toNat_mul, Nat.mod_eq_of_lt (by omega)]
  have hsub : (intnOfUint16 screen - side * n).toNat = screen.toNat - side.toNat * n.toNat := by
    rw [BitVec.toNat_sub_of_le, toNat_intnOfUint16, hmul]
    rw [BitVec.le_def, toNat_intnOfUint16, hmul]
    exact hfits
  have htwo : (0 : ℤ) ≤ (2 : INTN).toInt := by decide
  rw [toNat_sdiv_of_nonneg (toInt_nonneg_of_toNat (by omega)) htwo, hsub]
  rfl

theorem toNat_mazeLayout_cellSide (hw : 1 ≤ mazeWidth.toInt) (hh : 1 ≤ mazeHeight.toInt)
    (width height : UINT16) : (mazeLayout mazeWidth mazeHeight width height).cellSide.toNat =
      min (width.toNat / mazeWidth.toNat) (height.toNat / mazeHeight.toNat) := by
  have hquot : ∀ (screen : UINT16) (n : INTN), 1 ≤ n.toInt →
      ((intnOfUint16 screen).sdiv n).toNat = screen.toNat / n.toNat ∧
        ((intnOfUint16 screen).sdiv n).toInt = (screen.toNat / n.toNat : ℕ) := by
    intro screen n hn
    have hscreen := screen.isLt
    have hdiv := Nat.div_le_self screen.toNat n.toNat
    have hnonneg : 0 ≤ (intnOfUint16 screen).toInt :=
      toInt_nonneg_of_toNat (by rw [toNat_intnOfUint16]; omega)
    have hnat : ((intnOfUint16 screen).sdiv n).toNat = screen.toNat / n.toNat := by
      rw [toNat_sdiv_of_nonneg hnonneg (by omega), toNat_intnOfUint16]
    refine ⟨hnat, ?_⟩
    rw [BitVec.toInt_eq_toNat_of_lt (by omega), hnat]
  obtain ⟨hwnat, hwint⟩ := hquot width mazeWidth hw
  obtain ⟨hhnat, hhint⟩ := hquot height mazeHeight hh
  simp only [mazeLayout, BitVec.slt_iff_toInt_lt, hwint, hhint, Nat.cast_lt]
  split_ifs with hlt
  · rw [hwnat, min_eq_left hlt.le]
  · rw [hhnat, min_eq_right (not_lt.mp hlt)]

theorem mazeLayout_centred (hw : 1 ≤ mazeWidth.toInt) (hh : 1 ≤ mazeHeight.toInt)
    (width height : UINT16) : (mazeLayout mazeWidth mazeHeight width height).Centred
      mazeWidth mazeHeight width height := by
  have hside := toNat_mazeLayout_cellSide hw hh width height
  generalize hl : mazeLayout mazeWidth mazeHeight width height = l at hside ⊢
  have hwmargin : l.widthMargin = (intnOfUint16 width - l.cellSide * mazeWidth).sdiv 2 := by
    rw [← hl]
    rfl
  have hhmargin : l.heightMargin = (intnOfUint16 height - l.cellSide * mazeHeight).sdiv 2 := by
    rw [← hl]
    rfl
  have hoffset : l.offset = l.heightMargin * intnOfUint16 width + l.widthMargin := by
    rw [← hl]
    rfl
  have hfitsw : l.cellSide.toNat * mazeWidth.toNat ≤ width.toNat := by
    rw [hside]
    exact (Nat.mul_le_mul_right _ (min_le_left _ _)).trans (Nat.div_mul_le_self _ _)
  have hfitsh : l.cellSide.toNat * mazeHeight.toNat ≤ height.toNat := by
    rw [hside]
    exact (Nat.mul_le_mul_right _ (min_le_right _ _)).trans (Nat.div_mul_le_self _ _)
  have hw2 := hwmargin ▸ toNat_margin hfitsw
  have hh2 := hhmargin ▸ toNat_margin hfitsh
  have hwidth := width.isLt
  have hheight := height.isLt
  refine ⟨by omega, by omega, ?_⟩
  have hmul : l.heightMargin.toNat * width.toNat ≤ 2 ^ 16 * 2 ^ 16 :=
    Nat.mul_le_mul (by omega) hwidth.le
  rw [hoffset, BitVec.toNat_add, BitVec.toNat_mul, toNat_intnOfUint16,
    Nat.mod_eq_of_lt (a := _ * _) (by omega), Nat.mod_eq_of_lt (by omega)]

theorem cellSide_eq_mazeLayout (m : Maze) (hw : m.width < 2 ^ 63) (hh : m.height < 2 ^ 63)
    (width height : UINT16) : cellSide m width height =
      (mazeLayout (BitVec.ofNat 64 m.width)
        (BitVec.ofNat 64 m.height) width height).cellSide.toNat := by
  have hdim : ∀ n : ℕ, 0 < n → n < 2 ^ 63 →
      (BitVec.ofNat 64 n : INTN).toNat = n ∧ 1 ≤ (BitVec.ofNat 64 n : INTN).toInt := by
    intro n hpos hlt
    have hnat : (BitVec.ofNat 64 n : INTN).toNat = n := by
      rw [BitVec.toNat_ofNat, Nat.mod_eq_of_lt (by omega)]
    rw [BitVec.toInt_eq_toNat_of_lt (by omega)]
    omega
  obtain ⟨hwnat, hwpos⟩ := hdim m.width m.width_pos hw
  obtain ⟨hhnat, hhpos⟩ := hdim m.height m.height_pos hh
  rw [toNat_mazeLayout_cellSide hwpos hhpos, hwnat, hhnat]
  unfold cellSide
  simp only
  split_ifs with hlt
  · exact (min_eq_left hlt.le).symm
  · exact (min_eq_right (not_lt.mp hlt)).symm

/-- The painting loops and `Blt` treat each cell as a square of its own inside the screen. -/
structure LaidOut (mazeWidth mazeHeight : INTN) (width height : UINT16) (l : MazeLayout) :
    Prop where
  widthMargin_nonneg : 0 ≤ l.widthMargin.toInt
  heightMargin_nonneg : 0 ≤ l.heightMargin.toInt
  index_range : ∀ i j a b, Below i mazeHeight → Below j mazeWidth → Below a l.cellSide →
    Below b l.cellSide → 0 ≤ (l.index width i j a b).toInt ∧
      (l.index width i j a b).toInt < width.toNat * height.toNat
  index_inj : ∀ i j a b i' j' a' b', Below i mazeHeight → Below j mazeWidth →
    Below a l.cellSide → Below b l.cellSide → Below i' mazeHeight → Below j' mazeWidth →
    Below a' l.cellSide → Below b' l.cellSide → l.index width i j a b = l.index width i' j' a' b' →
      i = i' ∧ j = j' ∧ a = a' ∧ b = b'
  rect_inside : ∀ i j, Below i mazeHeight → Below j mazeWidth →
    (l.cellRect j i).left + (l.cellRect j i).width ≤ width.toNat ∧
      (l.cellRect j i).top + (l.cellRect j i).height ≤ height.toNat
  rect_covers : ∀ i j, Below i mazeHeight → Below j mazeWidth → ∀ x y,
    (x, y) ∈ (l.cellRect j i).area ↔ x < width.toNat ∧ ∃ a b, Below a l.cellSide ∧
      Below b l.cellSide ∧ (l.index width i j a b).toInt = y * width.toNat + x

/-- A labyrinth of any size is laid out inside a screen of any resolution. -/
theorem mazeLayout_laidOut (hw : 1 ≤ mazeWidth.toInt) (hh : 1 ≤ mazeHeight.toInt)
    (width height : UINT16) :
    LaidOut mazeWidth mazeHeight width height (mazeLayout mazeWidth mazeHeight width height) := by
  have h := mazeLayout_centred hw hh width height
  have hcell := toNat_mazeLayout_cellSide hw hh width height
  generalize mazeLayout mazeWidth mazeHeight width height = l at h hcell ⊢
  have hwidth := width.isLt
  have hheight := height.isLt
  have hwle := h.width_le
  have hhle := h.height_le
  constructor
  · exact toInt_nonneg_of_toNat (by omega)
  · exact toInt_nonneg_of_toNat (by omega)
  · intro i j a b hi hj ha hb
    rw [h.toInt_index hi hj ha hb]
    exact ⟨Int.natCast_nonneg _, by exact_mod_cast h.toNat_index_lt hi hj ha hb⟩
  · intro i j a b i' j' a' b' hi hj ha hb hi' hj' ha' hb' he
    exact h.index_inj hi hj ha hb hi' hj' ha' hb' he
  · intro i j hi hj
    exact h.cellRect_inside hi hj
  · intro i j hi hj x y
    have hside : 0 ≤ l.cellSide.toInt := by
      apply toInt_nonneg_of_toNat
      have hdiv := Nat.div_le_self width.toNat mazeWidth.toNat
      omega
    exact h.mem_cellRect hside hi hj

theorem mazeLayout_laidOut_three_two :
    LaidOut 3 2 640 480 (mazeLayout 3 2 640 480) :=
  mazeLayout_laidOut (by decide) (by decide) 640 480

end Spec

end UefiGame
