import UefiGame.Config.Maze
import UefiGame.Game.Redraw

/-! # Whether the layouts fit on the screen

Both boot managers centre their picture with unsigned differences of the
resolution and a size they do not compare first. The view of the 3D program has
a fixed size, the map of the 2D program that of its file, and the player of the
2D program starts in a fixed cell, which need not be one of the map.
-/

namespace UefiGame

/-- A `UINT32` in a `UINTN` expression. -/
def uintnOfUint32 (v : UINT32) : UINTN := v.setWidth 64

@[simp] theorem toNat_uintnOfUint32 (v : UINT32) : (uintnOfUint32 v).toNat = v.toNat := by
  have hv := v.isLt
  rw [uintnOfUint32, BitVec.toNat_setWidth]
  exact Nat.mod_eq_of_lt (by omega)

namespace Scene

variable (c : Scene)

/-- The destination rectangle passed to `Blt` for the cell `(x, y)`. -/
def cellRect (x y : UINTN) : Raster.Rect where
  left := (x * cellSide + c.widthMargin).toNat
  top := (y * cellSide + c.heightMargin).toNat
  width := cellSide.toNat
  height := cellSide.toNat

/-- The destination rectangles of the drawing loops. -/
def drawRects : List Raster.Rect :=
  c.passes.map fun p => c.cellRect (BitVec.ofNat 64 p.2) (BitVec.ofNat 64 p.1)

/-- The destination rectangles of a pass of the key loop. -/
def moveRects (bootableStart : UINTN) (s : GameState) (key : ScanCode) : List Raster.Rect :=
  let s' := keySwitch c.map bootableStart s key
  if s'.curX ≠ s.curX ∨ s'.curY ≠ s.curY then
    [c.cellRect s.curX s.curY, c.cellRect s'.curX s'.curY]
  else []

/-- The destination rectangles of `Game` of the 2D program, the last one that of the black fill. -/
def gameRects (bootableStart garbage : UINTN) (keys : List ScanCode) : List Raster.Rect :=
  c.drawRects ++
    (Run.passes (gameStep c.map bootableStart) GameState.escaped (gameStart garbage) keys).flatMap
      (fun p => c.moveRects bootableStart p.1 p.2) ++
    [⟨0, 0, c.screenWidth.toNat, c.screenHeight.toNat⟩]

end Scene

/-- `ImageWidth` and `ImageHeight` of the 3D program. -/
def GameView.imageWidth : UINTN := 960

def GameView.imageHeight : UINTN := 640

/-- The destination rectangle of both calls of `Blt` in `Game` of the 3D program. -/
def viewRect (horizontalResolution verticalResolution : UINT32) : Raster.Rect where
  left := ((uintnOfUint32 horizontalResolution - GameView.imageWidth) / 2).toNat
  top := ((uintnOfUint32 verticalResolution - GameView.imageHeight) / 2).toNat
  width := GameView.imageWidth.toNat
  height := GameView.imageHeight.toNat

/-- No margin of the two programs wraps, and every `Blt` of theirs goes to a rectangle of the
screen, whatever the map of the given size holds and whichever keys are pressed. -/
structure LayoutFits (horizontalResolution verticalResolution : UINT32)
    (mapWidth mapHeight : UINTN) : Prop where
  mapWidth_exact : ((uintnOfUint32 horizontalResolution - Scene.cellSide * mapWidth).toNat : ℤ) =
    horizontalResolution.toNat - 32 * mapWidth.toNat
  mapHeight_exact : ((uintnOfUint32 verticalResolution - Scene.cellSide * mapHeight).toNat : ℤ) =
    verticalResolution.toNat - 32 * mapHeight.toNat
  imageWidth_exact : ((uintnOfUint32 horizontalResolution - GameView.imageWidth).toNat : ℤ) =
    horizontalResolution.toNat - 960
  imageHeight_exact : ((uintnOfUint32 verticalResolution - GameView.imageHeight).toNat : ℤ) =
    verticalResolution.toNat - 640
  gameRects : ∀ c : Scene, c.screenWidth = uintnOfUint32 horizontalResolution →
    c.screenHeight = uintnOfUint32 verticalResolution → c.map.width = mapWidth →
    c.map.height = mapHeight → ∀ bootableStart garbage keys,
      ∀ r ∈ c.gameRects bootableStart garbage keys,
        r.Inside horizontalResolution.toNat verticalResolution.toNat
  viewRect : (viewRect horizontalResolution verticalResolution).Inside
    horizontalResolution.toNat verticalResolution.toNat

/-- `ParseMazeConfigFile` accepts some file with a map of this size. -/
def MapAccepted (mapWidth mapHeight : UINTN) : Prop :=
  ∃ fs name c out numbers, Reads fs name c ∧
    parseMazeConfigFile fs (some name) out = (EFI_SUCCESS, ⟨numbers, mapWidth, mapHeight⟩)

section Margins

variable {screen n : UINTN}

theorem sub_exact_iff (screen size : UINTN) :
    ((screen - size).toNat : ℤ) = screen.toNat - size.toNat ↔ size.toNat ≤ screen.toNat := by
  constructor
  · intro h
    omega
  · intro h
    rw [BitVec.toNat_sub_of_le (BitVec.le_def.mpr h)]
    omega

theorem cells_exact_iff :
    ((screen - Scene.cellSide * n).toNat : ℤ) = screen.toNat - 32 * n.toNat ↔
      32 * n.toNat ≤ screen.toNat := by
  constructor
  · intro h
    omega
  · intro h
    have hroom : (screen - Scene.cellSide * n).toNat = _ := Scene.toNat_room h
    omega

end Margins

section Fits

variable {c : Scene} {x y bs : UINTN} {s : GameState} {key : ScanCode}

theorem cellRect_inside (hfits : c.Fits) (hx : x.toNat < c.map.width.toNat)
    (hy : y.toNat < c.map.height.toNat) :
    (c.cellRect x y).Inside c.screenWidth.toNat c.screenHeight.toNat := by
  obtain ⟨hleft, hright⟩ := Scene.toNat_destination Scene.cellSide rfl hfits.width hx
  obtain ⟨htop, hbottom⟩ := Scene.toNat_destination Scene.cellSide rfl hfits.height hy
  have hside : Scene.cellSide.toNat = 32 := rfl
  unfold Raster.Rect.Inside Scene.cellRect Scene.widthMargin Scene.heightMargin
  simp only [hleft, htop, hside]
  omega

theorem moveRects_inside (hfits : c.Fits) (hs : s.Inside c.map) :
    ∀ r ∈ c.moveRects bs s key, r.Inside c.screenWidth.toNat c.screenHeight.toNat := by
  have hnext : (keySwitch c.map bs s key).Inside c.map := by
    have hstep : (gameStep c.map bs s key).Inside c.map := gameStep_inside hs
    unfold gameStep GameState.Inside at hstep
    rwa [testMapValue_curX, testMapValue_curY] at hstep
  intro r hr
  unfold Scene.moveRects at hr
  simp only at hr
  split_ifs at hr
  · rw [List.mem_cons, List.mem_singleton] at hr
    rcases hr with rfl | rfl
    · exact cellRect_inside hfits hs.1 hs.2
    · exact cellRect_inside hfits hnext.1 hnext.2
  · exact absurd hr List.not_mem_nil

theorem gameRects_inside (hfits : c.Fits) (hw : 2 ≤ c.map.width.toNat)
    (hh : 18 ≤ c.map.height.toNat) (bs garbage : UINTN) (keys : List ScanCode) :
    ∀ r ∈ c.gameRects bs garbage keys, r.Inside c.screenWidth.toNat c.screenHeight.toNat := by
  have hmoves : ∀ p ∈ Run.passes (gameStep c.map bs) GameState.escaped (gameStart garbage) keys,
      ∀ r ∈ c.moveRects bs p.1 p.2, r.Inside c.screenWidth.toNat c.screenHeight.toNat := by
    apply Run.forall_passes (I := GameState.Inside c.map)
      (P := fun s key => ∀ r ∈ c.moveRects bs s key,
        r.Inside c.screenWidth.toNat c.screenHeight.toNat) _ (gameStart_inside hw hh garbage)
    intro s key _ hs
    exact ⟨moveRects_inside hfits hs, gameStep_inside hs⟩
  intro r hr
  unfold Scene.gameRects at hr
  rw [List.mem_append, List.mem_append, List.mem_singleton] at hr
  rcases hr with (hr | hr) | rfl
  · obtain ⟨p, hp, rfl⟩ := List.mem_map.mp hr
    obtain ⟨hy, hx⟩ := Scene.mem_passes.mp hp
    exact cellRect_inside hfits (by rwa [MazeMap.toNat_column hx]) (by rwa [MazeMap.toNat_row hy])
  · obtain ⟨p, hp, hrect⟩ := List.mem_flatMap.mp hr
    exact hmoves p hp r hrect
  · exact ⟨(Nat.zero_add _).le, (Nat.zero_add _).le⟩

end Fits

section Drift

/-- A map of free cells. -/
def zeroMap (width height : UINTN) (fits : width.toNat * height.toNat < 2 ^ 64) : MazeMap where
  width := width
  height := height
  cells := List.replicate (width.toNat * height.toNat) 0
  length_eq := List.length_replicate
  fits := fits

/-- The locals of `Game` after `n` steps of the player to the right of the start, or below it. -/
def drifted (key : ScanCode) (n : ℕ) : GameState where
  curX := if key = .right then BitVec.ofNat 64 (1 + n) else 1
  curY := if key = .right then 17 else BitVec.ofNat 64 (17 + n)
  mapValue := 0
  entryToBoot := ESCAPE_ENTRY
  escaped := false

variable {m : MazeMap} {key : ScanCode} {n : ℕ}

theorem read_zeroMap {width height : UINTN} (fits : width.toNat * height.toNat < 2 ^ 64)
    (i : UINTN) :
    (zeroMap width height fits).read i = 0 := by
  unfold MazeMap.read zeroMap
  rw [List.getElem?_replicate]
  split_ifs <;> rfl

theorem gameStart_eq_drifted (key : ScanCode) : gameStart 0 = drifted key 0 := by
  unfold gameStart drifted
  split_ifs <;> rfl

/-- Where all lookups read zero, a key that is not guarded off takes the player on. -/
theorem keySwitch_drifted (hzero : ∀ i, m.read i = 0) (hkey : key = .down ∨ key = .right)
    (hfree : lookup m (drifted key n).curX (drifted key n).curY key ≠ none) :
    keySwitch m 1 (drifted key n) key = drifted key (n + 1) := by
  obtain ⟨i, hi⟩ := Option.ne_none_iff_exists'.mp hfree
  have hwalk : Walkable 1 0 := by decide
  unfold keySwitch
  rw [hi]
  simp only [hzero, if_pos hwalk]
  rcases hkey with rfl | rfl
  · simp [drifted, shifted, ← Nat.add_assoc, BitVec.ofNat_add]
  · simp [drifted, shifted, ← Nat.add_assoc, BitVec.ofNat_add]

theorem gameStep_drifted (hzero : ∀ i, m.read i = 0) (hkey : key = .down ∨ key = .right)
    (hfree : lookup m (drifted key n).curX (drifted key n).curY key ≠ none) :
    gameStep m 1 (drifted key n) key = drifted key (n + 1) := by
  have hvalue : ¬ (1 : UINTN) ≤ (drifted key (n + 1)).mapValue :=
    show ¬ (1 : UINTN) ≤ 0 by decide
  unfold gameStep testMapValue
  rw [keySwitch_drifted hzero hkey hfree, if_neg hvalue]

theorem gameRun_drifted (hzero : ∀ i, m.read i = 0) (hkey : key = .down ∨ key = .right)
    (hfree : ∀ k < n, lookup m (drifted key k).curX (drifted key k).curY key ≠ none) :
    gameRun m 1 (drifted key 0) (List.replicate n key) = drifted key n := by
  induction n with
  | zero => rfl
  | succ n ih =>
    have hrun := ih fun k hk => hfree k (Nat.lt_succ_of_lt hk)
    unfold gameRun at hrun ⊢
    rw [List.replicate_succ', Run.run_append, hrun, Run.run_cons_of_not_halted rfl, Run.run_nil]
    exact gameStep_drifted hzero hkey (hfree n (Nat.lt_succ_self n))

/-- Among the rectangles of a run there is that of the cell he drifts to. -/
theorem cellRect_drifted_mem {c : Scene} (hzero : ∀ i, c.map.read i = 0)
    (hkey : key = .down ∨ key = .right)
    (hfree : ∀ k < n + 1, lookup c.map (drifted key k).curX (drifted key k).curY key ≠ none) :
    c.cellRect (drifted key (n + 1)).curX (drifted key (n + 1)).curY ∈
      c.gameRects 1 0 (List.replicate n key ++ [key]) := by
  have hrun := gameRun_drifted hzero hkey fun k hk => hfree k (Nat.lt_succ_of_lt hk)
  unfold gameRun at hrun
  have hpass : (drifted key n, key) ∈ Run.passes (gameStep c.map 1) GameState.escaped (gameStart 0)
      (List.replicate n key ++ [key]) := by
    have hmem :
        (Run.run (gameStep c.map 1) GameState.escaped (drifted key 0) (List.replicate n key),
        key) ∈ Run.passes (gameStep c.map 1) GameState.escaped (drifted key 0)
          (List.replicate n key ++ [key]) := Run.mem_passes_append (by rw [hrun]; rfl) key
    rwa [hrun, ← gameStart_eq_drifted] at hmem
  have hswitch := keySwitch_drifted hzero hkey (hfree n (Nat.lt_succ_self n))
  have hmoved : (drifted key (n + 1)).curX ≠ (drifted key n).curX ∨
      (drifted key (n + 1)).curY ≠ (drifted key n).curY := by
    rcases hkey with rfl | rfl
    · right
      simp only [drifted, reduceCtorEq, if_false]
      bv_omega
    · left
      simp only [drifted, if_true]
      bv_omega
  unfold Scene.gameRects
  rw [List.mem_append, List.mem_append, List.mem_flatMap]
  refine Or.inl (Or.inr ⟨_, hpass, ?_⟩)
  unfold Scene.moveRects
  simp only [hswitch, if_pos hmoved]
  exact List.mem_cons_of_mem _ List.mem_cons_self

end Drift

section Iff

variable {horizontalResolution verticalResolution : UINT32} {mapWidth mapHeight : UINTN}

/-- An empty screen over a map of free cells. -/
def zeroScene (horizontalResolution verticalResolution : UINT32) (m : MazeMap) : Scene where
  map := m
  textures := []
  sprite := []
  screenWidth := uintnOfUint32 horizontalResolution
  screenHeight := uintnOfUint32 verticalResolution

theorem lt_toNat_drifted {n : ℕ} (screen : UINT32) (size : UINTN) (hn : screen.toNat < n)
    (hn' : n < 2 ^ 33) (hsub : (uintnOfUint32 screen - size).toNat ≤ screen.toNat) :
    screen.toNat <
      (BitVec.ofNat 64 n * Scene.cellSide + (uintnOfUint32 screen - size) / 2).toNat := by
  have hscreen := screen.isLt
  have hmargin : ((uintnOfUint32 screen - size) / 2).toNat ≤ screen.toNat := by
    rw [BitVec.toNat_udiv]
    exact (Nat.div_le_self _ _).trans hsub
  have hmul : (BitVec.ofNat 64 n * Scene.cellSide).toNat = n * 32 := by
    rw [BitVec.toNat_mul, BitVec.toNat_ofNat, Nat.mod_eq_of_lt (a := n) (by omega)]
    exact Nat.mod_eq_of_lt (by change n * 32 < _; omega)
  rw [BitVec.toNat_add, hmul, Nat.mod_eq_of_lt (by omega)]
  omega

/-- A layout that fits has the start cell in its map: outside the map free cells would let the
player run off the screen. -/
theorem LayoutFits.start_inside
    (h : LayoutFits horizontalResolution verticalResolution mapWidth mapHeight) :
    2 ≤ mapWidth.toNat ∧ 18 ≤ mapHeight.toNat := by
  have hh := horizontalResolution.isLt
  have hv := verticalResolution.isLt
  have hwexact := h.mapWidth_exact
  have hhexact := h.mapHeight_exact
  have hmul : mapWidth.toNat * mapHeight.toNat ≤ 2 ^ 27 * 2 ^ 27 :=
    Nat.mul_le_mul (by omega) (by omega)
  have hfits : mapWidth.toNat * mapHeight.toNat < 2 ^ 64 := by omega
  have hrects := fun (key : ScanCode) (hkey : key = .down ∨ key = .right) n hfree => h.gameRects
    (zeroScene horizontalResolution verticalResolution
      (zeroMap mapWidth mapHeight hfits)) rfl rfl rfl
    rfl 1 0 _ _ (cellRect_drifted_mem (n := n) (read_zeroMap hfits) hkey hfree)
  constructor
  · by_contra hw
    have hfree : ∀ k < horizontalResolution.toNat + 1,
        lookup (zeroMap mapWidth mapHeight hfits) (drifted .right k).curX (drifted .right k).curY
          .right ≠ none := by
      intro k hk
      have hne : BitVec.ofNat 64 (1 + k) ≠ mapWidth - 1 := by bv_omega
      simpa [lookup, drifted, zeroMap] using hne
    obtain ⟨hinside, -⟩ := hrects .right (Or.inr rfl) horizontalResolution.toNat hfree
    have hout := lt_toNat_drifted (n := 1 + (horizontalResolution.toNat + 1))
      horizontalResolution (Scene.cellSide * mapWidth) (by omega) (by omega) (by omega)
    exact absurd (hout.trans_le (Nat.le_add_right _ _)) (not_lt.mpr hinside)
  · by_contra hw
    have hfree : ∀ k < verticalResolution.toNat + 1,
        lookup (zeroMap mapWidth mapHeight hfits) (drifted .down k).curX (drifted .down k).curY
          .down ≠ none := by
      intro k hk
      have hne : BitVec.ofNat 64 (17 + k) ≠ mapHeight - 1 := by bv_omega
      simpa [lookup, drifted, zeroMap] using hne
    obtain ⟨-, hinside⟩ := hrects .down (Or.inl rfl) verticalResolution.toNat hfree
    have hout := lt_toNat_drifted (n := 17 + (verticalResolution.toNat + 1))
      verticalResolution (Scene.cellSide * mapHeight) (by omega) (by omega) (by omega)
    exact absurd (hout.trans_le (Nat.le_add_right _ _)) (not_lt.mpr hinside)

theorem viewRect_inside (hh : 960 ≤ horizontalResolution.toNat)
    (hv : 640 ≤ verticalResolution.toNat) :
    (viewRect horizontalResolution verticalResolution).Inside horizontalResolution.toNat
      verticalResolution.toNat := by
  have hmargin : ∀ {screen : UINT32} {size : UINTN}, size.toNat ≤ screen.toNat →
      ((uintnOfUint32 screen - size) / 2).toNat + size.toNat ≤ screen.toNat := by
    intro screen size hle
    rw [BitVec.toNat_udiv, BitVec.toNat_sub_of_le (by rwa [BitVec.le_def, toNat_uintnOfUint32]),
      toNat_uintnOfUint32]
    change (screen.toNat - size.toNat) / 2 + _ ≤ _
    omega
  exact ⟨hmargin hh, hmargin hv⟩

/-- The layouts fit exactly where the view and the map do and the map has the start cell. -/
theorem layoutFits_iff (horizontalResolution verticalResolution : UINT32)
    (mapWidth mapHeight : UINTN) :
    LayoutFits horizontalResolution verticalResolution mapWidth mapHeight ↔
      (32 * mapWidth.toNat ≤ horizontalResolution.toNat ∧
        32 * mapHeight.toNat ≤ verticalResolution.toNat) ∧
      (2 ≤ mapWidth.toNat ∧ 18 ≤ mapHeight.toNat) ∧
      960 ≤ horizontalResolution.toNat ∧ 640 ≤ verticalResolution.toNat := by
  have hh := horizontalResolution.isLt
  have hv := verticalResolution.isLt
  have hhnat := toNat_uintnOfUint32 horizontalResolution
  have hvnat := toNat_uintnOfUint32 verticalResolution
  constructor
  · intro h
    have hwexact := h.mapWidth_exact
    have hhexact := h.mapHeight_exact
    have hviexact := h.imageWidth_exact
    have hvjexact := h.imageHeight_exact
    exact ⟨⟨by omega, by omega⟩, h.start_inside, by omega, by omega⟩
  · rintro ⟨⟨hw, hhgt⟩, ⟨hstartx, hstarty⟩, hview, hview'⟩
    constructor
    · rw [← hhnat] at hw ⊢
      exact cells_exact_iff.mpr hw
    · rw [← hvnat] at hhgt ⊢
      exact cells_exact_iff.mpr hhgt
    · rw [← hhnat]
      exact (sub_exact_iff _ _).mpr (by rwa [hhnat])
    · rw [← hvnat]
      exact (sub_exact_iff _ _).mpr (by rwa [hvnat])
    · intro c hcw hch hmw hmh bs garbage keys r hr
      rw [← hhnat, ← hcw, ← hmw] at hw
      rw [← hvnat, ← hch, ← hmh] at hhgt
      have hinside := gameRects_inside ⟨hw, hhgt⟩ (by rwa [hmw]) (by rwa [hmh]) bs garbage keys r hr
      rwa [hcw, hch, hhnat, hvnat] at hinside
    · exact viewRect_inside hview hview'

/-- The smallest map that has the start cell is accepted, and is too high for 640 by 480 pixels. -/
theorem not_layoutFits_small_screen : MapAccepted 2 18 ∧ ¬ LayoutFits 640 480 2 18 := by
  constructor
  · refine ⟨fun _ => FileIo.ofBytes (List.replicate 18 [0x30, space, 0x30, newline]).flatten []
      (by decide), [], _, ⟨[], 0, 0⟩, List.replicate 36 0, Reads.ofBytes, ?_⟩
    decide +kernel
  · intro h
    have hexact := h.mapHeight_exact
    have hmap : (18 : UINTN).toNat = 18 := rfl
    have hscreen : (480 : UINT32).toNat = 480 := rfl
    omega

end Iff

end UefiGame
