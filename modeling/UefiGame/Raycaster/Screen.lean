import UefiGame.Raycaster.WallSlice

/-! # The screen of the 3D program

A frame is drawn over the previous one. The first loop paints a row of floor and
a row of ceiling per pass, and its second half paints over what its first half
has left on the screen; the second loop draws a slice of wall in every column.
Together they paint every pixel. Numbers are exact here, where the program
computes with `double`s.
-/

namespace UefiGame

open Truncate

/-- `floorX` and `floorY`, and what they grow by. -/
structure FloorLine (K : Type*) where
  floorX : K
  floorY : K
  floorStepX : K
  floorStepY : K

/-- One store of the first loop: its row `y` and column `x`, and whether it is the one of the
ceiling. -/
structure FloorPass where
  y : ℕ
  x : ℕ
  ceil : Bool
  deriving DecidableEq, Repr

/-- The offset in `screen` that the store goes to. -/
def FloorPass.index (p : FloorPass) : ℕ :=
  if p.ceil then (640 - p.y - 1) * 960 + p.x else p.y * 960 + p.x

section Frame

variable {K : Type*} [Field K] [LinearOrder K] [FloorRing K]

namespace FloorLine

/-- The coordinates of the next column. -/
def next (l : FloorLine K) : FloorLine K :=
  { l with floorX := l.floorX + l.floorStepX, floorY := l.floorY + l.floorStepY }

/-- `tx` or `ty`. -/
def texel (size : INT32) (floorX : K) : INT32 :=
  castInt (castDouble K size * (floorX - castDouble K (castInt floorX))) &&& (size - 1)

/-- The texel that both textures are sampled at. -/
def index (l : FloorLine K) : ℕ :=
  (texel texHeight l.floorY * texWidth + texel texWidth l.floorX).toNat

end FloorLine

/-- The color of the floor or of the ceiling. -/
def floorColor (textures : List Image) (l : FloorLine K) (ceil : Bool) : Pixel :=
  (Image.at (textures[if ceil then 1 else 0]?.getD []) l.index).darker

/-- The two stores of a pass of the inner loop. -/
def floorStep (textures : List Image) (y : ℕ) (s : FloorLine K × Image) (x : ℕ) :
    FloorLine K × Image :=
  (s.1.next,
    (s.2.set (FloorPass.index ⟨y, x, false⟩) (floorColor textures s.1 false)).set
      (FloorPass.index ⟨y, x, true⟩) (floorColor textures s.1 true))

/-- The search of a column with the distances it goes by, for at most `n` passes. -/
def wallSearch (m : MazeMap) (r : Ray) : ℕ → SideDist K → DdaState → Option (SideDist K × DdaState)
  | 0, _, _ => none
  | n + 1, d, s =>
    let s' := ddaStep r (decide (d.sideDistX < d.sideDistY)) s
    if 0 < (m.tile s'.mapX s'.mapY).toInt then some (d.step, s') else wallSearch m r n d.step s'

/-- `rowDistance`, with `posZ` and `p`. -/
def rowDistance (K : Type*) [Field K] (y : ℕ) : K := 0.5 * 640 / ((y - 320 : ℤ) : K)

namespace View

variable (v : View K)

/-- The locals of row `y` before the loop over its columns. -/
def floorLine (y : ℕ) : FloorLine K where
  floorX := v.posX + rowDistance K y * (v.dirX - v.planeX)
  floorY := v.posY + rowDistance K y * (v.dirY - v.planeY)
  floorStepX := rowDistance K y * (v.dirX + v.planeX - (v.dirX - v.planeX)) / 960
  floorStepY := rowDistance K y * (v.dirY + v.planeY - (v.dirY - v.planeY)) / 960

/-- The first loop. -/
def drawFloor (textures : List Image) (screen : Image) : Image :=
  (List.range 640).foldl
    (fun screen y =>
      ((List.range 960).foldl (floorStep textures y) (v.floorLine y, screen)).2) screen

/-- The wall of a column; a search in a bordered map ends within this many passes. -/
def column (m : MazeMap) (x : ℕ) : Option (SideDist K × DdaState) :=
  wallSearch m (v.ray x) (m.width.toNat + m.height.toNat) (v.sideDist x) v.searchStart

/-- The second loop. -/
def drawWalls (m : MazeMap) (textures : List Image) (screen : Image) : Option Image :=
  (List.range 960).foldlM
    (fun screen x => (v.column m x).map fun w =>
      (v.wallSlice x w.1 w.2 m textures).draw K (BitVec.ofNat 32 x) screen) screen

/-- A frame, up to the `Blt` that shows it. -/
def drawFrame (m : MazeMap) (textures : List Image) (screen : Image) : Option Image :=
  v.drawWalls m textures (v.drawFloor textures screen)

/-- The player is not so close to a wall that its height overflows. -/
def Apart (m : MazeMap) : Prop :=
  ∀ x < 960, ∀ d s, v.column m x = some (d, s) →
    0 ≤ truncate (640 / perpWallDist d s) ∧ truncate (640 / perpWallDist d s) < 2 ^ 31

end View

end Frame

/-! ## Floor and ceiling -/

/-- The order of the stores. -/
def FloorPass.Before (p q : FloorPass) : Prop :=
  p.y < q.y ∨ p.y = q.y ∧ (p.x < q.x ∨ p.x = q.x ∧ p.ceil = false ∧ q.ceil = true)

/-- The stores of row `y` up to column `k`. -/
def rowPasses (y k : ℕ) : List FloorPass :=
  (List.range k).flatMap fun x => [⟨y, x, false⟩, ⟨y, x, true⟩]

def floorPasses (n : ℕ) : List FloorPass := (List.range n).flatMap fun y => rowPasses y 960

theorem mem_rowPasses {y k : ℕ} {p : FloorPass} : p ∈ rowPasses y k ↔ p.y = y ∧ p.x < k := by
  rw [rowPasses, List.mem_flatMap]
  constructor
  · rintro ⟨x, hx, hp⟩
    rw [List.mem_range] at hx
    rcases List.mem_pair.mp hp with rfl | rfl
    · exact ⟨rfl, hx⟩
    · exact ⟨rfl, hx⟩
  · rintro ⟨rfl, hx⟩
    refine ⟨p.x, List.mem_range.mpr hx, ?_⟩
    obtain ⟨y, x, _ | _⟩ := p <;> simp

theorem mem_floorPasses {n : ℕ} {p : FloorPass} : p ∈ floorPasses n ↔ p.y < n ∧ p.x < 960 := by
  simp only [floorPasses, List.mem_flatMap, List.mem_range, mem_rowPasses]
  constructor
  · rintro ⟨y, hy, rfl, hx⟩
    exact ⟨hy, hx⟩
  · rintro ⟨hy, hx⟩
    exact ⟨p.y, hy, rfl, hx⟩

theorem pairwise_rowPasses (y k : ℕ) : (rowPasses y k).Pairwise FloorPass.Before := by
  rw [rowPasses, List.pairwise_flatMap]
  constructor
  · intro x _
    simp [FloorPass.Before]
  · refine List.pairwise_lt_range.imp ?_
    intro x x' hlt p hp q hq
    rcases List.mem_pair.mp hp with rfl | rfl <;> rcases List.mem_pair.mp hq with rfl | rfl <;>
      exact Or.inr ⟨rfl, Or.inl hlt⟩

theorem pairwise_floorPasses (n : ℕ) : (floorPasses n).Pairwise FloorPass.Before := by
  rw [floorPasses, List.pairwise_flatMap]
  refine ⟨fun y _ => pairwise_rowPasses y 960, List.pairwise_lt_range.imp ?_⟩
  intro y y' hlt p hp q hq
  rw [mem_rowPasses] at hp hq
  left
  rw [hp.1, hq.1]
  exact hlt

/-- The row of the screen that a store goes to. -/
def FloorPass.row (p : FloorPass) : ℕ := if p.ceil then 639 - p.y else p.y

theorem FloorPass.index_eq (p : FloorPass) : p.index = Grid.rowMajor 960 p.x p.row := by
  unfold index row Grid.rowMajor
  split_ifs with h
  · rw [show 640 - p.y - 1 = 639 - p.y by omega]
  · rfl

/-- The store that paints a row last: the floor below the middle of the screen, the ceiling above
it. -/
def lastPass (x y : ℕ) : FloorPass := if y < 320 then ⟨639 - y, x, true⟩ else ⟨y, x, false⟩

theorem FloorPass.Before.row_ne {p : FloorPass} {x y : ℕ} (h : (lastPass x y).Before p)
    (hp : p.y < 640) (hx : p.x = (lastPass x y).x) : p.row ≠ y := by
  obtain ⟨py, px, pc⟩ := p
  unfold lastPass Before at h
  unfold lastPass at hx
  unfold row
  by_cases hupper : y < 320
  · rw [if_pos hupper] at h hx
    cases pc <;> simp_all <;> omega
  · rw [if_neg hupper] at h hx
    cases pc <;> simp_all <;> omega

section Floor

variable {K : Type*} [Field K] [LinearOrder K] [FloorRing K] {textures : List Image}
  {screen : Image}
  {v : View K}

/-- The color that a store leaves. -/
def View.floorValue (textures : List Image) (v : View K) (p : FloorPass) : Pixel :=
  floorColor textures (FloorLine.next^[p.x] (v.floorLine p.y)) p.ceil

theorem foldl_floorStep (y k : ℕ) (screen : Image) :
    (List.range k).foldl (floorStep textures y) (v.floorLine y, screen) =
      (FloorLine.next^[k] (v.floorLine y),
        WriteLoop.writeAll FloorPass.index (v.floorValue textures) (rowPasses y k) screen) := by
  induction k with
  | zero => rfl
  | succ k ih =>
    rw [List.range_succ, List.foldl_append, ih, List.foldl_cons, List.foldl_nil, floorStep,
      Function.iterate_succ_apply', rowPasses, rowPasses, List.range_succ (n := k),
      List.flatMap_append, WriteLoop.writeAll, WriteLoop.writeAll, List.foldl_append]
    rfl

theorem drawFloor_eq : v.drawFloor textures screen =
    WriteLoop.writeAll FloorPass.index (v.floorValue textures) (floorPasses 640) screen := by
  have hrows : ∀ n, (List.range n).foldl (fun screen y =>
      ((List.range 960).foldl (floorStep textures y) (v.floorLine y, screen)).2) screen =
      WriteLoop.writeAll FloorPass.index (v.floorValue textures) (floorPasses n) screen := by
    intro n
    induction n with
    | zero => rfl
    | succ n ih =>
      rw [List.range_succ (n := n), List.foldl_append, ih, List.foldl_cons, List.foldl_nil,
        foldl_floorStep, floorPasses, floorPasses, List.range_succ (n := n), List.flatMap_append,
        List.flatMap_singleton, WriteLoop.writeAll, WriteLoop.writeAll, WriteLoop.writeAll,
        List.foldl_append]
  exact hrows 640

theorem getElem?_drawFloor (v : View K) (textures : List Image)
    (hscreen : screen.length = 960 * 640) {x y : ℕ} (hx : x < 960)
    (hy : y < 640) : (v.drawFloor textures screen)[Grid.rowMajor 960 x y]? =
      some (v.floorValue textures (lastPass x y)) := by
  have hrow : (lastPass x y).row = y ∧ (lastPass x y).x = x := by
    rw [lastPass, FloorPass.row]
    by_cases hupper : y < 320
    · rw [if_pos hupper]
      exact ⟨show 639 - (639 - y) = y by omega, rfl⟩
    · rw [if_neg hupper]
      exact ⟨rfl, rfl⟩
  have hindex : (lastPass x y).index = Grid.rowMajor 960 x y := by
    rw [FloorPass.index_eq, hrow.1, hrow.2]
  rw [drawFloor_eq, ← hindex]
  apply WriteLoop.getElem?_writeAll_of_last _ _ (pairwise_floorPasses 640)
  · rw [mem_floorPasses, hrow.2]
    refine ⟨?_, hx⟩
    unfold lastPass
    split_ifs
    · change 639 - y < 640
      omega
    · exact hy
  · intro p hp hbefore heq
    rw [mem_floorPasses] at hp
    rw [FloorPass.index_eq, FloorPass.index_eq,
      Grid.rowMajor_inj hp.2 (by rw [hrow.2]; exact hx)] at heq
    obtain ⟨hcol, hsame⟩ := heq
    have hnot := hbefore.row_ne hp.1 hcol
    rw [hsame, hrow.1] at hnot
    exact hnot rfl
  · rw [hindex, hscreen]
    exact Grid.rowMajor_lt hx hy

/-- The point of the floor that a column shows lies on the ray of the column. -/
theorem floorColor_floorLine [IsStrictOrderedRing K] (x y : ℕ) (ceil : Bool) :
    floorColor textures (FloorLine.next^[x] (v.floorLine y)) ceil =
      floorColor textures ⟨v.posX + rowDistance K y * v.rayDirX x,
        v.posY + rowDistance K y * v.rayDirY x, 0, 0⟩ ceil := by
  have hline : ∀ l : FloorLine K, FloorLine.next^[x] l =
      ⟨l.floorX + x * l.floorStepX, l.floorY + x * l.floorStepY, l.floorStepX, l.floorStepY⟩ := by
    intro l
    induction x with
    | zero => simp
    | succ x ih =>
      rw [Function.iterate_succ_apply', ih, FloorLine.next]
      push_cast
      congr 1 <;> ring
  have hwidth : ((imageWidth : ℕ) : K) ≠ 0 := by
    norm_num [imageWidth]
  have hX : v.posX + rowDistance K y * v.rayDirX x =
      v.posX + rowDistance K y * (v.dirX - v.planeX) +
        x * (rowDistance K y * (v.dirX + v.planeX - (v.dirX - v.planeX)) / 960) := by
    rw [View.rayDirX, View.cameraX, imageWidth]
    push_cast
    ring
  have hY : v.posY + rowDistance K y * v.rayDirY x =
      v.posY + rowDistance K y * (v.dirY - v.planeY) +
        x * (rowDistance K y * (v.dirY + v.planeY - (v.dirY - v.planeY)) / 960) := by
    rw [View.rayDirY, View.cameraX, imageWidth]
    push_cast
    ring
  rw [hline, hX, hY]
  rfl

theorem FloorLine.index_lt (l : FloorLine K) : l.index < 64 * 64 := by
  have hmask : ∀ a : INT32, (a &&& (texWidth - 1)).toNat ≤ 63 := by
    intro a
    rw [BitVec.toNat_and]
    exact Nat.and_le_right
  have htx := hmask (castInt (castDouble K texWidth * (l.floorX - castDouble K (castInt l.floorX))))
  have hty :=
    hmask (castInt (castDouble K texHeight * (l.floorY - castDouble K (castInt l.floorY))))
  have hwidth : texWidth.toNat = 64 := rfl
  rw [index, texel, texel, BitVec.toNat_add, BitVec.toNat_mul, hwidth]
  change ((_ &&& (texWidth - 1)).toNat * 64 % 2 ^ 32 + _) % 2 ^ 32 < 64 * 64
  omega

end Floor

/-! ## Walls -/

section Walls

variable {K : Type*} [Field K] [LinearOrder K] [FloorRing K] {m : MazeMap} {r : Ray}
  {d : SideDist K} {s s' : DdaState} {n k : ℕ} {bs : UINTN} {count entries : ℕ} {v : View K}
  {textures : List Image} {screen : Image}

omit [FloorRing K] in
theorem SideDist.closer_succ (d : SideDist K) : (fun i => d.closer (i + 1)) = d.step.closer := by
  funext i
  rw [closer, closer, Function.iterate_succ_apply]

omit [FloorRing K] in
/-- The search finds the cell that the loop over the outcomes of the comparisons finds. -/
theorem exists_wallSearch (h : ddaLoop m r n d.closer s = some s') (hk : n ≤ k) :
    ∃ d', wallSearch m r k d s = some (d', s') := by
  induction n generalizing d s k with
  | zero => cases h
  | succ n ih =>
    obtain ⟨k, rfl⟩ := Nat.exists_eq_add_of_le' (Nat.lt_of_lt_of_le (Nat.succ_pos n) hk)
    have hfirst : d.closer 0 = decide (d.sideDistX < d.sideDistY) := rfl
    simp only [ddaLoop, hfirst, d.closer_succ] at h
    simp only [wallSearch]
    split_ifs at h ⊢ with hwall
    · exact ⟨_, by rw [Option.some.inj h]⟩
    · exact ih h (by omega)

theorem MazeMap.Searchable.exists_column (hm : m.Searchable bs count entries) (hin : v.Interior m)
    (x : ℕ) :
    ∃ w, v.column m x = some w ∧ 0 < (m.tile w.2.mapX w.2.mapY).toInt ∧
      (texNum m w.2).toNat < count := by
  obtain ⟨k, s', hk, hends⟩ := exists_ddaEnds m hm.bordered hm.width_le hm.height_le (v.ray x)
    v.searchStart (hin.searchStart hm.width_le hm.height_le) (v.sideDist x).closer
  obtain ⟨d', hd'⟩ := exists_wallSearch hends.loop hk
  obtain ⟨hlo, hhi⟩ := hm.texNum_mem hends
  refine ⟨_, hd', hends.wall, ?_⟩
  change (texNum m s').toNat < count
  rw [BitVec.toInt_eq_toNat_cond] at hlo hhi
  split_ifs at hlo hhi <;> omega

/-- `texPos` in row `y` of the wall of a column. -/
def View.wallTexPos (v : View K) (m : MazeMap) (textures : List Image) (x : ℕ)
    (w : SideDist K × DdaState) (y : ℕ) : K :=
  let slice := v.wallSlice x w.1 w.2 m textures
  slice.firstTexPos K + (y - slice.drawStart.toInt).toNat * slice.step K

/-- The texel at which the wall of a column is sampled in row `y`. -/
def View.wallTexel (v : View K) (m : MazeMap) (textures : List Image) (x : ℕ)
    (w : SideDist K × DdaState) (y : ℕ) : ℕ :=
  ((castInt (v.wallTexPos m textures x w y) &&& (texHeight - 1)) * texWidth +
    v.texX x w.1 w.2).toNat

/-- The color of the wall of a column in row `y`. -/
def View.wallColor (v : View K) (m : MazeMap) (textures : List Image) (x : ℕ)
    (w : SideDist K × DdaState) (y : ℕ) : Pixel :=
  (v.wallSlice x w.1 w.2 m textures).color (v.wallTexPos m textures x w y)

/-- The rows of a column that its wall covers. -/
def View.wallRows (v : View K) (m : MazeMap) (textures : List Image) (x : ℕ)
    (w : SideDist K × DdaState) : List ℤ := (v.wallSlice x w.1 w.2 m textures).rows K

/-- After the loop over `n` columns: their slices, over what was there. -/
theorem foldlM_walls {w : ℕ → SideDist K × DdaState} (hw : ∀ x, v.column m x = some (w x))
    (hheight : ∀ x < 960, 0 ≤ (v.wallSlice x (w x).1 (w x).2 m textures).lineHeight.toInt)
    (hscreen : screen.length = 960 * 640) (hn : n ≤ 960) :
    ∃ screen', (List.range n).foldlM (fun screen x => (v.column m x).map fun w =>
        (v.wallSlice x w.1 w.2 m textures).draw K (BitVec.ofNat 32 x) screen) screen =
          some screen' ∧
      screen'.length = 960 * 640 ∧
      ∀ x < 960, ∀ y < 640, screen'[Grid.rowMajor 960 x y]? =
        if x < n ∧ (y : ℤ) ∈ v.wallRows m textures x (w x) then
          some (v.wallColor m textures x (w x) y)
        else screen[Grid.rowMajor 960 x y]? := by
  induction n with
  | zero => exact ⟨screen, rfl, hscreen, fun x _ y _ => by simp⟩
  | succ n ih =>
    obtain ⟨before, hrun, hlen, hpixels⟩ := ih (by omega)
    have hcol : (BitVec.ofNat 32 n).toInt = n := by
      rw [← BitVec.ofInt_natCast, BitVec.toInt_ofInt, Int.bmod_eq_of_le] <;> omega
    have hheight' := hheight n (by omega)
    refine ⟨(v.wallSlice n (w n).1 (w n).2 m textures).draw K (BitVec.ofNat 32 n) before, ?_, ?_,
      fun x hx y hy => ?_⟩
    · rw [List.range_succ, List.foldlM_append, hrun]
      simp [hw n]
    · rw [WallSlice.draw, WriteLoop.length_writeAll, hlen]
    · by_cases hdrawn : x = n ∧ (y : ℤ) ∈ v.wallRows m textures x (w x)
      · obtain ⟨rfl, hrow⟩ := hdrawn
        have hat := WallSlice.getElem?_draw_of_mem (x := BitVec.ofNat 32 x) hheight' (by omega)
          (by omega) hlen hrow
        rw [hcol, Int.toNat_natCast] at hat
        rw [hat, if_pos ⟨Nat.lt_succ_self x, hrow⟩]
        rfl
      · have hne : x ≠ (BitVec.ofNat 32 n).toInt.toNat ∨
            (y : ℤ) ∉ (v.wallSlice n (w n).1 (w n).2 m textures).rows K := by
          rw [hcol, Int.toNat_natCast]
          by_cases hxn : x = n
          · subst hxn
            exact Or.inr fun hrow => hdrawn ⟨rfl, hrow⟩
          · exact Or.inl hxn
        rw [WallSlice.getElem?_draw_of_notMem hheight' (by omega) (by omega) hx hne,
          hpixels x hx y hy]
        have hiff : x < n + 1 ∧ (y : ℤ) ∈ v.wallRows m textures x (w x) ↔
            x < n ∧ (y : ℤ) ∈ v.wallRows m textures x (w x) := by
          constructor
          · rintro ⟨hle, hrow⟩
            exact ⟨Nat.lt_of_le_of_ne (Nat.le_of_lt_succ hle) fun h => hdrawn ⟨h, hrow⟩, hrow⟩
          · rintro ⟨hlt, hrow⟩
            exact ⟨Nat.lt_succ_of_lt hlt, hrow⟩
        exact (if_congr hiff rfl rfl).symm

end Walls

/-! ## Colors -/

/-- The pixel shows texel `i` of texture `n`, both of which there are, darkened or as it is. -/
def Shows (textures : List Image) (n i : ℕ) (dark : Bool) (pixel : Option Pixel) : Prop :=
  ∃ texture texel, textures[n]? = some texture ∧ texture[i]? = some texel ∧
    pixel = some (if dark then texel.darker else texel)

/-- The first `count` textures have 64 rows of 64 texels, as the program samples them. -/
def TexturesFull (textures : List Image) (count : ℕ) : Prop :=
  ∀ i < count, ∃ texture, textures[i]? = some texture ∧ 64 * 64 ≤ texture.length

section Colors

variable {K : Type*} [Field K] [LinearOrder K] [FloorRing K] {textures : List Image}
  {count n i : ℕ}

omit [Field K] [LinearOrder K] [FloorRing K] in
theorem TexturesFull.shows (h : TexturesFull textures count) (hn : n < count) (hi : i < 64 * 64)
    (dark : Bool) : Shows textures n i dark
      (some (if dark then (Image.at (textures[n]?.getD []) i).darker
        else Image.at (textures[n]?.getD []) i)) := by
  obtain ⟨texture, htexture, hlen⟩ := h n hn
  have htexel : texture[i]? = some texture[i] := List.getElem?_eq_getElem (by omega)
  refine ⟨texture, texture[i], htexture, htexel, ?_⟩
  rw [htexture, Option.getD_some, Image.at, htexel, Option.getD_some]

theorem TexturesFull.shows_floorColor (h : TexturesFull textures count) (hcount : 2 ≤ count)
    (l : FloorLine K) (ceil : Bool) :
    Shows textures (if ceil then 1 else 0) l.index true (some (floorColor textures l ceil)) :=
  h.shows (by split_ifs <;> omega) l.index_lt true

theorem TexturesFull.shows_wallColor [IsStrictOrderedRing K] (h : TexturesFull textures count)
    {m : MazeMap} {v : View K} {x : ℕ} {w : SideDist K × DdaState}
    (htexNum : (texNum m w.2).toNat < count) (y : ℕ) :
    Shows textures (texNum m w.2).toNat (v.wallTexel m textures x w y) w.2.side
      (some (v.wallColor m textures x w y)) :=
  h.shows htexNum (WallSlice.texel_wallSlice_lt v x w.1 w.2 m textures _) w.2.side

end Colors

/-- A frame of a player inside the border who does not touch a wall paints every pixel, whatever the
screen showed before: the wall found in the column, on the rows that it reaches, and elsewhere floor
below and ceiling above the middle, at the point where the ray of the column meets them. The two
rows in the middle have no such point. -/
theorem frame_painted {K : Type*} [Field K] [LinearOrder K] [FloorRing K] [IsStrictOrderedRing K]
    {m : MazeMap} {bs : UINTN} {count n : ℕ} (hm : m.Searchable bs count n) (hcount : 2 ≤ count)
    {v : View K} (hin : v.Interior m) (hapart : v.Apart m) {textures : List Image}
    (htextures : TexturesFull textures count) {screen : Image}
    (hscreen : screen.length = 960 * 640) :
    ∃ (screen' : Image) (w : ℕ → SideDist K × DdaState),
      v.drawFrame m textures screen = some screen' ∧ screen'.length = 960 * 640 ∧
      ∀ x < 960, v.column m x = some (w x) ∧ 0 < (m.tile (w x).2.mapX (w x).2.mapY).toInt ∧
        ∀ y : ℕ, y < 640 →
          ((y : ℤ) ∈ v.wallRows m textures x (w x) →
            Shows textures (texNum m (w x).2).toNat (v.wallTexel m textures x (w x) y)
              (w x).2.side screen'[Grid.rowMajor 960 x y]?) ∧
          ((y : ℤ) ∉ v.wallRows m textures x (w x) → y < 319 →
            Shows textures 1 (FloorLine.index ⟨v.posX + rowDistance K (639 - y) * v.rayDirX x,
              v.posY + rowDistance K (639 - y) * v.rayDirY x, 0, 0⟩) true
              screen'[Grid.rowMajor 960 x y]?) ∧
          ((y : ℤ) ∉ v.wallRows m textures x (w x) → 320 < y →
            Shows textures 0 (FloorLine.index ⟨v.posX + rowDistance K y * v.rayDirX x,
              v.posY + rowDistance K y * v.rayDirY x, 0, 0⟩) true
              screen'[Grid.rowMajor 960 x y]?) := by
  choose w hw hwall htexNum using hm.exists_column hin
  have hheight : ∀ x < 960, 0 ≤ (v.wallSlice x (w x).1 (w x).2 m textures).lineHeight.toInt := by
    intro x hx
    obtain ⟨hlo, hhi⟩ := hapart x hx _ _ (hw x)
    have hnumber : ((GameView.imageHeight.toNat : ℕ) : K) = 640 := by
      rw [show GameView.imageHeight.toNat = 640 from rfl]
      norm_num
    have hcast := toInt_castInt le_rfl ⟨hlo, by exact_mod_cast hhi⟩
    rw [View.wallSlice, hnumber, hcast]
    exact hlo
  have hlen : (v.drawFloor textures screen).length = 960 * 640 := by
    rw [drawFloor_eq, WriteLoop.length_writeAll, hscreen]
  obtain ⟨screen', hdraw, hlen', hpixels⟩ := foldlM_walls hw hheight hlen le_rfl
  refine ⟨screen', w, hdraw, hlen', fun x hx => ⟨hw x, hwall x, fun y hy => ?_⟩⟩
  have hfloor := getElem?_drawFloor v textures hscreen hx hy
  refine ⟨fun hrow => ?_, fun hrow hupper => ?_, fun hrow hlower => ?_⟩
  · rw [hpixels x hx y hy, if_pos ⟨hx, hrow⟩]
    exact htextures.shows_wallColor (htexNum x) y
  · rw [hpixels x hx y hy, if_neg fun h => hrow h.2, hfloor, lastPass, if_pos (by omega),
      View.floorValue, floorColor_floorLine]
    exact htextures.shows_floorColor hcount _ true
  · rw [hpixels x hx y hy, if_neg fun h => hrow h.2, hfloor, lastPass, if_neg (by omega),
      View.floorValue, floorColor_floorLine]
    exact htextures.shows_floorColor hcount _ false

/-- A player in the middle of the closet, looking at one of its walls. -/
def closetView : View ℚ := ⟨1.5, 1.5, 1, 0, 0, 0.66⟩

theorem closet_searchable : closet.Searchable 2 2 0 where
  bordered := by decide
  width_le := by decide
  height_le := by decide
  walls := by decide
  doors := by decide

theorem closetView_interior : closetView.Interior closet := by
  have hpos : truncate (1.5 : ℚ) = 1 := by decide +kernel
  simp only [View.Interior, closetView, hpos]
  decide

theorem closetView_cell : castInt (1.5 : ℚ) = 1 := by decide +kernel

theorem closetView_rayDirX (x : ℕ) : closetView.rayDirX x = 1 := by
  simp [View.rayDirX, closetView]

theorem closetView_closer {x : ℕ} (hx : x < 960) : (closetView.sideDist x).sideDistX = 0.5 ∧
    (closetView.sideDist x).sideDistX < (closetView.sideDist x).sideDistY := by
  have hone : (1 : INT32).toInt = 1 := by decide
  have hbound : |closetView.rayDirY x| ≤ 0.66 := by
    have hx0 : (0 : ℚ) ≤ x := Nat.cast_nonneg x
    have hx' : (x : ℚ) ≤ 960 := by exact_mod_cast hx.le
    rw [abs_le]
    simp only [View.rayDirY, closetView, View.cameraX, imageWidth]
    push_cast
    constructor <;> linarith
  have hdelta : 1 < deltaDist (closetView.rayDirY x) := by
    unfold deltaDist
    split_ifs with hzero
    · norm_num
    · rw [abs_div, abs_one, one_lt_div (abs_pos.mpr hzero)]
      exact lt_of_le_of_lt hbound (by norm_num)
  have hX : (closetView.sideDist x).sideDistX = 0.5 := by
    have hdef : (closetView.sideDist x).sideDistX =
        firstSideDist (closetView.rayDirX x) 1.5 (castInt (1.5 : ℚ)) := rfl
    rw [hdef, closetView_rayDirX, closetView_cell, firstSideDist, deltaDist, hone]
    norm_num
  have hY : (closetView.sideDist x).sideDistY = 0.5 * deltaDist (closetView.rayDirY x) := by
    have hdef : (closetView.sideDist x).sideDistY =
        firstSideDist (closetView.rayDirY x) 1.5 (castInt (1.5 : ℚ)) := rfl
    rw [hdef, closetView_cell, firstSideDist, hone]
    split_ifs <;> norm_num
  rw [hX, hY]
  exact ⟨rfl, by linarith⟩

theorem closetView_column {x : ℕ} (hx : x < 960) :
    closetView.column closet x = some ((closetView.sideDist x).step, ⟨2, 1, false⟩) := by
  have hstart : closetView.searchStart = ⟨castInt (1.5 : ℚ), castInt (1.5 : ℚ), false⟩ := rfl
  have hray : (closetView.ray x).stepX = 1 :=
    if_neg (by rw [closetView_rayDirX]; exact not_lt.mpr zero_le_one)
  have hfuel : closet.width.toNat + closet.height.toNat = 5 + 1 := by decide
  have htile : 0 < (closet.tile 2 1).toInt := by decide
  have hstep : ddaStep (closetView.ray x) true ⟨1, 1, false⟩ = ⟨2, 1, false⟩ := by
    rw [ddaStep, if_pos rfl, hray]
    rfl
  rw [View.column, hfuel, wallSearch, hstart, closetView_cell,
    decide_eq_true (closetView_closer hx).2, hstep]
  exact if_pos htile

theorem closetView_perpWallDist {x : ℕ} (hx : x < 960) :
    View.perpWallDist (closetView.sideDist x).step ⟨2, 1, false⟩ = 0.5 := by
  rw [View.perpWallDist, if_neg (by simp), SideDist.step, if_pos (closetView_closer hx).2]
  dsimp only
  rw [(closetView_closer hx).1, add_sub_cancel_right]

theorem closetView_apart : closetView.Apart closet := by
  intro x hx d s hcolumn
  rw [closetView_column hx] at hcolumn
  obtain ⟨rfl, rfl⟩ := Prod.mk.inj (Option.some.inj hcolumn)
  have hnumber : truncate (640 / 0.5 : ℚ) = 1280 := by decide +kernel
  rw [closetView_perpWallDist hx, hnumber]
  decide

/-- A grey floor and a white wall. -/
def closetTextures : List Image :=
  [List.replicate (64 * 64) ⟨80, 80, 80, 0⟩, List.replicate (64 * 64) ⟨255, 255, 255, 0⟩]

theorem closetTextures_full : TexturesFull closetTextures 2 := by
  intro i hi
  match i, hi with
  | 0, _ => exact ⟨_, rfl, List.length_replicate.ge⟩
  | 1, _ => exact ⟨_, rfl, List.length_replicate.ge⟩

/-- In the middle column the wall ahead shows down to the last row but one, and the last row shows
the floor. -/
theorem frame_painted_closet : ∃ screen' : Image,
    closetView.drawFrame closet closetTextures (zeroPixels (960 * 640)) = some screen' ∧
      screen'[Grid.rowMajor 960 480 100]? = some ⟨255, 255, 255, 0⟩ ∧
      screen'[Grid.rowMajor 960 480 639]? = some ⟨40, 40, 40, 0⟩ := by
  have hscreen : (zeroPixels (960 * 640)).length = 960 * 640 := List.length_replicate
  obtain ⟨screen', w, hdraw, -, hpixels⟩ := frame_painted closet_searchable le_rfl
    closetView_interior closetView_apart closetTextures_full hscreen
  obtain ⟨hcolumn, -, hrows⟩ := hpixels 480 (by omega)
  have hw : w 480 = ((closetView.sideDist 480).step, ⟨2, 1, false⟩) :=
    Option.some.inj (hcolumn.symm.trans (closetView_column (by omega)))
  rw [hw] at hrows
  have hheight : (closetView.wallSlice 480 (closetView.sideDist 480).step ⟨2, 1, false⟩ closet
      closetTextures).lineHeight = 1280 := by
    have hnumber : castInt (640 / 0.5 : ℚ) = 1280 := by decide +kernel
    have hscreen : ((GameView.imageHeight.toNat : ℕ) : ℚ) = 640 := rfl
    rw [View.wallSlice, closetView_perpWallDist (by omega), hscreen, hnumber]
  have hmem : ∀ y : ℕ, (y : ℤ) ∈ closetView.wallRows closet closetTextures 480
      ((closetView.sideDist 480).step, ⟨2, 1, false⟩) ↔ y < 639 := by
    intro y
    rw [View.wallRows, WallSlice.mem_rows_iff (by rw [hheight]; decide), hheight]
    have hint : (1280 : INT32).toInt = 1280 := by decide
    rw [hint]
    omega
  have hnum : (texNum closet ⟨2, 1, false⟩).toNat = 1 := by decide
  refine ⟨screen', hdraw, ?_, ?_⟩
  · obtain ⟨texture, texel, htexture, htexel, hpixel⟩ :=
      (hrows 100 (by omega)).1 ((hmem 100).mpr (by omega))
    rw [hnum] at htexture
    obtain rfl := Option.some.inj htexture
    rw [hpixel, List.eq_of_mem_replicate (List.mem_of_getElem? htexel)]
    rfl
  · obtain ⟨texture, texel, htexture, htexel, hpixel⟩ :=
      (hrows 639 (by omega)).2.2 (fun h => absurd ((hmem 639).mp h) (by omega)) (by omega)
    obtain rfl := Option.some.inj htexture
    rw [hpixel, List.eq_of_mem_replicate (List.mem_of_getElem? htexel)]
    rfl

end UefiGame
