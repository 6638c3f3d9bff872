import UefiGame.Config.Boot
import UefiGame.Game.Map
import UefiGame.Graphics.Bmp
import UefiGame.Library.Draw

/-! # Placing the boot entries

`PlaceBootEntries` turns one escape cell of the map into a door for each boot
entry. Every pass scans the map column by column, counts the escape cells left
and gives the one with a random rank the next texture number, so a pass draws
an escape cell by rank from those that earlier passes left.
-/

namespace UefiGame

/-- The two programs; they differ in whether an icon is halved. -/
inductive BootManager where
  | bootManager2D
  | bootManager3D
  deriving DecidableEq, Repr

/-- The macro `escapes`. -/
def escapes : UINTN := 12

/-- The texture `MakeBootEntryTexture` composes of the texture `base`
and an icon that is `Sized`. -/
def bootEntryTexture : BootManager → Image → Bmp → Image
  | .bootManager2D, base, icon =>
    let smallBootEntryIcon := cutInHalf icon.pixels (uintnOfInt32 icon.width).toNat
      (uintnOfInt32 icon.height).toNat
    combineWithTransparency base smallBootEntryIcon (uintnOfInt32 (icon.width.sdiv 2)).toNat
      (uintnOfInt32 (icon.height.sdiv 2)).toNat
  | .bootManager3D, base, icon =>
    combineWithTransparency base icon.pixels (uintnOfInt32 icon.width).toNat
      (uintnOfInt32 icon.height).toNat

/-- What the program finds outside its arguments: `SelfFSHandle`, the results of `rand`, and what
the uninitialised locals of the calls of `MakeBootEntryTexture` happen to hold. -/
structure PlaceEnv where
  manager : BootManager
  fs : FileSystem
  rand : ℕ → INT32
  stack : ℕ → Bmp

/-- `Map` and `*Textures`. -/
structure PlaceState where
  map : MazeMap
  textures : List Image

/-- `*TexturesCount`. -/
def PlaceState.texturesCount (s : PlaceState) : UINTN := BitVec.ofNat 64 s.textures.length

/-- The map and the textures `Game` is given; the table of pointers lies in memory. -/
structure Level extends PlaceState where
  fits : 8 * textures.length < 2 ^ 64

/-- `AddElement`. -/
def addElement {α : Type*} (list : List α) (element : α) : List α := list ++ [element]

/-- `MakeBootEntryTexture`, in pass `i`. A call whose loops leave the blocks does not come back. -/
def makeBootEntryTexture (env : PlaceEnv) (i : ℕ) (bootEntry : BootEntry)
    (baseTextureIndex : UINTN) (textures : List Image) : Option (EFI_STATUS × List Image) :=
  let r := readBMP env.fs bootEntry.icon (env.stack i)
  let base := textures[baseTextureIndex.toNat]?.getD []
  if r.2.Sized then some (r.1, addElement textures (bootEntryTexture env.manager base r.2))
  else none

/-- The test for an escape cell: `cell >= 10` is signed, `cell < bootable_start` is not. -/
def IsEscape (bootableStart : UINTN) (cell : INTN) : Prop :=
  10 ≤ cell.toInt ∧ cell < bootableStart

instance (bootableStart : UINTN) (cell : INTN) : Decidable (IsEscape bootableStart cell) :=
  inferInstanceAs (Decidable (_ ∧ _))

/-- The two statements that turn the cell in column `c.1` and row `c.2` into a door. -/
def openDoor (env : PlaceEnv) (i : ℕ) (bootEntry : BootEntry) (s : PlaceState) (c : ℕ × ℕ) :
    Option PlaceState :=
  let index := s.map.index (BitVec.ofNat 64 c.1) (BitVec.ofNat 64 c.2)
  let cell := s.map.read index
  (makeBootEntryTexture env i bootEntry cell s.textures).map fun r =>
    { map := s.map.write index s.texturesCount, textures := r.2 }

/-- The body of the scan: the state and `escape_count`, which the number of cells bounds. -/
def placeCell (env : PlaceEnv) (i : ℕ) (bootEntry : BootEntry) (bootableStart : UINTN)
    (randIndex : ℕ) (p : PlaceState × ℕ) (c : ℕ × ℕ) : Option (PlaceState × ℕ) :=
  let cell := p.1.map.read (p.1.map.index (BitVec.ofNat 64 c.1) (BitVec.ofNat 64 c.2))
  if IsEscape bootableStart cell then
    if p.2 = randIndex then (openDoor env i bootEntry p.1 c).map fun s => (s, p.2 + 1)
    else some (p.1, p.2 + 1)
  else some p

/-- `rand_index` in pass `i`. -/
def randIndex (env : PlaceEnv) (i : ℕ) : UINTN :=
  uintnOfInt32 (env.rand i) % (escapes - BitVec.ofNat 64 i)

/-- Pass `i`; taking the remainder by zero stops the program. -/
def placeBootEntry (env : PlaceEnv) (bootableStart : UINTN) (s : PlaceState)
    (e : BootEntry × ℕ) : Option PlaceState :=
  if escapes - BitVec.ofNat 64 e.2 = 0 then none
  else
    ((Grid.columns s.map.width.toNat s.map.height.toNat).foldlM
      (placeCell env e.2 e.1 bootableStart (randIndex env e.2).toNat) (s, 0)).map Prod.fst

/-- `PlaceBootEntries`, if it comes back. -/
def placeBootEntries (env : PlaceEnv) (l : Level) (bootEntries : List BootEntry) :
    Option PlaceState :=
  bootEntries.zipIdx.foldlM (placeBootEntry env l.texturesCount) l.toPlaceState

/-- The cells of the map that hold an escape, in the order of the scan. -/
def escapeCells (bootableStart : UINTN) (m : MazeMap) : List (ℕ × ℕ) :=
  (Grid.columns m.width.toNat m.height.toNat).filter fun c =>
    IsEscape bootableStart (m.cell c.1 c.2)

section Pass

variable {env : PlaceEnv} {bs : UINTN} {s s' : PlaceState} {e : BootEntry} {i r : ℕ} {c d : ℕ × ℕ}

theorem mem_escapeCells {m : MazeMap} : c ∈ escapeCells bs m ↔
    (c.1 < m.width.toNat ∧ c.2 < m.height.toNat) ∧ IsEscape bs (m.cell c.1 c.2) := by
  simp [escapeCells]

theorem nodup_escapeCells (bs : UINTN) (m : MazeMap) : (escapeCells bs m).Nodup :=
  (Grid.nodup_columns ..).filter _

theorem placeCell_eq (p : PlaceState × ℕ) (c : ℕ × ℕ) :
    placeCell env i e bs r p c = Draw.scanStep
      (fun s c => decide (IsEscape bs
        (s.map.read (s.map.index (BitVec.ofNat 64 c.1) (BitVec.ofNat 64 c.2)))))
      (openDoor env i e) r p c := by
  simp only [placeCell, Draw.scanStep, decide_eq_true_eq]

theorem toNat_escapes_sub (hi : i < 12) : (escapes - BitVec.ofNat 64 i).toNat = 12 - i := by
  have hnat : (BitVec.ofNat 64 i).toNat = i := Nat.mod_eq_of_lt (by omega)
  unfold escapes
  bv_omega

theorem escapes_sub_ne_zero (hi : i < 12) : escapes - BitVec.ofNat 64 i ≠ 0 := by
  intro h
  have hsub := toNat_escapes_sub hi
  rw [h] at hsub
  change 0 = 12 - i at hsub
  omega

/-- One pass opens a door in the escape cell of its rank, if there is one. -/
theorem placeBootEntry_eq (hi : i < 12) :
    placeBootEntry env bs s (e, i) =
      ((escapeCells bs s.map)[(randIndex env i).toNat]?).elim (some s) (openDoor env i e s) := by
  have hcells : (Grid.columns s.map.width.toNat s.map.height.toNat).filter (fun c =>
      decide (IsEscape bs (s.map.read (s.map.index (BitVec.ofNat 64 c.1) (BitVec.ofNat 64 c.2))))) =
      escapeCells bs s.map := by
    apply List.filter_congr
    intro c hc
    obtain ⟨hx, hy⟩ := Grid.mem_columns.mp hc
    rw [MazeMap.read_index_ofNat hx hy]
  have hstep : placeCell env i e bs (randIndex env i).toNat =
      Draw.scanStep _ (openDoor env i e) _ :=
    funext fun p => funext fun c => placeCell_eq p c
  rw [placeBootEntry, if_neg (escapes_sub_ne_zero hi), hstep,
    Draw.foldlM_scanStep (Nat.zero_le _), hcells, Nat.sub_zero]

theorem isSome_openDoor : (openDoor env i e s c).isSome ↔
    (readBMP env.fs e.icon (env.stack i)).2.Sized := by
  rw [openDoor, Option.isSome_map, makeBootEntryTexture]
  split_ifs with h <;> simp [h]

section Opened

variable (ho : openDoor env i e s c = some s') (hc : c ∈ escapeCells bs s.map)
include ho

theorem map_openDoor :
    s'.map = s.map.write (s.map.index (BitVec.ofNat 64 c.1) (BitVec.ofNat 64 c.2))
      s.texturesCount := by
  obtain ⟨r, -, rfl⟩ := Option.map_eq_some_iff.mp ho
  rfl

include hc

theorem cell_openDoor_self : s'.map.cell c.1 c.2 = s.texturesCount := by
  obtain ⟨⟨hx, hy⟩, -⟩ := mem_escapeCells.mp hc
  rw [map_openDoor ho]
  exact MazeMap.cell_write_self hx hy

theorem cell_openDoor_of_ne (hd : d.1 < s.map.width.toNat) (hne : d ≠ c) :
    s'.map.cell d.1 d.2 = s.map.cell d.1 d.2 := by
  obtain ⟨⟨hx, hy⟩, -⟩ := mem_escapeCells.mp hc
  rw [map_openDoor ho]
  exact MazeMap.cell_write_of_ne hx hy hd hne

theorem textures_openDoor :
    s'.textures = s.textures ++ [bootEntryTexture env.manager
      (s.textures[(s.map.cell c.1 c.2).toNat]?.getD [])
      (readBMP env.fs e.icon (env.stack i)).2] := by
  obtain ⟨⟨hx, hy⟩, -⟩ := mem_escapeCells.mp hc
  obtain ⟨r, hr, rfl⟩ := Option.map_eq_some_iff.mp ho
  rw [makeBootEntryTexture, MazeMap.read_index_ofNat hx hy] at hr
  split_ifs at hr with hsized
  exact (congrArg Prod.snd (Option.some.inj hr)).symm

theorem escapeCells_openDoor (hb : bs ≤ s.texturesCount)
    (hr : (escapeCells bs s.map)[r]? = some c) :
    escapeCells bs s'.map = (escapeCells bs s.map).eraseIdx r := by
  have hcolumns : Grid.columns s'.map.width.toNat s'.map.height.toNat =
      Grid.columns s.map.width.toNat s.map.height.toNat := by
    rw [map_openDoor ho]
    rfl
  rw [← Draw.filter_ne_eq_eraseIdx (nodup_escapeCells bs s.map) hr, escapeCells, escapeCells,
    List.filter_filter, hcolumns]
  apply List.filter_congr
  intro d hd
  by_cases hdc : d = c
  · have hcell := cell_openDoor_self ho hc
    have hnot : ¬ IsEscape bs s.texturesCount := fun h => absurd h.2 (BitVec.not_lt.mpr hb)
    rw [hdc, hcell]
    simp [hnot]
  · rw [cell_openDoor_of_ne ho hc (Grid.mem_columns.mp hd).1 hdc]
    simp [hdc]

end Opened

end Pass

end UefiGame
