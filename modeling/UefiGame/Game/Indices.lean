import UefiGame.Game.Buffers
import UefiGame.Game.Outcome
import UefiGame.Raycaster.Frame

/-! # The values of the map as indices

The values of the maze file select textures, and the doors among them boot
entries. No loader compares them with the number of textures, so the files have
to agree by themselves. What `MapValue` holds before a key assigns it can become
the result as well.
-/

namespace UefiGame

/-- `Textures[Map[i]]` is an element of a table of `count` textures, for `Map[i]` is a cell of the
map. A negative value is read as an unsigned one here, which is far above `count`. -/
def Selects (m : MazeMap) (count : ℕ) (i : UINTN) : Prop :=
  ∃ v, m.cells[i.toNat]? = some v ∧ v.toNat < count

/-- The passes of the key loop, each with the state it starts in. -/
def gamePasses (m : MazeMap) (bootableStart garbage : UINTN) (keys : List ScanCode) :
    List (GameState × ScanCode) :=
  Run.passes (gameStep m bootableStart) GameState.escaped (gameStart garbage) keys

/-- What the key switch looks up, and the cell it would leave, lie in the block of the map. -/
def GameState.InBlock (m : MazeMap) (s : GameState) (key : ScanCode) : Prop :=
  ∀ i, lookup m s.curX s.curY key = some i →
    i.toNat < m.cells.length ∧ (m.index s.curX s.curY).toNat < m.cells.length

/-- Every use of a map value as the number of a texture, in `MakeBootEntryTexture`, in the first
drawing and in the passes that move the player, is inside the table, and the result is
`ESCAPE_ENTRY` or the number of an entry. -/
structure IndicesInside2D (env : PlaceEnv) (l : Level) (es : List BootEntry) (s : PlaceState)
    (garbage : UINTN) (keys : List ScanCode) : Prop where
  composed : ∀ i c, l.door env i = some c → (l.map.cell c.1 c.2).toNat < l.textures.length
  drawn : ∀ x < s.map.width.toNat, ∀ y < s.map.height.toNat,
    Selects s.map s.textures.length (s.map.index (BitVec.ofNat 64 x) (BitVec.ofNat 64 y))
  redrawn : ∀ p ∈ gamePasses s.map l.texturesCount garbage keys,
    let next := gameStep s.map l.texturesCount p.1 p.2
    next.curX ≠ p.1.curX ∨ next.curY ≠ p.1.curY →
      Selects s.map s.textures.length (s.map.index p.1.curX p.1.curY) ∧
        Selects s.map s.textures.length (s.map.index next.curX next.curY)
  entry :
    let last := gameRun s.map l.texturesCount (gameStart garbage) keys
    last.escaped = true → last.entryToBoot = ESCAPE_ENTRY ∨ last.entryToBoot.toNat < es.length

/-- The same for the three-dimensional program, where the textures are those of the walls found in
the frames. -/
structure IndicesInside3D {K : Type*} [Field K] [LinearOrder K] [FloorRing K] (env : PlaceEnv)
    (l : Level) (es : List BootEntry) (s : PlaceState) (cosine sine : K) (keys : List ScanCode) :
    Prop where
  composed : ∀ i c, l.door env i = some c → (l.map.cell c.1 c.2).toNat < l.textures.length
  drawn : ∀ p ∈ viewPasses s.map l.texturesCount cosine sine keys,
    p.1.view.FrameInside s.map s.textures.length
  entry :
    let last := viewRun s.map l.texturesCount cosine sine keys
    last.entryToBoot = ESCAPE_ENTRY ∨ last.entryToBoot.toNat < es.length

/-- Every value of the map is the number of a texture, the doors included, and a first key that
assigns no `MapValue` finds one there that is none of a missing entry. -/
structure FilesAgree2D (env : PlaceEnv) (l : Level) (es : List BootEntry) (garbage : UINTN)
    (keys : List ScanCode) : Prop where
  values : ∀ x < l.map.width.toNat, ∀ y < l.map.height.toNat,
    (l.map.cell x y).toNat < l.textures.length + l.doorsBefore env es.length
  firstKey : ∀ key ∈ keys.head?, lookup l.map 1 17 key = none →
    garbage.toNat < l.textures.length + es.length ∨ garbage - l.texturesCount = ESCAPE_ENTRY

/-- The map has a border of walls, `int` can count its cells and the textures, every positive value
is as an `int` the number of a texture, and every value not below the number of textures is that of
an entry. -/
structure FilesAgree3D (env : PlaceEnv) (l : Level) (es : List BootEntry) : Prop where
  bordered : l.map.Bordered
  width_le : l.map.width.toNat ≤ 2 ^ 31
  height_le : l.map.height.toNat ≤ 2 ^ 31
  textures_le : l.textures.length + l.doorsBefore env es.length ≤ 2 ^ 31
  walls : ∀ x < l.map.width.toNat, ∀ y < l.map.height.toNat, 0 < (l.map.cell x y).toInt →
    0 ≤ ((l.map.cell x y).setWidth 32).toInt ∧
      ((l.map.cell x y).setWidth 32).toInt < l.textures.length + l.doorsBefore env es.length
  doors : ∀ x < l.map.width.toNat, ∀ y < l.map.height.toNat, l.texturesCount ≤ l.map.cell x y →
    (l.map.cell x y).toNat < l.textures.length + es.length

section Cells

variable {m : MazeMap} {count : ℕ} {env : PlaceEnv} {l : Level} {es : List BootEntry}
  {s : PlaceState}

theorem MazeMap.mem_cells {v : INTN} : v ∈ m.cells ↔
    ∃ x < m.width.toNat, ∃ y < m.height.toNat, m.cell x y = v := by
  constructor
  · intro hv
    obtain ⟨k, hk, rfl⟩ := List.getElem_of_mem hv
    have hlen := m.length_eq
    have hpos : 0 < m.width.toNat := by
      by_contra hzero
      have hwidth : m.width.toNat = 0 := by omega
      rw [hwidth, Nat.zero_mul] at hlen
      omega
    refine ⟨k % m.width.toNat, Nat.mod_lt _ hpos, k / m.width.toNat, ?_, ?_⟩
    · exact Nat.div_lt_of_lt_mul (hlen ▸ hk)
    · rw [MazeMap.cell, Grid.rowMajor_mod_div, List.getElem?_eq_getElem hk]
      rfl
  · rintro ⟨x, hx, y, hy, rfl⟩
    have hlt := Grid.rowMajor_lt hx hy
    rw [← m.length_eq] at hlt
    rw [MazeMap.cell, List.getElem?_eq_getElem hlt]
    exact List.getElem_mem hlt

theorem selects_of_lt (hvalues : ∀ v ∈ m.cells, v.toNat < count) {i : UINTN}
    (hi : i.toNat < m.cells.length) : Selects m count i :=
  ⟨m.cells[i.toNat], List.getElem?_eq_getElem hi, hvalues _ (List.getElem_mem hi)⟩

theorem forall_selects_iff :
    (∀ x < m.width.toNat, ∀ y < m.height.toNat,
      Selects m count (m.index (BitVec.ofNat 64 x) (BitVec.ofNat 64 y))) ↔
    ∀ v ∈ m.cells, v.toNat < count := by
  constructor
  · intro h v hv
    obtain ⟨x, hx, y, hy, rfl⟩ := MazeMap.mem_cells.mp hv
    obtain ⟨v, hv, hlt⟩ := h x hx y hy
    rw [MazeMap.toNat_index_ofNat hx hy] at hv
    rwa [MazeMap.cell, hv]
  · intro h x hx y hy
    apply selects_of_lt h
    rw [MazeMap.toNat_index_ofNat hx hy, m.length_eq]
    exact Grid.rowMajor_lt hx hy

theorem IsEscape.toNat_ge {bs : UINTN} {v : INTN} (h : IsEscape bs v) : 10 ≤ v.toNat := by
  have hcond := BitVec.toInt_eq_toNat_cond v
  have hten := h.1
  split at hcond <;> omega

/-- A property of the cells that the escapes have, and the doors as well, is kept by placing. -/
theorem Placed.forall_cell_iff (hp : Placed env l es s) {P : ℕ → ℕ → INTN → Prop}
    (hescape : ∀ x y v, IsEscape l.texturesCount v → P x y v)
    (hdoor : ∀ x y k, 10 < l.textures.length → k < l.doorsBefore env es.length →
      P x y (BitVec.ofNat 64 (l.textures.length + k))) :
    (∀ x < s.map.width.toNat, ∀ y < s.map.height.toNat, P x y (s.map.cell x y)) ↔
      ∀ x < l.map.width.toNat, ∀ y < l.map.height.toNat, P x y (l.map.cell x y) := by
  rw [hp.width_eq, hp.height_eq]
  have hcell : ∀ x < l.map.width.toNat, ∀ y < l.map.height.toNat,
      P x y (s.map.cell x y) ↔ P x y (l.map.cell x y) := by
    intro x hx y hy
    by_cases h : ∃ j < es.length, l.door env j = some (x, y)
    · obtain ⟨j, hj, hd⟩ := h
      have hopened := hp.opened j (x, y) hj hd
      have hisEscape := (mem_escapeCells.mp (Level.mem_escapes_of_door hd)).2
      have hge := hisEscape.toNat_ge
      have hlt := hisEscape.2
      rw [BitVec.lt_def, l.toNat_texturesCount] at hlt
      dsimp only at hopened hisEscape hge hlt
      rw [hopened]
      exact iff_of_true (hdoor x y _ (by omega) (Level.doorsBefore_lt hd hj))
        (hescape x y _ hisEscape)
    · push Not at h
      have hother := hp.other (x, y) hx h
      dsimp only at hother
      rw [hother]
  constructor
  · intro h x hx y hy
    exact (hcell x hx y hy).mp (h x hx y hy)
  · intro h x hx y hy
    exact (hcell x hx y hy).mpr (h x hx y hy)

end Cells

section Passes

variable {m : MazeMap} {bs garbage : UINTN} {s : GameState} {key : ScanCode} {keys : List ScanCode}
  {count n : ℕ} {i : UINTN}

theorem GameState.Inside.inBlock (hs : s.Inside m) : s.InBlock m key :=
  fun _ hi => ⟨lookup_lt hs hi, MazeMap.index_lt hs.1 hs.2⟩

theorem inBlock_of_mem_gamePasses (hw : 2 ≤ m.width.toNat) (hh : 18 ≤ m.height.toNat) :
    ∀ p ∈ gamePasses m bs garbage keys, p.1.InBlock m p.2 :=
  Run.forall_passes (fun _ _ _ hs => ⟨hs.inBlock, gameStep_inside hs⟩)
    (gameStart_inside hw hh garbage) keys

theorem index_shifted (hi : lookup m s.curX s.curY key = some i) :
    m.index (shifted s.curX s.curY key).1 (shifted s.curX s.curY key).2 = i := by
  cases key <;> simp only [lookup, Option.ite_none_left_eq_some, Option.some.injEq,
    reduceCtorEq] at hi <;> obtain ⟨-, rfl⟩ := hi <;> simp only [shifted, MazeMap.index]
  case left => bv_omega
  case right => exact (BitVec.add_assoc ..).symm

theorem selects_of_moved (hvalues : ∀ v ∈ m.cells, v.toNat < count) (hs : s.InBlock m key)
    (hmoved : (gameStep m bs s key).curX ≠ s.curX ∨ (gameStep m bs s key).curY ≠ s.curY) :
    Selects m count (m.index s.curX s.curY) ∧
      Selects m count (m.index (gameStep m bs s key).curX (gameStep m bs s key).curY) := by
  rcases gameStep_position m bs s key with ⟨hx, hy⟩ | ⟨i, hi, -, hx, hy⟩
  · exact absurd hmoved (by simp [hx, hy])
  · obtain ⟨hnew, hcur⟩ := hs i hi
    rw [hx, hy, index_shifted hi]
    exact ⟨selects_of_lt hvalues hcur, selects_of_lt hvalues hnew⟩

/-- The result is one of `n` entries, and while the loop goes on `MapValue` is below
`bootable_start`. -/
structure GameState.Settled (bs : UINTN) (n : ℕ) (s : GameState) : Prop where
  waiting : s.escaped = false → s.mapValue < bs
  entry : s.entryToBoot = ESCAPE_ENTRY ∨ s.entryToBoot.toNat < n

theorem gameStep_settled_of_some (hvalues : ∀ v ∈ m.cells, v.toNat < bs.toNat + n)
    (hs : s.InBlock m key) (hentry : s.entryToBoot = ESCAPE_ENTRY ∨ s.entryToBoot.toNat < n)
    (hi : lookup m s.curX s.curY key = some i) : (gameStep m bs s key).Settled bs n := by
  by_cases hd : bs ≤ m.read i
  · have hmem : m.read i ∈ m.cells := by
      have hlt := (hs i hi).1
      rw [MazeMap.read, List.getElem?_eq_getElem hlt]
      exact List.getElem_mem hlt
    have hlt := hvalues _ hmem
    have hle := BitVec.le_def.mp hd
    rw [gameStep_of_door hi hd]
    refine ⟨fun hwait => absurd hwait (by simp), Or.inr ?_⟩
    dsimp only
    rw [BitVec.toNat_sub_of_le hd]
    omega
  · by_cases h0 : m.read i = 0
    · rw [gameStep_of_free hi hd h0]
      exact ⟨fun _ => BitVec.not_le.mp hd, hentry⟩
    · rw [gameStep_of_solid hi hd h0]
      exact ⟨fun _ => BitVec.not_le.mp hd, hentry⟩

theorem gameStep_settled_of_none (hlt : s.mapValue < bs)
    (hentry : s.entryToBoot = ESCAPE_ENTRY ∨ s.entryToBoot.toNat < n)
    (hi : lookup m s.curX s.curY key = none) : (gameStep m bs s key).Settled bs n := by
  rw [gameStep_of_none hi, testMapValue, if_neg (BitVec.not_le.mpr hlt)]
  exact ⟨fun _ => hlt, hentry⟩

theorem gameStep_settled (hvalues : ∀ v ∈ m.cells, v.toNat < bs.toNat + n)
    (hwait : s.escaped = false) (hin : s.InBlock m key) (hs : s.Settled bs n) :
    (gameStep m bs s key).Settled bs n := by
  cases hi : lookup m s.curX s.curY key with
  | none => exact gameStep_settled_of_none (hs.waiting hwait) hs.entry hi
  | some i => exact gameStep_settled_of_some hvalues hin hs.entry hi

/-- The result is one of the entries, unless the first key leaves `MapValue` as it was and that is
the number of a missing one. -/
theorem entry_iff (hvalues : ∀ v ∈ m.cells, v.toNat < bs.toNat + n)
    (hin : ∀ p ∈ gamePasses m bs garbage keys, p.1.InBlock m p.2) :
    ((gameRun m bs (gameStart garbage) keys).escaped = true →
      (gameRun m bs (gameStart garbage) keys).entryToBoot = ESCAPE_ENTRY ∨
        (gameRun m bs (gameStart garbage) keys).entryToBoot.toNat < n) ↔
    ∀ key ∈ keys.head?, lookup m 1 17 key = none →
      garbage.toNat < bs.toNat + n ∨ garbage - bs = ESCAPE_ENTRY := by
  cases keys with
  | nil => exact iff_of_true nofun nofun
  | cons key keys =>
    have hrun : gameRun m bs (gameStart garbage) (key :: keys) =
        gameRun m bs (gameStep m bs (gameStart garbage) key) keys :=
      Run.run_cons_of_not_halted rfl key keys
    rw [gamePasses, Run.passes_cons_of_not_halted rfl, List.forall_mem_cons] at hin
    obtain ⟨hfirst, hrest⟩ := hin
    have hstep : ∀ (s : GameState) (key : ScanCode), s.escaped = false → s.InBlock m key →
        s.Settled bs n → (gameStep m bs s key).Settled bs n :=
      fun _ _ hwait hin hs => gameStep_settled hvalues hwait hin hs
    have hsettled : (gameStep m bs (gameStart garbage) key).Settled bs n →
        (gameRun m bs (gameStep m bs (gameStart garbage) key) keys).Settled bs n :=
      fun hs => (Run.invariant_of_passes hstep hs keys hrest).2
    rw [hrun]
    simp only [List.head?_cons, Option.mem_some_iff, forall_eq']
    cases hi : lookup m 1 17 key with
    | some i =>
      have hs := hsettled (gameStep_settled_of_some hvalues hfirst (Or.inl rfl) hi)
      exact iff_of_true (fun _ => hs.entry) nofun
    | none =>
      simp only [true_implies]
      by_cases hlt : garbage < bs
      · have hs := hsettled (gameStep_settled_of_none hlt (Or.inl rfl) hi)
        have hnat := BitVec.lt_def.mp hlt
        exact iff_of_true (fun _ => hs.entry) (Or.inl (by omega))
      · have hle := BitVec.not_lt.mp hlt
        have hnat := BitVec.le_def.mp hle
        have hends := (gameRun_of_garbage keys hi hle).1
        rw [hrun] at hends
        rw [hends]
        simp only [true_implies]
        rw [or_comm, BitVec.toNat_sub_of_le hle]
        apply or_congr_left
        omega

end Passes

section Agree

variable {env : PlaceEnv} {l : Level} {es : List BootEntry} {s : PlaceState}

theorem toInt_setWidth_of_lt {v : INTN} (h : v.toNat < 2 ^ 31) :
    (v.setWidth 32).toInt = v.toNat := by
  have hnat : (v.setWidth 32).toNat = v.toNat := by
    rw [BitVec.toNat_setWidth]
    exact Nat.mod_eq_of_lt (by omega)
  rw [BitVec.toInt_eq_toNat_of_lt (by omega), hnat]

theorem Level.composed (env : PlaceEnv) (l : Level) :
    ∀ i c, l.door env i = some c → (l.map.cell c.1 c.2).toNat < l.textures.length := by
  intro i c hd
  have hlt := (mem_escapeCells.mp (Level.mem_escapes_of_door hd)).2.2
  rwa [BitVec.lt_def, l.toNat_texturesCount] at hlt

theorem Level.toNat_doorValue (l : Level) {k n : ℕ} (hn : n ≤ 12) (hk : k < l.doorsBefore env n) :
    (BitVec.ofNat 64 (l.textures.length + k)).toNat = l.textures.length + k := by
  have hle := Level.doorsBefore_le env l n
  have hfits := l.fits
  exact Nat.mod_eq_of_lt (by omega)

theorem Placed.lookup_eq (hp : Placed env l es s) (curX curY : UINTN) (key : ScanCode) :
    lookup s.map curX curY key = lookup l.map curX curY key := by
  have hwidth := hp.width_eq
  have hheight := hp.height_eq
  cases key <;> simp only [lookup, hwidth, hheight]

theorem Placed.values_iff (hp : Placed env l es s) (hn : es.length ≤ 12) :
    (∀ v ∈ s.map.cells, v.toNat < s.textures.length) ↔
      ∀ x < l.map.width.toNat, ∀ y < l.map.height.toNat,
        (l.map.cell x y).toNat < l.textures.length + l.doorsBefore env es.length := by
  rw [hp.length_eq, ← hp.forall_cell_iff
    (P := fun _ _ v => v.toNat < l.textures.length + l.doorsBefore env es.length)]
  · constructor
    · intro h x hx y hy
      exact h _ (MazeMap.mem_cells.mpr ⟨x, hx, y, hy, rfl⟩)
    · intro h v hv
      obtain ⟨x, hx, y, hy, rfl⟩ := MazeMap.mem_cells.mp hv
      exact h x hx y hy
  · rintro x y v ⟨-, hlt⟩
    rw [BitVec.lt_def, l.toNat_texturesCount] at hlt
    omega
  · intro x y k _ hk
    rw [l.toNat_doorValue hn hk]
    omega

theorem FilesAgree3D.searchable (h : FilesAgree3D env l es) (hp : Placed env l es s)
    (hn : es.length ≤ 12) : s.map.Searchable l.texturesCount s.textures.length es.length := by
  have hcount := l.toNat_texturesCount
  have hdoors := Level.doorsBefore_le env l es.length
  have htextures := h.textures_le
  have hbelow : ∀ v : INTN, IsEscape l.texturesCount v → v.toNat < l.textures.length := by
    rintro v ⟨-, hlt⟩
    rwa [BitVec.lt_def, hcount] at hlt
  constructor
  case bordered =>
    rw [MazeMap.Bordered,
      hp.forall_cell_iff (P := fun x y v => x = 0 ∨ y = 0 ∨ x + 1 = s.map.width.toNat ∨
      y + 1 = s.map.height.toNat → 0 < v.toInt)]
    · rw [hp.width_eq, hp.height_eq]
      exact h.bordered
    · rintro x y v ⟨hten, -⟩ _
      omega
    · intro x y k hten hk _
      have hnat := l.toNat_doorValue hn hk
      rw [BitVec.toInt_eq_toNat_of_lt (by omega), hnat]
      omega
  case width_le => exact hp.width_eq ▸ h.width_le
  case height_le => exact hp.height_eq ▸ h.height_le
  case walls =>
    rw [hp.length_eq,
      hp.forall_cell_iff (P := fun _ _ v => 0 < v.toInt → 0 ≤ (v.setWidth 32).toInt ∧
      (v.setWidth 32).toInt < (l.textures.length + l.doorsBefore env es.length : ℕ))]
    · exact h.walls
    · intro x y v hescape _
      have hlt := hbelow v hescape
      rw [toInt_setWidth_of_lt (by omega)]
      omega
    · intro x y k _ hk _
      have hnat := l.toNat_doorValue hn hk
      rw [toInt_setWidth_of_lt (by omega), hnat]
      omega
  case doors =>
    rw [hp.forall_cell_iff (P := fun _ _ v => l.texturesCount ≤ v →
      v.toNat < l.texturesCount.toNat + es.length), hcount]
    · exact h.doors
    · intro x y v hescape hle
      exact absurd hescape.2 (BitVec.not_lt.mpr hle)
    · intro x y k _ hk _
      rw [l.toNat_doorValue hn hk]
      omega

theorem Placed.indicesInside2D_iff (hp : Placed env l es s) (hn : es.length ≤ 12)
    {garbage : UINTN} {keys : List ScanCode}
    (hin : ∀ p ∈ gamePasses s.map l.texturesCount garbage keys, p.1.InBlock s.map p.2) :
    IndicesInside2D env l es s garbage keys ↔ FilesAgree2D env l es garbage keys := by
  have hcount := l.toNat_texturesCount
  have hdoors := Level.doorsBefore_le env l es.length
  have hbounded : (∀ v ∈ s.map.cells, v.toNat < s.textures.length) →
      ∀ v ∈ s.map.cells, v.toNat < l.texturesCount.toNat + es.length := by
    intro h v hv
    have hlt := h v hv
    rw [hp.length_eq] at hlt
    omega
  constructor
  · rintro ⟨-, hdrawn, -, hentry⟩
    have hvalues := forall_selects_iff.mp hdrawn
    have hfirst := (entry_iff (hbounded hvalues) hin).mp hentry
    simp only [hp.lookup_eq, hcount] at hfirst
    exact ⟨(hp.values_iff hn).mp hvalues, hfirst⟩
  · rintro ⟨hvalues, hfirst⟩
    rw [← hp.values_iff hn] at hvalues
    simp only [← hp.lookup_eq, ← hcount] at hfirst
    constructor
    case composed => exact l.composed env
    case drawn => exact forall_selects_iff.mpr hvalues
    case redrawn => exact fun p hpass hmoved => selects_of_moved hvalues (hin p hpass) hmoved
    case entry => exact (entry_iff (hbounded hvalues) hin).mpr hfirst

theorem FilesAgree3D.indicesInside3D {K : Type*} [Field K] [LinearOrder K] [FloorRing K]
    [IsStrictOrderedRing K] (h : FilesAgree3D env l es) (hp : Placed env l es s)
    (hn : es.length ≤ 12) {cosine sine : K} (hturn : cosine ^ 2 + sine ^ 2 = 1)
    {keys : List ScanCode}
    (hin : ∀ p ∈ viewPasses s.map l.texturesCount cosine sine keys, p.1.view.Interior s.map) :
    IndicesInside3D env l es s cosine sine keys := by
  obtain ⟨hframes, hsound⟩ := (h.searchable hp hn).run_inside hturn keys hin
  exact ⟨l.composed env, hframes, hsound.entry⟩

end Agree

/-- In the two-dimensional program the indices are inside for just the files that agree, as long as
no pass leaves the block of the map; it cannot where the map contains the start cell. In the
three-dimensional program, for exact numbers, they are inside for files that agree as long as the
player stays inside the border. -/
theorem indicesInside {K : Type*} [Field K] [LinearOrder K] [FloorRing K] [IsStrictOrderedRing K]
    (env : PlaceEnv) (l : Level) (es : List BootEntry) (s : PlaceState)
    (hs : placeBootEntries env l es = some s) :
    (∀ garbage keys,
      (2 ≤ l.map.width.toNat ∧ 18 ≤ l.map.height.toNat ∨
        ∀ p ∈ gamePasses s.map l.texturesCount garbage keys, p.1.InBlock s.map p.2) →
      (IndicesInside2D env l es s garbage keys ↔ FilesAgree2D env l es garbage keys)) ∧
    ∀ (cosine sine : K) keys, cosine ^ 2 + sine ^ 2 = 1 → FilesAgree3D env l es →
      (∀ p ∈ viewPasses s.map l.texturesCount cosine sine keys, p.1.view.Interior s.map) →
      IndicesInside3D env l es s cosine sine keys := by
  obtain ⟨hn, -, hp⟩ := placed_of_placeBootEntries hs
  constructor
  · rintro garbage keys (⟨hw, hh⟩ | hin)
    · exact hp.indicesInside2D_iff hn
        (inBlock_of_mem_gamePasses (hp.width_eq ▸ hw) (hp.height_eq ▸ hh))
    · exact hp.indicesInside2D_iff hn hin
  · rintro cosine sine keys hturn hagree hin
    exact hagree.indicesInside3D hp hn hturn hin

/-- `Game` is called with files that the loaders accept, and `l` holds what they gave. -/
structure Loads {H : Type} (env : StartupEnv H) (args : GameArgs) (l : Level) : Prop where
  game : env.uefiMain.outcome = .value args
  maze : efiError env.mazeResult.1 = false
  texturesConfig : efiError env.texturesResult.1 = false
  width : l.map.width = args.maze.width
  height : l.map.height = args.maze.height
  cells : l.map.cells = args.maze.numbers
  textures : l.textures = args.textures

/-- Accepted files are a level, if the map and the table of the textures have sizes that `UINTN`
can count. -/
theorem exists_loads {H : Type} {env : StartupEnv H} {args : GameArgs}
    (hgame : env.uefiMain.outcome = .value args) (hmaze : efiError env.mazeResult.1 = false)
    (htextures : efiError env.texturesResult.1 = false)
    (hsize : args.maze.width.toNat * args.maze.height.toNat < 2 ^ 64)
    (hfits : 8 * args.textures.length < 2 ^ 64) : ∃ l, Loads env args l := by
  have hlen : args.maze.numbers.length = args.maze.width.toNat * args.maze.height.toNat := by
    rw [(StartupEnv.uefiMain_eq_value hgame).1] at hsize ⊢
    rw [StartupEnv.mazeResult, length_numbers_parseMazeConfigFile hmaze, BitVec.toNat_mul]
    exact Nat.mod_eq_of_lt hsize
  exact ⟨⟨⟨⟨args.maze.width, args.maze.height, args.maze.numbers, hlen, hsize⟩, args.textures⟩,
    hfits⟩, hgame, hmaze, htextures, rfl, rfl, rfl, rfl⟩

/-- A corridor between walls, from which the start cell is one step away from a wall. -/
def walledLevel : Level where
  map := MazeMap.ofRows 3 19 ([[1, 1, 1]] ++ List.replicate 17 [1, 0, 1] ++ [[1, 1, 1]])
    (by decide) (by decide) (by decide)
  textures := [[], []]
  fits := by decide

theorem filesAgree3D_walledLevel : FilesAgree3D (sampleEnv fun _ => 0) walledLevel [] where
  bordered := by decide +kernel
  width_le := by decide
  height_le := by decide
  textures_le := by decide
  walls := by decide +kernel
  doors := by decide +kernel

theorem indicesInside_walledLevel :
    (IndicesInside2D (sampleEnv fun _ => 0) walledLevel [] walledLevel.toPlaceState 0 [.up, .esc] ↔
      FilesAgree2D (sampleEnv fun _ => 0) walledLevel [] 0 [.up, .esc]) ∧
    IndicesInside3D (sampleEnv fun _ => 0) walledLevel [] walledLevel.toPlaceState (1 : ℚ) 0
      [.up] := by
  have h := indicesInside (K := ℚ) (sampleEnv fun _ => 0) walledLevel [] walledLevel.toPlaceState
    rfl
  refine ⟨h.1 0 [.up, .esc] (Or.inl (by decide)),
    h.2 1 0 [.up] (by norm_num) filesAgree3D_walledLevel ?_⟩
  have hx : Truncate.truncate (1.5 : ℚ) = 1 := by decide +kernel
  have hy : Truncate.truncate (17.5 : ℚ) = 17 := by decide +kernel
  intro p hp
  obtain rfl : p = (viewStart, .up) := List.mem_singleton.mp hp
  simp only [View.Interior, viewStart, hx, hy]
  decide

/-- A maze of cells of value 50, with one texture. -/
def unknownTextureFs : FileSystem := fun name =>
  if name = mazeName then
    FileIo.ofBytes (List.replicate 18 [53, 48, space, 53, 48, newline]).flatten [] (by decide)
  else onePixelFs name

def unknownTextureEnv : StartupEnv Unit := { noMazeEnv with fs := unknownTextureFs }

def unknownTextureLevel : Level :=
  { onePixelLevel with map := narrowMap (List.replicate 18 [50, 50]) (by decide) (by decide) }

def unknownTextureArgs : GameArgs :=
  ⟨⟨⟨List.replicate 36 50, 2, 18⟩, [[]], (unknownTextureEnv.configResult configName).result⟩,
    [⟨0, 0, 0, 0xff⟩]⟩

theorem loads_unknownTexture : Loads unknownTextureEnv unknownTextureArgs unknownTextureLevel where
  game := by decide +kernel
  maze := by decide +kernel
  texturesConfig := by decide +kernel
  width := rfl
  height := rfl
  cells := by decide
  textures := rfl

/-- The files are accepted, and the first drawing takes texture 50 of one. -/
theorem not_indicesInside_unknownTexture :
    ¬ ∀ (env : StartupEnv Unit) (args : GameArgs) (penv : PlaceEnv) (l : Level) (s : PlaceState)
      (garbage : UINTN) (keys : List ScanCode), Loads env args l →
      placeBootEntries penv l args.bootEntries = some s →
      IndicesInside2D penv l args.bootEntries s garbage keys := by
  intro h
  have hlen : unknownTextureArgs.bootEntries.length ≤ 12 := by decide +kernel
  have hsized : unknownTextureLevel.IconsSized (sampleEnv fun _ => 0)
      unknownTextureArgs.bootEntries := Level.iconsSized_of_escapes_eq_nil (by decide)
  obtain ⟨s, hs, hp⟩ := exists_placed hlen hsized
  have hdrawn := (h _ _ _ _ s 0 [] loads_unknownTexture hs).drawn
  have hvalue := (hp.values_iff hlen).mp (forall_selects_iff.mp hdrawn) 0 (by decide) 0 (by decide)
  have hdoors := Level.doorsBefore_le (sampleEnv fun _ => 0) unknownTextureLevel
    unknownTextureArgs.bootEntries.length
  have hcell : (unknownTextureLevel.map.cell 0 0).toNat = 50 := by decide
  have htextures : unknownTextureLevel.textures.length = 1 := rfl
  omega

end UefiGame
