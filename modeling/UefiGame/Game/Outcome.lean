import UefiGame.Game.Doors
import UefiGame.Game.Walk

/-! # The result of the game

`Game` places the boot entries and runs the key loop. Once `MapValue` has been
assigned below `bootable_start`, the loop simulates the walk over the floor of
the placed map, so its result is the walk's. What the local holds before the
first assignment is tested as well, and this is the only way the two can part.
-/

namespace UefiGame

/-- `Game`: the locals after the given keys; `garbage` is what `MapValue` happens to hold. -/
def game (env : PlaceEnv) (l : Level) (bootEntries : List BootEntry) (garbage : UINTN)
    (keys : List ScanCode) : Option GameState :=
  (placeBootEntries env l bootEntries).map fun s =>
    gameRun s.map l.texturesCount (gameStart garbage) keys

/-- The keys the loop reads. -/
def gameKeys (m : MazeMap) (bootableStart : UINTN) (s : GameState) (keys : List ScanCode) :
    List ScanCode :=
  Run.consumed (gameStep m bootableStart) GameState.escaped s keys

/-- The floor a map describes. -/
def MazeMap.floor (m : MazeMap) (bootableStart : UINTN) : Floor where
  width := m.width.toNat
  height := m.height.toNat
  doorStart := bootableStart.toNat
  value c := (m.cell c.1 c.2).toNat

/-- What the result of `Game` promises: if it returns after the keys read, it returns an entry, or
`ESCAPE_ENTRY`; entry `k` from the door of entry `k`, and `ESCAPE_ENTRY` when ESC came first. -/
def ResultRight (m : MazeMap) (bootableStart : UINTN) (n : ℕ) (s : GameState)
    (read : List ScanCode) : Prop :=
  s.escaped = true →
    (s.entryToBoot = ESCAPE_ENTRY ∨ s.entryToBoot.toNat < n) ∧
    (∀ k < n, s.entryToBoot.toNat = k ↔
      (m.cell s.curX.toNat s.curY.toNat).toNat = bootableStart.toNat + k) ∧
    (s.entryToBoot = ESCAPE_ENTRY ↔ (m.floor bootableStart).EscapeFirst (1, 17) read)

/-- The loop's locals stand for the walk's state. -/
structure Represents (m : MazeMap) (bs : UINTN) (s : GameState) (w : Walk) : Prop where
  inside : s.Inside m
  pos : w.pos = (s.curX.toNat, s.curY.toNat)
  escaped : s.escaped = w.ended
  waiting : w.outcome = none → s.mapValue < bs ∧ s.entryToBoot = ESCAPE_ENTRY
  escape : w.outcome = some .escape → s.mapValue < bs ∧ s.entryToBoot = ESCAPE_ENTRY
  boot : ∀ k, w.outcome = some (.boot k) → s.entryToBoot.toNat = k

section Simulation

variable {m : MazeMap} {bs : UINTN} {s : GameState} {w : Walk} {key : ScanCode} {n : ℕ}

theorem eq_zero_iff {x : UINTN} : x = 0 ↔ x.toNat = 0 := by bv_omega

theorem eq_sub_one_iff {x n : UINTN} (hx : x.toNat < n.toNat) :
    x = n - 1 ↔ ¬ x.toNat + 1 < n.toNat := by
  bv_omega

theorem neighbour_floor (hs : s.Inside m) :
    (m.floor bs).neighbour (s.curX.toNat, s.curY.toNat) key =
      (lookup m s.curX s.curY key).map fun _ =>
        ((shifted s.curX s.curY key).1.toNat, (shifted s.curX s.curY key).2.toNat) := by
  obtain ⟨hx, hy⟩ := hs
  cases key with
  | up =>
    by_cases h : s.curY = 0
    · rw [lookup, if_pos h]
      simp [Floor.neighbour, h]
    · have hsub := toNat_sub_one h
      have hne : s.curY.toNat ≠ 0 := by omega
      have hpred : (s.curY - 1).toNat = s.curY.toNat - 1 := by omega
      rw [lookup, if_neg h]
      simp only [Floor.neighbour, if_neg hne, shifted, Option.map_some, hpred]
  | down =>
    by_cases h : s.curY = m.height - 1
    · have hlast := (eq_sub_one_iff hy).mp h
      rw [lookup, if_pos h]
      exact if_neg hlast
    · have hlt := add_one_lt hy h
      rw [toNat_add_one hy] at hlt
      rw [lookup, if_neg h, Option.map_some, shifted, toNat_add_one hy]
      exact if_pos hlt
  | left =>
    by_cases h : s.curX = 0
    · rw [lookup, if_pos h]
      simp [Floor.neighbour, h]
    · have hsub := toNat_sub_one h
      have hne : s.curX.toNat ≠ 0 := by omega
      have hpred : (s.curX - 1).toNat = s.curX.toNat - 1 := by omega
      rw [lookup, if_neg h]
      simp only [Floor.neighbour, if_neg hne, shifted, Option.map_some, hpred]
  | right =>
    by_cases h : s.curX = m.width - 1
    · have hlast := (eq_sub_one_iff hx).mp h
      rw [lookup, if_pos h]
      exact if_neg hlast
    · have hlt := add_one_lt hx h
      rw [toNat_add_one hx] at hlt
      rw [lookup, if_neg h, Option.map_some, shifted, toNat_add_one hx]
      exact if_pos hlt
  | esc => rfl
  | other code => rfl

/-- A pass that reads no cell leaves the locals alone, unless the key is ESC; then it tests what
`MapValue` still holds. -/
theorem gameStep_of_none (h : lookup m s.curX s.curY key = none) :
    gameStep m bs s key =
      testMapValue bs { s with escaped := if key = .esc then true else s.escaped } := by
  rw [gameStep, keySwitch, h]
  by_cases he : key = .esc <;> simp [he]

theorem represents_of_none (hr : Represents m bs s w) (hw : w.outcome = none)
    (h : lookup m s.curX s.curY key = none) :
    Represents m bs (gameStep m bs s key) ((m.floor bs).step w key) := by
  obtain ⟨hlt, hentry⟩ := hr.waiting hw
  have hq : (m.floor bs).neighbour w.pos key = none := by
    rw [hr.pos, neighbour_floor hr.inside, h, Option.map_none]
  have hstep : gameStep m bs s key =
      { s with escaped := if key = .esc then true else s.escaped } := by
    rw [gameStep_of_none h, testMapValue, if_neg (BitVec.not_le.mpr hlt)]
  have hesc : s.escaped = false := by rw [hr.escaped]; simp [Walk.ended, hw]
  rw [hstep, Floor.step_of_none hq]
  constructor
  case inside => exact hr.inside
  case pos => exact hr.pos
  case escaped => by_cases he : key = .esc <;> simp [Walk.ended, he, hesc]
  case waiting => exact fun _ => ⟨hlt, hentry⟩
  case escape => exact fun _ => ⟨hlt, hentry⟩
  case boot =>
    intro k hk
    split_ifs at hk
    cases hk

section Reads

variable {i : UINTN} (h : lookup m s.curX s.curY key = some i)
include h

theorem gameStep_of_door (hd : bs ≤ m.read i) :
    gameStep m bs s key =
      { curX := (shifted s.curX s.curY key).1
        curY := (shifted s.curX s.curY key).2
        mapValue := m.read i
        entryToBoot := m.read i - bs
        escaped := true } := by
  simp [gameStep, keySwitch, h, walkable_iff, hd, testMapValue]

theorem gameStep_of_free (hd : ¬ bs ≤ m.read i) (h0 : m.read i = 0) :
    gameStep m bs s key =
      { s with
        curX := (shifted s.curX s.curY key).1
        curY := (shifted s.curX s.curY key).2
        mapValue := m.read i } := by
  have hw : Walkable bs (m.read i) := walkable_iff.mpr (Or.inl h0)
  simp only [gameStep, keySwitch, h, if_pos hw, testMapValue, if_neg hd]

theorem gameStep_of_solid (hd : ¬ bs ≤ m.read i) (h0 : m.read i ≠ 0) :
    gameStep m bs s key = { s with mapValue := m.read i } := by
  have hw : ¬ Walkable bs (m.read i) := fun hw => (walkable_iff.mp hw).elim h0 hd
  simp only [gameStep, keySwitch, h, if_neg hw, testMapValue, if_neg hd]

/-- A pass that reads a cell forgets what `MapValue` held before. -/
theorem represents_of_some (hin : s.Inside m) (hpos : w.pos = (s.curX.toNat, s.curY.toNat))
    (hesc : s.escaped = false) (hentry : s.entryToBoot = ESCAPE_ENTRY) :
    Represents m bs (gameStep m bs s key) ((m.floor bs).step w key) := by
  obtain ⟨hx, hy, rfl, -⟩ := lookup_spec hin h
  have hq : (m.floor bs).neighbour w.pos key =
      some ((shifted s.curX s.curY key).1.toNat, (shifted s.curX s.curY key).2.toNat) := by
    rw [hpos, neighbour_floor hin, h, Option.map_some]
  have hval : (m.floor bs).value
      ((shifted s.curX s.curY key).1.toNat, (shifted s.curX s.curY key).2.toNat) =
      (m.read (m.index (shifted s.curX s.curY key).1 (shifted s.curX s.curY key).2)).toNat := by
    rw [MazeMap.read_index hx hy]
    rfl
  by_cases hd : bs ≤ m.read (m.index (shifted s.curX s.curY key).1 (shifted s.curX s.curY key).2)
  · rw [gameStep_of_door h hd, Floor.step_of_door hq (hval ▸ hd), hval]
    refine ⟨⟨hx, hy⟩, rfl, rfl, nofun, nofun, ?_⟩
    rintro k hk
    cases hk
    exact BitVec.toNat_sub_of_le hd
  · have hlt := BitVec.not_le.mp hd
    have hd' : ¬ (m.floor bs).doorStart ≤ (m.floor bs).value
        ((shifted s.curX s.curY key).1.toNat, (shifted s.curX s.curY key).2.toNat) := hval ▸ hd
    by_cases h0 : m.read (m.index (shifted s.curX s.curY key).1 (shifted s.curX s.curY key).2) = 0
    · rw [gameStep_of_free h hd h0,
        Floor.step_of_free hq hd' (hval.trans (eq_zero_iff.mp h0))]
      exact ⟨⟨hx, hy⟩, rfl, hesc, fun _ => ⟨hlt, hentry⟩, nofun, nofun⟩
    · rw [gameStep_of_solid h hd h0,
        Floor.step_of_solid hq hd' fun h' => h0 (eq_zero_iff.mpr (hval ▸ h'))]
      exact ⟨hin, hpos, hesc, fun _ => ⟨hlt, hentry⟩, nofun, nofun⟩

end Reads

theorem represents_step (key : ScanCode) (hr : Represents m bs s w) (hs : s.escaped = false) :
    Represents m bs (gameStep m bs s key) ((m.floor bs).step w key) := by
  have hw : w.outcome = none := by
    rw [hr.escaped] at hs
    simpa [Walk.ended] using hs
  cases h : lookup m s.curX s.curY key with
  | none => exact represents_of_none hr hw h
  | some i => exact represents_of_some h hr.inside hr.pos hs (hr.waiting hw).2

theorem gameRun_represents (hr : Represents m bs s w) (keys : List ScanCode) :
    Represents m bs (gameRun m bs s keys) ((m.floor bs).run w keys) ∧
      gameKeys m bs s keys = (m.floor bs).keysRead w keys :=
  Run.simulation (R := Represents m bs) (fun _ _ h => h.escaped)
    (fun _ _ key hs h => represents_step key h hs) hr keys

theorem resultRight_of_represents (hr : Represents m bs s w) (hw : (m.floor bs).Sound n w)
    (hn : n < 2 ^ 64) {read : List ScanCode}
    (hread : (m.floor bs).EscapeFirst (1, 17) read ↔ w.outcome = some .escape) :
    ResultRight m bs n s read := by
  intro hs
  have hmax : ESCAPE_ENTRY.toNat = 2 ^ 64 - 1 := by decide
  have hvalue : (m.floor bs).value w.pos = (m.cell s.curX.toNat s.curY.toNat).toNat := by
    rw [hr.pos]; rfl
  rw [hr.escaped, Walk.ended, Option.isSome_iff_exists] at hs
  obtain ⟨o, ho⟩ := hs
  rw [hread]
  cases o with
  | escape =>
    obtain ⟨hlt, hentry⟩ := hr.escape ho
    have hfree := hw.free (by simp [ho])
    rw [hvalue] at hfree
    rw [BitVec.lt_def] at hlt
    have hno : ∀ k < n, s.entryToBoot.toNat = k ↔
        (m.cell s.curX.toNat s.curY.toNat).toNat = bs.toNat + k := by
      intro k hk
      rw [hentry, hmax, hfree]
      omega
    exact ⟨Or.inl hentry, hno, iff_of_true hentry ho⟩
  | boot j =>
    have hentry := hr.boot j ho
    obtain ⟨hdoor, hj⟩ := hw.door j ho
    rw [hvalue] at hdoor
    have hdoor' : (m.cell s.curX.toNat s.curY.toNat).toNat = bs.toNat + j := hdoor
    have hno : ∀ k < n, s.entryToBoot.toNat = k ↔
        (m.cell s.curX.toNat s.curY.toNat).toNat = bs.toNat + k := by
      intro k hk
      rw [hentry, hdoor', Nat.add_left_cancel_iff]
    have hne : s.entryToBoot ≠ ESCAPE_ENTRY := by
      intro he
      rw [he, hmax] at hentry
      omega
    exact ⟨Or.inr (hentry ▸ hj), hno, iff_of_false hne (by simp [ho])⟩

end Simulation

section Game

variable {m : MazeMap} {bs garbage : UINTN} {key : ScanCode} {keys : List ScanCode} {n : ℕ}

/-- A map for `Game`: the start cell is inside and free, and no cell exceeds the last entry. -/
structure Playable (m : MazeMap) (bs : UINTN) (n : ℕ) : Prop where
  two_le_width : 2 ≤ m.width.toNat
  eighteen_le_height : 18 ≤ m.height.toNat
  start_free : m.cell 1 17 = 0
  cell_lt : ∀ x < m.width.toNat, ∀ y < m.height.toNat, (m.cell x y).toNat < bs.toNat + n

/-- The first key reads a cell, or what `MapValue` holds does not look like a door; where every
value looks like a door, it looks like the one the player stands on. -/
def FirstKeyDecides (m : MazeMap) (bs garbage : UINTN) (key : ScanCode) : Prop :=
  (m.floor bs).neighbour (1, 17) key ≠ none ∨ garbage < bs ∨
    (bs = 0 ∧ garbage = 0 ∧ key ≠ .esc)

theorem Playable.start_sound (hm : Playable m bs n) :
    (m.floor bs).Sound n ⟨(1, 17), none⟩ where
  inside := ⟨hm.two_le_width, hm.eighteen_le_height⟩
  free := fun _ => by
    change (m.cell 1 17).toNat = 0
    rw [hm.start_free]
    rfl
  door := nofun

theorem resultRight_of_first (hm : Playable m bs n) (hn : n < 2 ^ 64)
    (hfirst : Represents m bs (gameStep m bs (gameStart garbage) key)
      ((m.floor bs).step ⟨(1, 17), none⟩ key)) :
    ResultRight m bs n (gameRun m bs (gameStart garbage) (key :: keys))
      (gameKeys m bs (gameStart garbage) (key :: keys)) := by
  have hgoing : (gameStart garbage).escaped = false := rfl
  have hgoing' : (⟨(1, 17), none⟩ : Walk).ended = false := rfl
  obtain ⟨hrun, hkeys⟩ := gameRun_represents hfirst keys
  have hrun' : gameRun m bs (gameStart garbage) (key :: keys) =
      gameRun m bs (gameStep m bs (gameStart garbage) key) keys :=
    Run.run_cons_of_not_halted hgoing ..
  have hwalk : (m.floor bs).run ⟨(1, 17), none⟩ (key :: keys) =
      (m.floor bs).run ((m.floor bs).step ⟨(1, 17), none⟩ key) keys :=
    Run.run_cons_of_not_halted hgoing' ..
  have hread : gameKeys m bs (gameStart garbage) (key :: keys) =
      (m.floor bs).keysRead ⟨(1, 17), none⟩ (key :: keys) := by
    rw [gameKeys, Run.consumed_cons_of_not_halted hgoing, Floor.keysRead,
      Run.consumed_cons_of_not_halted hgoing', ← gameKeys, hkeys, Floor.keysRead]
  have hsound := Floor.run_sound (fun q hx hy => hm.cell_lt q.1 hx q.2 hy) hm.start_sound
    (key :: keys)
  rw [hrun', hread]
  refine resultRight_of_represents (hwalk ▸ hrun) hsound hn ?_
  exact Floor.escapeFirst_keysRead_iff (w := ⟨(1, 17), none⟩) rfl (key :: keys)

theorem gameRun_of_garbage (keys : List ScanCode) (h : lookup m 1 17 key = none)
    (hg : bs ≤ garbage) :
    gameRun m bs (gameStart garbage) (key :: keys) =
      { curX := 1, curY := 17, mapValue := garbage, entryToBoot := garbage - bs, escaped := true } ∧
    gameKeys m bs (gameStart garbage) (key :: keys) = [key] := by
  have hgoing : (gameStart garbage).escaped = false := rfl
  have hstep : gameStep m bs (gameStart garbage) key =
      { curX := 1, curY := 17, mapValue := garbage, entryToBoot := garbage - bs,
        escaped := true } := by
    have hnone : gameStep m bs (gameStart garbage) key = _ := gameStep_of_none h
    exact hnone.trans (if_pos hg)
  constructor
  · rw [gameRun, Run.run_cons_of_not_halted hgoing, hstep, Run.run_of_halted rfl]
  · rw [gameKeys, Run.consumed_cons_of_not_halted hgoing, hstep, Run.consumed_of_halted rfl]

theorem resultRight_of_garbage_iff (hm : Playable m bs n) (hn : n < 2 ^ 64)
    (h : lookup m 1 17 key = none) (hg : bs ≤ garbage) :
    ResultRight m bs n (gameRun m bs (gameStart garbage) (key :: keys))
      (gameKeys m bs (gameStart garbage) (key :: keys)) ↔
    bs = 0 ∧ garbage = 0 ∧ key ≠ .esc := by
  obtain ⟨hrun, hread⟩ := gameRun_of_garbage keys h hg
  have hcell : (m.cell 1 17).toNat = 0 := eq_zero_iff.mp hm.start_free
  have hlt := hm.cell_lt 1 hm.two_le_width 17 hm.eighteen_le_height
  have hmax : ESCAPE_ENTRY.toNat = 2 ^ 64 - 1 := by decide
  have hescape : (m.floor bs).EscapeFirst (1, 17) [key] ↔ key = .esc := by
    simp [Floor.EscapeFirst]
  have hsub := BitVec.toNat_sub_of_le hg
  rw [hrun, hread]
  constructor
  · intro hres
    obtain ⟨hentry, hdoor, hesc⟩ := hres rfl
    have hdoor' : ∀ k < n, (garbage - bs).toNat = k ↔ (m.cell 1 17).toNat = bs.toNat + k := hdoor
    rw [hescape] at hesc
    have hbs : bs.toNat = 0 := by
      by_contra hne
      rcases hentry with he | he
      · -- the difference is too small for the marker
        have he' : (garbage - bs).toNat = 2 ^ 64 - 1 := (congrArg BitVec.toNat he).trans hmax
        have := garbage.isLt
        omega
      · have := (hdoor' _ he).mp rfl
        omega
    have hgarbage : (garbage - bs).toNat = 0 := by
      rw [hdoor' 0 (by omega)]
      omega
    have hg0 : garbage.toNat = 0 := by omega
    have hkey : key ≠ .esc := by
      intro hkey
      have he' : (garbage - bs).toNat = 2 ^ 64 - 1 :=
        (congrArg BitVec.toNat (hesc.mpr hkey)).trans hmax
      omega
    exact ⟨eq_zero_iff.mpr hbs, eq_zero_iff.mpr hg0, hkey⟩
  · rintro ⟨rfl, rfl, hkey⟩ -
    constructor
    · right
      change 0 < n
      rw [hcell] at hlt
      exact Nat.zero_add n ▸ hlt
    constructor
    · intro k hk
      change 0 = k ↔ (m.cell 1 17).toNat = 0 + k
      rw [hcell, Nat.zero_add]
    · rw [hescape]
      exact iff_of_false (by decide) hkey

theorem resultRight_iff (keys : List ScanCode) (hm : Playable m bs n) (hn : n < 2 ^ 64) :
    ResultRight m bs n (gameRun m bs (gameStart garbage) (key :: keys))
      (gameKeys m bs (gameStart garbage) (key :: keys)) ↔ FirstKeyDecides m bs garbage key := by
  have hin := gameStart_inside hm.two_le_width hm.eighteen_le_height garbage
  have hnext : (m.floor bs).neighbour (1, 17) key = (lookup m 1 17 key).map _ :=
    neighbour_floor hin
  cases h : lookup m 1 17 key with
  | some i =>
    have hdec : FirstKeyDecides m bs garbage key := by
      rw [FirstKeyDecides, hnext, h]
      exact Or.inl (Option.some_ne_none _)
    exact iff_of_true (resultRight_of_first hm hn (represents_of_some h hin rfl rfl rfl)) hdec
  | none =>
    rw [FirstKeyDecides, hnext, h, Option.map_none, or_iff_right fun hne => hne rfl]
    by_cases hg : garbage < bs
    · have hfirst : Represents m bs (gameStart garbage) ⟨(1, 17), none⟩ :=
        ⟨hin, rfl, rfl, fun _ => ⟨hg, rfl⟩, nofun, nofun⟩
      refine iff_of_true (resultRight_of_first hm hn ?_) (Or.inl hg)
      exact represents_step key hfirst rfl
    · rw [resultRight_of_garbage_iff hm hn h (BitVec.not_lt.mp hg)]
      simp [hg]

end Game

/-- The result is right just when the first key decides it. -/
theorem game_resultRight_iff (env : PlaceEnv) (l : Level) (es : List BootEntry) (s : PlaceState)
    (hs : placeBootEntries env l es = some s) (hm : Playable s.map l.texturesCount es.length)
    (garbage : UINTN) (key : ScanCode) (keys : List ScanCode) :
    (∀ g, game env l es garbage (key :: keys) = some g → ResultRight s.map l.texturesCount
        es.length g (gameKeys s.map l.texturesCount (gameStart garbage) (key :: keys))) ↔
      FirstKeyDecides s.map l.texturesCount garbage key := by
  have hn := (placed_of_placeBootEntries hs).1
  rw [← resultRight_iff keys hm (by omega)]
  simp [game, hs]

/-- The only escape cell of the map, right above the start cell, has become the door. -/
def placedSample : PlaceState :=
  (placeBootEntries (sampleEnv fun _ => 0) oneEscape [sampleEntry]).get (by decide +kernel)

theorem playable_placedSample : Playable placedSample.map oneEscape.texturesCount 1 where
  two_le_width := by decide +kernel
  eighteen_le_height := by decide +kernel
  start_free := by decide +kernel
  cell_lt := by decide +kernel

theorem game_resultRight_iff_placedSample :
    (∀ g, game (sampleEnv fun _ => 0) oneEscape [sampleEntry] 20 [.up] = some g →
      ResultRight placedSample.map oneEscape.texturesCount 1 g
        (gameKeys placedSample.map oneEscape.texturesCount (gameStart 20) [.up])) ↔
      FirstKeyDecides placedSample.map oneEscape.texturesCount 20 .up :=
  game_resultRight_iff (sampleEnv fun _ => 0) oneEscape [sampleEntry] placedSample
    (Option.some_get _).symm playable_placedSample 20 .up []

/-- ESC as the first key boots entry `0` if `MapValue` happens to hold its number. -/
theorem not_game_resultRight_placedSample :
    ¬ ∀ g, game (sampleEnv fun _ => 0) oneEscape [sampleEntry] 11 [.esc] = some g →
      ResultRight placedSample.map oneEscape.texturesCount 1 g
        (gameKeys placedSample.map oneEscape.texturesCount (gameStart 11) [.esc]) := by
  intro h
  obtain ⟨-, hdoor, -⟩ := h _ rfl (by decide +kernel)
  exact absurd ((hdoor 0 Nat.zero_lt_one).mp (by decide +kernel)) (by decide +kernel)

end UefiGame
