import UefiGame.Config.BootLines
import UefiGame.Game.Doors

/-! # What placing does not check

`PlaceBootEntries` takes a remainder by `12 - i` in pass `i`, whatever the
number of entries the configuration has, and `MakeBootEntryTexture` goes on when
the icon cannot be read. Both are harmless only on the inputs that do not get
there.
-/

namespace UefiGame

/-- `PlaceBootEntries` handles the entries: no pass that is reached divides by zero, and each draws
an index below the number of cells left, or leaves its entry unplaced. -/
structure EntriesHandled (env : PlaceEnv) (l : Level) (es : List BootEntry) : Prop where
  divides : ∀ i < es.length, ∀ s, placeBootEntries env l (es.take i) = some s →
    escapes - BitVec.ofNat 64 i ≠ 0
  index : ∀ i < es.length, (i < 12 ∧ (randIndex env i).toNat < 12 - i) ∨
    placeBootEntries env l (es.take (i + 1)) = placeBootEntries env l (es.take i)

/-- Pass `i` calls `MakeBootEntryTexture` for the entry `e` and the cell `c`, in the state `s`. -/
structure MakesTexture (env : PlaceEnv) (l : Level) (es : List BootEntry) (i : ℕ) (e : BootEntry)
    (c : ℕ × ℕ) (s : PlaceState) : Prop where
  entry : es[i]? = some e
  before : placeBootEntries env l (es.take i) = some s
  divides : escapes - BitVec.ofNat 64 i ≠ 0
  drawn : (escapeCells l.texturesCount s.map)[(randIndex env i).toNat]? = some c

/-- A bad icon leaves placement consistent: a call that cannot read the icon returns an error and
the textures as they are, and does not depend on what the locals held that `ReadBMP` did not set;
and no cell of the final map holds a number without a texture that it did not hold before. -/
structure IconsHandled (env : PlaceEnv) (l : Level) (es : List BootEntry) : Prop where
  call : ∀ i e c s, MakesTexture env l es i e c s →
    efiError (readBMP env.fs e.icon (env.stack i)).1 = true →
    ∃ status, efiError status = true ∧ ∀ stack,
      makeBootEntryTexture { env with stack := stack } i e (s.map.cell c.1 c.2) s.textures =
        some (status, s.textures)
  cells : ∀ s, placeBootEntries env l es = some s → ∀ x < l.map.width.toNat,
    ∀ y < l.map.height.toNat, s.texturesCount ≤ s.map.cell x y → s.map.cell x y = l.map.cell x y

section Faults

variable {env : PlaceEnv} {l : Level} {es : List BootEntry} {s : PlaceState} {e : BootEntry}
  {i : ℕ} {c : ℕ × ℕ}

/-- Twelve passes are handled, and a thirteenth one divides by zero if it is reached. -/
theorem entriesHandled_iff_length (env : PlaceEnv) (l : Level) (es : List BootEntry) :
    EntriesHandled env l es ↔ es.length ≤ 12 ∨ ¬ l.IconsSized env (es.take 12) := by
  constructor
  · intro h
    by_contra hno
    rw [not_or, Nat.not_le, not_not] at hno
    have hlen : (es.take 12).length = 12 := List.length_take_of_le (by omega)
    obtain ⟨s, hs, -⟩ := exists_placed hlen.le hno.2
    exact h.divides 12 hno.1 s hs (by decide)
  · intro h
    -- a pass behind the twelfth is reached only by calls that come back, which cannot be
    have hstuck : ∀ i < es.length, 12 ≤ i → ∀ j, i ≤ j →
        placeBootEntries env l (es.take j) = none := by
      intro i hi h12 j hj
      rw [← Option.not_isSome_iff_eq_none, Option.isSome_iff_exists, exists_placeBootEntries_iff]
      rintro ⟨hn, hsized⟩
      rcases h with h | h
      · omega
      · refine h (hsized.of_prefix ?_)
        exact (List.take_prefix_take_left (h12.trans hj))
    constructor
    · intro i hi s hs h0
      have h12 : 12 ≤ i := by
        by_contra hlt
        exact escapes_sub_ne_zero (Nat.lt_of_not_le hlt) h0
      rw [hstuck i hi h12 i le_rfl] at hs
      cases hs
    · intro i hi
      rcases Nat.lt_or_ge i 12 with hlt | hge
      · exact Or.inl ⟨hlt, toNat_randIndex_lt env hlt⟩
      · right
        rw [hstuck i hi hge i le_rfl, hstuck i hi hge (i + 1) (Nat.le_succ i)]

theorem length_result_parseConfigFile (convert : AsciiStrToUnicodeStrS) (fs : FileSystem)
    (filename : Str16) (garbage : FileBuffer) :
    (parseConfigFile convert fs filename garbage).result.length =
      adjacentNewlines (readFile fs filename garbage).2.bytes + 1 := by
  rw [← resultSize_eq, ← length_result_scanConfig convert]
  rfl

theorem MakesTexture.lt_length (h : MakesTexture env l es i e c s) : i < es.length :=
  (List.getElem?_eq_some_iff.mp h.entry).1

theorem MakesTexture.lt (h : MakesTexture env l es i e c s) : i < 12 := by
  have hlen := (placed_of_placeBootEntries h.before).1
  rw [List.length_take_of_le (Nat.le_of_lt h.lt_length)] at hlen
  rcases Nat.lt_or_eq_of_le hlen with hlt | rfl
  · exact hlt
  · exact absurd (by decide) h.divides

theorem MakesTexture.door (h : MakesTexture env l es i e c s) : l.door env i = some c := by
  have hp := (placed_of_placeBootEntries h.before).2.2
  have hdrawn := h.drawn
  rw [hp.escapes_eq, List.length_take_of_le (Nat.le_of_lt h.lt_length)] at hdrawn
  exact hdrawn

theorem exists_makesTexture (he : es[i]? = some e) (hi : i < 12) (hd : l.door env i = some c)
    (hsized : l.IconsSized env (es.take i)) : ∃ s, MakesTexture env l es i e c s := by
  have hlen := List.length_take_of_le (Nat.le_of_lt (List.getElem?_eq_some_iff.mp he).1)
  obtain ⟨s, hs, hp⟩ := exists_placed (by omega) hsized
  refine ⟨s, he, hs, escapes_sub_ne_zero hi, ?_⟩
  rw [hp.escapes_eq, hlen]
  exact hd

theorem makeBootEntryTexture_ne (env : PlaceEnv) (i : ℕ) (e : BootEntry) (cell : UINTN)
    (textures : List Image) (status : EFI_STATUS) :
    makeBootEntryTexture env i e cell textures ≠ some (status, textures) := by
  intro h
  rw [makeBootEntryTexture] at h
  split_ifs at h
  have hlen := congrArg (fun r => r.2.length) (Option.some.inj h)
  simp [addElement] at hlen

theorem Placed.cell_lt_of_door {j : ℕ} (hp : Placed env l es s) (hn : es.length ≤ 12)
    (hj : j < es.length) (hd : l.door env j = some c) :
    s.map.cell c.1 c.2 < s.texturesCount := by
  have hfits := l.fits
  have hlt := Level.doorsBefore_lt hd hj
  have hle := Level.doorsBefore_le env l es.length
  rw [BitVec.lt_def, hp.texturesCount_eq hn, hp.opened j c hj hd, BitVec.toNat_ofNat,
    Nat.mod_eq_of_lt (by omega)]
  omega

theorem Placed.cells (hp : Placed env l es s) (hn : es.length ≤ 12) {x y : ℕ}
    (hx : x < l.map.width.toNat) (hcell : s.texturesCount ≤ s.map.cell x y) :
    s.map.cell x y = l.map.cell x y := by
  apply hp.other (x, y) hx
  intro j hj hd
  exact absurd (hp.cell_lt_of_door hn hj hd) (BitVec.not_lt.mpr hcell)

theorem IconsHandled.readable (h : IconsHandled env l es) (he : es[i]? = some e) (hi : i < 12)
    (hd : l.door env i = some c) (hsized : l.IconsSized env (es.take i)) :
    efiError (readBMP env.fs e.icon (env.stack i)).1 = false := by
  obtain ⟨s, hmakes⟩ := exists_makesTexture he hi hd hsized
  by_contra hbad
  rw [Bool.not_eq_false] at hbad
  obtain ⟨status, -, hcall⟩ := h.call i e c s hmakes hbad
  exact makeBootEntryTexture_ne env i e _ s.textures status (hcall env.stack)

end Faults

/-- The entries of a configuration file are handled, in either program and on any map, just when at
most eleven newlines of the file stand behind another, or one of the first twelve passes does not
come back. -/
theorem entriesHandled_iff (convert : AsciiStrToUnicodeStrS) (fs : FileSystem) (filename : Str16)
    (garbage : FileBuffer) (env : PlaceEnv) (l : Level) :
    EntriesHandled env l (parseConfigFile convert fs filename garbage).result ↔
      adjacentNewlines (readFile fs filename garbage).2.bytes ≤ 11 ∨
        ¬ l.IconsSized env ((parseConfigFile convert fs filename garbage).result.take 12) := by
  rw [entriesHandled_iff_length, length_result_parseConfigFile]
  apply or_congr_left
  omega

/-- Thirteen entries of one line. -/
def thirteenEntries : List CHAR8 :=
  [newline].intercalate (List.replicate 13 [116, colon, space, 97, newline])

/-- The thirteenth pass divides by zero. -/
theorem not_entriesHandled_thirteen :
    ¬ EntriesHandled (sampleEnv fun _ => 0) manyEscapes (parseConfigFile asciiStrToUnicodeStrS
      (fun _ => FileIo.ofBytes thirteenEntries [] (by decide)) (some []) ⟨[], []⟩).result := by
  have hicons : ∀ e ∈ (parseConfigFile asciiStrToUnicodeStrS
      (fun _ => FileIo.ofBytes thirteenEntries [] (by decide)) (some []) ⟨[], []⟩).result,
      (readBMP (sampleEnv fun _ => 0).fs e.icon ⟨0, 0, []⟩).2.Sized := by
    decide +kernel
  rw [entriesHandled_iff_length, not_or, not_not]
  refine ⟨by decide +kernel, ?_⟩
  intro i e c he _
  exact hicons e (List.mem_of_mem_take (List.mem_of_getElem? he))

/-- A bad icon leaves placement consistent just when no entry for which a door is opened has one, up
to the first call that does not come back. -/
theorem iconsHandled_iff (env : PlaceEnv) (l : Level) (es : List BootEntry) :
    IconsHandled env l es ↔ ∀ i < 12, ∀ e c, es[i]? = some e → l.door env i = some c →
      l.IconsSized env (es.take i) →
      efiError (readBMP env.fs e.icon (env.stack i)).1 = false := by
  constructor
  · intro h i hi e c he hd hsized
    exact h.readable he hi hd hsized
  · intro h
    constructor
    · intro i e c s hmakes hbad
      have hsized := (placed_of_placeBootEntries hmakes.before).2.1
      rw [h i hmakes.lt e c hmakes.entry hmakes.door hsized] at hbad
      cases hbad
    · intro s hs x hx y _ hcell
      obtain ⟨hn, -, hp⟩ := placed_of_placeBootEntries hs
      exact hp.cells hn hx hcell

/-- The icon file is not there. -/
def noIconEnv : PlaceEnv where
  manager := .bootManager2D
  fs := fun name => { (sampleEnv fun _ => 0).fs name with openFile := EFI_NOT_FOUND }
  rand := fun _ => 0
  stack := fun _ => ⟨0, 0, []⟩

/-- The door over the only escape cell is made of whatever the locals held. -/
theorem not_iconsHandled_noIcon : ¬ IconsHandled noIconEnv oneEscape [sampleEntry] := by
  intro h
  have hread := h.readable (i := 0) (c := (1, 16)) rfl (by decide) (by decide +kernel) nofun
  exact absurd hread (by decide +kernel)

end UefiGame
