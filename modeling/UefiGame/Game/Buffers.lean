import UefiGame.Game.Doors
import UefiGame.Game.Startup

/-! # The sizes of the pixel buffers

`Game` draws squares of 32 pixels, and the three-dimensional program samples
squares of 64, whatever the files hold: the size check of the texture loop only
reports, the dimensions of the sprite are dropped, and a composite has the size
of the icon. A buffer is as large as its file makes it.
-/

namespace UefiGame

/-- The number of pixels `CutInHalf` keeps. -/
def halfSize (b : Bmp) : ℕ :=
  (uintnOfInt32 b.width).toNat / 2 * ((uintnOfInt32 b.height).toNat / 2)

/-- The number of pixels of a sprite file: the length of its first line times its whole lines. -/
def spriteSize (b : FileBuffer) : ℕ :=
  match (b.bytes ++ b.beyond).findIdx? fun c => c = newline with
  | none => 0
  | some width => width * (b.bytes.length / (width + 1))

/-- The pixels that `CombineWithTransparency` reads lie in its two inputs. -/
def CombineInside (foreground background : Image) (width height : ℕ) : Prop :=
  ∀ i < width * height, i < foreground.length ∧
    ((foreground.at i).reserved ≠ 0xff → i < background.length)

/-- The two-dimensional program has called `Game`, and placed the boot entries. -/
structure Reaches2D {H : Type} (env : StartupEnv H) (penv : PlaceEnv) (l : Level) (args : GameArgs)
    (s : PlaceState) : Prop where
  game : env.uefiMain.outcome = .value args
  manager : penv.manager = .bootManager2D
  fs : penv.fs = env.fs
  textures : l.textures = args.textures
  placed : placeBootEntries penv l args.bootEntries = some s

/-- The three-dimensional program has called `Game`, and placed the boot entries. -/
structure Reaches3D {H : Type} (env : StartupEnv H) (penv : PlaceEnv) (l : Level)
    (args : GameArgs3D) (s : PlaceState) : Prop where
  game : env.uefiMain3D.outcome = .value args
  manager : penv.manager = .bootManager3D
  fs : penv.fs = env.fs
  textures : l.textures = args.textures
  placed : placeBootEntries penv l args.bootEntries = some s

/-- The buffers hold what the two-dimensional program draws, and the calls of
`CombineWithTransparency`, for the icons placed and for the sprite over any texture, stay inside. -/
structure BuffersHold2D (penv : PlaceEnv) (l : Level) (args : GameArgs) (s : PlaceState) :
    Prop where
  textures : ∀ t ∈ s.textures, 32 * 32 ≤ t.length
  sprite : 32 * 32 ≤ args.sprite.length
  icons : ∀ i e c, args.bootEntries[i]? = some e → l.door penv i = some c →
    let icon := (readBMP penv.fs e.icon (penv.stack i)).2
    CombineInside (l.shown c) icon.half
      (uintnOfInt32 (icon.width.sdiv 2)).toNat (uintnOfInt32 (icon.height.sdiv 2)).toNat
  cells : ∀ t ∈ s.textures, CombineInside args.sprite t 32 32

/-- The files are large enough: every texture, the sprite, and every icon placed, which moreover has
no more pixels than the texture it is placed over. -/
structure FilesSuffice2D {H : Type} (env : StartupEnv H) (penv : PlaceEnv) (l : Level) : Prop where
  textures : ∀ p ∈ env.texturePasses, 32 * 32 ≤ halfSize (env.readTexture p).2
  sprite : 32 * 32 ≤ spriteSize (readFile env.fs (some spriteName) env.spriteData).2
  icons : ∀ i e c p, (env.configResult configName).result[i]? = some e → l.door penv i = some c →
    env.texturePasses[(l.map.cell c.1 c.2).toNat]? = some p →
    32 * 32 ≤ halfSize (readBMP penv.fs e.icon (penv.stack i)).2 ∧
      halfSize (readBMP penv.fs e.icon (penv.stack i)).2 ≤ halfSize (env.readTexture p).2

/-- The same for the three-dimensional program, where only the sizes count. -/
structure FilesSuffice3D {H : Type} (env : StartupEnv H) (penv : PlaceEnv) (l : Level) : Prop where
  textures : ∀ p ∈ env.texturePasses,
    64 * 64 ≤ allocatedPixels (env.readTexture p).2.width (env.readTexture p).2.height
  icons : ∀ i e c, (env.configResult configName3D).result[i]? = some e → l.door penv i = some c →
    let icon := (readBMP penv.fs e.icon (penv.stack i)).2
    64 * 64 ≤ (uintnOfInt32 icon.width).toNat * (uintnOfInt32 icon.height).toNat

section Sizes

variable {v : INT32} {b : Bmp} {base foreground background : Image} {width height n : ℕ}

/-- A negative dimension is halved to more than a quarter of the address space. -/
theorem le_toNat_of_neg (h : v.toInt < 0) : 2 ^ 62 ≤ (uintnOfInt32 v).toNat / 2 := by
  have hint : (uintnOfInt32 v).toInt = v.toInt := BitVec.toInt_signExtend_of_le (by decide)
  have hlow := BitVec.le_toInt v
  have hcond := BitVec.toInt_eq_toNat_cond (uintnOfInt32 v)
  split at hcond <;> omega

theorem eq_zero_of_neg (h : v.toInt < 0) (hsize : (uintnOfInt32 v).toNat * n < 2 ^ 31) : n = 0 := by
  have hle := le_toNat_of_neg h
  by_contra hn
  have hmul := Nat.le_mul_of_pos_right (uintnOfInt32 v).toNat (Nat.pos_of_ne_zero hn)
  omega

theorem sdiv_two_eq_zero (h : (uintnOfInt32 v).toNat = 0) :
    (uintnOfInt32 (v.sdiv 2)).toNat = 0 := by
  have hv : 0 ≤ v.toInt := by
    by_contra hneg
    have hle := le_toNat_of_neg (Int.not_le.mp hneg)
    omega
  rw [toNat_sdiv_two hv, h]

/-- `MakeBootEntryTexture` halves the dimensions as `INT32`, `CutInHalf` as `UINTN`. -/
theorem Bmp.Sized.halves (h : b.Sized) :
    (uintnOfInt32 (b.width.sdiv 2)).toNat * (uintnOfInt32 (b.height.sdiv 2)).toNat =
      halfSize b := by
  rw [Bmp.Sized] at h
  rw [halfSize]
  by_cases hwidth : 0 ≤ b.width.toInt
  · by_cases hheight : 0 ≤ b.height.toInt
    · rw [toNat_sdiv_two hwidth, toNat_sdiv_two hheight]
    · rw [Nat.mul_comm] at h
      have hzero := eq_zero_of_neg (Int.not_le.mp hheight) h
      rw [sdiv_two_eq_zero hzero, hzero, Nat.zero_mul, Nat.zero_div, Nat.zero_mul]
  · have hzero := eq_zero_of_neg (Int.not_le.mp hwidth) h
    rw [sdiv_two_eq_zero hzero, hzero, Nat.mul_zero, Nat.zero_div, Nat.mul_zero]

theorem length_half (b : Bmp) : b.half.length = halfSize b := by
  rw [Bmp.half, length_cutInHalf, halfSize]

theorem length_bootEntryTexture2D (h : b.Sized) :
    (bootEntryTexture .bootManager2D base b).length = halfSize b := by
  simp only [bootEntryTexture, length_combineWithTransparency, h.halves]

theorem length_bootEntryTexture3D :
    (bootEntryTexture .bootManager3D base b).length =
      (uintnOfInt32 b.width).toNat * (uintnOfInt32 b.height).toNat := by
  simp only [bootEntryTexture, length_combineWithTransparency]

theorem combineInside_of_le (hf : width * height ≤ foreground.length)
    (hb : width * height ≤ background.length) : CombineInside foreground background width height :=
  fun _ hi => ⟨lt_of_lt_of_le hi hf, fun _ => lt_of_lt_of_le hi hb⟩

theorem CombineInside.le (h : CombineInside foreground background width height) :
    width * height ≤ foreground.length := by
  by_contra hlt
  rw [Nat.not_le] at hlt
  exact absurd (h foreground.length hlt).1 (lt_irrefl _)

theorem combineInside_icon_iff (h : b.Sized) :
    CombineInside base b.half (uintnOfInt32 (b.width.sdiv 2)).toNat
        (uintnOfInt32 (b.height.sdiv 2)).toNat ↔
      halfSize b ≤ base.length := by
  rw [← h.halves]
  constructor
  · intro hinside
    exact hinside.le
  · intro hle
    apply combineInside_of_le hle
    rw [h.halves, length_half]

end Sizes

section Startup

variable {H : Type} {env : StartupEnv H} {ComesBack : Bmp → Prop} [DecidablePred ComesBack]
  {keep : Bmp → Image} {passes : List (Str16 × ℕ)} {images : List Image}

namespace StartupEnv

theorem checkError_eq_value {status : EFI_STATUS} {u : Unit} :
    (checkError status).outcome = .value u ↔ efiError status = false := by
  unfold checkError
  cases efiError status with
  | true => simp [Checked.stop]
  | false => simp [Checked.outcome_pure]

theorem loadTextures_eq_value
    (h : (env.loadTextures ComesBack keep passes).outcome = .value images) :
    images = passes.map (fun p => keep (env.readTexture p).2) ∧
      ∀ p ∈ passes, efiError (env.readTexture p).1 = false := by
  induction passes generalizing images with
  | nil =>
    rw [loadTextures, Checked.outcome_pure, Checked.Outcome.value.injEq] at h
    exact ⟨h.symm, List.forall_mem_nil _⟩
  | cons p passes ih =>
    simp only [loadTextures, Checked.outcome_bind_eq_value, checkError_eq_value] at h
    obtain ⟨-, -, -, hp, h⟩ := h
    split_ifs at h with hback
    · simp only [Checked.outcome_bind_eq_value, Checked.outcome_pure,
        Checked.Outcome.value.injEq] at h
      obtain ⟨rest, hrest, rfl⟩ := h
      obtain ⟨rfl, htail⟩ := ih hrest
      exact ⟨rfl, List.forall_mem_cons.mpr ⟨hp, htail⟩⟩
    · cases h

theorem loadSprite_eq_value {sprite : Image} (h : env.loadSprite.outcome = .value sprite) :
    sprite.length = spriteSize (readFile env.fs (some spriteName) env.spriteData).2 := by
  rw [loadSprite, Checked.outcome_bind_eq_value] at h
  obtain ⟨-, -, h⟩ := h
  generalize hread : readFile env.fs (some spriteName) env.spriteData = r at h
  cases hfind : (r.2.bytes ++ r.2.beyond).findIdx? fun c => c = newline with
  | none =>
    simp only [parseSprite, hread, hfind, Option.map_none] at h
    cases h
  | some width =>
    simp only [parseSprite, hread, hfind, Option.map_some, Checked.outcome_bind_eq_value,
      Checked.outcome_pure, Checked.Outcome.value.injEq] at h
    obtain ⟨-, -, rfl⟩ := h
    simp only [spriteSize, hfind, length_spritePixels]

theorem uefiMain_eq_value {args : GameArgs} (h : env.uefiMain.outcome = .value args) :
    args.maze = env.mazeResult.2 ∧
    args.textures = env.texturePasses.map (fun p => (env.readTexture p).2.half) ∧
      args.bootEntries = (env.configResult configName).result ∧
      args.sprite.length = spriteSize (readFile env.fs (some spriteName) env.spriteData).2 := by
  simp only [uefiMain, Checked.outcome_bind_eq_value, Checked.outcome_pure,
    Checked.Outcome.value.injEq] at h
  obtain ⟨-, -, -, -, -, -, -, -, -, -, -, -, images, himages, sprite, hsprite, rfl⟩ := h
  exact ⟨rfl, (loadTextures_eq_value himages).1, rfl, loadSprite_eq_value hsprite⟩

theorem uefiMain3D_eq_value {args : GameArgs3D} (h : env.uefiMain3D.outcome = .value args) :
    args.textures = env.texturePasses.map (fun p => (env.readTexture p).2.pixels) ∧
      args.bootEntries = (env.configResult configName3D).result ∧
      ∀ p ∈ env.texturePasses, efiError (env.readTexture p).1 = false := by
  simp only [uefiMain3D, Checked.outcome_bind_eq_value, Checked.outcome_pure,
    Checked.Outcome.value.injEq] at h
  obtain ⟨-, -, -, -, -, -, -, -, -, -, -, -, images, himages, rfl⟩ := h
  obtain ⟨himages, hread⟩ := loadTextures_eq_value himages
  exact ⟨himages, rfl, hread⟩

end StartupEnv

end Startup

section Hold

variable {H : Type} {env : StartupEnv H} {penv : PlaceEnv} {l : Level} {s : PlaceState}

theorem exists_texturePass {c : ℕ × ℕ} {i : ℕ} {texture : Str16 × ℕ → Image}
    (htextures : l.textures = env.texturePasses.map texture) (hd : l.door penv i = some c) :
    ∃ p, env.texturePasses[(l.map.cell c.1 c.2).toNat]? = some p ∧ l.shown c = texture p := by
  have hcell := (mem_escapeCells.mp (Level.mem_escapes_of_door hd)).2.2
  rw [BitVec.lt_def, l.toNat_texturesCount, htextures, List.length_map] at hcell
  refine ⟨_, List.getElem?_eq_getElem hcell, ?_⟩
  rw [Level.shown, htextures, List.getElem?_map, List.getElem?_eq_getElem hcell]
  rfl

theorem Reaches2D.hold_iff {args : GameArgs} (h : Reaches2D env penv l args s) :
    BuffersHold2D penv l args s ↔ FilesSuffice2D env penv l := by
  obtain ⟨-, htextures, hentries, hsprite⟩ := StartupEnv.uefiMain_eq_value h.game
  obtain ⟨-, hicons, hp⟩ := placed_of_placeBootEntries h.placed
  have hloaded := h.textures.trans htextures
  have hall := fun P => hp.forall_mem_textures (P := P)
  rw [h.manager, hloaded] at hall
  rw [hentries] at hicons
  simp only [hentries] at hall
  constructor
  · rintro ⟨hsizes, hspriteSize, hinside, -⟩
    obtain ⟨hold, hnew⟩ := (hall _).mp hsizes
    rw [List.forall_mem_map] at hold
    simp only [hentries] at hinside
    constructor
    · intro p hp
      rw [← length_half]
      exact hold p hp
    · rwa [← hsprite]
    · intro i e c p he hd hp
      have hsized := hicons i e c he hd
      have hsize := hnew i e c he hd
      have hle := (combineInside_icon_iff hsized).mp (hinside i e c he hd)
      obtain ⟨p', hp', hshown⟩ := exists_texturePass hloaded hd
      obtain rfl : p' = p := Option.some.inj (hp'.symm.trans hp)
      rw [length_bootEntryTexture2D hsized] at hsize
      rw [hshown, length_half] at hle
      exact ⟨hsize, hle⟩
  · rintro ⟨hfiles, hspriteFile, hiconFiles⟩
    have hsizes : ∀ t ∈ s.textures, 32 * 32 ≤ t.length := by
      rw [hall, List.forall_mem_map]
      constructor
      · intro p hp
        rw [length_half]
        exact hfiles p hp
      · intro i e c he hd
        obtain ⟨p, hp, -⟩ := exists_texturePass hloaded hd
        rw [length_bootEntryTexture2D (hicons i e c he hd)]
        exact (hiconFiles i e c p he hd hp).1
    rw [← hsprite] at hspriteFile
    refine ⟨hsizes, hspriteFile, ?_, fun t ht => combineInside_of_le hspriteFile (hsizes t ht)⟩
    simp only [hentries]
    intro i e c he hd
    obtain ⟨p, hp, hshown⟩ := exists_texturePass hloaded hd
    rw [combineInside_icon_iff (hicons i e c he hd), hshown, length_half]
    exact (hiconFiles i e c p he hd hp).2

theorem Reaches3D.hold_iff {args : GameArgs3D} (h : Reaches3D env penv l args s) :
    (∀ t ∈ s.textures, 64 * 64 ≤ t.length) ↔ FilesSuffice3D env penv l := by
  obtain ⟨htextures, hentries, hread⟩ := StartupEnv.uefiMain3D_eq_value h.game
  obtain ⟨-, -, hp⟩ := placed_of_placeBootEntries h.placed
  have hloaded := h.textures.trans htextures
  have hsize : ∀ p ∈ env.texturePasses, (env.readTexture p).2.pixels.length =
      allocatedPixels (env.readTexture p).2.width (env.readTexture p).2.height :=
    fun p hp => length_pixels_readBMP (hread p hp)
  rw [hp.forall_mem_textures, h.manager, hloaded, List.forall_mem_map]
  simp only [hentries, length_bootEntryTexture3D]
  constructor
  · rintro ⟨hold, hnew⟩
    exact ⟨fun p hp => hsize p hp ▸ hold p hp, hnew⟩
  · rintro ⟨hold, hnew⟩
    exact ⟨fun p hp => (hsize p hp).symm ▸ hold p hp, hnew⟩

/-- The buffers are as large as the renderers assume exactly if the files are. -/
theorem buffersHold_iff (env : StartupEnv H) (penv : PlaceEnv) (l : Level) (s : PlaceState) :
    (∀ args, Reaches2D env penv l args s →
      (BuffersHold2D penv l args s ↔ FilesSuffice2D env penv l)) ∧
    ∀ args, Reaches3D env penv l args s →
      ((∀ t ∈ s.textures, 64 * 64 ≤ t.length) ↔ FilesSuffice3D env penv l) :=
  ⟨fun _ h => h.hold_iff, fun _ h => h.hold_iff⟩

end Hold

/-- An empty corridor, and one texture and a sprite of one pixel each. -/
def onePixelFs : FileSystem := fun name =>
  if name = mazeName then
    FileIo.ofBytes (List.replicate 18 [48, space, 48, newline]).flatten [] (by decide)
  else if name = texturesName then FileIo.ofBytes [65, newline] [] (by decide)
  else if name = [65] then (sampleEnv fun _ => 0).fs name
  else noMazeFs name

def onePixelEnv : StartupEnv Unit := { noMazeEnv with fs := onePixelFs }

def onePixelPlaceEnv : PlaceEnv := { sampleEnv (fun _ => 0) with fs := onePixelFs }

/-- Half of one pixel is none. -/
def onePixelLevel : Level where
  map := smallestMap
  textures := [[]]
  fits := by decide

def onePixelArgs : GameArgs :=
  ⟨⟨⟨List.replicate 36 0, 2, 18⟩, [[]], (onePixelEnv.configResult configName).result⟩,
    [⟨0, 0, 0, 0xff⟩]⟩

theorem reaches2D_onePixel : ∃ s,
    Reaches2D onePixelEnv onePixelPlaceEnv onePixelLevel onePixelArgs s ∧ [] ∈ s.textures := by
  have hgame : onePixelEnv.uefiMain.outcome = .value onePixelArgs := by decide +kernel
  have hlen : onePixelArgs.bootEntries.length ≤ 12 := by decide +kernel
  have hsized : onePixelLevel.IconsSized onePixelPlaceEnv onePixelArgs.bootEntries :=
    Level.iconsSized_of_escapes_eq_nil (by decide)
  obtain ⟨s, hs, hp⟩ := exists_placed hlen hsized
  exact ⟨s, ⟨hgame, rfl, rfl, rfl, hs⟩, List.mem_of_getElem? (hp.kept 0 (by decide))⟩

theorem buffersHold_iff_onePixel : ∃ s,
    Reaches2D onePixelEnv onePixelPlaceEnv onePixelLevel onePixelArgs s ∧
    (BuffersHold2D onePixelPlaceEnv onePixelLevel onePixelArgs s ↔
      FilesSuffice2D onePixelEnv onePixelPlaceEnv onePixelLevel) := by
  obtain ⟨s, h, -⟩ := reaches2D_onePixel
  exact ⟨s, h, (buffersHold_iff onePixelEnv onePixelPlaceEnv onePixelLevel s).1 onePixelArgs h⟩

/-- `Game` is called with a texture of no pixels, and draws it as a square of 32. -/
theorem not_buffersHold_onePixel :
    ¬ ∀ (env : StartupEnv Unit) (penv : PlaceEnv) (l : Level) (args : GameArgs) (s : PlaceState),
      Reaches2D env penv l args s → BuffersHold2D penv l args s := by
  intro h
  obtain ⟨s, hr, hmem⟩ := reaches2D_onePixel
  have hlen := (h _ _ _ _ s hr).textures [] hmem
  cases hlen

end UefiGame
