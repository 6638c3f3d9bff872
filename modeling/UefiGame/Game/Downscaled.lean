import UefiGame.Game.Doors

/-! # The door textures of the two programs

The two-dimensional program halves every texture and every icon it reads, the
three-dimensional one keeps both as they are. Halving commutes with composing,
so pass by pass the doors of the one are the halved doors of the other.
-/

namespace UefiGame

/-- The textures halved, as the two-dimensional program keeps them. -/
def halves (width height : ℕ) (textures : List Image) : List Image :=
  textures.map fun t => cutInHalf t width height

/-- The same map with halved textures. -/
def PlaceState.halved (width height : ℕ) (s : PlaceState) : PlaceState :=
  { s with textures := halves width height s.textures }

/-- The same level with halved textures. -/
def Level.halved (width height : ℕ) (l : Level) : Level where
  toPlaceState := l.toPlaceState.halved width height
  fits := by
    have hfits := l.fits
    simpa [PlaceState.halved, halves] using hfits

/-- The given environment in one of the two programs. -/
def PlaceEnv.as (env : PlaceEnv) (manager : BootManager) : PlaceEnv :=
  { env with manager := manager }

/-- The bitmap has the given dimensions. -/
def Bmp.Measures (b : Bmp) (width height : ℕ) : Prop :=
  b.width.toInt = width ∧ b.height.toInt = height

section Halves

variable {env : PlaceEnv} {width height i n r : ℕ} {e : BootEntry} {icon : Bmp} {bs : UINTN}
  {s : PlaceState} {textures : List Image}

/-- Halving the block of a picture that was not loaded gives the same pixels as that picture. -/
theorem at_cutInHalf_nil (k : ℕ) : (cutInHalf [] width height).at k = Image.at [] k := by
  have hzero : ∀ n (ps : List (ℕ × ℕ)), WriteLoop.writeAll
      (fun p : ℕ × ℕ => p.1 / 2 * (width / 2) + p.2 / 2)
      (fun p => Image.at [] (p.1 * width + p.2)) ps (zeroPixels n) = zeroPixels n := by
    intro n ps
    induction ps with
    | nil => rfl
    | cons p ps ih =>
      rw [WriteLoop.writeAll_cons]
      simpa [zeroPixels, Image.at, List.set_replicate_self] using ih
  rw [cutInHalf, hzero]
  simp only [Image.at, zeroPixels, List.getElem?_nil, List.getElem?_replicate]
  split_ifs <;> rfl

theorem at_halves (k j : ℕ) :
    Image.at ((halves width height textures)[j]?.getD []) k =
      (cutInHalf (textures[j]?.getD []) width height).at k := by
  rw [halves, List.getElem?_map]
  cases textures[j]? with
  | none => exact (at_cutInHalf_nil k).symm
  | some t => rfl

theorem combineWithTransparency_congr {foreground foreground' background : Image}
    (h : ∀ k, foreground.at k = foreground'.at k) :
    combineWithTransparency foreground background width height =
      combineWithTransparency foreground' background width height := by
  simp only [combineWithTransparency, combinedPixel, h]

theorem bootEntryTexture_halves (hw : Even width) (hicon : icon.Measures width height)
    (textures : List Image) (j : ℕ) :
    bootEntryTexture .bootManager2D ((halves width height textures)[j]?.getD []) icon =
      cutInHalf (bootEntryTexture .bootManager3D (textures[j]?.getD []) icon) width height := by
  obtain ⟨hwidth, hheight⟩ := hicon
  have hnonneg : 0 ≤ icon.width.toInt ∧ 0 ≤ icon.height.toInt := by omega
  have htw : (uintnOfInt32 icon.width).toNat = width := by
    rw [toNat_uintnOfInt32 hnonneg.1, hwidth, Int.toNat_natCast]
  have hth : (uintnOfInt32 icon.height).toNat = height := by
    rw [toNat_uintnOfInt32 hnonneg.2, hheight, Int.toNat_natCast]
  simp only [bootEntryTexture, toNat_sdiv_two hnonneg.1, toNat_sdiv_two hnonneg.2, htw, hth]
  rw [cutInHalf_combine hw, combineWithTransparency_congr (fun k => at_halves k j)]

theorem makeBootEntryTexture_halves (hw : Even width)
    (hicon : (readBMP env.fs e.icon (env.stack i)).2.Measures width height) (cell : UINTN)
    (textures : List Image) :
    makeBootEntryTexture (env.as .bootManager2D) i e cell (halves width height textures) =
      (makeBootEntryTexture (env.as .bootManager3D) i e cell textures).map
        (Prod.map id (halves width height)) := by
  have hdoor := bootEntryTexture_halves hw hicon textures cell.toNat
  by_cases hsized : (readBMP env.fs e.icon (env.stack i)).2.Sized
  · have h2D : makeBootEntryTexture (env.as .bootManager2D) i e cell
        (halves width height textures) =
        some (_, addElement _ (bootEntryTexture .bootManager2D _ _)) := if_pos hsized
    have h3D : makeBootEntryTexture (env.as .bootManager3D) i e cell textures =
        some (_, addElement _ (bootEntryTexture .bootManager3D _ _)) := if_pos hsized
    rw [h2D, h3D]
    simp only [PlaceEnv.as, hdoor, addElement, Option.map_some, Prod.map, id]
    rw [halves, halves, List.map_append, List.map_singleton]
  · have h2D : makeBootEntryTexture (env.as .bootManager2D) i e cell
        (halves width height textures) =
        none := if_neg hsized
    have h3D : makeBootEntryTexture (env.as .bootManager3D) i e cell textures = none :=
      if_neg hsized
    rw [h2D, h3D, Option.map_none]

theorem texturesCount_halved (width height : ℕ) (s : PlaceState) :
    (s.halved width height).texturesCount = s.texturesCount := by
  simp only [PlaceState.texturesCount, PlaceState.halved, halves, List.length_map]

theorem openDoor_halved (hw : Even width)
    (hicon : (readBMP env.fs e.icon (env.stack i)).2.Measures width height) (s : PlaceState)
    (c : ℕ × ℕ) :
    openDoor (env.as .bootManager2D) i e (s.halved width height) c =
      (openDoor (env.as .bootManager3D) i e s c).map (PlaceState.halved width height) := by
  simp only [openDoor, texturesCount_halved]
  simp only [PlaceState.halved, makeBootEntryTexture_halves hw hicon, Option.map_map]
  rfl

theorem placeCell_halved (hw : Even width)
    (hicon : (readBMP env.fs e.icon (env.stack i)).2.Measures width height) (p : PlaceState × ℕ)
    (c : ℕ × ℕ) :
    placeCell (env.as .bootManager2D) i e bs r (p.map (PlaceState.halved width height) id) c =
      (placeCell (env.as .bootManager3D) i e bs r p c).map
        (Prod.map (PlaceState.halved width height) id) := by
  have hmap : (p.1.halved width height).map = p.1.map := rfl
  simp only [placeCell, Prod.map, hmap, openDoor_halved hw hicon, id]
  split_ifs
  · simp only [Option.map_map]
    rfl
  · rfl
  · rfl

theorem foldlM_map {α β κ : Type} {f : β → κ → Option β} {g : α → κ → Option α} (φ : α → β)
    {ks : List κ} (h : ∀ k ∈ ks, ∀ a, f (φ a) k = (g a k).map φ) (a : α) :
    ks.foldlM f (φ a) = (ks.foldlM g a).map φ := by
  induction ks generalizing a with
  | nil => rfl
  | cons k ks ih =>
    rw [List.forall_mem_cons] at h
    rw [List.foldlM_cons, List.foldlM_cons, h.1]
    cases g a k with
    | none => rfl
    | some a' => exact ih h.2 a'

theorem placeBootEntry_halved (hw : Even width)
    (hicon : (readBMP env.fs e.icon (env.stack i)).2.Measures width height) (s : PlaceState) :
    placeBootEntry (env.as .bootManager2D) bs (s.halved width height) (e, i) =
      (placeBootEntry (env.as .bootManager3D) bs s (e, i)).map
        (PlaceState.halved width height) := by
  have hmap : (s.halved width height).map = s.map := rfl
  have hrand : randIndex (env.as .bootManager2D) i = randIndex (env.as .bootManager3D) i := rfl
  simp only [placeBootEntry, hmap, hrand]
  split_ifs
  · rfl
  · -- the scan of the pass, its counter starting at zero in both programs
    have hscan : (Grid.columns s.map.width.toNat s.map.height.toNat).foldlM
        (placeCell (env.as .bootManager2D) i e bs (randIndex (env.as .bootManager3D) i).toNat)
        (s.halved width height, 0) = Option.map (Prod.map (PlaceState.halved width height) id) _ :=
      foldlM_map _ (fun c _ p => placeCell_halved hw hicon p c) (s, 0)
    rw [hscan, Option.map_map, Option.map_map]
    rfl

end Halves

/-- The two programs show the same picture: halving commutes with compositing, and on the same files
and random numbers they place the same doors, the textures of one being the halves of those of the
other. -/
theorem samePicture (width height : ℕ) (hw : Even width) (_hh : Even height) :
    (∀ base icon : Image,
      cutInHalf (combineWithTransparency base icon width height) width height =
        combineWithTransparency (cutInHalf base width height) (cutInHalf icon width height)
          (width / 2) (height / 2)) ∧
    ∀ (env : PlaceEnv) (l : Level) (es : List BootEntry),
      (∀ p ∈ es.zipIdx,
        (readBMP env.fs p.1.icon (env.stack p.2)).2.Measures width height) →
      placeBootEntries (env.as .bootManager2D) (l.halved width height) es =
        (placeBootEntries (env.as .bootManager3D) l es).map (PlaceState.halved width height) := by
  constructor
  · intro base icon
    exact cutInHalf_combine hw base icon height
  · intro env l es hicons
    have hcount : (l.halved width height).texturesCount = l.texturesCount :=
      texturesCount_halved width height l.toPlaceState
    rw [placeBootEntries, placeBootEntries, hcount]
    exact foldlM_map (PlaceState.halved width height)
      (fun p hp s => placeBootEntry_halved hw (hicons p hp) s) l.toPlaceState

/-- Every icon is two by two pixels. -/
def evenIconEnv : PlaceEnv where
  manager := .bootManager2D
  fs := fun _ => FileIo.ofBytes (encodeBmp (bmpFields 2 2 0) [] samplePixels 2 2) []
    (by decide +kernel)
  rand := fun _ => 3
  stack := fun _ => ⟨0, 0, []⟩

theorem samePicture_evenIcon :
    (∀ base icon : Image, cutInHalf (combineWithTransparency base icon 2 2) 2 2 =
      combineWithTransparency (cutInHalf base 2 2) (cutInHalf icon 2 2) (2 / 2) (2 / 2)) ∧
    placeBootEntries (evenIconEnv.as .bootManager2D) (manyEscapes.halved 2 2) [sampleEntry] =
      (placeBootEntries (evenIconEnv.as .bootManager3D) manyEscapes [sampleEntry]).map
        (PlaceState.halved 2 2) := by
  obtain ⟨hcombine, hplace⟩ := samePicture 2 2 (by decide) (by decide)
  refine ⟨hcombine, hplace evenIconEnv manyEscapes [sampleEntry] ?_⟩
  rw [List.zipIdx_singleton, List.forall_mem_singleton]
  exact ⟨by decide +kernel, by decide +kernel⟩

end UefiGame
