import UefiGame.Config.Sprite

/-! # The palette of the sprites

Eleven letters of a sprite file name opaque colours and every other character
is transparent. Laid over a cell, a sprite lets the cell show exactly at its
transparent characters.
-/

namespace UefiGame

/-- The letters of the palette with their red, green and blue. -/
def palette : List (Char × UINT8 × UINT8 × UINT8) :=
  [('k', 0, 0, 0), ('b', 47, 54, 153), ('l', 77, 109, 243), ('y', 255, 242, 0), ('g', 255, 194, 14),
    ('r', 180, 180, 180), ('w', 255, 255, 255), ('p', 255, 205, 148), ('s', 255, 224, 189),
    ('n', 156, 90, 60), ('d', 107, 37, 7)]

/-- The colour a palette letter names. -/
def paletteColour (c : CHAR8) : Option Pixel :=
  (palette.find? fun e => e.1.toNat = c.toNat).map fun e => ⟨e.2.2.2, e.2.2.1, e.2.1, 0xff⟩

theorem spritePixel_eq (c : CHAR8) : spritePixel c = (paletteColour c).getD Pixel.zero := by
  revert c
  decide +kernel

theorem reserved_of_paletteColour {c : CHAR8} {colour : Pixel} (h : paletteColour c = some colour) :
    colour.reserved = 0xff := by
  unfold paletteColour at h
  obtain ⟨e, -, rfl⟩ := Option.map_eq_some_iff.mp h
  rfl

theorem combinedPixel_spritePixel {sprite cell : Image} {i : ℕ} {c : CHAR8}
    (hsprite : sprite[i]? = some (spritePixel c)) :
    combinedPixel sprite cell i = (paletteColour c).getD (cell.at i) := by
  unfold combinedPixel Image.at
  rw [hsprite, Option.getD_some, spritePixel_eq]
  cases hc : paletteColour c with
  | none => exact if_pos (by decide)
  | some colour => exact if_neg (not_not.mpr (reserved_of_paletteColour hc))

section Decode

variable {rows : List (List CHAR8)} {w : ℕ}

/-- The pixels of a sprite are those its text names, and a cell shows through the others. -/
structure Decodes (rows : List (List CHAR8)) (w : ℕ) (pixels : Image) : Prop where
  length_eq : pixels.length = w * rows.length
  pixel : ∀ x y row c, rows[y]? = some row → row[x]? = some c →
    pixels[y * w + x]? = some ((paletteColour c).getD Pixel.zero)
  reserved_iff : ∀ x y row c, rows[y]? = some row → row[x]? = some c →
    ((pixels.at (y * w + x)).reserved = 0xff ↔ paletteColour c ≠ none)
  shown : ∀ cell : Image, cell.length = w * rows.length → ∀ x y row c,
    rows[y]? = some row → row[x]? = some c →
      (combineWithTransparency pixels cell w rows.length)[y * w + x]? =
        match paletteColour c with
        | some colour => some colour
        | none => cell[y * w + x]?

theorem Decodes.of_pixel {pixels : Image} (hrows : ∀ row ∈ rows, row.length = w)
    (hlength : pixels.length = w * rows.length)
    (hpixel : ∀ x y row, rows[y]? = some row → x < w →
      pixels[Grid.rowMajor w x y]? = row[x]?.map spritePixel) : Decodes rows w pixels := by
  have hat : ∀ x y row c, rows[y]? = some row → row[x]? = some c →
      y * w + x < w * rows.length ∧ pixels[y * w + x]? = some (spritePixel c) := by
    intro x y row c hrow hc
    obtain ⟨hy, -⟩ := List.getElem?_eq_some_iff.mp hrow
    obtain ⟨hx, -⟩ := List.getElem?_eq_some_iff.mp hc
    rw [hrows row (List.mem_of_getElem? hrow)] at hx
    refine ⟨Grid.rowMajor_lt hx hy, ?_⟩
    rw [← Grid.rowMajor, hpixel x y row hrow hx, hc, Option.map_some]
  constructor
  · exact hlength
  · intro x y row c hrow hc
    rw [(hat x y row c hrow hc).2, spritePixel_eq]
  · intro x y row c hrow hc
    unfold Image.at
    rw [(hat x y row c hrow hc).2, Option.getD_some, spritePixel_eq]
    cases hcolour : paletteColour c with
    | none => simp [Pixel.zero]
    | some colour => simp [reserved_of_paletteColour hcolour]
  · intro cell hcell x y row c hrow hc
    obtain ⟨hlt, hsprite⟩ := hat x y row c hrow hc
    rw [getElem?_combineWithTransparency hlt, combinedPixel_spritePixel hsprite]
    cases paletteColour c with
    | none =>
      rw [Option.getD_none, Image.at, List.getElem?_eq_getElem (hcell ▸ hlt), Option.getD_some]
    | some colour => rfl

/-- A sprite file is decoded to its width, its height and the colours of its letters. -/
theorem parseSprite_decodes (hrows : ∀ row ∈ rows, row.length = w)
    (hnl : ∀ row ∈ rows, newline ∉ row) (hne : 1 ≤ rows.length) {fs : FileSystem}
    {filename : List CHAR16} (hread : Reads fs filename (spriteText rows)) (garbage : FileBuffer) :
    ∃ pixels, parseSprite fs (some filename) garbage =
        some ((fs filename).read, ⟨pixels, w, rows.length⟩) ∧
      Decodes rows w pixels := by
  obtain ⟨pixels, hparse, hlength, hpixel⟩ :=
    parseSprite_spriteText hrows hnl (List.length_pos_iff.mp hne) hread garbage
  exact ⟨pixels, hparse, Decodes.of_pixel hrows hlength hpixel⟩

end Decode

/-- The file system with one file, a sprite of a dot and a letter. -/
def dotSprite : FileSystem := fun _ => FileIo.ofBytes (spriteText [[0x2e, 0x6b]]) [] (by decide)

theorem dotSprite_reads : Reads dotSprite [] (spriteText [[0x2e, 0x6b]]) := Reads.ofBytes

theorem parseSprite_decodes_dotSprite : ∃ pixels,
    parseSprite dotSprite (some []) ⟨[], []⟩ = some (EFI_SUCCESS, ⟨pixels, 2, 1⟩) ∧
      Decodes [[0x2e, 0x6b]] 2 pixels :=
  parseSprite_decodes (by decide) (by decide) (by decide) dotSprite_reads ⟨[], []⟩

end UefiGame
