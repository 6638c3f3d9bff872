import UefiGame.Config.Boot
import UefiGame.Graphics.Image
import UefiGame.Library.Lines

/-! # The sprite parser

`ParseSprite` takes the offset of the first newline as the width and the number
of whole lines of that width as the height. It runs along the memory for that
newline, whatever the status and the length of the file are.
-/

namespace UefiGame

/-- The out-parameters `*Pixels`, `*Width` and `*Height`. -/
structure Sprite where
  pixels : Image
  width : ℕ
  height : ℕ
  deriving DecidableEq, Repr

/-- An opaque colour. -/
def spriteColour (red green blue : UINT8) : Pixel := ⟨blue, green, red, 0xff⟩

/-- The switch on one byte; the default case leaves the zeroed pixel. -/
def spritePixel (c : CHAR8) : Pixel :=
  match Char.ofNat c.toNat with
  | 'k' => spriteColour 0 0 0
  | 'b' => spriteColour 47 54 153
  | 'l' => spriteColour 77 109 243
  | 'y' => spriteColour 255 242 0
  | 'g' => spriteColour 255 194 14
  | 'r' => spriteColour 180 180 180
  | 'w' => spriteColour 255 255 255
  | 'p' => spriteColour 255 205 148
  | 's' => spriteColour 255 224 189
  | 'n' => spriteColour 156 90 60
  | 'd' => spriteColour 107 37 7
  | _ => Pixel.zero

/-- The loops over the columns and, in each, over the rows. -/
def spritePixels (spriteData : ℕ → CHAR8) (width height : ℕ) : Image :=
  WriteLoop.writeAll (fun p => p.2 * width + p.1)
    (fun p => spritePixel (spriteData (p.2 * (width + 1) + p.1)))
    (Grid.columns width height) (zeroPixels (width * height))

/-- `ParseSprite`; `none` if no newline is found in the memory the pointer reaches. After a failed
`ReadFile`, which is not noticed before the end, the pointer and the size are `garbage`. -/
def parseSprite (fs : FileSystem) (filename : Str16) (garbage : FileBuffer) :
    Option (EFI_STATUS × Sprite) :=
  let r := readFile fs filename garbage
  ((r.2.bytes ++ r.2.beyond).findIdx? fun c => c = newline).map fun width =>
    let height := r.2.bytes.length / (width + 1)
    (r.1, ⟨spritePixels r.2.memory width height, width, height⟩)

/-- A sprite file: its rows, each ended by a newline. -/
def spriteText (rows : List (List CHAR8)) : List CHAR8 := rows.flatMap (· ++ [newline])

section Pixels

variable {spriteData : ℕ → CHAR8} {width height x y : ℕ}

@[simp] theorem length_spritePixels :
    (spritePixels spriteData width height).length = width * height := by
  rw [spritePixels, WriteLoop.length_writeAll, zeroPixels, List.length_replicate]

theorem getElem?_spritePixels (hx : x < width) (hy : y < height) :
    (spritePixels spriteData width height)[Grid.rowMajor width x y]? =
      some (spritePixel (spriteData (y * (width + 1) + x))) := by
  have hnodup : ((Grid.columns width height).map fun p => p.2 * width + p.1).Nodup := by
    apply List.Nodup.map_on
    · rintro ⟨i, j⟩ hp ⟨i', j'⟩ hq he
      obtain ⟨hi, hj⟩ :=
        (Grid.rowMajor_inj (Grid.mem_columns.mp hp).1 (Grid.mem_columns.mp hq).1).mp he
      exact Prod.ext hi hj
    · exact Grid.nodup_columns width height
  have hlt : y * width + x < (zeroPixels (width * height)).length := by
    rw [zeroPixels, List.length_replicate]
    exact Grid.rowMajor_lt hx hy
  exact WriteLoop.getElem?_writeAll_of_mem (i := (x, y)) _ _ hnodup
    (Grid.mem_columns.mpr ⟨hx, hy⟩) hlt

end Pixels

section Lines

variable {row rest : List CHAR8} {rows : List (List CHAR8)} {w width : ℕ}

theorem length_spriteText (hrows : ∀ row ∈ rows, row.length = w) :
    (spriteText rows).length = (w + 1) * rows.length := Grid.length_lines hrows newline

theorem getElem?_spriteText (hrows : ∀ row ∈ rows, row.length = w) {x y : ℕ}
    (hrow : rows[y]? = some row) (hx : x < w) :
    (spriteText rows)[y * (w + 1) + x]? = row[x]? := Grid.getElem?_lines hrows newline hrow hx

theorem findIdx?_spriteText (hrows : ∀ row ∈ rows, row.length = w)
    (hnl : ∀ row ∈ rows, newline ∉ row) (hne : rows ≠ []) :
    (spriteText rows ++ rest).findIdx? (fun c => c = newline) = some w := by
  obtain ⟨row, rows, rfl⟩ := List.exists_cons_of_ne_nil hne
  rw [List.forall_mem_cons] at hrows hnl
  have htext : spriteText (row :: rows) ++ rest = row ++ newline :: (spriteText rows ++ rest) := by
    simp [spriteText]
  rw [htext, Lines.findIdx?_append_cons hnl.1, hrows.1]

theorem parseSprite_spriteText (hrows : ∀ row ∈ rows, row.length = w)
    (hnl : ∀ row ∈ rows, newline ∉ row) (hne : rows ≠ []) {fs : FileSystem}
    {filename : List CHAR16} (hread : Reads fs filename (spriteText rows)) (garbage : FileBuffer) :
    ∃ pixels, parseSprite fs (some filename) garbage =
        some ((fs filename).read, ⟨pixels, w, rows.length⟩) ∧
      pixels.length = w * rows.length ∧
      ∀ x y row, rows[y]? = some row → x < w →
        pixels[Grid.rowMajor w x y]? = row[x]?.map spritePixel := by
  have hheight : (spriteText rows).length / (w + 1) = rows.length := by
    rw [length_spriteText hrows, Nat.mul_div_cancel_left _ (Nat.succ_pos w)]
  refine ⟨spritePixels (fs filename).buffer.memory w rows.length, ?_, length_spritePixels, ?_⟩
  · simp only [parseSprite, hread.readFile_eq, hread.bytes_eq, findIdx?_spriteText hrows hnl hne,
      hheight, Option.map_some]
  · intro x y row hrow hx
    obtain ⟨hy, -⟩ := List.getElem?_eq_some_iff.mp hrow
    have hxrow : x < row.length := by rwa [hrows row (List.mem_of_getElem? hrow)]
    have hbyte : (spriteText rows ++ (fs filename).buffer.beyond)[y * (w + 1) + x]? =
        some row[x] := by
      have hfile := getElem?_spriteText hrows hrow hx
      rw [List.getElem?_eq_getElem hxrow] at hfile
      obtain ⟨hlt, -⟩ := List.getElem?_eq_some_iff.mp hfile
      rw [List.getElem?_append_left hlt, hfile]
    rw [getElem?_spritePixels hx hy, FileBuffer.memory, hread.bytes_eq, hbyte,
      List.getElem?_eq_getElem hxrow]
    rfl

end Lines

end UefiGame
