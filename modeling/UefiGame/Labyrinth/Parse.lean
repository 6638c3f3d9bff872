import UefiGame.Config.Sprite
import UefiGame.Labyrinth.Maze

/-! # Reading the labyrinth

The Maze application's `ReadFile` ends every file with a NUL in place of its
last byte. `ParseMazeFile` takes the offset of the first newline as the width
and the number of whole lines of that width as the height, whatever the lines
are; a rectangular text loses only its last newline and is parsed as it is.
-/

namespace UefiGame

/-- The index `(*size) - 1`. -/
def lastIndex (size : ℕ) : ℕ := (BitVec.ofNat 64 size - 1 : UINTN).toNat

/-- `ReadFile` of the Maze application, for a file that is there: no status is looked at, and the
store to `(*word_list)[(*size) - 1]` changes no byte of an empty file. -/
def mazeReadFile (io : FileIo) : FileBuffer where
  bytes := io.content.set (lastIndex io.content.length) 0
  beyond := io.buffer.beyond

/-- The loop that looks for the end of the first line; `none` if there is no newline in the memory
the pointer reaches. -/
def widthScan (b : FileBuffer) : Option ℕ := (b.bytes ++ b.beyond).findIdx? fun c => c = newline

/-- The switch on one byte. -/
def mazeCellOf (c : CHAR8) : MazeCell :=
  match Char.ofNat c.toNat with
  | '#' => .WALL
  | '.' => .EMPTY
  | 'o' => .START
  | 'x' => .END
  | _ => .UNKNOWN

/-- What `ParseMazeFile` leaves in `*maze`, where a cell of the new block that is never stored to is
`none`, the offsets of the data it reads and the indices it stores to. -/
structure MazeParse where
  width : ℕ
  height : ℕ
  mazeCells : List (Option MazeCell)
  reads : List ℕ
  stores : List ℕ
  deriving DecidableEq, Repr

/-- `ParseMazeFile`. -/
def parseMazeFile (b : FileBuffer) : Option MazeParse :=
  (widthScan b).map fun width =>
    let height := b.bytes.length / (width + 1)
    let passes := List.range height ×ˢ List.range width
    { width := width
      height := height
      mazeCells := WriteLoop.writeAll (fun p => p.1 * width + p.2)
        (fun p => some (mazeCellOf (b.memory (p.1 * (width + 1) + p.2)))) passes
        (List.replicate (width * height) none)
      reads := List.range (width + 1) ++ passes.map fun p => p.1 * (width + 1) + p.2
      stores := passes.map fun p => p.1 * width + p.2 }

section Scan

variable {b : FileBuffer} {width : ℕ}

theorem widthScan_eq_some (h : newline ∈ b.bytes) : ∃ width, widthScan b = some width ∧
    width < b.bytes.length ∧ b.bytes[width]? = some newline := by
  obtain ⟨seg, rest, heq, hseg⟩ := List.eq_append_cons_of_mem h
  refine ⟨seg.length, ?_, ?_, ?_⟩
  · unfold widthScan
    rw [heq, List.append_assoc, List.cons_append, Lines.findIdx?_append_cons hseg]
  · rw [heq, List.length_append, List.length_cons]
    omega
  · rw [heq, List.getElem?_append_right le_rfl, Nat.sub_self, List.getElem?_cons_zero]

theorem newline_mem_of_widthScan (h : widthScan b = some width) (hlt : width < b.bytes.length) :
    newline ∈ b.bytes := by
  obtain ⟨hw, hnewline, -⟩ := List.findIdx?_eq_some_iff_getElem.mp h
  rw [decide_eq_true_eq, List.getElem_append_left hlt] at hnewline
  exact hnewline ▸ List.getElem_mem hlt

theorem widthScan_of_parseMazeFile {r : MazeParse} (h : parseMazeFile b = some r) :
    widthScan b = some r.width := by
  obtain ⟨width, hscan, rfl⟩ := Option.map_eq_some_iff.mp h
  exact hscan

end Scan

section Cover

variable {b : FileBuffer} {r : MazeParse}

/-- A grid cut out of a block: the block is read inside it, and every cell is stored to once and
shows the byte of its row and column. -/
structure MazeParse.Covers (r : MazeParse) (b : FileBuffer) : Prop where
  height_pos : 1 ≤ r.height
  reads_lt : ∀ k ∈ r.reads, k < b.bytes.length
  stores_eq : r.stores = List.range (r.width * r.height)
  length_eq : r.mazeCells.length = r.width * r.height
  cells : ∀ i < r.height, ∀ j < r.width, ∃ c, b.bytes[i * (r.width + 1) + j]? = some c ∧
    r.mazeCells[i * r.width + j]? = some (some (mazeCellOf c))

theorem lt_of_line {size width i j : ℕ} (hi : i < size / (width + 1)) (hj : j < width) :
    i * (width + 1) + j < size :=
  lt_of_lt_of_le (Grid.rowMajor_lt (Nat.lt_succ_of_lt hj) hi) (Nat.mul_div_le size (width + 1))

/-- Any block with a newline in it is cut into a grid. -/
theorem parseMazeFile_covers (h : newline ∈ b.bytes) :
    ∃ r, parseMazeFile b = some r ∧ r.Covers b := by
  obtain ⟨width, hscan, hlt, -⟩ := widthScan_eq_some h
  refine ⟨_, by rw [parseMazeFile, hscan, Option.map_some], ?_⟩
  have hmem : ∀ p : ℕ × ℕ, p ∈ List.range (b.bytes.length / (width + 1)) ×ˢ List.range width ↔
      p.1 < b.bytes.length / (width + 1) ∧ p.2 < width := by
    simp
  constructor
  · exact Nat.div_pos hlt (Nat.succ_pos width)
  · intro k hk
    rcases List.mem_append.mp hk with hk | hk
    · exact lt_of_le_of_lt (Nat.lt_succ_iff.mp (List.mem_range.mp hk)) hlt
    · obtain ⟨p, hp, rfl⟩ := List.mem_map.mp hk
      exact lt_of_line ((hmem p).mp hp).1 ((hmem p).mp hp).2
  · exact Grid.map_rowMajor_rows _ _
  · rw [WriteLoop.length_writeAll, List.length_replicate]
  · intro i hi j hj
    have hread := lt_of_line hi hj
    refine ⟨b.bytes[i * (width + 1) + j], List.getElem?_eq_getElem hread, ?_⟩
    have hmemory : b.memory (i * (width + 1) + j) = b.bytes[i * (width + 1) + j] := by
      rw [FileBuffer.memory, List.getElem?_append_left hread, List.getElem?_eq_getElem hread,
        Option.getD_some]
    rw [← hmemory]
    apply WriteLoop.getElem?_writeAll_of_mem (i := (i, j))
    · rw [Grid.map_rowMajor_rows]
      exact List.nodup_range
    · exact (hmem (i, j)).mpr ⟨hi, hj⟩
    · rw [List.length_replicate]
      exact Grid.rowMajor_lt hj hi

end Cover

section Text

variable {rows : List (List CHAR8)} {w : ℕ} {io : FileIo}

theorem lastIndex_eq {size : ℕ} (hpos : 0 < size) (hlt : size < 2 ^ 64) :
    lastIndex size = size - 1 := by
  unfold lastIndex
  have hsize : (BitVec.ofNat 64 size : UINTN).toNat = size := by
    rw [BitVec.toNat_ofNat, Nat.mod_eq_of_lt hlt]
  have hone : (1 : UINTN) ≤ BitVec.ofNat 64 size := by
    rw [BitVec.le_def, hsize]
    exact hpos
  rw [BitVec.toNat_sub_of_le hone, hsize]
  rfl

@[simp] theorem length_mazeReadFile (io : FileIo) :
    (mazeReadFile io).bytes.length = io.content.length := List.length_set

theorem mazeReadFile_bytes (h : io.content ≠ []) :
    (mazeReadFile io).bytes = io.content.dropLast ++ [0] := by
  obtain ⟨init, c, hcontent⟩ := (List.eq_nil_or_concat io.content).resolve_left h
  have hlast : lastIndex io.content.length = init.length := by
    rw [lastIndex_eq (List.length_pos_iff.mpr h) io.length_content_lt, hcontent]
    simp
  unfold mazeReadFile
  simp only [hlast]
  rw [hcontent, List.concat_eq_append, List.dropLast_concat, List.set_append_right _ _ le_rfl,
    Nat.sub_self, List.set_cons_zero]

/-- Only the newline of the last row falls to the reader. -/
theorem widthScan_spriteText (hrows : ∀ row ∈ rows, row.length = w)
    (hnl : ∀ row ∈ rows, newline ∉ row) (hlen : 2 ≤ rows.length)
    (hcontent : io.content = spriteText rows) : widthScan (mazeReadFile io) = some w := by
  obtain ⟨row, row', rows, rfl⟩ : ∃ a b c, rows = a :: b :: c := by
    match rows, hlen with
    | a :: b :: c, _ => exact ⟨a, b, c, rfl⟩
  have htext : spriteText (row :: row' :: rows) =
      row ++ newline :: spriteText (row' :: rows) := by simp [spriteText]
  have hne : spriteText (row' :: rows) ≠ [] := by simp [spriteText]
  have hdrop : (row ++ newline :: spriteText (row' :: rows)).dropLast =
      row ++ newline :: (spriteText (row' :: rows)).dropLast := by
    rw [List.dropLast_append_of_ne_nil (List.cons_ne_nil _ _), List.dropLast_cons_of_ne_nil hne]
  unfold widthScan
  rw [mazeReadFile_bytes (by rw [hcontent, htext]; simp), hcontent, htext, hdrop,
    List.append_assoc, List.append_assoc, List.cons_append,
    Lines.findIdx?_append_cons (hnl row List.mem_cons_self), hrows row List.mem_cons_self]

theorem getElem?_mazeReadFile (hrows : ∀ row ∈ rows, row.length = w)
    (hcontent : io.content = spriteText rows) {i j : ℕ} (hi : i < rows.length) (hj : j < w) :
    (mazeReadFile io).bytes[i * (w + 1) + j]? = rows.flatten[Grid.rowMajor w j i]? := by
  have hlen : io.content.length = (w + 1) * rows.length := by rw [hcontent, length_spriteText hrows]
  have hlt : i * (w + 1) + j < io.content.length := by
    rw [hlen]
    exact Grid.rowMajor_lt (Nat.lt_succ_of_lt hj) hi
  have hlast : lastIndex io.content.length ≠ i * (w + 1) + j := by
    rw [lastIndex_eq (Nat.zero_lt_of_lt hlt) io.length_content_lt, hlen]
    -- the last byte is in column `w` of the last row
    have hcolumn : (w + 1) * rows.length - 1 = Grid.rowMajor (w + 1) w (rows.length - 1) := by
      obtain ⟨n, hn⟩ : ∃ n, rows.length = n + 1 := ⟨rows.length - 1, by omega⟩
      rw [hn, Grid.rowMajor, Nat.mul_succ, Nat.add_sub_cancel, Nat.mul_comm n]
      omega
    rw [hcolumn]
    intro he
    obtain ⟨rfl, -⟩ := (Grid.rowMajor_inj (Nat.lt_succ_self w) (Nat.lt_succ_of_lt hj)).mp he
    exact Nat.lt_irrefl _ hj
  have hrow := List.getElem?_eq_getElem hi
  unfold mazeReadFile
  rw [List.getElem?_set_ne hlast, hcontent, getElem?_spriteText hrows hrow hj,
    Grid.getElem?_flatten hrows hrow hj]

theorem parseMazeFile_spriteText (hrows : ∀ row ∈ rows, row.length = w)
    (hnl : ∀ row ∈ rows, newline ∉ row) (hlen : 2 ≤ rows.length)
    (hcontent : io.content = spriteText rows) :
    ∃ r, parseMazeFile (mazeReadFile io) = some r ∧ r.Covers (mazeReadFile io) ∧ r.width = w ∧
      r.height = rows.length ∧ r.mazeCells = rows.flatten.map fun c => some (mazeCellOf c) := by
  have hscan := widthScan_spriteText hrows hnl hlen hcontent
  have hsize : (mazeReadFile io).bytes.length = (w + 1) * rows.length := by
    rw [length_mazeReadFile, hcontent, length_spriteText hrows]
  have hmem : newline ∈ (mazeReadFile io).bytes := by
    apply newline_mem_of_widthScan hscan
    rw [hsize]
    have hmul := Nat.mul_le_mul_left (w + 1) hlen
    omega
  obtain ⟨r, hparse, hcovers⟩ := parseMazeFile_covers hmem
  have hwidth : r.width = w :=
    Option.some.inj ((widthScan_of_parseMazeFile hparse).symm.trans hscan)
  have hheight : r.height = rows.length := by
    rw [parseMazeFile, hscan, Option.map_some, Option.some.injEq] at hparse
    rw [← hparse, hsize]
    exact Nat.mul_div_cancel_left _ (Nat.succ_pos w)
  refine ⟨r, hparse, hcovers, hwidth, hheight, ?_⟩
  have hflat := Grid.length_flatten hrows
  apply List.ext_getElem?
  intro k
  rw [List.getElem?_map]
  by_cases hk : k < w * rows.length
  · have hwpos : 0 < w := Nat.pos_of_mul_pos_right (Nat.zero_lt_of_lt hk)
    have hj : k % w < w := Nat.mod_lt k hwpos
    have hi : k / w < rows.length := Nat.div_lt_of_lt_mul hk
    obtain ⟨c, hc, hcell⟩ := hcovers.cells (k / w) (hheight ▸ hi) (k % w) (hwidth ▸ hj)
    rw [hwidth, getElem?_mazeReadFile hrows hcontent hi hj, Grid.rowMajor_mod_div] at hc
    rw [hwidth, ← Grid.rowMajor, Grid.rowMajor_mod_div] at hcell
    rw [hcell, hc, Option.map_some]
  · rw [List.getElem?_eq_none (by rw [hcovers.length_eq, hwidth, hheight]; omega),
      List.getElem?_eq_none (by omega), Option.map_none]

/-- Any block with a newline is cut into a grid, and a rectangular text is read as it is written. -/
theorem labyrinth_parses :
    (∀ b : FileBuffer, newline ∈ b.bytes → ∃ r, parseMazeFile b = some r ∧ r.Covers b) ∧
      ∀ (rows : List (List CHAR8)) (w : ℕ) (io : FileIo), (∀ row ∈ rows, row.length = w) →
        (∀ row ∈ rows, newline ∉ row) → 1 ≤ w → 2 ≤ rows.length → io.content = spriteText rows →
          ∃ r, parseMazeFile (mazeReadFile io) = some r ∧ r.width = w ∧ r.height = rows.length ∧
            r.mazeCells = rows.flatten.map fun c => some (mazeCellOf c) := by
  refine ⟨fun b h => parseMazeFile_covers h, ?_⟩
  intro rows w io hrows hnl _ hlen hcontent
  obtain ⟨r, hparse, -, hgrid⟩ := parseMazeFile_spriteText hrows hnl hlen hcontent
  exact ⟨r, hparse, hgrid⟩

theorem labyrinth_parses_two_rows :
    (∃ r, parseMazeFile ⟨[0x23, newline, 0x6f], []⟩ = some r ∧
        r.Covers ⟨[0x23, newline, 0x6f], []⟩) ∧
      ∃ r, parseMazeFile (mazeReadFile (FileIo.ofBytes (spriteText [[0x6f, 0x2e], [0x23, 0x78]]) []
          (by decide))) = some r ∧ r.width = 2 ∧ r.height = 2 ∧
        r.mazeCells = [some .START, some .EMPTY, some .WALL, some .END] := by
  obtain ⟨hcut, htext⟩ := labyrinth_parses
  exact ⟨hcut _ (by decide), htext [[0x6f, 0x2e], [0x23, 0x78]] 2 _ (by decide) (by decide)
    (by decide) (by decide) rfl⟩

end Text

end UefiGame
