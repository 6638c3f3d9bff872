import UefiGame.Labyrinth.Parse

/-! # Loading files that are no grids

The three parsers run along the memory for a newline. The Maze application
reads after having replaced the last byte of the file, and divides by the
dimensions it has found. All this is harmless exactly for files that have a
newline early enough, and a labyrinth that does not begin with one.
-/

namespace UefiGame

/-- The loop that looks for the end of the first line ends inside the block. -/
def ScansInside (b : FileBuffer) : Prop :=
  ∃ width, widthScan b = some width ∧ width < b.bytes.length

/-- The three loaders stay inside their blocks and the layout does not divide by zero. -/
structure LoadersCope (labyrinth actor : FileIo) (sprite : FileBuffer) : Prop where
  labyrinth_store : lastIndex labyrinth.content.length < labyrinth.content.length
  labyrinth_scan : ScansInside (mazeReadFile labyrinth)
  actor_store : lastIndex actor.content.length < actor.content.length
  actor_scan : ScansInside (mazeReadFile actor)
  sprite_scan : ScansInside sprite
  divides : ∀ r, parseMazeFile (mazeReadFile labyrinth) = some r → r.width ≠ 0 ∧ r.height ≠ 0

theorem scansInside_iff {b : FileBuffer} : ScansInside b ↔ newline ∈ b.bytes := by
  constructor
  · rintro ⟨width, hscan, hlt⟩
    exact newline_mem_of_widthScan hscan hlt
  · intro h
    obtain ⟨width, hscan, hlt, -⟩ := widthScan_eq_some h
    exact ⟨width, hscan, hlt⟩

section Reader

variable {io : FileIo}

theorem content_ne_nil (h : newline ∈ io.content.dropLast) : io.content ≠ [] := by
  rintro hnil
  rw [hnil] at h
  exact absurd h List.not_mem_nil

/-- The reader leaves every newline but one in the last place. -/
theorem newline_mem_mazeReadFile :
    newline ∈ (mazeReadFile io).bytes ↔ newline ∈ io.content.dropLast := by
  by_cases hnil : io.content = []
  · have hbytes : (mazeReadFile io).bytes = [] := by
      rw [← List.length_eq_zero_iff, length_mazeReadFile, hnil, List.length_nil]
    rw [hbytes, hnil, List.dropLast_nil]
  · rw [mazeReadFile_bytes hnil, List.mem_append, List.mem_singleton]
    constructor
    · rintro (h | h)
      · exact h
      · exact absurd h (by decide)
    · exact Or.inl

theorem scansInside_mazeReadFile :
    (lastIndex io.content.length < io.content.length ∧ ScansInside (mazeReadFile io)) ↔
      newline ∈ io.content.dropLast := by
  rw [scansInside_iff, newline_mem_mazeReadFile]
  constructor
  · rintro ⟨-, h⟩
    exact h
  · intro h
    have hpos := List.length_pos_iff.mpr (content_ne_nil h)
    rw [lastIndex_eq hpos io.length_content_lt]
    exact ⟨Nat.sub_lt hpos one_pos, h⟩

theorem divides_iff (h : newline ∈ io.content.dropLast) :
    (∀ r, parseMazeFile (mazeReadFile io) = some r → r.width ≠ 0 ∧ r.height ≠ 0) ↔
      io.content.head? ≠ some newline := by
  obtain ⟨r, hparse, hcovers⟩ := parseMazeFile_covers (newline_mem_mazeReadFile.mpr h)
  obtain ⟨c, init, hinit⟩ := List.exists_cons_of_ne_nil (List.ne_nil_of_mem h)
  have hne := content_ne_nil h
  have hhead : io.content.head? = some c := by
    rw [← List.dropLast_concat_getLast hne, hinit]
    rfl
  have hscan : widthScan (mazeReadFile io) = some r.width := widthScan_of_parseMazeFile hparse
  unfold widthScan at hscan
  rw [mazeReadFile_bytes hne, hinit, List.cons_append, List.cons_append,
    List.findIdx?_cons] at hscan
  have hzero : r.width = 0 ↔ c = newline := by
    by_cases hc : c = newline
    · rw [if_pos (decide_eq_true hc), Option.some.injEq] at hscan
      exact ⟨fun _ => hc, fun _ => hscan.symm⟩
    · rw [if_neg (by simpa using hc)] at hscan
      obtain ⟨k, -, hk⟩ := Option.map_eq_some_iff.mp hscan
      exact ⟨fun h0 => by omega, fun he => absurd he hc⟩
  rw [hhead, Ne, Option.some.injEq, ← hzero]
  constructor
  · intro hdiv
    exact (hdiv r hparse).1
  · intro hwidth r' hparse'
    obtain rfl := Option.some.inj (hparse.symm.trans hparse')
    exact ⟨hwidth, Nat.one_le_iff_ne_zero.mp hcovers.height_pos⟩

end Reader

/-- The loaders cope exactly with files that have a newline, in the Maze application before their
last byte, and with labyrinths whose first line is not empty. -/
theorem loadersCope_iff (labyrinth actor : FileIo) {fs : FileSystem} {filename : List CHAR16}
    {c : List CHAR8} (hread : Reads fs filename c) (garbage : FileBuffer) :
    LoadersCope labyrinth actor (readFile fs (some filename) garbage).2 ↔
      (newline ∈ labyrinth.content.dropLast ∧ labyrinth.content.head? ≠ some newline) ∧
        newline ∈ actor.content.dropLast ∧ newline ∈ c := by
  have hsprite : ScansInside (readFile fs (some filename) garbage).2 ↔ newline ∈ c := by
    rw [scansInside_iff, hread.readFile_eq, hread.bytes_eq]
  constructor
  · rintro ⟨hlstore, hlscan, hastore, hascan, hscan, hdiv⟩
    have hlabyrinth := scansInside_mazeReadFile.mp ⟨hlstore, hlscan⟩
    exact ⟨⟨hlabyrinth, (divides_iff hlabyrinth).mp hdiv⟩,
      scansInside_mazeReadFile.mp ⟨hastore, hascan⟩, hsprite.mp hscan⟩
  · rintro ⟨⟨hlabyrinth, hhead⟩, hactor, hc⟩
    obtain ⟨hlstore, hlscan⟩ := scansInside_mazeReadFile.mpr hlabyrinth
    obtain ⟨hastore, hascan⟩ := scansInside_mazeReadFile.mpr hactor
    exact ⟨hlstore, hlscan, hastore, hascan, hsprite.mpr hc, (divides_iff hlabyrinth).mpr hhead⟩

/-- Two short lines. -/
def twoLines : FileIo := FileIo.ofBytes [0x23, newline, 0x2e, newline] [] (by decide)

/-- One line, whose newline is its last byte. -/
def oneLine : FileIo := FileIo.ofBytes [0x23, newline] [] (by decide)

theorem twoLines_reads : Reads (fun _ => twoLines) [] twoLines.content := Reads.ofBytes

theorem loadersCope_iff_twoLines :
    LoadersCope twoLines twoLines (readFile (fun _ => twoLines) (some []) ⟨[], []⟩).2 ↔
      (newline ∈ twoLines.content.dropLast ∧ twoLines.content.head? ≠ some newline) ∧
        newline ∈ twoLines.content.dropLast ∧ newline ∈ twoLines.content :=
  loadersCope_iff twoLines twoLines twoLines_reads ⟨[], []⟩

/-- The newline of a labyrinth of one line is gone before it is looked for. -/
theorem not_loadersCope_oneLine : ¬ LoadersCope oneLine twoLines
    (readFile (fun _ => twoLines) (some []) ⟨[], []⟩).2 := by
  intro h
  have hmem := newline_mem_mazeReadFile.mp (scansInside_iff.mp h.labyrinth_scan)
  exact absurd hmem (by decide)

end UefiGame
