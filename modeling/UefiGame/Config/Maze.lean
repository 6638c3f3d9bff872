import UefiGame.Config.Boot
import UefiGame.Library.Decimal
import UefiGame.Library.Grid

/-! # The maze configuration parser

`ParseMazeConfigFile` finds the dimensions by counting the separators of the
file and then, in a second pass that knows nothing of the lines, reads as many
numbers as the dimensions ask for.
-/

namespace UefiGame

/-- The out-parameters `*Numbers`, `*Width` and `*Height`. -/
structure MazeConfig where
  numbers : List INTN
  width : UINTN
  height : UINTN
  deriving DecidableEq, Repr

/-- `*Height`, `*Width` and `CurWidth` during the counting pass. -/
structure MazeCount where
  height : UINTN
  width : UINTN
  curWidth : UINTN
  deriving DecidableEq, Repr

def MazeCount.start : MazeCount := ⟨0, -1, 1⟩

/-- The counting pass on one byte; a row of another width is only reported. -/
def mazeCountStep (s : MazeCount) (c : CHAR8) : MazeCount :=
  if c = space then { s with curWidth := s.curWidth + 1 }
  else if c = newline then
    { height := s.height + 1
      width := if s.width = -1 then s.curWidth else s.width
      curWidth := 1 }
  else s

def mazeCount (fileData : List CHAR8) : MazeCount := fileData.foldl mazeCountStep MazeCount.start

/-- Conversion to `long long`, with the saturation of `strtoll`. -/
def toLongLong (z : ℤ) : INTN := BitVec.ofInt 64 (max (-2 ^ 63) (min z (2 ^ 63 - 1)))

/-- `sscanf(buffer, "%lld%n", …)`: the number stored and the bytes consumed. -/
def sscanfLld (buffer : List CHAR8) : Option (INTN × ℕ) :=
  (Decimal.scan buffer).map fun r => (toLongLong r.1, r.2)

/-- The reading loop for `n` more numbers: the numbers left in the zeroed block, and whether every
`sscanf` matched. -/
def scanNumbers : ℕ → List CHAR8 → List INTN × Bool
  | 0, _ => ([], true)
  | n + 1, curBuffer =>
    match sscanfLld curBuffer with
    | none => (List.replicate (n + 1) 0, false)
    | some (v, read) =>
      let r := scanNumbers n (curBuffer.drop read)
      (v :: r.1, r.2)

/-- `ParseMazeConfigFile`. -/
def parseMazeConfigFile (fs : FileSystem) (filename : Str16) (out : MazeConfig) :
    EFI_STATUS × MazeConfig :=
  match filename with
  | none => (EFI_INVALID_PARAMETER, out)
  | some name =>
    let r := readFile fs (some name) ⟨[], []⟩
    if efiError r.1 then (r.1, out)
    else
      let s := mazeCount r.2.bytes
      let p := scanNumbers (s.width * s.height).toNat (r.2.bytes ++ r.2.beyond)
      (if p.2 then r.1 else EFI_INVALID_PARAMETER, ⟨p.1, s.width, s.height⟩)

/-- One row of the maze, its numbers separated by single blanks. -/
def rowText (row : List INTN) : List CHAR8 :=
  [space].intercalate (row.map fun v => Decimal.signed v.toInt) ++ [newline]

/-- The rows of a matrix with `h` rows and `w` columns. -/
def matrixRows {w h : ℕ} (M : Fin h → Fin w → INTN) : List (List INTN) :=
  List.ofFn fun r => List.ofFn (M r)

def mazeText {w h : ℕ} (M : Fin h → Fin w → INTN) : List CHAR8 := (matrixRows M).flatMap rowText

section Counting

variable {s : MazeCount} {row : List INTN} {seg : List CHAR8} {v : INTN}

theorem foldl_mazeCountStep_of_plain (h : ∀ c ∈ seg, c ≠ space ∧ c ≠ newline) :
    seg.foldl mazeCountStep s = s := by
  induction seg with
  | nil => rfl
  | cons c seg ih =>
    rw [List.forall_mem_cons] at h
    obtain ⟨⟨hs, hn⟩, htail⟩ := h
    rw [List.foldl_cons, mazeCountStep, if_neg hs, if_neg hn]
    exact ih htail

theorem signed_plain {z : ℤ} : ∀ c ∈ Decimal.signed z, c ≠ space ∧ c ≠ newline := by
  intro c hc
  have hspace := Decimal.isSpace_of_mem_signed hc
  constructor
  · rintro rfl; exact absurd hspace (by decide)
  · rintro rfl; exact absurd hspace (by decide)

theorem rowText_singleton : rowText [v] = Decimal.signed v.toInt ++ [newline] := by
  simp [rowText]

theorem rowText_cons (hne : row ≠ []) :
    rowText (v :: row) = Decimal.signed v.toInt ++ ([space] ++ rowText row) := by
  obtain ⟨v', row, rfl⟩ := List.exists_cons_of_ne_nil hne
  simp [rowText]

theorem foldl_rowText (hne : row ≠ []) :
    (rowText row).foldl mazeCountStep s =
      { height := s.height + 1
        width := if s.width = -1 then s.curWidth + BitVec.ofNat 64 (row.length - 1) else s.width
        curWidth := 1 } := by
  have hsn : newline ≠ space := by decide
  induction row generalizing s with
  | nil => exact absurd rfl hne
  | cons v row ih =>
    by_cases hrow : row = []
    · subst hrow
      rw [rowText_singleton, List.foldl_append, foldl_mazeCountStep_of_plain signed_plain]
      simp [mazeCountStep, hsn]
    · have hlen : (v :: row).length - 1 = 1 + (row.length - 1) := by
        have := List.length_pos_iff.mpr hrow
        rw [List.length_cons]
        omega
      rw [rowText_cons hrow, List.foldl_append, foldl_mazeCountStep_of_plain signed_plain,
        List.foldl_append, List.foldl_cons, List.foldl_nil, mazeCountStep, if_pos rfl, ih hrow,
        hlen,
        BitVec.ofNat_add, BitVec.add_assoc]
      rfl

theorem foldl_rows {w : ℕ} (hw : 0 < w) {rows : List (List INTN)}
    (hrows : ∀ row ∈ rows, row.length = w)
    (hs : s.curWidth = 1 ∧ (s.width = -1 ∨ s.width = BitVec.ofNat 64 w)) :
    rows.foldl (fun s row => (rowText row).foldl mazeCountStep s) s =
      { height := s.height + BitVec.ofNat 64 rows.length
        width := if rows = [] then s.width else BitVec.ofNat 64 w
        curWidth := 1 } := by
  induction rows generalizing s with
  | nil =>
    obtain ⟨hcur, -⟩ := hs
    simp [← hcur]
  | cons row rows ih =>
    rw [List.forall_mem_cons] at hrows
    obtain ⟨hlen, htail⟩ := hrows
    obtain ⟨hcur, hwidth⟩ := hs
    have hne : row ≠ [] := List.length_pos_iff.mp (hlen ▸ hw)
    have hone : 1 + BitVec.ofNat 64 (w - 1) = BitVec.ofNat 64 w := by
      have hadd : BitVec.ofNat 64 (1 + (w - 1)) = BitVec.ofNat 64 1 + BitVec.ofNat 64 (w - 1) :=
        BitVec.ofNat_add ..
      rw [Nat.add_sub_cancel' hw] at hadd
      exact hadd.symm
    have hnew : (if s.width = -1 then 1 + BitVec.ofNat 64 (w - 1) else s.width) =
        BitVec.ofNat 64 w := by
      rw [hone]
      split_ifs with h
      · rfl
      · exact hwidth.resolve_left h
    rw [List.foldl_cons, foldl_rowText hne, hcur, hlen, hnew, ih htail ⟨rfl, Or.inr rfl⟩]
    simp [BitVec.ofNat_add, BitVec.add_assoc, BitVec.add_comm]

theorem mazeCount_rows {w : ℕ} (hw : 0 < w) {rows : List (List INTN)} (hne : rows ≠ [])
    (hrows : ∀ row ∈ rows, row.length = w) :
    mazeCount (rows.flatMap rowText) =
      { height := BitVec.ofNat 64 rows.length
        width := BitVec.ofNat 64 w
        curWidth := 1 } := by
  have h := foldl_rows (s := MazeCount.start) hw hrows ⟨rfl, Or.inl rfl⟩
  rw [mazeCount, List.foldl_flatMap, h, if_neg hne]
  simp [MazeCount.start]

end Counting

section Scanning

variable {row : List INTN} {rows : List (List INTN)} {ws rest : List CHAR8} {v : INTN}

theorem toLongLong_toInt (v : INTN) : toLongLong v.toInt = v := by
  have hle := BitVec.le_toInt v
  have hlt := BitVec.toInt_lt (x := v)
  have hmin : min v.toInt (2 ^ 63 - 1) = v.toInt := min_eq_left (by omega)
  have hmax : max (-2 ^ 63) v.toInt = v.toInt := max_eq_right (by omega)
  rw [toLongLong, hmin, hmax, BitVec.ofInt_toInt]

theorem sscanfLld_signed (hws : ∀ c ∈ ws, Decimal.isSpace c = true)
    (hrest : ∀ c ∈ rest.head?, Decimal.isDigit c = false) :
    sscanfLld (ws ++ (Decimal.signed v.toInt ++ rest)) =
      some (v, ws.length + (Decimal.signed v.toInt).length) := by
  rw [sscanfLld, Decimal.scan_signed hws hrest, Option.map_some, toLongLong_toInt]

theorem scanNumbers_signed (n : ℕ) (hws : ∀ c ∈ ws, Decimal.isSpace c = true)
    (hrest : ∀ c ∈ rest.head?, Decimal.isDigit c = false) :
    scanNumbers (n + 1) (ws ++ (Decimal.signed v.toInt ++ rest)) =
      (v :: (scanNumbers n rest).1, (scanNumbers n rest).2) := by
  have hdrop : (ws ++ (Decimal.signed v.toInt ++ rest)).drop
      (ws.length + (Decimal.signed v.toInt).length) = rest := by
    rw [← List.append_assoc, ← List.length_append, List.drop_left]
  simp only [scanNumbers, sscanfLld_signed hws hrest, hdrop]

/-- The numbers of one row; the newline that ends it is left for the next scan to skip. -/
theorem scanNumbers_rowText (hne : row ≠ []) (n : ℕ) (hws : ∀ c ∈ ws, Decimal.isSpace c = true) :
    scanNumbers (row.length + n) (ws ++ (rowText row ++ rest)) =
      (row ++ (scanNumbers n ([newline] ++ rest)).1, (scanNumbers n ([newline] ++ rest)).2) := by
  have hspace : ∀ c ∈ [space], Decimal.isSpace c = true := by decide
  have hsd : Decimal.isDigit space = false := by decide
  have hnd : Decimal.isDigit newline = false := by decide
  induction row generalizing ws with
  | nil => exact absurd rfl hne
  | cons v row ih =>
    rw [List.length_cons, Nat.add_right_comm]
    by_cases hrow : row = []
    · subst hrow
      rw [rowText_singleton, List.append_assoc, scanNumbers_signed _ hws (by simp [hnd])]
      simp
    · rw [rowText_cons hrow, List.append_assoc, List.append_assoc,
        scanNumbers_signed _ hws (by simp [hsd]), ih hrow hspace]
      simp

theorem scanNumbers_rows (ws rest : List CHAR8) (hne : ∀ row ∈ rows, row ≠ [])
    (hws : ∀ c ∈ ws, Decimal.isSpace c = true) :
    scanNumbers rows.flatten.length (ws ++ (rows.flatMap rowText ++ rest)) =
      (rows.flatten, true) := by
  have hnewline : ∀ c ∈ [newline], Decimal.isSpace c = true := by decide
  induction rows generalizing ws with
  | nil => rfl
  | cons row rows ih =>
    rw [List.forall_mem_cons] at hne
    rw [List.flatten_cons, List.length_append, List.flatMap_cons, List.append_assoc,
      scanNumbers_rowText hne.1 _ hws, ih _ hne.2 hnewline]

theorem two_mul_length_le_rowText (hne : row ≠ []) : 2 * row.length ≤ (rowText row).length := by
  induction row with
  | nil => exact absurd rfl hne
  | cons v row ih =>
    have hv := List.length_pos_iff.mpr (Decimal.signed_ne_nil v.toInt)
    by_cases hrow : row = []
    · subst hrow
      simp only [rowText_singleton, List.length_append, List.length_cons, List.length_nil]
      omega
    · have htail := ih hrow
      rw [rowText_cons hrow]
      simp only [List.length_append, List.length_cons, List.length_nil]
      omega

theorem two_mul_length_le_rows (hne : ∀ row ∈ rows, row ≠ []) :
    2 * rows.flatten.length ≤ (rows.flatMap rowText).length := by
  induction rows with
  | nil => simp
  | cons row rows ih =>
    rw [List.forall_mem_cons] at hne
    have hhead := two_mul_length_le_rowText hne.1
    have htail := ih hne.2
    rw [List.flatten_cons, List.flatMap_cons, List.length_append, List.length_append]
    omega

end Scanning

section Length

variable {fs : FileSystem} {filename : Str16} {out : MazeConfig}

theorem length_scanNumbers (n : ℕ) (cs : List CHAR8) : (scanNumbers n cs).1.length = n := by
  induction n generalizing cs with
  | zero => rfl
  | succ n ih =>
    rw [scanNumbers]
    cases sscanfLld cs with
    | none => exact List.length_replicate
    | some p => simp [ih]

theorem length_numbers_parseMazeConfigFile
    (h : efiError (parseMazeConfigFile fs filename out).1 = false) :
    (parseMazeConfigFile fs filename out).2.numbers.length =
      ((parseMazeConfigFile fs filename out).2.width *
        (parseMazeConfigFile fs filename out).2.height).toNat := by
  cases filename with
  | none => simp [parseMazeConfigFile] at h
  | some name =>
    by_cases herror : efiError (readFile fs (some name) ⟨[], []⟩).1 = true
    · simp [parseMazeConfigFile, herror] at h
    · simp only [parseMazeConfigFile, if_neg herror]
      exact length_scanNumbers ..

end Length

section Matrix

variable {w h : ℕ} (M : Fin h → Fin w → INTN)

theorem length_matrixRows : (matrixRows M).length = h := List.length_ofFn

theorem length_of_mem_matrixRows : ∀ row ∈ matrixRows M, row.length = w := by
  intro row hrow
  obtain ⟨r, rfl⟩ := List.mem_ofFn.mp hrow
  exact List.length_ofFn

theorem length_flatten_matrixRows : (matrixRows M).flatten.length = w * h := by
  rw [Grid.length_flatten (length_of_mem_matrixRows M), length_matrixRows]

theorem getElem?_flatten_matrixRows (r : Fin h) (c : Fin w) :
    (matrixRows M).flatten[Grid.rowMajor w c r]? = some (M r c) := by
  have hrow : (matrixRows M)[(r : ℕ)]? = some (List.ofFn (M r)) := by simp [matrixRows]
  rw [Grid.getElem?_flatten (length_of_mem_matrixRows M) hrow c.isLt]
  simp

end Matrix

/-- Printing a matrix row by row and parsing the file gives the matrix back. -/
theorem parseMazeConfigFile_mazeText {w h : ℕ} (hw : 0 < w) (hh : 0 < h)
    (M : Fin h → Fin w → INTN) {fs : FileSystem} {filename : List CHAR16}
    (hread : Reads fs filename (mazeText M)) (hok : (fs filename).read = EFI_SUCCESS)
    (out : MazeConfig) :
    ∃ config, parseMazeConfigFile fs (some filename) out = (EFI_SUCCESS, config) ∧
      config.width.toNat = w ∧ config.height.toNat = h ∧ config.numbers.length = w * h ∧
      ∀ (r : Fin h) (c : Fin w), config.numbers[Grid.rowMajor w c r]? = some (M r c) := by
  have hrows := length_of_mem_matrixRows M
  have hlen := length_flatten_matrixRows M
  have hne : ∀ row ∈ matrixRows M, row ≠ [] :=
    fun row hrow => List.length_pos_iff.mp ((hrows row hrow).symm ▸ hw)
  have hrows_ne : matrixRows M ≠ [] :=
    List.length_pos_iff.mp ((length_matrixRows M).symm ▸ hh)
  -- the file is at least two bytes for each number, so the product of the dimensions is exact
  have hsize : 2 * (w * h) < 2 ^ 64 := by
    have hle := two_mul_length_le_rows hne
    rw [hlen] at hle
    exact lt_of_le_of_lt hle hread.length_lt
  have hwle : w ≤ w * h := Nat.le_mul_of_pos_right w hh
  have hhle : h ≤ w * h := Nat.le_mul_of_pos_left h hw
  have hwnat : (BitVec.ofNat 64 w).toNat = w := Nat.mod_eq_of_lt (by omega)
  have hhnat : (BitVec.ofNat 64 h).toNat = h := Nat.mod_eq_of_lt (by omega)
  have hcount : mazeCount (mazeText M) = ⟨BitVec.ofNat 64 h, BitVec.ofNat 64 w, 1⟩ := by
    rw [mazeText, mazeCount_rows hw hrows_ne hrows, length_matrixRows]
  have hprod : (BitVec.ofNat 64 w * BitVec.ofNat 64 h).toNat = (matrixRows M).flatten.length := by
    rw [BitVec.toNat_mul, hwnat, hhnat, Nat.mod_eq_of_lt (by omega), hlen]
  have hscan := scanNumbers_rows [] (fs filename).buffer.beyond hne (by simp)
  refine ⟨⟨(matrixRows M).flatten, BitVec.ofNat 64 w, BitVec.ofNat 64 h⟩, ?_, hwnat, hhnat, hlen,
    getElem?_flatten_matrixRows M⟩
  rw [List.nil_append, ← mazeText] at hscan
  simp only [parseMazeConfigFile, hread.readFile_eq, hread.bytes_eq, hcount, hprod, hok, hscan,
    efiError_success, Bool.false_eq_true, if_false, if_true]

/-- A matrix with negative numbers and one of several digits. -/
def sampleMatrix (r : Fin 2) (c : Fin 2) : INTN := if r = 0 ∧ c = 0 then 305 else -1

theorem parseMazeConfigFile_mazeText_sample :
    ∃ config, parseMazeConfigFile
        (fun _ => FileIo.ofBytes (mazeText sampleMatrix) [] (by decide +kernel)) (some [])
          ⟨[], 0, 0⟩ =
          (EFI_SUCCESS, config) ∧
      config.width.toNat = 2 ∧ config.height.toNat = 2 ∧ config.numbers.length = 2 * 2 ∧
      ∀ (r : Fin 2) (c : Fin 2), config.numbers[Grid.rowMajor 2 c r]? = some (sampleMatrix r c) :=
  parseMazeConfigFile_mazeText (by decide) (by decide) sampleMatrix Reads.ofBytes rfl ⟨[], 0, 0⟩

end UefiGame
