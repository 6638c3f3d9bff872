import UefiGame.Config.Maze
import UefiGame.Library.Lines

/-! # Which maze files are accepted

The counting pass of `ParseMazeConfigFile` takes the width from the blanks of
the first line and the height from the newlines. The reading pass runs over the
line ends, so that the numbers of a ragged file still fill the block, and a
file without a newline asks for no number at all.
-/

namespace UefiGame

/-- Successive calls of `sscanf` on a text: the numbers they store and what they leave unread. -/
inductive Scans : List CHAR8 → List INTN → List CHAR8 → Prop where
  | done (rest : List CHAR8) : Scans rest [] rest
  | number {cs rest : List CHAR8} {v : INTN} {vs : List INTN} {read : ℕ} :
      sscanfLld cs = some (v, read) → Scans (cs.drop read) vs rest → Scans cs (v :: vs) rest

/-- The line consists of these integers and white space. -/
def LineHolds (line : List CHAR8) (row : List INTN) : Prop :=
  ∃ rest, Scans line row rest ∧ ∀ c ∈ rest, Decimal.isSpace c = true

/-- The text begins with `n` integers, white space and line ends between them ignored. -/
def BeginsWith (n : ℕ) (cs : List CHAR8) : Prop := ∃ vs rest, Scans cs vs rest ∧ vs.length = n

/-- The width announced by the first line: its blanks, and one. -/
def firstWidth (fileData : List CHAR8) : ℕ :=
  (fileData.takeWhile fun c => c ≠ newline).count space + 1

/-- The dimensions and the numbers are those of the lines of the file. -/
structure MazeSound (fileData : List CHAR8) (config : MazeConfig) : Prop where
  width_pos : 1 ≤ config.width.toNat
  height_pos : 1 ≤ config.height.toNat
  height_le : config.height.toNat ≤ (fileData.splitOn newline).length
  holds : ∀ r < config.height.toNat, ∃ line row, (fileData.splitOn newline)[r]? = some line ∧
    LineHolds line row ∧ row.length = config.width.toNat ∧
    ∀ c < config.width.toNat, config.numbers[Grid.rowMajor config.width.toNat c r]? = row[c]?

section Scanning

variable {cs rest tail ws : List CHAR8} {vs : List INTN} {v : INTN} {n read : ℕ}

theorem sscanfLld_append (h : sscanfLld cs = some (v, read))
    (htail : ∀ c ∈ tail.head?, Decimal.isDigit c = false) :
    sscanfLld (cs ++ tail) = some (v, read) := by
  obtain ⟨r, hr, heq⟩ := Option.map_eq_some_iff.mp h
  rw [sscanfLld, Decimal.scan_append hr htail, Option.map_some, heq]

theorem sscanfLld_bounds (h : sscanfLld cs = some (v, read)) : 0 < read ∧ read ≤ cs.length := by
  obtain ⟨r, hr, heq⟩ := Option.map_eq_some_iff.mp h
  obtain ⟨-, rfl⟩ := Prod.mk.inj heq
  exact Decimal.scan_bounds hr

theorem sscanfLld_skip (hws : ∀ c ∈ ws, Decimal.isSpace c = true)
    (h : sscanfLld cs = some (v, read)) : sscanfLld (ws ++ cs) = some (v, ws.length + read) := by
  obtain ⟨r, hr, heq⟩ := Option.map_eq_some_iff.mp h
  obtain ⟨rfl, rfl⟩ := Prod.mk.inj heq
  rw [sscanfLld, Decimal.scan_skip hws hr, Option.map_some]

namespace Scans

theorem trans {ys : List INTN} {mid : List CHAR8} (h : Scans cs vs mid) (h' : Scans mid ys rest) :
    Scans cs (vs ++ ys) rest := by
  induction h with
  | done => exact h'
  | number hv _ ih => exact .number hv (ih h')

theorem append (h : Scans cs vs rest) (htail : ∀ c ∈ tail.head?, Decimal.isDigit c = false) :
    Scans (cs ++ tail) vs (rest ++ tail) := by
  induction h with
  | done rest => exact .done (rest ++ tail)
  | number hv _ ih =>
    refine .number (sscanfLld_append hv htail) ?_
    rw [List.drop_append_of_le_length (sscanfLld_bounds hv).2]
    exact ih

theorem skip (hws : ∀ c ∈ ws, Decimal.isSpace c = true) (hne : vs ≠ []) (h : Scans cs vs rest) :
    Scans (ws ++ cs) vs rest := by
  cases h with
  | done => exact absurd rfl hne
  | number hv htail =>
    refine .number (sscanfLld_skip hws hv) ?_
    rw [List.drop_length_add_append]
    exact htail

theorem length_add_le (h : Scans cs vs rest) : vs.length + rest.length ≤ cs.length := by
  induction h with
  | done => simp
  | number hv _ ih =>
    have hread := sscanfLld_bounds hv
    rw [List.length_drop] at ih
    rw [List.length_cons]
    omega

theorem scanNumbers_eq (h : Scans cs vs rest) : scanNumbers vs.length cs = (vs, true) := by
  induction h with
  | done => rfl
  | number hv _ ih => simp only [List.length_cons, scanNumbers, hv, ih]

end Scans

theorem beginsWith_of_scanNumbers (h : (scanNumbers n cs).2 = true) : BeginsWith n cs := by
  induction n generalizing cs with
  | zero => exact ⟨[], cs, .done cs, rfl⟩
  | succ n ih =>
    cases hv : sscanfLld cs with
    | none => simp [scanNumbers, hv] at h
    | some p =>
      simp only [scanNumbers, hv] at h
      obtain ⟨vs, rest, hvs, hlen⟩ := ih h
      exact ⟨p.1 :: vs, rest, .number hv hvs, by rw [List.length_cons, hlen]⟩

theorem scanNumbers_iff : (scanNumbers n cs).2 = true ↔ BeginsWith n cs := by
  constructor
  · exact beginsWith_of_scanNumbers
  · rintro ⟨vs, rest, hvs, rfl⟩
    rw [hvs.scanNumbers_eq]

/-- The numbers of the lines, one line after the other; a line end is skipped with the white space
that the line before left. -/
theorem scans_lines {segs : List (List CHAR8)} {rows : List (List INTN)} (tail : List CHAR8)
    (h : List.Forall₂ LineHolds segs rows) (hne : ∀ row ∈ rows, row ≠ [])
    (hws : ∀ c ∈ ws, Decimal.isSpace c = true) :
    ∃ rest, Scans (ws ++ (segs.flatMap (· ++ [newline]) ++ tail)) rows.flatten rest := by
  have hspace : Decimal.isSpace newline = true := by decide
  have hdigit : Decimal.isDigit newline = false := by decide
  induction h generalizing ws with
  | nil => exact ⟨_, .done _⟩
  | @cons seg row segs rows hseg _ ih =>
    rw [List.forall_mem_cons] at hne
    obtain ⟨left, hleft, hblank⟩ := hseg
    have hblank' : ∀ c ∈ left ++ [newline], Decimal.isSpace c = true := by
      intro c hc
      rcases List.mem_append.mp hc with hc | hc
      · exact hblank c hc
      · rwa [List.mem_singleton.mp hc]
    obtain ⟨rest, hrest⟩ := ih hne.2 hblank'
    have hhead : Scans (ws ++ seg ++ ([newline] ++ (segs.flatMap (· ++ [newline]) ++ tail))) row
        (left ++ ([newline] ++ (segs.flatMap (· ++ [newline]) ++ tail))) :=
      (hleft.skip hws hne.1).append (by simp [hdigit])
    refine ⟨rest, ?_⟩
    rw [List.append_assoc] at hrest
    have h := hhead.trans hrest
    simpa only [List.flatMap_cons, List.flatten_cons, List.append_assoc] using h

end Scanning

section Counting

variable {c : List CHAR8} {s : MazeCount}

theorem foldl_mazeCountStep_height :
    (c.foldl mazeCountStep s).height = s.height + BitVec.ofNat 64 (c.count newline) := by
  induction c generalizing s with
  | nil => simp
  | cons x c ih =>
    have hsn : space ≠ newline := by decide
    rw [List.foldl_cons, ih]
    by_cases hs : x = space
    · subst hs
      rw [mazeCountStep, if_pos rfl, List.count_cons_of_ne hsn]
    · by_cases hn : x = newline
      · subst hn
        rw [mazeCountStep, if_neg hs, if_pos rfl, List.count_cons_self, BitVec.ofNat_add,
          BitVec.add_assoc, BitVec.add_comm 1]
        rfl
      · rw [mazeCountStep, if_neg hs, if_neg hn, List.count_cons_of_ne hn]

theorem foldl_mazeCountStep_width (hs : s.width ≠ -1) :
    (c.foldl mazeCountStep s).width = s.width := by
  induction c generalizing s with
  | nil => rfl
  | cons x c ih =>
    have hstep : (mazeCountStep s x).width = s.width := by
      unfold mazeCountStep
      split_ifs <;> rfl
    rw [List.foldl_cons, ih (hstep ▸ hs), hstep]

theorem foldl_mazeCountStep_line (h : newline ∉ c) :
    c.foldl mazeCountStep s =
      { s with curWidth := s.curWidth + BitVec.ofNat 64 (c.count space) } := by
  induction c generalizing s with
  | nil => simp
  | cons x c ih =>
    rw [List.mem_cons, not_or] at h
    rw [List.foldl_cons, ih h.2]
    by_cases hs : x = space
    · subst hs
      rw [mazeCountStep, if_pos rfl, List.count_cons_self, BitVec.ofNat_add,
        BitVec.add_comm (BitVec.ofNat 64 (c.count space)), ← BitVec.add_assoc]
      rfl
    · rw [mazeCountStep, if_neg hs, if_neg (Ne.symm h.1), List.count_cons_of_ne hs]

theorem mazeCount_height : (mazeCount c).height = BitVec.ofNat 64 (c.count newline) := by
  rw [mazeCount, foldl_mazeCountStep_height]
  exact BitVec.zero_add _

theorem firstWidth_append_cons {seg rest : List CHAR8} (h : newline ∉ seg) :
    firstWidth (seg ++ newline :: rest) = seg.count space + 1 := by
  have htake : ∀ x ∈ seg, decide (x ≠ newline) = true := by
    intro x hx
    rw [decide_eq_true_eq]
    rintro rfl
    exact h hx
  rw [firstWidth, List.takeWhile_append_of_pos htake, List.takeWhile_cons_of_neg (by simp),
    List.append_nil]

/-- The first line fixes the width. Where it has as many blanks as the sentinel stands for, there is
no room in the address space for a second line. -/
theorem mazeCount_width (hlen : c.length < 2 ^ 64) (hmem : newline ∈ c) :
    (mazeCount c).width = BitVec.ofNat 64 (firstWidth c) := by
  have hns : newline ≠ space := by decide
  obtain ⟨seg, rest, rfl, hseg⟩ := List.eq_append_cons_of_mem hmem
  have hcur : (1 : UINTN) + BitVec.ofNat 64 (seg.count space) =
      BitVec.ofNat 64 (seg.count space + 1) := by
    rw [BitVec.ofNat_add, BitVec.add_comm]
    rfl
  have hfirst : (seg ++ [newline]).foldl mazeCountStep MazeCount.start =
      ⟨1, BitVec.ofNat 64 (seg.count space + 1), 1⟩ := by
    rw [List.foldl_append, foldl_mazeCountStep_line hseg, List.foldl_cons, List.foldl_nil,
      mazeCountStep, if_neg hns, if_pos rfl, ← hcur]
    rfl
  have hsplit : seg ++ newline :: rest = seg ++ [newline] ++ rest := by simp
  rw [firstWidth_append_cons hseg, mazeCount, hsplit, List.foldl_append, hfirst]
  by_cases hw : BitVec.ofNat 64 (seg.count space + 1) = -1
  · have hcount := List.count_le_length (a := space) (l := seg)
    have hnat := congrArg BitVec.toNat hw
    rw [List.length_append, List.length_cons] at hlen
    have hmax : (-1 : UINTN).toNat = 2 ^ 64 - 1 := by decide
    rw [hmax, BitVec.toNat_ofNat, Nat.mod_eq_of_lt (by omega)] at hnat
    obtain rfl : rest = [] := List.length_eq_zero_iff.mp (by omega)
    rfl
  · exact foldl_mazeCountStep_width hw

theorem firstWidth_pos : 1 ≤ firstWidth c := Nat.le_add_left 1 _

theorem firstWidth_lt (hlen : c.length < 2 ^ 64) (hmem : newline ∈ c) : firstWidth c < 2 ^ 64 := by
  obtain ⟨seg, rest, rfl, hseg⟩ := List.eq_append_cons_of_mem hmem
  have hcount := List.count_le_length (a := space) (l := seg)
  rw [List.length_append, List.length_cons] at hlen
  rw [firstWidth_append_cons hseg]
  omega

theorem toNat_mazeCount_height (hlen : c.length < 2 ^ 64) :
    (mazeCount c).height.toNat = c.count newline := by
  rw [mazeCount_height]
  exact Nat.mod_eq_of_lt (lt_of_le_of_lt List.count_le_length hlen)

theorem toNat_mazeCount_width (hlen : c.length < 2 ^ 64) (hmem : newline ∈ c) :
    (mazeCount c).width.toNat = firstWidth c := by
  rw [mazeCount_width hlen hmem]
  exact Nat.mod_eq_of_lt (firstWidth_lt hlen hmem)

theorem toNat_mazeCount_mul (hlen : c.length < 2 ^ 64) (hmem : newline ∈ c) :
    ((mazeCount c).width * (mazeCount c).height).toNat =
      firstWidth c * c.count newline % 2 ^ 64 := by
  rw [BitVec.toNat_mul, toNat_mazeCount_width hlen hmem, toNat_mazeCount_height hlen]

end Counting

section Accepted

variable {fs : FileSystem} {filename : List CHAR16} {c : List CHAR8} {w : ℕ}

theorem Reads.parseMazeConfigFile_eq (hread : Reads fs filename c)
    (hok : (fs filename).read = EFI_SUCCESS) (out : MazeConfig) :
    parseMazeConfigFile fs (some filename) out =
      let p := scanNumbers ((mazeCount c).width * (mazeCount c).height).toNat
        (c ++ (fs filename).buffer.beyond)
      (if p.2 then EFI_SUCCESS else EFI_INVALID_PARAMETER,
        ⟨p.1, (mazeCount c).width, (mazeCount c).height⟩) := by
  simp only [parseMazeConfigFile, hread.readFile_eq, hread.bytes_eq, hok, efiError_success,
    Bool.false_eq_true, if_false]

theorem Reads.success_iff (hread : Reads fs filename c) (hok : (fs filename).read = EFI_SUCCESS)
    (out : MazeConfig) :
    (parseMazeConfigFile fs (some filename) out).1 = EFI_SUCCESS ↔
      BeginsWith ((mazeCount c).width * (mazeCount c).height).toNat
        (c ++ (fs filename).buffer.beyond) := by
  have hne : EFI_INVALID_PARAMETER ≠ EFI_SUCCESS := by decide
  rw [hread.parseMazeConfigFile_eq hok, ← scanNumbers_iff]
  dsimp only
  split_ifs with h
  · exact ⟨fun _ => h, fun _ => rfl⟩
  · exact ⟨fun heq => absurd heq hne, fun hscan => absurd hscan h⟩

theorem exists_rows {segs : List (List CHAR8)}
    (h : ∀ line ∈ segs, ∃ row, LineHolds line row ∧ row.length = w) :
    ∃ rows, List.Forall₂ LineHolds segs rows ∧ ∀ row ∈ rows, row.length = w := by
  induction segs with
  | nil => exact ⟨[], .nil, nofun⟩
  | cons line segs ih =>
    rw [List.forall_mem_cons] at h
    obtain ⟨⟨row, hrow, hlen⟩, htail⟩ := h
    obtain ⟨rows, hrows, hlens⟩ := ih htail
    exact ⟨row :: rows, .cons hrow hrows, List.forall_mem_cons.mpr ⟨hlen, hlens⟩⟩

theorem mul_length_le {segs : List (List CHAR8)} (last : List CHAR8)
    (h : ∀ line ∈ segs, ∃ row, LineHolds line row ∧ row.length = w) :
    w * segs.length ≤ (segs.flatMap (· ++ [newline]) ++ last).length := by
  induction segs with
  | nil => simp
  | cons line segs ih =>
    rw [List.forall_mem_cons] at h
    obtain ⟨⟨row, ⟨rest, hrow, -⟩, rfl⟩, htail⟩ := h
    have hline := hrow.length_add_le
    have hsegs := ih htail
    simp only [List.flatMap_cons, List.length_append, List.length_cons, List.length_nil,
      Nat.mul_succ] at hsegs ⊢
    omega

/-- Where every terminated line holds as many integers as the first announces, the file is accepted
with its own lines. -/
theorem mazeSound_of_lines (hread : Reads fs filename c) (hok : (fs filename).read = EFI_SUCCESS)
    (out : MazeConfig) (hmem : newline ∈ c)
    (hlines : ∀ line ∈ Lines.terminated newline c, ∃ row,
      LineHolds line row ∧ row.length = firstWidth c) :
    MazeSound c (parseMazeConfigFile fs (some filename) out).2 := by
  have hlen := hread.length_lt
  obtain ⟨last, -, hc⟩ := Lines.eq_flatMap_append newline c
  obtain ⟨rows, hrows, hlens⟩ := exists_rows hlines
  have hcount := Lines.length_terminated newline c
  have hrowsLen : rows.length = c.count newline := by rw [← hrows.length_eq, hcount]
  have hflat : rows.flatten.length = firstWidth c * c.count newline := by
    rw [Grid.length_flatten hlens, hrowsLen]
  have hcpos : 0 < c.count newline := List.count_pos_iff.mpr hmem
  -- no room for a product of the dimensions that wraps
  have hsize : firstWidth c * c.count newline < 2 ^ 64 := by
    have hle := mul_length_le last hlines
    rw [hcount, ← hc] at hle
    omega
  have hne : ∀ row ∈ rows, row ≠ [] := by
    intro row hrow
    rw [← List.length_pos_iff, hlens row hrow]
    exact firstWidth_pos
  have hprod : ((mazeCount c).width * (mazeCount c).height).toNat = rows.flatten.length := by
    rw [toNat_mazeCount_mul hlen hmem, Nat.mod_eq_of_lt hsize, hflat]
  have hnil : ∀ x ∈ ([] : List CHAR8), Decimal.isSpace x = true := nofun
  obtain ⟨rest, hscan⟩ := scans_lines (last ++ (fs filename).buffer.beyond) hrows hne hnil
  rw [List.nil_append, ← List.append_assoc, ← hc] at hscan
  rw [hread.parseMazeConfigFile_eq hok, hprod, hscan.scanNumbers_eq]
  constructor
  · simp only [toNat_mazeCount_width hlen hmem]
    exact firstWidth_pos
  · simp only [toNat_mazeCount_height hlen]
    exact hcpos
  · simp only [toNat_mazeCount_height hlen]
    rw [Lines.length_splitOn, hcount]
    exact Nat.le_succ _
  · simp only [toNat_mazeCount_height hlen, toNat_mazeCount_width hlen hmem]
    intro r hr
    have hr' : r < (Lines.terminated newline c).length := by rwa [hcount]
    have hr'' : r < rows.length := by rwa [hrowsLen]
    refine ⟨(Lines.terminated newline c)[r], rows[r], ?_, hrows.get hr' hr'',
      hlens _ (List.getElem_mem hr''), ?_⟩
    · rw [Lines.getElem?_splitOn hr, List.getElem?_eq_getElem hr']
    · intro k hk
      exact Grid.getElem?_flatten hlens (List.getElem?_eq_getElem hr'') hk

/-- A file is accepted only with the dimensions and numbers of its lines exactly if it has a newline
and either every line a newline ends holds as many integers as the first line has blanks and one
more, or the bytes from the start of the file on are not that many integers times the number of
newlines. -/
theorem mazeSound_iff (hread : Reads fs filename c) (hok : (fs filename).read = EFI_SUCCESS)
    (out : MazeConfig) :
    ((parseMazeConfigFile fs (some filename) out).1 = EFI_SUCCESS →
        MazeSound c (parseMazeConfigFile fs (some filename) out).2) ↔
      newline ∈ c ∧
        ((∀ line ∈ Lines.terminated newline c, ∃ row,
            LineHolds line row ∧ row.length = firstWidth c) ∨
          ¬ BeginsWith (firstWidth c * c.count newline % 2 ^ 64)
            (c ++ (fs filename).buffer.beyond)) := by
  have hlen := hread.length_lt
  have hsuccess := hread.success_iff hok out
  constructor
  · intro hsound
    by_cases hmem : newline ∈ c
    · refine ⟨hmem, ?_⟩
      rw [toNat_mazeCount_mul hlen hmem] at hsuccess
      by_cases hbegin : BeginsWith (firstWidth c * c.count newline % 2 ^ 64)
          (c ++ (fs filename).buffer.beyond)
      · left
        have h := (hsound (hsuccess.mpr hbegin)).holds
        rw [hread.parseMazeConfigFile_eq hok] at h
        simp only [toNat_mazeCount_height hlen, toNat_mazeCount_width hlen hmem] at h
        intro line hline
        obtain ⟨r, hr, rfl⟩ := List.getElem_of_mem hline
        have hr' : r < c.count newline := by rwa [← Lines.length_terminated]
        obtain ⟨line', row, hline', hrow, hrowLen, -⟩ := h r hr'
        rw [Lines.getElem?_splitOn hr', List.getElem?_eq_getElem hr, Option.some_inj] at hline'
        exact ⟨row, hline' ▸ hrow, hrowLen⟩
      · exact Or.inr hbegin
    · -- without a newline no number is asked for, and the height is zero
      have hzero : (mazeCount c).height = 0#64 := by
        rw [mazeCount_height, List.count_eq_zero_of_not_mem hmem]
      rw [hzero, BitVec.mul_zero] at hsuccess
      have h := (hsound (hsuccess.mpr ⟨[], _, .done _, rfl⟩)).height_pos
      rw [hread.parseMazeConfigFile_eq hok] at h
      simp [hzero] at h
  · rintro ⟨hmem, hlines | hbegin⟩ haccepted
    · exact mazeSound_of_lines hread hok out hmem hlines
    · rw [hsuccess, toNat_mazeCount_mul hlen hmem] at haccepted
      exact absurd haccepted hbegin

end Accepted

/-- Three lines, the second of them with two integers: `1`, `2 3` and `4`. -/
def raggedFile : List CHAR8 := [49, newline, 50, space, 51, newline, 52, newline]

def raggedFs : FileSystem := fun _ => FileIo.ofBytes raggedFile [] (by decide)

theorem raggedFs_reads : Reads raggedFs [] raggedFile := Reads.ofBytes

theorem mazeSound_iff_raggedFile :
    ((parseMazeConfigFile raggedFs (some []) ⟨[], 0, 0⟩).1 = EFI_SUCCESS →
        MazeSound raggedFile (parseMazeConfigFile raggedFs (some []) ⟨[], 0, 0⟩).2) ↔
      newline ∈ raggedFile ∧
        ((∀ line ∈ Lines.terminated newline raggedFile, ∃ row,
            LineHolds line row ∧ row.length = firstWidth raggedFile) ∨
          ¬ BeginsWith (firstWidth raggedFile * raggedFile.count newline % 2 ^ 64)
            (raggedFile ++ (raggedFs []).buffer.beyond)) :=
  mazeSound_iff raggedFs_reads rfl ⟨[], 0, 0⟩

/-- The third number comes from the second line and the fourth is never read. -/
theorem parseMazeConfigFile_raggedFile :
    parseMazeConfigFile raggedFs (some []) ⟨[], 0, 0⟩ = (EFI_SUCCESS, ⟨[1, 2, 3], 1, 3⟩) := by
  decide +kernel

theorem not_mazeSound_raggedFile :
    ¬ ∀ (fs : FileSystem) (filename : List CHAR16) (c : List CHAR8) (out : MazeConfig),
      Reads fs filename c → (fs filename).read = EFI_SUCCESS →
      (parseMazeConfigFile fs (some filename) out).1 = EFI_SUCCESS →
      MazeSound c (parseMazeConfigFile fs (some filename) out).2 := by
  intro h
  have hparse := parseMazeConfigFile_raggedFile
  have hsound := h raggedFs [] raggedFile ⟨[], 0, 0⟩ raggedFs_reads rfl (by rw [hparse])
  rw [hparse] at hsound
  -- the second line leaves its second integer unread
  obtain ⟨line, row, hline, ⟨rest, hscan, hblank⟩, hlen, -⟩ := hsound.holds 1 (by decide)
  have hsplit : (raggedFile.splitOn newline)[1]? = some [50, space, 51] := by decide
  have hfirst : sscanfLld [50, space, 51] = some (2, 1) := by decide +kernel
  rw [hsplit, Option.some_inj] at hline
  subst hline
  cases hscan with
  | done => exact absurd hlen (by decide)
  | number hv htail =>
    rw [hfirst, Option.some_inj, Prod.mk.injEq] at hv
    obtain ⟨rfl, rfl⟩ := hv
    cases htail with
    | done => exact absurd (hblank 51 (by decide)) (by decide)
    | number _ htail =>
      simp at hlen

end UefiGame
