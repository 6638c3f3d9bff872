import UefiGame.Config.MazeSound

/-! # Maze files and the memory after them

The block that `ReadFile` returns has no byte after the file that would end a
string, and `ParseMazeConfigFile` gives it to `sscanf`. A number in the last
bytes goes on with the digits that happen to be in the heap, and a file with too
few numbers may find the missing ones there.
-/

namespace UefiGame

namespace FileIo

/-- The same file, with other memory after its block. -/
def withHeap (io : FileIo) (heap : List CHAR8) : FileIo := { io with heap := heap }

/-- The bytes of the block: those of the file, and the zeroes left by a short read. -/
def block (io : FileIo) : List CHAR8 :=
  io.content ++ List.replicate (io.fileSize - io.content.length) 0

end FileIo

def FileSystem.withHeap (fs : FileSystem) (heap : List CHAR8) : FileSystem :=
  fun name => (fs name).withHeap heap

/-- A number at a bound of its type stays there if digits are added. -/
def Saturated (z : ℤ) : Prop := z ≤ -2 ^ 63 ∨ 2 ^ 63 - 1 ≤ z

instance (z : ℤ) : Decidable (Saturated z) := inferInstanceAs (Decidable (_ ∨ _))

/-- The scans of `n` numbers end inside the block, or the last of them is out of range there. -/
def Settled : ℕ → List CHAR8 → Prop
  | 0, _ => True
  | n + 1, block =>
    match Decimal.scan block with
    | none => Decimal.Delimited block
    | some (z, read) =>
      (Decimal.Delimited block ∧ Settled n (block.drop read)) ∨ (n = 0 ∧ Saturated z)

/-- The numbers asked for, as `UINTN`: one for each place in as many rows as there are newlines. -/
def askedFor (fileData : List CHAR8) : ℕ := firstWidth fileData * fileData.count newline % 2 ^ 64

/-- The result of the parser depends on the file alone, and a file with too few integers is
refused. -/
structure HeapIndependent (fs : FileSystem) (filename : List CHAR16) (c : List CHAR8) : Prop where
  same : ∀ heap heap' out, parseMazeConfigFile (fs.withHeap heap) (some filename) out =
    parseMazeConfigFile (fs.withHeap heap') (some filename) out
  short : ∀ heap out, ¬ BeginsWith
      ((parseMazeConfigFile (fs.withHeap heap) (some filename) out).2.width.toNat *
        (parseMazeConfigFile (fs.withHeap heap) (some filename) out).2.height.toNat) c →
    (parseMazeConfigFile (fs.withHeap heap) (some filename) out).1 = EFI_INVALID_PARAMETER

section Scan

variable {cs : List CHAR8} {z : ℤ} {n read : ℕ}

theorem toInt_toLongLong (z : ℤ) : (toLongLong z).toInt = max (-2 ^ 63) (min z (2 ^ 63 - 1)) := by
  rw [toLongLong, BitVec.toInt_ofInt, Int.bmod_eq_of_le (by omega) (by omega)]

theorem toLongLong_eq_iff (z z' : ℤ) : toLongLong z = toLongLong z' ↔
    max (-2 ^ 63) (min z (2 ^ 63 - 1)) = max (-2 ^ 63) (min z' (2 ^ 63 - 1)) := by
  rw [← BitVec.toInt_inj, toInt_toLongLong, toInt_toLongLong]

theorem head?_scanNumbers (n : ℕ) (cs : List CHAR8) :
    (scanNumbers (n + 1) cs).1.head? =
      some (((Decimal.scan cs).map fun r => toLongLong r.1).getD 0) := by
  rw [scanNumbers, sscanfLld]
  cases Decimal.scan cs <;> simp [List.replicate_succ]

theorem scanNumbers_none (h : Decimal.scan cs = none) :
    scanNumbers (n + 1) cs = (List.replicate (n + 1) 0, false) := by
  rw [scanNumbers, sscanfLld, h]
  rfl

theorem scanNumbers_some (h : Decimal.scan cs = some (z, read)) :
    scanNumbers (n + 1) cs =
      (toLongLong z :: (scanNumbers n (cs.drop read)).1, (scanNumbers n (cs.drop read)).2) := by
  rw [scanNumbers, sscanfLld, h]
  rfl

theorem scanNumbers_append_some {tail : List CHAR8} (h : Decimal.scan cs = some (z, read))
    (happend : Decimal.scan (cs ++ tail) = Decimal.scan cs) :
    scanNumbers (n + 1) (cs ++ tail) = (toLongLong z :: (scanNumbers n (cs.drop read ++ tail)).1,
      (scanNumbers n (cs.drop read ++ tail)).2) := by
  rw [scanNumbers_some (happend.trans h),
    List.drop_append_of_le_length (Decimal.scan_bounds h).2]

theorem scanNumbers_append_zeroes (n k : ℕ) (cs : List CHAR8) :
    scanNumbers n (cs ++ List.replicate k 0) = scanNumbers n cs := by
  have hzero : ∀ c ∈ (List.replicate k (0 : CHAR8)).head?,
      Decimal.isSpace c = false ∧ Decimal.isSign c = false ∧ Decimal.isDigit c = false := by
    intro c hc
    obtain rfl := List.eq_of_mem_replicate (List.mem_of_mem_head? hc)
    decide
  induction n generalizing cs with
  | zero => rfl
  | succ n ih =>
    have happend := Decimal.scan_append_of_head cs hzero
    cases hscan : Decimal.scan cs with
    | none => rw [scanNumbers_none hscan, scanNumbers_none (happend.trans hscan)]
    | some r => rw [scanNumbers_some hscan, scanNumbers_append_some hscan happend, ih]

/-- Digits that follow change neither a number that the text ends nor one out of range. -/
theorem toLongLong_scan_append (h : Decimal.scan cs = some (z, read)) (hz : Saturated z)
    (heap : List CHAR8) :
    ∃ z' read', Decimal.scan (cs ++ heap) = some (z', read') ∧ toLongLong z' = toLongLong z := by
  by_cases hd : Decimal.Delimited cs
  · exact ⟨z, read, (Decimal.scan_append_of_delimited hd heap).trans h, rfl⟩
  · have hbody := Decimal.dropWhile_isSpace_ne_nil h
    obtain ⟨rfl, rfl⟩ := Decimal.eq_of_scan_of_not_delimited hd h
    have hne : Decimal.afterSign cs ≠ [] := by
      rintro hnil
      rw [Decimal.scan_of_not_delimited hd, if_pos hnil] at h
      cases h
    have happend := Decimal.scan_append_of_not_delimited hd heap (Or.inl hbody)
    rw [if_neg (List.append_ne_nil_of_left_ne_nil hne _)] at happend
    refine ⟨_, _, happend, ?_⟩
    rw [toLongLong_eq_iff]
    have hsign := Decimal.withSign_append (Decimal.signOf cs) (Decimal.afterSign cs)
      (heap.takeWhile Decimal.isDigit)
    unfold Saturated at hz
    omega

theorem saturated_of_toLongLong (sign digits : List CHAR8)
    (h : toLongLong (Decimal.withSign sign (digits ++ [Decimal.digitByte 1])) =
      toLongLong (Decimal.withSign sign digits)) : Saturated (Decimal.withSign sign digits) := by
  have hvalue : Decimal.value (digits ++ [Decimal.digitByte 1]) = Decimal.value digits * 10 + 1 :=
    Decimal.value_append digits [Decimal.digitByte 1]
  rw [toLongLong_eq_iff] at h
  unfold Decimal.withSign at h ⊢
  unfold Saturated
  rw [hvalue] at h
  split_ifs at h ⊢ <;> omega

end Scan

section Settled

variable {cs : List CHAR8} {z : ℤ} {n read : ℕ}

theorem settled_none (h : Decimal.scan cs = none) :
    Settled (n + 1) cs ↔ Decimal.Delimited cs := by
  rw [Settled, h]

theorem settled_some (h : Decimal.scan cs = some (z, read)) :
    Settled (n + 1) cs ↔
      (Decimal.Delimited cs ∧ Settled n (cs.drop read)) ∨ (n = 0 ∧ Saturated z) := by
  rw [Settled, h]

instance decidableSettled : ∀ (n : ℕ) (block : List CHAR8), Decidable (Settled n block)
  | 0, _ => isTrue trivial
  | n + 1, block =>
    match h : Decimal.scan block with
    | none => decidable_of_iff _ (settled_none h).symm
    | some (_, read) =>
      have := decidableSettled n (block.drop read)
      decidable_of_iff _ (settled_some h).symm

theorem scanNumbers_append_of_settled (h : Settled n cs) (heap : List CHAR8) :
    scanNumbers n (cs ++ heap) = scanNumbers n cs := by
  induction n generalizing cs with
  | zero => rfl
  | succ n ih =>
    cases hscan : Decimal.scan cs with
    | none =>
      have hd := (settled_none hscan).mp h
      rw [scanNumbers_none hscan,
        scanNumbers_none ((Decimal.scan_append_of_delimited hd heap).trans hscan)]
    | some r =>
      rcases (settled_some hscan).mp h with ⟨hd, hrest⟩ | ⟨rfl, hz⟩
      · have happend := Decimal.scan_append_of_delimited hd heap
        rw [scanNumbers_some hscan, scanNumbers_append_some hscan happend, ih hrest]
      · obtain ⟨z', read', hscan', hz'⟩ := toLongLong_scan_append hscan hz heap
        rw [scanNumbers_some hscan, scanNumbers_some hscan', hz']
        rfl

/-- Two rows of two numbers are settled by the last newline, and are not without it. -/
example : Settled 4 [49, space, 50, newline, 51, space, 52, newline] ∧
    ¬ Settled 4 [49, space, 50, newline, 51, space, 52] := by decide +kernel

theorem saturated_of_head (hd : ¬ Decimal.Delimited cs)
    (h : (scanNumbers (n + 1) (cs ++ [0])).1.head? =
      (scanNumbers (n + 1) (cs ++ [Decimal.digitByte 1, 0])).1.head?) :
    Saturated (Decimal.withSign (Decimal.signOf cs) (Decimal.afterSign cs)) := by
  have hstop : ∀ c ∈ ([0] : List CHAR8).head?,
      Decimal.isSpace c = false ∧ Decimal.isSign c = false ∧ Decimal.isDigit c = false := by decide
  have hplain : ∀ c ∈ ([Decimal.digitByte 1, 0] : List CHAR8).head?,
      Decimal.isSpace c = false ∧ Decimal.isSign c = false := by decide
  have hdigit : ([Decimal.digitByte 1, 0] : List CHAR8).takeWhile Decimal.isDigit =
      [Decimal.digitByte 1] := by decide
  have hne : Decimal.afterSign cs ++ [Decimal.digitByte 1] ≠ [] := List.concat_ne_nil _ _
  rw [head?_scanNumbers, head?_scanNumbers, Option.some.injEq, Decimal.scan_append_of_head cs hstop,
    Decimal.scan_append_of_not_delimited hd _ (Or.inr hplain), hdigit, if_neg hne,
    Decimal.scan_of_not_delimited hd] at h
  refine saturated_of_toLongLong _ _ (h.symm.trans ?_)
  split_ifs with hnil
  · -- without a digit the block keeps its zero
    rw [hnil, Decimal.withSign_nil]
    rfl
  · rfl

theorem eq_zero_of_scanNumbers (hscan : Decimal.scan cs = some (z, cs.length))
    (h : scanNumbers (n + 1) (cs ++ [0]) =
      scanNumbers (n + 1) (cs ++ [space, Decimal.digitByte 1, 0])) :
    n = 0 := by
  have hstop : ∀ c ∈ ([0] : List CHAR8).head?, Decimal.isDigit c = false := by decide
  have hspace : ∀ c ∈ ([space, Decimal.digitByte 1, 0] : List CHAR8).head?,
      Decimal.isDigit c = false := by decide
  cases n with
  | zero => rfl
  | succ n =>
    rw [scanNumbers_append_some hscan ((Decimal.scan_append hscan hstop).trans hscan.symm),
      scanNumbers_append_some hscan ((Decimal.scan_append hscan hspace).trans hscan.symm),
      List.drop_length, Prod.mk.injEq, List.cons.injEq] at h
    have hheads := congrArg List.head? h.1.2
    rw [head?_scanNumbers, head?_scanNumbers] at hheads
    exact absurd hheads (by decide +kernel)

/-- Heaps that begin with a digit, or with another number, tell the texts that are not settled. -/
theorem settled_of_scanNumbers
    (h : ∀ heap heap', scanNumbers n (cs ++ heap) = scanNumbers n (cs ++ heap')) :
    Settled n cs := by
  induction n generalizing cs with
  | zero => trivial
  | succ n ih =>
    have hhead := congrArg (fun p => p.1.head?) (h [0] [Decimal.digitByte 1, 0])
    cases hscan : Decimal.scan cs with
    | none =>
      rw [settled_none hscan]
      by_contra hd
      have hnil : Decimal.afterSign cs = [] := by
        by_contra hne
        rw [Decimal.scan_of_not_delimited hd, if_neg hne] at hscan
        cases hscan
      have hz := saturated_of_head hd hhead
      rw [hnil, Decimal.withSign_nil] at hz
      unfold Saturated at hz
      omega
    | some r =>
      obtain ⟨z, read⟩ := r
      rw [settled_some hscan]
      by_cases hd : Decimal.Delimited cs
      · refine Or.inl ⟨hd, ih fun heap heap' => ?_⟩
        have hrest := h heap heap'
        rw [scanNumbers_append_some hscan (Decimal.scan_append_of_delimited hd heap),
          scanNumbers_append_some hscan (Decimal.scan_append_of_delimited hd heap'), Prod.mk.injEq,
          List.cons.injEq] at hrest
        exact Prod.ext hrest.1.2 hrest.2
      · obtain ⟨rfl, rfl⟩ := Decimal.eq_of_scan_of_not_delimited hd hscan
        exact Or.inr ⟨eq_zero_of_scanNumbers hscan (h _ _), saturated_of_head hd hhead⟩

end Settled

section Parse

variable {fs : FileSystem} {filename : List CHAR16} {c : List CHAR8}

theorem Reads.withHeap (hread : Reads fs filename c) (heap : List CHAR8) :
    Reads (fs.withHeap heap) filename c :=
  ⟨hread.handleProtocol, hread.openVolume, hread.openFile, hread.read, hread.content⟩

theorem withHeap_memory (hread : Reads fs filename c) (heap : List CHAR8) :
    c ++ (fs.withHeap heap filename).buffer.beyond = (fs filename).block ++ heap := by
  rw [FileIo.block, hread.content, List.append_assoc, ← hread.content]
  rfl

/-- The dimensions multiply to the places of the rows, also where there is no row. -/
theorem mazeCount_mul (hlen : c.length < 2 ^ 64) :
    (mazeCount c).width.toNat * (mazeCount c).height.toNat = firstWidth c * c.count newline := by
  rw [toNat_mazeCount_height hlen]
  by_cases hmem : newline ∈ c
  · rw [toNat_mazeCount_width hlen hmem]
  · rw [List.count_eq_zero_of_not_mem hmem, Nat.mul_zero, Nat.mul_zero]

theorem toNat_mazeCount_askedFor (hlen : c.length < 2 ^ 64) :
    ((mazeCount c).width * (mazeCount c).height).toNat = askedFor c := by
  rw [BitVec.toNat_mul, mazeCount_mul hlen, askedFor]

theorem Reads.parseMazeConfigFile_withHeap (hread : Reads fs filename c) (heap : List CHAR8)
    (out : MazeConfig) :
    parseMazeConfigFile (fs.withHeap heap) (some filename) out =
      let p := scanNumbers (askedFor c) ((fs filename).block ++ heap)
      (if p.2 then (fs filename).read else EFI_INVALID_PARAMETER,
        ⟨p.1, (mazeCount c).width, (mazeCount c).height⟩) := by
  have hread' := hread.withHeap heap
  have herror : efiError (fs.withHeap heap filename).read = false := hread.read
  simp only [parseMazeConfigFile, hread'.readFile_eq, hread'.bytes_eq, herror, Bool.false_eq_true,
    if_false, withHeap_memory hread, toNat_mazeCount_askedFor hread.length_lt]
  rfl

theorem Reads.beginsWith_block (hread : Reads fs filename c) (n : ℕ) :
    BeginsWith n (fs filename).block ↔ BeginsWith n c := by
  rw [← scanNumbers_iff, ← scanNumbers_iff, FileIo.block, scanNumbers_append_zeroes, hread.content]

theorem Reads.status_eq_iff (hread : Reads fs filename c) (heap : List CHAR8) (out : MazeConfig) :
    (parseMazeConfigFile (fs.withHeap heap) (some filename) out).1 = EFI_INVALID_PARAMETER ↔
      (scanNumbers (askedFor c) ((fs filename).block ++ heap)).2 = false := by
  have hne : (fs filename).read ≠ EFI_INVALID_PARAMETER := by
    intro heq
    have herror := hread.read
    rw [heq] at herror
    exact absurd herror (by decide)
  rw [hread.parseMazeConfigFile_withHeap]
  dsimp only
  cases (scanNumbers (askedFor c) ((fs filename).block ++ heap)).2 with
  | true => simpa using hne
  | false => simp

theorem BeginsWith.le_length {n : ℕ} (h : BeginsWith n c) : n ≤ c.length := by
  obtain ⟨vs, rest, hscans, rfl⟩ := h
  have hle := hscans.length_add_le
  omega

/-- The result depends on the file alone exactly if the conversions asked for end in the block and
the number of places has not wrapped around to a number of integers that the file has. -/
theorem heapIndependent_iff (hread : Reads fs filename c) :
    HeapIndependent fs filename c ↔
      Settled (askedFor c) (fs filename).block ∧
        (firstWidth c * c.count newline < 2 ^ 64 ∨ ¬ BeginsWith (askedFor c) c) := by
  have hmul := mazeCount_mul hread.length_lt
  have hlen := hread.length_lt
  constructor
  · intro h
    have hscans : ∀ heap heap', scanNumbers (askedFor c) ((fs filename).block ++ heap) =
        scanNumbers (askedFor c) ((fs filename).block ++ heap') := by
      intro heap heap'
      have hsame := h.same heap heap' ⟨[], 0, 0⟩
      have hstatus : (scanNumbers (askedFor c) ((fs filename).block ++ heap)).2 = false ↔
          (scanNumbers (askedFor c) ((fs filename).block ++ heap')).2 = false := by
        rw [← hread.status_eq_iff heap ⟨[], 0, 0⟩, ← hread.status_eq_iff heap' ⟨[], 0, 0⟩, hsame]
      have hnumbers := congrArg (fun r => r.2.numbers) hsame
      simp only [hread.parseMazeConfigFile_withHeap] at hnumbers
      exact Prod.ext hnumbers (Bool.eq_iff_iff.mpr (by simpa using not_congr hstatus))
    refine ⟨settled_of_scanNumbers hscans, ?_⟩
    by_contra hwrapped
    rw [not_or, not_lt, not_not] at hwrapped
    obtain ⟨hwrap, hbegin⟩ := hwrapped
    -- a file has no room for so many integers, and is accepted all the same
    have hfew : ¬ BeginsWith (firstWidth c * c.count newline) c := by
      intro hmany
      have hle := hmany.le_length
      omega
    have hrefused := h.short [] ⟨[], 0, 0⟩ (by rwa [hread.parseMazeConfigFile_withHeap, hmul])
    rw [hread.status_eq_iff, List.append_nil,
      scanNumbers_iff.mpr ((hread.beginsWith_block _).mpr hbegin)] at hrefused
    cases hrefused
  · rintro ⟨hsettled, hplaces⟩
    have hscans : ∀ heap, scanNumbers (askedFor c) ((fs filename).block ++ heap) =
        scanNumbers (askedFor c) (fs filename).block := scanNumbers_append_of_settled hsettled
    constructor
    · intro heap heap' out
      rw [hread.parseMazeConfigFile_withHeap, hread.parseMazeConfigFile_withHeap, hscans heap,
        hscans heap']
    · intro heap out hfew
      rw [hread.parseMazeConfigFile_withHeap, hmul] at hfew
      rw [hread.status_eq_iff, hscans, ← Bool.not_eq_true, scanNumbers_iff, hread.beginsWith_block]
      rcases hplaces with hlt | hnot
      · rwa [askedFor, Nat.mod_eq_of_lt hlt]
      · exact hnot

end Parse

/-- Two rows, the second of them with one integer: `1 2` and `3`. -/
def shortRow : List CHAR8 := [49, space, 50, newline, 51, newline]

def shortRowFs : FileSystem := fun _ => FileIo.ofBytes shortRow [] (by decide +kernel)

theorem shortRowFs_reads : Reads shortRowFs [] shortRow := Reads.ofBytes

theorem heapIndependent_iff_shortRow :
    HeapIndependent shortRowFs [] shortRow ↔
      Settled (askedFor shortRow) (shortRowFs []).block ∧
        (firstWidth shortRow * shortRow.count newline < 2 ^ 64 ∨
          ¬ BeginsWith (askedFor shortRow) shortRow) :=
  heapIndependent_iff shortRowFs_reads

/-- The missing number is a seven in the heap, and without it the file is refused. -/
theorem not_heapIndependent_shortRow :
    ¬ ∀ (fs : FileSystem) (filename : List CHAR16) (c : List CHAR8),
      Reads fs filename c → HeapIndependent fs filename c := by
  intro h
  have hsame := (h shortRowFs [] shortRow shortRowFs_reads).same [0] [55, 0] ⟨[], 0, 0⟩
  have hrefused : parseMazeConfigFile (shortRowFs.withHeap [0]) (some []) ⟨[], 0, 0⟩ =
      (EFI_INVALID_PARAMETER, ⟨[1, 2, 3, 0], 2, 2⟩) := by decide +kernel
  have haccepted : parseMazeConfigFile (shortRowFs.withHeap [55, 0]) (some []) ⟨[], 0, 0⟩ =
      (EFI_SUCCESS, ⟨[1, 2, 3, 7], 2, 2⟩) := by decide +kernel
  rw [hrefused, haccepted] at hsame
  exact absurd hsame (by decide)

end UefiGame
