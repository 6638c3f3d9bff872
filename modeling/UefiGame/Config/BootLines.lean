import UefiGame.Config.BootScan
import UefiGame.Library.Lines

/-! # The boot configuration scanner line by line

What the scanner makes of a line depends on the line and on the line before it
alone: it counts the bytes behind the first marker, without the blanks of later
markers, and copies as many bytes from the end of the line. A line goes to the
slot it has in its block, and an empty line starts the next entry, unless it is
the first line of the file.
-/

namespace UefiGame

/-- The number of bytes of a segment that are counted, the byte before the segment being `p` and
`write` being `w`. -/
def counted : CHAR8 → Bool → List CHAR8 → ℕ
  | _, _, [] => 0
  | p, w, c :: seg =>
    if c = space ∧ p = colon then counted c true seg
    else (if w then 1 else 0) + counted c w seg

/-- The bytes that are copied when the line ends. -/
def keptPart (line : List CHAR8) : List CHAR8 := line.rtake (counted newline false line)

/-- The string that is stored for a line, with the status of the conversion. -/
def converted (convert : AsciiStrToUnicodeStrS) (line : List CHAR8) : EFI_STATUS × List CHAR16 :=
  convert (keptPart line ++ [0]) ((keptPart line).length + 1)

/-- The scanner over a whole line with its newline. -/
def lineStep (convert : AsciiStrToUnicodeStrS) (s : ConfigScan) (line : List CHAR8) : ConfigScan :=
  if line = [] ∧ s.prev = newline then
    { s with prev := newline, curStruct := s.curStruct + 1, curValue := 0 }
  else
    { s with
      prev := newline
      status := (converted convert line).1
      result :=
        s.result.modify s.curStruct (BootEntry.setField (converted convert line).2 s.curValue)
      curValue := s.curValue + 1 }

/-- The slot the next line goes to: the number of an entry, and of a field. -/
def ConfigScan.slot (s : ConfigScan) : ℕ × ℕ := (s.curStruct, s.curValue)

/-- The slot after one more line. -/
def nextSlot (slot : ℕ × ℕ) (line : List CHAR8) : ℕ × ℕ :=
  if line = [] then (slot.1 + 1, 0) else (slot.1, slot.2 + 1)

/-- The slot after the given lines, of which the first counts as filled even if it is empty. -/
def slotAfter : List (List CHAR8) → ℕ × ℕ
  | [] => (0, 0)
  | _ :: lines => lines.foldl nextSlot (0, 1)

/-- The field that `BootEntry.setField` sets. -/
def BootEntry.field : ℕ → BootEntry → Str16
  | 0, e => e.title
  | 1, e => e.volumeGuid
  | 2, e => e.loaderName
  | 3, e => e.icon
  | 4, e => e.options
  | _, _ => none

/-- The string in a slot. -/
def storedIn (result : List BootEntry) (slot : ℕ × ℕ) : Str16 :=
  result[slot.1]?.bind (BootEntry.field slot.2)

/-- The string that `ParseConfigFile` returns for the line that ends at offset `i`. -/
def storedAt (convert : AsciiStrToUnicodeStrS) (fileData : List CHAR8) (i : ℕ) : Str16 :=
  storedIn (scanConfig convert fileData).result (scanTo convert fileData i).slot

/-- Lines with their newlines. -/
def linesText (lines : List (List CHAR8)) : List CHAR8 := lines.flatMap (· ++ [newline])

/-- The scanner is at the start of a line: no value is being read. -/
structure ConfigScan.AtLine (s : ConfigScan) : Prop where
  write : s.write = false
  curChar : s.curChar = 0
  prev : s.prev ≠ colon

section Line

variable {convert : AsciiStrToUnicodeStrS} {data pre post seg line : List CHAR8} {s : ConfigScan}
  {p : CHAR8} {w : Bool} {i : ℕ} {lines : List (List CHAR8)}

@[simp] theorem linesText_nil : linesText [] = [] := rfl

@[simp] theorem linesText_cons (line : List CHAR8) (lines : List (List CHAR8)) :
    linesText (line :: lines) = line ++ newline :: linesText lines := by
  simp [linesText]

@[simp] theorem linesText_append (lines lines' : List (List CHAR8)) :
    linesText (lines ++ lines') = linesText lines ++ linesText lines' := List.flatMap_append

theorem counted_le_length (p : CHAR8) (w : Bool) (seg : List CHAR8) :
    counted p w seg ≤ seg.length := by
  induction seg generalizing p w with
  | nil => exact le_rfl
  | cons c seg ih =>
    have htrue := ih c true
    have hw := ih c w
    rw [counted, List.length_cons]
    split_ifs <;> omega

theorem counted_of_ne_colon (hp : p ≠ colon) (w : Bool) (seg : List CHAR8) :
    counted p w seg = counted newline w seg := by
  have hn : newline ≠ colon := by decide
  cases seg with
  | nil => rfl
  | cons c seg => simp [counted, hp, hn]

theorem foldl_of_notMem (h : newline ∉ seg) (s : ConfigScan) (i : ℕ) :
    ∃ w, (seg.zipIdx i).foldl (configStep convert data) s =
      { s with
        prev := seg.getLastD s.prev
        write := w
        curChar := s.curChar + counted s.prev s.write seg } := by
  induction seg generalizing s i with
  | nil => exact ⟨s.write, rfl⟩
  | cons c seg ih =>
    rw [List.mem_cons, not_or] at h
    rw [List.zipIdx_cons, List.foldl_cons]
    by_cases hm : c = space ∧ s.prev = colon
    · obtain ⟨rfl, hp⟩ := hm
      obtain ⟨w, hseg⟩ := ih h.2 { s with prev := space, write := true } (i + 1)
      refine ⟨w, ?_⟩
      rw [configStep_marker hp, hseg]
      simp [counted, hp, List.getLast?_cons]
    · obtain ⟨w, hseg⟩ := ih h.2
        { s with prev := c, curChar := s.curChar + if s.write then 1 else 0 } (i + 1)
      refine ⟨w, ?_⟩
      rw [configStep_quiet (Ne.symm h.1) hm, hseg]
      simp [counted, hm, List.getLast?_cons, Nat.add_assoc]

theorem getLastD_eq_newline_iff (h : newline ∉ seg) (p : CHAR8) :
    seg.getLastD p = newline ↔ seg = [] ∧ p = newline := by
  cases seg using List.reverseRecOn with
  | nil => simp
  | append_singleton seg c =>
    rw [List.getLastD_concat]
    constructor
    · rintro rfl
      exact absurd (by simp) h
    · rintro ⟨hnil, -⟩
      exact absurd hnil (by simp)

theorem copyBack_keptPart (pre post line : List CHAR8) (hdata : data = pre ++ line ++ post) :
    copyBack data (pre.length + line.length) (counted newline false line) = keptPart line := by
  have hle := counted_le_length newline false line
  have hline : line = line.rdrop (counted newline false line) ++ keptPart line :=
    (List.take_append_drop _ _).symm
  have hlen : (keptPart line).length = counted newline false line := by
    rw [keptPart, List.rtake, List.length_drop]
    omega
  have hcopy : copyBack data _ _ = _ := copyBack_eq
    (pre ++ line.rdrop (counted newline false line)) (keptPart line) post
    (by rw [List.append_assoc pre, ← hline, hdata])
  rwa [List.length_append, Nat.add_assoc, ← List.length_append, ← hline, hlen] at hcopy

theorem ConfigScan.AtLine.lineStep (h : s.AtLine) (convert : AsciiStrToUnicodeStrS)
    (line : List CHAR8) : (lineStep convert s line).AtLine := by
  have hn : newline ≠ colon := by decide
  unfold UefiGame.lineStep
  split_ifs
  · exact ⟨h.write, h.curChar, hn⟩
  · exact ⟨h.write, h.curChar, hn⟩

/-- The scanner over the bytes of a line and its newline. -/
theorem foldl_line (hs : s.AtLine) (hline : newline ∉ line) (post : List CHAR8)
    (hdata : data = pre ++ line ++ newline :: post) :
    ((line ++ [newline]).zipIdx pre.length).foldl (configStep convert data) s =
      lineStep convert s line := by
  by_cases hblank : line = [] ∧ s.prev = newline
  · obtain ⟨rfl, hp⟩ := hblank
    rw [UefiGame.lineStep, if_pos ⟨rfl, hp⟩, List.nil_append, List.zipIdx_singleton,
      List.foldl_cons,
      List.foldl_nil, configStep_blank hp]
  · obtain ⟨w, hseg⟩ : ∃ w, (line.zipIdx pre.length).foldl (configStep convert data) s = _ :=
      foldl_of_notMem hline s pre.length
    have hlast := getLastD_eq_newline_iff hline s.prev
    have hcounted : s.curChar + counted s.prev s.write line = counted newline false line := by
      rw [hs.curChar, hs.write, counted_of_ne_colon hs.prev, Nat.zero_add]
    have hcopy := copyBack_keptPart pre (newline :: post) line hdata
    have hlen : (keptPart line).length = counted newline false line := by
      rw [← hcopy, copyBack, List.length_map, List.length_range]
    rw [UefiGame.lineStep, if_neg hblank, List.zipIdx_append, List.foldl_append, hseg, hcounted,
      List.zipIdx_singleton, List.foldl_cons, List.foldl_nil,
      configStep_newline (fun h => hblank (hlast.mp h))]
    simp only [flushLine, hcopy, converted, hlen, hs.write, hs.curChar]

theorem foldl_linesText (convert : AsciiStrToUnicodeStrS) (hs : s.AtLine)
    (hlines : ∀ line ∈ lines, newline ∉ line) (pre post : List CHAR8)
    (hdata : data = pre ++ linesText lines ++ post) :
    ((linesText lines).zipIdx pre.length).foldl (configStep convert data) s =
      lines.foldl (lineStep convert) s := by
  induction lines generalizing s pre with
  | nil => rfl
  | cons line lines ih =>
    rw [List.forall_mem_cons] at hlines
    rw [linesText_cons] at hdata ⊢
    have hhead : ((line ++ [newline]).zipIdx pre.length).foldl (configStep convert data) s = _ :=
      foldl_line hs hlines.1 (linesText lines ++ post) (by rw [hdata]; simp)
    have htail := ih (hs.lineStep convert line) hlines.2 (pre ++ line ++ [newline])
      (by rw [hdata]; simp)
    have hlen : pre.length + (line ++ [newline]).length = (pre ++ line ++ [newline]).length := by
      simp only [List.length_append, Nat.add_assoc]
    rw [List.append_cons, List.zipIdx_append, List.foldl_append, hhead, hlen, List.foldl_cons,
      htail]

theorem atLine_start (size : ℕ) : (ConfigScan.start size).AtLine :=
  ⟨rfl, rfl, (by decide : (0 : CHAR8) ≠ colon)⟩

/-- Bytes behind the last newline are not stored. -/
theorem scanConfig_linesText (convert : AsciiStrToUnicodeStrS)
    (hlines : ∀ line ∈ lines, newline ∉ line) (hpost : newline ∉ post)
    (hdata : data = linesText lines ++ post) :
    ∃ p w n, scanConfig convert data =
      { lines.foldl (lineStep convert) (ConfigScan.start (resultSize data)) with
        prev := p, write := w, curChar := n } := by
  have hscan := foldl_linesText convert (atLine_start (resultSize data)) hlines [] post hdata
  have hsplit : data.zipIdx = (linesText lines).zipIdx ++ post.zipIdx (linesText lines).length := by
    rw [hdata, List.zipIdx_append, Nat.zero_add]
  obtain ⟨w, hpostScan⟩ : ∃ w, (post.zipIdx (linesText lines).length).foldl
      (configStep convert data)
      (lines.foldl (lineStep convert) (ConfigScan.start (resultSize data))) = _ :=
    foldl_of_notMem hpost _ _
  rw [List.length_nil] at hscan
  rw [scanConfig, hsplit, List.foldl_append, hscan, hpostScan]
  exact ⟨_, w, _, rfl⟩

theorem prev_lineStep (s : ConfigScan) (line : List CHAR8) :
    (lineStep convert s line).prev = newline := by
  unfold lineStep
  split_ifs <;> rfl

theorem slot_lineStep (h : s.prev = newline) (line : List CHAR8) :
    (lineStep convert s line).slot = nextSlot s.slot line := by
  unfold lineStep nextSlot ConfigScan.slot
  by_cases hline : line = [] <;> simp [h, hline]

theorem slot_foldl_lineStep (h : s.prev = newline) (lines : List (List CHAR8)) :
    (lines.foldl (lineStep convert) s).slot = lines.foldl nextSlot s.slot := by
  induction lines generalizing s with
  | nil => rfl
  | cons line lines ih =>
    rw [List.foldl_cons, List.foldl_cons, ih (prev_lineStep s line), slot_lineStep h]

theorem slot_foldl_start (convert : AsciiStrToUnicodeStrS) (lines : List (List CHAR8)) (size : ℕ) :
    (lines.foldl (lineStep convert) (ConfigScan.start size)).slot = slotAfter lines := by
  have hn : (0 : CHAR8) ≠ newline := by decide
  cases lines with
  | nil => rfl
  | cons line lines =>
    have hfirst : (lineStep convert (ConfigScan.start size) line).slot = (0, 1) := by
      rw [lineStep, if_neg fun h => hn h.2]
      rfl
    rw [List.foldl_cons, slot_foldl_lineStep (prev_lineStep _ line), hfirst, slotAfter]

theorem slotAfter_append_singleton (hne : lines ≠ []) (line : List CHAR8) :
    slotAfter (lines ++ [line]) = nextSlot (slotAfter lines) line := by
  cases lines with
  | nil => exact absurd rfl hne
  | cons first lines => simp [slotAfter]

theorem fst_foldl_nextSlot (lines : List (List CHAR8)) (slot : ℕ × ℕ) :
    (lines.foldl nextSlot slot).1 = slot.1 + lines.countP fun line => line = [] := by
  induction lines generalizing slot with
  | nil => rfl
  | cons line lines ih =>
    rw [List.foldl_cons, ih]
    unfold nextSlot
    by_cases hline : line = []
    · simp [hline, Nat.add_assoc, Nat.add_comm 1]
    · simp [hline]

theorem fst_slotAfter (lines : List (List CHAR8)) :
    (slotAfter lines).1 = lines.tail.countP fun line => line = [] := by
  cases lines with
  | nil => rfl
  | cons line lines => rw [slotAfter, fst_foldl_nextSlot, Nat.zero_add, List.tail_cons]

theorem scanTo_length (convert : AsciiStrToUnicodeStrS) (data : List CHAR8) :
    scanTo convert data data.length = scanConfig convert data := by
  rw [scanTo, List.take_length, scanConfig]

/-- The first pass counts the entries up to the one the second pass ends in. -/
theorem resultSize_linesText (hlines : ∀ line ∈ lines, newline ∉ line) (hpost : newline ∉ post)
    (hdata : data = linesText lines ++ post) : resultSize data = (slotAfter lines).1 + 1 := by
  obtain ⟨p, w, n, hscan⟩ := scanConfig_linesText asciiStrToUnicodeStrS hlines hpost hdata
  have hcount := (scanned_scanTo asciiStrToUnicodeStrS data data.length).count
  have hslot := slot_foldl_start asciiStrToUnicodeStrS lines (resultSize data)
  rw [scanTo_length, hscan, List.take_length] at hcount
  rw [resultSize, hcount, ← hslot]
  rfl

theorem field_setField_self (dest : List CHAR16) {k : ℕ} (hk : k < 5) (e : BootEntry) :
    (e.setField dest k).field k = some dest := by
  rcases k with _ | _ | _ | _ | _ | k <;> first | rfl | omega

theorem field_setField_of_ne (dest : List CHAR16) {j k : ℕ} (hjk : j ≠ k) (e : BootEntry) :
    (e.setField dest k).field j = e.field j := by
  rcases k with _ | _ | _ | _ | _ | k <;> rcases j with _ | _ | _ | _ | _ | j <;>
    first | rfl | exact absurd rfl hjk

theorem storedIn_of_le (result : List BootEntry) {slot : ℕ × ℕ} (h : 5 ≤ slot.2) :
    storedIn result slot = none := by
  have hfield : ∀ e, BootEntry.field slot.2 e = none := by
    intro e
    obtain ⟨k, hk⟩ := Nat.exists_eq_add_of_le' h
    rw [hk]
    rfl
  rw [storedIn]
  cases result[slot.1]? with
  | none => rfl
  | some e => exact hfield e

theorem storedIn_modify_self {result : List BootEntry} (dest : List CHAR16) {slot : ℕ × ℕ}
    (hentry : slot.1 < result.length) (hfield : slot.2 < 5) :
    storedIn (result.modify slot.1 (BootEntry.setField dest slot.2)) slot = some dest := by
  rw [storedIn, List.getElem?_modify_eq, List.getElem?_eq_getElem hentry]
  exact field_setField_self dest hfield _

theorem storedIn_modify_of_ne (result : List BootEntry) (dest : List CHAR16) {slot : ℕ × ℕ}
    (slot' : ℕ × ℕ) (hne : slot ≠ slot') :
    storedIn (result.modify slot'.1 (BootEntry.setField dest slot'.2)) slot =
      storedIn result slot := by
  by_cases hentry : slot'.1 = slot.1
  · have hfield : slot.2 ≠ slot'.2 := fun h => hne (Prod.ext hentry.symm h)
    rw [storedIn, storedIn, hentry, List.getElem?_modify_eq]
    cases result[slot.1]? with
    | none => rfl
    | some e => exact field_setField_of_ne dest hfield e
  · rw [storedIn, storedIn, List.getElem?_modify_ne _ _ hentry]

/-- The slots of earlier lines are in earlier entries, or in earlier fields of the entry. -/
def Earlier (slot slot' : ℕ × ℕ) : Prop :=
  slot.1 < slot'.1 ∨ slot.1 = slot'.1 ∧ slot.2 < slot'.2

theorem Earlier.lineStep {slot : ℕ × ℕ} (h : Earlier slot s.slot) (convert : AsciiStrToUnicodeStrS)
    (line : List CHAR8) :
    Earlier slot (lineStep convert s line).slot ∧
      storedIn (lineStep convert s line).result slot = storedIn s.result slot := by
  unfold Earlier ConfigScan.slot at h ⊢
  unfold UefiGame.lineStep
  split_ifs
  · exact ⟨by simp only; omega, rfl⟩
  · refine ⟨by simp only; omega, storedIn_modify_of_ne s.result _ s.slot ?_⟩
    rintro rfl
    simp only [ConfigScan.slot] at h
    omega

theorem Earlier.foldl_lineStep {slot : ℕ × ℕ} (h : Earlier slot s.slot)
    (lines : List (List CHAR8)) :
    storedIn (lines.foldl (UefiGame.lineStep convert) s).result slot = storedIn s.result slot := by
  induction lines generalizing s with
  | nil => rfl
  | cons line lines ih =>
    obtain ⟨hearlier, hstored⟩ := h.lineStep convert line
    rw [List.foldl_cons, ih hearlier, hstored]

theorem lineStep_of_ne (hne : line ≠ []) (s : ConfigScan) :
    lineStep convert s line =
      { s with
        prev := newline
        status := (converted convert line).1
        result := s.result.modify s.curStruct
          (BootEntry.setField (converted convert line).2 s.curValue)
        curValue := s.curValue + 1 } := if_neg fun h => hne h.1

theorem status_foldl_append (hne : line ≠ []) (lines : List (List CHAR8)) (s : ConfigScan) :
    ((lines ++ [line]).foldl (lineStep convert) s).status = (converted convert line).1 := by
  rw [List.foldl_append, List.foldl_cons, List.foldl_nil, lineStep_of_ne hne]

/-- The newline of the last line makes no entry. -/
theorem resultSize_append_newline (hlines : ∀ line ∈ lines, newline ∉ line) (hline : newline ∉ line)
    (hne : line ≠ []) :
    resultSize (linesText (lines ++ [line])) = resultSize (linesText lines ++ line) := by
  have hall : ∀ l ∈ lines ++ [line], newline ∉ l := by
    rw [List.forall_mem_append, List.forall_mem_singleton]
    exact ⟨hlines, hline⟩
  rw [resultSize_linesText hall List.not_mem_nil (List.append_nil _).symm,
    resultSize_linesText hlines hline rfl]
  by_cases hnil : lines = []
  · rw [hnil]
    rfl
  · rw [slotAfter_append_singleton hnil, nextSlot, if_neg hne]

theorem length_result_lineStep (s : ConfigScan) (line : List CHAR8) :
    (lineStep convert s line).result.length = s.result.length := by
  unfold lineStep
  split_ifs <;> simp

theorem length_result_foldl (lines : List (List CHAR8)) (s : ConfigScan) :
    (lines.foldl (lineStep convert) s).result.length = s.result.length := by
  induction lines generalizing s with
  | nil => rfl
  | cons line lines ih => rw [List.foldl_cons, ih, length_result_lineStep]

theorem slotAfter_fst_lt (before rest : List (List CHAR8)) :
    (slotAfter before).1 < (slotAfter (before ++ rest)).1 + 1 := by
  rw [fst_slotAfter, fst_slotAfter]
  exact Nat.lt_succ_of_le (List.Sublist.countP_le (List.sublist_append_left before rest).tail)

theorem slot_scanTo_line (convert : AsciiStrToUnicodeStrS) (before : List (List CHAR8))
    (line after : List CHAR8) (hbefore : ∀ l ∈ before, newline ∉ l) (hline : newline ∉ line)
    (hdata : data = linesText before ++ line ++ newline :: after) :
    (scanTo convert data (linesText before ++ line).length).slot = slotAfter before := by
  have hsplit : data = linesText before ++ (line ++ newline :: after) := by
    rw [hdata, List.append_assoc]
  have hscan := foldl_linesText convert (atLine_start (resultSize data)) hbefore [] _ hsplit
  obtain ⟨w, hseg⟩ : ∃ w, (line.zipIdx (linesText before).length).foldl (configStep convert data)
      (before.foldl (lineStep convert) (ConfigScan.start (resultSize data))) = _ :=
    foldl_of_notMem hline _ _
  have htake : data.take (linesText before ++ line).length = linesText before ++ line := by
    rw [hdata, List.take_left]
  rw [List.length_nil] at hscan
  rw [scanTo, htake, List.zipIdx_append, List.foldl_append, hscan, Nat.zero_add, hseg,
    ← slot_foldl_start convert before (resultSize data)]
  rfl

theorem exists_linesText (data : List CHAR8) : ∃ last, newline ∉ last ∧
    (∀ line ∈ Lines.terminated newline data, newline ∉ line) ∧
    data = linesText (Lines.terminated newline data) ++ last := by
  obtain ⟨last, hlast, hdata⟩ := Lines.eq_flatMap_append newline data
  exact ⟨last, hlast, fun line hline => Lines.notMem_of_mem_terminated hline, hdata⟩

theorem length_result_scanConfig (convert : AsciiStrToUnicodeStrS) (data : List CHAR8) :
    (scanConfig convert data).result.length = resultSize data := by
  obtain ⟨last, hlast, hlines, hdata⟩ := exists_linesText data
  obtain ⟨p, w, n, hscan⟩ := scanConfig_linesText convert hlines hlast hdata
  rw [hscan, length_result_foldl, ConfigScan.start, List.length_replicate]

theorem storedAt_line (convert : AsciiStrToUnicodeStrS) (before : List (List CHAR8))
    (line after : List CHAR8) (hbefore : ∀ l ∈ before, newline ∉ l) (hline : newline ∉ line)
    (hne : line ≠ []) (hdata : data = linesText before ++ line ++ newline :: after) :
    storedAt convert data (linesText before ++ line).length =
      if (slotAfter before).2 < 5 then some (converted convert line).2 else none := by
  have hslot := slot_scanTo_line convert before line after hbefore hline hdata
  obtain ⟨last, hlast, hterminated, hafter⟩ := exists_linesText after
  have hlines : ∀ l ∈ before ++ line :: Lines.terminated newline after, newline ∉ l := by
    intro l hl
    rcases List.mem_append.mp hl with hl | hl
    · exact hbefore l hl
    · rcases List.mem_cons.mp hl with rfl | hl
      · exact hline
      · exact hterminated l hl
  have htext : data = linesText (before ++ line :: Lines.terminated newline after) ++ last := by
    rw [hdata]
    nth_rewrite 1 [hafter]
    simp
  obtain ⟨p, w, n, hscan⟩ := scanConfig_linesText convert hlines hlast htext
  rw [storedAt, hslot, hscan, List.foldl_append, List.foldl_cons]
  -- the line fills its slot, and the lines behind it leave it alone
  have hat := slot_foldl_start convert before (resultSize data)
  generalize hs : before.foldl (lineStep convert) (ConfigScan.start (resultSize data)) = s at hat
  have hearlier : Earlier (slotAfter before) (lineStep convert s line).slot := by
    rw [← hat, lineStep_of_ne hne]
    exact Or.inr ⟨rfl, Nat.lt_succ_self _⟩
  have hentry : (slotAfter before).1 < s.result.length := by
    rw [← hs, length_result_foldl, resultSize_linesText hlines hlast htext, ConfigScan.start,
      List.length_replicate]
    exact slotAfter_fst_lt ..
  rw [hearlier.foldl_lineStep, lineStep_of_ne hne, ← hat]
  split_ifs with hfield
  · exact storedIn_modify_self _ (hat ▸ hentry) hfield
  · exact storedIn_of_le _ (Nat.le_of_not_lt hfield)

end Line

end UefiGame
