import Mathlib.Data.List.DropRight
import Mathlib.Data.List.Induction
import UefiGame.Config.Boot

/-! # The boot configuration scanner on arbitrary files

Both passes of `ParseConfigFile` see the same adjacent newlines, whatever the
file holds, and the character counter never exceeds the length of the line it
counts in. So the copy at the end of a line stays inside that line, and the
entry it is stored to inside the array that the first pass sized.
-/

namespace UefiGame

/-- The bytes since the last newline. -/
def currentLine (pre : List CHAR8) : List CHAR8 := pre.rtakeWhile fun c => c ≠ newline

/-- The number of newlines that stand right behind another one. -/
def adjacentNewlines (fileData : List CHAR8) : ℕ :=
  (fileData.zip fileData.tail).countP fun p => p.1 = newline ∧ p.2 = newline

/-- The locals of the second pass after `k` bytes. -/
def scanTo (convert : AsciiStrToUnicodeStrS) (fileData : List CHAR8) (k : ℕ) : ConfigScan :=
  (fileData.take k).zipIdx.foldl (configStep convert fileData)
    (ConfigScan.start (resultSize fileData))

/-- What flushing a line at offset `i` needs: the entry lies in the array, and the slice copied back
lies in the buffer and in the line that ends there. -/
structure FlushSafe (fileData : List CHAR8) (i : ℕ) (s : ConfigScan) : Prop where
  curStruct_lt : s.curStruct < resultSize fileData
  curChar_le : s.curChar ≤ i
  noNewline : newline ∉ copyBack fileData i s.curChar
  suffix : copyBack fileData i s.curChar <:+ currentLine (fileData.take i)

/-- What holds of the locals after the bytes `pre`: the first pass has counted the same entries, and
no more characters are counted than the line has. -/
structure ConfigScan.Scanned (s : ConfigScan) (pre : List CHAR8) : Prop where
  count : pre.foldl countStep (0, 1) = (s.prev, s.curStruct + 1)
  chars : s.curChar ≤ (currentLine pre).length

section Scan

variable {convert : AsciiStrToUnicodeStrS} {data pre post : List CHAR8} {s : ConfigScan} {i : ℕ}

theorem copyBack_eq (pre seg post : List CHAR8) (hdata : data = pre ++ seg ++ post) :
    copyBack data (pre.length + seg.length) seg.length = seg := by
  subst hdata
  apply List.ext_getElem
  · simp [copyBack]
  · intro j hj hj'
    have hget : (pre ++ seg ++ post)[pre.length + j]? = some seg[j] := by
      rw [List.append_assoc, List.getElem?_append_right (Nat.le_add_right ..),
        Nat.add_sub_cancel_left, List.getElem?_append_left hj', List.getElem?_eq_getElem hj']
    simp only [copyBack, Nat.add_sub_cancel, List.getElem_map, List.getElem_range, hget,
      Option.getD_some]

theorem configStep_quiet {c : CHAR8} (hc : c ≠ newline) (hm : ¬ (c = space ∧ s.prev = colon)) :
    configStep convert data s (c, i) =
      { s with prev := c, curChar := s.curChar + if s.write then 1 else 0 } := by
  cases hw : s.write <;> simp [configStep, hc, hm, hw]

theorem configStep_marker (h : s.prev = colon) :
    configStep convert data s (space, i) = { s with prev := space, write := true } := by
  have hn : space ≠ newline := by decide
  simp [configStep, hn, h]

theorem configStep_newline (h : s.prev ≠ newline) :
    configStep convert data s (newline, i) =
      { flushLine convert data i s with prev := newline } := by
  simp [configStep, h]

theorem configStep_blank (h : s.prev = newline) :
    configStep convert data s (newline, i) =
      { s with prev := newline, curStruct := s.curStruct + 1, curValue := 0 } := by
  simp [configStep, h]

theorem currentLine_append_newline (pre : List CHAR8) : currentLine (pre ++ [newline]) = [] := by
  rw [currentLine, List.rtakeWhile_concat_neg _ _ _ (by simp)]

theorem currentLine_append_of_ne {c : CHAR8} (hc : c ≠ newline) (pre : List CHAR8) :
    currentLine (pre ++ [c]) = currentLine pre ++ [c] := by
  rw [currentLine, List.rtakeWhile_concat_pos _ _ _ (by simpa using hc), currentLine]

theorem newline_notMem_currentLine (pre : List CHAR8) : newline ∉ currentLine pre := by
  intro h
  have hne := List.mem_rtakeWhile_imp h
  simp at hne

theorem currentLine_suffix (pre : List CHAR8) : currentLine pre <:+ pre :=
  List.rtakeWhile_suffix _ _

theorem count_configStep (c : CHAR8) :
    countStep (s.prev, s.curStruct + 1) c =
      (c, (configStep convert data s (c, i)).curStruct + 1) := by
  unfold countStep configStep flushLine
  split_ifs <;> rfl

theorem curChar_configStep_of_ne {c : CHAR8} (hc : c ≠ newline) :
    (configStep convert data s (c, i)).curChar ≤ s.curChar + 1 := by
  simp only [configStep, hc, false_and, if_false]
  split_ifs <;> simp

theorem fst_foldl_countStep (pre : List CHAR8) (p : CHAR8 × ℕ) :
    (pre.foldl countStep p).1 = pre.getLastD p.1 := by
  cases pre using List.reverseRecOn with
  | nil => rfl
  | append_singleton pre c => simp [countStep]

theorem le_snd_foldl_countStep (post : List CHAR8) (p : CHAR8 × ℕ) :
    p.2 ≤ (post.foldl countStep p).2 := by
  induction post generalizing p with
  | nil => exact le_rfl
  | cons c post ih =>
    apply le_trans _ (ih _)
    unfold countStep
    split_ifs <;> simp

theorem snd_foldl_countStep (data : List CHAR8) (p : CHAR8) (n : ℕ) :
    (data.foldl countStep (p, n)).2 =
      n + ((p :: data).zip data).countP fun q => q.1 = newline ∧ q.2 = newline := by
  induction data generalizing p n with
  | nil => rfl
  | cons c data ih =>
    rw [List.foldl_cons, countStep, ih, List.zip_cons_cons, List.countP_cons]
    by_cases h : c = newline ∧ p = newline
    · simp [h, Nat.add_assoc, Nat.add_comm 1]
    · have h' : ¬ (p = newline ∧ c = newline) := fun hp => h hp.symm
      simp [h, h']

/-- The first pass counts the adjacent newlines. -/
theorem resultSize_eq (data : List CHAR8) : resultSize data = adjacentNewlines data + 1 := by
  have hz : (0 : CHAR8) ≠ newline := by decide
  rw [resultSize, snd_foldl_countStep, adjacentNewlines]
  cases data with
  | nil => rfl
  | cons c data =>
    have hfirst : ¬ ((0 : CHAR8) = newline ∧ c = newline) := fun h => hz h.1
    rw [List.zip_cons_cons, List.countP_cons_of_neg (by simpa using hfirst), List.tail_cons,
      Nat.add_comm]

theorem ConfigScan.Scanned.currentLine_eq_nil (h : s.Scanned pre) (hp : s.prev = newline) :
    currentLine pre = [] := by
  have hlast := fst_foldl_countStep pre (0, 1)
  rw [h.count, hp] at hlast
  cases pre using List.reverseRecOn with
  | nil => rfl
  | append_singleton pre c =>
    rw [List.getLastD_concat] at hlast
    rw [← hlast, currentLine_append_newline]

theorem ConfigScan.Scanned.step (h : s.Scanned pre) (c : CHAR8) :
    (configStep convert data s (c, i)).Scanned (pre ++ [c]) := by
  constructor
  case count =>
    rw [List.foldl_append, h.count]
    exact count_configStep c
  case chars =>
    by_cases hn : c = newline
    · subst hn
      by_cases hp : s.prev = newline
      · -- the blank line resets nothing, but nothing has been counted since the last newline
        have hchars := h.chars
        rw [h.currentLine_eq_nil hp] at hchars
        rw [configStep_blank hp]
        exact hchars.trans (Nat.zero_le _)
      · rw [configStep_newline hp]
        exact Nat.zero_le _
    · rw [currentLine_append_of_ne hn, List.length_append]
      exact (curChar_configStep_of_ne hn).trans (Nat.add_le_add_right h.chars 1)

theorem scanned_foldl (pre : List CHAR8) (size : ℕ) :
    (pre.zipIdx.foldl (configStep convert data) (ConfigScan.start size)).Scanned pre := by
  induction pre using List.reverseRecOn with
  | nil => exact ⟨rfl, le_rfl⟩
  | append_singleton pre c ih =>
    rw [List.zipIdx_append, List.foldl_append, List.zipIdx_singleton, List.foldl_cons,
      List.foldl_nil]
    exact ih.step c

theorem scanned_scanTo (convert : AsciiStrToUnicodeStrS) (data : List CHAR8) (k : ℕ) :
    (scanTo convert data k).Scanned (data.take k) := scanned_foldl ..

/-- The slice copied back is the end of the current line. -/
theorem copyBack_suffix (post : List CHAR8) (hdata : data = pre ++ post) {n : ℕ}
    (hn : n ≤ (currentLine pre).length) : copyBack data pre.length n <:+ currentLine pre := by
  obtain ⟨before, hpre⟩ := currentLine_suffix pre
  obtain ⟨line, value, hline, hvalue⟩ : ∃ line value, currentLine pre = line ++ value ∧
      value.length = n :=
    ⟨(currentLine pre).take ((currentLine pre).length - n),
      (currentLine pre).drop ((currentLine pre).length - n), (List.take_append_drop _ _).symm,
      by rw [List.length_drop]; omega⟩
  rw [hline, ← List.append_assoc] at hpre
  have hcopy : copyBack data _ _ = _ :=
    copyBack_eq (before ++ line) value post (by rw [hpre, hdata])
  rw [← List.length_append, hpre, hvalue] at hcopy
  exact ⟨line, by rw [hcopy, hline]⟩

theorem ConfigScan.Scanned.flushSafe (h : s.Scanned pre) (hdata : data = pre ++ newline :: post) :
    FlushSafe data pre.length s := by
  have htake : data.take pre.length = pre := by rw [hdata, List.take_left]
  have hsuffix : copyBack data pre.length s.curChar <:+ currentLine pre :=
    copyBack_suffix (newline :: post) hdata h.chars
  constructor
  case curStruct_lt =>
    have hle := le_snd_foldl_countStep (newline :: post) (pre.foldl countStep (0, 1))
    rw [← List.foldl_append, ← hdata, h.count] at hle
    exact hle
  case curChar_le => exact h.chars.trans (currentLine_suffix pre).length_le
  case noNewline => exact fun hmem => newline_notMem_currentLine pre (hsuffix.subset hmem)
  case suffix => rwa [htake]

end Scan

/-- On every file, the flush at any newline stores to an entry the first pass has counted, and
copies a part of the line it ends. -/
theorem parseConfigFile_flushSafe (convert : AsciiStrToUnicodeStrS) (fileData : List CHAR8) (i : ℕ)
    (hnewline : fileData[i]? = some newline) :
    FlushSafe fileData i (scanTo convert fileData i) := by
  obtain ⟨hi, hget⟩ := List.getElem?_eq_some_iff.mp hnewline
  have hsplit : fileData = fileData.take i ++ newline :: fileData.drop (i + 1) := by
    rw [← hget, ← List.drop_eq_getElem_cons hi, List.take_append_drop]
  have hlen : (fileData.take i).length = i := List.length_take_of_le (Nat.le_of_lt hi)
  have hsafe := (scanned_scanTo convert fileData i).flushSafe hsplit
  rwa [hlen] at hsafe

/-- A file with carriage returns, a NUL, two markers in a line and no final newline. -/
def roughFile : List CHAR8 :=
  [newline, 97, colon, space, 0, colon, space, 13, newline, newline, newline, 98, newline, 99]

theorem parseConfigFile_flushSafe_roughFile :
    FlushSafe roughFile 8 (scanTo asciiStrToUnicodeStrS roughFile 8) :=
  parseConfigFile_flushSafe asciiStrToUnicodeStrS roughFile 8 (by decide)

end UefiGame
