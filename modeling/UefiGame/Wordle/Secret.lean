import UefiGame.Labyrinth.Parse
import UefiGame.Library.PackedRecord

/-! # The secret of the Wordle application

The word list is a file of 16-bit characters: a byte-order mark, then words of
five letters, each ended by a newline. `UefiMain` copies five characters from an
offset that is a multiple of six beyond the mark; nothing tells it the number of
words. For an index below that number the five characters are a word in full,
and the index is always ten.
-/

namespace UefiGame

open LinearMemory

/-- `ReadFile` of the Wordle application, word for word that of the Maze application. -/
def wordleReadFile (io : FileIo) : FileBuffer := mazeReadFile io

/-- `GetRandom`: its status and `*result`. The status of `LocateProtocol` is only printed, and the
generator is not asked. -/
def getRandom (_locateProtocol : EFI_STATUS) : EFI_STATUS × UINT16 := (0, 10)

/-- `word_list[k]`, for a pointer to 16-bit characters. -/
def FileBuffer.char16 (b : FileBuffer) (k : ℕ) : CHAR16 :=
  BitVec.ofNat 16 (PackedRecord.value [b.memory (2 * k), b.memory (2 * k + 1)])

/-- The index `6 * word_idx + i + 1`; the product is one of `int`s. -/
def wordOffset (wordIdx : UINT16) (i : ℕ) : ℕ :=
  (uintnOfInt32 (6 * wordIdx.setWidth 32) + BitVec.ofNat 64 i + 1).toNat

/-- `word` after the loop that fills it. -/
def extractWord (b : FileBuffer) (wordIdx : UINT16) : List CHAR16 :=
  WriteLoop.writeAll (fun i => i) (fun i => b.char16 (wordOffset wordIdx i)) (List.range 5)
    (List.replicate 6 0)

/-- The offsets of the bytes that the loop reads. -/
def extractReads (wordIdx : UINT16) : List ℕ :=
  (List.range 5).flatMap fun i => [2 * wordOffset wordIdx i, 2 * wordOffset wordIdx i + 1]

/-- The word that `UefiMain` lets guess. -/
def secret (io : FileIo) (locateProtocol : EFI_STATUS) : List CHAR16 :=
  extractWord (wordleReadFile io) (getRandom locateProtocol).2

def byteOrderMark : CHAR16 := 0xfeff

def charBytes (c : CHAR16) : List CHAR8 := PackedRecord.bytes 2 c.toNat

/-- The characters of a word list. -/
def wordsChars (words : List (List CHAR16)) : List CHAR16 :=
  byteOrderMark :: words.flatMap (· ++ [newline.setWidth 16])

def wordsText (words : List (List CHAR16)) : List CHAR8 := (wordsChars words).flatMap charBytes

/-- The secret is read from the list, it is one of its words, and every word of the list can be the
secret. -/
structure SecretChosen (io : FileIo) (words : List (List CHAR16)) : Prop where
  inside : ∀ locateProtocol, ∀ k ∈ extractReads (getRandom locateProtocol).2,
    k < (wordleReadFile io).bytes.length
  listed : ∀ locateProtocol, ∃ word ∈ words, secret io locateProtocol = word ++ [0]
  chosen : ∀ word ∈ words, ∃ locateProtocol, secret io locateProtocol = word ++ [0]

section Text

variable {words : List (List CHAR16)} {word : List CHAR16} {io : FileIo} {wordIdx : UINT16}

@[simp] theorem length_charBytes (c : CHAR16) : (charBytes c).length = 2 :=
  PackedRecord.length_bytes 2 c.toNat

theorem char16_of_holds {b : FileBuffer} {k : ℕ} {c : CHAR16}
    (h : Holds b.memory (2 * k) (charBytes c)) : b.char16 k = c := by
  have hmap := map_range_of_holds h
  rw [length_charBytes] at hmap
  have hbytes : [b.memory (2 * k), b.memory (2 * k + 1)] = charBytes c := hmap
  rw [FileBuffer.char16, hbytes, charBytes, PackedRecord.value_bytes,
    Nat.mod_eq_of_lt (by exact c.isLt), BitVec.ofNat_toNat, BitVec.setWidth_eq]

theorem length_wordsText (hwords : ∀ word ∈ words, word.length = 5) :
    (wordsText words).length = 2 + 12 * words.length := by
  have hbytes : ∀ bs ∈ (wordsChars words).map charBytes, bs.length = 2 := by
    simp
  rw [wordsText, List.flatMap_def, Grid.length_flatten hbytes, List.length_map, wordsChars,
    List.length_cons, Grid.length_lines hwords]
  omega

/-- The byte that the reader replaces is the upper one of a newline, and zero already. -/
theorem wordleReadFile_bytes (hne : words ≠ []) (hcontent : io.content = wordsText words) :
    (wordleReadFile io).bytes = wordsText words := by
  obtain ⟨words, last, rfl⟩ := (List.eq_nil_or_concat words).resolve_left hne
  have hend : wordsText (words.concat last) =
      (byteOrderMark :: words.flatMap (· ++ [newline.setWidth 16]) ++ last).flatMap charBytes ++
        [10] ++ [0] := by
    simp [wordsText, wordsChars]
    rfl
  have hcne : io.content ≠ [] := by
    rw [hcontent, hend]
    exact List.concat_ne_nil _ _
  rw [wordleReadFile, mazeReadFile_bytes hcne, hcontent, hend, List.dropLast_concat]

theorem wordOffset_eq {i : ℕ} (hi : i < 5) : wordOffset wordIdx i = 6 * wordIdx.toNat + i + 1 := by
  have hidx := wordIdx.isLt
  have hnat : (6 * wordIdx.setWidth 32 : INT32).toNat = 6 * wordIdx.toNat := by
    rw [BitVec.toNat_mul, BitVec.toNat_setWidth, Nat.mod_eq_of_lt (a := wordIdx.toNat) (by omega)]
    exact Nat.mod_eq_of_lt (by change 6 * wordIdx.toNat < _; omega)
  have hint : (6 * wordIdx.setWidth 32 : INT32).toInt = 6 * wordIdx.toNat := by
    rw [BitVec.toInt_eq_toNat_of_lt (by omega), hnat, Nat.cast_mul]
    rfl
  have hone : (1 : UINTN).toNat = 1 := rfl
  rw [wordOffset, BitVec.toNat_add, BitVec.toNat_add, toNat_uintnOfInt32 (by omega), hint,
    BitVec.toNat_ofNat, hone]
  omega

theorem forall_extractReads_lt {size : ℕ} : (∀ k ∈ extractReads wordIdx, k < size) ↔
    12 * wordIdx.toNat + 11 < size := by
  constructor
  · intro h
    have hlast := h (2 * wordOffset wordIdx 4 + 1) (by simp [extractReads, List.range_succ])
    rw [wordOffset_eq (by omega)] at hlast
    omega
  · intro h k hk
    obtain ⟨i, hi, hk⟩ := List.mem_flatMap.mp hk
    rw [List.mem_range] at hi
    rw [wordOffset_eq hi, List.mem_pair] at hk
    omega

theorem extractReads_inside_iff (wordIdx : UINT16) (hwords : ∀ word ∈ words, word.length = 5)
    (hcontent : io.content = wordsText words) :
    (∀ k ∈ extractReads wordIdx, k < (wordleReadFile io).bytes.length) ↔
      wordIdx.toNat < words.length := by
  rw [forall_extractReads_lt, wordleReadFile, length_mazeReadFile, hcontent,
    length_wordsText hwords]
  omega

theorem char16_wordOffset (hwords : ∀ word ∈ words, word.length = 5)
    (hcontent : io.content = wordsText words) (hword : words[wordIdx.toNat]? = some word) {i : ℕ}
    (hi : i < 5) : some ((wordleReadFile io).char16 (wordOffset wordIdx i)) = word[i]? := by
  have hlen : word.length = 5 := hwords word (List.mem_of_getElem? hword)
  have hne : words ≠ [] := List.ne_nil_of_mem (List.mem_of_getElem? hword)
  have hget : word[i]? = some word[i] := List.getElem?_eq_getElem (by omega)
  have hline := Grid.getElem?_lines hwords (newline.setWidth 16) hword hi
  rw [hget, Grid.rowMajor, Nat.mul_comm] at hline
  have hchar : (wordsChars words)[wordOffset wordIdx i]? = some word[i] := by
    rw [wordOffset_eq hi, wordsChars, List.getElem?_cons_succ, hline]
  have hbytes := (wordleReadFile io).holds_bytes
  rw [wordleReadFile_bytes hne hcontent] at hbytes
  have hholds := holds_flatMap (fun c _ => length_charBytes c) hbytes hchar
  rw [Nat.zero_add] at hholds
  rw [char16_of_holds hholds, hget]

theorem extractWord_wordsText (hwords : ∀ word ∈ words, word.length = 5)
    (hcontent : io.content = wordsText words) (hword : words[wordIdx.toNat]? = some word) :
    extractWord (wordleReadFile io) wordIdx = word ++ [0] := by
  have hlen : word.length = 5 := hwords word (List.mem_of_getElem? hword)
  have hstored : extractWord (wordleReadFile io) wordIdx =
      (List.range 5).map (fun i => (wordleReadFile io).char16 (wordOffset wordIdx i)) ++ [0] := rfl
  rw [hstored]
  congr 1
  apply List.ext_getElem?
  intro i
  by_cases hi : i < 5
  · rw [← char16_wordOffset hwords hcontent hword hi, List.getElem?_map, List.getElem?_range hi,
      Option.map_some]
  · rw [List.getElem?_eq_none (by simpa using hi), List.getElem?_eq_none (by omega)]

end Text

/-- The secret is a word of the list, and any of them, exactly for a list of at least eleven words
that are all the same: the index is ten on every firmware. -/
theorem secretChosen_iff {words : List (List CHAR16)} {io : FileIo}
    (hwords : ∀ word ∈ words, word.length = 5) (hcontent : io.content = wordsText words) :
    SecretChosen io words ↔
      11 ≤ words.length ∧ ∀ word ∈ words, ∀ word' ∈ words, word = word' := by
  have hten : (10 : UINT16).toNat = 10 := rfl
  have hinside := extractReads_inside_iff 10 hwords hcontent
  rw [hten] at hinside
  have hsecret : ∀ (hlt : 10 < words.length) locateProtocol,
      secret io locateProtocol = words[10] ++ [0] :=
    fun hlt _ => extractWord_wordsText hwords hcontent (List.getElem?_eq_getElem hlt)
  constructor
  · intro h
    have hlt := hinside.mp (h.inside EFI_SUCCESS)
    have hall : ∀ word ∈ words, word = words[10] := by
      intro word hword
      obtain ⟨locateProtocol, heq⟩ := h.chosen word hword
      rw [hsecret hlt] at heq
      exact (List.append_cancel_right heq).symm
    exact ⟨hlt, fun word hword word' hword' => (hall word hword).trans (hall word' hword').symm⟩
  · rintro ⟨hlt, hall⟩
    have hmem : words[10] ∈ words := List.getElem_mem hlt
    constructor
    · exact fun _ => hinside.mpr hlt
    · exact fun locateProtocol => ⟨words[10], hmem, hsecret hlt locateProtocol⟩
    · intro word hword
      exact ⟨EFI_SUCCESS, by rw [hsecret hlt, hall word hword _ hmem]⟩

/-- The first eleven words of `words.txt`. -/
def firstWords : List (List CHAR16) :=
  [['a', 'a', 'h', 'e', 'd'],
    ['a', 'a', 'l', 'i', 'i'],
    ['a', 'a', 'r', 'g', 'h'],
    ['a', 'a', 'r', 't', 'i'],
    ['a', 'b', 'a', 'c', 'a'],
    ['a', 'b', 'a', 'c', 'i'],
    ['a', 'b', 'a', 'c', 'k'],
    ['a', 'b', 'a', 'c', 's'],
    ['a', 'b', 'a', 'f', 't'],
    ['a', 'b', 'a', 'k', 'a'],
    ['a', 'b', 'a', 'm', 'p']].map
    (·.map fun c => BitVec.ofNat 16 c.toNat)

def firstWordsFile : FileIo := FileIo.ofBytes (wordsText firstWords) [] (by decide +kernel)

theorem secretChosen_iff_firstWords : SecretChosen firstWordsFile firstWords ↔
    11 ≤ firstWords.length ∧ ∀ word ∈ firstWords, ∀ word' ∈ firstWords, word = word' :=
  secretChosen_iff (by decide) rfl

/-- Of the first eleven words only the last can be the secret. -/
theorem not_secretChosen_firstWords :
    ¬ ∀ (words : List (List CHAR16)) (io : FileIo), words ≠ [] →
      (∀ word ∈ words, word.length = 5) → io.content = wordsText words → SecretChosen io words := by
  intro h
  have hwords : ∀ word ∈ firstWords, word.length = 5 := by decide
  have hchosen := (h firstWords firstWordsFile (by decide) hwords rfl).chosen
  obtain ⟨locateProtocol, heq⟩ := hchosen firstWords[0] (by decide)
  have hsecret : secret firstWordsFile locateProtocol = firstWords[10] ++ [0] :=
    extractWord_wordsText hwords rfl rfl
  rw [hsecret] at heq
  exact absurd heq (by decide)

end UefiGame
