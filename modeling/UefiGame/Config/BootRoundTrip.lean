import UefiGame.Config.BootBlocks

/-! # Boot configuration round trip

The shipped format writes an entry as a block of `key: value` lines and
separates blocks by one blank line. On such a text the scanner's character
counter holds the length of the value read so far, so the copy at the end of a
line is the value, and the blank line starts the next entry.
-/

namespace UefiGame

/-- A string that may stand as a value: ASCII, with no newline, NUL or marker inside. -/
structure ConfigValue where
  chars : List CHAR8
  ascii : ∀ c ∈ chars, c ≠ 0 ∧ c.toNat < 128
  noNewline : newline ∉ chars
  noMarker : ¬ marker <:+: chars

/-- The value with its terminator is no longer than the kit converts. -/
def ConfigValue.Allowed (max : ℕ) (v : ConfigValue) : Prop := KitAllows max (v.chars.length + 1)

/-- A boot entry as the configuration file states it. -/
structure ConfigEntry where
  title : ConfigValue
  volume : ConfigValue
  loader : ConfigValue
  icon : ConfigValue
  options : Option ConfigValue

/-- The bytes of an ASCII literal. -/
def asciiBytes (s : List Char) : List CHAR8 := s.map fun c => BitVec.ofNat 8 c.toNat

def titleKey : List CHAR8 := asciiBytes ['t', 'i', 't', 'l', 'e']
def volumeKey : List CHAR8 := asciiBytes ['v', 'o', 'l', 'u', 'm', 'e']
def loaderKey : List CHAR8 := asciiBytes ['l', 'o', 'a', 'd', 'e', 'r']
def iconKey : List CHAR8 := asciiBytes ['i', 'c', 'o', 'n']
def optionsKey : List CHAR8 := asciiBytes ['o', 'p', 't', 'i', 'o', 'n', 's']

/-- The key and value of each line of an entry, in the order of the shipped files. -/
def ConfigEntry.lines (e : ConfigEntry) : List (List CHAR8 × ConfigValue) :=
  [(titleKey, e.title), (volumeKey, e.volume), (loaderKey, e.loader), (iconKey, e.icon)] ++
    (e.options.map fun v => (optionsKey, v)).toList

/-- None of the values is longer than the kit converts. -/
def ConfigEntry.Allowed (max : ℕ) (e : ConfigEntry) : Prop := ∀ l ∈ e.lines, l.2.Allowed max

def ConfigEntry.text (e : ConfigEntry) : List CHAR8 :=
  e.lines.flatMap fun l => lineText l.1 l.2.chars

/-- A configuration file: the blocks of its entries, one blank line between two of them. -/
def configText (es : List ConfigEntry) : List CHAR8 :=
  [newline].intercalate (es.map ConfigEntry.text)

/-- The UTF-16 string a value is read as. -/
def ConfigValue.wide (v : ConfigValue) : List CHAR16 := v.chars.map (BitVec.setWidth 16)

/-- The `BOOT_ENTRY` that states the same fields; `options` is NULL where the entry has none. -/
def ConfigEntry.toBootEntry (e : ConfigEntry) : BootEntry where
  title := some e.title.wide
  volumeGuid := some e.volume.wide
  loaderName := some e.loader.wide
  icon := some e.icon.wide
  options := e.options.map ConfigValue.wide

/-- A line without its newline. -/
def configLine (l : List CHAR8 × ConfigValue) : List CHAR8 := l.1 ++ marker ++ l.2.chars

/-- The lines of an entry. -/
def ConfigEntry.block (e : ConfigEntry) : List (List CHAR8) := e.lines.map configLine

/-- The fields set by consecutive lines, the first of them being line `k` of its block. -/
def fillFields : ℕ → List (List CHAR8 × ConfigValue) → BootEntry → BootEntry
  | _, [], b => b
  | k, l :: ls, b => fillFields (k + 1) ls (b.setField l.2.wide k)

/-- A key contains neither a newline nor a marker. -/
structure KeyOk (key : List CHAR8) : Prop where
  noNewline : newline ∉ key
  noMarker : ¬ marker <:+: key

section Scanner

variable {convert : AsciiStrToUnicodeStrS} {max : ℕ} {l : List CHAR8 × ConfigValue}
  {ls : List (List CHAR8 × ConfigValue)} {es : List ConfigEntry}

theorem ConfigEntry.lines_ne_nil (e : ConfigEntry) : e.lines ≠ [] := by
  simp [ConfigEntry.lines]

theorem ConfigEntry.keyOk (e : ConfigEntry) : ∀ l ∈ e.lines, KeyOk l.1 := by
  have h : ∀ key ∈ [titleKey, volumeKey, loaderKey, iconKey, optionsKey],
      newline ∉ key ∧ ¬ marker <:+: key := by decide
  intro l hl
  have hk : l.1 ∈ [titleKey, volumeKey, loaderKey, iconKey, optionsKey] := by
    cases ho : e.options <;> simp [ConfigEntry.lines, ho] at hl <;> aesop
  exact ⟨(h _ hk).1, (h _ hk).2⟩

theorem configLine_ne_nil (l : List CHAR8 × ConfigValue) : configLine l ≠ [] := by
  simp [configLine, marker]

theorem newline_notMem_configLine (hk : KeyOk l.1) : newline ∉ configLine l := by
  have hm : newline ∉ marker := by decide
  simp only [configLine, List.mem_append, not_or]
  exact ⟨⟨hk.noNewline, hm⟩, l.2.noNewline⟩

theorem converted_configLine (hconv : convert.Documented max) (hk : KeyOk l.1)
    (hmax : l.2.Allowed max) : converted convert (configLine l) = (EFI_SUCCESS, l.2.wide) := by
  have hvalue := (converted_line_eq_iff hconv hk.noMarker l.2.ascii hmax).mpr l.2.noMarker
  have hstatus := converted_line hconv hk.noMarker l.2.ascii hmax
  have hfst : (converted convert (l.1 ++ marker ++ l.2.chars)).1 = EFI_SUCCESS := by rw [hstatus]
  exact Prod.ext hfst hvalue

theorem fillEntry_map (hconv : convert.Documented max) (hk : ∀ l ∈ ls, KeyOk l.1)
    (hmax : ∀ l ∈ ls, l.2.Allowed max) (k : ℕ) (b : BootEntry) :
    fillEntry convert k (ls.map configLine) b = fillFields k ls b := by
  induction ls generalizing k b with
  | nil => rfl
  | cons l ls ih =>
    rw [List.forall_mem_cons] at hk hmax
    rw [List.map_cons, fillEntry, ih hk.2 hmax.2, converted_configLine hconv hk.1 hmax.1,
      fillFields]

theorem ConfigEntry.fillFields_lines (e : ConfigEntry) :
    fillFields 0 e.lines BootEntry.zero = e.toBootEntry := by
  cases h : e.options <;>
    simp [ConfigEntry.lines, fillFields, BootEntry.setField, BootEntry.zero,
      ConfigEntry.toBootEntry, h]

theorem ConfigEntry.blockEntry_block (hconv : convert.Documented max) {e : ConfigEntry}
    (hmax : e.Allowed max) : blockEntry convert e.block = e.toBootEntry := by
  rw [blockEntry, ConfigEntry.block, fillEntry_map hconv e.keyOk hmax, e.fillFields_lines]

theorem flatMap_lineText (ls : List (List CHAR8 × ConfigValue)) :
    (ls.flatMap fun l => lineText l.1 l.2.chars) = linesText (ls.map configLine) := by
  simp [linesText, List.flatMap_map, lineText, configLine]

theorem linesText_intercalate (bs : List (List (List CHAR8))) :
    linesText ([[]].intercalate bs) = [newline].intercalate (bs.map linesText) := by
  induction bs with
  | nil => rfl
  | cons block bs ih =>
    cases bs with
    | nil => simp
    | cons block' bs =>
      rw [List.intercalate_cons_cons, List.map_cons, List.map_cons, List.intercalate_cons_cons,
        linesText_append, linesText_append, ih]
      rfl

theorem configText_eq (es : List ConfigEntry) :
    configText es = linesText ([[]].intercalate (es.map ConfigEntry.block)) := by
  rw [configText, linesText_intercalate, List.map_map]
  congr 1
  apply List.map_congr_left
  intro e _
  exact flatMap_lineText e.lines

theorem configText_append_singleton (es : List ConfigEntry) (e : ConfigEntry) :
    configText (es ++ [e]) =
      linesText ((es.map ConfigEntry.block).flatMap (· ++ [[]]) ++ e.block) := by
  rw [configText_eq, List.map_append, List.map_singleton, Lines.intercalate_append_singleton]

theorem line_ne_nil_of_mem_block {e : ConfigEntry} : ∀ line ∈ e.block, line ≠ [] := by
  rw [ConfigEntry.block, List.forall_mem_map]
  exact fun l _ => configLine_ne_nil l

theorem filled_map_block (es : List ConfigEntry) : Filled (es.map ConfigEntry.block) := by
  constructor
  · rw [List.forall_mem_map]
    exact fun e _ => by simpa [ConfigEntry.block] using e.lines_ne_nil
  · rw [List.forall_mem_map]
    exact fun e _ => line_ne_nil_of_mem_block

theorem newline_notMem_block {e : ConfigEntry} : ∀ line ∈ e.block, newline ∉ line := by
  rw [ConfigEntry.block, List.forall_mem_map]
  exact fun l hl => newline_notMem_configLine (e.keyOk l hl)

theorem newline_notMem_blocks (es : List ConfigEntry) :
    ∀ line ∈ (es.map ConfigEntry.block).flatMap (· ++ [[]]), newline ∉ line := by
  intro line hline
  rw [List.flatMap_map, List.mem_flatMap] at hline
  obtain ⟨e, -, hline⟩ := hline
  rcases List.mem_append.mp hline with hline | hline
  · exact newline_notMem_block line hline
  · rw [List.mem_singleton.mp hline]
    exact List.not_mem_nil

theorem newline_notMem_configText (es : List ConfigEntry) :
    ∀ line ∈ ([[]] : List (List CHAR8)).intercalate (es.map ConfigEntry.block), newline ∉ line := by
  cases es using List.reverseRecOn with
  | nil => exact List.forall_mem_nil _
  | append_singleton es e =>
    rw [List.map_append, List.map_singleton, Lines.intercalate_append_singleton,
      List.forall_mem_append]
    exact ⟨newline_notMem_blocks es, newline_notMem_block⟩

theorem blocksKept_configText (convert : AsciiStrToUnicodeStrS) (hne : es ≠ []) :
    BlocksKept convert ([[]].intercalate (es.map ConfigEntry.block)) :=
  blocksKept_of_notMem convert (newline_notMem_configText es)
    ((filled_map_block es).notMem_parts (by simpa using hne))

theorem blocks_configText (hne : es ≠ []) :
    blocks ([[]].intercalate (es.map ConfigEntry.block)) = es.map ConfigEntry.block :=
  (filled_map_block es).blocks_intercalate (by simpa using hne)

theorem resultSize_configText (hne : es ≠ []) : resultSize (configText es) = es.length := by
  rw [configText_eq, (blocksKept_configText asciiStrToUnicodeStrS hne).size, blocks_configText hne,
    List.length_map]

theorem map_blockEntry (hconv : convert.Documented max) (hmax : ∀ e ∈ es, e.Allowed max) :
    (es.map ConfigEntry.block).map (blockEntry convert) = es.map ConfigEntry.toBootEntry := by
  rw [List.map_map]
  exact List.map_congr_left fun e he => ConfigEntry.blockEntry_block hconv (hmax e he)

theorem status_configText (hconv : convert.Documented max) (hmax : ∀ e ∈ es, e.Allowed max)
    (hne : es ≠ []) :
    (scanConfig convert (configText es)).status = EFI_SUCCESS := by
  cases es using List.reverseRecOn with
  | nil => exact absurd rfl hne
  | append_singleton es e =>
    obtain ⟨ls, l, hlines⟩ : ∃ ls l, e.lines = ls ++ [l] :=
      ⟨_, _, (List.dropLast_append_getLast e.lines_ne_nil).symm⟩
    have hkey : KeyOk l.1 := e.keyOk l (by simp [hlines])
    have hvalue : l.2.Allowed max := hmax e (by simp) l (by simp [hlines])
    have hblock : e.block = ls.map configLine ++ [configLine l] := by
      rw [ConfigEntry.block, hlines, List.map_append, List.map_singleton]
    obtain ⟨p, w, n, hscan⟩ := scanConfig_linesText convert (newline_notMem_configText (es ++ [e]))
      List.not_mem_nil (List.append_nil _).symm
    rw [configText_eq, hscan, List.map_append, List.map_singleton,
      Lines.intercalate_append_singleton, hblock, ← List.append_assoc,
      status_foldl_append (configLine_ne_nil l), converted_configLine hconv hkey hvalue]

theorem result_configText (convert : AsciiStrToUnicodeStrS) (hne : es ≠ []) :
    (scanConfig convert (configText es)).result =
      (es.map ConfigEntry.block).map (blockEntry convert) := by
  rw [configText_eq, (blocksKept_configText convert hne).entries, blocks_configText hne]

theorem scanConfig_configText (hconv : convert.Documented max) (hmax : ∀ e ∈ es, e.Allowed max)
    (hne : es ≠ []) :
    (scanConfig convert (configText es)).result = es.map ConfigEntry.toBootEntry ∧
      (scanConfig convert (configText es)).status = EFI_SUCCESS := by
  refine ⟨?_, status_configText hconv hmax hne⟩
  rw [result_configText convert hne, map_blockEntry hconv hmax]

end Scanner

/-- Writing entries in the shipped format and parsing the file gives the entries back. -/
theorem parseConfigFile_configText {convert : AsciiStrToUnicodeStrS} {max : ℕ}
    (hconv : convert.Documented max) {fs : FileSystem} {filename : List CHAR16}
    {es : List ConfigEntry} (hmax : ∀ e ∈ es, e.Allowed max) (hne : es ≠ [])
    (hread : Reads fs filename (configText es)) (garbage : FileBuffer) :
    parseConfigFile convert fs (some filename) garbage =
      { status := EFI_SUCCESS
        result := es.map ConfigEntry.toBootEntry
        resultSize := es.length } := by
  have h := scanConfig_configText hconv hmax hne
  simp only [parseConfigFile, hread.readFile_eq, hread.bytes_eq, h.1, h.2,
    resultSize_configText hne]

def letterValue (c : CHAR8) (hz : c ≠ 0) (ha : c.toNat < 128) (hn : c ≠ newline) : ConfigValue where
  chars := [c]
  ascii := by
    intro d hd
    rw [List.mem_singleton.mp hd]
    exact ⟨hz, ha⟩
  noNewline := by simpa using hn.symm
  noMarker := fun h => absurd h.length_le (by simp [marker])

def emptyValue : ConfigValue := ⟨[], by simp, by simp, by decide⟩

/-- Two entries; one has an empty value, a blank and a colon for values, and no options. -/
def sampleEntries : List ConfigEntry :=
  let a := letterValue 97 (by decide) (by decide) (by decide)
  let blank := letterValue 32 (by decide) (by decide) (by decide)
  let colonValue := letterValue 58 (by decide) (by decide) (by decide)
  [⟨a, emptyValue, blank, colonValue, none⟩, ⟨a, a, a, a, some colonValue⟩]

theorem parseConfigFile_configText_sample :
    parseConfigFile asciiStrToUnicodeStrS
      (fun _ => FileIo.ofBytes (configText sampleEntries) [] (by decide)) (some []) ⟨[], []⟩ =
      { status := EFI_SUCCESS
        result := [⟨some [97], some [], some [32], some [58], none⟩,
          ⟨some [97], some [97], some [97], some [97], some [58]⟩]
        resultSize := 2 } :=
  parseConfigFile_configText asciiStrToUnicodeStrS_documented (fun _ _ _ _ => Or.inl rfl)
    (by simp [sampleEntries]) Reads.ofBytes ⟨[], []⟩

end UefiGame
