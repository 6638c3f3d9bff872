import UefiGame.Config.BootRoundTrip
import UefiGame.Config.MazeSound
import UefiGame.Config.Sprite
import UefiGame.Config.Textures

/-! # Files without a final newline

All four text parsers take a newline for the end of a line and have nothing
that ends the last one. Each reads a well-formed file whose final newline is
missing as a file with less in it: the last field of the last boot entry stays
NULL, the last texture is not listed, and the last row of the maze or of the
sprite is not counted.
-/

namespace UefiGame

inductive TextParser where
  | config
  | textures
  | maze
  | sprite
  deriving DecidableEq, Repr

/-- The files of the shipped formats, final newline included. -/
def TextParser.WellFormed (c : List CHAR8) : TextParser → Prop
  | config => ∃ es : List ConfigEntry, es ≠ [] ∧ c = configText es
  | textures => ∃ names : List TextureName, names ≠ [] ∧ c = texturesText names
  | maze => ∃ (w h : ℕ) (M : Fin h → Fin w → INTN), 0 < w ∧ 0 < h ∧ c = mazeText M
  | sprite => ∃ (w : ℕ) (rows : List (List CHAR8)), 0 < w ∧ rows ≠ [] ∧
      (∀ row ∈ rows, row.length = w) ∧ (∀ row ∈ rows, newline ∉ row) ∧ c = spriteText rows

/-- The parser stores the same data for the file of either file system. -/
def TextParser.SameData (convert : AsciiStrToUnicodeStrS) (fs fs' : FileSystem)
    (filename : List CHAR16) : TextParser → Prop
  | config => ∀ garbage,
      (parseConfigFile convert fs (some filename) garbage).result =
        (parseConfigFile convert fs' (some filename) garbage).result ∧
      (parseConfigFile convert fs (some filename) garbage).resultSize =
        (parseConfigFile convert fs' (some filename) garbage).resultSize
  | textures => ∀ out,
      (parseTexturesConfigFile convert fs (some filename) out).2 =
        (parseTexturesConfigFile convert fs' (some filename) out).2
  | maze => ∀ out,
      (parseMazeConfigFile fs (some filename) out).2 =
        (parseMazeConfigFile fs' (some filename) out).2
  | sprite => ∀ garbage,
      (parseSprite fs (some filename) garbage).map Prod.snd =
        (parseSprite fs' (some filename) garbage).map Prod.snd

section BootConfig

variable {convert : AsciiStrToUnicodeStrS} {c : List CHAR8}

theorem scanConfig_unfinished (convert : AsciiStrToUnicodeStrS) {es : List ConfigEntry}
    {e : ConfigEntry} (hc : c ++ [newline] = configText (es ++ [e])) :
    (scanConfig convert c).result = (es.map ConfigEntry.block).map (blockEntry convert) ++
      [fillEntry convert 0 e.block.dropLast BootEntry.zero] := by
  obtain ⟨ls, l, hlines⟩ : ∃ ls l, e.lines = ls ++ [l] :=
    ⟨_, _, (List.dropLast_append_getLast e.lines_ne_nil).symm⟩
  have hkeys := e.keyOk
  rw [hlines, List.forall_mem_append, List.forall_mem_singleton] at hkeys
  have hblock : e.block = ls.map configLine ++ [configLine l] := by
    rw [ConfigEntry.block, hlines, List.map_append, List.map_singleton]
  -- the lines that are ended, and the one that is not
  generalize hended : (es.map ConfigEntry.block).flatMap (· ++ [[]]) ++ ls.map configLine = ended
  have hdata : c = linesText ended ++ configLine l := by
    have htext : c ++ [newline] = linesText ended ++ configLine l ++ [newline] := by
      rw [hc, configText_append_singleton, hblock, ← List.append_assoc, hended, linesText_append]
      simp
    exact List.append_cancel_right htext
  have hnewline : ∀ line ∈ ended, newline ∉ line := by
    rw [← hended, List.forall_mem_append]
    refine ⟨newline_notMem_blocks es, ?_⟩
    rw [List.forall_mem_map]
    exact fun l hl => newline_notMem_configLine (hkeys.1 l hl)
  have hsize : resultSize c = es.length + 1 := by
    have htext : configText (es ++ [e]) = linesText (ended ++ [configLine l]) := by
      rw [configText_append_singleton, hblock, ← List.append_assoc, hended]
    rw [hdata, ← resultSize_append_newline hnewline (newline_notMem_configLine hkeys.2)
      (configLine_ne_nil l), ← htext, resultSize_configText (by simp), List.length_append,
      List.length_singleton]
  obtain ⟨p, w, n, hscan⟩ := scanConfig_linesText convert hnewline
    (newline_notMem_configLine hkeys.2) hdata
  have hne : ∀ line ∈ ls.map configLine, line ≠ [] := by
    rw [List.forall_mem_map]
    exact fun l _ => configLine_ne_nil l
  have hresult := result_blocks convert (filled_map_block es) hne
  rw [List.length_map, hended, List.map_append] at hresult
  rw [hscan, hsize, hresult, List.map_singleton, blockEntry, hblock, List.dropLast_concat]

theorem ConfigEntry.fillEntry_dropLast_ne (convert : AsciiStrToUnicodeStrS) (e : ConfigEntry) :
    fillEntry convert 0 e.block.dropLast BootEntry.zero ≠ blockEntry convert e.block := by
  cases h : e.options <;>
    simp [ConfigEntry.block, ConfigEntry.lines, blockEntry, fillEntry, BootEntry.setField,
      BootEntry.zero, h]

end BootConfig

section Rows

variable {row rest c : List CHAR8} {rows : List (List CHAR8)} {w width : ℕ}

theorem length_le_of_findIdx? (h : newline ∉ row)
    (hfind : (row ++ rest).findIdx? (fun c => c = newline) = some width) : row.length ≤ width := by
  rw [Lines.findIdx?_append_of_notMem h] at hfind
  obtain ⟨i, -, rfl⟩ := Option.map_eq_some_iff.mp hfind
  exact Nat.le_add_left row.length i

/-- The first row is no shorter than the others, so the bytes left over are no whole row. -/
theorem height_lt_of_unfinished (hrows : ∀ row ∈ rows, row.length = w)
    (hnl : ∀ row ∈ rows, newline ∉ row) (hne : rows ≠ []) (hc : c ++ [newline] = spriteText rows)
    (hfind : (c ++ rest).findIdx? (fun c => c = newline) = some width) :
    c.length / (width + 1) < rows.length := by
  have hlen := congrArg List.length hc
  rw [length_spriteText hrows, List.length_append, List.length_singleton] at hlen
  obtain ⟨row, rows, rfl⟩ := List.exists_cons_of_ne_nil hne
  have hpre : row <+: c := by
    have hrow : row <+: c ++ [newline] :=
      ⟨newline :: spriteText rows, by rw [hc]; simp [spriteText]⟩
    apply List.prefix_of_prefix_length_le hrow (List.prefix_append c [newline])
    rw [List.length_cons, Nat.mul_succ] at hlen
    rw [hrows row List.mem_cons_self]
    omega
  obtain ⟨more, rfl⟩ := hpre
  have hw : w ≤ width := by
    rw [← hrows row List.mem_cons_self]
    rw [List.append_assoc] at hfind
    exact length_le_of_findIdx? (hnl row List.mem_cons_self) hfind
  apply Nat.div_lt_of_lt_mul
  calc (row ++ more).length < (w + 1) * (row :: rows).length := by omega
    _ ≤ (width + 1) * (row :: rows).length := Nat.mul_le_mul_right _ (by omega)

end Rows

section Differ

variable {convert : AsciiStrToUnicodeStrS} {fs fs' : FileSystem} {filename : List CHAR16}
  {c : List CHAR8}

theorem config_differs (hread : Reads fs filename c)
    (hread' : Reads fs' filename (c ++ [newline]))
    (hwf : TextParser.config.WellFormed (c ++ [newline])) :
    ¬ TextParser.config.SameData convert fs fs' filename := by
  intro hsame
  obtain ⟨es, hne, hc⟩ := hwf
  have hresult := (hsame ⟨[], []⟩).1
  cases es using List.reverseRecOn with
  | nil => exact hne rfl
  | append_singleton es e =>
    simp only [parseConfigFile, hread.readFile_eq, hread.bytes_eq, hread'.readFile_eq,
      hread'.bytes_eq] at hresult
    rw [hc, result_configText convert hne, scanConfig_unfinished convert hc, List.map_append,
      List.map_append, List.append_cancel_left_eq] at hresult
    exact e.fillEntry_dropLast_ne convert (List.singleton_injective hresult)

theorem textures_differ (hread : Reads fs filename c)
    (hread' : Reads fs' filename (c ++ [newline])) :
    ¬ TextParser.textures.SameData convert fs fs' filename := by
  intro hsame
  have h := congrArg TexturesConfig.texturesCount (hsame ⟨[], 0⟩)
  rw [hread.parseTexturesConfigFile_eq, hread'.parseTexturesConfigFile_eq] at h
  simp only [texturesCount, List.count_append, List.count_singleton_self] at h
  omega

theorem Reads.mazeHeight (hread : Reads fs filename c) (out : MazeConfig) :
    (parseMazeConfigFile fs (some filename) out).2.height =
      BitVec.ofNat 64 (c.count newline) := by
  simp only [parseMazeConfigFile, hread.readFile_eq, hread.bytes_eq, hread.read,
    Bool.false_eq_true, if_false, mazeCount_height]

theorem maze_differs (hread : Reads fs filename c)
    (hread' : Reads fs' filename (c ++ [newline])) :
    ¬ TextParser.maze.SameData convert fs fs' filename := by
  intro hsame
  have h := congrArg MazeConfig.height (hsame ⟨[], 0, 0⟩)
  have hle : (c ++ [newline]).count newline ≤ (c ++ [newline]).length := List.count_le_length
  have hlt := hread'.length_lt
  have hnat := congrArg BitVec.toNat h
  rw [hread.mazeHeight, hread'.mazeHeight, BitVec.toNat_ofNat, BitVec.toNat_ofNat,
    List.count_append, List.count_singleton_self] at hnat
  rw [List.count_append, List.count_singleton_self] at hle
  rw [Nat.mod_eq_of_lt (by omega), Nat.mod_eq_of_lt (by omega)] at hnat
  omega

theorem sprite_differs (hread : Reads fs filename c)
    (hread' : Reads fs' filename (c ++ [newline]))
    (hwf : TextParser.sprite.WellFormed (c ++ [newline])) :
    ¬ TextParser.sprite.SameData convert fs fs' filename := by
  intro hsame
  obtain ⟨w, rows, -, hne, hrows, hnl, hc⟩ := hwf
  rw [hc] at hread'
  obtain ⟨pixels, hparse, -, -⟩ := parseSprite_spriteText hrows hnl hne hread' ⟨[], []⟩
  have h := hsame ⟨[], []⟩
  rw [hparse] at h
  simp only [parseSprite, hread.readFile_eq, hread.bytes_eq, Option.map_map, Option.map_some] at h
  obtain ⟨width, hfind, heq⟩ := Option.map_eq_some_iff.mp h
  have hheight := congrArg Sprite.height heq
  exact absurd hheight (height_lt_of_unfinished hrows hnl hne hc hfind).ne

/-- No parser stores for a well-formed file whose final newline is missing what it stores for the
file with it, whatever the conversion of strings does. -/
theorem TextParser.not_sameData (parser : TextParser) (convert : AsciiStrToUnicodeStrS)
    (hwf : parser.WellFormed (c ++ [newline])) (hread : Reads fs filename c)
    (hread' : Reads fs' filename (c ++ [newline])) :
    ¬ parser.SameData convert fs fs' filename := by
  cases parser with
  | config => exact config_differs hread hread' hwf
  | textures => exact textures_differ hread hread'
  | maze => exact maze_differs hread hread'
  | sprite => exact sprite_differs hread hread' hwf

end Differ

/-- A sprite of two rows and two columns, without its final newline. -/
def unfinishedSprite : List CHAR8 := asciiBytes ['k', '.'] ++ [newline] ++ asciiBytes ['.', 'k']

def spriteFs (c : List CHAR8) (h : c.length < 2 ^ 64) : FileSystem :=
  fun _ => FileIo.ofBytes c [] h

theorem unfinishedSprite_wellFormed :
    TextParser.sprite.WellFormed (unfinishedSprite ++ [newline]) :=
  ⟨2, [asciiBytes ['k', '.'], asciiBytes ['.', 'k']], by decide, by decide, by decide, by decide,
    by decide⟩

theorem TextParser.not_sameData_unfinishedSprite :
    ¬ TextParser.sprite.SameData asciiStrToUnicodeStrS (spriteFs unfinishedSprite (by decide))
      (spriteFs (unfinishedSprite ++ [newline]) (by decide)) [] :=
  TextParser.sprite.not_sameData asciiStrToUnicodeStrS unfinishedSprite_wellFormed
    Reads.ofBytes Reads.ofBytes

theorem parseSprite_unfinishedSprite :
    (parseSprite (spriteFs unfinishedSprite (by decide)) (some []) ⟨[], []⟩).map
        (fun r => r.2.height) = some 1 ∧
      (parseSprite (spriteFs (unfinishedSprite ++ [newline]) (by decide)) (some []) ⟨[], []⟩).map
        (fun r => r.2.height) = some 2 := by
  decide +kernel

theorem not_forall_sameData :
    ¬ ∀ (parser : TextParser) (convert : AsciiStrToUnicodeStrS) (fs fs' : FileSystem)
      (filename : List CHAR16) (c : List CHAR8),
      convert.Documented 0 → parser.WellFormed (c ++ [newline]) → Reads fs filename c →
      Reads fs' filename (c ++ [newline]) → parser.SameData convert fs fs' filename := by
  intro h
  have hsame := h .sprite asciiStrToUnicodeStrS (spriteFs unfinishedSprite (by decide))
    (spriteFs (unfinishedSprite ++ [newline]) (by decide)) [] unfinishedSprite
    asciiStrToUnicodeStrS_documented unfinishedSprite_wellFormed Reads.ofBytes Reads.ofBytes
    ⟨[], []⟩
  obtain ⟨hone, htwo⟩ := parseSprite_unfinishedSprite
  have hheight := congrArg (Option.map Sprite.height) hsame
  rw [Option.map_map, Option.map_map] at hheight
  exact absurd (hone.symm.trans (hheight.trans htwo)) (by decide)

end UefiGame
