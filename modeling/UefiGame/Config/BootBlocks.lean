import UefiGame.Config.BootValues

/-! # The blocks of the boot configuration

The scanner takes every empty line but a first one for the end of an entry, and
an empty first line for the first field. So the entries it returns are the
blocks of the file just when one empty line stands between any two blocks, and
none anywhere else.
-/

namespace UefiGame

/-- The blocks of a file: the runs of lines that are not empty. -/
def blocks (lines : List (List CHAR8)) : List (List (List CHAR8)) :=
  (Lines.parts [] lines).filter fun block => block ≠ []

/-- The number of blocks that an empty line has ended. -/
def blocksAbove (before : List (List CHAR8)) : ℕ :=
  ((Lines.terminated [] before).filter fun block => block ≠ []).length

/-- The fields set by consecutive lines, the first of them being line `k` of its block. -/
def fillEntry (convert : AsciiStrToUnicodeStrS) : ℕ → List (List CHAR8) → BootEntry → BootEntry
  | _, [], e => e
  | k, line :: lines, e =>
    fillEntry convert (k + 1) lines (e.setField (converted convert line).2 k)

/-- The entry a block states. -/
def blockEntry (convert : AsciiStrToUnicodeStrS) (block : List (List CHAR8)) : BootEntry :=
  fillEntry convert 0 block BootEntry.zero

/-- `ParseConfigFile` returns an entry for each block of the file, in which every line has gone to
the field of its number; where all blocks have four lines, no entry lacks one of these fields. -/
structure BlocksKept (convert : AsciiStrToUnicodeStrS) (lines : List (List CHAR8)) : Prop where
  size : resultSize (linesText lines) = (blocks lines).length
  slot : ∀ before line after, lines = before ++ line :: after → line ≠ [] →
    (scanTo convert (linesText lines) (linesText before ++ line).length).slot =
      (blocksAbove before, (blockAbove before).length)
  entries : (scanConfig convert (linesText lines)).result = (blocks lines).map (blockEntry convert)
  complete : (∀ block ∈ blocks lines, 4 ≤ block.length) →
    ∀ e ∈ (scanConfig convert (linesText lines)).result,
      e.title ≠ none ∧ e.volumeGuid ≠ none ∧ e.loaderName ≠ none ∧ e.icon ≠ none

/-- Blocks as they stand in a file: none is empty, and no line in them is. -/
structure Filled (bs : List (List (List CHAR8))) : Prop where
  block_ne_nil : ∀ block ∈ bs, block ≠ []
  line_ne_nil : ∀ block ∈ bs, ∀ line ∈ block, line ≠ []

/-- The scanner is at the start of a block: the entries `done` are filled and `n` are left. -/
structure ConfigScan.AtBlock (s : ConfigScan) (done : List BootEntry) (n : ℕ) : Prop where
  curValue : s.curValue = 0
  curStruct : s.curStruct = done.length
  result : s.result = done ++ List.replicate n BootEntry.zero

section Blocks

variable {convert : AsciiStrToUnicodeStrS} {s : ConfigScan} {done : List BootEntry} {n j k : ℕ}
  {block lines : List (List CHAR8)} {e : BootEntry}

theorem modify_append_cons {α : Type*} (f : α → α) (l r : List α) (a : α) :
    (l ++ a :: r).modify l.length f = l ++ f a :: r := by
  induction l with
  | nil => rfl
  | cons b l ih => simp [ih]

theorem atBlock_start (n : ℕ) : (ConfigScan.start n).AtBlock [] n := ⟨rfl, rfl, rfl⟩

theorem foldl_lineStep_block (convert : AsciiStrToUnicodeStrS)
    (hblock : ∀ line ∈ block, line ≠ []) (s : ConfigScan) :
    (block.foldl (lineStep convert) s).result =
        s.result.modify s.curStruct (fillEntry convert s.curValue block) ∧
      (block.foldl (lineStep convert) s).curStruct = s.curStruct := by
  induction block generalizing s with
  | nil => exact ⟨(List.modify_id s.curStruct s.result).symm, rfl⟩
  | cons line block ih =>
    rw [List.forall_mem_cons] at hblock
    obtain ⟨hresult, hentry⟩ := ih hblock.2 (lineStep convert s line)
    rw [List.foldl_cons, hresult, hentry, lineStep_of_ne hblock.1]
    exact ⟨by simp [List.modify_modify_eq, fillEntry, Function.comp_def], rfl⟩

theorem ConfigScan.AtBlock.result_foldl (hs : s.AtBlock done (n + 1))
    (convert : AsciiStrToUnicodeStrS) (hblock : ∀ line ∈ block, line ≠ []) :
    (block.foldl (lineStep convert) s).result =
      done ++ blockEntry convert block :: List.replicate n BootEntry.zero := by
  rw [(foldl_lineStep_block convert hblock s).1, hs.result, hs.curStruct, hs.curValue,
    List.replicate_succ, modify_append_cons, blockEntry]

theorem prev_foldl_lineStep (convert : AsciiStrToUnicodeStrS) (hne : block ≠ []) (s : ConfigScan) :
    (block.foldl (lineStep convert) s).prev = newline := by
  cases block using List.reverseRecOn with
  | nil => exact absurd rfl hne
  | append_singleton block line =>
    rw [List.foldl_append]
    exact prev_lineStep _ line

/-- A block with the empty line after it fills the next entry. -/
theorem ConfigScan.AtBlock.foldl_block (hs : s.AtBlock done (n + 1))
    (convert : AsciiStrToUnicodeStrS) (hne : block ≠ []) (hblock : ∀ line ∈ block, line ≠ []) :
    ((block ++ [[]]).foldl (lineStep convert) s).AtBlock
    (done ++ [blockEntry convert block]) n := by
  have hresult := hs.result_foldl convert hblock
  have hentry := (foldl_lineStep_block convert hblock s).2
  have hprev := prev_foldl_lineStep convert hne s
  rw [List.foldl_append, List.foldl_cons, List.foldl_nil, lineStep, if_pos ⟨rfl, hprev⟩]
  exact ⟨rfl, by simp [hentry, hs.curStruct], by simp [hresult]⟩

theorem ConfigScan.AtBlock.foldl_blocks (convert : AsciiStrToUnicodeStrS)
    (bs : List (List (List CHAR8))) (hs : s.AtBlock done (bs.length + n)) (hbs : Filled bs) :
    ((bs.flatMap (· ++ [[]])).foldl (lineStep convert) s).AtBlock
      (done ++ bs.map (blockEntry convert)) n := by
  induction bs generalizing s done with
  | nil => simpa using hs
  | cons block bs ih =>
    obtain ⟨hne, hlines⟩ := hbs
    rw [List.forall_mem_cons] at hne hlines
    rw [List.length_cons, Nat.add_right_comm] at hs
    have htail := ih (hs.foldl_block convert hne.1 hlines.1) ⟨hne.2, hlines.2⟩
    rwa [List.append_assoc, List.singleton_append, ← List.foldl_append] at htail

theorem result_blocks (convert : AsciiStrToUnicodeStrS) {bs : List (List (List CHAR8))}
    (hbs : Filled bs) (hblock : ∀ line ∈ block, line ≠ []) :
    ((bs.flatMap (· ++ [[]]) ++ block).foldl (lineStep convert)
      (ConfigScan.start (bs.length + 1))).result = (bs ++ [block]).map (blockEntry convert) := by
  have hblocks := (atBlock_start (bs.length + 1)).foldl_blocks convert bs hbs
  rw [List.foldl_append, hblocks.result_foldl convert hblock]
  simp

theorem filled_append_singleton {bs : List (List (List CHAR8))} :
    Filled (bs ++ [block]) ↔ Filled bs ∧ block ≠ [] ∧ ∀ line ∈ block, line ≠ [] := by
  constructor
  · rintro ⟨hne, hlines⟩
    rw [List.forall_mem_append, List.forall_mem_singleton] at hne hlines
    exact ⟨⟨hne.1, hlines.1⟩, hne.2, hlines.2⟩
  · rintro ⟨⟨hne, hlines⟩, hne', hlines'⟩
    constructor
    · rw [List.forall_mem_append, List.forall_mem_singleton]
      exact ⟨hne, hne'⟩
    · rw [List.forall_mem_append, List.forall_mem_singleton]
      exact ⟨hlines, hlines'⟩

theorem filled_blocks (lines : List (List CHAR8)) : Filled (blocks lines) := by
  constructor
  · intro block hblock
    simpa using List.of_mem_filter hblock
  · rintro block hblock line hline rfl
    exact Lines.notMem_of_mem_parts (List.mem_filter.mp hblock).1 hline

theorem Filled.parts {bs : List (List (List CHAR8))} (h : Filled bs) (hne : bs ≠ []) :
    Lines.parts [] ([[]].intercalate bs) = bs :=
  Lines.parts_intercalate (fun block hb hmem => h.line_ne_nil block hb [] hmem rfl) hne

theorem Filled.notMem_parts {bs : List (List (List CHAR8))} (h : Filled bs) (hne : bs ≠ []) :
    [] ∉ Lines.parts [] ([[]].intercalate bs) := by
  rw [h.parts hne]
  exact fun hmem => h.block_ne_nil [] hmem rfl

theorem Filled.blocks_intercalate {bs : List (List (List CHAR8))} (h : Filled bs) (hne : bs ≠ []) :
    blocks ([[]].intercalate bs) = bs := by
  rw [blocks, h.parts hne]
  exact List.filter_eq_self.mpr fun block hb => decide_eq_true (h.block_ne_nil block hb)

theorem singleBlanks_iff (lines : List (List CHAR8)) :
    (blocks lines ≠ [] ∧ lines = [[]].intercalate (blocks lines)) ↔ [] ∉ Lines.parts [] lines := by
  constructor
  · rintro ⟨hne, hlines⟩
    rw [hlines]
    exact (filled_blocks lines).notMem_parts hne
  · intro h
    have hall : blocks lines = Lines.parts [] lines := by
      apply List.filter_eq_self.mpr
      intro block hblock
      exact decide_eq_true fun he => h (he ▸ hblock)
    rw [hall]
    exact ⟨Lines.parts_ne_nil [] lines, (Lines.intercalate_parts [] lines).symm⟩

theorem notMem_parts_iff (lines : List (List CHAR8)) :
    [] ∉ Lines.parts [] lines ↔ (blocks lines).length = (Lines.parts [] lines).length := by
  rw [blocks, List.length_filter_eq_length_iff]
  simp only [decide_eq_true_eq]
  constructor
  · rintro h block hblock rfl
    exact h hblock
  · exact fun h hmem => h [] hmem rfl

theorem field_fillEntry_of_lt (convert : AsciiStrToUnicodeStrS) (hj : j < k)
    (lines : List (List CHAR8)) (e : BootEntry) :
    (fillEntry convert k lines e).field j = e.field j := by
  induction lines generalizing k e with
  | nil => rfl
  | cons line lines ih =>
    rw [fillEntry, ih (Nat.lt_succ_of_lt hj), field_setField_of_ne _ (Nat.ne_of_lt hj)]

theorem field_fillEntry (convert : AsciiStrToUnicodeStrS) (hk : k + j < 5)
    (lines : List (List CHAR8)) (e : BootEntry) :
    (fillEntry convert k lines e).field (k + j) =
      (lines[j]?.map fun line => (converted convert line).2).or (e.field (k + j)) := by
  induction lines generalizing k j e with
  | nil => simp [fillEntry]
  | cons line lines ih =>
    rw [fillEntry]
    cases j with
    | zero =>
      rw [Nat.add_zero] at hk ⊢
      rw [field_fillEntry_of_lt convert (Nat.lt_succ_self k), field_setField_self _ hk]
      rfl
    | succ j =>
      have hsucc : k + (j + 1) = k + 1 + j := by omega
      rw [hsucc, ih (by omega), field_setField_of_ne _ (by omega)]
      rfl

theorem field_zero (j : ℕ) : BootEntry.zero.field j = none := by
  rcases j with _ | _ | _ | _ | _ | j <;> rfl

/-- The fields of a block's entry come from its first five lines, in order. -/
theorem field_blockEntry (convert : AsciiStrToUnicodeStrS) (hj : j < 5)
    (block : List (List CHAR8)) :
    (blockEntry convert block).field j =
      block[j]?.map fun line => (converted convert line).2 := by
  have hfield := field_fillEntry convert (k := 0) (by rwa [Nat.zero_add]) block BootEntry.zero
  rwa [Nat.zero_add, field_zero, Option.or_none] at hfield

theorem field_blockEntry_ne_none (convert : AsciiStrToUnicodeStrS) (hj : j < 5)
    (h : j < block.length) : (blockEntry convert block).field j ≠ none := by
  rw [field_blockEntry convert hj, List.getElem?_eq_getElem h]
  simp

theorem parts_nil_cons (lines : List (List CHAR8)) :
    Lines.parts [] ([] :: lines) = [] :: Lines.parts [] lines :=
  Lines.parts_append_cons List.not_mem_nil

theorem blocks_nil_cons (lines : List (List CHAR8)) : blocks ([] :: lines) = blocks lines := by
  rw [blocks, parts_nil_cons, List.filter_cons_of_neg (by simp), blocks]

theorem parts_nil : Lines.parts [] ([] : List (List CHAR8)) = [[]] :=
  Lines.parts_of_notMem List.not_mem_nil

theorem head_ne_nil_of_notMem {first : List CHAR8} (h : [] ∉ Lines.parts [] (first :: lines)) :
    first ≠ [] := by
  rintro rfl
  rw [parts_nil_cons] at h
  exact h List.mem_cons_self

theorem blocksAbove_eq (before : List (List CHAR8)) {rest : List (List CHAR8)}
    (h : [] ∉ Lines.parts [] (before ++ rest)) :
    blocksAbove before = before.countP fun line => line = [] := by
  have hparts : ∀ block ∈ Lines.terminated [] before, decide (block ≠ []) = true := by
    intro block hblock
    rw [decide_eq_true_eq]
    rintro rfl
    exact h ((Lines.terminated_prefix before rest).subset hblock)
  rw [blocksAbove, List.filter_eq_self.mpr hparts, Lines.length_terminated_eq_countP]

theorem slotAfter_of_notMem (before : List (List CHAR8)) {rest : List (List CHAR8)}
    (h : [] ∉ Lines.parts [] (before ++ rest)) :
    slotAfter before = (blocksAbove before, (blockAbove before).length) := by
  rw [blocksAbove_eq before h]
  cases before with
  | nil => rfl
  | cons first before =>
    have hfirst := head_ne_nil_of_notMem h
    have hblank : ¬ UnderFirstBlank (first :: before) := fun hb => hfirst (by simpa using hb.1)
    apply Prod.ext
    · rw [fst_slotAfter, List.countP_cons_of_neg (by simpa using hfirst), List.tail_cons]
    · rw [snd_slotAfter, if_neg hblank, Nat.add_zero]

theorem resultSize_lines (hlines : ∀ line ∈ lines, newline ∉ line) :
    resultSize (linesText lines) = (slotAfter lines).1 + 1 :=
  resultSize_linesText hlines List.not_mem_nil (List.append_nil _).symm

theorem slot_scanTo_lines (convert : AsciiStrToUnicodeStrS) (before after : List (List CHAR8))
    {line : List CHAR8} (hlines : ∀ l ∈ before ++ line :: after, newline ∉ l) :
    (scanTo convert (linesText (before ++ line :: after)) (linesText before ++ line).length).slot =
      slotAfter before := by
  rw [List.forall_mem_append, List.forall_mem_cons] at hlines
  exact slot_scanTo_line convert before line (linesText after) hlines.1 hlines.2.1 (by simp)

theorem BlocksKept.notMem_parts (hlines : ∀ line ∈ lines, newline ∉ line)
    (h : BlocksKept convert lines) : [] ∉ Lines.parts [] lines := by
  have hsize := h.size
  rw [resultSize_lines hlines, fst_slotAfter] at hsize
  cases lines with
  | nil =>
    rw [blocks, parts_nil] at hsize
    simp at hsize
  | cons first rest =>
    by_cases hfirst : first = []
    · subst hfirst
      exfalso
      -- below the empty first line no empty line is too many, so a block begins there
      rw [blocks_nil_cons, List.tail_cons, ← Lines.length_parts, eq_comm,
        ← notMem_parts_iff] at hsize
      cases rest with
      | nil =>
        rw [parts_nil] at hsize
        exact hsize List.mem_cons_self
      | cons line rest =>
        have hslot := h.slot [[]] line rest rfl (head_ne_nil_of_notMem hsize)
        have hscan := slot_scanTo_lines convert [[]] rest hlines
        -- but its first line goes to the second field
        have hfield : (0, 1) = (blocksAbove [[]], (blockAbove [[]]).length) :=
          hscan.symm.trans hslot
        have hzero : (blockAbove [[]]).length = 0 := rfl
        exact absurd ((congrArg Prod.snd hfield).trans hzero) (by decide)
    · rw [notMem_parts_iff, Lines.length_parts, List.countP_cons_of_neg (by simpa using hfirst),
        ← hsize, List.tail_cons]

theorem resultSize_of_notMem (hlines : ∀ line ∈ lines, newline ∉ line)
    (h : [] ∉ Lines.parts [] lines) : resultSize (linesText lines) = (blocks lines).length := by
  have hall : [] ∉ Lines.parts [] (lines ++ []) := by rwa [List.append_nil]
  rw [resultSize_lines hlines, slotAfter_of_notMem lines hall, blocksAbove_eq lines hall,
    (notMem_parts_iff lines).mp h, Lines.length_parts]

theorem result_of_notMem (convert : AsciiStrToUnicodeStrS)
    (hlines : ∀ line ∈ lines, newline ∉ line) (h : [] ∉ Lines.parts [] lines) :
    (scanConfig convert (linesText lines)).result = (blocks lines).map (blockEntry convert) := by
  obtain ⟨p, w, n, hscan⟩ := scanConfig_linesText convert hlines List.not_mem_nil
    (List.append_nil (linesText lines)).symm
  obtain ⟨hne, hbs⟩ := (singleBlanks_iff lines).mpr h
  have hfilled := filled_blocks lines
  rw [hscan, resultSize_of_notMem hlines h]
  cases hb : blocks lines using List.reverseRecOn with
  | nil => exact absurd hb hne
  | append_singleton bs block =>
    rw [hb] at hbs hfilled
    rw [hbs, Lines.intercalate_append_singleton, List.length_append, List.length_singleton]
    obtain ⟨hfilled, -, hblock⟩ := filled_append_singleton.mp hfilled
    exact result_blocks convert hfilled hblock

theorem blocksKept_of_notMem (convert : AsciiStrToUnicodeStrS)
    (hlines : ∀ line ∈ lines, newline ∉ line) (h : [] ∉ Lines.parts [] lines) :
    BlocksKept convert lines := by
  have hentries := result_of_notMem convert hlines h
  constructor
  case size => exact resultSize_of_notMem hlines h
  case slot =>
    rintro before line after rfl -
    rw [slot_scanTo_lines convert before after hlines, slotAfter_of_notMem before h]
  case entries => exact hentries
  case complete =>
    intro hfour e he
    rw [hentries] at he
    obtain ⟨block, hblock, rfl⟩ := List.mem_map.mp he
    have hlen := hfour block hblock
    exact ⟨field_blockEntry_ne_none convert (j := 0) (by omega) (by omega),
      field_blockEntry_ne_none convert (j := 1) (by omega) (by omega),
      field_blockEntry_ne_none convert (j := 2) (by omega) (by omega),
      field_blockEntry_ne_none convert (j := 3) (by omega) (by omega)⟩

end Blocks

/-- The entries are the blocks of the file just when there is a block, and one empty line between
two blocks and none elsewhere. -/
theorem blocksKept_iff (convert : AsciiStrToUnicodeStrS) (lines : List (List CHAR8))
    (hlines : ∀ line ∈ lines, newline ∉ line) :
    BlocksKept convert lines ↔
      blocks lines ≠ [] ∧ lines = [[]].intercalate (blocks lines) := by
  rw [singleBlanks_iff]
  constructor
  · intro h
    exact h.notMem_parts hlines
  · intro h
    exact blocksKept_of_notMem convert hlines h

/-- A block of four lines and an empty line below it. -/
def trailingBlank : List (List CHAR8) :=
  [[116, colon, space, 97], [118, colon, space, 98], [108, colon, space, 99],
    [105, colon, space, 100], []]

/-- The empty line makes an entry without a title and an icon. -/
theorem not_blocksKept_trailingBlank : ¬ BlocksKept asciiStrToUnicodeStrS trailingBlank := by
  intro h
  have hblocks : blocks trailingBlank = [trailingBlank.dropLast] := by decide +kernel
  have hfour : ∀ block ∈ blocks trailingBlank, 4 ≤ block.length := by
    rw [hblocks, List.forall_mem_singleton]
    decide
  have hmem : BootEntry.zero ∈
      (scanConfig asciiStrToUnicodeStrS (linesText trailingBlank)).result := by decide +kernel
  exact (h.complete hfour _ hmem).1 rfl

theorem blocksKept_iff_trailingBlank : BlocksKept asciiStrToUnicodeStrS trailingBlank ↔
    blocks trailingBlank ≠ [] ∧ trailingBlank = [[]].intercalate (blocks trailingBlank) :=
  blocksKept_iff asciiStrToUnicodeStrS trailingBlank (by decide)

end UefiGame
