import UefiGame.Config.Textures

/-! # The texture list parser on the block it rewrites

The second loop of `ParseTexturesConfigFile` writes NULs into the block it is
reading, and `AsciiStrLen` looks for one of them from the start of the line.
Every offset read and every slot filled is recorded here. For any content the
search ends within the line, so the loop computes what the parser was said to.
-/

namespace UefiGame

/-- The block, the locals of the second loop, the names stored, and what was accessed so far: the
slots stored to, the offsets read, and for each `AsciiStrLen` the offset of the newline of its pass
and that of the NUL it found. -/
structure TexturesRun where
  fileData : List CHAR8
  curFileNameStart : ℕ
  curTexture : ℕ
  texturesFiles : List Str16
  stores : List ℕ
  reads : List ℕ
  scans : List (ℕ × ℕ)
  deriving DecidableEq, Repr

/-- `AsciiStrLen(FileData + start)`; `none` if there is no NUL in the memory behind the pointer. -/
def asciiStrLen (fileData : List CHAR8) (start : ℕ) : Option ℕ :=
  (fileData.drop start).findIdx? fun c => c = 0

/-- One pass of the counting loop: `*TexturesCount` and the offsets read. -/
def newlineStep (fileData : List CHAR8) (s : ℕ × List ℕ) (i : ℕ) : ℕ × List ℕ :=
  (if fileData[i]?.getD 0 = newline then s.1 + 1 else s.1, s.2 ++ [i])

/-- One pass of the second loop. -/
def fillStep (convert : AsciiStrToUnicodeStrS) (s : TexturesRun) (i : ℕ) : Option TexturesRun :=
  if s.fileData[i]?.getD 0 = newline then
    let fileData := s.fileData.set i 0
    (asciiStrLen fileData s.curFileNameStart).map fun len =>
      let name := (fileData.drop s.curFileNameStart).take (len + 1)
      { fileData := fileData
        curFileNameStart := i + 1
        curTexture := s.curTexture + 1
        texturesFiles := s.texturesFiles.set s.curTexture (some (convert name (len + 1)).2)
        stores := s.stores ++ [s.curTexture]
        reads := s.reads ++ i :: List.range' s.curFileNameStart (len + 1)
        scans := s.scans ++ [(i, s.curFileNameStart + len)] }
  else some { s with reads := s.reads ++ [i] }

/-- The locals before the second loop, after the counting loop has left `counted`. -/
def TexturesRun.start (fileData : List CHAR8) (counted : ℕ × List ℕ) : TexturesRun where
  fileData := fileData
  curFileNameStart := 0
  curTexture := 0
  texturesFiles := List.replicate counted.1 none
  stores := []
  reads := counted.2
  scans := []

/-- Both loops over the block that `ReadFile` returned: `*TexturesCount`
and the second loop's end. -/
def fillTextures (convert : AsciiStrToUnicodeStrS) (b : FileBuffer) : Option (ℕ × TexturesRun) :=
  let fileData := b.bytes ++ b.beyond
  let counted := (List.range b.bytes.length).foldl (newlineStep fileData) (0, [])
  ((List.range b.bytes.length).foldlM (fillStep convert) (TexturesRun.start fileData counted)).map
    fun s => (counted.1, s)

section Count

variable {data pre xs rest : List CHAR8}

theorem getD_append_cons (pre : List CHAR8) (c : CHAR8) (rest : List CHAR8) :
    (pre ++ c :: rest)[pre.length]?.getD 0 = c := by
  rw [List.getElem?_append_right le_rfl, Nat.sub_self, List.getElem?_cons_zero, Option.getD_some]

theorem foldl_newlineStep (n : ℕ) (reads : List ℕ) (hdata : data = pre ++ (xs ++ rest)) :
    (List.range' pre.length xs.length).foldl (newlineStep data) (n, reads) =
      (n + texturesCount xs, reads ++ List.range' pre.length xs.length) := by
  induction xs generalizing pre n reads with
  | nil => simp [texturesCount]
  | cons c xs ih =>
    have hread : data[pre.length]?.getD 0 = c := by
      rw [hdata, List.cons_append, getD_append_cons]
    have hnext : (pre ++ [c]).length = pre.length + 1 := List.length_append
    have hrest : data = pre ++ [c] ++ (xs ++ rest) := by simp [hdata]
    rw [List.length_cons, List.range'_succ, List.foldl_cons, newlineStep, hread, ← hnext,
      ih _ _ hrest]
    rw [Prod.mk.injEq]
    constructor
    · unfold texturesCount
      by_cases hc : c = newline
      · rw [if_pos hc, hc, List.count_cons_self]
        omega
      · rw [if_neg hc, List.count_cons_of_ne hc]
    · rw [List.append_assoc, List.singleton_append]

end Count

section Fill

variable {convert : AsciiStrToUnicodeStrS} {pre seg rest : List CHAR8} {s : TexturesRun}

theorem foldlM_fillStep_of_notMem (h : newline ∉ seg) (hdata : s.fileData = pre ++ (seg ++ rest)) :
    (List.range' pre.length seg.length).foldlM (fillStep convert) s =
      some { s with reads := s.reads ++ List.range' pre.length seg.length } := by
  induction seg generalizing pre s with
  | nil => simp
  | cons c seg ih =>
    rw [List.mem_cons, not_or] at h
    have hread : s.fileData[pre.length]?.getD 0 = c := by
      rw [hdata, List.cons_append, getD_append_cons]
    have hnext : (pre ++ [c]).length = pre.length + 1 := List.length_append
    have hstep : fillStep convert s pre.length =
        some { s with reads := s.reads ++ [pre.length] } := by
      unfold fillStep
      rw [hread, if_neg (Ne.symm h.1)]
    rw [List.length_cons, List.range'_succ, List.foldlM_cons, hstep, ← hnext]
    have hdata' : s.fileData = pre ++ [c] ++ (seg ++ rest) := by simp [hdata]
    have hrun := ih (s := { s with reads := s.reads ++ [pre.length] }) h.2 hdata'
    simpa using hrun

theorem asciiStrLen_line (pre seg rest : List CHAR8) :
    asciiStrLen (pre ++ (seg ++ 0 :: rest)) pre.length =
        some (seg.takeWhile fun c => c ≠ 0).length ∧
      ((pre ++ (seg ++ 0 :: rest)).drop pre.length).take
          ((seg.takeWhile fun c => c ≠ 0).length + 1) =
        (seg.takeWhile fun c => c ≠ 0) ++ [0] := by
  obtain ⟨rest', heq⟩ := Lines.exists_eq_takeWhile_append 0 seg rest
  unfold asciiStrLen
  rw [List.drop_left, heq]
  constructor
  · exact Lines.findIdx?_append_cons (Lines.notMem_takeWhile 0 seg) rest'
  · rw [List.take_length_add_append, List.take_succ_cons, List.take_zero]

/-- What the passes over a line `seg` and its newline do, the bytes `pre` before it done. -/
structure TexturesRun.LineFilled (convert : AsciiStrToUnicodeStrS) (pre seg rest : List CHAR8)
    (s s' : TexturesRun) : Prop where
  fileData : s'.fileData = pre ++ (seg ++ 0 :: rest)
  curFileNameStart : s'.curFileNameStart = pre.length + (seg.length + 1)
  curTexture : s'.curTexture = s.curTexture + 1
  texturesFiles : s'.texturesFiles = s.texturesFiles.set s.curTexture (curFileName convert seg)
  stores : s'.stores = s.stores ++ [s.curTexture]
  reads : ∀ r ∈ s'.reads, r ∈ s.reads ∨ r < pre.length + (seg.length + 1)
  scans : ∀ p ∈ s'.scans, p ∈ s.scans ∨ p.2 ≤ p.1

theorem exists_foldlM_fillStep_line (convert : AsciiStrToUnicodeStrS) (h : newline ∉ seg)
    (hstart : s.curFileNameStart = pre.length)
    (hdata : s.fileData = pre ++ (seg ++ newline :: rest)) :
    ∃ s', (List.range' pre.length (seg.length + 1)).foldlM (fillStep convert) s = some s' ∧
      TexturesRun.LineFilled convert pre seg rest s s' := by
  have hread : s.fileData[pre.length + seg.length]?.getD 0 = newline := by
    rw [hdata, ← List.append_assoc, ← List.length_append, getD_append_cons]
  have hset : s.fileData.set (pre.length + seg.length) 0 = pre ++ (seg ++ 0 :: rest) := by
    rw [hdata, List.set_append_right _ _ (Nat.le_add_right _ _), Nat.add_sub_cancel_left,
      List.set_append_right _ _ le_rfl, Nat.sub_self, List.set_cons_zero]
  obtain ⟨hlen, hname⟩ := asciiStrLen_line pre seg rest
  have hle : (seg.takeWhile fun c => c ≠ 0).length ≤ seg.length :=
    (List.takeWhile_sublist _).length_le
  rw [List.range'_concat, List.foldlM_append, foldlM_fillStep_of_notMem h hdata, Nat.one_mul]
  simp only [Option.bind_eq_bind, Option.bind_some, List.foldlM_cons, List.foldlM_nil]
  unfold fillStep
  simp only [hread, if_true, hset, hstart, hlen, hname, Option.map_some, Option.bind_some]
  refine ⟨_, rfl, rfl, rfl, rfl, rfl, rfl, ?_, ?_⟩
  · intro r hr
    simp only [List.mem_append, List.mem_cons, List.mem_range'_1] at hr
    rcases hr with (hr | hr) | hr | hr
    · exact Or.inl hr
    · right; omega
    · right; omega
    · right; omega
  · intro p hp
    simp only [List.mem_append, List.mem_singleton] at hp
    rcases hp with hp | rfl
    · exact Or.inl hp
    · exact Or.inr (Nat.add_le_add_left hle _)

/-- What the second loop adds to `s` over the bytes `xs` that start at offset `i`: `s'` has a name
for each terminated line in the next slots, and has read nothing behind these bytes. -/
structure TexturesRun.Filled (convert : AsciiStrToUnicodeStrS) (done : List Str16) (i : ℕ)
    (xs : List CHAR8) (s s' : TexturesRun) : Prop where
  names : s'.texturesFiles = done ++ (Lines.terminated newline xs).map (curFileName convert)
  stores : s'.stores = s.stores ++ List.range' done.length (texturesCount xs)
  reads : ∀ r ∈ s'.reads, r ∈ s.reads ∨ r < i + xs.length
  scans : ∀ p ∈ s'.scans, p ∈ s.scans ∨ p.2 ≤ p.1

/-- The second loop line by line; `done` are the slots filled before. -/
theorem exists_foldlM_fillStep (convert : AsciiStrToUnicodeStrS) (beyond xs pre : List CHAR8)
    (done : List Str16)
    (s : TexturesRun) (hdata : s.fileData = pre ++ (xs ++ beyond))
    (hstart : s.curFileNameStart = pre.length) (hcur : s.curTexture = done.length)
    (hfiles : s.texturesFiles = done ++ List.replicate (texturesCount xs) none) :
    ∃ s', (List.range' pre.length xs.length).foldlM (fillStep convert) s = some s' ∧
      TexturesRun.Filled convert done pre.length xs s s' := by
  induction xs using Lines.induction newline generalizing pre done s with
  | unfinished xs h =>
    have hcount : texturesCount xs = 0 := List.count_eq_zero_of_not_mem h
    refine ⟨_, foldlM_fillStep_of_notMem h hdata, ?_, ?_, ?_, fun p hp => Or.inl hp⟩
    · rw [hfiles, hcount, Lines.terminated_of_notMem h]
      rfl
    · rw [hcount, List.range'_zero, List.append_nil]
    · intro r hr
      rcases List.mem_append.mp hr with hr | hr
      · exact Or.inl hr
      · exact Or.inr (List.mem_range'_1.mp hr).2
  | line seg rest h ih =>
    have hcount : texturesCount (seg ++ newline :: rest) = texturesCount rest + 1 := by
      rw [texturesCount, List.count_append, List.count_eq_zero_of_not_mem h, List.count_cons_self,
        Nat.zero_add, texturesCount]
    have hlen : (pre ++ (seg ++ [0])).length = pre.length + (seg.length + 1) := by simp
    have hsplit : (seg ++ newline :: rest).length = seg.length + 1 + rest.length := by
      rw [List.length_append, List.length_cons]
      omega
    have hsource : s.fileData = pre ++ (seg ++ newline :: (rest ++ beyond)) := by simp [hdata]
    obtain ⟨s', hline, hs'⟩ := exists_foldlM_fillStep_line convert h hstart hsource
    have hdata' : s'.fileData = pre ++ (seg ++ [0]) ++ (rest ++ beyond) := by simp [hs'.fileData]
    have hcur' : s'.curTexture = (done ++ [curFileName convert seg]).length := by
      simp [hs'.curTexture, hcur]
    have hfiles' : s'.texturesFiles =
        done ++ [curFileName convert seg] ++ List.replicate (texturesCount rest) none := by
      rw [hs'.texturesFiles, hfiles, hcur, hcount, List.replicate_succ,
        List.set_append_right _ _ le_rfl, Nat.sub_self, List.set_cons_zero, List.append_assoc,
        List.singleton_append]
    obtain ⟨s'', hrun, hs''⟩ :=
      ih (pre ++ (seg ++ [0])) _ s' hdata' (hs'.curFileNameStart.trans hlen.symm) hcur' hfiles'
    refine ⟨s'', ?_, ?_, ?_, ?_, ?_⟩
    · rw [hsplit, ← List.range'_append_1, List.foldlM_append, hline, ← hlen]
      exact hrun
    · rw [hs''.names, Lines.terminated_append_cons h, List.map_cons, List.append_assoc,
        List.singleton_append]
    · rw [hs''.stores, hs'.stores, hcount, hcur, List.range'_succ, List.append_assoc,
        List.singleton_append, List.length_append, List.length_singleton]
    · intro r hr
      rcases hs''.reads r hr with hr | hr
      · rcases hs'.reads r hr with hr | hr
        · exact Or.inl hr
        · right; omega
      · right; omega
    · intro p hp
      rcases hs''.scans p hp with hp | hp
      · exact hs'.scans p hp
      · exact Or.inr hp

end Fill

/-- The loops over a block: the number of newlines, the name of each terminated line in its slot,
every slot filled once in order, no read behind the file and no search past its newline. -/
structure TexturesParsed (convert : AsciiStrToUnicodeStrS) (b : FileBuffer) (count : ℕ)
    (s : TexturesRun) : Prop where
  count_eq : count = b.bytes.count newline
  stores_eq : s.stores = List.range count
  names_eq : s.texturesFiles = (Lines.terminated newline b.bytes).map (curFileName convert)
  reads_lt : ∀ r ∈ s.reads, r < b.bytes.length
  scans_le : ∀ p ∈ s.scans, p.2 ≤ p.1

/-- The texture list of any content is parsed inside its block. -/
theorem fillTextures_parsed (convert : AsciiStrToUnicodeStrS) (b : FileBuffer) :
    ∃ count s, fillTextures convert b = some (count, s) ∧ TexturesParsed convert b count s := by
  have hcount : (List.range b.bytes.length).foldl (newlineStep (b.bytes ++ b.beyond)) (0, []) =
      (texturesCount b.bytes, List.range b.bytes.length) := by
    have hdata : b.bytes ++ b.beyond = [] ++ (b.bytes ++ b.beyond) := rfl
    have hrun := foldl_newlineStep 0 [] hdata
    rw [List.length_nil, ← List.range_eq_range', Nat.zero_add, List.nil_append] at hrun
    exact hrun
  obtain ⟨s, hrun, hs⟩ := exists_foldlM_fillStep convert b.beyond b.bytes []
    [] (TexturesRun.start (b.bytes ++ b.beyond)
      (texturesCount b.bytes, List.range b.bytes.length)) rfl rfl rfl rfl
  rw [List.length_nil, ← List.range_eq_range'] at hrun
  refine ⟨texturesCount b.bytes, s, ?_, rfl, ?_, hs.names, ?_, ?_⟩
  · unfold fillTextures
    simp only [hcount, hrun, Option.map_some]
  · rw [hs.stores, List.length_nil, ← List.range_eq_range']
    rfl
  · intro r hr
    rcases hs.reads r hr with hr | hr
    · exact List.mem_range.mp hr
    · rwa [List.length_nil, Nat.zero_add] at hr
  · intro p hp
    rcases hs.scans p hp with hp | hp
    · exact absurd hp List.not_mem_nil
    · exact hp

/-- Of an ASCII file the names are the lines, each cut at its first NUL. -/
theorem TexturesParsed.names_ascii {convert : AsciiStrToUnicodeStrS} {max : ℕ}
    (hconv : convert.Documented max) {b : FileBuffer} {count : ℕ} {s : TexturesRun}
    (h : TexturesParsed convert b count s)
    (hascii : ∀ line ∈ Lines.terminated newline b.bytes, ∀ c ∈ line, c.toNat < 128)
    (hmax : ∀ line ∈ Lines.terminated newline b.bytes, KitAllows max (line.length + 1)) :
    s.texturesFiles = (Lines.terminated newline b.bytes).map fun line =>
      some ((line.takeWhile fun c => c ≠ 0).map (BitVec.setWidth 16)) := by
  rw [h.names_eq]
  exact List.map_congr_left fun line hline =>
    curFileName_ascii hconv line (hascii line hline) (hmax line hline)

/-- What `ParseTexturesConfigFile` returns is what the loops leave in the block it read. -/
theorem Reads.parseTexturesConfigFile_eq_fill {convert : AsciiStrToUnicodeStrS} {fs : FileSystem}
    {filename : List CHAR16} {c : List CHAR8} (hread : Reads fs filename c) (out : TexturesConfig) :
    ∃ count s, fillTextures convert (fs filename).buffer = some (count, s) ∧
      parseTexturesConfigFile convert fs (some filename) out =
        ((fs filename).read, ⟨s.texturesFiles, count⟩) := by
  obtain ⟨count, s, hfill, hs⟩ := fillTextures_parsed convert (fs filename).buffer
  refine ⟨count, s, hfill, ?_⟩
  rw [hread.parseTexturesConfigFile_eq, hs.names_eq, hs.count_eq, hread.bytes_eq]
  rfl

end UefiGame
