import Mathlib.Data.List.TakeWhile
import UefiGame.Config.Boot
import UefiGame.Library.Lines

/-! # The texture list parser

`ParseTexturesConfigFile` counts the newlines, then turns each newline into the
NUL that ends a file name and copies the string that starts after the one
before.
-/

namespace UefiGame

/-- The out-parameters `*TexturesFiles` and `*TexturesCount`. -/
structure TexturesConfig where
  texturesFiles : List Str16
  texturesCount : ℕ
  deriving DecidableEq, Repr

/-- The offset `CurFileNameStart` points to, `CurTexture`, and the names stored so far. -/
structure TexturesScan where
  curFileNameStart : ℕ
  curTexture : ℕ
  texturesFiles : List Str16
  deriving DecidableEq, Repr

/-- The counting loop. -/
def texturesCount (fileData : List CHAR8) : ℕ := fileData.count newline

/-- The string copied for the bytes of a line, which ends at the first NUL. -/
def curFileName (convert : AsciiStrToUnicodeStrS) (line : List CHAR8) : Str16 :=
  let name := line.takeWhile fun c => c ≠ 0
  some (convert (name ++ [0]) (name.length + 1)).2

/-- One pass of the second loop, on the byte `c.1` at offset `c.2`. The bytes overwritten by earlier
passes lie before `CurFileNameStart`; the status of the copy is not looked at. -/
def texturesStep (convert : AsciiStrToUnicodeStrS) (fileData : List CHAR8) (s : TexturesScan)
    (c : CHAR8 × ℕ) : TexturesScan :=
  if c.1 = newline then
    let line := (fileData.drop s.curFileNameStart).take (c.2 - s.curFileNameStart)
    { curFileNameStart := c.2 + 1
      curTexture := s.curTexture + 1
      texturesFiles := s.texturesFiles.set s.curTexture (curFileName convert line) }
  else s

/-- Both loops over the bytes of the file. -/
def scanTextures (convert : AsciiStrToUnicodeStrS) (fileData : List CHAR8) : TexturesScan :=
  fileData.zipIdx.foldl (texturesStep convert fileData)
    ⟨0, 0, List.replicate (texturesCount fileData) none⟩

/-- `ParseTexturesConfigFile`. -/
def parseTexturesConfigFile (convert : AsciiStrToUnicodeStrS) (fs : FileSystem) (filename : Str16)
    (out : TexturesConfig) : EFI_STATUS × TexturesConfig :=
  match filename with
  | none => (EFI_INVALID_PARAMETER, out)
  | some name =>
    let r := readFile fs (some name) ⟨[], []⟩
    if efiError r.1 then (r.1, out)
    else (r.1, ⟨(scanTextures convert r.2.bytes).texturesFiles, texturesCount r.2.bytes⟩)

/-- The name of a texture file: ASCII, not empty, without newline or NUL. -/
structure TextureName where
  chars : List CHAR8
  ascii : ∀ c ∈ chars, c ≠ 0 ∧ c.toNat < 128
  noNewline : newline ∉ chars
  ne_nil : chars ≠ []

/-- A texture list: one name a line. -/
def texturesText (names : List TextureName) : List CHAR8 :=
  names.flatMap fun name => name.chars ++ [newline]

/-- The UTF-16 string a name is read as. -/
def TextureName.wide (name : TextureName) : List CHAR16 := name.chars.map (BitVec.setWidth 16)

section Scanner

variable {convert : AsciiStrToUnicodeStrS} {max : ℕ} {data pre seg rest : List CHAR8}
  {s : TexturesScan}

theorem foldl_texturesStep_of_notMem (h : newline ∉ seg) (i : ℕ) :
    (seg.zipIdx i).foldl (texturesStep convert data) s = s := by
  induction seg generalizing i with
  | nil => rfl
  | cons c seg ih =>
    rw [List.mem_cons, not_or] at h
    rw [List.zipIdx_cons, List.foldl_cons, texturesStep, if_neg (Ne.symm h.1)]
    exact ih h.2 (i + 1)

theorem foldl_texturesStep_line (h : newline ∉ seg) (hs : s.curFileNameStart = pre.length)
    (hdata : data = pre ++ (seg ++ newline :: rest)) :
    ((seg ++ [newline]).zipIdx pre.length).foldl (texturesStep convert data) s =
      { curFileNameStart := pre.length + (seg.length + 1)
        curTexture := s.curTexture + 1
        texturesFiles := s.texturesFiles.set s.curTexture (curFileName convert seg) } := by
  have hline : (data.drop pre.length).take (pre.length + seg.length - pre.length) = seg := by
    rw [hdata, List.drop_left, Nat.add_sub_cancel_left, List.take_left]
  rw [List.zipIdx_append, List.foldl_append, foldl_texturesStep_of_notMem h, List.zipIdx_singleton,
    List.foldl_cons, List.foldl_nil, texturesStep, if_pos rfl]
  dsimp only
  rw [hs, hline, Nat.add_assoc]

/-- The names of all terminated lines, in order; `done` are the slots filled before. -/
theorem foldl_texturesStep (xs : List CHAR8) (pre : List CHAR8) (done : List Str16)
    (hdata : data = pre ++ xs) (hs : s.curFileNameStart = pre.length)
    (hcur : s.curTexture = done.length)
    (hfiles : s.texturesFiles = done ++ List.replicate (texturesCount xs) none) :
    ((xs.zipIdx pre.length).foldl (texturesStep convert data) s).texturesFiles =
      done ++ (Lines.terminated newline xs).map (curFileName convert) := by
  induction xs using Lines.induction newline generalizing pre done s with
  | unfinished xs h =>
    rw [foldl_texturesStep_of_notMem h, hfiles, texturesCount, List.count_eq_zero_of_not_mem h,
      Lines.terminated_of_notMem h]
    rfl
  | line seg rest h ih =>
    have hsplit : seg ++ newline :: rest = seg ++ [newline] ++ rest := by simp
    have hcount : texturesCount (seg ++ newline :: rest) = texturesCount rest + 1 := by
      rw [texturesCount, List.count_append, List.count_eq_zero_of_not_mem h, List.count_cons_self,
        Nat.zero_add, texturesCount]
    have hfill : s.texturesFiles.set s.curTexture (curFileName convert seg) =
        done ++ [curFileName convert seg] ++ List.replicate (texturesCount rest) none := by
      rw [hfiles, hcur, hcount, List.replicate_succ, List.set_append_right _ _ le_rfl,
        Nat.sub_self, List.set_cons_zero, List.append_assoc, List.singleton_append]
    have hlen : pre.length + (seg ++ [newline]).length = (pre ++ (seg ++ [newline])).length :=
      List.length_append.symm
    rw [Lines.terminated_append_cons h, List.map_cons, hsplit, List.zipIdx_append,
      List.foldl_append, foldl_texturesStep_line h hs hdata, hlen,
      ih (pre ++ (seg ++ [newline])) (done ++ [curFileName convert seg])]
    · rw [List.append_assoc, List.singleton_append]
    · rw [hdata, hsplit, List.append_assoc, List.append_assoc, List.append_assoc]
    · simp
    · simp [hcur]
    · exact hfill

theorem scanTextures_eq : (scanTextures convert data).texturesFiles =
    (Lines.terminated newline data).map (curFileName convert) :=
  foldl_texturesStep data [] [] rfl rfl rfl rfl

theorem curFileName_ascii (hconv : convert.Documented max) (line : List CHAR8)
    (hascii : ∀ c ∈ line, c.toNat < 128) (hmax : KitAllows max (line.length + 1)) :
    curFileName convert line = some ((line.takeWhile fun c => c ≠ 0).map (BitVec.setWidth 16)) := by
  have hchars : ∀ c ∈ line.takeWhile fun c => c ≠ 0, c ≠ 0 ∧ c.toNat < 128 := by
    intro c hc
    refine ⟨?_, hascii c ((List.takeWhile_sublist _).subset hc)⟩
    simpa using List.mem_takeWhile_imp hc
  have hle : (line.takeWhile fun c => c ≠ 0).length + 1 ≤ line.length + 1 :=
    Nat.succ_le_succ (List.takeWhile_prefix _).length_le
  rw [curFileName, hconv _ _ hchars (Nat.lt_succ_self _) (hmax.mono hle)]

theorem curFileName_chars (hconv : convert.Documented max) {name : TextureName}
    (hmax : KitAllows max (name.chars.length + 1)) :
    curFileName convert name.chars = some name.wide := by
  have hname : name.chars.takeWhile (fun c => c ≠ 0) = name.chars := by
    rw [List.takeWhile_eq_self_iff]
    exact fun c hc => decide_eq_true (name.ascii c hc).1
  rw [curFileName_ascii hconv name.chars (fun c hc => (name.ascii c hc).2) hmax, hname,
    TextureName.wide]

theorem terminated_texturesText (names : List TextureName) :
    Lines.terminated newline (texturesText names) = names.map TextureName.chars := by
  induction names with
  | nil => exact Lines.terminated_of_notMem (by simp [texturesText])
  | cons name names ih =>
    have htext : texturesText (name :: names) = name.chars ++ newline :: texturesText names := by
      simp [texturesText]
    rw [htext, Lines.terminated_append_cons name.noNewline, ih, List.map_cons]

end Scanner

section Parse

variable {convert : AsciiStrToUnicodeStrS} {max : ℕ} {fs : FileSystem} {filename : List CHAR16}
  {c : List CHAR8}

theorem Reads.parseTexturesConfigFile_eq (hread : Reads fs filename c) (out : TexturesConfig) :
    parseTexturesConfigFile convert fs (some filename) out =
      ((fs filename).read,
        ⟨(Lines.terminated newline c).map (curFileName convert), texturesCount c⟩) := by
  simp only [parseTexturesConfigFile, hread.readFile_eq, hread.bytes_eq, hread.read,
    Bool.false_eq_true, if_false, scanTextures_eq]

theorem parseTexturesConfigFile_texturesText (hconv : convert.Documented max)
    {names : List TextureName} (hmax : ∀ name ∈ names, KitAllows max (name.chars.length + 1))
    (hread : Reads fs filename (texturesText names))
    (out : TexturesConfig) :
    parseTexturesConfigFile convert fs (some filename) out =
      ((fs filename).read, ⟨names.map fun name => some name.wide, names.length⟩) := by
  have hnames : (names.map TextureName.chars).map (curFileName convert) =
      names.map fun name => some name.wide := by
    rw [List.map_map]
    exact List.map_congr_left fun name hname => curFileName_chars hconv (hmax name hname)
  have hcount : texturesCount (texturesText names) = names.length := by
    rw [texturesCount, ← Lines.length_terminated, terminated_texturesText, List.length_map]
  rw [hread.parseTexturesConfigFile_eq, terminated_texturesText, hnames, hcount]

end Parse

end UefiGame
