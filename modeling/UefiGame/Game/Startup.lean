import UefiGame.Config.BootRoundTrip
import UefiGame.Config.Maze
import UefiGame.Config.Sprite
import UefiGame.Config.Textures
import UefiGame.Firmware.Partitions
import UefiGame.Graphics.Bmp
import UefiGame.Library.Checked

/-! # Starting the games

`UefiMain` reads the boot configuration, the maze, the texture list, the
textures and, in the two-dimensional program, the sprite before it calls `Game`.
The statuses of the maze and of the texture list are dropped, and two of the
parsers look at their data before anything has looked at the status of
`ReadFile`.
-/

namespace UefiGame

/-- The UTF-16 string of a literal. -/
def wideLiteral (s : List Char) : List CHAR16 := s.map fun c => BitVec.ofNat 16 c.toNat

def configName : List CHAR16 :=
  wideLiteral ['2', 'D', 'C', 'o', 'n', 'f', 'i', 'g', '.', 't', 'x', 't']

def configName3D : List CHAR16 :=
  wideLiteral ['3', 'D', 'C', 'o', 'n', 'f', 'i', 'g', '.', 't', 'x', 't']

def mazeName : List CHAR16 :=
  wideLiteral ['M', 'a', 'z', 'e', 'C', 'o', 'n', 'f', 'i', 'g', '.', 'c', 'o', 'n', 'f']

def texturesName : List CHAR16 :=
  wideLiteral ['T', 'e', 'x', 't', 'u', 'r', 'e', 's', 'C', 'o', 'n', 'f', 'i', 'g', '.', 'c', 'o',
    'n', 'f']

def spriteName : List CHAR16 := wideLiteral ['S', 'p', 'r', 'i', 't', 'e', '.', 't', 'x', 't']

/-- The functions that read a file of the game. -/
inductive FileParser where
  | parseConfigFile
  | parseMazeConfigFile
  | parseTexturesConfigFile
  | readBMP
  | parseSprite
  deriving DecidableEq, Repr

/-- A parser looks at its data, after `ReadFile` returned the status `read`. -/
structure Inspection where
  parser : FileParser
  read : EFI_STATUS
  deriving DecidableEq, Repr

/-- What `UefiMain` finds outside itself: the firmware, and what its uninitialised locals, and those
of the parsers it calls, happen to hold. -/
structure StartupEnv (H : Type) where
  convert : AsciiStrToUnicodeStrS
  fs : FileSystem
  curFSHandle : EFI_STATUS
  fsHandles : FsHandles H
  configData : FileBuffer
  maze : MazeConfig
  textures : TexturesConfig
  stack : ℕ → Bmp
  spriteData : FileBuffer

/-- The arguments of `Game` in the three-dimensional program. -/
structure GameArgs3D where
  maze : MazeConfig
  textures : List Image
  bootEntries : List BootEntry
  deriving DecidableEq, Repr

/-- The arguments of `Game`. -/
structure GameArgs extends GameArgs3D where
  sprite : Image
  deriving DecidableEq, Repr

/-- A part of `UefiMain` that may return from it. -/
abbrev Startup := Checked.Prog EFI_STATUS Inspection

/-- `if (CheckError(Status, …)) return Status;`. -/
def checkError (status : EFI_STATUS) : Startup Unit :=
  if efiError status then Checked.stop status else pure ()

/-- A parser that returns before looking at its data if `ReadFile` failed. -/
def lookIfRead (parser : FileParser) (read : EFI_STATUS) : Startup Unit :=
  if efiError read then pure () else Checked.look ⟨parser, read⟩

/-- `CutInHalf(Texture, Width, Height)`, for an image that is `Sized`. -/
def Bmp.half (b : Bmp) : Image :=
  cutInHalf b.pixels (uintnOfInt32 b.width).toNat (uintnOfInt32 b.height).toNat

namespace StartupEnv

variable {H : Type} (env : StartupEnv H)

/-- The status of `ReadFile`. -/
def readStatus (filename : Str16) : EFI_STATUS := (readFile env.fs filename ⟨[], []⟩).1

def configResult (filename : List CHAR16) : ConfigResult :=
  parseConfigFile env.convert env.fs (some filename) env.configData

def mazeResult : EFI_STATUS × MazeConfig := parseMazeConfigFile env.fs (some mazeName) env.maze

def texturesResult : EFI_STATUS × TexturesConfig :=
  parseTexturesConfigFile env.convert env.fs (some texturesName) env.textures

/-- `TexturesFiles[i]` for the passes `i` of the texture loop. -/
def texturePasses : List (Str16 × ℕ) :=
  (List.range env.texturesResult.2.texturesCount).map fun i =>
    (env.texturesResult.2.texturesFiles[i]?.getD none, i)

/-- `ReadBMP` in one pass of the texture loop. -/
def readTexture (p : Str16 × ℕ) : EFI_STATUS × Bmp := readBMP env.fs p.1 (env.stack p.2)

/-- The texture loop, in which the programs differ in what they `keep` of a file, and in the images
for which the pass does come back. A wrong size is only reported. -/
def loadTextures (ComesBack : Bmp → Prop) [DecidablePred ComesBack] (keep : Bmp → Image) :
    List (Str16 × ℕ) → Startup (List Image)
  | [] => pure []
  | p :: passes => do
    lookIfRead .readBMP (env.readStatus p.1)
    checkError (env.readTexture p).1
    if ComesBack (env.readTexture p).2 then do
      let textures ← loadTextures ComesBack keep passes
      pure (keep (env.readTexture p).2 :: textures)
    else Checked.lose

/-- The call of `ParseSprite` with the check after it. -/
def loadSprite : Startup Image := do
  Checked.look ⟨.parseSprite, env.readStatus (some spriteName)⟩
  match parseSprite env.fs (some spriteName) env.spriteData with
  | none => Checked.lose
  | some (status, sprite) => do
    checkError status
    pure sprite.pixels

/-- `UefiMain` up to the call of `Game`, of which the value is the arguments. -/
def uefiMain : Startup GameArgs := do
  checkError env.curFSHandle
  Checked.look ⟨.parseConfigFile, env.readStatus (some configName)⟩
  checkError (env.configResult configName).status
  checkError (locateFSPartitions env.fsHandles).1
  lookIfRead .parseMazeConfigFile (env.readStatus (some mazeName))
  lookIfRead .parseTexturesConfigFile (env.readStatus (some texturesName))
  let textures ← env.loadTextures Bmp.Sized Bmp.half env.texturePasses
  let sprite ← env.loadSprite
  pure ⟨⟨env.mazeResult.2, textures, (env.configResult configName).result⟩, sprite⟩

/-- `UefiMain` of the three-dimensional program. -/
def uefiMain3D : Startup GameArgs3D := do
  checkError env.curFSHandle
  Checked.look ⟨.parseConfigFile, env.readStatus (some configName3D)⟩
  checkError (env.configResult configName3D).status
  checkError (locateFSPartitions env.fsHandles).1
  lookIfRead .parseMazeConfigFile (env.readStatus (some mazeName))
  lookIfRead .parseTexturesConfigFile (env.readStatus (some texturesName))
  let textures ← env.loadTextures Bmp.Stored Bmp.pixels env.texturePasses
  pure ⟨env.mazeResult.2, textures, (env.configResult configName3D).result⟩

/-- The passes of the texture loop before the first file that cannot be read. -/
def texturesRead : List (Str16 × ℕ) :=
  env.texturePasses.takeWhile fun p => !efiError (env.readTexture p).1

/-- The memory the sprite parser reaches. -/
def spriteMemory : List CHAR8 :=
  let b := (readFile env.fs (some spriteName) env.spriteData).2
  b.bytes ++ b.beyond

/-- Every file is read and parsed without an error. -/
structure AllSucceed : Prop where
  config : efiError (env.readStatus (some configName)) = false
  configParse : efiError (env.configResult configName).status = false
  maze : efiError env.mazeResult.1 = false
  textures : efiError env.texturesResult.1 = false
  images : ∀ p ∈ env.texturePasses, efiError (env.readTexture p).1 = false
  sprite : efiError (env.readStatus (some spriteName)) = false

/-- `Game` is called only if every file is read and parsed without an error, otherwise `UefiMain`
returns an error, and no parser looks at its data after a failed `ReadFile`. -/
def FailuresStop : Prop :=
  Checked.Safe (fun i : Inspection => efiError i.read = false)
    (fun status => efiError status = true)
    (fun _ => env.AllSucceed) env.uefiMain

section Rules

variable {env} {G : Inspection → Prop} {P : Unit → Prop} {status : EFI_STATUS}

theorem safe_checkError :
    Checked.Safe G (fun status => efiError status = true) P (checkError status) ↔
      (efiError status = false → P ()) := by
  unfold checkError
  cases h : efiError status with
  | true => simp [h]
  | false => simp

theorem safe_lookIfRead {E : EFI_STATUS → Prop} {parser : FileParser} :
    Checked.Safe (fun i => efiError i.read = false) E P (lookIfRead parser status) ↔ P () := by
  unfold lookIfRead
  cases h : efiError status with
  | true => simp
  | false => simp [h]

theorem safe_loadTextures {P : List Image → Prop} {ComesBack : Bmp → Prop}
    [DecidablePred ComesBack] {keep : Bmp → Image} (passes : List (Str16 × ℕ)) :
    Checked.Safe (fun i => efiError i.read = false) (fun status => efiError status = true) P
        (env.loadTextures ComesBack keep passes) ↔
      (∀ p ∈ passes.takeWhile fun p => !efiError (env.readTexture p).1,
        ComesBack (env.readTexture p).2) ∧
      ((∀ p ∈ passes, efiError (env.readTexture p).1 = false) →
        P (passes.map fun p => keep (env.readTexture p).2)) := by
  induction passes generalizing P with
  | nil => simp [loadTextures]
  | cons p passes ih =>
    simp only [loadTextures, Checked.safe_bind, safe_lookIfRead, safe_checkError,
      List.takeWhile_cons, List.forall_mem_cons, List.map_cons]
    cases hread : efiError (env.readTexture p).1 with
    | true => simp
    | false =>
      by_cases hback : ComesBack (env.readTexture p).2
      · simp [hback, ih]
      · simp [hback]

theorem readFile_fst {fs : FileSystem} {filename : Str16} {out out' : FileBuffer} :
    (readFile fs filename out).1 = (readFile fs filename out').1 := by
  unfold readFile
  cases filename with
  | none => rfl
  | some name =>
    dsimp only
    split_ifs <;> rfl

/-- `ParseSprite` returns the status of `ReadFile`, once it has found a newline. -/
theorem safe_loadSprite {Q : Prop} :
    Checked.Safe (fun i => efiError i.read = false) (fun status => efiError status = true)
        (fun _ => Q) env.loadSprite ↔
      efiError (env.readStatus (some spriteName)) = false ∧ newline ∈ env.spriteMemory ∧ Q := by
  have hstatus : (readFile env.fs (some spriteName) env.spriteData).1 =
      env.readStatus (some spriteName) := readFile_fst
  rw [loadSprite, Checked.safe_bind, Checked.safe_look]
  apply and_congr_right
  intro hread
  cases hfind : env.spriteMemory.findIdx? fun c => c = newline with
  | none =>
    have hnot := Lines.findIdx?_eq_none_iff.mp hfind
    simp only [spriteMemory] at hfind
    simp only [parseSprite, hfind, Option.map_none, Checked.safe_lose, hnot, false_and]
  | some width =>
    have hmem : newline ∈ env.spriteMemory := by
      by_contra hnot
      rw [Lines.findIdx?_eq_none_iff.mpr hnot] at hfind
      cases hfind
    simp only [spriteMemory] at hfind
    simp only [parseSprite, hfind, Option.map_some, Checked.safe_bind, safe_checkError,
      Checked.safe_pure, hstatus, hread, true_implies, hmem, true_and]

end Rules

variable {env}

/-- A failure stops the program exactly if, once the file system is known, the boot configuration
can be read, the textures read are of sizes that `CutInHalf` comes back from, and what remains to be
checked succeeds whenever it is reached: the reading of the sprite, and before `Game` the maze and
the texture list. -/
theorem failuresStop_iff : env.FailuresStop ↔
    (efiError env.curFSHandle = false →
      efiError (env.readStatus (some configName)) = false ∧
      (efiError (env.configResult configName).status = false →
        efiError (locateFSPartitions env.fsHandles).1 = false →
        (∀ p ∈ env.texturesRead, (env.readTexture p).2.Sized) ∧
        ((∀ p ∈ env.texturePasses, efiError (env.readTexture p).1 = false) →
          efiError (env.readStatus (some spriteName)) = false ∧ newline ∈ env.spriteMemory ∧
          efiError env.mazeResult.1 = false ∧ efiError env.texturesResult.1 = false))) := by
  simp only [FailuresStop, uefiMain, Checked.safe_bind, Checked.safe_pure, Checked.safe_look,
    safe_checkError, safe_lookIfRead, safe_loadTextures, safe_loadSprite]
  apply imp_congr_right
  intro _
  apply and_congr_right
  intro hconfig
  apply imp_congr_right
  intro hparse
  apply imp_congr_right
  intro _
  apply and_congr_right
  intro _
  apply imp_congr_right
  intro himages
  apply and_congr_right
  intro hsprite
  apply and_congr_right
  intro _
  constructor
  · rintro ⟨-, -, hmaze, htextures, -, -⟩
    exact ⟨hmaze, htextures⟩
  · rintro ⟨hmaze, htextures⟩
    exact ⟨hconfig, hparse, hmaze, htextures, himages, hsprite⟩

end StartupEnv

/-- All files but the maze, which is not there; no textures, and a sprite of one pixel. -/
def noMazeFs : FileSystem := fun name =>
  if name = mazeName then
    { FileIo.ofBytes [] [] (by decide) with openFile := EFI_NOT_FOUND }
  else if name = configName then FileIo.ofBytes (configText sampleEntries) [] (by decide)
  else if name = spriteName then FileIo.ofBytes [107, newline] [] (by decide)
  else FileIo.ofBytes [] [] (by decide)

/-- The three locals for the maze hold whatever was on the stack. -/
def noMazeEnv : StartupEnv Unit where
  convert := asciiStrToUnicodeStrS
  fs := noMazeFs
  curFSHandle := EFI_SUCCESS
  fsHandles := ⟨EFI_SUCCESS, [], fun _ => none, true⟩
  configData := ⟨[], []⟩
  maze := ⟨[], 5, 7⟩
  textures := ⟨[], 0⟩
  stack := fun _ => ⟨0, 0, []⟩
  spriteData := ⟨[], []⟩

/-- `Game` is called with the dimensions found on the stack. -/
theorem uefiMain_noMazeEnv : noMazeEnv.uefiMain.outcome =
    .value ⟨⟨⟨[], 5, 7⟩, [], (noMazeEnv.configResult configName).result⟩, [⟨0, 0, 0, 0xff⟩]⟩ := by
  decide +kernel

theorem not_failuresStop_noMazeEnv : ¬ ∀ env : StartupEnv Unit, env.FailuresStop := by
  intro h
  have hstop := (h noMazeEnv).2
  rw [uefiMain_noMazeEnv] at hstop
  have herror : efiError noMazeEnv.mazeResult.1 = true := by decide +kernel
  rw [hstop.maze] at herror
  cases herror

end UefiGame
