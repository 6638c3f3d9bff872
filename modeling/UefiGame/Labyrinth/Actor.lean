import UefiGame.Labyrinth.Layout
import UefiGame.Labyrinth.Parse

/-! # Drawing the player

`ParseActor` goes through the sprite column by column and writes with the cell's
side as its stride, whatever the size of the sprite. A letter of the palette
outside the cell lands in another pixel or behind the buffer; the drawing ends
at the first character that is neither a letter nor a dot.
-/

namespace UefiGame

/-- An arm of the switch: a colour, the empty arm of the dot, and the `return` of the default. -/
inductive ActorArm where
  | paint (red green blue : UINT8)
  | keep
  | leave
  deriving DecidableEq, Repr

/-- The switch on one byte. -/
def actorSwitch (c : CHAR8) : ActorArm :=
  match Char.ofNat c.toNat with
  | 'k' => .paint 0 0 0
  | 'b' => .paint 47 54 153
  | 'l' => .paint 77 109 243
  | 'y' => .paint 255 242 0
  | 'g' => .paint 255 194 14
  | 'r' => .paint 180 180 180
  | 'w' => .paint 255 255 255
  | 'p' => .paint 255 205 148
  | 's' => .paint 255 224 189
  | 'n' => .paint 156 90 60
  | 'd' => .paint 107 37 7
  | '.' => .keep
  | _ => .leave

/-- A pixel written: column and row of the character, the index written to, and the colour. -/
structure ActorWrite where
  column : ℕ
  row : ℕ
  index : ℕ
  red : UINT8
  green : UINT8
  blue : UINT8
  deriving DecidableEq, Repr

/-- The index `j * box_side + i`. -/
def actorIndex (boxSide : INTN) (i j : ℕ) : ℕ :=
  (BitVec.ofNat 64 j * boxSide + BitVec.ofNat 64 i).toNat

/-- The loops from pass `(i, j)` on, to their end or to the `return`. -/
def actorWrites (spriteData : ℕ → CHAR8) (width : ℕ) (boxSide : INTN) :
    List (ℕ × ℕ) → List ActorWrite
  | [] => []
  | p :: ps =>
    match actorSwitch (spriteData (p.2 * (width + 1) + p.1)) with
    | .paint red green blue =>
      ⟨p.1, p.2, actorIndex boxSide p.1 p.2, red, green, blue⟩ ::
        actorWrites spriteData width boxSide ps
    | .keep => actorWrites spriteData width boxSide ps
    | .leave => []

/-- `ParseActor`: the pixels it writes; `none` if it finds no newline. -/
def parseActor (io : FileIo) (boxSide : INTN) : Option (List ActorWrite) :=
  (widthScan (mazeReadFile io)).map fun width =>
    let height := (mazeReadFile io).bytes.length / (width + 1)
    actorWrites (mazeReadFile io).memory width boxSide (Grid.columns width height)

/-- Every character is written to its own pixel of the cell, and to none outside. -/
def ActorStays (io : FileIo) (boxSide : INTN) : Prop :=
  ∀ writes, parseActor io boxSide = some writes → ∀ w ∈ writes,
    w.index < boxSide.toNat * boxSide.toNat ∧
      w.index % boxSide.toNat = w.column ∧ w.index / boxSide.toNat = w.row

/-- The characters `ParseActor` looks at before it returns, by column and row. -/
def actorReached (spriteData : ℕ → CHAR8) (width height : ℕ) : List (ℕ × ℕ) :=
  (Grid.columns width height).takeWhile fun p =>
    actorSwitch (spriteData (p.2 * (width + 1) + p.1)) ≠ .leave

/-- Every letter of the palette that is reached lies in the first `side` columns and rows. -/
def ActorFits (io : FileIo) (side : ℕ) : Prop :=
  ∀ width, widthScan (mazeReadFile io) = some width →
    ∀ p ∈ actorReached (mazeReadFile io).memory width
        ((mazeReadFile io).bytes.length / (width + 1)),
      actorSwitch ((mazeReadFile io).memory (p.2 * (width + 1) + p.1)) ≠ .keep →
        p.1 < side ∧ p.2 < side

section Writes

variable {spriteData : ℕ → CHAR8} {width i j : ℕ} {boxSide : INTN} {ps : List (ℕ × ℕ)}
  {w : ActorWrite}

/-- The writes are those of the letters passed before the `return`. -/
theorem mem_actorWrites : w ∈ actorWrites spriteData width boxSide ps ↔
    ∃ p ∈ ps.takeWhile fun p => actorSwitch (spriteData (p.2 * (width + 1) + p.1)) ≠ .leave,
      ∃ red green blue, actorSwitch (spriteData (p.2 * (width + 1) + p.1)) = .paint red green blue ∧
        w = ⟨p.1, p.2, actorIndex boxSide p.1 p.2, red, green, blue⟩ := by
  induction ps with
  | nil => simp [actorWrites]
  | cons p ps ih =>
    unfold actorWrites
    cases harm : actorSwitch (spriteData (p.2 * (width + 1) + p.1)) with
    | leave =>
      rw [List.takeWhile_cons_of_neg (by simp [harm])]
      simp
    | keep =>
      rw [List.takeWhile_cons_of_pos (by simp [harm])]
      simp only [ih, List.mem_cons, exists_eq_or_imp, harm, reduceCtorEq, false_and, exists_false,
        false_or]
    | paint red green blue =>
      rw [List.takeWhile_cons_of_pos (by simp [harm])]
      simp only [List.mem_cons, ih, exists_eq_or_imp, harm, ActorArm.paint.injEq]
      constructor
      · rintro (rfl | h)
        · exact Or.inl ⟨red, green, blue, ⟨rfl, rfl, rfl⟩, rfl⟩
        · exact Or.inr h
      · rintro (⟨_, _, _, ⟨rfl, rfl, rfl⟩, rfl⟩ | h)
        · exact Or.inl rfl
        · exact Or.inr h

theorem actorIndex_iff (hside : boxSide.toNat < 2 ^ 16) :
    (actorIndex boxSide i j < boxSide.toNat * boxSide.toNat ∧
        actorIndex boxSide i j % boxSide.toNat = i ∧ actorIndex boxSide i j / boxSide.toNat = j) ↔
      i < boxSide.toNat ∧ j < boxSide.toNat := by
  constructor
  · rintro ⟨hlt, hcol, hrow⟩
    have hpos : 0 < boxSide.toNat := Nat.pos_of_mul_pos_right (Nat.zero_lt_of_lt hlt)
    have hi := Nat.mod_lt (actorIndex boxSide i j) hpos
    have hj := Nat.div_lt_of_lt_mul hlt
    exact ⟨hcol ▸ hi, hrow ▸ hj⟩
  · rintro ⟨hi, hj⟩
    have hlt := Grid.rowMajor_lt hi hj
    have hsquare : boxSide.toNat * boxSide.toNat ≤ 2 ^ 16 * 2 ^ 16 :=
      Nat.mul_le_mul hside.le hside.le
    have hindex : actorIndex boxSide i j = Grid.rowMajor boxSide.toNat i j := by
      unfold Grid.rowMajor at hlt
      unfold actorIndex Grid.rowMajor
      rw [BitVec.toNat_add, BitVec.toNat_mul, BitVec.toNat_ofNat, BitVec.toNat_ofNat,
        Nat.mod_eq_of_lt (a := j) (by omega), Nat.mod_eq_of_lt (a := i) (by omega),
        Nat.mod_eq_of_lt (a := _ * _) (by omega), Nat.mod_eq_of_lt (by omega)]
    rw [hindex]
    exact ⟨hlt, Grid.rowMajor_mod hi, Grid.rowMajor_div hi⟩

end Writes

theorem actorStays_iff_of_side {io : FileIo} {boxSide : INTN} (hside : boxSide.toNat < 2 ^ 16) :
    ActorStays io boxSide ↔ ActorFits io boxSide.toNat := by
  unfold ActorStays ActorFits parseActor
  constructor
  · intro h width hscan p hp hkeep
    have hreach := List.mem_takeWhile_imp hp
    rw [decide_eq_true_eq] at hreach
    rcases harm : actorSwitch ((mazeReadFile io).memory (p.2 * (width + 1) + p.1)) with
      ⟨red, green, blue⟩ | _ | _
    · have hwrite :=
        h _ (by rw [hscan]; rfl) _ (mem_actorWrites.mpr ⟨p, hp, red, green, blue, harm, rfl⟩)
      exact (actorIndex_iff hside).mp hwrite
    · exact absurd harm hkeep
    · exact absurd harm hreach
  · intro h writes hwrites w hw
    obtain ⟨width, hscan, rfl⟩ := Option.map_eq_some_iff.mp hwrites
    obtain ⟨p, hp, red, green, blue, harm, rfl⟩ := mem_actorWrites.mp hw
    exact (actorIndex_iff hside).mpr (h width hscan p hp (by rw [harm]; exact ActorArm.noConfusion))

/-- On every screen and for every labyrinth. -/
theorem actorStays_iff {mazeWidth mazeHeight : INTN} (hw : 1 ≤ mazeWidth.toInt)
    (hh : 1 ≤ mazeHeight.toInt) (width height : UINT16) (io : FileIo) :
    ActorStays io (mazeLayout mazeWidth mazeHeight width height).cellSide ↔
      ActorFits io (mazeLayout mazeWidth mazeHeight width height).cellSide.toNat := by
  apply actorStays_iff_of_side
  have hquot := Nat.div_le_self width.toNat mazeWidth.toNat
  have hwidth := width.isLt
  rw [toNat_mazeLayout_cellSide hw hh]
  omega

/-- One line of twenty dots and a letter, and a byte that the reader replaces. -/
def wideSprite : FileIo :=
  FileIo.ofBytes (List.replicate 20 0x2e ++ [0x6b, newline, 0x2e]) [] (by decide)

theorem actorStays_iff_wideSprite :
    ActorStays wideSprite (mazeLayout 29 24 640 480).cellSide ↔
      ActorFits wideSprite (mazeLayout 29 24 640 480).cellSide.toNat :=
  actorStays_iff (by decide) (by decide) 640 480 wideSprite

/-- With 29 by 24 cells on a screen of 640 by 480 pixels a cell has twenty columns, and the letter
in column 20 is written to the first pixel of the second row. -/
theorem not_actorStays_wideSprite :
    ¬ ActorStays wideSprite (mazeLayout 29 24 640 480).cellSide := by
  have hside : (mazeLayout 29 24 640 480).cellSide = 20 := by decide
  have hwrites : parseActor wideSprite 20 = some [⟨20, 0, 20, 0, 0, 0⟩] := by decide +kernel
  rw [hside]
  intro h
  obtain ⟨-, hcolumn, -⟩ := h _ hwrites _ List.mem_cons_self
  exact absurd hcolumn (by decide)

end UefiGame
