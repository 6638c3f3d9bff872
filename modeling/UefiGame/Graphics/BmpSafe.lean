import UefiGame.Graphics.BmpRoundTrip

/-! # Bitmaps that are safe to read

`ReadBMP` looks at the header of the file, whatever its size, and trusts the
dimensions and the pixel offset it finds there. So it stays inside the file and
inside the block it allocates just when the header describes an image that the
file holds.
-/

namespace UefiGame

/-- What `ReadBMP` touches: a field of the header, the four bytes at an offset of the file, or a
pixel of the block it allocates. -/
inductive BmpAccess where
  | header (k : BmpField)
  | filePixel (offset : ℕ)
  | storagePixel (index : ℕ)
  deriving DecidableEq, Repr

/-- The comparisons of the test, in order. -/
def bmpChecks : List (BmpField × ℕ) :=
  [(.signature, 0x4d42), (.headerSize, 0x7c), (.bitsPerPixel, 0x20), (.compressionMethod, 3),
    (.alphaMask, 0xff000000), (.redMask, 0x00ff0000), (.greenMask, 0x0000ff00),
    (.blueMask, 0x000000ff)]

/-- The fields read: the test stops at the first one that is wrong. -/
def headerReads (field : BmpField → ℕ) : List (BmpField × ℕ) → List BmpField
  | [] => [.width, .height, .pixelsOffset]
  | c :: cs => c.1 :: if field c.1 ≠ c.2 then [] else headerReads field cs

/-- The accesses of the pixel loops. -/
def pixelAccesses (pixelsOffset : ℕ) (width height : INT32) : List BmpAccess :=
  (bmpPasses width.toInt.toNat height.toInt.toNat).zipIdx.flatMap fun p =>
    [.filePixel (pixelsOffset + 4 * p.2), .storagePixel (p.1.1 * width.toInt.toNat + p.1.2)]

/-- The header fields `ReadBMP` sees at the start of the block. -/
def FileBuffer.bmpField (b : FileBuffer) : BmpField → ℕ :=
  PackedRecord.read bmpHeaderLayout b.memory 0

def FileBuffer.bmpWidth (b : FileBuffer) : INT32 := BitVec.ofNat 32 (b.bmpField .width)

def FileBuffer.bmpHeight (b : FileBuffer) : INT32 := BitVec.ofNat 32 (b.bmpField .height)

/-- All accesses of `ReadBMP` to the file in the block `b`. -/
def bmpAccesses (b : FileBuffer) : List BmpAccess :=
  (headerReads b.bmpField bmpChecks).map .header ++
    if UnsupportedBmp b.bmpField then []
    else pixelAccesses (b.bmpField .pixelsOffset) b.bmpWidth b.bmpHeight

/-- The access lies in a file of `size` bytes, or in a block of `pixels` pixels. -/
def BmpAccess.Inside (size pixels : ℕ) : BmpAccess → Prop
  | header k => PackedRecord.offset bmpHeaderLayout k + PackedRecord.width bmpHeaderLayout k ≤ size
  | filePixel offset => offset + 4 ≤ size
  | storagePixel index => index < pixels

/-- The accesses of a call, inside the file and the block. -/
def AccessesInside (b : FileBuffer) : Prop :=
  ∀ a ∈ bmpAccesses b, a.Inside b.bytes.length (allocatedPixels b.bmpWidth b.bmpHeight)

/-- The product of the dimensions is that of the numbers. -/
def NoOverflow (width height : INT32) : Prop := (width * height).toInt = width.toInt * height.toInt

/-- `ReadBMP` returns an error, or success with an image in its out-parameters that it read inside
the file and stored inside the block. -/
def ReadBmpSafe (fs : FileSystem) (name : List CHAR16) (out : Bmp) : Prop :=
  let r := readBMP fs (some name) out
  efiError r.1 = true ∨
    (r.1 = EFI_SUCCESS ∧ 0 < r.2.width.toInt ∧ 0 < r.2.height.toInt ∧
      NoOverflow r.2.width r.2.height ∧
      AccessesInside (readFile fs (some name) ⟨[], []⟩).2)

/-- The header describes an image that lies in the file. -/
structure FileBuffer.HoldsBmp (b : FileBuffer) : Prop where
  header : 70 ≤ b.bytes.length
  width : 0 < b.bmpWidth.toInt
  height : 0 < b.bmpHeight.toInt
  product : b.bmpWidth.toInt * b.bmpHeight.toInt < 2 ^ 31
  pixels : b.bmpField .pixelsOffset + 4 * (b.bmpWidth.toInt * b.bmpHeight.toInt).toNat ≤
    b.bytes.length

section Safe

variable {fs : FileSystem} {name : List CHAR16} {out : Bmp} {b : FileBuffer} {width height : INT32}
  {field : BmpField → ℕ} {cs : List (BmpField × ℕ)} {k : BmpField} {offset : ℕ}

theorem unsupportedBmp_iff : UnsupportedBmp field ↔ ∃ c ∈ bmpChecks, field c.1 ≠ c.2 := by
  simp only [UnsupportedBmp, bmpChecks, List.exists_mem_cons_iff, List.not_mem_nil, false_and,
    exists_false, or_false]

theorem headerReads_eq (h : ∀ c ∈ cs, field c.1 = c.2) :
    headerReads field cs = cs.map Prod.fst ++ [.width, .height, .pixelsOffset] := by
  induction cs with
  | nil => rfl
  | cons c cs ih =>
    rw [List.forall_mem_cons] at h
    rw [headerReads, if_neg (not_not.mpr h.1), ih h.2, List.map_cons, List.cons_append]

/-- If every comparison holds, the fields read end at byte 70, with the mask for alpha. -/
theorem headers_inside_iff (h : ∀ c ∈ bmpChecks, field c.1 = c.2) (size pixels : ℕ) :
    (∀ k ∈ headerReads field bmpChecks, (BmpAccess.header k).Inside size pixels) ↔ 70 ≤ size := by
  rw [headerReads_eq h]
  constructor
  · intro hinside
    exact hinside .alphaMask (by decide)
  · intro hsize k hk
    have hend : ∀ k ∈ bmpChecks.map Prod.fst ++ [BmpField.width, .height, .pixelsOffset],
        PackedRecord.offset bmpHeaderLayout k + PackedRecord.width bmpHeaderLayout k ≤ 70 := by
      decide
    exact (hend k hk).trans hsize

theorem mem_pixelAccesses {a : BmpAccess} : a ∈ pixelAccesses offset width height ↔
    ∃ p i, (bmpPasses width.toInt.toNat height.toInt.toNat)[i]? = some p ∧
      (a = .filePixel (offset + 4 * i) ∨ a = .storagePixel (p.1 * width.toInt.toNat + p.2)) := by
  rw [pixelAccesses, List.mem_flatMap]
  constructor
  · rintro ⟨⟨p, i⟩, hp, ha⟩
    refine ⟨p, i, List.mem_zipIdx_iff_getElem?.mp hp, ?_⟩
    simpa using ha
  · rintro ⟨p, i, hp, ha⟩
    exact ⟨(p, i), List.mem_zipIdx_iff_getElem?.mpr hp, by simpa using ha⟩

theorem length_bmpPasses (w h : ℕ) : (bmpPasses w h).length = w * h := by
  rw [bmpPasses, List.length_product, List.length_reverse, List.length_range, List.length_range,
    Nat.mul_comm]

theorem noOverflow_iff (hw : 0 < width.toInt) (hh : 0 < height.toInt) :
    NoOverflow width height ↔ width.toInt * height.toInt < 2 ^ 31 := by
  have hpos := Int.mul_pos hw hh
  constructor
  · intro h
    rw [← h]
    exact BitVec.toInt_lt
  · intro h
    rw [NoOverflow, BitVec.toInt_mul]
    apply Int.bmod_eq_of_le <;> omega

theorem allocatedPixels_eq (h : NoOverflow width height) (hw : 0 < width.toInt)
    (hh : 0 < height.toInt) :
    allocatedPixels width height = width.toInt.toNat * height.toInt.toNat := by
  have hlt := (noOverflow_iff hw hh).mp h
  have hpos := Int.mul_pos hw hh
  have hprod : (width.toInt * height.toInt).toNat = width.toInt.toNat * height.toInt.toNat :=
    Int.toNat_mul hw.le hh.le
  have hext : (uintnOfInt32 (width * height)).toNat = (width.toInt * height.toInt).toNat := by
    rw [toNat_uintnOfInt32 (by rw [h]; exact hpos.le), h]
  rw [allocatedPixels_of_toNat hext (by omega), hprod]

theorem pixels_inside_iff (size : ℕ) (hpos : 0 < width.toInt.toNat * height.toInt.toNat) :
    (∀ a ∈ pixelAccesses offset width height,
        a.Inside size (width.toInt.toNat * height.toInt.toNat)) ↔
      offset + 4 * (width.toInt.toNat * height.toInt.toNat) ≤ size := by
  have hlen := length_bmpPasses width.toInt.toNat height.toInt.toNat
  constructor
  · intro hinside
    obtain ⟨i, hi⟩ := Nat.exists_eq_succ_of_ne_zero (Nat.ne_of_gt hpos)
    rw [hi] at hlen ⊢
    have hlast := hinside (.filePixel (offset + 4 * i))
      (mem_pixelAccesses.mpr ⟨_, i, List.getElem?_eq_getElem (by omega), Or.inl rfl⟩)
    unfold BmpAccess.Inside at hlast
    omega
  · intro hsize a ha
    obtain ⟨⟨y, x⟩, i, hp, ha⟩ := mem_pixelAccesses.mp ha
    obtain ⟨hy, hx⟩ := mem_bmpPasses.mp (List.mem_of_getElem? hp)
    have hi := (List.getElem?_eq_some_iff.mp hp).1
    rcases ha with rfl | rfl
    · unfold BmpAccess.Inside
      omega
    · exact Grid.rowMajor_lt hx hy

/-- A supported header of positive dimensions that do not overflow is trusted rightly just when the
file is long enough. -/
theorem accessesInside_iff (hsupported : ¬ UnsupportedBmp b.bmpField) (hw : 0 < b.bmpWidth.toInt)
    (hh : 0 < b.bmpHeight.toInt) (hmul : NoOverflow b.bmpWidth b.bmpHeight) :
    AccessesInside b ↔ 70 ≤ b.bytes.length ∧
      b.bmpField .pixelsOffset + 4 * (b.bmpWidth.toInt.toNat * b.bmpHeight.toInt.toNat) ≤
        b.bytes.length := by
  have hall : ∀ c ∈ bmpChecks, b.bmpField c.1 = c.2 := by
    intro c hc
    by_contra hne
    exact hsupported (unsupportedBmp_iff.mpr ⟨c, hc, hne⟩)
  have hpos : 0 < b.bmpWidth.toInt.toNat * b.bmpHeight.toInt.toNat :=
    Nat.mul_pos (by omega) (by omega)
  rw [AccessesInside, bmpAccesses, if_neg hsupported, allocatedPixels_eq hmul hw hh,
    List.forall_mem_append, List.forall_mem_map, headers_inside_iff hall,
    pixels_inside_iff b.bytes.length hpos]

theorem holdsBmp_iff (hsupported : ¬ UnsupportedBmp b.bmpField) :
    b.HoldsBmp ↔ 0 < b.bmpWidth.toInt ∧ 0 < b.bmpHeight.toInt ∧
      NoOverflow b.bmpWidth b.bmpHeight ∧ AccessesInside b := by
  have hprod : ∀ {v w : ℤ}, 0 < v → 0 < w → (v * w).toNat = v.toNat * w.toNat :=
    fun hv hw => Int.toNat_mul hv.le hw.le
  constructor
  · rintro ⟨hheader, hw, hh, hmul, hpixels⟩
    have hover := (noOverflow_iff hw hh).mpr hmul
    rw [hprod hw hh] at hpixels
    exact ⟨hw, hh, hover, (accessesInside_iff hsupported hw hh hover).mpr ⟨hheader, hpixels⟩⟩
  · rintro ⟨hw, hh, hover, hinside⟩
    obtain ⟨hheader, hpixels⟩ := (accessesInside_iff hsupported hw hh hover).mp hinside
    exact ⟨hheader, hw, hh, (noOverflow_iff hw hh).mp hover, by rwa [hprod hw hh]⟩

theorem readBMP_eq (fs : FileSystem) (name : List CHAR16) (out : Bmp) :
    readBMP fs (some name) out =
      if efiError (readFile fs (some name) ⟨[], []⟩).1 then
        ((readFile fs (some name) ⟨[], []⟩).1, out)
      else if UnsupportedBmp (readFile fs (some name) ⟨[], []⟩).2.bmpField then
        (EFI_UNSUPPORTED, out)
      else
        (EFI_SUCCESS, ⟨(readFile fs (some name) ⟨[], []⟩).2.bmpWidth,
          (readFile fs (some name) ⟨[], []⟩).2.bmpHeight,
          readPixels (readFile fs (some name) ⟨[], []⟩).2.memory
            ((readFile fs (some name) ⟨[], []⟩).2.bmpField .pixelsOffset)
            (readFile fs (some name) ⟨[], []⟩).2.bmpWidth
            (readFile fs (some name) ⟨[], []⟩).2.bmpHeight⟩) := rfl

theorem readBmpSafe_iff_holdsBmp (fs : FileSystem) (name : List CHAR16) (out : Bmp) :
    ReadBmpSafe fs name out ↔
      (efiError (readFile fs (some name) ⟨[], []⟩).1 = false →
        ¬ UnsupportedBmp (readFile fs (some name) ⟨[], []⟩).2.bmpField →
          (readFile fs (some name) ⟨[], []⟩).2.HoldsBmp) := by
  rw [ReadBmpSafe, readBMP_eq]
  generalize readFile fs (some name) ⟨[], []⟩ = r
  rcases hread : efiError r.1 with _ | _
  · by_cases hsupported : UnsupportedBmp r.2.bmpField
    · simp [hsupported]
    · rw [holdsBmp_iff hsupported]
      simp [hsupported]
  · simp [hread]

theorem inside_header_iff {size n : ℕ} (m : ℕ) :
    (BmpAccess.header k).Inside size n ↔ (BmpAccess.header k).Inside size m := Iff.rfl

theorem accessesInside_unsupported (h : UnsupportedBmp b.bmpField) :
    AccessesInside b ↔ ∀ k ∈ headerReads b.bmpField bmpChecks,
      (BmpAccess.header k).Inside b.bytes.length 0 := by
  rw [AccessesInside, bmpAccesses, if_pos h, List.append_nil, List.forall_mem_map]
  simp only [inside_header_iff 0]

end Safe

/-- `ReadBMP` is safe just when a file that it reads and whose header it accepts holds the image the
header describes; to stay inside the file also when it rejects the header, the file must hold the
fields it looks at. -/
theorem readBmpSafe_iff (fs : FileSystem) (name : List CHAR16) (out : Bmp) :
    let r := readFile fs (some name) ⟨[], []⟩
    (ReadBmpSafe fs name out ↔
      (efiError r.1 = false → ¬ UnsupportedBmp r.2.bmpField → r.2.HoldsBmp)) ∧
    (ReadBmpSafe fs name out ∧ (efiError r.1 = false → AccessesInside r.2) ↔
      (efiError r.1 = false →
        (∀ k ∈ headerReads r.2.bmpField bmpChecks, (BmpAccess.header k).Inside r.2.bytes.length 0) ∧
          (¬ UnsupportedBmp r.2.bmpField → r.2.HoldsBmp))) := by
  intro r
  have hsafe := readBmpSafe_iff_holdsBmp fs name out
  refine ⟨hsafe, ?_⟩
  constructor
  · rintro ⟨hread, hinside⟩ hok
    refine ⟨?_, hsafe.mp hread hok⟩
    intro k hk
    have hheader := hinside hok (.header k) (List.mem_append_left _ (List.mem_map_of_mem hk))
    exact (inside_header_iff 0).mp hheader
  · intro h
    refine ⟨hsafe.mpr fun hok => (h hok).2, ?_⟩
    intro hok
    by_cases hsupported : UnsupportedBmp r.2.bmpField
    · exact (accessesInside_unsupported hsupported).mpr (h hok).1
    · exact ((holdsBmp_iff hsupported).mp ((h hok).2 hsupported)).2.2.2

/-- A supported header that promises four pixels, and nothing behind it. -/
def headerOnly : FileSystem := fun _ =>
  FileIo.ofBytes (encodeBmp (bmpFields 2 2 0) [] samplePixels 0 0) [] (by decide +kernel)

/-- It is read with success, and the pixels from behind the end of the file. -/
theorem not_readBmpSafe_headerOnly : ¬ ReadBmpSafe headerOnly [] ⟨0, 0, []⟩ := by
  intro h
  rw [readBmpSafe_iff_holdsBmp] at h
  have hpixels := (h (by decide +kernel) (by decide +kernel)).pixels
  revert hpixels
  decide +kernel

end UefiGame
