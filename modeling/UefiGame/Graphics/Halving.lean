import UefiGame.Graphics.Image

/-! # Halving images of any size

`CutInHalf` is also given icons whose sides are odd. An odd width sends the last
sample of a row to the first pixel of the next row of the half, where the
sample that belongs there comes later and replaces it. After the last row no
such sample follows, and the store lies past the end of the half.
-/

namespace UefiGame

variable {image : Image} {width height x y : ℕ}

/-- The offset at which pass `p` of `CutInHalf` stores. -/
def cutIndex (width : ℕ) (p : ℕ × ℕ) : ℕ := p.1 / 2 * (width / 2) + p.2 / 2

/-- The offsets at which `CutInHalf` stores, in order. -/
def cutStores (width height : ℕ) : List ℕ := (cutPasses width height).map (cutIndex width)

/-- `CutInHalf` stores inside the half it allocates and keeps every second pixel. -/
structure Halves (image : Image) (width height : ℕ) : Prop where
  inside : ∀ k ∈ cutStores width height, k < width / 2 * (height / 2)
  sampled : ∀ y < height / 2, ∀ x < width / 2,
    (cutInHalf image width height)[y * (width / 2) + x]? = image[2 * y * width + 2 * x]?

theorem cutInHalf_eq : cutInHalf image width height =
    WriteLoop.writeAll (cutIndex width) (fun p => image.at (p.1 * width + p.2))
      (cutPasses width height) (zeroPixels (width / 2 * (height / 2))) := rfl

theorem mem_cutStores {k : ℕ} : k ∈ cutStores width height ↔
    ∃ y x, 2 * y < height ∧ 2 * x < width ∧ k = y * (width / 2) + x := by
  unfold cutStores
  rw [List.mem_map]
  constructor
  · rintro ⟨⟨i, j⟩, hp, rfl⟩
    obtain ⟨⟨hi, hj⟩, hi2, hj2⟩ := mem_cutPasses.mp hp
    exact ⟨i / 2, j / 2, by omega, by omega, rfl⟩
  · rintro ⟨y, x, hy, hx, rfl⟩
    refine ⟨(2 * y, 2 * x), mem_cutPasses.mpr ⟨⟨hy, hx⟩, by omega, by omega⟩, ?_⟩
    unfold cutIndex
    rw [Nat.mul_div_cancel_left y two_pos, Nat.mul_div_cancel_left x two_pos]

theorem pairwise_cutPasses (width height : ℕ) :
    (cutPasses width height).Pairwise fun p q => p.1 < q.1 ∨ p.1 = q.1 ∧ p.2 < q.2 :=
  (Grid.pairwise_columns height width).filter _

/-- No pass after the one that samples pixel `(x, y)` of the half stores at its offset. -/
theorem cutIndex_ne_of_later {p : ℕ × ℕ} (hx : x < width / 2) (hp : p ∈ cutPasses width height)
    (hlater : 2 * y < p.1 ∨ 2 * y = p.1 ∧ 2 * x < p.2) :
    cutIndex width p ≠ cutIndex width (2 * y, 2 * x) := by
  obtain ⟨i, j⟩ := p
  obtain ⟨⟨hi, hj⟩, hi2, hj2⟩ := mem_cutPasses.mp hp
  unfold cutIndex
  simp only at hlater hi hj hi2 hj2 ⊢
  rw [Nat.mul_div_cancel_left y two_pos, Nat.mul_div_cancel_left x two_pos]
  rcases hlater with hrow | ⟨hrow, hcol⟩
  · -- a later row starts past the whole of row `y` of the half
    have hstep : (y + 1) * (width / 2) ≤ i / 2 * (width / 2) :=
      Nat.mul_le_mul_right _ (by omega)
    rw [Nat.add_mul, Nat.one_mul] at hstep
    omega
  · have heq : i / 2 = y := by omega
    rw [heq]
    omega

theorem getElem?_cutInHalf_any (himage : image.length = width * height) (hx : x < width / 2)
    (hy : y < height / 2) :
    (cutInHalf image width height)[y * (width / 2) + x]? = image[2 * y * width + 2 * x]? := by
  have hmem : (2 * y, 2 * x) ∈ cutPasses width height := by
    rw [mem_cutPasses]
    omega
  have hindex : cutIndex width (2 * y, 2 * x) = y * (width / 2) + x := by
    unfold cutIndex
    rw [Nat.mul_div_cancel_left y two_pos, Nat.mul_div_cancel_left x two_pos]
  have hlt : cutIndex width (2 * y, 2 * x) < (zeroPixels (width / 2 * (height / 2))).length := by
    rw [hindex, zeroPixels, List.length_replicate]
    exact Grid.rowMajor_lt hx hy
  have hread : 2 * y * width + 2 * x < image.length := by
    rw [himage]
    exact Grid.rowMajor_lt (by omega) (by omega)
  have hlast : ∀ p ∈ cutPasses width height, (2 * y < p.1 ∨ 2 * y = p.1 ∧ 2 * x < p.2) →
      cutIndex width p ≠ cutIndex width (2 * y, 2 * x) :=
    fun p hp hlater => cutIndex_ne_of_later hx hp hlater
  have hwrite := WriteLoop.getElem?_writeAll_of_last (fun p => image.at (p.1 * width + p.2))
    (zeroPixels (width / 2 * (height / 2))) (pairwise_cutPasses width height) hmem hlast hlt
  rw [← cutInHalf_eq, hindex] at hwrite
  rw [hwrite, Image.at, List.getElem?_eq_getElem hread, Option.getD_some]

/-- The stores stay inside the half exactly when no sample is left over on the right or below. -/
theorem cutStores_inside_iff : (∀ k ∈ cutStores width height, k < width / 2 * (height / 2)) ↔
    (Even width ∧ Even height) ∨ width = 0 ∨ height = 0 := by
  constructor
  · intro h
    by_contra hcon
    obtain ⟨hodd, hw, hh⟩ : ¬ (Even width ∧ Even height) ∧ width ≠ 0 ∧ height ≠ 0 := by tauto
    -- the last sample of the last sampled row
    have hlast :=
      h _ (mem_cutStores.mpr ⟨(height - 1) / 2, (width - 1) / 2, by omega, by omega, rfl⟩)
    rcases Nat.even_or_odd height with hheight | ⟨b, rfl⟩
    · obtain ⟨b, rfl⟩ := hheight
      obtain ⟨a, rfl⟩ : Odd width := Nat.not_even_iff_odd.mp fun hwidth => hodd ⟨hwidth, b, rfl⟩
      have ha : (2 * a + 1) / 2 = a := by omega
      have ha' : (2 * a + 1 - 1) / 2 = a := by omega
      have hb : (b + b) / 2 = b := by omega
      have hb' : (b + b - 1) / 2 = b - 1 := by omega
      have hrow : (b - 1) * a + a = a * b := by
        rw [← Nat.succ_mul, Nat.succ_eq_add_one, Nat.sub_add_cancel (by omega), Nat.mul_comm]
      rw [ha, ha', hb, hb', hrow] at hlast
      exact Nat.lt_irrefl _ hlast
    · have hb : (2 * b + 1) / 2 = b := by omega
      have hb' : (2 * b + 1 - 1) / 2 = b := by omega
      rw [hb, hb', Nat.mul_comm] at hlast
      omega
  · intro h k hk
    obtain ⟨y, x, hy, hx, rfl⟩ := mem_cutStores.mp hk
    rcases h with ⟨⟨a, rfl⟩, b, rfl⟩ | rfl | rfl
    · exact Grid.rowMajor_lt (by omega) (by omega)
    · omega
    · omega

/-- `CutInHalf` does its work exactly on images of two even sides and on empty ones. -/
theorem halves_iff (himage : image.length = width * height) :
    Halves image width height ↔ (Even width ∧ Even height) ∨ width = 0 ∨ height = 0 := by
  constructor
  · intro h
    exact cutStores_inside_iff.mp h.inside
  · intro h
    exact ⟨cutStores_inside_iff.mpr h, fun y hy x hx => getElem?_cutInHalf_any himage hx hy⟩

/-- Two rows of four pixels that tell their position. -/
def quad : Image := (List.range 8).map fun i => ⟨BitVec.ofNat 8 i, 0, 0, 255⟩

theorem halves_quad : quad.length = 4 * 2 ∧ Halves quad 4 2 ∧
    cutInHalf quad 4 2 = [⟨0, 0, 0, 255⟩, ⟨2, 0, 0, 255⟩] :=
  ⟨rfl, (halves_iff rfl).mpr (Or.inl ⟨by decide, by decide⟩), by decide +kernel⟩

/-- The third pixel of the first row of an icon three pixels wide goes past a half of one pixel. -/
theorem not_halves_three_wide :
    (zeroPixels (3 * 3)).length = 3 * 3 ∧ ¬ Halves (zeroPixels (3 * 3)) 3 3 := by
  refine ⟨rfl, fun h => ?_⟩
  have hstore : 1 ∈ cutStores 3 3 := by decide
  exact absurd (h.inside 1 hstore) (by decide)

end UefiGame
