import Mathlib.Tactic.Ring
import UefiGame.Library.Updates

/-! # Painting rectangles

A raster assigns a value to every pair of coordinates. A rectangle copied onto
it replaces what was there. Rectangles drawn next to each other show their own
pictures whatever the order, so redrawing the ones whose picture has changed is
drawing all of them afresh.
-/

namespace Raster

variable {β ι : Type*}

structure Rect where
  left : ℕ
  top : ℕ
  width : ℕ
  height : ℕ
  deriving DecidableEq, Repr

def Rect.area (r : Rect) : Set (ℕ × ℕ) :=
  {p | (r.left ≤ p.1 ∧ p.1 < r.left + r.width) ∧ r.top ≤ p.2 ∧ p.2 < r.top + r.height}

theorem Rect.mem_area {r : Rect} {p : ℕ × ℕ} : p ∈ r.area ↔
    (r.left ≤ p.1 ∧ p.1 < r.left + r.width) ∧ r.top ≤ p.2 ∧ p.2 < r.top + r.height := Iff.rfl

instance (r : Rect) (p : ℕ × ℕ) : Decidable (p ∈ r.area) := inferInstanceAs (Decidable (_ ∧ _))

/-- The rectangle lies on a raster of the given size. -/
def Rect.Inside (r : Rect) (width height : ℕ) : Prop :=
  r.left + r.width ≤ width ∧ r.top + r.height ≤ height

/-- The raster with the picture copied onto the rectangle. -/
def copy (s : ℕ × ℕ → β) (r : Rect) (picture : ℕ × ℕ → β) : ℕ × ℕ → β :=
  fun p => if p ∈ r.area then picture (p.1 - r.left, p.2 - r.top) else s p

/-- Square number `c` of a grid of squares. -/
def tile (side left top : ℕ) (c : ℕ × ℕ) : Rect := ⟨left + c.1 * side, top + c.2 * side, side, side⟩

/-- One rectangle copied after the other. -/
def drawAll (rect : ι → Rect) (picture : ι → ℕ × ℕ → β) (cells : List ι) (s : ℕ × ℕ → β) :
    ℕ × ℕ → β :=
  cells.foldl (fun s c => copy s (rect c) (picture c)) s

section Copy

variable {s : ℕ × ℕ → β} {r : Rect} {picture : ℕ × ℕ → β} {p : ℕ × ℕ}

theorem copy_of_mem (h : p ∈ r.area) :
    copy s r picture p = picture (p.1 - r.left, p.2 - r.top) := if_pos h

theorem copy_of_notMem (h : p ∉ r.area) : copy s r picture p = s p := if_neg h

theorem disjoint_tile {side left top : ℕ} {c d : ℕ × ℕ} (h : c ≠ d) :
    Disjoint (tile side left top c).area (tile side left top d).area := by
  have hlt : ∀ {a b x l : ℕ}, l + a * side ≤ x → x < l + b * side + side → a ≤ b := by
    intro a b x l hle hlt
    have hmul : a * side < (b + 1) * side := by
      calc a * side < b * side + side := by omega
        _ = (b + 1) * side := by ring
    exact Nat.le_of_lt_succ (Nat.lt_of_mul_lt_mul_right hmul)
  rw [Set.disjoint_left]
  rintro ⟨x, y⟩ ⟨⟨hcl, hcr⟩, hct, hcb⟩ ⟨⟨hdl, hdr⟩, hdt, hdb⟩
  exact h (Prod.ext (le_antisymm (hlt hcl hdr) (hlt hdl hcr))
    (le_antisymm (hlt hct hdb) (hlt hdt hcb)))

end Copy

section DrawAll

variable {rect : ι → Rect} {picture picture' : ι → ℕ × ℕ → β} {cells : List ι} {s : ℕ × ℕ → β}
  {c d : ι} {p : ℕ × ℕ}

theorem drawAll_of_notMem (h : ∀ c ∈ cells, p ∉ (rect c).area) :
    drawAll rect picture cells s p = s p :=
  Updates.foldl_of_notMem (fun c => (rect c).area) (fun _ _ _ _ ha => copy_of_notMem ha) h

theorem drawAll_of_mem (hd : cells.Pairwise fun c d => Disjoint (rect c).area (rect d).area)
    (hc : c ∈ cells) (hp : p ∈ (rect c).area) :
    drawAll rect picture cells s p = picture c (p.1 - (rect c).left, p.2 - (rect c).top) := by
  have h : drawAll rect picture cells s p = copy s (rect c) (picture c) p :=
    Updates.foldl_of_mem (fun c => (rect c).area) ∅ (fun _ _ _ _ ha => copy_of_notMem ha)
      (fun _ _ _ _ _ _ ha => (copy_of_mem ha).trans (copy_of_mem ha).symm)
      (fun _ _ => Set.disjoint_empty _) hd hc hp
  exact h.trans (copy_of_mem hp)

/-- Redrawing two rectangles is drawing all of them, if the pictures of the others are the same. -/
theorem copy_copy_drawAll (hdisj : cells.Pairwise fun c d => Disjoint (rect c).area (rect d).area)
    (hc : c ∈ cells) (hd : d ∈ cells)
    (hsame : ∀ e ∈ cells, e ≠ c → e ≠ d → picture' e = picture e) :
    copy (copy (drawAll rect picture cells s) (rect c) (picture' c)) (rect d) (picture' d) =
      drawAll rect picture' cells s := by
  ext p
  by_cases hpd : p ∈ (rect d).area
  · rw [copy_of_mem hpd, drawAll_of_mem hdisj hd hpd]
  · rw [copy_of_notMem hpd]
    by_cases hpc : p ∈ (rect c).area
    · rw [copy_of_mem hpc, drawAll_of_mem hdisj hc hpc]
    · rw [copy_of_notMem hpc]
      by_cases hp : ∃ e ∈ cells, p ∈ (rect e).area
      · obtain ⟨e, he, hpe⟩ := hp
        have hec : e ≠ c := by
          rintro rfl
          exact hpc hpe
        have hed : e ≠ d := by
          rintro rfl
          exact hpd hpe
        rw [drawAll_of_mem hdisj he hpe, drawAll_of_mem hdisj he hpe, hsame e he hec hed]
      · have hnone : ∀ e ∈ cells, p ∉ (rect e).area := fun e he hpe => hp ⟨e, he, hpe⟩
        rw [drawAll_of_notMem hnone, drawAll_of_notMem hnone]

end DrawAll

end Raster
