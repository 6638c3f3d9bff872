import Mathlib.Algebra.BigOperators.Group.List.Basic
import Mathlib.Algebra.Group.End
import Mathlib.Tactic.LinearCombination

/-! # Turning in the plane

A turn by an angle given by its cosine and sine keeps lengths, angles and
orientation, and the turn by the opposite angle undoes it. A run of turns by
multiples of one angle is the turn by their sum, whatever their order.
-/

namespace Rotation

section Plane

variable {K : Type*} [CommRing K] {c s : K}

/-- The vector `p` turned by the angle of cosine `c` and sine `s`. -/
def rotate (c s : K) (p : K × K) : K × K := (p.1 * c - p.2 * s, p.1 * s + p.2 * c)

def dot (p q : K × K) : K := p.1 * q.1 + p.2 * q.2

/-- The oriented area spanned by `p` and `q`. -/
def cross (p q : K × K) : K := p.1 * q.2 - p.2 * q.1

theorem dot_rotate (h : c * c + s * s = 1) (p q : K × K) :
    dot (rotate c s p) (rotate c s q) = dot p q := by
  unfold dot rotate
  linear_combination (p.1 * q.1 + p.2 * q.2) * h

theorem cross_rotate (h : c * c + s * s = 1) (p q : K × K) :
    cross (rotate c s p) (rotate c s q) = cross p q := by
  unfold cross rotate
  linear_combination (p.1 * q.2 - p.2 * q.1) * h

theorem rotate_neg_rotate (h : c * c + s * s = 1) (p : K × K) :
    rotate c (-s) (rotate c s p) = p := by
  unfold rotate
  ext
  · linear_combination p.1 * h
  · linear_combination p.2 * h

theorem rotate_rotate_neg (h : c * c + s * s = 1) (p : K × K) :
    rotate c s (rotate c (-s) p) = p := by
  have hneg : c * c + -s * -s = 1 := by rwa [neg_mul_neg]
  simpa only [neg_neg] using rotate_neg_rotate hneg p

/-- A pair of vectors turned together. -/
def turnPair (h : c * c + s * s = 1) : Equiv.Perm ((K × K) × (K × K)) where
  toFun f := (rotate c s f.1, rotate c s f.2)
  invFun f := (rotate c (-s) f.1, rotate c (-s) f.2)
  left_inv f := Prod.ext (rotate_neg_rotate h f.1) (rotate_neg_rotate h f.2)
  right_inv f := Prod.ext (rotate_rotate_neg h f.1) (rotate_rotate_neg h f.2)

end Plane

section Power

variable {α κ : Type*}

theorem foldl_zpow (e : Equiv.Perm α) (weight : κ → ℤ) (ks : List κ) (a : α) :
    ks.foldl (fun a k => (e ^ weight k) a) a = (e ^ (ks.map weight).sum) a := by
  induction ks generalizing a with
  | nil => rfl
  | cons k ks ih =>
    rw [List.foldl_cons, ih, List.map_cons, List.sum_cons, add_comm, zpow_add, Equiv.Perm.mul_apply]

end Power

end Rotation
