import Mathlib.Data.List.ProdSigma
import Mathlib.Data.List.Nodup
import Mathlib.Tactic.Ring

/-! # Row-major grids

A `w` by `h` grid stored in one flat block keeps cell `(x, y)` at `y * w + x`.
The index is injective on the grid and stays inside the block, and the rows of
a grid laid end to end are the block.
-/

namespace Grid

variable {w h x y x' y' : ℕ}

/-- Offset of the cell in column `x` and row `y` of a grid `w` cells wide. -/
def rowMajor (w x y : ℕ) : ℕ := y * w + x

theorem rowMajor_lt (hx : x < w) (hy : y < h) : rowMajor w x y < w * h := by
  unfold rowMajor
  calc y * w + x < y * w + w := by omega
    _ = w * (y + 1) := by ring
    _ ≤ w * h := Nat.mul_le_mul_left w hy

@[simp] theorem rowMajor_mod (hx : x < w) : rowMajor w x y % w = x := by
  rw [rowMajor, Nat.mul_comm, Nat.mul_add_mod, Nat.mod_eq_of_lt hx]

@[simp] theorem rowMajor_div (hx : x < w) : rowMajor w x y / w = y := by
  rw [rowMajor, Nat.mul_comm, Nat.mul_add_div (by omega), Nat.div_eq_of_lt hx, Nat.add_zero]

theorem rowMajor_mod_div (i w : ℕ) : rowMajor w (i % w) (i / w) = i := by
  rw [rowMajor, Nat.mul_comm]; exact Nat.div_add_mod i w

theorem rowMajor_inj (hx : x < w) (hx' : x' < w) :
    rowMajor w x y = rowMajor w x' y' ↔ x = x' ∧ y = y' := by
  constructor
  · intro he
    constructor
    · rw [← rowMajor_mod (y := y) hx, he, rowMajor_mod hx']
    · rw [← rowMajor_div (y := y) hx, he, rowMajor_div hx']
  · rintro ⟨rfl, rfl⟩
    rfl

section Rows

variable {α : Type*} {rows : List (List α)} {row : List α}

theorem length_flatten (hrows : ∀ row ∈ rows, row.length = w) :
    rows.flatten.length = w * rows.length := by
  induction rows with
  | nil => simp
  | cons row rows ih =>
    rw [List.forall_mem_cons] at hrows
    rw [List.flatten_cons, List.length_append, ih hrows.2, hrows.1, List.length_cons]
    ring

/-- A grid given by its rows holds at each offset the entry of that row and column. -/
theorem getElem?_flatten (hrows : ∀ row ∈ rows, row.length = w) (hrow : rows[y]? = some row)
    (hx : x < w) : rows.flatten[rowMajor w x y]? = row[x]? := by
  induction rows generalizing y with
  | nil => simp at hrow
  | cons row' rows ih =>
    rw [List.forall_mem_cons] at hrows
    obtain ⟨hlen, htail⟩ := hrows
    rw [List.flatten_cons]
    cases y with
    | zero =>
      obtain rfl : row' = row := Option.some.inj hrow
      rw [rowMajor, Nat.zero_mul, Nat.zero_add, List.getElem?_append_left (by omega)]
    | succ y =>
      have hsub : rowMajor w x (y + 1) = row'.length + rowMajor w x y := by
        rw [rowMajor, rowMajor, hlen]; ring
      rw [hsub, List.getElem?_append_right (Nat.le_add_right _ _), Nat.add_sub_cancel_left]
      exact ih htail hrow

theorem length_of_mem_lines (hrows : ∀ row ∈ rows, row.length = w) (sep : α) :
    ∀ line ∈ rows.map (· ++ [sep]), line.length = w + 1 := by
  intro line hline
  obtain ⟨row, hmem, rfl⟩ := List.mem_map.mp hline
  rw [List.length_append, hrows row hmem, List.length_singleton]

/-- Rows that each end with a separator are the rows of a grid one column wider. -/
theorem length_lines (hrows : ∀ row ∈ rows, row.length = w) (sep : α) :
    (rows.flatMap (· ++ [sep])).length = (w + 1) * rows.length := by
  rw [List.flatMap_def, length_flatten (length_of_mem_lines hrows sep), List.length_map]

theorem getElem?_lines (hrows : ∀ row ∈ rows, row.length = w) (sep : α)
    (hrow : rows[y]? = some row) (hx : x < w) :
    (rows.flatMap (· ++ [sep]))[rowMajor (w + 1) x y]? = row[x]? := by
  have hline : (rows.map (· ++ [sep]))[y]? = some (row ++ [sep]) := by
    rw [List.getElem?_map, hrow, Option.map_some]
  have hxrow : x < row.length := by rwa [hrows row (List.mem_of_getElem? hrow)]
  have h := getElem?_flatten (length_of_mem_lines hrows sep) hline (Nat.lt_succ_of_lt hx)
  exact h.trans (List.getElem?_append_left hxrow)

end Rows

/-- The cells column by column, each column from the top: `(x, y)` with `x` outermost. -/
def columns (w h : ℕ) : List (ℕ × ℕ) := List.range w ×ˢ List.range h

@[simp] theorem mem_columns {c : ℕ × ℕ} : c ∈ columns w h ↔ c.1 < w ∧ c.2 < h := by
  rw [columns, List.mem_product, List.mem_range, List.mem_range]

theorem nodup_columns (w h : ℕ) : (columns w h).Nodup :=
  List.nodup_range.product List.nodup_range

theorem pairwise_columns (w h : ℕ) :
    (columns w h).Pairwise fun p q => p.1 < q.1 ∨ p.1 = q.1 ∧ p.2 < q.2 := by
  apply List.pairwise_flatMap.mpr
  constructor
  · intro i _
    rw [List.pairwise_map]
    exact List.pairwise_lt_range.imp fun h => Or.inr ⟨rfl, h⟩
  · apply List.pairwise_lt_range.imp
    intro i i' hlt p hp q hq
    obtain ⟨_, _, rfl⟩ := List.mem_map.mp hp
    obtain ⟨_, _, rfl⟩ := List.mem_map.mp hq
    exact Or.inl hlt

theorem map_rowMajor_rows (w h : ℕ) :
    ((List.range h ×ˢ List.range w).map fun p => p.1 * w + p.2) = List.range (w * h) := by
  change ((List.range h).flatMap fun y => (List.range w).map (Prod.mk y)).map _ = _
  induction h with
  | zero => rfl
  | succ h ih =>
    rw [List.range_succ, List.flatMap_append, List.map_append, ih, Nat.mul_succ, List.range_add,
      List.flatMap_singleton, List.map_map, Nat.mul_comm w h]
    rfl

end Grid
