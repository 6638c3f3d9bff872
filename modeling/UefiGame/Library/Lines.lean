import Mathlib.Data.List.TakeWhile

/-! # Texts cut into lines

A text is its terminated lines, each followed by the separator, and an
unfinished line at the end. Facts about all texts follow by peeling off one
terminated line after the other.
-/

namespace Lines

variable {α : Type*} [DecidableEq α] {sep : α} {seg rest xs : List α}

/-- The lines of a text that a separator ends. -/
def terminated (sep : α) (xs : List α) : List (List α) := (xs.splitOn sep).dropLast

/-- The parts of a text between the separators: its terminated lines and the unfinished one. -/
def parts (sep : α) (xs : List α) : List (List α) := xs.splitOn sep

@[elab_as_elim] theorem induction {motive : List α → Prop} (sep : α)
    (unfinished : ∀ xs, sep ∉ xs → motive xs)
    (line : ∀ seg rest, sep ∉ seg → motive rest → motive (seg ++ sep :: rest)) (xs : List α) :
    motive xs := by
  induction hn : xs.length using Nat.strongRecOn generalizing xs with
  | ind n ih =>
    by_cases hmem : sep ∈ xs
    · obtain ⟨seg, rest, rfl, hseg⟩ := List.eq_append_cons_of_mem hmem
      rw [List.length_append, List.length_cons] at hn
      exact line seg rest hseg (ih rest.length (by omega) rest rfl)
    · exact unfinished xs hmem

theorem findIdx?_eq_none_iff : (xs.findIdx? fun c => c = sep) = none ↔ sep ∉ xs := by
  rw [List.findIdx?_eq_none_iff]
  constructor
  · intro h hmem
    exact of_decide_eq_false (h sep hmem) rfl
  · rintro h c hc
    rw [decide_eq_false_iff_not]
    rintro rfl
    exact h hc

theorem findIdx?_append_of_notMem (h : sep ∉ seg) (rest : List α) :
    (seg ++ rest).findIdx? (fun c => c = sep) =
      (rest.findIdx? fun c => c = sep).map (· + seg.length) := by
  rw [List.findIdx?_append, findIdx?_eq_none_iff.mpr h, Option.none_or]

theorem findIdx?_append_cons (h : sep ∉ seg) (rest : List α) :
    (seg ++ sep :: rest).findIdx? (fun c => c = sep) = some seg.length := by
  rw [findIdx?_append_of_notMem h, List.findIdx?_cons, if_pos (decide_eq_true rfl), Option.map_some,
    Nat.zero_add]

theorem notMem_takeWhile (sep : α) (xs : List α) : sep ∉ xs.takeWhile fun c => c ≠ sep := by
  intro hmem
  have hne := List.mem_takeWhile_imp hmem
  rw [decide_eq_true_eq] at hne
  exact hne rfl

theorem exists_eq_takeWhile_append (sep : α) (seg rest : List α) :
    ∃ rest', seg ++ sep :: rest = (seg.takeWhile fun c => c ≠ sep) ++ sep :: rest' := by
  induction seg with
  | nil => exact ⟨rest, rfl⟩
  | cons c seg ih =>
    by_cases hc : c = sep
    · refine ⟨seg ++ sep :: rest, ?_⟩
      rw [List.takeWhile_cons_of_neg (by simpa using hc), hc]
      rfl
    · obtain ⟨rest', heq⟩ := ih
      refine ⟨rest', ?_⟩
      rw [List.takeWhile_cons_of_pos (by simpa using hc), List.cons_append, heq]
      rfl

theorem terminated_of_notMem (h : sep ∉ xs) : terminated sep xs = [] := by
  rw [terminated, List.splitOn_eq_singleton h, List.dropLast_singleton]

theorem terminated_append_cons (h : sep ∉ seg) :
    terminated sep (seg ++ sep :: rest) = seg :: terminated sep rest := by
  rw [terminated, List.splitOn_append_cons_self_of_not_mem h,
    List.dropLast_cons_of_ne_nil (List.splitOn_ne_nil sep rest), terminated]

theorem parts_of_notMem (h : sep ∉ xs) : parts sep xs = [xs] := List.splitOn_eq_singleton h

theorem parts_append_cons (h : sep ∉ seg) :
    parts sep (seg ++ sep :: rest) = seg :: parts sep rest :=
  List.splitOn_append_cons_self_of_not_mem h rest

theorem parts_ne_nil (sep : α) (xs : List α) : parts sep xs ≠ [] := List.splitOn_ne_nil sep xs

theorem notMem_of_mem_parts (h : seg ∈ parts sep xs) : sep ∉ seg := by
  induction xs using induction sep with
  | unfinished xs hxs =>
    rw [parts_of_notMem hxs] at h
    rwa [List.mem_singleton.mp h]
  | line seg' rest hseg ih =>
    rw [parts_append_cons hseg] at h
    rcases List.mem_cons.mp h with rfl | h
    · exact hseg
    · exact ih h

theorem notMem_of_mem_terminated (h : seg ∈ terminated sep xs) : sep ∉ seg :=
  notMem_of_mem_parts ((List.dropLast_sublist _).subset h)

/-- The terminated lines of a text are lines of every longer text, in front of the others. -/
theorem terminated_prefix (xs ys : List α) : terminated sep xs <+: parts sep (xs ++ ys) := by
  induction xs using induction sep with
  | unfinished xs h =>
    rw [terminated_of_notMem h]
    exact List.nil_prefix
  | line seg rest h ih =>
    rw [terminated_append_cons h, List.append_assoc, List.cons_append, parts_append_cons h]
    exact List.cons_prefix_cons.mpr ⟨rfl, ih⟩

theorem intercalate_parts (sep : α) (xs : List α) : [sep].intercalate (parts sep xs) = xs :=
  List.intercalate_splitOn sep

theorem parts_intercalate {xss : List (List α)} (h : ∀ xs ∈ xss, sep ∉ xs) (hne : xss ≠ []) :
    parts sep ([sep].intercalate xss) = xss := List.splitOn_intercalate sep h hne

theorem length_terminated (sep : α) (xs : List α) :
    (terminated sep xs).length = xs.count sep := by
  induction xs using induction sep with
  | unfinished xs h => rw [terminated_of_notMem h, List.count_eq_zero_of_not_mem h, List.length_nil]
  | line seg rest h ih =>
    rw [terminated_append_cons h, List.length_cons, ih, List.count_append,
      List.count_eq_zero_of_not_mem h, List.count_cons_self, Nat.zero_add]

theorem countP_eq_zero (h : sep ∉ xs) : (xs.countP fun x => x = sep) = 0 := by
  rw [List.countP_eq_zero]
  rintro x hx he
  exact h (of_decide_eq_true he ▸ hx)

theorem length_parts (sep : α) (xs : List α) :
    (parts sep xs).length = (xs.countP fun x => x = sep) + 1 := by
  induction xs using induction sep with
  | unfinished xs h => rw [parts_of_notMem h, countP_eq_zero h, List.length_singleton]
  | line seg rest h ih =>
    rw [parts_append_cons h, List.length_cons, ih, List.countP_append, countP_eq_zero h,
      List.countP_cons_of_pos (by simp), Nat.zero_add]

theorem length_terminated_eq_countP (sep : α) (xs : List α) :
    (terminated sep xs).length = xs.countP fun x => x = sep := by
  have hparts := length_parts sep xs
  rw [parts] at hparts
  rw [terminated, List.length_dropLast, hparts, Nat.add_sub_cancel]

theorem length_splitOn : (xs.splitOn sep).length = (terminated sep xs).length + 1 := by
  have hpos := List.length_pos_iff.mpr (List.splitOn_ne_nil sep xs)
  rw [terminated, List.length_dropLast]
  omega

theorem getElem?_splitOn {r : ℕ} (h : r < xs.count sep) :
    (xs.splitOn sep)[r]? = (terminated sep xs)[r]? := by
  rw [← length_terminated] at h
  rw [terminated] at h ⊢
  rw [List.length_dropLast] at h
  rw [List.getElem?_dropLast, if_pos h]

theorem eq_flatMap_append (sep : α) (xs : List α) :
    ∃ last, sep ∉ last ∧ xs = (terminated sep xs).flatMap (· ++ [sep]) ++ last := by
  induction xs using induction sep with
  | unfinished xs h => exact ⟨xs, h, by rw [terminated_of_notMem h]; rfl⟩
  | line seg rest h ih =>
    obtain ⟨last, hlast, heq⟩ := ih
    refine ⟨last, hlast, ?_⟩
    rw [terminated_append_cons h, List.flatMap_cons, List.append_assoc, ← heq, List.append_assoc,
      List.singleton_append]

omit [DecidableEq α] in
theorem intercalate_append_singleton (sep : α) (xss : List (List α)) (xs : List α) :
    [sep].intercalate (xss ++ [xs]) = xss.flatMap (· ++ [sep]) ++ xs := by
  induction xss with
  | nil => simp
  | cons ys xss ih =>
    rw [List.cons_append, List.intercalate_cons_of_ne_nil (by simp), ih, List.flatMap_cons]
    simp only [List.append_assoc]

end Lines
