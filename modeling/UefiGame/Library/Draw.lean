import Mathlib.Data.List.Nodup
import Mathlib.Data.Nat.Count

/-! # Drawing by rank

At each turn the item at a given rank of what is left is drawn, or nothing if
the rank is too large. No item is drawn twice, and the number of items drawn
before turn `i` is `i` at every turn that draws something just when the turns
that draw come first.

A scan that counts the items it meets and acts on one of them performs one such
turn.

The ranks below the number of items left are a code for the ways to draw: each
way of drawing distinct items comes from exactly one such sequence of ranks.
-/

namespace Draw

section Scan

variable {σ κ : Type*} (hit : σ → κ → Bool) (act : σ → κ → Option σ) (r : ℕ)

/-- Count the items that are hit, and act on the one with `r` hits before it;
the action may fail. -/
def scanStep (p : σ × ℕ) (k : κ) : Option (σ × ℕ) :=
  if hit p.1 k then
    if p.2 = r then (act p.1 k).map fun s => (s, p.2 + 1) else some (p.1, p.2 + 1)
  else some p

variable {hit act r}

theorem foldlM_scanStep_of_lt {s : σ} {n : ℕ} (hn : r < n) (l : List κ) :
    (l.foldlM (scanStep hit act r) (s, n)).map Prod.fst = some s := by
  induction l generalizing n with
  | nil => rfl
  | cons k l ih =>
    rw [List.foldlM_cons, scanStep]
    split_ifs with hk hr
    · exact absurd hr (Nat.ne_of_gt hn)
    · exact ih (Nat.lt_succ_of_lt hn)
    · exact ih hn

theorem foldlM_scanStep {s : σ} {n : ℕ} (hn : n ≤ r) (l : List κ) :
    (l.foldlM (scanStep hit act r) (s, n)).map Prod.fst =
      ((l.filter (hit s))[r - n]?).elim (some s) (act s) := by
  induction l generalizing n with
  | nil => rfl
  | cons k l ih =>
    rw [List.foldlM_cons, scanStep]
    split_ifs with hk hr
    · obtain rfl : n = r := hr
      rw [List.filter_cons_of_pos hk, Nat.sub_self, List.getElem?_cons_zero, Option.elim_some]
      cases act s k with
      | none => rfl
      | some s' => exact foldlM_scanStep_of_lt (Nat.lt_succ_self n) l
    · have hlt : n < r := Nat.lt_of_le_of_ne hn hr
      obtain ⟨d, rfl⟩ := Nat.exists_eq_add_of_lt hlt
      have hd : n + d + 1 - n = d + 1 := by omega
      have hd' : n + d + 1 - n.succ = d := by omega
      have hrest := ih hlt
      rw [hd'] at hrest
      rw [List.filter_cons_of_pos hk, hd, List.getElem?_cons_succ]
      exact hrest
    · rw [List.filter_cons_of_neg hk]
      exact ih hn

end Scan

variable {α : Type*} (l : List α) (rank : ℕ → ℕ)

/-- What is left after the first `i` turns. -/
def remaining : ℕ → List α
  | 0 => l
  | i + 1 => (remaining i).eraseIdx (rank i)

/-- The item drawn in turn `i`. -/
def drawn (i : ℕ) : Option α := (remaining l rank i)[rank i]?

/-- Turn `i` draws an item. -/
def Draws (i : ℕ) : Prop := rank i < (remaining l rank i).length

instance : DecidablePred (Draws l rank) := fun _ => inferInstanceAs (Decidable (_ < _))

section Turns

variable {l rank} {i j n : ℕ} {a : α}

theorem filter_ne_eq_eraseIdx [DecidableEq α] (hl : l.Nodup) {r : ℕ} (h : l[r]? = some a) :
    (l.filter fun b => b ≠ a) = l.eraseIdx r := by
  obtain ⟨hr, rfl⟩ := List.getElem?_eq_some_iff.mp h
  rw [← hl.erase_getElem r hr, hl.erase_eq_filter]
  exact List.filter_congr fun b _ => Bool.eq_iff_iff.mpr (by simp)

theorem exists_count_eq {p : ℕ → Prop} [DecidablePred p] {k : ℕ} (h : k < Nat.count p n) :
    ∃ j < n, p j ∧ Nat.count p j = k := by
  induction n with
  | zero => simp at h
  | succ n ih =>
    rcases Nat.lt_or_ge k (Nat.count p n) with hlt | hge
    · obtain ⟨j, hj, hp, hc⟩ := ih hlt
      exact ⟨j, Nat.lt_succ_of_lt hj, hp, hc⟩
    · rw [Nat.count_succ] at h
      split_ifs at h with hp
      · exact ⟨n, Nat.lt_succ_self n, hp, by omega⟩
      · omega

theorem draws_iff : Draws l rank i ↔ ∃ a, drawn l rank i = some a := by
  constructor
  · intro h
    exact ⟨_, List.getElem?_eq_getElem h⟩
  · rintro ⟨a, ha⟩
    exact (List.getElem?_eq_some_iff.mp ha).1

theorem remaining_subset (hij : i ≤ j) : remaining l rank j ⊆ remaining l rank i := by
  induction j, hij using Nat.le_induction with
  | base => exact List.Subset.refl _
  | succ j _ ih => exact List.Subset.trans List.eraseIdx_subset ih

theorem nodup_remaining (hl : l.Nodup) (i : ℕ) : (remaining l rank i).Nodup := by
  induction i with
  | zero => exact hl
  | succ i ih => exact ih.eraseIdx _

theorem mem_of_drawn (h : drawn l rank i = some a) : a ∈ remaining l rank i :=
  List.mem_of_getElem? h

theorem mem_list_of_drawn (h : drawn l rank i = some a) : a ∈ l :=
  remaining_subset (Nat.zero_le i) (mem_of_drawn h)

theorem notMem_of_drawn (hl : l.Nodup) (h : drawn l rank i = some a) (hij : i < j) :
    a ∉ remaining l rank j := by
  have hnext : a ∉ remaining l rank (i + 1) := by
    intro hmem
    obtain ⟨k, hk, hka⟩ := List.mem_eraseIdx_iff_getElem?.mp hmem
    have hlt := (List.getElem?_eq_some_iff.mp h).1
    have he : rank i = k := (List.getElem?_inj hlt (nodup_remaining hl i)).mp (h.trans hka.symm)
    exact hk he.symm
  exact fun hmem => hnext (remaining_subset hij hmem)

theorem drawn_inj (hl : l.Nodup) (hi : drawn l rank i = some a) (hj : drawn l rank j = some a) :
    i = j := by
  rcases Nat.lt_trichotomy i j with h | h | h
  · exact absurd (mem_of_drawn hj) (notMem_of_drawn hl hi h)
  · exact h
  · exact absurd (mem_of_drawn hi) (notMem_of_drawn hl hj h)

theorem length_remaining (l : List α) (rank : ℕ → ℕ) (i : ℕ) :
    (remaining l rank i).length + Nat.count (Draws l rank) i = l.length := by
  induction i with
  | zero => rfl
  | succ i ih =>
    rw [remaining, Nat.count_succ, List.length_eraseIdx]
    by_cases h : Draws l rank i
    · have hlt : rank i < (remaining l rank i).length := h
      rw [if_pos h, if_pos hlt]
      omega
    · have hlt : ¬ rank i < (remaining l rank i).length := h
      rw [if_neg h, if_neg hlt]
      exact ih

theorem draws_iff_lt (l : List α) (rank : ℕ → ℕ) (i : ℕ) :
    Draws l rank i ↔ rank i < l.length - Nat.count (Draws l rank) i := by
  have h := length_remaining l rank i
  rw [← h, Nat.add_sub_cancel]
  rfl

theorem count_of_prefix {p : ℕ} (hp : ∀ i < p, rank i < l.length - i)
    (hn : ∀ i, p ≤ i → i < n → l.length - p ≤ rank i) :
    ∀ i ≤ n, Nat.count (Draws l rank) i = min i p := by
  intro i
  induction i with
  | zero => simp
  | succ i ih =>
    intro hi
    have hc := ih (by omega)
    have hd := draws_iff_lt l rank i
    rw [hc] at hd
    rw [Nat.count_succ, hc]
    rcases Nat.lt_or_ge i p with h | h
    · have hfit := hp i h
      rw [if_pos (hd.mpr (by rwa [Nat.min_eq_left (by omega)]))]
      omega
    · have hlarge := hn i h (by omega)
      rw [if_neg fun h' => absurd (hd.mp h') (by rw [Nat.min_eq_right h]; omega)]
      omega

theorem draws_iff_lt_count (h : ∀ i < n, Draws l rank i → Nat.count (Draws l rank) i = i)
    (hi : i < n) : Draws l rank i ↔ i < Nat.count (Draws l rank) n := by
  constructor
  · intro hd
    calc i = Nat.count (Draws l rank) i := (h i hi hd).symm
      _ < Nat.count (Draws l rank) n := Nat.count_strict_mono hd hi
  · intro hlt
    by_contra hd
    -- no later turn draws either, so none of the turns from `i` on is counted
    have hlater : ∀ k < n - i, ¬ Draws l rank (i + k) := by
      intro k hk hdk
      have hall := Nat.count_iff_forall.mp (h (i + k) (by omega) hdk)
      rcases Nat.eq_zero_or_pos k with rfl | hpos
      · exact hd hdk
      · exact hd (hall i (by omega))
    have hzero := Nat.count_iff_forall_not.mpr hlater
    have hsplit := Nat.count_add (Draws l rank) i (n - i)
    rw [hzero, Nat.add_sub_cancel' (Nat.le_of_lt hi)] at hsplit
    have hle := Nat.count_le (Draws l rank) (n := i)
    omega

/-- Every turn that draws is preceded by drawing turns only, just when the ranks fit the items left
up to some turn and are too large for them from then on. -/
theorem count_eq_iff_exists_prefix :
    (∀ i < n, Draws l rank i → Nat.count (Draws l rank) i = i) ↔
      ∃ p ≤ n, (∀ i < p, rank i < l.length - i) ∧
        ∀ i, p ≤ i → i < n → l.length - p ≤ rank i := by
  constructor
  · intro h
    have hpn := Nat.count_le (Draws l rank) (n := n)
    have hfirst : ∀ i < Nat.count (Draws l rank) n, Draws l rank i :=
      fun i hi => (draws_iff_lt_count h (by omega)).mpr hi
    refine ⟨Nat.count (Draws l rank) n, hpn, ?_, ?_⟩
    · intro i hi
      have hd := hfirst i hi
      have hc := h i (by omega) hd
      rwa [draws_iff_lt, hc] at hd
    · intro i hpi hi
      have hc : Nat.count (Draws l rank) i = Nat.count (Draws l rank) n := by
        have hle := Nat.count_monotone (Draws l rank) (Nat.le_of_lt hi)
        have hge := Nat.count_monotone (Draws l rank) hpi
        rw [Nat.count_iff_forall.mpr hfirst] at hge
        omega
      have hd : ¬ Draws l rank i := fun hd => by
        have := (draws_iff_lt_count h hi).mp hd
        omega
      rwa [draws_iff_lt, hc, Nat.not_lt] at hd
  · rintro ⟨p, hpn, hp, hn⟩ i hi hd
    have hc := count_of_prefix hp hn i (by omega)
    rw [draws_iff_lt, hc] at hd
    rcases Nat.lt_or_ge i p with h | h
    · rw [hc, Nat.min_eq_left (by omega)]
    · have hlarge := hn i h hi
      rw [Nat.min_eq_right h] at hd
      omega

end Turns

section Code

variable {l : List α} {rank rank' : ℕ → ℕ} {i n : ℕ}

theorem remaining_congr (h : ∀ j < i, rank j = rank' j) :
    remaining l rank i = remaining l rank' i := by
  induction i with
  | zero => rfl
  | succ i ih =>
    rw [remaining, remaining, ih fun j hj => h j (Nat.lt_succ_of_lt hj), h i (Nat.lt_succ_self i)]

theorem drawn_congr (h : ∀ j ≤ i, rank j = rank' j) : drawn l rank i = drawn l rank' i := by
  rw [drawn, drawn, remaining_congr fun j hj => h j hj.le, h i le_rfl]

theorem rank_eq_of_drawn_eq (hl : l.Nodup) (hdraws : ∀ i < n, Draws l rank i)
    (h : ∀ i < n, drawn l rank i = drawn l rank' i) : ∀ i < n, rank i = rank' i := by
  intro i
  induction i using Nat.strong_induction_on with
  | _ i ih =>
    intro hi
    have hleft : remaining l rank i = remaining l rank' i :=
      remaining_congr fun j hj => ih j hj (hj.trans hi)
    have hdrawn := h i hi
    rw [drawn, drawn, ← hleft] at hdrawn
    exact (List.getElem?_inj (hdraws i hi) (nodup_remaining hl i)).mp hdrawn

theorem draws_of_lt (h : ∀ i < n, rank i < l.length - i) (hi : i < n) : Draws l rank i := by
  have hcount := count_of_prefix h (fun j hj hjn => absurd hjn (Nat.not_lt.mpr hj)) i hi.le
  rw [draws_iff_lt, hcount, Nat.min_eq_left hi.le]
  exact h i hi

variable [DecidableEq α]

/-- What is left of `l` when turn `j` has drawn `f j`. -/
def left (l : List α) (f : ℕ → α) : ℕ → List α
  | 0 => l
  | i + 1 => (left l f i).erase (f i)

/-- The rank at which turn `i` finds `f i`. -/
def code (l : List α) (f : ℕ → α) (i : ℕ) : ℕ := (left l f i).idxOf (f i)

variable {f : ℕ → α}

theorem remaining_code (l : List α) (f : ℕ → α) (i : ℕ) :
    remaining l (code l f) i = left l f i := by
  induction i with
  | zero => rfl
  | succ i ih => rw [remaining, ih, left, code, List.eraseIdx_idxOf_eq_erase]

theorem mem_left (hf : f i ∈ l) (hne : ∀ j < i, f j ≠ f i) {k : ℕ} (hk : k ≤ i) :
    f i ∈ left l f k := by
  induction k with
  | zero => exact hf
  | succ k ih => exact (List.mem_erase_of_ne (hne k hk).symm).mpr (ih (Nat.le_of_succ_le hk))

theorem length_left (hf : ∀ i < n, f i ∈ l) (hinj : ∀ i < n, ∀ j < i, f j ≠ f i) (hi : i ≤ n) :
    (left l f i).length = l.length - i := by
  induction i with
  | zero => rfl
  | succ i ih =>
    rw [left, List.length_erase_of_mem (mem_left (hf i hi) (hinj i hi) le_rfl),
      ih (Nat.le_of_succ_le hi), Nat.sub_sub]

theorem drawn_code (hf : f i ∈ l) (hne : ∀ j < i, f j ≠ f i) :
    drawn l (code l f) i = some (f i) := by
  rw [drawn, remaining_code, code, List.getElem?_idxOf (mem_left hf hne le_rfl)]

theorem code_lt (hf : ∀ i < n, f i ∈ l) (hinj : ∀ i < n, ∀ j < i, f j ≠ f i) (hi : i < n) :
    code l f i < l.length - i := by
  rw [← length_left hf hinj hi.le]
  exact List.idxOf_lt_length_of_mem (mem_left (hf i hi) (hinj i hi) le_rfl)

end Code

section Assignment

variable {l : List α} {m n : ℕ}

/-- The ranks of the first `n` turns as a sequence. -/
def ranks (r : (i : Fin n) → Fin (m - i)) (i : ℕ) : ℕ := if h : i < n then r ⟨i, h⟩ else 0

theorem ranks_lt (r : (i : Fin n) → Fin (m - i)) : ∀ i < n, ranks r i < m - i := by
  intro i hi
  rw [ranks, dif_pos hi]
  exact (r ⟨i, hi⟩).isLt

theorem exists_drawn_ranks (r : (i : Fin n) → Fin (l.length - i)) (i : Fin n) :
    ∃ a, drawn l (ranks r) i = some a :=
  draws_iff.mp (draws_of_lt (ranks_lt r) i.isLt)

/-- The items that the turns with the ranks `r` draw. -/
def assignment (hl : l.Nodup) (r : (i : Fin n) → Fin (l.length - i)) : Fin n ↪ {a // a ∈ l} where
  toFun i := ⟨(drawn l (ranks r) i).get (Option.isSome_iff_exists.mpr (exists_drawn_ranks r i)),
    mem_list_of_drawn (Option.some_get _).symm⟩
  inj' i j hij := by
    rw [Subtype.mk.injEq, Option.get_inj] at hij
    obtain ⟨a, ha⟩ := exists_drawn_ranks r i
    exact Fin.ext (drawn_inj hl ha (hij ▸ ha))

theorem drawn_ranks (hl : l.Nodup) (r : (i : Fin n) → Fin (l.length - i)) (i : Fin n) :
    drawn l (ranks r) i = some (assignment hl r i).1 :=
  (Option.some_get _).symm

theorem assignment_injective (hl : l.Nodup) :
    Function.Injective (assignment hl : ((i : Fin n) → Fin (l.length - i)) → _) := by
  intro r r' h
  have hdrawn : ∀ i < n, drawn l (ranks r) i = drawn l (ranks r') i := by
    intro i hi
    rw [drawn_ranks hl r ⟨i, hi⟩, drawn_ranks hl r' ⟨i, hi⟩, h]
  funext i
  have hrank := rank_eq_of_drawn_eq hl (fun i hi => draws_of_lt (ranks_lt r) hi) hdrawn i i.isLt
  rw [ranks, ranks, dif_pos i.isLt, dif_pos i.isLt] at hrank
  exact Fin.ext hrank

theorem assignment_surjective [DecidableEq α] (hl : l.Nodup) :
    Function.Surjective (assignment hl : ((i : Fin n) → Fin (l.length - i)) → _) := by
  intro g
  rcases n with _ | n
  · exact ⟨fun i => i.elim0, DFunLike.ext _ _ fun i => i.elim0⟩
  · let f : ℕ → α := fun i => (g (Fin.ofNat (n + 1) i)).1
    have hf : ∀ i < n + 1, f i ∈ l := fun i _ => (g (Fin.ofNat (n + 1) i)).2
    have hinj : ∀ i < n + 1, ∀ j < i, f j ≠ f i := by
      intro i hi j hji h
      have hfin := congrArg Fin.val (g.injective (Subtype.ext h))
      rw [Fin.val_ofNat, Fin.val_ofNat, Nat.mod_eq_of_lt hi,
        Nat.mod_eq_of_lt (hji.trans hi)] at hfin
      exact Nat.ne_of_lt hji hfin
    let r : (i : Fin (n + 1)) → Fin (l.length - i) :=
      fun i => ⟨code l f i, code_lt hf hinj i.isLt⟩
    refine ⟨r, DFunLike.ext _ _ fun i => Subtype.ext ?_⟩
    have hrank : ∀ j ≤ i.1, ranks r j = code l f j := fun j hj => dif_pos (by omega)
    have hdrawn := drawn_ranks hl r i
    rw [drawn_congr hrank, drawn_code (hf i i.isLt) (hinj i i.isLt)] at hdrawn
    have hfi : f i = (g i).1 := by
      change (g (Fin.ofNat (n + 1) i.1)).1 = (g i).1
      rw [Fin.ofNat_val_eq_self]
    rw [← Option.some.inj hdrawn, hfi]

/-- Every way of drawing `n` of `m` items without repetition comes from exactly one sequence of
ranks. -/
theorem exists_bijective_drawn [DecidableEq α] (hl : l.Nodup) (hm : l.length = m) (n : ℕ) :
    ∃ f : ((i : Fin n) → Fin (m - i)) → (Fin n ↪ {a // a ∈ l}), Function.Bijective f ∧
      ∀ r (i : Fin n), drawn l (ranks r) i = some (f r i).1 := by
  subst hm
  exact ⟨assignment hl, ⟨assignment_injective hl, assignment_surjective hl⟩, drawn_ranks hl⟩

end Assignment

end Draw
