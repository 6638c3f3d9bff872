import Mathlib.Data.List.Nodup
import Mathlib.Logic.Function.Basic

/-! # Redo logs

A store keeps, beside its own cells, a header cell and a row of slots. The
header lists cells whose values stand in the slots. What such a store stands
for is the store with the listed cells taken from their slots. Filling slots
and copying listed cells home change nothing of that; writing the header
changes all listed cells at once. Hence a commit or a recovery that stops after
any of its writes leaves a store that stands for the old or for the new state.
-/

namespace RedoLog

variable {α β : Type*} [DecidableEq α]

/-- The store after a sequence of writes. -/
def apply (ws : List (α × β)) (d : α → β) : α → β :=
  ws.foldl (fun d w => Function.update d w.1 w.2) d

@[simp] theorem apply_nil (d : α → β) : apply [] d = d := rfl

theorem apply_cons (w : α × β) (ws : List (α × β)) (d : α → β) :
    apply (w :: ws) d = apply ws (Function.update d w.1 w.2) := rfl

theorem apply_append (ws vs : List (α × β)) (d : α → β) :
    apply (ws ++ vs) d = apply vs (apply ws d) := List.foldl_append

theorem apply_singleton (w : α × β) (d : α → β) : apply [w] d = Function.update d w.1 w.2 := rfl

theorem apply_of_forall_ne {ws : List (α × β)} {a : α} (h : ∀ w ∈ ws, w.1 ≠ a) (d : α → β) :
    apply ws d a = d a := by
  induction ws generalizing d with
  | nil => rfl
  | cons w ws ih =>
    rw [List.forall_mem_cons] at h
    rw [apply_cons, ih h.2, Function.update_of_ne (Ne.symm h.1)]

theorem apply_of_mem {ws : List (α × β)} (hn : (ws.map Prod.fst).Nodup) {w : α × β} (hw : w ∈ ws)
    (d : α → β) : apply ws d w.1 = w.2 := by
  induction ws generalizing d with
  | nil => cases hw
  | cons v ws ih =>
    rw [List.map_cons, List.nodup_cons] at hn
    rw [apply_cons]
    rcases List.mem_cons.mp hw with rfl | hw
    · rw [apply_of_forall_ne, Function.update_self]
      intro u hu heq
      exact hn.1 (heq ▸ List.mem_map_of_mem hu)
    · exact ih hn.2 hw _

/-- Where the log is and how its header is read. -/
structure Layout (α β : Type*) where
  head : α
  capacity : ℕ
  slot : ℕ → α
  decode : β → List α
  slot_inj : ∀ t < capacity, ∀ u < capacity, slot t = slot u → t = u
  slot_ne_head : ∀ t < capacity, slot t ≠ head

variable {L : Layout α β} {d new : α → β} {a : α} {bs : List α} {k : ℕ} {h h' : β}

/-- The cells outside the log. -/
def Layout.Home (L : Layout α β) (a : α) : Prop := a ≠ L.head ∧ ∀ t < L.capacity, a ≠ L.slot t

/-- The cells the header lists. -/
def Layout.listed (L : Layout α β) (d : α → β) : List α := L.decode (d L.head)

/-- What a store stands for. -/
def Layout.meaning (L : Layout α β) (d : α → β) (a : α) : β :=
  if a ∈ L.listed d then d (L.slot ((L.listed d).idxOf a)) else d a

theorem meaning_of_listed_nil (hd : L.listed d = []) : L.meaning d a = d a := by
  rw [Layout.meaning, hd, if_neg (by simp)]

theorem meaning_of_mem (ha : a ∈ L.listed d) :
    L.meaning d a = d (L.slot ((L.listed d).idxOf a)) := by
  rw [Layout.meaning, if_pos ha]

theorem meaning_of_notMem (ha : a ∉ L.listed d) : L.meaning d a = d a := by
  rw [Layout.meaning, if_neg ha]

/-! ## Copying home -/

/-- The writes of a recovery: every listed cell, then an empty header. -/
def Layout.recovery (L : Layout α β) (d : α → β) (h' : β) : List (α × β) :=
  ((L.listed d).map fun b => (b, L.meaning d b)) ++ [(L.head, h')]

/-- Cells a log has room for: all different and outside the log. -/
structure Layout.Fits (L : Layout α β) (bs : List α) : Prop where
  nodup : bs.Nodup
  home : ∀ b ∈ bs, L.Home b
  length_le : bs.length ≤ L.capacity

theorem Layout.Fits.idxOf_lt (hb : L.Fits bs) (ha : a ∈ bs) : bs.idxOf a < L.capacity :=
  Nat.lt_of_lt_of_le (List.idxOf_lt_length_of_mem ha) hb.length_le

omit [DecidableEq α] in
theorem fits_nil : L.Fits [] := ⟨List.nodup_nil, by simp, by simp⟩

theorem copied_frame (hs : L.Fits (L.listed d)) {ws : List (α × β)}
    (hws : ∀ w ∈ ws, w.1 ∈ L.listed d) :
    apply ws d L.head = d L.head ∧
      (∀ t < L.capacity, apply ws d (L.slot t) = d (L.slot t)) ∧
      ∀ a ∉ L.listed d, apply ws d a = d a := by
  refine ⟨apply_of_forall_ne ?_ d, fun t ht => apply_of_forall_ne ?_ d,
    fun a ha => apply_of_forall_ne ?_ d⟩
  · exact fun w hw => (hs.home _ (hws w hw)).1
  · exact fun w hw => (hs.home _ (hws w hw)).2 t ht
  · rintro w hw rfl
    exact ha (hws w hw)

theorem meaning_copied (hs : L.Fits (L.listed d)) {ws : List (α × β)}
    (hws : ∀ w ∈ ws, w.1 ∈ L.listed d) :
    L.meaning (apply ws d) a = L.meaning d a := by
  obtain ⟨hhead, hslot, hother⟩ := copied_frame hs hws
  have hlisted : L.listed (apply ws d) = L.listed d := by rw [Layout.listed, hhead, Layout.listed]
  by_cases ha : a ∈ L.listed d
  · rw [meaning_of_mem (by rwa [hlisted]), hlisted, hslot _ (hs.idxOf_lt ha), meaning_of_mem ha]
  · rw [meaning_of_notMem (by rwa [hlisted]), hother a ha, meaning_of_notMem ha]

theorem fst_mem_of_mem_copies {w : α × β}
    (hw : w ∈ (L.listed d).map fun b => (b, L.meaning d b)) : w.1 ∈ L.listed d := by
  obtain ⟨b, hb, rfl⟩ := List.mem_map.mp hw
  exact hb

theorem apply_recovery (hs : L.Fits (L.listed d)) (hh' : L.decode h' = []) :
    L.listed (apply (L.recovery d h') d) = [] ∧
      ∀ a, L.Home a → apply (L.recovery d h') d a = L.meaning d a := by
  rw [Layout.recovery, apply_append, apply_singleton]
  refine ⟨by rw [Layout.listed, Function.update_self, hh'], fun a ha => ?_⟩
  rw [Function.update_of_ne ha.1]
  by_cases hmem : a ∈ L.listed d
  · refine apply_of_mem (w := (a, L.meaning d a)) ?_ (List.mem_map.mpr ⟨a, hmem, rfl⟩) d
    rw [List.map_map]
    simpa [Function.comp_def] using hs.nodup
  · rw [(copied_frame hs fun w hw => fst_mem_of_mem_copies hw).2.2 a hmem, meaning_of_notMem hmem]

/-- A recovery that stops after any of its writes leaves a store that stands for the same. -/
theorem meaning_take_recovery (hs : L.Fits (L.listed d)) (hh' : L.decode h' = []) (ha : L.Home a)
    (k : ℕ) :
    L.meaning (apply ((L.recovery d h').take k) d) a = L.meaning d a := by
  rcases Nat.lt_or_ge (L.listed d).length k with hk | hk
  · rw [List.take_of_length_le (by simp [Layout.recovery]; omega)]
    obtain ⟨hlisted, hcells⟩ := apply_recovery hs hh'
    rw [meaning_of_listed_nil hlisted, hcells a ha]
  · rw [Layout.recovery, List.take_append_of_le_length (by simpa using hk)]
    exact meaning_copied hs fun w hw => fst_mem_of_mem_copies (List.mem_of_mem_take hw)

theorem listed_take_recovery (hs : L.Fits (L.listed d)) (hh' : L.decode h' = []) (k : ℕ) :
    L.listed (apply ((L.recovery d h').take k) d) = L.listed d ∨
      L.listed (apply ((L.recovery d h').take k) d) = [] := by
  rcases Nat.lt_or_ge (L.listed d).length k with hk | hk
  · rw [List.take_of_length_le (by simp [Layout.recovery]; omega)]
    exact Or.inr (apply_recovery hs hh').1
  · rw [Layout.recovery, List.take_append_of_le_length (by simpa using hk)]
    have hhead := (copied_frame hs fun w hw =>
      fst_mem_of_mem_copies (List.mem_of_mem_take (i := k) hw)).1
    exact Or.inl (by rw [Layout.listed, hhead, Layout.listed])

/-! ## Committing -/

/-- The writes that fill the slots with the new values of some cells. -/
def Layout.fill (L : Layout α β) (bs : List α) (new : α → β) : List (α × β) :=
  bs.map fun b => (L.slot (bs.idxOf b), new b)

/-- The writes of a commit: the slots, the header, and then a recovery. -/
def Layout.commit (L : Layout α β) (bs : List α) (new : α → β) (h h' : β) : List (α × β) :=
  L.fill bs new ++ (L.head, h) :: ((bs.map fun b => (b, new b)) ++ [(L.head, h')])

theorem fill_frame (hb : L.Fits bs) {ws : List (α × β)} (hws : ∀ w ∈ ws, w ∈ L.fill bs new) :
    apply ws d L.head = d L.head ∧ ∀ a, L.Home a → apply ws d a = d a := by
  have hslot : ∀ w ∈ ws, ∃ t < L.capacity, w.1 = L.slot t := by
    intro w hw
    obtain ⟨b, hbs, rfl⟩ := List.mem_map.mp (hws w hw)
    exact ⟨_, hb.idxOf_lt hbs, rfl⟩
  refine ⟨apply_of_forall_ne (fun w hw => ?_) d, fun a ha => apply_of_forall_ne (fun w hw => ?_) d⟩
  · obtain ⟨t, ht, heq⟩ := hslot w hw
    rw [heq]
    exact L.slot_ne_head t ht
  · obtain ⟨t, ht, heq⟩ := hslot w hw
    rw [heq]
    exact Ne.symm (ha.2 t ht)

theorem apply_fill (hb : L.Fits bs) (ha : a ∈ bs) :
    apply (L.fill bs new) d (L.slot (bs.idxOf a)) = new a := by
  have hslots : ((L.fill bs new).map Prod.fst).Nodup := by
    rw [Layout.fill, List.map_map]
    refine hb.nodup.map_on fun x hx y hy hxy => ?_
    exact (List.idxOf_inj hx).mp (L.slot_inj _ (hb.idxOf_lt hx) _ (hb.idxOf_lt hy) hxy)
  exact apply_of_mem hslots (w := (L.slot (bs.idxOf a), new a)) (List.mem_map.mpr ⟨a, ha, rfl⟩) d

/-- The store once the header is written. -/
def Layout.committed (L : Layout α β) (bs : List α) (new : α → β) (h : β) (d : α → β) : α → β :=
  Function.update (apply (L.fill bs new) d) L.head h

theorem listed_committed (hh : L.decode h = bs) : L.listed (L.committed bs new h d) = bs := by
  rw [Layout.listed, Layout.committed, Function.update_self, hh]

theorem meaning_committed (hb : L.Fits bs) (hh : L.decode h = bs)
    (hnew : ∀ a, L.Home a → a ∉ bs → new a = d a) (ha : L.Home a) :
    L.meaning (L.committed bs new h d) a = new a := by
  have hlisted : L.listed (L.committed bs new h d) = bs := listed_committed hh
  by_cases hmem : a ∈ bs
  · rw [meaning_of_mem (by rwa [hlisted]), hlisted, Layout.committed,
      Function.update_of_ne (L.slot_ne_head _ (hb.idxOf_lt hmem)), apply_fill hb hmem]
  · rw [meaning_of_notMem (by rwa [hlisted]), Layout.committed, Function.update_of_ne ha.1,
      (fill_frame hb fun w hw => hw).2 a ha, hnew a ha hmem]

/-- What follows the header in a commit is the recovery from it. -/
theorem commit_eq (hb : L.Fits bs) (hh : L.decode h = bs)
    (hnew : ∀ a, L.Home a → a ∉ bs → new a = d a) :
    L.commit bs new h h' =
      L.fill bs new ++ (L.head, h) :: L.recovery (L.committed bs new h d) h' := by
  rw [Layout.commit, Layout.recovery, listed_committed hh]
  congr 3
  apply List.map_congr_left
  intro b hmem
  rw [meaning_committed hb hh hnew (hb.home b hmem)]

theorem apply_take_commit {e : β} (hb : L.Fits bs) (hh : L.decode h = bs)
    (hnew : ∀ a, L.Home a → a ∉ bs → new a = d a) (k : ℕ) :
    (k ≤ bs.length ∧ apply ((L.commit bs new h e).take k) d =
      apply ((L.fill bs new).take k) d) ∨
    (bs.length < k ∧ apply ((L.commit bs new h e).take k) d =
      apply ((L.recovery (L.committed bs new h d) e).take (k - bs.length - 1))
        (L.committed bs new h d)) := by
  have hlen : (L.fill bs new).length = bs.length := by simp [Layout.fill]
  rw [commit_eq hb hh hnew]
  rcases Nat.lt_or_ge bs.length k with hk | hk
  · right
    obtain ⟨j, rfl⟩ := Nat.exists_eq_add_of_lt hk
    refine ⟨hk, ?_⟩
    rw [List.take_append, List.take_of_length_le (by omega), hlen,
      show bs.length + j + 1 - bs.length = j + 1 by omega, List.take_succ_cons, apply_append,
      apply_cons, Nat.add_sub_cancel]
    rfl
  · left
    exact ⟨hk, by rw [List.take_append_of_le_length (by omega)]⟩

/-- A commit that stops after any of its writes leaves a store that stands for the old state up to
the write of the header, and for the new one from there on. -/
theorem meaning_take_commit (hd : L.listed d = []) (hb : L.Fits bs) (hh : L.decode h = bs)
    (hh' : L.decode h' = []) (hnew : ∀ a, L.Home a → a ∉ bs → new a = d a) (ha : L.Home a) (k : ℕ) :
    L.meaning (apply ((L.commit bs new h h').take k) d) a =
      if k ≤ bs.length then d a else new a := by
  rcases apply_take_commit (e := h') hb hh hnew k with ⟨hk, heq⟩ | ⟨hk, heq⟩
  · obtain ⟨hhead, hframe⟩ := fill_frame (d := d) hb fun w hw => List.mem_of_mem_take (i := k) hw
    rw [if_pos hk, heq, meaning_of_listed_nil (by rw [Layout.listed, hhead]; exact hd),
      hframe a ha]
  · rw [if_neg (by omega), heq, meaning_take_recovery (by rwa [listed_committed hh]) hh' ha,
      meaning_committed hb hh hnew ha]

theorem listed_take_commit (hd : L.listed d = []) (hb : L.Fits bs) (hh : L.decode h = bs)
    (hh' : L.decode h' = []) (hnew : ∀ a, L.Home a → a ∉ bs → new a = d a) (k : ℕ) :
    L.listed (apply ((L.commit bs new h h').take k) d) = bs ∨
      L.listed (apply ((L.commit bs new h h').take k) d) = [] := by
  rcases apply_take_commit (e := h') hb hh hnew k with ⟨-, heq⟩ | ⟨-, heq⟩
  · obtain ⟨hhead, -⟩ := fill_frame (d := d) hb fun w hw => List.mem_of_mem_take (i := k) hw
    exact Or.inr (by rw [heq, Layout.listed, hhead, ← Layout.listed, hd])
  · have hlisted : L.listed (L.committed bs new h d) = bs := listed_committed hh
    have hfits : L.Fits (L.listed (L.committed bs new h d)) := by rwa [hlisted]
    have htake := listed_take_recovery hfits hh' (k - bs.length - 1)
    rw [hlisted] at htake
    rwa [heq]

theorem apply_commit (hb : L.Fits bs) (hh : L.decode h = bs) (hh' : L.decode h' = [])
    (hnew : ∀ a, L.Home a → a ∉ bs → new a = d a) :
    L.listed (apply (L.commit bs new h h') d) = [] ∧
      ∀ a, L.Home a → apply (L.commit bs new h h') d a = new a := by
  rw [commit_eq hb hh hnew, apply_append, apply_cons]
  have hfits : L.Fits (L.listed (L.committed bs new h d)) := by rwa [listed_committed hh]
  obtain ⟨hlisted, hcells⟩ := apply_recovery hfits hh'
  exact ⟨hlisted, fun a ha => (hcells a ha).trans (meaning_committed hb hh hnew ha)⟩

end RedoLog
