import Mathlib.Data.List.Chain
import Mathlib.Data.List.Nodup
import Mathlib.Logic.Function.Basic

/-! # Circular doubly linked lists

Nodes hold a link to the next and one to the previous node; one node is the head
and closes the ring. Unlinking a node and linking it in behind the head are two
assignments to each kind of link. Walking along either kind of link from the
head passes all nodes of the ring and comes back.
-/

namespace CircularList

variable {α : Type*}

/-- The links of all nodes, those of a ring and others. -/
structure Links (α : Type*) where
  next : α → α
  prev : α → α

variable {l : Links α} {h a b c : α} {xs ys zs : List α} {next prev : α → α}

/-- The two nodes are linked both ways. -/
def Links.Joined (l : Links α) (a b : α) : Prop := l.next a = b ∧ l.prev b = a

/-- The nodes of a ring behind its head, all different. -/
structure Links.Ring (l : Links α) (h : α) (xs : List α) : Prop where
  joined : (h :: xs ++ [h]).IsChain l.Joined
  nodup : (h :: xs).Nodup

theorem isChain_of_frame (hl : xs.IsChain l.Joined) (hnext : ∀ a ∈ xs.dropLast, next a = l.next a)
    (hprev : ∀ a ∈ xs.tail, prev a = l.prev a) : xs.IsChain (⟨next, prev⟩ : Links α).Joined := by
  induction xs with
  | nil => exact .nil
  | cons a xs ih =>
    cases xs with
    | nil => exact .singleton a
    | cons b xs =>
      rw [List.isChain_cons_cons] at hl ⊢
      rw [List.tail_cons, List.forall_mem_cons] at hprev
      rw [List.dropLast_cons_cons, List.forall_mem_cons] at hnext
      refine ⟨⟨hnext.1.trans hl.1.1, hprev.1.trans hl.1.2⟩, ih hl.2 hnext.2 ?_⟩
      exact fun c hc => hprev.2 c hc

section Edit

variable [DecidableEq α]

/-- `b->next->prev = b->prev; b->prev->next = b->next`. -/
def Links.unlink (l : Links α) (b : α) : Links α :=
  let prev := Function.update l.prev (l.next b) (l.prev b)
  { next := Function.update l.next (prev b) (l.next b), prev := prev }

/-- `b->next = h->next; b->prev = h; h->next->prev = b; h->next = b`. -/
def Links.linkFirst (l : Links α) (h b : α) : Links α :=
  let next := Function.update l.next b (l.next h)
  let prev := Function.update l.prev b h
  { next := Function.update next h b, prev := Function.update prev (next h) b }

/-- A node of a ring can be taken out of it. -/
theorem Links.Ring.unlink (hl : l.Ring h (xs ++ b :: ys)) : (l.unlink b).Ring h (xs ++ ys) := by
  obtain ⟨hjoined, hnodup⟩ := hl
  -- the neighbours of the node, either of which may be the head
  obtain ⟨us, p, hp⟩ : ∃ us p, h :: xs = us ++ [p] :=
    ⟨_, _, (List.dropLast_append_getLast (List.cons_ne_nil h xs)).symm⟩
  obtain ⟨n, vs, hn⟩ : ∃ n vs, ys ++ [h] = n :: vs := List.exists_cons_of_ne_nil (by simp)
  have hsplit : h :: (xs ++ b :: ys) ++ [h] = us ++ p :: b :: n :: vs := by
    rw [← List.cons_append, hp, ← hn]
    simp
  rw [hsplit, List.isChain_append_cons_cons, List.isChain_cons_cons] at hjoined
  obtain ⟨hleft, ⟨-, hprevb⟩, ⟨hnextb, -⟩, hright⟩ := hjoined
  rw [← List.cons_append, List.nodup_append'] at hnodup
  obtain ⟨hxs, hbys, hdisj⟩ := hnodup
  have hb : ∀ a ∈ h :: xs, a ≠ b ∧ a ∉ ys := by
    intro a ha
    have hnot := List.disjoint_left.mp hdisj ha
    rwa [List.mem_cons, not_or] at hnot
  have hp' : p ∈ h :: xs := by simp [hp]
  have hn' : n ∈ ys ∨ n = h := by
    have hmem : n ∈ ys ++ [h] := by simp [hn]
    simpa using hmem
  have hys : (ys ++ [h]).Nodup := by
    rw [List.nodup_append']
    refine ⟨(List.nodup_cons.mp hbys).2, List.nodup_singleton h, ?_⟩
    rw [List.disjoint_singleton]
    exact (hb h List.mem_cons_self).2
  have hnb : b ≠ n := by
    rintro rfl
    rcases hn' with hn' | rfl
    · exact (List.nodup_cons.mp hbys).1 hn'
    · exact (hb b List.mem_cons_self).1 rfl
  have hlinks : l.unlink b = ⟨Function.update l.next p n, Function.update l.prev n p⟩ := by
    rw [Links.unlink, hnextb, hprevb, Function.update_of_ne hnb, hprevb]
  rw [hlinks]
  constructor
  · have hshort : h :: (xs ++ ys) ++ [h] = us ++ p :: n :: vs := by
      rw [← List.cons_append, hp, ← hn]
      simp
    rw [hshort, List.isChain_append_cons_cons]
    refine ⟨isChain_of_frame hleft ?_ ?_, ⟨Function.update_self .., Function.update_self ..⟩,
      isChain_of_frame hright ?_ ?_⟩
    · intro a ha
      rw [List.dropLast_concat] at ha
      apply Function.update_of_ne
      rintro rfl
      rw [hp, List.nodup_append'] at hxs
      exact List.disjoint_singleton.mp hxs.2.2 ha
    · intro a ha
      rw [← hp, List.tail_cons] at ha
      apply Function.update_of_ne
      rintro rfl
      rcases hn' with hn' | rfl
      · exact (hb a (List.mem_cons_of_mem _ ha)).2 hn'
      · exact (List.nodup_cons.mp hxs).1 ha
    · intro a ha
      rw [← hn, List.dropLast_concat] at ha
      apply Function.update_of_ne
      rintro rfl
      exact (hb a hp').2 ha
    · intro a ha
      rw [List.tail_cons] at ha
      apply Function.update_of_ne
      rintro rfl
      rw [hn] at hys
      exact (List.nodup_cons.mp hys).1 ha
  · rw [← List.cons_append, List.nodup_append']
    exact ⟨hxs, (List.nodup_cons.mp hbys).2, List.disjoint_left.mpr fun a ha => (hb a ha).2⟩

/-- A node outside a ring can be put behind its head. -/
theorem Links.Ring.linkFirst (hl : l.Ring h xs) (hb : b ∉ h :: xs) :
    (l.linkFirst h b).Ring h (b :: xs) := by
  obtain ⟨hjoined, hnodup⟩ := hl
  obtain ⟨n, vs, hn⟩ : ∃ n vs, xs ++ [h] = n :: vs := List.exists_cons_of_ne_nil (by simp)
  rw [List.cons_append, hn, List.isChain_cons_cons] at hjoined
  obtain ⟨⟨hnexth, -⟩, hright⟩ := hjoined
  rw [List.mem_cons, not_or] at hb
  obtain ⟨hbh, hbxs⟩ := hb
  obtain ⟨hhxs, hxs⟩ := List.nodup_cons.mp hnodup
  have hmem : ∀ a, a = n ∨ a ∈ vs → a ∈ xs ∨ a = h := by
    intro a ha
    have hmem : a ∈ xs ++ [h] := by rw [hn]; simpa using ha
    simpa using hmem
  have hnb : b ≠ n := by
    rintro rfl
    exact (hmem b (Or.inl rfl)).elim hbxs hbh
  have hlinks : l.linkFirst h b = ⟨Function.update (Function.update l.next b n) h b,
      Function.update (Function.update l.prev b h) n b⟩ := by
    rw [Links.linkFirst, hnexth, Function.update_of_ne (Ne.symm hbh), hnexth]
  have hnvs : n ∉ vs := by
    have hconcat : (xs ++ [h]).Nodup := by
      rw [List.nodup_append']
      exact ⟨hxs, List.nodup_singleton h, List.disjoint_singleton.mpr hhxs⟩
    rw [hn] at hconcat
    exact (List.nodup_cons.mp hconcat).1
  rw [hlinks]
  constructor
  · rw [List.cons_append, List.cons_append, hn, List.isChain_cons_cons, List.isChain_cons_cons]
    refine ⟨⟨Function.update_self .., ?_⟩, ⟨?_, Function.update_self ..⟩,
      isChain_of_frame hright ?_ ?_⟩
    · dsimp only
      rw [Function.update_of_ne hnb, Function.update_self]
    · dsimp only
      rw [Function.update_of_ne hbh, Function.update_self]
    · intro a ha
      rw [← hn, List.dropLast_concat] at ha
      rw [Function.update_of_ne (ne_of_mem_of_not_mem ha hhxs),
        Function.update_of_ne (ne_of_mem_of_not_mem ha hbxs)]
    · intro a ha
      rw [List.tail_cons] at ha
      rw [Function.update_of_ne (ne_of_mem_of_not_mem ha hnvs), Function.update_of_ne]
      rintro rfl
      exact (hmem a (Or.inr ha)).elim hbxs hbh
  · rw [List.nodup_cons, List.mem_cons, not_or]
    exact ⟨⟨Ne.symm hbh, hhxs⟩, List.nodup_cons.mpr ⟨hbxs, hxs⟩⟩

end Edit

theorem Links.Ring.reverse (hl : l.Ring h xs) : (⟨l.prev, l.next⟩ : Links α).Ring h xs.reverse where
  joined := by
    have hjoined := List.isChain_reverse.mpr hl.joined
    have hreverse : (h :: xs ++ [h]).reverse = h :: xs.reverse ++ [h] := by simp
    rw [hreverse] at hjoined
    exact hjoined.imp fun a b hab => ⟨hab.2, hab.1⟩
  nodup := by
    have hnodup := List.nodup_cons.mp hl.nodup
    rw [List.nodup_cons, List.mem_reverse, List.nodup_reverse]
    exact hnodup

/-! ## Walking -/

section Walk

variable [DecidableEq α] {p : α → Bool}

/-- A loop from `c` along `next` up to the first node with a property; `none` if it ends at the
head, and nothing at all if it does not end within `n` nodes. -/
def find (next : α → α) (h : α) (p : α → Bool) : ℕ → α → Option (Option α)
  | 0, _ => none
  | n + 1, c =>
    if c = h then some none
    else if p c then some (some c)
    else find next h p n (next c)

/-- The loop finds what a search through the nodes of the ring finds. -/
theorem Links.Ring.find_eq (hl : l.Ring h xs) {n : ℕ} (hn : xs.length < n) :
    find l.next h p n (l.next h) = some (xs.find? p) := by
  obtain ⟨hjoined, hnodup⟩ := hl
  have hwalk : ∀ (zs : List α) (a : α) (n : ℕ), (a :: zs ++ [h]).IsChain l.Joined → h ∉ zs →
      zs.length < n → find l.next h p n (l.next a) = some (zs.find? p) := by
    intro zs
    induction zs with
    | nil =>
      intro a n hchain _ hn
      rw [List.cons_append, List.nil_append, List.isChain_pair] at hchain
      cases n with
      | zero => cases hn
      | succ n => rw [hchain.1, find, if_pos rfl, List.find?_nil]
    | cons b zs ih =>
      intro a n hchain hh hn
      rw [List.mem_cons, not_or] at hh
      rw [List.cons_append, List.cons_append, List.isChain_cons_cons] at hchain
      cases n with
      | zero => cases hn
      | succ n =>
        rw [hchain.1.1, find, if_neg (Ne.symm hh.1), List.find?_cons]
        cases hp : p b with
        | true => simp
        | false =>
          simp only [Bool.false_eq_true, if_false]
          exact ih b n hchain.2 hh.2 (by simpa using hn)
  exact hwalk xs h n hjoined (List.nodup_cons.mp hnodup).1 hn

end Walk

end CircularList
