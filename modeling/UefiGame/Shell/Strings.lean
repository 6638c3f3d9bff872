import Mathlib.Data.List.Basic
import UefiGame.Shell.Sound

/-! # Terminating the words of a line

The zeros are written where words end, so they hit symbols, space or the end of
the line, and never a word. After that each pointer to a word is a string.
-/

namespace UefiGame.Shell

open List

variable {n : ℕ} {line w mem : List CHAR8} {cmd : Cmd} {c : Command} {ps : List Ptr} {p : Ptr}

/-- The pointers to the ends of the words of a command. -/
def Cmd.ends : Cmd → List Ptr
  | exec args => args.map Prod.snd
  | redir cmd _ efile _ _ => cmd.ends ++ [efile]
  | pipe left right => left.ends ++ right.ends
  | list left right => left.ends ++ right.ends
  | back cmd => cmd.ends

theorem nulterminate_eq (cmd : Cmd) (mem : List CHAR8) :
    nulterminate n cmd mem = cmd.ends.foldl (zeroAt n) mem := by
  induction cmd generalizing mem with
  | exec args => rw [nulterminate, Cmd.ends, foldl_map]
  | redir cmd file efile mode fd ih =>
    rw [nulterminate, Cmd.ends, foldl_append, ih]
    rfl
  | pipe left right ihl ihr => rw [nulterminate, Cmd.ends, foldl_append, ihl, ihr]
  | list left right ihl ihr => rw [nulterminate, Cmd.ends, foldl_append, ihl, ihr]
  | back cmd ih => rw [nulterminate, Cmd.ends, ih]

theorem getElem?_zeroAll_of_ne {i : ℕ} (h : ∀ p ∈ ps, n - p.length ≠ i) :
    (ps.foldl (zeroAt n) mem)[i]? = mem[i]? := by
  induction ps generalizing mem with
  | nil => rfl
  | cons p ps ih =>
    rw [forall_mem_cons] at h
    rw [foldl_cons, ih h.2, zeroAt, getElem?_set_ne h.1]

theorem getElem?_zeroAll_of_zero {i : ℕ} (h : mem[i]? = some 0) :
    (ps.foldl (zeroAt n) mem)[i]? = some 0 := by
  induction ps generalizing mem with
  | nil => exact h
  | cons p ps ih =>
    refine ih ?_
    by_cases hi : n - p.length = i
    · rw [zeroAt, hi, getElem?_set_self (List.getElem?_eq_some_iff.mp h).1]
    · rw [zeroAt, getElem?_set_ne hi, h]

theorem getElem?_zeroAll_of_mem (hp : p ∈ ps) (hlt : n - p.length < mem.length) :
    (ps.foldl (zeroAt n) mem)[n - p.length]? = some 0 := by
  induction ps generalizing mem with
  | nil => cases hp
  | cons q ps ih =>
    rw [foldl_cons]
    rcases mem_cons.mp hp with rfl | hp
    · refine getElem?_zeroAll_of_zero ?_
      rw [zeroAt, getElem?_set_self hlt]
    · exact ih hp (by rwa [zeroAt, length_set])

theorem takeWhile_eq_of_zero (hw : ∀ d ∈ w, d ≠ 0) (h : ∀ i < w.length, mem[i]? = w[i]?)
    (hzero : mem[w.length]? = some 0) : mem.takeWhile (· ≠ 0) = w := by
  induction w generalizing mem with
  | nil =>
    cases mem with
    | nil => rfl
    | cons d mem =>
      obtain rfl := Option.some.inj hzero
      exact takeWhile_cons_of_neg (by simp)
  | cons d w ih =>
    cases mem with
    | nil => cases hzero
    | cons e mem =>
      rw [forall_mem_cons] at hw
      obtain rfl := Option.some.inj (h 0 (Nat.succ_pos _))
      rw [takeWhile_cons_of_pos (by simpa using hw.1),
        ih hw.2 (fun i hi => h (i + 1) (Nat.succ_lt_succ hi)) hzero]

/-- An end of a word, which is no character of one. -/
structure IsEnd (line : List CHAR8) (p : Ptr) : Prop where
  suffix : p <:+ line
  ends : ∀ c ∈ p.head?, isPlain c = false

theorem Slice.isEnd {arg : Ptr × Ptr} (h : Slice line w arg) : IsEnd line arg.2 where
  suffix := by
    refine IsSuffix.trans ?_ h.suffix
    rw [h.eq]
    exact suffix_append w arg.2
  ends := h.isWord.ends

theorem Reads.isEnd (h : Reads line cmd c) : ∀ p ∈ cmd.ends, IsEnd line p := by
  induction h with
  | exec h =>
    rename_i args argv
    intro p hp
    obtain ⟨arg, harg, rfl⟩ := mem_map.mp hp
    clear hp
    induction h with
    | nil => cases harg
    | cons hslice _ ih =>
      rcases mem_cons.mp harg with rfl | harg
      · exact hslice.isEnd
      · exact ih harg
  | redir mode fd _ hw ih =>
    intro p hp
    rcases mem_append.mp hp with hp | hp
    · exact ih p hp
    · obtain rfl := mem_singleton.mp hp
      exact hw.isEnd
  | pipe _ _ ihl ihr => exact fun p hp => (mem_append.mp hp).elim (ihl p) (ihr p)
  | list _ _ ihl ihr => exact fun p hp => (mem_append.mp hp).elim (ihl p) (ihr p)
  | back _ ih => exact ih

/-- The string at a pointer to a word, once there are zeros at the ends of words,
its own among them. -/
theorem Slice.stringAt_eq {arg : Ptr × Ptr} (h : Slice line w arg) (hzero : 0 ∉ line)
    (hps : ∀ p ∈ ps, IsEnd line p) (hmem : arg.2 ∈ ps) :
    stringAt line.length (ps.foldl (zeroAt line.length) (line ++ [0])) arg.1 = w := by
  obtain ⟨pre, hpre⟩ := h.suffix
  rw [h.eq] at hpre
  have hlen : line.length = pre.length + w.length + arg.2.length := by
    rw [← hpre]
    simp [Nat.add_assoc]
  have hstart : line.length - arg.1.length = pre.length := by
    rw [h.eq, length_append]
    omega
  rw [stringAt, hstart]
  apply takeWhile_eq_of_zero
  · rintro d hd rfl
    apply hzero
    rw [← hpre]
    exact mem_append_right _ (mem_append_left _ hd)
  · intro i hi
    rw [getElem?_drop, getElem?_zeroAll_of_ne, getElem?_append_left (by omega), ← hpre,
      getElem?_append_right (by omega), Nat.add_sub_cancel_left, getElem?_append_left hi]
    -- an end of a word inside this one would be one of its characters
    intro p hp hpos
    obtain ⟨pre', hpre'⟩ := (hps p hp).suffix
    have hlen' : line.length = pre'.length + p.length := by rw [← hpre', length_append]
    have hhead : p.head? = some w[i] := by
      have hget : (pre ++ (w ++ arg.2))[pre.length + i]? = some w[i] := by
        rw [getElem?_append_right (by omega), Nat.add_sub_cancel_left, getElem?_append_left hi,
          getElem?_eq_getElem hi]
      rw [hpre, ← hpre', getElem?_append_right (by omega)] at hget
      rw [head?_eq_getElem?, ← hget]
      congr 1
      omega
    have hplain := h.isWord.plain w[i] (getElem_mem hi)
    rw [(hps p hp).ends w[i] hhead] at hplain
    exact absurd hplain Bool.false_ne_true
  · rw [getElem?_drop]
    have hpos : pre.length + w.length = line.length - arg.2.length := by omega
    rw [hpos, getElem?_zeroAll_of_mem hmem]
    rw [length_append, length_singleton]
    omega

theorem Reads.read_eq (h : Reads line cmd c)
    (hmem : ∀ w arg, Slice line w arg → arg.2 ∈ cmd.ends → stringAt n mem arg.1 = w) :
    cmd.read n mem = c := by
  induction h with
  | exec h =>
    rename_i args argv
    rw [Cmd.read]
    congr 1
    induction h with
    | nil => rfl
    | cons hslice _ ih =>
      rename_i w arg _ _ _
      rw [map_cons, hmem w arg hslice (by simp [Cmd.ends]), ih fun w arg hs hm => hmem w arg hs ?_]
      rw [Cmd.ends, map_cons]
      exact mem_cons_of_mem _ hm
  | redir mode fd _ hw ih =>
    rename_i file efile _ _
    rw [Cmd.read, ← hmem _ _ hw (mem_append_right _ (mem_singleton_self _)),
      ih fun w arg hs hm => hmem w arg hs (mem_append_left _ hm)]
  | pipe _ _ ihl ihr =>
    rw [Cmd.read, ihl fun w arg hs hm => hmem w arg hs (mem_append_left _ hm),
      ihr fun w arg hs hm => hmem w arg hs (mem_append_right _ hm)]
  | list _ _ ihl ihr =>
    rw [Cmd.read, ihl fun w arg hs hm => hmem w arg hs (mem_append_left _ hm),
      ihr fun w arg hs hm => hmem w arg hs (mem_append_right _ hm)]
  | back _ ih => rw [Cmd.read, ih hmem]

/-- After `nulterminate` the strings of a command are the words of the line. -/
theorem Reads.read_nulterminate (h : Reads line cmd c) (hzero : 0 ∉ line) :
    cmd.read line.length (nulterminate line.length cmd (line ++ [0])) = c := by
  rw [nulterminate_eq]
  exact h.read_eq fun w arg hslice hmem => hslice.stringAt_eq hzero h.isEnd hmem

end UefiGame.Shell
