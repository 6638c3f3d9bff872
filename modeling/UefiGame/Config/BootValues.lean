import Mathlib.Data.List.Chain
import UefiGame.Config.BootLines

/-! # The values of the boot configuration

Of a line `key: value` the scanner keeps the end of the value, shorter by one
byte for every further marker in it. So a value is returned whole just when it
has no marker, and when its line has a field to go to.
-/

namespace UefiGame

/-- The marker between the key and the value of a line. -/
def marker : List CHAR8 := [colon, space]

/-- One newline-terminated line `key: value`. -/
def lineText (key value : List CHAR8) : List CHAR8 := key ++ marker ++ value ++ [newline]

/-- The lines of the current block above a line. -/
def blockAbove (before : List (List CHAR8)) : List (List CHAR8) :=
  before.rtakeWhile fun line => line ≠ []

/-- The lines are an empty one and the beginning of the block below it. -/
def UnderFirstBlank (before : List (List CHAR8)) : Prop :=
  before.head? = some [] ∧ [] ∉ before.tail

instance (before : List (List CHAR8)) : Decidable (UnderFirstBlank before) :=
  inferInstanceAs (Decidable (_ ∧ _))

section Value

variable {convert : AsciiStrToUnicodeStrS} {max : ℕ} {key value : List CHAR8} {p : CHAR8}
  {before : List (List CHAR8)}

/-- No marker ends in a segment that follows the byte `p`. -/
abbrev NoMarker (p : CHAR8) (seg : List CHAR8) : Prop :=
  (p :: seg).IsChain fun a b => ¬ (b = space ∧ a = colon)

theorem noMarker_iff (p : CHAR8) (seg : List CHAR8) :
    NoMarker p seg ↔ ¬ marker <:+: p :: seg := by
  rw [NoMarker, List.isChain_iff_forall_rel_of_append_cons_cons]
  constructor
  · rintro h ⟨l₁, l₂, he⟩
    rw [marker, List.append_assoc] at he
    exact h he.symm ⟨rfl, rfl⟩
  · rintro h a b l₁ l₂ he ⟨rfl, rfl⟩
    exact h ⟨l₁, l₂, by rw [he, marker, List.append_assoc]; rfl⟩

theorem noMarker_iff_of_ne (hp : p ≠ colon) (seg : List CHAR8) :
    NoMarker p seg ↔ ¬ marker <:+: seg := by
  rw [noMarker_iff, List.infix_cons_iff, marker, List.cons_prefix_cons]
  tauto

theorem counted_of_noMarker {w : Bool} {seg : List CHAR8} (h : NoMarker p seg) (rest : List CHAR8) :
    counted p w (seg ++ rest) =
      (if w then seg.length else 0) + counted (seg.getLastD p) w rest := by
  induction seg generalizing p with
  | nil => simp
  | cons c seg ih =>
    rw [NoMarker, List.isChain_cons_cons] at h
    rw [List.cons_append, counted, if_neg h.1, ih h.2]
    cases w <;> simp [List.getLast?_cons, Nat.add_assoc, Nat.add_left_comm]

theorem counted_eq_length_iff (p : CHAR8) (seg : List CHAR8) :
    counted p true seg = seg.length ↔ NoMarker p seg := by
  constructor
  · intro h
    induction seg generalizing p with
    | nil => exact List.isChain_singleton p
    | cons c seg ih =>
      have hle := counted_le_length c true seg
      rw [counted, List.length_cons] at h
      by_cases hm : c = space ∧ p = colon
      · rw [if_pos hm] at h
        omega
      · rw [if_neg hm, if_pos rfl, Nat.add_comm] at h
        exact List.isChain_cons_cons.mpr ⟨hm, ih c (Nat.succ_injective h)⟩
  · intro h
    simpa [counted] using counted_of_noMarker (w := true) h []

theorem counted_line (hkey : ¬ marker <:+: key) (value : List CHAR8) :
    counted newline false (key ++ marker ++ value) = counted space true value := by
  have hn : newline ≠ colon := by decide
  have hcolon : NoMarker newline (key ++ [colon]) := by
    rw [NoMarker, ← List.cons_append, List.isChain_append]
    refine ⟨(noMarker_iff_of_ne hn key).mpr hkey, List.isChain_singleton colon, ?_⟩
    rintro a - b hb ⟨rfl, -⟩
    cases hb
  have hsplit : key ++ marker ++ value = (key ++ [colon]) ++ (space :: value) := by
    simp [marker]
  rw [hsplit, counted_of_noMarker hcolon, List.getLastD_concat]
  simp [counted]

theorem keptPart_line (hkey : ¬ marker <:+: key) (value : List CHAR8) :
    keptPart (key ++ marker ++ value) = value.rtake (counted space true value) := by
  have hle := counted_le_length space true value
  have hlen : (key ++ marker ++ value).length - counted space true value =
      (key ++ marker).length + (value.length - counted space true value) := by
    rw [List.length_append]
    omega
  rw [keptPart, counted_line hkey, List.rtake, List.rtake, hlen, List.drop_length_add_append]

theorem converted_line (hconv : convert.Documented max) (hkey : ¬ marker <:+: key)
    (hvalue : ∀ c ∈ value, c ≠ 0 ∧ c.toNat < 128) (hmax : KitAllows max (value.length + 1)) :
    converted convert (key ++ marker ++ value) =
      (EFI_SUCCESS, (value.rtake (counted space true value)).map (BitVec.setWidth 16)) := by
  rw [converted, keptPart_line hkey]
  apply hconv
  · intro c hc
    exact hvalue c (List.mem_of_mem_drop hc)
  · exact Nat.lt_succ_self _
  · exact hmax.mono (Nat.succ_le_succ (by simp [List.rtake]))

theorem converted_line_eq_iff (hconv : convert.Documented max) (hkey : ¬ marker <:+: key)
    (hvalue : ∀ c ∈ value, c ≠ 0 ∧ c.toNat < 128) (hmax : KitAllows max (value.length + 1)) :
    (converted convert (key ++ marker ++ value)).2 = value.map (BitVec.setWidth 16) ↔
      ¬ marker <:+: value := by
  have hs : space ≠ colon := by decide
  rw [converted_line hconv hkey hvalue hmax, ← noMarker_iff_of_ne hs, ← counted_eq_length_iff]
  constructor
  · intro h
    have hlen := congrArg List.length h
    have hle := counted_le_length space true value
    simp only [List.length_map, List.rtake, List.length_drop] at hlen
    omega
  · intro h
    rw [h, List.rtake, Nat.sub_self, List.drop_zero]

theorem blockAbove_append_singleton (before : List (List CHAR8)) (line : List CHAR8) :
    (blockAbove (before ++ [line])).length =
      if line = [] then 0 else (blockAbove before).length + 1 := by
  by_cases hline : line = []
  · simp [blockAbove, hline]
  · simp [blockAbove, hline]

theorem underFirstBlank_append_singleton (hne : before ≠ []) (line : List CHAR8) :
    UnderFirstBlank (before ++ [line]) ↔ UnderFirstBlank before ∧ line ≠ [] := by
  cases before with
  | nil => exact absurd rfl hne
  | cons first before => simp [UnderFirstBlank, and_assoc, eq_comm]

/-- The field a line goes to is its number in its block, one more below a blank first line. -/
theorem snd_slotAfter (before : List (List CHAR8)) :
    (slotAfter before).2 =
      (blockAbove before).length + if UnderFirstBlank before then 1 else 0 := by
  induction before using List.reverseRecOn with
  | nil => rfl
  | append_singleton before line ih =>
    rw [blockAbove_append_singleton]
    by_cases hne : before = []
    · subst hne
      by_cases hline : line = [] <;> simp [slotAfter, UnderFirstBlank, hline, blockAbove]
    · rw [slotAfter_append_singleton hne, nextSlot]
      by_cases hline : line = []
      · simp [hline, underFirstBlank_append_singleton hne]
      · simp [hline, underFirstBlank_append_singleton hne, ih, Nat.add_right_comm]

end Value

/-- `ParseConfigFile` returns the value of a line `key: value` as the string of that line. -/
def KeepsValue (convert : AsciiStrToUnicodeStrS) (before : List (List CHAR8))
    (key value after : List CHAR8) : Prop :=
  storedAt convert (linesText before ++ lineText key value ++ after)
      (linesText before ++ (key ++ marker ++ value)).length =
    some (value.map (BitVec.setWidth 16))

/-- The value of one of the first five lines of a block is kept just when it has no marker in it,
and the line is not the fifth below a blank line that begins the file. -/
theorem keepsValue_iff {convert : AsciiStrToUnicodeStrS} {max : ℕ} (hconv : convert.Documented max)
    {before : List (List CHAR8)} {key value : List CHAR8} (after : List CHAR8)
    (hbefore : ∀ l ∈ before, newline ∉ l) (hkey : newline ∉ key) (hmarker : ¬ marker <:+: key)
    (hnewline : newline ∉ value) (hvalue : ∀ c ∈ value, c ≠ 0 ∧ c.toNat < 128)
    (hmax : KitAllows max (value.length + 1)) (hfive : (blockAbove before).length < 5) :
    KeepsValue convert before key value after ↔
      ¬ marker <:+: value ∧ ¬ (UnderFirstBlank before ∧ (blockAbove before).length = 4) := by
  have hline : newline ∉ key ++ marker ++ value := by
    have hm : newline ∉ marker := by decide
    simp only [List.mem_append, not_or]
    exact ⟨⟨hkey, hm⟩, hnewline⟩
  have hne : key ++ marker ++ value ≠ [] := by simp [marker]
  have hstored := storedAt_line convert before (key ++ marker ++ value) after hbefore hline hne rfl
  have htext : linesText before ++ lineText key value ++ after =
      linesText before ++ (key ++ marker ++ value) ++ newline :: after := by
    simp [lineText]
  rw [KeepsValue, htext, hstored, snd_slotAfter,
    ← converted_line_eq_iff hconv hmarker hvalue hmax]
  by_cases hslot : UnderFirstBlank before ∧ (blockAbove before).length = 4
  · simp [hslot]
  · have hlt : (blockAbove before).length + (if UnderFirstBlank before then 1 else 0) < 5 := by
      split_ifs with hblank
      · have hfour : (blockAbove before).length ≠ 4 := fun h => hslot ⟨hblank, h⟩
        omega
      · omega
    simp [hslot, hlt]

/-- A title with a colon followed by a blank loses bytes at its front. -/
theorem not_keepsValue_twoMarkers :
    ¬ KeepsValue asciiStrToUnicodeStrS [] [116] [97, colon, space, 98] [] := by
  unfold KeepsValue
  decide +kernel

theorem keepsValue_iff_twoMarkers :
    KeepsValue asciiStrToUnicodeStrS [] [116] [97, colon, space, 98] [] ↔
      ¬ marker <:+: [97, colon, space, 98] ∧
        ¬ (UnderFirstBlank [] ∧ (blockAbove []).length = 4) :=
  keepsValue_iff asciiStrToUnicodeStrS_documented [] (List.forall_mem_nil _) (by decide) (by decide)
    (by decide) (by decide) (Or.inl rfl) (by decide)

end UefiGame
