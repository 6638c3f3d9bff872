import Mathlib.Data.List.TakeWhile
import Mathlib.Data.Nat.Digits.Defs

/-! # Signed decimal numerals

Integers are printed in decimal, most significant digit first, after a minus
sign where they are negative. Scanning skips white space and reads the longest
signed numeral; it recovers a printed integer and the number of bytes it took.
-/

namespace Decimal

def minus : BitVec 8 := 45
def plus : BitVec 8 := 43

/-- White space in the C locale. -/
def isSpace (c : BitVec 8) : Bool := c = 32 ∨ (9 ≤ c.toNat ∧ c.toNat ≤ 13)

def isDigit (c : BitVec 8) : Bool := 48 ≤ c.toNat ∧ c.toNat ≤ 57

def isSign (c : BitVec 8) : Bool := c = minus ∨ c = plus

def digitByte (d : ℕ) : BitVec 8 := BitVec.ofNat 8 (48 + d)

def digitValue (c : BitVec 8) : ℕ := c.toNat - 48

/-- The number a string of digits denotes. -/
def value (cs : List (BitVec 8)) : ℕ := Nat.ofDigits 10 (cs.reverse.map digitValue)

def natural (n : ℕ) : List (BitVec 8) :=
  if n = 0 then [digitByte 0] else ((Nat.digits 10 n).map digitByte).reverse

def signed (z : ℤ) : List (BitVec 8) :=
  if z < 0 then minus :: natural z.natAbs else natural z.natAbs

/-- The longest signed numeral after white space, and the number of bytes up to its end. -/
def scan (cs : List (BitVec 8)) : Option (ℤ × ℕ) :=
  let blanks := cs.takeWhile isSpace
  let body := cs.dropWhile isSpace
  let sign := (body.take 1).filter isSign
  let digits := (body.drop sign.length).takeWhile isDigit
  if digits = [] then none
  else some (if sign = [minus] then -(value digits : ℤ) else value digits,
    blanks.length + (sign ++ digits).length)

section Digits

variable {c : BitVec 8} {d n : ℕ} {z : ℤ} {ws sign digits rest : List (BitVec 8)}

theorem toNat_digitByte (hd : d < 10) : (digitByte d).toNat = 48 + d := by
  rw [digitByte, BitVec.toNat_ofNat, Nat.mod_eq_of_lt (by omega)]

theorem isDigit_digitByte (hd : d < 10) : isDigit (digitByte d) = true := by
  simp only [isDigit, toNat_digitByte hd, decide_eq_true_eq]
  omega

theorem digitValue_digitByte (hd : d < 10) : digitValue (digitByte d) = d := by
  rw [digitValue, toNat_digitByte hd, Nat.add_sub_cancel_left]

theorem value_natural (n : ℕ) : value (natural n) = n := by
  unfold natural
  split_ifs with h
  · rw [h]; rfl
  · have hdigits : ((Nat.digits 10 n).map digitByte).map digitValue = Nat.digits 10 n := by
      rw [List.map_map]
      refine (List.map_congr_left fun d hd => ?_).trans (List.map_id _)
      exact digitValue_digitByte (Nat.digits_lt_base (by omega) hd)
    rw [value, List.reverse_reverse, hdigits, Nat.ofDigits_digits]

theorem natural_ne_nil (n : ℕ) : natural n ≠ [] := by
  unfold natural
  split_ifs with h
  · simp
  · simpa [Nat.digits_eq_nil_iff_eq_zero] using h

theorem isDigit_of_mem_natural (hc : c ∈ natural n) : isDigit c = true := by
  unfold natural at hc
  split_ifs at hc with h
  · rw [List.mem_singleton.mp hc]; exact isDigit_digitByte (by omega)
  · obtain ⟨d, hd, rfl⟩ := List.mem_map.mp (List.mem_reverse.mp hc)
    exact isDigit_digitByte (Nat.digits_lt_base (by omega) hd)

theorem isSpace_of_isDigit (h : isDigit c = true) : isSpace c = false := by
  simp only [isDigit, decide_eq_true_eq] at h
  simp only [isSpace, decide_eq_false_iff_not]
  bv_omega

theorem isSign_of_isDigit (h : isDigit c = true) : isSign c = false := by
  simp only [isDigit, decide_eq_true_eq] at h
  rw [isSign, decide_eq_false_iff_not, minus, plus]
  bv_omega

theorem takeWhile_isDigit (hd : ∀ c ∈ digits, isDigit c = true)
    (hrest : ∀ c ∈ rest.head?, isDigit c = false) :
    (digits ++ rest).takeWhile isDigit = digits := by
  rw [List.takeWhile_append_of_pos hd]
  cases rest with
  | nil => simp
  | cons c rest =>
    rw [List.takeWhile_cons_of_neg (by simp [hrest c rfl]), List.append_nil]

theorem scan_of_digits (hws : ∀ c ∈ ws, isSpace c = true)
    (hs : sign = [] ∨ sign = [minus] ∨ sign = [plus]) (hne : digits ≠ [])
    (hd : ∀ c ∈ digits, isDigit c = true)
    (hrest : ∀ c ∈ rest.head?, isDigit c = false) :
    scan (ws ++ (sign ++ digits ++ rest)) =
      some (if sign = [minus] then -(value digits : ℤ) else value digits,
        ws.length + (sign ++ digits).length) := by
  obtain ⟨d, ds, rfl⟩ := List.exists_cons_of_ne_nil hne
  have hdigit := hd d List.mem_cons_self
  have hstart : (sign ++ (d :: ds) ++ rest).takeWhile isSpace = [] ∧
      (sign ++ (d :: ds) ++ rest).dropWhile isSpace = sign ++ (d :: ds) ++ rest := by
    rcases hs with rfl | rfl | rfl
    · simp [isSpace_of_isDigit hdigit]
    · simp [show isSpace minus = false by decide]
    · simp [show isSpace plus = false by decide]
  have hsign : ((sign ++ (d :: ds) ++ rest).take 1).filter isSign = sign := by
    rcases hs with rfl | rfl | rfl
    · simp [isSign_of_isDigit hdigit]
    · simp [show isSign minus = true by decide]
    · simp [show isSign plus = true by decide]
  have hdigits : ((sign ++ (d :: ds) ++ rest).drop sign.length).takeWhile isDigit = d :: ds := by
    rw [List.append_assoc, List.drop_left, takeWhile_isDigit hd hrest]
  simp only [scan, List.takeWhile_append_of_pos hws, List.dropWhile_append_of_pos hws, hstart.1,
    hstart.2, hsign, hdigits, List.append_nil]
  rw [if_neg hne]

theorem scan_signed (hws : ∀ c ∈ ws, isSpace c = true)
    (hrest : ∀ c ∈ rest.head?, isDigit c = false) :
    scan (ws ++ (signed z ++ rest)) = some (z, ws.length + (signed z).length) := by
  have hdigit : ∀ c ∈ natural z.natAbs, isDigit c = true := fun c hc => isDigit_of_mem_natural hc
  unfold signed
  split_ifs with hz
  · have h := scan_of_digits hws (Or.inr (Or.inl rfl)) (natural_ne_nil _) hdigit hrest
    rw [List.singleton_append] at h
    rw [h, if_pos rfl, value_natural]
    congr 2
    omega
  · have h := scan_of_digits hws (Or.inl rfl) (natural_ne_nil _) hdigit hrest
    rw [List.nil_append] at h
    rw [h, if_neg (by simp), value_natural]
    congr 2
    omega

theorem signed_ne_nil (z : ℤ) : signed z ≠ [] := by
  unfold signed
  split_ifs
  · simp
  · exact natural_ne_nil _

theorem isSpace_of_mem_signed (hc : c ∈ signed z) : isSpace c = false := by
  unfold signed at hc
  split_ifs at hc
  · rcases List.mem_cons.mp hc with rfl | hc
    · decide
    · exact isSpace_of_isDigit (isDigit_of_mem_natural hc)
  · exact isSpace_of_isDigit (isDigit_of_mem_natural hc)

end Digits

/-! ## What a successful scan saw -/

section Scan

variable {cs tail ws : List (BitVec 8)} {z : ℤ} {n : ℕ}

/-- The parts of a text that begins with a numeral. -/
structure Numeral (cs : List (BitVec 8)) (z : ℤ) (n : ℕ) where
  blanks : List (BitVec 8)
  sign : List (BitVec 8)
  digits : List (BitVec 8)
  rest : List (BitVec 8)
  eq_append : cs = blanks ++ (sign ++ digits ++ rest)
  isSpace_of_mem : ∀ c ∈ blanks, isSpace c = true
  sign_cases : sign = [] ∨ sign = [minus] ∨ sign = [plus]
  digits_ne_nil : digits ≠ []
  isDigit_of_mem : ∀ c ∈ digits, isDigit c = true
  not_isDigit : ∀ c ∈ rest.head?, isDigit c = false
  int_eq : z = if sign = [minus] then -(value digits : ℤ) else value digits
  length_eq : n = blanks.length + (sign ++ digits).length

theorem filter_isSign_take_one (body : List (BitVec 8)) :
    ((body.take 1).filter isSign = [] ∨ (body.take 1).filter isSign = [minus] ∨
      (body.take 1).filter isSign = [plus]) ∧
    (body.take 1).filter isSign ++ body.drop ((body.take 1).filter isSign).length = body := by
  cases body with
  | nil => simp
  | cons c body =>
    cases hc : isSign c with
    | false => simp [hc]
    | true =>
      rw [isSign, decide_eq_true_eq] at hc
      rcases hc with rfl | rfl
      · simp [show isSign minus = true by decide]
      · simp [show isSign plus = true by decide]

theorem numeral_of_scan (h : scan cs = some (z, n)) : Nonempty (Numeral cs z n) := by
  obtain ⟨hsign, hbody⟩ := filter_isSign_take_one (cs.dropWhile isSpace)
  have hblanks : cs.takeWhile isSpace ++ cs.dropWhile isSpace = cs :=
    List.takeWhile_append_dropWhile
  simp only [scan] at h
  generalize cs.dropWhile isSpace = body at h hsign hbody hblanks
  generalize (body.take 1).filter isSign = sign at h hsign hbody
  generalize body.drop sign.length = tail at h hbody
  by_cases hdigits : tail.takeWhile isDigit = []
  · rw [if_pos hdigits] at h
    cases h
  · rw [if_neg hdigits] at h
    obtain ⟨rfl, rfl⟩ := Prod.mk.inj (Option.some.inj h)
    refine ⟨⟨cs.takeWhile isSpace, sign, tail.takeWhile isDigit, tail.dropWhile isDigit, ?_, ?_,
      hsign, hdigits, ?_, ?_, rfl, rfl⟩⟩
    · rw [List.append_assoc, List.takeWhile_append_dropWhile, hbody, hblanks]
    · exact fun c hc => List.mem_takeWhile_imp hc
    · exact fun c hc => List.mem_takeWhile_imp hc
    · intro c hc
      have hnot := List.head?_dropWhile_not isDigit tail
      rw [Option.mem_def.mp hc] at hnot
      exact hnot

theorem scan_bounds (h : scan cs = some (z, n)) : 0 < n ∧ n ≤ cs.length := by
  obtain ⟨N⟩ := numeral_of_scan h
  have hpos := List.length_pos_iff.mpr N.digits_ne_nil
  have hlen := congrArg List.length N.eq_append
  have hn := N.length_eq
  simp only [List.length_append] at hlen hn
  omega

theorem scan_skip (hws : ∀ c ∈ ws, isSpace c = true) (h : scan cs = some (z, n)) :
    scan (ws ++ cs) = some (z, ws.length + n) := by
  obtain ⟨N⟩ := numeral_of_scan h
  have hblanks : ∀ c ∈ ws ++ N.blanks, isSpace c = true := by
    intro c hc
    rcases List.mem_append.mp hc with hc | hc
    · exact hws c hc
    · exact N.isSpace_of_mem c hc
  have happend : ws ++ cs = ws ++ N.blanks ++ (N.sign ++ N.digits ++ N.rest) := by
    conv_lhs => rw [N.eq_append]
    simp only [List.append_assoc]
  rw [happend, scan_of_digits hblanks N.sign_cases N.digits_ne_nil N.isDigit_of_mem N.not_isDigit,
    ← N.int_eq, List.length_append, Nat.add_assoc, ← N.length_eq]

end Scan

/-! ## Texts scanned as the beginning of longer ones -/

section Prefix

variable {cs tail : List (BitVec 8)} {z : ℤ} {n : ℕ}

/-- The sign after the white space, if there is one. -/
def signOf (cs : List (BitVec 8)) : List (BitVec 8) := ((cs.dropWhile isSpace).take 1).filter isSign

/-- The text after white space and sign. -/
def afterSign (cs : List (BitVec 8)) : List (BitVec 8) :=
  (cs.dropWhile isSpace).drop (signOf cs).length

/-- The scan of the text meets a byte that ends it: one that is no white space, sign or digit in its
place. -/
def Delimited (cs : List (BitVec 8)) : Prop := (afterSign cs).dropWhile isDigit ≠ []

instance (cs : List (BitVec 8)) : Decidable (Delimited cs) := inferInstanceAs (Decidable (_ ≠ _))

/-- A numeral of the given sign. -/
def withSign (sign digits : List (BitVec 8)) : ℤ :=
  if sign = [minus] then -(value digits : ℤ) else value digits

theorem scan_eq (cs : List (BitVec 8)) : scan cs =
    if (afterSign cs).takeWhile isDigit = [] then none
    else some (withSign (signOf cs) ((afterSign cs).takeWhile isDigit),
      (cs.takeWhile isSpace).length + (signOf cs ++ (afterSign cs).takeWhile isDigit).length) := rfl

theorem value_append (as bs : List (BitVec 8)) :
    value (as ++ bs) = value as * 10 ^ bs.length + value bs := by
  unfold value
  rw [List.reverse_append, List.map_append, Nat.ofDigits_append, List.length_map,
    List.length_reverse, Nat.mul_comm, Nat.add_comm]

theorem length_parts (cs : List (BitVec 8)) :
    (cs.takeWhile isSpace).length + (signOf cs).length + (afterSign cs).length = cs.length := by
  obtain ⟨-, hbody⟩ := filter_isSign_take_one (cs.dropWhile isSpace)
  have hcs := congrArg List.length (List.takeWhile_append_dropWhile (p := isSpace) (l := cs))
  have hlen := congrArg List.length hbody
  rw [List.length_append] at hcs hlen
  unfold signOf afterSign signOf
  omega

/-- What follows a text belongs to its last part, unless the text is blank and what follows begins
with white space or a sign. -/
theorem parts_append (tail : List (BitVec 8)) (h : cs.dropWhile isSpace ≠ [] ∨
    ∀ c ∈ tail.head?, isSpace c = false ∧ isSign c = false) :
    (cs ++ tail).takeWhile isSpace = cs.takeWhile isSpace ∧ signOf (cs ++ tail) = signOf cs ∧
      afterSign (cs ++ tail) = afterSign cs ++ tail := by
  unfold afterSign signOf
  by_cases hbody : cs.dropWhile isSpace = []
  · have hhead := h.resolve_left (not_not.mpr hbody)
    have hall : ∀ c ∈ cs, isSpace c = true := List.dropWhile_eq_nil_iff.mp hbody
    rw [List.takeWhile_append_of_pos hall, List.dropWhile_append_of_pos hall, hbody,
      List.takeWhile_eq_self_iff.mpr hall]
    cases tail with
    | nil => simp
    | cons c tail =>
      obtain ⟨hspace, hsign⟩ := hhead c rfl
      simp [hspace, hsign]
  · obtain ⟨c, body, hcons⟩ := List.exists_cons_of_ne_nil hbody
    have hcs := List.takeWhile_append_dropWhile (p := isSpace) (l := cs)
    have hc : isSpace c = false := by
      have hnot := List.head?_dropWhile_not isSpace cs
      rw [hcons] at hnot
      simpa using hnot
    have hall : ∀ c ∈ cs.takeWhile isSpace, isSpace c = true :=
      fun c hc => List.mem_takeWhile_imp hc
    have hsplit : cs ++ tail = cs.takeWhile isSpace ++ (c :: (body ++ tail)) := by
      conv_lhs => rw [← hcs, hcons]
      simp
    have htake : (cs ++ tail).takeWhile isSpace = cs.takeWhile isSpace := by
      rw [hsplit, List.takeWhile_append_of_pos hall, List.takeWhile_cons_of_neg (by simp [hc]),
        List.append_nil]
    have hdrop : (cs ++ tail).dropWhile isSpace = c :: (body ++ tail) := by
      rw [hsplit, List.dropWhile_append_of_pos hall, List.dropWhile_cons_of_neg (by simp [hc])]
    rw [htake, hdrop, hcons]
    refine ⟨rfl, rfl, ?_⟩
    cases hsign : isSign c with
    | true => simp [hsign]
    | false => simp [hsign]

theorem scan_append_of_delimited (h : Delimited cs) (tail : List (BitVec 8)) :
    scan (cs ++ tail) = scan cs := by
  have hbody : cs.dropWhile isSpace ≠ [] := by
    rintro hnil
    rw [Delimited, afterSign, hnil, List.drop_nil] at h
    exact h rfl
  have hdigits : ((afterSign cs).takeWhile isDigit).length ≠ (afterSign cs).length := by
    intro hlen
    have hsplit := congrArg List.length
      (List.takeWhile_append_dropWhile (p := isDigit) (l := afterSign cs))
    rw [List.length_append] at hsplit
    exact h (List.length_eq_zero_iff.mp (by omega))
  obtain ⟨hblanks, hsign, hafter⟩ := parts_append tail (Or.inl hbody)
  rw [scan_eq, scan_eq cs, hblanks, hsign, hafter, List.takeWhile_append, if_neg hdigits]

theorem scan_append_of_not_delimited (h : ¬ Delimited cs) (tail : List (BitVec 8))
    (hparts : cs.dropWhile isSpace ≠ [] ∨ ∀ c ∈ tail.head?, isSpace c = false ∧ isSign c = false) :
    scan (cs ++ tail) =
      if afterSign cs ++ tail.takeWhile isDigit = [] then none
      else some (withSign (signOf cs) (afterSign cs ++ tail.takeWhile isDigit),
        cs.length + (tail.takeWhile isDigit).length) := by
  have hall : ∀ c ∈ afterSign cs, isDigit c = true := List.dropWhile_eq_nil_iff.mp (not_not.mp h)
  obtain ⟨hblanks, hsign, hafter⟩ := parts_append tail hparts
  have hlen := length_parts cs
  rw [scan_eq, hblanks, hsign, hafter, List.takeWhile_append_of_pos hall]
  congr 3
  rw [List.length_append, List.length_append]
  omega

theorem scan_of_not_delimited (h : ¬ Delimited cs) :
    scan cs = if afterSign cs = [] then none
      else some (withSign (signOf cs) (afterSign cs), cs.length) := by
  have happend := scan_append_of_not_delimited h [] (Or.inr (by simp))
  simpa using happend

theorem eq_of_scan_of_not_delimited (h : ¬ Delimited cs) (hscan : scan cs = some (z, n)) :
    z = withSign (signOf cs) (afterSign cs) ∧ n = cs.length := by
  rw [scan_of_not_delimited h] at hscan
  split_ifs at hscan
  rw [Option.some.injEq, Prod.mk.injEq] at hscan
  exact ⟨hscan.1.symm, hscan.2.symm⟩

theorem dropWhile_isSpace_ne_nil (h : scan cs = some (z, n)) : cs.dropWhile isSpace ≠ [] := by
  rintro hnil
  rw [scan_eq, afterSign, hnil, List.drop_nil, if_pos List.takeWhile_nil] at h
  cases h

theorem scan_append_of_not_isDigit
    (hparts : cs.dropWhile isSpace ≠ [] ∨ ∀ c ∈ tail.head?, isSpace c = false ∧ isSign c = false)
    (htail : ∀ c ∈ tail.head?, isDigit c = false) : scan (cs ++ tail) = scan cs := by
  by_cases h : Delimited cs
  · exact scan_append_of_delimited h tail
  · have hdigits : tail.takeWhile isDigit = [] := by
      cases tail with
      | nil => rfl
      | cons c tail => rw [List.takeWhile_cons_of_neg (by simp [htail c rfl])]
    rw [scan_append_of_not_delimited h tail hparts, hdigits, scan_of_not_delimited h,
      List.append_nil, List.length_nil, Nat.add_zero]

/-- A numeral is scanned the same whatever follows, unless digits do. -/
theorem scan_append (h : scan cs = some (z, n)) (htail : ∀ c ∈ tail.head?, isDigit c = false) :
    scan (cs ++ tail) = some (z, n) :=
  (scan_append_of_not_isDigit (Or.inl (dropWhile_isSpace_ne_nil h)) htail).trans h

/-- A byte that is no white space, sign or digit is as good as the end of the text. -/
theorem scan_append_of_head (cs : List (BitVec 8)) (htail : ∀ c ∈ tail.head?,
    isSpace c = false ∧ isSign c = false ∧ isDigit c = false) : scan (cs ++ tail) = scan cs :=
  scan_append_of_not_isDigit (Or.inr fun c hc => ⟨(htail c hc).1, (htail c hc).2.1⟩)
    fun c hc => (htail c hc).2.2

theorem withSign_nil (sign : List (BitVec 8)) : withSign sign [] = 0 := by
  unfold withSign
  split_ifs <;> rfl

theorem withSign_append (sign as bs : List (BitVec 8)) :
    (withSign sign (as ++ bs) ≤ withSign sign as ∧ withSign sign as ≤ 0) ∨
      (0 ≤ withSign sign as ∧ withSign sign as ≤ withSign sign (as ++ bs)) := by
  have hle : value as ≤ value (as ++ bs) := by
    rw [value_append]
    exact le_add_right (Nat.le_mul_of_pos_right _ (Nat.pow_pos (by decide)))
  unfold withSign
  split_ifs <;> omega

end Prefix

end Decimal
