import Mathlib.Data.List.Nodup
import UefiGame.Library.LinearMemory

/-! # Packed little-endian records

A record is laid out as the sequence of its fields, each a little-endian number
of fixed width, with no padding. Offsets follow from the order of the fields,
and a field read back at its offset is the number that was stored.
-/

namespace PackedRecord

open LinearMemory

/-- The number a byte string denotes, lowest byte first. -/
def value : List (BitVec 8) → ℕ
  | [] => 0
  | b :: bs => b.toNat + 256 * value bs

/-- The `n` lowest bytes of a number, lowest byte first. -/
def bytes : ℕ → ℕ → List (BitVec 8)
  | 0, _ => []
  | n + 1, v => BitVec.ofNat 8 v :: bytes n (v / 256)

@[simp] theorem length_bytes (n v : ℕ) : (bytes n v).length = n := by
  induction n generalizing v with
  | zero => rfl
  | succ n ih => rw [bytes, List.length_cons, ih]

theorem value_bytes (n v : ℕ) : value (bytes n v) = v % 256 ^ n := by
  induction n generalizing v with
  | zero => simp [bytes, value, Nat.mod_one]
  | succ n ih =>
    have hpow : 256 ^ (n + 1) = 256 * 256 ^ n := Nat.pow_succ'
    rw [bytes, value, ih, BitVec.toNat_ofNat, hpow]
    exact Nat.mod_mul.symm

variable {κ : Type*} {l : List (κ × ℕ)} {m : ℕ → BitVec 8} {base : ℕ} {k : κ}

/-- The size of the whole record. -/
def size (l : List (κ × ℕ)) : ℕ := (l.map Prod.snd).sum

/-- The bytes of the record with the field values `v`. -/
def encode (l : List (κ × ℕ)) (v : κ → ℕ) : List (BitVec 8) := l.flatMap fun f => bytes f.2 (v f.1)

@[simp] theorem length_encode (v : κ → ℕ) : (encode l v).length = size l := by
  induction l with
  | nil => rfl
  | cons f l ih => rw [encode, List.flatMap_cons, List.length_append, ← encode, ih]; simp [size]

variable [DecidableEq κ]

/-- The offset of a field in the layout `l` of field names and widths. -/
def offset : List (κ × ℕ) → κ → ℕ
  | [], _ => 0
  | f :: l, k => if k = f.1 then 0 else f.2 + offset l k

/-- The width of a field in bytes. -/
def width : List (κ × ℕ) → κ → ℕ
  | [], _ => 0
  | f :: l, k => if k = f.1 then f.2 else width l k

/-- The field `k` of the record at address `base`. -/
def read (l : List (κ × ℕ)) (m : ℕ → BitVec 8) (base : ℕ) (k : κ) : ℕ :=
  value ((List.range (width l k)).map fun j => m (base + offset l k + j))

theorem read_of_holds {v : κ → ℕ} (hk : k ∈ l.map Prod.fst) (h : Holds m base (encode l v)) :
    read l m base k = v k % 256 ^ width l k := by
  induction l generalizing base with
  | nil => simp at hk
  | cons f l ih =>
    rw [encode, List.flatMap_cons, holds_append, length_bytes] at h
    by_cases hf : k = f.1
    · have hmap := map_range_of_holds h.1
      rw [length_bytes] at hmap
      simp only [read, width, offset, if_pos hf, Nat.add_zero]
      rw [hmap, value_bytes, hf]
    · have htail := ih ((List.mem_cons.mp hk).resolve_left hf) h.2
      simpa only [read, width, offset, if_neg hf, Nat.add_assoc] using htail

theorem read_congr {m' : ℕ → BitVec 8} (base : ℕ) (hk : k ∈ l.map Prod.fst)
    (h : ∀ a ∈ block base (size l), m a = m' a) : read l m base k = read l m' base k := by
  induction l generalizing base with
  | nil => simp at hk
  | cons f l ih =>
    have hsize : size (f :: l) = f.2 + size l := by simp [size]
    by_cases hf : k = f.1
    · simp only [read, width, offset, if_pos hf, Nat.add_zero]
      congr 1
      apply List.map_congr_left
      intro j hj
      apply h
      rw [List.mem_range] at hj
      rw [mem_block, hsize]
      omega
    · have htail := ih (base + f.2) ((List.mem_cons.mp hk).resolve_left hf)
        fun a ha => h a (by rw [mem_block] at *; omega)
      simpa only [read, width, offset, if_neg hf, Nat.add_assoc] using htail

end PackedRecord
