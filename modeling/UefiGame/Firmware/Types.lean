import Mathlib.Algebra.Ring.Nat
import Mathlib.Data.List.Basic
import Mathlib.Order.Nat

/-! # Machine types and status codes

The firmware's fixed-width integers are bit vectors: `INTN` and `UINTN` share
their bits, so a C conversion between them is the identity and signedness shows
only in the comparisons. A status is an error when its highest bit is set.
-/

namespace UefiGame

abbrev UINT8 := BitVec 8
abbrev UINT16 := BitVec 16
abbrev UINT32 := BitVec 32
abbrev INT32 := BitVec 32
abbrev UINTN := BitVec 64
abbrev INTN := BitVec 64
abbrev CHAR8 := BitVec 8
abbrev CHAR16 := BitVec 16
abbrev EFI_STATUS := BitVec 64

def EFI_SUCCESS : EFI_STATUS := 0
def EFI_INVALID_PARAMETER : EFI_STATUS := 0x8000000000000002
def EFI_UNSUPPORTED : EFI_STATUS := 0x8000000000000003
def EFI_OUT_OF_RESOURCES : EFI_STATUS := 0x8000000000000009
def EFI_NOT_FOUND : EFI_STATUS := 0x800000000000000e

/-- `EFI_ERROR`: the highest bit marks an error; other nonzero codes are warnings. -/
def efiError (status : EFI_STATUS) : Bool := status.msb

@[simp] theorem efiError_success : efiError EFI_SUCCESS = false := rfl
@[simp] theorem efiError_invalidParameter : efiError EFI_INVALID_PARAMETER = true := by decide
@[simp] theorem efiError_unsupported : efiError EFI_UNSUPPORTED = true := by decide

/-- A NUL-terminated CHAR16 string, without its terminator; `none` is the NULL pointer. -/
abbrev Str16 := Option (List CHAR16)

/-- `INT32` to `UINTN`: sign extension. -/
def uintnOfInt32 (v : INT32) : UINTN := v.signExtend 64

theorem toNat_uintnOfInt32 {v : INT32} (h : 0 ≤ v.toInt) :
    (uintnOfInt32 v).toNat = v.toInt.toNat := by
  have hmsb : v.msb = false := by
    rw [BitVec.msb_eq_toInt]
    simpa using h
  have hlt := v.isLt
  rw [uintnOfInt32, BitVec.signExtend_eq_setWidth_of_msb_false hmsb, BitVec.toNat_setWidth,
    BitVec.toInt_eq_toNat_of_msb hmsb]
  omega

/-- Halving rounds toward zero. -/
theorem toInt_sdiv_two (v : INT32) :
    (v.sdiv 2).toInt = if 0 ≤ v.toInt then v.toInt / 2 else -(-v.toInt / 2) := by
  have htwo : (2 : INT32).toInt = 2 := by decide
  have hlo := BitVec.le_toInt v
  have hlt := BitVec.toInt_lt (x := v)
  have hdiv : v.toInt.tdiv 2 = if 0 ≤ v.toInt then v.toInt / 2 else -(-v.toInt / 2) := by
    split_ifs with h
    · exact Int.tdiv_eq_ediv_of_nonneg h
    · rw [← Int.tdiv_eq_ediv_of_nonneg (by omega), Int.neg_tdiv, Int.neg_neg]
  rw [BitVec.toInt_sdiv, htwo, hdiv]
  apply Int.bmod_eq_of_le <;> split_ifs <;> omega

theorem toNat_sdiv_two {v : INT32} (h : 0 ≤ v.toInt) :
    (uintnOfInt32 (v.sdiv 2)).toNat = (uintnOfInt32 v).toNat / 2 := by
  have hhalf := toInt_sdiv_two v
  rw [if_pos h] at hhalf
  rw [toNat_uintnOfInt32 (by omega), toNat_uintnOfInt32 h, hhalf]
  omega

end UefiGame
