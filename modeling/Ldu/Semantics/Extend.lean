import Ldu.Arith.Words
import Ldu.Semantics.Eval

/-!
# Values that survive a 4-byte variable

`Fits u v`: the word `v` is the extension of its own low 32 bits, by zeros when `u` holds and by
the sign otherwise. A word below `2 ^ 31` fits both ways (`fits_of_lt`), and a narrow node gives
a word that fits by the node's own signedness (`fits_ext`). Bitwise operators and shifts keep
words that fit, with the side conditions stated here.
-/

namespace Ldu

/-- `v` is the extension of its low 32 bits. -/
def Fits (u : Bool) (v : Val) : Prop :=
  Ty.ext ⟨4, u, false⟩ v = v

instance (u : Bool) (v : Val) : Decidable (Fits u v) :=
  inferInstanceAs (Decidable (_ = _))

/-- `v` is below `2 ^ 31`, so both extensions of its low 32 bits give it back. -/
def IsSmall (v : Val) : Prop :=
  v.toNat < 2 ^ 31

instance (v : Val) : Decidable (IsSmall v) :=
  inferInstanceAs (Decidable (_ < _))

variable {u : Bool} {v w : Val} {ty : Ty}

theorem fits_true_iff : Fits true v ↔ v.toNat < 2 ^ 32 := by
  unfold Fits Ty.ext
  rw [← BitVec.toNat_inj]
  simp
  omega

theorem fits_false_iff : Fits false v ↔ -2 ^ 31 ≤ v.toInt ∧ v.toInt < 2 ^ 31 := by
  unfold Fits Ty.ext
  rw [← BitVec.toInt_inj]
  simp only [Nat.reduceMul, Nat.reduceLeDiff, OfNat.ofNat_ne_zero, or_self, Bool.false_eq_true,
    if_false]
  rw [BitVec.toInt_signExtend_of_le (by omega), BitVec.toInt_setWidth, Int.bmod_def,
    BitVec.toInt_eq_toNat_cond]
  have := v.isLt
  split <;> split <;> omega

theorem fits_of_small (h : IsSmall v) : Fits u v := by
  unfold IsSmall at h
  cases u
  · rw [fits_false_iff, BitVec.toInt_eq_toNat_of_lt (by omega)]
    omega
  · rw [fits_true_iff]
    omega

theorem isSmall_ofBool (b : Bool) : IsSmall (ofBool b) := by
  cases b <;> decide

theorem ext_of_wide (h : ty.width = 0 ∨ 8 ≤ ty.width) : ty.ext v = v :=
  if_pos (.inr h)

/-- The value of a narrow node fits by the node's signedness. -/
theorem fits_ext (hint : ty.isFloat = false) (hpos : 0 < ty.width) (hle : ty.width ≤ 4) :
    Fits ty.isUnsigned (ty.ext v) := by
  have hwide : ¬(ty.isFloat = true ∨ ty.width = 0 ∨ 8 ≤ ty.width) := by
    rw [hint]
    simp only [Bool.false_eq_true, false_or]
    omega
  unfold Ty.ext
  rw [if_neg hwide]
  cases ty.isUnsigned
  · have hlt : 2 ^ (8 * ty.width - 1) ≤ 2 ^ 31 := Nat.pow_le_pow_right (by omega) (by omega)
    rw [fits_false_iff, if_neg (by decide), BitVec.toInt_signExtend_of_le (by omega)]
    have hge := (v.setWidth (8 * ty.width)).le_toInt
    have hle := (v.setWidth (8 * ty.width)).toInt_lt
    have hlt' : (2 : ℤ) ^ (8 * ty.width - 1) ≤ 2 ^ 31 := by exact_mod_cast hlt
    omega
  · have hlt : 2 ^ (8 * ty.width) ≤ 2 ^ 32 := Nat.pow_le_pow_right (by omega) (by omega)
    rw [fits_true_iff, if_pos rfl, BitVec.toNat_setWidth]
    exact (Nat.mod_le _ _).trans_lt ((v.setWidth (8 * ty.width)).isLt.trans_le hlt)

/-! ### Words of a node -/

section Width

variable {n : ℕ} (hn : n ∈ [1, 2, 4, 8])

include hn

theorem le_of_width : 0 < 8 * n ∧ 8 * n ≤ 64 := by
  simp only [List.mem_cons, List.not_mem_nil, or_false] at hn
  omega

/-- An integer node of `n` bytes holds a word of that width. -/
theorem ext_eq_reading (u : Bool) (v : Val) :
    (Ty.mk n u false).ext v = reading 64 u (v.setWidth (8 * n)) := by
  simp only [List.mem_cons, List.not_mem_nil, or_false] at hn
  rcases hn with rfl | rfl | rfl | rfl <;> cases u <;> simp [Ty.ext, reading]

end Width

/-! ### Operators -/

theorem fits_and (hv : Fits u v) (hw : Fits u w) : Fits u (v &&& w) := by
  unfold Fits Ty.ext at *
  cases u <;> simp_all

theorem fits_or (hv : Fits u v) (hw : Fits u w) : Fits u (v ||| w) := by
  unfold Fits Ty.ext at *
  cases u <;> simp_all

theorem fits_xor (hv : Fits u v) (hw : Fits u w) : Fits u (v ^^^ w) := by
  unfold Fits Ty.ext at *
  cases u <;> simp_all

theorem fits_not (hv : Fits false v) : Fits false (~~~v) := by
  unfold Fits Ty.ext at *
  simp_all

theorem fits_neg (hv : Fits false v) (hne : v.toInt ≠ -2 ^ 31) : Fits false (-v) := by
  rw [fits_false_iff] at *
  have hmin : v ≠ BitVec.intMin 64 := by
    rintro rfl
    revert hv
    decide
  rw [BitVec.toInt_neg_of_ne_intMin hmin]
  omega

theorem fits_ushiftRight (hv : Fits true v) (k : ℕ) : Fits true (v >>> k) := by
  rw [fits_true_iff] at *
  rw [BitVec.toNat_ushiftRight]
  exact (Nat.shiftRight_le _ _).trans_lt hv

/-- Shifting right by the sign keeps the sign. -/
theorem fits_sshiftRight (hv : Fits u v) (k : ℕ) : Fits u (v.sshiftRight k) := by
  cases u
  · rw [fits_false_iff] at *
    rw [BitVec.toInt_sshiftRight]
    rcases le_total 0 v.toInt with h | h
    · have hle := Int.shiftRight_le_of_nonneg (s := k) h
      have hge := Int.le_shiftRight_of_nonneg (s := k) h
      omega
    · have hle := Int.shiftRight_le_of_nonpos (s := k) h
      have hge := Int.le_shiftRight_of_nonpos (s := k) h
      omega
  · have hlt := fits_true_iff.1 hv
    have hmsb : v.msb = false := by
      rw [BitVec.msb_eq_decide, decide_eq_false_iff_not]
      omega
    rw [BitVec.sshiftRight_eq_of_msb_false hmsb]
    exact fits_ushiftRight hv k

end Ldu
