import Mathlib.Data.BitVec

/-!
# Machine words

A word of a narrow width stands in a wider register extended by zeros or by its sign. `reading`
is either; below half of the narrow range both are the number itself, and above it both are far
from the small numbers, under either order of the wide words.

A distance from a lower bound that is compared without sign is a test for an interval
(`toNat_sub_le_iff`).
-/

namespace Ldu

variable {n N : ℕ}

/-- A narrow word in a wide register, as an unsigned or as a signed number. -/
def reading (N : ℕ) (unsigned : Bool) (u : BitVec n) : BitVec N :=
  if unsigned then u.setWidth N else u.signExtend N

/-- Below half of the range the reading is the number. -/
theorem reading_toNat_of_lt (hn : 0 < n) (hN : n ≤ N) (r : Bool) {u : BitVec n}
    (h : u.toNat < 2 ^ (n - 1)) : (reading N r u).toNat = u.toNat := by
  have hfit : u.toNat < 2 ^ N :=
    h.trans_le (Nat.pow_le_pow_right (by omega) (by omega))
  have hset : (u.setWidth N).toNat = u.toNat := by
    rw [BitVec.toNat_setWidth, Nat.mod_eq_of_lt hfit]
  have hmsb : u.msb = false := by
    rw [BitVec.msb_eq_false_iff_two_mul_lt]
    have hpow : 2 ^ n = 2 * 2 ^ (n - 1) := by rw [← Nat.pow_succ', Nat.succ_eq_add_one,
      Nat.sub_add_cancel hn]
    omega
  unfold reading
  split
  · exact hset
  · rw [BitVec.toNat_signExtend, hset, hmsb]
    rfl

/-- From half of the range on, the reading is not below that half. -/
theorem le_reading_toNat (hN : n ≤ N) (r : Bool) {u : BitVec n}
    (h : 2 ^ (n - 1) ≤ u.toNat) : 2 ^ (n - 1) ≤ (reading N r u).toNat := by
  have hfit : u.toNat < 2 ^ N := u.isLt.trans_le (Nat.pow_le_pow_right (by omega) hN)
  have hset : (u.setWidth N).toNat = u.toNat := by
    rw [BitVec.toNat_setWidth, Nat.mod_eq_of_lt hfit]
  unfold reading
  split
  · rwa [hset]
  · rw [BitVec.toNat_signExtend, hset]
    exact h.trans (Nat.le_add_right _ _)

/-- The low bits of a reading are the word. -/
theorem setWidth_reading (hN : n ≤ N) (r : Bool) (u : BitVec n) :
    (reading N r u).setWidth n = u := by
  refine BitVec.eq_of_getLsbD_eq fun i hi ↦ ?_
  have hiN : i < N := by omega
  unfold reading
  split <;> simp [BitVec.getElem_signExtend, hi, hiN, BitVec.getLsbD_eq_getElem]

/-- A reading in a register of middle width is a part of the wider one. -/
theorem setWidth_reading_of_le {K : ℕ} (hN : N ≤ K) (r : Bool) (u : BitVec n) :
    (reading K r u).setWidth N = reading N r u := by
  refine BitVec.eq_of_getLsbD_eq fun i hi ↦ ?_
  have hiK : i < K := by omega
  unfold reading
  split <;> simp [BitVec.getElem_signExtend, hi, hiK]

/-- A signed reading is the signed number. -/
theorem toInt_reading_false (hN : n ≤ N) (u : BitVec n) :
    (reading N false u).toInt = u.toInt :=
  BitVec.toInt_signExtend_of_le hN

/-- The low bits of an integer in a word do not depend on the width of the word. -/
theorem setWidth_ofInt (hN : n ≤ N) (z : ℤ) :
    (BitVec.ofInt N z).setWidth n = BitVec.ofInt n z := by
  have hdvd : ((2 ^ n : ℕ) : ℤ) ∣ (2 ^ N : ℕ) := by exact_mod_cast Nat.pow_dvd_pow 2 hN
  have hpos : ∀ k : ℕ, 0 ≤ z % (2 ^ k : ℕ) := fun k ↦
    Int.emod_nonneg _ (by exact_mod_cast (Nat.two_pow_pos k).ne')
  apply BitVec.eq_of_toNat_eq
  rw [BitVec.toNat_setWidth, BitVec.toNat_ofInt, BitVec.toNat_ofInt]
  apply Int.ofNat.inj
  simp only [Int.ofNat_eq_natCast, Int.natCast_emod]
  rw [Int.toNat_of_nonneg (hpos N), Int.toNat_of_nonneg (hpos n), Int.emod_emod_of_dvd _ hdvd]

/-- A difference wraps at most once. -/
theorem toInt_sub_cases (x y : BitVec n) :
    (x - y).toInt = x.toInt - y.toInt ∨ (x - y).toInt = x.toInt - y.toInt + 2 ^ n ∨
      (x - y).toInt = x.toInt - y.toInt - 2 ^ n := by
  have hx := x.two_mul_toInt_lt
  have hx' := x.le_two_mul_toInt
  have hy := y.two_mul_toInt_lt
  have hy' := y.le_two_mul_toInt
  rw [BitVec.toInt_sub, Int.bmod_def]
  push_cast
  generalize (2 : ℤ) ^ n = m at *
  rcases lt_or_ge (x.toInt - y.toInt) 0 with h | h
  · rw [← Int.add_emod_right, Int.emod_eq_of_lt (by omega) (by omega)]
    split <;> omega
  · rw [Int.emod_eq_of_lt h (by omega)]
    split <;> omega

theorem setWidth_sub (hN : n ≤ N) (x y : BitVec N) :
    (x - y).setWidth n = x.setWidth n - y.setWidth n := by
  rw [BitVec.sub_eq_add_neg, BitVec.setWidth_add _ _ hN, BitVec.setWidth_neg_of_le hN,
    ← BitVec.sub_eq_add_neg]

/-- A number in the range of the word, with or without sign, is a reading of its low bits. -/
theorem reading_setWidth_of_range (hn : 0 < n) (hN : n ≤ N) {v : BitVec N}
    (hlo : -2 ^ (n - 1) ≤ v.toInt) (hhi : v.toInt < 2 ^ n) :
    reading N (!v.msb) (v.setWidth n) = v := by
  have hhalf : (2 : ℤ) ^ n = 2 * 2 ^ (n - 1) := by
    rw [← pow_succ', Nat.sub_add_cancel hn]
  cases hmsb : v.msb
  · have hnat : v.toInt = v.toNat := BitVec.toInt_eq_toNat_of_msb hmsb
    have hlt : v.toNat < 2 ^ n := by
      rw [hnat] at hhi
      exact_mod_cast hhi
    apply BitVec.eq_of_toNat_eq
    simp only [reading, Bool.not_false, if_true, BitVec.toNat_setWidth]
    rw [Nat.mod_eq_of_lt hlt, Nat.mod_eq_of_lt v.isLt]
  · have hneg : v.toInt < 0 := by
      simpa [BitVec.msb_eq_toInt] using hmsb
    apply BitVec.eq_of_toInt_eq
    rw [Bool.not_true, toInt_reading_false hN, ← BitVec.signExtend_eq_setWidth_of_le _ hN,
      BitVec.toInt_signExtend_eq_toInt_bmod_of_le _ hN]
    exact Int.bmod_eq_of_le_mul_two (by push_cast; omega) (by push_cast; omega)

/-- A distance without sign is small exactly in an interval, if the interval does not wrap. -/
theorem toNat_sub_le_iff {l d : ℕ} (u : BitVec n) (h : l + d < 2 ^ n) :
    (u - BitVec.ofNat n l).toNat ≤ d ↔ l ≤ u.toNat ∧ u.toNat ≤ l + d := by
  have hu := u.isLt
  rw [BitVec.toNat_sub, BitVec.toNat_ofNat, Nat.mod_eq_of_lt (show l < 2 ^ n by omega)]
  rcases le_or_gt l u.toNat with hl | hl
  · have hsum : 2 ^ n - l + u.toNat = 2 ^ n + (u.toNat - l) := by omega
    rw [hsum, Nat.add_mod_left, Nat.mod_eq_of_lt (by omega)]
    omega
  · rw [Nat.mod_eq_of_lt (by omega)]
    omega

end Ldu
