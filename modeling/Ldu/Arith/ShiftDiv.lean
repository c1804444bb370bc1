import Ldu.Arith.Words
import Mathlib.Data.BitVec

/-!
# Division by a power of two as a shift

An arithmetic shift right rounds down, a signed division rounds towards zero. A shift divides if a
bias has been added to the dividend before: `BiasRounds K b d` says of a dividend `b` that `d`
is such a bias, and `sdiv_twoPow_eq_sshiftRight_iff` that it is just
what is needed. The power that is the smallest signed word is a divisor of its own
(`sdiv_intMin_eq_sshiftRight_iff`). `sshiftRight_add_signFill` is the bias compilers emit.
-/

namespace Ldu

/-- A bias `d` takes the remainder of `b` to where rounding down by `K` rounds as a division: not
out of `[0, K)` if `b` is rounded down, and to the next multiple if it is rounded up. -/
def BiasRounds (K b d : ℤ) : Prop :=
  if 0 ≤ b ∨ b % K = 0 then 0 ≤ b % K + d ∧ b % K + d < K
  else K ≤ b % K + d ∧ b % K + d < 2 * K

/-- Rounding down of `v` against rounding of `b` towards zero. -/
theorem ediv_eq_tdiv_iff {b v K : ℤ} (hK : 0 < K) :
    v / K = b.tdiv K ↔ BiasRounds K b (v - b) := by
  have hb := Int.mul_ediv_add_emod b K
  rw [Int.tdiv_eq_ediv, Int.sign_eq_one_of_pos hK]
  simp only [Int.dvd_iff_emod_eq_zero]
  have hdiv : ∀ q : ℤ, v / K = q ↔ K * q ≤ v ∧ v < K * q + K := by
    intro q
    have hv := Int.mul_ediv_add_emod v K
    have hpos := Int.emod_nonneg v hK.ne'
    have hlt := Int.emod_lt_of_pos v hK
    constructor
    · rintro rfl
      omega
    · rintro ⟨hle, hlt'⟩
      have h1 : K * (v / K) < K * (q + 1) := by rw [mul_add]; omega
      have h2 : K * q < K * (v / K + 1) := by rw [mul_add]; omega
      have h1' := Int.lt_of_mul_lt_mul_left h1 hK.le
      have h2' := Int.lt_of_mul_lt_mul_left h2 hK.le
      omega
  unfold BiasRounds
  split
  · rw [add_zero, hdiv]
    omega
  · rw [hdiv, mul_add, mul_one]
    omega

/-- A bias that rounds does not leave the range `[-H, H)`, so it may be read modulo `2 * H`. -/
theorem biasRounds_wrap {K H b v c : ℤ} (hK : 0 < K) (hle : 2 * K ≤ H) (hdvd : K ∣ H)
    (hb : -H ≤ b ∧ b < H) (hv : -H ≤ v ∧ v < H) (hc : -H ≤ c ∧ c < H)
    (hwrap : c = v - b ∨ c = v - b + 2 * H ∨ c = v - b - 2 * H) :
    BiasRounds K b (v - b) ↔ BiasRounds K b c := by
  obtain ⟨m, rfl⟩ := hdvd
  have hsplit := Int.mul_ediv_add_emod b K
  have hpos := Int.emod_nonneg b hK.ne'
  have hlt := Int.emod_lt_of_pos b hK
  -- the multiple of `K` below `b` lies between the ends of the range
  have hlow : K * -m ≤ K * (b / K) := by
    have h : K * -m < K * (b / K + 1) := by rw [mul_neg, mul_add]; omega
    have := Int.lt_of_mul_lt_mul_left h hK.le
    exact Int.mul_le_mul_of_nonneg_left (by omega) hK.le
  have hhigh : K * (b / K + 1) ≤ K * m := by
    have h : K * (b / K) < K * m := by omega
    have := Int.lt_of_mul_lt_mul_left h hK.le
    exact Int.mul_le_mul_of_nonneg_left (by omega) hK.le
  have hneg : b < 0 → K * (b / K) ≤ K * -1 := by
    intro h
    have h' : K * (b / K) < K * 0 := by rw [mul_zero]; omega
    have := Int.lt_of_mul_lt_mul_left h' hK.le
    exact Int.mul_le_mul_of_nonneg_left (by omega) hK.le
  rw [mul_neg] at hlow
  rw [mul_add, mul_one] at hhigh
  rw [mul_neg, mul_one] at hneg
  unfold BiasRounds
  rcases hwrap with rfl | rfl | rfl
  · rfl
  · split <;> omega
  · split <;> omega

section Words

variable {n k : ℕ}

theorem toInt_twoPow_of_lt (hk : k + 1 < n) : (BitVec.twoPow n k).toInt = 2 ^ k := by
  rw [BitVec.toInt_twoPow, if_neg (by omega), if_neg (by omega)]

/-- A shift of `v` divides `b` exactly if the bias rounds. -/
theorem sdiv_twoPow_eq_sshiftRight_iff (hk : k + 1 < n) (b v : BitVec n) :
    b.sdiv (BitVec.twoPow n k) = v.sshiftRight k ↔ BiasRounds (2 ^ k) b.toInt (v - b).toInt := by
  have hK : (0 : ℤ) < 2 ^ k := Int.pow_pos (by decide)
  have hpow := toInt_twoPow_of_lt hk
  have hne : BitVec.twoPow n k ≠ -1 := by
    intro h
    have hone : (-1 : BitVec n) = BitVec.allOnes n := BitVec.neg_one_eq_allOnes
    rw [h, hone, BitVec.toInt_allOnes, if_pos (by omega)] at hpow
    omega
  have hhalf : (2 : ℤ) ^ n = 2 * 2 ^ (n - 1) := by
    rw [← pow_succ', Nat.sub_add_cancel (by omega)]
  have hle : (2 : ℤ) * 2 ^ k ≤ 2 ^ (n - 1) := by
    rw [← pow_succ']
    exact_mod_cast Nat.pow_le_pow_right (show 0 < 2 by decide) (show k + 1 ≤ n - 1 by omega)
  have hrange : ∀ x : BitVec n, -2 ^ (n - 1) ≤ x.toInt ∧ x.toInt < 2 ^ (n - 1) := by
    intro x
    have h := BitVec.two_mul_toInt_lt (x := x)
    have h' := BitVec.le_two_mul_toInt (x := x)
    omega
  rw [← BitVec.toInt_inj, BitVec.toInt_sdiv_of_ne_or_ne _ _ (.inr hne), hpow,
    BitVec.toInt_sshiftRight, Int.shiftRight_eq_div_pow, eq_comm]
  push_cast
  rw [ediv_eq_tdiv_iff hK]
  refine biasRounds_wrap hK hle (pow_dvd_pow 2 (by omega)) (hrange b) (hrange v) (hrange _) ?_
  rw [← hhalf]
  exact toInt_sub_cases v b

/-- The bias that is one less than the power for a negative dividend, and nothing for another. -/
theorem biasRounds_sign {K b : ℤ} (hK : 0 < K) : BiasRounds K b (if b < 0 then K - 1 else 0) := by
  have hpos := Int.emod_nonneg b hK.ne'
  have hlt := Int.emod_lt_of_pos b hK
  unfold BiasRounds
  split <;> split <;> omega

/-- The sign of a word, shifted to the low `k` bits. -/
theorem toInt_signFill (hk : 0 < k) (hkn : k < n) (b : BitVec n) :
    (b.sshiftRight (n - 1) >>> (n - k)).toInt = if b.toInt < 0 then 2 ^ k - 1 else 0 := by
  have hn : 2 ^ n = 2 * 2 ^ (n - 1) := by
    rw [← Nat.pow_succ', Nat.succ_eq_add_one, Nat.sub_add_cancel (by omega)]
  have hb := b.isLt
  have hsign : b.toInt < 0 ↔ b.msb = true := by
    rw [BitVec.msb_eq_toInt, decide_eq_true_eq]
  have hpowk : 2 ^ k ≤ 2 ^ (n - 1) := Nat.pow_le_pow_right (by decide) (by omega)
  have hpos : 0 < 2 ^ k := Nat.two_pow_pos k
  -- the sign is shifted to every bit, and `k` of them stay
  have hnat : (b.sshiftRight (n - 1) >>> (n - k)).toNat = if b.msb then 2 ^ k - 1 else 0 := by
    rw [BitVec.toNat_ushiftRight, BitVec.toNat_sshiftRight, Nat.shiftRight_eq_div_pow,
      Nat.shiftRight_eq_div_pow, Nat.shiftRight_eq_div_pow]
    have hmsb := BitVec.msb_eq_decide b
    split
    · next h =>
      rw [h, eq_comm, decide_eq_true_eq] at hmsb
      rw [Nat.div_eq_of_lt (show 2 ^ n - 1 - b.toNat < 2 ^ (n - 1) by omega), Nat.sub_zero]
      have hsplit : 2 ^ n = 2 ^ k * 2 ^ (n - k) := by
        rw [← pow_add]
        congr 1
        omega
      have hq : 2 ^ n - 1 = 2 ^ (n - k) * (2 ^ k - 1) + (2 ^ (n - k) - 1) := by
        have := Nat.two_pow_pos (n - k)
        rw [hsplit, Nat.mul_sub, Nat.mul_one, Nat.mul_comm]
        have : 2 ^ (n - k) ≤ 2 ^ (n - k) * 2 ^ k := Nat.le_mul_of_pos_right _ hpos
        omega
      have hlow := Nat.two_pow_pos (n - k)
      rw [hq, Nat.mul_add_div hlow, Nat.div_eq_of_lt (by omega), Nat.add_zero]
    · next h =>
      rw [Bool.not_eq_true] at h
      rw [h, eq_comm, decide_eq_false_iff_not] at hmsb
      rw [Nat.div_eq_of_lt (show b.toNat < 2 ^ (n - 1) by omega), Nat.zero_div]
  rw [BitVec.toInt_eq_toNat_of_lt (by rw [hnat]; split <;> omega), hnat]
  simp only [hsign]
  split
  · push_cast [hpos]
    rfl
  · rfl

/-- Division by the smallest signed word is a shift of `v` only if `b` is not that word and `v` is
not negative. -/
theorem sdiv_intMin_eq_sshiftRight_iff (hn : 1 < n) (b v : BitVec n) :
    b.sdiv (BitVec.intMin n) = v.sshiftRight (n - 1) ↔ b ≠ BitVec.intMin n ∧ 0 ≤ v.toInt := by
  have hK : (0 : ℤ) < 2 ^ (n - 1) := Int.pow_pos (by decide)
  have hlt := BitVec.toInt_lt (x := v)
  have hle := BitVec.le_toInt v
  have hshift : (v.sshiftRight (n - 1)).toInt = if 0 ≤ v.toInt then 0 else -1 := by
    rw [BitVec.toInt_sshiftRight, Int.shiftRight_eq_div_pow]
    push_cast
    split
    · exact Int.ediv_eq_zero_of_lt ‹_› hlt
    · exact ((Int.ediv_emod_unique (r := v.toInt + 2 ^ (n - 1)) hK).2
        ⟨by omega, by omega, by omega⟩).1
  rw [← BitVec.toInt_inj, BitVec.sdiv_intMin, hshift]
  split
  · next h =>
    rw [BitVec.toInt_one hn]
    refine iff_of_false ?_ fun hc ↦ hc.1 h
    split <;> decide
  · next h =>
    rw [BitVec.toInt_zero]
    constructor
    · intro hzero
      refine ⟨h, ?_⟩
      by_contra hneg
      rw [if_neg hneg] at hzero
      cases hzero
    · rintro ⟨-, hnonneg⟩
      rw [if_pos hnonneg]

/-- The bias of compilers: a shift of the dividend and its sign in the low bits divides. -/
theorem sshiftRight_add_signFill (hk : 0 < k) (hkn : k + 1 < n) (b : BitVec n) :
    (b + b.sshiftRight (n - 1) >>> (n - k)).sshiftRight k = b.sdiv (BitVec.twoPow n k) := by
  refine ((sdiv_twoPow_eq_sshiftRight_iff hkn b _).2 ?_).symm
  rw [BitVec.add_comm, BitVec.add_sub_cancel, toInt_signFill hk (by omega)]
  exact biasRounds_sign (Int.pow_pos (by decide))

end Words

end Ldu
