import Mathlib.Data.Nat.Prime.Basic
import Mathlib.Algebra.Order.Ring.Int
import Mathlib.Tactic.Ring
import Mathlib.Tactic.Linarith

/-!
# Division by multiplication with a reciprocal

A multiplier `m` with `d * m = 2 ^ p + e` divides by `d`: the quotient `n / d` is the product
`n * m` shifted right by `p`, as long as the excess `e` is small enough for `n`. The remainder of
`n` decides how small; over a range of dividends the **critical** one is the largest `c` in the
range with `c % d = d - 1`, and `c * e < 2 ^ p` is enough for all of them (`excess_lt`).

For a negative dividend the shift rounds down, so the product is one short of a multiple of
`2 ^ p` and the quotient is one too low; `pred_mul_div` is the statement about the absolute
values.
-/

namespace Reciprocal

variable {n d m e p c N : ℕ}

/-- The quotient of `n` by multiplication with the reciprocal. -/
theorem mul_div (hd : 0 < d) (hm : d * m = 2 ^ p + e) (h : n * e < 2 ^ p * (d - n % d)) :
    n * m / 2 ^ p = n / d := by
  have hmod : n % d < d := Nat.mod_lt n hd
  have hn : d * (n / d) + n % d = n := Nat.div_add_mod n d
  have hprod : d * (n * m) = d * (n / d * 2 ^ p) + (n % d * 2 ^ p + n * e) := by
    calc d * (n * m) = n * (d * m) := by ring
      _ = n * 2 ^ p + n * e := by rw [hm]; ring
      _ = (d * (n / d) + n % d) * 2 ^ p + n * e := by rw [hn]
      _ = d * (n / d * 2 ^ p) + (n % d * 2 ^ p + n * e) := by ring
  have hsum : n % d * 2 ^ p + 2 ^ p * (d - n % d) = d * 2 ^ p := by
    rw [mul_comm (n % d), ← Nat.mul_add, Nat.add_sub_cancel' hmod.le, mul_comm]
  refine Nat.div_eq_of_lt_le (Nat.le_of_mul_le_mul_left (c := d) ?_ hd)
    (Nat.lt_of_mul_lt_mul_left (a := d) ?_)
  · omega
  · calc d * (n * m) < d * (n / d * 2 ^ p) + d * 2 ^ p := by omega
      _ = d * ((n / d + 1) * 2 ^ p) := by ring

/-- The quotient of a negative dividend, by absolute values. -/
theorem pred_mul_div (hd : 0 < d) (hn : 0 < n) (he : 0 < e) (hdp : d ≤ 2 ^ p)
    (hm : d * m = 2 ^ p + e) (h : n * e < 2 ^ p * (d - n % d) + d) :
    (n * m - 1) / 2 ^ p = n / d := by
  have hmod : n % d < d := Nat.mod_lt n hd
  have hdiv : d * (n / d) + n % d = n := Nat.div_add_mod n d
  have hprod : d * (n * m) = d * (n / d * 2 ^ p) + (n % d * 2 ^ p + n * e) := by
    calc d * (n * m) = n * (d * m) := by ring
      _ = n * 2 ^ p + n * e := by rw [hm]; ring
      _ = (d * (n / d) + n % d) * 2 ^ p + n * e := by rw [hdiv]
      _ = d * (n / d * 2 ^ p) + (n % d * 2 ^ p + n * e) := by ring
  have hlow : d ≤ n % d * 2 ^ p + n * e := by
    rcases Nat.eq_zero_or_pos (n % d) with h0 | hpos
    · have hdn : d ≤ n := Nat.le_of_dvd hn (Nat.dvd_of_mod_eq_zero h0)
      have := Nat.mul_le_mul hdn he
      omega
    · have := Nat.mul_le_mul_right (2 ^ p) hpos
      omega
  have hsum : n % d * 2 ^ p + 2 ^ p * (d - n % d) = d * 2 ^ p := by
    rw [mul_comm (n % d), ← Nat.mul_add, Nat.add_sub_cancel' hmod.le, mul_comm]
  have hpred : d * (n * m - 1) + d = d * (n * m) := by
    have hpos : 0 < n * m := by
      refine Nat.mul_pos hn (Nat.pos_of_ne_zero ?_)
      rintro rfl
      omega
    rw [Nat.mul_sub, Nat.mul_one]
    exact Nat.sub_add_cancel (Nat.le_mul_of_pos_right d hpos)
  refine Nat.div_eq_of_lt_le (Nat.le_of_mul_le_mul_left (c := d) ?_ hd)
    (Nat.lt_of_mul_lt_mul_left (a := d) ?_)
  · omega
  · calc d * (n * m - 1) < d * (n / d * 2 ^ p) + d * 2 ^ p := by omega
      _ = d * ((n / d + 1) * 2 ^ p) := by ring

/-! ### The critical dividend -/

/-- `c` is the largest dividend up to `N` with remainder `d - 1`. -/
structure Critical (d N c : ℕ) : Prop where
  mod_eq : c % d = d - 1
  le : c ≤ N
  lt : N < c + d
  divisor_le : d ≤ c

theorem Critical.mod_lt (hc : Critical d N c) (hd : 0 < d) (hlt : c < n) (hn : n < c + d) :
    n % d + 2 ≤ d := by
  obtain ⟨j, rfl⟩ := Nat.exists_eq_add_of_lt hlt
  have hj : j + 1 < d := by omega
  have hmod : (c + j + 1) % d = j := by
    have hsplit : c + j + 1 = d * (c / d + 1) + j := by
      have := Nat.div_add_mod c d
      rw [hc.mod_eq] at this
      rw [Nat.mul_add]
      omega
    rw [hsplit, Nat.mul_add_mod, Nat.mod_eq_of_lt (by omega)]
  omega

/-- An excess small enough for the critical dividend is small enough for all. -/
theorem excess_lt (hc : Critical d N c) (hd : 0 < d) (h : c * e < 2 ^ p) (hn : n < c + d) :
    n * e < 2 ^ p * (d - n % d) := by
  have hmod : n % d < d := Nat.mod_lt n hd
  rcases le_or_gt n c with hle | hlt
  · calc n * e ≤ c * e := Nat.mul_le_mul_right e hle
      _ < 2 ^ p * 1 := by rwa [mul_one]
      _ ≤ 2 ^ p * (d - n % d) := Nat.mul_le_mul_left _ (by omega)
  · have h2 := hc.mod_lt hd hlt hn
    calc n * e ≤ (c + d) * e := Nat.mul_le_mul_right e hn.le
      _ ≤ c * e + c * e := by
        rw [Nat.add_mul]
        exact Nat.add_le_add_left (Nat.mul_le_mul_right e hc.divisor_le) _
      _ < 2 ^ p * 2 := by omega
      _ ≤ 2 ^ p * (d - n % d) := Nat.mul_le_mul_left _ (by omega)

/-- One dividend more, when the range ends just before a power of two that divides `2 ^ p`. -/
theorem excess_lt_succ (hc : Critical d N c) (hd : 0 < d) {k : ℕ} (hp : 2 ^ p = (N + 1) * k)
    (hm : d * m = 2 ^ p + e) (hed : e ≤ d) (h : c * e < 2 ^ p) (hn : n ≤ N + 1) :
    n * e < 2 ^ p * (d - n % d) + d := by
  rcases Nat.lt_or_ge n (c + d) with hlt | hge
  · exact Nat.lt_add_right d (excess_lt hc hd h hlt)
  -- The last dividend is `c + d`, so `d` divides its successor and the excess is at most `k`.
  have hlast : n = c + d := by have := hc.lt; omega
  have hN : N + 1 = n := by have := hc.lt; omega
  have hmod : n % d = d - 1 := by rw [hlast, Nat.add_mod_right, hc.mod_eq]
  have hdvd : d ∣ n + 1 := by
    have hsplit : n + 1 = d * (n / d + 1) := by
      have := Nat.div_add_mod n d
      rw [hmod] at this
      rw [Nat.mul_add]
      omega
    exact ⟨_, hsplit⟩
  have hkpos : 0 < k := by
    refine Nat.pos_of_ne_zero ?_
    rintro rfl
    have := Nat.two_pow_pos p
    omega
  have hek : e ≤ k := by
    by_contra hlt
    have hsum : d ∣ n * k + e := ⟨m, by rw [hm, hp, hN]⟩
    have hmul : d ∣ n * k + k := by
      have := hdvd.mul_right k
      rwa [Nat.add_mul, Nat.one_mul] at this
    have hsub : d ∣ e - k := by
      have := Nat.dvd_sub hsum hmul
      rwa [Nat.add_sub_add_left] at this
    have := Nat.le_of_dvd (by omega) hsub
    omega
  have hle : n * e ≤ 2 ^ p := by
    rw [hp, hN]
    exact Nat.mul_le_mul_left n hek
  have hone : d - (d - 1) = 1 := by omega
  rw [hmod, hone]
  omega

/-! ### The size of the multiplier -/

theorem critical_of_mod (hd : 0 < d) (hle : 2 * d ≤ N + 1) :
    Critical d N (N - (N + 1) % d) := by
  have hmod : (N + 1) % d < d := Nat.mod_lt _ hd
  refine ⟨?_, Nat.sub_le _ _, by omega, by omega⟩
  have hsplit : N - (N + 1) % d = d * ((N + 1) / d - 1) + (d - 1) := by
    have hdiv := Nat.div_add_mod (N + 1) d
    have hpos : 1 ≤ (N + 1) / d := (Nat.one_le_div_iff hd).2 (by omega)
    rw [Nat.mul_sub, Nat.mul_one]
    have := Nat.mul_le_mul_left d hpos
    omega
  rw [hsplit, Nat.mul_add_mod, Nat.mod_eq_of_lt (by omega)]

/-- While `2 ^ p` is not enough for the critical dividend, the quotient of `2 ^ p` stays below
half of the range of words. -/
theorem quot_lt_of_le {W q r : ℕ} (hc : Critical d N c) (hN : N ≤ 2 ^ W) (hd : 3 ≤ d)
    (hdc : 2 * d ≤ c) (hq : q * d + r = 2 ^ p) (hr : r < d) (h : 2 ^ p ≤ c * (d - r)) :
    q + 2 ≤ 2 ^ W := by
  have hcN : c ≤ 2 ^ W := hc.le.trans hN
  rcases Nat.eq_zero_or_pos r with rfl | hpos
  · -- `d` and `q` are powers of two.
    rw [Nat.add_zero] at hq
    have hqc : q * d ≤ c * d := hq ▸ h
    have hqc : q ≤ c := Nat.le_of_mul_le_mul_right hqc (by omega)
    obtain ⟨i, -, rfl⟩ := (Nat.dvd_prime_pow Nat.prime_two).1 (Dvd.intro d hq)
    obtain ⟨j, -, rfl⟩ := (Nat.dvd_prime_pow Nat.prime_two).1 (Dvd.intro_left _ hq)
    have hjW : j ≤ W := (Nat.pow_le_pow_iff_right (by decide : 1 < 2)).1 (by omega)
    have hne : c ≠ 2 ^ W := by
      rintro rfl
      have hmod := hc.mod_eq
      rw [Nat.mod_eq_zero_of_dvd (Nat.pow_dvd_pow 2 hjW)] at hmod
      omega
    have hlt : i < W := (Nat.pow_lt_pow_iff_right (by decide : 1 < 2)).1 (by omega)
    have hle : 2 ^ (i + 1) ≤ 2 ^ W := Nat.pow_le_pow_right (by decide) hlt
    have hone : 1 ≤ 2 ^ i := Nat.one_le_two_pow
    rw [Nat.pow_succ] at hle
    omega
  · have hsub : c * (d - r) + c ≤ c * d := by
      rw [← Nat.mul_succ]
      exact Nat.mul_le_mul_left c (by omega)
    have hmul : (q + 2) * d ≤ c * d := by
      rw [Nat.add_mul]
      omega
    exact (Nat.le_of_mul_le_mul_right hmul (by omega)).trans hcN

/-! ### Dividends with a sign -/

theorem neg_ediv_eq {k b : ℕ} (hk : 0 < k) (hb : 0 < b) :
    (-(k : ℤ)) / (b : ℤ) = -(((k - 1) / b : ℕ) : ℤ) - 1 := by
  obtain ⟨j, rfl⟩ := Nat.exists_eq_add_of_lt hk
  have hneg : (-((0 + j + 1 : ℕ) : ℤ)) = Int.negSucc j := by rw [Int.negSucc_eq]; push_cast; ring
  rw [hneg, Int.negSucc_ediv _ (by exact_mod_cast hb), Nat.zero_add, Nat.add_sub_cancel]
  change -((j / b : ℕ) + 1 : ℤ) = _
  ring

/-- The shifted product, plus one if it is negative, is the quotient rounded towards zero. -/
theorem signed_mul_div {x : ℤ} (hd : 0 < d) (he : 0 < e) (hdp : d ≤ 2 ^ p)
    (hm : d * m = 2 ^ p + e) (hpos : 0 ≤ x → x.natAbs * e < 2 ^ p * (d - x.natAbs % d))
    (hneg : x < 0 → x.natAbs * e < 2 ^ p * (d - x.natAbs % d) + d) :
    x * m / 2 ^ p + (if x * m / 2 ^ p < 0 then 1 else 0) = x.tdiv d := by
  have hcast : ((2 ^ p : ℕ) : ℤ) = 2 ^ p := by push_cast; rfl
  rcases lt_or_ge x 0 with hx | hx
  · obtain ⟨n, rfl⟩ : ∃ n : ℕ, x = -(n : ℤ) := ⟨x.natAbs, by omega⟩
    have hn : 0 < n := by omega
    have hneg' := hneg hx
    rw [Int.natAbs_neg, Int.natAbs_natCast] at hneg'
    have hnm : 0 < n * m := by
      refine Nat.mul_pos hn (Nat.pos_of_ne_zero ?_)
      rintro rfl
      omega
    have hq : -(n : ℤ) * m / 2 ^ p = -((n / d : ℕ) : ℤ) - 1 := by
      rw [← hcast, ← pred_mul_div hd hn he hdp hm hneg', ← neg_ediv_eq hnm (Nat.two_pow_pos p)]
      push_cast
      rw [neg_mul]
    have hnonneg : (0 : ℤ) ≤ ((n / d : ℕ) : ℤ) := Int.natCast_nonneg _
    rw [hq, if_pos (by linarith), Int.neg_tdiv, Int.ofNat_tdiv]
    ring
  · obtain ⟨n, rfl⟩ := Int.eq_ofNat_of_zero_le hx
    have hpos' := hpos hx
    rw [Int.natAbs_natCast] at hpos'
    have hq : (n : ℤ) * m / 2 ^ p = ((n / d : ℕ) : ℤ) := by
      rw [← mul_div hd hm hpos', ← hcast]
      push_cast
      rfl
    have hnonneg : (0 : ℤ) ≤ ((n / d : ℕ) : ℤ) := Int.natCast_nonneg _
    rw [hq, if_neg (by linarith), Int.ofNat_tdiv]
    ring

end Reciprocal
