import Ldu.Idiom.Magic
import Ldu.Arith.Reciprocal
import Mathlib.Algebra.Order.Ring.Abs

/-!
# The recovered divisor is exact

The loops of `md_magics` and `md_magicu` keep the quotients and remainders of a growing power of
two by the divisor and by the critical dividend (`SignedRun`, `UnsignedRun`); the words never
overflow, except for the quotient by the divisor in the unsigned loop, which the add flag records.
They end because the power exceeds what the critical dividend asks for, and what they leave is a
reciprocal of the divisor. Hence the divisor found for an observed multiplier, shift and
correction is the one the code divides by (`mdFind_exact`).
-/

namespace Ldu

open Reciprocal

section Words

variable {W : ℕ}

theorem toNat_two_mul {x : BitVec W} (h : 2 * x.toNat < 2 ^ W) (hW : 2 ≤ W) :
    (2 * x).toNat = 2 * x.toNat := by
  have h4 : 2 ^ 2 ≤ 2 ^ W := Nat.pow_le_pow_right (by decide) hW
  have h2 : (BitVec.ofNat W 2).toNat = 2 := by
    rw [BitVec.toNat_ofNat, Nat.mod_eq_of_lt (by omega)]
  change (BitVec.ofNat W 2 * x).toNat = _
  rw [BitVec.toNat_mul, h2, Nat.mod_eq_of_lt h]

theorem toNat_add_one {x : BitVec W} (h : x.toNat + 1 < 2 ^ W) : (x + 1).toNat = x.toNat + 1 := by
  have h1 : (BitVec.ofNat W 1).toNat = 1 := by
    rw [BitVec.toNat_ofNat, Nat.mod_eq_of_lt (by omega)]
  change (x + BitVec.ofNat W 1).toNat = _
  rw [BitVec.toNat_add_of_lt (by rwa [h1]), h1]

theorem toNat_half (hW : 0 < W) : (BitVec.twoPow W (W - 1)).toNat = 2 ^ (W - 1) := by
  rw [BitVec.toNat_twoPow, Nat.mod_eq_of_lt (Nat.pow_lt_pow_right (by decide) (by omega))]

theorem toNat_sub_one {x : BitVec W} (hW : 0 < W) (hx : 0 < x.toNat) :
    (x - 1).toNat = x.toNat - 1 := by
  have hone : (BitVec.ofNat W 1).toNat = 1 := by
    rw [BitVec.toNat_ofNat, Nat.mod_eq_of_lt (Nat.one_lt_two_pow (by omega))]
  change (x - BitVec.ofNat W 1).toNat = _
  rw [BitVec.toNat_sub_of_le (by rw [BitVec.le_def, hone]; omega), hone]

/-- The quotient and the remainder of the next power of two. -/
theorem double_spec {q r n : BitVec W} {p : ℕ} (hW : 2 ≤ W)
    (heq : q.toNat * n.toNat + r.toNat = 2 ^ p) (hr : r.toNat < n.toNat)
    (hq : 2 * q.toNat + 1 < 2 ^ W) (hn : 2 * n.toNat ≤ 2 ^ W) :
    (if 2 * r ≥ n then 2 * q + 1 else 2 * q).toNat * n.toNat +
        (if 2 * r ≥ n then 2 * r - n else 2 * r).toNat = 2 ^ (p + 1) ∧
      (if 2 * r ≥ n then 2 * r - n else 2 * r).toNat < n.toNat := by
  have hr2 : (2 * r).toNat = 2 * r.toNat := toNat_two_mul (by omega) hW
  have hq2 : (2 * q).toNat = 2 * q.toNat := toNat_two_mul (by omega) hW
  rw [Nat.pow_succ, ← heq]
  split
  · next hge =>
    have hle : n.toNat ≤ 2 * r.toNat := by rwa [ge_iff_le, BitVec.le_def, hr2] at hge
    rw [toNat_add_one (by omega), BitVec.toNat_sub_of_le hge, hq2, hr2]
    refine ⟨?_, by omega⟩
    rw [Nat.add_mul, Nat.add_mul, Nat.mul_assoc]
    omega
  · next hlt =>
    have hlt : 2 * r.toNat < n.toNat := by
      rwa [ge_iff_le, BitVec.le_def, hr2, Nat.not_le] at hlt
    rw [hq2, hr2]
    refine ⟨?_, hlt⟩
    rw [Nat.add_mul, Nat.mul_assoc]
    omega

/-- The quotient and the remainder of `2 ^ (W - 1)`. -/
theorem div_spec {n : BitVec W} (x : BitVec W) (hn : 0 < n.toNat) :
    (x / n).toNat * n.toNat + (x - x / n * n).toNat = x.toNat ∧
      (x - x / n * n).toNat < n.toNat := by
  have hdiv := Nat.div_add_mod x.toNat n.toNat
  have hmul : (x / n * n).toNat = x.toNat / n.toNat * n.toNat := by
    rw [BitVec.toNat_mul, BitVec.toNat_udiv, Nat.mod_eq_of_lt]
    exact (Nat.div_mul_le_self _ _).trans_lt x.isLt
  have hle : x / n * n ≤ x := by
    rw [BitVec.le_def, hmul]
    exact Nat.div_mul_le_self _ _
  rw [BitVec.toNat_sub_of_le hle, hmul, BitVec.toNat_udiv]
  rw [Nat.mul_comm] at hdiv
  have := Nat.mod_lt x.toNat hn
  omega

/-- Both loops compare the quotient by the critical dividend with the excess. -/
theorem not_enough_iff {q r n δ : BitVec W} {p : ℕ} (heq : q.toNat * n.toNat + r.toNat = 2 ^ p)
    (hr : r.toNat < n.toNat) :
    (q < δ || (q == δ && r == 0)) = true ↔ 2 ^ p ≤ n.toNat * δ.toNat := by
  have hzero : (0 : BitVec W).toNat = 0 := BitVec.toNat_zero
  simp only [Bool.or_eq_true, decide_eq_true_eq, Bool.and_eq_true, beq_iff_eq, BitVec.lt_def,
    ← BitVec.toNat_inj, hzero]
  rw [← heq, Nat.mul_comm n.toNat]
  constructor
  · rintro (hq | ⟨hq, hr⟩)
    · have := Nat.mul_le_mul_right n.toNat hq
      rw [Nat.succ_mul] at this
      omega
    · rw [hq, hr]
      omega
  · intro hle
    rcases Nat.lt_trichotomy q.toNat δ.toNat with hq | hq | hq
    · exact .inl hq
    · rw [hq] at hle
      exact .inr ⟨hq, by omega⟩
    · have := Nat.mul_le_mul_right n.toNat hq
      rw [Nat.succ_mul] at this
      omega

/-- The quotient and the remainder of the next power of two, when twice the remainder may
overflow. -/
theorem double_spec_wide {q r n : BitVec W} {p : ℕ} (hW : 2 ≤ W)
    (heq : q.toNat * n.toNat + r.toNat = 2 ^ p) (hr : r.toNat < n.toNat)
    (hq : 2 * q.toNat + 1 < 2 ^ W) :
    (if r ≥ n - r then 2 * q + 1 else 2 * q).toNat * n.toNat +
        (if r ≥ n - r then 2 * r - n else 2 * r).toNat = 2 ^ (p + 1) ∧
      (if r ≥ n - r then 2 * r - n else 2 * r).toNat < n.toNat := by
  have hq2 : (2 * q).toNat = 2 * q.toNat := toNat_two_mul (by omega) hW
  have hsub : (n - r).toNat = n.toNat - r.toNat := BitVec.toNat_sub_of_le (BitVec.le_def.2 hr.le)
  rw [Nat.pow_succ, ← heq]
  split
  · next hge =>
    have hle : n.toNat - r.toNat ≤ r.toNat := by rwa [ge_iff_le, BitVec.le_def, hsub] at hge
    have hr2 : (2 * r - n).toNat = r.toNat - (n.toNat - r.toNat) := by
      rw [← hsub, ← BitVec.toNat_sub_of_le hge]
      congr 1
      ring
    rw [toNat_add_one (by omega), hr2, hq2]
    refine ⟨?_, by omega⟩
    rw [Nat.add_mul, Nat.add_mul, Nat.mul_assoc]
    omega
  · next hlt =>
    have hlt : r.toNat < n.toNat - r.toNat := by
      rwa [ge_iff_le, BitVec.le_def, hsub, Nat.not_le] at hlt
    have hn := n.isLt
    rw [hq2, toNat_two_mul (by omega) hW]
    refine ⟨?_, by omega⟩
    rw [Nat.add_mul, Nat.mul_assoc]
    omega

end Words

/-! ### The signed loop -/

section Signed

variable {W N : ℕ} {anc ad : BitVec W} {s : MagicsState W}

/-- The quotients and remainders of `2 ^ p`. -/
structure SignedRun (anc ad : BitVec W) (s : MagicsState W) : Prop where
  eq1 : s.q1.toNat * anc.toNat + s.r1.toNat = 2 ^ s.p
  lt1 : s.r1.toNat < anc.toNat
  eq2 : s.q2.toNat * ad.toNat + s.r2.toNat = 2 ^ s.p
  lt2 : s.r2.toNat < ad.toNat

/-- The loop goes on while `2 ^ p` is not enough for the critical dividend. -/
theorem SignedRun.again_iff (h : SignedRun anc ad s) :
    magicsAgain ad s = true ↔ 2 ^ s.p ≤ anc.toNat * (ad.toNat - s.r2.toNat) := by
  have hdelta : (ad - s.r2).toNat = ad.toNat - s.r2.toNat :=
    BitVec.toNat_sub_of_le (BitVec.le_def.2 h.lt2.le)
  unfold magicsAgain
  rw [not_enough_iff h.eq1 h.lt1, hdelta]

/-- What holds at the head of the loop. -/
structure SignedHead (W : ℕ) (anc ad : BitVec W) (s : MagicsState W) : Prop
    extends SignedRun anc ad s where
  le_p : W - 1 ≤ s.p
  again : s.p = W - 1 ∨ 2 ^ s.p ≤ anc.toNat * (ad.toNat - s.r2.toNat)

/-- The divisor is in the range of the search, and `anc` is its critical dividend. -/
structure SignedRange (W : ℕ) (N : ℕ) (anc ad : BitVec W) : Prop where
  width : 32 ≤ W
  divisor : 3 ≤ ad.toNat
  divisor_le : ad.toNat ≤ mdDlimit
  bound : N ≤ 2 ^ (W - 1)
  critical : Critical ad.toNat N anc.toNat
  bound_le : 2 ^ (W - 1) ≤ N + 1

theorem SignedRange.two_pow (h : SignedRange W N anc ad) :
    2 ^ W = 2 * 2 ^ (W - 1) ∧ 2 ^ 31 ≤ 2 ^ (W - 1) := by
  have hw := h.width
  refine ⟨?_, Nat.pow_le_pow_right (by decide) (by omega)⟩
  rw [← Nat.pow_succ']
  congr 1
  omega

theorem SignedHead.quot_le (hr : SignedRange W N anc ad) (h : SignedHead W anc ad s) :
    s.q2.toNat + 2 ≤ 2 ^ (W - 1) ∧ s.q1.toNat ≤ mdDlimit := by
  obtain ⟨hpow, h31⟩ := hr.two_pow
  have hd := hr.divisor
  have hlimit : ad.toNat ≤ 100000 := hr.divisor_le
  have hcle : 2 ^ (W - 1) < anc.toNat + ad.toNat + 1 := by
    have := hr.bound_le
    have := hr.critical.lt
    omega
  have heq1 := h.eq1
  have heq2 := h.eq2
  rcases h.again with hp | hle
  · rw [hp] at heq1 heq2
    have hq2 : s.q2.toNat * 3 ≤ s.q2.toNat * ad.toNat := Nat.mul_le_mul_left _ hd
    have hq1 : s.q1.toNat < 2 := by
      by_contra hge
      have := Nat.mul_le_mul_right anc.toNat (Nat.not_lt.1 hge)
      omega
    unfold mdDlimit
    omega
  · refine ⟨quot_lt_of_le hr.critical hr.bound hd (by omega) heq2 h.lt2 hle, ?_⟩
    have hq1 : s.q1.toNat * anc.toNat ≤ ad.toNat * anc.toNat := by
      have := Nat.mul_le_mul_left anc.toNat (Nat.sub_le ad.toNat s.r2.toNat)
      rw [Nat.mul_comm ad.toNat]
      omega
    exact (Nat.le_of_mul_le_mul_right hq1 (by omega)).trans hlimit

theorem SignedHead.body (hr : SignedRange W N anc ad) (h : SignedHead W anc ad s) :
    SignedRun anc ad (magicsBody anc ad s) := by
  obtain ⟨hq2, hq1⟩ := h.quot_le hr
  obtain ⟨hpow, h31⟩ := hr.two_pow
  have hw := hr.width
  have hlimit : ad.toNat ≤ 100000 := hr.divisor_le
  unfold mdDlimit at hq1
  have hanc : anc.toNat ≤ 2 ^ (W - 1) := hr.critical.le.trans hr.bound
  obtain ⟨heq1, hlt1⟩ := double_spec (by omega) h.eq1 h.lt1 (by omega) (by omega)
  obtain ⟨heq2, hlt2⟩ := double_spec (by omega) h.eq2 h.lt2 (by omega) (by omega)
  exact ⟨heq1, hlt1, heq2, hlt2⟩

theorem SignedHead.post (hr : SignedRange W N anc ad) (h : SignedHead W anc ad s) :
    SignedRun anc ad (magicsBody anc ad s) ∧ W ≤ (magicsBody anc ad s).p ∧
      (magicsBody anc ad s).q2.toNat + 1 < 2 ^ W := by
  have hrun := h.body hr
  obtain ⟨hq2, -⟩ := h.quot_le hr
  obtain ⟨hpow, -⟩ := hr.two_pow
  have hp : (magicsBody anc ad s).p = s.p + 1 := rfl
  refine ⟨hrun, by have := h.le_p; omega, ?_⟩
  have hlt : (magicsBody anc ad s).q2.toNat * ad.toNat < 2 * (s.q2.toNat + 1) * ad.toNat := by
    have heq := hrun.eq2
    have heq' := h.eq2
    have hlt := h.lt2
    rw [hp, Nat.pow_succ] at heq
    rw [Nat.mul_assoc, Nat.add_mul]
    omega
  have := Nat.lt_of_mul_lt_mul_right hlt
  omega

theorem SignedHead.again_body (hr : SignedRange W N anc ad) (h : SignedHead W anc ad s)
    (hagain : magicsAgain ad (magicsBody anc ad s) = true) :
    SignedHead W anc ad (magicsBody anc ad s) ∧
      2 * W - 1 - (magicsBody anc ad s).p < 2 * W - 1 - s.p := by
  obtain ⟨hrun, hp, -⟩ := h.post hr
  have hle := hrun.again_iff.1 hagain
  refine ⟨⟨hrun, by omega, .inr hle⟩, ?_⟩
  have hlt : 2 ^ (magicsBody anc ad s).p < 2 ^ (2 * W - 1) := by
    calc 2 ^ (magicsBody anc ad s).p
        ≤ anc.toNat * (ad.toNat - (magicsBody anc ad s).r2.toNat) := hle
      _ ≤ 2 ^ (W - 1) * ad.toNat :=
        Nat.mul_le_mul (hr.critical.le.trans hr.bound) (Nat.sub_le _ _)
      _ < 2 ^ (W - 1) * 2 ^ W := Nat.mul_lt_mul_of_pos_left ad.isLt (Nat.two_pow_pos _)
      _ = 2 ^ (2 * W - 1) := by
        rw [← Nat.pow_add]
        congr 1
        have := hr.width
        omega
  have hlt := (Nat.pow_lt_pow_iff_right (by decide : 1 < 2)).1 hlt
  have hstep : (magicsBody anc ad s).p = s.p + 1 := rfl
  omega

/-- The state before the first round. -/
theorem signedHead_init (hr : SignedRange W N anc ad) :
    SignedHead W anc ad (magicsInit anc ad) := by
  have hw := hr.width
  have hd := hr.divisor
  have hcrit := hr.critical.divisor_le
  have htwo : (BitVec.twoPow W (W - 1)).toNat = 2 ^ (W - 1) := toNat_half (by omega)
  obtain ⟨heq1, hlt1⟩ := div_spec (BitVec.twoPow W (W - 1)) (show 0 < anc.toNat by omega)
  obtain ⟨heq2, hlt2⟩ := div_spec (BitVec.twoPow W (W - 1)) (show 0 < ad.toNat by omega)
  rw [htwo] at heq1 heq2
  exact ⟨⟨heq1, hlt1, heq2, hlt2⟩, le_rfl, .inl rfl⟩

/-- The loop ends with a power of two that is enough for the critical dividend, and the quotient
still has room for the multiplier. -/
theorem magics_loop (hr : SignedRange W N anc ad) :
    ∃ s, doWhile (magicsBody anc ad) (magicsAgain ad) (2 * W) (magicsInit anc ad) = some s ∧
      SignedRun anc ad s ∧ W ≤ s.p ∧ s.q2.toNat + 1 < 2 ^ W ∧
      anc.toNat * (ad.toNat - s.r2.toNat) < 2 ^ s.p := by
  have hw := hr.width
  obtain ⟨s, hs, ⟨hrun, hp, hq⟩, hagain⟩ := doWhile_spec (SignedHead W anc ad)
    (fun s ↦ SignedRun anc ad s ∧ W ≤ s.p ∧ s.q2.toNat + 1 < 2 ^ W) (fun s ↦ 2 * W - 1 - s.p)
    (fun s h ↦ h.post hr) (fun s h hagain ↦ h.again_body hr hagain) (signedHead_init hr)
    (show 2 * W - 1 - (W - 1) < 2 * W by omega)
  refine ⟨s, hs, hrun, hp, hq, ?_⟩
  rw [← Bool.not_eq_true, hrun.again_iff] at hagain
  omega

/-! ### The signed magic number -/

theorem toNat_ushiftRight_msb (hW : 0 < W) (x : BitVec W) :
    (x >>> (W - 1)).toNat = if x.msb then 1 else 0 := by
  have hpow : 2 ^ W = 2 * 2 ^ (W - 1) := by
    rw [← Nat.pow_succ']
    congr 1
    omega
  have hlt := x.isLt
  rw [BitVec.toNat_ushiftRight, Nat.shiftRight_eq_div_pow, BitVec.msb_eq_decide]
  by_cases h : 2 ^ (W - 1) ≤ x.toNat
  · rw [if_pos (by simpa using h)]
    exact Nat.div_eq_of_lt_le (by omega) (by omega)
  · rw [if_neg (by simpa using h)]
    exact Nat.div_eq_of_lt (by omega)

/-- The largest absolute value of a dividend of the sign that gives a positive quotient. -/
def dividendBound (W : ℕ) (d : ℤ) : ℕ :=
  if d < 0 then 2 ^ (W - 1) else 2 ^ (W - 1) - 1

theorem toNat_ofInt_of_nonneg {y : ℤ} (h : 0 ≤ y) (hlt : y.toNat < 2 ^ W) :
    (BitVec.ofInt W y).toNat = y.toNat := by
  rw [BitVec.toNat_ofInt, Int.emod_eq_of_lt h]
  rw [← Int.toNat_of_nonneg h]
  exact_mod_cast hlt

/-- The divisor as a word. -/
theorem ofInt_divisor {d : ℤ} (hW : 32 ≤ W) (hd : d.natAbs ≤ mdDlimit) :
    (magicsAbs (BitVec.ofInt W d)).toNat = d.natAbs ∧
      (BitVec.ofInt W d).msb = decide (d < 0) := by
  have h31 : 2 ^ 31 ≤ 2 ^ (W - 1) := Nat.pow_le_pow_right (by decide) (by omega)
  have hpow : 2 ^ (W - 1) ≤ 2 ^ W := Nat.pow_le_pow_right (by decide) (by omega)
  have h31' : (2 : ℤ) ^ 31 ≤ 2 ^ (W - 1) := by exact_mod_cast h31
  unfold mdDlimit at hd
  have hmsb : (BitVec.ofInt W d).msb = decide (d < 0) := by
    rw [BitVec.msb_eq_toInt, BitVec.toInt_ofInt_eq_self (by omega) (by omega) (by omega)]
  refine ⟨?_, hmsb⟩
  unfold magicsAbs
  rw [hmsb]
  by_cases hneg : d < 0
  · rw [if_pos (by simpa using hneg), ← BitVec.ofInt_neg,
      toNat_ofInt_of_nonneg (by omega) (by omega)]
    omega
  · rw [if_neg (by simpa using hneg), toNat_ofInt_of_nonneg (by omega) (by omega)]
    omega

/-- The loop of `md_magics` runs in range for every divisor searched. -/
theorem signedRange {d : ℤ} (hW : 32 ≤ W) (h3 : 3 ≤ d.natAbs) (hd : d.natAbs ≤ mdDlimit) :
    SignedRange W (dividendBound W d) (magicsCritical (BitVec.ofInt W d))
      (magicsAbs (BitVec.ofInt W d)) := by
  have h31 : 2 ^ 31 ≤ 2 ^ (W - 1) := Nat.pow_le_pow_right (by decide) (by omega)
  have hpow : 2 ^ W = 2 * 2 ^ (W - 1) := by
    rw [← Nat.pow_succ']
    congr 1
    omega
  obtain ⟨habs, hmsb⟩ := ofInt_divisor hW hd
  have hlimit : d.natAbs ≤ 100000 := hd
  have hbound : dividendBound W d + 1 = 2 ^ (W - 1) + if d < 0 then 1 else 0 := by
    unfold dividendBound
    split <;> omega
  have hle : dividendBound W d ≤ 2 ^ (W - 1) := by
    unfold dividendBound
    split <;> omega
  have ht : (BitVec.twoPow W (W - 1) + BitVec.ofInt W d >>> (W - 1)).toNat =
      dividendBound W d + 1 := by
    have htwo : (BitVec.twoPow W (W - 1)).toNat = 2 ^ (W - 1) := toNat_half (by omega)
    have hsign : (BitVec.ofInt W d >>> (W - 1)).toNat = if d < 0 then 1 else 0 := by
      rw [toNat_ushiftRight_msb (by omega), hmsb]
      simp
    rw [BitVec.toNat_add_of_lt, htwo, hsign, hbound]
    rw [htwo, hsign]
    split <;> omega
  have hanc : (magicsCritical (BitVec.ofInt W d)).toNat =
      dividendBound W d - (dividendBound W d + 1) % d.natAbs := by
    have hmod : (dividendBound W d + 1) % d.natAbs < d.natAbs := Nat.mod_lt _ (by omega)
    have hpred : (BitVec.twoPow W (W - 1) + BitVec.ofInt W d >>> (W - 1) - 1).toNat =
        dividendBound W d := by
      rw [toNat_sub_one (by omega) (by omega), ht, Nat.add_sub_cancel]
    unfold magicsCritical
    rw [BitVec.toNat_sub_of_le, hpred, BitVec.toNat_umod, ht, habs]
    rw [BitVec.le_def, hpred, BitVec.toNat_umod, ht, habs]
    omega
  refine ⟨hW, habs ▸ h3, habs ▸ hd, hle, ?_, by omega⟩
  rw [habs, hanc]
  exact critical_of_mod (by omega) (by omega)

/-- The multiplier is a reciprocal of the divisor, good for the critical dividend. -/
structure SignedSpec (W : ℕ) (d : ℤ) (mg : SignedMagic W) (m e c : ℕ) : Prop where
  M_eq : mg.M = if d < 0 then -BitVec.ofNat W m else BitVec.ofNat W m
  m_lt : m < 2 ^ W
  eq : d.natAbs * m = 2 ^ (W + mg.s) + e
  e_pos : 0 < e
  e_le : e ≤ d.natAbs
  critical : Critical d.natAbs (dividendBound W d) c
  enough : c * e < 2 ^ (W + mg.s)

theorem mdMagics_spec {d : ℤ} (hW : 32 ≤ W) (h3 : 3 ≤ d.natAbs) (hd : d.natAbs ≤ mdDlimit) :
    ∃ mg m e c, mdMagics W d = some mg ∧ SignedSpec W d mg m e c := by
  have hr := signedRange hW h3 hd
  obtain ⟨habs, hmsb⟩ := ofInt_divisor hW hd
  obtain ⟨s, hs, hrun, hp, hq, hlt⟩ := magics_loop hr
  have hcrit := hr.critical
  have heq := hrun.eq2
  have hr2 := hrun.lt2
  rw [habs] at hcrit heq hr2 hlt
  have hm : BitVec.ofNat W (s.q2.toNat + 1) = s.q2 + 1 := by
    rw [BitVec.ofNat_add, BitVec.ofNat_toNat, BitVec.setWidth_eq]
    rfl
  have hps : W + (s.p - W) = s.p := by omega
  refine ⟨⟨if d < 0 then -BitVec.ofNat W (s.q2.toNat + 1) else BitVec.ofNat W (s.q2.toNat + 1),
    s.p - W⟩, s.q2.toNat + 1, d.natAbs - s.r2.toNat, _, ?_,
    ⟨rfl, hq, ?_, by omega, by omega, hcrit, ?_⟩⟩
  · unfold mdMagics
    dsimp only
    rw [hs, hmsb, hm]
    by_cases hneg : d < 0 <;> simp [hneg]
  · dsimp only
    rw [hps, Nat.mul_add, Nat.mul_comm d.natAbs]
    omega
  · dsimp only
    rwa [hps]

theorem SignedSpec.m_pos {d : ℤ} {mg : SignedMagic W} {m e c : ℕ}
    (h : SignedSpec W d mg m e c) : 0 < m := by
  refine Nat.pos_of_ne_zero ?_
  rintro rfl
  have heq := h.eq
  have hpos := Nat.two_pow_pos (W + mg.s)
  rw [Nat.mul_zero] at heq
  omega

/-- The corrected multiplier, as an integer. -/
theorem SignedSpec.corrected {d : ℤ} {mg : SignedMagic W} {m e c : ℕ} (hd : d ≠ 0)
    (h : SignedSpec W d mg m e c) :
    mg.M.toInt + predCorr d mg.M * 2 ^ W = if d < 0 then -(m : ℤ) else m := by
  have hm := h.m_lt
  have hpos := h.m_pos
  have hofNat : (BitVec.ofNat W m).toNat = m := by rw [BitVec.toNat_ofNat, Nat.mod_eq_of_lt hm]
  have hcast : ((2 ^ W : ℕ) : ℤ) = 2 ^ W := by push_cast; rfl
  rw [BitVec.toInt_eq_msb_cond]
  rcases lt_or_gt_of_ne hd with hneg | hgt
  · have hM : (mg.M.toNat : ℤ) = 2 ^ W - m := by
      rw [h.M_eq, if_pos hneg, BitVec.toNat_neg, hofNat, Nat.mod_eq_of_lt (by omega),
        Nat.cast_sub hm.le, hcast]
    have hnot : ¬ 0 < d := by omega
    rw [if_pos hneg, hM]
    cases hmsb : mg.M.msb <;> simp [predCorr, hmsb, hneg, hnot]
    ring
  · have hM : (mg.M.toNat : ℤ) = m := by
      rw [h.M_eq, if_neg (by omega), hofNat]
    have hnot : ¬ d < 0 := by omega
    rw [if_neg hnot, hM]
    cases hmsb : mg.M.msb <;> simp [predCorr, hmsb, hgt, hnot]

/-- The corrected high product does not overflow. -/
theorem toInt_highProduct (hW : 0 < W) {x M : BitVec W} {corr k : ℤ}
    (hk : M.toInt + corr * 2 ^ W = k) (hlt : k.natAbs < 2 ^ W) :
    (mulhs x M + BitVec.ofInt W corr * x).toInt = x.toInt * k / 2 ^ W := by
  have hsum : mulhs x M + BitVec.ofInt W corr * x = BitVec.ofInt W (x.toInt * k / 2 ^ W) := by
    have hx : x = BitVec.ofInt W x.toInt := (BitVec.ofInt_toInt).symm
    have hdiv : x.toInt * k / 2 ^ W = x.toInt * M.toInt / 2 ^ W + corr * x.toInt := by
      rw [← hk, mul_add, show x.toInt * (corr * 2 ^ W) = corr * x.toInt * 2 ^ W by ring,
        Int.add_mul_ediv_right _ _ (by positivity)]
    rw [hdiv, BitVec.ofInt_add, BitVec.ofInt_mul, ← hx]
    rfl
  rw [hsum]
  have hpos : (0 : ℤ) < 2 ^ W := by positivity
  have hhalf : (0 : ℤ) < 2 ^ (W - 1) := by positivity
  have hk' : |k| ≤ 2 ^ W - 1 := by
    have hcast : (k.natAbs : ℤ) < 2 ^ W := by exact_mod_cast hlt
    rw [Int.abs_eq_natAbs]
    exact Int.le_sub_one_of_lt hcast
  have hx : |x.toInt| ≤ 2 ^ (W - 1) := abs_le.2 ⟨x.le_toInt, BitVec.toInt_lt.le⟩
  have habs : |x.toInt * k| ≤ 2 ^ (W - 1) * (2 ^ W - 1) := by
    rw [abs_mul]
    exact mul_le_mul hx hk' (abs_nonneg k) hhalf.le
  obtain ⟨hlow, hhigh⟩ := abs_le.1 habs
  refine BitVec.toInt_ofInt_eq_self hW (Int.le_ediv_of_mul_le hpos ?_)
    (Int.ediv_lt_of_lt_mul hpos ?_)
  · linarith
  · linarith

/-- A word plus its sign bit. -/
theorem toInt_add_signBit (hW : 1 < W) (q : BitVec W) :
    (q + q >>> (W - 1)).toInt = q.toInt + if q.toInt < 0 then 1 else 0 := by
  have hsign : q >>> (W - 1) = BitVec.ofInt W (if q.toInt < 0 then 1 else 0) := by
    refine BitVec.eq_of_toNat_eq ?_
    have hone : 1 < 2 ^ W := Nat.one_lt_two_pow (by omega)
    rw [toNat_ushiftRight_msb (by omega), BitVec.msb_eq_toInt]
    by_cases h : q.toInt < 0
    · simp only [h, decide_true, if_true]
      rw [toNat_ofInt_of_nonneg (by decide) (by simpa using hone)]
      rfl
    · simp [h]
  have hsum : q + q >>> (W - 1) = BitVec.ofInt W (q.toInt + if q.toInt < 0 then 1 else 0) := by
    rw [hsign, BitVec.ofInt_add, BitVec.ofInt_toInt]
  have hle := q.le_toInt
  have hlt := q.toInt_lt
  have hhalf : (0 : ℤ) < 2 ^ (W - 1) := by positivity
  rw [hsum]
  exact BitVec.toInt_ofInt_eq_self (by omega) (by split <;> omega) (by split <;> omega)

/-- The sign of the divisor moves to the dividend. -/
def signedDividend (d x : ℤ) : ℤ :=
  if d < 0 then -x else x

theorem signedDividend_tdiv {d : ℤ} (x : ℤ) : (signedDividend d x).tdiv d.natAbs = x.tdiv d := by
  unfold signedDividend
  split
  · next h =>
    rw [Int.ofNat_natAbs_of_nonpos h.le, Int.neg_tdiv_neg]
  · next h =>
    rw [Int.natAbs_of_nonneg (by omega)]

/-- The excess is small enough for every dividend. -/
theorem SignedSpec.excess {d : ℤ} {mg : SignedMagic W} {m e c : ℕ} (hW : 32 ≤ W)
    (hd : 0 < d.natAbs) (h : SignedSpec W d mg m e c) (x : BitVec W) :
    (0 ≤ signedDividend d x.toInt → (signedDividend d x.toInt).natAbs * e <
        2 ^ (W + mg.s) * (d.natAbs - (signedDividend d x.toInt).natAbs % d.natAbs)) ∧
      (signedDividend d x.toInt < 0 → (signedDividend d x.toInt).natAbs * e <
        2 ^ (W + mg.s) * (d.natAbs - (signedDividend d x.toInt).natAbs % d.natAbs) + d.natAbs) := by
  have hle := x.le_toInt
  have hlt := x.toInt_lt
  have hcast : ((2 ^ (W - 1) : ℕ) : ℤ) = 2 ^ (W - 1) := by push_cast; rfl
  have hone : 0 < 2 ^ (W - 1) := Nat.two_pow_pos _
  have hc := h.critical.lt
  unfold signedDividend dividendBound at *
  by_cases hneg : d < 0
  · simp only [if_pos hneg] at hc ⊢
    have hbound : (-x.toInt).natAbs < c + d.natAbs := by omega
    have := excess_lt h.critical hd h.enough hbound
    exact ⟨fun _ ↦ this, fun _ ↦ Nat.lt_add_right _ this⟩
  · simp only [if_neg hneg] at hc ⊢
    refine ⟨fun hpos ↦ excess_lt h.critical hd h.enough (by omega), fun hlt0 ↦ ?_⟩
    refine excess_lt_succ h.critical hd (k := 2 ^ (mg.s + 1)) ?_ h.eq h.e_le h.enough ?_
    · unfold dividendBound
      rw [if_neg hneg, Nat.sub_add_cancel hone, ← pow_add]
      congr 1
      omega
    · unfold dividendBound
      rw [if_neg hneg]
      omega

/-- The shifted high product, plus its sign bit, is the quotient by the divisor. -/
theorem SignedSpec.quotient {d : ℤ} {mg : SignedMagic W} {m e c : ℕ} (hW : 32 ≤ W)
    (h3 : 3 ≤ d.natAbs) (hd : d.natAbs ≤ mdDlimit) (h : SignedSpec W d mg m e c) (x : BitVec W) :
    (signedQuotient x mg.M mg.s (predCorr d mg.M)).toInt = x.toInt.tdiv d := by
  have hd0 : 0 < d.natAbs := by omega
  have hq : (mulhs x mg.M + BitVec.ofInt W (predCorr d mg.M) * x).toInt >>> mg.s =
      signedDividend d x.toInt * m / 2 ^ (W + mg.s) := by
    rw [toInt_highProduct (by omega) (h.corrected (by omega)), Int.shiftRight_eq_div_pow,
      Int.ediv_ediv_of_nonneg (by positivity), pow_add]
    · congr 1
      unfold signedDividend
      split <;> ring
    · have := h.m_lt
      split <;> simpa
  have hdiv : signedDividend d x.toInt * m / 2 ^ (W + mg.s) +
      (if signedDividend d x.toInt * m / 2 ^ (W + mg.s) < 0 then 1 else 0) = x.toInt.tdiv d := by
    rw [← signedDividend_tdiv]
    obtain ⟨hpos, hneg⟩ := h.excess hW hd0 x
    have hdp : d.natAbs ≤ 2 ^ (W + mg.s) := by
      have : 2 ^ 17 ≤ 2 ^ (W + mg.s) := Nat.pow_le_pow_right (by decide) (by omega)
      unfold mdDlimit at hd
      omega
    exact signed_mul_div hd0 h.e_pos hdp h.eq hpos hneg
  unfold signedQuotient
  dsimp only
  rw [toInt_add_signBit (by omega), BitVec.toInt_sshiftRight, hq, hdiv]

end Signed

/-! ### The unsigned loop -/

section Unsigned

variable {W Q : ℕ} {nc dd : BitVec W} {s : MagicuState W}

/-- The quotients and remainders of `2 ^ p` and of `2 ^ p - 1`; the quotient by the divisor is
kept modulo `2 ^ W`, and the add flag says that the multiplier is beyond the words. -/
structure UnsignedRun (nc dd : BitVec W) (Q : ℕ) (s : MagicuState W) : Prop where
  eq1 : s.q1.toNat * nc.toNat + s.r1.toNat = 2 ^ s.p
  lt1 : s.r1.toNat < nc.toNat
  eq2 : Q * dd.toNat + s.r2.toNat + 1 = 2 ^ s.p
  lt2 : s.r2.toNat < dd.toNat
  quot : s.q2 = BitVec.ofNat W Q
  add : s.a = decide (2 ^ W ≤ Q + 1)

/-- The divisor is in the range of the search, and `nc` is its critical dividend. -/
structure UnsignedRange (W : ℕ) (nc dd : BitVec W) : Prop where
  width : 32 ≤ W
  divisor : 3 ≤ dd.toNat
  divisor_le : dd.toNat ≤ mdDlimit
  critical : Critical dd.toNat (2 ^ W - 1) nc.toNat

theorem UnsignedRange.two_pow (h : UnsignedRange W nc dd) :
    2 ^ W = 2 * 2 ^ (W - 1) ∧ 2 ^ 31 ≤ 2 ^ (W - 1) := by
  have hw := h.width
  refine ⟨?_, Nat.pow_le_pow_right (by decide) (by omega)⟩
  rw [← Nat.pow_succ']
  congr 1
  omega

/-- The distance of the last multiple of the divisor. -/
theorem UnsignedRun.toNat_delta (hr : UnsignedRange W nc dd) (h : UnsignedRun nc dd Q s) :
    (dd - 1 - s.r2).toNat = dd.toNat - 1 - s.r2.toNat := by
  obtain ⟨hpow, h31⟩ := hr.two_pow
  have hd := hr.divisor
  have hlt := h.lt2
  have hw := hr.width
  have hpred : (dd - 1).toNat = dd.toNat - 1 := toNat_sub_one (by omega) (by omega)
  rw [BitVec.toNat_sub_of_le (by rw [BitVec.le_def, hpred]; omega), hpred]

theorem UnsignedRun.again_iff (hr : UnsignedRange W nc dd) (h : UnsignedRun nc dd Q s) :
    magicuAgain dd s = true ↔
      s.p < 2 * W ∧ 2 ^ s.p ≤ nc.toNat * (dd.toNat - 1 - s.r2.toNat) := by
  rw [← h.toNat_delta hr, ← not_enough_iff h.eq1 h.lt1]
  unfold magicuAgain
  rw [Bool.and_eq_true, decide_eq_true_eq]

/-- What holds at the head of the loop. -/
structure UnsignedHead (W : ℕ) (nc dd : BitVec W) (Q : ℕ) (s : MagicuState W) : Prop
    extends UnsignedRun nc dd Q s where
  le_p : W - 1 ≤ s.p
  again : s.p = W - 1 ∨ 2 ^ s.p ≤ nc.toNat * (dd.toNat - 1 - s.r2.toNat)

/-- What holds after the body. -/
structure UnsignedPost (W : ℕ) (nc dd : BitVec W) (Q : ℕ) (s : MagicuState W) : Prop
    extends UnsignedRun nc dd Q s where
  le_p : W ≤ s.p
  quot_lt : Q + 1 < 2 ^ (W + 1)

theorem UnsignedHead.quot_le (hr : UnsignedRange W nc dd) (h : UnsignedHead W nc dd Q s) :
    Q + 2 ≤ 2 ^ W ∧ s.q1.toNat ≤ mdDlimit := by
  obtain ⟨hpow, h31⟩ := hr.two_pow
  have hd := hr.divisor
  have hlimit : dd.toNat ≤ 100000 := hr.divisor_le
  have hcle : 2 ^ W ≤ nc.toNat + dd.toNat := by
    have := hr.critical.lt
    omega
  have heq1 := h.eq1
  have heq2 := h.eq2
  rcases h.again with hp | hle
  · rw [hp] at heq1 heq2
    have hq2 : Q * 3 ≤ Q * dd.toNat := Nat.mul_le_mul_left _ hd
    have hq1 : s.q1.toNat < 2 := by
      by_contra hge
      have := Nat.mul_le_mul_right nc.toNat (Nat.not_lt.1 hge)
      omega
    unfold mdDlimit
    omega
  · have hδ : nc.toNat * (dd.toNat - 1 - s.r2.toNat) ≤ dd.toNat * nc.toNat := by
      rw [Nat.mul_comm dd.toNat]
      exact Nat.mul_le_mul_left _ (by omega)
    have hq1 : s.q1.toNat * nc.toNat ≤ dd.toNat * nc.toNat := by omega
    have hQ : Q * dd.toNat < nc.toNat * dd.toNat := by
      rw [Nat.mul_comm nc.toNat]
      omega
    have hQ := Nat.lt_of_mul_lt_mul_right hQ
    have := hr.critical.le
    exact ⟨by omega, (Nat.le_of_mul_le_mul_right hq1 (by omega)).trans hlimit⟩

/-- The quotient and the remainder of `2 ^ (p + 1) - 1`, and the add flag. -/
theorem UnsignedHead.double (hr : UnsignedRange W nc dd) (h : UnsignedHead W nc dd Q s) :
    ∃ Q', Q' ≤ 2 * Q + 1 ∧
      Q' * dd.toNat + (magicuBody nc dd s).r2.toNat + 1 = 2 ^ (s.p + 1) ∧
      (magicuBody nc dd s).r2.toNat < dd.toNat ∧
      (magicuBody nc dd s).q2 = BitVec.ofNat W Q' ∧
      (magicuBody nc dd s).a = decide (2 ^ W ≤ Q' + 1) := by
  obtain ⟨hQ, -⟩ := h.quot_le hr
  obtain ⟨hpow, h31⟩ := hr.two_pow
  have hw := hr.width
  have hlimit : dd.toNat ≤ 100000 := hr.divisor_le
  have hlt := h.lt2
  have hr1 : (s.r2 + 1).toNat = s.r2.toNat + 1 := toNat_add_one (by omega)
  have hr2 : (2 * s.r2).toNat = 2 * s.r2.toNat := toNat_two_mul (by omega) (by omega)
  have hr3 : (2 * s.r2 + 1).toNat = 2 * s.r2.toNat + 1 := by rw [toNat_add_one, hr2]; omega
  have hsub : (dd - s.r2).toNat = dd.toNat - s.r2.toNat :=
    BitVec.toNat_sub_of_le (BitVec.le_def.2 hlt.le)
  have htwo : (BitVec.twoPow W (W - 1)).toNat = 2 ^ (W - 1) := toNat_half (by omega)
  have hmax : (BitVec.twoPow W (W - 1) - 1).toNat = 2 ^ (W - 1) - 1 := by
    rw [toNat_sub_one (by omega) (by omega), htwo]
  have hq : s.q2.toNat = Q := by rw [h.quot, BitVec.toNat_ofNat, Nat.mod_eq_of_lt (by omega)]
  have hq2 : 2 * s.q2 = BitVec.ofNat W (2 * Q) := by rw [h.quot, BitVec.ofNat_mul]; rfl
  have ha : s.a = false := by rw [h.add, decide_eq_false_iff_not]; omega
  have heq2 := h.eq2
  simp only [magicuBody, ha, Bool.false_or]
  by_cases hge : s.r2 + 1 ≥ dd - s.r2
  · have hle := hge
    rw [ge_iff_le, BitVec.le_def, hr1, hsub] at hle
    simp only [if_pos hge]
    refine ⟨2 * Q + 1, le_rfl, ?_, ?_, ?_, ?_⟩
    · rw [BitVec.toNat_sub_of_le (by rw [BitVec.le_def, hr3]; omega), hr3, Nat.pow_succ,
        Nat.add_mul, Nat.mul_assoc]
      omega
    · rw [BitVec.toNat_sub_of_le (by rw [BitVec.le_def, hr3]; omega), hr3]
      omega
    · rw [hq2, BitVec.ofNat_add]
      rfl
    · rw [decide_eq_decide, ge_iff_le, BitVec.le_def, hmax, hq]
      omega
  · have hle := hge
    rw [ge_iff_le, BitVec.le_def, hr1, hsub] at hle
    simp only [if_neg hge]
    refine ⟨2 * Q, by omega, ?_, ?_, hq2, ?_⟩
    · rw [hr3, Nat.pow_succ, Nat.mul_assoc]
      omega
    · rw [hr3]
      omega
    · rw [decide_eq_decide, ge_iff_le, BitVec.le_def, htwo, hq]
      omega

theorem UnsignedHead.post (hr : UnsignedRange W nc dd) (h : UnsignedHead W nc dd Q s) :
    ∃ Q', UnsignedPost W nc dd Q' (magicuBody nc dd s) := by
  obtain ⟨hQ, hq1⟩ := h.quot_le hr
  obtain ⟨hpow, h31⟩ := hr.two_pow
  have hw := hr.width
  have hp := h.le_p
  unfold mdDlimit at hq1
  obtain ⟨heq1, hlt1⟩ := double_spec_wide (by omega) h.eq1 h.lt1 (by omega)
  obtain ⟨Q', hQ', heq2, hlt2, hquot, hadd⟩ := h.double hr
  refine ⟨Q', ⟨heq1, hlt1, heq2, hlt2, hquot, hadd⟩, ?_, ?_⟩
  · change W ≤ s.p + 1
    omega
  · rw [Nat.pow_succ]
    omega

theorem UnsignedPost.head (hr : UnsignedRange W nc dd) (h : UnsignedPost W nc dd Q s)
    (hagain : magicuAgain dd s = true) : UnsignedHead W nc dd Q s ∧ s.p < 2 * W := by
  obtain ⟨hp, hle⟩ := (h.again_iff hr).1 hagain
  have := h.le_p
  exact ⟨⟨h.toUnsignedRun, by omega, .inr hle⟩, hp⟩

/-- The state before the first round. -/
theorem unsignedHead_init (hr : UnsignedRange W nc dd) :
    ∃ Q, UnsignedHead W nc dd Q (magicuInit nc dd) := by
  obtain ⟨hpow, h31⟩ := hr.two_pow
  have hd := hr.divisor
  have hw := hr.width
  have hcrit := hr.critical.divisor_le
  have htwo : (BitVec.twoPow W (W - 1)).toNat = 2 ^ (W - 1) := toNat_half (by omega)
  have hmax : (BitVec.twoPow W (W - 1) - 1).toNat = 2 ^ (W - 1) - 1 := by
    rw [toNat_sub_one (by omega) (by omega), htwo]
  obtain ⟨heq1, hlt1⟩ := div_spec (BitVec.twoPow W (W - 1)) (show 0 < nc.toNat by omega)
  obtain ⟨heq2, hlt2⟩ := div_spec (BitVec.twoPow W (W - 1) - 1) (show 0 < dd.toNat by omega)
  rw [htwo] at heq1
  rw [hmax] at heq2
  refine ⟨((BitVec.twoPow W (W - 1) - 1) / dd).toNat,
    ⟨heq1, hlt1, ?_, hlt2, ?_, ?_⟩, le_rfl, .inl rfl⟩
  · change _ = 2 ^ (W - 1)
    change _ + (BitVec.twoPow W (W - 1) - 1 - (BitVec.twoPow W (W - 1) - 1) / dd * dd).toNat + 1 = _
    omega
  · rw [BitVec.ofNat_toNat, BitVec.setWidth_eq]
    rfl
  · have := Nat.le_mul_of_pos_right ((BitVec.twoPow W (W - 1) - 1) / dd).toNat
      (show 0 < dd.toNat by omega)
    change false = _
    rw [eq_comm, decide_eq_false_iff_not]
    omega

/-- The loop ends with a power of two that is enough for the critical dividend. -/
theorem magicu_loop (hr : UnsignedRange W nc dd) :
    ∃ s Q, doWhile (magicuBody nc dd) (magicuAgain dd) (2 * W) (magicuInit nc dd) = some s ∧
      UnsignedPost W nc dd Q s ∧ nc.toNat * (dd.toNat - 1 - s.r2.toNat) < 2 ^ s.p := by
  have hw := hr.width
  have hstep : ∀ s, (∃ Q, UnsignedHead W nc dd Q s) → magicuAgain dd (magicuBody nc dd s) = true →
      (∃ Q, UnsignedHead W nc dd Q (magicuBody nc dd s)) ∧
        2 * W - (magicuBody nc dd s).p < 2 * W - s.p := by
    rintro s ⟨Q, h⟩ hagain
    obtain ⟨Q', hpost⟩ := h.post hr
    obtain ⟨hhead, hp⟩ := hpost.head hr hagain
    have : (magicuBody nc dd s).p = s.p + 1 := rfl
    exact ⟨⟨Q', hhead⟩, by omega⟩
  obtain ⟨s, hs, ⟨Q, hpost⟩, hagain⟩ := doWhile_spec (fun s ↦ ∃ Q, UnsignedHead W nc dd Q s)
    (fun s ↦ ∃ Q, UnsignedPost W nc dd Q s) (fun s ↦ 2 * W - s.p)
    (fun s ⟨_, h⟩ ↦ h.post hr) hstep (unsignedHead_init hr)
    (show 2 * W - (W - 1) < 2 * W by omega)
  refine ⟨s, Q, hs, hpost, ?_⟩
  rw [← Bool.not_eq_true, hpost.again_iff hr] at hagain
  by_contra hle
  -- The loop also ends when `2 ^ p` has two words, which is more than enough.
  have hp : 2 * W ≤ s.p := by
    by_contra hlt
    exact hagain ⟨by omega, by omega⟩
  have hbound : nc.toNat * (dd.toNat - 1 - s.r2.toNat) < 2 ^ W * 2 ^ W := by
    refine Nat.mul_lt_mul'' nc.isLt ?_
    have := dd.isLt
    omega
  have := Nat.pow_le_pow_right (show 0 < 2 by decide) hp
  rw [two_mul W, Nat.pow_add] at this
  omega

/-! ### The unsigned magic number -/

/-- The loop of `md_magicu` runs in range for every divisor searched. -/
theorem unsignedRange {d : ℕ} (hW : 32 ≤ W) (h3 : 3 ≤ d) (hd : d ≤ mdDlimit) :
    UnsignedRange W (magicuCritical (BitVec.ofNat W d)) (BitVec.ofNat W d) ∧
      (BitVec.ofNat W d).toNat = d := by
  have h32 : 2 ^ 32 ≤ 2 ^ W := Nat.pow_le_pow_right (by decide) hW
  have hlimit : d ≤ 100000 := hd
  have hofNat : (BitVec.ofNat W d).toNat = d := by
    rw [BitVec.toNat_ofNat, Nat.mod_eq_of_lt (by omega)]
  refine ⟨⟨hW, by omega, by omega, ?_⟩, hofNat⟩
  have hmod : (2 ^ W - d) % d = 2 ^ W % d := by
    rw [← Nat.mod_eq_sub_mod (by omega)]
  have hmax : (-1 : BitVec W).toNat = 2 ^ W - 1 := by
    change (-BitVec.ofNat W 1).toNat = _
    rw [BitVec.toNat_neg, BitVec.toNat_ofNat, Nat.mod_eq_of_lt (show 1 < 2 ^ W by omega),
      Nat.mod_eq_of_lt (by omega)]
  have hneg : (-BitVec.ofNat W d % BitVec.ofNat W d).toNat = 2 ^ W % d := by
    rw [BitVec.toNat_umod, BitVec.toNat_neg, hofNat,
      Nat.mod_eq_of_lt (show 2 ^ W - d < 2 ^ W by omega), hmod]
  have hlt : 2 ^ W % d < d := Nat.mod_lt _ (by omega)
  have hnc : (magicuCritical (BitVec.ofNat W d)).toNat = 2 ^ W - 1 - 2 ^ W % d := by
    unfold magicuCritical
    rw [BitVec.toNat_sub_of_le, hmax, hneg]
    rw [BitVec.le_def, hmax, hneg]
    omega
  have hcrit : Critical d (2 ^ W - 1) (2 ^ W - 1 - (2 ^ W - 1 + 1) % d) :=
    critical_of_mod (by omega) (by omega)
  rw [Nat.sub_add_cancel (by omega), ← hnc] at hcrit
  rwa [hofNat]

/-- The multiplier is a reciprocal of the divisor, good for the critical dividend; with the add
flag it is `2 ^ W` more than its word. -/
structure UnsignedSpec (W d : ℕ) (mg : UnsignedMagic W) (m e c : ℕ) : Prop where
  M_eq : mg.M = BitVec.ofNat W m
  add : mg.a = decide (2 ^ W ≤ m)
  m_lt : m < 2 ^ (W + 1)
  eq : d * m = 2 ^ (W + mg.s) + e
  critical : Critical d (2 ^ W - 1) c
  enough : c * e < 2 ^ (W + mg.s)

theorem mdMagicu_spec {d : ℕ} (hW : 32 ≤ W) (h3 : 3 ≤ d) (hd : d ≤ mdDlimit) :
    ∃ mg m e c, mdMagicu W d = some mg ∧ UnsignedSpec W d mg m e c := by
  obtain ⟨hr, hofNat⟩ := unsignedRange hW h3 hd
  obtain ⟨s, Q, hs, hpost, hlt⟩ := magicu_loop hr
  have hcrit := hr.critical
  have heq := hpost.eq2
  have hr2 := hpost.lt2
  have hp := hpost.le_p
  rw [hofNat] at hcrit heq hr2 hlt
  have hps : W + (s.p - W) = s.p := by omega
  refine ⟨⟨s.q2 + 1, s.p - W, s.a⟩, Q + 1, d - 1 - s.r2.toNat, _, ?_,
    ⟨?_, hpost.add, hpost.quot_lt, ?_, hcrit, ?_⟩⟩
  · unfold mdMagicu
    dsimp only
    rw [hs]
    rfl
  · rw [BitVec.ofNat_add, ← hpost.quot]
    rfl
  · dsimp only
    rw [hps, Nat.mul_add, Nat.mul_comm d]
    omega
  · dsimp only
    rwa [hps]

theorem toNat_mulhu (x y : BitVec W) : (mulhu x y).toNat = x.toNat * y.toNat / 2 ^ W := by
  unfold mulhu
  rw [BitVec.toNat_ofNat, Nat.mod_eq_of_lt]
  exact Nat.div_lt_of_lt_mul (Nat.mul_lt_mul'' x.isLt y.isLt)

/-- Half of the sum of two words, without overflow. -/
theorem toNat_add_half_sub {x T : BitVec W} (h : T.toNat ≤ x.toNat) :
    (T + (x - T) >>> 1).toNat = (x.toNat + T.toNat) / 2 := by
  have hx := x.isLt
  have hsub : ((x - T) >>> 1).toNat = (x.toNat - T.toNat) / 2 := by
    rw [BitVec.toNat_ushiftRight, BitVec.toNat_sub_of_le (BitVec.le_def.2 h),
      Nat.shiftRight_eq_div_pow]
  rw [BitVec.toNat_add_of_lt, hsub]
  · omega
  · rw [hsub]
    omega

/-- The shifted high product, with or without the addition, is the quotient by the divisor. -/
theorem UnsignedSpec.quotient {d : ℕ} {mg : UnsignedMagic W} {m e c : ℕ} (h3 : 3 ≤ d)
    (h : UnsignedSpec W d mg m e c) (x : BitVec W) :
    (unsignedQuotient x mg.M mg.s mg.a).toNat = x.toNat / d := by
  have hx := x.isLt
  have hdiv : x.toNat * m / 2 ^ (W + mg.s) = x.toNat / d := by
    refine mul_div (by omega) h.eq (excess_lt h.critical (by omega) h.enough ?_)
    have := h.critical.lt
    omega
  rw [Nat.pow_add, ← Nat.div_div_eq_div_mul] at hdiv
  have hm := h.m_lt
  rw [Nat.pow_succ] at hm
  unfold unsignedQuotient
  dsimp only
  rw [h.add]
  by_cases ha : 2 ^ W ≤ m
  · -- The word of the multiplier is `m - 2 ^ W`, so the high product is short of one dividend.
    have hs : 1 ≤ mg.s := by
      refine Nat.one_le_iff_ne_zero.2 fun hs ↦ ?_
      have heq := h.eq
      have := Nat.mul_le_mul h3 ha
      have hcd := Nat.mul_le_mul_right e h.critical.divisor_le
      have henough := h.enough
      rw [hs, Nat.add_zero] at heq henough
      have := Nat.mul_le_mul_right e h3
      omega
    have hM : mg.M.toNat + 2 ^ W = m := by
      rw [h.M_eq, BitVec.toNat_ofNat, Nat.mod_eq_sub_mod ha, Nat.mod_eq_of_lt (by omega)]
      omega
    have hT : x.toNat * m / 2 ^ W = x.toNat + (mulhu x mg.M).toNat := by
      rw [toNat_mulhu, ← hM, Nat.mul_add, Nat.add_mul_div_right _ _ (Nat.two_pow_pos W),
        Nat.add_comm]
    have hle : (mulhu x mg.M).toNat ≤ x.toNat := by
      rw [toNat_mulhu]
      refine Nat.div_le_of_le_mul ?_
      rw [Nat.mul_comm]
      exact Nat.mul_le_mul_right _ mg.M.isLt.le
    simp only [ha, decide_true, if_true]
    rw [BitVec.toNat_ushiftRight, Nat.shiftRight_eq_div_pow, toNat_add_half_sub hle, ← hT,
      Nat.div_div_eq_div_mul, ← Nat.pow_succ', Nat.succ_eq_add_one, Nat.sub_add_cancel hs, hdiv]
  · have hM : mg.M.toNat = m := by
      rw [h.M_eq, BitVec.toNat_ofNat, Nat.mod_eq_of_lt (by omega)]
    simp only [ha, decide_false, Bool.false_eq_true, if_false]
    rw [BitVec.toNat_ushiftRight, Nat.shiftRight_eq_div_pow, toNat_mulhu, hM, hdiv]

end Unsigned

/-! ### The search -/

theorem absDivisors_range {ad : ℕ} (h : ad ∈ absDivisors) : 3 ≤ ad ∧ ad ≤ mdDlimit := by
  unfold absDivisors at h
  rw [List.mem_range'_1] at h
  unfold mdDlimit at *
  omega

theorem mdFindSigned_spec {M : BitVec 64} {s corr d : ℤ} {W : ℕ}
    (h : mdFindSigned M s corr W = some d) :
    3 ≤ d.natAbs ∧ d.natAbs ≤ mdDlimit ∧ signedFits M s corr W d = true := by
  obtain ⟨ad, hmem, hfind⟩ := List.exists_of_findSome?_eq_some h
  obtain ⟨h3, hle⟩ := absDivisors_range hmem
  have hfits := List.find?_some hfind
  have hd : d.natAbs = ad := by
    have := List.mem_of_find?_eq_some hfind
    simp only [List.mem_cons, List.not_mem_nil, or_false] at this
    omega
  exact ⟨by omega, by omega, hfits⟩

theorem mdFindUnsigned_spec {M : BitVec 64} {s : ℤ} {a : Bool} {W d : ℕ}
    (h : mdFindUnsigned M s a W = some d) :
    3 ≤ d ∧ d ≤ mdDlimit ∧ unsignedFits M s a W d = true := by
  obtain ⟨h3, hle⟩ := absDivisors_range (List.mem_of_find?_eq_some h)
  exact ⟨h3, hle, List.find?_some h⟩

/-- A divisor that the search returns is the one the observed code divides by, and the loops of
the search end for every divisor. -/
theorem mdFind_exact {W : ℕ} (hW : W = 32 ∨ W = 64) :
    (∀ (M : BitVec 64) (s corr d : ℤ), mdFindSigned M s corr W = some d →
        ∀ x : BitVec W,
          (signedQuotient x (M.setWidth W) s.toNat corr).toInt = x.toInt.tdiv d) ∧
      (∀ (M : BitVec 64) (s : ℤ) (a : Bool) (d : ℕ), mdFindUnsigned M s a W = some d →
        ∀ x : BitVec W,
          (unsignedQuotient x (M.setWidth W) s.toNat a).toNat = x.toNat / d) ∧
      (∀ d : ℤ, d.natAbs ∈ absDivisors → (mdMagics W d).isSome) ∧
      ∀ d ∈ absDivisors, (mdMagicu W d).isSome := by
  have hW32 : 32 ≤ W := by omega
  refine ⟨?_, ?_, ?_, ?_⟩
  · intro M s corr d hfind x
    obtain ⟨h3, hle, hfits⟩ := mdFindSigned_spec hfind
    obtain ⟨mg, m, e, c, hmg, hspec⟩ := mdMagics_spec hW32 h3 hle
    unfold signedFits at hfits
    rw [hmg] at hfits
    simp only [Bool.and_eq_true, beq_iff_eq] at hfits
    obtain ⟨⟨hM, rfl⟩, rfl⟩ := hfits
    rw [hM, Int.toNat_natCast]
    exact hspec.quotient hW32 h3 hle x
  · intro M s a d hfind x
    obtain ⟨h3, hle, hfits⟩ := mdFindUnsigned_spec hfind
    obtain ⟨mg, m, e, c, hmg, hspec⟩ := mdMagicu_spec hW32 h3 hle
    unfold unsignedFits at hfits
    rw [hmg] at hfits
    simp only [Bool.and_eq_true, beq_iff_eq] at hfits
    obtain ⟨⟨rfl, hM⟩, rfl⟩ := hfits
    rw [hM, Int.toNat_natCast]
    exact hspec.quotient h3 x
  · intro d hd
    obtain ⟨h3, hle⟩ := absDivisors_range hd
    obtain ⟨mg, -, -, -, hmg, -⟩ := mdMagics_spec hW32 h3 hle
    rw [hmg]
    rfl
  · intro d hd
    obtain ⟨h3, hle⟩ := absDivisors_range hd
    obtain ⟨mg, -, -, -, hmg, -⟩ := mdMagicu_spec hW32 h3 hle
    rw [hmg]
    rfl

/-- The multipliers of 3 and, with the add flag, of 7. -/
theorem mdFind_exact_three_seven :
    (∀ x : BitVec 32, (signedQuotient x (0x55555556#64 |>.setWidth 32) 0 0).toInt =
      x.toInt.tdiv 3) ∧
      ∀ x : BitVec 32,
        (unsignedQuotient x (0x24924925#64 |>.setWidth 32) 3 true).toNat = x.toNat / 7 :=
  ⟨(mdFind_exact (.inl rfl)).1 0x55555556#64 0 0 3 (by decide +kernel),
    (mdFind_exact (.inl rfl)).2.1 0x24924925#64 3 true 7 (by decide +kernel)⟩

end Ldu
