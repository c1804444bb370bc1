import Ldu.Arith.DoWhile
import Mathlib.Data.BitVec
import Mathlib.Data.List.Basic

/-!
# Magic numbers

The multiplier and the shift that replace a division by a constant, re-derived for a divisor
(`md_magics`, `md_magicu`), and the search for the divisor that has an observed multiplier and
shift (`md_find_signed`, `md_find_unsigned`).

The 32-bit and the 64-bit code are the same loops on words of another width, so both are one
definition over `BitVec W`. A loop that has not ended after `2 * W` rounds gives `none`.
-/

namespace Ldu

/-- Divisors are searched up to this, `MD_DLIMIT`. -/
def mdDlimit : ℕ := 100000

/-! ### Signed -/

/-- The variables of the loop of `md_magics`. -/
structure MagicsState (W : ℕ) where
  p : ℕ
  q1 : BitVec W
  r1 : BitVec W
  q2 : BitVec W
  r2 : BitVec W

/-- A signed magic number: the bit pattern of the multiplier, and the shift. -/
structure SignedMagic (W : ℕ) where
  M : BitVec W
  s : ℕ

section Signed

variable {W : ℕ}

/-- The body of the loop. -/
def magicsBody (anc ad : BitVec W) (s : MagicsState W) : MagicsState W :=
  let q1 := 2 * s.q1
  let r1 := 2 * s.r1
  let q2 := 2 * s.q2
  let r2 := 2 * s.r2
  { p := s.p + 1
    q1 := if r1 ≥ anc then q1 + 1 else q1
    r1 := if r1 ≥ anc then r1 - anc else r1
    q2 := if r2 ≥ ad then q2 + 1 else q2
    r2 := if r2 ≥ ad then r2 - ad else r2 }

/-- The condition of the loop. -/
def magicsAgain (ad : BitVec W) (s : MagicsState W) : Bool :=
  let delta := ad - s.r2
  s.q1 < delta || (s.q1 == delta && s.r1 == 0)

/-- The state before the first round. -/
def magicsInit (anc ad : BitVec W) : MagicsState W :=
  let two := BitVec.twoPow W (W - 1)
  { p := W - 1
    q1 := two / anc
    r1 := two - two / anc * anc
    q2 := two / ad
    r2 := two - two / ad * ad }

/-- The absolute value of the divisor. -/
def magicsAbs (dd : BitVec W) : BitVec W :=
  if dd.msb then -dd else dd

/-- The absolute value of the critical dividend. -/
def magicsCritical (dd : BitVec W) : BitVec W :=
  let t := BitVec.twoPow W (W - 1) + dd >>> (W - 1)
  t - 1 - t % magicsAbs dd

/-- The signed magic number of a divisor. -/
def mdMagics (W : ℕ) (d : ℤ) : Option (SignedMagic W) :=
  let dd := BitVec.ofInt W d
  let ad := magicsAbs dd
  let anc := magicsCritical dd
  (doWhile (magicsBody anc ad) (magicsAgain ad) (2 * W) (magicsInit anc ad)).map fun s ↦
    { M := if dd.msb then -(s.q2 + 1) else s.q2 + 1
      s := s.p - W }

end Signed

/-! ### Unsigned -/

/-- The variables of the loop of `md_magicu`. -/
structure MagicuState (W : ℕ) where
  p : ℕ
  a : Bool
  q1 : BitVec W
  r1 : BitVec W
  q2 : BitVec W
  r2 : BitVec W

/-- An unsigned magic number: the multiplier, the shift, and the add flag. -/
structure UnsignedMagic (W : ℕ) where
  M : BitVec W
  s : ℕ
  a : Bool

section Unsigned

variable {W : ℕ}

/-- The body of the loop. -/
def magicuBody (nc dd : BitVec W) (s : MagicuState W) : MagicuState W :=
  let max := BitVec.twoPow W (W - 1) - 1
  let half := BitVec.twoPow W (W - 1)
  { p := s.p + 1
    q1 := if s.r1 ≥ nc - s.r1 then 2 * s.q1 + 1 else 2 * s.q1
    r1 := if s.r1 ≥ nc - s.r1 then 2 * s.r1 - nc else 2 * s.r1
    a := s.a || if s.r2 + 1 ≥ dd - s.r2 then s.q2 ≥ max else s.q2 ≥ half
    q2 := if s.r2 + 1 ≥ dd - s.r2 then 2 * s.q2 + 1 else 2 * s.q2
    r2 := if s.r2 + 1 ≥ dd - s.r2 then 2 * s.r2 + 1 - dd else 2 * s.r2 + 1 }

/-- The condition of the loop. -/
def magicuAgain (dd : BitVec W) (s : MagicuState W) : Bool :=
  let delta := dd - 1 - s.r2
  s.p < 2 * W && (s.q1 < delta || (s.q1 == delta && s.r1 == 0))

/-- The state before the first round. -/
def magicuInit (nc dd : BitVec W) : MagicuState W :=
  let two := BitVec.twoPow W (W - 1)
  let max := two - 1
  { p := W - 1
    a := false
    q1 := two / nc
    r1 := two - two / nc * nc
    q2 := max / dd
    r2 := max - max / dd * dd }

/-- The critical dividend. -/
def magicuCritical (dd : BitVec W) : BitVec W :=
  -1 - -dd % dd

/-- The unsigned magic number of a divisor. -/
def mdMagicu (W : ℕ) (d : ℕ) : Option (UnsignedMagic W) :=
  let dd := BitVec.ofNat W d
  let nc := magicuCritical dd
  (doWhile (magicuBody nc dd) (magicuAgain dd) (2 * W) (magicuInit nc dd)).map fun s ↦
    { M := s.q2 + 1
      s := s.p - W
      a := s.a }

end Unsigned

/-! ### The quotients the multipliers compute -/

section Quotient

variable {W : ℕ}

/-- The high word of the signed product. -/
def mulhs (x y : BitVec W) : BitVec W :=
  BitVec.ofInt W (x.toInt * y.toInt / 2 ^ W)

/-- The high word of the unsigned product. -/
def mulhu (x y : BitVec W) : BitVec W :=
  BitVec.ofNat W (x.toNat * y.toNat / 2 ^ W)

/-- The corrected high product, shifted right by the sign, plus its sign bit. -/
def signedQuotient (x M : BitVec W) (s : ℕ) (corr : ℤ) : BitVec W :=
  let q := (mulhs x M + BitVec.ofInt W corr * x).sshiftRight s
  q + q >>> (W - 1)

/-- The high product shifted right; with the add flag, half of the dividend's distance to the
high product is added before. -/
def unsignedQuotient (x M : BitVec W) (s : ℕ) (a : Bool) : BitVec W :=
  let T := mulhu x M
  if a then (T + (x - T) >>> 1) >>> (s - 1) else T >>> s

end Quotient

/-! ### The search for the divisor -/

/-- The correction the multiplier of a divisor calls for. -/
def predCorr {W : ℕ} (d : ℤ) (M : BitVec W) : ℤ :=
  if 0 < d ∧ M.msb then 1 else if d < 0 ∧ !M.msb then -1 else 0

/-- The divisor has the observed multiplier, shift and correction. -/
def signedFits (M : BitVec 64) (s corr : ℤ) (W : ℕ) (d : ℤ) : Bool :=
  match mdMagics W d with
  | some mg => M.setWidth W == mg.M && mg.s == s && predCorr d mg.M == corr
  | none => false

/-- The divisor has the observed multiplier, shift and add flag. -/
def unsignedFits (M : BitVec 64) (s : ℤ) (a : Bool) (W : ℕ) (d : ℕ) : Bool :=
  match mdMagicu W d with
  | some mg => mg.a == a && M.setWidth W == mg.M && mg.s == s
  | none => false

/-- The divisors from 3 up. -/
def absDivisors : List ℕ :=
  List.range' 3 (mdDlimit - 2)

/-- The first divisor, by absolute value and positive before negative, that fits. -/
def mdFindSigned (M : BitVec 64) (s corr : ℤ) (W : ℕ) : Option ℤ :=
  absDivisors.findSome? fun ad : ℕ ↦ [(ad : ℤ), -(ad : ℤ)].find? (signedFits M s corr W)

/-- The first divisor that fits. -/
def mdFindUnsigned (M : BitVec 64) (s : ℤ) (a : Bool) (W : ℕ) : Option ℕ :=
  absDivisors.find? (unsignedFits M s a W)

end Ldu
