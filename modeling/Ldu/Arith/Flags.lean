import Ldu.Arith.Words
import Mathlib.Order.Compare

/-!
# Flags

The flags that x86 sets when it subtracts or masks two words, and the conditions that read them.
After a subtraction a condition is an order of the two words (`holds_subFlags`), without sign for
the carry and with sign for the overflow flag.

The same words may be compared in a wider register, each extended by zeros or by its sign. Then the
number that is compared is the number of the word, or off by an amount larger than any word
(`num_reading`), so that the comparison goes as for the words if both numbers are off or neither is,
and otherwise as if the one that is off were the larger one (`compare_reading`).
-/

namespace Ldu

/-- The flags an operation sets. -/
structure Flags where
  zf : Bool
  sf : Bool
  cf : Bool
  of : Bool
  deriving DecidableEq, Repr

/-- Condition codes. -/
inductive CC
  | none | e | ne | l | le | g | ge | b | be | a | ae | s | ns | p | np | o | no
  deriving DecidableEq, Repr

variable {n N : ℕ}

/-- The flags of the difference. -/
def subFlags (x y : BitVec n) : Flags where
  zf := x - y == 0
  sf := (x - y).msb
  cf := x.ult y
  of := x.msb != y.msb && (x - y).msb != x.msb

/-- The flags of the conjunction. -/
def andFlags (x y : BitVec n) : Flags where
  zf := x &&& y == 0
  sf := (x &&& y).msb
  cf := false
  of := false

namespace CC

/-- The condition holds. Conditions on the parity are not modelled. -/
def holds : CC → Flags → Bool
  | e, f => f.zf
  | ne, f => !f.zf
  | l, f => f.sf != f.of
  | le, f => f.zf || f.sf != f.of
  | g, f => !f.zf && f.sf == f.of
  | ge, f => f.sf == f.of
  | b, f => f.cf
  | be, f => f.cf || f.zf
  | a, f => !f.cf && !f.zf
  | ae, f => !f.cf
  | s, f => f.sf
  | ns, f => !f.sf
  | o, f => f.of
  | no, f => !f.of
  | none, _ | p, _ | np, _ => false

/-- The condition is an order of numbers without sign. -/
def isUnsigned : CC → Bool
  | b | be | a | ae => true
  | _ => false

/-- The condition on two numbers in this order. A sign is the order to zero. -/
def ofOrdering : CC → Ordering → Bool
  | e, c => c == .eq
  | ne, c => c != .eq
  | l, c | b, c | s, c => c == .lt
  | le, c | be, c => c != .gt
  | g, c | a, c => c == .gt
  | ge, c | ae, c | ns, c => c != .lt
  | _, _ => false

/-- The conditions that compare two numbers. -/
def orders : List CC :=
  [e, ne, l, le, g, ge, b, be, a, ae]

/-- The conditions that read the sign alone. -/
def signs : List CC :=
  [s, ns]

/-- The conditions that hold for one of a negative and a positive number and not for the other. -/
def signed : List CC :=
  [l, le, g, ge, s, ns]

end CC

/-- A word as a number. -/
def num (unsigned : Bool) (x : BitVec n) : ℤ :=
  if unsigned then x.toNat else x.toInt

theorem num_injective (u : Bool) {x y : BitVec n} (h : num u x = num u y) : x = y := by
  unfold num at h
  split at h
  · exact BitVec.eq_of_toNat_eq (Int.ofNat.inj h)
  · exact BitVec.eq_of_toInt_eq h

theorem compare_num_eq_iff (u : Bool) {x y : BitVec n} :
    compare (num u x) (num u y) = .eq ↔ x = y := by
  rw [compare_eq_iff_eq]
  exact ⟨num_injective u, congrArg _⟩

theorem compare_num_beq_eq (u : Bool) (x y : BitVec n) :
    (compare (num u x) (num u y) == .eq) = decide (x = y) := by
  rw [Bool.eq_iff_iff, beq_iff_eq, compare_num_eq_iff, decide_eq_true_eq]

/-- Without sign nothing is less than zero. -/
theorem compare_num_zero (x : BitVec n) :
    compare (num true x) (num true (0 : BitVec n)) = if x = 0 then .eq else .gt := by
  split
  · next h => rw [h, compare_eq_iff_eq]
  · next h =>
    rw [compare_gt_iff_gt]
    have hne : x.toNat ≠ 0 := fun h0 ↦ h (BitVec.eq_of_toNat_eq (by simpa using h0))
    simp only [num, if_true, BitVec.ofNat_eq_ofNat, BitVec.toNat_ofNat, Nat.zero_mod]
    omega

/-- The condition on a word and zero. -/
def CC.onZero (cc : CC) (x : BitVec n) : Bool :=
  cc.ofOrdering (compare (num cc.isUnsigned x) (num cc.isUnsigned (0 : BitVec n)))

/-! ### Subtraction -/

theorem sub_beq_zero (x y : BitVec n) : (x - y == 0) = (x == y) := by
  rw [Bool.eq_iff_iff, beq_iff_eq, beq_iff_eq]
  refine ⟨fun h ↦ ?_, fun h ↦ h ▸ BitVec.sub_self x⟩
  exact (BitVec.sub_add_cancel x y).symm.trans ((congrArg (· + y) h).trans (BitVec.zero_add y))

/-- The sign of the difference, corrected by the overflow, is the order. -/
theorem sf_ne_of_eq_slt (x y : BitVec n) :
    ((subFlags x y).sf != (subFlags x y).of) = decide (x.toInt < y.toInt) := by
  have hd := toInt_sub_cases x y
  have hx := x.two_mul_toInt_lt
  have hx' := x.le_two_mul_toInt
  have hy := y.two_mul_toInt_lt
  have hy' := y.le_two_mul_toInt
  have hD := (x - y).two_mul_toInt_lt
  have hD' := (x - y).le_two_mul_toInt
  simp only [subFlags, BitVec.msb_eq_toInt]
  generalize (x - y).toInt = d at *
  rw [Bool.eq_iff_iff, bne_iff_ne, decide_eq_true_eq]
  by_cases h1 : d < 0 <;> by_cases h2 : x.toInt < 0 <;> by_cases h3 : y.toInt < 0 <;>
    simp [h1, h2, h3] <;> omega

/-- After a subtraction a condition is the order of the two words. -/
theorem holds_subFlags {cc : CC} (hcc : cc ∈ CC.orders) (x y : BitVec n) :
    cc.holds (subFlags x y) =
      cc.ofOrdering (compare (num cc.isUnsigned x) (num cc.isUnsigned y)) := by
  have hz (u : Bool) : (subFlags x y).zf = (compare (num u x) (num u y) == .eq) := by
    rw [compare_num_beq_eq, ← beq_eq_decide]
    exact sub_beq_zero x y
  have hl : ((subFlags x y).sf != (subFlags x y).of) =
      (compare (num false x) (num false y) == .lt) := by
    rw [sf_ne_of_eq_slt, Bool.eq_iff_iff, beq_iff_eq, compare_lt_iff_lt, decide_eq_true_eq]
    rfl
  have hge : ((subFlags x y).sf == (subFlags x y).of) =
      !(compare (num false x) (num false y) == .lt) := by
    rw [← hl]
    cases (subFlags x y).sf <;> cases (subFlags x y).of <;> rfl
  have hb : (subFlags x y).cf = (compare (num true x) (num true y) == .lt) := by
    rw [Bool.eq_iff_iff, beq_iff_eq, compare_lt_iff_lt]
    simp [subFlags, BitVec.ult, num]
  have hz := hz cc.isUnsigned
  simp only [CC.orders, List.mem_cons, List.not_mem_nil, or_false] at hcc
  rcases hcc with rfl | rfl | rfl | rfl | rfl | rfl | rfl | rfl | rfl | rfl <;>
    simp only [CC.isUnsigned] at hz ⊢ <;>
    simp only [CC.holds, CC.ofOrdering, hz, hl, hge, hb] <;>
    first
      | cases compare (num false x) (num false y) <;> rfl
      | cases compare (num true x) (num true y) <;> rfl

/-- The sign is the order to zero. -/
theorem msb_eq_compare (x : BitVec n) :
    x.msb = (compare (num false x) (num false (0 : BitVec n)) == .lt) := by
  rw [Bool.eq_iff_iff, beq_iff_eq, compare_lt_iff_lt, BitVec.msb_eq_toInt, decide_eq_true_eq]
  simp [num]

/-- The sign after a subtraction is that of the result. -/
theorem holds_subFlags_of_signs {cc : CC} (hcc : cc ∈ CC.signs) (x y : BitVec n) :
    cc.holds (subFlags x y) = cc.onZero (x - y) := by
  simp only [CC.signs, List.mem_cons, List.not_mem_nil, or_false] at hcc
  rcases hcc with rfl | rfl
  · exact msb_eq_compare (x - y)
  · exact congrArg (!·) (msb_eq_compare (x - y))

/-- After a mask a condition is the order to zero of the masked word. -/
theorem holds_andFlags {cc : CC} (hcc : cc ∈ CC.orders ++ CC.signs) (x y : BitVec n) :
    cc.holds (andFlags x y) = cc.onZero (x &&& y) := by
  have hz (u : Bool) :
      (x &&& y == 0) = (compare (num u (x &&& y)) (num u (0 : BitVec n)) == .eq) := by
    rw [compare_num_beq_eq, beq_eq_decide]
  have hs := msb_eq_compare (x &&& y)
  have hb : (compare (num true (x &&& y)) (num true (0 : BitVec n)) == .lt) = false := by
    rw [compare_num_zero]
    split <;> rfl
  have hz := hz cc.isUnsigned
  simp only [CC.orders, CC.signs, List.cons_append, List.nil_append, List.mem_cons,
    List.not_mem_nil, or_false] at hcc
  rcases hcc with rfl | rfl | rfl | rfl | rfl | rfl | rfl | rfl | rfl | rfl | rfl | rfl <;>
    simp only [CC.isUnsigned] at hz ⊢ <;>
    simp only [CC.holds, CC.onZero, CC.isUnsigned, CC.ofOrdering, andFlags, hz, hs] <;>
    revert hb <;>
    first
      | cases compare (num false (x &&& y)) (num false (0 : BitVec n)) <;> exact fun _ ↦ rfl
      | cases compare (num true (x &&& y)) (num true (0 : BitVec n)) <;> decide

/-! ### Comparison in a wider register -/

/-- In the wider register the word is not the number that is compared. -/
def off (N : ℕ) (unsigned read : Bool) (x : BitVec n) : Bool :=
  n < N && x.msb && read != unsigned

/-- The number that is compared is that of the word, or too large by more than any word. -/
theorem num_reading (hN : n ≤ N) (u r : Bool) (x : BitVec n) :
    num u (reading N r x) =
      num u x + if off N u r x then (if u then 2 ^ N - 2 ^ n else 2 ^ n) else 0 := by
  have hpow : 2 ^ n ≤ 2 ^ N := Nat.pow_le_pow_right (by decide) hN
  rcases Nat.eq_or_lt_of_le hN with rfl | hlt
  · have hself : reading n r x = x := by
      cases r <;> simp [reading, BitVec.signExtend_eq]
    simp [hself, off]
  · have hset : (x.setWidth N).toNat = x.toNat := by
      rw [BitVec.toNat_setWidth, Nat.mod_eq_of_lt (x.isLt.trans_le hpow)]
    have hlt' : x.toNat < 2 ^ (N - 1) :=
      x.isLt.trans_le (Nat.pow_le_pow_right (by decide) (by omega))
    have hhalf : 2 ^ N = 2 * 2 ^ (N - 1) := by
      rw [← Nat.pow_succ', Nat.succ_eq_add_one, Nat.sub_add_cancel (by omega)]
    have hpow' : ((2 ^ N - 2 ^ n : ℕ) : ℤ) = 2 ^ N - 2 ^ n := by
      rw [Nat.cast_sub hpow]
      push_cast
      rfl
    cases u <;> cases r
    · simp [num, reading, off, BitVec.toInt_signExtend_of_le hN]
    · have hwide : (x.setWidth N).toInt = x.toNat := by
        rw [BitVec.toInt_eq_toNat_of_lt (by omega), hset]
      have hmsb := BitVec.toInt_eq_msb_cond x
      simp only [num, reading, off, hwide, hlt, hmsb, if_true, if_false, Bool.false_eq_true]
      cases x.msb <;> simp
    · simp only [num, reading, off, BitVec.toNat_signExtend, hset, hlt, if_true, if_false,
        Bool.false_eq_true]
      cases x.msb <;> simp [hpow']
    · simp [num, reading, off, hset]

/-- A number that is off is larger than every word. -/
theorem num_lt_of_off {u rx : Bool} {x : BitVec n} (h : off N u rx x = true) (y : BitVec n) :
    num u y < num u x + if u then 2 ^ N - 2 ^ n else 2 ^ n := by
  simp only [off, Bool.and_eq_true, decide_eq_true_eq] at h
  have hpow : (2 : ℤ) ^ n * 2 ≤ 2 ^ N := by
    rw [← pow_succ]
    exact_mod_cast Nat.pow_le_pow_right (by decide) h.1.1
  cases u
  · have hx := x.le_two_mul_toInt
    have hy := y.two_mul_toInt_lt
    simp only [num, Bool.false_eq_true, if_false]
    omega
  · have hy : (y.toNat : ℤ) < 2 ^ n := by exact_mod_cast y.isLt
    simp only [num, if_true]
    omega

/-- Words that are compared in the wider register. If one of them is off, it is the larger one. -/
theorem compare_reading (hN : n ≤ N) (u rx ry : Bool) (x y : BitVec n) :
    compare (num u (reading N rx x)) (num u (reading N ry y)) =
      if off N u rx x = off N u ry y then compare (num u x) (num u y)
      else if off N u rx x then .gt else .lt := by
  rw [num_reading hN, num_reading hN]
  cases hx : off N u rx x <;> cases hy : off N u ry y
  · simp
  · exact compare_lt_iff_lt.2 (by simpa using num_lt_of_off hy x)
  · exact compare_gt_iff_gt.2 (by simpa using num_lt_of_off hx y)
  · simp only [if_true]
    rcases lt_trichotomy (num u x) (num u y) with h | h | h
    · rw [compare_lt_iff_lt.2 h, compare_lt_iff_lt.2 (by omega)]
    · rw [compare_eq_iff_eq.2 h, compare_eq_iff_eq.2 (by omega)]
    · rw [compare_gt_iff_gt.2 h, compare_gt_iff_gt.2 (by omega)]

/-- The words satisfy the condition in the wider register as they do on their own: both are off or
neither is, or the one that is off is the larger one as far as the condition asks. -/
def CC.Survives (cc : CC) (N : ℕ) (rx ry : Bool) (x y : BitVec n) : Prop :=
  off N cc.isUnsigned rx x = off N cc.isUnsigned ry y ∨
    cc.ofOrdering (if off N cc.isUnsigned rx x then .gt else .lt) =
      cc.ofOrdering (compare (num cc.isUnsigned x) (num cc.isUnsigned y))

theorem survives_iff (hN : n ≤ N) (cc : CC) (rx ry : Bool) (x y : BitVec n) :
    cc.ofOrdering (compare (num cc.isUnsigned (reading N rx x)) (num cc.isUnsigned
      (reading N ry y))) = cc.ofOrdering (compare (num cc.isUnsigned x) (num cc.isUnsigned y)) ↔
      cc.Survives N rx ry x y := by
  rw [compare_reading hN, CC.Survives]
  split <;> simp [*]

/-- Against zero a condition goes wrong just when it asks for the sign, and the sign is not read. -/
theorem survives_zero_iff {cc : CC} (hcc : cc ∈ CC.orders ++ CC.signs) (r r' : Bool)
    (x : BitVec n) :
    cc.Survives N r r' x 0 ↔ (cc ∈ CC.signed → x.msb = true → n < N → r = false) := by
  have hzero : off N cc.isUnsigned r' (0 : BitVec n) = false := by simp [off]
  rw [CC.Survives, hzero]
  cases hoff : off N cc.isUnsigned r x with
  | false =>
    refine iff_of_true (.inl rfl) fun hsigned hmsb hlt ↦ ?_
    have hu : cc.isUnsigned = false := by
      revert hsigned
      cases cc <;> decide
    simpa [off, hmsb, hlt, hu] using hoff
  | true =>
    simp only [off, Bool.and_eq_true, decide_eq_true_eq, bne_iff_ne] at hoff
    obtain ⟨⟨hlt, hmsb⟩, hr⟩ := hoff
    have hne : x ≠ 0 := by
      rintro rfl
      simp at hmsb
    have hs := msb_eq_compare x
    rw [hmsb, eq_comm, beq_iff_eq] at hs
    have hunsigned := compare_num_zero x
    rw [if_neg hne] at hunsigned
    simp only [CC.orders, CC.signs, List.cons_append, List.nil_append, List.mem_cons,
      List.not_mem_nil, or_false] at hcc
    rcases hcc with rfl | rfl | rfl | rfl | rfl | rfl | rfl | rfl | rfl | rfl | rfl | rfl <;>
      simp only [CC.isUnsigned] at hr ⊢ <;>
      first | rw [hs] | rw [hunsigned]
    all_goals simp [CC.ofOrdering, CC.signed, bne, hmsb, hlt, hr]

/-! ### Signs in a wider register -/

/-- The signed number of a reading. -/
theorem toInt_reading_cases (hN : n ≤ N) (r : Bool) (x : BitVec n) :
    (reading N r x).toInt = x.toInt ∨
      (reading N r x).toInt = x.toInt + 2 ^ n ∧ x.toInt < 0 := by
  have hx := num_reading hN false r x
  simp only [num, Bool.false_eq_true, if_false] at hx
  split at hx
  · next h =>
    simp only [off, Bool.and_eq_true, BitVec.msb_eq_toInt, decide_eq_true_eq] at h
    exact Or.inr ⟨hx, h.1.2⟩
  · exact Or.inl (by omega)

/-- In a register that is wider by two bits a difference does not wrap. -/
theorem msb_sub_reading (hN : n + 2 ≤ N) (rx ry : Bool) (x y : BitVec n) :
    (reading N rx x - reading N ry y).msb =
      decide ((reading N rx x).toInt < (reading N ry y).toInt) := by
  have hα := toInt_reading_cases (by omega : n ≤ N) rx x
  have hβ := toInt_reading_cases (by omega : n ≤ N) ry y
  have hD := toInt_sub_cases (reading N rx x) (reading N ry y)
  have hpow : (2 : ℤ) ^ n * 4 ≤ 2 ^ N := by
    have h4 : (2 : ℤ) ^ n * 4 = 2 ^ (n + 2) := by rw [pow_add]; rfl
    rw [h4]
    exact_mod_cast Nat.pow_le_pow_right (by decide) hN
  have hX := x.two_mul_toInt_lt
  have hX' := x.le_two_mul_toInt
  have hY := y.two_mul_toInt_lt
  have hY' := y.le_two_mul_toInt
  have hV := (reading N rx x - reading N ry y).two_mul_toInt_lt
  have hV' := (reading N rx x - reading N ry y).le_two_mul_toInt
  rw [BitVec.msb_eq_toInt, decide_eq_decide]
  generalize (2 : ℤ) ^ n = m at *
  generalize (2 : ℤ) ^ N = k at *
  rcases hα with hα | ⟨hα, hx⟩ <;> rcases hβ with hβ | ⟨hβ, hy⟩ <;> omega

/-- In the wider register the difference has the sign of the difference of the words. -/
def SignSurvives (N : ℕ) (r r' : Bool) (x y : BitVec n) : Prop :=
  n = N ∨ ((reading N r x).toInt < (reading N r' y).toInt ↔ (x - y).toInt < 0)

theorem signSurvives_iff (hN : n = N ∨ n + 2 ≤ N) (r r' : Bool) (x y : BitVec n) :
    (reading N r x - reading N r' y).msb = (x - y).msb ↔ SignSurvives N r r' x y := by
  rcases hN with rfl | hN
  · have hself (r : Bool) (x : BitVec n) : reading n r x = x := by
      cases r <;> simp [reading, BitVec.signExtend_eq]
    exact iff_of_true (by rw [hself, hself]) (.inl rfl)
  · rw [SignSurvives, msb_sub_reading hN, BitVec.msb_eq_toInt, decide_eq_decide,
      or_iff_right (by omega)]

theorem setWidth_and_signExtend (x y : BitVec n) :
    x.setWidth N &&& y.signExtend N = (x &&& y).setWidth N := by
  refine BitVec.eq_of_getLsbD_eq fun i hi ↦ ?_
  simp only [BitVec.getLsbD_and, BitVec.getLsbD_setWidth, BitVec.getLsbD_signExtend, hi,
    decide_true, Bool.true_and]
  split
  · rfl
  · rw [BitVec.getLsbD_of_ge x i (by omega), Bool.false_and, Bool.false_and]

/-- The conjunction in the wider register extends that of the words, by the sign if both words are
extended so. -/
theorem reading_and (rx ry : Bool) (x y : BitVec n) :
    reading N rx x &&& reading N ry y = reading N (rx || ry) (x &&& y) := by
  cases rx <;> cases ry
  · exact BitVec.signExtend_and.symm
  · exact (BitVec.and_comm _ _).trans ((setWidth_and_signExtend y x).trans
      (congrArg _ (BitVec.and_comm y x)))
  · exact setWidth_and_signExtend x y
  · exact BitVec.setWidth_and.symm

theorem reading_eq_zero_iff (hN : n ≤ N) (r : Bool) (x : BitVec n) :
    reading N r x = 0 ↔ x = 0 := by
  refine ⟨fun h ↦ ?_, ?_⟩
  · rw [← setWidth_reading hN r x, h]
    exact BitVec.setWidth_zero ..
  · rintro rfl
    cases r
    · exact (BitVec.signExtend_eq_setWidth_of_msb_false (by simp)).trans (BitVec.setWidth_zero ..)
    · exact BitVec.setWidth_zero ..

end Ldu
