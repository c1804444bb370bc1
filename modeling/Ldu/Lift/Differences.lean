import Ldu.Lift.Operands

/-!
# Differences of operands

What folding makes of the difference of two operands of `w` bytes, and the value C finds there. A
difference of operands called equal is zero, other differences keep their value
(`Holds.plain_sub`, `Holds.plain_sub_twice`). Compared with zero for equality, a difference is a
comparison of the operands (`Holds.cValue_fold_sub_eq`).
-/

namespace Ldu

namespace Expr

variable {w : ℕ} {P : PtrInfo} {A B : Expr}

/-! ### Differences -/

/-- The operands are called equal after some of the first `n` foldings. -/
def calledEqual (P : PtrInfo) (n : ℕ) (A B : Expr) : Bool :=
  (List.range n).any fun k ↦ exprEqual ((fold P)^[k + 1] A) ((fold P)^[k + 1] B)

theorem calledEqual_one (P : PtrInfo) (A B : Expr) :
    calledEqual P 1 A B = exprEqual (fold P A) (fold P B) := by
  simp [calledEqual]

theorem calledEqual_two (P : PtrInfo) (A B : Expr) :
    calledEqual P 2 A B =
      (exprEqual (fold P A) (fold P B) || calledEqual P 1 (fold P A) (fold P B)) := by
  simp [calledEqual, List.range_succ]

/-- What a difference of two folded operands becomes. -/
def subResult (w : ℕ) (A B : Expr) : Expr :=
  match A.constVal, B.constVal with
  | some v, some v' => mkConst (v - v') w
  | _, _ =>
    if isConstVal 0 B then A
    else if exprEqual A B then mkConst 0 w
    else mkBinary .sub A B w

theorem foldBinary_sub (P : PtrInfo) (hA : IsOperand w A) (hB : IsOperand w B) :
    foldBinary P ⟨w, false, false⟩ .sub A B = .done (subResult w A B) := by
  have hintA := hA.ty_eq.2
  have hintB := hB.ty_eq.2
  have hreassoc : foldReassoc ⟨w, false, false⟩ .sub A B = none := by
    cases A <;> first | rfl | exact hA.elim
  rw [foldBinary, hreassoc]
  simp only [foldUnsignedZero, foldFloat, foldDouble, foldSelfCompare, foldScaleLeft,
    foldScaleRight, foldScaleConst, foldHalf, foldMask, foldIdempotent, foldBoolMaskRight,
    foldBoolMaskLeft, foldAllOnes, foldAddrMasked, hintA, hintB]
  unfold subResult foldConsts foldNeutral foldRest
  cases A.constVal <;> cases B.constVal <;> simp
  all_goals
    split
    · rfl
    · split <;> rfl

/-- An operand that is no constant is not called equal to one. -/
theorem IsOperand.exprEqual_const (hA : IsOperand w A) (h : A.constVal = none)
    (hB : B.constVal.isSome) : A.exprEqual B = false := by
  cases B with
  | const ty v =>
    cases A with
    | const => cases h
    | var | mem | cast => simp [exprEqual]
    | _ => exact hA.elim
  | _ => cases hB

/-- A difference from zero is zero when the other operand is. -/
theorem foldBinary_sub_zero (P : PtrInfo) (hw : w ≠ 0) {op : BinOp} (hop : op = .eq ∨ op = .ne)
    (h : exprEqual (const ⟨w, false, false⟩ 0) A = true) :
    foldBinary P ⟨w, false, false⟩ op (mkBinary .sub A B w) (const ⟨w, false, false⟩ 0) =
      .again (mkBinary op B (mkConst 0 w) w) := by
  have hwe : widthOr w 8 = w := if_neg hw
  have hextra : extraOver (const ⟨w, false, false⟩ 0) (mkBinary .sub A B w) = some B := by
    rw [mkBinary, extraOver, if_pos h]
  have hself : foldSelfCompare ⟨w, false, false⟩ op (mkBinary .sub A B w)
      (const ⟨w, false, false⟩ 0) = some (.again (mkBinary op B (mkConst 0 w) w)) := by
    unfold foldSelfCompare
    rw [if_pos hop, hextra, hwe]
    rfl
  rw [foldBinary, hself]
  rcases hop with rfl | rfl <;> rfl

end Expr

namespace World

variable {M E : Type} {W : World M E} {P : Expr.PtrInfo} {s : Store M} {w : ℕ} {r r' : Bool}
  {x y : BitVec (8 * w)} {A B : Expr}

/-- The value of a constant. -/
theorem plain_const {v : BitVec 64} {p : BitVec (8 * max 4 w)}
    (hv : v.setWidth (8 * max 4 w) = p) (u : Bool) :
    W.Plain s (max 4 w) (.const ⟨w, u, false⟩ v) p where
  isInt := rfl
  width := (Ty.promoted_width rfl).le
  value := hv
  full := Ty.promoted_width rfl
  isIntNode := rfl

section Values

variable (hw : w ∈ [1, 2, 4, 8]) (hA : W.Holds P s w r x A) (hB : W.Holds P s w r' y B)

include hw hA hB

/-- What a difference becomes: a constant, the left operand if the right one is zero, or itself. -/
theorem Holds.subResult_cases :
    (∃ v, Expr.subResult w A B = .const ⟨w, false, false⟩ v ∧
      v.setWidth (8 * max 4 w) = (if A.exprEqual B then 0
        else reading (8 * max 4 w) r x - reading (8 * max 4 w) r' y) ∧
      (A.exprEqual B = true ∨ Expr.fold P A = A ∧ Expr.fold P B = B)) ∨
    (Expr.subResult w A B = A ∧ A.constVal = none ∧ B.constVal.isSome ∧
      reading (8 * max 4 w) r' y = 0) ∨
    (Expr.subResult w A B = .mkBinary .sub A B w ∧ A.exprEqual B = false) := by
  have hpA := hA.plain hw
  have hpB := hB.plain hw
  unfold Expr.subResult
  split
  · next v v' hv hv' =>
    obtain ⟨u, rfl⟩ := hA.isOperand.eq_const hv
    obtain ⟨u', rfl⟩ := hB.isOperand.eq_const hv'
    refine .inl ⟨v - v', rfl, ?_, .inr ⟨Expr.fold_const .., Expr.fold_const ..⟩⟩
    split
    · next h =>
      obtain rfl : v = v' := by simpa [Expr.exprEqual] using h
      rw [BitVec.sub_self]
      exact BitVec.setWidth_zero ..
    · rw [setWidth_sub (frame_le hw)]
      exact congrArg₂ _ hpA.value hpB.value
  · next hnot =>
    split
    · next hz =>
      rw [Expr.isConstVal, beq_iff_eq] at hz
      obtain ⟨u', rfl⟩ := hB.isOperand.eq_const hz
      refine .inr (.inl ⟨rfl, ?_, rfl, ?_⟩)
      · cases hv : A.constVal with
        | none => rfl
        | some v => exact absurd hz (hnot v 0 hv)
      · rw [reading_eq_zero_iff (by omega), ← hB.word]
        exact BitVec.setWidth_zero ..
    · split
      · next h =>
        exact .inl ⟨0, rfl, BitVec.setWidth_zero .., .inl h⟩
      · next h => exact .inr (.inr ⟨rfl, Bool.eq_false_iff.2 h⟩)

theorem Holds.plain_subResult :
    W.Plain s (max 4 w) (Expr.subResult w A B)
      (if A.exprEqual B then 0
        else reading (8 * max 4 w) r x - reading (8 * max 4 w) r' y) := by
  rcases hA.subResult_cases hw hB with ⟨v, hv, hvalue, -⟩ | ⟨h, hc, hc', hy⟩ | ⟨h, hne⟩
  · rw [hv]
    exact plain_const hvalue false
  · rw [h, hA.isOperand.exprEqual_const hc hc', if_neg Bool.false_ne_true, hy,
      BitVec.ofNat_eq_ofNat, BitVec.sub_zero]
    exact hA.plain hw
  · rw [h, hne, if_neg Bool.false_ne_true]
    exact (hA.plain hw).sub (max_four_mem hw) (hB.plain hw).toShows rfl

/-- A difference, folded. -/
theorem Holds.plain_sub :
    W.Plain s (max 4 w) (Expr.fold P (.mkBinary .sub A B w))
      (if Expr.calledEqual P 1 A B then 0
        else reading (8 * max 4 w) r x - reading (8 * max 4 w) r' y) := by
  have hfold : Expr.fold P (.mkBinary .sub A B w) =
      Expr.subResult w (Expr.fold P A) (Expr.fold P B) :=
    Expr.fold_binary_done rfl rfl (Expr.foldBinary_sub P hA.fold.isOperand hB.fold.isOperand)
  rw [hfold, Expr.calledEqual_one]
  exact hA.fold.plain_subResult hw hB.fold

/-- A difference, folded twice. -/
theorem Holds.plain_sub_twice :
    W.Plain s (max 4 w) (Expr.fold P (Expr.fold P (.mkBinary .sub A B w)))
      (if Expr.calledEqual P 2 A B then 0
        else reading (8 * max 4 w) r x - reading (8 * max 4 w) r' y) := by
  have hA' := hA.fold
  have hB' := hB.fold
  have hfold : Expr.fold P (.mkBinary .sub A B w) =
      Expr.subResult w (Expr.fold P A) (Expr.fold P B) :=
    Expr.fold_binary_done rfl rfl (Expr.foldBinary_sub P hA'.isOperand hB'.isOperand)
  rw [hfold, Expr.calledEqual_two]
  rcases hA'.subResult_cases hw hB' with ⟨v, hv, hvalue, hsame⟩ | ⟨h, hc, hc', hy⟩ | ⟨h, hne⟩
  · rw [hv, Expr.fold_const]
    refine plain_const (hvalue.trans ?_) false
    rcases hsame with h | ⟨h, h'⟩
    · rw [h, Bool.true_or]
    · rw [Expr.calledEqual_one, h, h', Bool.or_self]
  · have hcB : (Expr.fold P (Expr.fold P B)).constVal.isSome := by
      rwa [hB'.isOperand.constVal_fold]
    have hne := hA'.isOperand.exprEqual_const hc hc'
    have hne' := hA'.fold.isOperand.exprEqual_const (hA'.isOperand.constVal_fold.trans hc) hcB
    rw [h, hne, Expr.calledEqual_one, hne', hy, BitVec.ofNat_eq_ofNat, BitVec.sub_zero]
    exact hA'.fold.plain hw
  · rw [h, hne, Bool.false_or]
    exact hA'.plain_sub hw hB'

/-- A comparison of a difference with zero for equality: the comparison of the operands, unless they
are called equal. Of a difference from zero the other operand is compared. -/
theorem Holds.cValue_fold_sub_eq {op : BinOp} (hop : op = .eq ∨ op = .ne) :
    W.cValue s (Expr.fold P (.mkBinary op (.mkBinary .sub A B w) (.mkConst 0 w) w)) =
      ofBool (op.ofOrdering (if Expr.calledEqual P 1 A B then .eq
        else compare (num false (reading (8 * max 4 w) r x))
          (num false (reading (8 * max 4 w) r' y)))) := by
  have hrel : op.isRel = true := by rcases hop with rfl | rfl <;> rfl
  have hA' := hA.fold
  have hB' := hB.fold
  -- Only whether the two numbers are equal matters.
  have hcongr {c c' : Ordering} (h : (c == .eq) = (c' == .eq)) :
      op.ofOrdering c = op.ofOrdering c' := by
    rcases hop with rfl | rfl
    · exact h
    · exact congrArg (!·) h
  have hfold : Expr.fold P (.mkBinary .sub A B w) =
      Expr.subResult w (Expr.fold P A) (Expr.fold P B) :=
    Expr.fold_binary_done rfl rfl (Expr.foldBinary_sub P hA'.isOperand hB'.isOperand)
  by_cases hsum : Expr.extraOver (.const ⟨w, false, false⟩ 0)
      (Expr.fold P (.mkBinary .sub A B w)) = none
  · have hstays := (hA.plain_sub hw hB).cValue_fold_rel_stays (max_four_mem hw) (le_max_right ..)
      rfl hrel (u := false) (fun _ ↦ hsum) (by simp)
    rw [Expr.mkConst, hstays]
    refine congrArg _ (hcongr ?_)
    rw [compare_num_beq_eq]
    split
    · simp
    · rw [compare_num_beq_eq, ← beq_eq_decide, ← beq_eq_decide]
      exact sub_beq_zero _ _
  · rcases hA'.subResult_cases hw hB' with ⟨v, hv, -⟩ | ⟨h, -⟩ | ⟨h, hne⟩
    · rw [hfold, hv] at hsum
      exact absurd rfl hsum
    · rw [hfold, h] at hsum
      exact absurd (hA'.isOperand.extraOver _) hsum
    · have hzero : Expr.exprEqual (.const ⟨w, false, false⟩ 0) (Expr.fold P A) = true := by
        rw [hfold, h, Expr.mkBinary, Expr.extraOver] at hsum
        exact not_not.1 fun hne ↦ hsum (if_neg hne)
      have hx : reading (8 * max 4 w) r x = 0 := by
        rw [reading_eq_zero_iff (by omega), ← hA'.word]
        have hopA := hA'.isOperand
        generalize Expr.fold P A = A' at hzero hopA
        cases A' with
        | const ty v =>
          obtain rfl : 0 = v := by simpa [Expr.exprEqual] using hzero
          exact BitVec.setWidth_zero ..
        | var | mem | cast => simp [Expr.exprEqual] at hzero
        | _ => exact hopA.elim
      have hagain : Expr.foldBinary P ⟨w, false, false⟩ op
          (.mkBinary .sub (Expr.fold P A) (Expr.fold P B) w) (.const ⟨w, false, false⟩ 0) =
            .again (.mkBinary op (Expr.fold P B) (.mkConst 0 w) w) := by
        simp only [List.mem_cons, List.not_mem_nil, or_false] at hw
        exact Expr.foldBinary_sub_zero P (by omega) hop hzero
      rw [Expr.mkConst, Expr.mkBinary, Expr.fold_binary_again (hfold.trans h) (Expr.fold_const ..)
        hagain, Expr.mkConst, hB'.cValue_fold_rel hw (holds_zero W P s false) hrel]
      refine congrArg _ (hcongr ?_)
      rw [compare_num_beq_eq, Expr.calledEqual_one, hne, if_neg Bool.false_ne_true,
        compare_num_beq_eq, hx, (reading_eq_zero_iff (by omega) true _).2 rfl]
      exact decide_eq_decide.2 eq_comm

end Values

end World

end Ldu
