import Ldu.Ir.Fold
import Ldu.Semantics.Reads

/-!
# Conditions are negated and simplified

`negateExpr` pushes a negation through a condition, and `boolSimplify` drops the comparisons with
zero of a condition that is rendered where only its truth counts.

A comparison is one of floating-point numbers when its node or an operand is marked as one; it then
has one of four outcomes (`FloatOutcome`, `World.ComparesFloats`). Everything else that asks for a
truth asks whether a word is zero. The effects of a condition include the order in which its
operands are evaluated, so equal effects have the same short circuits.

Negation never looks at a comparison of floats but for equality. The simplification drops a
comparison with zero after a look at the marks of the operands and none at that of the node: it
keeps the truth of the conditions it goes through exactly when none of them is a comparison with
zero marked on the node alone (`boolSimplify_keepsTruth_iff`).
-/

namespace Ldu

/-! ### The simplification -/

namespace Expr

/-- An integer constant `0`. -/
def isIntZero : Expr → Bool
  | const ty v => v == 0 && !ty.isFloat
  | _ => false

/-- `a == b` and `a != b` are dropped as comparisons with zero. -/
def dropsZeroTest (op : BinOp) (a b : Expr) : Bool :=
  (op == .ne || op == .eq) && b.isIntZero && !a.ty.isFloat

/-- A condition simplified where only its truth counts. -/
def boolSimplify (demorgan : Bool) : Expr → Expr
  | binary ty op a b =>
    if dropsZeroTest op a b then
      if op = .ne then boolSimplify demorgan a else negateExpr demorgan (boolSimplify demorgan a)
    else if op = .land ∨ op = .lor then
      binary ty op (boolSimplify demorgan a) (boolSimplify demorgan b)
    else binary ty op a b
  | unary ty op a =>
    if op = .lnot then negateExpr demorgan (boolSimplify demorgan a) else unary ty op a
  | e => e

/-- The conditions the simplification goes through, the outermost first. -/
def conditions : Expr → List Expr
  | binary ty op a b =>
    binary ty op a b ::
      if dropsZeroTest op a b then conditions a
      else if op = .land ∨ op = .lor then conditions a ++ conditions b
      else []
  | unary ty op a => unary ty op a :: if op = .lnot then conditions a else []
  | e => [e]

/-- A comparison with zero that is dropped although its node is marked as one of floats. -/
def dropsFloatTest : Expr → Bool
  | binary ty op a b => dropsZeroTest op a b && ty.isFloat
  | _ => false

end Expr

/-! ### Truth -/

/-- The outcome of comparing two floating-point numbers. -/
inductive FloatOutcome
  | less | equal | greater | unordered
  deriving DecidableEq, Repr

/-- What a comparison says of an outcome. -/
def FloatOutcome.decides (o : FloatOutcome) : BinOp → Option Bool
  | .eq => some (o == .equal)
  | .ne => some (o != .equal)
  | .lt => some (o == .less)
  | .le => some (o == .less || o == .equal)
  | .gt => some (o == .greater)
  | .ge => some (o == .greater || o == .equal)
  | _ => none

/-- Floating-point numbers are compared by `outcome`; the logical operators ask whether a word is
zero, as conditions do. -/
structure World.ComparesFloats {M E : Type} (W : World M E) (outcome : Val → Val → FloatOutcome) :
    Prop where
  compare : ∀ ty op v w r, (outcome v w).decides op = some r → W.floatBinop ty op v w = ofBool r
  land : ∀ ty v w, W.floatBinop ty .land v w = ofBool (v != 0 && w != 0)
  lor : ∀ ty v w, W.floatBinop ty .lor v w = ofBool (v != 0 || w != 0)
  lnot : ∀ ty v, W.floatUnop ty .lnot v = ofBool (v == 0)

/-- The truth of a condition. -/
def World.truth {M E : Type} (W : World M E) (c : Expr) : Effect E (Store M) Bool := do
  let v ← W.eval c
  pure (v != 0)

namespace Expr

/-- In every state `e'` is true when `e` is, and does what `e` does. -/
def SameTruth (e' e : Expr) : Prop :=
  ∀ {M E : Type} (W : World M E) (outcome : Val → Val → FloatOutcome),
    W.ComparesFloats outcome → W.truth e' = W.truth e

/-- In every state `e'` is true when `e` is false, and does what `e` does. -/
def OppositeTruth (e' e : Expr) : Prop :=
  ∀ {M E : Type} (W : World M E) (outcome : Val → Val → FloatOutcome),
    W.ComparesFloats outcome → W.truth e' = not <$> W.truth e

/-- Negation turns the truth of the condition around, and simplification keeps it. -/
def KeepsTruth (demorgan : Bool) (e : Expr) : Prop :=
  OppositeTruth (negateExpr demorgan e) e ∧ SameTruth (boolSimplify demorgan e) e

end Expr

theorem ofBool_bne_zero (b : Bool) : (ofBool b != 0) = b := by
  cases b <;> rfl

theorem Ty.ext_zero (ty : Ty) : ty.ext 0 = 0 := by
  unfold Ty.ext
  have hzero : (0 : Val).setWidth (8 * ty.width) = 0#_ := BitVec.setWidth_zero ..
  rw [hzero, BitVec.setWidth_zero, BitVec.signExtend, BitVec.toInt_zero]
  split_ifs <;> rfl

namespace World

open Expr

section Truth

variable {M E : Type} {W : World M E} {outcome : Val → Val → FloatOutcome}
  (h : W.ComparesFloats outcome)

include h

theorem unop_lnot (ty tyA : Ty) (v : Val) : W.unop ty tyA .lnot v = ofBool (v == 0) := by
  unfold unop
  split
  · exact h.lnot ty v
  · rfl

theorem binop_land (ty tyA tyB : Ty) (v w : Val) :
    W.binop ty tyA tyB .land v w = ofBool (v != 0 && w != 0) := by
  unfold binop
  split
  · exact h.land ty v w
  · rfl

theorem binop_lor (ty tyA tyB : Ty) (v w : Val) :
    W.binop ty tyA tyB .lor v w = ofBool (v != 0 || w != 0) := by
  unfold binop
  split
  · exact h.lor ty v w
  · rfl

theorem truth_lnot (ty : Ty) (a : Expr) : W.truth (.unary ty .lnot a) = not <$> W.truth a := by
  simp only [truth, eval, bind_assoc, pure_bind, map_bind, map_pure, unop_lnot h, ofBool_bne_zero]
  simp only [bne, Bool.not_not]

/-- The right operand of `&&` is evaluated when the left one is true. -/
theorem truth_land (ty : Ty) (a b : Expr) :
    W.truth (.binary ty .land a b) =
      (do let x ← W.truth a; if x then W.truth b else pure false) := by
  simp only [truth, eval, bind_assoc, pure_bind]
  congr 1
  funext v
  by_cases hv : v = 0
  · subst hv
    rfl
  · have htrue : (v != 0) = true := bne_iff_ne.2 hv
    have hnone : shortCircuit .land v = none := if_neg hv
    simp only [hnone, htrue, if_true, bind_assoc, pure_bind, binop_land h, ofBool_bne_zero,
      Bool.true_and]

/-- The right operand of `||` is evaluated when the left one is false. -/
theorem truth_lor (ty : Ty) (a b : Expr) :
    W.truth (.binary ty .lor a b) =
      (do let x ← W.truth a; if x then pure true else W.truth b) := by
  simp only [truth, eval, bind_assoc, pure_bind]
  congr 1
  funext v
  by_cases hv : v = 0
  · have hfalse : (v != 0) = false := by simpa using hv
    have hnone : shortCircuit .lor v = none := if_pos hv
    simp only [hnone, hfalse, Bool.false_eq_true, if_false, bind_assoc, pure_bind, binop_lor h,
      ofBool_bne_zero, Bool.false_or]
  · have htrue : (v != 0) = true := bne_iff_ne.2 hv
    have hsome : shortCircuit .lor v = some 1 := if_neg hv
    simp only [hsome, htrue, if_true, pure_bind]
    rfl

/-! ### Negation -/

omit h in
/-- An order of integers is total. -/
theorem intBinop_negatedCompare (ty : Ty) {op n : BinOp} (hn : negatedCompare false op = some n)
    (v w : Val) : ∃ b, intBinop ty op v w = ofBool b ∧ intBinop ty n v w = ofBool (!b) := by
  have hlt : (!if ty.isUnsigned then v.ult w else v.slt w) =
      if ty.isUnsigned then w.ule v else w.sle v := by
    rw [BitVec.ule_eq_not_ult, BitVec.sle_eq_not_slt, apply_ite not]
  have hle : (!if ty.isUnsigned then v.ule w else v.sle w) =
      if ty.isUnsigned then w.ult v else w.slt v := by
    rw [BitVec.ule_eq_not_ult, BitVec.sle_eq_not_slt, apply_ite not, Bool.not_not, Bool.not_not]
  cases op <;> cases hn
  case eq => exact ⟨v == w, rfl, rfl⟩
  case ne => exact ⟨v != w, rfl, congrArg ofBool (by simp [bne])⟩
  case lt => exact ⟨_, rfl, congrArg ofBool hlt.symm⟩
  case ge => exact ⟨_, rfl, congrArg ofBool (by rw [← hlt, Bool.not_not])⟩
  case le => exact ⟨_, rfl, congrArg ofBool hle.symm⟩
  case gt => exact ⟨_, rfl, congrArg ofBool (by rw [← hle, Bool.not_not])⟩

/-- Floats are unordered, so that only the negation of equality is a comparison. -/
theorem floatBinop_negatedCompare (ty : Ty) {op n : BinOp} (hn : negatedCompare true op = some n)
    (v w : Val) :
    ∃ b, W.floatBinop ty op v w = ofBool b ∧ W.floatBinop ty n v w = ofBool (!b) := by
  cases op <;> cases hn
  case eq => exact ⟨_, h.compare ty .eq v w _ rfl, h.compare ty .ne v w _ rfl⟩
  case ne =>
    exact ⟨_, h.compare ty .ne v w _ rfl, (h.compare ty .eq v w _ rfl).trans (by simp [bne])⟩

theorem binop_negatedCompare {ty tyA tyB : Ty} {op n : BinOp}
    (hn : negatedCompare (ty.isFloat || tyA.isFloat || tyB.isFloat) op = some n) (v w : Val) :
    (W.binop ty tyA tyB n v w != 0) = !(W.binop ty tyA tyB op v w != 0) := by
  have hb : ∃ b, W.binop ty tyA tyB op v w = ofBool b ∧ W.binop ty tyA tyB n v w = ofBool (!b) := by
    cases hf : ty.isFloat || tyA.isFloat || tyB.isFloat with
    | true =>
      simp only [binop, hf, if_true]
      exact floatBinop_negatedCompare h ty (hf ▸ hn) v w
    | false =>
      simp only [binop, hf, Bool.false_eq_true, if_false]
      exact intBinop_negatedCompare ty (hf ▸ hn) v w
  obtain ⟨b, hop, hneg⟩ := hb
  rw [hop, hneg, ofBool_bne_zero, ofBool_bne_zero]

theorem truth_negatedCompare {ty : Ty} {op n : BinOp} {a b : Expr}
    (hn : negatedCompare (ty.isFloat || a.ty.isFloat || b.ty.isFloat) op = some n) :
    W.truth (.binary ty n a b) = not <$> W.truth (.binary ty op a b) := by
  have hsc : ∀ v, shortCircuit n v = none ∧ shortCircuit op v = none := by
    intro v
    cases op <;> simp only [negatedCompare, Option.some.injEq, reduceCtorEq] at hn <;>
      first
        | (subst hn; exact ⟨rfl, rfl⟩)
        | (split at hn <;> cases hn; exact ⟨rfl, rfl⟩)
  simp only [truth, eval, bind_assoc, pure_bind, map_bind, map_pure, (hsc _).1, (hsc _).2,
    binop_negatedCompare h hn]

theorem truth_negateExpr (demorgan : Bool) (c : Expr) :
    W.truth (negateExpr demorgan c) = not <$> W.truth c := by
  refine negateExpr_rel demorgan (R := fun c d ↦ W.truth d = not <$> W.truth c) ?_ ?_ ?_ ?_ ?_ c
  · intro ty a
    rw [truth_lnot h, Functor.map_map]
    simp
  · intro e w
    exact truth_lnot h ..
  · intro ty a b a' b' w ha hb
    rw [mkBinary, truth_lor h, truth_land h, ha, hb, bind_map_left, map_bind]
    exact congrArg _ (funext fun x ↦ by cases x <;> rfl)
  · intro ty a b a' b' w ha hb
    rw [mkBinary, truth_lor h, truth_land h, ha, hb, bind_map_left, map_bind]
    exact congrArg _ (funext fun x ↦ by cases x <;> rfl)
  · intro ty op n a b hn
    exact truth_negatedCompare h hn

end Truth

/-! ### Comparisons with zero -/

section ZeroTest

variable {M E : Type} {W : World M E} {ty : Ty} {op : BinOp} {a b : Expr}

theorem truth_eq_map (c : Expr) : W.truth c = (· != 0) <$> W.eval c :=
  (map_eq_pure_bind ..).symm

theorem eq_ne_or_eq_of_dropsZeroTest (hdrop : dropsZeroTest op a b = true) :
    op = .ne ∨ op = .eq := by
  simp only [dropsZeroTest, Bool.and_eq_true, Bool.or_eq_true, beq_iff_eq] at hdrop
  exact hdrop.1.1

theorem isIntZero_of_dropsZeroTest (hdrop : dropsZeroTest op a b = true) :
    W.eval b = pure 0 ∧ b.ty.isFloat = false := by
  simp only [dropsZeroTest, Bool.and_eq_true] at hdrop
  cases b with
  | const tyB v =>
    obtain ⟨hv, hty⟩ := Bool.and_eq_true_iff.1 hdrop.1.2
    obtain rfl : v = 0 := eq_of_beq hv
    exact ⟨congrArg pure tyB.ext_zero, Bool.not_eq_true' _ |>.mp hty⟩
  | _ => exact absurd hdrop.1.2 (by simp [isIntZero])

/-- The value of the operand decides a comparison with zero. -/
theorem truth_zeroTest (hdrop : dropsZeroTest op a b = true) :
    W.truth (.binary ty op a b) = (W.binop ty a.ty b.ty op · 0 != 0) <$> W.eval a := by
  have hnone : ∀ v, shortCircuit op v = none := by
    rcases eq_ne_or_eq_of_dropsZeroTest hdrop with rfl | rfl <;> exact fun v ↦ rfl
  simp only [truth, eval, hnone, bind_assoc, pure_bind, (isIntZero_of_dropsZeroTest hdrop).1,
    map_eq_pure_bind]

/-- A comparison of integers with zero asks for the truth of its operand. -/
theorem truth_intZeroTest (hdrop : dropsZeroTest op a b = true) (hty : ty.isFloat = false) :
    W.truth (.binary ty op a b) = if op = .ne then W.truth a else not <$> W.truth a := by
  have hb := (isIntZero_of_dropsZeroTest (W := W) hdrop).2
  have ha : a.ty.isFloat = false := by
    simpa using (Bool.and_eq_true_iff.1 hdrop).2
  have hint : ∀ v, W.binop ty a.ty b.ty op v 0 = intBinop ty op v 0 := fun v ↦ by
    simp [binop, hty, ha, hb]
  simp only [truth_zeroTest hdrop, truth_eq_map a, hint, Functor.map_map]
  rcases eq_ne_or_eq_of_dropsZeroTest hdrop with rfl | rfl
  · simp only [if_true, intBinop, ofBool_bne_zero]
  · simp only [reduceCtorEq, if_false, intBinop, ofBool_bne_zero]
    simp only [bne, Bool.not_not]

end ZeroTest

end World

namespace Expr

/-! ### Simplification -/

theorem oppositeTruth_negateExpr (demorgan : Bool) (e : Expr) :
    OppositeTruth (negateExpr demorgan e) e :=
  fun _ _ h ↦ World.truth_negateExpr h demorgan e

theorem sameTruth_boolSimplify (demorgan : Bool) {e : Expr}
    (hplain : ∀ d ∈ conditions e, d.dropsFloatTest = false) :
    SameTruth (boolSimplify demorgan e) e := by
  intro M E W outcome h
  fun_induction boolSimplify demorgan e with
  | case1 ty a b hdrop iha =>
    obtain ⟨hself, ha⟩ : _ ∧ ∀ d ∈ conditions a, _ := by
      simpa only [conditions, hdrop, if_true, List.forall_mem_cons] using hplain
    have hty : ty.isFloat = false := by simpa [dropsFloatTest, hdrop] using hself
    rw [World.truth_intZeroTest hdrop hty, if_pos rfl, iha ha]
  | case2 ty op a b hdrop hop iha =>
    obtain ⟨hself, ha⟩ : _ ∧ ∀ d ∈ conditions a, _ := by
      simpa only [conditions, hdrop, if_true, List.forall_mem_cons] using hplain
    have hty : ty.isFloat = false := by simpa [dropsFloatTest, hdrop] using hself
    rw [World.truth_intZeroTest hdrop hty, if_neg hop, World.truth_negateExpr h, iha ha]
  | case3 ty op a b hdrop hop iha ihb =>
    obtain ⟨-, hsub⟩ : _ ∧ ∀ d ∈ conditions a ++ conditions b, _ := by
      simpa only [conditions, hdrop, Bool.false_eq_true, if_false, hop, if_true,
        List.forall_mem_cons] using hplain
    have ha := iha fun d hd ↦ hsub d (List.mem_append_left _ hd)
    have hb := ihb fun d hd ↦ hsub d (List.mem_append_right _ hd)
    rcases hop with rfl | rfl
    · rw [World.truth_land h, World.truth_land h, ha, hb]
    · rw [World.truth_lor h, World.truth_lor h, ha, hb]
  | case4 => rfl
  | case5 ty a iha =>
    obtain ⟨-, ha⟩ : _ ∧ ∀ d ∈ conditions a, _ := by
      simpa only [conditions, if_true, List.forall_mem_cons] using hplain
    rw [World.truth_lnot h, World.truth_negateExpr h, iha ha]
  | case6 => rfl
  | case7 => rfl

/-! ### A comparison marked on the node alone -/

/-- The trace world, with floating-point numbers compared by `outcome`. -/
def floatWorld (outcome : Val → Val → FloatOutcome) : World (Val → Val) (List Val) :=
  { traceWorld with
    floatUnop := intUnop
    floatBinop ty op v w :=
      match (outcome v w).decides op with
      | some r => ofBool r
      | none => intBinop ty op v w }

theorem floatWorld_comparesFloats (outcome : Val → Val → FloatOutcome) :
    (floatWorld outcome).ComparesFloats outcome where
  compare ty op v w r hr := by simp only [floatWorld, hr]
  land ty v w := rfl
  lor ty v w := rfl
  lnot ty v := rfl

/-- Zero is unordered with zero, and equal to everything else. -/
def perverse (v _ : Val) : FloatOutcome :=
  if v = 0 then .unordered else .equal

theorem perverse_decides (v w : Val) :
    (perverse v w).decides .ne = some !(v != 0) ∧ (perverse v w).decides .eq = some (v != 0) := by
  by_cases hv : v = 0
  · subst hv
    exact ⟨rfl, rfl⟩
  · have htrue : (v != 0) = true := bne_iff_ne.2 hv
    rw [perverse, if_neg hv, htrue]
    exact ⟨rfl, rfl⟩

/-- A comparison with zero that is marked on its node says the opposite of its operand, when the
numbers compare so. -/
theorem truth_floatZeroTest {ty : Ty} {op : BinOp} {a b : Expr}
    (hdrop : dropsZeroTest op a b = true) (hty : ty.isFloat = true) :
    (floatWorld perverse).truth (binary ty op a b) =
      if op = .ne then not <$> (floatWorld perverse).truth a
      else (floatWorld perverse).truth a := by
  have hcmp := floatWorld_comparesFloats perverse
  have hfloat : ∀ op v, (floatWorld perverse).binop ty a.ty b.ty op v 0 =
      (floatWorld perverse).floatBinop ty op v 0 := fun op v ↦ by
    simp [World.binop, hty]
  simp only [World.truth_zeroTest hdrop, World.truth_eq_map a, Functor.map_map, hfloat]
  rcases World.eq_ne_or_eq_of_dropsZeroTest hdrop with rfl | rfl
  · simp only [hcmp.compare ty .ne _ 0 _ (perverse_decides _ 0).1, ofBool_bne_zero, if_true]
  · simp only [hcmp.compare ty .eq _ 0 _ (perverse_decides _ 0).2, ofBool_bne_zero, reduceCtorEq,
      if_false]

theorem not_map_ne {E S : Type} (x : Effect E S Bool) (s : S) : not <$> x ≠ x :=
  fun h ↦ Bool.not_ne_self (x s).2.1 (congrArg (fun y ↦ (y s).2.1) h)

theorem not_sameTruth_of_dropsFloatTest (demorgan : Bool) {ty : Ty} {op : BinOp} {a b : Expr}
    (hmarked : (binary ty op a b).dropsFloatTest = true)
    (ha : SameTruth (boolSimplify demorgan a) a) :
    ¬SameTruth (boolSimplify demorgan (binary ty op a b)) (binary ty op a b) := by
  intro hsame
  obtain ⟨hdrop, hty⟩ := Bool.and_eq_true_iff.1 hmarked
  have hcmp := floatWorld_comparesFloats perverse
  have htruth := hsame _ perverse hcmp
  rw [truth_floatZeroTest hdrop hty, boolSimplify, if_pos hdrop] at htruth
  split at htruth
  · rw [ha _ perverse hcmp] at htruth
    exact not_map_ne _ zeroStore htruth.symm
  · rw [World.truth_negateExpr hcmp, ha _ perverse hcmp] at htruth
    exact not_map_ne _ zeroStore htruth

theorem mem_conditions_self (e : Expr) : e ∈ conditions e := by
  cases e <;> exact List.mem_cons_self

/-- What is gone through from a condition gone through is gone through. -/
theorem conditions_subset {d e : Expr} (hd : d ∈ conditions e) : conditions d ⊆ conditions e := by
  fun_induction conditions e with
  | case1 ty op a b iha ihb =>
    rcases List.mem_cons.1 hd with rfl | hd
    · exact List.Subset.refl _
    refine List.subset_cons_of_subset _ ?_
    split at hd
    · next hdrop =>
      rw [if_pos hdrop]
      exact iha hd
    split at hd
    · next hdrop hop =>
      rw [if_neg hdrop, if_pos hop]
      rcases List.mem_append.1 hd with hd | hd
      · exact List.subset_append_of_subset_left _ (iha hd)
      · exact List.subset_append_of_subset_right _ (ihb hd)
    · cases hd
  | case2 ty op a iha =>
    rcases List.mem_cons.1 hd with rfl | hd
    · exact List.Subset.refl _
    refine List.subset_cons_of_subset _ ?_
    split at hd
    · next hop =>
      rw [if_pos hop]
      exact iha hd
    · cases hd
  | case3 e =>
    obtain rfl := List.mem_singleton.1 hd
    rw [conditions]
    · exact List.Subset.refl _
    all_goals assumption

theorem dropsFloatTest_eq_false (demorgan : Bool) {e : Expr}
    (hsame : ∀ d ∈ conditions e, SameTruth (boolSimplify demorgan d) d) :
    e.dropsFloatTest = false := by
  cases e with
  | binary ty op a b =>
    refine Bool.eq_false_iff.2 fun hmarked ↦ ?_
    have hdrop := (Bool.and_eq_true_iff.1 hmarked).1
    have ha : a ∈ conditions (binary ty op a b) := by
      rw [conditions, if_pos hdrop]
      exact List.mem_cons_of_mem _ (mem_conditions_self a)
    exact not_sameTruth_of_dropsFloatTest demorgan hmarked (hsame a ha)
      (hsame _ (mem_conditions_self _))
  | _ => rfl

/-- The simplification keeps the truth of the conditions it goes through exactly when it drops no
comparison with zero whose node is marked as one of floats. -/
theorem boolSimplify_keepsTruth_iff (demorgan : Bool) (e : Expr) :
    (∀ d ∈ conditions e, KeepsTruth demorgan d) ↔
      ∀ d ∈ conditions e, d.dropsFloatTest = false := by
  constructor
  · intro hkeeps d hd
    exact dropsFloatTest_eq_false demorgan fun d' hd' ↦ (hkeeps d' (conditions_subset hd hd')).2
  · intro hplain d hd
    exact ⟨oppositeTruth_negateExpr demorgan d,
      sameTruth_boolSimplify demorgan fun d' hd' ↦ hplain d' (conditions_subset hd hd')⟩

/-! ### Negative zero -/

/-- The place of a word in the order of double-precision numbers that are not NaN. -/
def doubleRank (v : Val) : ℤ :=
  if v.msb then -(v.toNat % 2 ^ 63 : ℕ) else (v.toNat % 2 ^ 63 : ℕ)

/-- Words compared as double-precision numbers; those above the infinities are NaN. -/
def doubleOutcome (v w : Val) : FloatOutcome :=
  if 0x7ff0000000000000 < v.toNat % 2 ^ 63 ∨ 0x7ff0000000000000 < w.toNat % 2 ^ 63 then .unordered
  else if doubleRank v < doubleRank w then .less
  else if doubleRank v = doubleRank w then .equal
  else .greater

/-- `*(int64_t *)p != 0`, a comparison of floats by the mark of its node. -/
def loadNonzero : Expr :=
  binary ⟨8, false, true⟩ .ne (mem ⟨8, false, false⟩ (mkVar "p" 8)) (mkConst 0 8)

/-- Negative zero compares equal to zero, and its word is not zero. -/
theorem boolSimplify_negativeZero : ¬KeepsTruth true loadNonzero := by
  intro hkeeps
  have htruth := hkeeps.2 _ doubleOutcome (floatWorld_comparesFloats doubleOutcome)
  have hval := congrArg (fun y ↦ (y ⟨fun _ ↦ 0, fun _ ↦ 0x8000000000000000⟩).2.1) htruth
  exact absurd hval (by decide)

end Expr

end Ldu
