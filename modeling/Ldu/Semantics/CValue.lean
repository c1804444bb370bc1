import Ldu.Arith.Flags
import Ldu.Ir.Fold
import Ldu.Semantics.CText
import Ldu.Semantics.Equal
import Ldu.Semantics.Extend

/-!
# The values of trees in C

A tree is printed without the conversions C makes: operands narrower than an `int` are promoted,
and an operator computes at the common type of its operands (`World.cValue`). What is printed with
a cast is the signedness of the node. Addresses have the values of the tree.
-/

namespace Ldu

/-- The type C gives to an expression. -/
def Expr.cTy : Expr → Ty
  | .unary _ op a => if op = .lnot then ⟨4, false, false⟩ else (cTy a).promoted
  | .binary _ op a b =>
    if Expr.BinOp.isBool op then ⟨4, false, false⟩ else CReading.opTy op (cTy a) (cTy b)
  | e => e.ty

/-- The value of an expression without effects, as C computes it. -/
def World.cValue {M E : Type} (W : World M E) (s : Store M) : Expr → Val
  | .const _ v => v
  | .var ty x => ty.ext (W.read s x)
  | .mem ty a => ty.ext (W.load s.mem ty (W.valueAt s a))
  | .cast ty _ a => W.castOp ty a.cTy (cValue W s a)
  | .unary _ op a => intUnop a.cTy.promoted op (cValue W s a)
  | .binary ty op a b =>
    let t : Ty := { CReading.opTy op a.cTy b.cTy with isUnsigned := ty.isUnsigned }
    intBinop t op (t.ext (cValue W s a))
      (if CReading.isShift op then cValue W s b else t.ext (cValue W s b))
  | e => W.valueAt s e

/-! ### Comparisons -/

/-- The operator compares two numbers. -/
def BinOp.isRel : BinOp → Bool
  | .eq | .ne | .lt | .le | .gt | .ge => true
  | _ => false

/-- The comparison of two numbers in this order. -/
def BinOp.ofOrdering : BinOp → Ordering → Bool
  | .eq, c => c == .eq
  | .ne, c => c != .eq
  | .lt, c => c == .lt
  | .le, c => c != .gt
  | .gt, c => c == .gt
  | .ge, c => c != .lt
  | _, _ => false

variable {N : ℕ} {op : BinOp}

theorem ofBool_ne_zero_iff (b : Bool) : ofBool b ≠ 0 ↔ b = true := by
  cases b <;> decide

/-- A comparison is the order of the two numbers. -/
theorem intBinop_of_isRel (hop : op.isRel = true) (t : Ty) (v w : Val) :
    intBinop t op v w =
      ofBool (op.ofOrdering (compare (num t.isUnsigned v) (num t.isUnsigned w))) := by
  have heq : (compare (num t.isUnsigned v) (num t.isUnsigned w) == .eq) = (v == w) := by
    rw [compare_num_beq_eq, beq_eq_decide]
  have hlt (v w : Val) : (compare (num t.isUnsigned v) (num t.isUnsigned w) == .lt) =
      if t.isUnsigned then v.ult w else v.slt w := by
    rw [Bool.eq_iff_iff, beq_iff_eq, compare_lt_iff_lt, num, num]
    split <;> simp [BitVec.ult, BitVec.slt]
  have hgt : (compare (num t.isUnsigned v) (num t.isUnsigned w) == .gt) =
      if t.isUnsigned then w.ult v else w.slt v := by
    rw [← hlt, Bool.eq_iff_iff, beq_iff_eq, beq_iff_eq, compare_lt_iff_lt, compare_gt_iff_gt]
  have hle (v w : Val) : (if t.isUnsigned then v.ule w else v.sle w) =
      !if t.isUnsigned then w.ult v else w.slt v := by
    split
    · rw [BitVec.ule_eq_not_ult]
    · rw [BitVec.sle_eq_not_slt]
  cases op <;> first | cases hop; done | skip
  all_goals simp only [intBinop, BinOp.ofOrdering, bne, heq, hlt, hgt, hle]

/-- Words that stand in a register by the signedness of the comparison are compared as they are. -/
theorem intBinop_reading (hop : op.isRel = true) (hN : N ≤ 64) (t : Ty) (p q : BitVec N) :
    intBinop t op (reading 64 t.isUnsigned p) (reading 64 t.isUnsigned q) =
      ofBool (op.ofOrdering (compare (num t.isUnsigned p) (num t.isUnsigned q))) := by
  have hoff (x : BitVec N) : off 64 t.isUnsigned t.isUnsigned x = false := by simp [off]
  rw [intBinop_of_isRel hop, compare_reading hN, if_pos ((hoff p).trans (hoff q).symm)]

/-! ### Operators at a width -/

theorem Ty.promoted_width {t : Ty} (h : t.isFloat = false) : t.promoted.width = max 4 t.width := by
  rw [Ty.promoted, h]
  split
  · next hle => exact (max_eq_right (hle.resolve_left Bool.false_ne_true)).symm
  · next hlt =>
    rw [not_or, not_le] at hlt
    exact (max_eq_left hlt.2.le).symm

namespace World

variable {M E : Type} {W : World M E} {s : Store M} {f : ℕ} {D D' : Expr} {p q : BitVec (8 * f)}

/-- Among operands of `f` bytes an integer has the bits `p`. -/
structure Shows (W : World M E) (s : Store M) (f : ℕ) (D : Expr) (p : BitVec (8 * f)) : Prop where
  isInt : D.cTy.isFloat = false
  width : D.cTy.promoted.width ≤ f
  value : (W.cValue s D).setWidth (8 * f) = p

/-- Operands of which one has `f` bytes and the other one no more are computed with at `f` bytes. -/
theorem Shows.opTy_eq (hD : W.Shows s f D p) (hD' : W.Shows s f D' q)
    (hf : D.cTy.promoted.width = f) (hop : CReading.isShift op = false) (u : Bool) :
    { CReading.opTy op D.cTy D'.cTy with isUnsigned := u } = (⟨f, u, false⟩ : Ty) := by
  have hint : (CReading.opTy op D.cTy D'.cTy).isFloat = false := by
    rw [CReading.opTy, hop, if_neg Bool.false_ne_true, Ty.usual_isFloat, hD.isInt, hD'.isInt]
    rfl
  have hwidth : (CReading.opTy op D.cTy D'.cTy).width = f := by
    have hle := hD'.width
    rw [CReading.opTy, hop, if_neg Bool.false_ne_true, Ty.usual, hD.isInt, hD'.isInt,
      Bool.or_self, if_neg Bool.false_ne_true]
    split
    · exact hf
    · rw [if_neg (by omega)]
      exact hf
  simp only [hint, hwidth]

section Frame

variable (hf4 : f ∈ [4, 8]) (hD : W.Shows s f D p) (hD' : W.Shows s f D' q)
  (hf : D.cTy.promoted.width = f)

include hf4 hD hD' hf

theorem Shows.cValue_binary (hop : CReading.isShift op = false) (ty : Ty) :
    W.cValue s (.binary ty op D D') = intBinop ⟨f, ty.isUnsigned, false⟩ op
      (reading 64 ty.isUnsigned p) (reading 64 ty.isUnsigned q) := by
  have hf' : f ∈ [1, 2, 4, 8] := by
    simp only [List.mem_cons, List.not_mem_nil, or_false] at hf4 ⊢
    omega
  rw [cValue]
  simp only [hD.opTy_eq hD' hf hop, hop, Bool.false_eq_true, if_false, ext_eq_reading hf',
    hD.value, hD'.value]

theorem Shows.cValue_rel (hop : op.isRel = true) (ty : Ty) :
    W.cValue s (.binary ty op D D') =
      ofBool (op.ofOrdering (compare (num ty.isUnsigned p) (num ty.isUnsigned q))) := by
  have hle : 8 * f ≤ 64 := by
    simp only [List.mem_cons, List.not_mem_nil, or_false] at hf4
    omega
  rw [hD.cValue_binary hf4 hD' hf (by cases op <;> first | rfl | cases hop)]
  exact intBinop_reading hop hle ⟨f, ty.isUnsigned, false⟩ p q

end Frame

/-- An integer of `f` bytes. -/
structure Plain (W : World M E) (s : Store M) (f : ℕ) (D : Expr) (p : BitVec (8 * f)) : Prop
    extends W.Shows s f D p where
  full : D.cTy.promoted.width = f
  isIntNode : D.ty.isFloat = false

/-- An operator of two integers of `f` bytes is an integer of `f` bytes. -/
theorem Plain.binary {p' : BitVec (8 * f)} (hf : f ∈ [4, 8]) (hD : W.Plain s f D p)
    (hD' : W.Shows s f D' q) (hop : CReading.isShift op = false ∧ Expr.BinOp.isBool op = false)
    {ty : Ty} (hty : ty.isFloat = false)
    (hvalue : (intBinop ⟨f, ty.isUnsigned, false⟩ op (reading 64 ty.isUnsigned p)
      (reading 64 ty.isUnsigned q)).setWidth (8 * f) = p') :
    W.Plain s f (.binary ty op D D') p' := by
  have hcTy : (Expr.binary ty op D D').cTy = CReading.opTy op D.cTy D'.cTy := by
    rw [Expr.cTy, hop.2, if_neg Bool.false_ne_true]
  have hopTy := hD.toShows.opTy_eq hD' hD.full hop.1 false
  have hint : (Expr.binary ty op D D').cTy.isFloat = false := hcTy ▸ congrArg Ty.isFloat hopTy
  have hwidth : (Expr.binary ty op D D').cTy.promoted.width = f := by
    have hwidth : (Expr.binary ty op D D').cTy.width = f := hcTy ▸ congrArg Ty.width hopTy
    rw [Ty.promoted_width hint, hwidth]
    simp only [List.mem_cons, List.not_mem_nil, or_false] at hf
    omega
  refine ⟨⟨hint, hwidth.le, ?_⟩, hwidth, hty⟩
  rw [hD.toShows.cValue_binary hf hD' hD.full hop.1, hvalue]

section Operators

variable (hf : f ∈ [4, 8]) (hD : W.Plain s f D p) (hD' : W.Shows s f D' q) {t : Ty}
  (hty : t.isFloat = false)

include hf hD hD' hty

theorem Plain.sub : W.Plain s f (.binary t .sub D D') (p - q) := by
  have hf' : f ∈ [1, 2, 4, 8] := by
    simp only [List.mem_cons, List.not_mem_nil, or_false] at hf ⊢
    omega
  have hle := (le_of_width hf').2
  refine hD.binary hf hD' ⟨rfl, rfl⟩ hty ?_
  rw [intBinop, ext_eq_reading hf', setWidth_reading hle, setWidth_sub hle, setWidth_reading hle,
    setWidth_reading hle]

theorem Plain.band : W.Plain s f (.binary t .band D D') (p &&& q) := by
  have hf' : f ∈ [1, 2, 4, 8] := by
    simp only [List.mem_cons, List.not_mem_nil, or_false] at hf ⊢
    omega
  have hle := (le_of_width hf').2
  refine hD.binary hf hD' ⟨rfl, rfl⟩ hty ?_
  rw [intBinop, ext_eq_reading hf', setWidth_reading hle, BitVec.setWidth_and,
    setWidth_reading hle, setWidth_reading hle]

end Operators

end World

end Ldu
