import Ldu.Lift.Conditions
import Ldu.Semantics.CValue

/-!
# The operands of a comparison

An operand of `w` bytes is a variable, a load, a narrowing cast of either, or an immediate, which
stands for a word with or without its sign (`IsOperand`). It holds a word, and C reads it as that
word extended by zeros or by the sign (`World.Holds`). Folding makes an operand of an operand, and
it holds the same word if folding the address of a load keeps the value of the load.

A relation of two operands folds to itself, or is decided when a number without sign is compared
with zero; either way it has the value of the relation (`Holds.cValue_fold_rel`).
-/

namespace Ldu

namespace Expr

/-! ### Operands -/

/-- An operand of `w` bytes. -/
def IsOperand (w : ℕ) : Expr → Prop
  | var ty _ | mem ty _ => ty.width = w ∧ ty.isFloat = false
  | cast ty text a =>
    ty.width = w ∧ ty.isFloat = false ∧ text = castStr w ty.isUnsigned ∧
      a.isPlace = true ∧ a.ty.isFloat = false ∧ a.ty.width ∈ [2, 4, 8] ∧ w < a.ty.width
  | const ty v =>
    ty.width = w ∧ ty.isFloat = false ∧ -2 ^ (8 * w - 1) ≤ v.toInt ∧ v.toInt < 2 ^ (8 * w)
  | _ => False

/-- C extends the operand without sign. -/
def readsUnsigned : Expr → Bool
  | const _ v => !v.msb
  | e => e.ty.isUnsigned

/-- What is read under a cast. -/
def underCast : Expr → Expr
  | cast _ _ a => a
  | e => e

variable {w : ℕ} {P : PtrInfo} {a A : Expr}

theorem fold_var (P : PtrInfo) (ty : Ty) (n : String) : fold P (var ty n) = var ty n := by
  rw [fold_eq]
  rfl

theorem fold_const (P : PtrInfo) (ty : Ty) (v : BitVec 64) :
    fold P (const ty v) = const ty v := by
  rw [fold_eq]
  rfl

theorem fold_mem (P : PtrInfo) (ty : Ty) (a : Expr) :
    fold P (mem ty a) = mem ty (fold P a) := by
  rw [fold_eq]
  rfl

theorem fold_place (h : a.isPlace = true) :
    (fold P a).isPlace = true ∧ (fold P a).ty = a.ty := by
  cases a with
  | var ty n => rw [fold_var]; exact ⟨rfl, rfl⟩
  | mem ty a => rw [fold_mem]; exact ⟨rfl, rfl⟩
  | _ => cases h

/-- A narrowing cast of a place stays. -/
theorem fold_cast_place {ty : Ty} (text : String) (h : a.isPlace = true)
    (hne : a.ty.width ≠ ty.width) : fold P (cast ty text a) = cast ty text (fold P a) := by
  obtain ⟨hplace, hty⟩ := fold_place (P := P) h
  have hnode : foldNode P ((cast ty text a).mapChildren (fold P)) = foldCast ty text (fold P a) :=
    rfl
  rw [fold_eq, hnode]
  rw [← hty] at hne
  generalize fold P a = a' at hplace hne
  cases a' with
  | var ty' n =>
    have hty' : ty' ≠ ty := fun h ↦ hne (congrArg Ty.width h)
    simp [foldCast, constVal, foldCastMask, masksOff, foldCastCast, foldCastNoop, hty']
  | mem ty' a =>
    have hty' : ty' ≠ ty := fun h ↦ hne (congrArg Ty.width h)
    simp [foldCast, constVal, foldCastMask, masksOff, foldCastCast, foldCastNoop, hty']
  | _ => cases hplace

/-- Folding an operand gives an operand that is read alike, of what folding makes of the place. -/
theorem isOperand_fold (P : PtrInfo) (h : IsOperand w A) :
    IsOperand w (fold P A) ∧ (fold P A).readsUnsigned = A.readsUnsigned ∧
      (fold P A).ty = A.ty ∧ (fold P A).underCast = fold P A.underCast := by
  cases A with
  | var ty n =>
    rw [fold_var]
    exact ⟨h, rfl, rfl, (fold_var P ty n).symm⟩
  | const ty v =>
    rw [fold_const]
    exact ⟨h, rfl, rfl, (fold_const P ty v).symm⟩
  | mem ty a =>
    rw [fold_mem]
    exact ⟨h, rfl, rfl, (fold_mem P ty a).symm⟩
  | cast ty text a =>
    obtain ⟨hw, hint, htext, hplace, hint', hin, hlt⟩ := h
    obtain ⟨hplace', hty⟩ := fold_place (P := P) hplace
    rw [fold_cast_place text hplace (by omega)]
    exact ⟨⟨hw, hint, htext, hplace', hty ▸ hint', hty ▸ hin, hty ▸ hlt⟩, rfl, rfl, rfl⟩
  | _ => exact h.elim

theorem IsOperand.ty_eq (h : IsOperand w A) : A.ty.width = w ∧ A.ty.isFloat = false := by
  cases A with
  | var | mem => exact h
  | cast | const => exact ⟨h.1, h.2.1⟩
  | _ => exact h.elim

theorem IsOperand.eq_const {v : BitVec 64} (h : IsOperand w A) (hv : A.constVal = some v) :
    ∃ u, A = const ⟨w, u, false⟩ v := by
  cases A with
  | const ty v' =>
    obtain ⟨k, u, fl⟩ := ty
    obtain rfl : k = w := h.1
    obtain rfl : fl = false := h.2.1
    obtain rfl := Option.some.inj hv
    exact ⟨u, rfl⟩
  | _ => cases hv

/-- Only constants fold to constants. -/
theorem IsOperand.constVal_fold (h : IsOperand w A) : (fold P A).constVal = A.constVal := by
  cases A with
  | const => rw [fold_const]
  | var => rw [fold_var]
  | mem => rw [fold_mem]; rfl
  | cast ty text a =>
    rw [fold_cast_place text h.2.2.2.1 (by have := h.1; have := h.2.2.2.2.2.2; omega)]
    rfl
  | _ => exact h.elim

theorem IsOperand.cTy_eq (h : IsOperand w A) : A.cTy = A.ty := by
  cases A <;> first | rfl | exact h.elim

/-! ### Folding relations -/

section Relations

variable {D D' B e : Expr} {ty : Ty} {op : BinOp} {u : Bool}

/-- The operands are folded first. -/
theorem fold_binary_done (hA : fold P A = D) (hB : fold P B = D')
    (h : foldBinary P ty op D D' = .done e) : fold P (binary ty op A B) = e := by
  rw [fold_eq, mapChildren, hA, hB, foldNode, h]

theorem fold_binary_again (hA : fold P A = D) (hB : fold P B = D')
    (h : foldBinary P ty op D D' = .again e) : fold P (binary ty op A B) = fold P e := by
  rw [fold_eq, mapChildren, hA, hB, foldNode, h]

/-- A relation of integers stays, unless one of them is a sum with the other one or a number
without sign is compared with zero. -/
theorem fold_rel (hop : op.isRel = true) (hA : fold P A = D) (hB : fold P B = D')
    (hint : D.ty.isFloat = false) (hint' : D'.ty.isFloat = false)
    (hextra : op = .eq ∨ op = .ne → extraOver D D' = none ∧ extraOver D' D = none)
    (hzero : u = true → isConstVal 0 D' = false ∨ op = .eq ∨ op = .ne) :
    fold P (mkBinary op A B w u) = mkBinary op D D' w u := by
  have hz : foldUnsignedZero ⟨w, u, false⟩ op D D' = none := by
    unfold foldUnsignedZero
    cases u
    · rfl
    · rcases hzero rfl with h | rfl | rfl
      · rw [h]
        rfl
      · split <;> rfl
      · split <;> rfl
  have hself : foldSelfCompare ⟨w, u, false⟩ op D D' = none := by
    unfold foldSelfCompare
    split
    · next h => simp [hextra h]
    · rfl
  have hconsts : foldConsts ⟨w, u, false⟩ op D D' = none := by
    unfold foldConsts
    split
    · cases op <;> first | rfl | cases hop
    · rfl
  refine fold_binary_done hA hB ?_
  rw [foldBinary, hz, hself, hconsts]
  cases op <;> first | cases hop; done | skip
  all_goals
    simp [foldFloat, hint, hint', foldDouble, foldReassoc, foldScaleLeft, foldScaleRight,
      foldScaleConst, foldHalf, foldNeutral, foldMask, foldIdempotent, foldBoolMaskRight,
      foldBoolMaskLeft, foldAllOnes, foldAddrMasked, foldRest, mkBinary]

/-- A number without sign compared with zero. -/
theorem fold_rel_zero (hA : fold P A = D) (hB : fold P B = D') (hint : D.ty.isFloat = false)
    (hzero : isConstVal 0 D' = true) :
    fold P (mkBinary .ge A B w true) = mkConst 1 w ∧
      fold P (mkBinary .lt A B w true) = mkConst 0 w ∧
      fold P (mkBinary .gt A B w true) = fold P (mkBinary .ne D (mkConst 0 w) w) ∧
      fold P (mkBinary .le A B w true) = fold P (mkBinary .eq D (mkConst 0 w) w) := by
  have hcond : (!false && true && isConstVal 0 D' && !D.ty.isFloat) = true := by
    rw [hzero, hint]
    rfl
  refine ⟨fold_binary_done hA hB ?_, fold_binary_done hA hB ?_, fold_binary_again hA hB ?_,
    fold_binary_again hA hB ?_⟩
  all_goals
    rw [foldBinary, foldUnsignedZero, if_pos hcond]
    rfl

end Relations

/-- An operand is not a sum. -/
theorem IsOperand.extraOver (h : IsOperand w A) (b : Expr) : b.extraOver A = none := by
  cases A <;> first | rfl | exact h.elim

end Expr

namespace World

variable {M E : Type} {W : World M E} {P : Expr.PtrInfo} {s : Store M} {w : ℕ} {r : Bool}
  {x : BitVec (8 * w)} {A : Expr}

/-- The operand holds the word `x`, is extended as `r` says, and keeps what it reads when it is
folded. -/
structure Holds (W : World M E) (P : Expr.PtrInfo) (s : Store M) (w : ℕ) (r : Bool)
    (x : BitVec (8 * w)) (A : Expr) : Prop where
  isOperand : A.IsOperand w
  kept : ∀ k, W.cValue s ((Expr.fold P)^[k] A.underCast) = W.cValue s A.underCast
  reads : A.readsUnsigned = r
  word : (W.cValue s A).setWidth (8 * w) = x

/-- Folding an operand that keeps what it reads. -/
theorem Holds.fold (h : W.Holds P s w r x A) : W.Holds P s w r x (Expr.fold P A) := by
  obtain ⟨hop, hreads, -, hunder⟩ := Expr.isOperand_fold P h.isOperand
  refine ⟨hop, fun k ↦ ?_, hreads.trans h.reads, ?_⟩
  · have hk := h.kept (k + 1)
    have h1 := h.kept 1
    rw [Function.iterate_succ_apply] at hk
    rw [hunder, hk]
    exact h1.symm
  · rw [← h.word]
    have h1 : W.cValue s (Expr.fold P A.underCast) = W.cValue s A.underCast := h.kept 1
    congr 1
    have hA := h.isOperand
    cases A with
    | var | mem | const => exact h1
    | cast ty text a =>
      obtain ⟨hwidth, -, -, hplace, -, -, hlt⟩ := hA
      have hcTy : (Expr.fold P a).cTy = a.cTy := by
        cases a with
        | var ty n => rw [Expr.fold_var]
        | mem ty a => rw [Expr.fold_mem]; rfl
        | _ => cases hplace
      rw [Expr.fold_cast_place text hplace (by omega), cValue, cValue, hcTy]
      exact congrArg _ h1
    | _ => exact hA.elim

theorem Holds.promoted_width (h : W.Holds P s w r x A) : A.cTy.promoted.width = max 4 w := by
  rw [h.isOperand.cTy_eq, Ty.promoted_width h.isOperand.ty_eq.2, h.isOperand.ty_eq.1]

/-- Zero is an operand. -/
theorem holds_zero (W : World M E) (P : Expr.PtrInfo) (s : Store M) (u : Bool) :
    W.Holds P s w true 0 (.const ⟨w, u, false⟩ 0) := by
  have hpow : (0 : ℤ) < 2 ^ (8 * w) := Int.pow_pos (by decide)
  have hpow' : (0 : ℤ) < 2 ^ (8 * w - 1) := Int.pow_pos (by decide)
  refine ⟨⟨rfl, rfl, ?_, hpow⟩, fun k ↦ ?_, rfl, BitVec.setWidth_zero ..⟩
  · show -(2 : ℤ) ^ (8 * w - 1) ≤ 0
    omega
  · exact congrArg _ (Function.iterate_fixed (Expr.fold_const P _ _) k)

section Width

variable (hw : w ∈ [1, 2, 4, 8])

include hw

/-- The value of an operand is its word, extended. -/
theorem Holds.cValue_eq (h : W.Holds P s w r x A) : W.cValue s A = reading 64 r x := by
  have hle := (le_of_width hw).2
  -- An integer node of the width has such a value.
  have hext {u : Bool} {v : Val} (hu : u = r) (hv : W.cValue s A = (Ty.mk w u false).ext v) :
      W.cValue s A = reading 64 r x := by
    have hx := h.word
    rw [hv, ext_eq_reading hw, setWidth_reading hle] at hx
    rw [hv, ext_eq_reading hw, hx, hu]
  have hop := h.isOperand
  obtain ⟨hwidth, hint⟩ := hop.ty_eq
  have hreads := h.reads
  cases A with
  | var ty n =>
    obtain ⟨k, u, fl⟩ := ty
    obtain rfl : k = w := hwidth
    obtain rfl : fl = false := hint
    exact hext hreads rfl
  | mem ty a =>
    obtain ⟨k, u, fl⟩ := ty
    obtain rfl : k = w := hwidth
    obtain rfl : fl = false := hint
    exact hext hreads rfl
  | cast ty text a =>
    obtain ⟨k, u, fl⟩ := ty
    obtain rfl : k = w := hwidth
    obtain rfl : fl = false := hint
    obtain ⟨-, -, -, hplace, hint', -, -⟩ := hop
    have hcTy : a.cTy.isFloat = false := by
      cases a <;> first | exact hint' | cases hplace
    exact hext hreads (by rw [cValue, castOp, hcTy]; rfl)
  | const ty v =>
    have hx := h.word
    rw [cValue] at hx ⊢
    rw [← hx, ← hreads]
    exact (reading_setWidth_of_range (le_of_width hw).1 hle hop.2.2.1 hop.2.2.2).symm
  | _ => exact hop.elim

theorem max_four_mem : max 4 w ∈ [4, 8] := by
  simp only [List.mem_cons, List.not_mem_nil, or_false] at hw ⊢
  omega

theorem frame_le : 8 * max 4 w ≤ 64 := by
  simp only [List.mem_cons, List.not_mem_nil, or_false] at hw
  omega

/-- What C sees of an operand among operands of `f` bytes. -/
theorem Holds.shows (h : W.Holds P s w r x A) {f : ℕ} (hf : f ∈ [4, 8]) (hle : w ≤ f) :
    W.Shows s f A (reading (8 * f) r x) where
  isInt := by rw [h.isOperand.cTy_eq, h.isOperand.ty_eq.2]
  width := by
    rw [h.isOperand.cTy_eq, Ty.promoted_width h.isOperand.ty_eq.2, h.isOperand.ty_eq.1]
    simp only [List.mem_cons, List.not_mem_nil, or_false] at hf
    omega
  value := by
    rw [h.cValue_eq hw, setWidth_reading_of_le]
    simp only [List.mem_cons, List.not_mem_nil, or_false] at hf
    omega

end Width

/-! ### Relations -/

section Relations

variable {f f' : ℕ} {D L : Expr} {p : BitVec (8 * f)} {p' : BitVec (8 * f')} {op : BinOp}

theorem Holds.plain (hw : w ∈ [1, 2, 4, 8]) (h : W.Holds P s w r x A) :
    W.Plain s (max 4 w) A (reading (8 * max 4 w) r x) where
  toShows := h.shows hw (max_four_mem hw) (le_max_right ..)
  full := h.promoted_width
  isIntNode := h.isOperand.ty_eq.2

section Zero

variable (hf : f ∈ [4, 8]) (hle : w ≤ f) (hL : Expr.fold P L = D) (hD : W.Plain s f D p)
  (hop : op.isRel = true)

include hf hle hL hD hop

/-- A relation to zero that stays. -/
theorem Plain.cValue_fold_rel_stays {u c : Bool}
    (hsum : op = .eq ∨ op = .ne → Expr.extraOver (.const ⟨w, c, false⟩ 0) D = none)
    (hu : u = true → op = .eq ∨ op = .ne) :
    W.cValue s (Expr.fold P (.mkBinary op L (.const ⟨w, c, false⟩ 0) w u)) =
      ofBool (op.ofOrdering (compare (num u p) (num u (0 : BitVec (8 * f))))) := by
  have hc : W.Shows s f (.const ⟨w, c, false⟩ 0) 0 := by
    refine ⟨rfl, ?_, BitVec.setWidth_zero ..⟩
    show (Ty.promoted ⟨w, _, false⟩).width ≤ f
    rw [Ty.promoted_width rfl]
    simp only [List.mem_cons, List.not_mem_nil, or_false] at hf
    exact max_le (by omega) hle
  rw [Expr.fold_rel hop hL (Expr.fold_const ..) hD.isIntNode rfl (fun h ↦ ⟨rfl, hsum h⟩)
    fun h ↦ .inr (hu h)]
  exact hD.toShows.cValue_rel hf hc hD.full hop _

/-- A relation to zero has the value of the relation, also if it is decided because no number
without sign is less. The relation may be folded twice, so that what is folded again has to be zero
when it was. -/
theorem Plain.cValue_fold_rel_zero (hD' : W.Plain s f' (Expr.fold P D) p') (hf' : f' ∈ [4, 8])
    (hle' : w ≤ f') (hzero : p' = 0 ↔ p = 0) (hsum : ∀ b, Expr.extraOver b D = none)
    (hsum' : ∀ b, Expr.extraOver b (Expr.fold P D) = none) (u uc : Bool) :
    W.cValue s (Expr.fold P (.mkBinary op L (.const ⟨w, uc, false⟩ 0) w u)) =
      ofBool (op.ofOrdering (compare (num u p) (num u (0 : BitVec (8 * f))))) := by
  have hstay {u : Bool} (hu : u = true → op = .eq ∨ op = .ne) :=
    hD.cValue_fold_rel_stays hf hle hL hop (c := uc) (fun _ ↦ hsum _) hu
  have hagain {op : BinOp} (hop : op = .eq ∨ op = .ne) :=
    hD'.cValue_fold_rel_stays hf' hle' rfl (by rcases hop with rfl | rfl <;> rfl) (u := false)
      (c := false) (fun _ ↦ hsum' _) fun _ ↦ hop
  obtain ⟨hge, hlt, hgt, hle'⟩ :=
    Expr.fold_rel_zero (w := w) hL (Expr.fold_const P ⟨w, uc, false⟩ 0) hD.isIntNode rfl
  cases u with
  | false => exact hstay (by simp)
  | true =>
    rw [compare_num_zero]
    cases op with
    | eq => rw [hstay (by simp), compare_num_zero]
    | ne => rw [hstay (by simp), compare_num_zero]
    | ge =>
      rw [hge]
      split <;> rfl
    | lt =>
      rw [hlt]
      split <;> rfl
    | gt =>
      rw [hgt, Expr.mkConst, hagain (.inr rfl)]
      simp only [BinOp.ofOrdering, bne, compare_num_beq_eq, hzero]
      by_cases h : p = 0 <;> simp only [h, if_true, if_false, decide_true, decide_false] <;> rfl
    | le =>
      rw [hle', Expr.mkConst, hagain (.inl rfl)]
      simp only [BinOp.ofOrdering, compare_num_beq_eq, hzero]
      by_cases h : p = 0 <;> simp only [h, if_true, if_false, decide_true, decide_false] <;> rfl
    | _ => cases hop

end Zero

/-- A relation of two operands has the value of the relation. -/
theorem Holds.cValue_fold_rel {r' : Bool} {y : BitVec (8 * w)} {B : Expr}
    (hw : w ∈ [1, 2, 4, 8]) (hA : W.Holds P s w r x A) (hB : W.Holds P s w r' y B)
    (hop : op.isRel = true) (u : Bool) :
    W.cValue s (Expr.fold P (.mkBinary op A B w u)) =
      ofBool (op.ofOrdering (compare (num u (reading (8 * max 4 w) r x))
        (num u (reading (8 * max 4 w) r' y)))) := by
  have hA' := hA.fold
  have hB' := hB.fold
  cases hz : Expr.isConstVal 0 (Expr.fold P B) with
  | true =>
    rw [Expr.isConstVal, hB.isOperand.constVal_fold, beq_iff_eq] at hz
    obtain ⟨uc, rfl⟩ := hB.isOperand.eq_const hz
    have hy : y = 0 := hB.word.symm.trans (BitVec.setWidth_zero ..)
    have hread : reading (8 * max 4 w) r' y = 0 :=
      (reading_eq_zero_iff (by omega) r' y).2 hy
    rw [hread]
    exact (hA'.plain hw).cValue_fold_rel_zero (max_four_mem hw) (le_max_right ..) rfl hop
      (hA'.fold.plain hw) (max_four_mem hw) (le_max_right ..) Iff.rfl hA'.isOperand.extraOver
      hA'.fold.isOperand.extraOver u uc
  | false =>
    rw [Expr.fold_rel hop rfl rfl hA'.isOperand.ty_eq.2 hB'.isOperand.ty_eq.2
      (fun _ ↦ ⟨hB'.isOperand.extraOver _, hA'.isOperand.extraOver _⟩) fun _ ↦ .inl hz]
    exact (hA'.plain hw).toShows.cValue_rel (max_four_mem hw) (hB'.plain hw).toShows
      hA'.promoted_width hop _

end Relations

end World

end Ldu
