import Ldu.Lift.Masks

/-!
# Recovered conditions are the conditions

The instructions `cmp`, `test` and `sub` record the operands or the result (`FlagOp.src`) and set
the flags of a difference or of a masked word (`FlagOp.flags`). `ccToExpr_iff` says when the
condition that is recovered from the record holds exactly when the code does on the flags.

Words of four and eight bytes are compared as they are. Narrower ones are compared as C extends
them, and the condition is right if it extends both as the code asks or the word that it gets wrong
compares the right way all the same (`CC.Survives`). The sign after a comparison is that of a
difference in a wider register. After a mask only the codes that read the sign can go wrong, when
the word is extended without it, and a mask that is dropped with a cast lets the bits above the
word in (`Recovers`).
-/

namespace Ldu

open Expr

/-- The instructions whose flags are read. -/
inductive FlagOp
  | cmp | test | sub
  deriving DecidableEq, Repr

namespace FlagOp

/-- What the instruction records. -/
def src (w : ℕ) (A B : Expr) : FlagOp → FlagSrc
  | cmp => { valid := true, isCmp := true, a := A, b := B, width := w }
  | test => { valid := true, isTest := true, a := A, b := B, width := w }
  | sub => { valid := true, isArith := true, a := mkBinary .sub A B w, width := w }

/-- The flags the instruction sets. -/
def flags {n : ℕ} (x y : BitVec n) : FlagOp → Flags
  | cmp | sub => subFlags x y
  | test => andFlags x y

end FlagOp

/-- A narrowing cast is read without sign after it has been made unsigned. -/
def CC.readsUnsigned (cc : CC) (w : ℕ) (A : Expr) : Bool :=
  (FlagSrc.flipped cc w A).readsUnsigned

namespace World

variable {M E : Type} (W : World M E)

/-- The word of `w` bytes an operand holds. -/
def word (s : Store M) (w : ℕ) (A : Expr) : BitVec (8 * w) :=
  (W.cValue s A).setWidth (8 * w)

/-- Folding keeps what is loaded, and operands that are called equal hold the same word. -/
structure FoldsKept (P : PtrInfo) (s : Store M) (w : ℕ) (A B : Expr) : Prop where
  left : ∀ k, W.cValue s ((Expr.fold P)^[k] A.underCast) = W.cValue s A.underCast
  right : ∀ k, W.cValue s ((Expr.fold P)^[k] B.underCast) = W.cValue s B.underCast
  same : ∀ k, ((Expr.fold P)^[k] A).exprEqual ((Expr.fold P)^[k] B) = true →
    W.word s w A = W.word s w B

/-- The masked word is found by the codes: of a place whose cast and mask are dropped the whole
compares with zero as the word does, and the sign of another word is not lost to an extension
without sign. -/
def MaskSurvives (P : PtrInfo) (s : Store M) (w : ℕ) (cc : CC) (A B : Expr) : Prop :=
  let z := W.word s w A &&& W.word s w B
  if maskDropped w A B then
    let a := A.underCast
    let X := reading (8 * max 4 a.ty.width) a.readsUnsigned (W.word s a.ty.width a)
    cc.onZero X = cc.onZero z
  else
    cc ∈ CC.signed → z.msb = true →
      if A.exprEqual B then w < 4 → A.readsUnsigned = false
      else (castMasked A B).isSome = false ∧
        (w < 4 → maskReads w (Expr.fold P A) (Expr.fold P B) = false)

/-- The condition that is recovered is the condition of the code. -/
def Recovers (P : PtrInfo) (s : Store M) (w : ℕ) (cc : CC) (A B : Expr) : FlagOp → Prop
  | .cmp =>
    if cc ∈ CC.signs then
      calledEqual P 2 A B = true ∨ SignSurvives (8 * max 4 w) A.readsUnsigned B.readsUnsigned
        (W.word s w A) (W.word s w B)
    else
      cc.Survives (8 * max 4 w) (cc.readsUnsigned w A) (cc.readsUnsigned w B) (W.word s w A)
        (W.word s w B)
  | .sub =>
    if cc ∈ CC.signs then
      calledEqual P 1 A B = true ∨ SignSurvives (8 * max 4 w) A.readsUnsigned B.readsUnsigned
        (W.word s w A) (W.word s w B)
    else if cc = .e ∨ cc = .ne then
      calledEqual P 1 A B = true ∨ cc.Survives (8 * max 4 w) A.readsUnsigned B.readsUnsigned
        (W.word s w A) (W.word s w B)
    else
      cc.Survives (8 * max 4 w) (cc.readsUnsigned w A) (cc.readsUnsigned w B) (W.word s w A)
        (W.word s w B)
  | .test => W.MaskSurvives P s w cc A B

/-! ### Casts made unsigned -/

section Flip

variable {W} {P : PtrInfo} {s : Store M} {w : ℕ} {r : Bool} {x : BitVec (8 * w)} {A : Expr}

/-- The same cast without sign. -/
theorem Holds.cast_unsigned (hw : w ∈ [1, 2, 4, 8]) {ty : Ty} {text : String} {a : Expr}
    (h : W.Holds P s w r x (.cast ty text a)) :
    W.Holds P s w true x (.cast ⟨w, true, false⟩ (castStr w true) a) := by
  obtain ⟨hwidth, hint, -, hplace, hint', hin, hlt⟩ := h.isOperand
  refine ⟨⟨rfl, rfl, rfl, hplace, hint', hin, hlt⟩, h.kept, rfl, ?_⟩
  have hcTy : a.cTy.isFloat = false := by
    cases a <;> first | exact hint' | cases hplace
  have hvalue (u : Bool) (text : String) :
      W.cValue s (.cast ⟨w, u, false⟩ text a) = (Ty.mk w u false).ext (W.cValue s a) := by
    rw [cValue, castOp, hcTy]
    rfl
  obtain ⟨k, u, fl⟩ := ty
  obtain rfl : k = w := hwidth
  obtain rfl : fl = false := hint
  have hle := (le_of_width hw).2
  rw [← h.word, hvalue, hvalue, ext_eq_reading hw, ext_eq_reading hw, setWidth_reading hle,
    setWidth_reading hle]

theorem Holds.flipTruncUnsigned (hw : w ∈ [1, 2, 4, 8]) (h : W.Holds P s w r x A) :
    W.Holds P s w A.flipTruncUnsigned.readsUnsigned x A.flipTruncUnsigned := by
  cases A with
  | cast ty text a =>
    have hunsigned := h.cast_unsigned hw
    obtain ⟨hwidth, -, htext, hplace, -⟩ := h.isOperand
    have hcast (text : String) : mkCast text a ty.width true = .cast ⟨w, true, false⟩ text a := by
      rw [← hwidth]
      cases a <;> first | rfl | cases hplace
    rw [Expr.flipTruncUnsigned, hcast, hcast]
    have hw' := hw
    simp only [List.mem_cons, List.not_mem_nil, or_false] at hw'
    split
    · next h1 =>
      obtain rfl : w = 1 := by
        rw [htext] at h1
        revert h1
        cases ty.isUnsigned <;> rcases hw' with rfl | rfl | rfl | rfl <;> decide
      exact hunsigned
    · split
      · next h2 =>
        obtain rfl : w = 2 := by
          rw [htext] at h2
          revert h2
          cases ty.isUnsigned <;> rcases hw' with rfl | rfl | rfl | rfl <;> decide
        exact hunsigned
      · exact h.reads ▸ h
  | _ => exact h.reads ▸ h

theorem Holds.flipped (hw : w ∈ [1, 2, 4, 8]) (h : W.Holds P s w r x A) (cc : CC) :
    W.Holds P s w (cc.readsUnsigned w A) x (FlagSrc.flipped cc w A) := by
  rw [CC.readsUnsigned, FlagSrc.flipped]
  split
  · exact h.flipTruncUnsigned hw
  · exact h.reads ▸ h

end Flip

end World

/-! ### Codes and operators -/

theorem isRel_relOp {cc : CC} (hcc : cc ∈ CC.orders ++ CC.signs) :
    (FlagSrc.relOp cc).isRel = true := by
  revert hcc
  cases cc <;> decide

theorem ofOrdering_relOp {cc : CC} (hcc : cc ∈ CC.orders ++ CC.signs) (c : Ordering) :
    (FlagSrc.relOp cc).ofOrdering c = cc.ofOrdering c := by
  revert hcc c
  cases cc <;> simp [CC.orders, CC.signs, FlagSrc.relOp, BinOp.ofOrdering, CC.ofOrdering]

/-- A recorded instruction is read as a comparison of integers. -/
theorem ccToExpr_src (P : PtrInfo) (cc : CC) (op : FlagOp) (w : ℕ) (A B : Expr) :
    FlagSrc.ccToExpr P cc (op.src w A B) = (op.src w A B).intCond P cc := by
  have hcarry : (op.src w A B).carry cc = none := by
    cases op <;> simp [FlagSrc.carry, FlagOp.src]
  rw [FlagSrc.ccToExpr, hcarry]
  cases op <;> rfl

/-- What is compared after a `cmp`. -/
theorem compared_cmp (P : PtrInfo) (cc : CC) (w : ℕ) (A B : Expr) :
    (FlagOp.cmp.src w A B).compared P cc =
      if cc ∈ CC.signs then (Expr.fold P (mkBinary .sub A B w), mkConst 0 w) else (A, B) := by
  cases cc <;> rfl

/-- What is compared after a subtraction. -/
theorem compared_sub (P : PtrInfo) (cc : CC) (w : ℕ) (A B : Expr) :
    (FlagOp.sub.src w A B).compared P cc =
      if cc ∈ CC.signs ∨ cc = .e ∨ cc = .ne then (mkBinary .sub A B w, mkConst 0 w)
      else (A, B) := by
  cases cc <;> rfl

/-- What is compared after a `test`. -/
theorem compared_test (P : PtrInfo) (cc : CC) (w : ℕ) (A B : Expr) :
    (FlagOp.test.src w A B).compared P cc =
      (if exprEqual A B then A else mkBinary .band A B w, mkConst 0 w) := by
  cases cc <;> rfl

theorem intCond_eq {P : PtrInfo} {cc : CC} {fs : FlagSrc} {L R : Expr}
    (h : fs.compared P cc = (L, R)) :
    fs.intCond P cc = Expr.fold P (mkBinary (FlagSrc.relOp cc)
      (FlagSrc.flipped cc fs.width L) (FlagSrc.flipped cc fs.width R) fs.width
      cc.isUnsigned) := by
  rw [FlagSrc.intCond, h]

theorem ofBool_iff {b c : Bool} : ((ofBool b ≠ 0 ↔ c = true) ↔ b = c) := by
  rw [ofBool_ne_zero_iff]
  exact Bool.eq_iff_iff.symm

/-- The sign codes of two words agree when the signs do. -/
theorem onZero_eq_iff {n N : ℕ} {cc : CC} (hcc : cc ∈ CC.signs) (p : BitVec N) (q : BitVec n) :
    cc.onZero p = cc.onZero q ↔ p.msb = q.msb := by
  rw [msb_eq_compare, msb_eq_compare]
  simp only [CC.signs, List.mem_cons, List.not_mem_nil, or_false] at hcc
  rcases hcc with rfl | rfl
  · exact Iff.rfl
  · exact Bool.not_inj_iff

namespace World

variable {M E : Type} {W : World M E} {P : PtrInfo} {s : Store M} {w : ℕ} {r r' : Bool}
  {x y : BitVec (8 * w)} {A B : Expr} {cc : CC}

/-- The sign of a difference, given what has become of it. -/
theorem sign_iff (hw : w ∈ [1, 2, 4, 8]) (hcc : cc ∈ CC.signs) {L : Expr} {called : Bool}
    (hsame : called = true → x = y)
    (hplain : W.Plain s (max 4 w) (Expr.fold P L) (if called then 0
      else reading (8 * max 4 w) r x - reading (8 * max 4 w) r' y)) :
    (W.cValue s (Expr.fold P (.mkBinary (FlagSrc.relOp cc) L (.mkConst 0 w) w)) ≠ 0 ↔
      cc.holds (subFlags x y) = true) ↔
      called = true ∨ SignSurvives (8 * max 4 w) r r' x y := by
  have hcc' := List.mem_append_right CC.orders hcc
  have hu : cc.isUnsigned = false := by
    revert hcc
    cases cc <;> decide
  have hrel : ¬(FlagSrc.relOp cc = .eq ∨ FlagSrc.relOp cc = .ne) := by
    revert hcc
    cases cc <;> decide
  have hvalue := hplain.cValue_fold_rel_stays (max_four_mem hw) (le_max_right ..) rfl
    (isRel_relOp hcc') (u := false) (c := false) (fun h ↦ absurd h hrel) (by simp)
  rw [Expr.mkConst, hvalue, ofOrdering_relOp hcc', ofBool_iff, holds_subFlags_of_signs hcc, ← hu]
  refine (onZero_eq_iff hcc _ _).trans ?_
  cases called with
  | true =>
    refine iff_of_true ?_ (.inl rfl)
    rw [hsame rfl, BitVec.sub_self]
    simp
  | false =>
    rw [if_neg Bool.false_ne_true, or_iff_right Bool.false_ne_true]
    refine signSurvives_iff ?_ r r' x y
    simp only [List.mem_cons, List.not_mem_nil, or_false] at hw
    omega

/-- A word extended to `f` bytes, compared with zero. -/
theorem onZero_reading_iff (hcc : cc ∈ CC.orders ++ CC.signs) {f : ℕ} (hf : w ≤ f) (ρ : Bool)
    (z : BitVec (8 * w)) :
    cc.onZero (reading (8 * f) ρ z) = cc.onZero z ↔
      (cc ∈ CC.signed → z.msb = true → w < f → ρ = false) := by
  have hzero : reading (8 * f) true (0 : BitVec (8 * w)) = 0 :=
    (reading_eq_zero_iff (by omega) true _).2 rfl
  have hsurvives := survives_iff (N := 8 * f) (by omega) cc ρ true z 0
  rw [hzero] at hsurvives
  rw [CC.onZero, CC.onZero, hsurvives, survives_zero_iff hcc]
  simp only [Nat.mul_lt_mul_left (by decide : 0 < 8)]

section Sources

variable (hw : w ∈ [1, 2, 4, 8]) (hA : W.Holds P s w r x A) (hB : W.Holds P s w r' y B)

include hw hA hB

/-- The operands are compared, their casts made unsigned where the code asks for it. -/
theorem Holds.order_iff (hcc : cc ∈ CC.orders) :
    (W.cValue s (Expr.fold P (.mkBinary (FlagSrc.relOp cc) (FlagSrc.flipped cc w A)
        (FlagSrc.flipped cc w B) w cc.isUnsigned)) ≠ 0 ↔
      cc.holds (subFlags x y) = true) ↔
      cc.Survives (8 * max 4 w) (cc.readsUnsigned w A) (cc.readsUnsigned w B) x y := by
  have hcc' := List.mem_append_left CC.signs hcc
  rw [(hA.flipped hw cc).cValue_fold_rel hw (hB.flipped hw cc) (isRel_relOp hcc'),
    ofOrdering_relOp hcc', ofBool_iff, holds_subFlags hcc]
  exact survives_iff (by omega) cc _ _ x y

/-- The result of a subtraction, compared with zero for equality. -/
theorem Holds.sub_eq_iff (hcc : cc = .e ∨ cc = .ne)
    (hsame : Expr.calledEqual P 1 A B = true → x = y) :
    (W.cValue s (Expr.fold P (.mkBinary (FlagSrc.relOp cc) (.mkBinary .sub A B w)
        (.mkConst 0 w) w)) ≠ 0 ↔ cc.holds (subFlags x y) = true) ↔
      Expr.calledEqual P 1 A B = true ∨ cc.Survives (8 * max 4 w) r r' x y := by
  have hcc' : cc ∈ CC.orders := by rcases hcc with rfl | rfl <;> decide
  have hu : cc.isUnsigned = false := by rcases hcc with rfl | rfl <;> rfl
  have hrel : FlagSrc.relOp cc = .eq ∨ FlagSrc.relOp cc = .ne := by
    rcases hcc with rfl | rfl
    · exact .inl rfl
    · exact .inr rfl
  rw [hA.cValue_fold_sub_eq hw hB hrel, ofOrdering_relOp (List.mem_append_left _ hcc'), ofBool_iff,
    holds_subFlags hcc']
  split
  · next h =>
    refine iff_of_true ?_ (.inl h)
    rw [hsame h, compare_eq_iff_eq.2 rfl]
  · next h =>
    rw [or_iff_right h, ← survives_iff (by omega), hu]

omit hB in
/-- Operands that are called equal are a word that is masked with itself. -/
theorem Holds.test_self_iff (hcc : cc ∈ CC.orders ++ CC.signs) (hxy : x = y) :
    (W.cValue s (Expr.fold P (.mkBinary (FlagSrc.relOp cc) (FlagSrc.flipped cc w A) (.mkConst 0 w)
        w cc.isUnsigned)) ≠ 0 ↔ cc.holds (andFlags x y) = true) ↔
      (cc ∈ CC.signed → x.msb = true → w < 4 → A.readsUnsigned = false) := by
  have hzero : reading (8 * max 4 w) true (0 : BitVec (8 * w)) = 0 :=
    (reading_eq_zero_iff (by omega) true _).2 rfl
  rw [Expr.mkConst, (hA.flipped hw cc).cValue_fold_rel hw (holds_zero W P s false)
    (isRel_relOp hcc), ofOrdering_relOp hcc, ofBool_iff, holds_andFlags hcc, ← hxy,
    BitVec.and_self, hzero]
  refine (onZero_reading_iff hcc (le_max_right 4 w) _ x).trans ?_
  refine forall_congr' fun hsigned ↦ forall_congr' fun _ ↦ ?_
  have hflips : FlagSrc.flips cc w = false := by
    revert hsigned
    cases cc <;> simp [CC.signed, FlagSrc.flips, CC.isUnsigned]
  rw [CC.readsUnsigned, FlagSrc.flipped, hflips, if_neg Bool.false_ne_true]
  exact imp_congr_left (by omega)

/-- A mask and the cast under it that are dropped. -/
theorem Holds.test_dropped_iff (hcc : cc ∈ CC.orders ++ CC.signs)
    (hdrop : maskDropped w A B = true) :
    (W.cValue s (Expr.fold P (.mkBinary (FlagSrc.relOp cc) (.mkBinary .band A B w) (.mkConst 0 w) w
        cc.isUnsigned)) ≠ 0 ↔ cc.holds (andFlags x y) = true) ↔
      cc.onZero (reading (8 * max 4 A.underCast.ty.width) A.underCast.readsUnsigned
        (W.word s A.underCast.ty.width A.underCast)) = cc.onZero (x &&& y) := by
  obtain ⟨hk, hlt, ⟨X, hX⟩, hfold⟩ := hA.fold_dropped hw hB hdrop
  have hD := hX.fold.fold
  have hvalue := (hD.plain hk).cValue_fold_rel_zero (w := w) (max_four_mem hk) (by omega) hfold
    (isRel_relOp hcc) (hD.fold.plain hk) (max_four_mem hk) (by omega) Iff.rfl
    hD.isOperand.extraOver hD.fold.isOperand.extraOver cc.isUnsigned false
  rw [Expr.mkConst, hvalue, ofOrdering_relOp hcc, ofBool_iff, holds_andFlags hcc, World.word,
    hX.word]
  exact Iff.rfl

/-- Masked bits, if no mask is dropped with a cast. -/
theorem Holds.test_iff (hcc : cc ∈ CC.orders ++ CC.signs)
    (hsame : ∀ k, ((Expr.fold P)^[k] A).exprEqual ((Expr.fold P)^[k] B) = true → x = y)
    (hdrop : maskDropped w A B = false) :
    (W.cValue s (Expr.fold P (.mkBinary (FlagSrc.relOp cc) (.mkBinary .band A B w) (.mkConst 0 w) w
        cc.isUnsigned)) ≠ 0 ↔ cc.holds (andFlags x y) = true) ↔
      (cc ∈ CC.signed → (x &&& y).msb = true → (castMasked A B).isSome = false ∧
        (w < 4 → maskReads w (Expr.fold P A) (Expr.fold P B) = false)) := by
  obtain ⟨f, ρ, hD, hmsb⟩ := hA.masked_band hw hB hsame hdrop
  obtain ⟨f', ρ', hD'⟩ := hD.fold hw
  obtain ⟨hf, hle⟩ := hD.frame hw
  obtain ⟨hf', hle'⟩ := hD'.frame hw
  have hzero : reading (8 * f') ρ' (x &&& y) = 0 ↔ reading (8 * f) ρ (x &&& y) = 0 := by
    rw [reading_eq_zero_iff (by omega), reading_eq_zero_iff (by omega)]
  have hvalue := (hD.plain hw).cValue_fold_rel_zero hf hle rfl (isRel_relOp hcc) (hD'.plain hw) hf'
    hle' hzero hD.extraOver hD'.extraOver cc.isUnsigned false
  rw [Expr.mkConst, hvalue, ofOrdering_relOp hcc, ofBool_iff, holds_andFlags hcc]
  refine (onZero_reading_iff hcc hle ρ _).trans ?_
  refine forall_congr' fun _ ↦ forall_congr' fun h ↦ ?_
  have hform := hmsb h
  split at hform
  · next hcast =>
    obtain ⟨hlt, rfl⟩ := hform
    exact iff_of_false (fun h ↦ absurd (h hlt) (by decide)) fun h ↦ by simp [hcast] at h
  · next hcast =>
    obtain ⟨rfl, rfl⟩ := hform
    rw [Bool.not_eq_true] at hcast
    rw [hcast, and_iff_right rfl]
    exact imp_congr_left (by omega)

end Sources

/-- The recovered condition holds exactly when the code does on the flags of the instruction, if
and only if the operands are such that the extensions of C do not matter (`Recovers`). -/
theorem ccToExpr_iff (hw : w ∈ [1, 2, 4, 8]) (hA : A.IsOperand w) (hB : B.IsOperand w)
    (hkept : W.FoldsKept P s w A B) (hcc : cc ∈ CC.orders ++ CC.signs) (op : FlagOp) :
    (W.cValue s (FlagSrc.ccToExpr P cc (op.src w A B)) ≠ 0 ↔
      cc.holds (op.flags (W.word s w A) (W.word s w B)) = true) ↔
      W.Recovers P s w cc A B op := by
  have hA : W.Holds P s w A.readsUnsigned (W.word s w A) A := ⟨hA, hkept.left, rfl, rfl⟩
  have hB : W.Holds P s w B.readsUnsigned (W.word s w B) B := ⟨hB, hkept.right, rfl, rfl⟩
  have hsame {n : ℕ} (h : calledEqual P n A B = true) : W.word s w A = W.word s w B := by
    obtain ⟨k, -, hk⟩ := List.any_eq_true.1 h
    exact hkept.same _ hk
  have hflip {e : Expr} (h : e.flipTruncUnsigned = e) : FlagSrc.flipped cc w e = e := by
    rw [FlagSrc.flipped]
    split
    · exact h
    · rfl
  have hsign (h : cc ∈ CC.signs) : cc.isUnsigned = false ∧ ∀ e, FlagSrc.flipped cc w e = e := by
    revert h
    cases cc <;> simp [CC.signs, CC.isUnsigned, FlagSrc.flipped, FlagSrc.flips]
  have horder (h : cc ∉ CC.signs) : cc ∈ CC.orders := (List.mem_append.1 hcc).resolve_right h
  rw [ccToExpr_src]
  cases op with
  | cmp =>
    have hcompared := compared_cmp P cc w A B
    rw [Recovers]
    split at hcompared
    · next hcs =>
      obtain ⟨hu, hflips⟩ := hsign hcs
      rw [intCond_eq hcompared, if_pos hcs, hu]
      simp only [FlagOp.src, hflips]
      exact sign_iff hw hcs hsame (hA.plain_sub_twice hw hB)
    · next hcs =>
      rw [intCond_eq hcompared, if_neg hcs]
      exact hA.order_iff hw hB (horder hcs)
  | sub =>
    have hcompared := compared_sub P cc w A B
    rw [Recovers]
    split at hcompared
    · next hcase =>
      rw [intCond_eq hcompared]
      simp only [FlagOp.src]
      rw [hflip (e := mkBinary .sub A B w) rfl, hflip (e := mkConst 0 w) rfl]
      rcases hcase with hcs | heq
      · rw [(hsign hcs).1, if_pos hcs]
        exact sign_iff hw hcs hsame (hA.plain_sub hw hB)
      · have hcs : cc ∉ CC.signs := by rcases heq with rfl | rfl <;> decide
        have hu : cc.isUnsigned = false := by rcases heq with rfl | rfl <;> rfl
        rw [hu, if_neg hcs, if_pos heq]
        exact hA.sub_eq_iff hw hB heq hsame
    · next hcase =>
      rw [not_or] at hcase
      rw [intCond_eq hcompared, if_neg hcase.1, if_neg hcase.2]
      exact hA.order_iff hw hB (horder hcase.1)
  | test =>
    have hcompared := compared_test P cc w A B
    rw [Recovers, MaskSurvives, intCond_eq hcompared]
    simp only [FlagOp.src, FlagOp.flags]
    rw [hflip (e := mkConst 0 w) rfl]
    split
    · next heq =>
      have hword := hkept.same 0 heq
      have hself := hA.test_self_iff hw hcc hword
      rw [← hword] at hself ⊢
      rw [maskDropped_of_exprEqual heq, if_neg Bool.false_ne_true, BitVec.and_self]
      exact hself
    · rw [hflip (e := mkBinary .band A B w) rfl]
      split
      · next hdrop => exact hA.test_dropped_iff hw hB hcc hdrop
      · next hdrop => exact hA.test_iff hw hB hcc hkept.same (Bool.eq_false_iff.2 hdrop)

/-- The condition is right for words of four and of eight bytes, unless a cast is dropped under a
mask. -/
theorem recovers_of_le (hw : 4 ≤ w) (hcast : castMasked A B = none) (op : FlagOp) :
    W.Recovers P s w cc A B op := by
  have hN : 8 * w = 8 * max 4 w := by rw [max_eq_right hw]
  have hsurvives (r r' : Bool) (x y : BitVec (8 * w)) : cc.Survives (8 * max 4 w) r r' x y :=
    .inl (by simp [off, ← hN])
  have hmask : W.MaskSurvives P s w cc A B := by
    have hdrop : maskDropped w A B = false := by
      rw [maskDropped, hcast]
      rfl
    have hnot (p : Prop) : w < 4 → p := fun h ↦ absurd h (by omega)
    rw [MaskSurvives, hdrop, hcast]
    intro _ _
    split
    · exact hnot _
    · exact ⟨rfl, hnot _⟩
  cases op with
  | cmp =>
    rw [Recovers]
    split
    · exact .inr (.inl hN)
    · exact hsurvives ..
  | sub =>
    rw [Recovers]
    split
    · exact .inr (.inl hN)
    · split
      · exact .inr (hsurvives ..)
      · exact hsurvives ..
  | test => exact hmask

end World

/-! ### A byte above the signed range -/

/-- The low byte of a variable. -/
def lowByte : Expr :=
  .cast ⟨1, false, false⟩ "(signed char)" (.var ⟨4, false, false⟩ "x")

/-- The byte `0x80`, recorded without its sign. -/
def highImmediate : Expr :=
  .const ⟨1, false, false⟩ 0x80

theorem isOperand_lowByte : lowByte.IsOperand 1 ∧ highImmediate.IsOperand 1 :=
  ⟨⟨rfl, rfl, rfl, rfl, rfl, by decide, by decide⟩, rfl, rfl, by decide, by decide⟩

theorem foldsKept_lowByte (P : PtrInfo) :
    traceWorld.FoldsKept P zeroStore 1 lowByte highImmediate := by
  have hcast : Expr.fold P lowByte = lowByte :=
    (fold_cast_place _ rfl (by decide)).trans (congrArg _ (fold_var ..))
  refine ⟨fun k ↦ congrArg _ (Function.iterate_fixed (fold_var ..) k),
    fun k ↦ congrArg _ (Function.iterate_fixed (fold_const ..) k), fun k h ↦ ?_⟩
  rw [Function.iterate_fixed hcast, highImmediate, Function.iterate_fixed (fold_const ..)] at h
  cases h

/-- A byte compared below `0x80` with sign. -/
theorem lowByte_iff :
    (traceWorld.cValue zeroStore (FlagSrc.ccToExpr {} .l (FlagOp.cmp.src 1 lowByte highImmediate)) ≠
        0 ↔ CC.l.holds (FlagOp.cmp.flags (traceWorld.word zeroStore 1 lowByte)
          (traceWorld.word zeroStore 1 highImmediate)) = true) ↔
      traceWorld.Recovers {} zeroStore 1 .l lowByte highImmediate .cmp :=
  World.ccToExpr_iff (by decide) isOperand_lowByte.1 isOperand_lowByte.2 (foldsKept_lowByte {})
    (by decide) .cmp

/-- No byte is less than `-128`, but every one is less than `128`, which is what is compared. -/
theorem lowByte_differs :
    (lowByte.IsOperand 1 ∧ highImmediate.IsOperand 1) ∧
      ¬(traceWorld.cValue zeroStore
          (FlagSrc.ccToExpr {} .l (FlagOp.cmp.src 1 lowByte highImmediate)) ≠ 0 ↔
        CC.l.holds (FlagOp.cmp.flags (traceWorld.word zeroStore 1 lowByte)
          (traceWorld.word zeroStore 1 highImmediate)) = true) :=
  ⟨isOperand_lowByte, by decide +kernel⟩

end Ldu
