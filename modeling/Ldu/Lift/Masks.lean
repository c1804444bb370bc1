import Ldu.Lift.Differences

/-!
# Masked bits of operands

What folding makes of the masked bits of two operands of `w` bytes, and the value C finds there.
Masked bits stay masked bits, or become an operand. The narrowing cast under a mask without sign is
dropped, so that the bits are then found in a wider register; all of these are extensions of the
masked word (`Masked`), by zeros or by the sign. A mask of all bits of the word goes with the cast,
and then more than the word is left (`maskDropped`).
-/

namespace Ldu

namespace Expr

variable {w : ℕ} {P : PtrInfo} {A B : Expr}

/-- The place whose narrowing cast stands under a mask without sign. -/
def castMasked : Expr → Expr → Option Expr
  | cast _ _ a, const _ m => if 0 ≤ m.toInt then some a else none
  | _, _ => none

/-- What the masked bits of two folded operands become, unless a cast is dropped. -/
def maskResult (w : ℕ) (A B : Expr) : Expr :=
  if exprEqual A B then A
  else if allOnes ⟨w, false, false⟩ B then A
  else if allOnes ⟨w, false, false⟩ A then B
  else mkBinary .band A B w

/-- C extends what the masked bits become without sign, if no cast is dropped. -/
def maskReads (w : ℕ) (A B : Expr) : Bool :=
  if exprEqual A B then A.readsUnsigned
  else if A.constVal.isSome && B.constVal.isSome then A.readsUnsigned || B.readsUnsigned
  else if allOnes ⟨w, false, false⟩ B then A.readsUnsigned
  else if allOnes ⟨w, false, false⟩ A then B.readsUnsigned
  else A.readsUnsigned || B.readsUnsigned

/-- What the masked bits of two folded operands become. -/
def bandResult (w : ℕ) (A B : Expr) : Folded :=
  match A.constVal, B.constVal with
  | some v, some v' => .done (mkConst (v &&& v') w)
  | _, _ =>
    if isConstVal 0 A || isConstVal 0 B then .done (mkConst 0 w)
    else
      match castMasked A B with
      | some a => .again (mkBinary .band a B w)
      | none => .done (maskResult w A B)

/-- The text of a cast between integers is that of no pointer. -/
theorem castStr_contains (w : ℕ) (u : Bool) : (castStr w u).toList.contains '*' = false := by
  unfold castStr
  split <;> decide

theorem le_lowMask {m : BitVec 64} (hw : w < 8) (h0 : 0 ≤ m.toInt) (h : m.toInt < 2 ^ (8 * w)) :
    m ≤ lowMask w := by
  have hnat : m.toInt = m.toNat := by
    refine BitVec.toInt_eq_toNat_of_msb ?_
    rw [BitVec.msb_eq_toInt, decide_eq_false_iff_not]
    omega
  have hlt : m.toNat < 2 ^ (8 * w) := by
    rw [hnat] at h
    exact_mod_cast h
  have hpow : 2 ^ (8 * w) ≤ 2 ^ 56 := Nat.pow_le_pow_right (by decide) (by omega)
  rw [lowMask, if_neg (by omega), BitVec.le_def, BitVec.toNat_ofNat, Nat.mod_eq_of_lt (by omega)]
  omega

theorem foldMask_eq {w' : ℕ} (hw : w ∈ [1, 2, 4, 8]) (hA : IsOperand w' A)
    (hw' : w' = w ∨ A.isPlace = true) (hB : IsOperand w B) :
    foldMask ⟨w, false, false⟩ .band A B =
      (castMasked A B).map fun a ↦ .again (mkBinary .band a B w) := by
  simp only [List.mem_cons, List.not_mem_nil, or_false] at hw
  unfold foldMask
  cases A with
  | cast tyA text a =>
    cases B with
    | const tyB m =>
      obtain ⟨hwidth, hint, htext, hplace, hint', hin, hlt⟩ := hA
      obtain rfl := hw'.resolve_right Bool.false_ne_true
      simp only [List.mem_cons, List.not_mem_nil, or_false] at hin
      have hstar : text.toList.contains '*' = false := htext ▸ castStr_contains ..
      have hwe : widthOr w' 4 = w' := if_neg (by omega)
      simp only [constVal, castMasked, hstar, hint, hint', hwidth, hwe]
      by_cases h0 : 0 ≤ m.toInt
      · rw [if_pos h0, if_pos ⟨h0, rfl, rfl, rfl, by omega, by omega,
          .inr (le_lowMask (by omega) h0 hB.2.2.2)⟩]
        rfl
      · rw [if_neg h0, if_neg fun h ↦ h0 h.1]
        rfl
    | _ => rfl
  | var | mem | const => cases B <;> rfl
  | _ => exact hA.elim

theorem IsOperand.isBoolValue (hA : IsOperand w A) (h : A.constVal = none) :
    A.isBoolValue = false := by
  cases A with
  | cast tyA text a =>
    obtain ⟨-, -, -, hplace, -⟩ := hA
    rw [Expr.isBoolValue]
    cases a <;> first | rfl | cases hplace
  | const => cases h
  | var | mem => rfl
  | _ => exact hA.elim

theorem foldBinary_band {w' : ℕ} (P : PtrInfo) (hw : w ∈ [1, 2, 4, 8]) (hA : IsOperand w' A)
    (hw' : w' = w ∨ A.isPlace = true) (hB : IsOperand w B) :
    foldBinary P ⟨w, false, false⟩ .band A B = bandResult w A B := by
  have hintA := hA.ty_eq.2
  have hintB := hB.ty_eq.2
  by_cases hboth : A.constVal.isSome ∧ B.constVal.isSome
  · obtain ⟨v, hv⟩ := Option.isSome_iff_exists.1 hboth.1
    obtain ⟨v', hv'⟩ := Option.isSome_iff_exists.1 hboth.2
    simp [foldBinary, bandResult, foldUnsignedZero, foldFloat, foldConsts, hv, hv', hintA, hintB]
  have hconsts : foldConsts ⟨w, false, false⟩ .band A B = none := by
    unfold foldConsts
    split
    · next hv hv' => simp [hv, hv'] at hboth
    · rfl
  have hright : foldBoolMaskRight ⟨w, false, false⟩ .band A B = none := by
    unfold foldBoolMaskRight
    split
    · next hv' => rw [hA.isBoolValue (by simpa [hv'] using hboth)]; rfl
    · rfl
  have hleft : foldBoolMaskLeft ⟨w, false, false⟩ .band A B = none := by
    unfold foldBoolMaskLeft
    split
    · next hv => rw [hB.isBoolValue (by simpa [hv] using hboth)]; rfl
    · rfl
  have hresult : bandResult w A B =
      if isConstVal 0 A || isConstVal 0 B then .done (mkConst 0 w)
      else
        match castMasked A B with
        | some a => .again (mkBinary .band a B w)
        | none => .done (maskResult w A B) := by
    unfold bandResult
    split
    · next hv hv' => simp [hv, hv'] at hboth
    · rfl
  rw [foldBinary, foldMask_eq hw hA hw' hB, hconsts, hright, hleft, hresult]
  simp only [foldReassoc, foldUnsignedZero, foldFloat, foldDouble, foldSelfCompare, foldScaleLeft,
    foldScaleRight, foldScaleConst, foldHalf, foldAddrMasked, foldRest, hintA, hintB]
  unfold maskResult foldNeutral foldIdempotent foldAllOnes
  cases isConstVal 0 A <;> cases isConstVal 0 B <;> cases castMasked A B <;>
    cases exprEqual A B <;> cases allOnes ⟨w, false, false⟩ B <;>
    cases allOnes ⟨w, false, false⟩ A <;> rfl

/-- The mask has all the bits of the word, and the cast is dropped before it. -/
def maskDropped (w : ℕ) (A B : Expr) : Bool :=
  (castMasked A B).isSome && allOnes ⟨w, false, false⟩ B

/-- A cast is not called equal to a constant. -/
theorem maskDropped_of_exprEqual (h : exprEqual A B = true) : maskDropped w A B = false := by
  have hcast : castMasked A B = none := by
    unfold castMasked
    split
    · simp [exprEqual] at h
    · rfl
  rw [maskDropped, hcast]
  rfl

theorem castMasked_fold (hA : IsOperand w A) (hB : IsOperand w B) :
    castMasked (fold P A) (fold P B) = (castMasked A B).map (fold P) := by
  cases A with
  | cast ty text a =>
    rw [fold_cast_place text hA.2.2.2.1 (by have := hA.1; have := hA.2.2.2.2.2.2; omega)]
    cases B with
    | const tyB m =>
      rw [fold_const, castMasked, castMasked]
      split <;> rfl
    | var => rw [fold_var]; rfl
    | mem => rw [fold_mem]; rfl
    | cast ty' text' b =>
      rw [fold_cast_place text' hB.2.2.2.1 (by have := hB.1; have := hB.2.2.2.2.2.2; omega)]
      rfl
    | _ => exact hB.elim
  | var => rw [fold_var]; rfl
  | mem => rw [fold_mem]; rfl
  | const => rw [fold_const]; rfl
  | _ => exact hA.elim

/-- The masked bits of a place, whatever its width. -/
theorem bandResult_place {ty : Ty} {m : BitVec 64} (hA : A.isPlace = true) (hm : m ≠ 0) :
    bandResult w A (const ty m) =
      .done (if allOnes ⟨w, false, false⟩ (const ty m) then A
        else mkBinary .band A (const ty m) w) := by
  have hzero : isConstVal 0 (const ty m) = false := by
    simpa [isConstVal, constVal] using hm
  cases A with
  | var | mem =>
    unfold bandResult
    simp only [hzero]
    split
    · next h _ => cases h
    · simp [constVal, isConstVal, castMasked, maskResult, exprEqual, allOnes]
  | _ => cases hA

theorem isOperand_place (h : A.isPlace = true) (hint : A.ty.isFloat = false) :
    IsOperand A.ty.width A := by
  cases A with
  | var | mem => exact ⟨rfl, hint⟩
  | _ => cases h

/-- A narrowing cast under a mask without sign. -/
theorem fold_band_cast {ty tyB : Ty} {text : String} {a : Expr} {m : BitVec 64}
    (hw : w ∈ [1, 2, 4, 8]) (hA : IsOperand w (cast ty text a)) (hB : IsOperand w (const tyB m))
    (h0 : 0 ≤ m.toInt) :
    fold P (mkBinary .band (cast ty text a) (const tyB m) w) =
      if m = 0 then mkConst 0 w
      else if allOnes ⟨w, false, false⟩ (const tyB m) then fold P (fold P a)
      else mkBinary .band (fold P (fold P a)) (const tyB m) w := by
  have hA' : IsOperand w (fold P (cast ty text a)) := (isOperand_fold P hA).1
  obtain ⟨hwidth, -, -, hplace, hint, -, hlt⟩ := hA
  obtain ⟨hplace1, hty1⟩ := fold_place (P := P) hplace
  obtain ⟨hplace2, hty2⟩ := fold_place (P := P) hplace1
  have hfold := fold_cast_place (P := P) text hplace (by omega : a.ty.width ≠ ty.width)
  have hband := foldBinary_band P hw hA' (.inl rfl) hB
  rw [hfold, bandResult] at hband
  split
  · next hm =>
    refine fold_binary_done hfold (fold_const ..) (hband.trans ?_)
    simp [constVal, isConstVal, hm]
  · next hm =>
    have hagain : foldBinary P ⟨w, false, false⟩ .band (cast ty text (fold P a)) (const tyB m) =
        .again (mkBinary .band (fold P a) (const tyB m) w) := by
      have hzero : isConstVal 0 (const tyB m) = false := by
        simpa [isConstVal, constVal] using hm
      rw [hband, hzero]
      simp [constVal, isConstVal, castMasked, h0]
    have hplaceOp : IsOperand _ (fold P (fold P a)) :=
      isOperand_place hplace2 (by rw [hty2, hty1, hint])
    rw [mkBinary, fold_binary_again hfold (fold_const ..) hagain, mkBinary,
      fold_binary_done rfl (fold_const ..)
        ((foldBinary_band P hw hplaceOp (.inr hplace2) hB).trans (bandResult_place hplace2 hm))]

end Expr

namespace World

variable {M E : Type} {W : World M E} {P : Expr.PtrInfo} {s : Store M} {w : ℕ} {r r' : Bool}
  {x y z : BitVec (8 * w)} {A B : Expr}

/-- A constant is extended by its own sign. -/
theorem holds_const (hw : w ∈ [1, 2, 4, 8]) {v : BitVec 64} (hv : v = reading 64 r z) (u : Bool) :
    W.Holds P s w (!v.msb) z (.const ⟨w, u, false⟩ v) := by
  obtain ⟨hpos, hle⟩ := le_of_width hw
  have hlt := z.two_mul_toInt_lt
  have hge := z.le_two_mul_toInt
  have hhalf : (2 : ℤ) ^ (8 * w) = 2 * 2 ^ (8 * w - 1) := by
    rw [← pow_succ', Nat.sub_add_cancel hpos]
  have hhalf0 : (0 : ℤ) < 2 ^ (8 * w - 1) := Int.pow_pos (by decide)
  refine ⟨⟨rfl, rfl, ?_, ?_⟩, fun k ↦ ?_, rfl, ?_⟩
  · rcases toInt_reading_cases hle r z with h | ⟨h, -⟩ <;> rw [hv, h] <;> omega
  · rcases toInt_reading_cases hle r z with h | ⟨h, hneg⟩ <;> rw [hv, h] <;> omega
  · exact congrArg _ (Function.iterate_fixed (Expr.fold_const P _ _) k)
  · exact hv ▸ setWidth_reading hle r z

theorem Holds.eq_zero (h : W.Holds P s w r x A) (hz : Expr.isConstVal 0 A = true) : x = 0 := by
  rw [Expr.isConstVal, beq_iff_eq] at hz
  obtain ⟨u, rfl⟩ := h.isOperand.eq_const hz
  exact h.word.symm.trans (BitVec.setWidth_zero ..)

/-- A mask of all bits. -/
theorem Holds.and_allOnes (hw : w ∈ [1, 2, 4, 8]) (hB : W.Holds P s w r y B)
    (h : Expr.allOnes ⟨w, false, false⟩ B = true) (x : BitVec (8 * w)) : x &&& y = x := by
  obtain ⟨hpos, hle⟩ := le_of_width hw
  have hy : y = BitVec.allOnes (8 * w) := by
    unfold Expr.allOnes at h
    cases hv : B.constVal with
    | none => simp [hv] at h
    | some v =>
      obtain ⟨u, rfl⟩ := hB.isOperand.eq_const hv
      have hwe : Expr.widthOr w 8 = w := if_neg (by omega)
      simp only [hv, hwe, Bool.or_eq_true, beq_iff_eq, Bool.and_eq_true, decide_eq_true_eq] at h
      rw [← hB.word]
      show v.setWidth (8 * w) = _
      simp only [List.mem_cons, List.not_mem_nil, or_false] at hw
      rcases h with rfl | ⟨hlt, rfl⟩
      · rcases hw with rfl | rfl | rfl | rfl <;> decide
      · rcases hw with rfl | rfl | rfl | rfl
        · decide
        · decide
        · decide
        · exact absurd hlt (by decide)
  rw [hy, BitVec.and_allOnes]

section Band

variable (hw : w ∈ [1, 2, 4, 8]) (hA : W.Holds P s w r x A) (hB : W.Holds P s w r' y B)
  (hsame : A.exprEqual B = true → x = y)

include hw hA hB hsame

/-- Masked bits under which no cast is dropped: an operand that holds the masked word, or the mask
of the two operands. -/
theorem Holds.maskResult_cases (h : Expr.castMasked A B = none) :
    ∃ D, Expr.bandResult w A B = .done D ∧
      ((∃ ρ, W.Holds P s w ρ (x &&& y) D ∧
          ((x &&& y).msb = true → ρ = Expr.maskReads w A B)) ∨
        (D = .mkBinary .band A B w ∧ Expr.maskReads w A B = (r || r'))) := by
  have hr := hA.reads
  have hr' := hB.reads
  unfold Expr.bandResult Expr.maskReads
  split
  · next v v' hv hv' =>
    obtain ⟨u, rfl⟩ := hA.isOperand.eq_const hv
    obtain ⟨u', rfl⟩ := hB.isOperand.eq_const hv'
    have hand : v &&& v' = reading 64 (r || r') (x &&& y) := by
      rw [← reading_and]
      exact congrArg₂ _ (hA.cValue_eq hw) (hB.cValue_eq hw)
    refine ⟨_, rfl, .inl ⟨_, holds_const hw hand false, fun _ ↦ ?_⟩⟩
    rw [BitVec.msb_and, Bool.not_and]
    split
    · next h =>
      obtain rfl : v = v' := by simpa [Expr.exprEqual] using h
      rw [Bool.or_self]
      rfl
    · rfl
  · next hnot =>
    have hboth : (A.constVal.isSome && B.constVal.isSome) = false := by
      cases hv : A.constVal with
      | none => rfl
      | some v =>
        cases hv' : B.constVal with
        | none => rfl
        | some v' => exact (hnot v v' hv hv').elim
    split
    · next hz =>
      have hzero : x &&& y = 0 := by
        rcases Bool.or_eq_true_iff.1 hz with h | h
        · rw [hA.eq_zero h]
          exact BitVec.zero_and
        · rw [hB.eq_zero h]
          exact BitVec.and_zero
      refine ⟨_, rfl, .inl ⟨true, ?_, fun h ↦ ?_⟩⟩
      · rw [hzero]
        exact holds_zero W P s false
      · rw [hzero] at h
        simp at h
    · rw [h, hboth]
      refine ⟨_, rfl, ?_⟩
      unfold Expr.maskResult
      split
      · next heq =>
        rw [← hsame heq, BitVec.and_self]
        exact .inl ⟨r, hA, fun _ ↦ hr.symm⟩
      · rw [if_neg Bool.false_ne_true]
        split
        · next hones =>
          rw [hB.and_allOnes hw hones]
          exact .inl ⟨r, hA, fun _ ↦ hr.symm⟩
        · split
          · next hones =>
            rw [BitVec.and_comm, hA.and_allOnes hw hones]
            exact .inl ⟨r', hB, fun _ ↦ hr'.symm⟩
          · rw [hr, hr']
            exact .inr ⟨rfl, rfl⟩

end Band

/-! ### The masked word in a register -/

/-- The tree is the word `z`, extended to `f` bytes as the flag says: an operand, a mask of two
operands, or a mask without sign of a place that is wider than the word. -/
inductive Masked (W : World M E) (P : Expr.PtrInfo) (s : Store M) (w : ℕ) (z : BitVec (8 * w)) :
    ℕ → Bool → Expr → Prop
  | operand {r : Bool} {D : Expr} (h : W.Holds P s w r z D) : Masked W P s w z (max 4 w) r D
  | mask {r r' : Bool} {x y : BitVec (8 * w)} {A B : Expr} (hA : W.Holds P s w r x A)
      (hB : W.Holds P s w r' y B) (hcast : Expr.castMasked A B = none) (hz : x &&& y = z)
      (hsame : ∀ k, ((Expr.fold P)^[k] A).exprEqual ((Expr.fold P)^[k] B) = true → x = y) :
      Masked W P s w z (max 4 w) (r || r') (.mkBinary .band A B w)
  | wide {k : ℕ} {r u : Bool} {X : BitVec (8 * k)} {y : BitVec (8 * w)} {a : Expr} {m : BitVec 64}
      (hk : k ∈ [1, 2, 4, 8]) (hlt : w < k) (ha : W.Holds P s k r X a) (hplace : a.isPlace = true)
      (hm : W.Holds P s w true y (.const ⟨w, u, false⟩ m)) (hne : m ≠ 0)
      (hones : Expr.allOnes ⟨w, false, false⟩ (.const ⟨w, u, false⟩ m) = false)
      (hz : X.setWidth (8 * w) &&& y = z) :
      Masked W P s w z (max 4 k) true (.mkBinary .band a (.const ⟨w, u, false⟩ m) w)

variable {f : ℕ} {D : Expr}

theorem Masked.frame (hw : w ∈ [1, 2, 4, 8]) (h : W.Masked P s w z f r D) : f ∈ [4, 8] ∧ w ≤ f := by
  cases h with
  | operand | mask => exact ⟨max_four_mem hw, le_max_right ..⟩
  | wide hk hlt => exact ⟨max_four_mem hk, hlt.le.trans (le_max_right ..)⟩

theorem Masked.extraOver (h : W.Masked P s w z f r D) (b : Expr) : b.extraOver D = none := by
  cases h with
  | operand h => exact h.isOperand.extraOver b
  | mask | wide => rfl

/-- A word under a mask of a narrower word without sign. -/
theorem and_setWidth {n N : ℕ} (p : BitVec N) (y : BitVec n) :
    p &&& y.setWidth N = (p.setWidth n &&& y).setWidth N := by
  refine BitVec.eq_of_getLsbD_eq fun i hi ↦ ?_
  by_cases hin : i < n
  · simp [hi, hin]
  · simp [hi, hin, BitVec.getLsbD_of_ge y i (by omega)]

/-- What C sees of a masked word. -/
theorem Masked.plain (hw : w ∈ [1, 2, 4, 8]) (h : W.Masked P s w z f r D) :
    W.Plain s f D (reading (8 * f) r z) := by
  cases h with
  | operand h => exact h.plain hw
  | mask hA hB hcast hz =>
    rw [← hz, ← reading_and]
    exact (hA.plain hw).band (max_four_mem hw) (hB.plain hw).toShows rfl
  | @wide k r' u X y a m hk hlt ha hplace hm hne hones hz =>
    have hband := (ha.plain hk).band (max_four_mem hk)
      (hm.shows hw (max_four_mem hk) (by omega)) (t := ⟨w, false, false⟩) rfl
    have hlow : (reading (8 * max 4 k) r' X).setWidth (8 * w) = X.setWidth (8 * w) := by
      conv_rhs => rw [← setWidth_reading (show 8 * k ≤ 8 * max 4 k by omega) r' X]
      exact (BitVec.setWidth_setWidth_of_le _ (by omega)).symm
    have hvalue : reading (8 * max 4 k) r' X &&& reading (8 * max 4 k) true y =
        reading (8 * max 4 k) true z := by
      rw [← hz, ← hlow]
      exact and_setWidth _ y
    rwa [hvalue] at hband

/-- The place under a narrowing cast holds a word whose low bits are the word of the cast. -/
theorem Holds.underCast {ty : Ty} {text : String} {a : Expr} (hw : w ∈ [1, 2, 4, 8])
    (h : W.Holds P s w r x (.cast ty text a)) :
    a.isPlace = true ∧ a.ty.width ∈ [1, 2, 4, 8] ∧ w < a.ty.width ∧
      ∃ X, W.Holds P s a.ty.width a.readsUnsigned X a ∧ X.setWidth (8 * w) = x := by
  obtain ⟨hwidth, hint, -, hplace, hint', hin, hlt⟩ := h.isOperand
  have hcTy : a.cTy = a.ty := by
    cases a <;> first | rfl | cases hplace
  have hunder : a.underCast = a := by
    cases a <;> first | rfl | cases hplace
  refine ⟨hplace, List.mem_cons_of_mem _ hin, hlt, _,
    ⟨Expr.isOperand_place hplace hint', hunder.symm ▸ h.kept, rfl, rfl⟩, ?_⟩
  have hvalue :
      W.cValue s (.cast ty text a) = (Ty.mk w ty.isUnsigned false).ext (W.cValue s a) := by
    rw [cValue, castOp, hcTy, hint', if_neg Bool.false_ne_true, hint, if_neg Bool.false_ne_true,
      ← hwidth, ← hint]
  rw [BitVec.setWidth_setWidth_of_le _ (by omega), ← h.word, hvalue, ext_eq_reading hw,
    setWidth_reading (le_of_width hw).2]

/-- The masked bits of two operands, folded, if no mask of all bits is dropped. -/
theorem Holds.masked_band (hw : w ∈ [1, 2, 4, 8]) (hA : W.Holds P s w r x A)
    (hB : W.Holds P s w r' y B)
    (hsame : ∀ k, ((Expr.fold P)^[k] A).exprEqual ((Expr.fold P)^[k] B) = true → x = y)
    (hdrop : Expr.maskDropped w A B = false) :
    ∃ f ρ, W.Masked P s w (x &&& y) f ρ (Expr.fold P (.mkBinary .band A B w)) ∧
      ((x &&& y).msb = true →
        if (Expr.castMasked A B).isSome then w < f ∧ ρ = true
        else f = max 4 w ∧ ρ = Expr.maskReads w (Expr.fold P A) (Expr.fold P B)) := by
  have hA' := hA.fold
  have hB' := hB.fold
  have hsame' (k : ℕ) : ((Expr.fold P)^[k] (Expr.fold P A)).exprEqual
      ((Expr.fold P)^[k] (Expr.fold P B)) = true → x = y := by
    rw [← Function.iterate_succ_apply, ← Function.iterate_succ_apply]
    exact hsame (k + 1)
  have hband := Expr.foldBinary_band P hw hA'.isOperand (.inl rfl) hB'.isOperand
  have hcast := Expr.castMasked_fold (P := P) hA.isOperand hB.isOperand
  cases hc : Expr.castMasked A B with
  | none =>
    rw [hc] at hcast
    obtain ⟨D, hD, hform⟩ := hA'.maskResult_cases hw hB' (hsame' 0) hcast
    rw [Expr.mkBinary, Expr.fold_binary_done rfl rfl (hband.trans hD)]
    rcases hform with ⟨ρ, hρ, hreads⟩ | ⟨rfl, hreads⟩
    · exact ⟨_, _, .operand hρ, fun h ↦ ⟨rfl, hreads h⟩⟩
    · exact ⟨_, _, .mask hA' hB' hcast rfl hsame', fun _ ↦ ⟨rfl, hreads.symm⟩⟩
  | some a =>
    cases A with
    | cast ty text a' =>
      cases B with
      | const tyB m =>
        have h0 : 0 ≤ m.toInt := by
          rw [Expr.castMasked] at hc
          exact not_not.1 fun h0 ↦ by simp [h0] at hc
        have hones : Expr.allOnes ⟨w, false, false⟩ (.const tyB m) = false := by
          rw [Expr.maskDropped, hc] at hdrop
          exact hdrop
        obtain rfl : true = r' := by
          rw [← hB.reads, Expr.readsUnsigned, BitVec.msb_eq_toInt]
          simpa using h0
        rw [Expr.fold_band_cast hw hA.isOperand hB.isOperand h0, hones]
        split
        · next hm =>
          have hy : y = 0 := by
            rw [← hB.word]
            exact (congrArg (BitVec.setWidth (8 * w)) hm).trans (BitVec.setWidth_zero ..)
          refine ⟨_, true, .operand ?_, fun h ↦ ?_⟩
          · rw [hy, BitVec.ofNat_eq_ofNat, BitVec.and_zero]
            exact holds_zero W P s false
          · simp [hy] at h
        · next hm =>
          obtain ⟨hplace, hk, hlt, X, hX, hlow⟩ := hA.underCast hw
          obtain ⟨u, hu⟩ := hB.isOperand.eq_const rfl
          rw [hu] at hB hones ⊢
          obtain ⟨hplace1, hty1⟩ := Expr.fold_place (P := P) hplace
          obtain ⟨hplace2, hty2⟩ := Expr.fold_place (P := P) hplace1
          refine ⟨_, true, .wide hk hlt hX.fold.fold hplace2 hB hm hones (by rw [hlow]), fun _ ↦ ?_⟩
          exact ⟨by omega, rfl⟩
      | _ => cases hc
    | _ => cases hc

/-- A masked word that is folded again. -/
theorem Masked.fold (hw : w ∈ [1, 2, 4, 8]) (h : W.Masked P s w z f r D) :
    ∃ f' r', W.Masked P s w z f' r' (Expr.fold P D) := by
  cases h with
  | operand h => exact ⟨_, _, .operand h.fold⟩
  | mask hA hB hcast hz hsame =>
    subst hz
    obtain ⟨f', r', h, -⟩ := hA.masked_band hw hB hsame (by rw [Expr.maskDropped, hcast]; rfl)
    exact ⟨f', r', h⟩
  | wide hk hlt ha hplace hm hne hones hz =>
    obtain ⟨hplace', -⟩ := Expr.fold_place (P := P) hplace
    have hband := Expr.foldBinary_band P hw ha.fold.isOperand (.inr hplace') hm.isOperand
    rw [Expr.mkBinary, Expr.fold_binary_done rfl (Expr.fold_const ..)
      (hband.trans (Expr.bandResult_place hplace' hne)), hones]
    exact ⟨_, _, .wide hk hlt ha.fold hplace' hm hne hones hz⟩

/-- A mask of all bits that is dropped after the cast leaves the place. -/
theorem Holds.fold_dropped (hw : w ∈ [1, 2, 4, 8]) (hA : W.Holds P s w r x A)
    (hB : W.Holds P s w r' y B) (hdrop : Expr.maskDropped w A B = true) :
    A.underCast.ty.width ∈ [1, 2, 4, 8] ∧ w < A.underCast.ty.width ∧
      (∃ X, W.Holds P s A.underCast.ty.width A.underCast.readsUnsigned X A.underCast) ∧
      Expr.fold P (.mkBinary .band A B w) = Expr.fold P (Expr.fold P A.underCast) := by
  rw [Expr.maskDropped, Bool.and_eq_true] at hdrop
  obtain ⟨hc, hones⟩ := hdrop
  cases A with
  | cast ty text a =>
    cases B with
    | const tyB m =>
      have h0 : 0 ≤ m.toInt := by
        rw [Expr.castMasked] at hc
        exact not_not.1 fun h0 ↦ by simp [h0] at hc
      have hm : m ≠ 0 := by
        rintro rfl
        have hzero : Expr.allOnes ⟨w, false, false⟩ (Expr.mkConst 0) = true := hones
        simp only [List.mem_cons, List.not_mem_nil, or_false] at hw
        rcases hw with rfl | rfl | rfl | rfl <;> exact absurd hzero (by decide)
      obtain ⟨hplace, hk, hlt, X, hX, -⟩ := hA.underCast hw
      refine ⟨hk, hlt, ⟨X, hX⟩, ?_⟩
      rw [Expr.fold_band_cast hw hA.isOperand hB.isOperand h0, if_neg hm, if_pos hones]
      rfl
    | _ => cases hc
  | _ => cases hc

end World

end Ldu
