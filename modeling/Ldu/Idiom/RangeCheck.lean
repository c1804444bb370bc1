import Ldu.Arith.Words
import Ldu.Cfg.ConstBranches
import Ldu.Ir.Fold
import Ldu.Semantics.Reads

/-!
# Range checks

A comparison without sign of a distance with a constant, `(x - lo) <= R`, is spelled as the two
bounds of an interval (`match_range_check`). The upper bound is computed in 64 bits, and must stay
below half of the range of the width, so that the bounds mean the same whichever way `x` is read.

`rangeCheck?` is the recognizer, with `none` where the node is left as it is. What it accepts is
in `rangeCheck?_eq_some`; `rangeCheck?_exact` says that the two bounds decide as the comparison
did, and that the upper bound was computed without overflow.
-/

namespace Ldu

open Expr

/-! ### The recognizer -/

/-- The nodes of a tree, down to a depth. -/
def idiomNodeCount : ℕ → Expr → ℕ
  | 0, _ => 0
  | cap + 1, e => 1 + (e.children.map (idiomNodeCount cap)).sum

/-- The comparison is true inside the interval. -/
def BinOp.isConj : BinOp → Bool
  | .le | .lt => true
  | _ => false

/-- The inclusive upper bound, in 64 bits. -/
def rangeHigh (op : BinOp) (lo R : BitVec 64) : BitVec 64 :=
  if op = .le ∨ op = .gt then lo + R else lo + R - 1

/-- The largest signed number of the width; eight bytes are held to four. -/
def rangeMax (w : ℕ) : ℤ :=
  if w = 1 then 0x7f else if w = 2 then 0x7fff else 0x7fffffff

/-- The width of the subtraction, or of `x` when it records none. -/
def rangeWidth (tyS : Ty) (x : Expr) : ℕ :=
  widthOr tyS.width (widthOr x.ty.width 4)

/-- The bounds of an interval, joined by the polarity. -/
def rangeTest (conj : Bool) (x : Expr) (lo hi : BitVec 64) (w : ℕ) (u : Bool) : Expr :=
  if conj then
    mkBinary .land (mkBinary .ge x (mkConst lo w u) w u) (mkBinary .le x (mkConst hi w u) w u) 4
  else
    mkBinary .lor (mkBinary .lt x (mkConst lo w u) w u) (mkBinary .gt x (mkConst hi w u) w u) 4

/-- What `match_range_check` makes of a node it recognizes. -/
def rangeCheck? : Expr → Option Expr
  | .binary ty op (.binary tyS .sub x (.const tyL lo)) (.const tyR R) =>
    let w := rangeWidth tyS x
    let hi := rangeHigh op lo R
    if ty.isFloat = false ∧ ty.isUnsigned = true ∧ op ∈ [.le, .lt, .gt, .ge] ∧
        tyR.isFloat = false ∧ 0 ≤ R.toInt ∧ tyL.isFloat = false ∧ 0 < lo.toInt ∧
        x.constVal = none ∧ x.hasCall = false ∧ lo.toInt < hi.toInt ∧ hi.toInt ≤ rangeMax w ∧
        idiomNodeCount 16 x ≤ 8 then
      some (rangeTest op.isConj x lo hi w ty.isUnsigned)
    else none
  | _ => none

def matchRangeCheck (e : Expr) : Expr :=
  (rangeCheck? e).getD e

/-- Only distances with a constant are recognized. -/
theorem exists_shape_of_rangeCheck? {e m : Expr} (h : rangeCheck? e = some m) :
    ∃ ty op tyS x tyL lo tyR R,
      e = .binary ty op (.binary tyS .sub x (.const tyL lo)) (.const tyR R) := by
  unfold rangeCheck? at h
  split at h
  · exact ⟨_, _, _, _, _, _, _, _, rfl⟩
  · cases h

section Accepted

variable {ty tyS tyL tyR : Ty} {op : BinOp} {x m : Expr} {lo R : BitVec 64}

/-- What a match says, as far as its meaning depends on it. -/
theorem rangeCheck?_eq_some
    (h : rangeCheck? (.binary ty op (.binary tyS .sub x (.const tyL lo)) (.const tyR R)) = some m) :
    m = rangeTest op.isConj x lo (rangeHigh op lo R) (rangeWidth tyS x) true ∧
      op ∈ [BinOp.le, .lt, .gt, .ge] ∧ 0 ≤ R.toInt ∧ 0 < lo.toInt ∧ x.hasCall = false ∧
      lo.toInt < (rangeHigh op lo R).toInt ∧
      (rangeHigh op lo R).toInt ≤ rangeMax (rangeWidth tyS x) := by
  unfold rangeCheck? at h
  obtain ⟨hc, hm⟩ := Option.ite_none_right_eq_some.1 h
  obtain ⟨-, hu, hop, -, hR, -, hlo, -, hcall, hlt, hle, -⟩ := hc
  rw [hu] at hm
  exact ⟨(Option.some.inj hm).symm, hop, hR, hlo, hcall, hlt, hle⟩

/-- The upper bound of a match is the sum of the numbers. -/
theorem rangeHigh_toInt
    (h : rangeCheck? (.binary ty op (.binary tyS .sub x (.const tyL lo)) (.const tyR R)) = some m) :
    (rangeHigh op lo R).toInt =
      lo.toInt + R.toInt - if op = .le ∨ op = .gt then 0 else 1 := by
  obtain ⟨-, -, hR, hlo, -, hlt, -⟩ := rangeCheck?_eq_some h
  have hloT := BitVec.toInt_lt (x := lo)
  have hRT := BitVec.toInt_lt (x := R)
  unfold rangeHigh at hlt ⊢
  split at hlt
  · rw [if_pos ‹_›, if_pos ‹_›]
    rw [BitVec.toInt_add, Int.bmod_def] at hlt ⊢
    omega
  · rw [if_neg ‹_›, if_neg ‹_›]
    have hone : (1 : BitVec 64).toInt = 1 := by decide
    rw [BitVec.toInt_sub, BitVec.toInt_add, hone, Int.bmod_def, Int.bmod_def] at hlt ⊢
    omega

end Accepted

/-! ### Meaning -/

/-- The truth of a comparison of words without sign. -/
def BinOp.decides {n : ℕ} (op : BinOp) (a b : BitVec n) : Bool :=
  match op with
  | .lt => a.ult b
  | .le => a.ule b
  | .gt => b.ult a
  | .ge => b.ule a
  | _ => false

/-- The bounds of a test, compared as signed or as unsigned numbers. -/
def Expr.readAs (q : Bool) : Expr → Expr
  | .binary ty .land a b => .binary ty .land (readAs q a) (readAs q b)
  | .binary ty .lor a b => .binary ty .lor (readAs q a) (readAs q b)
  | .binary ty op a b => .binary { ty with isUnsigned := q } op a b
  | e => e

/-- A number that fits is the value of an unsigned constant of the width. -/
theorem ext_of_toNat_lt {ty : Ty} {v : Val} (hu : ty.isUnsigned = true)
    (h : v.toNat < 2 ^ (8 * ty.width)) : ty.ext v = v := by
  simp only [Ty.ext, hu, if_true]
  split
  · rfl
  · refine BitVec.eq_of_toNat_eq ?_
    have hv := v.isLt
    rw [BitVec.toNat_setWidth, BitVec.toNat_setWidth, Nat.mod_eq_of_lt h, Nat.mod_eq_of_lt hv]

/-- The interval test on a word that is read in some way, in either order of the wide words. -/
theorem between_reading_iff {n : ℕ} (hpos : 0 < n) (hle : n ≤ 64) (r q : Bool) (w : ℕ)
    (u : BitVec n) {lo hi : Val} (hlo : 0 < lo.toNat) (hlohi : lo.toNat ≤ hi.toNat)
    (hhi : hi.toNat < 2 ^ (n - 1)) :
    ¬(Ty.mk w q false).less (reading 64 r u) lo ∧ ¬(Ty.mk w q false).less hi (reading 64 r u) ↔
      lo.toNat ≤ u.toNat ∧ u.toNat ≤ hi.toNat := by
  have hhalf : 2 ^ (n - 1) ≤ 2 ^ 63 := Nat.pow_le_pow_right (by omega) (by omega)
  have hloI : lo.toInt = lo.toNat := BitVec.toInt_eq_toNat_of_lt (by omega)
  have hhiI : hi.toInt = hi.toNat := BitVec.toInt_eq_toNat_of_lt (by omega)
  have hv : (reading 64 r u).toNat = u.toNat ∨
      2 ^ (n - 1) ≤ u.toNat ∧ 2 ^ (n - 1) ≤ (reading 64 r u).toNat := by
    rcases lt_or_ge u.toNat (2 ^ (n - 1)) with h | h
    · exact .inl (reading_toNat_of_lt hpos hle r h)
    · exact .inr ⟨h, le_reading_toNat hle r h⟩
  have hlt := (reading 64 r u).isLt
  unfold Ty.less
  cases q
  · simp only [Bool.false_eq_true, if_false]
    rw [hloI, hhiI, BitVec.toInt_eq_toNat_cond]
    split <;> omega
  · simp only [if_true]
    omega

theorem decides_iff {n : ℕ} {op : BinOp} (hop : op ∈ [BinOp.le, .lt, .gt, .ge]) (a b : BitVec n) :
    op.decides a b = true ↔ (op.isConj = true ↔
      if op = .le ∨ op = .gt then a.toNat ≤ b.toNat else a.toNat < b.toNat) := by
  simp only [List.mem_cons, List.not_mem_nil, or_false] at hop
  rcases hop with rfl | rfl | rfl | rfl <;>
    simp [BinOp.decides, BinOp.isConj, BitVec.ult, BitVec.ule]

/-- The distance test is the interval test. -/
theorem decides_sub_iff {n : ℕ} {op : BinOp} (hop : op ∈ [BinOp.le, .lt, .gt, .ge])
    (u : BitVec n) {l d : ℕ} (hd : 0 < d) (h : l + d < 2 ^ n) :
    op.decides (u - BitVec.ofNat n l) (BitVec.ofNat n d) = true ↔ (op.isConj = true ↔
      l ≤ u.toNat ∧ u.toNat ≤ l + d - if op = .le ∨ op = .gt then 0 else 1) := by
  have hdn : (BitVec.ofNat n d).toNat = d := by
    rw [BitVec.toNat_ofNat, Nat.mod_eq_of_lt (by omega)]
  have hle := toNat_sub_le_iff (d := d) u h
  have hlt := toNat_sub_le_iff (l := l) (d := d - 1) u (by omega)
  rw [decides_iff hop, hdn]
  generalize (u - BitVec.ofNat n l).toNat = t at hle hlt ⊢
  refine iff_congr Iff.rfl ?_
  split <;> omega

namespace World

variable {M E : Type} (W : World M E) {s : Store M} {x : Expr}

/-- One bound, on an operand that is silent. -/
theorem eval_bound (hx : (W.eval x).SilentAt s) (hfloat : x.ty.isFloat = false) {op : BinOp}
    (hop : op ∈ [BinOp.le, .lt, .gt, .ge]) (w : ℕ) (q : Bool) {c : Val}
    (hc : c.toNat < 2 ^ (8 * w)) :
    ∃ v, W.eval (.binary ⟨w, q, false⟩ op x (mkConst c w true)) s = ([], v, s) ∧
      (v ≠ 0 ↔ op.Compares (Ty.mk w q false).less (W.eval x s).2.1 c) := by
  have hconst : W.eval (mkConst c w true) s = ([], c, s) := by
    rw [mkConst, eval_const, ext_of_toNat_lt rfl hc]
  have hshort : shortCircuit op (W.eval x s).2.1 = none := by
    simp only [List.mem_cons, List.not_mem_nil, or_false] at hop
    rcases hop with rfl | rfl | rfl | rfl <;> rfl
  refine ⟨intBinop ⟨w, q, false⟩ op (W.eval x s).2.1 c, ?_, ?_⟩
  · rw [World.eval, Effect.bind_eq hx.eq, hshort]
    dsimp only
    rw [Effect.bind_eq hconst]
    have hconstTy : (mkConst c w true).ty.isFloat = false := rfl
    simp only [binop, hfloat, hconstTy, Effect.pure_apply, List.append_nil, Bool.or_self,
      Bool.false_eq_true, if_false]
  · simp only [List.mem_cons, List.not_mem_nil, or_false] at hop
    rcases hop with rfl | rfl | rfl | rfl <;> exact intBinop_ne_zero (x := 0) (y := 0) rfl _ _

/-- A conjunction or a disjunction of silent operands. -/
theorem eval_junction {a b : Expr} {v w : Val} (ha : W.eval a s = ([], v, s))
    (hb : W.eval b s = ([], w, s)) (conj : Bool)
    (hfloat : a.ty.isFloat = false ∧ b.ty.isFloat = false) :
    W.eval (mkBinary (if conj then .land else .lor) a b 4) s =
      ([], ofBool (if conj then v != 0 && w != 0 else v != 0 || w != 0), s) := by
  rw [mkBinary, World.eval, Effect.bind_eq ha]
  rcases hshort : shortCircuit (if conj then .land else .lor) v with - | r
  · dsimp only
    rw [Effect.bind_eq hb]
    cases conj <;> simp [binop, hfloat, intBinop]
  · dsimp only
    cases conj <;> simp_all [shortCircuit, ofBool]

/-- The bounds of an interval, read in some way. -/
theorem eval_rangeTest (hx : (W.eval x).SilentAt s) (hfloat : x.ty.isFloat = false) (conj : Bool)
    {w : ℕ} (q : Bool) {lo hi : Val} (hlo : lo.toNat < 2 ^ (8 * w))
    (hhi : hi.toNat < 2 ^ (8 * w)) :
    W.eval ((rangeTest conj x lo hi w true).readAs q) s =
      ([], ofBool (conj == decide (¬(Ty.mk w q false).less (W.eval x s).2.1 lo ∧
        ¬(Ty.mk w q false).less hi (W.eval x s).2.1)), s) := by
  cases conj with
  | true =>
    obtain ⟨v, hv, hv0⟩ := W.eval_bound hx hfloat (show BinOp.ge ∈ _ by simp) w q hlo
    obtain ⟨v', hv', hv0'⟩ := W.eval_bound hx hfloat (show BinOp.le ∈ _ by simp) w q hhi
    refine (W.eval_junction hv hv' true ⟨rfl, rfl⟩).trans ?_
    refine congrArg (fun b ↦ ([], ofBool b, s)) ?_
    rw [Bool.eq_iff_iff]
    simp only [BinOp.Compares] at hv0 hv0'
    simpa using and_congr hv0 hv0'
  | false =>
    obtain ⟨v, hv, hv0⟩ := W.eval_bound hx hfloat (show BinOp.lt ∈ _ by simp) w q hlo
    obtain ⟨v', hv', hv0'⟩ := W.eval_bound hx hfloat (show BinOp.gt ∈ _ by simp) w q hhi
    refine (W.eval_junction hv hv' false ⟨rfl, rfl⟩).trans ?_
    refine congrArg (fun b ↦ ([], ofBool b, s)) ?_
    rw [Bool.eq_iff_iff]
    simp only [BinOp.Compares] at hv0 hv0'
    simpa [← not_and_or] using or_congr hv0 hv0'

end World

/-- The range of a width is not left by half of it. -/
theorem rangeMax_lt {w : ℕ} (hw : w ∈ [1, 2, 4, 8]) : rangeMax w < 2 ^ (8 * w - 1) := by
  simp only [List.mem_cons, List.not_mem_nil, or_false] at hw
  rcases hw with rfl | rfl | rfl | rfl <;> decide

/-- `m` is exact for the comparison `e` of a distance with a constant: the upper bound is the sum of
the numbers, and the bounds decide as the comparison without sign of words of the operand's width
does, whichever way `x` and the bounds are read. -/
def RangeExact (e m : Expr) : Prop :=
  ∃ ty op tyS x tyL lo tyR R,
    e = .binary ty op (.binary tyS .sub x (.const tyL lo)) (.const tyR R) ∧
    (rangeHigh op lo R).toInt = lo.toInt + R.toInt - (if op = .le ∨ op = .gt then 0 else 1) ∧
    ∀ {M E : Type} (W : World M E) (s : Store M) (r q : Bool) (u : BitVec (8 * rangeWidth tyS x)),
      rangeWidth tyS x ∈ [1, 2, 4, 8] → x.ty.isFloat = false →
      (W.eval x s).2.1 = reading 64 r u →
      W.eval (m.readAs q) s =
        ([], ofBool (op.decides (u - lo.setWidth _) (R.setWidth _)), s)

/-- What the recognizer makes of a comparison is exact. -/
theorem rangeCheck?_exact {e m : Expr} (h : rangeCheck? e = some m) : RangeExact e m := by
  obtain ⟨ty, op, tyS, x, tyL, lo, tyR, R, rfl⟩ := exists_shape_of_rangeCheck? h
  have hhigh := rangeHigh_toInt h
  refine ⟨ty, op, tyS, x, tyL, lo, tyR, R, rfl, hhigh, ?_⟩
  obtain ⟨rfl, hop, hR, hlo, hcall, hlt, hle⟩ := rangeCheck?_eq_some h
  generalize rangeWidth tyS x = w at hle ⊢
  generalize rangeHigh op lo R = hi at hhigh hlt hle ⊢
  intro M E W s r q u hw hfloat hu
  have hmax := rangeMax_lt hw
  have hpos : 0 < 8 * w ∧ 8 * w ≤ 64 := by
    simp only [List.mem_cons, List.not_mem_nil, or_false] at hw
    omega
  have hhalf : 2 ^ (8 * w) = 2 * 2 ^ (8 * w - 1) := by
    rw [← Nat.pow_succ', Nat.succ_eq_add_one, Nat.sub_add_cancel hpos.1]
  -- all numbers are small, so the words are the numbers
  have hloN : lo.toInt = lo.toNat := BitVec.toInt_eq_toNat_of_lt (by
    have := lo.toInt_eq_toNat_cond
    split at this <;> omega)
  have hRN : R.toInt = R.toNat := BitVec.toInt_eq_toNat_of_lt (by
    have := R.toInt_eq_toNat_cond
    split at this <;> omega)
  have hhiN : hi.toInt = hi.toNat := BitVec.toInt_eq_toNat_of_lt (by
    have := hi.toInt_eq_toNat_cond
    split at this <;> omega)
  have hhiHalf : hi.toNat < 2 ^ (8 * w - 1) := by
    have : (hi.toNat : ℤ) < 2 ^ (8 * w - 1) := by omega
    exact_mod_cast this
  have hsum : hi.toNat = lo.toNat + R.toNat - if op = .le ∨ op = .gt then 0 else 1 := by
    split at hhigh <;> split <;> first | omega | contradiction
  have hbound : lo.toNat + R.toNat < 2 ^ (8 * w) ∧ 0 < R.toNat := by
    split at hsum <;> omega
  have hx : (W.eval x).SilentAt s := W.silent_eval (Expr.hasImpureCall_of_hasCall hcall) s
  rw [W.eval_rangeTest hx hfloat op.isConj (w := w) q (by omega) (by omega), hu]
  refine congrArg (fun b ↦ ([], ofBool b, s)) ?_
  have hbetween := between_reading_iff hpos.1 hpos.2 r q w u
    (show 0 < lo.toNat by omega) (show lo.toNat ≤ hi.toNat by omega) hhiHalf
  have hdecides := decides_sub_iff hop u hbound.2 hbound.1
  rw [BitVec.ofNat_toNat, BitVec.ofNat_toNat, ← hsum, ← hbetween] at hdecides
  rw [Bool.eq_iff_iff, hdecides, beq_iff_eq, Bool.eq_iff_iff, decide_eq_true_eq]

/-- `c - '0' <= 9`, of a byte. -/
def digitCheck : Expr :=
  .binary ⟨4, true, false⟩ .le (.binary ⟨1, true, false⟩ .sub (mkVar "c" 1) (mkConst 0x30 1))
    (mkConst 9 1)

theorem digitCheck_exact :
    rangeCheck? digitCheck = some (rangeTest true (mkVar "c" 1) 0x30 0x39 1 true) ∧
      RangeExact digitCheck (rangeTest true (mkVar "c" 1) 0x30 0x39 1 true) :=
  ⟨rfl, rangeCheck?_exact rfl⟩

end Ldu
