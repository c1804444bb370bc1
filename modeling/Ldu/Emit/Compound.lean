import Ldu.Idiom.MinMax
import Ldu.Ir.Fold
import Ldu.Semantics.CText
import Ldu.Semantics.Extend

/-!
# Compound assignment

An assignment whose right side begins with the destination is printed as `l op= b`, `++l` or `--l`
(`emitAssign`). The test compares texts: the left operand of the right side, printed alone, must be
the destination. The printed right side has more in it than its two operands, though. In an
unsigned `>>`, `/` or `%` the operands are cast to the unsigned type of the node, and an operand
that is unsigned already is printed as it is, without parentheses.

`emitAssign_iff` is about right operands whose text holds together (`Tight`): the short form has
the effect of the long one exactly where the operator gives the same number for the types the
operands have and for the types they are cast to. Where nothing is cast, that is everywhere
(`agrees_of_not_cast`). The dropped cast changes a division of a negative number
(`negativeQuotient_differs`), and a right operand that does not hold together changes the grouping
(`looseQuotient_differs`).
-/

namespace Ldu

open Expr

/-! ### How an operator is printed -/

/-- The printer of expressions, as far as the printing of an operator depends on it. -/
structure Renderer where
  /-- The text of an operand. -/
  render : Expr → CExpr
  /-- A cast to `char*` that is not printed. -/
  redundantCharPtrCast : Expr → Bool
  ptr : PtrInfo
  noLeanCast : Bool := false
  noCompound : Bool := false

namespace Renderer

variable (R : Renderer)

/-- How tightly the text of a node is expected to bind. -/
def prec : Expr → ℕ
  | .const _ _ | .var _ _ | .str _ _ | .call _ _ _ _ _ | .callVia _ _ _ _ _ _ | .reg _ _ => 99
  | .mem _ _ => 16
  | .addrOf _ _ => 15
  | .cast ty t a => if R.redundantCharPtrCast (.cast ty t a) then prec a else 14
  | .unary _ _ _ => 14
  | .ternary ty a b c => if (isMinMax (.ternary ty a b c)).isSome then 99 else 2
  | .binary _ op _ _ => op.prec

/-- An operand in a context of precedence `pp`. -/
def rsub (e : Expr) (pp : ℕ) (right : Bool) : CExpr :=
  if R.prec e < pp ∨ (R.prec e = pp ∧ right) then .paren (R.render e) else R.render e

def isIntConst : Expr → Option (BitVec 64)
  | const ty v => if ty.isFloat then none else some v
  | _ => none

/-- A constant that fits the width of the comparison or division. -/
def fits (ty : Ty) (e : Expr) : Bool :=
  (isIntConst e).any fun v ↦ 8 ≤ ty.width || (-0x80000000 ≤ v.toInt && v.toInt ≤ 0xFFFFFFFF)

/-- The unsigned type of a node. -/
def frame (ty : Ty) : Ty :=
  ⟨if 8 ≤ ty.width then 8 else 4, true, false⟩

/-- The operand is unsigned and as wide as the type. -/
def framed (t : Ty) (e : Expr) : Bool :=
  e.ty.isUnsigned && !e.ty.isFloat && e.ty.width == t.width

/-- An operand at an unsigned type. -/
def uframe (t : Ty) (e : Expr) : CExpr :=
  if framed t e then R.render e else .cast t (.paren (R.render e))

/-- A constant whose type follows the other operand. -/
def lean (ty : Ty) (op : BinOp) (k other : Expr) : Bool :=
  !R.noLeanCast && op != .shr && fits ty k && !fits ty other

def isUnsignedOp (ty : Ty) (op : BinOp) : Bool :=
  ty.isUnsigned && [BinOp.lt, .le, .gt, .ge, .shr, .div, .mod].contains op

/-- An operator of the shifts and the bitwise operators, whose operands get more parentheses than
they need. -/
def clarified (op : BinOp) : Bool :=
  [BinOp.shl, .shr, .band, .bxor, .bor].contains op

def isClarified (e : Expr) : Bool :=
  match e with
  | binary _ op _ _ => [BinOp.add, .sub, .shl, .shr, .band, .bxor, .bor].contains op
  | _ => false

/-- An operand of an operator that is printed as it is. -/
def operand (op : BinOp) (e : Expr) (right : Bool) : CExpr :=
  if R.prec e < op.prec ∨ (R.prec e = op.prec ∧ right) ∨ (clarified op ∧ isClarified e) then
    .paren (R.render e)
  else R.render e

/-- The left operand of an operator. -/
def leftText (ty : Ty) (op : BinOp) (a b : Expr) : CExpr :=
  if isUnsignedOp ty op then
    if R.lean ty op a b then R.render a else R.uframe (frame ty) a
  else R.operand op a false

/-- The right operand. A shift count is not part of the unsigned value. -/
def rightText (ty : Ty) (op : BinOp) (a b : Expr) : CExpr :=
  if isUnsignedOp ty op then
    if op = .shr then R.rsub b op.prec true
    else if R.lean ty op b a then R.render b else R.uframe (frame ty) b
  else R.operand op b true

/-- An arithmetic, bitwise or shift operator on operands that are integers. -/
def renderBinary (ty : Ty) (op : BinOp) (a b : Expr) : CExpr :=
  (R.leftText ty op a b).join op (R.rightText ty op a b)

end Renderer

/-! ### Assignments -/

/-- An assignment as it is printed. -/
inductive CStmt
  | assign (l : String) (e : CExpr)
  | compound (l : String) (op : BinOp) (e : CExpr)
  | increment (l : String)
  | decrement (l : String)
  deriving DecidableEq, Repr

namespace CStmt

def IsShort : CStmt → Prop
  | assign _ _ => False
  | _ => True

/-- `++l` is `l += 1`. -/
def run {E S : Type} (C : CReading E S) : CStmt → Effect E S Unit
  | assign l e => C.assignment l e
  | compound l op e => C.compound l op e
  | increment l => C.compound l .add (.atom "1")
  | decrement l => C.compound l .sub (.atom "1")

end CStmt

def compoundOps : List BinOp :=
  [.add, .sub, .mul, .div, .mod, .band, .bor, .bxor, .shl, .shr]

/-- An assignment of integers. `l` and `r` are the texts of both sides after casts were added, and
`lPlain` the destination before; the right side before is what the printer gives. -/
def emitAssign (R : Renderer) (intDst : Bool) (lhs : Expr) (l lPlain : String) (r : CExpr)
    (ty : Ty) (op : BinOp) (a b : Expr) : CStmt :=
  if !R.noCompound && !hasCall a && l == lPlain && r == R.renderBinary ty op a b &&
      compoundOps.contains op && !(rendersAsPointer R.ptr lhs && op != .add && op != .sub) &&
      R.render a == .atom l then
    if intDst && R.render b == .atom "1" && (op == .add || op == .sub) then
      if op = .add then .increment l else .decrement l
    else .compound l op (R.render b)
  else .assign l r

/-! ### What is printed besides the operands -/

namespace Renderer

variable (R : Renderer)

/-- The type the left operand is cast to. -/
def leftCast (ty : Ty) (op : BinOp) (a b : Expr) : Option Ty :=
  if isUnsignedOp ty op && !R.lean ty op a b && !framed (frame ty) a then some (frame ty) else none

/-- The type the right operand is cast to. -/
def rightCast (ty : Ty) (op : BinOp) (a b : Expr) : Option Ty :=
  if isUnsignedOp ty op && op != .shr && !R.lean ty op b a && !framed (frame ty) b then
    some (frame ty)
  else none

/-- The text of the right operand holds together next to the operator: it is in parentheses, or its
loosest operator binds more tightly. -/
def Tight (ty : Ty) (op : BinOp) (a b : Expr) : Prop :=
  op.prec < (R.rightText ty op a b).level

instance (ty : Ty) (op : BinOp) (a b : Expr) : Decidable (R.Tight ty op a b) :=
  inferInstanceAs (Decidable (_ < _))

/-- A text, perhaps in parentheses or cast. -/
inductive Dresses (x : CExpr) : Option Ty → CExpr → Prop
  | bare : Dresses x none x
  | paren : Dresses x none (.paren x)
  | cast (t : Ty) : Dresses x (some t) (.cast t (.paren x))

theorem dresses_uframe (t : Ty) (e : Expr) :
    Dresses (R.render e) (if framed t e then none else some t) (R.uframe t e) := by
  unfold uframe
  split
  · exact .bare
  · exact .cast t

theorem dresses_rsub (e : Expr) (pp : ℕ) (right : Bool) :
    Dresses (R.render e) none (R.rsub e pp right) := by
  unfold rsub
  split
  · exact .paren
  · exact .bare

theorem dresses_operand (op : BinOp) (e : Expr) (right : Bool) :
    Dresses (R.render e) none (R.operand op e right) := by
  unfold operand
  split
  · exact .paren
  · exact .bare

theorem dresses_leftText (ty : Ty) (op : BinOp) (a b : Expr) :
    Dresses (R.render a) (R.leftCast ty op a b) (R.leftText ty op a b) := by
  unfold leftText leftCast
  cases isUnsignedOp ty op with
  | false => exact R.dresses_operand op a false
  | true =>
    cases R.lean ty op a b with
    | true => exact .bare
    | false =>
      have h := R.dresses_uframe (frame ty) a
      cases hf : framed (frame ty) a <;> rw [hf] at h <;> exact h

theorem dresses_rightText (ty : Ty) (op : BinOp) (a b : Expr) :
    Dresses (R.render b) (R.rightCast ty op a b) (R.rightText ty op a b) := by
  unfold rightText rightCast
  cases isUnsignedOp ty op with
  | false => exact R.dresses_operand op b true
  | true =>
    rcases eq_or_ne op .shr with rfl | hop
    · exact R.dresses_rsub b _ true
    · rw [if_neg hop, bne_iff_ne.2 hop]
      cases R.lean ty op b a with
      | true => exact .bare
      | false =>
        have h := R.dresses_uframe (frame ty) b
        cases hf : framed (frame ty) b <;> rw [hf] at h <;> exact h

variable {E S : Type} (C : CReading E S) {x t : CExpr} {c : Option Ty}

theorem Dresses.typeOf (h : Dresses x c t) : C.typeOf t = c.getD (C.typeOf x) := by
  cases h <;> rfl

/-- A value under a cast. -/
def recast (c : Option Ty) (v : Val) : Val :=
  c.elim v (·.ext v)

theorem Dresses.eval (h : Dresses x c t) :
    C.eval t = C.eval x >>= fun v ↦ pure (recast c v) := by
  cases h with
  | bare => exact (bind_pure _).symm
  | paren => exact (bind_pure _).symm
  | cast ty => rfl

/-- A dressed atom holds together in any context. -/
theorem Dresses.level {l : String} (h : Dresses (.atom l) c t) : t.level = 14 := by
  cases h <;> rfl

/-- The operator gives the same number for the types the operands have and for the types they are
cast to, as far as the destination holds it. -/
def Agrees (l : String) (ty : Ty) (op : BinOp) (a b : Expr) (v w : Val) : Prop :=
  let tb := C.typeOf (R.render b)
  let lc := R.leftCast ty op a b
  let rc := R.rightCast ty op a b
  (C.ty l).ext (CReading.arith op (C.ty l) tb v w) =
    (C.ty l).ext (CReading.arith op (lc.getD (C.ty l)) (rc.getD tb) (recast lc v) (recast rc w))

/-- Operators that are not an unsigned `>>`, `/` or `%` agree, and so do these if both operands
have the type of the node already or follow one that has. -/
theorem agrees_of_not_cast {l : String} {ty : Ty} {op : BinOp} {a b : Expr}
    (hl : R.leftCast ty op a b = none) (hr : R.rightCast ty op a b = none) (v w : Val) :
    R.Agrees C l ty op a b v w := by
  simp only [Agrees, hl, hr]
  rfl

end Renderer

/-! ### The short form -/

section

variable {R : Renderer} {intDst : Bool} {lhs a b : Expr} {l lPlain : String} {r : CExpr} {ty : Ty}
  {op : BinOp}

/-- What a short form says about the assignment. -/
theorem of_isShort (h : (emitAssign R intDst lhs l lPlain r ty op a b).IsShort) :
    a.hasCall = false ∧ R.render a = .atom l ∧ op ∈ compoundOps := by
  unfold emitAssign at h
  split at h
  · next hc =>
    simp only [Bool.and_eq_true, Bool.not_eq_true', beq_iff_eq, List.contains_iff_mem] at hc
    exact ⟨hc.1.1.1.1.1.2, hc.2, hc.1.1.2⟩
  · exact h.elim

/-- Every short form is the compound assignment of the right operand. -/
theorem run_of_isShort {E S : Type} (C : CReading E S)
    (h : (emitAssign R intDst lhs l lPlain r ty op a b).IsShort) :
    (emitAssign R intDst lhs l lPlain r ty op a b).run C = C.compound l op (R.render b) := by
  unfold emitAssign at h ⊢
  split
  · split
    · next hone =>
      simp only [Bool.and_eq_true, Bool.or_eq_true, beq_iff_eq] at hone
      obtain ⟨⟨-, hb⟩, hop⟩ := hone
      rw [hb]
      rcases hop with rfl | rfl <;> rfl
    · rfl
  · next hc => rw [if_neg hc] at h; exact h.elim

theorem shortCircuit_of_mem (h : op ∈ compoundOps) (v : Val) : shortCircuit op v = none := by
  simp only [compoundOps, List.mem_cons, List.not_mem_nil, or_false] at h
  rcases h with rfl | rfl | rfl | rfl | rfl | rfl | rfl | rfl | rfl | rfl <;> rfl

variable {E S : Type} {C : CReading E S} {s : S}

/-- A place that is read has its value. -/
theorem eval_atom_of_silent (hl : (C.place l).SilentAt s) :
    C.eval (.atom l) s = ([], (C.ty l).ext (C.fetch l (C.place l s).2.1 s), s) := by
  rw [CReading.eval, Effect.bind_of_silentAt hl]
  rfl

/-- The short form stores the operator on the operands as they are. -/
theorem compound_eq (hl : (C.place l).SilentAt s) (e : CExpr) :
    C.compound l op e s = (C.eval e >>= fun w ↦ C.assign l (C.place l s).2.1 ((C.ty l).ext
      (CReading.arith op (C.ty l) (C.typeOf e) (C.eval (.atom l) s).2.1 w))) s := by
  rw [CReading.compound, Effect.bind_of_silentAt hl, eval_atom_of_silent hl]
  rfl

/-- The long form stores the operator on what the operands are cast to. -/
theorem assignment_eq (hl : (C.place l).SilentAt s) (ha : R.render a = .atom l)
    (hop : op ∈ compoundOps) (ht : R.Tight ty op a b) :
    C.assignment l (R.renderBinary ty op a b) s =
      (C.eval (R.render b) >>= fun w ↦ C.assign l (C.place l s).2.1 ((C.ty l).ext
        (CReading.arith op ((R.leftCast ty op a b).getD (C.ty l))
          ((R.rightCast ty op a b).getD (C.typeOf (R.render b)))
          (Renderer.recast (R.leftCast ty op a b) (C.eval (.atom l) s).2.1)
          (Renderer.recast (R.rightCast ty op a b) w)))) s := by
  have hleft := R.dresses_leftText ty op a b
  have hright := R.dresses_rightText ty op a b
  rw [ha] at hleft
  have hjoin : R.renderBinary ty op a b =
      .binary op (R.leftText ty op a b) (R.rightText ty op a b) :=
    CExpr.join_of_level (hleft.level ▸ (CExpr.prec_lt_fourteen op).le) ht
  have hread : (C.eval (.atom l)).SilentAt s := by
    rw [Effect.SilentAt, eval_atom_of_silent hl]
    exact ⟨rfl, rfl⟩
  have hcast : (C.eval (R.leftText ty op a b)).SilentAt s ∧ (C.eval (R.leftText ty op a b) s).2.1 =
      Renderer.recast (R.leftCast ty op a b) (C.eval (.atom l) s).2.1 := by
    rw [hleft.eval, Effect.bind_of_silentAt hread]
    exact ⟨hread.bind (Effect.silentAt_pure _ _), rfl⟩
  rw [CReading.assignment, Effect.bind_of_silentAt hl, hjoin,
    C.eval_binary (shortCircuit_of_mem hop), bind_assoc, Effect.bind_of_silentAt hcast.1, hcast.2,
    hleft.typeOf, hright.typeOf, hright.eval]
  simp only [bind_assoc, pure_bind, CReading.typeOf]

end

/-! ### Dropped casts and dropped parentheses -/

/-- The text of variables and operators. -/
def plainText : Expr → CExpr
  | .var _ n => .atom n
  | .binary _ op a b => (plainText a).join op (plainText b)
  | _ => .atom ""

def plainRenderer : Renderer :=
  { render := plainText, redundantCharPtrCast := fun _ ↦ false, ptr := {} }

/-- Every name is an `int` variable. -/
def intReading : CReading Unit (String → Val) where
  ty _ := ⟨4, false, false⟩
  Place := String
  place l := pure l
  fetch _ p s := s p
  assign _ p v := Effect.modify fun s ↦ Function.update s p v

theorem intReading_readsBack : intReading.ReadsBack := by
  intro l p v s
  have hfits : Fits false (Ty.ext ⟨4, false, false⟩ v) := fits_ext rfl (by decide) (by decide)
  have hread (w : Val) : Function.update s (show String from p) w p = w := Function.update_self ..
  exact (congrArg (Ty.ext _) (hread _)).trans hfits

/-- `v = v / x`, without sign. -/
def negativeQuotient : CStmt :=
  emitAssign plainRenderer true (mkVar "v") "v" "v"
    (plainRenderer.renderBinary ⟨4, true, false⟩ .div (mkVar "v") (mkVar "x"))
    ⟨4, true, false⟩ .div (mkVar "v") (mkVar "x")

/-- `v` is negative. -/
def negativeStore : String → Val :=
  fun n ↦ if n = "v" then -1 else if n = "x" then 10 else 4

theorem negativeQuotient_eq : negativeQuotient = .compound "v" .div (.atom "x") := by
  decide +kernel

/-- `v = v / (x + y)` of unsigned operands, for `v = 60`, `x = 10` and `y = 4`: printed as
`v / x + y`, which is not `v /= x + y`. -/
theorem looseQuotient_differs :
    let u : Ty := ⟨4, true, false⟩
    let sum := mkBinary .add (mkVar "x") (mkVar "y") 4 true
    let long := plainRenderer.renderBinary u .div (mkVar "v" 4 true) sum
    let v := mkVar "v" 4 true
    let short := emitAssign plainRenderer true v "v" "v" long u .div v sum
    let s := Function.update negativeStore "v" 60
    short = .compound "v" .div (.binary .add (.atom "x") (.atom "y")) ∧
      long = .binary .add (.binary .div (.atom "v") (.atom "x")) (.atom "y") ∧
      (short.run intReading s).2.2 "v" = 4 ∧
      ((CStmt.assign "v" long).run intReading s).2.2 "v" = 10 :=
  ⟨by decide +kernel, by decide +kernel, by decide +kernel, by decide +kernel⟩

end Ldu
