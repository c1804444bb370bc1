import Ldu.Arith.Flags
import Ldu.Ir.Fold

/-!
# Conditions from flags

A conditional instruction reads flags that an earlier one has set. What set them is recorded as the
expressions it compared (`FlagSrc`), and `ccToExpr` makes of a record and a condition code an
expression for C. The operands of a `cmp` are compared as they are, the masked bits of a `test`
with zero, and the operands of a subtraction again with each other, save for the codes that only
ask of the result whether it is zero or negative.

An operand narrower than an `int` is extended by C before it is compared. So that the codes
without sign and the equalities see the number the instruction saw, a narrowing cast is made one
without sign for them (`flipTruncUnsigned`). A constant is extended when it is recorded, and
nothing is done for the other codes.
-/

namespace Ldu

namespace Expr

/-- What set the flags: the operands of a `cmp`, of a `test` or of a comparison of floats, the bit
a bit test has read, or the result of an operation, which may have recorded its carry. An operand
that is not recorded is not looked at. -/
structure FlagSrc where
  valid : Bool := false
  isCmp : Bool := false
  isTest : Bool := false
  isArith : Bool := false
  isBt : Bool := false
  isFcmp : Bool := false
  a : Expr := mkConst 0
  b : Expr := mkConst 0
  width : ℕ := 4
  cf : Option Expr := none

/-! ### Narrowing casts -/

def castStr (w : ℕ) (u : Bool) : String :=
  match w, u with
  | 1, true => "(unsigned char)"
  | 1, false => "(signed char)"
  | 2, true => "(unsigned short)"
  | 2, false => "(short)"
  | 8, true => "(unsigned long long)"
  | 8, false => "(long long)"
  | _, true => "(unsigned int)"
  | _, false => "(int)"

/-- A signed narrowing cast is made unsigned. -/
def flipTruncUnsigned : Expr → Expr
  | cast ty text a =>
    if text = "(signed char)" ∨ text = "(char)" then mkCast "(unsigned char)" a ty.width true
    else if text = "(short)" then mkCast "(unsigned short)" a ty.width true
    else cast ty text a
  | e => e

namespace FlagSrc

/-! ### Comparisons of floats -/

/-- The ordered relation of a code, and whether it is negated: a code that also holds when the
operands are not ordered is the negation of one that does not. -/
def fcmpOp : CC → BinOp × Bool
  | .e => (.eq, false)
  | .ne => (.ne, false)
  | .a => (.gt, false)
  | .ae => (.ge, false)
  | .b => (.ge, true)
  | .be => (.gt, true)
  | _ => (.ne, false)

/-- The relation with its operands exchanged. -/
def mirrored : BinOp → BinOp
  | .gt => .lt
  | .lt => .gt
  | .ge => .le
  | .le => .ge
  | op => op

/-- A constant operand is a float constant. -/
def asFloatConst (w : ℕ) : Expr → Expr
  | const ty v => const { ty with isFloat := true, width := w } v
  | e => e

def fcmpCond (P : PtrInfo) (cc : CC) (fs : FlagSrc) : Expr :=
  let op := (fcmpOp cc).1
  let rel (op : BinOp) (l r : Expr) :=
    fold P (mkBinary op (asFloatConst fs.width l) (asFloatConst fs.width r) fs.width)
  let e :=
    if fs.a.constVal.isSome && fs.b.constVal.isNone then rel (mirrored op) fs.b fs.a
    else rel op fs.a fs.b
  if (fcmpOp cc).2 then mkUnary .lnot e 4 else e

/-! ### Comparisons of integers -/

/-- The operands of a subtraction that gave the flags. -/
def difference (fs : FlagSrc) : Option (Expr × Expr) :=
  if fs.isArith && !fs.isCmp && !fs.isTest then
    match fs.a with
    | binary _ .sub x y => some (x, y)
    | _ => none
  else none

def zero (fs : FlagSrc) : Expr :=
  mkConst 0 fs.width

/-- The operands that are compared. -/
def operands (fs : FlagSrc) : Expr × Expr :=
  if fs.isCmp then (fs.a, fs.b)
  else if fs.isTest then
    (if exprEqual fs.a fs.b then fs.a else mkBinary .band fs.a fs.b fs.width, fs.zero)
  else fs.difference.getD (fs.a, fs.zero)

/-- The expressions that are compared: for an equality the result of a subtraction, and zero; for
the sign the difference of what was compared, and zero. -/
def compared (P : PtrInfo) (fs : FlagSrc) : CC → Expr × Expr
  | .e | .ne => if fs.difference.isSome then (fs.a, fs.zero) else fs.operands
  | .s | .ns =>
    (if fs.isCmp then fold P (mkBinary .sub fs.a fs.b fs.width)
      else if fs.difference.isSome then fs.a else fs.operands.1, fs.zero)
  | _ => fs.operands

def relOp : CC → BinOp
  | .e => .eq
  | .ne => .ne
  | .l | .b => .lt
  | .le | .be => .le
  | .g | .a => .gt
  | .ge | .ae => .ge
  | .s => .lt
  | .ns => .ge
  | .p => .eq
  | .np => .ne
  | _ => .ne

/-- Narrowing casts are made unsigned. -/
def flips (cc : CC) (w : ℕ) : Bool :=
  (cc.isUnsigned || cc == .e || cc == .ne) && w < 4

/-- An operand as the code compares it. -/
def flipped (cc : CC) (w : ℕ) (e : Expr) : Expr :=
  if flips cc w then flipTruncUnsigned e else e

def intCond (P : PtrInfo) (cc : CC) (fs : FlagSrc) : Expr :=
  let c := fs.compared P cc
  fold P (mkBinary (relOp cc) (flipped cc fs.width c.1) (flipped cc fs.width c.2) fs.width
    cc.isUnsigned)

/-! ### The condition -/

/-- The recorded carry, for the codes that read nothing else. -/
def carry (fs : FlagSrc) (cc : CC) : Option Expr :=
  if cc = .b ∨ cc = .ae then fs.cf else none

def ccToExpr (P : PtrInfo) (cc : CC) (fs : FlagSrc) : Expr :=
  if !fs.valid then mkConst 1 4
  else
    match fs.carry cc with
    | some c =>
      let w := widthOr fs.width 4
      fold P (mkBinary (if cc = .b then .ne else .eq) c (mkConst 0 w) w)
    | none =>
      if fs.isBt then
        fold P (mkBinary (if cc = .b then .ne else .eq) fs.a fs.zero fs.width)
      else if fs.isFcmp then fs.fcmpCond P cc
      else fs.intCond P cc

end FlagSrc

end Expr

end Ldu
