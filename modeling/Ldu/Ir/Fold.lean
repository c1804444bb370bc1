import Ldu.Ir.Expr
import Mathlib.Algebra.Order.BigOperators.Group.List
import Mathlib.Algebra.Order.Group.Nat

/-!
# Constant folding

`fold` simplifies a tree bottom up: the operands of a node are folded first, then one rule is
applied to the node. A rule either finishes the node or builds a tree that is folded again
(`Folded`). The rules are grouped as in the source and tried in its order; `foldBinary` is the
first group that answers.

Whether an operand is a pointer is decided from declarations that are not part of the
expression (`PtrInfo`).

Folding again terminates because every rebuilt tree is lighter: `weight` counts nodes, with a
surcharge on the operators a rule replaces by another one of the same size. `foldFuel` runs
with the weight as its bound, and more is never needed (`foldFuel_of_le`).
-/

namespace Ldu

namespace Expr

/-- The declarations `renders_as_pointer` consults: for a variable, whether it is an array, is
declared with a pointer type or has a pointee width above one; for a load, whether it is a
pointer field of a structure. -/
structure PtrInfo where
  var : String → Bool := fun _ ↦ false
  field : Expr → Bool := fun _ ↦ false

def rendersAsPointer (P : PtrInfo) : Expr → Bool
  | cast _ text _ => text.toList.contains '*'
  | addrOf _ _ => true
  | var _ n => P.var n
  | mem ty a => P.field (mem ty a)
  | binary _ op a b =>
    (op == .add || op == .sub) && (rendersAsPointer P a || rendersAsPointer P b)
  | ternary _ _ b c => rendersAsPointer P b && rendersAsPointer P c
  | _ => false

def BinOp.isBool : BinOp → Bool
  | .eq | .ne | .lt | .le | .gt | .ge | .land | .lor => true
  | _ => false

/-- The value is provably `0` or `1`. -/
def isBoolValue : Expr → Bool
  | binary _ op _ _ => BinOp.isBool op
  | unary _ op _ => op == .lnot
  | cast _ _ a => isBoolValue a
  | const _ v => v == 0 || v == 1
  | _ => false

/-- The value of a constant node. -/
def constVal : Expr → Option (BitVec 64)
  | const _ v => some v
  | _ => none

/-- The node is a constant with value `v`. -/
def isConstVal (v : BitVec 64) (e : Expr) : Bool :=
  e.constVal == some v

/-- The bits a value of byte width `w` keeps. -/
def lowMask (w : ℕ) : BitVec 64 :=
  if 8 ≤ w then BitVec.allOnes 64 else BitVec.ofNat 64 (2 ^ (8 * w) - 1)

/-- A node with its own width, or a default when it records none. -/
def widthOr (w d : ℕ) : ℕ :=
  if w = 0 then d else w

/-- What a rule makes of a node: the result, or a tree to fold again. -/
inductive Folded
  | done (e : Expr)
  | again (e : Expr)

/-! ### Casts and unary operators -/

/-- Reduce to `w` bytes and extend back, by zeros or by the sign. -/
def castConst (w : ℕ) (u : Bool) (v : BitVec 64) : BitVec 64 :=
  match w with
  | 1 => if u then (v.setWidth 8).setWidth 64 else (v.setWidth 8).signExtend 64
  | 2 => if u then (v.setWidth 16).setWidth 64 else (v.setWidth 16).signExtend 64
  | 4 => if u then (v.setWidth 32).setWidth 64 else (v.setWidth 32).signExtend 64
  | _ => v

/-- `s` is `X & C` where `C` clears every bit of `m`. -/
def masksOff (m : BitVec 64) : Expr → Bool
  | binary _ .band _ (const _ c) => c &&& m == 0
  | _ => false

/-- A narrowing integer cast of a value whose kept bits are masked off, wholly or in one
operand of a merge. -/
def foldCastMask (ty : Ty) (text : String) (a : Expr) : Option Folded :=
  if !ty.isFloat && 1 ≤ ty.width && ty.width < 8 then
    if masksOff (lowMask ty.width) a then
      some (.done (mkConst 0 ty.width ty.isUnsigned))
    else
      match a with
      | binary _ .bor x y =>
        if masksOff (lowMask ty.width) x then some (.again (cast ty text y))
        else if masksOff (lowMask ty.width) y then some (.again (cast ty text x))
        else none
      | _ => none
  else none

/-- A cast of a cast: the same cast twice, or one the outer cast subsumes. -/
def foldCastCast (ty : Ty) (text : String) : Expr → Option Folded
  | cast ty' text' x =>
    if text' = text then some (.done (cast ty' text' x))
    else if ty'.width = ty.width ∧ ty.isFloat = ty'.isFloat then some (.again (cast ty text x))
    else if ty.width < ty'.width ∧ ty.isFloat = ty'.isFloat then some (.again (cast ty text x))
    else none
  | _ => none

/-- A cast that does not change a masked value or a plain read of its own type. -/
def foldCastNoop (ty : Ty) (a : Expr) : Option Folded :=
  match a with
  | binary _ .band _ (const _ mask) =>
    if mask &&& ~~~lowMask ty.width = 0 then some (.done a) else none
  | var ty' _ | mem ty' _ => if ty' = ty then some (.done a) else none
  | _ => none

def foldCast (ty : Ty) (text : String) (a : Expr) : Folded :=
  match a.constVal with
  | some v => .done (mkConst (castConst ty.width ty.isUnsigned v) ty.width ty.isUnsigned)
  | none =>
    (foldCastMask ty text a <|> foldCastCast ty text a <|> foldCastNoop ty a).getD
      (.done (cast ty text a))

def foldUnary (ty : Ty) (op : UnOp) (a : Expr) : Expr :=
  match op, a.constVal with
  | .neg, some v => mkConst (-v) ty.width
  | .bnot, some v => mkConst (~~~v) ty.width
  | _, _ => unary ty op a

/-! ### Binary operators -/

/-- An unsigned comparison against zero. -/
def foldUnsignedZero (ty : Ty) (op : BinOp) (a b : Expr) : Option Folded :=
  if !ty.isFloat && ty.isUnsigned && isConstVal 0 b && !a.ty.isFloat then
    match op with
    | .ge => some (.done (mkConst 1 ty.width))
    | .lt => some (.done (mkConst 0 ty.width))
    | .gt => some (.again (mkBinary .ne a (mkConst 0 ty.width) ty.width))
    | .le => some (.again (mkBinary .eq a (mkConst 0 ty.width) ty.width))
    | _ => none
  else none

/-- A float operation: only doubling is rewritten, and the type flows up. -/
def foldFloat (ty : Ty) (op : BinOp) (a b : Expr) : Option Folded :=
  if ty.isFloat || a.ty.isFloat || b.ty.isFloat then
    if op = .add ∧ exprEqual a b then
      let fw := widthOr ty.width (widthOr a.ty.width 4)
      let two :=
        if fw < 8 then const ⟨4, false, true⟩ 0x40000000#64
        else const ⟨8, false, true⟩ 0x4000000000000000#64
      some (.done (binary ⟨fw, false, true⟩ .mul two a))
    else some (.done (binary { ty with isFloat := true } op a b))
  else none

/-- Both operands constant. -/
def foldConsts (ty : Ty) (op : BinOp) (a b : Expr) : Option Folded :=
  match a.constVal, b.constVal with
  | some x, some y =>
    let wrap (r : BitVec 64) := some (Folded.done (mkConst r ty.width ty.isUnsigned))
    match op with
    | .add => wrap (x + y)
    | .sub => wrap (x - y)
    | .mul => wrap (x * y)
    | .band => wrap (x &&& y)
    | .bor => wrap (x ||| y)
    | .bxor => wrap (x ^^^ y)
    | .shl => wrap (if y.toNat < 64 then x <<< y.toNat else 0)
    | .shr =>
      if ty.isUnsigned then wrap (x >>> (y &&& 63).toNat)
      else wrap (x.sshiftRight (y &&& 63).toNat)
    | .div =>
      if y = 0 then none else wrap (if ty.isUnsigned then x / y else x.sdiv y)
    | .mod =>
      if y = 0 then none else wrap (if ty.isUnsigned then x % y else x.srem y)
    | _ => none
  | _, _ => none

/-- `x + x`, on a call-free operand that is no pointer. -/
def foldDouble (P : PtrInfo) (ty : Ty) (op : BinOp) (a b : Expr) : Option Folded :=
  if op == .add && exprEqual a b && !hasCall a && !rendersAsPointer P a then
    let ew := widthOr ty.width (widthOr a.ty.width 4)
    some (.again (mkBinary .mul a (mkConst 2 ew ty.isUnsigned) ew ty.isUnsigned))
  else none

/-- What `sum` adds to or takes from `base`. -/
def extraOver (base : Expr) : Expr → Option Expr
  | binary _ .add x y =>
    if exprEqual base x then some y else if exprEqual base y then some x else none
  | binary _ .sub x y => if exprEqual base x then some y else none
  | _ => none

/-- `base == base ± x` and the like. -/
def foldSelfCompare (ty : Ty) (op : BinOp) (a b : Expr) : Option Folded :=
  if op = .eq ∨ op = .ne then
    let ew := widthOr ty.width 8
    match extraOver a b <|> extraOver b a with
    | some x => some (.again (mkBinary op x (mkConst 0 ew) ew ty.isUnsigned))
    | none => none
  else none

/-- `(y ± c₁) ± c₂`. -/
def foldReassoc (ty : Ty) (op : BinOp) (a b : Expr) : Option Folded :=
  match op, a, b.constVal with
  | .add, binary _ .add y (const _ c), some d => again y (c + d)
  | .add, binary _ .sub y (const _ c), some d => again y (-c + d)
  | .sub, binary _ .add y (const _ c), some d => again y (c + -d)
  | .sub, binary _ .sub y (const _ c), some d => again y (-c + -d)
  | _, _, _ => none
where
  again (y : Expr) (c : BitVec 64) : Option Folded :=
    let ew := widthOr ty.width 8
    some (.again (mkBinary .add y (mkConst c ew) ew ty.isUnsigned))

/-- `x * c` rebuilt as one multiplication. -/
def scaled (ty : Ty) (x : Expr) (c : BitVec 64) : Folded :=
  let ew := widthOr ty.width 8
  .again (mkBinary .mul x (mkConst c ew) ew ty.isUnsigned)

/-- `x * c + x`. -/
def foldScaleLeft (ty : Ty) (op : BinOp) (a b : Expr) : Option Folded :=
  match op, a with
  | .add, binary _ .mul x (const _ c) => if exprEqual x b then some (scaled ty b (c + 1)) else none
  | _, _ => none

/-- `x + x * c`. -/
def foldScaleRight (ty : Ty) (op : BinOp) (a b : Expr) : Option Folded :=
  match op, b with
  | .add, binary _ .mul x (const _ c) => if exprEqual x a then some (scaled ty a (c + 1)) else none
  | _, _ => none

/-- `x * c * d` and `x * c << d`. -/
def foldScaleConst (ty : Ty) (op : BinOp) (a b : Expr) : Option Folded :=
  match op, a, b.constVal with
  | .mul, binary _ .mul x (const _ c), some d => some (scaled ty x (c * d))
  | .shl, binary _ .mul x (const _ c), some d =>
    if d.toNat < 62 then some (scaled ty x (c <<< d.toNat)) else none
  | _, _, _ => none

/-- `(x - (x >> n)) >> 1` with signed shifts is a division by two. -/
def foldHalf (ty : Ty) (op : BinOp) (a b : Expr) : Option Folded :=
  match op, a with
  | .shr, binary _ .sub x (binary sty .shr y (const _ n)) =>
    if !ty.isUnsigned && isConstVal 1 b && !sty.isUnsigned && (n == 31 || n == 63)
        && exprEqual x y then
      let ew := widthOr ty.width 4
      some (.again (mkBinary .div x (mkConst 2 ew) ew))
    else none
  | _, _ => none

/-- Neutral and absorbing constants of sums, products and masks. -/
def foldNeutral (ty : Ty) (op : BinOp) (a b : Expr) : Option Folded :=
  let zero := some (Folded.done (mkConst 0 ty.width ty.isUnsigned))
  match op with
  | .add =>
    if isConstVal 0 b then some (.done a) else if isConstVal 0 a then some (.done b) else none
  | .sub => if isConstVal 0 b then some (.done a) else none
  | .mul =>
    if isConstVal 1 b then some (.done a) else if isConstVal 1 a then some (.done b)
    else if isConstVal 0 b then zero else if isConstVal 0 a then zero else none
  | .band => if isConstVal 0 b then zero else if isConstVal 0 a then zero else none
  | _ => none

/-- Masks over masks, over merges and over casts. -/
def foldMask (ty : Ty) (op : BinOp) (a b : Expr) : Option Folded :=
  match op, b.constVal with
  | .band, some m =>
    let ew := widthOr ty.width 4
    let keep (x : Expr) := some (Folded.again (mkBinary .band x b ew ty.isUnsigned))
    match a with
    | binary _ .band x (const _ c) =>
      some (.again (mkBinary .band x (mkConst (c &&& m) ew) ew ty.isUnsigned))
    | binary _ .bor x y =>
      if masksOff m y then keep x else if masksOff m x then keep y else none
    | cast cty text x =>
      if 0 ≤ m.toInt ∧ !text.toList.contains '*' ∧ !cty.isFloat ∧ !x.ty.isFloat ∧
          1 ≤ cty.width ∧ cty.width ≤ 8 ∧ (8 ≤ cty.width ∨ m ≤ lowMask cty.width) then keep x
      else none
    | _ => none
  | _, _ => none

/-- Neutral constants of the bit operations and operands that are equal. -/
def foldIdempotent (ty : Ty) (op : BinOp) (a b : Expr) : Option Folded :=
  match op with
  | .bor =>
    if isConstVal 0 b then some (.done a) else if isConstVal 0 a then some (.done b)
    else if exprEqual a b then some (.done a) else none
  | .bxor =>
    if isConstVal 0 b then some (.done a) else if isConstVal 0 a then some (.done b)
    else if exprEqual a b then some (.done (mkConst 0 ty.width ty.isUnsigned)) else none
  | .band => if exprEqual a b then some (.done a) else none
  | .land | .lor => if exprEqual a b && !hasCall a then some (.done a) else none
  | _ => none

/-- The value `x`, which is `0` or `1`, under the mask `m`. -/
def maskedBit (ty : Ty) (m : BitVec 64) (x : Expr) : Folded :=
  .done (if m &&& 1 = 1 then x else mkConst 0 ty.width ty.isUnsigned)

/-- A mask on the right of a value that is `0` or `1`. -/
def foldBoolMaskRight (ty : Ty) (op : BinOp) (a b : Expr) : Option Folded :=
  match op, b.constVal with
  | .band, some m => if isBoolValue a then some (maskedBit ty m a) else none
  | _, _ => none

/-- A mask on the left of a value that is `0` or `1`. -/
def foldBoolMaskLeft (ty : Ty) (op : BinOp) (a b : Expr) : Option Folded :=
  match op, a.constVal with
  | .band, some m => if isBoolValue b then some (maskedBit ty m b) else none
  | _, _ => none

/-- A constant with every bit of the operation's width set. -/
def allOnes (ty : Ty) (e : Expr) : Bool :=
  match e.constVal with
  | none => false
  | some v =>
    v == -1 || (let w := widthOr ty.width 8; w < 8 && v == lowMask w)

/-- Masking with all ones, and ones that absorb. -/
def foldAllOnes (ty : Ty) (op : BinOp) (a b : Expr) : Option Folded :=
  match op with
  | .bor =>
    if allOnes ty b || allOnes ty a then some (.done (mkConst (-1) ty.width ty.isUnsigned))
    else none
  | .band =>
    if allOnes ty b then some (.done a) else if allOnes ty a then some (.done b) else none
  | _ => none

/-- An address, or an address under a mask. -/
def addrMasked : Expr → Bool
  | addrOf _ _ => true
  | binary _ .band (addrOf _ _) _ => true
  | binary _ .band _ (addrOf _ _) => true
  | _ => false

/-- The scratch-register idiom: a constant merged into an address is the constant. -/
def foldAddrMasked (op : BinOp) (a b : Expr) : Option Folded :=
  match op with
  | .bor =>
    if b.constVal.isSome && addrMasked a then some (.done b)
    else if a.constVal.isSome && addrMasked b then some (.done a) else none
  | _ => none

/-- Shifts by zero and a difference of equals. -/
def foldRest (ty : Ty) (op : BinOp) (a b : Expr) : Option Folded :=
  match op with
  | .shl | .shr => if isConstVal 0 b then some (.done a) else none
  | .sub => if exprEqual a b then some (.done (mkConst 0 ty.width ty.isUnsigned)) else none
  | _ => none

/-- The rules for a binary node, in order. Repetitions further down in the source, of rules
that have had their turn, are left out. -/
def foldBinary (P : PtrInfo) (ty : Ty) (op : BinOp) (a b : Expr) : Folded :=
  (foldUnsignedZero ty op a b <|> foldFloat ty op a b <|> foldConsts ty op a b <|>
    foldDouble P ty op a b <|> foldSelfCompare ty op a b <|> foldReassoc ty op a b <|>
    foldScaleLeft ty op a b <|> foldScaleRight ty op a b <|> foldScaleConst ty op a b <|>
    foldHalf ty op a b <|> foldNeutral ty op a b <|> foldMask ty op a b <|>
    foldIdempotent ty op a b <|> foldBoolMaskRight ty op a b <|> foldBoolMaskLeft ty op a b <|>
    foldAllOnes ty op a b <|> foldAddrMasked op a b <|> foldRest ty op a b).getD
    (.done (binary ty op a b))

/-- The rule for a node whose operands have been folded. -/
def foldNode (P : PtrInfo) : Expr → Folded
  | cast ty text a => foldCast ty text a
  | unary ty op a => .done (foldUnary ty op a)
  | binary ty op a b => foldBinary P ty op a b
  | e => .done e

/-! ### The recursion -/

/-- The cost of an operator: one that a rule replaces by another one counts twice. -/
def opWeight : BinOp → ℕ
  | .add | .gt | .le => 2
  | _ => 1

def nodeWeight : Expr → ℕ
  | binary _ op _ _ => opWeight op
  | _ => 1

def weight (e : Expr) : ℕ :=
  sumNodes nodeWeight e

def foldFuel (P : PtrInfo) : ℕ → Expr → Expr
  | 0, e => e
  | n + 1, e =>
    match foldNode P (e.mapChildren (foldFuel P n)) with
    | .done e' => e'
    | .again e' => foldFuel P n e'

def fold (P : PtrInfo) (e : Expr) : Expr :=
  foldFuel P e.weight e

/-! ### Folding again terminates -/

/-- A rule adds no weight to a finished node and takes some from one folded again. -/
def Folded.Within (w : ℕ) : Folded → Prop
  | .done e => weight e ≤ w
  | .again e => weight e < w

theorem weight_eq (e : Expr) : weight e = nodeWeight e + (e.children.map weight).sum :=
  sumNodes_eq _ e

@[simp] theorem weight_const (ty : Ty) (v : BitVec 64) : weight (const ty v) = 1 := rfl

@[simp] theorem weight_mkConst (v : BitVec 64) (w : ℕ) (u : Bool) :
    weight (mkConst v w u) = 1 := rfl

@[simp] theorem weight_binary (ty : Ty) (op : BinOp) (a b : Expr) :
    weight (binary ty op a b) = opWeight op + (weight a + weight b) := by
  simp [weight_eq (binary ty op a b), children, nodeWeight]

@[simp] theorem weight_mkBinary (op : BinOp) (a b : Expr) (w : ℕ) (u : Bool) :
    weight (mkBinary op a b w u) = opWeight op + (weight a + weight b) :=
  weight_binary _ op a b

@[simp] theorem weight_cast (ty : Ty) (t : String) (a : Expr) :
    weight (cast ty t a) = 1 + weight a := by
  simp [weight_eq (cast ty t a), children, nodeWeight]

@[simp] theorem weight_unary (ty : Ty) (op : UnOp) (a : Expr) :
    weight (unary ty op a) = 1 + weight a := by
  simp [weight_eq (unary ty op a), children, nodeWeight]

theorem opWeight_pos (op : BinOp) : 1 ≤ opWeight op := by
  cases op <;> decide

theorem nodeWeight_pos (e : Expr) : 1 ≤ nodeWeight e := by
  cases e <;> simp [nodeWeight, opWeight_pos]

theorem weight_pos (e : Expr) : 1 ≤ weight e := by
  have := nodeWeight_pos e
  rw [weight_eq]
  omega

section Rules

variable {ty : Ty} {op : BinOp} {text : String} {a b : Expr} {r : Folded} {P : PtrInfo}

theorem foldCastMask_within (h : foldCastMask ty text a = some r) :
    r.Within (1 + weight a) := by
  have ha := weight_pos a
  simp only [foldCastMask] at h
  repeat' split at h
  all_goals simp only [Option.some.injEq, reduceCtorEq] at h
  all_goals
    subst h
    simp only [Folded.Within, weight_mkConst, weight_cast, weight_binary, opWeight] at ha ⊢
    omega

theorem foldCastCast_within (h : foldCastCast ty text a = some r) :
    r.Within (1 + weight a) := by
  simp only [foldCastCast] at h
  repeat' split at h
  all_goals simp only [Option.some.injEq, reduceCtorEq] at h
  all_goals
    subst h
    simp only [Folded.Within, weight_cast]
    omega

theorem foldCastNoop_within (h : foldCastNoop ty a = some r) : r.Within (1 + weight a) := by
  simp only [foldCastNoop] at h
  repeat' split at h
  all_goals simp only [Option.some.injEq, reduceCtorEq] at h
  all_goals
    subst h
    exact Nat.le_add_left _ _

theorem foldUnsignedZero_within (h : foldUnsignedZero ty op a b = some r) :
    r.Within (weight (binary ty op a b)) := by
  have ha := weight_pos a
  have hb := weight_pos b
  simp only [foldUnsignedZero] at h
  repeat' split at h
  all_goals simp only [Option.some.injEq, reduceCtorEq] at h
  all_goals
    subst h
    simp only [Folded.Within, weight_mkConst, weight_mkBinary, weight_binary, opWeight]
    omega

theorem foldFloat_within (h : foldFloat ty op a b = some r) :
    r.Within (weight (binary ty op a b)) := by
  have hb := weight_pos b
  simp only [foldFloat] at h
  split at h
  · split at h
    · next hop =>
      obtain ⟨rfl, -⟩ := hop
      have htwo : ∀ c : Prop, [Decidable c] → weight (if c then const ⟨4, false, true⟩ 0x40000000#64
          else const ⟨8, false, true⟩ 0x4000000000000000#64) = 1 := by
        intro c _
        split <;> rfl
      obtain rfl := Option.some.inj h
      simp only [Folded.Within, weight_binary, htwo, opWeight]
      omega
    · obtain rfl := Option.some.inj h
      simp [Folded.Within]
  · exact absurd h (by simp)

theorem foldConsts_within (h : foldConsts ty op a b = some r) :
    r.Within (weight (binary ty op a b)) := by
  have ha := weight_pos a
  simp only [foldConsts] at h
  repeat' split at h
  all_goals simp only [Option.some.injEq, reduceCtorEq] at h
  all_goals
    subst h
    simp only [Folded.Within, weight_mkConst, weight_binary]
    omega

theorem foldDouble_within (h : foldDouble P ty op a b = some r) :
    r.Within (weight (binary ty op a b)) := by
  have hb := weight_pos b
  simp only [foldDouble] at h
  split at h
  · next hop =>
    simp only [Bool.and_eq_true, beq_iff_eq] at hop
    obtain ⟨⟨⟨rfl, -⟩, -⟩, -⟩ := hop
    obtain rfl := Option.some.inj h
    simp only [Folded.Within, weight_mkConst, weight_mkBinary, weight_binary, opWeight]
    omega
  · exact absurd h (by simp)

theorem weight_extraOver {base e x : Expr} (h : extraOver base e = some x) :
    weight x + 2 ≤ weight e := by
  unfold extraOver at h
  split at h
  · next y z =>
    have hy := weight_pos y
    have hz := weight_pos z
    simp only [weight_binary, opWeight]
    repeat' split at h
    all_goals simp only [Option.some.injEq, reduceCtorEq] at h
    all_goals
      subst h
      omega
  · next y z =>
    have hy := weight_pos y
    simp only [weight_binary, opWeight]
    split at h
    · obtain rfl := Option.some.inj h
      omega
    · exact absurd h (by simp)
  · exact absurd h (by simp)

theorem foldSelfCompare_within (h : foldSelfCompare ty op a b = some r) :
    r.Within (weight (binary ty op a b)) := by
  have ha := weight_pos a
  have hb := weight_pos b
  simp only [foldSelfCompare] at h
  split at h
  · split at h
    · next x hx =>
      obtain rfl := Option.some.inj h
      have hw : weight x + 2 ≤ weight a + weight b := by
        rcases (Option.orElse_eq_some _ _ _).1 hx with hx | ⟨-, hx⟩
        · have := weight_extraOver hx
          omega
        · have := weight_extraOver hx
          omega
      simp only [Folded.Within, weight_mkConst, weight_mkBinary, weight_binary]
      omega
    · exact absurd h (by simp)
  · exact absurd h (by simp)

theorem foldReassoc_within (h : foldReassoc ty op a b = some r) :
    r.Within (weight (binary ty op a b)) := by
  have hb := weight_pos b
  simp only [foldReassoc, foldReassoc.again] at h
  repeat' split at h
  all_goals simp only [Option.some.injEq, reduceCtorEq] at h
  all_goals
    subst h
    simp only [Folded.Within, weight_mkConst, weight_const, weight_mkBinary, weight_binary,
      opWeight]
    omega

theorem foldScaleLeft_within (h : foldScaleLeft ty op a b = some r) :
    r.Within (weight (binary ty op a b)) := by
  simp only [foldScaleLeft, scaled] at h
  repeat' split at h
  all_goals simp only [Option.some.injEq, reduceCtorEq] at h
  all_goals
    subst h
    simp only [Folded.Within, weight_mkConst, weight_const, weight_mkBinary, weight_binary,
      opWeight]
    omega

theorem foldScaleRight_within (h : foldScaleRight ty op a b = some r) :
    r.Within (weight (binary ty op a b)) := by
  simp only [foldScaleRight, scaled] at h
  repeat' split at h
  all_goals simp only [Option.some.injEq, reduceCtorEq] at h
  all_goals
    subst h
    simp only [Folded.Within, weight_mkConst, weight_const, weight_mkBinary, weight_binary,
      opWeight]
    omega

theorem foldScaleConst_within (h : foldScaleConst ty op a b = some r) :
    r.Within (weight (binary ty op a b)) := by
  have hb := weight_pos b
  simp only [foldScaleConst, scaled] at h
  repeat' split at h
  all_goals simp only [Option.some.injEq, reduceCtorEq] at h
  all_goals
    subst h
    simp only [Folded.Within, weight_mkConst, weight_const, weight_mkBinary, weight_binary,
      opWeight]
    omega

theorem foldHalf_within (h : foldHalf ty op a b = some r) :
    r.Within (weight (binary ty op a b)) := by
  have hb := weight_pos b
  simp only [foldHalf] at h
  repeat' split at h
  all_goals simp only [Option.some.injEq, reduceCtorEq] at h
  all_goals
    subst h
    simp only [Folded.Within, weight_mkConst, weight_const, weight_mkBinary, weight_binary,
      opWeight]
    omega

theorem foldMask_within (h : foldMask ty op a b = some r) :
    r.Within (weight (binary ty op a b)) := by
  have hb := weight_pos b
  simp only [foldMask] at h
  repeat' split at h
  all_goals simp only [Option.some.injEq, reduceCtorEq] at h
  all_goals
    subst h
    simp only [Folded.Within, weight_mkConst, weight_const, weight_mkBinary, weight_binary,
      weight_cast, opWeight]
    omega

/-- The rules that answer with an operand or with a constant. -/
theorem within_of_operand (h : r = .done a ∨ r = .done b ∨ ∃ v w u, r = .done (mkConst v w u)) :
    r.Within (weight (binary ty op a b)) := by
  have ha := weight_pos a
  rcases h with rfl | rfl | ⟨v, w, u, rfl⟩
  all_goals
    simp only [Folded.Within, weight_mkConst, weight_binary]
    omega

theorem foldNeutral_within (h : foldNeutral ty op a b = some r) :
    r.Within (weight (binary ty op a b)) := by
  refine within_of_operand ?_
  simp only [foldNeutral] at h
  repeat' split at h
  all_goals simp only [Option.some.injEq, reduceCtorEq] at h
  all_goals
    first
      | exact .inl h.symm
      | exact .inr (.inl h.symm)
      | exact .inr (.inr ⟨_, _, _, h.symm⟩)

theorem foldIdempotent_within (h : foldIdempotent ty op a b = some r) :
    r.Within (weight (binary ty op a b)) := by
  refine within_of_operand ?_
  simp only [foldIdempotent] at h
  repeat' split at h
  all_goals simp only [Option.some.injEq, reduceCtorEq] at h
  all_goals
    first
      | exact .inl h.symm
      | exact .inr (.inl h.symm)
      | exact .inr (.inr ⟨_, _, _, h.symm⟩)

theorem maskedBit_eq (m : BitVec 64) (x : Expr) :
    maskedBit ty m x = .done x ∨ ∃ v w u, maskedBit ty m x = .done (mkConst v w u) := by
  unfold maskedBit
  split
  · exact .inl rfl
  · exact .inr ⟨_, _, _, rfl⟩

theorem foldBoolMaskRight_within (h : foldBoolMaskRight ty op a b = some r) :
    r.Within (weight (binary ty op a b)) := by
  refine within_of_operand ?_
  simp only [foldBoolMaskRight] at h
  repeat' split at h
  all_goals simp only [Option.some.injEq, reduceCtorEq] at h
  all_goals
    rw [← h]
    exact (maskedBit_eq _ a).imp_right .inr

theorem foldBoolMaskLeft_within (h : foldBoolMaskLeft ty op a b = some r) :
    r.Within (weight (binary ty op a b)) := by
  refine within_of_operand ?_
  simp only [foldBoolMaskLeft] at h
  repeat' split at h
  all_goals simp only [Option.some.injEq, reduceCtorEq] at h
  all_goals
    rw [← h]
    exact .inr (maskedBit_eq _ b)

theorem foldAllOnes_within (h : foldAllOnes ty op a b = some r) :
    r.Within (weight (binary ty op a b)) := by
  refine within_of_operand ?_
  simp only [foldAllOnes] at h
  repeat' split at h
  all_goals simp only [Option.some.injEq, reduceCtorEq] at h
  all_goals
    first
      | exact .inl h.symm
      | exact .inr (.inl h.symm)
      | exact .inr (.inr ⟨_, _, _, h.symm⟩)

theorem foldAddrMasked_within (h : foldAddrMasked op a b = some r) :
    r.Within (weight (binary ty op a b)) := by
  refine within_of_operand ?_
  simp only [foldAddrMasked] at h
  repeat' split at h
  all_goals simp only [Option.some.injEq, reduceCtorEq] at h
  all_goals
    first
      | exact .inl h.symm
      | exact .inr (.inl h.symm)

theorem foldRest_within (h : foldRest ty op a b = some r) :
    r.Within (weight (binary ty op a b)) := by
  refine within_of_operand ?_
  simp only [foldRest] at h
  repeat' split at h
  all_goals simp only [Option.some.injEq, reduceCtorEq] at h
  all_goals
    first
      | exact .inl h.symm
      | exact .inr (.inr ⟨_, _, _, h.symm⟩)

theorem within_orElse {w : ℕ} {o o' : Option Folded} (h : ∀ r, o = some r → r.Within w)
    (h' : ∀ r, o' = some r → r.Within w) (r : Folded) (hr : (o <|> o') = some r) :
    r.Within w := by
  cases o with
  | none => exact h' r hr
  | some x => exact h r hr

theorem within_getD {w : ℕ} {o : Option Folded} {d : Folded} (h : ∀ r, o = some r → r.Within w)
    (hd : d.Within w) : (o.getD d).Within w := by
  cases o with
  | none => exact hd
  | some x => exact h x rfl

theorem foldCast_within : (foldCast ty text a).Within (weight (cast ty text a)) := by
  rw [weight_cast]
  unfold foldCast
  split
  · simp [Folded.Within]
  · refine within_getD (within_orElse (fun _ ↦ foldCastMask_within) <|
      within_orElse (fun _ ↦ foldCastCast_within) fun _ ↦ foldCastNoop_within) ?_
    simp [Folded.Within]

theorem foldBinary_within : (foldBinary P ty op a b).Within (weight (binary ty op a b)) := by
  refine within_getD (within_orElse (fun _ ↦ foldUnsignedZero_within) <|
    within_orElse (fun _ ↦ foldFloat_within) <| within_orElse (fun _ ↦ foldConsts_within) <|
    within_orElse (fun _ ↦ foldDouble_within) <| within_orElse (fun _ ↦ foldSelfCompare_within) <|
    within_orElse (fun _ ↦ foldReassoc_within) <| within_orElse (fun _ ↦ foldScaleLeft_within) <|
    within_orElse (fun _ ↦ foldScaleRight_within) <|
    within_orElse (fun _ ↦ foldScaleConst_within) <| within_orElse (fun _ ↦ foldHalf_within) <|
    within_orElse (fun _ ↦ foldNeutral_within) <| within_orElse (fun _ ↦ foldMask_within) <|
    within_orElse (fun _ ↦ foldIdempotent_within) <|
    within_orElse (fun _ ↦ foldBoolMaskRight_within) <|
    within_orElse (fun _ ↦ foldBoolMaskLeft_within) <|
    within_orElse (fun _ ↦ foldAllOnes_within) <|
    within_orElse (fun _ ↦ foldAddrMasked_within) fun _ ↦ foldRest_within) ?_
  exact Nat.le_refl _

end Rules

theorem foldNode_within (P : PtrInfo) (e : Expr) : (foldNode P e).Within (weight e) := by
  unfold foldNode
  split
  · exact foldCast_within
  · next ty op a =>
    have ha := weight_pos a
    simp only [Folded.Within, foldUnary, weight_unary]
    split <;> simp only [weight_mkConst, weight_unary] <;> omega
  · exact foldBinary_within
  · exact Nat.le_refl _

theorem weight_mapChildren_le {f : Expr → Expr} {e : Expr}
    (h : ∀ c ∈ e.children, weight (f c) ≤ weight c) : weight (e.mapChildren f) ≤ weight e := by
  have hnode : nodeWeight (e.mapChildren f) = nodeWeight e := by cases e <;> rfl
  have hsum : ∀ cs : List Expr, (∀ c ∈ cs, weight (f c) ≤ weight c) →
      ((cs.map f).map weight).sum ≤ (cs.map weight).sum := by
    intro cs hcs
    rw [List.map_map]
    exact List.sum_le_sum hcs
  rw [weight_eq, weight_eq e, hnode, children_mapChildren]
  exact Nat.add_le_add_left (hsum _ h) _

theorem weight_lt_of_mem_children {c e : Expr} (h : c ∈ e.children) : weight c < weight e := by
  have hnode := nodeWeight_pos e
  have hle := List.single_le_sum (fun _ _ ↦ Nat.zero_le _) _ (List.mem_map_of_mem (f := weight) h)
  rw [weight_eq e]
  omega

theorem weight_foldFuel_le (P : PtrInfo) (n : ℕ) (e : Expr) :
    weight (foldFuel P n e) ≤ weight e := by
  induction n generalizing e with
  | zero => exact Nat.le_refl _
  | succ n ih =>
    have hmap := weight_mapChildren_le fun c (_ : c ∈ e.children) ↦ ih c
    have hnode := foldNode_within P (e.mapChildren (foldFuel P n))
    rw [foldFuel]
    split
    · next e' he =>
      rw [he] at hnode
      exact Nat.le_trans hnode hmap
    · next e' he =>
      rw [he] at hnode
      exact (ih e').trans ((Nat.le_of_lt hnode).trans hmap)

/-- More fuel than the weight of the tree changes nothing. -/
theorem foldFuel_of_le (P : PtrInfo) {n m : ℕ} {e : Expr} (hn : weight e ≤ n)
    (hm : weight e ≤ m) : foldFuel P n e = foldFuel P m e := by
  induction n generalizing m e with
  | zero =>
    have := weight_pos e
    omega
  | succ n ih =>
    obtain _ | m := m
    · have := weight_pos e
      omega
    have hchild : ∀ c ∈ e.children, foldFuel P n c = foldFuel P m c := by
      intro c hc
      have := weight_lt_of_mem_children hc
      exact ih (by omega) (by omega)
    have hmap : e.mapChildren (foldFuel P n) = e.mapChildren (foldFuel P m) :=
      mapChildren_congr hchild
    have hle := weight_mapChildren_le fun c (_ : c ∈ e.children) ↦ weight_foldFuel_le P m c
    have hnode := foldNode_within P (e.mapChildren (foldFuel P m))
    rw [foldFuel, foldFuel, hmap]
    split
    · rfl
    · next e' he =>
      rw [he] at hnode
      have hlt : weight e' < weight e := Nat.lt_of_lt_of_le hnode hle
      exact ih (by omega) (by omega)

/-- `fold` satisfies the recursion of the source. -/
theorem fold_eq (P : PtrInfo) (e : Expr) :
    fold P e =
      match foldNode P (e.mapChildren (fold P)) with
      | .done e' => e'
      | .again e' => fold P e' := by
  obtain ⟨n, hn⟩ : ∃ n, weight e = n + 1 := Nat.exists_eq_add_of_lt (weight_pos e) |>.imp (by
    intro n hn
    omega)
  have hmap : e.mapChildren (foldFuel P n) = e.mapChildren (fold P) := by
    refine mapChildren_congr fun c hc ↦ foldFuel_of_le P ?_ (Nat.le_refl _)
    have := weight_lt_of_mem_children hc
    omega
  have hle := weight_mapChildren_le fun c (_ : c ∈ e.children) ↦
    weight_foldFuel_le P (weight c) c
  have hnode := foldNode_within P (e.mapChildren (fold P))
  rw [fold, hn, foldFuel, hmap]
  split
  · rfl
  · next e' he =>
    rw [he] at hnode
    have hlt : weight e' < weight e := Nat.lt_of_lt_of_le hnode hle
    exact foldFuel_of_le P (by omega) (Nat.le_refl _)

/-! ### Negation -/

/-- The comparison that holds exactly when `op` does not; for floats only equality has one. -/
def negatedCompare (fcmp : Bool) : BinOp → Option BinOp
  | .eq => some .ne
  | .ne => some .eq
  | .lt => if fcmp then none else some .ge
  | .ge => if fcmp then none else some .lt
  | .gt => if fcmp then none else some .le
  | .le => if fcmp then none else some .gt
  | _ => none

/-- The negated condition; `demorgan` is the switch that pushes a negation through `&&` and
`||`. -/
def negateExpr (demorgan : Bool) : Expr → Expr
  | unary ty op a =>
    if op = .lnot then a else mkUnary .lnot (unary ty op a) ty.width
  | binary ty op a b =>
    if demorgan && op == .land then
      mkBinary .lor (negateExpr demorgan a) (negateExpr demorgan b) ty.width
    else if demorgan && op == .lor then
      mkBinary .land (negateExpr demorgan a) (negateExpr demorgan b) ty.width
    else
      match negatedCompare (ty.isFloat || a.ty.isFloat || b.ty.isFloat) op with
      | some n => binary ty n a b
      | none => mkUnary .lnot (binary ty op a b) ty.width
  | e => mkUnary .lnot e e.ty.width

/-- How a condition and its negation are related, by the cases of the negation. -/
theorem negateExpr_rel {R : Expr → Expr → Prop} (demorgan : Bool)
    (hdouble : ∀ ty a, R (unary ty .lnot a) a)
    (hlnot : ∀ e w, R e (mkUnary .lnot e w))
    (hland : ∀ ty a b a' b' w, R a a' → R b b' → R (binary ty .land a b) (mkBinary .lor a' b' w))
    (hlor : ∀ ty a b a' b' w, R a a' → R b b' → R (binary ty .lor a b) (mkBinary .land a' b' w))
    (hcompare : ∀ ty op n a b,
      negatedCompare (ty.isFloat || a.ty.isFloat || b.ty.isFloat) op = some n →
        R (binary ty op a b) (binary ty n a b))
    (e : Expr) : R e (negateExpr demorgan e) := by
  fun_induction negateExpr demorgan e with
  | case1 ty a => exact hdouble ty a
  | case2 ty op a hop => exact hlnot _ _
  | case3 ty op a b hop iha ihb =>
    obtain rfl : op = .land := by simpa using (Bool.and_eq_true_iff.1 hop).2
    exact hland _ _ _ _ _ _ iha ihb
  | case4 ty op a b _ hop iha ihb =>
    obtain rfl : op = .lor := by simpa using (Bool.and_eq_true_iff.1 hop).2
    exact hlor _ _ _ _ _ _ iha ihb
  | case5 ty op a b _ _ n hn => exact hcompare _ _ _ _ _ hn
  | case6 => exact hlnot _ _
  | case7 => exact hlnot _ _

end Expr

end Ldu
