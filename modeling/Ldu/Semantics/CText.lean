import Ldu.Semantics.Conversions

/-!
# C expressions as text

A printed expression is a sequence of tokens; `CExpr` is how C reads it. When texts are put
together around an operator, what is read is not always the operator applied to the two readings:
an operator that binds less tightly than the new one, and that no parenthesis protects, stays
outside. `join` is the reading of the text `l op r`. It has the tokens of that text
(`tokens_join`), grouped by precedence and to the left (`grouped_join`).

The values are integers. `CReading` says what names, literals and calls mean.
-/

namespace Ldu

/-- How tightly an operator binds. -/
def BinOp.prec : BinOp → ℕ
  | .mul | .div | .mod => 13
  | .add | .sub => 12
  | .shl | .shr => 11
  | .lt | .le | .gt | .ge => 10
  | .eq | .ne => 9
  | .band => 8
  | .bxor => 7
  | .bor => 6
  | .land => 5
  | .lor => 4

/-- An expression of C. An atom is a name, a literal, an access or a call, anything that holds
together as tightly as a unary operator. -/
inductive CExpr
  | atom (text : String)
  | paren (e : CExpr)
  | cast (ty : Ty) (e : CExpr)
  | unary (op : UnOp) (e : CExpr)
  | binary (op : BinOp) (l r : CExpr)
  | cond (c x y : CExpr)
  deriving DecidableEq, Repr

namespace CExpr

/-! ### Reading a text -/

/-- An operator and an operand that binds more tightly, written after a text. -/
def append : CExpr → BinOp → CExpr → CExpr
  | binary o x y, op, r =>
    if o.prec < op.prec then binary o x (y.append op r) else binary op (binary o x y) r
  | cond c x y, op, r => cond c x (y.append op r)
  | l, op, r => binary op l r

/-- The two arms of a conditional, written after a text. -/
def arms : CExpr → CExpr → CExpr → CExpr
  | cond c x y, x', y' => cond c x (y.arms x' y')
  | c, x, y => cond c x y

/-- The text `l op r`. -/
def join (l : CExpr) (op : BinOp) : CExpr → CExpr
  | binary o x y =>
    if o.prec ≤ op.prec then (join l op x).append o y else l.append op (binary o x y)
  | cond c x y => (join l op c).arms x y
  | r => l.append op r

inductive Token
  | atom (text : String)
  | open_ | close
  | cast (ty : Ty)
  | unary (op : UnOp)
  | op (op : BinOp)
  | question | colon

def tokens : CExpr → List Token
  | atom s => [.atom s]
  | paren e => .open_ :: (e.tokens ++ [.close])
  | cast ty e => .cast ty :: e.tokens
  | unary op e => .unary op :: e.tokens
  | binary op l r => l.tokens ++ .op op :: r.tokens
  | cond c x y => c.tokens ++ .question :: (x.tokens ++ .colon :: y.tokens)

/-- How tightly the loosest operator outside of parentheses binds. -/
def level : CExpr → ℕ
  | binary op _ _ => op.prec
  | cond _ _ _ => 2
  | _ => 14

/-- Every operator has the operands that precedence and associativity to the left give it. -/
def Grouped : CExpr → Prop
  | atom _ => True
  | paren e => e.Grouped
  | cast _ e | unary _ e => 14 ≤ e.level ∧ e.Grouped
  | binary op l r => op.prec ≤ l.level ∧ op.prec < r.level ∧ l.Grouped ∧ r.Grouped
  | cond c x y => 2 < c.level ∧ c.Grouped ∧ x.Grouped ∧ y.Grouped

variable {l r x y : CExpr} {op : BinOp}

theorem tokens_append (l : CExpr) (op : BinOp) (r : CExpr) :
    (l.append op r).tokens = l.tokens ++ .op op :: r.tokens := by
  induction l with
  | binary o x y _ ihy =>
    rw [append]
    split
    · simp only [tokens, ihy, List.append_assoc, List.cons_append]
    · rfl
  | cond c x y _ _ ihy =>
    simp only [append, tokens, ihy, List.append_assoc, List.cons_append]
  | _ => rfl

theorem tokens_arms (c x y : CExpr) :
    (c.arms x y).tokens = c.tokens ++ .question :: (x.tokens ++ .colon :: y.tokens) := by
  induction c with
  | cond c x' y' _ _ ihy =>
    simp only [arms, tokens, ihy, List.append_assoc, List.cons_append]
  | _ => rfl

/-- What is read has the tokens of the text. -/
theorem tokens_join (l : CExpr) (op : BinOp) (r : CExpr) :
    (l.join op r).tokens = l.tokens ++ .op op :: r.tokens := by
  induction r with
  | binary o x y ihx _ =>
    rw [join]
    split
    · rw [tokens_append, ihx]
      simp only [tokens, List.append_assoc, List.cons_append]
    · rw [tokens_append]
  | cond c x y ihc _ _ =>
    rw [join, tokens_arms, ihc]
    simp only [tokens, List.append_assoc, List.cons_append]
  | _ => exact tokens_append _ _ _

theorem two_lt_prec (op : BinOp) : 2 < op.prec := by
  cases op <;> decide

theorem prec_lt_fourteen (op : BinOp) : op.prec < 14 := by
  cases op <;> decide

theorem level_append (l : CExpr) (op : BinOp) (r : CExpr) :
    (l.append op r).level = min l.level op.prec := by
  have hlo := two_lt_prec op
  have hhi := prec_lt_fourteen op
  cases l with
  | binary o x y =>
    rw [append]
    split <;> simp only [level] <;> omega
  | cond c x y => simp only [append, level]; omega
  | _ => simp only [append, level]; omega

theorem grouped_append (hl : l.Grouped) (hr : r.Grouped) (h : op.prec < r.level) :
    (l.append op r).Grouped := by
  induction l with
  | binary o x y _ ihy =>
    obtain ⟨hx, hy, hgx, hgy⟩ := hl
    rw [append]
    split
    · next ho => exact ⟨hx, by rw [level_append]; omega, hgx, ihy hgy⟩
    · next ho => exact ⟨by simp only [level]; omega, h, ⟨hx, hy, hgx, hgy⟩, hr⟩
  | cond c x y _ _ ihy => exact ⟨hl.1, hl.2.1, hl.2.2.1, ihy hl.2.2.2⟩
  | _ => exact ⟨(prec_lt_fourteen op).le, h, hl, hr⟩

theorem grouped_arms {c : CExpr} (hc : c.Grouped) (hx : x.Grouped) (hy : y.Grouped) :
    (c.arms x y).Grouped := by
  induction c with
  | cond c x' y' _ _ ihy => exact ⟨hc.1, hc.2.1, hc.2.2.1, ihy hc.2.2.2⟩
  | binary o _ _ => exact ⟨two_lt_prec o, hc, hx, hy⟩
  | _ => exact ⟨show 2 < 14 by decide, hc, hx, hy⟩

/-- What is read is grouped as C groups it. -/
theorem grouped_join (hl : l.Grouped) (hr : r.Grouped) : (l.join op r).Grouped := by
  induction r with
  | binary o x y ihx _ =>
    obtain ⟨hx, hy, hgx, hgy⟩ := hr
    rw [join]
    split
    · exact grouped_append (ihx hgx) hgy hy
    · next ho => exact grouped_append hl ⟨hx, hy, hgx, hgy⟩ (by simpa [level] using ho)
  | cond c x y ihc _ _ => exact grouped_arms (ihc hr.2.1) hr.2.2.1 hr.2.2.2
  | _ => exact grouped_append hl hr (prec_lt_fourteen op)

/-- Operands that hold together are the operands of the operator between them. -/
theorem join_of_level (hl : op.prec ≤ l.level) (hr : op.prec < r.level) :
    l.join op r = binary op l r := by
  have happ : ∀ r, l.append op r = binary op l r := by
    intro r
    cases l with
    | binary o x y => exact if_neg (by simpa [level] using hl)
    | cond c x y =>
      have := two_lt_prec op
      simp only [level] at hl
      omega
    | _ => rfl
  cases r with
  | binary o x y =>
    rw [join, if_neg (by simpa [level] using hr), happ]
  | cond c x y =>
    have := two_lt_prec op
    simp only [level] at hr
    omega
  | _ => exact happ _

end CExpr

/-! ### Values -/

/-- What the atoms of a text mean: their declared types, the place one names, what stands there,
and how it is overwritten. A literal or the result of a call is a place that is not written. -/
structure CReading (E S : Type) where
  ty : String → Ty
  Place : Type
  place : String → Effect E S Place
  fetch : String → Place → S → Val
  assign : String → Place → Val → Effect E S Unit

namespace CReading

variable {E S : Type} (C : CReading E S)

def isShift (op : BinOp) : Bool :=
  op == .shl || op == .shr

/-- The type an operator computes at: of the left operand for a shift, of both otherwise. -/
def opTy (op : BinOp) (tl tr : Ty) : Ty :=
  if isShift op then tl.promoted else tl.usual tr

/-- An operator on integers of the given types. -/
def arith (op : BinOp) (tl tr : Ty) (v w : Val) : Val :=
  let t := opTy op tl tr
  intBinop t op (t.ext v) (if isShift op then w else t.ext w)

/-- The type of an expression. -/
def typeOf : CExpr → Ty
  | .atom s => C.ty s
  | .paren e => typeOf e
  | .cast t _ => t
  | .unary op e => if op = .lnot then ⟨4, false, false⟩ else (typeOf e).promoted
  | .binary op l r =>
    if op ∈ [.eq, .ne, .lt, .le, .gt, .ge, .land, .lor] then ⟨4, false, false⟩
    else opTy op (typeOf l) (typeOf r)
  | .cond _ x y => (typeOf x).usual (typeOf y)

/-- The value of a place, in its type. -/
def read (s : String) (p : C.Place) : Effect E S Val :=
  Effect.get fun st ↦ (C.ty s).ext (C.fetch s p st)

/-- The value of an expression, from left to right. -/
def eval : CExpr → Effect E S Val
  | .atom s => do
    let p ← C.place s
    C.read s p
  | .paren e => eval e
  | .cast t e => do
    let v ← eval e
    pure (t.ext v)
  | .unary op e => do
    let v ← eval e
    pure (intUnop (C.typeOf e).promoted op v)
  | .binary op l r => do
    let v ← eval l
    match shortCircuit op v with
    | some x => pure x
    | none => do
      let w ← eval r
      pure (arith op (C.typeOf l) (C.typeOf r) v w)
  | .cond c x y => do
    let v ← eval c
    let w ← if v ≠ 0 then eval x else eval y
    pure (((C.typeOf x).usual (C.typeOf y)).ext w)

/-- A strict operator evaluates both operands. -/
theorem eval_binary {op : BinOp} (h : ∀ v, shortCircuit op v = none) (l r : CExpr) :
    C.eval (.binary op l r) = C.eval l >>= fun v ↦ C.eval r >>= fun w ↦
      pure (arith op (C.typeOf l) (C.typeOf r) v w) := by
  rw [eval]
  simp only [h]

/-- `l = e` -/
def assignment (l : String) (e : CExpr) : Effect E S Unit := do
  let p ← C.place l
  let v ← C.eval e
  C.assign l p ((C.ty l).ext v)

/-- `l op= e`, which evaluates the place once. -/
def compound (l : String) (op : BinOp) (e : CExpr) : Effect E S Unit := do
  let p ← C.place l
  let v ← C.read l p
  let w ← C.eval e
  C.assign l p ((C.ty l).ext (arith op (C.ty l) (C.typeOf e) v w))

/-- What is assigned is read back. -/
def ReadsBack : Prop :=
  ∀ l p v s, (C.ty l).ext (C.fetch l p (C.assign l p ((C.ty l).ext v) s).2.2) = (C.ty l).ext v

end CReading

end Ldu
