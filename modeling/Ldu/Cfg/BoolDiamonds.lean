import Ldu.Cfg.ShortCircuit

/-!
# Boolean diamonds

`foldBooleanDiamonds` looks for a two-way block whose successors each do nothing but assign a
constant to one variable, `1` in one and `0` in the other, and go on to one join. It assigns the
condition or its negation in their place, and retires both (`diamondAt`, `apply`).

The predecessors are those from before the pass; only at its end are the edges made again. That does
no harm: a join has two predecessors, so that no new edge leads to a block that has one (`Sweep`).
-/

namespace Ldu

/-- The variable that the only statement of a straight block assigns, and whether it is assigned `1`
rather than `0`; `single_bool_assign`. -/
def Block.singleBoolAssign (b : Block) : Option (String × Bool) :=
  if b.isSwitch || b.ends == .jcc then none
  else
    match b.stmts.filter (!·.isComment) with
    | [.assign (.var _ name) (.const _ v)] =>
      if v = 0 then some (name, false) else if v = 1 then some (name, true) else none
    | _ => none

/-- The successor of a straight block. -/
def Block.usucc (b : Block) : Option ℕ :=
  if b.isSwitch || b.ends == .jcc then none
  else if b.ends = .jmp then b.taken else b.fall

namespace BoolDiamonds

open Expr ShortCircuit

/-- Block `a` branches on `cond` to `t` or `f`, which assign to a variable and go on to `join`; the
variable is assigned `1` where `cond` is as `one`. -/
structure Diamond where
  a : ℕ
  t : ℕ
  f : ℕ
  join : ℕ
  name : String
  one : Bool
  cond : Expr

/-- What is assigned in place of the constants. -/
def Diamond.val (demorgan : Bool) (d : Diamond) : Expr :=
  if d.one then d.cond else negateExpr demorgan d.cond

/-- The diamond that starts at a block. -/
def diamondAt (st : ShortCircuit) (a : ℕ) : Option Diamond := do
  let A ← st.blocks[a]?
  let (cond, t, f) ← A.twoWay
  guard (t ≠ f)
  let T ← st.blocks[t]?
  let F ← st.blocks[f]?
  guard (T.pred = [a] ∧ F.pred = [a])
  let (xt, ct) ← T.singleBoolAssign
  let (xf, cf) ← F.singleBoolAssign
  guard (xt = xf ∧ ct ≠ cf)
  let jt ← T.usucc
  let jf ← F.usucc
  guard (jt = jf ∧ jt ≠ a ∧ jt ≠ t ∧ jt ≠ f)
  pure { a, t, f, join := jt, name := xt, one := ct, cond }

section Pass

variable (demorgan : Bool) (varWidth : String → Option ℕ)

/-- The block with the assignment, which goes on to the join. -/
def Diamond.into (d : Diamond) (A : Block) : Block :=
  { A with
    stmts := A.stmts ++ [.assign (mkVar d.name ((varWidth d.name).getD 4)) (d.val demorgan)]
    ends := .fall
    cond := none
    taken := none
    fall := some d.join }

def apply (st : ShortCircuit) (d : Diamond) : ShortCircuit where
  blocks := st.blocks.modify d.a (d.into demorgan varWidth)
  merged := insert d.f (insert d.t st.merged)

/-- The blocks in order. -/
def sweep : List ℕ → ShortCircuit → ShortCircuit
  | [], st => st
  | a :: rest, st =>
    match diamondAt st a with
    | some d => sweep rest (apply demorgan varWidth st d)
    | none => sweep rest st

/-- The diamonds that are folded. -/
def diamonds : List ℕ → ShortCircuit → List Diamond
  | [], _ => []
  | a :: rest, st =>
    match diamondAt st a with
    | some d => d :: diamonds rest (apply demorgan varWidth st d)
    | none => diamonds rest st

/-- The pass; `varWidth` is the table of the widths of variables. -/
def foldBooleanDiamonds (st : ShortCircuit) : ShortCircuit :=
  (sweep demorgan varWidth (List.range st.blocks.length) st.rebuild).rebuild

/-- The diamonds that the pass folds. -/
def folded (st : ShortCircuit) : List Diamond :=
  diamonds demorgan varWidth (List.range st.blocks.length) st.rebuild

end Pass

end BoolDiamonds

end Ldu
