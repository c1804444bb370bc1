import Ldu.Cfg.Analysis
import Ldu.Ir.Fold
import Ldu.Semantics.Flow
import Ldu.Vars.Inlining
import Ldu.Vars.Liveness

/-!
# For loops

`detect_for_loops` looks for loops whose header does nothing but test, whose only latch does nothing
but add a constant to a variable that the test reads, and that assign the variable nowhere else. The
increment moves from the latch into the header of the `for`; so does the last assignment without
calls to the variable in the immediate dominator of the loop header, if there is one.

`forMachine` runs the graph with the moved statements at their new places: before the test, the
initialisation when the loop is entered and the increment after an iteration.
-/

namespace Ldu

/-! ### Detecting the loops -/

/-- What `match_incr` finds: the variable, `+` or `-`, and the constant. -/
structure Incr where
  iv : String
  op : BinOp
  step : BitVec 64

/-- An integer constant. -/
def intConst : Expr → Option (BitVec 64)
  | .const ty c => if ty.isFloat then none else some c
  | _ => none

/-- `iv = iv + c`, `iv = c + iv` or `iv = iv - c`. -/
def matchIncr : Stmt → Option Incr
  | .assign (.var _ nm) (.binary _ op a b) =>
    let left := if a.isVarNamed nm then (intConst b).map (⟨nm, op, ·⟩) else none
    let right := if b.isVarNamed nm then (intConst a).map (⟨nm, op, ·⟩) else none
    match op with
    | .add => left <|> right
    | .sub => left
    | _ => none
  | _ => none

/-- The increment and its position, when it is the only statement besides comments. -/
def soleIncr (sts : List Stmt) : Option (ℕ × Incr) :=
  match sts.zipIdx.filter fun p ↦ !p.1.isComment with
  | [(st, i)] => (matchIncr st).map (i, ·)
  | _ => none

/-- The latch, when there is one only, neither the header nor the follow of the loop. -/
def uniqueLatch (g : List Block) (lp : Loop) : Option ℕ :=
  match (List.range g.length).filter (· ∈ lp.latches) with
  | [l] => if l = lp.header ∨ some l = lp.follow g then none else some l
  | _ => none

/-- An assignment without calls. -/
def isInit (iv : String) (st : Stmt) : Bool :=
  (st.defOf iv).any fun rhs ↦ !rhs.hasCall

/-- The place of the initialisation: the last one of the immediate dominator of the header. -/
def initSite (g : List Block) (idom : List (Option ℕ)) (lp : Loop) (iv : String) :
    Option (ℕ × ℕ) :=
  match idom[lp.header]?.join with
  | some pre =>
    if pre = lp.header ∨ pre ∈ lp.body then none
    else
      match g[pre]? with
      | some b => (b.stmts.zipIdx.reverse.find? fun p ↦ isInit iv p.1).map (pre, ·.2)
      | none => none
  | none => none

/-- Some statement of the loop, besides that at position `i` of block `l`, assigns `iv`. -/
def mutatedInLoop (g : List Block) (lp : Loop) (l i : ℕ) (iv : String) : Bool :=
  g.zipIdx.any fun p ↦ p.2 ∈ lp.body &&
    p.1.stmts.zipIdx.any fun q ↦ !(p.2 == l && q.2 == i) && q.1.assigns iv

/-- A loop that becomes a `for`. -/
structure ForLoop where
  loop : Loop
  latch : ℕ
  incIdx : ℕ
  incr : Incr
  /-- The block and the position of the initialisation. -/
  init : Option (ℕ × ℕ)

/-- The induction variable. -/
def ForLoop.iv (F : ForLoop) : String :=
  F.incr.iv

/-- The condition to stay in a loop with follow `follow`, for a two-way header with an exit. -/
def stayCond (follow : Option ℕ) (b : Block) : Option Expr :=
  if b.ends = .jcc ∧ (b.taken = follow ∨ b.fall = follow) then
    b.cond.map fun c ↦ if b.fall = follow then c else Expr.negateExpr true c
  else none

def detectForLoop (g : List Block) (idom : List (Option ℕ)) (lp : Loop) : Option ForLoop := do
  let b ← g[lp.header]?
  let stay ← stayCond (lp.follow g) b
  let l ← (uniqueLatch g lp).filter fun _ ↦ b.stmtsEmpty
  let latch ← g[l]?
  let (i, incr) ← soleIncr latch.stmts
  if stay.readsNamedVar incr.iv && !mutatedInLoop g lp l i incr.iv then
    some ⟨lp, l, i, incr, initSite g idom lp incr.iv⟩
  else none

/-- `detect_for_loops`. -/
def detectForLoops (g : List Block) (idom : List (Option ℕ)) : List ForLoop :=
  (findLoops g idom).filterMap (detectForLoop g idom)

/-! ### Moving the statements -/

namespace ForLoop

variable (F : ForLoop)

/-- The statement at position `i` of block `j` moves into the header of the `for`. -/
def moves (j i : ℕ) : Bool :=
  (j == F.latch && i == F.incIdx) || F.init == some (j, i)

/-- The statements of block `j` that stay, from the `i`-th on. -/
def kept (j : ℕ) : ℕ → List Stmt → List Stmt
  | _, [] => []
  | i, st :: sts => if F.moves j i then kept j (i + 1) sts else st :: kept j (i + 1) sts

/-- The blocks without the statements that move. -/
def strip (g : List Block) : List Block :=
  g.mapIdx fun j b ↦ { b with stmts := F.kept j 0 b.stmts }

/-- The part of the header of the `for` that is run when control comes from block `j`: the increment
after an iteration, else the initialisation. -/
def head (g : List Block) (j : ℕ) : List Stmt :=
  ((if j ∈ F.loop.body then some (F.latch, F.incIdx) else F.init).bind
    fun p ↦ stmtAt g p.1 p.2).toList

variable {σ E R : Type*} (I : Interp σ E R) (usedReturn : Bool)

/-- The program with the `for`. -/
def forMachine (merged : Finset ℕ) (g : List Block) : Machine (ℕ × σ) E (Option R) where
  step := fun (j, s) ↦
    match (graphMachine I usedReturn merged (F.strip g)).step (j, s) with
    | (es, .inl (k, s')) =>
      if k = F.loop.header then
        match I.execAll (F.head g j) s' with
        | (es', .inl s'') => (es ++ es', .inl (k, s''))
        | (es', .inr r) => (es ++ es', .inr (some r))
      else (es, .inl (k, s'))
    | (es, .inr r) => (es, .inr r)

end ForLoop

end Ldu
