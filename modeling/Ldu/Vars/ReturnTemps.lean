import Ldu.Ir.Fold
import Ldu.Vars.Inlining

/-!
# Temporaries in the returned value

`fold_return_temps` inlines a temporary with one assignment that is read once, in the value its
block returns. The right-hand side may be a call. The statements after the definition must be
assignments that leave its inputs alone; if it loads or calls, they must make no call and no store,
and if it calls, they must not load. A call is not moved into a returned value that has another
call, unless the temporary is an argument of that one. Where in the returned value a call ends up
is not looked at otherwise, nor are locals that live in memory.

In each block at most one temporary is inlined. The new returned value is simplified by `fold`.
-/

namespace Ldu

/-- `a1` to `a4`. -/
def isRegisterParam (n : String) : Bool :=
  match n.toList with
  | [c, d] => c == 'a' && '1' ≤ d && d ≤ '4'
  | _ => false

/-- A read of `nm` outside the arguments of calls, `reads_var_outside_call_args`. -/
def Expr.readsOutsideCallArgs (nm : String) : Expr → Bool
  | const _ _ | reg _ _ | str _ _ | call _ _ _ _ _ => false
  | var _ n => n == nm
  | mem _ a | unary _ _ a | cast _ _ a | addrOf _ a => readsOutsideCallArgs nm a
  | binary _ _ a b => readsOutsideCallArgs nm a || readsOutsideCallArgs nm b
  | ternary _ a b c =>
    readsOutsideCallArgs nm a || readsOutsideCallArgs nm b || readsOutsideCallArgs nm c
  | callVia _ _ _ _ target _ => readsOutsideCallArgs nm target

/-- The number of reads of `n`, `total_reads`. -/
def totalReads (g : List Block) (n : String) : ℕ :=
  (g.map fun b ↦ (b.stmts.map (·.countReads n)).sum + b.countTermReads n).sum

/-- The definition of a temporary as `rhs` may not be moved past the statement. -/
def Stmt.returnHazard (rhs : Expr) : Stmt → Bool
  | assign lhs e =>
    ((rhs.readsMem || rhs.hasImpureCall) && (e.hasCall || lhs.isMem)) ||
      (rhs.hasImpureCall && e.readsMem) ||
      match lhs with
      | .var _ n => rhs.readsNamedVar n
      | _ => false
  | call _ | comment _ => true

/-- The call `rhs` may not be moved into the returned value `ret`, which has calls. -/
def callsClash (v : String) (rhs ret : Expr) : Bool :=
  rhs.hasImpureCall && 0 < ret.countImpureCalls &&
    (ret.countImpureCalls != 1 || ret.readsOutsideCallArgs v)

/-- The temporary that statement `i` of block `b` defines and its value, if it can be inlined in the
returned value `ret` of the block. -/
def returnTemp (info : VarInfo) (taken : String → Bool) (g : List Block) (b : Block) (ret : Expr)
    (i : ℕ) : Option (String × Expr) :=
  match b.stmts[i]? with
  | some (.assign (.var _ v) rhs) =>
    let here := ret.countVarReads v + b.retRaw.elim 0 (·.countVarReads v)
    if taken v || info.arrayLocals.contains v || isRegisterParam v || countWrites g v != 1 ||
        totalReads g v != here || ret.countVarReads v != 1 ||
        (b.stmts.take i).any (0 < ·.countReads v) ||
        (b.stmts.drop (i + 1)).any (·.returnHazard rhs) || callsClash v rhs ret then none
    else some (v, rhs)
  | _ => none

/-- Drop the definition at position `i`, return `ret`. -/
def Block.foldReturn (i : ℕ) (ret : Expr) (b : Block) : Block :=
  { b with
    stmts := b.stmts.take i ++ b.stmts.drop (i + 1)
    retValue := some ret
    retRaw := some ret }

section Pass

variable (info : VarInfo) (P : Expr.PtrInfo) (taken : String → Bool)

/-- Inline the first temporary of block `k` that can be inlined in its returned value. -/
def returnStep (run : InlineRun) (k : ℕ) : InlineRun :=
  match run.graph[k]? with
  | some b =>
    match b.retValue with
    | some ret =>
      match (List.range b.stmts.length).findSome? fun i ↦
          (returnTemp info taken run.graph b ret i).map (i, ·) with
      | some (i, v, rhs) =>
        ⟨run.graph.modify k (·.foldReturn i (Expr.fold P (ret.substVar v rhs))),
          run.log ++ [⟨run.graph, k, i⟩]⟩
      | none => run
    | none => run
  | none => run

end Pass

/-- Inline temporaries in the returned values. -/
def foldReturnTemps (info : VarInfo) (P : Expr.PtrInfo) (g : List Block) : InlineRun :=
  (List.range g.length).foldl (returnStep info P (addrTaken g)) ⟨g, []⟩

end Ldu
