import Ldu.Vars.Inlining

/-!
# Sharing subexpressions across the statements of a block

`cse_cross_statement` looks for a subexpression that occurs more than once in the assignments and
the terminator of a block, and not in one statement only. It assigns the one that occurs most often
to a new temporary, before the first statement it occurs in, and reads the temporary at all its
occurrences, up to 30 times for each block. From the first to the last statement with an occurrence
no variable of the subexpression may be assigned. If it loads memory, these statements must be
assignments without a call on the right, and a store among them must have the subexpression in its
address. The statements after the last occurrence are not looked at, even if the terminator has
one too. Occurrences are found by `exprEqual`.
-/

namespace Ldu

namespace Expr

/-- Replace every subtree that equals `target`, `subst_subtree`. -/
def substSubtree (e target repl : Expr) : Expr :=
  rewrite (fun e ↦ if e.exprEqual target then some repl else none) e

/-- The node may be shared: it is no leaf and no call. -/
def isInternal : Expr → Bool
  | mem _ _ | unary _ _ _ | binary _ _ _ _ | cast _ _ _ | ternary _ _ _ _ => true
  | _ => false

mutual

/-- The internal subexpressions, `collect_subs`. -/
def collectSubs (e : Expr) : List Expr :=
  (if e.isInternal then [e] else []) ++ match e with
  | const _ _ | reg _ _ | var _ _ | str _ _ => []
  | mem _ a | unary _ _ a | cast _ _ a | addrOf _ a => collectSubs a
  | binary _ _ a b => collectSubs a ++ collectSubs b
  | ternary _ a b c => collectSubs a ++ collectSubs b ++ collectSubs c
  | call _ _ _ _ args => collectSubsList args
  | callVia _ _ _ _ t args => collectSubs t ++ collectSubsList args

def collectSubsList : List Expr → List Expr
  | [] => []
  | e :: es => collectSubs e ++ collectSubsList es

end

mutual

/-- The number of subtrees that equal `target`, `count_occ`. -/
def countOcc (e target : Expr) : ℕ :=
  if e.exprEqual target then 1
  else match e with
  | const _ _ | reg _ _ | var _ _ | str _ _ => 0
  | mem _ a | unary _ _ a | cast _ _ a | addrOf _ a => countOcc a target
  | binary _ _ a b => countOcc a target + countOcc b target
  | ternary _ a b c => countOcc a target + countOcc b target + countOcc c target
  | call _ _ _ _ args => countOccList args target
  | callVia _ _ _ _ t args => countOcc t target + countOccList args target

def countOccList (es : List Expr) (target : Expr) : ℕ :=
  match es with
  | [] => 0
  | e :: es => countOcc e target + countOccList es target

end

end Expr

namespace Stmt

/-- Occurrences in a statement; only assignments are looked at. -/
def countOcc (target : Expr) : Stmt → ℕ
  | assign lhs rhs => rhs.countOcc target + lhs.countOcc target
  | _ => 0

/-- The subexpressions of an assignment. -/
def collectSubs : Stmt → List Expr
  | assign lhs rhs => rhs.collectSubs ++ lhs.collectSubs
  | _ => []

/-- The statement assigns a variable of `sub`. -/
def assignsLeaf (sub : Expr) : Stmt → Bool
  | assign (.var _ x) _ => sub.readsNamedVar x
  | _ => false

/-- A statement that loads may move across: an assignment with no call on the right; a store has
`sub` in its address. -/
def storesThrough (sub : Expr) : Stmt → Bool
  | assign (.mem _ a) rhs => !rhs.hasCall && 0 < a.countOcc sub
  | assign _ rhs => !rhs.hasCall
  | _ => false

/-- The statement with its expressions replaced, if it is an assignment. -/
def mapAssign (f : Expr → Expr) : Stmt → Stmt
  | assign lhs rhs => assign (f lhs) (f rhs)
  | st => st

end Stmt

/-- The position of the last entry that satisfies `p`. -/
def lastIdx {α : Type*} (p : α → Bool) : List α → Option ℕ
  | [] => none
  | a :: l =>
    match lastIdx p l with
    | some j => some (j + 1)
    | none => if p a then some 0 else none

namespace Block

/-- The expressions of the terminator that are looked at. -/
def sharedTerm (b : Block) : List Expr :=
  b.cond.toList ++ b.retValue.toList ++ b.switchVar.toList

/-- The subexpressions of the assignments and of the terminator. -/
def collectSubs (b : Block) : List Expr :=
  b.stmts.flatMap Stmt.collectSubs ++ b.sharedTerm.flatMap Expr.collectSubs

def countTermOcc (sub : Expr) (b : Block) : ℕ :=
  (b.sharedTerm.map (Expr.countOcc · sub)).sum

/-- The statements from the first to the last one with an occurrence of `sub`. -/
def shareWindow (first last : ℕ) (b : Block) : List Stmt :=
  (b.stmts.take (last + 1)).drop first

/-- The position of the first statement that `sub` occurs in and the number of its occurrences, if
`sub` may be shared. -/
def shareSite (sub : Expr) (b : Block) : Option (ℕ × ℕ) :=
  match b.stmts.findIdx? (0 < ·.countOcc sub), lastIdx (0 < Stmt.countOcc sub ·) b.stmts with
  | some first, some last =>
    let cnt := (b.stmts.map (Stmt.countOcc sub)).sum + b.countTermOcc sub
    let window := b.shareWindow first last
    if 2 ≤ cnt && (first != last || 0 < b.countTermOcc sub) &&
        !window.any (·.assignsLeaf sub) && (!sub.readsMem || window.all (·.storesThrough sub)) then
      some (first, cnt)
    else none
  | _, _ => none

end Block

/-- A subexpression to share, with its number of occurrences and the position of the first. -/
structure Shared where
  sub : Expr
  count : ℕ
  first : ℕ

/-- Look at one subexpression; `seen` are those looked at before. -/
def pickStep (b : Block) (acc : List Expr × Option Shared) (sub : Expr) :
    List Expr × Option Shared :=
  let (seen, best) := acc
  if sub.nodeCount < 4 || sub.hasCall then acc
  else if seen.any (·.exprEqual sub) then acc
  else
    let seen := seen ++ [sub]
    match b.shareSite sub, best with
    | none, _ => (seen, best)
    | some (first, cnt), none => (seen, some ⟨sub, cnt, first⟩)
    | some (first, cnt), some p =>
      if cnt > p.count || (cnt == p.count && sub.nodeCount > p.sub.nodeCount) then
        (seen, some ⟨sub, cnt, first⟩)
      else (seen, best)

/-- The subexpression that occurs most often, the largest of these. -/
def pickShared (b : Block) : Option Shared :=
  (b.collectSubs.foldl (pickStep b) ([], none)).2

/-- The variable of the temporary that stands for `best`. -/
def sharedVar (best : Expr) (temp : String) : Expr :=
  .var ⟨if best.ty.width = 0 then 8 else best.ty.width, false, best.ty.isFloat⟩ temp

/-- Assign `best` to the temporary before position `first`, and read that at all occurrences. -/
def Block.share (first : ℕ) (best : Expr) (temp : String) (b : Block) : Block :=
  let f := fun e : Expr ↦ e.substSubtree best (sharedVar best temp)
  { b with
    stmts := (b.stmts.map (·.mapAssign f)).insertIdx first (.assign (sharedVar best temp) best)
    cond := b.cond.map f
    retValue := b.retValue.map f
    switchVar := b.switchVar.map f }

/-- A sharing that the pass makes: the function before it, the block, the position of the first
statement with an occurrence, the subexpression and the temporary. -/
structure Sharing where
  before : List Block
  block : ℕ
  first : ℕ
  best : Expr
  temp : String

/-- The function after the sharing. -/
def Sharing.after (x : Sharing) : List Block :=
  x.before.modify x.block (·.share x.first x.best x.temp)

/-- A pass under way: the function as it is, the number of the last temporary and the sharings made
so far. -/
structure ShareRun where
  graph : List Block
  tempSeq : ℕ
  log : List Sharing := []

/-- Share a subexpression of block `k`. -/
def ShareRun.share (k : ℕ) (p : Shared) (run : ShareRun) : ShareRun :=
  let x : Sharing := ⟨run.graph, k, p.first, p.sub, tempName (run.tempSeq + 1)⟩
  ⟨x.after, run.tempSeq + 1, run.log ++ [x]⟩

/-- The rounds at block `k`; `budgetOk n` says whether the deadline has not passed when `n` rounds
are left. -/
def shareRounds (budgetOk : ℕ → Bool) (k : ℕ) : ℕ → ShareRun → ShareRun
  | 0, run => run
  | n + 1, run =>
    if !budgetOk n then run
    else
      match run.graph[k]?.bind pickShared with
      | none => run
      | some p => shareRounds budgetOk k n (run.share k p)

/-- The rounds at block `k`, unless it is long. -/
def shareBlock (budgetOk : ℕ → ℕ → Bool) (run : ShareRun) (k : ℕ) : ShareRun :=
  if 250 < (run.graph[k]?.map (·.stmts.length)).getD 0 then run
  else shareRounds (budgetOk k) k 30 run

/-- Share the subexpressions of each block; `tempSeq` is the number of the last temporary. -/
def cseCrossStatement (budgetOk : ℕ → ℕ → Bool) (tempSeq : ℕ) (g : List Block) : ShareRun :=
  (List.range g.length).foldl (shareBlock budgetOk) ⟨g, tempSeq, []⟩

end Ldu
