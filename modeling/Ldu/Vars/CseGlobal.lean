import Ldu.Cfg.Dominance
import Ldu.Vars.Cse

/-!
# Sharing subexpressions across blocks

`cse_global` looks for an arithmetic subexpression, without loads, calls and divisions, that occurs
in more than one block. The closest block that dominates all these blocks assigns it to a new
temporary, which is read at all occurrences: before the first statement with an occurrence, if the
block has one itself, and else at its end. No variable of the subexpression may be assigned from
there on in the block, nor in any block that can be reached from it without coming back to it. There
are up to 60 rounds.

Occurrences are counted by a text that stands for the structure of a tree; they are replaced where
`exprEqual` finds them. Both leave signedness and width out.
-/

namespace Ldu

/-! ### Structural keys -/

def UnOp.text : UnOp → String
  | neg => "-"
  | bnot => "~"
  | lnot => "!"

def BinOp.text : BinOp → String
  | add => "+" | sub => "-" | mul => "*" | div => "/" | mod => "%"
  | band => "&" | bor => "|" | bxor => "^" | shl => "<<" | shr => ">>"
  | eq => "==" | ne => "!=" | lt => "<" | le => "<=" | gt => ">" | ge => ">="
  | land => "&&" | lor => "||"

namespace Expr

mutual

/-- The text that stands for the structure of a tree. For a call that is no pure intrinsic the
source writes the address of the node, so that no other node has its text; a text is only ever
looked up for a tree without calls. -/
def cseKey : Expr → String
  | const _ v => "C" ++ toString v.toInt ++ ";"
  | reg _ r => "R" ++ toString r ++ ";"
  | var _ n => "V" ++ n ++ ";"
  | str _ t => "S" ++ t ++ ";"
  | mem t a => "M" ++ toString t.width ++ "(" ++ cseKey a ++ ")"
  | unary _ op a => "U" ++ op.text ++ "(" ++ cseKey a ++ ")"
  | cast _ t a => "K" ++ t ++ "(" ++ cseKey a ++ ")"
  | addrOf _ a => "A(" ++ cseKey a ++ ")"
  | binary _ op a b => "B" ++ op.text ++ "(" ++ cseKey a ++ "," ++ cseKey b ++ ")"
  | ternary _ a b c => "T(" ++ cseKey a ++ "," ++ cseKey b ++ "," ++ cseKey c ++ ")"
  | call _ n i _ args | callVia _ n i _ _ args =>
    if startsWith n "__" && !i then "P" ++ n ++ "(" ++ cseKeyList args ++ ")" else "Q"

/-- The texts of arguments. -/
def cseKeyList : List Expr → String
  | [] => ""
  | e :: es => cseKey e ++ "," ++ cseKeyList es

end

/-- The node divides. -/
def isDivision : Expr → Bool
  | binary _ .div _ _ | binary _ .mod _ _ => true
  | _ => false

/-- Some node divides, `has_div`. -/
def hasDiv (e : Expr) : Bool :=
  e.anyNode isDivision

/-- The node is a variable. -/
def isVar : Expr → Bool
  | var _ _ => true
  | _ => false

end Expr

/-- The expressions of an assignment, in the order they are looked at. -/
def Stmt.scanned : Stmt → List Expr
  | assign lhs rhs => [rhs, lhs]
  | _ => []

/-- The texts of the subexpressions of a block, with repetitions, `cse_hash`. -/
def Block.cseKeys (b : Block) : List String :=
  ((b.stmts.flatMap Stmt.scanned ++ b.sharedTerm).flatMap Expr.nodes).map Expr.cseKey

/-- The number of subexpressions with the text `k`. -/
def countKey (g : List Block) (k : String) : ℕ :=
  (g.map (·.cseKeys.count k)).sum

/-- The blocks that have a subexpression with the text `k`. -/
def keyBlocks (g : List Block) (k : String) : List ℕ :=
  (List.range g.length).filter fun j ↦ g[j]?.any (·.cseKeys.contains k)

/-! ### Placing the definition -/

/-- The closest common dominator of two blocks. -/
def commonDom (idom : List (Option ℕ)) (a b : ℕ) : Option ℕ :=
  let anc := idomChain idom 100000 a
  (idomChain idom 100001 b).find? (anc.contains ·)

/-- The closest common dominator of the blocks. -/
def commonDomAll (idom : List (Option ℕ)) : List ℕ → Option ℕ
  | [] => none
  | u :: us => us.foldlM (commonDom idom) u

/-- The search of `leaves_stable`: the blocks on the stack and what they lead to, besides `d`, do
not assign a variable of `sub`. It gives up after `fuel` blocks from the stack. -/
def stableFrom (g : List Block) (d : ℕ) (sub : Expr) : ℕ → List ℕ → List ℕ → Bool
  | 0, work, _ => work.isEmpty
  | _ + 1, [], _ => true
  | fuel + 1, b :: work, seen =>
    if b = d ∨ b ∈ seen then stableFrom g d sub fuel work seen
    else
      match g[b]? with
      | some B =>
        if B.stmts.any (·.assignsLeaf sub) then false
        else stableFrom g d sub fuel (B.succ.reverse ++ work) (b :: seen)
      | none => stableFrom g d sub fuel work (b :: seen)

/-- No block that block `d` leads to assigns a variable of `sub`. -/
def leavesStable (g : List Block) (d : ℕ) (sub : Expr) : Bool :=
  stableFrom g d sub 200001 (succOf g d).reverse []

/-- Where the definition of `sub` goes in a block with an occurrence: before the first statement
with one, or at the end. -/
def Block.insertAt (sub : Expr) (b : Block) : ℕ :=
  (b.stmts.findIdx? (0 < ·.countOcc sub)).getD b.stmts.length

/-- From there on the block assigns no variable of `sub`. -/
def Block.leavesStableWithin (sub : Expr) (b : Block) : Bool :=
  !(b.stmts.drop (b.insertAt sub)).any (·.assignsLeaf sub)

/-- A subexpression to share, the number of its occurrences, the blocks they are in, and the block
of the definition. -/
structure GlobalShared where
  sub : Expr
  count : ℕ
  uses : List ℕ
  dom : ℕ

section Pass

variable (idom : List (Option ℕ))

/-- How `sub` may be shared. -/
def globalSite (g : List Block) (sub : Expr) : Option GlobalShared :=
  let cnt := countKey g sub.cseKey
  let uses := keyBlocks g sub.cseKey
  if cnt < 2 || uses.length < 2 then none
  else
    match commonDomAll idom uses with
    | none => none
    | some d =>
      match g[d]? with
      | none => none
      | some D =>
        if uses.all (dominates idom d ·) && sub.anyNode Expr.isVar && leavesStable g d sub &&
            (!uses.contains d || 3 ≤ cnt && D.leavesStableWithin sub) then
          some ⟨sub, cnt, uses, d⟩
        else none

/-- Look at one subexpression; `seen` are the texts of those looked at before. -/
def pickGlobalStep (g : List Block) (acc : List String × Option GlobalShared) (sub : Expr) :
    List String × Option GlobalShared :=
  let (seen, best) := acc
  if sub.nodeCount < 4 || 400 < sub.nodeCount || sub.hasCall || sub.readsMem || sub.hasDiv then acc
  else if seen.contains sub.cseKey then acc
  else
    let seen := seen ++ [sub.cseKey]
    match globalSite idom g sub, best with
    | none, _ => (seen, best)
    | some p, none => (seen, some p)
    | some p, some q =>
      if p.count > q.count || (p.count == q.count && p.sub.nodeCount > q.sub.nodeCount) then
        (seen, some p)
      else (seen, best)

/-- The subexpression that occurs most often, the largest of these. -/
def pickGlobal (g : List Block) : Option GlobalShared :=
  ((g.flatMap Block.collectSubs).foldl (pickGlobalStep idom g) ([], none)).2

/-- Read the temporary at all occurrences of `best` in a block. -/
def Block.replaceOcc (best : Expr) (temp : String) (b : Block) : Block :=
  let f := fun e : Expr ↦ e.substSubtree best (sharedVar best temp)
  { b with
    stmts := b.stmts.map (·.mapAssign f)
    cond := b.cond.map f
    retValue := b.retValue.map f
    switchVar := b.switchVar.map f }

/-- The function after a sharing across blocks. -/
def Sharing.everywhere (x : Sharing) : List Block :=
  x.before.mapIdx fun j b ↦
    if j = x.block then b.share x.first x.best x.temp else b.replaceOcc x.best x.temp

/-- The position of the definition in its block. -/
def GlobalShared.pos (p : GlobalShared) (g : List Block) : ℕ :=
  match g[p.dom]? with
  | some D => if p.uses.contains p.dom then D.insertAt p.sub else D.stmts.length
  | none => 0

/-- Share a subexpression. -/
def ShareRun.shareGlobal (p : GlobalShared) (run : ShareRun) : ShareRun :=
  let x : Sharing := ⟨run.graph, p.dom, p.pos run.graph, p.sub, tempName (run.tempSeq + 1)⟩
  ⟨x.everywhere, run.tempSeq + 1, run.log ++ [x]⟩

/-- The rounds; `budgetOk n` says whether the deadline has not passed when `n` rounds are left. -/
def globalRounds (budgetOk : ℕ → Bool) : ℕ → ShareRun → ShareRun
  | 0, run => run
  | n + 1, run =>
    if !budgetOk n then run
    else
      match pickGlobal idom run.graph with
      | none => run
      | some p => globalRounds budgetOk n (run.shareGlobal p)

/-- Share subexpressions across blocks; `tempSeq` is the number of the last temporary. -/
def cseGlobal (budgetOk : ℕ → Bool) (tempSeq : ℕ) (g : List Block) : ShareRun :=
  globalRounds idom budgetOk 60 ⟨g, tempSeq, []⟩

end Pass

end Ldu
