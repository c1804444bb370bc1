import Ldu.Vars.Inlining

/-!
# Inlining local loads

`inline_local_loads` inlines a temporary with one assignment whose reads all stand in the block of
the assignment; the right-hand side may load memory. The statements between the definition and the
last read must not assign its inputs and, if it loads, must make no call and no store; the statement
of the last read is not looked at. Reads before the definition in the block are not looked at
either. There are at most 12 rounds; the assignments are counted at the start of each.
-/

namespace Ldu

/-- The position of the last statement that reads `nm`. -/
def lastRead (nm : String) : List Stmt → Option ℕ
  | [] => none
  | st :: sts =>
    match lastRead nm sts with
    | some j => some (j + 1)
    | none => if 0 < st.countReads nm then some 0 else none

section Pass

variable (info : VarInfo) (taken : String → Bool)

/-- The inputs have at most one assignment. -/
def isStable (writes : String → ℕ) (rhs : Expr) : Bool :=
  !rhs.anyNode fun
    | .var _ n => 1 < writes n || taken n
    | _ => false

/-- The temporary a statement defines and its value, if it may be inlined in its block. -/
def localDef (writes : String → ℕ) : Stmt → Option (String × Expr)
  | .assign (.var _ nm) rhs =>
    if isScalarLocal info nm && !taken nm && writes nm == 1 && !rhs.hasCall &&
      rhs.nodeCount ≤ 14 && isStable taken writes rhs then some (nm, rhs) else none
  | _ => none

/-- A block other than `k` reads `nm`. -/
def usedOutside (g : List Block) (k : ℕ) (nm : String) : Bool :=
  g.zipIdx.any fun (b, j) ↦ j != k && b.uses nm none

/-- The statements between the definition at position `i` and the last read. -/
def hazardWindow (nm : String) (i : ℕ) (b : Block) : List Stmt :=
  let post := b.stmts.drop (i + 1)
  if 0 < b.countTermReads nm then post else post.take ((lastRead nm post).getD 0)

/-- Something after the definition at position `i` of block `k` reads `nm`, nothing outside the
block does, and nothing in between changes `rhs`. -/
def localInlinable (g : List Block) (k i : ℕ) (nm : String) (rhs : Expr) (b : Block) : Bool :=
  !usedOutside g k nm &&
    ((lastRead nm (b.stmts.drop (i + 1))).isSome || 0 < b.countTermReads nm) &&
    !(hazardWindow nm i b).any (·.clashes rhs)

/-- Replace the reads of `nm` after position `i`, which becomes a mark. -/
def Block.inlineAfter (i : ℕ) (nm : String) (rhs : Expr) (b : Block) : Block :=
  { b.mapTerm (·.substVar nm rhs) with
    stmts := b.stmts.mapIdx fun l st ↦
      if l = i then inlinedMark else if i < l then st.mapExprs (·.substVar nm rhs) else st }

/-- Look at the statement at position `i` of block `k`. -/
def localStep (writes : String → ℕ) (k : ℕ) (run : InlineRun) (i : ℕ) : InlineRun :=
  match run.graph[k]? with
  | some b =>
    match b.stmts[i]?.bind (localDef info taken writes) with
    | some (nm, rhs) =>
      if localInlinable run.graph k i nm rhs b then
        ⟨run.graph.modify k (·.inlineAfter i nm rhs), run.log ++ [⟨run.graph, k, i⟩]⟩
      else run
    | none => run
  | none => run

/-- Look at the statements of block `k`, then erase its marks. -/
def localBlock (writes : String → ℕ) (run : InlineRun) (k : ℕ) : InlineRun :=
  let size := (run.graph[k]?.map (·.stmts.length)).getD 0
  let run := (List.range size).foldl (localStep info taken writes k) run
  { run with graph := run.graph.modify k Block.eraseMarked }

/-- One round. -/
def localRound (g : List Block) : InlineRun :=
  (List.range g.length).foldl (localBlock info taken (countWrites g)) ⟨g, []⟩

end Pass

/-- Inline the temporaries that are read in the block of their definition only. -/
def inlineLocalLoads (info : VarInfo) (budgetOk : ℕ → Bool) (g : List Block) : InlineRun :=
  inlineRounds (localRound info (addrTaken g)) budgetOk 12 ⟨g, []⟩

end Ldu
