import Ldu.Cfg.Analysis
import Ldu.Vars.Inlining

/-!
# Inlining invariant temporaries

`inline_invariant_temps` replaces every read of a temporary whose only assignment has a small
right-hand side built from parameters that are never assigned, without calls and loads. The block
of the assignment has to dominate every block that reads the temporary; where the reads stand in
the block of the assignment itself is not looked at. There are at most 15 rounds; the assignments
are counted at the start of each.
-/

namespace Ldu

section Pass

variable (info : VarInfo) (idom : List (Option ℕ)) (taken : String → Bool)

/-- `a1` to `a9`, and longer names that start so. -/
def isParamName (n : String) : Bool :=
  match n.toList with
  | c :: d :: _ => c == 'a' && '1' ≤ d && d ≤ '9'
  | _ => false

/-- The inputs are parameters that are never assigned. -/
def isInvariant (writes : String → ℕ) (rhs : Expr) : Bool :=
  !rhs.anyNode fun
    | .var _ n => !isParamName n || 0 < writes n || taken n
    | _ => false

/-- The temporary a statement defines and its value, if it is invariant. -/
def invariantDef (writes : String → ℕ) : Stmt → Option (String × Expr)
  | .assign (.var _ nm) rhs =>
    if isScalarLocal info nm && !taken nm && writes nm == 1 && !rhs.hasCall && !rhs.readsMem &&
      rhs.nodeCount ≤ 8 && isInvariant taken writes rhs then some (nm, rhs) else none
  | _ => none

/-- The block of the definition dominates every block that reads `nm`. -/
def dominatesUses (g : List Block) (k i : ℕ) (nm : String) : Bool :=
  g.zipIdx.all fun (b, j) ↦
    !b.uses nm (if j = k then some i else none) || dominates idom k j

/-- Replace every read of `nm`; the definition, at position `i` of block `k`, becomes a mark. -/
def inlineEverywhere (g : List Block) (k i : ℕ) (nm : String) (rhs : Expr) : List Block :=
  g.mapIdx fun j b ↦
    { b.mapTerm (·.substVar nm rhs) with
      stmts := b.stmts.mapIdx fun l st ↦
        if j = k ∧ l = i then inlinedMark else st.mapExprs (·.substVar nm rhs) }

/-- Look at the statement at a position. -/
def invariantStep (writes : String → ℕ) (run : InlineRun) (p : ℕ × ℕ) : InlineRun :=
  match (stmtAt run.graph p.1 p.2).bind (invariantDef info taken writes) with
  | some (nm, rhs) =>
    if dominatesUses idom run.graph p.1 p.2 nm then
      ⟨inlineEverywhere run.graph p.1 p.2 nm rhs, run.log ++ [⟨run.graph, p.1, p.2⟩]⟩
    else run
  | none => run

/-- The inlinings of one round. -/
def invariantInlinings (g : List Block) : InlineRun :=
  (positions g).foldl (invariantStep info idom taken (countWrites g)) ⟨g, []⟩

/-- One round; the marks are erased if something is inlined. -/
def invariantRound (g : List Block) : InlineRun :=
  let run := invariantInlinings info idom taken g
  if run.log.isEmpty then run else { run with graph := eraseMarked run.graph }

end Pass

/-- Inline the invariant temporaries; `idom` are the immediate dominators. -/
def inlineInvariantTemps (info : VarInfo) (idom : List (Option ℕ)) (budgetOk : ℕ → Bool)
    (g : List Block) : InlineRun :=
  inlineRounds (invariantRound info idom (addrTaken g)) budgetOk 15 ⟨g, []⟩

end Ldu
