import Ldu.Cfg.Analysis

/-!
# Flag dispatch of multi-exit regions

`flagDispatch` gives a region that is left to several blocks a single exit: every edge to one
of the exits is sent to a synthetic dispatch block, which branches on a fresh flag. An edge to
an exit other than the first one passes a block that sets the flag; the flag is cleared by a
statement put in front of block `0`.

Regions are chosen in two ways (`choosePlans`): loops with exactly two exits, one of them
shared (`loopPlan`), and forward regions around a join with many predecessors (`joinPlan`).
Exits that are also reached from behind the region get a copy for each such predecessor first
(`splitFor`). Rounds of choosing and rewriting repeat at most twelve times.

The environment switches that turn parts of the pass off are taken as unset.
-/

namespace Ldu

open Ldu.Expr

/-- How a region is dispatched: by one test of the flag, to `f` or, when it is set, to `s`; or
by a ladder of tests over a list of exits. -/
inductive Shape
  | twoWay (f s : ℕ)
  | nWay (exits : List ℕ)
  deriving DecidableEq

/-- The exits in the order of the flag's values. -/
def Shape.exits : Shape → List ℕ
  | twoWay f s => [f, s]
  | nWay es => es

/-- The exits in the order in which they are split. -/
def Shape.splitOrder : Shape → List ℕ
  | twoWay f s => [s, f]
  | nWay es => es

/-- A region to dispatch: its head, its blocks and its exits. -/
structure Plan where
  head : ℕ
  body : Finset ℕ
  shape : Shape

/-! ### Choosing the regions -/

/-- What the selection has gathered: the plans, the blocks they claim, and the joins that the
emitter is to place once, at the end of a loop body or of a region. -/
structure Chosen where
  plans : List Plan := []
  touched : Finset ℕ := ∅
  loopFwdSink : List (ℕ × ℕ) := []
  fwdSinks : Finset ℕ := ∅

section Choose

variable (g : List Block) (an : Analysis)

def isHeader (b : ℕ) : Bool :=
  an.loops.any (·.header == b)

/-- A loop left to its follow `f` and to one other block `s`, a join shared with other code. -/
def loopPlan (ch : Chosen) (lp : Loop) : Chosen :=
  let exits := lp.exits g
  match lp.follow g, (List.range g.length).find? (fun e ↦ e ∈ exits ∧ some e ≠ lp.follow g) with
  | some f, some s =>
    if lp.header < g.length ∧ f < g.length ∧ exits.card = 2 ∧ f ∈ exits ∧ s ≠ lp.header
        ∧ 2 ≤ (predOf g s).length ∧ !isHeader an s ∧ !isHeader an f
        ∧ (predOf g s).length ≤ 4 ∧ (predOf g f).length ≤ 4
        ∧ Disjoint lp.body ch.touched ∧ s ∉ ch.touched ∧ f ∉ ch.touched then
      { ch with
        plans := ch.plans ++ [⟨lp.header, lp.body, .twoWay f s⟩]
        touched := insert f (insert s (ch.touched ∪ lp.body)) }
    else ch
  | _, _ => ch

/-- The nearest common ancestor in the dominator tree. -/
def idomLca (a b : ℕ) : Option ℕ :=
  (idomChain an.idom 100000 b).find? (· ∈ idomChain an.idom 100000 a)

/-- The nearest common dominator of a list of blocks. -/
def commonIdom : List ℕ → Option ℕ
  | [] => none
  | p :: ps => ps.foldl (fun e q ↦ e.bind (idomLca an · q)) (some p)

/-- The innermost loop around `j`. -/
def innermostLoop (j : ℕ) : Option Loop :=
  an.loops.foldl (fun best lp ↦
    if j ∈ lp.body ∧ best.all (fun b ↦ decide (lp.body.card < b.body.card)) then some lp
    else best) none

/-- The blocks dominated by `e` that reach `j` but are not dominated by it. -/
def joinRegion (e j : ℕ) : Finset ℕ :=
  (Worklist.explore (Finset.range g.length) (predOf g) [j] ∅).filter fun x ↦
    x ≠ j ∧ dominates an.idom e x ∧ !dominates an.idom j x

/-- The distinct exits of a region besides `j`; the search gives up after the fourth. -/
def otherExits (r : Finset ℕ) (j : ℕ) : List ℕ :=
  ((List.range g.length).flatMap fun x ↦ if x ∈ r then succOf g x else []).foldl (fun ts s ↦
    if 3 < ts.length ∨ s = j ∨ s ∈ r ∨ s ∈ ts then ts else ts ++ [s]) []

/-- The forward region around the join `j`: it becomes a plan, or `j` is recorded as a join to
be emitted once. -/
def joinPlan (ch : Chosen) (j : ℕ) : Chosen :=
  let preds := predOf g j
  let takenArms := preds.filter fun p ↦ (g[p]?.bind (·.taken)) == some j
  let jloop := innermostLoop an j
  if isHeader an j || preds.length < 3 || j ∈ ch.touched || takenArms.length < 2
      || jloop.any (fun lp ↦ 48 < lp.body.card || 160 < g.length) then ch
  else
    match commonIdom an preds with
    | none => ch
    | some e =>
      let r := joinRegion g an e j
      let ts := otherExits g r j
      if e = j ∨ !dominates an.idom e j ∨ 24 < r.card ∨ r.card < 3 then ch
      else
        match jloop with
        | some lp =>
          if ts.all fun t ↦ t = lp.header ∨ some t = lp.follow g then
            { ch with
              loopFwdSink := ch.loopFwdSink ++ [(lp.header, j)]
              touched := insert j ch.touched }
          else ch
        | none =>
          if ts = [] then { ch with fwdSinks := insert j ch.fwdSinks }
          else if 3 < ts.length ∨ ts.any (fun t ↦ t == j || t ∈ r || isHeader an t)
              ∨ ts.any (· ∈ ch.touched) ∨ ¬ Disjoint r ch.touched then ch
          else
            { ch with
              plans := ch.plans ++ [⟨e, r, match ts with
                | [t] => .twoWay t j
                | ts => .nWay (j :: ts)⟩]
              touched := insert j (ch.touched ∪ r ∪ ts.toFinset) }

/-- The plans of a round: the loops in the order of their headers, then the joins. -/
def choosePlans (ch : Chosen) : Chosen :=
  (List.range g.length).foldl (joinPlan g an)
    (an.loops.foldl (loopPlan g an) { ch with plans := [], touched := ∅ })

end Choose

/-! ### Rewriting the graph -/

/-- Give block `x` its own copy of its successor `t`. -/
def split (t : ℕ) (g : List Block) (x : ℕ) : List Block :=
  match g[t]? with
  | none => g
  | some b =>
    g.modify x (Block.mapEdges fun s ↦ if s = t then g.length else s)
      ++ [{ b with pred := [], succ := [] }]

/-- Split exit `t` for those of its predecessors that lie behind the region: they are neither
in it nor above its head. -/
def splitFor (idom : List (Option ℕ)) (pl : Plan) (g : List Block) (t : ℕ) : List Block :=
  (predOf g t).foldl (fun g x ↦
    if g.length ≤ x ∨ x ∈ pl.body ∨ dominates idom x pl.head then g else split t g x) g

/-- `flag = k`. -/
def setFlagStmt (flag : String) (k : ℕ) : Stmt :=
  .assign (mkVar flag 4) (mkConst (BitVec.ofNat 64 k) 4)

/-- The position of an exit. -/
def exitIdx (exits : List ℕ) (t : ℕ) : Option ℕ :=
  if t ∈ exits then some (exits.idxOf t) else none

/-- The parameters of a rerouting: the first dispatch block, the index of the first flag-setting
block, and the addresses such blocks take over. -/
structure Route where
  exits : List ℕ
  flag : String
  dispatch : ℕ
  base : ℕ
  addr : ℕ → ℕ

/-- The block that sets the flag on the way to exit `k`. -/
def Route.setter (rt : Route) (k : ℕ) : Block :=
  { addr := rt.addr k
    hasInsns := false
    ends := .jmp
    taken := some rt.dispatch
    stmts := [setFlagStmt rt.flag k] }

namespace Route

variable (rt : Route)

/-- Reroute one edge; `es` are the flag-setting blocks made so far. -/
def edge (es : List Block) (e : Option ℕ) : Option ℕ × List Block :=
  match e with
  | none => (none, es)
  | some t =>
    match exitIdx rt.exits t with
    | none => (some t, es)
    | some 0 => (some rt.dispatch, es)
    | some (k + 1) => (some (rt.base + es.length), es ++ [rt.setter (k + 1)])

def edges : List Block → List (Option ℕ) → List (Option ℕ) × List Block
  | es, [] => ([], es)
  | es, c :: cs =>
    let (c, es) := rt.edge es c
    let (cs, es) := edges es cs
    (c :: cs, es)

def block (es : List Block) (b : Block) : Block × List Block :=
  let (taken, es) := rt.edge es b.taken
  let (fall, es) := rt.edge es b.fall
  let (defaultSucc, es) := rt.edge es b.defaultSucc
  let (caseSucc, es) := rt.edges es b.caseSucc
  ({ b with taken := taken, fall := fall, defaultSucc := defaultSucc, caseSucc := caseSucc }, es)

def blocks : List Block → List Block → List Block × List Block
  | es, [] => ([], es)
  | es, b :: bs =>
    let (b, es) := rt.block es b
    let (bs, es) := blocks es bs
    (b :: bs, es)

end Route

/-- The dispatch blocks, the first of which has index `p`. -/
def dispatchers (g : List Block) (flag : String) (p : ℕ) : Shape → List Block
  | .twoWay f s =>
    [{ addr := addrOf g s
       hasInsns := false
       ends := .jcc
       cond := some (mkVar flag 4)
       taken := some s
       fall := some f }]
  | .nWay exits =>
    (List.range (exits.length - 1)).map fun k ↦
      { addr := addrOf g (exits.headD 0)
        hasInsns := false
        ends := .jcc
        cond := some (mkBinary .eq (mkVar flag 4) (mkConst (BitVec.ofNat 64 k) 4) 4)
        taken := exits[k]?
        fall := if k + 2 < exits.length then some (p + k + 1) else exits[exits.length - 1]? }

/-- Clear the flag at the start of block `0`. -/
def initFlag (flag : String) (g : List Block) : List Block :=
  g.modify 0 fun b ↦ { b with stmts := setFlagStmt flag 0 :: b.stmts }

/-- Send every edge to an exit through the dispatch. -/
def dispatch (flag : String) (sh : Shape) (g : List Block) : List Block :=
  let ds := dispatchers g flag g.length sh
  let rt : Route :=
    { exits := sh.exits
      flag := flag
      dispatch := g.length
      base := g.length + ds.length
      addr := fun k ↦ addrOf g (sh.exits[k]?.getD 0) }
  let (bs, es) := rt.blocks [] (initFlag flag g)
  bs ++ ds ++ es

/-- The exits of a plan split for the predecessors behind its region. -/
def splitPlan (idom : List (Option ℕ)) (pl : Plan) (g : List Block) : List Block :=
  pl.shape.splitOrder.foldl (splitFor idom pl) g

/-! ### The rounds -/

/-- The state of the pass. -/
structure FlagState where
  blocks : List Block
  merged : Finset ℕ := ∅
  start : ℕ := 0
  analysis : Analysis
  tempSeq : ℕ
  chosen : Chosen := {}

/-- A rewriting performed by the pass: the graph it is applied to, the flag and the exits. -/
structure Dispatched where
  blocks : List Block
  flag : String
  shape : Shape

/-- Carry out plans one after the other, each with the next temporary as its flag. -/
def applyPlans (idom : List (Option ℕ)) : List Plan → List Block → ℕ → List Block
  | [], g, _ => g
  | pl :: pls, g, seq =>
    applyPlans idom pls (dispatch (tempName (seq + 1)) pl.shape (splitPlan idom pl g)) (seq + 1)

/-- The rewritings those plans perform. -/
def planned (idom : List (Option ℕ)) : List Plan → List Block → ℕ → List Dispatched
  | [], _, _ => []
  | pl :: pls, g, seq =>
    let g' := splitPlan idom pl g
    ⟨g', tempName (seq + 1), pl.shape⟩ ::
      planned idom pls (dispatch (tempName (seq + 1)) pl.shape g') (seq + 1)

namespace FlagState

def choose (st : FlagState) : Chosen :=
  choosePlans st.blocks st.analysis st.chosen

/-- Carry out the chosen plans and analyse the new graph. -/
def rewrite (st : FlagState) : FlagState :=
  let blocks := rebuildEdges st.merged
    (applyPlans st.analysis.idom st.choose.plans st.blocks st.tempSeq)
  { st with
    blocks := blocks
    analysis := analyse blocks st.start
    tempSeq := st.tempSeq + st.choose.plans.length
    chosen := st.choose }

/-- At most `n` rounds. -/
def rounds : ℕ → FlagState → FlagState
  | 0, st => st
  | n + 1, st =>
    if st.choose.plans.isEmpty then { st with chosen := st.choose } else rounds n st.rewrite

/-- The rewritings those rounds perform. -/
def dispatches : ℕ → FlagState → List Dispatched
  | 0, _ => []
  | n + 1, st =>
    if st.choose.plans.isEmpty then []
    else planned st.analysis.idom st.choose.plans st.blocks st.tempSeq ++ dispatches n st.rewrite

end FlagState

/-- The pass. -/
def flagDispatch (st : FlagState) : FlagState :=
  FlagState.rounds 12 { st with chosen := {} }

end Ldu
