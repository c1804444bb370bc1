import Ldu.Graph.Worklist
import Ldu.Ir.Block
import Mathlib.Data.Finset.Range

/-!
# Dominators and natural loops

The analyses the structuring passes consult, as the source computes them from the `succ` and
`pred` lists: a reverse postorder, immediate dominators by iterated intersection, dominance by
walking up the dominator chain, the natural loops and the follow of a loop.

The walks of the source that stop for graph-theoretic reasons carry an explicit bound here, at
least as large as the number of steps they can take on a chain without repetitions.
-/

namespace Ldu

/-- The `pred` list of block `b`. -/
def predOf (g : List Block) (b : ℕ) : List ℕ :=
  match g[b]? with
  | some B => B.pred
  | none => []

/-- The `succ` list of block `b`. -/
def succOf (g : List Block) (b : ℕ) : List ℕ :=
  match g[b]? with
  | some B => B.succ
  | none => []

theorem lt_of_mem_succOf {g : List Block} {u v : ℕ} (h : v ∈ succOf g u) : u < g.length := by
  by_contra hu
  rw [succOf, List.getElem?_eq_none (not_lt.1 hu)] at h
  cases h

/-- A natural loop. -/
structure Loop where
  header : ℕ
  body : Finset ℕ
  latches : Finset ℕ

/-- What the passes know about a graph: immediate dominators, `none` for `-1`, and the loops in
the order of their headers. -/
structure Analysis where
  idom : List (Option ℕ)
  loops : List Loop

/-! ### Reverse postorder -/

/-- The depth-first search: a stack of blocks with the successors still to be tried. Blocks are
finished in postorder, so the accumulated list is the reverse postorder. -/
def rpoLoop (g : List Block) : ℕ → List (ℕ × List ℕ) → Finset ℕ → List ℕ → List ℕ
  | 0, _, _, post => post
  | _ + 1, [], _, post => post
  | n + 1, (u, []) :: stk, vis, post => rpoLoop g n stk vis (u :: post)
  | n + 1, (u, v :: vs) :: stk, vis, post =>
    if v ∈ vis then rpoLoop g n ((u, vs) :: stk) vis post
    else rpoLoop g n ((v, succOf g v) :: (u, vs) :: stk) (insert v vis) post

/-- Reverse postorder from `start`. Every block is finished once and every edge tried once. -/
def computeRpo (g : List Block) (start : ℕ) : List ℕ :=
  let bound := (g.map fun b ↦ b.succ.length + 1).sum + 1
  if g.isEmpty then [] else rpoLoop g bound [(start, succOf g start)] {start} []

/-! ### Dominators -/

/-- `intersect`: climb from the later block until the two meet. -/
def intersect (num : ℕ → ℕ) (idom : List (Option ℕ)) : ℕ → ℕ → ℕ → ℕ
  | 0, a, _ => a
  | n + 1, a, b =>
    if a = b then a
    else if num b < num a then
      match idom[a]?.join with
      | some a' => intersect num idom n a' b
      | none => a
    else
      match idom[b]?.join with
      | some b' => intersect num idom n a b'
      | none => a

/-- The new immediate dominator of `b`: the processed predecessors intersected, in order. -/
def newIdom (g : List Block) (rpo : List ℕ) (idom : List (Option ℕ)) (b : ℕ) : Option ℕ :=
  (predOf g b).foldl (fun ni p ↦
    if p ∉ rpo ∨ idom[p]?.join = none then ni
    else
      match ni with
      | none => some p
      | some q => some (intersect (fun x ↦ rpo.idxOf x) idom (2 * g.length + 2) p q)) none

/-- One sweep over the blocks, with whether anything changed. -/
def idomSweep (g : List Block) (start : ℕ) (rpo : List ℕ) (idom : List (Option ℕ)) :
    List (Option ℕ) × Bool :=
  rpo.foldl (fun (idom, changed) b ↦
    if b = start then (idom, changed)
    else
      match newIdom g rpo idom b with
      | some d => if idom[b]?.join = some d then (idom, changed) else (idom.set b (some d), true)
      | none => (idom, changed)) (idom, false)

def idomSweeps (g : List Block) (start : ℕ) (rpo : List ℕ) : ℕ → List (Option ℕ) → List (Option ℕ)
  | 0, idom => idom
  | n + 1, idom =>
    match idomSweep g start rpo idom with
    | (idom', true) => idomSweeps g start rpo n idom'
    | (idom', false) => idom'

def computeDominators (g : List Block) (start : ℕ) : List (Option ℕ) :=
  idomSweeps g start (computeRpo g start) (g.length + 4)
    ((List.replicate g.length none).set start (some start))

/-- Block `b` and the blocks met by climbing from it to the root. -/
def idomChain (idom : List (Option ℕ)) : ℕ → ℕ → List ℕ
  | 0, _ => []
  | n + 1, b =>
    b :: match idom[b]?.join with
      | some d => if d = b then [] else idomChain idom n d
      | none => []

def dominates (idom : List (Option ℕ)) (a b : ℕ) : Bool :=
  (idomChain idom (idom.length + 1) b).contains a

/-! ### Loops -/

/-- The latches of `h`, the sources of back edges to `h`, in the order of the blocks. -/
def latchesOf (g : List Block) (idom : List (Option ℕ)) (h : ℕ) : List ℕ :=
  (List.range g.length).filter fun b ↦ h ∈ succOf g b ∧ dominates idom h b

/-- The body so far, with everything that reaches the latch `b` without passing through it. -/
def growBody (g : List Block) (h : ℕ) (body : Finset ℕ) (b : ℕ) : Finset ℕ :=
  let body := insert h body
  if b = h then body
  else Worklist.explore (Finset.range g.length) (predOf g) [b] (insert b body)

/-- One loop for each header, the bodies of its back edges united. -/
def findLoops (g : List Block) (idom : List (Option ℕ)) : List Loop :=
  (List.range g.length).filterMap fun h ↦
    match latchesOf g idom h with
    | [] => none
    | ls => some ⟨h, ls.foldl (growBody g h) ∅, ls.toFinset⟩

def analyse (g : List Block) (start : ℕ) : Analysis :=
  let idom := computeDominators g start
  ⟨idom, findLoops g idom⟩

namespace Loop

/-- The edges that leave the loop, by source block. -/
def exitEdges (g : List Block) (lp : Loop) : List ℕ :=
  (List.range g.length).flatMap fun u ↦
    if u ∈ lp.body then (succOf g u).filter (· ∉ lp.body) else []

/-- The distinct blocks the loop is left to. -/
def exits (g : List Block) (lp : Loop) : Finset ℕ :=
  (lp.exitEdges g).toFinset

/-- The exit is a plain return. -/
def terminal (g : List Block) (s : ℕ) : Bool :=
  match g[s]? with
  | some b => b.ends == .ret && !b.isSwitch
  | none => false

/-- The first exit edge of a two-way header. -/
def headerExit (g : List Block) (lp : Loop) : Option ℕ :=
  match g[lp.header]? with
  | some b => if b.ends = .jcc then b.succ.find? (· ∉ lp.body) else none
  | none => none

/-- The first of the candidates with the most exit edges. -/
def mostCommon (es : List ℕ) (cands : List ℕ) : Option ℕ :=
  cands.foldl (fun best s ↦
    match best with
    | none => some s
    | some t => if es.count t < es.count s then some s else best) none

/-- The block the loop continues to: the header's own exit unless it just returns, else the
most common exit that does not, else the header's, else the most common one. -/
def follow (g : List Block) (lp : Loop) : Option ℕ :=
  let es := lp.exitEdges g
  let keys := (List.range g.length).filter (· ∈ es)
  match (lp.headerExit g).filter (!terminal g ·) with
  | some s => some s
  | none =>
    mostCommon es (keys.filter (!terminal g ·)) <|> lp.headerExit g <|> mostCommon es keys

end Loop

end Ldu
