import Ldu.Lift.Conditions
import Ldu.Semantics.Lockstep
import Ldu.Semantics.ParallelCopy
import Ldu.Vars.Cse

/-!
# Copies at the end of predecessors

A register that reaches a block with different values from its predecessors is carried in a
temporary; `inject_phis` assigns it at the end of each predecessor. The copies of one predecessor
are meant at once. They are emitted one after the other: first one whose temporary no other copy
still reads; if there is none, the temporary of the first one is saved in a new temporary, and the
others read that. Before a copy the temporary is also saved if the terminator of the block, or of a
block entered from it only, reads it outside the value that is copied.

The values `po` that registers have at the end of a block are a parameter. The changes to the
terminators that follow the copies are not modelled.
-/

namespace Ldu

/-! ### The copies of a predecessor -/

/-- A copy at the end of a predecessor. -/
structure PhiCopy where
  temp : String
  /-- `match`. -/
  matched : Expr
  rhs : Expr
  w : ℕ

/-- A register that needs a temporary in a block. -/
structure PhiNeed where
  blk : ℕ
  reg : ℕ
  lane : ℕ := 0
  temp : String

/-- The value as one of `w` bytes. -/
def Expr.truncate (v : Expr) (w : ℕ) : Expr :=
  if 8 ≤ w || w == 0 then v
  else match v with
  | .const ty c =>
    .mkConst (match w with
      | 4 => (c.setWidth 32).signExtend 64
      | 2 => (c.setWidth 16).signExtend 64
      | _ => (c.setWidth 8).signExtend 64) w ty.isUnsigned
  | v => if v.ty.width == w then v else .mkCast (castStr w false) v w

/-- The copy of `po`, unless `po` is the temporary. -/
def phiCopy (temp : String) (tw : ℕ) (po : Expr) : Option PhiCopy :=
  if po.isVarNamed temp then none else some ⟨temp, po, po.truncate tw, tw⟩

section Needs

variable (g : List Block) (regOut : ℕ → PhiNeed → Option Expr)

/-- The predecessors of the block of a need. -/
def PhiNeed.preds (nd : PhiNeed) : List ℕ :=
  (g[nd.blk]?.map (·.pred)).getD []

/-- The width of the temporary: 8 if a predecessor has a value that is as wide, else 4. -/
def PhiNeed.width (nd : PhiNeed) : ℕ :=
  if 8 ≤ (nd.preds g).foldl (fun w p ↦ ((regOut p nd).map (max w ·.ty.width)).getD w) 4 then 8
  else 4

/-- The copies for one need at the end of block `p`. -/
def PhiNeed.copies (tw : ℕ) (p : ℕ) (nd : PhiNeed) : List PhiCopy :=
  ((nd.preds g).filter (· == p)).filterMap fun p ↦ (regOut p nd).bind (phiCopy nd.temp tw)

end Needs

/-- The values of registers at the end of blocks: `reg_out`, `reg_out_hi` and `reg_out_i`. -/
structure RegOuts where
  lo : ℕ → ℕ → Option Expr
  hi : ℕ → ℕ → Option Expr
  lanes : ℕ → ℕ → ℕ → Option Expr

/-- The needs of a function: `phi_needs`, `phi_needs_hi` and `phi_needs_ilane`. -/
structure PhiNeeds where
  lo : List PhiNeed
  hi : List PhiNeed
  lanes : List PhiNeed

namespace PhiNeeds

variable (g : List Block) (outs : RegOuts) (needs : PhiNeeds)

/-- `per_pred` at block `p`. -/
def perPred (p : ℕ) : List PhiCopy :=
  needs.lo.flatMap (fun nd ↦
    nd.copies g (fun p nd ↦ outs.lo p nd.reg) (nd.width g fun p nd ↦ outs.lo p nd.reg) p) ++
  needs.hi.flatMap (fun nd ↦ nd.copies g (fun p nd ↦ outs.hi p nd.reg) 8 p) ++
  needs.lanes.flatMap (fun nd ↦ nd.copies g (fun p nd ↦ outs.lanes p nd.reg nd.lane) 4 p)

/-- All temporaries. -/
def temps : List String :=
  (needs.lo ++ needs.hi ++ needs.lanes).map (·.temp)

end PhiNeeds

/-! ### Emitting the copies -/

/-- Another copy of the list still reads the temporary of `c`. -/
def PhiCopy.blocked (cps : List PhiCopy) (c : PhiCopy) : Bool :=
  cps.any fun d ↦ d.temp != c.temp && d.rhs.readsNamedVar c.temp

/-- What is emitted at the end of a block. -/
inductive PhiStep
  /-- The temporary of a copy is saved, for the copies that still read it. -/
  | save (sv : String) (c : PhiCopy)
  /-- The temporary of a copy is saved, for terminators. -/
  | snapshot (sv : String) (c : PhiCopy)
  | copy (c : PhiCopy)

namespace PhiStep

def stmt : PhiStep → Stmt
  | save sv c | snapshot sv c => .assign (.mkVar sv c.w) (.mkVar c.temp c.w)
  | copy c => .assign (.mkVar c.temp c.w) c.rhs

/-- The name of the new temporary, if there is one. -/
def fresh : PhiStep → Option String
  | save sv _ | snapshot sv _ => some sv
  | copy _ => none

end PhiStep

/-- The copy reads `sv` in place of `c`'s temporary. -/
def PhiCopy.readSaved (sv : String) (c d : PhiCopy) : PhiCopy :=
  { d with rhs := d.rhs.substNamedVar c.temp (.mkVar sv c.w) }

section Emit

variable (snapNeeded : PhiCopy → Bool)

/-- `n` copies in the order in which they are emitted. -/
def emitCopies : ℕ → List PhiCopy → ℕ → List PhiStep
  | 0, _, _ => []
  | n + 1, cps, seq =>
    let free := cps.findIdx? fun c ↦ !c.blocked cps
    match cps[free.getD 0]? with
    | none => []
    | some c =>
      let rest := cps.eraseIdx (free.getD 0)
      let saves := if free.isNone then [PhiStep.save (tempName (seq + 1)) c] else []
      let rest := if free.isNone then rest.map (c.readSaved (tempName (seq + 1))) else rest
      let seq := seq + saves.length
      let snaps := if snapNeeded c then [PhiStep.snapshot (tempName (seq + 1)) c] else []
      saves ++ snaps ++ .copy c :: emitCopies n rest (seq + snaps.length)

end Emit

/-- `e` reads the temporary outside the value that is copied. -/
def PhiCopy.readOutside (c : PhiCopy) (e : Option Expr) : Bool :=
  e.any fun e ↦ (e.substSubtree c.matched (.mkConst 0 c.w)).readsNamedVar c.temp

/-- A terminator at or after block `p` reads the temporary outside the value that is copied. -/
def snapNeeded (g : List Block) (p : ℕ) (c : PhiCopy) : Bool :=
  (g[p]?.any fun b ↦ c.readOutside b.cond || c.readOutside b.retValue) ||
    g.any fun b ↦ b.pred == [p] && (c.readOutside b.cond || c.readOutside b.retValue)

/-- A run of the injection: the graph, the number of temporaries, and what was emitted where. -/
structure InjectRun where
  graph : List Block
  seq : ℕ
  log : List (ℕ × List PhiStep) := []

/-- Emit the copies of block `p`. -/
def injectStep (copies : ℕ → List PhiCopy) (run : InjectRun) (p : ℕ) : InjectRun :=
  let steps := emitCopies (snapNeeded run.graph p) (copies p).length (copies p) run.seq
  { graph := run.graph.modify p fun b ↦ { b with stmts := b.stmts ++ steps.map PhiStep.stmt }
    seq := run.seq + (steps.filterMap PhiStep.fresh).length
    log := run.log ++ [(p, steps)] }

/-- The copies of every block, the first part of `inject_phis`. -/
def injectPhis (outs : RegOuts) (needs : PhiNeeds) (seq : ℕ) (g : List Block) : InjectRun :=
  (List.range g.length).foldl (injectStep (needs.perPred g outs)) ⟨g, seq, []⟩

end Ldu
