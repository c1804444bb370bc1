import Ldu.Ir.Expr
import Mathlib.Data.List.ReduceOption
import Mathlib.Data.Finset.Insert

/-!
# Statements and basic blocks

The block graph every later pass of the decompiler works on. A block is known by its position
in the block list, which is also its `id`; the entry block is block `0`. An absent successor,
`-1` in the source, is `none`.

The three flags `ends_jmp`, `ends_ret` and `ends_jcc` are never set together, so the way a
block ends is one enumeration; `is_switch` is set besides them, on blocks that end in an
indirect jump. Of the statement kinds only assignments, call statements and comments are ever
built. The live-out register tables of a block belong to the lifting phase and are left out.
-/

namespace Ldu

/-- A statement of a block. -/
inductive Stmt
  | assign (lhs rhs : Expr)
  | call (rhs : Expr)
  | comment (label : String)
  deriving Repr

namespace Stmt

/-- Comments are no statements of the program. -/
def isComment : Stmt → Bool
  | comment _ => true
  | _ => false

/-- The expressions of a statement, the assigned place first. -/
def exprs : Stmt → List Expr
  | assign lhs rhs => [lhs, rhs]
  | call rhs => [rhs]
  | comment _ => []

/-- The statement with each of its expressions replaced. -/
def mapExprs (f : Expr → Expr) : Stmt → Stmt
  | assign lhs rhs => assign (f lhs) (f rhs)
  | call rhs => call (f rhs)
  | comment label => comment label

end Stmt

/-- How a block ends: `ends_jmp`, `ends_ret`, `ends_jcc`, or none of them. -/
inductive Ends
  | fall | jmp | ret | jcc
  deriving DecidableEq, Repr

/-- A basic block. -/
structure Block where
  addr : ℕ := 0
  /-- The block holds machine instructions; it is false for synthetic blocks. -/
  hasInsns : Bool := true
  succ : List ℕ := []
  pred : List ℕ := []
  fall : Option ℕ := none
  taken : Option ℕ := none
  ends : Ends := .fall
  isSwitch : Bool := false
  switchVar : Option Expr := none
  /-- Case index to successor. -/
  caseSucc : List (Option ℕ) := []
  defaultSucc : Option ℕ := none
  isSwitchGuard : Bool := false
  guardSwitchBlk : Option ℕ := none
  stmts : List Stmt := []
  /-- The condition that selects `taken`. -/
  cond : Option Expr := none
  retValue : Option Expr := none
  /-- A copy of the returned value that typing passes look at; it is never printed. -/
  retRaw : Option Expr := none
  hasRetValue : Bool := false
  tailCall : Option Expr := none

namespace Block

/-- The block has no statement besides comments, `block_stmts_empty`. -/
def stmtsEmpty (b : Block) : Bool :=
  b.stmts.all Stmt.isComment

/-- The successors named by the terminator, in the order `rebuild_edges` visits them. -/
def targets (b : Block) : List ℕ :=
  if b.isSwitch then b.caseSucc.reduceOption ++ b.defaultSucc.toList
  else b.taken.toList ++ b.fall.toList

/-- The expressions kept with the terminator. -/
def termExprs (b : Block) : List Expr :=
  b.cond.toList ++ b.switchVar.toList ++ b.retValue.toList ++ b.retRaw.toList ++
    b.tailCall.toList

/-- Every expression of the block. -/
def exprs (b : Block) : List Expr :=
  b.stmts.flatMap Stmt.exprs ++ b.termExprs

/-- The block with each of its expressions replaced. -/
def mapExprs (f : Expr → Expr) (b : Block) : Block :=
  { b with
    stmts := b.stmts.map (·.mapExprs f)
    cond := b.cond.map f
    switchVar := b.switchVar.map f
    retValue := b.retValue.map f
    retRaw := b.retRaw.map f
    tailCall := b.tailCall.map f }

/-- The block with every successor renamed. -/
def mapEdges (f : ℕ → ℕ) (b : Block) : Block :=
  { b with
    taken := b.taken.map f
    fall := b.fall.map f
    defaultSucc := b.defaultSucc.map f
    caseSucc := b.caseSucc.map (·.map f) }

end Block

/-! ### Names of temporaries -/

/-- Some expression of the block reads or writes the variable. -/
def Block.mentions (b : Block) (f : String) : Bool :=
  b.exprs.any (Expr.readsNamedVar · f)

theorem mentions_eq_false {b : Block} {f : String} :
    b.mentions f = false ↔ ∀ e ∈ b.exprs, e.readsNamedVar f = false := by
  simp [Block.mentions]

/-- The name of the `k`-th temporary. -/
def tempName (k : ℕ) : String :=
  "t" ++ toString k

theorem append_toString_injective (p : String) :
    Function.Injective fun k : ℕ ↦ p ++ toString k := by
  intro m n h
  have h : toString m = toString n := (String.append_right_inj p).1 h
  have hdigits : Nat.toDigits 10 m = Nat.toDigits 10 n := by
    simpa using congrArg String.toList h
  rw [← Nat.ofDigitChars_ten_toDigits (n := m), hdigits, Nat.ofDigitChars_ten_toDigits]

theorem tempName_injective : Function.Injective tempName :=
  append_toString_injective "t"

/-- No block mentions a temporary beyond the `seq`-th. -/
def FreshAbove (seq : ℕ) (g : List Block) : Prop :=
  ∀ k, seq < k → ∀ b ∈ g, b.mentions (tempName k) = false

/-- The address of block `b`. -/
def addrOf (g : List Block) (b : ℕ) : ℕ :=
  (g[b]?.map (·.addr)).getD 0

/-! ### Recomputing the edges -/

/-- The successors `rebuild_edges` records for block `b`: its targets that are blocks and have
not been merged away, each once. -/
def edgesOf (size : ℕ) (merged : Finset ℕ) (b : Block) : List ℕ :=
  (b.targets.filter fun s ↦ s < size ∧ s ∉ merged).eraseDups

/-- `succ` of block `id` as `rebuild_edges` leaves it. -/
def newSucc (merged : Finset ℕ) (g : List Block) (id : ℕ) : List ℕ :=
  if id ∈ merged then [] else
    match g[id]? with
    | some b => edgesOf g.length merged b
    | none => []

/-- Recompute `succ` and `pred` from the terminators, skipping merged-away blocks. -/
def rebuildEdges (merged : Finset ℕ) (g : List Block) : List Block :=
  g.mapIdx fun id b ↦
    { b with
      succ := newSucc merged g id
      pred := (List.range g.length).filter fun p ↦ id ∈ newSucc merged g p }

section RebuildEdges

variable {merged : Finset ℕ} {g : List Block} {id s p : ℕ} {b : Block}

theorem mem_edgesOf {size : ℕ} :
    s ∈ edgesOf size merged b ↔ s ∈ b.targets ∧ s < size ∧ s ∉ merged := by
  simp [edgesOf, List.mem_eraseDups]

theorem mem_newSucc :
    s ∈ newSucc merged g p ↔
      p ∉ merged ∧ ∃ b, g[p]? = some b ∧ s ∈ b.targets ∧ s < g.length ∧ s ∉ merged := by
  unfold newSucc
  split
  · next h => simp [h]
  · next h =>
    cases hb : g[p]? with
    | none => simp
    | some b => simp [h, mem_edgesOf]

@[simp] theorem length_rebuildEdges : (rebuildEdges merged g).length = g.length := by
  simp [rebuildEdges]

theorem getElem?_rebuildEdges (id : ℕ) :
    (rebuildEdges merged g)[id]? = g[id]?.map fun b ↦
      { b with
        succ := newSucc merged g id
        pred := (List.range g.length).filter fun p ↦ id ∈ newSucc merged g p } := by
  simp [rebuildEdges, List.getElem?_mapIdx]

end RebuildEdges

end Ldu
