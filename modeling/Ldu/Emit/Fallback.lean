import Ldu.Semantics.Flow

/-!
# The fallback emitters

When structured emission fails, the function is printed block by block: as labelled blocks
joined by `goto` (`emitGotoCfg`), or as a loop around a switch over `__state`
(`emitStateMachine`). Both print the blocks in the order of their addresses, an order that the
sort leaves open for equal addresses, so it is an argument here.

The text is kept as a list of lines (cases of the state machine) that hold the statements and
expressions they print. `textMachine` and `stateMachine` run it with the meaning of C.
-/

namespace Ldu

/-! ### Printing the statements of a block -/

/-- Library functions that are taken not to return. -/
def noreturnNames : List String :=
  ["__fastfail", "ExitProcess", "ExitThread", "FreeLibraryAndExitThread",
    "RaiseFailFastException", "abort", "exit", "_exit", "_Exit", "quick_exit", "longjmp",
    "_invoke_watson", "RtlRaiseStatus", "TerminateProcess"]

/-- The statement is taken not to return; `sig` says so of further functions of the program. -/
def stmtCallsNoreturn (sig : String → Bool) : Stmt → Bool
  | .call (.call _ callee _ _ _) | .call (.callVia _ callee _ _ _ _) =>
    callee ∈ noreturnNames || sig callee
  | _ => false

section Render

variable (sig : String → Bool) (suppressed : Finset (ℕ × ℕ))

/-- The statements of block `id` that are printed, from the `i`-th on: those not suppressed, up
to the first call that is taken not to return. -/
def printed (id : ℕ) : ℕ → List Stmt → List Stmt
  | _, [] => []
  | i, st :: sts =>
    if (id, i) ∈ suppressed then printed id (i + 1) sts
    else if stmtCallsNoreturn sig st then [st]
    else st :: printed id (i + 1) sts

/-- `render_stmts_into`. -/
def renderStmts (g : List Block) (id : ℕ) : List Stmt :=
  printed sig suppressed id 0 ((g[id]?.getD {}).stmts)

/-- The cache of rendered blocks, by block and indentation. It outlives the structured attempts,
during which neither the blocks nor the suppressed statements change. -/
structure StmtCache (render : ℕ → List Stmt) where
  entries : List ((ℕ × ℕ) × List Stmt) := []
  sound : ∀ e ∈ entries, e.2 = render e.1.1 := by simp

/-- `emit_stmts`: look the block up, or render and remember it. -/
def emitStmts {render : ℕ → List Stmt} (c : StmtCache render) (id level : ℕ) :
    List Stmt × StmtCache render :=
  match c.entries.lookup (id, level) with
  | some text => (text, c)
  | none =>
    (render id, ⟨((id, level), render id) :: c.entries, List.forall_mem_cons.2 ⟨rfl, c.sound⟩⟩)

end Render

/-! ### Labelled blocks -/

/-- A line of text. -/
inductive Line
  | label (l : String)
  | stmt (st : Stmt)
  | ret (r : RetText)
  | branch (c : Expr) (l : String)
  | goto (l : String)
  | switch (sel : Expr) (cases : List (ℕ × String))

/-- The label of a block is made from its address. -/
def blockLabel (g : List Block) (id : ℕ) : String :=
  "L_" ++ String.ofList (Nat.toDigits 16 (addrOf g id))

/-- The cases of a switch that have a successor. -/
def liveCases (b : Block) : List (ℕ × ℕ) :=
  b.caseSucc.zipIdx.filterMap fun (t, i) ↦ t.map (i, ·)

section GotoCfg

variable (usedReturn : Bool) (g : List Block)

/-- Go to `t`, by falling through when it is printed next; `otherwise` when there is no `t`. -/
def continueAt (nxt t : Option ℕ) (otherwise : List Line) : List Line :=
  match t with
  | some t => if nxt = some t then [] else [.goto (blockLabel g t)]
  | none => otherwise

/-- The terminator of a block before which block `nxt` is printed next. -/
def exitLines (nxt : Option ℕ) (b : Block) : List Line :=
  match b.ends, b.isSwitch with
  | .ret, _ => [.ret (b.retText usedReturn)]
  | _, true =>
    .switch b.selExpr ((liveCases b).map fun (i, t) ↦ (i, blockLabel g t)) ::
      (b.defaultSucc.toList.map fun t ↦ .goto (blockLabel g t))
  | .jcc, false =>
    (b.taken.toList.map fun t ↦ .branch b.condExpr (blockLabel g t)) ++
      continueAt g nxt b.fall []
  | .jmp, false => continueAt g nxt b.taken [.ret (b.retText usedReturn)]
  | .fall, false => continueAt g nxt b.fall [.ret (b.retText usedReturn)]

/-- `emit_goto_cfg`, for the blocks in the given order. -/
def emitGotoCfg {render : ℕ → List Stmt} : StmtCache render → List ℕ → List Line
  | _, [] => []
  | c, id :: ids =>
    let (sts, c) := emitStmts c id 1
    .label (blockLabel g id) :: (sts.map .stmt ++
      (exitLines usedReturn g ids.head? (g[id]?.getD {}) ++ emitGotoCfg c ids))

/-- `dedupe_label_defs`: of several definitions of a label the first is kept; `seen` are the
labels defined so far. -/
def dedupeLabelDefs : List String → List Line → List Line
  | _, [] => []
  | seen, .label l :: ls =>
    if l ∈ seen then dedupeLabelDefs (l :: seen) ls
    else .label l :: dedupeLabelDefs (l :: seen) ls
  | seen, x :: ls => x :: dedupeLabelDefs seen ls

end GotoCfg

/-! ### The state machine -/

/-- How a case of the state machine ends. -/
inductive CaseExit
  | ret (r : RetText)
  | switch (sel : Expr) (cases : List (ℕ × ℕ)) (default : Option ℕ)
  | cond (c : Expr) (t f : ℕ)
  | goto (t : ℕ)

/-- A case of the switch over `__state`. -/
structure StateCase where
  state : ℕ
  stmts : List Stmt
  exit : CaseExit

section StateMachine

variable (usedReturn : Bool) (g : List Block)

/-- The terminator of a block in the state machine. -/
def caseExit (b : Block) : CaseExit :=
  let orRet : Option ℕ → CaseExit
    | some t => .goto t
    | none => .ret (b.retText usedReturn)
  match b.ends, b.isSwitch, b.switchVar with
  | .ret, _, _ => .ret (b.retText usedReturn)
  | _, true, some sel => .switch sel (liveCases b) b.defaultSucc
  | .jcc, _, _ =>
    match b.taken, b.fall with
    | some t, some f => .cond b.condExpr t f
    | _, _ => orRet b.fall
  | .jmp, _, _ => orRet b.taken
  | .fall, _, _ => orRet b.fall

/-- `emit_state_machine`, for the blocks in the given order; `merged` blocks get no case. -/
def emitStateMachine {render : ℕ → List Stmt} (merged : Finset ℕ) :
    StmtCache render → List ℕ → List StateCase
  | _, [] => []
  | c, id :: ids =>
    if id ∈ merged then emitStateMachine merged c ids
    else
      let (sts, c) := emitStmts c id 4
      ⟨id, sts, caseExit usedReturn (g[id]?.getD {})⟩ :: emitStateMachine merged c ids

end StateMachine

/-! ### Running the text -/

section Run

variable {σ E R : Type*} (I : Interp σ E R)

/-- The text behind the definition of a label. -/
def afterLabel (l : String) : List Line → Option (List Line)
  | [] => none
  | .label l' :: ls => if l' = l then some ls else afterLabel l ls
  | _ :: ls => afterLabel l ls

/-- Labelled text: a state is the text still ahead. Running off the end, and a `goto` to a label
that is not defined, end in `none`. -/
def textMachine (prog : List Line) : Machine (List Line × σ) E (Option R) where
  step := fun (text, s) ↦
    let goto (l : String) (s : σ) : (List Line × σ) ⊕ Option R :=
      match afterLabel l prog with
      | some text => .inl (text, s)
      | none => .inr none
    match text with
    | [] => ([], .inr none)
    | .label _ :: rest => ([], .inl (rest, s))
    | .stmt st :: rest =>
      match I.exec st s with
      | (es, .inl s) => (es, .inl (rest, s))
      | (es, .inr r) => (es, .inr (some r))
    | .ret r :: _ => ((I.leave r s).1, .inr (some (I.leave r s).2))
    | .branch c l :: rest =>
      let r := I.test c s
      (r.1, if r.2.1 then goto l r.2.2 else .inl (rest, r.2.2))
    | .goto l :: _ => ([], goto l s)
    | .switch sel cases :: rest =>
      let r := I.select sel s
      (r.1, match cases.find? (fun c ↦ (c.1 : ℤ) = r.2.1) with
        | some c => goto c.2 r.2.2
        | none => .inl (rest, r.2.2))

/-- The end of the case of state `id`. An inner switch that selects nothing leaves `__state` as
it is. -/
def runCaseExit (id : ℕ) (exit : CaseExit) (s : σ) : List E × ((ℕ × σ) ⊕ Option R) :=
  match exit with
  | .ret r => ((I.leave r s).1, .inr (some (I.leave r s).2))
  | .switch sel cases default =>
    let r := I.select sel s
    let t := ((cases.find? fun c ↦ (c.1 : ℤ) = r.2.1).map (·.2)) <|> default
    (r.1, .inl (t.getD id, r.2.2))
  | .cond c t f =>
    let r := I.test c s
    (r.1, .inl (if r.2.1 then t else f, r.2.2))
  | .goto t => ([], .inl (t, s))

/-- One turn of the loop around the switch: the statements of the case, then the new state. A
`__state` without a case stays as it is. -/
def stateMachine (cases : List StateCase) : Machine (ℕ × σ) E (Option R) where
  step := fun (id, s) ↦
    match cases.find? (·.state = id) with
    | none => ([], .inl (id, s))
    | some c =>
      match I.execAll c.stmts s with
      | (es, .inr r) => (es, .inr (some r))
      | (es, .inl s) => emit es (runCaseExit I id c.exit s)

end Run

end Ldu
