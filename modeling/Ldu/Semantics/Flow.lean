import Ldu.Semantics.Machine
import Ldu.Ir.Block

/-!
# Control flow over an abstract interpretation

What a block graph does, with the meaning of statements and expressions left open. An
`Interp` says what a statement, a condition, a selector and a returned expression do to a
state `σ`, which events they emit, and which result a run ends with. Any sequence of outcomes
is an instance: let the state hold the outcomes still to come.

`graphMachine` runs a block graph. A block runs its statements and then its terminator; the
terminator kinds are tried in the order in which every emitter tries them. A successor that is
missing leaves the function through the block's return text. Control that reaches a block that
is not there, or that has been merged away, ends in the result `none`.
-/

namespace Ldu

/-- The text a block that leaves the function ends with, `ret_text`. -/
inductive RetText
  | tailVoid (call : Expr)
  | tailValue (call : Expr)
  | void
  | value (e : Option Expr)
  | zero
  deriving Repr

/-- `usedReturn` says whether the function returns a value. -/
def Block.retText (usedReturn : Bool) (b : Block) : RetText :=
  match b.tailCall with
  | some e => if usedReturn then .tailValue e else .tailVoid e
  | none => if !usedReturn then .void else if b.hasRetValue then .value b.retValue else .zero

/-- A meaning for statements, conditions, selectors and returns. -/
structure Interp (σ E R : Type*) where
  /-- A statement continues or, when it does not return, ends the run. -/
  exec : Stmt → σ → List E × (σ ⊕ R)
  test : Expr → σ → List E × Bool × σ
  select : Expr → σ → List E × ℤ × σ
  leave : RetText → σ → List E × R

/-- Events emitted before the rest of a step. -/
def emit {E X : Type*} (es : List E) (x : List E × X) : List E × X :=
  (es ++ x.1, x.2)

@[simp] theorem emit_nil {E X : Type*} (x : List E × X) : emit [] x = x := rfl

@[simp] theorem emit_emit {E X : Type*} (es es' : List E) (x : List E × X) :
    emit es (emit es' x) = emit (es ++ es') x := by
  simp [emit]

namespace Interp

variable {σ E R : Type*} (I : Interp σ E R)

/-- The statements of a block, in order. -/
def execAll : List Stmt → σ → List E × (σ ⊕ R)
  | [], s => ([], .inl s)
  | st :: sts, s =>
    match I.exec st s with
    | (es, .inl s') => emit es (execAll sts s')
    | (es, .inr r) => (es, .inr r)

/-- The condition `a || b`, evaluated left to right. -/
def testOr (t₁ t₂ : σ → List E × Bool × σ) (s : σ) : List E × Bool × σ :=
  match t₁ s with
  | (es, true, s') => (es, true, s')
  | (es, false, s') => emit es (t₂ s')

/-- The opposite outcome of a condition. -/
def testNot (t : σ → List E × Bool × σ) (s : σ) : List E × Bool × σ :=
  ((t s).1, !(t s).2.1, (t s).2.2)

/-- The same meaning, of which only the events that `f` shows are seen. -/
def observe {E' : Type*} (f : E → Option E') : Interp σ E' R where
  exec st s := ((I.exec st s).1.filterMap f, (I.exec st s).2)
  test c s := ((I.test c s).1.filterMap f, (I.test c s).2)
  select e s := ((I.select e s).1.filterMap f, (I.select e s).2)
  leave rt s := ((I.leave rt s).1.filterMap f, (I.leave rt s).2)

end Interp

/-- What a statement, a condition, a selector or a returned text did. -/
inductive Deed (σ E R : Type*)
  | exec (out : List E × (σ ⊕ R))
  | test (out : List E × Bool × σ)
  | select (out : List E × ℤ × σ)
  | leave (out : List E × R)

/-- The same meaning, of which everything is seen. -/
def Interp.recorded {σ E R : Type*} (I : Interp σ E R) : Interp σ (Deed σ E R) R where
  exec st s := ([.exec (I.exec st s)], (I.exec st s).2)
  test c s := ([.test (I.test c s)], (I.test c s).2)
  select e s := ([.select (I.select e s)], (I.select e s).2)
  leave rt s := ([.leave (I.leave rt s)], (I.leave rt s).2)

/-- Where a step leads: a block to continue at, or the end of the run. -/
abbrev Next (σ R : Type*) := (ℕ × σ) ⊕ Option R

section Machine

variable {σ E R : Type*} (I : Interp σ E R) (usedReturn : Bool)

/-- Control leaves the function by block `b`. -/
def leaveBy (b : Block) (s : σ) : List E × Next σ R :=
  ((I.leave (b.retText usedReturn) s).1, .inr (some (I.leave (b.retText usedReturn) s).2))

/-- Control goes to `t`, and leaves the function when there is no such successor. -/
def goTo (b : Block) (t : Option ℕ) (s : σ) : List E × Next σ R :=
  match t with
  | some t => ([], .inl (t, s))
  | none => leaveBy I usedReturn b s

/-- The successor a switch selects: a case without a successor goes to the default. -/
def Block.caseTarget (b : Block) (k : ℤ) : Option ℕ :=
  (if 0 ≤ k then b.caseSucc[k.toNat]?.join else none) <|> b.defaultSucc

/-- The condition of a two-way block. -/
def Block.condExpr (b : Block) : Expr :=
  b.cond.getD (.mkConst 1 4)

/-- The selector of a switch block. -/
def Block.selExpr (b : Block) : Expr :=
  b.switchVar.getD (.mkConst 0 4)

/-- The terminator of a block. -/
def transfer (b : Block) (s : σ) : List E × Next σ R :=
  match b.ends, b.isSwitch with
  | .ret, _ => leaveBy I usedReturn b s
  | _, true =>
    let r := I.select b.selExpr s
    emit r.1 (goTo I usedReturn b (b.caseTarget r.2.1) r.2.2)
  | .jcc, false =>
    let r := I.test b.condExpr s
    emit r.1 (goTo I usedReturn b (if r.2.1 then b.taken else b.fall) r.2.2)
  | .jmp, false => goTo I usedReturn b b.taken s
  | .fall, false => goTo I usedReturn b b.fall s

/-- A block: its statements, then its terminator. -/
def runBlock (b : Block) (s : σ) : List E × Next σ R :=
  match I.execAll b.stmts s with
  | (es, .inl s') => emit es (transfer I usedReturn b s')
  | (es, .inr r) => (es, .inr (some r))

/-- The machine of a block graph in which the blocks `merged` are gone. -/
def graphMachine (merged : Finset ℕ) (g : List Block) : Machine (ℕ × σ) E (Option R) where
  step := fun (id, s) ↦
    if id ∈ merged then ([], .inr none) else
      match g[id]? with
      | some b => runBlock I usedReturn b s
      | none => ([], .inr none)

variable {I usedReturn}

/-- What the first statements return, the others do not change. -/
theorem Interp.execAll_append_of_inr {sts : List Stmt} {s : σ} {es : List E} {r : R}
    (h : I.execAll sts s = (es, .inr r)) (rest : List Stmt) :
    I.execAll (sts ++ rest) s = (es, .inr r) := by
  induction sts generalizing s es with
  | nil => exact absurd (Prod.mk.inj h).2 (by simp)
  | cons st sts ih =>
    rw [execAll] at h
    rw [List.cons_append, execAll]
    rcases hst : I.exec st s with ⟨es₁, s₁ | r₁⟩
    · rw [hst] at h
      obtain ⟨rfl, hr⟩ := Prod.mk.inj h
      exact congrArg (emit es₁) (ih (Prod.ext rfl hr))
    · rw [hst] at h
      exact h

/-- Where the first statements come to their end, the others go on from there. -/
theorem Interp.execAll_append_of_inl {sts : List Stmt} {s s' : σ} {es : List E}
    (h : I.execAll sts s = (es, .inl s')) (rest : List Stmt) :
    I.execAll (sts ++ rest) s = emit es (I.execAll rest s') := by
  induction sts generalizing s es with
  | nil =>
    obtain ⟨rfl, hs⟩ := Prod.mk.inj h
    obtain rfl := Sum.inl.inj hs
    rfl
  | cons st sts ih =>
    rw [execAll] at h
    rw [List.cons_append, execAll]
    rcases hst : I.exec st s with ⟨es₁, s₁ | r⟩
    · rw [hst] at h
      obtain ⟨rfl, hs⟩ := Prod.mk.inj h
      dsimp only
      rw [ih (Prod.ext rfl hs), emit_emit]
    · rw [hst] at h
      cases (Prod.mk.inj h).2

theorem runBlock_of_inl {b : Block} {s s' : σ} {es : List E}
    (h : I.execAll b.stmts s = (es, .inl s')) :
    runBlock I usedReturn b s = emit es (transfer I usedReturn b s') := by
  rw [runBlock, h]

theorem runBlock_of_inr {b : Block} {s : σ} {es : List E} {r : R}
    (h : I.execAll b.stmts s = (es, .inr r)) :
    runBlock I usedReturn b s = (es, .inr (some r)) := by
  rw [runBlock, h]

theorem graphMachine_step (I : Interp σ E R) (usedReturn : Bool) {merged : Finset ℕ}
    {g : List Block} {id : ℕ} {b : Block} (hid : id ∉ merged) (hb : g[id]? = some b) (s : σ) :
    (graphMachine I usedReturn merged g).step (id, s) = runBlock I usedReturn b s := by
  simp [graphMachine, hid, hb]

/-- Control that goes on goes to the named successor. -/
theorem eq_of_goTo {b : Block} {t : Option ℕ} {s s' : σ} {es : List E} {id : ℕ}
    (h : goTo I usedReturn b t s = (es, .inl (id, s'))) : t = some id := by
  unfold goTo leaveBy at h
  split at h
  · simp only [Prod.mk.injEq, Sum.inl.injEq] at h
    rw [h.2.1]
  · simp at h

theorem caseTarget_mem {b : Block} {k : ℤ} {t : ℕ} (hsw : b.isSwitch = true)
    (h : b.caseTarget k = some t) : t ∈ b.targets := by
  simp only [Block.targets, hsw, if_true, List.mem_append, List.reduceOption_mem_iff,
    Option.mem_toList]
  rcases (Option.orElse_eq_some _ _ _).1 h with h | ⟨-, h⟩
  · left
    split at h
    · exact List.mem_of_getElem? (Option.join_eq_some_iff.1 h)
    · exact absurd h (by simp)
  · exact .inr h

/-- A terminator that goes on goes to one of the block's targets. -/
theorem mem_targets_of_transfer {b : Block} {s s' : σ} {es : List E} {id : ℕ}
    (h : transfer I usedReturn b s = (es, .inl (id, s'))) : id ∈ b.targets := by
  have hstep : ∀ {e : List E} {t : Option ℕ} {s₀ : σ},
      emit e (goTo I usedReturn b t s₀) = (es, .inl (id, s')) → t = some id := by
    intro e t s₀ h
    exact eq_of_goTo (Prod.ext rfl (Prod.mk.inj h).2)
  unfold transfer at h
  split at h
  · simp [leaveBy] at h
  · next hsw _ => exact caseTarget_mem hsw (hstep h)
  · next hsw =>
    have ht := hstep h
    simp only [Block.targets, hsw, Bool.false_eq_true, if_false, List.mem_append,
      Option.mem_toList]
    split at ht
    · exact .inl ht
    · exact .inr ht
  · next hsw =>
    have ht := hstep (e := []) h
    simp [Block.targets, hsw, ht]
  · next hsw =>
    have ht := hstep (e := []) h
    simp [Block.targets, hsw, ht]

theorem mem_targets_of_runBlock {b : Block} {s s' : σ} {es : List E} {id : ℕ}
    (h : runBlock I usedReturn b s = (es, .inl (id, s'))) : id ∈ b.targets := by
  unfold runBlock at h
  split at h
  · next es₁ s₁ _ =>
    have h' : transfer I usedReturn b s₁ = ((transfer I usedReturn b s₁).1, .inl (id, s')) :=
      Prod.ext rfl (Prod.mk.inj h).2
    exact mem_targets_of_transfer h'
  · simp at h

end Machine

/-! ### Sequences of outcomes -/

/-- Conditions take the outcomes in the list, then fail. The events are the variables assigned
and the functions called. -/
def outcomes : Interp (List Bool) String Unit where
  exec st s :=
    match st with
    | .assign (.var _ name) _ => ([name], .inl s)
    | .call (.call _ callee _ _ _) => ([callee], .inl s)
    | _ => ([], .inl s)
  test _ s := ([], s.headD false, s.tail)
  select _ s := ([], 0, s)
  leave _ _ := ([], ())

end Ldu
