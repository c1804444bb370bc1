import Ldu.Semantics.Subst
import Ldu.Vars.Agree

/-!
# Operands of statements and terminators

The expressions that a statement or a terminator evaluates, in order, and the stores they are
evaluated in (`World.StmtEvals`, `World.TermEvals`). A statement or terminator whose operands are
replaced by expressions with the same effect does the same (`World.execStmt_substAt`,
`World.transfer_substAt`).
-/

namespace Ldu

/-! ### Statements and terminators with their operands replaced -/

namespace Stmt

/-- The statement assigns to a variable or to a memory cell, if it assigns. -/
def placed : Stmt → Bool
  | assign lhs _ => lhs.isPlace
  | _ => true

theorem defOf_of_not_place {lhs rhs : Expr} {n : String} (h : lhs.isPlace = false) :
    (assign lhs rhs).defOf n = none := by
  cases lhs <;> first | rfl | cases h

/-- The expressions a statement evaluates, in order. -/
def operands : Stmt → List Expr
  | assign (.var _ _) rhs => [rhs]
  | assign (.mem _ a) rhs => [a, rhs]
  | assign lhs rhs => [lhs, rhs]
  | call rhs => [rhs]
  | comment _ => []

/-- The statement makes no impure call and no store, and assigns to no variable in memory. -/
def leavesMem (taken : String → Bool) : Stmt → Bool
  | assign (.var _ x) rhs => !rhs.hasImpureCall && !taken x
  | assign (.mem _ _) _ => false
  | assign lhs rhs => !lhs.hasImpureCall && !rhs.hasImpureCall
  | call rhs => !rhs.hasImpureCall
  | comment _ => true

/-- The statement changes nothing the expression `r` depends on. -/
structure Spares (taken : String → Bool) (r : Expr) (st : Stmt) : Prop where
  inputs : ∀ n, r.readsNamedVar n = true → st.assigns n = false
  mem : r.memFree taken = true ∨ st.leavesMem taken = true

/-- How often the passes count a read of `n`: `count_var_reads` of the right side and
`count_lhs_addr_reads` of the left side. -/
def countReads (n : String) : Stmt → ℕ
  | assign (.mem _ a) rhs => rhs.countVarReads n + a.countVarReads n
  | assign _ rhs => rhs.countVarReads n
  | call rhs => rhs.countVarReads n
  | comment _ => 0

theorem countReads_eq_zero_iff {st : Stmt} {n : String} (h : st.placed = true) :
    st.countReads n = 0 ↔ st.reads n = false := by
  cases st with
  | assign lhs rhs =>
    cases lhs with
    | var ty x => exact Expr.anyNode_eq_false_iff.symm
    | mem ty a =>
      have hlhs : (Expr.mem ty a).countVarReads n = a.countVarReads n := by
        simp [Expr.countVarReads, Expr.countNodes_eq (e := .mem ty a), Expr.isVarNamed,
          Expr.children]
      simp only [countReads, reads, exprs, List.any_cons, List.any_nil, Bool.or_false,
        Bool.or_eq_false_iff, Nat.add_eq_zero_iff, Expr.readsNamedVar, Expr.anyNode_eq_false_iff]
      rw [← Expr.countVarReads, hlhs]
      exact and_comm
    | _ => cases h
  | call rhs => simp [countReads, reads, exprs, Expr.countVarReads, Expr.readsNamedVar,
      Expr.anyNode_eq_false_iff]
  | comment => simp [countReads, reads, exprs]

end Stmt

namespace Block

/-- The block with the expressions of its terminator replaced. -/
def mapTerm (f : Expr → Expr) (b : Block) : Block :=
  { b.mapExprs f with stmts := b.stmts }

/-- The expressions a terminator may evaluate, in order. -/
def operands (usedReturn : Bool) (b : Block) : List Expr :=
  match b.ends, b.isSwitch with
  | .ret, _ => (b.retText usedReturn).exprs
  | _, true => b.selExpr :: (b.retText usedReturn).exprs
  | .jcc, false => b.condExpr :: (b.retText usedReturn).exprs
  | .jmp, false | .fall, false => (b.retText usedReturn).exprs

/-- How often the passes count a read of `n` in the terminator; the copy of the returned value
counts. -/
def countTermReads (n : String) (b : Block) : ℕ :=
  (b.termExprs.map (·.countVarReads n)).sum

theorem termReads_eq_false {b : Block} {n : String} (h : b.countTermReads n = 0) :
    b.termReads n = false := by
  rw [countTermReads, List.sum_eq_zero_iff] at h
  unfold termReads
  rw [List.any_eq_false]
  intro e he
  have hmem : e ∈ b.termExprs := by
    unfold termExprs
    simp only [List.mem_append] at he ⊢
    tauto
  rw [Bool.not_eq_true]
  exact Expr.anyNode_eq_false_iff.2 (h _ (List.mem_map.2 ⟨e, hmem, rfl⟩))

end Block

namespace World

variable {M E : Type} (W : World M E)

/-- `P` holds of every expression the statement evaluates, in the store it is evaluated in. -/
def StmtEvals (P : Expr → Store M → Prop) : Stmt → Store M → Prop
  | .assign (.var _ _) rhs, s => P rhs s
  | .assign (.mem _ a) rhs, s => P a s ∧ P rhs (W.eval a s).2.2
  | .assign lhs rhs, s => P lhs s ∧ P rhs (W.eval lhs s).2.2
  | .call rhs, s => P rhs s
  | .comment _, _ => True

/-- `P` holds of every expression the terminator evaluates, in the store it is evaluated in. -/
def TermEvals (P : Expr → Store M → Prop) (usedReturn : Bool) (b : Block) (s : Store M) : Prop :=
  let leaves := fun s ↦ ∀ e ∈ (b.retText usedReturn).exprs, P e s
  match b.ends, b.isSwitch with
  | .ret, _ => leaves s
  | _, true =>
    P b.selExpr s ∧ (b.caseTarget (W.eval b.selExpr s).2.1.toInt = none →
      leaves (W.eval b.selExpr s).2.2)
  | .jcc, false =>
    P b.condExpr s ∧ ((if (W.eval b.condExpr s).2.1 != 0 then b.taken else b.fall) = none →
      leaves (W.eval b.condExpr s).2.2)
  | .jmp, false => b.taken = none → leaves s
  | .fall, false => b.fall = none → leaves s

section Evals

variable {W} {nm : String} {G : M → Prop} {decl : String → Val → Val}

theorem stmtEvals_readsWithin {st : Stmt} {s : Store M}
    (h : st.reads nm = true → Settled G (Expr.lateReadList nm st.operands) s) :
    W.StmtEvals (W.ReadsWithin nm G) st s := by
  have hlist : W.ReadsWithinList nm G st.operands s := by
    refine readsWithinList_of (fun ⟨e, he, hn⟩ ↦ h ?_) fun e _ s he ↦ readsWithin_of he
    cases st with
    | assign lhs rhs =>
      cases lhs with
      | var =>
        rw [Stmt.operands, List.mem_singleton] at he
        exact Stmt.reads_rhs (he ▸ hn)
      | mem ty a =>
        simp only [Stmt.operands, List.mem_cons, List.not_mem_nil, or_false] at he
        rcases he with rfl | rfl
        · exact Stmt.reads_lhs (by simp)
            (Expr.readsNamedVar_of_child (by simp [Expr.children]) nm hn)
        · exact Stmt.reads_rhs hn
      | _ =>
        simp only [Stmt.operands, List.mem_cons, List.not_mem_nil, or_false] at he
        rcases he with rfl | rfl
        · exact Stmt.reads_lhs (by simp) hn
        · exact Stmt.reads_rhs hn
    | call rhs =>
      rw [Stmt.operands, List.mem_singleton] at he
      simpa [Stmt.reads, Stmt.exprs] using he ▸ hn
    | comment => cases he
  cases st with
  | assign lhs rhs =>
    cases lhs with
    | var => exact hlist.1
    | _ => exact ⟨hlist.1, hlist.2.1⟩
  | call rhs => exact hlist.1
  | comment => trivial

theorem retText_reads {usedReturn : Bool} {b : Block} {e : Expr}
    (he : e ∈ (b.retText usedReturn).exprs) {n : String} (hn : e.readsNamedVar n = true) :
    b.termReads n = true := by
  have hmem : e ∈ b.retValue.toList ++ b.tailCall.toList := by
    unfold Block.retText at he
    cases htc : b.tailCall with
    | some c =>
      rw [htc] at he
      cases usedReturn <;> simp_all [RetText.exprs]
    | none =>
      rw [htc] at he
      cases usedReturn <;> cases hr : b.hasRetValue <;> simp_all [RetText.exprs]
  unfold Block.termReads
  rw [List.any_eq_true]
  exact ⟨e, by simp only [List.mem_append] at hmem ⊢; tauto, hn⟩

theorem mem_operands_reads {usedReturn : Bool} {b : Block} {e : Expr}
    (he : e ∈ b.operands usedReturn) {n : String} (hn : e.readsNamedVar n = true) :
    b.termReads n = true := by
  unfold Block.operands at he
  split at he
  · exact retText_reads he hn
  · rcases List.mem_cons.1 he with rfl | he
    · exact selExpr_reads hn
    · exact retText_reads he hn
  · rcases List.mem_cons.1 he with rfl | he
    · exact condExpr_reads hn
    · exact retText_reads he hn
  · exact retText_reads he hn
  · exact retText_reads he hn

theorem lateRead_of_mem {es : List Expr} {e : Expr} (he : e ∈ es)
    (h : Expr.lateReadList nm es = false) : e.lateRead nm = false := by
  induction es with
  | nil => cases he
  | cons c es ih =>
    simp only [Expr.lateReadList, Bool.or_eq_false_iff] at h
    rcases List.mem_cons.1 he with rfl | he
    · exact h.1.1
    · exact ih he h.1.2

/-- What is read after the operand `c`. -/
theorem Settled.after {c e : Expr} {es : List Expr} {s : Store M}
    (h : Settled G (Expr.lateReadList nm (c :: es)) s) (he : e ∈ es)
    (hn : e.readsNamedVar nm = true) : Settled G (e.lateRead nm) (W.eval c s).2.2 := by
  refine h.imp_right fun ⟨hlate, hs⟩ ↦ ?_
  simp only [Expr.lateReadList, Bool.or_eq_false_iff, Bool.and_eq_false_iff] at hlate
  have hany : es.any (·.readsNamedVar nm) = true := List.any_eq_true.2 ⟨e, he, hn⟩
  rw [(W.silent_eval (hlate.2.resolve_right (by rw [hany]; decide)) s).2]
  exact ⟨lateRead_of_mem he hlate.1.2, hs⟩

theorem Settled.of_mem {e : Expr} {es : List Expr} {s : Store M}
    (h : Settled G (Expr.lateReadList nm es) s) (he : e ∈ es) : Settled G (e.lateRead nm) s :=
  h.imp_right fun ⟨hlate, hs⟩ ↦ ⟨lateRead_of_mem he hlate, hs⟩

theorem termEvals_readsWithin {usedReturn : Bool} {b : Block} {s : Store M}
    (h : b.termReads nm = true → Settled G (Expr.lateReadList nm (b.operands usedReturn)) s) :
    W.TermEvals (W.ReadsWithin nm G) usedReturn b s := by
  have hfirst : ∀ e ∈ b.operands usedReturn, W.ReadsWithin nm G e s := fun e he ↦
    readsWithin_of fun hn ↦ (h (mem_operands_reads he hn)).of_mem he
  have hafter : ∀ c, b.operands usedReturn = c :: (b.retText usedReturn).exprs →
      ∀ e ∈ (b.retText usedReturn).exprs, W.ReadsWithin nm G e (W.eval c s).2.2 := by
    intro c hc e he
    refine readsWithin_of fun hn ↦ ?_
    have hset := h (retText_reads he hn)
    rw [hc] at hset
    exact hset.after he hn
  unfold TermEvals
  dsimp only
  unfold Block.operands at hfirst hafter
  cases hends : b.ends <;> cases hsw : b.isSwitch <;> simp only [hends, hsw] at hfirst hafter ⊢
  case ret.false | ret.true => exact hfirst
  case fall.true | jmp.true | jcc.true | jcc.false =>
    exact ⟨hfirst _ (by simp), fun _ ↦ hafter _ rfl⟩
  case jmp.false | fall.false => exact fun _ ↦ hfirst

variable {P Q : Expr → Store M → Prop}

/-- Evaluating the operands of a statement changes no variable. -/
theorem StmtEvals.mono {st : Stmt} {s : Store M} (h : W.StmtEvals P st s)
    (hPQ : ∀ e ∈ st.operands, ∀ s', s'.vars = s.vars → P e s' → Q e s') : W.StmtEvals Q st s := by
  cases st with
  | assign lhs rhs =>
    cases lhs with
    | var => exact hPQ _ (by simp [Stmt.operands]) _ rfl h
    | _ =>
      exact ⟨hPQ _ (by simp [Stmt.operands]) _ rfl h.1,
        hPQ _ (by simp [Stmt.operands]) _ (W.eval_vars _ _) h.2⟩
  | call => exact hPQ _ (by simp [Stmt.operands]) _ rfl h
  | comment => trivial

theorem TermEvals.mono {usedReturn : Bool} {b : Block} {s : Store M}
    (h : W.TermEvals P usedReturn b s)
    (hPQ : ∀ e ∈ b.operands usedReturn, ∀ s', s'.vars = s.vars → P e s' → Q e s') :
    W.TermEvals Q usedReturn b s := by
  unfold TermEvals at h ⊢
  unfold Block.operands at hPQ
  dsimp only at h ⊢
  cases hends : b.ends <;> cases hsw : b.isSwitch <;> simp only [hends, hsw] at h hPQ ⊢
  case ret.false | ret.true => exact fun e he ↦ hPQ e he s rfl (h e he)
  case fall.true | jmp.true | jcc.true | jcc.false =>
    exact ⟨hPQ _ (by simp) s rfl h.1, fun hnone e he ↦
      hPQ e (by simp [he]) _ (W.eval_vars _ s) (h.2 hnone e he)⟩
  case jmp.false | fall.false => exact fun hnone e he ↦ hPQ e he s rfl (h hnone e he)

end Evals

/-! ### Statements and terminators under replacement -/

section Replace

variable {W} {decl : String → Val → Val} {f : Expr → Expr} {s t : Store M}

/-- What a computation over stores with other variables shares with the original. -/
def SameStep (u : String → Val) (s : Store M) (x y : List E × Unit × Store M) : Prop :=
  y.1 = x.1 ∧ y.2.2.mem = x.2.2.mem ∧ ∀ n, u n = s.vars n → y.2.2.vars n = x.2.2.vars n

/-- The same value is assigned in the same memory. -/
theorem assign_substAt (decl : String → Val → Val) (k : Target) {rhs rhs' : Expr} {u : String → Val}
    (h : SubstAt (W.eval rhs) (W.eval rhs') s u) :
    SameStep u s ((W.eval rhs >>= W.assign decl k) s)
      ((W.eval rhs' >>= W.assign decl k) ⟨u, s.mem⟩) := by
  unfold SameStep
  rw [Effect.bind_eq h, Effect.bind_apply]
  have hvars := W.eval_vars rhs s
  cases k with
  | var x =>
    simp only [assign, write, true_and]
    split
    · simp only [hvars, true_and]
      exact fun n hn ↦ hn
    · simp only [hvars, true_and]
      intro n hn
      by_cases hnx : n = x
      · simp only [hnx, Function.update_self]
      · simp only [Function.update_of_ne hnx, hn]
  | mem ty p =>
    simp only [assign, hvars, true_and]
    exact fun n hn ↦ hn
  | nowhere =>
    simp only [assign, hvars, true_and]
    exact fun n hn ↦ hn

/-- The target of an assignment whose place has its operands replaced. -/
structure PlaceKept (f : Expr → Expr) (lhs : Expr) : Prop where
  var : ∀ ty x, lhs = .var ty x → f lhs = lhs
  mem : ∀ ty a, lhs = .mem ty a → f lhs = .mem ty (f a)
  other : lhs.isPlace = false → (f lhs).isPlace = false

/-- A statement whose operands are replaced by expressions with the same effect. -/
theorem execStmt_substAt {st : Stmt} (hmem : t.mem = s.mem)
    (hplace : ∀ lhs rhs, st = .assign lhs rhs → PlaceKept f lhs)
    (hev : W.StmtEvals (fun e s ↦ SubstAt (W.eval e) (W.eval (f e)) s t.vars) st s) :
    SameStep t.vars s (W.execStmt decl st s) (W.execStmt decl (st.mapExprs f) t) := by
  obtain ⟨u, m⟩ := t
  obtain rfl : m = s.mem := hmem
  cases st with
  | assign lhs rhs =>
    have hkept := hplace lhs rhs rfl
    obtain ⟨htarget, hrhs⟩ : SubstAt (W.target lhs) (W.target (f lhs)) s u ∧
        SubstAt (W.eval rhs) (W.eval (f rhs)) (W.target lhs s).2.2 u := by
      cases lhs with
      | var ty x =>
        rw [hkept.var ty x rfl]
        exact ⟨substAt_pure _, hev⟩
      | mem ty a =>
        rw [hkept.mem ty a rfl]
        exact ⟨hev.1.map _, hev.2⟩
      | _ =>
        rw [W.target_of_isPlace (e := f _) (hkept.other rfl)]
        exact ⟨hev.1.map _, hev.2⟩
    have hassign := assign_substAt decl (W.target lhs s).2.1 hrhs
    unfold SameStep at hassign ⊢
    rw [Stmt.mapExprs, execStmt, execStmt, Effect.bind_eq htarget,
      Effect.bind_apply (W.target lhs)]
    refine ⟨congrArg ((W.target lhs s).1 ++ ·) hassign.1, hassign.2.1, fun n hn ↦
      hassign.2.2 n ?_⟩
    rw [(W.readsOnly_target lhs).vars_eq]
    exact hn
  | call rhs =>
    have hrhs : SubstAt (W.eval rhs) (W.eval (f rhs)) s u := hev
    unfold SameStep
    rw [Stmt.mapExprs, execStmt, execStmt, Effect.bind_eq hrhs, Effect.bind_apply]
    simp only [Effect.pure_apply, W.eval_vars, true_and]
    exact fun n hn ↦ hn
  | comment => exact ⟨rfl, rfl, fun n hn ↦ hn⟩

theorem leave_substAt {rt : RetText} (hmem : t.mem = s.mem)
    (h : ∀ e ∈ rt.exprs, SubstAt (W.eval e) (W.eval (f e)) s t.vars) :
    (W.interp decl).leave (rt.mapExprs f) t = (W.interp decl).leave rt s := by
  obtain ⟨u, m⟩ := t
  obtain rfl : m = s.mem := hmem
  exact leave_mapExprs fun e he ↦ by rw [show W.eval (f e) ⟨u, s.mem⟩ = _ from h e he]; simp

/-- A terminator whose operands are replaced by expressions with the same effect. -/
theorem transfer_substAt {usedReturn : Bool} {b b' : Block}
    (hb' : b' = { b.mapTerm f with stmts := b'.stmts }) (hmem : t.mem = s.mem)
    (hconst : ∀ ty c, f (.const ty c) = .const ty c)
    (hev : W.TermEvals (fun e s ↦ SubstAt (W.eval e) (W.eval (f e)) s t.vars) usedReturn b s) :
    Lockstep (SameBlock fun s' t' ↦ t'.mem = s'.mem ∧ s'.vars = s.vars ∧ t'.vars = t.vars)
      (transfer (W.interp decl) usedReturn b s) (transfer (W.interp decl) usedReturn b' t) := by
  obtain ⟨u, m⟩ := t
  obtain rfl : m = s.mem := hmem
  have hleave : ∀ s₁ : Store M,
      (∀ e ∈ (b.retText usedReturn).exprs, SubstAt (W.eval e) (W.eval (f e)) s₁ u) →
      (W.interp decl).leave (b'.retText usedReturn) ⟨u, s₁.mem⟩ =
        (W.interp decl).leave (b.retText usedReturn) s₁ := by
    intro s₁ h
    have hret : b'.retText usedReturn = (b.retText usedReturn).mapExprs f := by
      rw [hb', ← retText_mapExprs]
      rfl
    rw [hret]
    exact leave_substAt rfl h
  have hcond : b'.condExpr = f b.condExpr := by
    rw [hb', Block.condExpr, Block.condExpr]
    cases hc : b.cond <;> simp [Block.mapTerm, Block.mapExprs, hc, hconst, Expr.mkConst]
  have hsel : b'.selExpr = f b.selExpr := by
    rw [hb', Block.selExpr, Block.selExpr]
    cases hc : b.switchVar <;> simp [Block.mapTerm, Block.mapExprs, hc, hconst, Expr.mkConst]
  have hshape : b.SameExits b' := by
    rw [hb']
    exact ⟨rfl, rfl, rfl, rfl, rfl, rfl⟩
  unfold TermEvals at hev
  unfold Ldu.transfer
  rw [hshape.ends, hshape.isSwitch]
  dsimp only at hev
  cases hends : b.ends <;> cases hsw : b.isSwitch <;> simp only [hends, hsw] at hev ⊢
  case ret.false | ret.true =>
    unfold leaveBy
    rw [hleave s hev]
    exact lockstep_inr
  case fall.true | jmp.true | jcc.true =>
    have heval : W.eval (f b.selExpr) ⟨u, s.mem⟩ = _ := hev.1
    simp only [World.interp, hsel, heval, Block.caseTarget, hshape.caseSucc, hshape.defaultSucc]
    refine Lockstep.emit (lockstep_goTo _ ⟨rfl, W.eval_vars _ s, rfl⟩ fun hnone ↦ ?_) _
    exact hleave _ (hev.2 hnone)
  case jcc.false =>
    have heval : W.eval (f b.condExpr) ⟨u, s.mem⟩ = _ := hev.1
    simp only [World.interp, hcond, heval, hshape.taken, hshape.fall]
    refine Lockstep.emit (lockstep_goTo _ ⟨rfl, W.eval_vars _ s, rfl⟩ fun hnone ↦ ?_) _
    exact hleave _ (hev.2 hnone)
  case jmp.false =>
    rw [hshape.taken]
    exact lockstep_goTo _ ⟨rfl, rfl, rfl⟩ fun hnone ↦ hleave s (hev hnone)
  case fall.false =>
    rw [hshape.fall]
    exact lockstep_goTo _ ⟨rfl, rfl, rfl⟩ fun hnone ↦ hleave s (hev hnone)

end Replace

end World

end Ldu
