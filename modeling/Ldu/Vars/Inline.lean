import Ldu.Vars.Operands

/-!
# Inlining a definition

The passes that inline temporaries replace reads of a variable `nm` by the right-hand side `r` of
one of its definitions, and drop that definition. Here is what such a rewriting has to keep to be
sound, for one block (`World.Inlined`, `World.InlinedTerm`) and for a function (`inlined_run`):
every statement and terminator either is kept, and then reads the same values as before, or has
`nm` replaced, and then `r` has the value of `nm` each time `nm` is read.
-/

namespace Ldu

theorem exists_of_length_eq {α : Type*} {l l' : List α} {j : ℕ} {a' : α}
    (hlength : l'.length = l.length) (h : l'[j]? = some a') : ∃ a, l[j]? = some a := by
  obtain ⟨hlt, -⟩ := List.getElem?_eq_some_iff.1 h
  exact ⟨_, List.getElem?_eq_getElem (hlength ▸ hlt)⟩

namespace World

variable {M E : Type} (W : World M E)

/-! ### Blocks with a definition inlined -/

section Inlined

variable (decl : String → Val → Val) (nm : String) (r : Expr)

/-- The statements `sts`, run from `s`, against `sts'`, in which the reads of `nm` that a removed
definition `nm = r` feeds are replaced by `r`, run from `t`. A statement that is **kept** reads the
same memory and the same values. One that has `nm` replaced is run in stores that differ in `nm`
alone, and each time it reads `nm` the expression `r` has the value of `nm`. `Q` holds of the stores
at the end. -/
inductive Inlined (Q : Store M → Store M → Prop) :
    List Stmt → List Stmt → Store M → Store M → Prop
  | nil {s t : Store M} (h : Q s t) : Inlined Q [] [] s t
  | kept {st : Stmt} {sts sts' : List Stmt} {s t : Store M}
    (hreads : AgreeOn W (st.reads · = true) s t)
    (hrest : Inlined Q sts sts' (W.execStmt decl st s).2.2 (W.execStmt decl st t).2.2) :
    Inlined Q (st :: sts) (st :: sts') s t
  | replaced {st : Stmt} {sts sts' : List Stmt} {s t : Store M} (hdef : st.defOf nm = none)
    (hstatic : ∀ e ∈ st.exprs, e.suits nm r.ty = true ∧ e.anyNode (Expr.isAddrOf nm) = false)
    (hoff : AgreeOn W (· ≠ nm) s t)
    (hvalue : W.StmtEvals (W.ReadsWithin nm fun m ↦ (W.eval r ⟨t.vars, m⟩).2.1 = s.vars nm) st s)
    (hrest : Inlined Q sts sts' (W.execStmt decl st s).2.2
      (W.execStmt decl (st.mapExprs (·.substVar nm r)) t).2.2) :
    Inlined Q (st :: sts) (st.mapExprs (·.substVar nm r) :: sts') s t
  | removed {ty : Ty} {sts sts' : List Stmt} {s t : Store M}
    (hrest : Inlined Q sts sts' (W.execStmt decl (.assign (.var ty nm) r) s).2.2 t) :
    Inlined Q (.assign (.var ty nm) r :: sts) sts' s t
  | blanked {ty : Ty} {label : String} {sts sts' : List Stmt} {s t : Store M}
    (hrest : Inlined Q sts sts' (W.execStmt decl (.assign (.var ty nm) r) s).2.2 t) :
    Inlined Q (.assign (.var ty nm) r :: sts) (.comment label :: sts') s t

/-- The terminator of `b`, from `s`, against the terminator of `b'`, from `t`: it is kept, and reads
the same values, or has `nm` replaced. -/
inductive InlinedTerm (usedReturn : Bool) (b b' : Block) (s t : Store M) : Prop
  | kept (hb' : b' = { b with stmts := b'.stmts })
    (hreads : AgreeOn W (b.termReads · = true) s t)
  | replaced (hb' : b' = { b.mapTerm (·.substVar nm r) with stmts := b'.stmts })
    (hstatic : ∀ e ∈ b.termExprs, e.suits nm r.ty = true ∧ e.anyNode (Expr.isAddrOf nm) = false)
    (hoff : AgreeOn W (· ≠ nm) s t)
    (hvalue : W.TermEvals (W.ReadsWithin nm fun m ↦ (W.eval r ⟨t.vars, m⟩).2.1 = s.vars nm)
      usedReturn b s)

end Inlined

section InlinedLemmas

variable {W} {decl : String → Val → Val} {nm : String} {r : Expr} {Q : Store M → Store M → Prop}
  {s t : Store M}

theorem substVar_const (nm : String) (r : Expr) (ty : Ty) (c : Val) :
    (Expr.const ty c).substVar nm r = .const ty c := by
  rw [Expr.substVar_eq rfl]
  rfl

theorem placeKept_substVar {lhs e : Expr} (hdef : (Stmt.assign lhs e).defOf nm = none) :
    PlaceKept (·.substVar nm r) lhs := by
  have hvar : Expr.isVarNamed nm lhs = false := by
    rw [Bool.eq_false_iff]
    intro h
    obtain ⟨ty, rfl⟩ := Expr.eq_var_of_isVarNamed h
    simp [Stmt.defOf] at hdef
  refine ⟨fun ty x h ↦ ?_, fun ty a h ↦ ?_, fun h ↦ ?_⟩
  · rw [Expr.substVar_eq hvar, h]
    rfl
  · rw [Expr.substVar_eq hvar, h]
    rfl
  · rw [Expr.substVar_eq hvar]
    cases lhs <;> first | rfl | cases h

/-- Operands are among the expressions of a statement, or their children. -/
theorem static_of_mem_operands {p : Expr → Prop} {st : Stmt} {e : Expr}
    (hp : ∀ a e : Expr, a ∈ e.children → p e → p a) (h : ∀ e ∈ st.exprs, p e)
    (he : e ∈ st.operands) : p e := by
  cases st with
  | assign lhs rhs =>
    have hlhs := h lhs (by simp [Stmt.exprs])
    have hrhs := h rhs (by simp [Stmt.exprs])
    cases lhs with
    | var =>
      rw [Stmt.operands, List.mem_singleton] at he
      exact he ▸ hrhs
    | mem ty a =>
      simp only [Stmt.operands, List.mem_cons, List.not_mem_nil, or_false] at he
      rcases he with rfl | rfl
      · exact hp _ _ (by simp [Expr.children]) hlhs
      · exact hrhs
    | _ =>
      simp only [Stmt.operands, List.mem_cons, List.not_mem_nil, or_false] at he
      rcases he with rfl | rfl
      · exact hlhs
      · exact hrhs
  | call rhs =>
    rw [Stmt.operands, List.mem_singleton] at he
    exact he ▸ h rhs (by simp [Stmt.exprs])
  | comment => cases he

/-- A statement with `nm` replaced. -/
theorem execStmt_substVar (decl : String → Val → Val) {st : Stmt} (halias : W.aliased nm = false)
    (himp : r.hasImpureCall = false) (hdef : st.defOf nm = none)
    (hstatic : ∀ e ∈ st.exprs, e.suits nm r.ty = true ∧ e.anyNode (Expr.isAddrOf nm) = false)
    (hoff : AgreeOn W (· ≠ nm) s t)
    (hvalue : W.StmtEvals (W.ReadsWithin nm fun m ↦ (W.eval r ⟨t.vars, m⟩).2.1 = s.vars nm) st s) :
    SameStep t.vars s (W.execStmt decl st s)
      (W.execStmt decl (st.mapExprs (·.substVar nm r)) t) := by
  refine execStmt_substAt hoff.1 (fun lhs rhs h ↦ placeKept_substVar (r := r) (e := rhs) (h ▸ hdef))
    (hvalue.mono fun e he s' hs' h ↦ ?_)
  obtain ⟨hsuits, haddr⟩ := static_of_mem_operands
    (p := fun e ↦ e.suits nm r.ty = true ∧ e.anyNode (Expr.isAddrOf nm) = false)
    (fun a e ha h ↦ ⟨Expr.suits_child ha h.1, Expr.anyNode_child_eq_false ha h.2⟩) hstatic he
  refine substAt_eval halias himp (fun n hn ↦ ?_) hsuits haddr (by rwa [hs'])
  rw [hs', hoff.2 n (.inr hn)]

/-- The same events, to the stores the statements leave. -/
theorem lockstep_exec_of_events {st st' : Stmt}
    (h : (W.execStmt decl st' t).1 = (W.execStmt decl st s).1) :
    Lockstep (fun s' t' ↦ s' = (W.execStmt decl st s).2.2 ∧ t' = (W.execStmt decl st' t).2.2)
      ((W.interp decl).exec st s) ((W.interp decl).exec st' t) := by
  simp only [interp, h]
  exact lockstep_inl ⟨rfl, rfl⟩

theorem execAll_silent_cons {st : Stmt} {sts : List Stmt} (h : (W.execStmt decl st s).1 = []) :
    (W.interp decl).execAll (st :: sts) s =
      (W.interp decl).execAll sts (W.execStmt decl st s).2.2 := by
  simp only [Interp.execAll, interp, h, List.map_nil, emit_nil]

theorem execStmt_events_eq_nil {ty : Ty} {x : String} {rhs : Expr}
    (himp : rhs.hasImpureCall = false)
    (s : Store M) : (W.execStmt decl (.assign (.var ty x) rhs) s).1 = [] := by
  rw [W.execStmt_var]
  exact (W.silent_eval himp s).1

/-- A statement in stores that agree on what it reads. -/
theorem execStmt_agree (decl : String → Val → Val) {st : Stmt}
    (h : AgreeOn W (st.reads · = true) s t) :
    (W.execStmt decl st t).1 = (W.execStmt decl st s).1 ∧
      AgreeOn W (fun n ↦ st.assigns n = true ∨ t.vars n = s.vars n) (W.execStmt decl st s).2.2
        (W.execStmt decl st t).2.2 := by
  have hbefore : AgreeOn W (fun n ↦ st.reads n = true ∨ (st.assigns n = false ∧
      (st.assigns n = true ∨ t.vars n = s.vars n))) s t := by
    refine ⟨h.1, fun n hn ↦ ?_⟩
    rcases hn with hn | hn | ⟨hno, hyes | hn⟩
    · exact h.2 n (.inl hn)
    · exact h.2 n (.inr hn)
    · rw [hno] at hyes
      cases hyes
    · exact hn
  have hexec : Lockstep _ ((W.interp decl).exec st s) ((W.interp decl).exec st t) := hbefore.exec
  obtain ⟨hev, hst⟩ := hexec
  refine ⟨List.map_injective_iff.2 (fun _ _ ↦ Event.world.inj) hev, ?_⟩
  cases hst
  next hst => exact hst

theorem Inlined.lockstep (halias : W.aliased nm = false) (himp : r.hasImpureCall = false)
    {sts sts' : List Stmt} (h : W.Inlined decl nm r Q sts sts' s t) :
    Lockstep Q ((W.interp decl).execAll sts s) ((W.interp decl).execAll sts' t) := by
  induction h with
  | nil h => exact lockstep_inl h
  | kept hreads hrest ih =>
    refine lockstep_cons (lockstep_exec_of_events (execStmt_agree decl hreads).1) ?_
    rintro _ _ - ⟨rfl, rfl⟩
    exact ih
  | replaced hdef hstatic hoff hvalue hrest ih =>
    refine lockstep_cons
      (lockstep_exec_of_events (execStmt_substVar decl halias himp hdef hstatic hoff hvalue).1) ?_
    rintro _ _ - ⟨rfl, rfl⟩
    exact ih
  | removed hrest ih =>
    rw [execAll_silent_cons (execStmt_events_eq_nil himp _)]
    exact ih
  | blanked hrest ih =>
    rw [execAll_silent_cons (execStmt_events_eq_nil himp _), execAll_silent_cons rfl]
    exact ih

theorem Inlined.mono {Q' : Store M → Store M → Prop} {sts sts' : List Stmt}
    (h : W.Inlined decl nm r Q sts sts' s t) (hQ : ∀ s t, Q s t → Q' s t) :
    W.Inlined decl nm r Q' sts sts' s t := by
  induction h with
  | nil h => exact .nil (hQ _ _ h)
  | kept hreads _ ih => exact .kept hreads ih
  | replaced hdef hstatic hoff hvalue _ ih => exact .replaced hdef hstatic hoff hvalue ih
  | removed _ ih => exact .removed ih
  | blanked _ ih => exact .blanked ih

theorem Inlined.of_append_nil {sts sts' : List Stmt}
    (h : W.Inlined decl nm r Q (sts ++ []) (sts' ++ []) s t) :
    W.Inlined decl nm r Q sts sts' s t := by
  rwa [List.append_nil, List.append_nil] at h

theorem termEvals_of_forall {P : Expr → Store M → Prop} {usedReturn : Bool} {b : Block}
    (h : ∀ e ∈ b.operands usedReturn, ∀ s', s'.vars = s.vars → P e s') :
    W.TermEvals P usedReturn b s := by
  have htrue : W.TermEvals (fun _ _ ↦ True) usedReturn b s := by
    unfold TermEvals
    dsimp only
    cases b.ends <;> cases b.isSwitch <;> simp
  exact htrue.mono fun e he s' hs' _ ↦ h e he s' hs'

theorem mem_termExprs_or_const {usedReturn : Bool} {b : Block} {e : Expr}
    (he : e ∈ b.operands usedReturn) : e ∈ b.termExprs ∨ ∃ ty c, e = .const ty c := by
  have hret : e ∈ (b.retText usedReturn).exprs → e ∈ b.termExprs := mem_termExprs_of_retText
  have hcond : b.condExpr ∈ b.termExprs ∨ ∃ ty c, b.condExpr = .const ty c := by
    unfold Block.condExpr Block.termExprs
    cases b.cond with
    | none => exact .inr ⟨_, _, rfl⟩
    | some c => simp
  have hsel : b.selExpr ∈ b.termExprs ∨ ∃ ty c, b.selExpr = .const ty c := by
    unfold Block.selExpr Block.termExprs
    cases b.switchVar with
    | none => exact .inr ⟨_, _, rfl⟩
    | some c => simp
  unfold Block.operands at he
  split at he
  · exact .inl (hret he)
  · exact (List.mem_cons.1 he).elim (fun h ↦ h ▸ hsel) fun h ↦ .inl (hret h)
  · exact (List.mem_cons.1 he).elim (fun h ↦ h ▸ hcond) fun h ↦ .inl (hret h)
  · exact .inl (hret he)
  · exact .inl (hret he)

theorem InlinedTerm.lockstep (halias : W.aliased nm = false) (himp : r.hasImpureCall = false)
    {usedReturn : Bool} {b b' : Block} (h : W.InlinedTerm nm r usedReturn b b' s t) :
    Lockstep (SameBlock fun s' t' ↦ t'.mem = s'.mem ∧ s'.vars = s.vars ∧ t'.vars = t.vars)
      (transfer (W.interp decl) usedReturn b s) (transfer (W.interp decl) usedReturn b' t) := by
  cases h with
  | kept hb' hreads =>
    have hid : b.mapTerm id = b := by simp [Block.mapTerm, Block.mapExprs]
    refine transfer_substAt (f := id) (by rw [hid]; exact hb') hreads.1 (fun _ _ ↦ rfl) ?_
    refine termEvals_of_forall fun e he s' hs' ↦ ?_
    exact W.eval_agree e rfl fun n hn ↦ by
      rw [hs', hreads.2 n (.inr (mem_operands_reads he hn))]
  | replaced hb' hstatic hoff hvalue =>
    refine transfer_substAt hb' hoff.1 (substVar_const nm r) (hvalue.mono fun e he s' hs' h ↦ ?_)
    have hoff' : ∀ n, n ≠ nm → t.vars n = s'.vars n := fun n hn ↦ by
      rw [hs', hoff.2 n (.inr hn)]
    rcases mem_termExprs_or_const he with hmem | ⟨ty, c, rfl⟩
    · exact substAt_eval halias himp hoff' (hstatic e hmem).1 (hstatic e hmem).2 (by rwa [hs'])
    · rw [substVar_const]
      exact substAt_pure _

end InlinedLemmas

/-! ### Windows in which a definition stays valid -/

section Window

variable {W} {decl : String → Val → Val} {nm : String} {r : Expr} {taken : String → Bool}
  {Q : Store M → Store M → Prop} {s t : Store M}

/-- The store after some statements. -/
def execStmts (W : World M E) (decl : String → Val → Val) (sts : List Stmt) (s : Store M) :
    Store M :=
  sts.foldl (fun s st ↦ (W.execStmt decl st s).2.2) s

/-- Statements that do not assign `n` leave it alone. -/
theorem execStmts_vars_of_ne {sts : List Stmt} {n : String} (h : ∀ st ∈ sts, st.defOf n = none)
    (s : Store M) : (W.execStmts decl sts s).vars n = s.vars n := by
  induction sts generalizing s with
  | nil => rfl
  | cons st sts ih =>
    exact (ih (fun st hst ↦ h st (by simp [hst])) _).trans
      (execStmt_vars_of_ne W (h st (by simp)) s)

theorem execStmt_mem {st : Stmt} (halias : ∀ n, W.aliased n = true → taken n = true)
    (h : st.leavesMem taken = true) (s : Store M) : (W.execStmt decl st s).2.2.mem = s.mem := by
  cases st with
  | assign lhs rhs =>
    cases lhs with
    | var ty x =>
      simp only [Stmt.leavesMem, Bool.and_eq_true, Bool.not_eq_true'] at h
      have hx : W.aliased x = false := Bool.eq_false_iff.2 fun hal ↦ by
        rw [halias x hal] at h
        exact absurd h.2 (by decide)
      rw [W.execStmt_var, (W.silent_eval h.1 s).2, write, hx]
      rfl
    | mem => cases h
    | _ =>
      simp only [Stmt.leavesMem, Bool.and_eq_true, Bool.not_eq_true'] at h
      rw [execStmt, W.target_of_isPlace rfl, bind_assoc]
      simp only [pure_bind]
      rw [Effect.bind_of_silentAt (W.silent_eval h.1 s),
        Effect.bind_of_silentAt (W.silent_eval h.2 s)]
      rfl
  | call rhs =>
    simp only [Stmt.leavesMem, Bool.not_eq_true'] at h
    rw [execStmt, Effect.bind_of_silentAt (W.silent_eval h s)]
    rfl
  | comment => rfl

/-- An expression keeps its value when neither its variables nor, if it depends on it, memory
change. -/
theorem eval_value_eq (halias : ∀ n, W.aliased n = true → taken n = true)
    (himp : r.hasImpureCall = false)
    (hvars : ∀ n, r.readsNamedVar n = true → t.vars n = s.vars n)
    (hmem : r.memFree taken = true ∨ t.mem = s.mem) : (W.eval r t).2.1 = (W.eval r s).2.1 := by
  rcases hmem with hfree | hmem
  · exact W.eval_memFree halias hfree himp hvars
  · rw [W.eval_agree r hmem hvars]

/-- A statement that does not define `nm` still defines what it did. -/
theorem defOf_substVar {st : Stmt} (hdef : st.defOf nm = none) (n : String) :
    (st.mapExprs (·.substVar nm r)).defOf n = (st.defOf n).map (·.substVar nm r) := by
  cases st with
  | assign lhs rhs =>
    have hkept : PlaceKept (·.substVar nm r) lhs := placeKept_substVar hdef
    cases lhs with
    | var ty x =>
      rw [Stmt.mapExprs, hkept.var ty x rfl, Stmt.defOf, Stmt.defOf]
      split <;> rfl
    | mem ty a =>
      rw [Stmt.mapExprs, hkept.mem ty a rfl]
      rfl
    | _ =>
      have hplace := hkept.other rfl
      rw [Stmt.mapExprs, Stmt.defOf_of_not_place hplace]
      rfl
  | call | comment => rfl

/-- What a statement in a window leaves, on both sides. -/
theorem window_step {st st' : Stmt} (halias : ∀ n, W.aliased n = true → taken n = true)
    (himp : r.hasImpureCall = false) (hdef' : st'.defOf nm = none)
    (hoff : AgreeOn W (· ≠ nm) s t)
    (hstep : SameStep t.vars s (W.execStmt decl st s) (W.execStmt decl st' t)) :
    AgreeOn W (· ≠ nm) (W.execStmt decl st s).2.2 (W.execStmt decl st' t).2.2 ∧
      (st.Spares taken r →
        (W.eval r (W.execStmt decl st' t).2.2).2.1 = (W.eval r t).2.1) := by
  refine ⟨⟨hstep.2.1, fun n hn ↦ hstep.2.2 n (hoff.2 n hn)⟩, fun hspares ↦ ?_⟩
  refine eval_value_eq halias himp (fun n hn ↦ ?_) (hspares.mem.imp_right fun hm ↦ ?_)
  · by_cases hnm : n = nm
    · rw [hnm]
      exact execStmt_vars_of_ne W hdef' t
    · have hno : st.defOf n = none := by simpa [Stmt.assigns] using hspares.inputs n hn
      rw [hstep.2.2 n (hoff.2 n (.inr hnm)), execStmt_vars_of_ne W hno, hoff.2 n (.inr hnm)]
  · rw [hstep.2.1, execStmt_mem halias hm, hoff.1]

/-- Why each read of `nm` in a statement finds the value of `r`. -/
theorem settled_value (halias : ∀ n, W.aliased n = true → taken n = true)
    (himp : r.hasImpureCall = false) {late : Bool} (hmem : t.mem = s.mem)
    (hvalue : (W.eval r t).2.1 = s.vars nm) (hlate : r.memFree taken = true ∨ late = false) :
    Settled (fun m ↦ (W.eval r ⟨t.vars, m⟩).2.1 = s.vars nm) late s := by
  refine hlate.imp (fun hfree m ↦ ?_) fun hlate ↦ ⟨hlate, ?_⟩
  · rw [← hvalue]
    exact W.eval_memFree halias hfree himp fun _ _ ↦ rfl
  · rw [← hvalue, ← hmem]

/-- The terminator after an inlined definition. -/
theorem InlinedTerm.of_value (halias : ∀ n, W.aliased n = true → taken n = true)
    (himp : r.hasImpureCall = false) {usedReturn : Bool} {b b' : Block}
    (hb' : b' = { b.mapTerm (·.substVar nm r) with stmts := b'.stmts })
    (hstatic : ∀ e ∈ b.termExprs, e.suits nm r.ty = true ∧ e.anyNode (Expr.isAddrOf nm) = false)
    (hlate : b.termReads nm = true →
      r.memFree taken = true ∨ Expr.lateReadList nm (b.operands usedReturn) = false)
    (hoff : AgreeOn W (· ≠ nm) s t)
    (hvalue : b.termReads nm = true → (W.eval r t).2.1 = s.vars nm) :
    W.InlinedTerm nm r usedReturn b b' s t :=
  .replaced hb' hstatic hoff <| termEvals_readsWithin fun hn ↦
    settled_value halias himp hoff.1 (hvalue hn) (hlate hn)

/-- The statement does not change the value of `r`. -/
def LeavesValue (decl : String → Val → Val) (r : Expr) (st : Stmt) (t : Store M) : Prop :=
  (W.eval r (W.execStmt decl st t).2.2).2.1 = (W.eval r t).2.1

/-- Statements after an inlined definition. `later` says that `nm` is still read after them. -/
theorem inlined_window (halias : ∀ n, W.aliased n = true → taken n = true)
    (hnm : W.aliased nm = false) (himp : r.hasImpureCall = false) (later : Prop)
    {sts rest rest' : List Stmt} (hdef : ∀ st ∈ sts, st.defOf nm = none)
    (hstatic : ∀ st ∈ sts, ∀ e ∈ st.exprs,
      e.suits nm r.ty = true ∧ e.anyNode (Expr.isAddrOf nm) = false)
    (hlate : ∀ st ∈ sts, st.reads nm = true →
      r.memFree taken = true ∨ Expr.lateReadList nm st.operands = false)
    (hkeeps : ∀ pre st post, sts = pre ++ st :: post →
      (post.any (·.reads nm) = true ∨ later) → st.Spares taken r ∨
        W.LeavesValue decl r (st.mapExprs (·.substVar nm r))
          (W.execStmts decl (pre.map (·.mapExprs (·.substVar nm r))) t))
    (hoff : AgreeOn W (· ≠ nm) s t)
    (hvalue : sts.any (·.reads nm) = true ∨ later → (W.eval r t).2.1 = s.vars nm)
    (hrest : AgreeOn W (· ≠ nm) (W.execStmts decl sts s)
        (W.execStmts decl (sts.map (·.mapExprs (·.substVar nm r))) t) →
      (later → (W.eval r (W.execStmts decl (sts.map (·.mapExprs (·.substVar nm r))) t)).2.1 =
        (W.execStmts decl sts s).vars nm) →
      W.Inlined decl nm r Q rest rest' (W.execStmts decl sts s)
        (W.execStmts decl (sts.map (·.mapExprs (·.substVar nm r))) t)) :
    W.Inlined decl nm r Q (sts ++ rest) (sts.map (·.mapExprs (·.substVar nm r)) ++ rest') s t := by
  induction sts generalizing s t with
  | nil => exact hrest hoff fun h ↦ hvalue (.inr h)
  | cons st sts ih =>
    have hdefst := hdef st (by simp)
    have hevals : W.StmtEvals
        (W.ReadsWithin nm fun m ↦ (W.eval r ⟨t.vars, m⟩).2.1 = s.vars nm) st s :=
      stmtEvals_readsWithin fun hn ↦ settled_value halias himp hoff.1
        (hvalue (.inl (by simp [hn]))) (hlate st (by simp) hn)
    obtain ⟨hoff', hkeep⟩ :=
      window_step halias himp (by rw [defOf_substVar hdefst, hdefst]; rfl) hoff
      (execStmt_substVar decl hnm himp hdefst (hstatic st (by simp)) hoff hevals)
    refine .replaced hdefst (hstatic st (by simp)) hoff hevals ?_
    refine ih (fun st h ↦ hdef st (by simp [h])) (fun st h ↦ hstatic st (by simp [h]))
      (fun st h ↦ hlate st (by simp [h]))
      (fun pre st' post hsts ↦ hkeeps (st :: pre) st' post (by rw [hsts, List.cons_append]))
      hoff' (fun h ↦ ?_) hrest
    rw [(hkeeps [] st sts rfl h).elim hkeep id, execStmt_vars_of_ne W hdefst]
    refine hvalue (h.imp_left fun h ↦ ?_)
    rw [List.any_cons, h, Bool.or_true]

theorem execStmts_agree (decl : String → Val → Val) {L : String → Prop} {sts : List Stmt}
    (hreads : ∀ st ∈ sts, ∀ n, st.reads n = true → L n) (h : AgreeOn W L s t) :
    AgreeOn W L (W.execStmts decl sts s) (W.execStmts decl sts t) := by
  induction sts generalizing s t with
  | nil => exact h
  | cons st sts ih =>
    refine ih (fun st hmem ↦ hreads st (by simp [hmem])) ?_
    exact (execStmt_agree decl (h.mono (hreads st (by simp)))).2.mono fun n hn ↦
      .inr (h.2 n (.inr hn))

/-- Statements that are kept, in stores that agree on what they read. -/
theorem inlined_prefix {L : String → Prop} {sts rest rest' : List Stmt}
    (hreads : ∀ st ∈ sts, ∀ n, st.reads n = true → L n) (h : AgreeOn W L s t)
    (hrest : AgreeOn W L (W.execStmts decl sts s) (W.execStmts decl sts t) →
      W.Inlined decl nm r Q rest rest' (W.execStmts decl sts s) (W.execStmts decl sts t)) :
    W.Inlined decl nm r Q (sts ++ rest) (sts ++ rest') s t := by
  induction sts generalizing s t with
  | nil => exact hrest h
  | cons st sts ih =>
    have hst : AgreeOn W (st.reads · = true) s t := h.mono (hreads st (by simp))
    refine .kept hst (ih (fun st hmem ↦ hreads st (by simp [hmem])) ?_ hrest)
    exact (execStmt_agree decl hst).2.mono fun n hn ↦ .inr (h.2 n (.inr hn))

/-- Statements that do not read `nm` before they assign it are kept; once they assign it, the stores
agree on it again. -/
theorem inlined_suffix {sts rest rest' : List Stmt} (hread : readsBefore nm sts = false)
    (h : AgreeOn W (· ≠ nm) s t)
    (hrest : AgreeOn W (fun n ↦ n ≠ nm ∨ assignsIn nm sts = true) (W.execStmts decl sts s)
        (W.execStmts decl sts t) →
      W.Inlined decl nm r Q rest rest' (W.execStmts decl sts s) (W.execStmts decl sts t)) :
    W.Inlined decl nm r Q (sts ++ rest) (sts ++ rest') s t := by
  induction sts generalizing s t with
  | nil => exact hrest (h.mono fun n hn ↦ hn.resolve_right (by simp [assignsIn]))
  | cons st sts ih =>
    simp only [readsBefore, Bool.or_eq_false_iff] at hread
    have hst : AgreeOn W (st.reads · = true) s t := by
      refine h.mono fun n hn ↦ ?_
      rintro rfl
      rw [hread.1] at hn
      cases hn
    have hafter := (execStmt_agree decl hst).2
    refine .kept hst ?_
    cases hassign : st.assigns nm with
    | true =>
      refine inlined_prefix (L := fun _ ↦ True) (fun _ _ _ _ ↦ trivial) (hafter.mono fun n _ ↦ ?_)
        fun h ↦ hrest (h.mono fun _ _ ↦ trivial)
      by_cases hn : n = nm
      · exact .inl (hn ▸ hassign)
      · exact .inr (h.2 n (.inr hn))
    | false =>
      refine ih (by simpa [hassign] using hread.2) (hafter.mono fun n hn ↦ .inr (h.2 n (.inr hn)))
        fun h ↦ hrest (h.mono fun n hn ↦ hn.imp_right fun hn ↦ ?_)
      simpa [assignsIn, hassign] using hn

/-- The removed definition leaves its value in `nm`. -/
theorem agreeOn_removed (decl : String → Val → Val) (ty : Ty) {L : String → Prop}
    (hnm : W.aliased nm = false) (himp : r.hasImpureCall = false) (h : AgreeOn W L s t)
    (hothers : ∀ n, n ≠ nm → L n) (hreads : ∀ n, r.readsNamedVar n = true → L n)
    (hdecl : decl nm (W.eval r s).2.1 = (W.eval r s).2.1) :
    AgreeOn W (· ≠ nm) (W.execStmt decl (.assign (.var ty nm) r) s).2.2 t ∧
      (W.eval r t).2.1 = (W.execStmt decl (.assign (.var ty nm) r) s).2.2.vars nm := by
  have hstore : (W.execStmt decl (.assign (.var ty nm) r) s).2.2 =
      W.write s nm (W.eval r s).2.1 := by
    rw [W.execStmt_var, (W.silent_eval himp s).2, hdecl]
  rw [hstore]
  refine ⟨(h.mono hothers).write_left hnm (by simp), ?_⟩
  rw [h.eval hreads, write, if_neg (by rw [hnm]; decide)]
  simp only [Function.update_self]

theorem execStmts_append (sts rest : List Stmt) (s : Store M) :
    W.execStmts decl (sts ++ rest) s = W.execStmts decl rest (W.execStmts decl sts s) := by
  simp [execStmts, List.foldl_append]

/-- What is left of the definition: nothing, or a comment. -/
def Blank (sts : List Stmt) : Prop :=
  sts = [] ∨ ∃ label, sts = [.comment label]

/-- A block with an inlined definition: the statements `pre` before it are kept, `nm` is replaced in
the statements `sts` after it. The stores agree on `L` before, and on all but `nm` after. -/
theorem inlined_def_at (halias : ∀ n, W.aliased n = true → taken n = true)
    (hnm : W.aliased nm = false) (himp : r.hasImpureCall = false) (L : String → Prop)
    (later : Prop) {ty : Ty} {pre blank sts rest rest' : List Stmt} (hblank : Blank blank)
    (hothers : ∀ n, n ≠ nm → L n) (hpre : ∀ st ∈ pre, ∀ n, st.reads n = true → L n)
    (hrhs : ∀ n, r.readsNamedVar n = true → L n) (h : AgreeOn W L s t)
    (hdecl : decl nm (W.eval r (W.execStmts decl pre s)).2.1 =
      (W.eval r (W.execStmts decl pre s)).2.1)
    (hdef : ∀ st ∈ sts, st.defOf nm = none)
    (hstatic : ∀ st ∈ sts, ∀ e ∈ st.exprs,
      e.suits nm r.ty = true ∧ e.anyNode (Expr.isAddrOf nm) = false)
    (hlate : ∀ st ∈ sts, st.reads nm = true →
      r.memFree taken = true ∨ Expr.lateReadList nm st.operands = false)
    (hkeeps : ∀ before st after, sts = before ++ st :: after →
      (after.any (·.reads nm) = true ∨ later) → st.Spares taken r ∨
        W.LeavesValue decl r (st.mapExprs (·.substVar nm r))
          (W.execStmts decl (before.map (·.mapExprs (·.substVar nm r))) (W.execStmts decl pre t)))
    (hrest : ∀ s' t', t' = W.execStmts decl (sts.map (·.mapExprs (·.substVar nm r)))
        (W.execStmts decl pre t) → AgreeOn W (· ≠ nm) s' t' →
      (later → (W.eval r t').2.1 = s'.vars nm) → W.Inlined decl nm r Q rest rest' s' t') :
    W.Inlined decl nm r Q (pre ++ .assign (.var ty nm) r :: (sts ++ rest))
      (pre ++ (blank ++ (sts.map (·.mapExprs (·.substVar nm r)) ++ rest'))) s t := by
  refine inlined_prefix hpre h fun hagree ↦ ?_
  obtain ⟨hoff, hvalue⟩ := agreeOn_removed decl ty hnm himp hagree hothers hrhs hdecl
  have hwindow : W.Inlined decl nm r Q (sts ++ rest)
      (sts.map (·.mapExprs (·.substVar nm r)) ++ rest') _ _ :=
    inlined_window halias hnm himp later hdef hstatic hlate hkeeps hoff (fun _ ↦ hvalue)
      fun hoff' hvalue' ↦ hrest _ _ rfl hoff' hvalue'
  rcases hblank with rfl | ⟨label, rfl⟩
  · exact .removed hwindow
  · exact .blanked hwindow

/-- The same, where the store after it matters only by what `nm` holds in the rewritten block. -/
theorem inlined_def (halias : ∀ n, W.aliased n = true → taken n = true)
    (hnm : W.aliased nm = false) (himp : r.hasImpureCall = false) (L : String → Prop)
    (later : Prop) {ty : Ty} {pre blank sts rest rest' : List Stmt} (hblank : Blank blank)
    (hothers : ∀ n, n ≠ nm → L n) (hpre : ∀ st ∈ pre, ∀ n, st.reads n = true → L n)
    (hrhs : ∀ n, r.readsNamedVar n = true → L n) (h : AgreeOn W L s t)
    (hdecl : decl nm (W.eval r (W.execStmts decl pre s)).2.1 =
      (W.eval r (W.execStmts decl pre s)).2.1)
    (hdef : ∀ st ∈ sts, st.defOf nm = none)
    (hstatic : ∀ st ∈ sts, ∀ e ∈ st.exprs,
      e.suits nm r.ty = true ∧ e.anyNode (Expr.isAddrOf nm) = false)
    (hlate : ∀ st ∈ sts, st.reads nm = true →
      r.memFree taken = true ∨ Expr.lateReadList nm st.operands = false)
    (hkeeps : ∀ before st after, sts = before ++ st :: after →
      (after.any (·.reads nm) = true ∨ later) → st.Spares taken r ∨
        W.LeavesValue decl r (st.mapExprs (·.substVar nm r))
          (W.execStmts decl (before.map (·.mapExprs (·.substVar nm r))) (W.execStmts decl pre t)))
    (hrest : ∀ s' t', AgreeOn W (· ≠ nm) s' t' → (later → (W.eval r t').2.1 = s'.vars nm) →
      t'.vars nm = (W.execStmts decl pre t).vars nm → W.Inlined decl nm r Q rest rest' s' t') :
    W.Inlined decl nm r Q (pre ++ .assign (.var ty nm) r :: (sts ++ rest))
      (pre ++ (blank ++ (sts.map (·.mapExprs (·.substVar nm r)) ++ rest'))) s t := by
  have hdef' : ∀ st ∈ sts.map (·.mapExprs (·.substVar nm r)), st.defOf nm = none :=
    List.forall_mem_map.2 fun st hst ↦ by rw [defOf_substVar (hdef st hst), hdef st hst]; rfl
  exact inlined_def_at halias hnm himp L later hblank hothers hpre hrhs h hdecl hdef hstatic hlate
    hkeeps fun s' t' ht' hoff hvalue ↦
      hrest s' t' hoff hvalue (ht' ▸ execStmts_vars_of_ne hdef' _)

end Window

/-! ### Runs with a definition inlined -/

section Runs

variable (decl : String → Val → Val) (nm : String) (r : Expr) (usedReturn : Bool)
  (merged : Finset ℕ) (g g' : List Block)

/-- The runs stand at the same block, which is inlined from where they stand. -/
def InlinedAt (p q : ℕ × Store M) : Prop :=
  q.1 = p.1 ∧ ∀ b, p.1 ∉ merged → g[p.1]? = some b → ∃ b', g'[p.1]? = some b' ∧
    W.Inlined decl nm r (W.InlinedTerm nm r usedReturn b b') b.stmts b'.stmts p.2 q.2

variable {W decl nm r usedReturn merged g g'}

/-- States at the same block, related there. -/
def AtBlock (R : ℕ → Store M → Store M → Prop) (p q : ℕ × Store M) : Prop :=
  q.1 = p.1 ∧ R p.1 p.2 q.2

/-- Related variables at the same block, in the same memory. -/
def SameSpot (R : ℕ → (String → Val) → (String → Val) → Prop) : ℕ × Store M → ℕ × Store M → Prop :=
  AtBlock fun k s t ↦ t.mem = s.mem ∧ R k s.vars t.vars

/-- What the terminators of `b` and `b'` hand over to the next block is related by `R`. -/
def HandsOver (W : World M E) (decl : String → Val → Val) (usedReturn : Bool)
    (R : ℕ → Store M → Store M → Prop) (b b' : Block) (s t : Store M) : Prop :=
  ∀ j s' t', (transfer (W.interp decl) usedReturn b s).2 = .inl (j, s') →
    (transfer (W.interp decl) usedReturn b' t).2 = .inl (j, t') →
    t'.mem = s'.mem → s'.vars = s.vars → t'.vars = t.vars → R j s' t'

/-- A relation of variables that holds at all targets is handed over. -/
theorem handsOver_of_targets {R : ℕ → (String → Val) → (String → Val) → Prop} {b b' : Block}
    {s t : Store M} (h : ∀ j ∈ b.targets, R j s.vars t.vars) :
    W.HandsOver decl usedReturn (fun j s t ↦ t.mem = s.mem ∧ R j s.vars t.vars) b b' s t := by
  intro j s' t' hs _ hmem hsv htv
  refine ⟨hmem, ?_⟩
  rw [hsv, htv]
  exact h j (mem_targets_of_transfer (Prod.ext rfl hs))

/-- A block with an inlined definition takes the step that the block takes. -/
theorem lockstep_inlined {R : ℕ → Store M → Store M → Prop}
    (halias : W.aliased nm = false) (himp : r.hasImpureCall = false) {k : ℕ} {s t : Store M}
    {b b' : Block} (hk : k ∉ merged) (hb : g[k]? = some b) (hb' : g'[k]? = some b')
    (hinl : W.Inlined decl nm r
      (fun s' t' ↦ W.InlinedTerm nm r usedReturn b b' s' t' ∧
        W.HandsOver decl usedReturn R b b' s' t') b.stmts b'.stmts s t) :
    Lockstep (AtBlock R) ((graphMachine (W.interp decl) usedReturn merged g).step (k, s))
      ((graphMachine (W.interp decl) usedReturn merged g').step (k, t)) := by
  rw [graphMachine_step _ _ hk hb, graphMachine_step _ _ hk hb']
  refine lockstep_runBlock (hinl.lockstep halias himp) fun s' t' _ ⟨hterm, hR⟩ ↦ ?_
  refine (hterm.lockstep halias himp).mono_of_both ?_
  rintro ⟨j, s₁⟩ ⟨_, t₁⟩ hs ht ⟨rfl, hmem, hsv, htv⟩
  exact ⟨rfl, hR _ s₁ t₁ hs ht hmem hsv htv⟩

/-- Where there is no block, both runs end. -/
theorem lockstep_no_block {Q : ℕ × Store M → ℕ × Store M → Prop} {k : ℕ} {s t : Store M}
    (hlength : g'.length = g.length) (h : k ∈ merged ∨ g[k]? = none) :
    Lockstep Q ((graphMachine (W.interp decl) usedReturn merged g).step (k, s))
      ((graphMachine (W.interp decl) usedReturn merged g').step (k, t)) := by
  by_cases hk : k ∈ merged
  · simp only [graphMachine, hk, if_true]
    exact lockstep_inr
  · have hb := h.resolve_left hk
    have hb' : g'[k]? = none := by
      rw [List.getElem?_eq_none_iff] at hb ⊢
      omega
    simp only [graphMachine, hk, if_false, hb, hb']
    exact lockstep_inr

/-- **Inlining is sound** when every block is inlined in the stores `R` relates, and `R` holds again
at the successors. -/
theorem inlined_run {R : ℕ → (String → Val) → (String → Val) → Prop} {P : ℕ × Store M → Prop}
    (halias : W.aliased nm = false) (himp : r.hasImpureCall = false)
    (hlength : g'.length = g.length)
    (hblock : ∀ k s t b, k ∉ merged → g[k]? = some b → P (k, s) → t.mem = s.mem →
      R k s.vars t.vars → ∃ b', g'[k]? = some b' ∧ W.Inlined decl nm r
        (fun s' t' ↦ W.InlinedTerm nm r usedReturn b b' s' t' ∧
          ∀ j ∈ b.targets, R j s'.vars t'.vars)
        b.stmts b'.stmts s t)
    {id : ℕ} {s : Store M} (hstart : R id s.vars s.vars)
    (hrun : (graphMachine (W.interp decl) usedReturn merged g).Always P (id, s)) :
    (graphMachine (W.interp decl) usedReturn merged g).SameBehaviour (id, s)
        (graphMachine (W.interp decl) usedReturn merged g') (id, s) ∧
      (graphMachine (W.interp decl) usedReturn merged g).Together
        (graphMachine (W.interp decl) usedReturn merged g')
        (W.InlinedAt decl nm r usedReturn merged g g') (id, s) (id, s) := by
  have hlock : ∀ p q, SameSpot R p q →
      (graphMachine (W.interp decl) usedReturn merged g).Always P p →
      Lockstep (SameSpot R) ((graphMachine (W.interp decl) usedReturn merged g).step p)
        ((graphMachine (W.interp decl) usedReturn merged g').step q) := by
    rintro ⟨_, s⟩ ⟨k, t⟩ ⟨rfl, hmem, hR⟩ halways
    by_cases hk : k ∈ merged
    · exact lockstep_no_block hlength (.inl hk)
    cases hb : g[k]? with
    | none => exact lockstep_no_block hlength (.inr hb)
    | some b =>
      obtain ⟨b', hb', hinl⟩ := hblock k s t b hk hb halways.now hmem hR
      exact lockstep_inlined halias himp hk hb hb'
        (hinl.mono fun s' t' h ↦ ⟨h.1, handsOver_of_targets h.2⟩)
  have hrel : SameSpot R (id, s) (id, s) := ⟨rfl, rfl, hstart⟩
  refine ⟨Machine.Simulation.sameBehaviour_of_always
    (fun p q hpq halways ↦ matches_of_lockstep (hlock p q hpq halways)) hrel hrun, ?_⟩
  intro n p hp
  obtain ⟨q, hq, ⟨hpq, hmem, hR⟩, halways⟩ := together_of_lockstep hlock hrel hrun n p hp
  refine ⟨q, hq, hpq, fun b hk hb ↦ ?_⟩
  obtain ⟨b', hb', hinl⟩ := hblock p.1 p.2 q.2 b hk hb halways.now hmem hR
  exact ⟨b', hb', hinl.mono fun s' t' h ↦ h.1⟩

/-- The other way round: a function `g` is `g'` with a definition inlined, and `P` holds along its
runs. -/
theorem hoisted_run_at {R : ℕ → Store M → Store M → Prop} {P : ℕ × Store M → Prop}
    (halias : W.aliased nm = false) (himp : r.hasImpureCall = false)
    (hlength : g'.length = g.length)
    (hblock : ∀ k s t b, k ∉ merged → g[k]? = some b → P (k, s) → R k t s →
      ∃ b', g'[k]? = some b' ∧ W.Inlined decl nm r
        (fun t' s' ↦ W.InlinedTerm nm r usedReturn b' b t' s' ∧
          W.HandsOver decl usedReturn R b' b t' s') b'.stmts b.stmts t s)
    {id : ℕ} {s : Store M} (hstart : R id s s)
    (hrun : (graphMachine (W.interp decl) usedReturn merged g).Always P (id, s)) :
    (graphMachine (W.interp decl) usedReturn merged g).SameBehaviour (id, s)
        (graphMachine (W.interp decl) usedReturn merged g') (id, s) ∧
      (graphMachine (W.interp decl) usedReturn merged g).Together
        (graphMachine (W.interp decl) usedReturn merged g')
        (fun p q ↦ W.InlinedAt decl nm r usedReturn merged g' g q p) (id, s) (id, s) := by
  have hlock : ∀ p q, AtBlock R q p →
      (graphMachine (W.interp decl) usedReturn merged g).Always P p →
      Lockstep (fun p q ↦ AtBlock R q p)
        ((graphMachine (W.interp decl) usedReturn merged g).step p)
        ((graphMachine (W.interp decl) usedReturn merged g').step q) := by
    rintro ⟨k, s⟩ ⟨_, t⟩ ⟨rfl, hR⟩ halways
    by_cases hk : k ∈ merged
    · exact lockstep_no_block hlength (.inl hk)
    cases hb : g[k]? with
    | none => exact lockstep_no_block hlength (.inr hb)
    | some b =>
      obtain ⟨b', hb', hinl⟩ := hblock k s t b hk hb halways.now hR
      exact (lockstep_inlined halias himp hk hb' hb hinl).symm
  have hrel : AtBlock R (id, s) (id, s) := ⟨rfl, hstart⟩
  refine ⟨Machine.Simulation.sameBehaviour_of_always
    (fun p q hpq halways ↦ matches_of_lockstep (hlock p q hpq halways)) hrel hrun, ?_⟩
  intro n p hp
  obtain ⟨q, hq, ⟨hpq, hR⟩, halways⟩ := together_of_lockstep hlock hrel hrun n p hp
  refine ⟨q, hq, hpq, fun b' hk hb' ↦ ?_⟩
  obtain ⟨b, hb⟩ := exists_of_length_eq hlength hb'
  rw [← hpq] at hb hk
  obtain ⟨c, hc, hinl⟩ := hblock p.1 p.2 q.2 b hk hb halways.now (hpq ▸ hR)
  obtain rfl : b' = c := Option.some.inj (hb'.symm.trans (hpq ▸ hc))
  exact ⟨b, hpq ▸ hb, hinl.mono fun t' s' h ↦ h.1⟩

/-- The same with a relation of the variables only. -/
theorem hoisted_run {R : ℕ → (String → Val) → (String → Val) → Prop} {P : ℕ × Store M → Prop}
    (halias : W.aliased nm = false) (himp : r.hasImpureCall = false)
    (hlength : g'.length = g.length)
    (hblock : ∀ k s t b, k ∉ merged → g[k]? = some b → P (k, s) → s.mem = t.mem →
      R k t.vars s.vars → ∃ b', g'[k]? = some b' ∧ W.Inlined decl nm r
        (fun t' s' ↦ W.InlinedTerm nm r usedReturn b' b t' s' ∧
          ∀ j ∈ b'.targets, R j t'.vars s'.vars)
        b'.stmts b.stmts t s)
    {id : ℕ} {s : Store M} (hstart : R id s.vars s.vars)
    (hrun : (graphMachine (W.interp decl) usedReturn merged g).Always P (id, s)) :
    (graphMachine (W.interp decl) usedReturn merged g).SameBehaviour (id, s)
        (graphMachine (W.interp decl) usedReturn merged g') (id, s) ∧
      (graphMachine (W.interp decl) usedReturn merged g).Together
        (graphMachine (W.interp decl) usedReturn merged g')
        (fun p q ↦ W.InlinedAt decl nm r usedReturn merged g' g q p) (id, s) (id, s) := by
  refine hoisted_run_at (R := fun k t s ↦ s.mem = t.mem ∧ R k t.vars s.vars) halias himp hlength
    (fun k s t b hk hb hP ⟨hmem, hR⟩ ↦ ?_) ⟨rfl, hstart⟩ hrun
  obtain ⟨b', hb', hinl⟩ := hblock k s t b hk hb hP hmem hR
  exact ⟨b', hb', hinl.mono fun t' s' h ↦ ⟨h.1, handsOver_of_targets h.2⟩⟩

end Runs

end World

end Ldu
