import Ldu.Semantics.Lockstep
import Ldu.Vars.Info

/-!
# What evaluations do and depend on

Without impure calls, evaluating an expression emits nothing and changes nothing (`silent_eval`).
Statements other than assignments to variables change no variable outside memory, and depend only
on memory and the variables they read (`readsOnly_execStmt`).
-/

namespace Ldu

namespace World

variable {M E : Type} (W : World M E)

/-! ### Silent evaluations -/

theorem silent_callOp {callee : String} (h : Expr.isPureCallee callee = true)
    (target : Option Val) (args : List Val) (s : Store M) :
    (W.callOp callee target args).SilentAt s := by
  unfold Effect.SilentAt callOp
  rw [if_pos h]
  exact ⟨rfl, rfl⟩

theorem silent_evalList {es : List Expr} {s : Store M} (h : ∀ e ∈ es, (W.eval e).SilentAt s) :
    (W.evalList es).SilentAt s := by
  induction es with
  | nil =>
    rw [evalList]
    exact Effect.silentAt_pure _ _
  | cons e es ih =>
    rw [evalList]
    exact (h e (by simp)).bind ((ih fun e he ↦ h e (by simp [he])).bind (Effect.silentAt_pure _ _))

/-- Expressions without impure calls are silent, also as places. -/
theorem silent_eval_place (s : Store M) (e : Expr) (h : e.hasImpureCall = false) :
    (W.eval e).SilentAt s ∧ (W.place e).SilentAt s := by
  induction e using Expr.childInduction with
  | h e ih =>
    rw [Expr.hasImpureCall, Expr.anyNode_eq, Bool.or_eq_false_iff, List.any_eq_false] at h
    obtain ⟨hroot, hchildren⟩ := h
    have ih : ∀ c ∈ e.children, (W.eval c).SilentAt s ∧ (W.place c).SilentAt s :=
      fun c hc ↦ ih c hc (by simpa [Expr.hasImpureCall] using hchildren c hc)
    have heval : (W.eval e).SilentAt s := by
      cases e with
      | const | reg | str =>
        rw [eval]
        exact Effect.silentAt_pure _ _
      | var ty x =>
        rw [eval]
        exact Effect.silentAt_get _ _
      | mem ty a =>
        rw [eval]
        exact (ih a (by simp [Expr.children])).1.bind (Effect.silentAt_get _ _)
      | unary ty op a | cast ty text a =>
        rw [eval]
        exact (ih a (by simp [Expr.children])).1.bind (Effect.silentAt_pure _ _)
      | binary ty op a b =>
        rw [eval]
        refine (ih a (by simp [Expr.children])).1.bind ?_
        split
        · exact Effect.silentAt_pure _ _
        · exact (ih b (by simp [Expr.children])).1.bind (Effect.silentAt_pure _ _)
      | ternary ty a b c =>
        rw [eval]
        refine (ih a (by simp [Expr.children])).1.bind ?_
        split
        · exact (ih b (by simp [Expr.children])).1
        · exact (ih c (by simp [Expr.children])).1
      | addrOf ty a =>
        rw [eval_addrOf]
        exact (ih a (by simp [Expr.children])).2
      | call ty callee i k args =>
        rw [eval]
        have hpure : Expr.isPureCallee callee = true := by simpa [Expr.isImpureCall] using hroot
        exact (W.silent_evalList fun e he ↦ (ih e (by simp [Expr.children, he])).1).bind
          (W.silent_callOp hpure _ _ _)
      | callVia ty callee i k t args =>
        rw [eval]
        have hpure : Expr.isPureCallee callee = true := by simpa [Expr.isImpureCall] using hroot
        exact (ih t (by simp [Expr.children])).1.bind
          ((W.silent_evalList fun e he ↦ (ih e (by simp [Expr.children, he])).1).bind
            (W.silent_callOp hpure _ _ _))
    refine ⟨heval, ?_⟩
    cases hplace : e.isPlace with
    | false =>
      rw [W.place_of_isPlace hplace]
      exact heval
    | true =>
      cases e with
      | var => exact Effect.silentAt_pure _ _
      | mem ty a => exact (ih a (by simp [Expr.children])).1
      | _ => cases hplace

theorem silent_eval {e : Expr} (h : e.hasImpureCall = false) (s : Store M) :
    (W.eval e).SilentAt s :=
  (W.silent_eval_place s e h).1

/-! ### Statements -/

section Statements

variable (decl : String → Val → Val)

theorem readsOnly_assign {k : Target} (h : ∀ x, k ≠ .var x) (v : Val) {p : String → Prop} :
    ReadsOnly (W.assign decl k v) p := by
  intro s t hmem _
  cases k with
  | var x => exact absurd rfl (h x)
  | mem ty p =>
    unfold assign
    dsimp only
    rw [hmem]
  | nowhere =>
    unfold assign
    dsimp only
    rw [← hmem]

/-- Statements other than assignments to variables depend on the variables they read. -/
theorem readsOnly_execStmt {st : Stmt} (h : ∀ n, st.defOf n = none) :
    ReadsOnly (W.execStmt decl st) (st.reads · = true) := by
  cases st with
  | assign lhs rhs =>
    have hvar : ∀ ty x, lhs ≠ .var ty x := by
      rintro ty x rfl
      simpa [Stmt.defOf] using h x
    have hrhs : ReadsOnly (W.eval rhs) ((Stmt.assign lhs rhs).reads · = true) :=
      (W.readsOnly_eval rhs).mono fun n hn ↦ Stmt.reads_rhs hn
    have hlhs : ReadsOnly (W.eval lhs) ((Stmt.assign lhs rhs).reads · = true) :=
      (W.readsOnly_eval lhs).mono fun n hn ↦ Stmt.reads_lhs hvar hn
    cases hplace : lhs.isPlace with
    | false =>
      rw [execStmt, W.target_of_isPlace hplace, bind_assoc]
      simp only [pure_bind]
      exact hlhs.bind fun _ ↦ hrhs.bind fun _ ↦ W.readsOnly_assign decl (by simp) _
    | true =>
      cases lhs with
      | var ty x => exact absurd rfl (hvar ty x)
      | mem ty a =>
        have ha : ReadsOnly (W.eval a) ((Stmt.assign (.mem ty a) rhs).reads · = true) :=
          (W.readsOnly_eval a).mono fun n hn ↦ Stmt.reads_lhs hvar
            (Expr.readsNamedVar_of_child (by simp [Expr.children]) n hn)
        rw [execStmt, target, bind_assoc]
        simp only [pure_bind]
        exact ha.bind fun _ ↦ hrhs.bind fun _ ↦ W.readsOnly_assign decl (by simp) _
      | _ => cases hplace
  | call rhs =>
    rw [execStmt]
    refine .bind ((W.readsOnly_eval rhs).mono fun n hn ↦ ?_) fun _ ↦ readsOnly_pure _
    simpa [Stmt.reads, Stmt.exprs] using hn
  | comment => exact readsOnly_pure _

end Statements

theorem evalList_vars (es : List Expr) (s : Store M) : (W.evalList es s).2.2.vars = s.vars :=
  (W.readsOnly_evalList es).vars_eq s

/-! ### What a run reads -/

mutual

/-- Evaluating the expression from this store reads `n`. The arm of a conditional and the right
operand that are skipped are not read. -/
def Reads : Expr → Store M → String → Prop
  | .const _ _, _, _ | .reg _ _, _, _ | .str _ _, _, _ => False
  | .var _ x, _, n => n = x
  | .mem _ a, s, n | .unary _ _ a, s, n | .cast _ _ a, s, n => Reads a s n
  | .binary _ op a b, s, n =>
    Reads a s n ∨ (shortCircuit op (W.eval a s).2.1 = none ∧ Reads b (W.eval a s).2.2 n)
  | .ternary _ a b c, s, n =>
    Reads a s n ∨
      if (W.eval a s).2.1 ≠ 0 then Reads b (W.eval a s).2.2 n else Reads c (W.eval a s).2.2 n
  | .addrOf _ (.var _ _), _, _ => False
  | .addrOf _ (.mem _ a), s, n => Reads a s n
  | .addrOf _ a, s, n => Reads a s n
  | .call _ _ _ _ args, s, n => ReadsList args s n
  | .callVia _ _ _ _ target args, s, n =>
    Reads target s n ∨ ReadsList args (W.eval target s).2.2 n

def ReadsList : List Expr → Store M → String → Prop
  | [], _, _ => False
  | e :: es, s, n => Reads e s n ∨ ReadsList es (W.eval e s).2.2 n

end

/-- Evaluating the left side of an assignment reads `n`. -/
def TargetReads : Expr → Store M → String → Prop
  | .var _ _, _, _ => False
  | .mem _ a, s, n => W.Reads a s n
  | a, s, n => W.Reads a s n

/-- Executing the statement reads `n`; the left side is evaluated first. -/
def StmtReads : Stmt → Store M → String → Prop
  | .assign lhs rhs, s, n => W.TargetReads lhs s n ∨ W.Reads rhs (W.target lhs s).2.2 n
  | .call rhs, s, n => W.Reads rhs s n
  | .comment _, _, _ => False

/-- Leaving the function reads `n`. -/
def LeaveReads : RetText → Store M → String → Prop
  | .tailVoid c, s, n | .tailValue c, s, n | .value (some c), s, n => W.Reads c s n
  | .void, _, _ | .value none, _, _ | .zero, _, _ => False

/-- The terminator of the block reads `n`. -/
def TransferReads (usedReturn : Bool) (b : Block) (s : Store M) (n : String) : Prop :=
  match b.ends, b.isSwitch with
  | .ret, _ => W.LeaveReads (b.retText usedReturn) s n
  | _, true =>
    W.Reads b.selExpr s n ∨ (b.caseTarget (W.eval b.selExpr s).2.1.toInt = none ∧
      W.LeaveReads (b.retText usedReturn) (W.eval b.selExpr s).2.2 n)
  | .jcc, false =>
    W.Reads b.condExpr s n ∨ ((if (W.eval b.condExpr s).2.1 != 0 then b.taken else b.fall) = none ∧
      W.LeaveReads (b.retText usedReturn) (W.eval b.condExpr s).2.2 n)
  | .jmp, false => b.taken = none ∧ W.LeaveReads (b.retText usedReturn) s n
  | .fall, false => b.fall = none ∧ W.LeaveReads (b.retText usedReturn) s n

mutual

/-- What is read is mentioned. -/
theorem readsNamedVar_of_reads {n : String} : ∀ (e : Expr) (s : Store M),
    W.Reads e s n → e.readsNamedVar n = true
  | .const _ _, s, h | .reg _ _, s, h | .str _ _, s, h => h.elim
  | .var _ x, s, h => by
    obtain rfl : n = x := h
    simp [Expr.readsNamedVar, Expr.anyNode, Expr.isVarNamed]
  | .mem _ a, s, h | .unary _ _ a, s, h | .cast _ _ a, s, h => by
    simp only [Reads] at h
    exact Expr.readsNamedVar_of_child (by simp [Expr.children]) n (readsNamedVar_of_reads a s h)
  | .binary _ op a b, s, h => by
    simp only [Reads] at h
    rcases h with h | ⟨-, h⟩
    · exact Expr.readsNamedVar_of_child (by simp [Expr.children]) n (readsNamedVar_of_reads a s h)
    · exact Expr.readsNamedVar_of_child (by simp [Expr.children]) n (readsNamedVar_of_reads b _ h)
  | .ternary _ a b c, s, h => by
    simp only [Reads] at h
    rcases h with h | h
    · exact Expr.readsNamedVar_of_child (by simp [Expr.children]) n (readsNamedVar_of_reads a s h)
    · split at h
      · exact Expr.readsNamedVar_of_child (by simp [Expr.children]) n
          (readsNamedVar_of_reads b _ h)
      · exact Expr.readsNamedVar_of_child (by simp [Expr.children]) n
          (readsNamedVar_of_reads c _ h)
  | .addrOf ty a, s, h => by
    have ha : W.Reads a s n → (Expr.addrOf ty a).readsNamedVar n = true := fun h ↦
      Expr.readsNamedVar_of_child (by simp [Expr.children]) n (readsNamedVar_of_reads a s h)
    cases a with
    | var ty' x => exact h.elim
    | mem ty' p =>
      simp only [Reads] at h
      exact ha (by simpa only [Reads] using h)
    | _ => exact ha h
  | .call _ _ _ _ args, s, h => by
    simp only [Reads] at h
    obtain ⟨e, he, hn⟩ := readsNamedVar_of_readsList args s h
    exact Expr.readsNamedVar_of_child (by simpa [Expr.children] using he) n hn
  | .callVia _ _ _ _ t args, s, h => by
    simp only [Reads] at h
    rcases h with h | h
    · exact Expr.readsNamedVar_of_child (by simp [Expr.children]) n (readsNamedVar_of_reads t s h)
    · obtain ⟨e, he, hn⟩ := readsNamedVar_of_readsList args _ h
      exact Expr.readsNamedVar_of_child (by simp [Expr.children, he]) n hn

theorem readsNamedVar_of_readsList {n : String} : ∀ (es : List Expr) (s : Store M),
    W.ReadsList es s n → ∃ e ∈ es, e.readsNamedVar n = true
  | [], s, h => h.elim
  | e :: es, s, h => by
    simp only [ReadsList] at h
    rcases h with h | h
    · exact ⟨e, by simp, readsNamedVar_of_reads e s h⟩
    · obtain ⟨e, he, hn⟩ := readsNamedVar_of_readsList es _ h
      exact ⟨e, by simp [he], hn⟩

end

theorem readsNamedVar_of_targetReads {e : Expr} {s : Store M} {n : String}
    (h : W.TargetReads e s n) : (∀ ty x, e ≠ .var ty x) ∧ e.readsNamedVar n = true := by
  cases e with
  | var => exact h.elim
  | mem ty a =>
    exact ⟨by simp, Expr.readsNamedVar_of_child (by simp [Expr.children]) n
      (W.readsNamedVar_of_reads a s h)⟩
  | _ => exact ⟨by simp, W.readsNamedVar_of_reads _ s h⟩

theorem termReads_of_leaveReads {usedReturn : Bool} {b : Block} {s : Store M} {n : String}
    (h : W.LeaveReads (b.retText usedReturn) s n) : b.termReads n = true := by
  have hstatic : ∀ e ∈ b.tailCall.toList ++ b.retValue.toList, W.Reads e s n →
      b.termReads n = true := by
    intro e he hr
    have hn := W.readsNamedVar_of_reads e s hr
    simp only [Block.termReads, List.any_append, Bool.or_eq_true, List.any_eq_true]
    rcases List.mem_append.1 he with he | he
    · exact .inr ⟨e, he, hn⟩
    · exact .inl (.inr ⟨e, he, hn⟩)
  unfold Block.retText at h
  split at h
  · next e he =>
    refine hstatic e (by simp [he]) ?_
    split at h <;> exact h
  · split at h
    · exact h.elim
    · split at h
      · cases hr : b.retValue with
        | none =>
          rw [hr] at h
          exact h.elim
        | some e =>
          rw [hr] at h
          exact hstatic e (by simp [hr]) h
      · exact h.elim

theorem reads_of_stmtReads {st : Stmt} {s : Store M} {n : String} (h : W.StmtReads st s n) :
    st.reads n = true := by
  cases st with
  | assign lhs rhs =>
    rcases h with h | h
    · obtain ⟨hvar, h⟩ := W.readsNamedVar_of_targetReads h
      exact Stmt.reads_lhs hvar h
    · exact Stmt.reads_rhs (W.readsNamedVar_of_reads rhs _ h)
  | call rhs =>
    simpa [Stmt.reads, Stmt.exprs] using W.readsNamedVar_of_reads rhs s h
  | comment => exact h.elim

end World

/-! ### Terminators -/

section Terminators

variable {b : Block}

theorem condExpr_reads {n : String} (h : b.condExpr.readsNamedVar n = true) :
    b.termReads n = true := by
  unfold Block.condExpr at h
  cases hc : b.cond with
  | none => simp [hc, Expr.mkConst, Expr.readsNamedVar, Expr.anyNode, Expr.isVarNamed] at h
  | some e => simp_all [Block.termReads]

theorem selExpr_reads {n : String} (h : b.selExpr.readsNamedVar n = true) :
    b.termReads n = true := by
  unfold Block.selExpr at h
  cases hc : b.switchVar with
  | none => simp [hc, Expr.mkConst, Expr.readsNamedVar, Expr.anyNode, Expr.isVarNamed] at h
  | some e => simp_all [Block.termReads]

/-- The return text with its expression replaced. -/
def RetText.mapExprs (f : Expr → Expr) : RetText → RetText
  | .tailVoid c => .tailVoid (f c)
  | .tailValue c => .tailValue (f c)
  | .value e => .value (e.map f)
  | .void => .void
  | .zero => .zero

/-- The expression of a return text. -/
def RetText.exprs : RetText → List Expr
  | .tailVoid c | .tailValue c => [c]
  | .value e => e.toList
  | .void | .zero => []

theorem mem_termExprs_of_retText {usedReturn : Bool} {e : Expr}
    (h : e ∈ (b.retText usedReturn).exprs) : e ∈ b.termExprs := by
  have hmem : e ∈ b.tailCall.toList ∨ e ∈ b.retValue.toList := by
    unfold Block.retText at h
    cases htc : b.tailCall with
    | some c =>
      rw [htc] at h
      left
      cases usedReturn <;> simpa [RetText.exprs] using h
    | none =>
      rw [htc] at h
      right
      cases usedReturn <;> cases hr : b.hasRetValue <;> simp [RetText.exprs, hr] at h ⊢
      exact h
  unfold Block.termExprs
  simp only [List.mem_append]
  tauto

/-- Expressions with the same meaning are returned alike. -/
theorem leave_mapExprs {M E : Type} {W : World M E} {decl decl' : String → Val → Val}
    {f : Expr → Expr} {rt : RetText} {s t : Store M}
    (h : ∀ e ∈ rt.exprs, (W.eval (f e) t).1 = (W.eval e s).1 ∧
      (W.eval (f e) t).2.1 = (W.eval e s).2.1) :
    (W.interp decl').leave (rt.mapExprs f) t = (W.interp decl).leave rt s := by
  cases rt with
  | tailVoid c | tailValue c =>
    obtain ⟨hev, hv⟩ := h c (by simp [RetText.exprs])
    simp [RetText.mapExprs, World.interp, hev, hv]
  | void | zero => rfl
  | value e =>
    cases e with
    | none => rfl
    | some c =>
      obtain ⟨hev, hv⟩ := h c (by simp [RetText.exprs])
      simp [RetText.mapExprs, World.interp, hev, hv]

theorem retText_mapExprs (f : Expr → Expr) (usedReturn : Bool) :
    (b.mapExprs f).retText usedReturn = (b.retText usedReturn).mapExprs f := by
  unfold Block.retText Block.mapExprs
  cases b.tailCall <;> cases usedReturn <;> cases b.hasRetValue <;> rfl

end Terminators

/-! ### Renamed variables -/

/-- Every variable renamed. -/
def Expr.renameVars (f : String → String) : Expr → Expr :=
  rewrite fun
    | var ty n => some (var ty (f n))
    | _ => none

theorem Expr.renameVars_var (f : String → String) (ty : Ty) (n : String) :
    (Expr.var ty n).renameVars f = .var ty (f n) :=
  rewrite_of_some rfl

theorem Expr.renameVars_eq {f : String → String} {e : Expr} (h : ∀ ty n, e ≠ .var ty n) :
    e.renameVars f = e.mapChildren (renameVars f) := by
  refine rewrite_of_none ?_
  cases e with
  | var ty n => exact absurd rfl (h ty n)
  | _ => rfl

theorem Expr.ty_renameVars (f : String → String) (e : Expr) : (e.renameVars f).ty = e.ty := by
  cases e with
  | var ty n => rw [renameVars_var]; rfl
  | _ => rw [renameVars_eq (by simp)]; rfl

theorem Expr.eq_var_of_renameVars {f : String → String} {e : Expr} {ty : Ty} {n : String}
    (h : e.renameVars f = .var ty n) : ∃ x, e = .var ty x ∧ n = f x := by
  cases e with
  | var ty' x =>
    rw [renameVars_var] at h
    obtain ⟨rfl, rfl⟩ := var.inj h
    exact ⟨x, rfl, rfl⟩
  | _ =>
    rw [renameVars_eq (by simp)] at h
    cases h

theorem Expr.isPlace_renameVars (f : String → String) (e : Expr) :
    (e.renameVars f).isPlace = e.isPlace := by
  cases e with
  | var ty n => rw [renameVars_var]; rfl
  | _ => rw [renameVars_eq (by simp)]; rfl

/-- No renamed variable has its address taken in the expression. -/
def Expr.KeepsAddrs (f : String → String) (e : Expr) : Prop :=
  ∀ n, e.anyNode (Expr.isAddrOf n) = true → f n = n

theorem Expr.KeepsAddrs.child {f : String → String} {e c : Expr} (h : e.KeepsAddrs f)
    (hc : c ∈ e.children) : c.KeepsAddrs f := by
  intro n hn
  refine h n ?_
  rw [Expr.anyNode_eq, Bool.or_eq_true, List.any_eq_true]
  exact .inr ⟨c, hc, hn⟩

namespace World

variable {M E : Type} (W : World M E)

section Rename

variable {α β : Type} (f : String → String) {s : Store M} {p q : String → Prop}

/-- `y` does what `x` does from `s` in the stores in which the variables in `p` have their values
under the new names. -/
def RenamedAt (x y : Effect E (Store M) α) (s : Store M) (p : String → Prop) : Prop :=
  ∀ t, t.mem = s.mem → (∀ n, p n → W.aliased n = false → t.vars (f n) = s.vars n) →
    y t = ((x s).1, (x s).2.1, ⟨t.vars, (x s).2.2.mem⟩)

variable {W f}

theorem RenamedAt.mono {x y : Effect E (Store M) α} (h : W.RenamedAt f x y s p)
    (hpq : ∀ n, p n → q n) : W.RenamedAt f x y s q :=
  fun t hmem hq ↦ h t hmem fun n hn ↦ hq n (hpq n hn)

theorem renamedAt_pure (a : α) :
    W.RenamedAt f (pure a : Effect E (Store M) α) (pure a) s p := by
  intro t hmem _
  simp only [Effect.pure_apply, ← hmem]

theorem RenamedAt.bind {r : String → Prop} {x y : Effect E (Store M) α}
    {g h : α → Effect E (Store M) β} (hx : W.RenamedAt f x y s p)
    (hvars : (x s).2.2.vars = s.vars)
    (hg : W.RenamedAt f (g (x s).2.1) (h (x s).2.1) (x s).2.2 q) (hr : ∀ n, p n ∨ q n → r n) :
    W.RenamedAt f (x >>= g) (y >>= h) s r := by
  intro t hmem hpq
  rw [Effect.bind_eq (hx t hmem fun n hn ↦ hpq n (hr n (.inl hn))), Effect.bind_apply,
    hg ⟨t.vars, (x s).2.2.mem⟩ rfl
      fun n hn hal ↦ by rw [hvars]; exact hpq n (hr n (.inr hn)) hal]

theorem RenamedAt.map {x y : Effect E (Store M) α} (hx : W.RenamedAt f x y s p) (g : α → β) :
    W.RenamedAt f (x >>= fun a ↦ pure (g a)) (y >>= fun a ↦ pure (g a)) s p := by
  intro t hmem hp
  rw [Effect.bind_eq (hx t hmem hp), Effect.bind_apply]
  rfl

theorem RenamedAt.get {x y : Effect E (Store M) α} (hx : W.RenamedAt f x y s p)
    (g : α → M → β) :
    W.RenamedAt f (x >>= fun a ↦ Effect.get fun s ↦ g a s.mem)
      (y >>= fun a ↦ Effect.get fun s ↦ g a s.mem) s p := by
  intro t hmem hp
  rw [Effect.bind_eq (hx t hmem hp), Effect.bind_apply]
  rfl

theorem renamedAt_read (hf : ∀ n, f n ≠ n → W.aliased n = false ∧ W.aliased (f n) = false)
    (x : String) (h : p x) :
    W.RenamedAt f (Effect.get (W.read · x) : Effect E (Store M) Val) (Effect.get (W.read · (f x)))
      s p := by
  intro t hmem hp
  have hread : W.read t (f x) = W.read s x := by
    unfold read
    by_cases hx : f x = x
    · rw [hx, hmem]
      split
      · rfl
      · next hal => rw [← hp x h (by simpa using hal), hx]
    · obtain ⟨hal, hal'⟩ := hf x hx
      rw [hal, hal']
      exact hp x h hal
  simp only [Effect.get_apply, hread, ← hmem]

theorem renamedAt_callOp (callee : String) (target : Option Val) (args : List Val) :
    W.RenamedAt f (W.callOp callee target args) (W.callOp callee target args) s p := by
  intro t hmem _
  exact W.readsOnly_callOp (p := fun _ ↦ False) callee target args s t hmem fun _ h ↦ h.elim

variable (W) in
mutual

/-- Evaluation under new names. -/
theorem renamedAt_eval (hf : ∀ n, f n ≠ n → W.aliased n = false ∧ W.aliased (f n) = false) :
    ∀ e : Expr, e.KeepsAddrs f → ∀ s,
      W.RenamedAt f (W.eval e) (W.eval (e.renameVars f)) s (W.Reads e s)
  | .const ty c, _, s | .reg ty c, _, s | .str ty c, _, s => by
    rw [Expr.renameVars_eq (by simp), Expr.mapChildren, eval]
    exact renamedAt_pure _
  | .var ty x, _, s => by
    rw [Expr.renameVars_var, eval, eval]
    exact renamedAt_read hf x rfl
  | .mem ty a, h, s => by
    rw [Expr.renameVars_eq (by simp), Expr.mapChildren, eval, eval]
    exact (renamedAt_eval hf a (h.child (by simp [Expr.children])) s).get
      fun v m ↦ ty.ext (W.load m ty v)
  | .unary ty op a, h, s => by
    rw [Expr.renameVars_eq (by simp), Expr.mapChildren, eval, eval, Expr.ty_renameVars]
    exact (renamedAt_eval hf a (h.child (by simp [Expr.children])) s).map _
  | .cast ty text a, h, s => by
    rw [Expr.renameVars_eq (by simp), Expr.mapChildren, eval, eval, Expr.ty_renameVars]
    exact (renamedAt_eval hf a (h.child (by simp [Expr.children])) s).map _
  | .binary ty op a b, h, s => by
    rw [Expr.renameVars_eq (by simp), Expr.mapChildren, eval, eval, Expr.ty_renameVars,
      Expr.ty_renameVars]
    refine (renamedAt_eval hf a (h.child (by simp [Expr.children])) s).bind (W.eval_vars a s)
      (q := fun n ↦ shortCircuit op (W.eval a s).2.1 = none ∧ W.Reads b (W.eval a s).2.2 n) ?_
      fun n hn ↦ by simpa only [Reads] using hn
    split
    · exact renamedAt_pure _
    · next hnone =>
      refine ((renamedAt_eval hf b (h.child (by simp [Expr.children])) _).map _).mono
        fun n hn ↦ ⟨hnone, hn⟩
  | .ternary ty a b c, h, s => by
    rw [Expr.renameVars_eq (by simp), Expr.mapChildren, eval, eval]
    refine (renamedAt_eval hf a (h.child (by simp [Expr.children])) s).bind (W.eval_vars a s)
      (q := fun n ↦ if (W.eval a s).2.1 ≠ 0 then W.Reads b (W.eval a s).2.2 n
        else W.Reads c (W.eval a s).2.2 n) ?_ fun n hn ↦ by simpa only [Reads] using hn
    split
    · exact renamedAt_eval hf b (h.child (by simp [Expr.children])) _
    · exact renamedAt_eval hf c (h.child (by simp [Expr.children])) _
  | .addrOf ty a, h, s => by
    rw [Expr.renameVars_eq (by simp), Expr.mapChildren, eval_addrOf, eval_addrOf]
    have ha := renamedAt_eval hf a (h.child (by simp [Expr.children])) s
    cases a with
    | var ty' x =>
      have hx : f x = x := h x (by simp [Expr.anyNode, Expr.isAddrOf])
      rw [Expr.renameVars_var, hx]
      exact renamedAt_pure _
    | mem ty' p =>
      have hp : p.KeepsAddrs f :=
        (h.child (c := .mem ty' p) (by simp [Expr.children])).child (by simp [Expr.children])
      rw [Expr.renameVars_eq (by simp), Expr.mapChildren]
      exact (renamedAt_eval hf p hp s).mono fun n hn ↦ by simpa only [Reads] using hn
    | _ =>
      rw [W.place_of_isPlace rfl, W.place_of_isPlace (by rw [Expr.isPlace_renameVars]; rfl)]
      exact ha
  | .call ty callee i k args, h, s => by
    rw [Expr.renameVars_eq (by simp), Expr.mapChildren, eval, eval]
    have hargs : ∀ e ∈ args, _ := fun e he ↦ h.child (by simpa [Expr.children] using he)
    refine (renamedAt_evalList hf args hargs s).bind
      (W.evalList_vars args s) (q := fun _ ↦ False) (renamedAt_callOp _ _ _) fun n hn ↦ ?_
    simpa [Reads] using hn
  | .callVia ty callee i k target args, h, s => by
    rw [Expr.renameVars_eq (by simp), Expr.mapChildren, eval, eval]
    refine (renamedAt_eval hf target (h.child (by simp [Expr.children])) s).bind
      (W.eval_vars target s) (q := W.ReadsList args (W.eval target s).2.2) ?_
      fun n hn ↦ by simpa only [Reads] using hn
    refine (renamedAt_evalList hf args
      (fun e he ↦ h.child (by simp [Expr.children, he])) _).bind (W.evalList_vars args _)
      (q := fun _ ↦ False) (renamedAt_callOp _ _ _) fun n hn ↦ ?_
    simpa using hn

theorem renamedAt_evalList
    (hf : ∀ n, f n ≠ n → W.aliased n = false ∧ W.aliased (f n) = false) :
    ∀ es : List Expr, (∀ e ∈ es, e.KeepsAddrs f) → ∀ s,
      W.RenamedAt f (W.evalList es) (W.evalList (es.map (Expr.renameVars f))) s (W.ReadsList es s)
  | [], _, s => by
    rw [List.map_nil, evalList]
    exact renamedAt_pure _
  | e :: es, h, s => by
    rw [List.map_cons, evalList, evalList]
    refine (renamedAt_eval hf e (h e (by simp)) s).bind (W.eval_vars e s)
      (q := W.ReadsList es (W.eval e s).2.2) ?_ fun n hn ↦ by simpa only [ReadsList] using hn
    exact (renamedAt_evalList hf es (fun e he ↦ h e (by simp [he])) _).map _

end

/-- The left side of an assignment to no variable under new names. -/
theorem renamedAt_target (hf : ∀ n, f n ≠ n → W.aliased n = false ∧ W.aliased (f n) = false)
    {e : Expr} (h : e.KeepsAddrs f) (hvar : ∀ ty x, e ≠ .var ty x) (s : Store M) :
    W.RenamedAt f (W.target e) (W.target (e.renameVars f)) s (W.TargetReads e s) := by
  have he := W.renamedAt_eval hf e h s
  cases hplace : e.isPlace with
  | false =>
    have hreads : W.TargetReads e s = W.Reads e s := by cases e <;> first | rfl | cases hplace
    rw [W.target_of_isPlace hplace, W.target_of_isPlace (by rw [Expr.isPlace_renameVars, hplace]),
      hreads]
    exact he.map fun _ ↦ Target.nowhere
  | true =>
    cases e with
    | var ty x => exact absurd rfl (hvar ty x)
    | mem ty a =>
      rw [Expr.renameVars_eq (by simp), Expr.mapChildren]
      exact (W.renamedAt_eval hf a (h.child (by simp [Expr.children])) s).map fun p ↦
        Target.mem ty p
    | _ => cases hplace

theorem renamedAt_assign (decl : String → Val → Val) {k : Target} (h : ∀ x, k ≠ .var x) (v : Val) :
    W.RenamedAt f (W.assign decl k v) (W.assign decl k v) s p :=
  fun t hmem _ ↦
    W.readsOnly_assign decl h v (p := fun _ ↦ False) s t hmem fun _ h ↦ h.elim

/-- Statements other than assignments to variables under new names. -/
theorem renamedAt_execStmt (hf : ∀ n, f n ≠ n → W.aliased n = false ∧ W.aliased (f n) = false)
    (decl : String → Val → Val) {st : Stmt} (hdef : ∀ n, st.defOf n = none)
    (h : ∀ e ∈ st.exprs, e.KeepsAddrs f) (s : Store M) :
    W.RenamedAt f (W.execStmt decl st) (W.execStmt decl (st.mapExprs (Expr.renameVars f))) s
      (W.StmtReads st s) := by
  cases st with
  | assign lhs rhs =>
    have hvar : ∀ ty x, lhs ≠ .var ty x := by
      rintro ty x rfl
      simpa [Stmt.defOf] using hdef x
    rw [Stmt.mapExprs, execStmt, execStmt]
    refine (renamedAt_target hf (h lhs (by simp [Stmt.exprs])) hvar s).bind
      ((W.readsOnly_target lhs).vars_eq s) (q := W.Reads rhs (W.target lhs s).2.2) ?_
      fun n hn ↦ hn
    refine (W.renamedAt_eval hf rhs (h rhs (by simp [Stmt.exprs])) _).bind (W.eval_vars rhs _)
      (q := fun _ ↦ False) (renamedAt_assign decl (W.target_ne_var hvar s) _) fun n hn ↦ ?_
    simpa using hn
  | call rhs =>
    rw [Stmt.mapExprs, execStmt, execStmt]
    exact (W.renamedAt_eval hf rhs (h rhs (by simp [Stmt.exprs])) s).map fun _ ↦ ()
  | comment => exact renamedAt_pure _

end Rename

end World

/-! ### A world of traces -/

/-- Memory has a word at each address; stores and calls are traced, calls return `0`. -/
def traceWorld : World (Val → Val) (List Val) where
  aliased _ := false
  getLocal _ _ := 0
  setLocal m _ _ := m
  load m _ p := m p
  store m _ p v := ([[p, v]], Function.update m p v)
  call m _ _ args := ([args], 0, m)
  intrinsic _ _ _ := 0
  addr _ := 0
  str _ := 0
  reg _ := 0
  floatUnop _ _ _ := 0
  floatBinop _ _ _ _ := 0
  floatCast _ _ := 0
  toFloat _ _ _ := 0

/-- Every variable and every word of memory is `0`. -/
def zeroStore : Store (Val → Val) :=
  ⟨fun _ ↦ 0, fun _ ↦ 0⟩

end Ldu
