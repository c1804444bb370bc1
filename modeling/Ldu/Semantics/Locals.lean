import Ldu.Semantics.Reads

/-!
# Locals in memory

Locals whose address is taken live in memory, where loads and calls may look at them without naming
them. `LocalMemory` says of a world which part of memory belongs to which local: memories that
differ at most in some locals (`Same`) do so after the same store or assignment, and a load or a
call that looks at none of these locals does the same in both.

`Sees` are the locals at which an evaluation looks through memory. An evaluation that neither names
nor sees the locals in which two stores differ means the same in both (`framedAt_eval`).
-/

namespace Ldu

/-- What of memory belongs to which local. -/
structure LocalMemory {M E : Type} (W : World M E) where
  /-- The memories differ at most in the locals in `P`. -/
  Same : (String → Prop) → M → M → Prop
  /-- A load of this type at this address reads a part of the local. -/
  loadHits : Ty → Val → String → Prop
  /-- In this memory, what the call does depends on the value of the local. -/
  callSees : M → String → Option Val → List Val → String → Prop
  same_refl : ∀ P m, Same P m m
  eq_of_same : ∀ {P m m'}, (∀ x, ¬P x) → Same P m m' → m' = m
  same_mono : ∀ {P Q : String → Prop} {m m'}, (∀ x, P x → Q x) → Same P m m' → Same Q m m'
  /-- A local may be assigned in one of the memories. -/
  same_setLocal_left : ∀ {P m m' x} v, W.aliased x = true → P x → Same P m m' →
    Same P (W.setLocal m x v) m'
  /-- Assigned in both, it is the same afterwards. -/
  same_setLocal : ∀ {P m m' x} v, W.aliased x = true → Same P m m' →
    Same (fun y ↦ P y ∧ y ≠ x) (W.setLocal m x v) (W.setLocal m' x v)
  getLocal_eq : ∀ {P m m' x}, W.aliased x = true → ¬P x → Same P m m' →
    W.getLocal m' x = W.getLocal m x
  load_eq : ∀ {P m m' ty p}, (∀ x, P x → ¬loadHits ty p x) → Same P m m' →
    W.load m' ty p = W.load m ty p
  store_same : ∀ {P m m'} ty p v, Same P m m' →
    (W.store m' ty p v).1 = (W.store m ty p v).1 ∧
      Same P (W.store m ty p v).2 (W.store m' ty p v).2
  call_same : ∀ {P m m'} callee target args, (∀ x, P x → ¬callSees m callee target args x) →
    Same P m m' →
    (W.call m' callee target args).1 = (W.call m callee target args).1 ∧
      (W.call m' callee target args).2.1 = (W.call m callee target args).2.1 ∧
      Same P (W.call m callee target args).2.2 (W.call m' callee target args).2.2

namespace LocalMemory

variable {M E : Type} {W : World M E} (F : LocalMemory W)

/-! ### What an evaluation sees -/

mutual

/-- Evaluating the expression from this store looks at the local through memory. -/
def Sees : Expr → Store M → String → Prop
  | .const _ _, _, _ | .reg _ _, _, _ | .str _ _, _, _ | .var _ _, _, _ => False
  | .mem ty a, s, x => Sees a s x ∨ F.loadHits ty (W.eval a s).2.1 x
  | .unary _ _ a, s, x | .cast _ _ a, s, x => Sees a s x
  | .binary _ op a b, s, x =>
    Sees a s x ∨ (shortCircuit op (W.eval a s).2.1 = none ∧ Sees b (W.eval a s).2.2 x)
  | .ternary _ a b c, s, x =>
    Sees a s x ∨
      if (W.eval a s).2.1 ≠ 0 then Sees b (W.eval a s).2.2 x else Sees c (W.eval a s).2.2 x
  | .addrOf _ (.var _ _), _, _ => False
  | .addrOf _ (.mem _ a), s, x => Sees a s x
  | .addrOf _ a, s, x => Sees a s x
  | .call _ callee _ _ args, s, x =>
    SeesList args s x ∨ (Expr.isPureCallee callee = false ∧
      F.callSees (W.evalList args s).2.2.mem callee none (W.evalList args s).2.1 x)
  | .callVia _ callee _ _ target args, s, x =>
    let t := W.eval target s
    Sees target s x ∨ SeesList args t.2.2 x ∨ (Expr.isPureCallee callee = false ∧
      F.callSees (W.evalList args t.2.2).2.2.mem callee (some t.2.1) (W.evalList args t.2.2).2.1 x)

def SeesList : List Expr → Store M → String → Prop
  | [], _, _ => False
  | e :: es, s, x => Sees e s x ∨ SeesList es (W.eval e s).2.2 x

end

/-- Evaluating the left side of an assignment looks at the local. -/
def TargetSees : Expr → Store M → String → Prop
  | .var _ _, _, _ => False
  | .mem _ a, s, x => F.Sees a s x
  | a, s, x => F.Sees a s x

/-- Executing the statement looks at the local. -/
def StmtSees : Stmt → Store M → String → Prop
  | .assign lhs rhs, s, x => F.TargetSees lhs s x ∨ F.Sees rhs (W.target lhs s).2.2 x
  | .call rhs, s, x => F.Sees rhs s x
  | .comment _, _, _ => False

/-! ### Evaluations that do not see a local -/

section Framed

variable {α β : Type} {P : String → Prop} {s : Store M}

/-- `x` does what it does from `s` in all stores that differ from it in the locals in `P` only and
in variables that are not in `p`. -/
def FramedAt (P : String → Prop) (x : Effect E (Store M) α) (s : Store M) (p : String → Prop) :
    Prop :=
  ∀ t, F.Same P s.mem t.mem → (∀ n, p n → t.vars n = s.vars n) →
    ∃ m, x t = ((x s).1, (x s).2.1, ⟨t.vars, m⟩) ∧ F.Same P (x s).2.2.mem m

variable {F}

theorem FramedAt.mono {x : Effect E (Store M) α} {p q : String → Prop} (h : F.FramedAt P x s p)
    (hpq : ∀ n, p n → q n) : F.FramedAt P x s q :=
  fun t hmem hq ↦ h t hmem fun n hn ↦ hq n (hpq n hn)

theorem framedAt_pure (a : α) {p : String → Prop} :
    F.FramedAt P (pure a : Effect E (Store M) α) s p :=
  fun t hmem _ ↦ ⟨t.mem, rfl, hmem⟩

theorem framedAt_get {f : Store M → α} {p : String → Prop}
    (h : ∀ t, F.Same P s.mem t.mem → (∀ n, p n → t.vars n = s.vars n) → f t = f s) :
    F.FramedAt P (Effect.get f : Effect E (Store M) α) s p :=
  fun t hmem hp ↦ ⟨t.mem, by rw [Effect.get_apply, Effect.get_apply, h t hmem hp], hmem⟩

theorem FramedAt.bind {x : Effect E (Store M) α} {f : α → Effect E (Store M) β}
    {p : String → Prop} (hx : F.FramedAt P x s p) (hvars : (x s).2.2.vars = s.vars)
    (hf : F.FramedAt P (f (x s).2.1) (x s).2.2 p) : F.FramedAt P (x >>= f) s p := by
  intro t hmem hp
  obtain ⟨m, hm, hsame⟩ := hx t hmem hp
  obtain ⟨m', hm', hsame'⟩ := hf ⟨t.vars, m⟩ hsame (by rwa [hvars])
  refine ⟨m', ?_, hsame'⟩
  rw [Effect.bind_eq hm, hm', Effect.bind_apply]

theorem framedAt_read {x : String} {p : String → Prop} (hp : p x) (hx : ¬P x) :
    F.FramedAt P (Effect.get (W.read · x) : Effect E (Store M) Val) s p := by
  refine framedAt_get fun t hmem hvars ↦ ?_
  unfold World.read
  split
  · next hal => exact F.getLocal_eq hal hx hmem
  · exact hvars x hp

theorem framedAt_callOp {callee : String} {target : Option Val} {args : List Val}
    {p : String → Prop} (h : ∀ x, P x → ¬(Expr.isPureCallee callee = false ∧
      F.callSees s.mem callee target args x)) :
    F.FramedAt P (W.callOp callee target args) s p := by
  intro t hmem _
  unfold World.callOp
  split
  · exact ⟨t.mem, rfl, hmem⟩
  · next hpure =>
    obtain ⟨hev, hval, hsame⟩ := F.call_same callee target args
      (fun x hx hsees ↦ h x hx ⟨by simpa using hpure, hsees⟩) hmem
    refine ⟨_, ?_, hsame⟩
    dsimp only
    rw [hev, hval]

variable (F)

/-- No local in `P` is named in the expression. -/
def Unnamed (P : String → Prop) (e : Expr) : Prop :=
  ∀ x, P x → e.readsNamedVar x = false

theorem Unnamed.child {e c : Expr} (h : Unnamed P e) (hc : c ∈ e.children) : Unnamed P c :=
  fun x hx ↦ Bool.eq_false_iff.2 fun hread ↦
    absurd (Expr.readsNamedVar_of_child hc x hread) (by simp [h x hx])

mutual

/-- An evaluation that neither names nor sees the locals in `P`. -/
theorem framedAt_eval : ∀ (e : Expr) (s : Store M), Unnamed P e →
    (∀ x, P x → ¬F.Sees e s x) → F.FramedAt P (W.eval e) s (e.readsNamedVar · = true)
  | .const _ _, _, _, _ | .reg _ _, _, _, _ | .str _ _, _, _, _ => by
    rw [World.eval]
    exact framedAt_pure _
  | .var ty x, _, hname, _ => by
    rw [World.eval]
    have hx : (Expr.var ty x).readsNamedVar x = true := by
      simp [Expr.readsNamedVar, Expr.anyNode, Expr.isVarNamed]
    exact framedAt_read hx fun hP ↦ absurd hx (by simp [hname x hP])
  | .mem ty a, s, hname, hsees => by
    rw [World.eval]
    simp only [Sees, not_or] at hsees
    have hchild : a ∈ (Expr.mem ty a).children := by simp [Expr.children]
    refine ((framedAt_eval a s (hname.child hchild) fun x hx ↦ (hsees x hx).1).mono
      (Expr.readsNamedVar_of_child hchild)).bind (W.eval_vars a s) (framedAt_get fun t hmem _ ↦ ?_)
    rw [F.load_eq (fun x hx ↦ (hsees x hx).2) hmem]
  | .unary ty op a, s, hname, hsees => by
    rw [World.eval]
    have hchild : a ∈ (Expr.unary ty op a).children := by simp [Expr.children]
    exact ((framedAt_eval a s (hname.child hchild) hsees).mono
      (Expr.readsNamedVar_of_child hchild)).bind (W.eval_vars a s) (framedAt_pure _)
  | .cast ty text a, s, hname, hsees => by
    rw [World.eval]
    have hchild : a ∈ (Expr.cast ty text a).children := by simp [Expr.children]
    exact ((framedAt_eval a s (hname.child hchild) hsees).mono
      (Expr.readsNamedVar_of_child hchild)).bind (W.eval_vars a s) (framedAt_pure _)
  | .binary ty op a b, s, hname, hsees => by
    rw [World.eval]
    simp only [Sees, not_or, not_and] at hsees
    have ha : a ∈ (Expr.binary ty op a b).children := by simp [Expr.children]
    have hb : b ∈ (Expr.binary ty op a b).children := by simp [Expr.children]
    refine ((framedAt_eval a s (hname.child ha) fun x hx ↦ (hsees x hx).1).mono
      (Expr.readsNamedVar_of_child ha)).bind (W.eval_vars a s) ?_
    split
    · exact framedAt_pure _
    · next hnone =>
      exact ((framedAt_eval b _ (hname.child hb) fun x hx ↦ (hsees x hx).2 hnone).mono
        (Expr.readsNamedVar_of_child hb)).bind (W.eval_vars b _) (framedAt_pure _)
  | .ternary ty a b c, s, hname, hsees => by
    rw [World.eval]
    simp only [Sees, not_or] at hsees
    have ha : a ∈ (Expr.ternary ty a b c).children := by simp [Expr.children]
    have hb : b ∈ (Expr.ternary ty a b c).children := by simp [Expr.children]
    have hc : c ∈ (Expr.ternary ty a b c).children := by simp [Expr.children]
    refine ((framedAt_eval a s (hname.child ha) fun x hx ↦ (hsees x hx).1).mono
      (Expr.readsNamedVar_of_child ha)).bind (W.eval_vars a s) ?_
    split
    · next hv =>
      exact (framedAt_eval b _ (hname.child hb) fun x hx ↦ by
        simpa only [if_pos hv] using (hsees x hx).2).mono (Expr.readsNamedVar_of_child hb)
    · next hv =>
      exact (framedAt_eval c _ (hname.child hc) fun x hx ↦ by
        simpa only [if_neg hv] using (hsees x hx).2).mono (Expr.readsNamedVar_of_child hc)
  | .addrOf ty a, s, hname, hsees => by
    rw [World.eval_addrOf]
    have hchild : a ∈ (Expr.addrOf ty a).children := by simp [Expr.children]
    cases a with
    | var => exact framedAt_pure _
    | mem ty' a =>
      have ha : a ∈ (Expr.mem ty' a).children := by simp [Expr.children]
      exact (framedAt_eval a s ((hname.child hchild).child ha) hsees).mono fun n hn ↦
        Expr.readsNamedVar_of_child hchild n (Expr.readsNamedVar_of_child ha n hn)
    | _ =>
      exact (framedAt_eval _ s (hname.child hchild) hsees).mono
        (Expr.readsNamedVar_of_child hchild)
  | .call ty callee i k args, s, hname, hsees => by
    rw [World.eval]
    simp only [Sees, not_or] at hsees
    have hchild {e : Expr} (he : e ∈ args) : e ∈ (Expr.call ty callee i k args).children := by
      simpa [Expr.children] using he
    refine ((framedAt_evalList args s (fun e he ↦ hname.child (hchild he))
      fun x hx ↦ (hsees x hx).1).mono fun n ⟨e, he, hn⟩ ↦
        Expr.readsNamedVar_of_child (hchild he) n hn).bind (W.evalList_vars args s)
      (framedAt_callOp fun x hx ↦ (hsees x hx).2)
  | .callVia ty callee i k target args, s, hname, hsees => by
    rw [World.eval]
    simp only [Sees, not_or] at hsees
    have ht : target ∈ (Expr.callVia ty callee i k target args).children := by
      simp [Expr.children]
    have hchild {e : Expr} (he : e ∈ args) :
        e ∈ (Expr.callVia ty callee i k target args).children := by
      simp [Expr.children, he]
    refine ((framedAt_eval target s (hname.child ht) fun x hx ↦ (hsees x hx).1).mono
      (Expr.readsNamedVar_of_child ht)).bind (W.eval_vars target s) ?_
    exact ((framedAt_evalList args _ (fun e he ↦ hname.child (hchild he))
      fun x hx ↦ (hsees x hx).2.1).mono fun n ⟨e, he, hn⟩ ↦
        Expr.readsNamedVar_of_child (hchild he) n hn).bind (W.evalList_vars args _)
      (framedAt_callOp fun x hx ↦ (hsees x hx).2.2)

theorem framedAt_evalList : ∀ (es : List Expr) (s : Store M), (∀ e ∈ es, Unnamed P e) →
    (∀ x, P x → ¬F.SeesList es s x) →
    F.FramedAt P (W.evalList es) s fun n ↦ ∃ e ∈ es, e.readsNamedVar n = true
  | [], _, _, _ => by
    rw [World.evalList]
    exact framedAt_pure _
  | e :: es, s, hname, hsees => by
    rw [World.evalList]
    simp only [SeesList, not_or] at hsees
    refine ((framedAt_eval e s (hname e (by simp)) fun x hx ↦ (hsees x hx).1).mono
      fun n hn ↦ ⟨e, by simp, hn⟩).bind (W.eval_vars e s) ?_
    exact ((framedAt_evalList es _ (fun e he ↦ hname e (by simp [he]))
      fun x hx ↦ (hsees x hx).2).mono fun n ⟨e, he, hn⟩ ↦ ⟨e, by simp [he], hn⟩).bind
        (W.evalList_vars es _) (framedAt_pure _)

end

/-! ### Statements -/

theorem framedAt_target {e : Expr} (s : Store M) (hvar : ∀ ty x, e ≠ .var ty x)
    (hname : Unnamed P e) (hsees : ∀ x, P x → ¬F.TargetSees e s x) :
    F.FramedAt P (W.target e) s (e.readsNamedVar · = true) := by
  cases hplace : e.isPlace with
  | false =>
    have heq : F.TargetSees e s = F.Sees e s := by cases e <;> first | rfl | cases hplace
    rw [W.target_of_isPlace hplace]
    exact (F.framedAt_eval e s hname (by rwa [heq] at hsees)).bind (W.eval_vars e s)
      (framedAt_pure _)
  | true =>
    cases e with
    | var ty x => exact absurd rfl (hvar ty x)
    | mem ty a =>
      have ha : a ∈ (Expr.mem ty a).children := by simp [Expr.children]
      exact ((F.framedAt_eval a s (hname.child ha) hsees).mono
        (Expr.readsNamedVar_of_child ha)).bind (W.eval_vars a s) (framedAt_pure _)
    | _ => cases hplace

theorem framedAt_assign (decl : String → Val → Val) {k : World.Target} (h : ∀ x, k ≠ .var x)
    (v : Val) {p : String → Prop} : F.FramedAt P (W.assign decl k v) s p := by
  intro t hmem _
  cases k with
  | var x => exact absurd rfl (h x)
  | mem ty p =>
    obtain ⟨hev, hsame⟩ := F.store_same ty p v hmem
    refine ⟨_, ?_, hsame⟩
    unfold World.assign
    dsimp only
    rw [hev]
  | nowhere => exact ⟨t.mem, rfl, hmem⟩

/-- Statements other than assignments to variables. -/
theorem framedAt_execStmt (decl : String → Val → Val) {st : Stmt} (s : Store M)
    (hdef : ∀ n, st.defOf n = none) (hreads : ∀ x, P x → st.reads x = false)
    (hsees : ∀ x, P x → ¬F.StmtSees st s x) :
    F.FramedAt P (W.execStmt decl st) s (st.reads · = true) := by
  cases st with
  | assign lhs rhs =>
    have hvar : ∀ ty x, lhs ≠ .var ty x := by
      rintro ty x rfl
      simpa [Stmt.defOf] using hdef x
    have hlhs (n : String) : lhs.readsNamedVar n = true → (Stmt.assign lhs rhs).reads n = true :=
      Stmt.reads_lhs hvar
    have hrhs (n : String) : rhs.readsNamedVar n = true → (Stmt.assign lhs rhs).reads n = true :=
      Stmt.reads_rhs
    have hname {e : Expr}
        (he : ∀ n, e.readsNamedVar n = true → (Stmt.assign lhs rhs).reads n = true) :
        Unnamed P e := fun x hx ↦
      Bool.eq_false_iff.2 fun hread ↦ absurd (he x hread) (by simp [hreads x hx])
    simp only [StmtSees, not_or] at hsees
    rw [World.execStmt]
    refine ((F.framedAt_target s hvar (hname hlhs) fun x hx ↦ (hsees x hx).1).mono hlhs).bind
      ((W.readsOnly_target lhs).vars_eq s) ?_
    exact ((F.framedAt_eval rhs _ (hname hrhs) fun x hx ↦ (hsees x hx).2).mono hrhs).bind
      (W.eval_vars rhs _) (F.framedAt_assign decl (W.target_ne_var hvar s) _)
  | call rhs =>
    have hrhs (n : String) : rhs.readsNamedVar n = true → (Stmt.call rhs).reads n = true := by
      simp [Stmt.reads, Stmt.exprs]
    rw [World.execStmt]
    exact ((F.framedAt_eval rhs s (fun x hx ↦ Bool.eq_false_iff.2 fun hread ↦
      absurd (hrhs x hread) (by simp [hreads x hx])) hsees).mono hrhs).bind (W.eval_vars rhs s)
      (framedAt_pure _)
  | comment => exact framedAt_pure _

end Framed

end LocalMemory

end Ldu
