import Ldu.Semantics.Subst
import Mathlib.Algebra.Order.BigOperators.Group.List
import Mathlib.Algebra.Order.Group.Nat

/-!
# Reads that come first

An expression with calls may be read in place of a variable when the read comes first: it is
evaluated whatever is selected, and nothing before it depends on memory or acts on it
(`Expr.firstRead`). Then evaluating `e.substVar nm r` does what `r` does, and after that what `e`
does in a store where `nm` holds the value of `r` (`World.after_eval`).
-/

namespace Ldu

namespace Expr

/-- The value does not depend on memory, and evaluating the expression does not act on it. -/
def quiet (taken : String → Bool) (e : Expr) : Bool :=
  e.memFree taken && !e.hasImpureCall

mutual

/-- The first thing evaluated that may depend on memory or act on it is a read of `nm`. -/
def firstRead (taken : String → Bool) (nm : String) : Expr → Bool
  | const _ _ | reg _ _ | str _ _ => false
  | var _ n => n == nm
  | mem _ a | unary _ _ a | cast _ _ a | addrOf _ a => firstRead taken nm a
  | binary _ op a b =>
    firstRead taken nm a ||
      (op != .land && op != .lor && a.quiet taken && firstRead taken nm b)
  | ternary _ a _ _ => firstRead taken nm a
  | call _ _ _ _ args => firstReadList taken nm args
  | callVia _ _ _ _ target args =>
    firstRead taken nm target || (target.quiet taken && firstReadList taken nm args)

/-- The same for expressions evaluated one after the other. -/
def firstReadList (taken : String → Bool) (nm : String) : List Expr → Bool
  | [] => false
  | e :: es => firstRead taken nm e || (e.quiet taken && firstReadList taken nm es)

end

section FirstRead

variable {taken : String → Bool} {nm : String} {e : Expr} {es : List Expr}

theorem firstReadList_exists (h : firstReadList taken nm es = true) :
    ∃ e ∈ es, e.firstRead taken nm = true := by
  induction es with
  | nil => cases h
  | cons e es ih =>
    simp only [firstReadList, Bool.or_eq_true, Bool.and_eq_true] at h
    rcases h with h | ⟨-, h⟩
    · exact ⟨e, by simp, h⟩
    · obtain ⟨c, hc, h⟩ := ih h
      exact ⟨c, by simp [hc], h⟩

theorem reads_of_firstRead (h : e.firstRead taken nm = true) : e.readsNamedVar nm = true := by
  induction e using childInduction with
  | h e ih =>
    have hchild : ∀ c ∈ e.children, c.firstRead taken nm = true → e.readsNamedVar nm = true :=
      fun c hc h ↦ readsNamedVar_of_child hc nm (ih c hc h)
    cases e with
    | const | reg | str => cases h
    | var ty n => simpa [firstRead, readsNamedVar, anyNode, isVarNamed] using h
    | mem ty a | unary ty op a | cast ty text a | addrOf ty a | ternary ty a b c =>
      exact hchild a (by simp [children]) h
    | binary ty op a b =>
      simp only [firstRead, Bool.or_eq_true, Bool.and_eq_true] at h
      exact h.elim (hchild a (by simp [children])) fun h ↦ hchild b (by simp [children]) h.2
    | call ty callee i k args =>
      obtain ⟨c, hc, h⟩ := firstReadList_exists h
      exact hchild c (by simpa [children] using hc) h
    | callVia ty callee i k target args =>
      simp only [firstRead, Bool.or_eq_true, Bool.and_eq_true] at h
      rcases h with h | ⟨-, h⟩
      · exact hchild target (by simp [children]) h
      · obtain ⟨c, hc, h⟩ := firstReadList_exists h
        exact hchild c (by simp [children, hc]) h

theorem countVarReads_pos (h : e.readsNamedVar nm = true) : 0 < e.countVarReads nm := by
  refine Nat.pos_of_ne_zero fun hzero ↦ ?_
  rw [readsNamedVar, anyNode_eq_false_iff.2 hzero] at h
  cases h

theorem not_reads_of_count (h : e.countVarReads nm = 0) : e.readsNamedVar nm = false :=
  anyNode_eq_false_iff.2 h

theorem countVarReads_le_sum (nm : String) (he : e ∈ es) :
    e.countVarReads nm ≤ (es.map (·.countVarReads nm)).sum :=
  List.single_le_sum (by simp) _ (List.mem_map_of_mem (f := (·.countVarReads nm)) he)

/-- The reads of a node that is no read itself are those of its operands. -/
theorem countVarReads_eq (h : isVarNamed nm e = false) :
    e.countVarReads nm = (e.children.map (·.countVarReads nm)).sum := by
  rw [countVarReads, countNodes_eq, h]
  simp [countVarReads]

end FirstRead

end Expr

namespace World

variable {M E : Type} (W : World M E)

/-- The store in which `nm` holds the value of `r`, after `r` has been evaluated. -/
def bound (nm : String) (r : Expr) (t : Store M) : Store M :=
  ⟨Function.update t.vars nm (W.eval r t).2.1, (W.eval r t).2.2.mem⟩

/-- From `t`, `y` does what `r` does, then what `x` does with `nm` bound to the value of `r`. -/
def After {α : Type} (nm : String) (r : Expr) (x y : Effect E (Store M) α) (t : Store M) : Prop :=
  y t = ((W.eval r t).1 ++ (x (W.bound nm r t)).1, (x (W.bound nm r t)).2.1,
    ⟨t.vars, (x (W.bound nm r t)).2.2.mem⟩)

section After

variable {W} {α β : Type} {nm : String} {r : Expr} {t : Store M} {taken : String → Bool}

theorem bound_vars_of_ne {n : String} (h : n ≠ nm) : (W.bound nm r t).vars n = t.vars n :=
  Function.update_of_ne h _ _

/-- The read has been evaluated; the rest does not see the variable. -/
theorem After.bind {x y : Effect E (Store M) α} {g h : α → Effect E (Store M) β}
    (hx : W.After nm r x y t)
    (hg : SubstAt (g (x (W.bound nm r t)).2.1) (h (x (W.bound nm r t)).2.1)
      (x (W.bound nm r t)).2.2 t.vars) :
    W.After nm r (x >>= g) (y >>= h) t := by
  unfold After SubstAt at *
  rw [Effect.bind_eq hx, hg, Effect.bind_apply, List.append_assoc]

theorem After.map {x y : Effect E (Store M) α} (hx : W.After nm r x y t) (g : α → β) :
    W.After nm r (x >>= fun a ↦ pure (g a)) (y >>= fun a ↦ pure (g a)) t :=
  hx.bind (substAt_pure _)

/-- The read is still to come. -/
theorem After.bind_silent {x y : Effect E (Store M) α} {g h : α → Effect E (Store M) β}
    (hx : x.SilentAt (W.bound nm r t)) (hy : y.SilentAt t)
    (hvalue : (y t).2.1 = (x (W.bound nm r t)).2.1)
    (hg : W.After nm r (g (x (W.bound nm r t)).2.1) (h (x (W.bound nm r t)).2.1) t) :
    W.After nm r (x >>= g) (y >>= h) t := by
  unfold After at *
  rw [Effect.bind_of_silentAt hx, Effect.bind_of_silentAt hy, hvalue, hg]

/-- What does not read `nm` means the same on both sides. -/
theorem substAt_of_not_reads {e : Expr} (h : e.readsNamedVar nm = false) {s : Store M}
    (hs : s.vars = (W.bound nm r t).vars) :
    SubstAt (W.eval e) (W.eval (e.substVar nm r)) s t.vars := by
  rw [Expr.substVar_of_not_reads h]
  refine W.eval_agree e rfl fun n hn ↦ ?_
  rw [hs, bound_vars_of_ne]
  rintro rfl
  rw [h] at hn
  cases hn

theorem substAt_evalList_of_not_reads {es : List Expr}
    (h : ∀ e ∈ es, e.readsNamedVar nm = false) {s : Store M}
    (hs : s.vars = (W.bound nm r t).vars) :
    SubstAt (W.evalList es) (W.evalList (es.map (·.substVar nm r))) s t.vars := by
  induction es generalizing s with
  | nil => exact substAt_pure _
  | cons e es ih =>
    rw [List.map_cons, evalList, evalList]
    refine (substAt_of_not_reads (h e (by simp)) hs).bind ?_
    exact (ih (fun c hc ↦ h c (by simp [hc])) ((W.eval_vars e s).trans hs)).map _

/-- A quiet operand before the read. -/
theorem After.bind_quiet (halias : ∀ n, W.aliased n = true → taken n = true) {a : Expr}
    (hquiet : a.quiet taken = true) (hreads : a.readsNamedVar nm = false)
    {g h : Val → Effect E (Store M) β}
    (hg : W.After nm r (g (W.eval a (W.bound nm r t)).2.1)
      (h (W.eval a (W.bound nm r t)).2.1) t) :
    W.After nm r (W.eval a >>= g) (W.eval (a.substVar nm r) >>= h) t := by
  simp only [Expr.quiet, Bool.and_eq_true, Bool.not_eq_true'] at hquiet
  rw [Expr.substVar_of_not_reads hreads]
  refine After.bind_silent (W.silent_eval hquiet.2 _) (W.silent_eval hquiet.2 _) ?_ hg
  refine W.eval_memFree halias hquiet.1 hquiet.2 fun n hn ↦ (bound_vars_of_ne ?_).symm
  rintro rfl
  rw [hreads] at hn
  cases hn

theorem shortCircuit_eq_none {op : BinOp} (hland : op ≠ .land) (hlor : op ≠ .lor) (v : Val) :
    shortCircuit op v = none := by
  cases op <;> first | rfl | contradiction

/-- Operands evaluated one after the other, one of which comes first. -/
theorem after_evalList (halias : ∀ n, W.aliased n = true → taken n = true) {es : List Expr}
    (hfirst : Expr.firstReadList taken nm es = true)
    (hcount : (es.map (·.countVarReads nm)).sum = 1)
    (ih : ∀ e ∈ es, e.firstRead taken nm = true → e.countVarReads nm = 1 →
      W.After nm r (W.eval e) (W.eval (e.substVar nm r)) t) :
    W.After nm r (W.evalList es) (W.evalList (es.map (·.substVar nm r))) t := by
  induction es with
  | nil => cases hfirst
  | cons e es ihes =>
    rw [List.map_cons, evalList, evalList]
    rw [List.map_cons, List.sum_cons] at hcount
    simp only [Expr.firstReadList, Bool.or_eq_true, Bool.and_eq_true] at hfirst
    by_cases he : e.firstRead taken nm = true
    · have hpos := Expr.countVarReads_pos (Expr.reads_of_firstRead he)
      refine (ih e (by simp) he (by omega)).bind ?_
      refine (substAt_evalList_of_not_reads (fun c hc ↦ ?_) (W.eval_vars e _)).map _
      have hle := Expr.countVarReads_le_sum nm hc
      exact Expr.not_reads_of_count (by omega)
    · obtain ⟨hquiet, hes⟩ := hfirst.resolve_left he
      obtain ⟨c, hc, hcfirst⟩ := Expr.firstReadList_exists hes
      have hpos := Expr.countVarReads_pos (Expr.reads_of_firstRead hcfirst)
      have hle := Expr.countVarReads_le_sum nm hc
      refine After.bind_quiet halias hquiet (Expr.not_reads_of_count (by omega)) ?_
      exact (ihes hes (by omega) fun d hd ↦ ih d (by simp [hd])).map _

/-- Evaluating `e` with `r` in place of `nm`, where the read of `nm` comes first. -/
theorem after_eval_place (halias : ∀ n, W.aliased n = true → taken n = true)
    (hnm : W.aliased nm = false) {e : Expr} (hsuits : e.suits nm r.ty = true)
    (haddr : e.anyNode (Expr.isAddrOf nm) = false) (hfirst : e.firstRead taken nm = true)
    (hcount : e.countVarReads nm = 1) :
    W.After nm r (W.eval e) (W.eval (e.substVar nm r)) t ∧
      (Expr.isVarNamed nm e = false →
        W.After nm r (W.place e) (W.place (e.substVar nm r)) t) := by
  induction e using Expr.childInduction with
  | h e ihe =>
    have ih : ∀ c ∈ e.children, c.firstRead taken nm = true → c.countVarReads nm = 1 →
        W.After nm r (W.eval c) (W.eval (c.substVar nm r)) t ∧
          (Expr.isVarNamed nm c = false →
            W.After nm r (W.place c) (W.place (c.substVar nm r)) t) := fun c hc ↦
      ihe c hc (Expr.suits_child hc hsuits) (Expr.anyNode_child_eq_false hc haddr)
    have hfloat : ∀ c ∈ e.children, (c.substVar nm r).ty.isFloat = c.ty.isFloat :=
      fun c hc ↦ Expr.isFloat_substVar (Expr.suits_child hc hsuits)
    cases hvar : Expr.isVarNamed nm e with
    | true =>
      obtain ⟨ty, rfl⟩ := Expr.eq_var_of_isVarNamed hvar
      refine ⟨?_, nofun⟩
      rw [Expr.substVar_self, After]
      simp only [eval, Effect.get_apply, read, hnm, Bool.false_eq_true, if_false, bound,
        Function.update_self, List.append_nil]
      exact Prod.ext rfl (Prod.ext rfl (congrArg (Store.mk · _) (W.eval_vars r t)))
    | false =>
      rw [Expr.countVarReads_eq hvar] at hcount
      have heval : W.After nm r (W.eval e) (W.eval (e.substVar nm r)) t := by
        rw [Expr.substVar_eq hvar]
        cases e with
        | const | reg | str => cases hfirst
        | var ty x =>
          rw [Expr.firstRead] at hfirst
          rw [Expr.isVarNamed, hfirst] at hvar
          cases hvar
        | mem ty a =>
          have hone : a.countVarReads nm = 1 := by simpa [Expr.children] using hcount
          rw [Expr.mapChildren, eval, eval]
          exact (ih a (by simp [Expr.children]) hfirst hone).1.bind (substAt_get rfl)
        | unary ty op a =>
          have hone : a.countVarReads nm = 1 := by simpa [Expr.children] using hcount
          rw [Expr.mapChildren, eval, eval]
          simp only [unop, hfloat a (by simp [Expr.children])]
          exact (ih a (by simp [Expr.children]) hfirst hone).1.map _
        | cast ty text a =>
          have hone : a.countVarReads nm = 1 := by simpa [Expr.children] using hcount
          rw [Expr.mapChildren, eval, eval]
          simp only [castOp_substVar hsuits]
          exact (ih a (by simp [Expr.children]) hfirst hone).1.map _
        | binary ty op a b =>
          have hsum : a.countVarReads nm + b.countVarReads nm = 1 := by
            simpa [Expr.children] using hcount
          rw [Expr.mapChildren, eval, eval]
          simp only [binop, hfloat a (by simp [Expr.children]),
            hfloat b (by simp [Expr.children])]
          simp only [Expr.firstRead, Bool.or_eq_true, Bool.and_eq_true, bne_iff_ne] at hfirst
          by_cases ha : a.firstRead taken nm = true
          · have hpos := Expr.countVarReads_pos (Expr.reads_of_firstRead ha)
            refine (ih a (by simp [Expr.children]) ha (by omega)).1.bind ?_
            split
            · exact substAt_pure _
            · exact (substAt_of_not_reads (Expr.not_reads_of_count (by omega))
                (W.eval_vars a _)).map _
          · obtain ⟨⟨⟨hland, hlor⟩, hquiet⟩, hb⟩ := hfirst.resolve_left ha
            have hpos := Expr.countVarReads_pos (Expr.reads_of_firstRead hb)
            refine After.bind_quiet halias hquiet (Expr.not_reads_of_count (by omega)) ?_
            rw [shortCircuit_eq_none hland hlor]
            exact (ih b (by simp [Expr.children]) hb (by omega)).1.map _
        | ternary ty a b c =>
          have hsum : a.countVarReads nm + (b.countVarReads nm + c.countVarReads nm) = 1 := by
            simpa [Expr.children] using hcount
          have hpos := Expr.countVarReads_pos (Expr.reads_of_firstRead
            (show a.firstRead taken nm = true from hfirst))
          rw [Expr.mapChildren, eval, eval]
          refine (ih a (by simp [Expr.children]) hfirst (by omega)).1.bind ?_
          split
          · exact substAt_of_not_reads (Expr.not_reads_of_count (by omega)) (W.eval_vars a _)
          · exact substAt_of_not_reads (Expr.not_reads_of_count (by omega)) (W.eval_vars a _)
        | addrOf ty a =>
          have hone : a.countVarReads nm = 1 := by simpa [Expr.children] using hcount
          rw [Expr.mapChildren, eval_addrOf, eval_addrOf]
          refine (ih a (by simp [Expr.children]) hfirst hone).2 ?_
          rw [Expr.anyNode_eq, Bool.or_eq_false_iff] at haddr
          cases a <;> first | rfl | exact haddr.1
        | call ty callee i k args =>
          rw [Expr.mapChildren, eval, eval]
          exact (after_evalList halias hfirst hcount fun c hc hc' hone ↦
            (ih c (by simpa [Expr.children] using hc) hc' hone).1).bind (W.substAt_callOp _ _ _)
        | callVia ty callee i k target args =>
          rw [Expr.children, List.map_cons, List.sum_cons] at hcount
          rw [Expr.mapChildren, eval, eval]
          simp only [Expr.firstRead, Bool.or_eq_true, Bool.and_eq_true] at hfirst
          by_cases htarget : target.firstRead taken nm = true
          · have hpos := Expr.countVarReads_pos (Expr.reads_of_firstRead htarget)
            refine (ih target (by simp [Expr.children]) htarget (by omega)).1.bind ?_
            refine (substAt_evalList_of_not_reads (fun c hc ↦ ?_) (W.eval_vars target _)).bind
              (W.substAt_callOp _ _ _)
            have hle := Expr.countVarReads_le_sum nm hc
            exact Expr.not_reads_of_count (by omega)
          · obtain ⟨hquiet, hargs⟩ := hfirst.resolve_left htarget
            obtain ⟨c, hc, hcfirst⟩ := Expr.firstReadList_exists hargs
            have hpos := Expr.countVarReads_pos (Expr.reads_of_firstRead hcfirst)
            have hle := Expr.countVarReads_le_sum nm hc
            refine After.bind_quiet halias hquiet (Expr.not_reads_of_count (by omega)) ?_
            exact (after_evalList halias hargs (by omega) fun c hc hc' hone ↦
              (ih c (by simp [Expr.children, hc]) hc' hone).1).bind (W.substAt_callOp _ _ _)
      refine ⟨heval, fun _ ↦ ?_⟩
      rw [Expr.substVar_eq hvar] at heval ⊢
      cases e with
      | var ty x =>
        rw [Expr.firstRead] at hfirst
        rw [Expr.isVarNamed, hfirst] at hvar
        cases hvar
      | mem ty a =>
        exact (ih a (by simp [Expr.children]) hfirst (by simpa [Expr.children] using hcount)).1
      | _ => exact heval

theorem after_eval (halias : ∀ n, W.aliased n = true → taken n = true)
    (hnm : W.aliased nm = false) {e : Expr} (hsuits : e.suits nm r.ty = true)
    (haddr : e.anyNode (Expr.isAddrOf nm) = false) (hfirst : e.firstRead taken nm = true)
    (hcount : e.countVarReads nm = 1) :
    W.After nm r (W.eval e) (W.eval (e.substVar nm r)) t :=
  (after_eval_place halias hnm hsuits haddr hfirst hcount).1

end After

end World

end Ldu
