import Ldu.Semantics.Flow
import Mathlib.Logic.Function.Basic

/-!
# Flag variables on top of an interpretation

A pass that introduces control flags needs a meaning for them that leaves the meaning of the
program alone. `Interp.withFlags` adds a store of flags to an arbitrary interpretation:
assignments of constants to flags and tests of flags act on the store, silently; everything
else is interpreted as before.

A block that does not mention a flag neither reads nor changes it (`runBlock_setFlag`), and a
graph that mentions no flag runs as without them (`withFlags_sameBehaviour`).
-/

namespace Ldu

open Ldu.Expr

/-- `flag = k`, for a name that is a flag. -/
def flagSet? (isFlag : String → Bool) : Stmt → Option (String × ℕ)
  | .assign (.var _ f) (.const _ k) => if isFlag f then some (f, k.toNat) else none
  | _ => none

/-- A test of a flag: that it is set, or that it has a given value. -/
def flagTest? (isFlag : String → Bool) : Expr → Option ((String → ℕ) → Bool)
  | .var _ f => if isFlag f then some fun φ ↦ φ f != 0 else none
  | .binary _ .eq (.var _ f) (.const _ k) =>
    if isFlag f then some fun φ ↦ φ f == k.toNat else none
  | _ => none

section

variable {σ E R : Type*}

/-- The interpretation with a store of flags added. -/
def Interp.withFlags (I : Interp σ E R) (isFlag : String → Bool) :
    Interp (σ × (String → ℕ)) E R where
  exec st x :=
    match flagSet? isFlag st with
    | some (f, k) => ([], .inl (x.1, Function.update x.2 f k))
    | none => ((I.exec st x.1).1, (I.exec st x.1).2.map (·, x.2) id)
  test c x :=
    match flagTest? isFlag c with
    | some t => ([], t x.2, x)
    | none => ((I.test c x.1).1, (I.test c x.1).2.1, (I.test c x.1).2.2, x.2)
  select e x := ((I.select e x.1).1, (I.select e x.1).2.1, (I.select e x.1).2.2, x.2)
  leave r x := I.leave r x.1

/-- Give a flag a value. -/
def setFlag (f : String) (k : ℕ) (x : σ × (String → ℕ)) : σ × (String → ℕ) :=
  (x.1, Function.update x.2 f k)

@[simp] theorem setFlag_setFlag (f : String) (k k' : ℕ) (x : σ × (String → ℕ)) :
    setFlag f k (setFlag f k' x) = setFlag f k x := by
  simp [setFlag]

@[simp] theorem setFlag_get (f : String) (x : σ × (String → ℕ)) : setFlag f (x.2 f) x = x := by
  simp [setFlag]

@[simp] theorem setFlag_apply (f : String) (k : ℕ) (x : σ × (String → ℕ)) :
    (setFlag f k x).2 f = k := by
  simp [setFlag]

/-- A step with a function applied to the state it continues in. -/
def mapState {τ : Type*} (h : σ → τ) (y : List E × Next σ R) : List E × Next τ R :=
  (y.1, y.2.map (fun p ↦ (p.1, h p.2)) id)

@[simp] theorem mapState_emit {τ : Type*} (h : σ → τ) (es : List E) (y : List E × Next σ R) :
    mapState h (emit es y) = emit es (mapState h y) := rfl

/-! ### Blocks that do not mention a flag -/

section Frame

variable {I : Interp σ E R} {isFlag : String → Bool} {usedReturn : Bool} {f : String} {k : ℕ}
  {b : Block}

theorem exec_setFlag {st : Stmt} (h : ∀ e ∈ st.exprs, readsNamedVar e f = false)
    (x : σ × (String → ℕ)) :
    (I.withFlags isFlag).exec st (setFlag f k x) =
      (((I.withFlags isFlag).exec st x).1,
        ((I.withFlags isFlag).exec st x).2.map (setFlag f k) id) := by
  simp only [Interp.withFlags]
  cases hset : flagSet? isFlag st with
  | some p =>
    obtain ⟨f', k'⟩ := p
    unfold flagSet? at hset
    split at hset
    · next ty f'' _ v =>
      split at hset
      · obtain ⟨rfl, rfl⟩ := by simpa using hset
        have hne : f'' ≠ f := by
          rintro rfl
          have := h (.var ty f'') (by simp [Stmt.exprs])
          simp [readsNamedVar, anyNode, isVarNamed] at this
        simp [setFlag, Function.update_comm hne]
      · exact absurd hset (by simp)
    · exact absurd hset (by simp)
  | none =>
    rcases hx : I.exec st x.1 with ⟨es, s' | r⟩ <;> simp [setFlag, hx]

theorem flagTest?_setFlag {c : Expr} (h : readsNamedVar c f = false)
    {t : (String → ℕ) → Bool} (ht : flagTest? isFlag c = some t) (x : σ × (String → ℕ)) :
    t (setFlag f k x).2 = t x.2 := by
  unfold flagTest? at ht
  split at ht
  · next ty f' =>
    split at ht
    · have hne : f' ≠ f := by simpa [readsNamedVar, anyNode, isVarNamed] using h
      obtain rfl := Option.some.inj ht
      simp [setFlag, Function.update_of_ne hne]
    · exact absurd ht (by simp)
  · next _ ty f' _ v =>
    split at ht
    · have hne : f' ≠ f := by simpa [readsNamedVar, anyNode, isVarNamed] using h
      obtain rfl := Option.some.inj ht
      simp [setFlag, Function.update_of_ne hne]
    · exact absurd ht (by simp)
  · exact absurd ht (by simp)

theorem test_setFlag (I : Interp σ E R) (isFlag : String → Bool) (k : ℕ) {c : Expr}
    (h : readsNamedVar c f = false) (x : σ × (String → ℕ)) :
    (I.withFlags isFlag).test c (setFlag f k x) =
      (((I.withFlags isFlag).test c x).1, ((I.withFlags isFlag).test c x).2.1,
        setFlag f k ((I.withFlags isFlag).test c x).2.2) := by
  simp only [Interp.withFlags]
  cases ht : flagTest? isFlag c with
  | some t => simp [flagTest?_setFlag h ht]
  | none => rfl

theorem execAll_setFlag {sts : List Stmt}
    (h : ∀ st ∈ sts, ∀ e ∈ st.exprs, readsNamedVar e f = false) (x : σ × (String → ℕ)) :
    (I.withFlags isFlag).execAll sts (setFlag f k x) =
      (((I.withFlags isFlag).execAll sts x).1,
        ((I.withFlags isFlag).execAll sts x).2.map (setFlag f k) id) := by
  induction sts generalizing x with
  | nil => rfl
  | cons st sts ih =>
    obtain ⟨hst, hsts⟩ := List.forall_mem_cons.1 h
    rw [Interp.execAll, Interp.execAll, exec_setFlag hst]
    rcases (I.withFlags isFlag).exec st x with ⟨es, x' | r⟩
    · simp [ih hsts, emit]
    · rfl

theorem goTo_setFlag (t : Option ℕ) (x : σ × (String → ℕ)) :
    goTo (I.withFlags isFlag) usedReturn b t (setFlag f k x) =
      mapState (setFlag f k) (goTo (I.withFlags isFlag) usedReturn b t x) := by
  cases t <;> rfl

theorem condExpr_not_mentions (h : b.mentions f = false) :
    readsNamedVar b.condExpr f = false := by
  cases hc : b.cond with
  | none => simp [Block.condExpr, hc, mkConst, readsNamedVar, anyNode, isVarNamed]
  | some c =>
    have := mentions_eq_false.1 h c (by simp [Block.exprs, Block.termExprs, hc])
    simpa [Block.condExpr, hc] using this

theorem transfer_setFlag (h : b.mentions f = false) (x : σ × (String → ℕ)) :
    transfer (I.withFlags isFlag) usedReturn b (setFlag f k x) =
      mapState (setFlag f k) (transfer (I.withFlags isFlag) usedReturn b x) := by
  have htest := test_setFlag I isFlag k (condExpr_not_mentions h) x
  have hselect : (I.withFlags isFlag).select b.selExpr (setFlag f k x) =
      (((I.withFlags isFlag).select b.selExpr x).1, ((I.withFlags isFlag).select b.selExpr x).2.1,
        setFlag f k ((I.withFlags isFlag).select b.selExpr x).2.2) := rfl
  unfold transfer
  split
  · rfl
  · rw [hselect, mapState_emit]
    exact congrArg (emit _) (goTo_setFlag _ _)
  · rw [htest, mapState_emit]
    exact congrArg (emit _) (goTo_setFlag _ _)
  · exact goTo_setFlag _ _
  · exact goTo_setFlag _ _

/-- A block that does not mention a flag neither reads nor changes it. -/
theorem runBlock_setFlag (h : b.mentions f = false) (x : σ × (String → ℕ)) :
    runBlock (I.withFlags isFlag) usedReturn b (setFlag f k x) =
      mapState (setFlag f k) (runBlock (I.withFlags isFlag) usedReturn b x) := by
  have hstmts : ∀ st ∈ b.stmts, ∀ e ∈ st.exprs, readsNamedVar e f = false := fun st hst e he ↦
    mentions_eq_false.1 h e (List.mem_append_left _ (List.mem_flatMap.2 ⟨st, hst, he⟩))
  unfold runBlock
  rw [execAll_setFlag hstmts]
  rcases (I.withFlags isFlag).execAll b.stmts x with ⟨es, x' | r⟩
  · exact congrArg (emit es) (transfer_setFlag h x')
  · rfl

end Frame

/-! ### Graphs that mention no flag -/

section Unflagged

variable {I : Interp σ E R} {isFlag : String → Bool} {usedReturn : Bool} {b : Block}

theorem flagSet?_eq_none {st : Stmt}
    (h : ∀ f, isFlag f = true → ∀ e ∈ st.exprs, readsNamedVar e f = false) :
    flagSet? isFlag st = none := by
  unfold flagSet?
  split
  · next ty f _ v =>
    refine if_neg fun hf ↦ ?_
    have := h f hf (.var ty f) (by simp [Stmt.exprs])
    simp [readsNamedVar, anyNode, isVarNamed] at this
  · rfl

theorem flagTest?_eq_none {c : Expr} (h : ∀ f, isFlag f = true → readsNamedVar c f = false) :
    flagTest? isFlag c = none := by
  unfold flagTest?
  split
  · next ty f =>
    refine if_neg fun hf ↦ ?_
    have := h f hf
    simp [readsNamedVar, anyNode, isVarNamed] at this
  · next _ ty f _ v =>
    refine if_neg fun hf ↦ ?_
    have := h f hf
    simp [readsNamedVar, anyNode, isVarNamed] at this
  · rfl

theorem execAll_unflagged {sts : List Stmt}
    (h : ∀ f, isFlag f = true → ∀ st ∈ sts, ∀ e ∈ st.exprs, readsNamedVar e f = false)
    (x : σ × (String → ℕ)) :
    (I.withFlags isFlag).execAll sts x =
      ((I.execAll sts x.1).1, (I.execAll sts x.1).2.map (·, x.2) id) := by
  induction sts generalizing x with
  | nil => rfl
  | cons st sts ih =>
    have hset : flagSet? isFlag st = none :=
      flagSet?_eq_none fun f hf e he ↦ h f hf st (by simp) e he
    have ih := ih fun f hf st hst ↦ h f hf st (List.mem_cons_of_mem _ hst)
    rw [Interp.execAll, Interp.execAll]
    simp only [Interp.withFlags, hset]
    rcases hst : I.exec st x.1 with ⟨es, s' | r⟩
    · exact congrArg (emit es) (ih (s', x.2))
    · rfl

theorem runBlock_unflagged (h : ∀ f, isFlag f = true → b.mentions f = false)
    (x : σ × (String → ℕ)) :
    runBlock (I.withFlags isFlag) usedReturn b x =
      mapState (·, x.2) (runBlock I usedReturn b x.1) := by
  have hstmts : ∀ f, isFlag f = true → ∀ st ∈ b.stmts, ∀ e ∈ st.exprs,
      readsNamedVar e f = false := fun f hf st hst e he ↦
    mentions_eq_false.1 (h f hf) e (List.mem_append_left _ (List.mem_flatMap.2 ⟨st, hst, he⟩))
  have hcond : flagTest? isFlag b.condExpr = none :=
    flagTest?_eq_none fun f hf ↦ condExpr_not_mentions (h f hf)
  have hgoTo : ∀ (t : Option ℕ) (x : σ × (String → ℕ)),
      goTo (I.withFlags isFlag) usedReturn b t x =
        mapState (·, x.2) (goTo I usedReturn b t x.1) := by
    intro t x
    cases t <;> rfl
  have htransfer : ∀ x : σ × (String → ℕ), transfer (I.withFlags isFlag) usedReturn b x =
      mapState (·, x.2) (transfer I usedReturn b x.1) := by
    intro x
    unfold transfer
    split
    · rfl
    · exact congrArg (emit _) (hgoTo _ _)
    · have htest : (I.withFlags isFlag).test b.condExpr x =
          ((I.test b.condExpr x.1).1, (I.test b.condExpr x.1).2.1,
            (I.test b.condExpr x.1).2.2, x.2) := by
        simp only [Interp.withFlags, hcond]
      rw [htest]
      exact congrArg (emit _) (hgoTo _ _)
    · exact hgoTo _ _
    · exact hgoTo _ _
  unfold runBlock
  rw [execAll_unflagged hstmts]
  rcases I.execAll b.stmts x.1 with ⟨es, s' | r⟩
  · exact congrArg (emit es) (htransfer (s', x.2))
  · rfl

/-- A graph that mentions no flag runs as without them. -/
theorem withFlags_sameBehaviour {merged : Finset ℕ} {g : List Block}
    (h : ∀ b ∈ g, ∀ f, isFlag f = true → b.mentions f = false) (id : ℕ)
    (x : σ × (String → ℕ)) :
    (graphMachine (I.withFlags isFlag) usedReturn merged g).SameBehaviour (id, x)
      (graphMachine I usedReturn merged g) (id, x.1) := by
  refine Machine.Simulation.sameBehaviour (Q := fun p q ↦ q = (p.1, p.2.1)) ?_ rfl
  rintro ⟨id, x⟩ _ rfl
  by_cases hid : id ∈ merged
  · simp only [graphMachine, hid, if_true]
    exact Machine.Matches.halt (by simp [hid])
  · cases hb : g[id]? with
    | none =>
      simp only [graphMachine, hid, if_false, hb]
      exact Machine.Matches.halt (by simp [hid, hb])
    | some b =>
      have hstep := graphMachine_step I usedReturn hid hb x.1
      rw [graphMachine_step _ _ hid hb, runBlock_unflagged (h b (List.mem_of_getElem? hb))]
      rcases hrun : runBlock I usedReturn b x.1 with ⟨es, ⟨id', s'⟩ | r⟩
      · exact Machine.Matches.one (hstep.trans hrun) rfl
      · exact Machine.Matches.halt (hstep.trans hrun)

end Unflagged

end

end Ldu
