import Ldu.Vars.Narrow
import Ldu.Semantics.Extend
import Ldu.Semantics.Lockstep

/-!
# When narrowing temporaries is sound

`fits32` judges a definition without regard to signedness: a temporary may be assigned the value
of an unsigned 4-byte load here and the constant `-1` there, and no single extension of 4 bytes
gives back both. `World.survives` follows `fits32` through a definition and says, for one
signedness, what its value must satisfy for the rule applied at each node to be right.

`narrowTempWidths_sound`: when the rounds reach a fixpoint, and along a run every executed
definition of a narrowed temporary survives, every value assigned to a narrowed temporary is the
extension of its low 32 bits, and the narrowed program behaves like the original one.
-/

namespace Ldu

/-- The node and its operands are integers. -/
def Expr.isInt (e : Expr) : Bool :=
  !(e.ty.isFloat || e.children.any (·.ty.isFloat))

/-- The node has a width and it is at most 4 bytes. -/
def Ty.isNarrow (ty : Ty) : Bool :=
  0 < ty.width && ty.width ≤ 4

/-- The node keeps all bits of the result. -/
def Ty.isWide (ty : Ty) : Bool :=
  ty.width == 0 || 8 ≤ ty.width

section Survives

theorem isNarrow_iff {ty : Ty} : ty.isNarrow = true ↔ 0 < ty.width ∧ ty.width ≤ 4 := by
  simp [Ty.isNarrow]

theorem isWide_iff {ty : Ty} : ty.isWide = true ↔ ty.width = 0 ∨ 8 ≤ ty.width := by
  simp [Ty.isWide]

section IsInt

variable {M E : Type} (W : World M E) {ty : Ty} {a b : Expr}

theorem isInt_cast {text : String} (h : (Expr.cast ty text a).isInt = true) :
    ty.isFloat = false ∧ a.ty.isFloat = false := by
  simpa [Expr.isInt, Expr.ty, Expr.children] using h

theorem isInt_unary {op : UnOp} (h : (Expr.unary ty op a).isInt = true) :
    ty.isFloat = false ∧ a.ty.isFloat = false := by
  simpa [Expr.isInt, Expr.ty, Expr.children] using h

theorem isInt_binary {op : BinOp} (h : (Expr.binary ty op a b).isInt = true) :
    ty.isFloat = false ∧ a.ty.isFloat = false ∧ b.ty.isFloat = false := by
  simpa [Expr.isInt, Expr.ty, Expr.children] using h

theorem World.eval_cast {text : String} (hty : ty.isFloat = false) (ha : a.ty.isFloat = false)
    (s : Store M) : (W.eval (.cast ty text a) s).2.1 = ty.ext (W.eval a s).2.1 := by
  rw [World.eval, Effect.bind_apply]
  simp [World.castOp, hty, ha]

theorem World.eval_unary {op : UnOp} (hty : ty.isFloat = false) (ha : a.ty.isFloat = false)
    (s : Store M) : (W.eval (.unary ty op a) s).2.1 = intUnop ty op (W.eval a s).2.1 := by
  rw [World.eval, Effect.bind_apply]
  simp [World.unop, hty, ha]

/-- An operator whose left operand does not decide the result. -/
theorem World.eval_binary {op : BinOp} {s : Store M} (hty : ty.isFloat = false)
    (ha : a.ty.isFloat = false) (hb : b.ty.isFloat = false)
    (hop : shortCircuit op (W.eval a s).2.1 = none) :
    (W.eval (.binary ty op a b) s).2.1 =
      intBinop ty op (W.eval a s).2.1 (W.eval b (W.eval a s).2.2).2.1 := by
  rw [World.eval, Effect.bind_apply, hop]
  simp [World.binop, hty, ha, hb, Effect.bind_apply]

end IsInt

variable {M E : Type} (W : World M E) (κ : String → Bool) (narrow : List String)

/-- The value of the expression survives in 4 bytes of signedness `u`, node by node as `fits32`
accepts it. A value below `2 ^ 31` always does. Otherwise a narrow integer node has the signedness
`u`; a wide bitwise operator has operands that survive; a wide shift is unsigned only if `u` holds;
a wide negation or complement is signed; a narrowed variable has the signedness `u`. What
`fits32` accepts by its kind alone, a call, a floating-point number or another variable, has a
value that fits. -/
def World.survives (u : Bool) (e : Expr) (s : Store M) : Prop :=
  IsSmall (W.eval e s).2.1 ∨
    match e with
    | .const ty c => Fits u (ty.ext c)
    | .cast ty text a =>
      if (Expr.cast ty text a).isInt && ty.isNarrow then ty.isUnsigned = u
      else if (Expr.cast ty text a).isInt && ty.isWide && ty.width != 0 then survives u a s
      else Fits u (W.eval (.cast ty text a) s).2.1
    | .var _ n => if n ∈ narrow then κ n = u else Fits u (W.read s n)
    | .mem ty a =>
      if ty.isFloat then Fits u (W.eval (.mem ty a) s).2.1 else ty.isUnsigned = u
    | .unary ty op a =>
      if (Expr.unary ty op a).isInt && ty.isNarrow then ty.isUnsigned = u
      else if (Expr.unary ty op a).isInt && ty.isWide then
        u = false ∧ survives u a s ∧ (op = .neg → (W.eval a s).2.1.toInt ≠ -2 ^ 31)
      else Fits u (W.eval (.unary ty op a) s).2.1
    | .binary ty op a b =>
      if (Expr.binary ty op a b).isInt && ty.isNarrow then ty.isUnsigned = u
      else if (Expr.binary ty op a b).isInt && ty.isWide then
        match op with
        | .band | .bor | .bxor => survives u a s ∧ survives u b (W.eval a s).2.2
        | .shr => (ty.isUnsigned = true → u = true) ∧ survives u a s
        | _ => True
      else Fits u (W.eval (.binary ty op a b) s).2.1
    | .ternary _ a b c =>
      if (W.eval a s).2.1 ≠ 0 then survives u b (W.eval a s).2.2
      else survives u c (W.eval a s).2.2
    | .call ty n i k args => Fits u (W.eval (.call ty n i k args) s).2.1
    | .callVia ty n i k t args => Fits u (W.eval (.callVia ty n i k t args) s).2.1
    | _ => True

variable {W κ narrow} {info : VarInfo} {cand : List String} {u : Bool}

theorem fits_intUnop {ty : Ty} {op : UnOp} {v : Val} (hty : ty.isFloat = false)
    (hw : ty.isNarrow = true) : Fits ty.isUnsigned (intUnop ty op v) := by
  unfold Ty.isNarrow at hw
  simp only [Bool.and_eq_true, decide_eq_true_eq] at hw
  cases op
  · exact fits_ext hty hw.1 hw.2
  · exact fits_ext hty hw.1 hw.2
  · exact fits_of_small (isSmall_ofBool _)

theorem fits_intBinop {ty : Ty} {op : BinOp} {v w : Val} (hty : ty.isFloat = false)
    (hw : ty.isNarrow = true) : Fits ty.isUnsigned (intBinop ty op v w) := by
  unfold Ty.isNarrow at hw
  simp only [Bool.and_eq_true, decide_eq_true_eq] at hw
  cases op
  case eq | ne | lt | le | gt | ge | land | lor => exact fits_of_small (isSmall_ofBool _)
  all_goals exact fits_ext hty hw.1 hw.2

theorem isSmall_shortCircuit {op : BinOp} {v r : Val} (h : shortCircuit op v = some r) :
    IsSmall r := by
  cases op
  case land | lor =>
    simp only [shortCircuit] at h
    split at h <;> cases h
    decide
  all_goals cases h

/-- The value of a narrow integer node, decided by the left operand or not. -/
theorem fits_eval_binary {ty : Ty} {op : BinOp} {a b : Expr} {s : Store M}
    (hint : (Expr.binary ty op a b).isInt = true) (hw : ty.isNarrow = true) :
    Fits ty.isUnsigned (W.eval (.binary ty op a b) s).2.1 := by
  obtain ⟨hty, hta, htb⟩ := isInt_binary hint
  cases hop : shortCircuit op (W.eval a s).2.1 with
  | none =>
    rw [W.eval_binary hty hta htb hop]
    exact fits_intBinop hty hw
  | some r =>
    rw [World.eval, Effect.bind_apply, hop]
    exact fits_of_small (isSmall_shortCircuit hop)

theorem fits_eval_wide_unary {ty : Ty} {op : UnOp} {a : Expr} {s : Store M}
    (hint : (Expr.unary ty op a).isInt = true) (hw : ty.isWide = true)
    (hv : Fits false (W.eval a s).2.1) (hneg : op = .neg → (W.eval a s).2.1.toInt ≠ -2 ^ 31) :
    Fits false (W.eval (.unary ty op a) s).2.1 := by
  obtain ⟨hty, hta⟩ := isInt_unary hint
  rw [W.eval_unary hty hta]
  cases op with
  | neg =>
    rw [intUnop, ext_of_wide (isWide_iff.1 hw)]
    exact fits_neg hv (hneg rfl)
  | bnot =>
    rw [intUnop, ext_of_wide (isWide_iff.1 hw)]
    exact fits_not hv
  | lnot => exact fits_of_small (isSmall_ofBool _)

theorem fits_eval_bitwise {ty : Ty} {op : BinOp} {a b : Expr} {s : Store M}
    (hint : (Expr.binary ty op a b).isInt = true) (hw : ty.isWide = true)
    (hop : op = .band ∨ op = .bor ∨ op = .bxor) (hv : Fits u (W.eval a s).2.1)
    (hv' : Fits u (W.eval b (W.eval a s).2.2).2.1) :
    Fits u (W.eval (.binary ty op a b) s).2.1 := by
  obtain ⟨hty, hta, htb⟩ := isInt_binary hint
  have hwide := isWide_iff.1 hw
  rcases hop with rfl | rfl | rfl <;>
    rw [W.eval_binary hty hta htb rfl, intBinop, ext_of_wide hwide]
  · exact fits_and hv hv'
  · exact fits_or hv hv'
  · exact fits_xor hv hv'

theorem fits_eval_shr {ty : Ty} {a b : Expr} {s : Store M}
    (hint : (Expr.binary ty .shr a b).isInt = true) (hw : ty.isWide = true)
    (hu : ty.isUnsigned = true → u = true) (hv : Fits u (W.eval a s).2.1) :
    Fits u (W.eval (.binary ty .shr a b) s).2.1 := by
  obtain ⟨hty, hta, htb⟩ := isInt_binary hint
  have hwide := isWide_iff.1 hw
  rw [W.eval_binary hty hta htb rfl, intBinop, ext_of_wide hwide, ext_of_wide hwide]
  split
  · next huns =>
    obtain rfl := hu huns
    exact fits_ushiftRight hv _
  · exact fits_sshiftRight hv _

/-- What the definition reads is fresh: a narrowed variable holds a value that fits. -/
def FreshFor (κ : String → Bool) (narrow : List String) (e : Expr) (s : Store M) : Prop :=
  ∀ n ∈ narrow, e.readsNamedVar n = true → Fits (κ n) (s.vars n)

theorem FreshFor.child {e c : Expr} {s s' : Store M} (h : FreshFor κ narrow e s)
    (hc : c ∈ e.children) (hvars : s'.vars = s.vars) : FreshFor κ narrow c s' :=
  fun n hn hr ↦ hvars ▸ h n hn (Expr.readsNamedVar_of_child hc n hr)

/-- A definition that `fits32` accepts and that survives has a value that fits. -/
theorem fits_of_survives (halias : ∀ n ∈ narrow, W.aliased n = false)
    (e : Expr) {s : Store M} (hfit : fits32 info cand narrow e = true)
    (hs : W.survives κ narrow u e s) (hfresh : FreshFor κ narrow e s) :
    Fits u (W.eval e s).2.1 := by
  rw [World.survives.eq_def] at hs
  rcases hs with hsmall | hs
  · exact fits_of_small hsmall
  cases e with
  | const ty c => exact hs
  | var ty n =>
    dsimp only at hs
    have hval : (W.eval (.var ty n) s).2.1 = W.read s n := by rw [World.eval]; rfl
    rw [hval]
    split at hs
    · next hn =>
      rw [← hs, World.read, if_neg (by rw [halias n hn]; decide)]
      exact hfresh n hn (by simp [Expr.readsNamedVar, Expr.anyNode, Expr.isVarNamed])
    · exact hs
  | mem ty a =>
    dsimp only at hs
    split at hs
    · exact hs
    · next hfl =>
      rw [fits32, Bool.and_eq_true, decide_eq_true_eq, decide_eq_true_eq] at hfit
      rw [World.eval, ← hs]
      exact fits_ext (by simpa using hfl) hfit.1 hfit.2
  | cast ty text a =>
    have ha : FreshFor κ narrow a s := hfresh.child (by simp [Expr.children]) rfl
    dsimp only at hs
    split at hs
    · next hc =>
      obtain ⟨hint, hw⟩ := Bool.and_eq_true_iff.1 hc
      obtain ⟨hty, hta⟩ := isInt_cast hint
      rw [W.eval_cast hty hta, ← hs]
      exact fits_ext hty (isNarrow_iff.1 hw).1 (isNarrow_iff.1 hw).2
    · split at hs
      · next hc =>
        simp only [Bool.and_eq_true, bne_iff_ne, ne_eq] at hc
        obtain ⟨⟨hint, hw⟩, h0⟩ := hc
        obtain ⟨hty, hta⟩ := isInt_cast hint
        have hle : ¬ty.width ≤ 4 := by
          have := isWide_iff.1 hw
          omega
        rw [fits32, decide_eq_false hle, Bool.false_or] at hfit
        rw [W.eval_cast hty hta, ext_of_wide (isWide_iff.1 hw)]
        exact fits_of_survives halias a hfit hs ha
      · exact hs
  | unary ty op a =>
    have ha : FreshFor κ narrow a s := hfresh.child (by simp [Expr.children]) rfl
    dsimp only at hs
    split at hs
    · next hc =>
      obtain ⟨hint, hw⟩ := Bool.and_eq_true_iff.1 hc
      obtain ⟨hty, hta⟩ := isInt_unary hint
      rw [W.eval_unary hty hta, ← hs]
      exact fits_intUnop hty hw
    · split at hs
      · next hc =>
        obtain ⟨hint, hw⟩ := Bool.and_eq_true_iff.1 hc
        obtain ⟨hu, hsa, hneg⟩ := hs
        have hwide := isWide_iff.1 hw
        rw [fits32, Bool.or_eq_true, Bool.and_eq_true, decide_eq_true_eq, decide_eq_true_eq] at hfit
        have hv := fits_of_survives halias a (hfit.resolve_left (by omega)) hsa ha
        subst hu
        exact fits_eval_wide_unary hint hw hv hneg
      · exact hs
  | binary ty op a b =>
    have ha : FreshFor κ narrow a s := hfresh.child (by simp [Expr.children]) rfl
    have hb : FreshFor κ narrow b (W.eval a s).2.2 :=
      hfresh.child (by simp [Expr.children]) (W.eval_vars a s)
    dsimp only at hs
    split at hs
    · next hc =>
      obtain ⟨hint, hw⟩ := Bool.and_eq_true_iff.1 hc
      rw [← hs]
      exact fits_eval_binary hint hw
    · split at hs
      · next hc =>
        obtain ⟨hint, hw⟩ := Bool.and_eq_true_iff.1 hc
        have hwide := isWide_iff.1 hw
        have hnarrow : (decide (0 < ty.width) && decide (ty.width ≤ 4)) = false := by
          simp only [Bool.and_eq_false_iff, decide_eq_false_iff_not]
          omega
        cases op
        case band | bor | bxor =>
          simp only [fits32, hnarrow, Bool.false_or, Bool.and_eq_true] at hfit
          exact fits_eval_bitwise hint hw (by simp) (fits_of_survives halias a hfit.1 hs.1 ha)
            (fits_of_survives halias b hfit.2 hs.2 hb)
        case shr =>
          simp only [fits32, hnarrow, Bool.false_or] at hfit
          exact fits_eval_shr hint hw hs.1 (fits_of_survives halias a hfit hs.2 ha)
        all_goals
          simp only [fits32, hnarrow, Bool.or_self] at hfit
          exact absurd hfit Bool.false_ne_true
      · exact hs
  | ternary ty a b c =>
    rw [fits32, Bool.and_eq_true] at hfit
    rw [World.eval, Effect.bind_apply]
    dsimp only at hs ⊢
    split at hs
    · next hne =>
      rw [if_pos hne]
      exact fits_of_survives halias b hfit.1 hs
        (hfresh.child (by simp [Expr.children]) (W.eval_vars a s))
    · next heq =>
      rw [if_neg heq]
      exact fits_of_survives halias c hfit.2 hs
        (hfresh.child (by simp [Expr.children]) (W.eval_vars a s))
  | call | callVia => exact hs
  | _ => exact absurd hfit (by simp [fits32])
termination_by sizeOf e

end Survives

/-! ### Reading with 4 bytes -/

section Narrowed

variable {M E : Type} {W : World M E} {κ : String → Bool} {narrow : List String}

theorem setWidths_var (ty : Ty) (n : String) :
    (Expr.var ty n).setWidths narrow =
      .var (if n ∈ narrow then { ty with width := 4 } else ty) n := by
  unfold Expr.setWidths
  split
  · next hn => exact Expr.rewrite_of_some (if_pos hn)
  · next hn => rw [Expr.rewrite_of_none (by simp [hn]), Expr.mapChildren]

/-- The width of a variable node means nothing to the value that is read. -/
theorem alike_setWidths (e : Expr) : W.Alike e (e.setWidths narrow) := by
  induction e using Expr.childInduction with
  | h e ih =>
    by_cases hv : ∃ ty n, e = .var ty n
    · obtain ⟨ty, n, rfl⟩ := hv
      rw [setWidths_var]
      refine ⟨?_, rfl, rfl, ?_, ?_⟩
      · rw [World.eval, World.eval]
      · split <;> rfl
      · split <;> rfl
    · have hnone : e.setWidths narrow = e.mapChildren (·.setWidths narrow) := by
        refine Expr.rewrite_of_none ?_
        cases e <;> simp_all
      rw [hnone]
      exact W.alike_mapChildren ih

/-- The store of the narrowed program: narrowed variables hold 4 bytes. -/
def narrowStore (κ : String → Bool) (narrow : List String) (s : Store M) : Store M :=
  { s with
    vars := fun n ↦ if n ∈ narrow then Ty.ext ⟨4, κ n, false⟩ (s.vars n) else s.vars n }

theorem narrowStore_vars_of_fits {s : Store M} {n : String}
    (h : n ∈ narrow → Fits (κ n) (s.vars n)) : (narrowStore κ narrow s).vars n = s.vars n := by
  unfold narrowStore
  dsimp only
  split
  · next hn => exact h hn
  · rfl

/-- A computation that reads narrowed variables only where they fit. -/
theorem readsOnly_narrowStore {α : Type} {x : Effect E (Store M) α} {p : String → Prop}
    (hx : World.ReadsOnly x p) {s : Store M} (h : ∀ n ∈ narrow, p n → Fits (κ n) (s.vars n)) :
    x (narrowStore κ narrow s) = ((x s).1, (x s).2.1, narrowStore κ narrow (x s).2.2) := by
  have hagree := hx s (narrowStore κ narrow s) rfl fun n hn ↦
    narrowStore_vars_of_fits fun hmem ↦ h n hmem hn
  rw [hagree]
  unfold narrowStore
  rw [hx.vars_eq]

/-- A store into a variable that fits. -/
theorem narrowStore_write {s : Store M} {n : String} {v : Val}
    (h : n ∈ narrow → W.aliased n = false ∧ Fits (κ n) v) :
    narrowStore κ narrow (W.write s n v) = W.write (narrowStore κ narrow s) n v := by
  unfold World.write narrowStore
  split
  · rfl
  · congr 1
    funext m
    dsimp only
    by_cases hm : m = n
    · subst hm
      rw [Function.update_self, Function.update_self]
      split
      · next hn => exact (h hn).2
      · rfl
    · rw [Function.update_of_ne hm, Function.update_of_ne hm]

/-- What a statement may read is fresh. -/
def ReadsFresh (κ : String → Bool) (narrow : List String) (st : Stmt) (s : Store M) : Prop :=
  ∀ n ∈ narrow, st.reads n = true → Fits (κ n) (s.vars n)

/-- What a statement assigns to a narrowed variable fits. -/
def World.StoresFit (W : World M E) (κ : String → Bool) (narrow : List String) (st : Stmt)
    (s : Store M) : Prop :=
  ∀ n ∈ narrow, ∀ rhs, st.defOf n = some rhs → Fits (κ n) (W.eval rhs s).2.1

theorem assign_narrowStore {decl : String → Val → Val} {k : World.Target}
    (h : ∀ x, k ≠ .var x) (v : Val) (s : Store M) :
    W.assign decl k v (narrowStore κ narrow s) =
      ((W.assign decl k v s).1, (), narrowStore κ narrow (W.assign decl k v s).2.2) := by
  cases k with
  | var x => exact absurd rfl (h x)
  | mem => rfl
  | nowhere => rfl

/-- A statement does the same with narrowed variables. -/
theorem execStmt_narrowStore {decl decl' : String → Val → Val}
    (hother : ∀ n ∉ narrow, decl' n = decl n)
    (hnarrow : ∀ n ∈ narrow, W.aliased n = false ∧
      ∀ v, Fits (κ n) v → decl n v = v ∧ decl' n v = v)
    {st : Stmt} {s : Store M} (hreads : ReadsFresh κ narrow st s)
    (hstores : W.StoresFit κ narrow st s) :
    W.execStmt decl' st (narrowStore κ narrow s) =
      ((W.execStmt decl st s).1, (), narrowStore κ narrow (W.execStmt decl st s).2.2) := by
  cases st with
  | assign lhs rhs =>
    have heval : ∀ s' : Store M, s'.vars = s.vars → W.eval rhs (narrowStore κ narrow s') =
        ((W.eval rhs s').1, (W.eval rhs s').2.1, narrowStore κ narrow (W.eval rhs s').2.2) :=
      fun s' hvars ↦ readsOnly_narrowStore (W.readsOnly_eval rhs) fun n hn hr ↦
        hvars ▸ hreads n hn (Stmt.reads_rhs hr)
    by_cases hvar : ∃ ty x, lhs = .var ty x
    · obtain ⟨ty, x, rfl⟩ := hvar
      have hv : x ∈ narrow → Fits (κ x) (W.eval rhs s).2.1 := fun hx ↦
        hstores x hx rhs (by simp [Stmt.defOf])
      have hdecl : decl' x (W.eval rhs s).2.1 = decl x (W.eval rhs s).2.1 := by
        by_cases hx : x ∈ narrow
        · obtain ⟨h, h'⟩ := (hnarrow x hx).2 _ (hv hx)
          rw [h, h']
        · rw [hother x hx]
      rw [W.execStmt_var, W.execStmt_var, heval s rfl, hdecl, narrowStore_write]
      intro hx
      refine ⟨(hnarrow x hx).1, ?_⟩
      rw [((hnarrow x hx).2 _ (hv hx)).1]
      exact hv hx
    · have hk : ∀ x, (W.target lhs s).2.1 ≠ .var x := W.target_ne_var (by simpa using hvar) s
      have htarget := readsOnly_narrowStore (W.readsOnly_target lhs) fun n hn hr ↦
        hreads n hn (Stmt.reads_lhs (by simpa using hvar) hr)
      rw [World.execStmt, Effect.bind_eq htarget,
        Effect.bind_eq (heval _ ((W.readsOnly_target lhs).vars_eq s)),
        W.assign_congr decl' decl hk, World.execStmt, Effect.bind_apply, Effect.bind_apply,
        assign_narrowStore hk]
  | call rhs =>
    have heval := readsOnly_narrowStore (W.readsOnly_eval rhs) fun n hn hr ↦
      hreads n hn (by simpa [Stmt.reads, Stmt.exprs] using hr)
    rw [World.execStmt, Effect.bind_eq heval, World.execStmt, Effect.bind_apply]
    rfl
  | comment => rfl

end Narrowed

/-! ### The narrowed variables -/

section Candidates

variable {info : VarInfo} {g : List Block} {n : String}

theorem fitsRounds_subset {cand fits : List String} (k : ℕ) (h : fits ⊆ cand) :
    fitsRounds info g cand k fits ⊆ cand := by
  induction k generalizing fits with
  | zero => exact h
  | succ k ih =>
    unfold fitsRounds
    split
    · exact h
    · exact ih fun _ hn ↦ List.mem_of_mem_filter hn

theorem isCand_of_mem_narrow (h : n ∈ narrow info g) : isCand info g n = true :=
  (List.mem_filter.1 (fitsRounds_subset 24 (List.Subset.refl _) h)).2

theorem width_of_isCand (h : isCand info g n = true) : info.width.lookup n = some 8 := by
  simp only [isCand, Bool.and_eq_true, beq_iff_eq] at h
  exact h.1.1.1.1.1

theorem isFloat_of_isCand (h : isCand info g n = true) : info.isFloat.contains n = false := by
  simp only [isCand, Bool.and_eq_true, Bool.not_eq_true', Bool.or_eq_false_iff] at h
  exact h.1.1.1.2.2

theorem addrTaken_of_isCand (h : isCand info g n = true) : addrTaken g n = false := by
  simp only [isCand, Bool.and_eq_true, Bool.not_eq_true', Bool.or_eq_false_iff] at h
  exact h.1.1.2.1.1.1

/-- At a fixpoint every definition of a narrowed variable fits. -/
theorem fits32_of_fixpoint (hfix : fitsRound info g (candidates info g) (narrow info g) =
    narrow info g) (hn : n ∈ narrow info g) {rhs : Expr} (hrhs : rhs ∈ defsOf g n) :
    fits32 info (candidates info g) (narrow info g) rhs = true := by
  rw [← hfix] at hn
  exact List.all_eq_true.1 (List.mem_filter.1 hn).2 rhs hrhs

theorem lookup_setWidths (narrow : List String) (l : List (String × ℕ)) :
    (l.map fun (m, w) ↦ (m, if m ∈ narrow then 4 else w)).lookup n =
      (l.lookup n).map fun w ↦ if n ∈ narrow then 4 else w := by
  induction l with
  | nil => rfl
  | cons p l ih =>
    rw [List.map_cons, List.lookup_cons, List.lookup_cons, ih]
    cases h : n == p.1 with
    | false => rfl
    | true => rw [beq_iff_eq.1 h]; rfl

theorem decl_setWidths_of_notMem (info : VarInfo) {narrow : List String} (κ : String → Bool)
    (h : n ∉ narrow) :
    (info.setWidths narrow).decl κ n = info.decl κ n := by
  funext v
  unfold VarInfo.decl VarInfo.widthOf VarInfo.setWidths
  rw [lookup_setWidths]
  cases info.width.lookup n <;> simp [h]

/-- A narrowed variable keeps the values that fit, with 8 bytes and with 4. -/
theorem decl_of_fits (κ : String → Bool) (h : n ∈ narrow info g) {v : Val}
    (hv : Fits (κ n) v) : info.decl κ n v = v ∧
      (info.setWidths (narrow info g)).decl κ n v = v := by
  have hcand := isCand_of_mem_narrow h
  unfold VarInfo.decl VarInfo.widthOf VarInfo.setWidths
  rw [lookup_setWidths, width_of_isCand hcand, isFloat_of_isCand hcand]
  refine ⟨ext_of_wide (.inr le_rfl), ?_⟩
  rw [Option.map_some, if_pos h]
  exact hv

end Candidates

/-! ### Runs -/

section Runs

variable {M E : Type} {W : World M E} {info : VarInfo} {g : List Block} {κ : String → Bool}
  {s₀ s : Store M}

/-- Executing the statement reads no narrowed variable that still holds an entry value that does
not fit, and what it assigns to a narrowed variable survives. -/
def World.StmtSurvives (W : World M E) (κ : String → Bool) (narrow : List String)
    (s₀ : Store M) (st : Stmt) (s : Store M) : Prop :=
  (∀ n ∈ narrow, st.reads n = true → s.vars n = s₀.vars n → Fits (κ n) (s₀.vars n)) ∧
    ∀ n ∈ narrow, ∀ rhs, st.defOf n = some rhs → W.survives κ narrow (κ n) rhs s

/-- The condition on one step of a run: every statement survives, and the terminator reads no
narrowed variable that still holds an entry value that does not fit. -/
def World.BlockSurvives (W : World M E) (info : VarInfo) (g : List Block) (κ : String → Bool)
    (s₀ : Store M) (p : ℕ × Store M) : Prop :=
  ∀ b, g[p.1]? = some b →
    (W.interp (info.decl κ)).Along (W.StmtSurvives κ (narrow info g) s₀) b.stmts p.2 ∧
    ∀ s', ((W.interp (info.decl κ)).execAll b.stmts p.2).2 = .inl s' →
      ∀ n ∈ narrow info g, b.termReads n = true → s'.vars n = s₀.vars n →
        Fits (κ n) (s₀.vars n)

/-- A narrowed variable holds its entry value or one that fits. -/
def HoldsEntry (κ : String → Bool) (narrow : List String) (s₀ s : Store M) : Prop :=
  ∀ n ∈ narrow, s.vars n = s₀.vars n ∨ Fits (κ n) (s.vars n)

theorem HoldsEntry.fits {narrow : List String} (h : HoldsEntry κ narrow s₀ s) {n : String}
    (hn : n ∈ narrow) (hentry : s.vars n = s₀.vars n → Fits (κ n) (s₀.vars n)) :
    Fits (κ n) (s.vars n) := by
  rcases h n hn with heq | hfit
  · rw [heq]
    exact hentry heq
  · exact hfit

/-- The stores of the two programs. -/
def NarrowRel (κ : String → Bool) (narrow : List String) (s₀ s t : Store M) : Prop :=
  t = narrowStore κ narrow s ∧ HoldsEntry κ narrow s₀ s

section Step

variable (halias : ∀ n, W.aliased n = true → addrTaken g n = true)
  (hfix : fitsRound info g (candidates info g) (narrow info g) = narrow info g)

include halias in
theorem aliased_of_mem_narrow {n : String} (hn : n ∈ narrow info g) : W.aliased n = false := by
  by_contra h
  have hadr := halias n (by simpa using h)
  rw [addrTaken_of_isCand (isCand_of_mem_narrow hn)] at hadr
  exact Bool.false_ne_true hadr

include halias hfix in
/-- A statement that survives assigns what fits. -/
theorem storesFit_of_survives {id : ℕ} {b : Block} {st : Stmt} (hb : g[id]? = some b)
    (hst : st ∈ b.stmts) (hinv : HoldsEntry κ (narrow info g) s₀ s)
    (hs : W.StmtSurvives κ (narrow info g) s₀ st s) : W.StoresFit κ (narrow info g) st s := by
  intro n hn rhs hrhs
  refine fits_of_survives (fun m hm ↦ aliased_of_mem_narrow halias hm) rhs
    (fits32_of_fixpoint hfix hn (mem_defsOf hb hst hrhs)) (hs.2 n hn rhs hrhs) fun m hm hr ↦ ?_
  obtain ⟨ty, rfl⟩ := defOf_eq_some hrhs
  exact hinv.fits hm (hs.1 m hm (Stmt.reads_rhs hr))

include halias hfix in
/-- One statement. -/
theorem lockstep_narrow_exec {id : ℕ} {b : Block} (hb : g[id]? = some b) {st : Stmt}
    (hst : st ∈ b.stmts) {t : Store M} (hQ : NarrowRel κ (narrow info g) s₀ s t)
    (hs : W.StmtSurvives κ (narrow info g) s₀ st s) :
    Lockstep (NarrowRel κ (narrow info g) s₀) ((W.interp (info.decl κ)).exec st s)
      ((W.interp ((info.setWidths (narrow info g)).decl κ)).exec
        (st.mapExprs (Expr.setWidths (narrow info g))) t) := by
  obtain ⟨rfl, hinv⟩ := hQ
  have hstores := storesFit_of_survives halias hfix hb hst hinv hs
  have hexec := execStmt_narrowStore (W := W)
    (fun n hn ↦ decl_setWidths_of_notMem info κ hn)
    (fun n hn ↦ ⟨aliased_of_mem_narrow halias hn, fun v hv ↦ decl_of_fits κ hn hv⟩)
    (fun n hn hr ↦ hinv.fits hn (hs.1 n hn hr)) hstores
  dsimp only [World.interp]
  rw [W.execStmt_mapExprs fun e _ ↦ alike_setWidths e, hexec]
  refine lockstep_inl ⟨rfl, fun n hn ↦ ?_⟩
  cases hdef : st.defOf n with
  | none =>
    rw [execStmt_vars_of_ne W hdef]
    exact hinv n hn
  | some rhs =>
    rw [execStmt_vars_of_eq W hdef (aliased_of_mem_narrow halias hn),
      (decl_of_fits κ hn (hstores n hn rhs hdef)).1]
    exact .inr (hstores n hn rhs hdef)

include halias hfix in
theorem lockstep_narrow_stmts {id : ℕ} {b : Block} (hb : g[id]? = some b) {t : Store M}
    (hQ : NarrowRel κ (narrow info g) s₀ s t)
    (hs : (W.interp (info.decl κ)).Along (W.StmtSurvives κ (narrow info g) s₀) b.stmts s) :
    Lockstep (NarrowRel κ (narrow info g) s₀) ((W.interp (info.decl κ)).execAll b.stmts s)
      ((W.interp ((info.setWidths (narrow info g)).decl κ)).execAll
        (b.mapExprs (Expr.setWidths (narrow info g))).stmts t) :=
  lockstep_execAll (fun _ hst _ _ hQ hs ↦ lockstep_narrow_exec halias hfix hb hst hQ hs) hQ hs

end Step

/-! ### Terminators -/

section Term

variable {narrow : List String} {b : Block} {decl decl' : String → Val → Val} {usedReturn : Bool}

/-- The stores at a terminator that reads only what is fresh. -/
def TermRel (κ : String → Bool) (narrow : List String) (s₀ : Store M) (b : Block)
    (s t : Store M) : Prop :=
  NarrowRel κ narrow s₀ s t ∧ ∀ n ∈ narrow, b.termReads n = true → Fits (κ n) (s.vars n)

/-- An expression of the terminator has the same meaning with 4 bytes. -/
theorem eval_term {e : Expr} (he : ∀ n, e.readsNamedVar n = true → b.termReads n = true)
    {t : Store M} (h : TermRel κ narrow s₀ b s t) :
    ∃ t', W.eval (e.setWidths narrow) t = ((W.eval e s).1, (W.eval e s).2.1, t') ∧
      TermRel κ narrow s₀ b (W.eval e s).2.2 t' := by
  obtain ⟨⟨rfl, hinv⟩, hfresh⟩ := h
  refine ⟨narrowStore κ narrow (W.eval e s).2.2, ?_, ⟨rfl, ?_⟩, ?_⟩
  · rw [(alike_setWidths e).eval]
    exact readsOnly_narrowStore (W.readsOnly_eval e) fun n hn hr ↦ hfresh n hn (he n hr)
  · unfold HoldsEntry
    rwa [W.eval_vars]
  · rwa [W.eval_vars]

theorem setWidths_const (ty : Ty) (c : BitVec 64) :
    (Expr.const ty c).setWidths narrow = .const ty c := by
  unfold Expr.setWidths
  rw [Expr.rewrite_of_none rfl, Expr.mapChildren]

theorem leave_narrow {s t : Store M} (h : TermRel κ narrow s₀ b s t) :
    (W.interp decl').leave ((b.mapExprs (Expr.setWidths narrow)).retText usedReturn) t =
      (W.interp decl).leave (b.retText usedReturn) s := by
  have heval : ∀ e ∈ b.tailCall.toList ++ b.retValue.toList,
      ∃ t', W.eval (e.setWidths narrow) t = ((W.eval e s).1, (W.eval e s).2.1, t') := by
    intro e he
    have hreads : ∀ n, e.readsNamedVar n = true → b.termReads n = true := fun n hn ↦ by
      refine List.any_eq_true.2 ⟨e, ?_, hn⟩
      simp only [List.mem_append] at he ⊢
      tauto
    obtain ⟨t', ht', -⟩ := eval_term hreads h
    exact ⟨t', ht'⟩
  unfold Block.retText Block.mapExprs
  dsimp only
  cases htc : b.tailCall with
  | some e =>
    obtain ⟨t', ht'⟩ := heval e (by simp [htc])
    cases usedReturn <;> simp [World.interp, ht']
  | none =>
    cases hrv : b.retValue with
    | none => cases usedReturn <;> cases b.hasRetValue <;> rfl
    | some e =>
      obtain ⟨t', ht'⟩ := heval e (by simp [hrv])
      cases usedReturn <;> cases b.hasRetValue <;> simp [World.interp, ht']

theorem lockstep_narrow_transfer {s t : Store M} (h : TermRel κ narrow s₀ b s t) :
    Lockstep (SameBlock (NarrowRel κ narrow s₀)) (transfer (W.interp decl) usedReturn b s)
      (transfer (W.interp decl') usedReturn (b.mapExprs (Expr.setWidths narrow)) t) := by
  have hcond : (b.mapExprs (Expr.setWidths narrow)).condExpr =
      b.condExpr.setWidths narrow := by
    unfold Block.condExpr Block.mapExprs
    cases b.cond with
    | none => exact (setWidths_const _ _).symm
    | some c => rfl
  have hsel : (b.mapExprs (Expr.setWidths narrow)).selExpr = b.selExpr.setWidths narrow := by
    unfold Block.selExpr Block.mapExprs
    cases b.switchVar with
    | none => exact (setWidths_const _ _).symm
    | some c => rfl
  have hexits : b.SameExits (b.mapExprs (Expr.setWidths narrow)) := ⟨rfl, rfl, rfl, rfl, rfl, rfl⟩
  refine Lockstep.mono (Q := SameBlock (TermRel κ narrow s₀ b))
    (lockstep_transfer hexits (fun s t hst ↦ ?_) (fun s t hst ↦ ?_)
      (fun s t hst ↦ leave_narrow hst) h) fun _ _ hQ ↦ ⟨hQ.1, hQ.2.1⟩
  · have hreads : ∀ n, b.condExpr.readsNamedVar n = true → b.termReads n = true := by
      intro n hn
      unfold Block.condExpr at hn
      cases hc : b.cond with
      | none => simp [hc, Expr.mkConst, Expr.readsNamedVar, Expr.anyNode, Expr.isVarNamed] at hn
      | some c => simp_all [Block.termReads]
    obtain ⟨t', ht', hQ⟩ := eval_term (W := W) hreads hst
    rw [hcond]
    simp only [World.interp, ht']
    exact ⟨trivial, trivial, hQ⟩
  · have hreads : ∀ n, b.selExpr.readsNamedVar n = true → b.termReads n = true := by
      intro n hn
      unfold Block.selExpr at hn
      cases hc : b.switchVar with
      | none => simp [hc, Expr.mkConst, Expr.readsNamedVar, Expr.anyNode, Expr.isVarNamed] at hn
      | some c => simp_all [Block.termReads]
    obtain ⟨t', ht', hQ⟩ := eval_term (W := W) hreads hst
    rw [hsel]
    simp only [World.interp, ht']
    exact ⟨trivial, trivial, hQ⟩

end Term

/-! ### The pass -/

section Pass

variable (usedReturn : Bool) (merged : Finset ℕ)
  (halias : ∀ n, W.aliased n = true → addrTaken g n = true)
  (hfix : fitsRound info g (candidates info g) (narrow info g) = narrow info g)

include halias hfix in
/-- One block. -/
theorem lockstep_narrow_step {id : ℕ} {t : Store M}
    (hs : W.BlockSurvives info g κ s₀ (id, s)) (hQ : NarrowRel κ (narrow info g) s₀ s t) :
    Lockstep (SameBlock (NarrowRel κ (narrow info g) s₀))
      ((graphMachine (W.interp (info.decl κ)) usedReturn merged g).step (id, s))
      ((graphMachine (W.interp ((info.setWidths (narrow info g)).decl κ)) usedReturn merged
        (g.map (·.mapExprs (Expr.setWidths (narrow info g))))).step (id, t)) := by
  by_cases hid : id ∈ merged
  · simp only [graphMachine, hid, if_true]
    exact lockstep_inr
  cases hb : g[id]? with
  | none =>
    simp only [graphMachine, hid, if_false, List.getElem?_map, hb, Option.map_none]
    exact lockstep_inr
  | some b =>
    obtain ⟨halong, hterm⟩ := hs b hb
    rw [graphMachine_step _ _ hid hb,
      graphMachine_step _ _ hid (by rw [List.getElem?_map, hb]; rfl)]
    refine lockstep_runBlock (lockstep_narrow_stmts halias hfix hb hQ halong)
      fun s' t' hs' hQ' ↦ lockstep_narrow_transfer ⟨hQ', fun n hn hr ↦ ?_⟩
    exact hQ'.2.fits hn (hterm s' hs' n hn hr)

include halias hfix in
theorem along_storesFit {id : ℕ} {b : Block} (hb : g[id]? = some b) {sts : List Stmt}
    (hsts : sts ⊆ b.stmts) {s : Store M} (hinv : HoldsEntry κ (narrow info g) s₀ s)
    (hs : (W.interp (info.decl κ)).Along (W.StmtSurvives κ (narrow info g) s₀) sts s) :
    (W.interp (info.decl κ)).Along (W.StoresFit κ (narrow info g)) sts s := by
  induction sts generalizing s with
  | nil => trivial
  | cons st sts ih =>
    have hst : st ∈ b.stmts := hsts (by simp)
    refine ⟨storesFit_of_survives halias hfix hb hst hinv hs.1, fun s' hs' ↦ ?_⟩
    have hstep := lockstep_narrow_exec halias hfix hb hst ⟨rfl, hinv⟩ hs.1
    rw [show (W.interp (info.decl κ)).exec st s = (_, .inl s') from Prod.ext rfl hs'] at hstep
    obtain ⟨t', -, hQ⟩ := hstep.exists_inl
    exact ih (fun x hx ↦ hsts (by simp [hx])) hQ.2 (hs.2 s' hs')

/-- **Narrowing is sound** on the runs all of whose steps survive, when the rounds have reached a
fixpoint: every value assigned to a narrowed variable is the extension of its low 32 bits, and the
program with 4-byte variables behaves like the one with 8-byte variables. -/
theorem narrowTempWidths_sound (W : World M E) (info : VarInfo) (g : List Block)
    (κ : String → Bool) (usedReturn : Bool) (merged : Finset ℕ) (id : ℕ) (s₀ : Store M)
    (halias : ∀ n, W.aliased n = true → addrTaken g n = true)
    (hfix : fitsRound info g (candidates info g) (narrow info g) = narrow info g)
    (hrun : (graphMachine (W.interp (info.decl κ)) usedReturn merged g).Always
      (W.BlockSurvives info g κ s₀) (id, s₀)) :
    (graphMachine (W.interp (info.decl κ)) usedReturn merged g).Always
      (fun p ↦ ∀ b, g[p.1]? = some b →
        (W.interp (info.decl κ)).Along (W.StoresFit κ (narrow info g)) b.stmts p.2) (id, s₀) ∧
    (graphMachine (W.interp (info.decl κ)) usedReturn merged g).SameBehaviour (id, s₀)
      (graphMachine (W.interp ((narrowTempWidths info g).1.decl κ)) usedReturn merged
        (narrowTempWidths info g).2) (id, narrowStore κ (narrow info g) s₀) := by
  have hentry : HoldsEntry κ (narrow info g) s₀ s₀ := fun n _ ↦ .inl rfl
  constructor
  · intro p hp
    have hinv : (graphMachine (W.interp (info.decl κ)) usedReturn merged g).Always (fun p ↦
        (graphMachine (W.interp (info.decl κ)) usedReturn merged g).Always
          (W.BlockSurvives info g κ s₀) p ∧ HoldsEntry κ (narrow info g) s₀ p.2) (id, s₀) := by
      refine Machine.Always.of_preserved ⟨hrun, hentry⟩ ?_
      rintro ⟨i, s⟩ es p' ⟨halways, hinv⟩ hstep
      have hlock := lockstep_narrow_step usedReturn merged halias hfix halways.now ⟨rfl, hinv⟩
      rw [hstep] at hlock
      obtain ⟨t', -, hQ⟩ := hlock.exists_inl
      exact ⟨halways.step hstep, hQ.2.2⟩
    intro b hb
    obtain ⟨halways, hholds⟩ := hinv p hp
    exact along_storesFit halias hfix hb (List.Subset.refl _) hholds (halways.now b hb).1
  · unfold narrowTempWidths
    dsimp only
    split
    · next hnil =>
      rw [hnil]
      exact Machine.SameBehaviour.refl _ _
    · refine Machine.Simulation.sameBehaviour_of_always
        (Q := SameBlock (NarrowRel κ (narrow info g) s₀)) ?_ ⟨rfl, rfl, hentry⟩ hrun
      rintro ⟨i, s⟩ ⟨j, t⟩ ⟨rfl, hQ⟩ halways
      exact matches_of_lockstep (lockstep_narrow_step _ _ halias hfix halways.now hQ)

end Pass

end Runs

/-! ### A temporary of both signs -/

/-- Loads give `0xFFFFFFFF`; a call emits its arguments. -/
def onesWorld : World Unit (List Val) where
  aliased _ := false
  getLocal _ _ := 0
  setLocal m _ _ := m
  load _ _ _ := 0xFFFFFFFF
  store m _ _ _ := ([], m)
  call m _ _ args := ([args], 0, m)
  intrinsic _ _ _ := 0
  addr _ := 0
  str _ := 0
  reg _ := 0
  floatUnop _ _ _ := 0
  floatBinop _ _ _ _ := 0
  floatCast _ _ := 0
  toFloat _ _ _ := 0

/-- `t1 = *(unsigned *)a1; g(t1); t1 = -1; g(t1); return;` -/
def bothSigns : List Block :=
  [{ stmts :=
      [.assign (.mkVar "t1" 8) (.mem ⟨4, true, false⟩ (.mkVar "a1" 8)),
       .call (.call ⟨8, false, false⟩ "g" false 0 [.mkVar "t1" 8]),
       .assign (.mkVar "t1" 8) (.mkConst (-1) 8),
       .call (.call ⟨8, false, false⟩ "g" false 0 [.mkVar "t1" 8])]
     ends := .ret }]

def bothSignsInfo : VarInfo where
  width := [("a1", 8), ("t1", 8)]

theorem onesWorld_load (s : Store Unit) :
    (onesWorld.eval (.mem ⟨4, true, false⟩ (.mkVar "a1" 8)) s).2.1 = 0xFFFFFFFF := by
  rw [World.eval, Effect.bind_apply]
  exact (by decide : Ty.ext ⟨4, true, false⟩ (0xFFFFFFFF : Val) = 0xFFFFFFFF)

theorem onesWorld_const (s : Store Unit) : (onesWorld.eval (.mkConst (-1) 8) s).2.1 = -1 := by
  unfold Expr.mkConst
  rw [World.eval]
  exact (by decide : Ty.ext ⟨8, false, false⟩ (-1 : Val) = -1)

/-- No extension of 4 bytes gives back both values of `t1`. -/
theorem bothSigns_not_fit : "t1" ∈ narrow bothSignsInfo bothSigns ∧
    ∀ κ s₀, ¬ (graphMachine (onesWorld.interp (bothSignsInfo.decl κ)) false ∅ bothSigns).Always
      (fun p ↦ ∀ b, bothSigns[p.1]? = some b →
        (onesWorld.interp (bothSignsInfo.decl κ)).Along
          (onesWorld.StoresFit κ (narrow bothSignsInfo bothSigns)) b.stmts p.2) (0, s₀) := by
  have hmem : "t1" ∈ narrow bothSignsInfo bothSigns := by decide +kernel
  refine ⟨hmem, fun κ s₀ h ↦ ?_⟩
  have halong := h.now _ rfl
  have hload := halong.1 "t1" hmem _ rfl
  rw [onesWorld_load] at hload
  have hconst := ((halong.2 _ rfl).2 _ rfl).1 "t1" hmem _ rfl
  rw [onesWorld_const] at hconst
  generalize κ "t1" = u at hload hconst
  revert hload hconst
  cases u <;> decide

/-- `t1 = *(unsigned *)a1; g(t1); return;` -/
def oneSign : List Block :=
  [{ stmts :=
      [.assign (.mkVar "t1" 8) (.mem ⟨4, true, false⟩ (.mkVar "a1" 8)),
       .call (.call ⟨8, false, false⟩ "g" false 0 [.mkVar "t1" 8])]
     ends := .ret }]

theorem oneSign_survives (s₀ : Store Unit) :
    onesWorld.BlockSurvives bothSignsInfo oneSign (fun _ ↦ true) s₀ (0, s₀) := by
  have hnarrow : narrow bothSignsInfo oneSign = ["t1"] := by decide +kernel
  rintro b ⟨rfl⟩
  rw [hnarrow]
  refine ⟨⟨⟨?_, ?_⟩, fun s₁ h₁ ↦ ⟨⟨?_, ?_⟩, fun _ _ ↦ trivial⟩⟩, fun s' _ n _ hr ↦ ?_⟩
  · intro n hn hr
    obtain rfl := List.mem_singleton.1 hn
    exact absurd hr (by decide +kernel)
  · intro n hn rhs hrhs
    obtain rfl := List.mem_singleton.1 hn
    obtain rfl := Option.some.inj hrhs
    rw [World.survives.eq_def]
    exact .inr rfl
  · intro n hn hr hentry
    obtain rfl := List.mem_singleton.1 hn
    rw [← hentry]
    obtain rfl := Sum.inl.inj h₁
    rw [execStmt_vars_of_eq onesWorld rfl rfl, onesWorld_load]
    decide
  · intro n hn rhs hrhs
    cases hrhs
  · exact absurd hr (by simp [Block.termReads])

theorem oneSign_always (s₀ : Store Unit) :
    (graphMachine (onesWorld.interp (bothSignsInfo.decl fun _ ↦ true)) false ∅ oneSign).Always
      (onesWorld.BlockSurvives bothSignsInfo oneSign (fun _ ↦ true) s₀) (0, s₀) := by
  have hstart : (graphMachine (onesWorld.interp (bothSignsInfo.decl fun _ ↦ true)) false ∅
      oneSign).Always (· = (0, s₀)) (0, s₀) := by
    refine Machine.Always.of_preserved rfl ?_
    rintro p es p' rfl hstep
    cases hstep
  intro p hp
  rw [hstart p hp]
  exact oneSign_survives s₀

theorem oneSign_sound :
    (graphMachine (onesWorld.interp (bothSignsInfo.decl fun _ ↦ true)) false ∅ oneSign).Always
      (fun p ↦ ∀ b, oneSign[p.1]? = some b →
        (onesWorld.interp (bothSignsInfo.decl fun _ ↦ true)).Along
          (onesWorld.StoresFit (fun _ ↦ true) (narrow bothSignsInfo oneSign)) b.stmts p.2)
      (0, ⟨fun _ ↦ 0, ()⟩) ∧
    (graphMachine (onesWorld.interp (bothSignsInfo.decl fun _ ↦ true)) false ∅
      oneSign).SameBehaviour (0, ⟨fun _ ↦ 0, ()⟩)
      (graphMachine (onesWorld.interp ((narrowTempWidths bothSignsInfo oneSign).1.decl
        fun _ ↦ true)) false ∅ (narrowTempWidths bothSignsInfo oneSign).2)
      (0, narrowStore (fun _ ↦ true) (narrow bothSignsInfo oneSign) ⟨fun _ ↦ 0, ()⟩) :=
  narrowTempWidths_sound onesWorld bothSignsInfo oneSign (fun _ ↦ true) false ∅ 0 ⟨fun _ ↦ 0, ()⟩
    (fun _ h ↦ absurd h Bool.false_ne_true) (fitsRound_narrow (by decide +kernel))
    (oneSign_always _)

end Ldu
