import Ldu.Semantics.Eval

/-!
# Variables

What the typing passes record about the variables of a function, and the queries on assignments
and uses that the passes over variables share.

A variable that no table mentions is 8 bytes wide.
-/

namespace Ldu

/-- The tables about variables that passes consult. -/
structure VarInfo where
  /-- `var_width`. -/
  width : List (String × ℕ) := []
  /-- The variables for which `var_is_ll` holds. -/
  isLl : List String := []
  /-- The variables for which `var_pointer` holds. -/
  pointer : List String := []
  /-- The variables for which `var_is_float` holds. -/
  isFloat : List String := []
  arrayLocals : List String := []
  conflictRaw : List String := []
  paramStructs : List String := []
  /-- `force_float_vars`. -/
  forceFloat : List String := []

namespace VarInfo

/-- The declared width. -/
def widthOf (info : VarInfo) (n : String) : ℕ :=
  (info.width.lookup n).getD 8

/-- An assigned value as the declared type has it; `κ` holds of the unsigned variables. -/
def decl (info : VarInfo) (κ : String → Bool) (n : String) (v : Val) : Val :=
  Ty.ext ⟨info.widthOf n, κ n, info.isFloat.contains n⟩ v

end VarInfo

/-! ### Names -/

/-- The name of a temporary: `v` or `t`, then digits. -/
def isTempName (n : String) : Bool :=
  match n.toList with
  | c :: d :: ds => (c == 'v' || c == 't') && (d :: ds).all Char.isDigit
  | _ => false

/-- `nm` is a scalar local, the predicate `ok` or `is_tmp` of the passes. -/
def isScalarLocal (info : VarInfo) (nm : String) : Bool :=
  isTempName nm && !info.arrayLocals.contains nm

/-! ### Addresses taken -/

/-- The node is `&n`. -/
def Expr.isAddrOf (n : String) : Expr → Bool
  | addrOf _ (var _ x) => x == n
  | _ => false

/-- `collect_addr_taken`: some expression of the function takes the address of `n`. -/
def addrTaken (g : List Block) (n : String) : Bool :=
  g.any fun b ↦ b.exprs.any (Expr.anyNode (Expr.isAddrOf n))

/-! ### Definitions -/

/-- The value the statement assigns to `n`. -/
def Stmt.defOf (n : String) : Stmt → Option Expr
  | assign (.var _ x) rhs => if x = n then some rhs else none
  | _ => none

/-- The right-hand sides of the assignments to `n`. -/
def defsOf (g : List Block) (n : String) : List Expr :=
  g.flatMap fun b ↦ b.stmts.filterMap (Stmt.defOf n)

theorem mem_defsOf {g : List Block} {id : ℕ} {b : Block} {st : Stmt} {n : String} {rhs : Expr}
    (hb : g[id]? = some b) (hst : st ∈ b.stmts) (h : st.defOf n = some rhs) : rhs ∈ defsOf g n :=
  List.mem_flatMap.2 ⟨b, List.mem_of_getElem? hb, List.mem_filterMap.2 ⟨st, hst, h⟩⟩

theorem defOf_eq_some {st : Stmt} {n : String} {rhs : Expr} (h : st.defOf n = some rhs) :
    ∃ ty, st = .assign (.var ty n) rhs := by
  unfold Stmt.defOf at h
  split at h
  · next ty x rhs' =>
    split at h
    · next hx =>
      obtain rfl := Option.some.inj h
      exact ⟨ty, by rw [hx]⟩
    · cases h
  · cases h

section Frame

variable {M E : Type} (W : World M E) {decl : String → Val → Val} {st : Stmt} {n : String}

/-- A statement that does not assign `n` leaves it alone. -/
theorem execStmt_vars_of_ne (h : st.defOf n = none) (s : Store M) :
    (W.execStmt decl st s).2.2.vars n = s.vars n := by
  cases st with
  | assign lhs rhs =>
    by_cases hvar : ∃ ty x, lhs = .var ty x
    · obtain ⟨ty, x, rfl⟩ := hvar
      have hne : n ≠ x := fun hx ↦ by simp [Stmt.defOf, hx] at h
      rw [W.execStmt_var, World.write]
      split
      · exact congrFun (W.eval_vars rhs s) n
      · exact (Function.update_of_ne hne _ _).trans (congrFun (W.eval_vars rhs s) n)
    · have hk : ∀ x, (W.target lhs s).2.1 ≠ .var x := W.target_ne_var (by simpa using hvar) s
      rw [World.execStmt, Effect.bind_apply, Effect.bind_apply, W.assign_vars hk, W.eval_vars,
        (W.readsOnly_target lhs).vars_eq]
  | call rhs =>
    rw [World.execStmt, Effect.bind_apply]
    exact congrFun (W.eval_vars rhs s) n
  | comment => rfl

/-- An assignment to a variable outside memory. -/
theorem execStmt_vars_of_eq {rhs : Expr} (h : st.defOf n = some rhs)
    (halias : W.aliased n = false) (s : Store M) :
    (W.execStmt decl st s).2.2.vars n = decl n (W.eval rhs s).2.1 := by
  obtain ⟨ty, rfl⟩ := defOf_eq_some h
  rw [W.execStmt_var, World.write, if_neg (by rw [halias]; decide)]
  exact Function.update_self _ _ _

end Frame

/-! ### Reads -/

/-- Executing the statement may read `n`. -/
def Stmt.reads (n : String) : Stmt → Bool
  | assign (.var _ _) rhs => rhs.readsNamedVar n
  | st => st.exprs.any (·.readsNamedVar n)

theorem Stmt.reads_rhs {lhs rhs : Expr} {n : String} (h : rhs.readsNamedVar n = true) :
    (Stmt.assign lhs rhs).reads n = true := by
  cases lhs <;> simp [Stmt.reads, Stmt.exprs, h]

theorem Stmt.reads_lhs {lhs rhs : Expr} {n : String} (hvar : ∀ ty x, lhs ≠ .var ty x)
    (h : lhs.readsNamedVar n = true) : (Stmt.assign lhs rhs).reads n = true := by
  cases lhs with
  | var ty x => exact absurd rfl (hvar ty x)
  | _ => simp [Stmt.reads, Stmt.exprs, h]

theorem Stmt.exists_of_reads {st : Stmt} {n : String} (h : st.reads n = true) :
    ∃ e ∈ st.exprs, e.readsNamedVar n = true := by
  cases st with
  | assign lhs rhs =>
    cases lhs with
    | var => exact ⟨rhs, by simp [Stmt.exprs], h⟩
    | _ => exact List.any_eq_true.1 h
  | call | comment => exact List.any_eq_true.1 h

/-- The terminator may read `n`. The copy of the returned value is never evaluated. -/
def Block.termReads (n : String) (b : Block) : Bool :=
  (b.cond.toList ++ b.switchVar.toList ++ b.retValue.toList ++ b.tailCall.toList).any
    (·.readsNamedVar n)

end Ldu
