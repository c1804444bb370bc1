import Ldu.Semantics.Effect
import Ldu.Semantics.Flow
import Mathlib.Logic.Function.Basic

/-!
# The values of expressions

Values are 64-bit words. A node of the integer grammar means its operation, reduced to the width
of the node and extended by its signedness (`Ty.ext`); comparisons compare the operands and give
`0` or `1`. A floating-point number is a word that does not depend on its width. Variables hold
words. Operands are evaluated from left to right; the arms of a
conditional and the right operands of `&&` and `||` only when they are selected.

A `World` gives the meaning of everything else: memory and the locals that live in it because
their address is taken, calls, floating point, registers, strings and addresses. Impure calls may
change memory and emit events; intrinsics that are pure return a value made of their arguments.

`World.interp` is the interpretation of statements and terminators over these values; `decl`
converts an assigned value to the declared type of the variable. Its events are those of the world
and the decisions taken.
-/

namespace Ldu

/-- A value. -/
abbrev Val := BitVec 64

/-- The value as a node of this type has it: integers are reduced to the width and extended. -/
def Ty.ext (ty : Ty) (v : Val) : Val :=
  if ty.isFloat ∨ ty.width = 0 ∨ 8 ≤ ty.width then v
  else if ty.isUnsigned then (v.setWidth (8 * ty.width)).setWidth 64
  else (v.setWidth (8 * ty.width)).signExtend 64

/-- The state of a run: the variables, and memory with all that lives in it. -/
structure Store (M : Type*) where
  vars : String → Val
  mem : M

/-- The meaning of memory, calls and everything that is not integer arithmetic. -/
structure World (M E : Type*) where
  /-- Locals whose address is taken live in memory. -/
  aliased : String → Bool
  getLocal : M → String → Val
  setLocal : M → String → Val → M
  load : M → Ty → Val → Val
  store : M → Ty → Val → Val → List E × M
  /-- An impure call: the callee, the target if it is computed, and the arguments. -/
  call : M → String → Option Val → List Val → List E × Val × M
  /-- A pure intrinsic. -/
  intrinsic : String → Option Val → List Val → Val
  addr : String → Val
  str : String → Val
  reg : ℕ → Val
  floatUnop : Ty → UnOp → Val → Val
  floatBinop : Ty → BinOp → Val → Val → Val
  floatCast : Ty → Val → Val
  /-- An integer, of the given signedness, as a floating-point number. -/
  toFloat : Ty → Bool → Val → Val

/-! ### Operators -/

def ofBool (b : Bool) : Val :=
  if b then 1 else 0

def intUnop (ty : Ty) (op : UnOp) (v : Val) : Val :=
  match op with
  | .neg => ty.ext (-v)
  | .bnot => ty.ext (~~~v)
  | .lnot => ofBool (v == 0)

/-- The strict binary operators; `&&` and `||` have both operands here. -/
def intBinop (ty : Ty) (op : BinOp) (v w : Val) : Val :=
  match op with
  | .add => ty.ext (v + w)
  | .sub => ty.ext (v - w)
  | .mul => ty.ext (v * w)
  | .div =>
    ty.ext (if ty.isUnsigned then (ty.ext v).udiv (ty.ext w) else (ty.ext v).sdiv (ty.ext w))
  | .mod =>
    ty.ext (if ty.isUnsigned then (ty.ext v).umod (ty.ext w) else (ty.ext v).srem (ty.ext w))
  | .band => ty.ext (v &&& w)
  | .bor => ty.ext (v ||| w)
  | .bxor => ty.ext (v ^^^ w)
  | .shl => ty.ext (v <<< w.toNat)
  | .shr => ty.ext (if ty.isUnsigned then ty.ext v >>> w.toNat else (ty.ext v).sshiftRight w.toNat)
  | .eq => ofBool (v == w)
  | .ne => ofBool (v != w)
  | .lt => ofBool (if ty.isUnsigned then v.ult w else v.slt w)
  | .le => ofBool (if ty.isUnsigned then v.ule w else v.sle w)
  | .gt => ofBool (if ty.isUnsigned then w.ult v else w.slt v)
  | .ge => ofBool (if ty.isUnsigned then w.ule v else w.sle v)
  | .land => ofBool (v != 0 && w != 0)
  | .lor => ofBool (v != 0 || w != 0)

/-- The value of a `&&` or `||` that its left operand decides. -/
def shortCircuit (op : BinOp) (v : Val) : Option Val :=
  match op with
  | .land => if v = 0 then some 0 else none
  | .lor => if v = 0 then none else some 1
  | _ => none

namespace World

variable {M E : Type} (W : World M E)

/-- The operand or the result is a floating-point number. -/
def unop (ty tyA : Ty) (op : UnOp) (v : Val) : Val :=
  if ty.isFloat || tyA.isFloat then W.floatUnop ty op v else intUnop ty op v

def binop (ty tyA tyB : Ty) (op : BinOp) (v w : Val) : Val :=
  if ty.isFloat || tyA.isFloat || tyB.isFloat then W.floatBinop ty op v w else intBinop ty op v w

def castOp (ty tyA : Ty) (v : Val) : Val :=
  if tyA.isFloat then W.floatCast ty v
  else if ty.isFloat then W.toFloat ty tyA.isUnsigned v
  else ty.ext v

/-! ### Variables, memory and calls -/

/-- The value of a variable. -/
def read (s : Store M) (x : String) : Val :=
  if W.aliased x then W.getLocal s.mem x else s.vars x

/-- Assign a variable. -/
def write (s : Store M) (x : String) (v : Val) : Store M :=
  if W.aliased x then { s with mem := W.setLocal s.mem x v }
  else { s with vars := Function.update s.vars x v }

/-- Call a function: pure intrinsics compute a value, other calls act on memory. -/
def callOp (callee : String) (target : Option Val) (args : List Val) : Effect E (Store M) Val :=
  fun s ↦
    if Expr.isPureCallee callee then ([], W.intrinsic callee target args, s)
    else
      let r := W.call s.mem callee target args
      (r.1, r.2.1, { s with mem := r.2.2 })

/-! ### Expressions -/

mutual

/-- The value of an expression, from left to right. -/
def eval : Expr → Effect E (Store M) Val
  | .const ty c => pure (ty.ext c)
  | .reg ty r => pure (ty.ext (W.reg r))
  | .var _ x => Effect.get (W.read · x)
  | .str _ t => pure (W.str t)
  | .mem ty a => do
    let p ← eval a
    Effect.get fun s ↦ ty.ext (W.load s.mem ty p)
  | .unary ty op a => do
    let v ← eval a
    pure (W.unop ty a.ty op v)
  | .binary ty op a b => do
    let v ← eval a
    match shortCircuit op v with
    | some r => pure r
    | none => do
      let w ← eval b
      pure (W.binop ty a.ty b.ty op v w)
  | .cast ty _ a => do
    let v ← eval a
    pure (W.castOp ty a.ty v)
  | .ternary _ a b c => do
    let v ← eval a
    if v ≠ 0 then eval b else eval c
  | .addrOf _ (.var _ x) => pure (W.addr x)
  | .addrOf _ (.mem _ a) => eval a
  | .addrOf _ a => eval a
  | .call _ callee _ _ args => do
    let vs ← evalList args
    W.callOp callee none vs
  | .callVia _ callee _ _ target args => do
    let t ← eval target
    let vs ← evalList args
    W.callOp callee (some t) vs

def evalList : List Expr → Effect E (Store M) (List Val)
  | [] => pure []
  | e :: es => do
    let v ← eval e
    let vs ← evalList es
    pure (v :: vs)

end

/-- The address of an expression that names a place. -/
def place : Expr → Effect E (Store M) Val
  | .var _ x => pure (W.addr x)
  | .mem _ a => W.eval a
  | a => W.eval a

theorem eval_addrOf (ty : Ty) (a : Expr) : W.eval (.addrOf ty a) = W.place a := by
  cases a <;> simp [eval, place]

/-- Where a value is assigned to. -/
inductive Target
  | var (name : String)
  | mem (ty : Ty) (p : Val)
  | nowhere

/-- The target an expression names on the left of an assignment. -/
def target : Expr → Effect E (Store M) Target
  | .var _ x => pure (.var x)
  | .mem ty a => do
    let p ← W.eval a
    pure (.mem ty p)
  | a => do
    let _ ← W.eval a
    pure .nowhere

theorem place_of_isPlace {e : Expr} (h : e.isPlace = false) : W.place e = W.eval e := by
  cases e <;> first | rfl | cases h

theorem target_of_isPlace {e : Expr} (h : e.isPlace = false) :
    W.target e = (do let _ ← W.eval e; pure .nowhere) := by
  cases e <;> first | rfl | cases h

/-! ### Expressions alike -/

/-- `e'` means what `e` means, in every position. -/
structure Alike (e e' : Expr) : Prop where
  eval : W.eval e' = W.eval e
  place : W.place e' = W.place e
  target : W.target e' = W.target e
  isFloat : e'.ty.isFloat = e.ty.isFloat
  isUnsigned : e'.ty.isUnsigned = e.ty.isUnsigned

/-- An expression that names no place is known by its value. -/
theorem alike_of_value {e e' : Expr} (hplace : e.isPlace = false ∧ e'.isPlace = false)
    (heval : W.eval e' = W.eval e) (hfloat : e'.ty.isFloat = e.ty.isFloat)
    (huns : e'.ty.isUnsigned = e.ty.isUnsigned) : W.Alike e e' := by
  obtain ⟨he, he'⟩ := hplace
  refine ⟨heval, ?_, ?_, hfloat, huns⟩
  · rw [W.place_of_isPlace he, W.place_of_isPlace he', heval]
  · rw [W.target_of_isPlace he, W.target_of_isPlace he', heval]

theorem evalList_map {f : Expr → Expr} {es : List Expr} (h : ∀ e ∈ es, W.Alike e (f e)) :
    W.evalList (es.map f) = W.evalList es := by
  induction es with
  | nil => rfl
  | cons e es ih =>
    rw [List.map_cons, evalList, evalList, (h e (by simp)).eval,
      ih fun e he ↦ h e (by simp [he])]

/-- Operands may be replaced by expressions that are alike. -/
theorem alike_mapChildren {f : Expr → Expr} {e : Expr}
    (h : ∀ c ∈ e.children, W.Alike c (f c)) : W.Alike e (e.mapChildren f) := by
  cases e with
  | const | reg | var | str => exact ⟨rfl, rfl, rfl, rfl, rfl⟩
  | mem ty a =>
    have ha := h a (by simp [Expr.children])
    refine ⟨?_, ha.eval, ?_, rfl, rfl⟩
    · rw [Expr.mapChildren, World.eval, World.eval, ha.eval]
    · rw [Expr.mapChildren, World.target, World.target, ha.eval]
  | unary ty op a =>
    have ha := h a (by simp [Expr.children])
    refine W.alike_of_value ⟨rfl, rfl⟩ ?_ rfl rfl
    simp only [Expr.mapChildren, World.eval, unop, ha.eval, ha.isFloat]
  | cast ty text a =>
    have ha := h a (by simp [Expr.children])
    refine W.alike_of_value ⟨rfl, rfl⟩ ?_ rfl rfl
    simp only [Expr.mapChildren, World.eval, castOp, ha.eval, ha.isFloat, ha.isUnsigned]
  | addrOf ty a =>
    have ha := h a (by simp [Expr.children])
    refine W.alike_of_value ⟨rfl, rfl⟩ ?_ rfl rfl
    rw [Expr.mapChildren, eval_addrOf, eval_addrOf, ha.place]
  | binary ty op a b =>
    have ha := h a (by simp [Expr.children])
    have hb := h b (by simp [Expr.children])
    refine W.alike_of_value ⟨rfl, rfl⟩ ?_ rfl rfl
    simp only [Expr.mapChildren, World.eval, binop, ha.eval, ha.isFloat, hb.eval, hb.isFloat]
  | ternary ty a b c =>
    have ha := h a (by simp [Expr.children])
    have hb := h b (by simp [Expr.children])
    have hc := h c (by simp [Expr.children])
    refine W.alike_of_value ⟨rfl, rfl⟩ ?_ rfl rfl
    simp only [Expr.mapChildren, World.eval, ha.eval, hb.eval, hc.eval]
  | call ty n i k args =>
    have hargs : W.evalList (args.map f) = W.evalList args := W.evalList_map h
    refine W.alike_of_value ⟨rfl, rfl⟩ ?_ rfl rfl
    rw [Expr.mapChildren, World.eval, World.eval, hargs]
  | callVia ty n i k t args =>
    have ht := h t (by simp [Expr.children])
    have hargs : W.evalList (args.map f) = W.evalList args :=
      W.evalList_map fun e he ↦ h e (by simp [Expr.children, he])
    refine W.alike_of_value ⟨rfl, rfl⟩ ?_ rfl rfl
    rw [Expr.mapChildren, World.eval, World.eval, hargs, ht.eval]

/-! ### Statements and terminators -/

/-- Assign a value. -/
def assign (decl : String → Val → Val) (k : Target) (v : Val) : Effect E (Store M) Unit :=
  fun s ↦
    match k with
    | .var x => ([], (), W.write s x (decl x v))
    | .mem ty p => ((W.store s.mem ty p v).1, (), { s with mem := (W.store s.mem ty p v).2 })
    | .nowhere => ([], (), s)

/-- Assignments and call statements; the address of a store is evaluated before the value. -/
def execStmt (decl : String → Val → Val) : Stmt → Effect E (Store M) Unit
  | .assign lhs rhs => do
    let k ← W.target lhs
    let v ← W.eval rhs
    W.assign decl k v
  | .call rhs => do
    let _ ← W.eval rhs
  | .comment _ => pure ()

theorem execStmt_var (decl : String → Val → Val) (ty : Ty) (x : String) (rhs : Expr)
    (s : Store M) :
    W.execStmt decl (.assign (.var ty x) rhs) s =
      ((W.eval rhs s).1, (), W.write (W.eval rhs s).2.2 x (decl x (W.eval rhs s).2.1)) := by
  rw [execStmt, target, pure_bind, Effect.bind_apply]
  exact Prod.ext (List.append_nil _) rfl

/-- What is assigned to no variable is not converted. -/
theorem assign_congr (decl decl' : String → Val → Val) {k : Target} (h : ∀ x, k ≠ .var x) :
    W.assign decl k = W.assign decl' k := by
  cases k with
  | var x => exact absurd rfl (h x)
  | mem => rfl
  | nowhere => rfl

theorem assign_vars {decl : String → Val → Val} {k : Target} (h : ∀ x, k ≠ .var x) (v : Val)
    (s : Store M) : (W.assign decl k v s).2.2.vars = s.vars := by
  cases k with
  | var x => exact absurd rfl (h x)
  | mem => rfl
  | nowhere => rfl

/-- Only a variable on the left is a variable that is assigned. -/
theorem target_ne_var {lhs : Expr} (h : ∀ ty x, lhs ≠ .var ty x) (s : Store M) (x : String) :
    (W.target lhs s).2.1 ≠ .var x := by
  cases lhs with
  | var ty x => exact absurd rfl (h ty x)
  | _ => simp [target, Effect.bind_apply]

/-- Statements may be rewritten to expressions that are alike. -/
theorem execStmt_mapExprs {decl : String → Val → Val} {f : Expr → Expr} {st : Stmt}
    (h : ∀ e ∈ st.exprs, W.Alike e (f e)) :
    W.execStmt decl (st.mapExprs f) = W.execStmt decl st := by
  cases st with
  | assign lhs rhs =>
    rw [Stmt.mapExprs, execStmt, execStmt, (h lhs (by simp [Stmt.exprs])).target,
      (h rhs (by simp [Stmt.exprs])).eval]
  | call rhs => rw [Stmt.mapExprs, execStmt, execStmt, (h rhs (by simp [Stmt.exprs])).eval]
  | comment label => rfl

/-! ### Frames -/

/-- The computation changes no variable outside memory, and depends only on memory and on the
variables in `p`. -/
def ReadsOnly {α : Type} (x : Effect E (Store M) α) (p : String → Prop) : Prop :=
  ∀ s t, t.mem = s.mem → (∀ n, p n → t.vars n = s.vars n) →
    x t = ((x s).1, (x s).2.1, ⟨t.vars, (x s).2.2.mem⟩)

section ReadsOnly

variable {α β : Type} {p q : String → Prop} {x : Effect E (Store M) α}

theorem ReadsOnly.mono (hx : ReadsOnly x p) (h : ∀ n, p n → q n) : ReadsOnly x q :=
  fun s t hmem hq ↦ hx s t hmem fun n hn ↦ hq n (h n hn)

theorem ReadsOnly.vars_eq (hx : ReadsOnly x p) (s : Store M) : (x s).2.2.vars = s.vars := by
  rw [hx s s rfl fun _ _ ↦ rfl]

theorem readsOnly_pure (a : α) : ReadsOnly (pure a : Effect E (Store M) α) p := by
  intro s t hmem _
  simp only [Effect.pure_apply, ← hmem]

theorem readsOnly_get {f : Store M → α}
    (h : ∀ s t, t.mem = s.mem → (∀ n, p n → t.vars n = s.vars n) → f t = f s) :
    ReadsOnly (Effect.get f : Effect E (Store M) α) p := by
  intro s t hmem hp
  simp only [Effect.get_apply, h s t hmem hp, ← hmem]

theorem ReadsOnly.bind {f : α → Effect E (Store M) β} (hx : ReadsOnly x p)
    (hf : ∀ a, ReadsOnly (f a) p) : ReadsOnly (x >>= f) p := by
  intro s t hmem hp
  have hvars := hx.vars_eq s
  rw [Effect.bind_eq (hx s t hmem hp), Effect.bind_apply,
    hf _ (x s).2.2 ⟨t.vars, (x s).2.2.mem⟩ rfl (by simpa only [hvars] using hp)]

theorem readsOnly_callOp (callee : String) (target : Option Val) (args : List Val) :
    ReadsOnly (W.callOp callee target args) p := by
  intro s t hmem _
  unfold callOp
  split
  · rw [← hmem]
  · rw [hmem]

theorem readsOnly_read (n : String) (h : p n) :
    ReadsOnly (Effect.get (W.read · n) : Effect E (Store M) Val) p := by
  refine readsOnly_get fun s t hmem hp ↦ ?_
  unfold read
  rw [hmem, hp n h]

end ReadsOnly

mutual

/-- Evaluation depends on the variables that are read. -/
theorem readsOnly_eval : ∀ e : Expr, ReadsOnly (W.eval e) (e.readsNamedVar · = true)
  | .const _ _ | .reg _ _ | .str _ _ => by
    rw [eval]
    exact readsOnly_pure _
  | .var _ x => by
    rw [eval]
    exact W.readsOnly_read x (by simp [Expr.readsNamedVar, Expr.anyNode, Expr.isVarNamed])
  | .mem _ a => by
    rw [eval]
    refine .bind ((readsOnly_eval a).mono (Expr.readsNamedVar_of_child (by simp [Expr.children])))
      fun v ↦ readsOnly_get fun s t hmem _ ↦ ?_
    rw [hmem]
  | .unary _ _ a | .cast _ _ a => by
    rw [eval]
    exact .bind ((readsOnly_eval a).mono (Expr.readsNamedVar_of_child (by simp [Expr.children])))
      fun _ ↦ readsOnly_pure _
  | .binary _ op a b => by
    rw [eval]
    refine .bind ((readsOnly_eval a).mono (Expr.readsNamedVar_of_child (by simp [Expr.children])))
      fun v ↦ ?_
    split
    · exact readsOnly_pure _
    · exact .bind ((readsOnly_eval b).mono
        (Expr.readsNamedVar_of_child (by simp [Expr.children]))) fun _ ↦ readsOnly_pure _
  | .ternary _ a b c => by
    rw [eval]
    refine .bind ((readsOnly_eval a).mono (Expr.readsNamedVar_of_child (by simp [Expr.children])))
      fun v ↦ ?_
    split
    · exact (readsOnly_eval b).mono (Expr.readsNamedVar_of_child (by simp [Expr.children]))
    · exact (readsOnly_eval c).mono (Expr.readsNamedVar_of_child (by simp [Expr.children]))
  | .addrOf ty a => by
    have ha := (readsOnly_eval a).mono
      (Expr.readsNamedVar_of_child (e := .addrOf ty a) (by simp [Expr.children]))
    cases a with
    | var _ x =>
      rw [eval_addrOf]
      exact readsOnly_pure _
    | mem ty' p =>
      rw [eval_addrOf]
      have hchild : p ∈ (Expr.mem ty' p).children := by simp [Expr.children]
      exact (readsOnly_eval p).mono fun n hn ↦
        Expr.readsNamedVar_of_child (by simp [Expr.children]) n
          (Expr.readsNamedVar_of_child hchild n hn)
    | _ =>
      rw [eval_addrOf]
      exact ha
  | .call _ _ _ _ args => by
    rw [eval]
    exact .bind ((readsOnly_evalList args).mono fun n ⟨e, he, hn⟩ ↦
      Expr.readsNamedVar_of_child (by simpa [Expr.children] using he) n hn)
      fun _ ↦ W.readsOnly_callOp _ _ _
  | .callVia _ _ _ _ t args => by
    rw [eval]
    refine .bind ((readsOnly_eval t).mono (Expr.readsNamedVar_of_child (by simp [Expr.children])))
      fun _ ↦ ?_
    exact .bind ((readsOnly_evalList args).mono fun n ⟨e, he, hn⟩ ↦
      Expr.readsNamedVar_of_child (by simp [Expr.children, he]) n hn)
      fun _ ↦ W.readsOnly_callOp _ _ _

theorem readsOnly_evalList : ∀ es : List Expr,
    ReadsOnly (W.evalList es) fun n ↦ ∃ e ∈ es, e.readsNamedVar n = true
  | [] => by
    rw [evalList]
    exact readsOnly_pure _
  | e :: es => by
    rw [evalList]
    exact .bind ((readsOnly_eval e).mono fun n hn ↦ ⟨e, by simp, hn⟩) fun _ ↦
      .bind ((readsOnly_evalList es).mono fun n ⟨e, he, hn⟩ ↦ ⟨e, by simp [he], hn⟩)
        fun _ ↦ readsOnly_pure _

end

theorem readsOnly_target (e : Expr) : ReadsOnly (W.target e) (e.readsNamedVar · = true) := by
  cases hplace : e.isPlace with
  | false =>
    rw [W.target_of_isPlace hplace]
    exact (W.readsOnly_eval e).bind fun _ ↦ readsOnly_pure _
  | true =>
    cases e with
    | var => exact readsOnly_pure _
    | mem ty a =>
      exact .bind ((W.readsOnly_eval a).mono
        (Expr.readsNamedVar_of_child (by simp [Expr.children]))) fun _ ↦ readsOnly_pure _
    | _ => cases hplace

/-- Evaluation changes no variable outside memory. -/
theorem eval_vars (e : Expr) (s : Store M) : (W.eval e s).2.2.vars = s.vars :=
  (W.readsOnly_eval e).vars_eq s

/-- Stores that agree on the variables an expression reads give it the same meaning. -/
theorem eval_agree (e : Expr) {s t : Store M} (hmem : t.mem = s.mem)
    (h : ∀ n, e.readsNamedVar n = true → t.vars n = s.vars n) :
    W.eval e t = ((W.eval e s).1, (W.eval e s).2.1, ⟨t.vars, (W.eval e s).2.2.mem⟩) :=
  W.readsOnly_eval e s t hmem h

end World

/-- An event of a run: one of the world, or a decision of the program. -/
inductive Event (E : Type)
  | world (e : E)
  | branch (b : Bool)
  | select (k : ℤ)
  deriving DecidableEq

/-- The event of the world, if it is one; decisions are not seen from outside. -/
def Event.world? {E : Type} : Event E → Option E
  | .world e => some e
  | .branch _ | .select _ => none

/-- Statements, conditions, selectors and returns over values; the result is the value
returned. -/
def World.interp {M E : Type} (W : World M E) (decl : String → Val → Val) :
    Interp (Store M) (Event E) (Option Val) where
  exec st s :=
    let r := W.execStmt decl st s
    (r.1.map .world, .inl r.2.2)
  test c s :=
    let r := W.eval c s
    (r.1.map .world ++ [.branch (r.2.1 != 0)], r.2.1 != 0, r.2.2)
  select e s :=
    let r := W.eval e s
    (r.1.map .world ++ [.select r.2.1.toInt], r.2.1.toInt, r.2.2)
  leave rt s :=
    match rt with
    | .tailVoid c => ((W.eval c s).1.map .world, none)
    | .tailValue c => ((W.eval c s).1.map .world, some (W.eval c s).2.1)
    | .void => ([], none)
    | .value (some e) => ((W.eval e s).1.map .world, some (W.eval e s).2.1)
    | .value none | .zero => ([], some 0)

/-- The meaning of which the events of the world are seen. -/
def World.seen {M E : Type} (W : World M E) (decl : String → Val → Val) :
    Interp (Store M) E (Option Val) :=
  (W.interp decl).observe Event.world?

end Ldu
