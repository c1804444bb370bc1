import Mathlib.Data.List.Basic
import Mathlib.Data.BitVec
import Mathlib.Algebra.BigOperators.Group.List.Basic

/-!
# Expressions

The expression trees of the decompiler and the queries and rewrites its passes share.

Every node carries a byte width, a signedness flag and a float flag (`Ty`). A call node may
carry the expression of an indirect target (`callVia`) besides its callee text; `call` is the
node whose target pointer is null. The hint flags of constants only steer rendering and are
not represented.

Queries that ask for *some* node and tallies over nodes are instances of `anyNode` and
`sumNodes`; substitutions that replace whole subtrees top down are instances of `rewrite`.
All three are described once, node by node, through `children` and `mapChildren`.
-/

namespace Ldu

/-- Unary operators. -/
inductive UnOp
  | neg | bnot | lnot
  deriving DecidableEq, Repr

/-- Binary operators. -/
inductive BinOp
  | add | sub | mul | div | mod | band | bor | bxor | shl | shr
  | eq | ne | lt | le | gt | ge | land | lor
  deriving DecidableEq, Repr

/-- The typing fields of a node: byte width, `is_unsigned` and `is_float`. -/
structure Ty where
  width : ℕ := 4
  isUnsigned : Bool := false
  isFloat : Bool := false
  deriving DecidableEq, Repr

/-- Expression trees, one constructor for each node kind. -/
inductive Expr
  | const (ty : Ty) (cval : BitVec 64)
  | reg (ty : Ty) (reg : ℕ)
  | var (ty : Ty) (name : String)
  | mem (ty : Ty) (a : Expr)
  | unary (ty : Ty) (op : UnOp) (a : Expr)
  | binary (ty : Ty) (op : BinOp) (a b : Expr)
  | cast (ty : Ty) (text : String) (a : Expr)
  | call (ty : Ty) (callee : String) (indirect : Bool) (retKind : ℕ) (args : List Expr)
  | callVia (ty : Ty) (callee : String) (indirect : Bool) (retKind : ℕ) (target : Expr)
      (args : List Expr)
  | addrOf (ty : Ty) (a : Expr)
  | ternary (ty : Ty) (a b c : Expr)
  | str (ty : Ty) (text : String)
  deriving Repr

namespace Expr

/-- The typing fields of the root. -/
def ty : Expr → Ty
  | const ty _ | reg ty _ | var ty _ | mem ty _ | unary ty _ _ | binary ty _ _ _
  | cast ty _ _ | call ty _ _ _ _ | callVia ty _ _ _ _ _ | addrOf ty _ | ternary ty _ _ _
  | str ty _ => ty

/-! ### Construction -/

def mkConst (v : BitVec 64) (w : ℕ := 4) (u : Bool := false) : Expr :=
  const ⟨w, u, false⟩ v

def mkVar (n : String) (w : ℕ := 4) (u : Bool := false) : Expr :=
  var ⟨w, u, false⟩ n

def mkUnary (op : UnOp) (x : Expr) (w : ℕ) : Expr :=
  unary ⟨w, false, false⟩ op x

def mkBinary (op : BinOp) (l r : Expr) (w : ℕ) (u : Bool := false) : Expr :=
  binary ⟨w, u, false⟩ op l r

/-- A cast, collapsed with an identical cast just below it. -/
def mkCast (text : String) (x : Expr) (w : ℕ) (u : Bool := false) : Expr :=
  match x with
  | cast ty t _ =>
    if t = text ∧ ty.width = w ∧ ty.isUnsigned = u then x else cast ⟨w, u, false⟩ text x
  | _ => cast ⟨w, u, false⟩ text x

/-! ### Children -/

/-- The operands, in the order they are visited. -/
def children : Expr → List Expr
  | const _ _ | reg _ _ | var _ _ | str _ _ => []
  | mem _ a | unary _ _ a | cast _ _ a | addrOf _ a => [a]
  | binary _ _ a b => [a, b]
  | ternary _ a b c => [a, b, c]
  | call _ _ _ _ args => args
  | callVia _ _ _ _ target args => target :: args

/-- The node with each operand replaced. -/
def mapChildren (f : Expr → Expr) : Expr → Expr
  | const ty v => const ty v
  | reg ty r => reg ty r
  | var ty n => var ty n
  | str ty t => str ty t
  | mem ty a => mem ty (f a)
  | unary ty op a => unary ty op (f a)
  | cast ty t a => cast ty t (f a)
  | addrOf ty a => addrOf ty (f a)
  | binary ty op a b => binary ty op (f a) (f b)
  | ternary ty a b c => ternary ty (f a) (f b) (f c)
  | call ty n i k args => call ty n i k (args.map f)
  | callVia ty n i k t args => callVia ty n i k (f t) (args.map f)

theorem children_mapChildren (f : Expr → Expr) (e : Expr) :
    (e.mapChildren f).children = e.children.map f := by
  cases e <;> rfl

theorem mapChildren_mapChildren (f g : Expr → Expr) (e : Expr) :
    (e.mapChildren f).mapChildren g = e.mapChildren (g ∘ f) := by
  cases e <;> simp [mapChildren]

theorem mapChildren_congr {f g : Expr → Expr} {e : Expr} (h : ∀ c ∈ e.children, f c = g c) :
    e.mapChildren f = e.mapChildren g := by
  cases e <;> simp_all [mapChildren, children]

/-- Nothing changes when no operand does. -/
theorem mapChildren_eq_self {f : Expr → Expr} {e : Expr} (h : ∀ c ∈ e.children, f c = c) :
    e.mapChildren f = e := by
  rw [mapChildren_congr (g := id) h]
  cases e <;> simp [mapChildren]

theorem sizeOf_lt_of_mem_children {c e : Expr} (h : c ∈ e.children) : sizeOf c < sizeOf e := by
  cases e with
  | call ty n i k args =>
    have : sizeOf c < sizeOf args := List.sizeOf_lt_of_mem h
    simp only [call.sizeOf_spec]
    omega
  | callVia ty n i k t args =>
    simp only [callVia.sizeOf_spec]
    rcases List.mem_cons.1 h with rfl | h
    · omega
    · have := List.sizeOf_lt_of_mem h
      omega
  | _ =>
    simp only [children, List.mem_cons, List.not_mem_nil, or_false] at h
    all_goals
      rcases h with rfl | rfl | rfl
      all_goals
        simp only [mem.sizeOf_spec, unary.sizeOf_spec, binary.sizeOf_spec, cast.sizeOf_spec,
          addrOf.sizeOf_spec, ternary.sizeOf_spec]
        omega

/-- Induction on the operands of a node. -/
theorem childInduction {P : Expr → Prop} (h : ∀ e, (∀ c ∈ e.children, P c) → P e) (e : Expr) :
    P e :=
  h e fun c _hc ↦ childInduction h c
termination_by sizeOf e
decreasing_by exact sizeOf_lt_of_mem_children _hc

/-! ### Searching and counting nodes -/

mutual

/-- Some node satisfies `p`. -/
def anyNode (p : Expr → Bool) (e : Expr) : Bool :=
  p e || match e with
  | const _ _ | reg _ _ | var _ _ | str _ _ => false
  | mem _ a | unary _ _ a | cast _ _ a | addrOf _ a => anyNode p a
  | binary _ _ a b => anyNode p a || anyNode p b
  | ternary _ a b c => anyNode p a || anyNode p b || anyNode p c
  | call _ _ _ _ args => anyNodeList p args
  | callVia _ _ _ _ t args => anyNode p t || anyNodeList p args

/-- Some node of some tree of the list satisfies `p`. -/
def anyNodeList (p : Expr → Bool) : List Expr → Bool
  | [] => false
  | e :: es => anyNode p e || anyNodeList p es

end

theorem anyNodeList_eq (p : Expr → Bool) (es : List Expr) :
    anyNodeList p es = es.any (anyNode p) := by
  induction es with
  | nil => rfl
  | cons e es ih => simp [anyNodeList, ih]

theorem anyNode_eq (p : Expr → Bool) (e : Expr) :
    anyNode p e = (p e || e.children.any (anyNode p)) := by
  cases e <;> simp [anyNode, children, anyNodeList_eq, Bool.or_assoc]

theorem anyNode_of_child {p : Expr → Bool} {c e : Expr} (hc : c ∈ e.children)
    (h : anyNode p c = true) : anyNode p e = true := by
  rw [anyNode_eq, Bool.or_eq_true, List.any_eq_true]
  exact .inr ⟨c, hc, h⟩

theorem anyNode_child_eq_false {p : Expr → Bool} {c e : Expr} (hc : c ∈ e.children)
    (h : anyNode p e = false) : anyNode p c = false :=
  Bool.eq_false_iff.2 fun hp ↦ Bool.eq_false_iff.1 h (anyNode_of_child hc hp)

mutual

/-- The nodes of a tree, each before its operands. -/
def nodes (e : Expr) : List Expr :=
  e :: match e with
  | const _ _ | reg _ _ | var _ _ | str _ _ => []
  | mem _ a | unary _ _ a | cast _ _ a | addrOf _ a => nodes a
  | binary _ _ a b => nodes a ++ nodes b
  | ternary _ a b c => nodes a ++ nodes b ++ nodes c
  | call _ _ _ _ args => nodesList args
  | callVia _ _ _ _ t args => nodes t ++ nodesList args

/-- The nodes of the trees of a list. -/
def nodesList : List Expr → List Expr
  | [] => []
  | e :: es => nodes e ++ nodesList es

end

theorem nodesList_eq (es : List Expr) : nodesList es = es.flatMap nodes := by
  induction es with
  | nil => rfl
  | cons e es ih => rw [nodesList, ih, List.flatMap_cons]

theorem nodes_eq (e : Expr) : e.nodes = e :: e.children.flatMap nodes := by
  cases e <;> simp [nodes, children, nodesList_eq]

/-- Some node satisfies `p` exactly when one of those gone through does. -/
theorem anyNode_eq_any_nodes (p : Expr → Bool) (e : Expr) : e.anyNode p = e.nodes.any p := by
  induction e using childInduction with
  | h e ih =>
    rw [anyNode_eq, nodes_eq, List.any_cons, List.any_flatMap]
    rw [Bool.eq_iff_iff, Bool.or_eq_true, Bool.or_eq_true, List.any_eq_true, List.any_eq_true]
    exact or_congr_right (exists_congr fun c ↦ and_congr_right fun hc ↦ by rw [ih c hc])

mutual

/-- The sum of a cost over all nodes. -/
def sumNodes (f : Expr → ℕ) (e : Expr) : ℕ :=
  f e + match e with
  | const _ _ | reg _ _ | var _ _ | str _ _ => 0
  | mem _ a | unary _ _ a | cast _ _ a | addrOf _ a => sumNodes f a
  | binary _ _ a b => sumNodes f a + sumNodes f b
  | ternary _ a b c => sumNodes f a + sumNodes f b + sumNodes f c
  | call _ _ _ _ args => sumNodesList f args
  | callVia _ _ _ _ t args => sumNodes f t + sumNodesList f args

/-- The sum of a cost over all nodes of a list of trees. -/
def sumNodesList (f : Expr → ℕ) : List Expr → ℕ
  | [] => 0
  | e :: es => sumNodes f e + sumNodesList f es

end

theorem sumNodesList_eq (f : Expr → ℕ) (es : List Expr) :
    sumNodesList f es = (es.map (sumNodes f)).sum := by
  induction es with
  | nil => rfl
  | cons e es ih => simp [sumNodesList, ih]

theorem sumNodes_eq (f : Expr → ℕ) (e : Expr) :
    sumNodes f e = f e + (e.children.map (sumNodes f)).sum := by
  cases e <;> simp [sumNodes, children, sumNodesList_eq, Nat.add_assoc]

/-- The number of nodes satisfying `p`. -/
def countNodes (p : Expr → Bool) (e : Expr) : ℕ :=
  sumNodes (fun x ↦ if p x then 1 else 0) e

theorem countNodes_eq (p : Expr → Bool) (e : Expr) :
    countNodes p e = (if p e then 1 else 0) + (e.children.map (countNodes p)).sum :=
  sumNodes_eq _ e

/-- No node satisfies `p` exactly when none is counted. -/
theorem anyNode_eq_false_iff {p : Expr → Bool} {e : Expr} :
    anyNode p e = false ↔ countNodes p e = 0 := by
  induction e using childInduction with
  | h e ih =>
    rw [anyNode_eq, countNodes_eq, Bool.or_eq_false_iff, Nat.add_eq_zero_iff]
    refine and_congr (by simp) ?_
    generalize e.children = cs at ih
    induction cs with
    | nil => simp
    | cons c cs ihcs =>
      have hc := ih c (by simp)
      have hcs := ihcs fun d hd ↦ ih d (List.mem_cons_of_mem _ hd)
      rw [List.any_cons, List.map_cons, List.sum_cons, Bool.or_eq_false_iff,
        Nat.add_eq_zero_iff, hc, hcs]

/-! ### Replacing subtrees -/

mutual

/-- Replace, from the root down, every subtree `r` has a replacement for. -/
def rewrite (r : Expr → Option Expr) (e : Expr) : Expr :=
  match r e with
  | some e' => e'
  | none =>
    match e with
    | const ty v => const ty v
    | reg ty n => reg ty n
    | var ty n => var ty n
    | str ty t => str ty t
    | mem ty a => mem ty (rewrite r a)
    | unary ty op a => unary ty op (rewrite r a)
    | cast ty t a => cast ty t (rewrite r a)
    | addrOf ty a => addrOf ty (rewrite r a)
    | binary ty op a b => binary ty op (rewrite r a) (rewrite r b)
    | ternary ty a b c => ternary ty (rewrite r a) (rewrite r b) (rewrite r c)
    | call ty n i k args => call ty n i k (rewriteList r args)
    | callVia ty n i k t args => callVia ty n i k (rewrite r t) (rewriteList r args)

/-- `rewrite` on each tree of a list. -/
def rewriteList (r : Expr → Option Expr) : List Expr → List Expr
  | [] => []
  | e :: es => rewrite r e :: rewriteList r es

end

theorem rewriteList_eq (r : Expr → Option Expr) (es : List Expr) :
    rewriteList r es = es.map (rewrite r) := by
  induction es with
  | nil => rfl
  | cons e es ih => simp [rewriteList, ih]

theorem rewrite_of_some {r : Expr → Option Expr} {e e' : Expr} (h : r e = some e') :
    rewrite r e = e' := by
  rw [rewrite.eq_def, h]

theorem rewrite_of_none {r : Expr → Option Expr} {e : Expr} (h : r e = none) :
    rewrite r e = e.mapChildren (rewrite r) := by
  rw [rewrite.eq_def, h]
  cases e <;> simp [mapChildren, rewriteList_eq]

/-! ### The queries of the passes -/

/-- Text `s` starts with `p`. -/
def startsWith (s p : String) : Bool :=
  p.toList.isPrefixOf s.toList

/-- The node is a read of the variable `nm`. -/
def isVarNamed (nm : String) : Expr → Bool
  | var _ n => n == nm
  | _ => false

/-- The expression names a place: a variable or a memory cell. -/
def isPlace : Expr → Bool
  | var _ _ | mem _ _ => true
  | _ => false

def isMem : Expr → Bool
  | mem _ _ => true
  | _ => false

def isCall : Expr → Bool
  | call _ _ _ _ _ | callVia _ _ _ _ _ _ => true
  | _ => false

def readsNamedVar (e : Expr) (nm : String) : Bool :=
  anyNode (isVarNamed nm) e

theorem readsNamedVar_of_child {c e : Expr} (hc : c ∈ e.children) (nm : String)
    (h : c.readsNamedVar nm = true) : e.readsNamedVar nm = true :=
  anyNode_of_child hc h

def countVarReads (e : Expr) (nm : String) : ℕ :=
  countNodes (isVarNamed nm) e

def readsMem (e : Expr) : Bool :=
  anyNode isMem e

def hasCall (e : Expr) : Bool :=
  anyNode isCall e

/-- Callees that compute a value and do nothing else. -/
def isPureCallee (c : String) : Bool :=
  if startsWith c "__stos" || startsWith c "__movs" then false
  else if startsWith c "__scas" then false
  else if startsWith c "__cmps" then false
  else if c == "__writemxcsr" then false
  else if c == "__fastfail" then false
  else if c == "__rdtsc" || c == "_xgetbv" then false
  else if c == "__syscall" then false
  else if c == "__security_check_cookie" || c == "__chkstk" then false
  else if startsWith c "__vmov" || startsWith c "__vpmaskmov" then false
  else if startsWith c "__" then true
  else startsWith c "_rotl" || startsWith c "_rotr"

def isImpureCall : Expr → Bool
  | call _ c _ _ _ | callVia _ c _ _ _ _ => !isPureCallee c
  | _ => false

def hasImpureCall (e : Expr) : Bool :=
  anyNode isImpureCall e

theorem anyNode_mono {p q : Expr → Bool} (h : ∀ e, p e = true → q e = true) (e : Expr) :
    anyNode p e = true → anyNode q e = true := by
  induction e using childInduction with
  | h e ih =>
    rw [anyNode_eq, anyNode_eq, Bool.or_eq_true, Bool.or_eq_true, List.any_eq_true,
      List.any_eq_true]
    exact Or.imp (h e) fun ⟨c, hc, hp⟩ ↦ ⟨c, hc, ih c hc hp⟩

/-- Without calls there are no impure ones. -/
theorem hasImpureCall_of_hasCall {e : Expr} (h : e.hasCall = false) : e.hasImpureCall = false := by
  refine Bool.eq_false_iff.2 fun himp ↦ Bool.eq_false_iff.1 h (anyNode_mono (fun e he ↦ ?_) e himp)
  cases e <;> first | rfl | cases he

def countImpureCalls (e : Expr) : ℕ :=
  countNodes isImpureCall e

/-- Replace every read of `nm` by `repl`. -/
def substNamedVar (e : Expr) (nm : String) (repl : Expr) : Expr :=
  rewrite (fun e ↦ if isVarNamed nm e then some repl else none) e

/-! ### Structural comparison -/

mutual

/-- The comparison the passes use for "the same expression". It compares operators, names
and constants; of the typing fields it compares only the width of a load. -/
def exprEqual : Expr → Expr → Bool
  | const _ x, const _ y => x == y
  | reg _ x, reg _ y => x == y
  | var _ x, var _ y => x == y
  | mem t a, mem t' a' => exprEqual a a' && t.width == t'.width
  | unary _ op a, unary _ op' a' => op == op' && exprEqual a a'
  | binary _ op a b, binary _ op' a' b' => op == op' && exprEqual a a' && exprEqual b b'
  | cast _ t a, cast _ t' a' => t == t' && exprEqual a a'
  | addrOf _ a, addrOf _ a' => exprEqual a a'
  | str _ t, str _ t' => t == t'
  | ternary _ a b c, ternary _ a' b' c' => exprEqual a a' && exprEqual b b' && exprEqual c c'
  | call _ n i _ args, call _ n' i' _ args' =>
    n == n' && i == i' && startsWith n "__" && exprEqualList args args'
  | call _ n i _ args, callVia _ n' i' _ _ args' =>
    n == n' && i == i' && startsWith n "__" && exprEqualList args args'
  | callVia _ n i _ _ args, call _ n' i' _ args' =>
    n == n' && i == i' && startsWith n "__" && exprEqualList args args'
  | callVia _ n i _ _ args, callVia _ n' i' _ _ args' =>
    n == n' && i == i' && startsWith n "__" && exprEqualList args args'
  | _, _ => false

/-- Lists of equal length that agree entry by entry. -/
def exprEqualList : List Expr → List Expr → Bool
  | [], [] => true
  | e :: es, e' :: es' => exprEqual e e' && exprEqualList es es'
  | _, _ => false

end

end Expr

end Ldu
