import Ldu.Text.Numerals
import Ldu.Text.PrefixCode
import Ldu.Vars.CseGlobal

/-!
# Structural keys

`cse_key` writes a text for the structure of a tree, which is to be the same for two trees exactly
if `exprEqual` identifies them. A call that is no direct intrinsic has the address of its node for
a text; `cseKeyOf` is given the addresses by the position of a node in its tree.

Names and literals are written as they are, so a text with a separator can be read in two ways
(`separator_collides`). Where the texts are clean, equal keys mean equal trees up to the calls that
are known by their address (`cseKeyOf_inj`). These the key compares by their node and `exprEqual`
by their text, so the two agree only where that comes to the same (`cseKeyOf_iff`).
-/

namespace Ldu

namespace Expr

/-! ### The key -/

/-- The callee is an intrinsic that is called directly. -/
def isDirectIntrinsic (callee : String) (indirect : Bool) : Bool :=
  startsWith callee "__" && !indirect

/-- An address as it is printed. -/
def addressText (n : ℕ) : String :=
  "0x" ++ String.ofList (Nat.toDigits 16 n)

mutual

/-- The key of a tree whose nodes have the addresses `id`, by the path to the node. -/
def cseKeyOf (id : List ℕ → ℕ) : Expr → String
  | const _ v => "C" ++ toString v.toInt ++ ";"
  | reg _ r => "R" ++ toString r ++ ";"
  | var _ n => "V" ++ n ++ ";"
  | str _ t => "S" ++ t ++ ";"
  | mem t a => "M" ++ toString t.width ++ "(" ++ cseKeyOf (fun p ↦ id (0 :: p)) a ++ ")"
  | unary _ op a => "U" ++ op.text ++ "(" ++ cseKeyOf (fun p ↦ id (0 :: p)) a ++ ")"
  | cast _ t a => "K" ++ t ++ "(" ++ cseKeyOf (fun p ↦ id (0 :: p)) a ++ ")"
  | addrOf _ a => "A(" ++ cseKeyOf (fun p ↦ id (0 :: p)) a ++ ")"
  | binary _ op a b => "B" ++ op.text ++ "(" ++ cseKeyOf (fun p ↦ id (0 :: p)) a ++ "," ++
      cseKeyOf (fun p ↦ id (1 :: p)) b ++ ")"
  | ternary _ a b c => "T(" ++ cseKeyOf (fun p ↦ id (0 :: p)) a ++ "," ++
      cseKeyOf (fun p ↦ id (1 :: p)) b ++ "," ++ cseKeyOf (fun p ↦ id (2 :: p)) c ++ ")"
  | call _ n i _ args | callVia _ n i _ _ args =>
    if isDirectIntrinsic n i then "P" ++ n ++ "(" ++ cseKeyOfList id 0 args ++ ")"
    else "Q" ++ addressText (id [])

/-- The keys of arguments, from position `k` on. -/
def cseKeyOfList (id : List ℕ → ℕ) (k : ℕ) : List Expr → String
  | [] => ""
  | e :: es => cseKeyOf (fun p ↦ id (k :: p)) e ++ "," ++ cseKeyOfList id (k + 1) es

end

/-! ### Clean texts -/

/-- The characters that follow an operand. -/
def isSeparator (c : Char) : Bool :=
  c == ',' || c == ')'

mutual

/-- No text that is written into the key can be taken to end before its end: in names and literals
a semicolon does not stand before a separator, names of intrinsics have no bracket, and casts are in
brackets. -/
def clean : Expr → Bool
  | const _ _ | reg _ _ => true
  | var _ n => unbroken ';' isSeparator n.toList
  | str _ t => unbroken ';' isSeparator t.toList
  | mem _ a | unary _ _ a | addrOf _ a => clean a
  | cast _ t a => isGroup t.toList && clean a
  | binary _ _ a b => clean a && clean b
  | ternary _ a b c => clean a && clean b && clean c
  | call _ n i _ args | callVia _ n i _ _ args =>
    !isDirectIntrinsic n i || (!n.toList.contains '(' && cleanList args)

def cleanList : List Expr → Bool
  | [] => true
  | e :: es => clean e && cleanList es

end

/-! ### Calls known by their address -/

/-- A call that is no direct intrinsic, with the address of its node. -/
abbrev CallNode := ℕ × Expr

/-- What two calls contribute: nothing besides their arguments if both are direct intrinsics of one
name, themselves if none is, and else they differ. -/
def pairCalls (da db same : Bool) (args : Option (List (CallNode × CallNode)))
    (p : CallNode × CallNode) : Option (List (CallNode × CallNode)) :=
  match da, db with
  | true, true => if same then args else none
  | false, false => some [p]
  | _, _ => none

mutual

/-- The pairs of calls known by their address, if two trees are equal up to these. -/
def opaquePairs (ida idb : List ℕ → ℕ) : Expr → Expr → Option (List (CallNode × CallNode))
  | const _ x, const _ y => if x = y then some [] else none
  | reg _ x, reg _ y => if x = y then some [] else none
  | var _ x, var _ y => if x = y then some [] else none
  | str _ x, str _ y => if x = y then some [] else none
  | mem t a, mem t' a' =>
    if t.width = t'.width then
      opaquePairs (fun p ↦ ida (0 :: p)) (fun p ↦ idb (0 :: p)) a a' else none
  | unary _ op a, unary _ op' a' =>
    if op = op' then opaquePairs (fun p ↦ ida (0 :: p)) (fun p ↦ idb (0 :: p)) a a' else none
  | cast _ t a, cast _ t' a' =>
    if t = t' then opaquePairs (fun p ↦ ida (0 :: p)) (fun p ↦ idb (0 :: p)) a a' else none
  | addrOf _ a, addrOf _ a' => opaquePairs (fun p ↦ ida (0 :: p)) (fun p ↦ idb (0 :: p)) a a'
  | binary _ op a b, binary _ op' a' b' =>
    if op = op' then do
      let l ← opaquePairs (fun p ↦ ida (0 :: p)) (fun p ↦ idb (0 :: p)) a a'
      let m ← opaquePairs (fun p ↦ ida (1 :: p)) (fun p ↦ idb (1 :: p)) b b'
      some (l ++ m)
    else none
  | ternary _ a b c, ternary _ a' b' c' => do
    let l ← opaquePairs (fun p ↦ ida (0 :: p)) (fun p ↦ idb (0 :: p)) a a'
    let m ← opaquePairs (fun p ↦ ida (1 :: p)) (fun p ↦ idb (1 :: p)) b b'
    let n ← opaquePairs (fun p ↦ ida (2 :: p)) (fun p ↦ idb (2 :: p)) c c'
    some (l ++ (m ++ n))
  | call ty n i k args, call ty' n' i' k' args' =>
    pairCalls (isDirectIntrinsic n i) (isDirectIntrinsic n' i') (n == n')
      (opaquePairsList ida idb 0 args args')
      ((ida [], call ty n i k args), (idb [], call ty' n' i' k' args'))
  | call ty n i k args, callVia ty' n' i' k' t' args' =>
    pairCalls (isDirectIntrinsic n i) (isDirectIntrinsic n' i') (n == n')
      (opaquePairsList ida idb 0 args args')
      ((ida [], call ty n i k args), (idb [], callVia ty' n' i' k' t' args'))
  | callVia ty n i k t args, call ty' n' i' k' args' =>
    pairCalls (isDirectIntrinsic n i) (isDirectIntrinsic n' i') (n == n')
      (opaquePairsList ida idb 0 args args')
      ((ida [], callVia ty n i k t args), (idb [], call ty' n' i' k' args'))
  | callVia ty n i k t args, callVia ty' n' i' k' t' args' =>
    pairCalls (isDirectIntrinsic n i) (isDirectIntrinsic n' i') (n == n')
      (opaquePairsList ida idb 0 args args')
      ((ida [], callVia ty n i k t args), (idb [], callVia ty' n' i' k' t' args'))
  | _, _ => none

def opaquePairsList (ida idb : List ℕ → ℕ) (k : ℕ) :
    List Expr → List Expr → Option (List (CallNode × CallNode))
  | [], [] => some []
  | e :: es, e' :: es' => do
    let l ← opaquePairs (fun p ↦ ida (k :: p)) (fun p ↦ idb (k :: p)) e e'
    let m ← opaquePairsList ida idb (k + 1) es es'
    some (l ++ m)
  | _, _ => none

end

/-! ### Nodes of one kind -/

/-- The letter a key begins with. -/
def kindLetter : Expr → Char
  | const _ _ => 'C'
  | reg _ _ => 'R'
  | var _ _ => 'V'
  | str _ _ => 'S'
  | mem _ _ => 'M'
  | unary _ _ _ => 'U'
  | cast _ _ _ => 'K'
  | addrOf _ _ => 'A'
  | binary _ _ _ _ => 'B'
  | ternary _ _ _ _ => 'T'
  | call _ n i _ _ | callVia _ n i _ _ _ => if isDirectIntrinsic n i then 'P' else 'Q'

/-- The callee of a call, whether it is indirect, and the arguments. -/
def callParts : Expr → Option (String × Bool × List Expr)
  | call _ n i _ args | callVia _ n i _ _ args => some (n, i, args)
  | _ => none

/-- Two nodes of one kind. -/
inductive SameKind : Expr → Expr → Prop
  | const (ty ty' : Ty) (v v' : BitVec 64) : SameKind (const ty v) (const ty' v')
  | reg (ty ty' : Ty) (r r' : ℕ) : SameKind (reg ty r) (reg ty' r')
  | var (ty ty' : Ty) (n n' : String) : SameKind (var ty n) (var ty' n')
  | str (ty ty' : Ty) (t t' : String) : SameKind (str ty t) (str ty' t')
  | mem (ty ty' : Ty) (a a' : Expr) : SameKind (mem ty a) (mem ty' a')
  | unary (ty ty' : Ty) (op op' : UnOp) (a a' : Expr) : SameKind (unary ty op a) (unary ty' op' a')
  | cast (ty ty' : Ty) (t t' : String) (a a' : Expr) : SameKind (cast ty t a) (cast ty' t' a')
  | addrOf (ty ty' : Ty) (a a' : Expr) : SameKind (addrOf ty a) (addrOf ty' a')
  | binary (ty ty' : Ty) (op op' : BinOp) (a b a' b' : Expr) :
    SameKind (binary ty op a b) (binary ty' op' a' b')
  | ternary (ty ty' : Ty) (a b c a' b' c' : Expr) :
    SameKind (ternary ty a b c) (ternary ty' a' b' c')
  | calls {e e' : Expr} {n n' : String} {i i' : Bool} {args args' : List Expr}
    (h : e.callParts = some (n, i, args)) (h' : e'.callParts = some (n', i', args')) :
    SameKind e e'

/-- Nodes of different kinds are told apart by everything that looks at them. -/
theorem sameKind_or (ida idb : List ℕ → ℕ) (a b : Expr) :
    SameKind a b ∨
      (kindLetter a ≠ kindLetter b ∧ exprEqual a b = false ∧ opaquePairs ida idb a b = none) := by
  cases a <;> cases b <;>
    first
    | exact .inl (.calls rfl rfl)
    | (refine .inr ⟨?_, rfl, rfl⟩
       simp only [kindLetter]
       first | decide | (split <;> decide))
    | (left; constructor)

section Calls

variable {e e' : Expr} {n n' : String} {i i' : Bool} {args args' : List Expr}

theorem cseKeyOf_of_callParts (h : e.callParts = some (n, i, args)) (id : List ℕ → ℕ) :
    cseKeyOf id e = if isDirectIntrinsic n i then "P" ++ n ++ "(" ++ cseKeyOfList id 0 args ++ ")"
      else "Q" ++ addressText (id []) := by
  cases e <;> cases h <;> rfl

theorem clean_of_callParts (h : e.callParts = some (n, i, args)) :
    clean e = (!isDirectIntrinsic n i || (!n.toList.contains '(' && cleanList args)) := by
  cases e <;> cases h <;> rfl

theorem mem_children_of_callParts (h : e.callParts = some (n, i, args)) {c : Expr} (hc : c ∈ args) :
    c ∈ e.children := by
  cases e <;> cases h
  · exact hc
  · exact List.mem_cons_of_mem _ hc

theorem exprEqual_of_callParts (h : e.callParts = some (n, i, args))
    (h' : e'.callParts = some (n', i', args')) :
    exprEqual e e' = (n == n' && i == i' && startsWith n "__" && exprEqualList args args') := by
  cases e <;> cases h <;> cases e' <;> cases h' <;> rfl

theorem opaquePairs_of_callParts (h : e.callParts = some (n, i, args))
    (h' : e'.callParts = some (n', i', args')) (ida idb : List ℕ → ℕ) :
    opaquePairs ida idb e e' =
      pairCalls (isDirectIntrinsic n i) (isDirectIntrinsic n' i') (n == n')
        (opaquePairsList ida idb 0 args args') ((ida [], e), (idb [], e')) := by
  cases e <;> cases h <;> cases e' <;> cases h' <;> rfl

end Calls

/-! ### Pairs of which something holds -/

/-- The trees are equal up to pairs of which `R` holds. -/
def EqualUpTo (R : CallNode × CallNode → Prop) (o : Option (List (CallNode × CallNode))) : Prop :=
  ∃ l, o = some l ∧ ∀ p ∈ l, R p

section EqualUpTo

variable {R : CallNode × CallNode → Prop} {o o' : Option (List (CallNode × CallNode))}

@[simp] theorem not_equalUpTo_none : ¬EqualUpTo R none := by
  rintro ⟨l, h, -⟩
  cases h

@[simp] theorem equalUpTo_nil : EqualUpTo R (some []) :=
  ⟨[], rfl, by simp⟩

@[simp] theorem equalUpTo_ite {c : Prop} [Decidable c] :
    EqualUpTo R (if c then o else none) ↔ c ∧ EqualUpTo R o := by
  split <;> simp_all

@[simp] theorem equalUpTo_append :
    EqualUpTo R (do let l ← o; let m ← o'; some (l ++ m)) ↔ EqualUpTo R o ∧ EqualUpTo R o' := by
  cases o with
  | none => simp
  | some l =>
    cases o' with
    | none => simp
    | some m => simp [EqualUpTo, or_imp, forall_and]

@[simp] theorem equalUpTo_append_append {o'' : Option (List (CallNode × CallNode))} :
    EqualUpTo R (do let l ← o; let m ← o'; let n ← o''; some (l ++ (m ++ n))) ↔
      EqualUpTo R o ∧ EqualUpTo R o' ∧ EqualUpTo R o'' := by
  rw [← equalUpTo_append, ← equalUpTo_append]
  simp only [Option.bind_eq_bind, Option.bind_assoc, Option.bind_some]

theorem equalUpTo_pairCalls (da db same : Bool) (p : CallNode × CallNode) :
    EqualUpTo R (pairCalls da db same o p) ↔
      da = db ∧ if da then same = true ∧ EqualUpTo R o else R p := by
  cases da <;> cases db <;> cases same <;> simp [pairCalls, EqualUpTo, -Prod.forall]

end EqualUpTo

/-- The two calls are one node. -/
def SameNode (p : CallNode × CallNode) : Prop :=
  p.1.1 = p.2.1

/-- The two calls are identified by the comparison of trees. -/
def SameText (p : CallNode × CallNode) : Prop :=
  exprEqual p.1.2 p.2.2 = true

theorem exprEqualList_iff_pairs {as : List Expr}
    (ih : ∀ a ∈ as, ∀ b ida idb,
      exprEqual a b = true ↔ EqualUpTo SameText (opaquePairs ida idb a b))
    (bs : List Expr) (ida idb : List ℕ → ℕ) (k : ℕ) :
    exprEqualList as bs = true ↔ EqualUpTo SameText (opaquePairsList ida idb k as bs) := by
  induction as generalizing bs k with
  | nil => cases bs <;> simp [exprEqualList, opaquePairsList]
  | cons a as ihas =>
    cases bs with
    | nil => simp [exprEqualList, opaquePairsList]
    | cons b bs =>
      rw [exprEqualList, opaquePairsList, Bool.and_eq_true, equalUpTo_append, ih a (by simp),
        ihas (fun c hc ↦ ih c (List.mem_cons_of_mem _ hc))]

/-- Trees are identified if they are equal up to calls that are. -/
theorem exprEqual_iff_pairs (a b : Expr) (ida idb : List ℕ → ℕ) :
    exprEqual a b = true ↔ EqualUpTo SameText (opaquePairs ida idb a b) := by
  induction a using childInduction generalizing b ida idb with
  | h a ih =>
    rcases sameKind_or ida idb a b with hkind | ⟨-, heq, hpairs⟩
    swap
    · simp [heq, hpairs]
    cases hkind with
    | const | reg | var | str => simp [exprEqual, opaquePairs]
    | mem _ _ a a' =>
      rw [exprEqual, opaquePairs, equalUpTo_ite, Bool.and_eq_true, beq_iff_eq,
        ih a (by simp [children]), and_comm]
    | unary _ _ _ _ a a' | cast _ _ _ _ a a' =>
      rw [exprEqual, opaquePairs, equalUpTo_ite, Bool.and_eq_true, beq_iff_eq,
        ih a (by simp [children])]
    | addrOf _ _ a a' => rw [exprEqual, opaquePairs, ih a (by simp [children])]
    | binary _ _ _ _ a b a' b' =>
      rw [exprEqual, opaquePairs, equalUpTo_ite, equalUpTo_append, Bool.and_eq_true,
        Bool.and_eq_true, beq_iff_eq, ih a (by simp [children]), ih b (by simp [children]),
        and_assoc]
    | ternary _ _ a b c a' b' c' =>
      have h := ih a (by simp [children]) a' (fun p ↦ ida (0 :: p)) (fun p ↦ idb (0 :: p))
      have h' := ih b (by simp [children]) b' (fun p ↦ ida (1 :: p)) (fun p ↦ idb (1 :: p))
      have h'' := ih c (by simp [children]) c' (fun p ↦ ida (2 :: p)) (fun p ↦ idb (2 :: p))
      rw [exprEqual, opaquePairs, Bool.and_eq_true, Bool.and_eq_true, h, h', h'',
        equalUpTo_append_append, and_assoc]
    | @calls _ _ n n' i i' args args' h h' =>
      have hargs := exprEqualList_iff_pairs
        (fun c hc ↦ ih c (mem_children_of_callParts h hc)) args' ida idb 0
      rw [opaquePairs_of_callParts h h', equalUpTo_pairCalls, SameText, ← hargs,
        exprEqual_of_callParts h h']
      unfold isDirectIntrinsic
      simp only [Bool.and_eq_true, beq_iff_eq]
      constructor
      · rintro ⟨⟨⟨rfl, rfl⟩, hpure⟩, hlist⟩
        refine ⟨rfl, ?_⟩
        split
        · exact ⟨rfl, hlist⟩
        · exact ⟨⟨⟨rfl, rfl⟩, hpure⟩, hlist⟩
      · rintro ⟨hdirect, hrest⟩
        split at hrest
        · next hd =>
          obtain ⟨rfl, hlist⟩ := hrest
          refine ⟨⟨⟨rfl, ?_⟩, hd.1⟩, hlist⟩
          simpa [hd.1] using hdirect
        · exact hrest

/-! ### The texts in a key -/

theorem separator_notMem_toDigits {b : ℕ} (hb : 1 < b) (hb' : b ≤ 16) (n : ℕ) :
    ∀ c ∈ Nat.toDigits b n, c ≠ ';' ∧ c ≠ '(' ∧ c ≠ ',' ∧ c ≠ ')' ∧ c ≠ '-' :=
  forall_mem_toDigits (by decide) hb hb' n

theorem notMem_toString (n : ℕ) : ';' ∉ (toString n).toList ∧ '(' ∉ (toString n).toList := by
  have h := separator_notMem_toDigits (b := 10) (by decide) (by decide) n
  rw [toList_toString]
  exact ⟨fun hn ↦ (h _ hn).1 rfl, fun hn ↦ (h _ hn).2.1 rfl⟩

theorem toString_nat_inj {m n : ℕ} : (toString m).toList = (toString n).toList ↔ m = n := by
  rw [toList_toString, toList_toString, (toDigits_injective (by decide) (by decide)).eq_iff]

theorem semicolon_notMem_toString (z : ℤ) : ';' ∉ (toString z).toList := by
  have hnat : ∀ n : ℕ, ';' ∉ Nat.toDigits 10 n := fun n h ↦
    (separator_notMem_toDigits (by decide) (by decide) n _ h).1 rfl
  cases z with
  | ofNat n =>
    show ';' ∉ (Nat.repr n).toList
    rw [Nat.toList_repr]
    exact hnat n
  | negSucc n =>
    rw [toList_toString_negSucc, List.mem_cons]
    rintro (h | h)
    · cases h
    · exact hnat _ h

theorem toString_int_injective : Function.Injective (toString : ℤ → String) := by
  have hminus : ∀ m n : ℕ, Nat.toDigits 10 m ≠ '-' :: Nat.toDigits 10 (n + 1) := fun m n h ↦
    (separator_notMem_toDigits (b := 10) (by decide) (by decide) m '-' (by simp [h])).2.2.2.2 rfl
  have hinj := toDigits_injective (show 1 < 10 by decide) (by decide)
  have hnat : ∀ n : ℕ, (toString (Int.ofNat n)).toList = Nat.toDigits 10 n :=
    fun n ↦ Nat.toList_repr
  intro y z h
  have hlist := congrArg String.toList h
  cases y with
  | ofNat m =>
    cases z with
    | ofNat n =>
      rw [hnat, hnat] at hlist
      rw [hinj hlist]
    | negSucc n =>
      rw [hnat, toList_toString_negSucc] at hlist
      exact absurd hlist (hminus _ _)
  | negSucc m =>
    cases z with
    | ofNat n =>
      rw [hnat, toList_toString_negSucc] at hlist
      exact absurd hlist.symm (hminus _ _)
    | negSucc n =>
      rw [toList_toString_negSucc, toList_toString_negSucc] at hlist
      have := hinj (List.cons.inj hlist).2
      rw [show m = n by omega]

theorem paren_notMem_unText (op : UnOp) : '(' ∉ op.text.toList := by
  cases op <;> decide

theorem paren_notMem_binText (op : BinOp) : '(' ∉ op.text.toList := by
  cases op <;> decide

theorem unText_injective : Function.Injective UnOp.text := by
  intro op op' h
  cases op <;> cases op' <;> first | rfl | exact absurd h (by decide)

theorem binText_injective : Function.Injective BinOp.text := by
  intro op op' h
  cases op <;> cases op' <;> first | rfl | exact absurd h (by decide)

theorem addressText_injective : Function.Injective addressText := by
  intro m n h
  have hlist : Nat.toDigits 16 m = Nat.toDigits 16 n := by
    have := congrArg String.toList h
    simpa [addressText] using this
  exact toDigits_injective (by decide) (by decide) hlist

/-- A text goes on with a separator, or ends. -/
def Stop (r : List Char) : Prop :=
  ∀ x ∈ r.head?, x = ',' ∨ x = ')'

theorem Stop.isSeparator {r : List Char} (h : Stop r) :
    ∀ x ∈ r.head?, Expr.isSeparator x = true := by
  intro x hx
  rw [Expr.isSeparator, Bool.or_eq_true, beq_iff_eq, beq_iff_eq]
  exact h x hx

theorem not_separator_of_mem_addressText (n : ℕ) :
    ∀ c ∈ (addressText n).toList, ¬(c = ',' ∨ c = ')') := by
  intro c hc
  rw [addressText, String.toList_append, List.mem_append] at hc
  rcases hc with hc | hc
  · rw [show "0x".toList = ['0', 'x'] from rfl, List.mem_cons, List.mem_singleton] at hc
    rcases hc with rfl | rfl <;> decide
  · rw [String.toList_ofList] at hc
    obtain ⟨-, -, hcomma, hclose, -⟩ := separator_notMem_toDigits (by decide) (by decide) n c hc
    exact not_or.2 ⟨hcomma, hclose⟩

/-- A text and its terminator, before whatever follows. -/
theorem terminated_iff {s s' : List Char} {t : String} {c : Char} (ht : t.toList = [c])
    (hs : c ∉ s) (hs' : c ∉ s') (r r' : List Char) :
    s ++ (t.toList ++ r) = s' ++ (t.toList ++ r') ↔ s = s' ∧ r = r' := by
  rw [ht]
  refine ⟨fun h ↦ append_cons_inj hs hs' h, ?_⟩
  rintro ⟨rfl, rfl⟩
  rfl

/-! ### Keys end by themselves -/

theorem exists_key_eq_cons (id : List ℕ → ℕ) (e : Expr) :
    ∃ t, (cseKeyOf id e).toList = kindLetter e :: t := by
  cases e with
  | call | callVia =>
    rw [cseKeyOf, kindLetter]
    split <;> simp only [String.toList_append] <;> exact ⟨_, rfl⟩
  | _ =>
    rw [cseKeyOf, kindLetter]
    simp only [String.toList_append]
    exact ⟨_, rfl⟩

/-- The key of `a` can be told from the key of another tree, whatever follows. -/
def Splits (a : Expr) : Prop :=
  ∀ b ida idb r r', a.clean = true → b.clean = true → Stop r → Stop r' →
    ((cseKeyOf ida a).toList ++ r = (cseKeyOf idb b).toList ++ r' ↔
      EqualUpTo SameNode (opaquePairs ida idb a b) ∧ r = r')

theorem stop_cons {c : Char} (h : c = ',' ∨ c = ')') (r : List Char) : Stop (c :: r) := by
  intro x hx
  cases hx
  exact h

/-- Before a separator, keys are split. -/
theorem Splits.separated {a b : Expr} (h : Splits a) (ha : a.clean = true) (hb : b.clean = true)
    {c : Char} (hc : c = ',' ∨ c = ')') (ida idb : List ℕ → ℕ) (s s' : List Char) :
    (cseKeyOf ida a).toList ++ c :: s = (cseKeyOf idb b).toList ++ c :: s' ↔
      EqualUpTo SameNode (opaquePairs ida idb a b) ∧ s = s' := by
  rw [h b ida idb _ _ ha hb (stop_cons hc s) (stop_cons hc s'), List.cons.injEq,
    and_iff_right rfl]

theorem kindLetter_ne_paren (e : Expr) : kindLetter e ≠ ')' := by
  cases e with
  | call | callVia =>
    rw [kindLetter]
    split <;> decide
  | _ =>
    rw [kindLetter]
    decide

theorem keyList_append_iff {as : List Expr} (ih : ∀ a ∈ as, Splits a) (bs : List Expr)
    (ida idb : List ℕ → ℕ) (k : ℕ) (r r' : List Char) (has : cleanList as = true)
    (hbs : cleanList bs = true) :
    (cseKeyOfList ida k as).toList ++ ')' :: r = (cseKeyOfList idb k bs).toList ++ ')' :: r' ↔
      EqualUpTo SameNode (opaquePairsList ida idb k as bs) ∧ r = r' := by
  induction as generalizing bs k with
  | nil =>
    cases bs with
    | nil => simp [cseKeyOfList, opaquePairsList]
    | cons b bs =>
      obtain ⟨t, ht⟩ := exists_key_eq_cons (fun p ↦ idb (k :: p)) b
      have hne := (kindLetter_ne_paren b).symm
      simp [cseKeyOfList, opaquePairsList, ht, hne]
  | cons a as ihas =>
    cases bs with
    | nil =>
      obtain ⟨t, ht⟩ := exists_key_eq_cons (fun p ↦ ida (k :: p)) a
      have hne := kindLetter_ne_paren a
      simp [cseKeyOfList, opaquePairsList, ht, hne]
    | cons b bs =>
      rw [cleanList, Bool.and_eq_true] at has hbs
      have ha := (ih a (by simp)).separated has.1 hbs.1 (.inl rfl) (fun p ↦ ida (k :: p))
        (fun p ↦ idb (k :: p))
      have has' := ihas (fun c hc ↦ ih c (List.mem_cons_of_mem _ hc)) bs (k + 1) has.2 hbs.2
      rw [opaquePairsList, equalUpTo_append, and_assoc, ← has', ← ha]
      simp [cseKeyOfList]

theorem toList_close (r : List Char) : ")".toList ++ r = ')' :: r := rfl

theorem toList_comma (r : List Char) : ",".toList ++ r = ',' :: r := rfl

theorem splits (a : Expr) : Splits a := by
  induction a using childInduction with
  | h a ih =>
    intro b ida idb r r' ha hb hr hr'
    rcases sameKind_or ida idb a b with hkind | ⟨hletter, -, hpairs⟩
    swap
    · -- the first letters differ
      obtain ⟨t, ht⟩ := exists_key_eq_cons ida a
      obtain ⟨t', ht'⟩ := exists_key_eq_cons idb b
      rw [ht, ht', hpairs]
      simp [hletter]
    cases hkind with
    | const _ _ v v' =>
      have h := terminated_iff (t := ";") rfl (semicolon_notMem_toString v.toInt)
        (semicolon_notMem_toString v'.toInt)
      have hv : (toString v.toInt).toList = (toString v'.toInt).toList ↔ v = v' := by
        rw [String.toList_inj, toString_int_injective.eq_iff, BitVec.toInt_inj]
      simp only [cseKeyOf, String.toList_append, List.append_assoc, List.append_cancel_left_eq,
        opaquePairs, equalUpTo_ite, equalUpTo_nil, and_true, h, hv]
    | reg _ _ x x' =>
      have h := terminated_iff (t := ";") rfl (notMem_toString x).1 (notMem_toString x').1
      simp only [cseKeyOf, String.toList_append, List.append_assoc, List.append_cancel_left_eq,
        opaquePairs, equalUpTo_ite, equalUpTo_nil, and_true, h, toString_nat_inj]
    | var _ _ n n' | str _ _ n n' =>
      have h : n.toList ++ (";".toList ++ r) = n'.toList ++ (";".toList ++ r') ↔
          n = n' ∧ r = r' := by
        refine ⟨fun h ↦ ?_, ?_⟩
        · obtain ⟨htext, hrest⟩ := unbroken_append_inj (p := isSeparator) rfl ha hb
            hr.isSeparator hr'.isSeparator h
          exact ⟨String.toList_inj.1 htext, hrest⟩
        · rintro ⟨rfl, rfl⟩
          rfl
      simp only [cseKeyOf, String.toList_append, List.append_assoc, List.append_cancel_left_eq,
        opaquePairs, equalUpTo_ite, equalUpTo_nil, and_true, h]
    | mem ty ty' a a' =>
      have hw := terminated_iff (t := "(") rfl (notMem_toString ty.width).2
        (notMem_toString ty'.width).2
      have hchild := (ih a (by simp [children])).separated (b := a') ha hb (.inr rfl)
      simp only [cseKeyOf, String.toList_append, List.append_assoc, List.append_cancel_left_eq,
        opaquePairs, equalUpTo_ite, and_assoc, hw, toString_nat_inj, toList_close, hchild]
    | unary _ _ op op' a a' =>
      have hop := terminated_iff (t := "(") rfl (paren_notMem_unText op)
        (paren_notMem_unText op')
      have hchild := (ih a (by simp [children])).separated (b := a') ha hb (.inr rfl)
      simp only [cseKeyOf, String.toList_append, List.append_assoc, List.append_cancel_left_eq,
        opaquePairs, equalUpTo_ite, and_assoc, hop, String.toList_inj, unText_injective.eq_iff,
        toList_close, hchild]
    | cast _ _ x x' a a' =>
      rw [clean, Bool.and_eq_true] at ha hb
      have hx : ∀ s s' : List Char, x.toList ++ s = x'.toList ++ s' ↔ x = x' ∧ s = s' := by
        intro s s'
        refine ⟨fun h ↦ ?_, ?_⟩
        · obtain ⟨htext, hrest⟩ := isGroup_append_inj ha.1 hb.1 h
          exact ⟨String.toList_inj.1 htext, hrest⟩
        · rintro ⟨rfl, rfl⟩
          rfl
      have hchild := (ih a (by simp [children])).separated ha.2 hb.2 (.inr rfl)
      simp only [cseKeyOf, String.toList_append, List.append_assoc, List.append_cancel_left_eq,
        opaquePairs, equalUpTo_ite, and_assoc, hx, toList_close, hchild]
    | addrOf _ _ a a' =>
      have hchild := (ih a (by simp [children])).separated (b := a') ha hb (.inr rfl)
      simp only [cseKeyOf, String.toList_append, List.append_assoc, List.append_cancel_left_eq,
        opaquePairs, toList_close, hchild]
    | binary _ _ op op' a b a' b' =>
      rw [clean, Bool.and_eq_true] at ha hb
      have hop := terminated_iff (t := "(") rfl (paren_notMem_binText op)
        (paren_notMem_binText op')
      have hfst := (ih a (by simp [children])).separated ha.1 hb.1 (.inl rfl)
      have hsnd := (ih b (by simp [children])).separated ha.2 hb.2 (.inr rfl)
      simp only [cseKeyOf, String.toList_append, List.append_assoc, List.append_cancel_left_eq,
        opaquePairs, equalUpTo_ite, equalUpTo_append, and_assoc, hop, String.toList_inj,
        binText_injective.eq_iff, toList_comma, List.cons_append, hfst, toList_close, hsnd]
    | ternary _ _ a b c a' b' c' =>
      rw [clean, Bool.and_eq_true, Bool.and_eq_true] at ha hb
      have hfst := (ih a (by simp [children])).separated ha.1.1 hb.1.1 (.inl rfl)
      have hsnd := (ih b (by simp [children])).separated ha.1.2 hb.1.2 (.inl rfl)
      have hthd := (ih c (by simp [children])).separated ha.2 hb.2 (.inr rfl)
      simp only [cseKeyOf, String.toList_append, List.append_assoc, List.append_cancel_left_eq,
        opaquePairs, equalUpTo_append_append, and_assoc, toList_comma, List.cons_append, hfst,
        hsnd, toList_close, hthd]
    | @calls _ _ n n' i i' args args' h h' =>
      rw [cseKeyOf_of_callParts h, cseKeyOf_of_callParts h', opaquePairs_of_callParts h h',
        equalUpTo_pairCalls]
      rw [clean_of_callParts h] at ha
      rw [clean_of_callParts h'] at hb
      cases hd : isDirectIntrinsic n i <;> cases hd' : isDirectIntrinsic n' i'
      · -- two nodes known by their address
        have haddr : (addressText (ida [])).toList ++ r = (addressText (idb [])).toList ++ r' ↔
            ida [] = idb [] ∧ r = r' := by
          refine ⟨fun h ↦ ?_, ?_⟩
          · obtain ⟨htext, hrest⟩ := append_inj_of_stop (not_separator_of_mem_addressText _)
              (not_separator_of_mem_addressText _) hr hr' h
            exact ⟨addressText_injective (String.toList_inj.1 htext), hrest⟩
          · rintro ⟨haddr, rfl⟩
            rw [haddr]
        simp only [Bool.false_eq_true, if_false, true_and, String.toList_append,
          List.append_assoc, List.append_cancel_left_eq, SameNode, haddr]
      · simp [String.toList_append]
      · simp [String.toList_append]
      · simp only [hd, hd', Bool.not_true, Bool.false_or, Bool.and_eq_true, Bool.not_eq_true',
          List.contains_eq_mem, decide_eq_false_iff_not] at ha hb
        have hname := terminated_iff (t := "(") rfl ha.1 hb.1
        have hargs := fun r r' ↦ keyList_append_iff
          (fun c hc ↦ ih c (mem_children_of_callParts h hc)) args' ida idb 0 r r' ha.2 hb.2
        simp only [if_true, true_and, String.toList_append, List.append_assoc,
          List.append_cancel_left_eq, hname, String.toList_inj, toList_close, hargs, beq_iff_eq,
          and_assoc]

/-! ### What equal keys mean -/

section Keys

variable {a b : Expr} {ida idb : List ℕ → ℕ}

/-- Clean trees have one key if they are equal up to calls that are one node. -/
theorem cseKeyOf_inj (ha : a.clean = true) (hb : b.clean = true) :
    cseKeyOf ida a = cseKeyOf idb b ↔ EqualUpTo SameNode (opaquePairs ida idb a b) := by
  have hnil : Stop [] := fun x hx ↦ by cases hx
  have h := splits a b ida idb [] [] ha hb hnil hnil
  rwa [List.append_nil, List.append_nil, String.toList_inj, and_iff_left rfl] at h

/-- Where two trees are equal up to calls that are known by their address, these are the same nodes
exactly if they are identified by their texts. -/
def CallsAgree (ida idb : List ℕ → ℕ) (a b : Expr) : Prop :=
  ∀ l, opaquePairs ida idb a b = some l → ((∀ p ∈ l, SameNode p) ↔ ∀ p ∈ l, SameText p)

/-- On clean trees, keys and the comparison of trees agree exactly where the calls do. -/
theorem cseKeyOf_iff (ha : a.clean = true) (hb : b.clean = true) :
    (cseKeyOf ida a = cseKeyOf idb b ↔ exprEqual a b = true) ↔ CallsAgree ida idb a b := by
  rw [cseKeyOf_inj ha hb, exprEqual_iff_pairs a b ida idb, CallsAgree]
  unfold EqualUpTo
  cases opaquePairs ida idb a b <;> simp [-Prod.forall]

end Keys

/-- A tree without calls has the key the passes look up. -/
theorem cseKeyOf_eq_cseKey (e : Expr) (id : List ℕ → ℕ) (h : e.hasCall = false) :
    cseKeyOf id e = e.cseKey := by
  induction e using childInduction generalizing id with
  | h e ih =>
    have ih' : ∀ c ∈ e.children, ∀ id, cseKeyOf id c = c.cseKey :=
      fun c hc id ↦ ih c hc id (anyNode_child_eq_false hc h)
    cases e with
    | const | reg | var | str => rw [cseKeyOf, cseKey]
    | mem | unary | cast | addrOf =>
      rw [cseKeyOf, cseKey, ih' _ (by simp [children])]
    | binary =>
      rw [cseKeyOf, cseKey, ih' _ (by simp [children]), ih' _ (by simp [children])]
    | ternary =>
      rw [cseKeyOf, cseKey, ih' _ (by simp [children]), ih' _ (by simp [children]),
        ih' _ (by simp [children])]
    | call | callVia =>
      rw [hasCall, anyNode_eq] at h
      cases h

/-! ### Texts that collide -/

/-- Two sums of string literals. -/
def literalSum (s t : String) : Expr :=
  mkBinary .add (str ⟨8, false, false⟩ s) (str ⟨8, false, false⟩ t) 8

/-- An intrinsic that is called through a pointer. -/
def indirectIntrinsic : Expr :=
  call ⟨8, false, false⟩ "__guard_dispatch" true 0 []

theorem literalSum_iff :
    (cseKeyOf (fun _ ↦ 0) (literalSum "p; q" "q") = cseKeyOf (fun _ ↦ 0) (literalSum "p" "r") ↔
      exprEqual (literalSum "p; q" "q") (literalSum "p" "r") = true) ↔
    CallsAgree (fun _ ↦ 0) (fun _ ↦ 0) (literalSum "p; q" "q") (literalSum "p" "r") :=
  cseKeyOf_iff (by decide +kernel) (by decide +kernel)

/-- A separator in a literal moves the border of two operands; of an intrinsic that is called
through a pointer, two nodes are identified and have different keys. -/
theorem separator_collides :
    (cseKeyOf (fun _ ↦ 0) (literalSum "p;,Sq" "r") = cseKeyOf (fun _ ↦ 0) (literalSum "p" "q;,Sr") ∧
      exprEqual (literalSum "p;,Sq" "r") (literalSum "p" "q;,Sr") = false) ∧
    cseKeyOf (fun _ ↦ 16) indirectIntrinsic ≠ cseKeyOf (fun _ ↦ 32) indirectIntrinsic ∧
      exprEqual indirectIntrinsic indirectIntrinsic = true := by
  decide +kernel

end Expr

end Ldu
