import Ldu.Semantics.Reads

/-!
# The structural comparison and the values

`exprEqual` is what every pass takes for "the same expression". It compares operators, names and
constants; of the typing fields of the nodes it compares only the width of a load, of the calls it
asks that the name starts with two underscores, and it does not look at computed targets.

So the expressions it identifies need not have the same value. They do, with all the operands that
correspond, exactly when each pair of corresponding nodes computes the same from the values of its
operands (`World.NodeAgrees`), provided that no call is one that counts as different each time
(`exprEqual_sound`); the same typing fields are enough (`valueAt_eq_of_sameTypes`).
-/

namespace Ldu

namespace Expr

theorem isPureCallee_of_call {ty : Ty} {n : String} {i : Bool} {k : ℕ} {args : List Expr}
    (h : (call ty n i k args).hasImpureCall = false) : isPureCallee n = true := by
  rw [hasImpureCall, anyNode_eq, Bool.or_eq_false_iff] at h
  simpa [isImpureCall] using h.1

theorem isPureCallee_of_callVia {ty : Ty} {n : String} {i : Bool} {k : ℕ} {t : Expr}
    {args : List Expr} (h : (callVia ty n i k t args).hasImpureCall = false) :
    isPureCallee n = true := by
  rw [hasImpureCall, anyNode_eq, Bool.or_eq_false_iff] at h
  simpa [isImpureCall] using h.1

def isCallVia : Expr → Bool
  | callVia _ _ _ _ _ _ => true
  | _ => false

/-- The expressions that are evaluated for a node and that the comparison looks at. The address of
a variable needs none, and the address of a memory cell is that of the cell. -/
def operands : Expr → List Expr
  | addrOf _ (var _ _) => []
  | addrOf _ (mem _ a) => [a]
  | callVia _ _ _ _ _ args => args
  | e => e.children

/-- `x` and `y` stand at the same place in `a` and `b`. -/
inductive Corresponds : Expr → Expr → Expr → Expr → Prop
  | here (a b : Expr) : Corresponds a b a b
  | step {a b c d x y : Expr} (h : (c, d) ∈ a.operands.zip b.operands)
    (hxy : Corresponds c d x y) : Corresponds a b x y

variable {a b c d x y : Expr}

theorem Corresponds.trans (h : Corresponds a b c d) (hxy : Corresponds c d x y) :
    Corresponds a b x y := by
  induction h with
  | here => exact hxy
  | step hcd _ ih => exact .step hcd (ih hxy)

theorem sizeOf_lt_of_mem_operands (h : c ∈ a.operands) : sizeOf c < sizeOf a := by
  unfold operands at h
  split at h
  · cases h
  · next ty ty' p =>
    obtain rfl := List.mem_singleton.1 h
    simp only [addrOf.sizeOf_spec, mem.sizeOf_spec]
    omega
  · next ty n i k t args =>
    have := List.sizeOf_lt_of_mem h
    simp only [callVia.sizeOf_spec]
    omega
  · exact sizeOf_lt_of_mem_children h

theorem exprEqualList_iff {as bs : List Expr} :
    exprEqualList as bs = true ↔ List.Forall₂ (fun a b ↦ a.exprEqual b = true) as bs := by
  induction as generalizing bs with
  | nil => cases bs <;> simp [exprEqualList]
  | cons a as ih => cases bs <;> simp [exprEqualList, ih]

/-- Identified expressions name a place of one kind, or none does. -/
theorem place_cases (h : a.exprEqual b = true) :
    (∃ ty ty' n, a = var ty n ∧ b = var ty' n) ∨
    (∃ ty ty' p q, a = mem ty p ∧ b = mem ty' q ∧ p.exprEqual q = true) ∨
    (a.isPlace = false ∧ b.isPlace = false) := by
  revert h
  fun_cases exprEqual a b <;> intro h
  case case3 ty x ty' y => exact .inl ⟨ty, ty', x, rfl, by rw [eq_of_beq h]⟩
  case case4 t p t' q => exact .inr (.inl ⟨t, t', p, q, rfl, rfl, (Bool.and_eq_true _ _ ▸ h).1⟩)
  all_goals first | exact absurd h Bool.false_ne_true | exact .inr (.inr ⟨rfl, rfl⟩)

theorem operands_addrOf (ty : Ty) (h : a.isPlace = false) : (addrOf ty a).operands = [a] := by
  cases a <;> first | rfl | cases h

/-- The operands of identified expressions are identified. -/
theorem exprEqual_operands (h : a.exprEqual b = true) :
    List.Forall₂ (fun c d ↦ c.exprEqual d = true) a.operands b.operands := by
  revert h
  fun_cases exprEqual a b <;> intro h
  all_goals try simp only [Bool.and_eq_true] at h
  case case1 | case2 | case3 | case9 => exact .nil
  case case4 => exact .cons h.1 .nil
  case case5 | case7 => exact .cons h.2 .nil
  case case6 => exact .cons h.1.2 (.cons h.2 .nil)
  case case8 ty a ty' a' =>
    obtain ⟨t, t', n, rfl, rfl⟩ | ⟨t, t', p, q, rfl, rfl, hpq⟩ | ⟨ha, hb⟩ := place_cases h
    · exact .nil
    · exact .cons hpq .nil
    · rw [operands_addrOf _ ha, operands_addrOf _ hb]
      exact .cons h .nil
  case case10 => exact .cons h.1.1 (.cons h.1.2 (.cons h.2 .nil))
  case case11 | case12 | case13 | case14 => exact exprEqualList_iff.1 h.2
  case case15 => exact absurd h Bool.false_ne_true

end Expr

namespace World

variable {M E : Type} (W : World M E)

/-- The value of an expression in a store. -/
def valueAt (s : Store M) (e : Expr) : Val :=
  (W.eval e s).2.1

/-! ### The values of silent nodes -/

section Values

variable {W} {s : Store M} {a b c t : Expr} {args : List Expr}

theorem valueAt_mem (ha : (W.eval a).SilentAt s) (ty : Ty) :
    W.valueAt s (.mem ty a) = ty.ext (W.load s.mem ty (W.valueAt s a)) := by
  rw [valueAt, eval, Effect.bind_of_silentAt ha]
  rfl

theorem valueAt_unary (ha : (W.eval a).SilentAt s) (ty : Ty) (op : UnOp) :
    W.valueAt s (.unary ty op a) = W.unop ty a.ty op (W.valueAt s a) := by
  rw [valueAt, eval, Effect.bind_of_silentAt ha]
  rfl

theorem valueAt_cast (ha : (W.eval a).SilentAt s) (ty : Ty) (text : String) :
    W.valueAt s (.cast ty text a) = W.castOp ty a.ty (W.valueAt s a) := by
  rw [valueAt, eval, Effect.bind_of_silentAt ha]
  rfl

theorem valueAt_binary (ha : (W.eval a).SilentAt s) (hb : (W.eval b).SilentAt s) (ty : Ty)
    (op : BinOp) : W.valueAt s (.binary ty op a b) =
      (shortCircuit op (W.valueAt s a)).getD
        (W.binop ty a.ty b.ty op (W.valueAt s a) (W.valueAt s b)) := by
  rw [valueAt, eval, Effect.bind_of_silentAt ha, ← valueAt]
  cases shortCircuit op (W.valueAt s a) with
  | some r => rfl
  | none => exact congrArg (·.2.1) (Effect.bind_of_silentAt hb _)

theorem valueAt_ternary (ha : (W.eval a).SilentAt s) (ty : Ty) : W.valueAt s (.ternary ty a b c) =
    if W.valueAt s a ≠ 0 then W.valueAt s b else W.valueAt s c := by
  rw [valueAt, eval, Effect.bind_of_silentAt ha, ← valueAt]
  split <;> rfl

theorem valueAt_evalList (h : ∀ e ∈ args, (W.eval e).SilentAt s) :
    (W.evalList args s).2.1 = args.map (W.valueAt s) := by
  induction args with
  | nil => rfl
  | cons e es ih =>
    rw [evalList, Effect.bind_of_silentAt (h e (by simp)),
      Effect.bind_of_silentAt (W.silent_evalList fun e he ↦ h e (by simp [he])), Effect.pure_apply,
      ih fun e he ↦ h e (by simp [he])]
    rfl

theorem valueAt_call {callee : String} (hpure : Expr.isPureCallee callee = true)
    (h : ∀ e ∈ args, (W.eval e).SilentAt s) (ty : Ty) (i : Bool) (k : ℕ) :
    W.valueAt s (.call ty callee i k args) =
      W.intrinsic callee none (args.map (W.valueAt s)) := by
  rw [valueAt, eval, Effect.bind_of_silentAt (W.silent_evalList h), valueAt_evalList h, callOp,
    if_pos hpure]

theorem valueAt_callVia {callee : String} (hpure : Expr.isPureCallee callee = true)
    (ht : (W.eval t).SilentAt s) (h : ∀ e ∈ args, (W.eval e).SilentAt s) (ty : Ty) (i : Bool)
    (k : ℕ) : W.valueAt s (.callVia ty callee i k t args) =
      W.intrinsic callee (some (W.valueAt s t)) (args.map (W.valueAt s)) := by
  rw [valueAt, eval, Effect.bind_of_silentAt ht, Effect.bind_of_silentAt (W.silent_evalList h),
    valueAt_evalList h, callOp, if_pos hpure]
  rfl

end Values

/-! ### Nodes that agree -/

/-- The roots of `a` and `b` compute the same from the values that the operands of `a` have. The
names and the operators are those of `a`, the typing fields and a computed target its own for each
node. -/
def NodeAgrees (s : Store M) : Expr → Expr → Prop
  | .const ty v, .const ty' _ => ty.ext v = ty'.ext v
  | .reg ty r, .reg ty' _ => ty.ext (W.reg r) = ty'.ext (W.reg r)
  | .mem ty a, .mem ty' _ =>
    ty.ext (W.load s.mem ty (W.valueAt s a)) = ty'.ext (W.load s.mem ty' (W.valueAt s a))
  | .unary ty op a, .unary ty' _ a' =>
    W.unop ty a.ty op (W.valueAt s a) = W.unop ty' a'.ty op (W.valueAt s a)
  | .binary ty op a b, .binary ty' _ a' b' =>
    shortCircuit op (W.valueAt s a) = none →
      W.binop ty a.ty b.ty op (W.valueAt s a) (W.valueAt s b) =
        W.binop ty' a'.ty b'.ty op (W.valueAt s a) (W.valueAt s b)
  | .cast ty _ a, .cast ty' _ a' =>
    W.castOp ty a.ty (W.valueAt s a) = W.castOp ty' a'.ty (W.valueAt s a)
  | .call _ n _ _ args, .callVia _ _ _ _ t _ =>
    W.intrinsic n none (args.map (W.valueAt s)) =
      W.intrinsic n (some (W.valueAt s t)) (args.map (W.valueAt s))
  | .callVia _ n _ _ t args, .call _ _ _ _ _ =>
    W.intrinsic n (some (W.valueAt s t)) (args.map (W.valueAt s)) =
      W.intrinsic n none (args.map (W.valueAt s))
  | .callVia _ n _ _ t args, .callVia _ _ _ _ t' _ =>
    W.intrinsic n (some (W.valueAt s t)) (args.map (W.valueAt s)) =
      W.intrinsic n (some (W.valueAt s t')) (args.map (W.valueAt s))
  | _, _ => True

variable {a b : Expr} {s : Store M}

theorem map_eq_of_forall₂ {α β : Type*} {f : α → β} {as bs : List α}
    (h : List.Forall₂ (fun a b ↦ f a = f b) as bs) : as.map f = bs.map f := by
  induction h with
  | nil => rfl
  | cons hab _ ih => rw [List.map_cons, List.map_cons, hab, ih]

/-- Of two identified nodes whose operands have equal values, one has the value of the other exactly
when they agree. -/
theorem valueAt_eq_iff (h : a.exprEqual b = true) (ha : a.hasImpureCall = false)
    (hb : b.hasImpureCall = false)
    (hops : List.Forall₂ (fun c d ↦ W.valueAt s c = W.valueAt s d) a.operands b.operands) :
    W.valueAt s a = W.valueAt s b ↔ W.NodeAgrees s a b := by
  have hsa : ∀ c ∈ a.children, (W.eval c).SilentAt s := fun c hc ↦
    W.silent_eval (Expr.anyNode_child_eq_false hc ha) s
  have hsb : ∀ c ∈ b.children, (W.eval c).SilentAt s := fun c hc ↦
    W.silent_eval (Expr.anyNode_child_eq_false hc hb) s
  revert h
  fun_cases Expr.exprEqual a b <;> intro h
  all_goals try simp only [Bool.and_eq_true, beq_iff_eq] at h
  case case1 | case2 =>
    subst h
    exact Iff.rfl
  case case3 | case9 =>
    subst h
    exact iff_of_true rfl trivial
  case case4 t p t' q =>
    obtain ⟨hp, -⟩ := List.forall₂_cons.1 hops
    rw [valueAt_mem (hsa p (by simp [Expr.children])),
      valueAt_mem (hsb q (by simp [Expr.children])),
      ← hp, NodeAgrees]
  case case5 t op p t' op' q =>
    obtain ⟨rfl, -⟩ := h
    obtain ⟨hp, -⟩ := List.forall₂_cons.1 hops
    rw [valueAt_unary (hsa p (by simp [Expr.children])),
      valueAt_unary (hsb q (by simp [Expr.children])), ← hp, NodeAgrees]
  case case7 t x p t' x' q =>
    obtain ⟨hp, -⟩ := List.forall₂_cons.1 hops
    rw [valueAt_cast (hsa p (by simp [Expr.children])),
      valueAt_cast (hsb q (by simp [Expr.children])), ← hp, NodeAgrees]
  case case6 t op p q t' op' p' q' =>
    obtain ⟨⟨rfl, -⟩, -⟩ := h
    obtain ⟨hp, hops⟩ := List.forall₂_cons.1 hops
    obtain ⟨hq, -⟩ := List.forall₂_cons.1 hops
    rw [valueAt_binary (hsa p (by simp [Expr.children])) (hsa q (by simp [Expr.children])),
      valueAt_binary (hsb p' (by simp [Expr.children])) (hsb q' (by simp [Expr.children])), ← hp,
      ← hq, NodeAgrees]
    cases shortCircuit op (W.valueAt s p) <;> simp
  case case8 t p t' q =>
    refine iff_of_true ?_ trivial
    obtain ⟨ty, ty', n, rfl, rfl⟩ | ⟨ty, ty', p, q, rfl, rfl, -⟩ | ⟨hp, hq⟩ := Expr.place_cases h
    · simp only [valueAt, eval]
    · obtain ⟨hp, -⟩ := List.forall₂_cons.1 hops
      simp only [valueAt, eval]
      exact hp
    · rw [Expr.operands_addrOf _ hp, Expr.operands_addrOf _ hq] at hops
      obtain ⟨hops, -⟩ := List.forall₂_cons.1 hops
      simp only [valueAt, eval_addrOf, W.place_of_isPlace hp, W.place_of_isPlace hq]
      exact hops
  case case10 t p q r t' p' q' r' =>
    refine iff_of_true ?_ trivial
    obtain ⟨hp, hops⟩ := List.forall₂_cons.1 hops
    obtain ⟨hq, hops⟩ := List.forall₂_cons.1 hops
    obtain ⟨hr, -⟩ := List.forall₂_cons.1 hops
    rw [valueAt_ternary (hsa p (by simp [Expr.children])),
      valueAt_ternary (hsb p' (by simp [Expr.children])), hp, hq, hr]
  case case15 => exact absurd h Bool.false_ne_true
  case case11 =>
    obtain ⟨⟨⟨rfl, -⟩, -⟩, -⟩ := h
    simp only [Expr.children, Expr.operands] at hsa hsb hops
    have hpure := Expr.isPureCallee_of_call ha
    rw [valueAt_call hpure hsa, valueAt_call hpure hsb, map_eq_of_forall₂ hops]
    exact iff_of_true rfl trivial
  case case12 =>
    obtain ⟨⟨⟨rfl, -⟩, -⟩, -⟩ := h
    simp only [Expr.children, Expr.operands] at hsa hsb hops
    obtain ⟨ht, hargs⟩ := List.forall_mem_cons.1 hsb
    have hpure := Expr.isPureCallee_of_call ha
    rw [valueAt_call hpure hsa, valueAt_callVia hpure ht hargs, ← map_eq_of_forall₂ hops,
      NodeAgrees]
  case case13 =>
    obtain ⟨⟨⟨rfl, -⟩, -⟩, -⟩ := h
    simp only [Expr.children, Expr.operands] at hsa hsb hops
    obtain ⟨ht, hargs⟩ := List.forall_mem_cons.1 hsa
    have hpure := Expr.isPureCallee_of_call hb
    rw [valueAt_callVia hpure ht hargs, valueAt_call hpure hsb, ← map_eq_of_forall₂ hops,
      NodeAgrees]
  case case14 =>
    obtain ⟨⟨⟨rfl, -⟩, -⟩, -⟩ := h
    simp only [Expr.children, Expr.operands] at hsa hsb hops
    obtain ⟨ht, hargs⟩ := List.forall_mem_cons.1 hsa
    obtain ⟨ht', hargs'⟩ := List.forall_mem_cons.1 hsb
    have hpure := Expr.isPureCallee_of_callVia ha
    rw [valueAt_callVia hpure ht hargs, valueAt_callVia hpure ht' hargs', ← map_eq_of_forall₂ hops,
      NodeAgrees]

/-! ### Identified expressions -/

theorem hasImpureCall_operand {c : Expr} (hc : c ∈ a.operands) (h : a.hasImpureCall = false) :
    c.hasImpureCall = false := by
  unfold Expr.operands at hc
  split at hc
  · cases hc
  · next ty ty' p =>
    obtain rfl := List.mem_singleton.1 hc
    exact Expr.anyNode_child_eq_false (e := .mem ty' c) (by simp [Expr.children])
      (Expr.anyNode_child_eq_false (e := .addrOf ty (.mem ty' c)) (by simp [Expr.children]) h)
  · exact Expr.anyNode_child_eq_false (by simp [Expr.children, hc]) h
  · exact Expr.anyNode_child_eq_false hc h

/-- Where all corresponding nodes agree, identified expressions have the same value. The induction
is on the one expression; the operands of the other correspond to its operands. -/
theorem valueAt_eq_of_nodeAgrees (h : a.exprEqual b = true) (ha : a.hasImpureCall = false)
    (hb : b.hasImpureCall = false)
    (hnodes : ∀ x y, Expr.Corresponds a b x y → W.NodeAgrees s x y) :
    W.valueAt s a = W.valueAt s b := by
  induction hn : sizeOf a using Nat.strong_induction_on generalizing a b with
  | _ n ih =>
    rw [W.valueAt_eq_iff h ha hb]
    · exact hnodes a b (.here a b)
    · obtain ⟨hlen, hops⟩ := List.forall₂_iff_zip.1 (Expr.exprEqual_operands h)
      refine List.forall₂_iff_zip.2 ⟨hlen, fun {c d} hcd ↦ ?_⟩
      obtain ⟨hc, hd⟩ := List.of_mem_zip hcd
      exact ih (sizeOf c) (hn ▸ Expr.sizeOf_lt_of_mem_operands hc) (hops hcd)
        (hasImpureCall_operand hc ha) (hasImpureCall_operand hd hb)
        (fun x y hxy ↦ hnodes x y (.step hcd hxy)) rfl

/-- What is known of identified expressions is known of each pair that corresponds. -/
theorem exprEqual_of_corresponds {x y : Expr} (hxy : Expr.Corresponds a b x y)
    (h : a.exprEqual b = true) (ha : a.hasImpureCall = false) (hb : b.hasImpureCall = false) :
    x.exprEqual y = true ∧ x.hasImpureCall = false ∧ y.hasImpureCall = false := by
  induction hxy with
  | here => exact ⟨h, ha, hb⟩
  | step hcd _ ih =>
    obtain ⟨hc, hd⟩ := List.of_mem_zip hcd
    exact ih ((List.forall₂_iff_zip.1 (Expr.exprEqual_operands h)).2 hcd)
      (hasImpureCall_operand hc ha) (hasImpureCall_operand hd hb)

/-- Evaluated one right after the other, identified expressions and all that corresponds in them
have the same values, and none of their calls counts as different each time, exactly when there are
no such calls and all corresponding nodes agree. -/
theorem exprEqual_sound (h : a.exprEqual b = true) (s : Store M) :
    (a.hasImpureCall = false ∧ b.hasImpureCall = false ∧
      ∀ x y, Expr.Corresponds a b x y → W.valueAt (W.eval x s).2.2 y = W.valueAt s x) ↔
    a.hasImpureCall = false ∧ b.hasImpureCall = false ∧
      ∀ x y, Expr.Corresponds a b x y → W.NodeAgrees s x y := by
  refine and_congr_right fun ha ↦ and_congr_right fun hb ↦ ?_
  constructor
  · intro hvalues x y hxy
    obtain ⟨heq, hx, hy⟩ := exprEqual_of_corresponds hxy h ha hb
    have hall : ∀ c d, Expr.Corresponds a b c d → W.valueAt s c = W.valueAt s d := by
      intro c d hcd
      obtain ⟨-, hc, -⟩ := exprEqual_of_corresponds hcd h ha hb
      rw [← hvalues c d hcd, (W.silent_eval hc s).2]
    refine (W.valueAt_eq_iff heq hx hy (List.forall₂_iff_zip.2 ⟨?_, fun {c d} hcd ↦ ?_⟩)).1
      (hall x y hxy)
    · exact (Expr.exprEqual_operands heq).length_eq
    · exact hall c d (hxy.trans (.step hcd (.here c d)))
  · intro hnodes x y hxy
    obtain ⟨heq, hx, hy⟩ := exprEqual_of_corresponds hxy h ha hb
    rw [(W.silent_eval hx s).2]
    exact (W.valueAt_eq_of_nodeAgrees heq hx hy fun x' y' h' ↦ hnodes x' y' (hxy.trans h')).symm

/-- Nodes of the same types agree, unless their calls have computed targets. -/
theorem nodeAgrees_of_sameTypes (htypes : ∀ x y, Expr.Corresponds a b x y → y.ty = x.ty)
    (ha : a.isCallVia = false) (hb : b.isCallVia = false) (s : Store M) : W.NodeAgrees s a b := by
  have hroot : b.ty = a.ty := htypes a b (.here a b)
  have hop : ∀ c d, (c, d) ∈ a.operands.zip b.operands → d.ty = c.ty := fun c d hcd ↦
    htypes c d (.step hcd (.here c d))
  unfold NodeAgrees
  split
  case h_4 | h_6 =>
    obtain rfl : _ = _ := hroot
    rw [hop _ _ (.head _)]
    rfl
  case h_5 =>
    obtain rfl : _ = _ := hroot
    intro _
    rw [hop _ _ (.head _), hop _ _ (.tail _ (.head _))]
    rfl
  case h_7 => cases hb
  case h_8 | h_9 => cases ha
  case h_10 => trivial
  all_goals
    obtain rfl : _ = _ := hroot
    rfl

/-- Identified expressions of the same types have the same value, and may be dropped. -/
theorem valueAt_eq_of_sameTypes (h : a.exprEqual b = true) (ha : a.hasImpureCall = false)
    (hb : b.hasImpureCall = false) (htypes : ∀ x y, Expr.Corresponds a b x y → y.ty = x.ty)
    (hvia : ∀ x y, Expr.Corresponds a b x y → x.isCallVia = false ∧ y.isCallVia = false)
    (s : Store M) : W.eval b s = W.eval a s := by
  have hvalue : W.valueAt s a = W.valueAt s b :=
    W.valueAt_eq_of_nodeAgrees h ha hb fun x y hxy ↦
      W.nodeAgrees_of_sameTypes (fun x' y' h' ↦ htypes x' y' (hxy.trans h')) (hvia x y hxy).1
        (hvia x y hxy).2 s
  rw [(W.silent_eval ha s).eq, (W.silent_eval hb s).eq]
  exact congrArg (fun v ↦ ([], v, s)) hvalue.symm

end World

/-! ### A byte loaded twice -/

/-- The byte at `a1`, with its sign and without. -/
def loadedByte (u : Bool) : Expr :=
  .mem ⟨1, u, false⟩ (.mkVar "a1" 8)

/-- Every address holds `255`. -/
def onesStore : Store (Val → Val) :=
  ⟨fun _ ↦ 0, fun _ ↦ 255⟩

theorem loadedByte_sound : (loadedByte true).exprEqual (loadedByte false) = true ∧
    ((((loadedByte true).hasImpureCall = false ∧ (loadedByte false).hasImpureCall = false ∧
      ∀ x y, Expr.Corresponds (loadedByte true) (loadedByte false) x y →
        traceWorld.valueAt (traceWorld.eval x zeroStore).2.2 y = traceWorld.valueAt zeroStore x)) ↔
    (loadedByte true).hasImpureCall = false ∧ (loadedByte false).hasImpureCall = false ∧
      ∀ x y, Expr.Corresponds (loadedByte true) (loadedByte false) x y →
        traceWorld.NodeAgrees zeroStore x y) :=
  ⟨by decide, traceWorld.exprEqual_sound (by decide) zeroStore⟩

/-- A reading of the clock. -/
def clock : Expr :=
  .call ⟨8, true, false⟩ "__rdtsc" false 0 []

/-- The two loads are identified, but of the byte `255` one makes `255` and the other `-1`. Two
readings of the clock are identified as well. -/
theorem loadedByte_differs :
    ((loadedByte true).exprEqual (loadedByte false) = true ∧
      traceWorld.valueAt (traceWorld.eval (loadedByte true) onesStore).2.2 (loadedByte false) ≠
        traceWorld.valueAt onesStore (loadedByte true)) ∧
    clock.exprEqual clock = true ∧ clock.hasImpureCall = true := by
  decide

end Ldu
