import Ldu.Semantics.Reads

/-!
# Substituting an expression for a variable

`e.substVar nm r` reads the expression `r` wherever `e` reads the variable `nm`. When `r` has no
impure call, evaluating it does what evaluating `e` does in a store where `nm` holds the value of
`r`, provided that `r` has that value each time `nm` is read (`ReadsWithin`): calls in `e` may
change memory before the read. It suffices that `r` does not depend on memory (`Expr.memFree`) or
that no impure call comes before a read (`Expr.lateRead`).
-/

namespace Ldu

namespace Expr

/-- Read `r` in place of `nm`; `subst_var` does in place what `subst_named_var` does on a copy. -/
def substVar (e : Expr) (nm : String) (r : Expr) : Expr :=
  e.substNamedVar nm r

section SubstVar

variable {nm : String} {r e : Expr}

theorem substVar_self (ty : Ty) : (var ty nm).substVar nm r = r :=
  rewrite_of_some (if_pos (beq_self_eq_true nm))

theorem substVar_eq (h : isVarNamed nm e = false) :
    e.substVar nm r = e.mapChildren (·.substVar nm r) :=
  rewrite_of_none (by rw [h]; rfl)

theorem eq_var_of_isVarNamed (h : isVarNamed nm e = true) : ∃ ty, e = var ty nm := by
  cases e with
  | var ty n => exact ⟨ty, by rw [beq_iff_eq.1 h]⟩
  | _ => cases h

theorem anyNode_of_readsNamedVar {p : Expr → Bool} (hp : ∀ ty, p (.var ty nm) = true)
    (h : e.readsNamedVar nm = true) : e.anyNode p = true := by
  refine anyNode_mono (fun c hc ↦ ?_) e h
  obtain ⟨ty, rfl⟩ := eq_var_of_isVarNamed hc
  exact hp ty

/-- What does not read `nm` is left alone. -/
theorem substVar_of_not_reads (h : e.readsNamedVar nm = false) : e.substVar nm r = e := by
  induction e using childInduction with
  | h e ih =>
    have hroot : isVarNamed nm e = false := by
      rw [readsNamedVar, anyNode_eq, Bool.or_eq_false_iff] at h
      exact h.1
    rw [substVar_eq hroot, mapChildren_eq_self fun c hc ↦ ih c hc (anyNode_child_eq_false hc h)]

theorem readsNamedVar_substVar {n : String} (h : (e.substVar nm r).readsNamedVar n = true) :
    e.readsNamedVar n = true ∨ r.readsNamedVar n = true := by
  induction e using childInduction with
  | h e ih =>
    cases hvar : isVarNamed nm e with
    | true =>
      obtain ⟨ty, rfl⟩ := eq_var_of_isVarNamed hvar
      rw [substVar_self] at h
      exact .inr h
    | false =>
      rw [substVar_eq hvar, readsNamedVar, anyNode_eq, children_mapChildren, List.any_map,
        Bool.or_eq_true, List.any_eq_true] at h
      rcases h with hroot | ⟨c, hc, h⟩
      · left
        rw [readsNamedVar, anyNode_eq, Bool.or_eq_true]
        cases e <;> exact .inl hroot
      · exact (ih c hc h).imp_left (readsNamedVar_of_child hc n)

end SubstVar

/-! ### Contexts of a read -/

/-- The reads of `nm` look to the nodes above them like an expression of type `ty`: they have its
float flag and, below a conversion to floating point, its signedness. -/
def suits (nm : String) (ty : Ty) (e : Expr) : Bool :=
  !e.anyNode fun
    | var t n => n == nm && t.isFloat != ty.isFloat
    | cast t _ (var t' n) => n == nm && t.isFloat && !ty.isFloat && t'.isUnsigned != ty.isUnsigned
    | _ => false

section Suits

variable {nm : String} {ty t : Ty} {text : String} {r e a : Expr}

theorem suits_child {c : Expr} (hc : c ∈ e.children) (h : e.suits nm ty = true) :
    c.suits nm ty = true := by
  unfold suits at h ⊢
  rw [Bool.not_eq_true'] at h ⊢
  exact anyNode_child_eq_false hc h

theorem suits_of_not_reads (h : e.readsNamedVar nm = false) : e.suits nm ty = true := by
  induction e using childInduction with
  | h e ih =>
    have hchild : ∀ c ∈ e.children, c.readsNamedVar nm = false :=
      fun c hc ↦ anyNode_child_eq_false hc h
    have hchildren := fun c hc ↦ ih c hc (hchild c hc)
    unfold suits at hchildren ⊢
    rw [Bool.not_eq_true', anyNode_eq, Bool.or_eq_false_iff]
    refine ⟨?_, List.any_eq_false.2 fun c hc ↦ by simpa using hchildren c hc⟩
    rw [readsNamedVar, anyNode_eq, Bool.or_eq_false_iff] at h
    cases e with
    | var t n =>
      have hn : (n == nm) = false := h.1
      simp [hn]
    | cast t text a =>
      have ha := hchild a (by simp [children])
      cases a with
      | var t' n =>
        have hn : (n == nm) = false := by
          rw [readsNamedVar, anyNode_eq, Bool.or_eq_false_iff] at ha
          exact ha.1
        simp [hn]
      | _ => rfl
    | _ => rfl

theorem isFloat_substVar (h : e.suits nm r.ty = true) :
    (e.substVar nm r).ty.isFloat = e.ty.isFloat := by
  cases hvar : isVarNamed nm e with
  | false =>
    rw [substVar_eq hvar]
    cases e <;> rfl
  | true =>
    obtain ⟨ty, rfl⟩ := eq_var_of_isVarNamed hvar
    rw [suits, Bool.not_eq_true', anyNode_eq, Bool.or_eq_false_iff] at h
    have hsame : ty.isFloat = r.ty.isFloat := by simpa using h.1
    rw [substVar_self, ← hsame]
    rfl

/-- Conversions to floating point see the same signedness. -/
theorem isUnsigned_substVar (h : (cast t text a).suits nm r.ty = true)
    (hfloat : t.isFloat = true) (hint : a.ty.isFloat = false) :
    (a.substVar nm r).ty.isUnsigned = a.ty.isUnsigned := by
  have hsame := isFloat_substVar (suits_child (c := a) (by simp [children]) h)
  cases hvar : isVarNamed nm a with
  | false =>
    rw [substVar_eq hvar]
    cases a <;> rfl
  | true =>
    obtain ⟨ty, rfl⟩ := eq_var_of_isVarNamed hvar
    rw [substVar_self] at hsame ⊢
    rw [hint] at hsame
    unfold suits at h
    rw [Bool.not_eq_true', anyNode_eq, Bool.or_eq_false_iff] at h
    have huns : ty.isUnsigned = r.ty.isUnsigned := by simpa [hfloat, hsame] using h.1
    exact huns.symm

end Suits

/-! ### Reads after calls -/

mutual

/-- Some read of `nm` may come after an impure call. -/
def lateRead (nm : String) : Expr → Bool
  | const _ _ | reg _ _ | var _ _ | str _ _ => false
  | mem _ a | unary _ _ a | cast _ _ a | addrOf _ a => lateRead nm a
  | binary _ _ a b => lateRead nm a || lateRead nm b || (a.hasImpureCall && b.readsNamedVar nm)
  | ternary _ a b c =>
    lateRead nm a || lateRead nm b || lateRead nm c ||
      (a.hasImpureCall && (b.readsNamedVar nm || c.readsNamedVar nm))
  | call _ _ _ _ args => lateReadList nm args
  | callVia _ _ _ _ target args =>
    lateRead nm target || lateReadList nm args ||
      (target.hasImpureCall && args.any (·.readsNamedVar nm))

/-- The same for expressions evaluated one after the other. -/
def lateReadList (nm : String) : List Expr → Bool
  | [] => false
  | e :: es =>
    lateRead nm e || lateReadList nm es || (e.hasImpureCall && es.any (·.readsNamedVar nm))

end

/-- The value does not depend on memory; `taken` holds of the variables that live there. -/
def memFree (taken : String → Bool) (e : Expr) : Bool :=
  !e.anyNode fun
    | mem _ _ => true
    | var _ n => taken n
    | _ => false

/-- Without loads, the variables decide. -/
theorem memFree_of_not_readsMem {taken : String → Bool} {e : Expr} (hmem : e.readsMem = false)
    (hvars : ∀ n, e.readsNamedVar n = true → taken n = false) : e.memFree taken = true := by
  induction e using childInduction with
  | h e ih =>
    have hchildren : ∀ c ∈ e.children, c.memFree taken = true := fun c hc ↦
      ih c hc (anyNode_child_eq_false hc hmem) fun n hn ↦ hvars n (readsNamedVar_of_child hc n hn)
    unfold memFree at hchildren ⊢
    rw [Bool.not_eq_true', anyNode_eq, Bool.or_eq_false_iff]
    refine ⟨?_, List.any_eq_false.2 fun c hc ↦ by simpa using hchildren c hc⟩
    cases e with
    | var ty n => exact hvars n (by simp [readsNamedVar, anyNode, isVarNamed])
    | mem ty a => simp [readsMem, anyNode, isMem] at hmem
    | _ => rfl

theorem memFree_child {taken : String → Bool} {c e : Expr} (hc : c ∈ e.children)
    (h : e.memFree taken = true) : c.memFree taken = true := by
  unfold memFree at h ⊢
  rw [Bool.not_eq_true'] at h ⊢
  exact anyNode_child_eq_false hc h

end Expr

namespace World

variable {M E : Type} (W : World M E)

/-! ### Values that do not depend on memory -/

theorem callOp_pure_value {callee : String} (h : Expr.isPureCallee callee = true)
    (target : Option Val) (args : List Val) (s : Store M) :
    (W.callOp callee target args s).2.1 = W.intrinsic callee target args := by
  rw [callOp, if_pos h]

theorem evalList_value_eq {es : List Expr} {s t : Store M}
    (hsilent : ∀ e ∈ es, ∀ s : Store M, (W.eval e).SilentAt s)
    (h : ∀ e ∈ es, (W.eval e t).2.1 = (W.eval e s).2.1) :
    (W.evalList es t).2.1 = (W.evalList es s).2.1 := by
  induction es with
  | nil => rfl
  | cons e es ih =>
    have hes := ih (fun e he ↦ hsilent e (by simp [he])) fun e he ↦ h e (by simp [he])
    rw [evalList, Effect.bind_of_silentAt (hsilent e (by simp) t),
      Effect.bind_of_silentAt (hsilent e (by simp) s), h e (by simp)]
    simp only [Effect.bind_apply, Effect.pure_apply, hes]

/-- The value of an expression that has no impure call and does not depend on memory. -/
theorem eval_memFree {taken : String → Bool} (halias : ∀ n, W.aliased n = true → taken n = true)
    {e : Expr} (hfree : e.memFree taken = true) (himp : e.hasImpureCall = false) {s t : Store M}
    (hvars : ∀ n, e.readsNamedVar n = true → t.vars n = s.vars n) :
    (W.eval e t).2.1 = (W.eval e s).2.1 := by
  induction e using Expr.childInduction with
  | h e ih =>
    have hsilent : ∀ c ∈ e.children, ∀ s : Store M, (W.eval c).SilentAt s :=
      fun c hc ↦ W.silent_eval (Expr.anyNode_child_eq_false hc himp)
    have hvalue : ∀ c ∈ e.children, (W.eval c t).2.1 = (W.eval c s).2.1 := fun c hc ↦
      ih c hc (Expr.memFree_child hc hfree) (Expr.anyNode_child_eq_false hc himp)
        fun n hn ↦ hvars n (Expr.readsNamedVar_of_child hc n hn)
    have hpure : ∀ callee, (∃ ty i k args, e = .call ty callee i k args) ∨
        (∃ ty i k t args, e = .callVia ty callee i k t args) →
        Expr.isPureCallee callee = true := by
      rw [Expr.hasImpureCall, Expr.anyNode_eq, Bool.or_eq_false_iff] at himp
      rintro callee (⟨ty, i, k, args, rfl⟩ | ⟨ty, i, k, t, args, rfl⟩) <;>
        simpa [Expr.isImpureCall] using himp.1
    cases e with
    | const | reg | str => simp only [eval, Effect.pure_apply]
    | var ty x =>
      have htaken : taken x = false := by simpa [Expr.memFree, Expr.anyNode] using hfree
      have hx : W.aliased x = false := Bool.eq_false_iff.2 fun h ↦ by
        rw [halias x h] at htaken
        cases htaken
      simp only [eval, Effect.get_apply, read, hx]
      exact hvars x (by simp [Expr.readsNamedVar, Expr.anyNode, Expr.isVarNamed])
    | mem => simp [Expr.memFree, Expr.anyNode] at hfree
    | unary ty op a | cast ty op a =>
      simp only [eval, Effect.bind_apply, Effect.pure_apply, hvalue a (by simp [Expr.children])]
    | binary ty op a b =>
      have ha := hsilent a (by simp [Expr.children])
      rw [eval, Effect.bind_of_silentAt (ha t), Effect.bind_of_silentAt (ha s),
        hvalue a (by simp [Expr.children])]
      cases shortCircuit op (W.eval a s).2.1 with
      | some v => rfl
      | none =>
        simp only [Effect.bind_apply, Effect.pure_apply, hvalue b (by simp [Expr.children])]
    | ternary ty a b c =>
      have ha := hsilent a (by simp [Expr.children])
      rw [eval, Effect.bind_of_silentAt (ha t), Effect.bind_of_silentAt (ha s),
        hvalue a (by simp [Expr.children])]
      split
      · exact hvalue b (by simp [Expr.children])
      · exact hvalue c (by simp [Expr.children])
    | addrOf ty a =>
      have ha := hvalue a (by simp [Expr.children])
      rw [eval_addrOf]
      cases a with
      | var => rfl
      | mem => simp [Expr.memFree, Expr.anyNode] at hfree
      | _ => exact ha
    | call ty callee i k args =>
      have hargs : (W.evalList args t).2.1 = (W.evalList args s).2.1 :=
        W.evalList_value_eq hsilent hvalue
      rw [eval, Effect.bind_apply, Effect.bind_apply, hargs]
      simp only [W.callOp_pure_value (hpure callee (.inl ⟨_, _, _, _, rfl⟩))]
    | callVia ty callee i k target args =>
      have htarget := hsilent target (by simp [Expr.children])
      have hargs : (W.evalList args t).2.1 = (W.evalList args s).2.1 :=
        W.evalList_value_eq (fun e he ↦ hsilent e (by simp [Expr.children, he]))
          fun e he ↦ hvalue e (by simp [Expr.children, he])
      rw [eval, Effect.bind_of_silentAt (htarget t), Effect.bind_of_silentAt (htarget s),
        hvalue target (by simp [Expr.children]), Effect.bind_apply, Effect.bind_apply, hargs]
      simp only [W.callOp_pure_value (hpure callee (.inr ⟨_, _, _, _, _, rfl⟩))]

/-! ### Memory when a variable is read -/

mutual

/-- Evaluating the expression from this store reads `nm` only in memories in `G`. -/
def ReadsWithin (nm : String) (G : M → Prop) : Expr → Store M → Prop
  | .const _ _, _ | .reg _ _, _ | .str _ _, _ => True
  | .var _ x, s => x = nm → G s.mem
  | .mem _ a, s | .unary _ _ a, s | .cast _ _ a, s => ReadsWithin nm G a s
  | .binary _ op a b, s =>
    ReadsWithin nm G a s ∧
      (shortCircuit op (W.eval a s).2.1 = none → ReadsWithin nm G b (W.eval a s).2.2)
  | .ternary _ a b c, s =>
    ReadsWithin nm G a s ∧
      if (W.eval a s).2.1 ≠ 0 then ReadsWithin nm G b (W.eval a s).2.2
      else ReadsWithin nm G c (W.eval a s).2.2
  | .addrOf _ (.var _ _), _ => True
  | .addrOf _ (.mem _ a), s => ReadsWithin nm G a s
  | .addrOf _ a, s => ReadsWithin nm G a s
  | .call _ _ _ _ args, s => ReadsWithinList nm G args s
  | .callVia _ _ _ _ target args, s =>
    ReadsWithin nm G target s ∧ ReadsWithinList nm G args (W.eval target s).2.2

def ReadsWithinList (nm : String) (G : M → Prop) : List Expr → Store M → Prop
  | [], _ => True
  | e :: es, s => ReadsWithin nm G e s ∧ ReadsWithinList nm G es (W.eval e s).2.2

end

section ReadsWithin

variable {W} {nm : String} {G : M → Prop}

/-- Why a read of `nm` finds a memory in `G`: all memories are, or it comes before the impure
calls. -/
def Settled (G : M → Prop) (late : Bool) (s : Store M) : Prop :=
  (∀ m, G m) ∨ (late = false ∧ G s.mem)

theorem readsWithinList_of {es : List Expr} {s : Store M}
    (h : (∃ e ∈ es, e.readsNamedVar nm = true) → Settled G (Expr.lateReadList nm es) s)
    (ih : ∀ e ∈ es, ∀ s : Store M,
      (e.readsNamedVar nm = true → Settled G (e.lateRead nm) s) → W.ReadsWithin nm G e s) :
    W.ReadsWithinList nm G es s := by
  induction es generalizing s with
  | nil => trivial
  | cons e es ihes =>
    refine ⟨ih e (by simp) s fun hn ↦ ?_, ihes (fun ⟨c, hc, hn⟩ ↦ ?_) fun c hc ↦
      ih c (by simp [hc])⟩
    · refine (h ⟨e, by simp, hn⟩).imp_right fun ⟨hlate, hs⟩ ↦ ⟨?_, hs⟩
      simp only [Expr.lateReadList, Bool.or_eq_false_iff] at hlate
      exact hlate.1.1
    · refine (h ⟨c, by simp [hc], hn⟩).imp_right fun ⟨hlate, hs⟩ ↦ ?_
      simp only [Expr.lateReadList, Bool.or_eq_false_iff, Bool.and_eq_false_iff] at hlate
      have hany : es.any (·.readsNamedVar nm) = true := List.any_eq_true.2 ⟨c, hc, hn⟩
      have himp := hlate.2.resolve_right (by rw [hany]; decide)
      rw [(W.silent_eval himp s).2]
      exact ⟨hlate.1.2, hs⟩

theorem readsWithin_of {e : Expr} {s : Store M}
    (h : e.readsNamedVar nm = true → Settled G (e.lateRead nm) s) : W.ReadsWithin nm G e s := by
  induction e using Expr.childInduction generalizing s with
  | h e ih =>
    -- An operand evaluated first inherits the reason.
    have hfirst : ∀ c ∈ e.children, (e.lateRead nm = false → c.lateRead nm = false) →
        W.ReadsWithin nm G c s := by
      intro c hc hlate
      refine ih c hc fun hn ↦ (h (Expr.readsNamedVar_of_child hc nm hn)).imp_right ?_
      exact fun ⟨h, hs⟩ ↦ ⟨hlate h, hs⟩
    -- A later one is reached without impure calls when it reads `nm`.
    have hnext : ∀ a : Expr, ∀ c ∈ e.children, (e.lateRead nm = false → c.lateRead nm = false ∧
        (c.readsNamedVar nm = true → a.hasImpureCall = false)) →
        W.ReadsWithin nm G c (W.eval a s).2.2 := by
      intro a c hc hlate
      refine ih c hc fun hn ↦ (h (Expr.readsNamedVar_of_child hc nm hn)).imp_right ?_
      rintro ⟨h, hs⟩
      obtain ⟨hc', himp⟩ := hlate h
      rw [(W.silent_eval (himp hn) s).2]
      exact ⟨hc', hs⟩
    cases e with
    | const | reg | str => trivial
    | var ty x =>
      rintro rfl
      rcases h (by simp [Expr.readsNamedVar, Expr.anyNode, Expr.isVarNamed]) with hall | ⟨-, hs⟩
      · exact hall _
      · exact hs
    | mem ty a | unary ty op a | cast ty op a =>
      exact hfirst a (by simp [Expr.children]) (by simp [Expr.lateRead])
    | binary ty op a b =>
      refine ⟨hfirst a (by simp [Expr.children]) (by simp +contextual [Expr.lateRead]), fun _ ↦
        hnext a b (by simp [Expr.children]) ?_⟩
      simp only [Expr.lateRead, Bool.or_eq_false_iff, Bool.and_eq_false_iff, and_imp]
      exact fun _ hb hab ↦ ⟨hb, fun hn ↦ hab.resolve_right (by rw [hn]; decide)⟩
    | ternary ty a b c =>
      refine ⟨hfirst a (by simp [Expr.children]) (by simp +contextual [Expr.lateRead]), ?_⟩
      have hlate : (Expr.ternary ty a b c).lateRead nm = false →
          b.lateRead nm = false ∧ c.lateRead nm = false ∧
            (b.readsNamedVar nm = true ∨ c.readsNamedVar nm = true → a.hasImpureCall = false) := by
        simp only [Expr.lateRead, Bool.or_eq_false_iff, Bool.and_eq_false_iff, and_imp]
        refine fun _ hb hc habc ↦ ⟨hb, hc, fun hn ↦ habc.resolve_right fun hno ↦ ?_⟩
        rw [hno.1, hno.2] at hn
        simp at hn
      split
      · exact hnext a b (by simp [Expr.children])
          fun h ↦ ⟨(hlate h).1, fun hn ↦ (hlate h).2.2 (.inl hn)⟩
      · exact hnext a c (by simp [Expr.children])
          fun h ↦ ⟨(hlate h).2.1, fun hn ↦ (hlate h).2.2 (.inr hn)⟩
    | addrOf ty a =>
      have ha := hfirst a (by simp [Expr.children]) (by simp [Expr.lateRead])
      cases a with
      | var => trivial
      | _ => exact ha
    | call ty callee i k args =>
      refine readsWithinList_of (fun ⟨c, hc, hn⟩ ↦ ?_) fun c hc s ↦
        ih c (by simp [Expr.children, hc])
      have hmem : c ∈ (Expr.call ty callee i k args).children := by
        simpa [Expr.children] using hc
      refine (h (Expr.readsNamedVar_of_child hmem nm hn)).imp_right ?_
      simp [Expr.lateRead]
    | callVia ty callee i k target args =>
      refine ⟨hfirst target (by simp [Expr.children]) (by simp +contextual [Expr.lateRead]), ?_⟩
      refine readsWithinList_of (fun ⟨c, hc, hn⟩ ↦ ?_) fun c hc s ↦
        ih c (by simp [Expr.children, hc])
      refine (h (Expr.readsNamedVar_of_child (by simp [Expr.children, hc]) nm hn)).imp_right ?_
      simp only [Expr.lateRead, Bool.or_eq_false_iff, Bool.and_eq_false_iff, and_imp]
      have hany : args.any (·.readsNamedVar nm) = true := List.any_eq_true.2 ⟨c, hc, hn⟩
      intro _ hargs htarget hs
      rw [(W.silent_eval (htarget.resolve_right (by rw [hany]; decide)) s).2]
      exact ⟨hargs, hs⟩

end ReadsWithin

/-! ### Evaluation under substitution -/

section SubstAt

variable {α β : Type} {s : Store M} {u : String → Val}

/-- With the variables `u`, `y` does what `x` does from `s`. -/
def SubstAt (x y : Effect E (Store M) α) (s : Store M) (u : String → Val) : Prop :=
  y ⟨u, s.mem⟩ = ((x s).1, (x s).2.1, ⟨u, (x s).2.2.mem⟩)

theorem substAt_pure (a : α) : SubstAt (pure a : Effect E (Store M) α) (pure a) s u := rfl

theorem SubstAt.bind {x y : Effect E (Store M) α} {g h : α → Effect E (Store M) β}
    (hx : SubstAt x y s u) (hg : SubstAt (g (x s).2.1) (h (x s).2.1) (x s).2.2 u) :
    SubstAt (x >>= g) (y >>= h) s u := by
  unfold SubstAt at hx hg ⊢
  rw [Effect.bind_eq hx, Effect.bind_apply, hg]

theorem SubstAt.map {x y : Effect E (Store M) α} (hx : SubstAt x y s u) (g : α → β) :
    SubstAt (x >>= fun a ↦ pure (g a)) (y >>= fun a ↦ pure (g a)) s u :=
  hx.bind (substAt_pure _)

theorem substAt_get {f : Store M → α} (h : f ⟨u, s.mem⟩ = f s) :
    SubstAt (Effect.get f : Effect E (Store M) α) (Effect.get f) s u := by
  unfold SubstAt
  simp only [Effect.get_apply, h]

theorem substAt_callOp (callee : String) (target : Option Val) (args : List Val) :
    SubstAt (W.callOp callee target args) (W.callOp callee target args) s u :=
  W.readsOnly_callOp (p := fun _ ↦ False) callee target args s ⟨u, s.mem⟩ rfl fun _ h ↦ h.elim

variable {W} {nm : String} {r : Expr}

/-- A conversion of what is read in place of `nm`. -/
theorem castOp_substVar {ty : Ty} {text : String} {a : Expr}
    (h : (Expr.cast ty text a).suits nm r.ty = true) (v : Val) :
    W.castOp ty (a.substVar nm r).ty v = W.castOp ty a.ty v := by
  unfold castOp
  rw [Expr.isFloat_substVar (Expr.suits_child (c := a) (by simp [Expr.children]) h)]
  split
  · rfl
  · next hint =>
    split
    · next hty => rw [Expr.isUnsigned_substVar h hty (by simpa using hint)]
    · rfl

theorem substAt_evalList {G : M → Prop} {vs : String → Val} {es : List Expr} (hs : s.vars = vs)
    (hreads : W.ReadsWithinList nm G es s)
    (h : ∀ e ∈ es, ∀ s : Store M, s.vars = vs → W.ReadsWithin nm G e s →
      SubstAt (W.eval e) (W.eval (e.substVar nm r)) s u) :
    SubstAt (W.evalList es) (W.evalList (es.map (·.substVar nm r))) s u := by
  induction es generalizing s with
  | nil => exact substAt_pure _
  | cons e es ih =>
    rw [List.map_cons, evalList, evalList]
    refine (h e (by simp) s hs hreads.1).bind ?_
    exact (ih ((W.eval_vars e s).trans hs) hreads.2 fun c hc ↦ h c (by simp [hc])).map _

/-- Evaluating `e` with `r` for `nm`, where `r` has the value of `nm` in the memories in which `nm`
is read; also as a place. -/
theorem substAt_eval_place {vs : String → Val} (halias : W.aliased nm = false)
    (himp : r.hasImpureCall = false) (hvars : ∀ n, n ≠ nm → u n = vs n) {e : Expr}
    (hsuits : e.suits nm r.ty = true) (haddr : e.anyNode (Expr.isAddrOf nm) = false)
    (hs : s.vars = vs)
    (hreads : W.ReadsWithin nm (fun m ↦ (W.eval r ⟨u, m⟩).2.1 = vs nm) e s) :
    SubstAt (W.eval e) (W.eval (e.substVar nm r)) s u ∧
      (Expr.isVarNamed nm e = false → SubstAt (W.place e) (W.place (e.substVar nm r)) s u) := by
  induction e using Expr.childInduction generalizing s with
  | h e ih =>
    have hplace : ∀ c ∈ e.children, ∀ s : Store M, s.vars = vs →
        W.ReadsWithin nm (fun m ↦ (W.eval r ⟨u, m⟩).2.1 = vs nm) c s →
        Expr.isVarNamed nm c = false → SubstAt (W.place c) (W.place (c.substVar nm r)) s u :=
      fun c hc s hs hreads ↦
        (ih c hc (Expr.suits_child hc hsuits) (Expr.anyNode_child_eq_false hc haddr) hs hreads).2
    have ih : ∀ c ∈ e.children, ∀ s : Store M, s.vars = vs →
        W.ReadsWithin nm (fun m ↦ (W.eval r ⟨u, m⟩).2.1 = vs nm) c s →
        SubstAt (W.eval c) (W.eval (c.substVar nm r)) s u := fun c hc s hs hreads ↦
      (ih c hc (Expr.suits_child hc hsuits) (Expr.anyNode_child_eq_false hc haddr) hs hreads).1
    have hfloat : ∀ c ∈ e.children, (c.substVar nm r).ty.isFloat = c.ty.isFloat :=
      fun c hc ↦ Expr.isFloat_substVar (Expr.suits_child hc hsuits)
    cases hvar : Expr.isVarNamed nm e with
    | true =>
      obtain ⟨ty, rfl⟩ := Expr.eq_var_of_isVarNamed hvar
      have hvalue : (W.eval r ⟨u, s.mem⟩).2.1 = vs nm := hreads rfl
      refine ⟨?_, nofun⟩
      rw [Expr.substVar_self, SubstAt, (W.silent_eval himp _).eq, hvalue]
      simp only [eval, Effect.get_apply, read, halias, Bool.false_eq_true, if_false, hs]
    | false =>
      have heval : SubstAt (W.eval e) (W.eval (e.substVar nm r)) s u := by
        rw [Expr.substVar_eq hvar]
        cases e with
        | const | reg | str => exact substAt_pure _
        | var ty x =>
          have hne : x ≠ nm := by simpa [Expr.isVarNamed] using hvar
          refine substAt_get ?_
          simp only [read, hvars x hne, hs]
        | mem ty a =>
          rw [Expr.mapChildren, eval, eval]
          exact (ih a (by simp [Expr.children]) s hs hreads).bind (substAt_get rfl)
        | unary ty op a =>
          rw [Expr.mapChildren, eval, eval]
          simp only [unop, hfloat a (by simp [Expr.children])]
          exact (ih a (by simp [Expr.children]) s hs hreads).map _
        | cast ty text a =>
          rw [Expr.mapChildren, eval, eval]
          simp only [castOp_substVar hsuits]
          exact (ih a (by simp [Expr.children]) s hs hreads).map _
        | binary ty op a b =>
          rw [Expr.mapChildren, eval, eval]
          simp only [binop, hfloat a (by simp [Expr.children]),
            hfloat b (by simp [Expr.children])]
          refine (ih a (by simp [Expr.children]) s hs hreads.1).bind ?_
          split
          · exact substAt_pure _
          · next hnone =>
            exact (ih b (by simp [Expr.children]) _ ((W.eval_vars a s).trans hs)
              (hreads.2 hnone)).map _
        | ternary ty a b c =>
          rw [Expr.mapChildren, eval, eval]
          refine (ih a (by simp [Expr.children]) s hs hreads.1).bind ?_
          have hnext := hreads.2
          split at hnext
          · next hv =>
            rw [if_pos hv, if_pos hv]
            exact ih b (by simp [Expr.children]) _ ((W.eval_vars a s).trans hs) hnext
          · next hv =>
            rw [if_neg hv, if_neg hv]
            exact ih c (by simp [Expr.children]) _ ((W.eval_vars a s).trans hs) hnext
        | addrOf ty a =>
          rw [Expr.mapChildren, eval_addrOf, eval_addrOf]
          have hnot : Expr.isVarNamed nm a = false := by
            rw [Expr.anyNode_eq, Bool.or_eq_false_iff] at haddr
            cases a <;> first | rfl | exact haddr.1
          refine hplace a (by simp [Expr.children]) s hs ?_ hnot
          cases a with
          | var ty' x =>
            rintro rfl
            simp [Expr.isVarNamed] at hnot
          | _ => exact hreads
        | call ty callee i k args =>
          rw [Expr.mapChildren, eval, eval]
          exact (substAt_evalList hs hreads ih).bind (W.substAt_callOp _ _ _)
        | callVia ty callee i k target args =>
          rw [Expr.mapChildren, eval, eval]
          refine (ih target (by simp [Expr.children]) s hs hreads.1).bind ?_
          refine (substAt_evalList ((W.eval_vars target s).trans hs) hreads.2
            fun c hc ↦ ih c (by simp [Expr.children, hc])).bind (W.substAt_callOp _ _ _)
      refine ⟨heval, fun _ ↦ ?_⟩
      rw [Expr.substVar_eq hvar] at heval ⊢
      cases e with
      | var => exact substAt_pure _
      | mem ty a => exact ih a (by simp [Expr.children]) s hs hreads
      | _ => exact heval

theorem substAt_eval (halias : W.aliased nm = false) (himp : r.hasImpureCall = false)
    (hvars : ∀ n, n ≠ nm → u n = s.vars n) {e : Expr} (hsuits : e.suits nm r.ty = true)
    (haddr : e.anyNode (Expr.isAddrOf nm) = false)
    (hreads : W.ReadsWithin nm (fun m ↦ (W.eval r ⟨u, m⟩).2.1 = s.vars nm) e s) :
    SubstAt (W.eval e) (W.eval (e.substVar nm r)) s u :=
  (substAt_eval_place halias himp hvars hsuits haddr rfl hreads).1

end SubstAt

end World

end Ldu
