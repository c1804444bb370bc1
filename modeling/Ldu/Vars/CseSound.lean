import Ldu.Vars.Cse

/-!
# Shared subexpressions have their value

Inlining the temporary again gives the statements back (`substVar_substSubtree`), so a sharing is an
inlining read backwards.
-/

namespace Ldu

namespace Expr

variable {target repl best e c : Expr} {nm : String}

/-! ### Occurrences -/

theorem collectSubsList_eq (es : List Expr) : collectSubsList es = es.flatMap collectSubs := by
  induction es with
  | nil => rfl
  | cons e es ih => rw [collectSubsList, ih, List.flatMap_cons]

theorem collectSubs_eq (e : Expr) :
    e.collectSubs = (if e.isInternal then [e] else []) ++ e.children.flatMap collectSubs := by
  cases e <;> simp [collectSubs, children, collectSubsList_eq]

theorem countOccList_eq (es : List Expr) (target : Expr) :
    countOccList es target = (es.map (countOcc · target)).sum := by
  induction es with
  | nil => rfl
  | cons e es ih => rw [countOccList, ih, List.map_cons, List.sum_cons]

theorem countOcc_of_exprEqual (h : e.exprEqual target = true) : e.countOcc target = 1 := by
  rw [countOcc.eq_def, if_pos h]

theorem countOcc_eq (h : e.exprEqual target = false) :
    e.countOcc target = (e.children.map (countOcc · target)).sum := by
  rw [countOcc.eq_def, h]
  cases e <;> simp [children, countOccList_eq, Nat.add_assoc]

theorem substSubtree_of_exprEqual (h : e.exprEqual target = true) :
    e.substSubtree target repl = repl :=
  rewrite_of_some (if_pos h)

theorem substSubtree_eq (h : e.exprEqual target = false) :
    e.substSubtree target repl = e.mapChildren (·.substSubtree target repl) :=
  rewrite_of_none (by rw [h]; rfl)

/-- A node without occurrences, and none below. -/
theorem countOcc_eq_zero_iff :
    e.countOcc target = 0 ↔
      e.exprEqual target = false ∧ ∀ c ∈ e.children, c.countOcc target = 0 := by
  cases heq : e.exprEqual target with
  | true => simp [countOcc_of_exprEqual heq]
  | false => simp [countOcc_eq heq, List.sum_eq_zero_iff]

theorem substSubtree_of_countOcc (h : e.countOcc target = 0) : e.substSubtree target repl = e := by
  induction e using childInduction with
  | h e ih =>
    obtain ⟨heq, hchildren⟩ := countOcc_eq_zero_iff.1 h
    rw [substSubtree_eq heq, mapChildren_eq_self fun c hc ↦ ih c hc (hchildren c hc)]

theorem mem_collectSubs_of_child (hc : c ∈ e.children) {d : Expr} (hd : d ∈ c.collectSubs) :
    d ∈ e.collectSubs := by
  rw [collectSubs_eq]
  exact List.mem_append_right _ (List.mem_flatMap.2 ⟨c, hc, hd⟩)

theorem mem_collectSubs_self (h : e.isInternal = true) : e ∈ e.collectSubs := by
  rw [collectSubs_eq, if_pos h]
  simp

theorem isInternal_of_mem_collectSubs (h : c ∈ e.collectSubs) : c.isInternal = true := by
  induction e using childInduction with
  | h e ih =>
    rw [collectSubs_eq] at h
    rcases List.mem_append.1 h with h | h
    · split at h
      · next hint => exact List.mem_singleton.1 h ▸ hint
      · cases h
    · obtain ⟨d, hd, h⟩ := List.mem_flatMap.1 h
      exact ih d hd h

theorem sizeOf_le_of_mem_collectSubs (h : c ∈ e.collectSubs) : sizeOf c ≤ sizeOf e := by
  induction e using childInduction with
  | h e ih =>
    rw [collectSubs_eq] at h
    rcases List.mem_append.1 h with h | h
    · split at h
      · exact (congrArg sizeOf (List.mem_singleton.1 h)).le
      · cases h
    · obtain ⟨d, hd, h⟩ := List.mem_flatMap.1 h
      exact (ih d hd h).trans (sizeOf_lt_of_mem_children hd).le

/-- What equals an internal node is one. -/
theorem isInternal_of_exprEqual (h : e.exprEqual target = true) (ht : target.isInternal = true) :
    e.isInternal = true := by
  cases e <;> cases target <;> first | rfl | simp [exprEqual] at h; done | cases ht

theorem readsNamedVar_of_mem_collectSubs {n : String} (hc : c ∈ e.collectSubs)
    (h : c.readsNamedVar n = true) : e.readsNamedVar n = true := by
  induction e using childInduction with
  | h e ih =>
    rw [collectSubs_eq] at hc
    rcases List.mem_append.1 hc with hc | hc
    · split at hc
      · exact List.mem_singleton.1 hc ▸ h
      · cases hc
    · obtain ⟨d, hd, hc⟩ := List.mem_flatMap.1 hc
      exact readsNamedVar_of_child hd n (ih d hd hc)

/-- Every occurrence is a subexpression. -/
theorem exists_mem_collectSubs (ht : target.isInternal = true) (h : e.countOcc target ≠ 0) :
    ∃ c ∈ e.collectSubs, c.exprEqual target = true := by
  induction e using childInduction with
  | h e ih =>
    cases heq : e.exprEqual target with
    | true => exact ⟨e, mem_collectSubs_self (isInternal_of_exprEqual heq ht), heq⟩
    | false =>
      rw [Ne, countOcc_eq_zero_iff, not_and] at h
      obtain ⟨c, hc, hocc⟩ : ∃ c ∈ e.children, c.countOcc target ≠ 0 := by simpa using h heq
      obtain ⟨d, hd, hdt⟩ := ih c hc hocc
      exact ⟨d, mem_collectSubs_of_child hc hd, hdt⟩

/-! ### Occurrences replaced by a variable -/

section Replace

variable {ty : Ty}

theorem isVarNamed_mapChildren (f : Expr → Expr) :
    isVarNamed nm (e.mapChildren f) = isVarNamed nm e := by
  cases e <;> rfl

theorem isVarNamed_of_not_reads (h : e.readsNamedVar nm = false) : isVarNamed nm e = false := by
  rw [readsNamedVar, anyNode_eq, Bool.or_eq_false_iff] at h
  exact h.1

/-- Inlining the variable gives the expression back if every occurrence is the expression itself. -/
theorem substVar_substSubtree (ht : best.isInternal = true)
    (hsame : ∀ c ∈ e.collectSubs, c.exprEqual best = true → c = best)
    (hnew : e.readsNamedVar nm = false) :
    (e.substSubtree best (var ty nm)).substVar nm best = e := by
  induction e using childInduction with
  | h e ih =>
    cases heq : e.exprEqual best with
    | true =>
      rw [substSubtree_of_exprEqual heq, substVar_self]
      exact (hsame e (mem_collectSubs_self (isInternal_of_exprEqual heq ht)) heq).symm
    | false =>
      have hmap : ∀ c ∈ e.children, (c.substSubtree best (var ty nm)).substVar nm best = c :=
        fun c hc ↦ ih c hc (fun d hd ↦ hsame d (mem_collectSubs_of_child hc hd))
          (anyNode_child_eq_false hc hnew)
      rw [substSubtree_eq heq, substVar_eq (by
        rw [isVarNamed_mapChildren, isVarNamed_of_not_reads hnew]), mapChildren_mapChildren]
      exact mapChildren_eq_self hmap

theorem readsNamedVar_substSubtree {n : String}
    (h : (e.substSubtree best (var ty nm)).readsNamedVar n = true) :
    e.readsNamedVar n = true ∨ (n = nm ∧ e.countOcc best ≠ 0) := by
  induction e using childInduction with
  | h e ih =>
    cases heq : e.exprEqual best with
    | true =>
      rw [substSubtree_of_exprEqual heq] at h
      have hn : (nm == n) = true := by simpa [readsNamedVar, anyNode, isVarNamed] using h
      exact .inr ⟨(beq_iff_eq.1 hn).symm, by rw [countOcc_of_exprEqual heq]; decide⟩
    | false =>
      rw [substSubtree_eq heq, readsNamedVar, anyNode_eq, isVarNamed_mapChildren,
        children_mapChildren, List.any_map, Bool.or_eq_true, List.any_eq_true] at h
      rcases h with hroot | ⟨c, hc, h⟩
      · left
        rw [readsNamedVar, anyNode_eq, hroot, Bool.true_or]
      · refine (ih c hc h).imp (readsNamedVar_of_child hc n) (And.imp_right fun hocc ↦ ?_)
        rw [Ne, countOcc_eq_zero_iff, not_and]
        exact fun _ hall ↦ hocc (hall c hc)

/-- What a node of the new expression looks like; `ok` is known of the old one. -/
theorem anyNode_substSubtree_eq_false {p : Expr → Bool} (ok : Expr → Prop)
    (hok : ∀ e c : Expr, c ∈ e.children → ok e → ok c) (hvar : p (var ty nm) = false)
    (hroot : ∀ e : Expr, ok e → p (e.mapChildren (·.substSubtree best (var ty nm))) = false)
    (h : ok e) : (e.substSubtree best (var ty nm)).anyNode p = false := by
  induction e using childInduction with
  | h e ih =>
    cases heq : e.exprEqual best with
    | true =>
      rw [substSubtree_of_exprEqual heq, anyNode_eq, hvar]
      rfl
    | false =>
      rw [substSubtree_eq heq, anyNode_eq, hroot e h, children_mapChildren, List.any_map,
        Bool.false_or, List.any_eq_false]
      exact fun c hc ↦ by simpa using ih c hc (hok e c hc h)

theorem hasImpureCall_substSubtree (h : e.hasImpureCall = false) :
    (e.substSubtree best (var ty nm)).hasImpureCall = false := by
  refine anyNode_substSubtree_eq_false (hasImpureCall · = false)
    (fun e c hc ↦ anyNode_child_eq_false hc) rfl (fun e he ↦ ?_) h
  rw [hasImpureCall, anyNode_eq, Bool.or_eq_false_iff] at he
  cases e <;> exact he.1

/-- A node that looks at more than the value of an occurrence below it: it takes its address, or
converts an unsigned integer to floating point. -/
def looksAt (best : Expr) : Expr → Bool
  | addrOf _ a => a.exprEqual best
  | cast t _ a => t.isFloat && !best.ty.isFloat && best.ty.isUnsigned && a.exprEqual best
  | _ => false

/-- The new expression reads the variable of an occurrence, or what was read before. -/
theorem eq_var_of_substSubtree {a : Expr} {t : Ty} {n : String}
    (h : a.substSubtree best (var ty nm) = var t n) :
    a.exprEqual best = true ∧ t = ty ∧ n = nm ∨ a = var t n := by
  cases heq : a.exprEqual best with
  | true =>
    rw [substSubtree_of_exprEqual heq] at h
    obtain ⟨rfl, rfl⟩ := var.inj h
    exact .inl ⟨rfl, rfl, rfl⟩
  | false =>
    rw [substSubtree_eq heq] at h
    right
    cases a <;> first | exact h | cases h

theorem not_isAddrOf_substSubtree (hnew : e.readsNamedVar nm = false)
    (hlooks : e.anyNode (looksAt best) = false) :
    (e.substSubtree best (var ty nm)).anyNode (isAddrOf nm) = false := by
  refine anyNode_substSubtree_eq_false
    (fun e ↦ e.readsNamedVar nm = false ∧ e.anyNode (looksAt best) = false)
    (fun e c hc h ↦ ⟨anyNode_child_eq_false hc h.1, anyNode_child_eq_false hc h.2⟩) rfl
    (fun e ⟨hnew, hlooks⟩ ↦ ?_) ⟨hnew, hlooks⟩
  cases e with
  | addrOf t a =>
    rw [mapChildren]
    cases ha : a.substSubtree best (var ty nm) with
    | var t' n =>
      rw [anyNode_eq, Bool.or_eq_false_iff] at hlooks
      rcases eq_var_of_substSubtree ha with ⟨heq, -, -⟩ | rfl
      · rw [looksAt, heq] at hlooks
        cases hlooks.1
      · exact isVarNamed_of_not_reads
          (anyNode_child_eq_false (c := var t' n) (by simp [children]) hnew)
    | _ => rfl
  | _ => rfl

theorem suits_substSubtree (hfloat : ty.isFloat = best.ty.isFloat) (hsigned : ty.isUnsigned = false)
    (hnew : e.readsNamedVar nm = false) (hlooks : e.anyNode (looksAt best) = false) :
    (e.substSubtree best (var ty nm)).suits nm best.ty = true := by
  unfold suits
  rw [Bool.not_eq_true']
  refine anyNode_substSubtree_eq_false
    (fun e ↦ e.readsNamedVar nm = false ∧ e.anyNode (looksAt best) = false)
    (fun e c hc h ↦ ⟨anyNode_child_eq_false hc h.1, anyNode_child_eq_false hc h.2⟩)
    (by simp [hfloat]) (fun e ⟨hnew, hlooks⟩ ↦ ?_) ⟨hnew, hlooks⟩
  cases e with
  | var t n =>
    have hn : (n == nm) = false := isVarNamed_of_not_reads hnew
    simp [mapChildren, hn]
  | cast t text a =>
    rw [mapChildren]
    cases ha : a.substSubtree best (var ty nm) with
    | var t' n =>
      rw [anyNode_eq, Bool.or_eq_false_iff] at hlooks
      rcases eq_var_of_substSubtree ha with ⟨heq, rfl, rfl⟩ | rfl
      · have hroot := hlooks.1
        rw [looksAt, heq, Bool.and_true] at hroot
        simpa [hsigned] using hroot
      · have hn : (n == nm) = false :=
          isVarNamed_of_not_reads (anyNode_child_eq_false (c := var t' n) (by simp [children]) hnew)
        simp [hn]
    | _ => rfl
  | _ => rfl

/-! ### Occurrences after calls -/

/-- Some occurrence of `target` comes after an impure call, in expressions evaluated one after the
other; those inside one of them are not looked at. -/
def callFirst (target : Expr) : List Expr → Bool
  | [] => false
  | e :: es => (e.hasImpureCall && es.any (0 < ·.countOcc target)) || callFirst target es

/-- Some occurrence of `target` may come after an impure call. -/
def lateOcc (e target : Expr) : Bool :=
  e.anyNode fun
    | ternary _ a b c => callFirst target [a, b] || callFirst target [a, c]
    | e => callFirst target e.children

/-- The same for expressions evaluated one after the other. -/
def lateOccList (target : Expr) (es : List Expr) : Bool :=
  es.any (·.lateOcc target) || callFirst target es

theorem countOcc_pos_of_reads (hnew : e.readsNamedVar nm = false)
    (h : (e.substSubtree best (var ty nm)).readsNamedVar nm = true) : 0 < e.countOcc best := by
  rcases readsNamedVar_substSubtree h with h | ⟨-, h⟩
  · rw [hnew] at h
    cases h
  · exact Nat.pos_of_ne_zero h

/-- Impure calls stay where they are, unless they are in an occurrence. -/
theorem hasImpureCall_of_substSubtree
    (h : (e.substSubtree best (var ty nm)).hasImpureCall = true) : e.hasImpureCall = true := by
  by_contra hne
  rw [Bool.not_eq_true] at hne
  rw [hasImpureCall_substSubtree hne] at h
  cases h

theorem lateReadList_substSubtree {es : List Expr} (hnew : ∀ e ∈ es, e.readsNamedVar nm = false)
    (hlate : ∀ e ∈ es, lateRead nm (e.substSubtree best (var ty nm)) = true →
      e.lateOcc best = true)
    (h : lateReadList nm (es.map (·.substSubtree best (var ty nm))) = true) :
    lateOccList best es = true := by
  induction es with
  | nil => cases h
  | cons e es ih =>
    have hrest := ih (fun c hc ↦ hnew c (by simp [hc])) fun c hc ↦ hlate c (by simp [hc])
    simp only [lateOccList, callFirst, List.any_cons, Bool.or_eq_true, Bool.and_eq_true] at hrest ⊢
    rw [List.map_cons, lateReadList, Bool.or_eq_true, Bool.or_eq_true, Bool.and_eq_true,
      List.any_map] at h
    rcases h with (h | h) | ⟨himp, h⟩
    · exact .inl (.inl (hlate e (by simp) h))
    · exact (hrest h).imp .inr .inr
    · obtain ⟨c, hc, hreads⟩ := List.any_eq_true.1 h
      exact .inr (.inl ⟨hasImpureCall_of_substSubtree himp, List.any_eq_true.2
        ⟨c, hc, decide_eq_true (countOcc_pos_of_reads (hnew c (by simp [hc])) hreads)⟩⟩)

theorem lateOcc_eq (h : ∀ ty a b c, e ≠ ternary ty a b c) :
    e.lateOcc target = lateOccList target e.children := by
  unfold lateOccList lateOcc
  rw [anyNode_eq, Bool.or_comm]
  cases e with
  | ternary ty a b c => exact absurd rfl (h ty a b c)
  | _ => rfl

theorem lateOcc_ternary (t : Ty) (a b c : Expr) :
    (ternary t a b c).lateOcc target =
      (lateOccList target [a, b] || lateOccList target [a, c]) := by
  unfold lateOccList lateOcc
  simp only [anyNode, List.any_cons, List.any_nil]
  grind

theorem lateRead_eq (h : ∀ ty a b c, e ≠ ternary ty a b c) :
    lateRead nm e = lateReadList nm e.children := by
  cases e with
  | ternary ty a b c => exact absurd rfl (h ty a b c)
  | _ => simp [lateRead, lateReadList, children]

theorem lateRead_ternary (t : Ty) (a b c : Expr) :
    lateRead nm (ternary t a b c) = (lateReadList nm [a, b] || lateReadList nm [a, c]) := by
  simp only [lateRead, lateReadList, List.any_cons, List.any_nil]
  grind

theorem lateReadList_of_not_reads {es : List Expr}
    (hlate : ∀ e ∈ es, lateRead nm e = false) (h : ∀ e ∈ es, e.readsNamedVar nm = false) :
    lateReadList nm es = false := by
  induction es with
  | nil => rfl
  | cons e es ih =>
    have hany : es.any (·.readsNamedVar nm) = false :=
      List.any_eq_false.2 fun c hc ↦ by simp [h c (by simp [hc])]
    rw [lateReadList, hlate e (by simp), hany, Bool.and_false,
      ih (fun c hc ↦ hlate c (by simp [hc])) fun c hc ↦ h c (by simp [hc])]
    rfl

theorem lateRead_of_not_reads (h : e.readsNamedVar nm = false) : lateRead nm e = false := by
  induction e using childInduction with
  | h e ih =>
    have hlist : ∀ es : List Expr, (∀ c ∈ es, c ∈ e.children) → lateReadList nm es = false :=
      fun es hes ↦ lateReadList_of_not_reads
        (fun c hc ↦ ih c (hes c hc) (anyNode_child_eq_false (hes c hc) h))
        fun c hc ↦ anyNode_child_eq_false (hes c hc) h
    cases e with
    | ternary t a b c =>
      rw [lateRead_ternary, hlist [a, b] (by simp [children]), hlist [a, c] (by simp [children])]
      rfl
    | _ =>
      rw [lateRead_eq (by simp)]
      exact hlist _ fun _ hc ↦ hc

/-- What comes last and does not read the variable does not count. -/
theorem lateReadList_append {es fs : List Expr} (h : ∀ e ∈ fs, e.readsNamedVar nm = false) :
    lateReadList nm (es ++ fs) = lateReadList nm es := by
  induction es with
  | nil => exact lateReadList_of_not_reads (fun e he ↦ lateRead_of_not_reads (h e he)) h
  | cons e es ih =>
    have hany : fs.any (·.readsNamedVar nm) = false :=
      List.any_eq_false.2 fun c hc ↦ by simp [h c hc]
    rw [List.cons_append, lateReadList, lateReadList, ih, List.any_append, hany, Bool.or_false]

/-- Reads of the variable come late only where occurrences do. -/
theorem lateRead_substSubtree (hnew : e.readsNamedVar nm = false)
    (h : lateRead nm (e.substSubtree best (var ty nm)) = true) : e.lateOcc best = true := by
  induction e using childInduction with
  | h e ih =>
    cases heq : e.exprEqual best with
    | true =>
      rw [substSubtree_of_exprEqual heq] at h
      cases h
    | false =>
      have hlist : ∀ es : List Expr, (∀ c ∈ es, c ∈ e.children) →
          lateReadList nm (es.map (·.substSubtree best (var ty nm))) = true →
          lateOccList best es = true := fun es hes ↦
        lateReadList_substSubtree (fun c hc ↦ anyNode_child_eq_false (hes c hc) hnew)
          fun c hc ↦ ih c (hes c hc) (anyNode_child_eq_false (hes c hc) hnew)
      rw [substSubtree_eq heq] at h
      cases e with
      | ternary t a b c =>
        rw [mapChildren, lateRead_ternary, Bool.or_eq_true] at h
        rw [lateOcc_ternary, Bool.or_eq_true]
        exact h.imp (hlist [a, b] (by simp [children])) (hlist [a, c] (by simp [children]))
      | _ =>
        rw [lateRead_eq (by simp [mapChildren]), children_mapChildren] at h
        rw [lateOcc_eq (by simp)]
        exact hlist _ (fun _ hc ↦ hc) h

theorem readsNamedVar_of_isAddrOf (h : e.anyNode (isAddrOf nm) = true) :
    e.readsNamedVar nm = true := by
  induction e using childInduction with
  | h e ih =>
    rw [anyNode_eq, Bool.or_eq_true, List.any_eq_true] at h
    rcases h with hroot | ⟨c, hc, h⟩
    · cases e with
      | addrOf t a =>
        cases a with
        | var t' n =>
          have hread : (var t' n).readsNamedVar nm = true := by
            simpa [readsNamedVar, anyNode, isVarNamed, isAddrOf] using hroot
          exact readsNamedVar_of_child (by simp [children]) nm hread
        | _ => cases hroot
      | _ => cases hroot
    · exact readsNamedVar_of_child hc nm (ih c hc h)

end Replace

end Expr

/-! ### Statements with occurrences replaced -/

/-- An assignment with its occurrences of `best` replaced by a variable `nm`. -/
def Stmt.shareAs (best : Expr) (ty : Ty) (nm : String) (st : Stmt) : Stmt :=
  st.mapAssign (·.substSubtree best (.var ty nm))

/-- The expressions of an assignment. -/
def Stmt.sharedExprs : Stmt → List Expr
  | assign lhs rhs => [lhs, rhs]
  | _ => []

/-- In the statement, which does not mention `nm`, every occurrence of `best` is `best` itself, only
its value counts, and it is not what is assigned. -/
structure Stmt.Sharable (best : Expr) (nm : String) (st : Stmt) : Prop where
  fresh : ∀ e ∈ st.exprs, e.readsNamedVar nm = false
  typed : ∀ c ∈ st.collectSubs, c.exprEqual best = true → c = best
  looks : ∀ e ∈ st.sharedExprs, e.anyNode (Expr.looksAt best) = false
  place : ∀ lhs rhs, st = .assign lhs rhs → lhs.exprEqual best = false

namespace Stmt.Sharable

variable {best : Expr} {nm : String} {st : Stmt} {ty : Ty} {taken : String → Bool}

/-- The assigned variable or memory cell stays one. -/
theorem shareAs_assign {lhs rhs : Expr} (h : (Stmt.assign lhs rhs).Sharable best nm) :
    (Stmt.assign lhs rhs).shareAs best ty nm =
      .assign (lhs.mapChildren (·.substSubtree best (.var ty nm)))
        (rhs.substSubtree best (.var ty nm)) := by
  rw [Stmt.shareAs, Stmt.mapAssign, Expr.substSubtree_eq (h.place lhs rhs rfl)]

theorem mapExprs_shareAs (h : st.Sharable best nm) (hint : best.isInternal = true) :
    (st.shareAs best ty nm).mapExprs (·.substVar nm best) = st := by
  cases st with
  | assign lhs rhs =>
    have hback : ∀ e : Expr, e ∈ [lhs, rhs] →
        (e.substSubtree best (.var ty nm)).substVar nm best = e := fun e he ↦ by
      refine Expr.substVar_substSubtree hint (fun c hc ↦ h.typed c ?_) (h.fresh e he)
      simp only [List.mem_cons, List.not_mem_nil, or_false] at he
      rcases he with rfl | rfl <;> simp [Stmt.collectSubs, hc]
    rw [Stmt.shareAs, Stmt.mapAssign, Stmt.mapExprs, hback lhs (by simp), hback rhs (by simp)]
  | call rhs =>
    rw [Stmt.shareAs, Stmt.mapAssign, Stmt.mapExprs, Expr.substVar_of_not_reads
      (h.fresh rhs (by simp [Stmt.exprs]))]
    simp
  | comment => rfl

theorem static (h : st.Sharable best nm) (hfloat : ty.isFloat = best.ty.isFloat)
    (hsigned : ty.isUnsigned = false) {e : Expr} (he : e ∈ (st.shareAs best ty nm).exprs) :
    e.suits nm best.ty = true ∧ e.anyNode (Expr.isAddrOf nm) = false := by
  cases st with
  | assign lhs rhs =>
    have hnew : ∀ c : Expr, c ∈ [lhs, rhs] →
        (c.substSubtree best (.var ty nm)).suits nm best.ty = true ∧
          (c.substSubtree best (.var ty nm)).anyNode (Expr.isAddrOf nm) = false := fun c hc ↦
      ⟨Expr.suits_substSubtree hfloat hsigned (h.fresh c hc) (h.looks c hc),
        Expr.not_isAddrOf_substSubtree (h.fresh c hc) (h.looks c hc)⟩
    simp only [Stmt.shareAs, Stmt.mapAssign, Stmt.exprs, List.mem_cons, List.not_mem_nil,
      or_false] at he
    rcases he with rfl | rfl
    · exact hnew lhs (by simp)
    · exact hnew rhs (by simp)
  | call rhs =>
    have hfresh := h.fresh e he
    refine ⟨Expr.suits_of_not_reads hfresh, Bool.eq_false_iff.2 fun haddr ↦ ?_⟩
    rw [Expr.readsNamedVar_of_isAddrOf haddr] at hfresh
    cases hfresh
  | comment => cases he

theorem defOf_shareAs (h : st.Sharable best nm) : (st.shareAs best ty nm).defOf nm = none := by
  cases st with
  | assign lhs rhs =>
    rw [h.shareAs_assign]
    cases lhs with
    | var t x =>
      have hx : (x == nm) = false := Expr.isVarNamed_of_not_reads (e := .var t x)
        (h.fresh _ (by simp [Stmt.exprs]))
      rw [beq_eq_false_iff_ne] at hx
      exact if_neg hx
    | _ => rfl
  | call | comment => rfl

theorem assigns_shareAs (h : st.Sharable best nm) (n : String) :
    (st.shareAs best ty nm).assigns n = st.assigns n := by
  cases st with
  | assign lhs rhs =>
    rw [h.shareAs_assign]
    cases lhs with
    | var t x =>
      simp only [Expr.mapChildren, Stmt.assigns, Stmt.defOf]
      split <;> rfl
    | _ => rfl
  | call | comment => rfl

/-- The new statement reads the variable where the old one has an occurrence. -/
theorem reads_shareAs (h : st.Sharable best nm) (hreads : (st.shareAs best ty nm).reads nm = true) :
    0 < st.countOcc best := by
  cases st with
  | assign lhs rhs =>
    obtain ⟨e, he, hread⟩ : ∃ e ∈ [lhs, rhs],
        (e.substSubtree best (.var ty nm)).readsNamedVar nm = true := by
      cases hlhs : lhs.substSubtree best (.var ty nm) with
      | var =>
        rw [Stmt.shareAs, Stmt.mapAssign, hlhs, Stmt.reads] at hreads
        exact ⟨rhs, by simp, hreads⟩
      | _ =>
        rw [Stmt.shareAs, Stmt.mapAssign, hlhs] at hreads
        simpa [Stmt.reads, Stmt.exprs, hlhs] using hreads
    have hocc := Expr.countOcc_pos_of_reads (h.fresh e he) hread
    simp only [List.mem_cons, List.not_mem_nil, or_false] at he
    rw [Stmt.countOcc]
    rcases he with rfl | rfl <;> omega
  | call rhs =>
    have hfresh := h.fresh rhs (by simp [Stmt.exprs])
    simp [Stmt.shareAs, Stmt.mapAssign, Stmt.reads, Stmt.exprs, hfresh] at hreads
  | comment => cases hreads

/-- The operands are replaced one by one. -/
theorem operands_shareAs {lhs rhs : Expr} (h : (Stmt.assign lhs rhs).Sharable best nm) :
    ((Stmt.assign lhs rhs).shareAs best ty nm).operands =
      (Stmt.assign lhs rhs).operands.map (·.substSubtree best (.var ty nm)) := by
  have hlhs : lhs.substSubtree best (.var ty nm) = lhs.mapChildren _ :=
    Expr.substSubtree_eq (h.place lhs rhs rfl)
  rw [Stmt.shareAs, Stmt.mapAssign, hlhs]
  cases lhs with
  | var | mem => rfl
  | _ =>
    simp only [Expr.mapChildren, Stmt.operands, List.map_cons, List.map_nil]
    rw [hlhs]
    rfl

/-- The variable is read after a call where an occurrence comes after one. -/
theorem lateRead_shareAs (h : st.Sharable best nm)
    (hreads : (st.shareAs best ty nm).reads nm = true)
    (hlate : Expr.lateOccList best st.operands = false) :
    Expr.lateReadList nm (st.shareAs best ty nm).operands = false := by
  cases st with
  | assign lhs rhs =>
    rw [h.operands_shareAs, Bool.eq_false_iff]
    intro hread
    have hnew : ∀ e ∈ (Stmt.assign lhs rhs).operands, e.readsNamedVar nm = false := fun e he ↦
      World.static_of_mem_operands (p := (Expr.readsNamedVar · nm = false))
        (fun a e ha ↦ Expr.anyNode_child_eq_false ha) h.fresh he
    rw [Expr.lateReadList_substSubtree hnew
      (fun e he ↦ Expr.lateRead_substSubtree (hnew e he)) hread] at hlate
    cases hlate
  | call | comment =>
    have hocc := h.reads_shareAs hreads
    cases hocc

theorem leavesMem_shareAs (h : st.Sharable best nm) (hmem : st.leavesMem taken = true) :
    (st.shareAs best ty nm).leavesMem taken = true := by
  cases st with
  | assign lhs rhs =>
    have hrhs : ∀ e : Expr, (!e.hasImpureCall) = true →
        (!(e.substSubtree best (.var ty nm)).hasImpureCall) = true := fun e he ↦ by
      rw [Bool.not_eq_true'] at he ⊢
      exact Expr.hasImpureCall_substSubtree he
    have hlhs : lhs.substSubtree best (.var ty nm) = lhs.mapChildren _ :=
    Expr.substSubtree_eq (h.place lhs rhs rfl)
    rw [Stmt.shareAs, Stmt.mapAssign, hlhs]
    cases lhs with
    | var t x =>
      simp only [Stmt.leavesMem, Bool.and_eq_true, Expr.mapChildren] at hmem ⊢
      exact ⟨hrhs rhs hmem.1, hmem.2⟩
    | mem => cases hmem
    | _ =>
      simp only [Stmt.leavesMem, Bool.and_eq_true, Expr.mapChildren] at hmem ⊢
      have hl := hrhs _ hmem.1
      rw [hlhs] at hl
      exact ⟨hl, hrhs rhs hmem.2⟩
  | call | comment => exact hmem

end Stmt.Sharable

/-! ### What the pass checks -/

theorem mem_termExprs_of_sharedTerm {b : Block} {e : Expr} (he : e ∈ b.sharedTerm) :
    e ∈ b.termExprs := by
  simp only [Block.sharedTerm, Block.termExprs, List.mem_append] at he ⊢
  tauto

/-- The subexpression is shared in block `b`. -/
structure Sharing.Checked (b : Block) (x : Sharing) : Prop where
  block : x.before[x.block]? = some b
  call : x.best.hasCall = false
  mem : x.best ∈ b.collectSubs
  first : b.stmts.findIdx? (0 < ·.countOcc x.best) = some x.first
  window : ∀ last, lastIdx (0 < Stmt.countOcc x.best ·) b.stmts = some last →
    (b.shareWindow x.first last).any (·.assignsLeaf x.best) = false ∧
      (x.best.readsMem = true → (b.shareWindow x.first last).all (·.storesThrough x.best) = true)

section Checks

variable {b : Block} {sub : Expr}

theorem of_shareSite {first cnt : ℕ} (h : b.shareSite sub = some (first, cnt)) :
    b.stmts.findIdx? (0 < ·.countOcc sub) = some first ∧
      ∀ last, lastIdx (0 < Stmt.countOcc sub ·) b.stmts = some last →
        (b.shareWindow first last).any (·.assignsLeaf sub) = false ∧
          (sub.readsMem = true → (b.shareWindow first last).all (·.storesThrough sub) = true) := by
  unfold Block.shareSite at h
  split at h
  · next first' last' hfirst hlast =>
    dsimp only at h
    split at h
    · next hc =>
      obtain ⟨rfl, -⟩ := Prod.mk.inj (Option.some.inj h)
      refine ⟨hfirst, fun last hl ↦ ?_⟩
      obtain rfl : last' = last := Option.some.inj (hlast.symm.trans hl)
      simp only [Bool.and_eq_true, Bool.or_eq_true, Bool.not_eq_true'] at hc
      refine ⟨hc.1.2, fun hmem ↦ hc.2.resolve_left ?_⟩
      rw [hmem]
      decide
    · cases h
  · cases h

/-- What is known of the subexpression picked so far. -/
def Shared.Ok (b : Block) (p : Shared) : Prop :=
  p.sub ∈ b.collectSubs ∧ p.sub.hasCall = false ∧ ∃ cnt, b.shareSite p.sub = some (p.first, cnt)

theorem pickStep_ok {acc : List Expr × Option Shared} (hsub : sub ∈ b.collectSubs)
    (h : ∀ p, acc.2 = some p → p.Ok b) {p : Shared} (hp : (pickStep b acc sub).2 = some p) :
    p.Ok b := by
  unfold pickStep at hp
  dsimp only at hp
  split at hp
  · exact h p hp
  · next hsize =>
    have hcall : sub.hasCall = false := by simp only [Bool.or_eq_true] at hsize; simp_all
    split at hp
    · exact h p hp
    · split at hp
      · exact h p hp
      · next first cnt hsite _ =>
        obtain rfl := Option.some.inj hp
        exact ⟨hsub, hcall, cnt, hsite⟩
      · next first cnt q hsite hq =>
        split at hp
        · obtain rfl := Option.some.inj hp
          exact ⟨hsub, hcall, cnt, hsite⟩
        · exact h p hp

theorem pickShared_ok {p : Shared} (h : pickShared b = some p) : p.Ok b := by
  have hall := List.foldlRecOn (motive := fun acc : List Expr × Option Shared ↦
    ∀ p, acc.2 = some p → p.Ok b) b.collectSubs (pickStep b) (b := ([], none))
    (fun _ h ↦ by cases h) fun acc hacc sub hsub p hp ↦ pickStep_ok hsub hacc hp
  exact hall p h

theorem exists_of_mem_blockSubs (h : sub ∈ b.collectSubs) :
    ∃ e ∈ b.exprs, sub ∈ e.collectSubs := by
  unfold Block.collectSubs at h
  rcases List.mem_append.1 h with h | h
  · obtain ⟨st, hst, h⟩ := List.mem_flatMap.1 h
    have hexprs : ∀ e ∈ st.exprs, e ∈ b.exprs := fun e he ↦
      List.mem_append_left _ (List.mem_flatMap.2 ⟨st, hst, he⟩)
    cases st with
    | assign lhs rhs =>
      rcases List.mem_append.1 h with h | h
      · exact ⟨rhs, hexprs rhs (by simp [Stmt.exprs]), h⟩
      · exact ⟨lhs, hexprs lhs (by simp [Stmt.exprs]), h⟩
    | call | comment => cases h
  · obtain ⟨e, he, h⟩ := List.mem_flatMap.1 h
    exact ⟨e, List.mem_append_right _ (mem_termExprs_of_sharedTerm he), h⟩

theorem lastIdx_eq_none {α : Type*} {p : α → Bool} {l : List α} (h : lastIdx p l = none) :
    l.any p = false := by
  induction l with
  | nil => rfl
  | cons a l ih =>
    rw [lastIdx] at h
    split at h
    · cases h
    · next hnone =>
      rw [List.any_cons, ih hnone, Bool.or_false]
      simpa using h

theorem length_lt_lastIdx {α : Type*} {p : α → Bool} {a : α} {before after : List α} {last : ℕ}
    (hlast : lastIdx p (before ++ a :: after) = some last) (hafter : after.any p = true) :
    before.length < last := by
  induction before generalizing last with
  | nil =>
    rw [List.nil_append, lastIdx] at hlast
    split at hlast
    · obtain rfl := Option.some.inj hlast
      simp
    · next hnone =>
      rw [lastIdx_eq_none hnone] at hafter
      cases hafter
  | cons c before ih =>
    rw [List.cons_append, lastIdx] at hlast
    split at hlast
    · next j hj =>
      obtain rfl := Option.some.inj hlast
      simpa using ih hj
    · next hnone =>
      have hany := lastIdx_eq_none hnone
      rw [List.any_append, List.any_cons, hafter] at hany
      simp at hany

theorem length_le_lastIdx {α : Type*} {p : α → Bool} {a : α} {before after : List α} {last : ℕ}
    (hlast : lastIdx p (before ++ a :: after) = some last) (ha : p a = true) :
    before.length ≤ last := by
  induction before generalizing last with
  | nil => exact Nat.zero_le _
  | cons c before ih =>
    rw [List.cons_append, lastIdx] at hlast
    split at hlast
    · next j hj =>
      obtain rfl := Option.some.inj hlast
      simpa using ih hj
    · next hnone =>
      have hany := lastIdx_eq_none hnone
      rw [List.any_append, List.any_cons, ha] at hany
      simp at hany

/-- The statements with an occurrence. -/
theorem mem_shareWindow_of_occurs {p : Stmt → Bool} {st : Stmt} {first : ℕ}
    (hfirst : b.stmts.findIdx? p = some first) (hst : st ∈ b.stmts) (hp : p st = true) :
    ∃ last, lastIdx p b.stmts = some last ∧ st ∈ b.shareWindow first last := by
  obtain ⟨i, hi⟩ := List.mem_iff_getElem?.1 hst
  have hsplit := eq_take_append_cons hi
  obtain ⟨hlt, rfl⟩ := List.getElem?_eq_some_iff.1 hi
  cases hlast : lastIdx p b.stmts with
  | none =>
    have hany := List.any_eq_false.1 (lastIdx_eq_none hlast) _ hst
    rw [hp] at hany
    exact absurd rfl hany
  | some last =>
    have hfi : first ≤ i := by
      by_contra hgt
      have hno := (List.findIdx?_eq_some_iff_getElem.1 hfirst).2.2 i (by omega)
      rw [hp] at hno
      exact hno rfl
    have hil : i ≤ last := by
      rw [hsplit] at hlast
      have := length_le_lastIdx hlast hp
      rwa [List.length_take, min_eq_left hlt.le] at this
    refine ⟨last, rfl, List.mem_of_getElem? (i := i - first) ?_⟩
    rw [Block.shareWindow, List.getElem?_drop, List.getElem?_take_of_lt (by omega),
      Nat.add_sub_cancel' hfi, hi]

/-- The statements with an occurrence after them. -/
theorem mem_shareWindow {p : Stmt → Bool} {before after : List Stmt} {st : Stmt} {first last : ℕ}
    (hlast : lastIdx p b.stmts = some last) (hsplit : b.stmts.drop first = before ++ st :: after)
    (hafter : after.any p = true) : st ∈ b.shareWindow first last := by
  have hstmts : b.stmts = (b.stmts.take first ++ before) ++ st :: after := by
    rw [List.append_assoc, ← hsplit, List.take_append_drop]
  have hlt : first + before.length < last := by
    have hle : first ≤ b.stmts.length := by
      by_contra hgt
      rw [List.drop_eq_nil_of_le (by omega)] at hsplit
      cases before <;> cases hsplit
    rw [hstmts] at hlast
    have := length_lt_lastIdx hlast hafter
    rwa [List.length_append, List.length_take, min_eq_left hle] at this
  have hget : b.stmts[first + before.length]? = some st := by
    rw [← List.getElem?_drop, hsplit, List.getElem?_append_right le_rfl, Nat.sub_self]
    rfl
  refine List.mem_of_getElem? (i := before.length) ?_
  rw [Block.shareWindow, List.getElem?_drop, List.getElem?_take_of_lt (by omega), hget]

end Checks

/-! ### Terminators with occurrences replaced -/

/-- A block with the occurrences of `best` in its terminator replaced. -/
def Block.shareTerm (best : Expr) (ty : Ty) (nm : String) (b : Block) : Block :=
  let f := fun e : Expr ↦ e.substSubtree best (.var ty nm)
  { b with cond := b.cond.map f, retValue := b.retValue.map f, switchVar := b.switchVar.map f }

/-- In the terminator, which does not mention `nm`, every occurrence of `best` is `best` itself, and
only its value counts. -/
structure Block.TermSharable (best : Expr) (nm : String) (b : Block) : Prop where
  fresh : ∀ e ∈ b.termExprs, e.readsNamedVar nm = false
  typed : ∀ e ∈ b.sharedTerm, ∀ c ∈ e.collectSubs, c.exprEqual best = true → c = best
  looks : ∀ e ∈ b.sharedTerm, e.anyNode (Expr.looksAt best) = false

/-- The operands of a terminator besides a tail call, which is not looked at. -/
def Block.sharedOperands (usedReturn : Bool) (b : Block) : List Expr :=
  if b.tailCall.isSome then (b.operands usedReturn).dropLast else b.operands usedReturn

namespace Block.TermSharable

variable {best : Expr} {nm : String} {b : Block} {ty : Ty} {usedReturn : Bool}

theorem mapTerm_shareTerm (h : b.TermSharable best nm) (hint : best.isInternal = true) :
    (b.shareTerm best ty nm).mapTerm (·.substVar nm best) = b := by
  have hback : ∀ o : Option Expr, (∀ e ∈ o.toList, e ∈ b.sharedTerm) →
      (o.map (·.substSubtree best (.var ty nm))).map (·.substVar nm best) = o := by
    intro o ho
    cases o with
    | none => rfl
    | some e =>
      have he := ho e (by simp)
      simp only [Option.map_some, Expr.substVar_substSubtree hint (h.typed e he)
        (h.fresh e (mem_termExprs_of_sharedTerm he))]
  have hkept : ∀ o : Option Expr, (∀ e ∈ o.toList, e ∈ b.termExprs) →
      o.map (·.substVar nm best) = o := by
    intro o ho
    cases o with
    | none => rfl
    | some e => simp only [Option.map_some, Expr.substVar_of_not_reads (h.fresh e (ho e (by simp)))]
  have hcond := hback b.cond fun e he ↦ by simp [Block.sharedTerm] at he ⊢; tauto
  have hret := hback b.retValue fun e he ↦ by simp [Block.sharedTerm] at he ⊢; tauto
  have hsel := hback b.switchVar fun e he ↦ by simp [Block.sharedTerm] at he ⊢; tauto
  have hraw := hkept b.retRaw fun e he ↦ by simp [Block.termExprs] at he ⊢; tauto
  have htail := hkept b.tailCall fun e he ↦ by simp [Block.termExprs] at he ⊢; tauto
  unfold Block.mapTerm Block.mapExprs Block.shareTerm
  dsimp only
  rw [hcond, hret, hsel, hraw, htail]

theorem mem_termExprs_shareTerm {e : Expr} (he : e ∈ (b.shareTerm best ty nm).termExprs) :
    (∃ c ∈ b.sharedTerm, e = c.substSubtree best (.var ty nm)) ∨ e ∈ b.termExprs := by
  simp only [Block.termExprs, Block.shareTerm, List.mem_append, Option.mem_toList,
    Option.map_eq_some_iff, Block.sharedTerm] at he ⊢
  rcases he with (((⟨c, hc, rfl⟩ | ⟨c, hc, rfl⟩) | ⟨c, hc, rfl⟩) | he) | he
  · exact .inl ⟨c, .inl (.inl hc), rfl⟩
  · exact .inl ⟨c, .inr hc, rfl⟩
  · exact .inl ⟨c, .inl (.inr hc), rfl⟩
  · exact .inr (.inl (.inr he))
  · exact .inr (.inr he)

theorem static (h : b.TermSharable best nm) (hfloat : ty.isFloat = best.ty.isFloat)
    (hsigned : ty.isUnsigned = false) {e : Expr} (he : e ∈ (b.shareTerm best ty nm).termExprs) :
    e.suits nm best.ty = true ∧ e.anyNode (Expr.isAddrOf nm) = false := by
  rcases mem_termExprs_shareTerm he with ⟨c, hc, rfl⟩ | he
  · have hfresh := h.fresh c (mem_termExprs_of_sharedTerm hc)
    exact ⟨Expr.suits_substSubtree hfloat hsigned hfresh (h.looks c hc),
      Expr.not_isAddrOf_substSubtree hfresh (h.looks c hc)⟩
  · refine ⟨Expr.suits_of_not_reads (h.fresh e he), Bool.eq_false_iff.2 fun haddr ↦ ?_⟩
    have hfresh := h.fresh e he
    rw [Expr.readsNamedVar_of_isAddrOf haddr] at hfresh
    cases hfresh

theorem termReads_shareTerm (h : b.TermSharable best nm)
    (hreads : (b.shareTerm best ty nm).termReads nm = true) : 0 < b.countTermOcc best := by
  obtain ⟨e, he, hread⟩ : ∃ e ∈ (b.shareTerm best ty nm).termExprs, e.readsNamedVar nm = true := by
    obtain ⟨e, he, hread⟩ := List.any_eq_true.1 hreads
    refine ⟨e, ?_, hread⟩
    simp only [Block.termExprs, List.mem_append] at he ⊢
    tauto
  rcases mem_termExprs_shareTerm he with ⟨c, hc, rfl⟩ | he
  · have hocc := Expr.countOcc_pos_of_reads (h.fresh c (mem_termExprs_of_sharedTerm hc)) hread
    exact hocc.trans_le (List.single_le_sum (by simp) _ (List.mem_map.2 ⟨c, hc, rfl⟩))
  · rw [h.fresh e he] at hread
    cases hread

theorem sharedOperands_fresh (h : b.TermSharable best nm) {e : Expr}
    (he : e ∈ b.sharedOperands usedReturn) : e.readsNamedVar nm = false := by
  have hop : e ∈ b.operands usedReturn := by
    unfold Block.sharedOperands at he
    split at he
    · exact List.dropLast_subset _ he
    · exact he
  rw [Bool.eq_false_iff]
  intro hread
  obtain ⟨c, hc, hread⟩ := List.any_eq_true.1 (World.mem_operands_reads hop hread)
  rw [h.fresh c (by simp only [Block.termExprs, List.mem_append] at hc ⊢; tauto)] at hread
  cases hread

/-- The operands are replaced one by one, besides a tail call. -/
theorem operands_shareTerm (hint : best.isInternal = true) :
    (b.shareTerm best ty nm).operands usedReturn =
      (b.sharedOperands usedReturn).map (·.substSubtree best (.var ty nm)) ++
        b.tailCall.toList := by
  have hconst : ∀ v, (Expr.mkConst v).substSubtree best (.var ty nm) = .mkConst v := by
    intro v
    rw [Expr.substSubtree_eq]
    · rfl
    · cases best <;> first | rfl | cases hint
  have hcond : (b.shareTerm best ty nm).condExpr = b.condExpr.substSubtree best (.var ty nm) := by
    unfold Block.condExpr Block.shareTerm
    cases b.cond <;> simp [hconst]
  have hsel : (b.shareTerm best ty nm).selExpr = b.selExpr.substSubtree best (.var ty nm) := by
    unfold Block.selExpr Block.shareTerm
    cases b.switchVar <;> simp [hconst]
  have hret : ∀ es : List Expr,
      es.map (·.substSubtree best (.var ty nm)) ++
          ((b.shareTerm best ty nm).retText usedReturn).exprs =
        (if b.tailCall.isSome then (es ++ (b.retText usedReturn).exprs).dropLast
          else es ++ (b.retText usedReturn).exprs).map (·.substSubtree best (.var ty nm)) ++
          b.tailCall.toList := by
    intro es
    unfold Block.retText Block.shareTerm
    cases b.tailCall with
    | some c => cases usedReturn <;> simp [RetText.exprs]
    | none =>
      cases usedReturn with
      | false => simp [RetText.exprs]
      | true => cases b.hasRetValue <;> cases b.retValue <;> simp [RetText.exprs]
  have hret₀ := hret []
  have hretc := hret [b.condExpr]
  have hrets := hret [b.selExpr]
  simp only [List.map_cons, List.map_nil, List.cons_append, List.nil_append] at hret₀ hretc hrets
  unfold Block.sharedOperands Block.operands
  rw [hcond, hsel]
  have hends : (b.shareTerm best ty nm).ends = b.ends := rfl
  have hswitch : (b.shareTerm best ty nm).isSwitch = b.isSwitch := rfl
  rw [hends, hswitch]
  cases b.ends <;> cases b.isSwitch <;> first | exact hret₀ | exact hretc | exact hrets

theorem lateRead_shareTerm (h : b.TermSharable best nm) (hint : best.isInternal = true)
    (hlate : Expr.lateOccList best (b.sharedOperands usedReturn) = false) :
    Expr.lateReadList nm ((b.shareTerm best ty nm).operands usedReturn) = false := by
  have htail : ∀ e ∈ b.tailCall.toList, e.readsNamedVar nm = false := fun e he ↦
    h.fresh e (by simp only [Block.termExprs, List.mem_append]; tauto)
  rw [operands_shareTerm hint, Expr.lateReadList_append htail, Bool.eq_false_iff]
  intro hread
  rw [Expr.lateReadList_substSubtree (fun e he ↦ h.sharedOperands_fresh he)
    (fun e he ↦ Expr.lateRead_substSubtree (h.sharedOperands_fresh he)) hread] at hlate
  cases hlate

end Block.TermSharable

/-! ### What the pass does not check -/

/-- Stores to memory. -/
def Stmt.isStore : Stmt → Bool
  | assign (.mem _ _) _ => true
  | _ => false

/-- There is an occurrence in the statements `after` or in the terminator. -/
def Block.occursAfter (best : Expr) (after : List Stmt) (b : Block) : Prop :=
  after.any (0 < ·.countOcc best) = true ∨ 0 < b.countTermOcc best

/-- The text of the block: every occurrence is the shared expression itself, types included, and
only its value counts; the variables it reads are not assigned between the last occurrence in a
statement and one in the terminator; and either the expression does not depend on memory, or the
statements before the last occurrence leave memory alone, stores apart, and no occurrence comes
after a call in its statement or in the terminator. -/
structure Sharing.Text (taken : String → Bool) (usedReturn : Bool) (b : Block) (x : Sharing) :
    Prop where
  typed : ∀ c ∈ b.collectSubs, c.exprEqual x.best = true → c = x.best
  looks : ∀ e ∈ b.stmts.flatMap Stmt.sharedExprs ++ b.sharedTerm,
    e.anyNode (Expr.looksAt x.best) = false
  tail : 0 < b.countTermOcc x.best → ∀ before st after,
    b.stmts.drop x.first = before ++ st :: after →
    after.any (0 < ·.countOcc x.best) = false →
    ∀ n, x.best.readsNamedVar n = true → st.assigns n = false
  memory : x.best.memFree taken = true ∨
    (∀ before st after, b.stmts.drop x.first = before ++ st :: after →
      b.occursAfter x.best after → st.leavesMem taken = true ∨ st.isStore = true) ∧
    (∀ st ∈ b.stmts, 0 < st.countOcc x.best → Expr.lateOccList x.best st.operands = false) ∧
    (0 < b.countTermOcc x.best → Expr.lateOccList x.best (b.sharedOperands usedReturn) = false)

/-- Whenever the block is entered: the declared type of the temporary holds the value of the
expression, and no store before the last occurrence changes that value. -/
def Sharing.Holds {M E : Type} (W : World M E) (decl : String → Val → Val) (x : Sharing)
    (p : ℕ × Store M) : Prop :=
  p.1 = x.block → ∀ b, x.before[x.block]? = some b →
    let s := W.execStmts decl (b.stmts.take x.first) p.2
    decl x.temp (W.eval x.best s).2.1 = (W.eval x.best s).2.1 ∧
      ∀ before st after, b.stmts.drop x.first = before ++ st :: after →
        b.occursAfter x.best after → st.isStore = true →
        W.LeavesValue decl x.best st (W.execStmts decl before s)

/-! ### Sound sharings -/

theorem insertIdx_eq_take_append {α : Type*} {l : List α} {i : ℕ} {a : α} (h : i ≤ l.length) :
    l.insertIdx i a = l.take i ++ a :: l.drop i := by
  induction l generalizing i with
  | nil =>
    obtain rfl : i = 0 := Nat.le_zero.1 h
    rfl
  | cons b l ih =>
    cases i with
    | zero => rfl
    | succ i => rw [List.insertIdx_succ_cons, ih (Nat.le_of_succ_le_succ h)]; rfl

/-- The type of the temporary. -/
def varTy (best : Expr) : Ty :=
  ⟨if best.ty.width = 0 then 8 else best.ty.width, false, best.ty.isFloat⟩

theorem shareAs_of_countOcc {best : Expr} {ty : Ty} {nm : String} {st : Stmt}
    (h : st.countOcc best = 0) : st.shareAs best ty nm = st := by
  cases st with
  | assign lhs rhs =>
    rw [Stmt.countOcc, Nat.add_eq_zero_iff] at h
    rw [Stmt.shareAs, Stmt.mapAssign, Expr.substSubtree_of_countOcc h.1,
      Expr.substSubtree_of_countOcc h.2]
  | call | comment => rfl

/-- A definition before which no occurrence stands. -/
theorem stmts_share {b : Block} {first : ℕ} {best : Expr} {temp : String}
    (hfirst : first ≤ b.stmts.length)
    (hno : ∀ st ∈ b.stmts.take first, st.countOcc best = 0) :
    (b.share first best temp).stmts =
      b.stmts.take first ++ .assign (.var (varTy best) temp) best ::
        (b.stmts.drop first).map (·.shareAs best (varTy best) temp) := by
  have hshare : (b.share first best temp).stmts =
      (b.stmts.map (·.shareAs best (varTy best) temp)).insertIdx first
        (.assign (.var (varTy best) temp) best) := rfl
  have htake : (b.stmts.take first).map (·.shareAs best (varTy best) temp) =
      b.stmts.take first :=
    (List.map_congr_left fun st hst ↦ shareAs_of_countOcc (hno st hst)).trans (List.map_id _)
  rw [hshare, insertIdx_eq_take_append (by simpa using hfirst), ← List.map_take, htake,
    List.map_drop]

/-- A block that does not mention the variable does not read it. -/
theorem reads_fresh {b : Block} {nm : String} (hfresh : b.mentions nm = false) {st : Stmt}
    (hst : st ∈ b.stmts) : st.reads nm = false := by
  rw [Bool.eq_false_iff]
  intro hread
  obtain ⟨e, he, hn⟩ := Stmt.exists_of_reads hread
  rw [mentions_eq_false.1 hfresh e
    (List.mem_append_left _ (List.mem_flatMap.2 ⟨st, hst, he⟩))] at hn
  cases hn

theorem termReads_fresh {b : Block} {nm : String} (hfresh : b.mentions nm = false) :
    b.termReads nm = false := by
  rw [Bool.eq_false_iff]
  intro hread
  obtain ⟨e, he, hn⟩ := List.any_eq_true.1 hread
  rw [mentions_eq_false.1 hfresh e (List.mem_append_right _ (by
    simp only [Block.termExprs, List.mem_append] at he ⊢; tauto))] at hn
  cases hn

/-- A statement that assigns no variable of `sub` leaves the variables that `sub` reads alone. -/
theorem assigns_of_assignsLeaf {sub : Expr} {st : Stmt} {n : String}
    (h : st.assignsLeaf sub = false) (hn : sub.readsNamedVar n = true) : st.assigns n = false := by
  cases hassign : st.assigns n with
  | false => rfl
  | true =>
    obtain ⟨rhs, hrhs⟩ := Option.isSome_iff_exists.1 hassign
    obtain ⟨ty, rfl⟩ := defOf_eq_some hrhs
    rw [Stmt.assignsLeaf, hn] at h
    cases h

theorem map_shareAs_back {best : Expr} {ty : Ty} {nm : String} {sts : List Stmt}
    (hint : best.isInternal = true) (h : ∀ st ∈ sts, st.Sharable best nm) :
    (sts.map (·.shareAs best ty nm)).map (·.mapExprs (·.substVar nm best)) = sts := by
  rw [List.map_map]
  refine (List.map_congr_left fun st hst ↦ ?_).trans (List.map_id _)
  exact (h st hst).mapExprs_shareAs hint

/-- A block with some occurrences replaced, and perhaps the definition, mentions what the old one
does, and the temporary. -/
theorem mentions_of_shareAs {b b' : Block} {best : Expr} {ty : Ty} {nm n : String} (hn : n ≠ nm)
    (hno : b.mentions n = false) (hbest : best.readsNamedVar n = false)
    (hterm : b'.termExprs = (b.shareTerm best ty nm).termExprs)
    (hstmts : ∀ st' ∈ b'.stmts, st' = .assign (.var ty nm) best ∨ st' ∈ b.stmts ∨
      ∃ st ∈ b.stmts, st' = st.shareAs best ty nm) : b'.mentions n = false := by
  have hold := mentions_eq_false.1 hno
  have hsubst : ∀ e ∈ b.exprs, (e.substSubtree best (.var ty nm)).readsNamedVar n = false := by
    intro e he
    rw [Bool.eq_false_iff]
    intro hread
    rcases Expr.readsNamedVar_substSubtree hread with hread | ⟨heq, -⟩
    · rw [hold e he] at hread
      cases hread
    · exact hn heq
  refine mentions_eq_false.2 fun e he ↦ ?_
  rcases List.mem_append.1 he with he | he
  · obtain ⟨st', hst', he⟩ := List.mem_flatMap.1 he
    rcases hstmts st' hst' with rfl | hst' | ⟨st, hst, rfl⟩
    · simp only [Stmt.exprs, List.mem_cons, List.not_mem_nil, or_false] at he
      rcases he with rfl | rfl
      · simpa [Expr.readsNamedVar, Expr.anyNode, Expr.isVarNamed] using hn.symm
      · exact hbest
    · exact hold e (List.mem_append_left _ (List.mem_flatMap.2 ⟨st', hst', he⟩))
    · have hexprs : ∀ c ∈ st.exprs, c ∈ b.exprs := fun c hc ↦
        List.mem_append_left _ (List.mem_flatMap.2 ⟨st, hst, hc⟩)
      cases st with
      | assign lhs rhs =>
        simp only [Stmt.shareAs, Stmt.mapAssign, Stmt.exprs, List.mem_cons, List.not_mem_nil,
          or_false] at he
        rcases he with rfl | rfl
        · exact hsubst lhs (hexprs lhs (by simp [Stmt.exprs]))
        · exact hsubst rhs (hexprs rhs (by simp [Stmt.exprs]))
      | call | comment => exact hold e (hexprs e he)
  · rw [hterm] at he
    rcases Block.TermSharable.mem_termExprs_shareTerm he with ⟨c, hc, rfl⟩ | he
    · exact hsubst c (List.mem_append_right _ (mem_termExprs_of_sharedTerm hc))
    · exact hold e (List.mem_append_right _ he)

theorem Stmt.Sharable.placed_shareAs {best : Expr} {ty : Ty} {nm : String} {st : Stmt}
    (h : st.Sharable best nm) (hplaced : st.placed = true) :
    (st.shareAs best ty nm).placed = true := by
  cases st with
  | assign lhs rhs =>
    rw [h.shareAs_assign]
    cases lhs <;> exact hplaced
  | call | comment => rfl

namespace Sharing.Checked

section Sound

variable {M E : Type} {W : World M E} {decl : String → Val → Val} {taken : String → Bool}
  {usedReturn : Bool} {x : Sharing} {b c : Block} {s t : Store M}

theorem internal (h : x.Checked b) : x.best.isInternal = true := by
  obtain ⟨e, -, he⟩ := exists_of_mem_blockSubs h.mem
  exact Expr.isInternal_of_mem_collectSubs he

theorem best_fresh (h : x.Checked b) {n : String} (hfresh : b.mentions n = false) :
    x.best.readsNamedVar n = false := by
  obtain ⟨e, he, hmem⟩ := exists_of_mem_blockSubs h.mem
  rw [Bool.eq_false_iff]
  intro hn
  have hread := Expr.readsNamedVar_of_mem_collectSubs hmem hn
  rw [mentions_eq_false.1 hfresh e he] at hread
  cases hread

theorem impure (h : x.Checked b) : x.best.hasImpureCall = false :=
  Expr.hasImpureCall_of_hasCall h.call

/-- No occurrence is assigned to. -/
theorem place (h : x.Checked b)
    (htyped : ∀ c ∈ b.collectSubs, c.exprEqual x.best = true → c = x.best)
    (hplaced : ∀ st ∈ b.stmts, st.placed = true) {lhs rhs : Expr}
    (hst : Stmt.assign lhs rhs ∈ b.stmts) : lhs.exprEqual x.best = false := by
  rw [Bool.eq_false_iff]
  intro heq
  have hsub : ∀ c ∈ lhs.collectSubs, c ∈ b.collectSubs := fun c hc ↦
    List.mem_append_left _ (List.mem_flatMap.2 ⟨_, hst, List.mem_append_right _ hc⟩)
  have hint := Expr.isInternal_of_exprEqual heq h.internal
  have hbest : lhs = x.best := htyped lhs (hsub lhs (Expr.mem_collectSubs_self hint)) heq
  cases lhs with
  | mem ty a =>
    have hocc : 0 < (Stmt.assign (.mem ty a) rhs).countOcc x.best := by
      rw [Stmt.countOcc, Expr.countOcc_of_exprEqual heq]
      omega
    obtain ⟨last, hlast, hwin⟩ := mem_shareWindow_of_occurs h.first hst (decide_eq_true hocc)
    have hload : x.best.readsMem = true := by rw [← hbest]; rfl
    have hthrough := List.all_eq_true.1 ((h.window last hlast).2 hload) _ hwin
    -- The load cannot occur in its own address.
    simp only [Stmt.storesThrough, Bool.and_eq_true, decide_eq_true_eq] at hthrough
    obtain ⟨c, hc, hcb⟩ := Expr.exists_mem_collectSubs h.internal hthrough.2.ne'
    have hcbest := htyped c
      (hsub c (Expr.mem_collectSubs_of_child (c := a) (by simp [Expr.children]) hc)) hcb
    have hle := Expr.sizeOf_le_of_mem_collectSubs hc
    have hlt : sizeOf a < sizeOf (Expr.mem ty a) :=
      Expr.sizeOf_lt_of_mem_children (by simp [Expr.children])
    rw [hcbest, ← hbest] at hle
    omega
  | var => cases hint
  | _ => exact absurd (hplaced _ hst) (by simp [Stmt.placed, Expr.isPlace])

theorem sharable (h : x.Checked b) (htext : x.Text taken usedReturn b)
    (hfresh : b.mentions x.temp = false) (hplaced : ∀ st ∈ b.stmts, st.placed = true) {st : Stmt}
    (hst : st ∈ b.stmts) : st.Sharable x.best x.temp where
  fresh e he := mentions_eq_false.1 hfresh e
    (List.mem_append_left _ (List.mem_flatMap.2 ⟨st, hst, he⟩))
  typed c hc := htext.typed c (List.mem_append_left _ (List.mem_flatMap.2 ⟨st, hst, hc⟩))
  looks e he := htext.looks e (List.mem_append_left _ (List.mem_flatMap.2 ⟨st, hst, he⟩))
  place _ _ hassign := h.place htext.typed hplaced (hassign ▸ hst)

theorem termSharable (htext : x.Text taken usedReturn b) (hfresh : b.mentions x.temp = false) :
    b.TermSharable x.best x.temp where
  fresh e he := mentions_eq_false.1 hfresh e (List.mem_append_right _ he)
  typed e he c hc := htext.typed c (List.mem_append_right _ (List.mem_flatMap.2 ⟨e, he, hc⟩))
  looks e he := htext.looks e (List.mem_append_right _ he)

/-- The definition stands before the first statement with an occurrence. -/
theorem share_stmts (h : x.Checked b) :
    (b.share x.first x.best x.temp).stmts =
      b.stmts.take x.first ++ .assign (.var (varTy x.best) x.temp) x.best ::
        (b.stmts.drop x.first).map (·.shareAs x.best (varTy x.best) x.temp) := by
  obtain ⟨hlt, -, hno⟩ := List.findIdx?_eq_some_iff_getElem.1 h.first
  refine stmts_share hlt.le fun st hst ↦ ?_
  obtain ⟨j, hj, rfl⟩ := List.mem_take_iff_getElem.1 hst
  simpa using hno j (by omega)

/-- What the statements after the definition leave of the value. -/
theorem keeps (h : x.Checked b) (htext : x.Text taken usedReturn b) {before after : List Stmt}
    {st : Stmt} (hsplit : b.stmts.drop x.first = before ++ st :: after)
    (hocc : b.occursAfter x.best after) :
    (∀ n, x.best.readsNamedVar n = true → st.assigns n = false) ∧
      (x.best.memFree taken = true ∨ st.leavesMem taken = true ∨ st.isStore = true) := by
  refine ⟨fun n hn ↦ ?_, htext.memory.imp_right fun hmem ↦ hmem.1 before st after hsplit hocc⟩
  cases hafter : after.any (0 < ·.countOcc x.best) with
  | false =>
    exact htext.tail (hocc.resolve_left (by simp [hafter])) before st after hsplit hafter n hn
  | true =>
    obtain ⟨last, hlast⟩ : ∃ last, lastIdx (0 < Stmt.countOcc x.best ·) b.stmts = some last := by
      cases hlast : lastIdx (0 < Stmt.countOcc x.best ·) b.stmts with
      | some last => exact ⟨last, rfl⟩
      | none =>
        obtain ⟨c, hc, hcocc⟩ := List.any_eq_true.1 hafter
        have hmem : c ∈ b.stmts := List.mem_of_mem_drop (i := x.first) (by rw [hsplit]; simp [hc])
        exact absurd hcocc (List.any_eq_false.1 (lastIdx_eq_none hlast) c hmem)
    have hwin := List.any_eq_false.1 (h.window last hlast).1 st
      (mem_shareWindow hlast hsplit hafter)
    exact assigns_of_assignsLeaf (Bool.eq_false_iff.2 hwin) hn

/-- Stores before a block: the temporary is not read before it is assigned. -/
def Rel (nm : String) (vs vt : String → Val) : Prop :=
  ∀ n, n ≠ nm → vt n = vs n

/-- The block with the definition, against the block. -/
theorem inlined_self (h : x.Checked b) (htext : x.Text taken usedReturn b)
    (hfresh : b.mentions x.temp = false) (hplaced : ∀ st ∈ b.stmts, st.placed = true)
    (halias : ∀ n, W.aliased n = true → taken n = true) (htemp : W.aliased x.temp = false)
    (hholds : x.Holds W decl (x.block, s)) (hmem : s.mem = t.mem)
    (hR : Rel x.temp t.vars s.vars) :
    W.Inlined decl x.temp x.best
      (fun t' s' ↦ W.InlinedTerm x.temp x.best usedReturn (b.share x.first x.best x.temp) b t' s' ∧
        ∀ j ∈ (b.share x.first x.best x.temp).targets, Rel x.temp t'.vars s'.vars)
      (b.share x.first x.best x.temp).stmts b.stmts t s := by
  obtain ⟨hdecl, hstores⟩ := hholds rfl b h.block
  have hsharable : ∀ st ∈ b.stmts.drop x.first, st.Sharable x.best x.temp := fun st hst ↦
    h.sharable htext hfresh hplaced (List.mem_of_mem_drop hst)
  have hterm := termSharable htext hfresh
  have hpre : ∀ st ∈ b.stmts.take x.first, ∀ n, st.reads n = true → n ≠ x.temp := by
    rintro st hst n hn rfl
    rw [reads_fresh hfresh (List.mem_of_mem_take hst)] at hn
    cases hn
  have hbest : ∀ n, x.best.readsNamedVar n = true → n ≠ x.temp := by
    rintro n hn rfl
    rw [h.best_fresh hfresh] at hn
    cases hn
  have hagree : AgreeOn W (· ≠ x.temp) t s := agreeOn_ne htemp hmem hR
  have hvalue : (W.eval x.best (W.execStmts decl (b.stmts.take x.first) t)).2.1 =
      (W.eval x.best (W.execStmts decl (b.stmts.take x.first) s)).2.1 := by
    rw [(World.execStmts_agree decl hpre hagree).eval hbest]
  let f : Stmt → Stmt := fun st ↦ st.shareAs x.best (varTy x.best) x.temp
  have hmap : ((b.stmts.drop x.first).map f).map (·.mapExprs (·.substVar x.temp x.best)) =
      b.stmts.drop x.first := map_shareAs_back h.internal hsharable
  have hinl : W.Inlined decl x.temp x.best
      (fun t' s' ↦ W.InlinedTerm x.temp x.best usedReturn (b.share x.first x.best x.temp) b t' s' ∧
        ∀ j ∈ (b.share x.first x.best x.temp).targets, Rel x.temp t'.vars s'.vars)
      (b.stmts.take x.first ++ .assign (.var (varTy x.best) x.temp) x.best ::
        ((b.stmts.drop x.first).map f ++ []))
      (b.stmts.take x.first ++ ([] ++
        (((b.stmts.drop x.first).map f).map (·.mapExprs (·.substVar x.temp x.best)) ++ [])))
      t s := by
    refine World.inlined_def halias htemp h.impure (· ≠ x.temp)
      ((b.share x.first x.best x.temp).termReads x.temp = true) (.inl rfl) (fun _ hn ↦ hn) hpre
      hbest hagree (by rw [hvalue]; exact hdecl)
      (List.forall_mem_map.2 fun st hst ↦ (hsharable st hst).defOf_shareAs)
      (List.forall_mem_map.2 fun st hst e he ↦ (hsharable st hst).static
        (show (varTy x.best).isFloat = _ from rfl) rfl he)
      (List.forall_mem_map.2 fun st hst hread ↦ htext.memory.imp_right fun hmemory ↦
        (hsharable st hst).lateRead_shareAs hread
          (hmemory.2.1 st (List.mem_of_mem_drop hst) ((hsharable st hst).reads_shareAs hread)))
      (fun before' st' after' hsplit hread ↦ ?_) fun t' s' hoff hval hnm ↦ .nil ⟨?_, fun _ _ ↦ ?_⟩
    · obtain ⟨before, rest, hdrop, rfl, hrest⟩ := List.map_eq_append_iff.1 hsplit
      obtain ⟨st, after, rfl, rfl, rfl⟩ := List.map_eq_cons_iff.1 hrest
      have hst : st.Sharable x.best x.temp := hsharable st (by simp [hdrop])
      have hocc : b.occursAfter x.best after := by
        refine hread.imp (fun hread ↦ ?_) hterm.termReads_shareTerm
        obtain ⟨c', hc', hreadc⟩ := List.any_eq_true.1 hread
        obtain ⟨c, hc, rfl⟩ := List.mem_map.1 hc'
        exact List.any_eq_true.2 ⟨c, hc, decide_eq_true
          ((hsharable c (by simp [hdrop, hc])).reads_shareAs hreadc)⟩
      obtain ⟨hinputs, hmemory⟩ := h.keeps htext hdrop hocc
      have hassigns : ∀ n, x.best.readsNamedVar n = true → (f st).assigns n = false := fun n hn ↦
        (hst.assigns_shareAs n).trans (hinputs n hn)
      rcases hmemory with hfree | hleaves | hstore
      · exact .inl ⟨hassigns, .inl hfree⟩
      · exact .inl ⟨hassigns, .inr (hst.leavesMem_shareAs hleaves)⟩
      · right
        have hbefore : (before.map f).map (·.mapExprs (·.substVar x.temp x.best)) = before :=
          map_shareAs_back h.internal fun c hc ↦ hsharable c (by simp [hdrop, hc])
        have hback : (f st).mapExprs (·.substVar x.temp x.best) = st :=
          hst.mapExprs_shareAs h.internal
        rw [hbefore, hback]
        exact hstores before st after hdrop hocc hstore
    · refine .of_value halias h.impure ?_ (fun e he ↦ hterm.static
        (show (varTy x.best).isFloat = _ from rfl) rfl he) (fun hread ↦ ?_) hoff hval
      · have hback : (b.shareTerm x.best (varTy x.best) x.temp).mapTerm
            (·.substVar x.temp x.best) = b := hterm.mapTerm_shareTerm h.internal
        exact congrArg (fun c : Block ↦ { c with stmts := b.stmts }) hback.symm
      · exact htext.memory.imp_right fun hmemory ↦ hterm.lateRead_shareTerm h.internal
          (hmemory.2.2 (hterm.termReads_shareTerm hread))
    · exact fun n hn ↦ hoff.2 n (.inr hn)
  rwa [hmap, List.append_nil, List.append_nil, List.nil_append, List.take_append_drop,
    ← h.share_stmts] at hinl

/-- The other blocks do not mention the temporary. -/
theorem inlined_other (hfresh : c.mentions x.temp = false) (htemp : W.aliased x.temp = false)
    (hmem : s.mem = t.mem) (hR : Rel x.temp t.vars s.vars) :
    W.Inlined decl x.temp x.best
      (fun t' s' ↦ W.InlinedTerm x.temp x.best usedReturn c c t' s' ∧
        ∀ j ∈ c.targets, Rel x.temp t'.vars s'.vars) c.stmts c.stmts t s := by
  refine .of_append_nil <| World.inlined_prefix (L := (· ≠ x.temp)) (fun st hst n hn ↦ ?_)
    (agreeOn_ne htemp hmem hR) fun hoff ↦ .nil ⟨.kept rfl (hoff.mono fun n hn ↦ ?_), fun _ _ ↦ ?_⟩
  · rintro rfl
    rw [reads_fresh hfresh hst] at hn
    cases hn
  · rintro rfl
    rw [termReads_fresh hfresh] at hn
    cases hn
  · exact fun n hn ↦ hoff.2 n (.inr hn)

theorem after_self (h : x.Checked b) :
    x.after[x.block]? = some (b.share x.first x.best x.temp) := by
  rw [Sharing.after, List.getElem?_modify_eq, h.block]
  rfl

theorem after_other {j : ℕ} (hj : j ≠ x.block) : x.after[j]? = x.before[j]? := by
  rw [Sharing.after, List.getElem?_modify_ne _ _ (Ne.symm hj)]

/-- Sharing keeps every value, and the behaviour. -/
theorem sound (h : x.Checked b) {merged : Finset ℕ} {id : ℕ} (htext : x.Text taken usedReturn b)
    (hfresh : ∀ c ∈ x.before, c.mentions x.temp = false)
    (hplaced : ∀ c ∈ x.before, ∀ st ∈ c.stmts, st.placed = true)
    (halias : ∀ n, W.aliased n = true → taken n = true) (htemp : W.aliased x.temp = false)
    (hrun : (graphMachine (W.interp decl) usedReturn merged x.before).Always (x.Holds W decl)
      (id, s)) :
    (graphMachine (W.interp decl) usedReturn merged x.before).SameBehaviour (id, s)
        (graphMachine (W.interp decl) usedReturn merged x.after) (id, s) ∧
      (graphMachine (W.interp decl) usedReturn merged x.before).Together
        (graphMachine (W.interp decl) usedReturn merged x.after)
        (fun p q ↦ W.InlinedAt decl x.temp x.best usedReturn merged x.after x.before q p)
        (id, s) (id, s) := by
  refine World.hoisted_run (R := fun _ ↦ Rel x.temp) htemp h.impure (by simp [Sharing.after])
    (fun j s₁ t₁ c _ hc hholds hmem hR ↦ ?_) (fun _ _ ↦ rfl) hrun
  have hcmem := List.mem_of_getElem? hc
  by_cases hj : j = x.block
  · subst hj
    obtain rfl : b = c := Option.some.inj (h.block.symm.trans hc)
    exact ⟨_, h.after_self, h.inlined_self htext (hfresh _ hcmem) (hplaced _ hcmem) halias htemp
      hholds hmem hR⟩
  · exact ⟨c, by rw [after_other hj, hc], inlined_other (hfresh c hcmem) htemp hmem hR⟩

/-! ### What a sharing keeps -/

theorem exists_of_after {c' : Block} (h : x.Checked b) (hc' : c' ∈ x.after) :
    c' = b.share x.first x.best x.temp ∨ c' ∈ x.before := by
  obtain ⟨j, hj⟩ := List.mem_iff_getElem?.1 hc'
  by_cases hjx : j = x.block
  · subst hjx
    exact .inl (Option.some.inj (hj.symm.trans h.after_self))
  · rw [after_other hjx] at hj
    exact .inr (List.mem_of_getElem? hj)

/-- The new block mentions what the old one does, and the temporary. -/
theorem mentions_share (h : x.Checked b) {n : String} (hn : n ≠ x.temp)
    (hno : b.mentions n = false) : (b.share x.first x.best x.temp).mentions n = false := by
  refine mentions_of_shareAs hn hno (h.best_fresh hno) rfl fun st' hst' ↦ ?_
  rw [h.share_stmts, List.mem_append, List.mem_cons, List.mem_map] at hst'
  rcases hst' with hst' | rfl | ⟨st, hst, rfl⟩
  · exact .inr (.inl (List.mem_of_mem_take hst'))
  · exact .inl rfl
  · exact .inr (.inr ⟨st, List.mem_of_mem_drop hst, rfl⟩)

theorem placed_after (h : x.Checked b) (htext : x.Text taken usedReturn b)
    (hfresh : b.mentions x.temp = false)
    (hplaced : ∀ c ∈ x.before, ∀ st ∈ c.stmts, st.placed = true) :
    ∀ c ∈ x.after, ∀ st ∈ c.stmts, st.placed = true := by
  intro c hc st hst
  have hb := hplaced b (List.mem_of_getElem? h.block)
  rcases h.exists_of_after hc with rfl | hc
  · rw [h.share_stmts, List.mem_append, List.mem_cons, List.mem_map] at hst
    rcases hst with hst | rfl | ⟨st, hst, rfl⟩
    · exact hb st (List.mem_of_mem_take hst)
    · rfl
    · have hmem := List.mem_of_mem_drop hst
      exact (h.sharable htext hfresh hb hmem).placed_shareAs (hb st hmem)
  · exact hplaced c hc st hst

end Sound

end Sharing.Checked

/-! ### The sharings of the pass -/

/-- The sharings `log` lead from `g` to `h`; the temporaries have the numbers above `seq`. -/
inductive ShareSteps : List Block → ℕ → List Sharing → List Block → ℕ → Prop
  | done (g : List Block) (seq : ℕ) : ShareSteps g seq [] g seq
  | share {x : Sharing} {b : Block} {seq seq' : ℕ} {log : List Sharing} {h : List Block}
    (hx : x.Checked b) (htemp : x.temp = tempName (seq + 1))
    (hrest : ShareSteps x.after (seq + 1) log h seq') :
    ShareSteps x.before seq (x :: log) h seq'

namespace ShareSteps

variable {g h k : List Block} {seq seq' seq'' : ℕ} {log log' : List Sharing}

theorem trans (hgh : ShareSteps g seq log h seq') (hhk : ShareSteps h seq' log' k seq'') :
    ShareSteps g seq (log ++ log') k seq'' := by
  induction hgh with
  | done => exact hhk
  | share hx htemp _ ih => exact .share hx htemp (ih hhk)

end ShareSteps

/-- The run so far, from `g`. -/
def ShareRun.Reached (g : List Block) (seq : ℕ) (run : ShareRun) : Prop :=
  ShareSteps g seq run.log run.graph run.tempSeq

section Rounds

variable {g : List Block} {seq : ℕ} {run : ShareRun}

theorem reached_share (h : run.Reached g seq) {k : ℕ} {b : Block} {p : Shared}
    (hb : run.graph[k]? = some b) (hp : pickShared b = some p) : (run.share k p).Reached g seq := by
  obtain ⟨hmem, hcall, cnt, hsite⟩ := pickShared_ok hp
  obtain ⟨hfirst, hwindow⟩ := of_shareSite hsite
  have hx : Sharing.Checked b ⟨run.graph, k, p.first, p.sub, tempName (run.tempSeq + 1)⟩ :=
    ⟨hb, hcall, hmem, hfirst, hwindow⟩
  exact ShareSteps.trans h (.share hx rfl (.done _ _))

theorem reached_rounds (budgetOk : ℕ → Bool) (k n : ℕ) (h : run.Reached g seq) :
    (shareRounds budgetOk k n run).Reached g seq := by
  induction n generalizing run with
  | zero => exact h
  | succ n ih =>
    rw [shareRounds]
    split
    · exact h
    · split
      · exact h
      · next p hp =>
        obtain ⟨b, hb, hp⟩ := Option.bind_eq_some_iff.1 hp
        exact ih (reached_share h hb hp)

/-- The pass is a sequence of sharings. -/
theorem cseCrossStatement_reached (budgetOk : ℕ → ℕ → Bool) (seq : ℕ) (g : List Block) :
    (cseCrossStatement budgetOk seq g).Reached g seq := by
  refine List.foldlRecOn (motive := fun run : ShareRun ↦ run.Reached g seq) _ _ (.done g seq)
    fun run h k _ ↦ ?_
  unfold shareBlock
  split
  · exact h
  · exact reached_rounds _ k 30 h

end Rounds

/-! ### Soundness -/

/-- In each block the temporary is assigned before it is read. -/
def Sharing.DefinedFirst (x : Sharing) : Prop :=
  ∀ b ∈ x.after, readsBefore x.temp b.stmts = false ∧
    (b.termReads x.temp = true → assignsIn x.temp b.stmts = true)

theorem Sharing.Checked.definedFirst {x : Sharing} {b : Block} (h : x.Checked b)
    (hfresh : ∀ c ∈ x.before, c.mentions x.temp = false) : x.DefinedFirst := by
  intro c hc
  have hb := hfresh b (List.mem_of_getElem? h.block)
  rcases h.exists_of_after hc with rfl | hc
  · have hdef : (Stmt.assign (.var (varTy x.best) x.temp) x.best).assigns x.temp = true := by
      simp [Stmt.assigns, Stmt.defOf]
    rw [h.share_stmts]
    refine ⟨readsBefore_append (fun st hst ↦ reads_fresh hb (List.mem_of_mem_take hst)) ?_,
      fun _ ↦ ?_⟩
    · have hreads : (Stmt.assign (.var (varTy x.best) x.temp) x.best).reads x.temp = false :=
        h.best_fresh hb
      rw [readsBefore, hreads, hdef]
      rfl
    · rw [assignsIn, List.any_append, List.any_cons, hdef]
      simp
  · refine ⟨?_, fun hread ↦ ?_⟩
    · rw [← List.append_nil c.stmts]
      exact readsBefore_append (fun st hst ↦ reads_fresh (hfresh c hc) hst) rfl
    · rw [termReads_fresh (hfresh c hc)] at hread
      cases hread

/-- Each occurrence that a sharing replaces has the value that the temporary was assigned, which
happens before in the block. -/
def Sharing.ValuesKept {M E : Type} (W : World M E) (decl : String → Val → Val)
    (usedReturn : Bool) (merged : Finset ℕ) (p : ℕ × Store M) (x : Sharing) : Prop :=
  x.DefinedFirst ∧
    (graphMachine (W.interp decl) usedReturn merged x.before).Together
      (graphMachine (W.interp decl) usedReturn merged x.after)
      (fun p q ↦ W.InlinedAt decl x.temp x.best usedReturn merged x.after x.before q p) p p

theorem ShareSteps.sound {M E : Type} {W : World M E} {decl : String → Val → Val}
    {taken : String → Bool} {usedReturn : Bool} {merged : Finset ℕ} {g h : List Block}
    {seq seq' : ℕ} {log : List Sharing} {id : ℕ} {s : Store M}
    (halias : ∀ n, W.aliased n = true → taken n = true) (hsteps : ShareSteps g seq log h seq')
    (hfresh : FreshAbove seq g) (htemps : ∀ k, seq < k → W.aliased (tempName k) = false)
    (hplaced : ∀ b ∈ g, ∀ st ∈ b.stmts, st.placed = true)
    (htext : ∀ x ∈ log, ∀ b, x.before[x.block]? = some b → x.Text taken usedReturn b)
    (hrun : ∀ x ∈ log, (graphMachine (W.interp decl) usedReturn merged x.before).Always
      (x.Holds W decl) (id, s)) :
    (∀ x ∈ log, x.ValuesKept W decl usedReturn merged (id, s)) ∧
      (graphMachine (W.interp decl) usedReturn merged g).SameBehaviour (id, s)
        (graphMachine (W.interp decl) usedReturn merged h) (id, s) := by
  induction hsteps with
  | done => exact ⟨fun x hx ↦ (List.not_mem_nil hx).elim, .refl _ _⟩
  | @share x b seq seq' log h hx htemp hrest ih =>
    have hb := List.mem_of_getElem? hx.block
    have hfreshx : ∀ c ∈ x.before, c.mentions x.temp = false := fun c hc ↦ by
      rw [htemp]
      exact hfresh (seq + 1) (Nat.lt_succ_self seq) c hc
    have hal : W.aliased x.temp = false := by
      rw [htemp]
      exact htemps (seq + 1) (Nat.lt_succ_self seq)
    have htextx := htext x (by simp) b hx.block
    obtain ⟨hsame, htogether⟩ := hx.sound htextx hfreshx hplaced halias hal (hrun x (by simp))
    have hfresh' : FreshAbove (seq + 1) x.after := by
      intro k hk c hc
      rcases hx.exists_of_after hc with rfl | hc
      · refine hx.mentions_share (fun heq ↦ ?_) (hfresh k (by omega) b hb)
        have := tempName_injective (heq.trans htemp)
        omega
      · exact hfresh k (by omega) c hc
    obtain ⟨hvalues, hrestSame⟩ := ih hfresh' (fun k hk ↦ htemps k (by omega))
      (hx.placed_after htextx (hfreshx b hb) hplaced) (fun y hy ↦ htext y (by simp [hy]))
      fun y hy ↦ hrun y (by simp [hy])
    refine ⟨fun y hy ↦ ?_, hsame.trans hrestSame⟩
    rcases List.mem_cons.1 hy with rfl | hy
    · exact ⟨hx.definedFirst hfreshx, htogether⟩
    · exact hvalues y hy

/-- The address of an unused temporary is not taken. -/
theorem FreshAbove.not_aliased {M E : Type} {W : World M E} {seq k : ℕ} {g : List Block}
    (h : FreshAbove seq g) (halias : ∀ n, W.aliased n = true → addrTaken g n = true)
    (hk : seq < k) : W.aliased (tempName k) = false := by
  rw [Bool.eq_false_iff]
  intro hal
  obtain ⟨b, hb, hany⟩ := List.any_eq_true.1 (halias _ hal)
  obtain ⟨e, he, haddr⟩ := List.any_eq_true.1 hany
  have hread := mentions_eq_false.1 (h k hk b hb) e he
  rw [Expr.readsNamedVar_of_isAddrOf haddr] at hread
  cases hread

/-- **Sharing subexpressions is sound** along the runs in which nothing changes the value of a
shared expression between its first and its last occurrence. The temporaries above `seq` are unused.
-/
theorem cseCrossStatement_sound {M E : Type} (W : World M E) (decl : String → Val → Val)
    (budgetOk : ℕ → ℕ → Bool) (seq : ℕ) (g : List Block) (usedReturn : Bool) (merged : Finset ℕ)
    (id : ℕ) (s : Store M) (halias : ∀ n, W.aliased n = true → addrTaken g n = true)
    (hfresh : FreshAbove seq g) (hplaced : ∀ b ∈ g, ∀ st ∈ b.stmts, st.placed = true)
    (htext : ∀ x ∈ (cseCrossStatement budgetOk seq g).log, ∀ b, x.before[x.block]? = some b →
      x.Text (addrTaken g) usedReturn b)
    (hrun : ∀ x ∈ (cseCrossStatement budgetOk seq g).log,
      (graphMachine (W.interp decl) usedReturn merged x.before).Always (x.Holds W decl) (id, s)) :
    (∀ x ∈ (cseCrossStatement budgetOk seq g).log,
      x.ValuesKept W decl usedReturn merged (id, s)) ∧
    (graphMachine (W.interp decl) usedReturn merged g).SameBehaviour (id, s)
      (graphMachine (W.interp decl) usedReturn merged (cseCrossStatement budgetOk seq g).graph)
      (id, s) :=
  (cseCrossStatement_reached budgetOk seq g).sound halias hfresh
    (fun _ hk ↦ hfresh.not_aliased halias hk) hplaced htext hrun

/-! ### A variable assigned before the terminator -/

/-- `(a1 + 4) * 8` -/
def offset : Expr :=
  .mkBinary .mul (.mkBinary .add (.mkVar "a1") (.mkConst 4) 4) (.mkConst 8) 4

/-- `v1 = (a1 + 4) * 8; a1 = 0; return (a1 + 4) * 8;` -/
def leafReassigned : List Block :=
  [{ stmts := [.assign (.mkVar "v1") offset, .assign (.mkVar "a1") (.mkConst 0)]
     ends := .ret
     hasRetValue := true
     retValue := some offset }]

theorem leafReassigned_shared : (cseCrossStatement (fun _ _ ↦ true) 0 leafReassigned).graph =
    [{ stmts := [.assign (.mkVar "t1") offset, .assign (.mkVar "v1") (.mkVar "t1"),
         .assign (.mkVar "a1") (.mkConst 0)]
       ends := .ret
       hasRetValue := true
       retValue := some (.mkVar "t1") }] :=
  rfl

/-- On entry `a1` holds `1` and the other variables `0`. -/
def offsetStore : Store (Val → Val) :=
  ⟨fun n ↦ if n = "a1" then 1 else 0, fun _ ↦ 0⟩

/-- The value with the old `a1` is returned. -/
theorem leafReassigned_differs :
    ¬ (graphMachine (traceWorld.interp fun _ v ↦ v) true ∅ leafReassigned).SameBehaviour
      (0, offsetStore)
      (graphMachine (traceWorld.interp fun _ v ↦ v) true ∅
        (cseCrossStatement (fun _ _ ↦ true) 0 leafReassigned).graph)
      (0, offsetStore) := by
  intro h
  have hleft : (graphMachine (traceWorld.interp fun _ v ↦ v) true ∅ leafReassigned).Returns
      (0, offsetStore) [] (some (some 32)) := ⟨1, rfl⟩
  obtain ⟨n, hn⟩ := (h.returns_iff _ _).1 hleft
  rw [leafReassigned_shared] at hn
  have hstep : (graphMachine (traceWorld.interp fun _ v ↦ v) true ∅
      [{ stmts := [.assign (.mkVar "t1") offset, .assign (.mkVar "v1") (.mkVar "t1"),
           .assign (.mkVar "a1") (.mkConst 0)]
         ends := .ret
         hasRetValue := true
         retValue := some (.mkVar "t1") }]).step (0, offsetStore) =
      ([], .inr (some (some 40))) := rfl
  cases n with
  | zero => cases hn
  | succ n =>
    rw [Machine.run_succ_of_halt _ hstep] at hn
    have hvalue := Option.some.inj (Option.some.inj (Sum.inr.inj (congrArg Prod.snd hn)))
    exact absurd hvalue (by decide)

/-! ### Occurrences in two statements -/

/-- `v1 = (a1 + 4) * 8; v2 = (a1 + 4) * 8; return;` -/
def twice : List Block :=
  [{ stmts := [.assign (.mkVar "v1") offset, .assign (.mkVar "v2") offset]
     ends := .ret }]

theorem twice_log : (cseCrossStatement (fun _ _ ↦ true) 0 twice).log =
    [⟨twice, 0, 0, offset, "t1"⟩] :=
  rfl

theorem ne_tempName {n : String} (k : ℕ) (h : n.toList.head? ≠ some 't') :
    (n == tempName k) = false := by
  rw [beq_eq_false_iff_ne]
  rintro rfl
  exact h (by simp [tempName])

theorem twice_fresh : FreshAbove 0 twice := by
  intro k _ b hb
  obtain rfl := List.mem_singleton.1 hb
  simp [Block.mentions, Block.exprs, Block.termExprs, Stmt.exprs, offset, Expr.mkVar,
    Expr.mkBinary, Expr.mkConst, Expr.readsNamedVar, Expr.anyNode, Expr.isVarNamed,
    (ne_tempName (n := "a1") k (by decide)), (ne_tempName (n := "v1") k (by decide)),
    (ne_tempName (n := "v2") k (by decide))]

theorem twice_sound :
    (∀ x ∈ (cseCrossStatement (fun _ _ ↦ true) 0 twice).log,
      x.ValuesKept traceWorld (fun _ v ↦ v) false ∅ (0, offsetStore)) ∧
    (graphMachine (traceWorld.interp fun _ v ↦ v) false ∅ twice).SameBehaviour (0, offsetStore)
      (graphMachine (traceWorld.interp fun _ v ↦ v) false ∅
        (cseCrossStatement (fun _ _ ↦ true) 0 twice).graph)
      (0, offsetStore) := by
  refine cseCrossStatement_sound traceWorld (fun _ v ↦ v) (fun _ _ ↦ true) 0 twice false ∅ 0
    offsetStore (fun _ h ↦ absurd h Bool.false_ne_true) twice_fresh
    (by simp [twice, Stmt.placed, Expr.isPlace, Expr.mkVar]) ?_ ?_
  · rw [twice_log]
    intro x hx b hb
    obtain rfl := List.mem_singleton.1 hx
    cases hb
    refine ⟨fun c hc heq ↦ ?_, by decide, fun hterm ↦ absurd hterm (by decide), .inl (by decide)⟩
    have hsub : c ∈ [offset, .mkBinary .add (.mkVar "a1") (.mkConst 4) 4, offset,
        .mkBinary .add (.mkVar "a1") (.mkConst 4) 4] := hc
    simp only [List.mem_cons, List.not_mem_nil, or_false] at hsub
    rcases hsub with rfl | rfl | rfl | rfl
    · rfl
    · exact absurd heq (by decide)
    · rfl
    · exact absurd heq (by decide)
  · rw [twice_log]
    rintro x hx p - - b hb
    obtain rfl := List.mem_singleton.1 hx
    cases hb
    refine ⟨rfl, fun before st after hsplit _ hstore ↦ ?_⟩
    have hmem : st ∈ [Stmt.assign (.mkVar "v1") offset, .assign (.mkVar "v2") offset] := by
      have : st ∈ List.drop 0 [Stmt.assign (.mkVar "v1") offset, .assign (.mkVar "v2") offset] :=
        hsplit ▸ by simp
      exact this
    simp only [List.mem_cons, List.not_mem_nil, or_false] at hmem
    rcases hmem with rfl | rfl <;> cases hstore

end Ldu
