import Ldu.Vars.Coalesce

/-!
# Coalesced locals hold the values of the locals they replace

A renaming merges locals soundly (`Merges`) when no local is live after an assignment to another
one of its class, other than a copy of it. Along a run that reads no merged local before it is
assigned, each merged local that is live and has been assigned has its value under the new name
(`Merged`), so the program and the renamed one run in lockstep. The classes of `coalesce_locals`
merge soundly (`merges_coalesceNames`).
-/

namespace Ldu

/-- The renaming `f` of the locals `uni` merges only locals of one declared type that are never
live together with different values. -/
structure Merges (g : List Block) (uni : List String) (declType : String → String)
    (f : String → String) : Prop where
  fix : ∀ n, n ∉ uni → f n = n
  mem : ∀ n ∈ uni, f n ∈ uni
  type : ∀ n, declType (f n) = declType n
  notTaken : ∀ n ∈ uni, addrTaken g n = false
  apart : ∀ i b pre ty x rhs post, g[i]? = some b →
    b.stmts = pre ++ .assign (.var ty x) rhs :: post →
    ∀ n ∈ uni, n ≠ x → x ∈ uni → f n = f x → LiveThrough post (LiveEnd g i b) n →
    ∃ ty', rhs = .var ty' n

section Sound

variable {M E : Type} {W : World M E} {g : List Block} {uni : List String}
  {declType f : String → String} {conv : String → Val → Val} {L K : String → Prop} {s t : Store M}

/-- The stores before and after renaming. `L` holds of what is live, `K` of what has been
assigned. -/
structure Merged (uni : List String) (f : String → String) (decl : String → Val → Val)
    (L K : String → Prop) (s t : Store M) : Prop where
  mem : t.mem = s.mem
  other : ∀ n, n ∉ uni → t.vars n = s.vars n
  live : ∀ n ∈ uni, L n → K n → t.vars (f n) = s.vars n
  typed : ∀ n, (n ∈ uni → K n) → decl n (s.vars n) = s.vars n

/-- Values have the declared type of the variable. -/
def declOf (declType : String → String) (conv : String → Val → Val) (n : String) : Val → Val :=
  conv (declType n)

theorem Merged.mono {L' K' : String → Prop} {decl : String → Val → Val}
    (h : Merged uni f decl L K s t) (hL : ∀ n, L' n → L n) (hK : ∀ n, K' n → K n) :
    Merged uni f decl L' K' s t :=
  ⟨h.mem, h.other, fun n hn hl hk ↦ h.live n hn (hL n hl) (hK n hk),
    fun n hn ↦ h.typed n fun hu ↦ hK n (hn hu)⟩

/-- An evaluation in the first store and its counterpart in the second leave merged stores. -/
theorem Merged.after {decl : String → Val → Val} {x : Store M} (h : Merged uni f decl L K s t)
    (hx : x.vars = s.vars) : Merged uni f decl L K x ⟨t.vars, x.mem⟩ :=
  ⟨rfl, fun n hn ↦ by rw [hx]; exact h.other n hn,
    fun n hn hl hk ↦ by rw [hx]; exact h.live n hn hl hk,
    fun n hn ↦ by rw [hx]; exact h.typed n hn⟩

theorem Merges.not_aliased (hm : Merges g uni declType f)
    (halias : ∀ n, W.aliased n = true → addrTaken g n = true) {n : String} (h : n ∈ uni) :
    W.aliased n = false := by
  refine Bool.eq_false_iff.2 fun hn ↦ ?_
  have := halias n hn
  rw [hm.notTaken n h] at this
  cases this

theorem Merges.moved (hm : Merges g uni declType f)
    (halias : ∀ n, W.aliased n = true → addrTaken g n = true) (n : String) (h : f n ≠ n) :
    W.aliased n = false ∧ W.aliased (f n) = false := by
  have hn : n ∈ uni := by
    by_contra hn
    exact h (hm.fix n hn)
  exact ⟨hm.not_aliased halias hn, hm.not_aliased halias (hm.mem n hn)⟩

/-- What is read has its value under the new name. -/
theorem Merged.agrees (hm : Merges g uni declType f) {decl : String → Val → Val}
    {p : String → Prop} (h : Merged uni f decl L K s t) (hL : ∀ n, p n → L n)
    (hK : ∀ n ∈ uni, p n → K n) (n : String) (hn : p n) : t.vars (f n) = s.vars n := by
  by_cases hu : n ∈ uni
  · exact h.live n hu (hL n hn) (hK n hu hn)
  · rw [hm.fix n hu]
    exact h.other n hu

/-- Writing a merged variable on both sides. The other members of the class that are live hold the
value that is written. -/
theorem Merged.write (hm : Merges g uni declType f)
    (halias : ∀ n, W.aliased n = true → addrTaken g n = true)
    {decl : String → Val → Val} {x : String} {v : Val}
    (h : Merged uni f decl (fun n ↦ n ≠ x ∧ L n) K s t)
    (hclass : ∀ n ∈ uni, n ≠ x → x ∈ uni → f n = f x → L n → K n → s.vars n = v)
    (hv : decl x v = v) :
    Merged uni f decl L (fun n ↦ K n ∨ n = x) (W.write s x v) (W.write t (f x) v) := by
  by_cases hal : W.aliased x = true
  · have hu : x ∉ uni := fun hu ↦ by rw [hm.not_aliased halias hu] at hal; cases hal
    have hK : ∀ n ∈ uni, K n ∨ n = x → K n :=
      fun n hn hk ↦ hk.resolve_right fun hx ↦ hu (hx ▸ hn)
    rw [hm.fix x hu]
    unfold World.write
    rw [if_pos hal, if_pos hal]
    refine ⟨by simp only [h.mem], h.other, fun n hn hl hk ↦ ?_, fun n hn ↦ ?_⟩
    · exact h.live n hn ⟨fun hx ↦ hu (hx ▸ hn), hl⟩ (hK n hn hk)
    · exact h.typed n fun hn' ↦ hK n hn' (hn hn')
  · have hal' : ¬ W.aliased (f x) = true := by
      by_cases hx : f x = x
      · rwa [hx]
      · rw [(hm.moved halias x hx).2]
        decide
    unfold World.write
    rw [if_neg hal, if_neg hal']
    refine ⟨h.mem, fun n hn ↦ ?_, fun n hn hl hk ↦ ?_, fun n hn ↦ ?_⟩
    · by_cases hx : n = x
      · have hfix : f x = n := by rw [← hx]; exact hm.fix n hn
        rw [hfix, hx]
        simp only [Function.update_self]
      · have hfix : n ≠ f x := by
          rintro rfl
          by_cases hu : x ∈ uni
          · exact hn (hm.mem x hu)
          · exact hx (hm.fix x hu)
        simp only [Function.update_of_ne hx, Function.update_of_ne hfix]
        exact h.other n hn
    · by_cases hx : n = x
      · simp only [hx, Function.update_self]
      · have hk := hk.resolve_right hx
        simp only [Function.update_of_ne hx]
        by_cases hfx : f n = f x
        · rw [hfx, Function.update_self]
          have hu : x ∈ uni := by
            by_contra hu
            rw [hm.fix x hu] at hfx
            exact hu (hfx ▸ hm.mem n hn)
          exact (hclass n hn hx hu hfx hl hk).symm
        · rw [Function.update_of_ne hfx]
          exact h.live n hn ⟨hx, hl⟩ hk
    · by_cases hx : n = x
      · simp only [hx, Function.update_self]
        exact hv
      · simp only [Function.update_of_ne hx]
        exact h.typed n fun hn' ↦ (hn hn').resolve_right hx

/-! ### Statements -/

/-- A renamed statement. -/
theorem Merged.exec (hm : Merges g uni declType f)
    (halias : ∀ n, W.aliased n = true → addrTaken g n = true)
    (hconv : ∀ T v, conv T (conv T v) = conv T v) {st : Stmt}
    (hkeeps : ∀ e ∈ st.exprs, e.KeepsAddrs f) (hreads : ∀ n ∈ uni, W.StmtReads st s n → K n)
    (hapart : ∀ ty x rhs, st = .assign (.var ty x) rhs → ∀ n ∈ uni, n ≠ x → x ∈ uni → f n = f x →
      L n → ∃ ty', rhs = .var ty' n)
    (h : Merged uni f (declOf declType conv)
      (fun n ↦ st.reads n = true ∨ (st.assigns n = false ∧ L n)) K s t) :
    Lockstep (Merged uni f (declOf declType conv) L fun n ↦ K n ∨ st.assigns n = true)
      ((W.interp (declOf declType conv)).exec st s)
      ((W.interp (declOf declType conv)).exec (st.mapExprs (Expr.renameVars f)) t) := by
  have hmoved := hm.moved halias
  unfold World.interp
  dsimp only
  by_cases hdef : ∀ n, st.defOf n = none
  · have hassign : ∀ n, st.assigns n = false := fun n ↦ by rw [Stmt.assigns, hdef n]; rfl
    rw [World.renamedAt_execStmt hmoved _ hdef hkeeps s t h.mem
      fun n hn _ ↦ h.agrees hm (fun n hn ↦ .inl (W.reads_of_stmtReads hn)) hreads n hn]
    refine lockstep_inl (Merged.after (h.mono (fun n hn ↦ .inr ⟨hassign n, hn⟩) fun n hn ↦ ?_)
      ((W.readsOnly_execStmt _ hdef).vars_eq s))
    exact hn.resolve_right (by rw [hassign n]; decide)
  · obtain ⟨x, hx⟩ := not_forall.1 hdef
    obtain ⟨rhs, hx⟩ := Option.ne_none_iff_exists'.1 hx
    obtain ⟨ty, rfl⟩ := defOf_eq_some hx
    have hassigns : ∀ n, (Stmt.assign (.var ty x) rhs).assigns n = decide (x = n) := by
      intro n
      by_cases hn : x = n <;> simp [Stmt.assigns, Stmt.defOf, hn]
    have hreads' : ∀ n ∈ uni, W.Reads rhs s n → K n := fun n hn hr ↦ hreads n hn (.inr hr)
    have heval := W.renamedAt_eval hmoved rhs (hkeeps rhs (by simp [Stmt.exprs])) s t h.mem
      fun n hn _ ↦ h.agrees hm
        (fun n hn ↦ .inl (Stmt.reads_rhs (W.readsNamedVar_of_reads rhs s hn))) hreads' n hn
    have hdecl : declOf declType conv (f x) = declOf declType conv x := by
      unfold declOf
      rw [hm.type]
    rw [Stmt.mapExprs, Expr.renameVars_var, W.execStmt_var, W.execStmt_var, heval, hdecl]
    refine lockstep_inl ?_
    have hbefore : Merged uni f (declOf declType conv) (fun n ↦ n ≠ x ∧ L n) K s t := by
      refine h.mono (fun n hn ↦ .inr ⟨?_, hn.2⟩) fun n hn ↦ hn
      rw [hassigns, decide_eq_false_iff_not]
      exact hn.1.symm
    have hclass : ∀ n ∈ uni, n ≠ x → x ∈ uni → f n = f x → L n → K n →
        (W.eval rhs s).2.2.vars n = declOf declType conv x (W.eval rhs s).2.1 := by
      -- The other live member of the class is the source of the copy.
      intro n hn hne hu hfx hl hk
      obtain ⟨ty', rfl⟩ := hapart ty x rhs rfl n hn hne hu hfx hl
      have htype : declType x = declType n := by rw [← hm.type x, ← hfx, hm.type n]
      have hval : (W.eval (.var ty' n) s).2.1 = s.vars n := by
        rw [World.eval, Effect.get_apply]
        exact if_neg (by rw [hm.not_aliased halias hn]; decide)
      rw [W.eval_vars, hval, declOf, htype]
      exact (h.typed n fun _ ↦ hk).symm
    refine (Merged.write hm halias (hbefore.after (W.eval_vars rhs s)) hclass (hconv _ _)).mono
      (fun n hn ↦ hn) fun n hn ↦ hn.imp_right fun hn ↦ ?_
    rw [hassigns, decide_eq_true_eq] at hn
    exact hn.symm

/-- A copy that has become trivial does nothing. -/
theorem Merged.exec_selfCopy (hm : Merges g uni declType f)
    (hself : ∀ n m, W.aliased n = true →
      W.setLocal m n (declOf declType conv n (W.getLocal m n)) = m)
    {st : Stmt} (hst : (st.mapExprs (Expr.renameVars f)).isSelfCopy = true)
    (hreads : ∀ n ∈ uni, W.StmtReads st s n → K n)
    (h : Merged uni f (declOf declType conv)
      (fun n ↦ st.reads n = true ∨ (st.assigns n = false ∧ L n)) K s t) :
    (W.interp (declOf declType conv)).exec (st.mapExprs (Expr.renameVars f)) t = ([], .inl t) := by
  obtain ⟨ty, x, ty', y, rfl, hxy⟩ : ∃ ty x ty' y,
      st = .assign (.var ty x) (.var ty' y) ∧ f x = f y := by
    cases st with
    | assign lhs rhs =>
      rw [Stmt.mapExprs] at hst
      unfold Stmt.isSelfCopy at hst
      split at hst
      · next ty x ty' y heq =>
        obtain ⟨hl, hr⟩ := Stmt.assign.inj heq
        obtain ⟨a, ha, rfl⟩ := Expr.eq_var_of_renameVars hl
        obtain ⟨b, hb, rfl⟩ := Expr.eq_var_of_renameVars hr
        exact ⟨ty, a, ty', b, by rw [ha, hb], by simpa using hst⟩
      · cases hst
    | call => cases hst
    | comment => cases hst
  have hy : W.StmtReads (.assign (.var ty x) (.var ty' y)) s y := .inr rfl
  have hvar : t.vars (f y) = s.vars y := h.agrees hm
    (fun n hn ↦ .inl (W.reads_of_stmtReads hn)) hreads y hy
  have htyped : declOf declType conv y (s.vars y) = s.vars y := h.typed y fun hu ↦ hreads y hu hy
  have hdecl : declOf declType conv (f y) = declOf declType conv y := by
    unfold declOf
    rw [hm.type]
  have hwrite : W.write t (f y) (declOf declType conv (f y) (W.read t (f y))) = t := by
    unfold World.write World.read
    split
    · next hal => rw [hself _ _ hal]
    · rw [hdecl, hvar, htyped, ← hvar, Function.update_eq_self]
  rw [Stmt.mapExprs, Expr.renameVars_var, Expr.renameVars_var, hxy]
  unfold World.interp
  dsimp only
  rw [W.execStmt_var, World.eval, Effect.get_apply, hwrite]
  rfl

/-- Along the statements of a block no variable of `uni` is read before it is assigned. -/
def World.RunsAssigned (W : World M E) (uni : List String) (decl : String → Val → Val)
    (usedReturn : Bool) (b : Block) : List Stmt → (String → Prop) → Store M → Prop
  | [], K, s => ∀ n ∈ uni, W.TransferReads usedReturn b s n → K n
  | st :: sts, K, s =>
    (∀ n ∈ uni, W.StmtReads st s n → K n) ∧
      W.RunsAssigned uni decl usedReturn b sts (fun n ↦ K n ∨ st.assigns n = true)
        (W.execStmt decl st s).2.2

/-- The statements of a block, renamed, without the copies that have become trivial. -/
theorem Merged.execAll (hm : Merges g uni declType f)
    (halias : ∀ n, W.aliased n = true → addrTaken g n = true)
    (hself : ∀ n m, W.aliased n = true →
      W.setLocal m n (declOf declType conv n (W.getLocal m n)) = m)
    (hconv : ∀ T v, conv T (conv T v) = conv T v) {usedReturn : Bool} {b : Block} {sts : List Stmt}
    (hkeeps : ∀ st ∈ sts, ∀ e ∈ st.exprs, e.KeepsAddrs f)
    (hapart : ∀ pre ty x rhs post, sts = pre ++ .assign (.var ty x) rhs :: post → ∀ n ∈ uni, n ≠ x →
      x ∈ uni → f n = f x → LiveThrough post L n → ∃ ty', rhs = .var ty' n)
    (hreads : W.RunsAssigned uni (declOf declType conv) usedReturn b sts K s)
    (h : Merged uni f (declOf declType conv) (LiveThrough sts L) K s t) :
    Lockstep (fun s t ↦
        Merged uni f (declOf declType conv) L (fun n ↦ K n ∨ assignsIn n sts = true) s t ∧
          ∀ n ∈ uni, W.TransferReads usedReturn b s n → K n ∨ assignsIn n sts = true)
      ((W.interp (declOf declType conv)).execAll sts s)
      ((W.interp (declOf declType conv)).execAll
        ((sts.map (Stmt.mapExprs (Expr.renameVars f))).filter fun st ↦ !st.isSelfCopy) t) := by
  induction sts generalizing K s t with
  | nil =>
    exact lockstep_inl ⟨h.mono (fun n hn ↦ liveThrough_nil.2 hn) fun n hn ↦ hn.resolve_right (by
      simp [assignsIn]), fun n hn hr ↦ .inl (hreads n hn hr)⟩
  | cons st sts ih =>
    have hbefore : Merged uni f (declOf declType conv)
        (fun n ↦ st.reads n = true ∨ (st.assigns n = false ∧ LiveThrough sts L n)) K s t :=
      h.mono (fun n hn ↦ liveThrough_cons.2 hn) fun n hn ↦ hn
    have hexec := hbefore.exec hm halias hconv (hkeeps st (by simp)) hreads.1
      fun ty x rhs hst ↦ hapart [] ty x rhs sts (by rw [hst]; rfl)
    have hrest : ∀ t', Merged uni f (declOf declType conv) (LiveThrough sts L)
        (fun n ↦ K n ∨ st.assigns n = true) (W.execStmt (declOf declType conv) st s).2.2 t' → _ :=
      fun t' h' ↦ @ih _ _ t' (fun st hst ↦ hkeeps st (by simp [hst]))
        (fun pre ty x rhs post hsts ↦
          hapart (st :: pre) ty x rhs post (by rw [hsts, List.cons_append])) hreads.2 h'
    have hassigns : ∀ n, (K n ∨ st.assigns n = true) ∨ assignsIn n sts = true ↔
        K n ∨ assignsIn n (st :: sts) = true := by
      intro n
      simp only [assignsIn, List.any_cons, Bool.or_eq_true, or_assoc]
    simp only [hassigns] at hrest
    rw [List.map_cons]
    cases hcopy : (st.mapExprs (Expr.renameVars f)).isSelfCopy with
    | true =>
      rw [List.filter_cons_of_neg (by simp [hcopy])]
      rw [hbefore.exec_selfCopy hm hself hcopy hreads.1] at hexec
      obtain ⟨s', hs', h'⟩ := hexec.exists_inl_left
      have hstate : s' = (W.execStmt (declOf declType conv) st s).2.2 :=
        (Sum.inl.inj (congrArg Prod.snd hs')).symm
      subst hstate
      rw [Interp.execAll, hs']
      exact hrest t h'
    | false =>
      rw [List.filter_cons_of_pos (by simp [hcopy])]
      refine lockstep_cons hexec fun s' t' hs' h' ↦ ?_
      obtain rfl := Sum.inl.inj hs'
      exact hrest t' h'

/-! ### Terminators -/

theorem condExpr_mapExprs (b : Block) :
    (b.mapExprs (Expr.renameVars f)).condExpr = b.condExpr.renameVars f := by
  unfold Block.condExpr Block.mapExprs
  cases b.cond with
  | none => rfl
  | some e => rfl

theorem selExpr_mapExprs (b : Block) :
    (b.mapExprs (Expr.renameVars f)).selExpr = b.selExpr.renameVars f := by
  unfold Block.selExpr Block.mapExprs
  cases b.switchVar with
  | none => rfl
  | some e => rfl

theorem keepsAddrs_condExpr {b : Block} (h : ∀ e ∈ b.termExprs, e.KeepsAddrs f) :
    b.condExpr.KeepsAddrs f := by
  unfold Block.condExpr
  cases hc : b.cond with
  | none =>
    intro n hn
    cases hn
  | some e => exact h e (by simp [Block.termExprs, hc])

theorem keepsAddrs_selExpr {b : Block} (h : ∀ e ∈ b.termExprs, e.KeepsAddrs f) :
    b.selExpr.KeepsAddrs f := by
  unfold Block.selExpr
  cases hc : b.switchVar with
  | none =>
    intro n hn
    cases hn
  | some e => exact h e (by simp [Block.termExprs, hc])

section Transfer

variable {decl : String → Val → Val} {usedReturn : Bool} {b : Block}

theorem Merged.eval (hm : Merges g uni declType f)
    (halias : ∀ n, W.aliased n = true → addrTaken g n = true) {e : Expr} (hkeeps : e.KeepsAddrs f)
    (hL : ∀ n, e.readsNamedVar n = true → L n) (hreads : ∀ n ∈ uni, W.Reads e s n → K n)
    (h : Merged uni f decl L K s t) :
    W.eval (e.renameVars f) t =
      ((W.eval e s).1, (W.eval e s).2.1, ⟨t.vars, (W.eval e s).2.2.mem⟩) :=
  W.renamedAt_eval (hm.moved halias) e hkeeps s t h.mem fun n hn _ ↦
    h.agrees hm (fun n hn ↦ hL n (W.readsNamedVar_of_reads e s hn)) hreads n hn

/-- A renamed block leaves with the same value. -/
theorem Merged.leave (hm : Merges g uni declType f)
    (halias : ∀ n, W.aliased n = true → addrTaken g n = true)
    (hkeeps : ∀ e ∈ b.termExprs, e.KeepsAddrs f) (hL : ∀ n, b.termReads n = true → L n)
    (hreads : ∀ n ∈ uni, W.LeaveReads (b.retText usedReturn) s n → K n)
    (h : Merged uni f decl L K s t) :
    (W.interp decl).leave ((b.mapExprs (Expr.renameVars f)).retText usedReturn) t =
      (W.interp decl).leave (b.retText usedReturn) s := by
  rw [retText_mapExprs]
  refine leave_mapExprs fun e he ↦ ?_
  have hleave : ∀ n, W.Reads e s n → W.LeaveReads (b.retText usedReturn) s n := by
    intro n hn
    cases hrt : b.retText usedReturn with
    | tailVoid c | tailValue c =>
      rw [hrt] at he
      obtain rfl := List.mem_singleton.1 he
      exact hn
    | void | zero =>
      rw [hrt] at he
      cases he
    | value c =>
      rw [hrt] at he
      obtain rfl := Option.mem_toList.1 he
      exact hn
  rw [W.renamedAt_eval (hm.moved halias) e (hkeeps e (mem_termExprs_of_retText he)) s t h.mem
    fun n hn _ ↦ h.agrees hm (fun n hn ↦ hL n (W.termReads_of_leaveReads (hleave n hn)))
      (fun n hu hn ↦ hreads n hu (hleave n hn)) n hn]
  exact ⟨rfl, rfl⟩

/-- A renamed terminator. -/
theorem Merged.transfer (hm : Merges g uni declType f)
    (halias : ∀ n, W.aliased n = true → addrTaken g n = true)
    (hkeeps : ∀ e ∈ b.termExprs, e.KeepsAddrs f) (hL : ∀ n, b.termReads n = true → L n)
    (hreads : ∀ n ∈ uni, W.TransferReads usedReturn b s n → K n)
    (h : Merged uni f decl L K s t) :
    Lockstep (SameBlock (Merged uni f decl L K)) (transfer (W.interp decl) usedReturn b s)
      (transfer (W.interp decl) usedReturn (b.coalesce f) t) := by
  have hshape : b.SameExits (b.coalesce f) := ⟨rfl, rfl, rfl, rfl, rfl, rfl⟩
  have hleave : ∀ {s t : Store M}, Merged uni f decl L K s t →
      (∀ n ∈ uni, W.LeaveReads (b.retText usedReturn) s n → K n) →
      (W.interp decl).leave ((b.coalesce f).retText usedReturn) t =
        (W.interp decl).leave (b.retText usedReturn) s :=
    fun h hreads ↦ h.leave hm halias hkeeps hL hreads
  have hcond : (b.coalesce f).condExpr = b.condExpr.renameVars f := condExpr_mapExprs b
  have hsel : (b.coalesce f).selExpr = b.selExpr.renameVars f := selExpr_mapExprs b
  unfold World.TransferReads at hreads
  unfold Ldu.transfer
  rw [hshape.ends, hshape.isSwitch]
  cases hends : b.ends <;> cases hsw : b.isSwitch <;> simp only [hends, hsw] at hreads ⊢
  case ret.false | ret.true =>
    unfold leaveBy
    rw [hleave h hreads]
    exact lockstep_inr
  case fall.true | jmp.true | jcc.true =>
    have heval := h.eval hm halias (e := b.selExpr) (keepsAddrs_selExpr hkeeps)
      (fun n hn ↦ hL n (selExpr_reads hn)) fun n hn hr ↦ hreads n hn (.inl hr)
    simp only [World.interp, hsel, heval]
    refine Lockstep.emit (lockstep_goTo _ (h.after (W.eval_vars _ s)) fun hnone ↦ ?_) _
    exact hleave (h.after (W.eval_vars _ s)) fun n hn hr ↦ hreads n hn (.inr ⟨hnone, hr⟩)
  case jcc.false =>
    have heval := h.eval hm halias (e := b.condExpr) (keepsAddrs_condExpr hkeeps)
      (fun n hn ↦ hL n (condExpr_reads hn)) fun n hn hr ↦ hreads n hn (.inl hr)
    simp only [World.interp, hcond, heval]
    refine Lockstep.emit (lockstep_goTo _ (h.after (W.eval_vars _ s)) fun hnone ↦ ?_) _
    exact hleave (h.after (W.eval_vars _ s)) fun n hn hr ↦ hreads n hn (.inr ⟨hnone, hr⟩)
  case jmp.false =>
    exact lockstep_goTo _ h fun hnone ↦ hleave h fun n hn hr ↦ hreads n hn ⟨hnone, hr⟩
  case fall.false =>
    exact lockstep_goTo _ h fun hnone ↦ hleave h fun n hn hr ↦ hreads n hn ⟨hnone, hr⟩

end Transfer

/-! ### Runs -/

/-- The variables assigned so far: block `p.1` is done. -/
def assignedBy (g : List Block) (p : ℕ × Store M) (K : String → Prop) (_ : ℕ × Store M)
    (n : String) : Prop :=
  K n ∨ ∃ b, g[p.1]? = some b ∧ assignsIn n b.stmts = true

/-- In this block the run reads no variable of `uni` before it is assigned. -/
def World.ReadsAssigned (W : World M E) (uni : List String) (decl : String → Val → Val)
    (usedReturn : Bool) (g : List Block) (p : (ℕ × Store M) × (String → Prop)) : Prop :=
  ∀ b, g[p.1.1]? = some b → W.RunsAssigned uni decl usedReturn b b.stmts p.2 p.1.2

/-- The same block, in merged stores. -/
def MergedRel (g : List Block) (uni : List String) (f : String → String)
    (decl : String → Val → Val) (p : (ℕ × Store M) × (String → Prop)) (q : ℕ × Store M) : Prop :=
  q.1 = p.1.1 ∧ Merged uni f decl (LiveStart g p.1.1) p.2 p.1.2 q.2

theorem keepsAddrs_of_mem (hm : Merges g uni declType f) {i : ℕ} {b : Block} {e : Expr}
    (hb : g[i]? = some b) (he : e ∈ b.exprs) : e.KeepsAddrs f := by
  intro n hn
  refine hm.fix n fun hu ↦ ?_
  have htaken : addrTaken g n = true := by
    unfold addrTaken
    rw [List.any_eq_true]
    exact ⟨b, List.mem_of_getElem? hb, List.any_eq_true.2 ⟨e, he, hn⟩⟩
  rw [hm.notTaken n hu] at htaken
  cases htaken

/-- A step before and after the renaming. -/
theorem lockstep_coalesce (usedReturn : Bool) (merged : Finset ℕ) (hm : Merges g uni declType f)
    (halias : ∀ n, W.aliased n = true → addrTaken g n = true)
    (hself : ∀ n m, W.aliased n = true →
      W.setLocal m n (declOf declType conv n (W.getLocal m n)) = m)
    (hconv : ∀ T v, conv T (conv T v) = conv T v)
    (hedges : EdgesListed g) {i : ℕ}
    (hreads : W.ReadsAssigned uni (declOf declType conv) usedReturn g ((i, s), K))
    (h : Merged uni f (declOf declType conv) (LiveStart g i) K s t) :
    Lockstep (MergedRel g uni f (declOf declType conv))
      (((graphMachine (W.interp (declOf declType conv)) usedReturn merged g).withGhost
        (assignedBy g)).step ((i, s), K))
      ((graphMachine (W.interp (declOf declType conv)) usedReturn merged
        (g.map (Block.coalesce f))).step (i, t)) := by
  by_cases hi : i ∈ merged
  · simp only [Machine.withGhost, graphMachine, hi, if_true]
    exact lockstep_inr
  cases hb : g[i]? with
  | none =>
    simp only [Machine.withGhost, graphMachine, hi, if_false, hb, List.getElem?_map,
      Option.map_none]
    exact lockstep_inr
  | some b =>
    have hb' : (g.map (Block.coalesce f))[i]? = some (b.coalesce f) := by
      rw [List.getElem?_map, hb]
      rfl
    have hkeeps : ∀ e ∈ b.exprs, e.KeepsAddrs f := fun e he ↦ keepsAddrs_of_mem hm hb he
    have hstmts := Merged.execAll hm halias hself hconv
      (fun st hst e he ↦ hkeeps e (List.mem_append_left _ (List.mem_flatMap.2 ⟨st, hst, he⟩)))
      (fun pre ty x rhs post hpre ↦ hm.apart i b pre ty x rhs post hb hpre) (hreads b hb)
      (h.mono (fun n hn ↦ ⟨b, hb, hn⟩) fun n hn ↦ hn)
    have hblock : Lockstep (SameBlock (Merged uni f (declOf declType conv) (LiveEnd g i b)
        fun n ↦ K n ∨ assignsIn n b.stmts = true))
        (runBlock (W.interp (declOf declType conv)) usedReturn b s)
        (runBlock (W.interp (declOf declType conv)) usedReturn (b.coalesce f) t) :=
      lockstep_runBlock hstmts fun s' t' _ h' ↦ Merged.transfer hm halias
        (fun e he ↦ hkeeps e (List.mem_append_right _ he)) (fun n hn ↦ .inl hn) h'.2 h'.1
    have hstep := graphMachine_step (W.interp (declOf declType conv)) usedReturn hi hb s
    rw [graphMachine_step _ _ hi hb']
    rcases hrun : runBlock (W.interp (declOf declType conv)) usedReturn b s with ⟨es, ⟨j, s'⟩ | r⟩
    · rw [hrun] at hstep hblock
      rw [Machine.withGhost_step hstep]
      obtain ⟨⟨j', t'⟩, ht', ⟨hj, h'⟩⟩ := hblock.exists_inl
      rw [ht']
      refine lockstep_inl ⟨hj, h'.mono ?_ ?_⟩
      · rintro n ⟨c, hc, hn⟩
        obtain ⟨hlt, -⟩ := List.getElem?_eq_some_iff.1 hc
        exact liveEnd_of_succ hb (hedges i b hb j (mem_targets_of_runBlock hrun) hlt) hc hn
      · rintro n (hn | ⟨c, hc, hn⟩)
        · exact .inl hn
        · obtain rfl := Option.some.inj (hc.symm.trans hb)
          exact .inr hn
    · rw [hrun] at hstep hblock
      rw [Machine.withGhost_halt hstep]
      rw [hblock.eq_inr]
      exact lockstep_inr

/-- A renaming that merges locals soundly changes no behaviour, on the runs that read no merged
local before it is assigned. -/
theorem Merges.sameBehaviour (hm : Merges g uni declType f)
    (halias : ∀ n, W.aliased n = true → addrTaken g n = true)
    (hself : ∀ n m, W.aliased n = true →
      W.setLocal m n (declOf declType conv n (W.getLocal m n)) = m)
    (hconv : ∀ T v, conv T (conv T v) = conv T v) (hedges : EdgesListed g) (usedReturn : Bool)
    (merged : Finset ℕ) (id : ℕ) (htyped : ∀ n, declOf declType conv n (s.vars n) = s.vars n)
    (hrun : ((graphMachine (W.interp (declOf declType conv)) usedReturn merged g).withGhost
      (assignedBy g)).Always (W.ReadsAssigned uni (declOf declType conv) usedReturn g)
      ((id, s), fun _ ↦ False)) :
    (graphMachine (W.interp (declOf declType conv)) usedReturn merged g).SameBehaviour (id, s)
      (graphMachine (W.interp (declOf declType conv)) usedReturn merged
        (g.map (Block.coalesce f))) (id, s) := by
  refine (Machine.withGhost_sameBehaviour _ (assignedBy g) (id, s) fun _ ↦ False).symm.trans ?_
  refine Machine.Simulation.sameBehaviour_of_always
    (Q := MergedRel g uni f (declOf declType conv)) ?_ ⟨rfl, ?_⟩ hrun
  · rintro ⟨⟨i, s⟩, K⟩ ⟨j, t⟩ ⟨rfl, h⟩ halways
    exact matches_of_lockstep
      (lockstep_coalesce usedReturn merged hm halias hself hconv hedges halways.now h)
  · exact ⟨rfl, fun _ _ ↦ rfl, fun _ _ _ h ↦ h.elim, fun n _ ↦ htyped n⟩

end Sound

/-! ### The classes of the pass -/

/-- The classes of the pass merge soundly. -/
theorem merges_coalesceNames (info : VarInfo) (declType : String → String) (g : List Block) :
    Merges g (copyLocals info declType g) declType (coalesceNames info declType g) := by
  have hok : ClassesOk (copyLocals info declType g) (adjEdges g (copyLocals info declType g))
      declType (classes (copyLocals info declType g) (adjEdges g (copyLocals info declType g))
        (copyCandidates info declType g)) := by
    refine classesOk_foldl ⟨?_, ?_⟩ fun c hc ↦ ?_
    · rintro a - b - rfl
      rfl
    · rintro a - b - rfl
      exact interferes_self
    · exact ⟨mem_copyLocals.2 ⟨c, hc, .inl rfl⟩, mem_copyLocals.2 ⟨c, hc, .inr rfl⟩,
        (of_mem_copyCandidates hc).2.2⟩
  have hfix : ∀ n, n ∉ copyLocals info declType g → coalesceNames info declType g n = n := by
    intro n hn
    unfold coalesceNames canon
    exact if_neg (by simpa using hn)
  refine ⟨hfix, fun n hn ↦ (canon_spec hn).1, fun n ↦ ?_, fun n ↦ copyLocals_not_taken, ?_⟩
  · by_cases hn : n ∈ copyLocals info declType g
    · exact hok.type _ (canon_spec hn).1 n hn (canon_spec hn).2
    · rw [hfix n hn]
  · intro i b pre ty x rhs post hb hstmts n hn hne hx hnames hlive
    by_contra hcopy
    have hedge : (x, n) ∈ adjEdges g (copyLocals info declType g) := by
      refine mem_adjEdges.2 ⟨i, b, hb, ?_⟩
      unfold blockEdges
      rw [hstmts]
      exact mem_stmtEdges hx hne (fun ty' hrhs ↦ hcopy ⟨ty', hrhs⟩)
        (mem_liveStmts_of_liveThrough hn hlive)
    have hroot := (canon_spec hn).2.symm.trans ((congrArg _ hnames).trans (canon_spec hx).2)
    have hint := hok.apart n hn x hx hroot
    simp [interferes, hedge] at hint

/-- `v1 = 1; t2 = v1; return t2;` -/
def copied : List Block :=
  [{ stmts := [.assign (.mkVar "v1") (.mkConst 1), .assign (.mkVar "t2") (.mkVar "v1")]
     ends := .ret
     hasRetValue := true
     retValue := some (.mkVar "t2") }]

example : (coalesceLocals {} (fun _ ↦ "int") copied).2 =
    [{ stmts := [.assign (.mkVar "v1") (.mkConst 1)]
       ends := .ret
       hasRetValue := true
       retValue := some (.mkVar "v1") }] :=
  rfl

theorem copied_readsAssigned (uni : List String) (s : Store (Val → Val)) :
    traceWorld.ReadsAssigned uni (declOf (fun _ ↦ "int") fun _ v ↦ v) true copied
      ((0, s), fun _ ↦ False) := by
  rintro b ⟨rfl⟩
  refine ⟨fun n _ h ↦ ?_, fun n _ h ↦ ?_, fun n _ h ↦ ?_⟩
  · rcases h with h | h <;> exact h.elim
  · obtain h | rfl : False ∨ n = "v1" := h
    · exact h.elim
    · exact .inr rfl
  · obtain rfl : n = "t2" := h
    exact .inr rfl

end Ldu
