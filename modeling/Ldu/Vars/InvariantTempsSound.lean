import Ldu.Cfg.Dominance
import Ldu.Vars.InvariantTemps

/-!
# Invariant temporaries have their value

A read of an invariant temporary that its definition dominates finds the value of the definition.
The pass compares blocks only, so reads that stand before the definition in its own block are left
over: there the temporary may still hold what it held on entry (`Inlining.InvariantAt`). On the runs
where it does not, the pass keeps all reads and the behaviour (`inlineInvariantTemps_sound`).
-/

namespace Ldu

/-! ### What the pass checks -/

/-- The definition at position `x.pos` of block `x.block` is invariant and dominates its uses. -/
structure Inlining.Invariant (idom : List (Option ℕ)) (taken : String → Bool) (nm : String)
    (rhs : Expr) (x : Inlining) : Prop where
  site : ∃ b ty, x.Defines b ty nm rhs
  address : taken nm = false
  single : countWrites x.before nm ≤ 1
  call : rhs.hasCall = false
  load : rhs.readsMem = false
  inputs : ∀ n, rhs.readsNamedVar n = true → countWrites x.before n = 0 ∧ taken n = false
  dominates : dominatesUses idom x.before x.block x.pos nm = true

/-- The function after the inlining. -/
def Inlining.everywhere (x : Inlining) (nm : String) (rhs : Expr) : List Block :=
  inlineEverywhere x.before x.block x.pos nm rhs

section Checks

variable {info : VarInfo} {idom : List (Option ℕ)} {taken : String → Bool} {nm : String}
  {rhs : Expr} {g : List Block}

theorem of_invariantDef {writes : String → ℕ} {st : Stmt}
    (h : invariantDef info taken writes st = some (nm, rhs)) :
    (∃ ty, st = .assign (.var ty nm) rhs) ∧ taken nm = false ∧ writes nm = 1 ∧
      rhs.hasCall = false ∧ rhs.readsMem = false ∧
      ∀ n, rhs.readsNamedVar n = true → writes n = 0 ∧ taken n = false := by
  unfold invariantDef at h
  split at h
  · next ty nm' rhs' =>
    split at h
    · next hc =>
      obtain ⟨rfl, rfl⟩ := Prod.mk.inj (Option.some.inj h)
      simp only [Bool.and_eq_true, Bool.not_eq_true', beq_iff_eq] at hc
      obtain ⟨⟨⟨⟨⟨⟨-, htaken⟩, hwrites⟩, hcall⟩, hload⟩, -⟩, hinv⟩ := hc
      refine ⟨⟨ty, rfl⟩, htaken, hwrites, hcall, hload, fun n hn ↦ ?_⟩
      unfold isInvariant at hinv
      rw [Bool.not_eq_true'] at hinv
      refine ⟨?_, ?_⟩
      · by_contra hne
        refine Bool.eq_false_iff.1 hinv (Expr.anyNode_of_readsNamedVar (fun ty ↦ ?_) hn)
        simp [Nat.pos_of_ne_zero hne]
      · by_contra hne
        refine Bool.eq_false_iff.1 hinv (Expr.anyNode_of_readsNamedVar (fun ty ↦ ?_) hn)
        rw [Bool.not_eq_false] at hne
        simp [hne]
    · cases h
  · cases h

end Checks

/-! ### The function after an inlining -/

section Everywhere

variable {g : List Block} {k i : ℕ} {nm : String} {rhs : Expr}

theorem getElem?_inlineEverywhere (j : ℕ) :
    (inlineEverywhere g k i nm rhs)[j]? = g[j]?.map fun b ↦
      { b.mapTerm (·.substVar nm rhs) with
        stmts := b.stmts.mapIdx fun l st ↦
          if j = k ∧ l = i then inlinedMark else st.mapExprs (·.substVar nm rhs) } := by
  rw [inlineEverywhere, List.getElem?_mapIdx]

theorem inlineEverywhere_stmts_of_ne {j : ℕ} (hj : j ≠ k) (sts : List Stmt) :
    (sts.mapIdx fun l st ↦
      if j = k ∧ l = i then inlinedMark else st.mapExprs (·.substVar nm rhs)) =
      sts.map (·.mapExprs (·.substVar nm rhs)) := by
  refine List.ext_getElem? fun l ↦ ?_
  rw [List.getElem?_mapIdx, List.getElem?_map]
  simp [hj]

/-- What becomes of a block that does not define the temporary. -/
theorem everywhere_other (i : ℕ) (nm : String) (rhs : Expr) {b : Block} {j : ℕ}
    (hb : g[j]? = some b) (hj : j ≠ k) :
    ∃ b', (inlineEverywhere g k i nm rhs)[j]? = some b' ∧
      b' = { b.mapTerm (·.substVar nm rhs) with stmts := b'.stmts } ∧
      b'.stmts = b.stmts.map (·.mapExprs (·.substVar nm rhs)) := by
  refine ⟨_, by rw [getElem?_inlineEverywhere, hb]; rfl, rfl, ?_⟩
  exact inlineEverywhere_stmts_of_ne hj b.stmts

/-- What becomes of the block that does. -/
theorem everywhere_self (nm : String) (rhs : Expr) {b : Block} {st : Stmt} (hb : g[k]? = some b)
    (hst : b.stmts[i]? = some st) :
    ∃ b', (inlineEverywhere g k i nm rhs)[k]? = some b' ∧
      b' = { b.mapTerm (·.substVar nm rhs) with stmts := b'.stmts } ∧
      b'.stmts = (b.stmts.take i).map (·.mapExprs (·.substVar nm rhs)) ++
        inlinedMark :: (b.stmts.drop (i + 1)).map (·.mapExprs (·.substVar nm rhs)) := by
  refine ⟨_, by rw [getElem?_inlineEverywhere, hb]; rfl, rfl, ?_⟩
  dsimp only
  rw [mapIdx_eq_append_cons (·.mapExprs (·.substVar nm rhs)) (·.mapExprs (·.substVar nm rhs)) hst
    (fun j hj ↦ ?_) fun j hj ↦ ?_, if_pos ⟨rfl, rfl⟩]
  · simp [hj.ne]
  · simp [hj.ne']

end Everywhere

/-! ### Where the temporary has its value -/

section Dominated

variable {g : List Block} {idom : List (Option ℕ)} {k i j : ℕ} {nm : String}

/-- A block that reads the temporary, besides that of the definition, is dominated by it. -/
theorem dom_of_reads (hidom : CorrectIdom (controlFlow g) idom)
    (h : dominatesUses idom g k i nm = true) {b : Block} (hb : g[j]? = some b) (hj : j ≠ k)
    (hplaced : ∀ st ∈ b.stmts, st.placed = true)
    (hreads : b.stmts.any (·.reads nm) = true ∨ b.termReads nm = true) :
    (controlFlow g).Dom k j := by
  have huses : b.uses nm none = true := by
    rcases hreads with hreads | hreads
    · obtain ⟨st, hst, hreads⟩ := List.any_eq_true.1 hreads
      obtain ⟨l, hl⟩ := List.mem_iff_getElem?.1 hst
      exact uses_of_reads hplaced hl (by simp) hreads
    · exact uses_of_termReads hreads
  refine dom_of_dominates hidom ?_
  unfold dominatesUses at h
  rw [List.all_eq_true] at h
  have hbj := h (b, j) (List.mk_mem_zipIdx_iff_getElem?.2 hb)
  dsimp only at hbj
  rw [if_neg hj, huses] at hbj
  simpa using hbj

/-- Some path leads to block `j` without passing block `k`. -/
def Avoids (g : List Block) (k j : ℕ) : Prop :=
  j ≠ k → j < g.length → (controlFlow g).ReachVia (· ≠ k) j

theorem Avoids.step {b : Block} (h : Avoids g k j) (hb : g[j]? = some b) (hj : j ≠ k) {l : ℕ}
    (hl : l ∈ b.targets) : Avoids g k l := by
  obtain ⟨hlt, -⟩ := List.getElem?_eq_some_iff.1 hb
  exact fun hlk hlen ↦ (h hj hlt).step ⟨hlen, b, hb, hl⟩ hlk

theorem avoids_entry : Avoids g k 0 :=
  fun hk _ ↦ .entry_of hk

theorem Avoids.not_dom {b : Block} (h : Avoids g k j) (hb : g[j]? = some b) (hj : j ≠ k) :
    ¬ (controlFlow g).Dom k j := by
  obtain ⟨hlt, -⟩ := List.getElem?_eq_some_iff.1 hb
  exact fun hdom ↦ hdom (h hj hlt)

end Dominated

/-! ### Sound inlinings -/

section Sound

variable {M E : Type} {W : World M E} {decl : String → Val → Val} {idom : List (Option ℕ)}
  {taken : String → Bool} {nm : String} {rhs : Expr} {x : Inlining} {usedReturn : Bool}

/-- Whenever the block of the definition is entered, the declared type of the temporary holds the
value of the definition, and if a statement before the definition reads the temporary, it has that
value already. -/
def Inlining.EntryHolds (W : World M E) (decl : String → Val → Val) (x : Inlining)
    (p : ℕ × Store M) : Prop :=
  p.1 = x.block → ∀ b ty nm rhs, x.Defines b ty nm rhs →
    decl nm (W.eval rhs p.2).2.1 = (W.eval rhs p.2).2.1 ∧
      ((b.stmts.take x.pos).any (·.reads nm) = true → p.2.vars nm = (W.eval rhs p.2).2.1)

/-- The reads of the temporary look like its definition. -/
def Inlining.Suited (x : Inlining) : Prop :=
  ∀ b ty nm rhs, x.Defines b ty nm rhs →
    ∀ c ∈ x.before, ∀ e ∈ c.exprs, e.suits nm rhs.ty = true

namespace Inlining.Invariant

theorem memFree (h : x.Invariant idom taken nm rhs) : rhs.memFree taken = true :=
  Expr.memFree_of_not_readsMem h.load fun n hn ↦ (h.inputs n hn).2

theorem impure (h : x.Invariant idom taken nm rhs) : rhs.hasImpureCall = false :=
  Expr.hasImpureCall_of_hasCall h.call

/-- The variables before a block: nothing but the temporary differs, the inputs are as on entry, and
the temporary has its value unless the definition may not have been passed. -/
def Rel (x : Inlining) (nm : String) (rhs : Expr) (s₀ : Store M) (W : World M E) (j : ℕ)
    (vs vt : String → Val) : Prop :=
  (∀ n, n ≠ nm → vt n = vs n) ∧ (∀ n, rhs.readsNamedVar n = true → vs n = s₀.vars n) ∧
    (vs nm = (W.eval rhs s₀).2.1 ∨ Avoids x.before x.block j)

theorem not_aliased (h : x.Invariant idom taken nm rhs)
    (halias : ∀ n, W.aliased n = true → taken n = true) : W.aliased nm = false :=
  Bool.eq_false_iff.2 fun hal ↦ Bool.eq_false_iff.1 h.address (halias nm hal)

theorem not_reads_self (h : x.Invariant idom taken nm rhs) : rhs.readsNamedVar nm = false := by
  rw [Bool.eq_false_iff]
  intro hn
  obtain ⟨b, ty, hdef⟩ := h.site
  have hno := defOf_of_countWrites (h.inputs nm hn).1 hdef.block (List.mem_of_getElem? hdef.stmt)
  simp [Stmt.defOf] at hno

/-- The definition is evaluated to the same value all along the run. -/
theorem eval_eq (h : x.Invariant idom taken nm rhs)
    (halias : ∀ n, W.aliased n = true → taken n = true) {s s₀ : Store M}
    (hinputs : ∀ n, rhs.readsNamedVar n = true → s.vars n = s₀.vars n) :
    (W.eval rhs s).2.1 = (W.eval rhs s₀).2.1 :=
  W.eval_memFree halias h.memFree h.impure hinputs

theorem eval_eq_right (h : x.Invariant idom taken nm rhs)
    (halias : ∀ n, W.aliased n = true → taken n = true) {s t s₀ : Store M}
    (hoff : AgreeOn W (· ≠ nm) s t)
    (hinputs : ∀ n, rhs.readsNamedVar n = true → s.vars n = s₀.vars n) :
    (W.eval rhs t).2.1 = (W.eval rhs s₀).2.1 := by
  refine h.eval_eq halias fun n hn ↦ ?_
  rw [hoff.2 n (.inr ?_), hinputs n hn]
  rintro rfl
  rw [h.not_reads_self] at hn
  cases hn

section Blocks

variable {s₀ s t : Store M} {j : ℕ} {b : Block}

/-- Statements of the function that do not assign the temporary, and what follows them. -/
theorem inlined_stmts (h : x.Invariant idom taken nm rhs)
    (halias : ∀ n, W.aliased n = true → taken n = true)
    (haddr : addrTaken x.before nm = false)
    (hsuits : ∀ b ∈ x.before, ∀ e ∈ b.exprs, e.suits nm rhs.ty = true)
    (hb : x.before[j]? = some b) {Q : Store M → Store M → Prop} (later : Prop)
    {sts rest rest' : List Stmt} (hsts : ∀ st ∈ sts, st ∈ b.stmts ∧ st.defOf nm = none)
    (hoff : AgreeOn W (· ≠ nm) s t)
    (hinputs : ∀ n, rhs.readsNamedVar n = true → s.vars n = s₀.vars n)
    (hvalue : sts.any (·.reads nm) = true ∨ later → s.vars nm = (W.eval rhs s₀).2.1)
    (hrest : ∀ s' t', AgreeOn W (· ≠ nm) s' t' →
      (∀ n, n = nm ∨ rhs.readsNamedVar n = true → s'.vars n = s.vars n) →
      W.Inlined decl nm rhs Q rest rest' s' t') :
    W.Inlined decl nm rhs Q (sts ++ rest)
      (sts.map (·.mapExprs (·.substVar nm rhs)) ++ rest') s t := by
  have hmem := List.mem_of_getElem? hb
  have hinputOf : ∀ n, rhs.readsNamedVar n = true → ∀ st ∈ sts, st.defOf n = none :=
    fun n hn st hst ↦ defOf_of_countWrites (h.inputs n hn).1 hb (hsts st hst).1
  refine World.inlined_window halias (h.not_aliased halias) h.impure later
    (fun st hst ↦ (hsts st hst).2) (fun st hst e he ↦ ?_) (fun _ _ _ ↦ .inl h.memFree)
    (fun pre st post hsplit _ ↦ .inl ⟨fun n hn ↦ ?_, .inl h.memFree⟩) hoff (fun hreads ↦ ?_)
    fun hoff' _ ↦ hrest _ _ hoff' fun n hn ↦ ?_
  · have hexpr : e ∈ b.exprs :=
      List.mem_append_left _ (List.mem_flatMap.2 ⟨st, (hsts st hst).1, he⟩)
    exact ⟨hsuits b hmem e hexpr, not_isAddrOf_of_addrTaken haddr hmem hexpr⟩
  · simp [Stmt.assigns, hinputOf n hn st (by simp [hsplit])]
  · rw [hvalue hreads, h.eval_eq_right halias hoff hinputs]
  · refine World.execStmts_vars_of_ne (fun st hst ↦ ?_) s
    rcases hn with rfl | hn
    · exact (hsts st hst).2
    · exact hinputOf n hn st hst

/-- The terminator, where the temporary has its value if it is read. -/
theorem inlinedTerm (h : x.Invariant idom taken nm rhs)
    (halias : ∀ n, W.aliased n = true → taken n = true)
    (haddr : addrTaken x.before nm = false)
    (hsuits : ∀ b ∈ x.before, ∀ e ∈ b.exprs, e.suits nm rhs.ty = true)
    (hb : x.before[j]? = some b) {b' : Block}
    (hb' : b' = { b.mapTerm (·.substVar nm rhs) with stmts := b'.stmts })
    (hoff : AgreeOn W (· ≠ nm) s t)
    (hinputs : ∀ n, rhs.readsNamedVar n = true → s.vars n = s₀.vars n)
    (hvalue : b.termReads nm = true → s.vars nm = (W.eval rhs s₀).2.1) :
    W.InlinedTerm nm rhs usedReturn b b' s t := by
  have hmem := List.mem_of_getElem? hb
  refine World.InlinedTerm.of_value halias h.impure hb' (fun e he ↦ ?_)
    (fun _ ↦ .inl h.memFree) hoff fun hreads ↦ ?_
  · have hexpr : e ∈ b.exprs := List.mem_append_right _ he
    exact ⟨hsuits b hmem e hexpr, not_isAddrOf_of_addrTaken haddr hmem hexpr⟩
  · rw [hvalue hreads, h.eval_eq_right halias hoff hinputs]

/-- A block other than that of the definition. -/
theorem inlined_other (h : x.Invariant idom taken nm rhs)
    (hidom : CorrectIdom (controlFlow x.before) idom)
    (halias : ∀ n, W.aliased n = true → taken n = true)
    (haddr : addrTaken x.before nm = false)
    (hplaced : ∀ st ∈ b.stmts, st.placed = true)
    (hsuits : ∀ b ∈ x.before, ∀ e ∈ b.exprs, e.suits nm rhs.ty = true)
    (hb : x.before[j]? = some b) (hj : j ≠ x.block) (hmem : t.mem = s.mem)
    (hR : Rel x nm rhs s₀ W j s.vars t.vars) :
    ∃ b', (x.everywhere nm rhs)[j]? = some b' ∧ W.Inlined decl nm rhs
      (fun s' t' ↦ W.InlinedTerm nm rhs usedReturn b b' s' t' ∧
        ∀ l ∈ b.targets, Rel x nm rhs s₀ W l s'.vars t'.vars) b.stmts b'.stmts s t := by
  obtain ⟨d, ty, hd, hst⟩ := h.site
  have hstmts := eq_take_append_cons hst
  have hdef : ∀ st ∈ b.stmts, st.defOf nm = none := fun st hst ↦
    (defOf_of_single h.single hd hstmts (by simp [Stmt.assigns, Stmt.defOf])).2 j b hj hb st hst
  have hvalue : b.stmts.any (·.reads nm) = true ∨ b.termReads nm = true →
      s.vars nm = (W.eval rhs s₀).2.1 := fun hreads ↦
    hR.2.2.resolve_right fun hav ↦
      hav.not_dom hb hj (dom_of_reads hidom h.dominates hb hj hplaced hreads)
  obtain ⟨b', hb', hshape, hstmts'⟩ := everywhere_other x.pos nm rhs hb hj
  refine ⟨b', hb', ?_⟩
  rw [hstmts']
  refine .of_append_nil <| h.inlined_stmts halias haddr hsuits hb (b.termReads nm = true)
    (fun st hst ↦ ⟨hst, hdef st hst⟩) (agreeOn_ne (h.not_aliased halias) hmem hR.1) hR.2.1 hvalue
    fun s' t' hoff' hsame ↦ .nil ⟨h.inlinedTerm halias haddr hsuits hb hshape hoff'
      (fun n hn ↦ (hsame n (.inr hn)).trans (hR.2.1 n hn))
      (fun hreads ↦ (hsame nm (.inl rfl)).trans (hvalue (.inr hreads))), fun l hl ↦ ?_⟩
  refine ⟨fun n hn ↦ hoff'.2 n (.inr hn), fun n hn ↦ ?_, ?_⟩
  · rw [hsame n (.inr hn), hR.2.1 n hn]
  · rw [hsame nm (.inl rfl)]
    exact hR.2.2.imp_right fun hav ↦ hav.step hb hj hl

/-- The block of the definition. -/
theorem inlined_self (h : x.Invariant idom taken nm rhs)
    (halias : ∀ n, W.aliased n = true → taken n = true)
    (haddr : addrTaken x.before nm = false)
    (hsuits : ∀ b ∈ x.before, ∀ e ∈ b.exprs, e.suits nm rhs.ty = true)
    (hb : x.before[x.block]? = some b) (hmem : t.mem = s.mem)
    (hholds : x.EntryHolds W decl (x.block, s))
    (hR : Rel x nm rhs s₀ W x.block s.vars t.vars) :
    ∃ b', (x.everywhere nm rhs)[x.block]? = some b' ∧ W.Inlined decl nm rhs
      (fun s' t' ↦ W.InlinedTerm nm rhs usedReturn b b' s' t' ∧
        ∀ l ∈ b.targets, Rel x nm rhs s₀ W l s'.vars t'.vars) b.stmts b'.stmts s t := by
  obtain ⟨d, ty, hd, hst⟩ := h.site
  have hstmts := eq_take_append_cons hst
  obtain rfl : b = d := Option.some.inj (hb.symm.trans hd)
  have hdef : ∀ st ∈ b.stmts.take x.pos ++ b.stmts.drop (x.pos + 1), st.defOf nm = none :=
    (defOf_of_single h.single hd hstmts (by simp [Stmt.assigns, Stmt.defOf])).1
  obtain ⟨hdecl, hbefore⟩ := hholds rfl b ty nm rhs ⟨hb, hst⟩
  rw [h.eval_eq halias hR.2.1] at hdecl hbefore
  obtain ⟨b', hb', hshape, hstmts'⟩ := everywhere_self nm rhs hb hst
  refine ⟨b', hb', ?_⟩
  generalize b.stmts.take x.pos = pre at *
  generalize b.stmts.drop (x.pos + 1) = post at *
  rw [hstmts', hstmts]
  refine h.inlined_stmts halias haddr hsuits hb False
    (fun st hmem ↦ ⟨by simp [hstmts, hmem], hdef st (by simp [hmem])⟩)
    (agreeOn_ne (h.not_aliased halias) hmem hR.1) hR.2.1
    (fun hreads ↦ hbefore (hreads.resolve_right id)) fun s₁ t₁ hoff₁ hsame₁ ↦ .blanked ?_
  have hinputs₁ : ∀ n, rhs.readsNamedVar n = true → s₁.vars n = s₀.vars n :=
    fun n hn ↦ (hsame₁ n (.inr hn)).trans (hR.2.1 n hn)
  have hne : ∀ n, rhs.readsNamedVar n = true → n ≠ nm := by
    rintro n hn rfl
    rw [h.not_reads_self] at hn
    cases hn
  -- The definition is skipped; from here on the temporary has its value.
  obtain ⟨hoff₂, hvalue₂⟩ := World.agreeOn_removed decl ty
    (h.not_aliased halias) h.impure hoff₁ (fun _ hn ↦ hn) hne
    (by rw [h.eval_eq halias hinputs₁, hdecl])
  have hinputs₂ : ∀ n, rhs.readsNamedVar n = true →
      (W.execStmt decl (.assign (.var ty nm) rhs) s₁).2.2.vars n = s₀.vars n := fun n hn ↦
    (execStmt_vars_of_ne W (by simp [Stmt.defOf, (hne n hn).symm]) s₁).trans (hinputs₁ n hn)
  rw [h.eval_eq_right halias hoff₁ hinputs₁, eq_comm] at hvalue₂
  refine .of_append_nil <| h.inlined_stmts halias haddr hsuits hb (b.termReads nm = true)
    (fun st hmem ↦ ⟨by simp [hstmts, hmem], hdef st (by simp [hmem])⟩) hoff₂ hinputs₂
    (fun _ ↦ hvalue₂) fun s' t' hoff' hsame ↦
      .nil ⟨h.inlinedTerm halias haddr hsuits hb hshape hoff'
      (fun n hn ↦ (hsame n (.inr hn)).trans (hinputs₂ n hn))
      (fun _ ↦ (hsame nm (.inl rfl)).trans hvalue₂), fun l _ ↦ ?_⟩
  refine ⟨fun n hn ↦ hoff'.2 n (.inr hn), fun n hn ↦ ?_, .inl ?_⟩
  · rw [hsame n (.inr hn), hinputs₂ n hn]
  · rw [hsame nm (.inl rfl), hvalue₂]

end Blocks

theorem replacedIn (h : x.Invariant idom taken nm rhs) (j : ℕ) (b b' : Block)
    (hb : x.before[j]? = some b) (hb' : (x.everywhere nm rhs)[j]? = some b') :
    b.ReplacedIn nm rhs b' := by
  obtain ⟨d, ty, hd, hst⟩ := h.site
  have hstmts := eq_take_append_cons hst
  have hdefs := defOf_of_single h.single hd hstmts (by simp [Stmt.assigns, Stmt.defOf])
  by_cases hj : j = x.block
  · subst hj
    obtain rfl : b = d := Option.some.inj (hb.symm.trans hd)
    obtain ⟨b'', hb'', hshape, hstmts'⟩ := everywhere_self nm rhs hb hst
    obtain rfl : b'' = b' := Option.some.inj (hb''.symm.trans hb')
    refine Block.replacedIn_of_mapTerm hshape ?_
    rw [hstmts']
    generalize b.stmts.take x.pos = pre at *
    generalize b.stmts.drop (x.pos + 1) = post at *
    rw [hstmts]
    exact (Replaced.map fun st hmem ↦ hdefs.1 st (by simp [hmem])).append
      (.blanked _ _ (.map fun st hmem ↦ hdefs.1 st (by simp [hmem])))
  · obtain ⟨b'', hb'', hshape, hstmts'⟩ := everywhere_other x.pos nm rhs hb hj
    obtain rfl : b'' = b' := Option.some.inj (hb''.symm.trans hb')
    refine Block.replacedIn_of_mapTerm hshape ?_
    rw [hstmts']
    exact .map (hdefs.2 j b hj hb)

theorem derived (h : x.Invariant idom taken nm rhs) (haddr : addrTaken x.before nm = false) :
    Derived x.before (x.everywhere nm rhs) := by
  obtain ⟨d, ty, hd, hst⟩ := h.site
  refine derived_of_replacedIn (by simp [Inlining.everywhere, inlineEverywhere]) h.replacedIn haddr
    ⟨d, List.mem_of_getElem? hd, List.mem_append_left _ (List.mem_flatMap.2
      ⟨_, List.mem_of_getElem? hst, by simp [Stmt.exprs]⟩)⟩

/-- Inlining keeps every read, and the behaviour. -/
theorem sound (h : x.Invariant idom taken nm rhs) {merged : Finset ℕ}
    (hidom : CorrectIdom (controlFlow x.before) idom)
    (halias : ∀ n, W.aliased n = true → taken n = true)
    (haddr : addrTaken x.before nm = false)
    (hplaced : ∀ b ∈ x.before, ∀ st ∈ b.stmts, st.placed = true)
    (hsuits : ∀ b ∈ x.before, ∀ e ∈ b.exprs, e.suits nm rhs.ty = true) {s : Store M}
    (hrun : (graphMachine (W.interp decl) usedReturn merged x.before).Always
      (x.EntryHolds W decl) (0, s)) :
    (graphMachine (W.interp decl) usedReturn merged x.before).SameBehaviour (0, s)
        (graphMachine (W.interp decl) usedReturn merged (x.everywhere nm rhs)) (0, s) ∧
      (graphMachine (W.interp decl) usedReturn merged x.before).Together
        (graphMachine (W.interp decl) usedReturn merged (x.everywhere nm rhs))
        (W.InlinedAt decl nm rhs usedReturn merged x.before (x.everywhere nm rhs))
        (0, s) (0, s) := by
  refine World.inlined_run (R := Rel x nm rhs s W) (h.not_aliased halias) h.impure
    (by simp [Inlining.everywhere, inlineEverywhere]) (fun j s₁ t₁ b _ hb hholds hmem hR ↦ ?_)
    ⟨fun _ _ ↦ rfl, fun _ _ ↦ rfl, .inr avoids_entry⟩ hrun
  by_cases hj : j = x.block
  · subst hj
    exact h.inlined_self halias haddr hsuits hb hmem hholds hR
  · exact h.inlined_other hidom halias haddr (hplaced b (List.mem_of_getElem? hb)) hsuits hb hj
      hmem hR

end Inlining.Invariant

end Sound

/-! ### The inlinings of the pass -/

section Rounds

variable {info : VarInfo} {idom : List (Option ℕ)} {taken : String → Bool} {g : List Block}

/-- The inlining `x` is one that the pass makes, with result `h`. -/
def Inlining.IsInvariant (idom : List (Option ℕ)) (taken : String → Bool) (x : Inlining)
    (h : List Block) : Prop :=
  ∃ nm rhs, x.Invariant idom taken nm rhs ∧ addrTaken x.before nm = false ∧
    h = x.everywhere nm rhs

theorem Inlining.IsInvariant.derived {x : Inlining} {h : List Block}
    (hx : x.IsInvariant idom taken h) : Derived x.before h := by
  obtain ⟨nm, rhs, hinv, haddr, rfl⟩ := hx
  exact hinv.derived haddr

theorem invariantStep_steps {run : InlineRun} (p : ℕ × ℕ)
    (haddr : ∀ n, addrTaken g n = true → taken n = true)
    (h : InlineSteps (Inlining.IsInvariant idom taken) g run.log run.graph) :
    InlineSteps (Inlining.IsInvariant idom taken) g
      (invariantStep info idom taken (countWrites g) run p).log
      (invariantStep info idom taken (countWrites g) run p).graph := by
  have hder := h.derived fun _ _ hx ↦ hx.derived
  unfold invariantStep
  split
  · next nm rhs hdef =>
    obtain ⟨st, hst, hdef⟩ := Option.bind_eq_some_iff.1 hdef
    obtain ⟨⟨ty, rfl⟩, htaken, hwrites, hcall, hload, hinputs⟩ := of_invariantDef hdef
    obtain ⟨b, hb, hst⟩ := stmtAt_eq_some hst
    split
    · next hdom =>
      refine InlineSteps.snoc (x := ⟨run.graph, p.1, p.2⟩) h ⟨nm, rhs,
        ⟨⟨b, ty, hb, hst⟩, htaken, (hder.writes nm).trans hwrites.le, hcall, hload,
          fun n hn ↦ ?_, hdom⟩, ?_, rfl⟩
      · exact ⟨Nat.le_zero.1 ((hder.writes n).trans (hinputs n hn).1.le), (hinputs n hn).2⟩
      · exact Bool.eq_false_iff.2 fun hn ↦ Bool.eq_false_iff.1 htaken (haddr nm (hder.addr nm hn))
    · exact h
  · exact h

theorem invariantRound_steps (haddr : ∀ n, addrTaken g n = true → taken n = true) :
    InlineSteps (Inlining.IsInvariant idom taken) g (invariantRound info idom taken g).log
      (invariantRound info idom taken g).graph := by
  have hsteps : InlineSteps (Inlining.IsInvariant idom taken) g
      (invariantInlinings info idom taken g).log (invariantInlinings info idom taken g).graph :=
    List.foldlRecOn (motive := fun run : InlineRun ↦
      InlineSteps (Inlining.IsInvariant idom taken) g run.log run.graph) _ _ (.done g)
      fun run h p _ ↦ invariantStep_steps p haddr h
  unfold invariantRound
  dsimp only
  split
  · exact hsteps
  · simpa using hsteps.trans (.erase (erasesMarks_eraseMarked _) (.done _))

/-- The pass is a sequence of inlinings. -/
theorem inlineInvariantTemps_steps (info : VarInfo) (idom : List (Option ℕ))
    (budgetOk : ℕ → Bool) (g : List Block) :
    InlineSteps (Inlining.IsInvariant idom (addrTaken g)) g
      (inlineInvariantTemps info idom budgetOk g).log
      (inlineInvariantTemps info idom budgetOk g).graph :=
  InlineSteps.rounds (fun _ _ hx ↦ hx.derived)
    (fun _ hder ↦ invariantRound_steps fun n hn ↦ hder.addr n hn) 15 (.done g)

end Rounds

/-! ### Soundness -/

/-- Each read of the temporary finds the value that its definition has there after the inlining, and
every other read the value it had. -/
def Inlining.ReadsKept {M E : Type} (W : World M E) (decl : String → Val → Val) (usedReturn : Bool)
    (merged : Finset ℕ) (s : Store M) (x : Inlining) : Prop :=
  ∃ b ty nm rhs, x.Defines b ty nm rhs ∧
    (graphMachine (W.interp decl) usedReturn merged x.before).Together
      (graphMachine (W.interp decl) usedReturn merged (x.everywhere nm rhs))
      (W.InlinedAt decl nm rhs usedReturn merged x.before (x.everywhere nm rhs)) (0, s) (0, s)

/-- **Inlining invariant temporaries is sound** along the runs in which no read that stands before a
definition in its block finds another value. -/
theorem inlineInvariantTemps_sound {M E : Type} (W : World M E) (decl : String → Val → Val)
    (info : VarInfo) (idom : List (Option ℕ)) (budgetOk : ℕ → Bool) (g : List Block)
    (usedReturn : Bool) (merged : Finset ℕ) (s : Store M)
    (halias : ∀ n, W.aliased n = true → addrTaken g n = true)
    (hidom : CorrectIdom (controlFlow g) idom)
    (hplaced : ∀ b ∈ g, ∀ st ∈ b.stmts, st.placed = true)
    (hsuited : ∀ x ∈ (inlineInvariantTemps info idom budgetOk g).log, x.Suited)
    (hrun : ∀ x ∈ (inlineInvariantTemps info idom budgetOk g).log,
      (graphMachine (W.interp decl) usedReturn merged x.before).Always
        (x.EntryHolds W decl) (0, s)) :
    (∀ x ∈ (inlineInvariantTemps info idom budgetOk g).log,
      x.ReadsKept W decl usedReturn merged s) ∧
    (graphMachine (W.interp decl) usedReturn merged g).SameBehaviour (0, s)
      (graphMachine (W.interp decl) usedReturn merged
        (inlineInvariantTemps info idom budgetOk g).graph) (0, s) := by
  have hsteps := inlineInvariantTemps_steps info idom budgetOk g
  have hderived : ∀ x k, Inlining.IsInvariant idom (addrTaken g) x k → Derived x.before k :=
    fun _ _ hx ↦ hx.derived
  -- One inlining, of a function derived from the first.
  have hsound : ∀ x ∈ (inlineInvariantTemps info idom budgetOk g).log, ∀ nm rhs,
      x.Invariant idom (addrTaken g) nm rhs → addrTaken x.before nm = false →
      Derived g x.before →
      (graphMachine (W.interp decl) usedReturn merged x.before).SameBehaviour (0, s)
        (graphMachine (W.interp decl) usedReturn merged (x.everywhere nm rhs)) (0, s) ∧
      (graphMachine (W.interp decl) usedReturn merged x.before).Together
        (graphMachine (W.interp decl) usedReturn merged (x.everywhere nm rhs))
        (W.InlinedAt decl nm rhs usedReturn merged x.before (x.everywhere nm rhs))
        (0, s) (0, s) := fun x hx nm rhs hinv haddr hder ↦
    hinv.sound (by rwa [controlFlow_congr hder.targets]) halias haddr (hder.placed hplaced)
      (hsuited x hx _ _ nm rhs hinv.site.choose_spec.choose_spec) (hrun x hx)
  refine ⟨fun x hx ↦ ?_, hsteps.sameBehaviour hderived fun x k hx hxk hder ↦ ?_⟩
  · obtain ⟨hder, k, nm, rhs, hinv, haddr, -⟩ := hsteps.of_mem hderived hx
    obtain ⟨b, ty, hsite⟩ := hinv.site
    exact ⟨b, ty, nm, rhs, hsite, (hsound x hx nm rhs hinv haddr hder).2⟩
  · obtain ⟨nm, rhs, hinv, haddr, rfl⟩ := hxk
    exact (hsound x hx nm rhs hinv haddr hder).1

/-! ### A read before the definition -/

/-- `f(v1); v1 = a1; return;` -/
def entryRead : List Block :=
  [{ stmts := [.call (.call {} "f" false 0 [.mkVar "v1"]), .assign (.mkVar "v1") (.mkVar "a1")]
     ends := .ret }]

theorem entryRead_inlined : (inlineInvariantTemps {} [some 0] (fun _ ↦ true) entryRead).graph =
    [{ stmts := [.call (.call {} "f" false 0 [.mkVar "a1"])]
       ends := .ret }] :=
  rfl

/-- On entry `a1` holds `1` and the other variables `0`. -/
def entryReadStore : Store (Val → Val) :=
  ⟨fun n ↦ if n = "a1" then 1 else 0, fun _ ↦ 0⟩

/-- The call gets `a1` in place of the entry value of `v1`. -/
theorem entryRead_differs : CorrectIdom (controlFlow entryRead) [some 0] ∧
    ¬ (graphMachine (traceWorld.interp fun _ v ↦ v) false ∅ entryRead).SameBehaviour
      (0, entryReadStore)
      (graphMachine (traceWorld.interp fun _ v ↦ v) false ∅
        (inlineInvariantTemps {} [some 0] (fun _ ↦ true) entryRead).graph)
      (0, entryReadStore) := by
  refine ⟨correctIdom_of_no_edges (by simp [entryRead, Block.targets]), fun h ↦ ?_⟩
  have hleft : (graphMachine (traceWorld.interp fun _ v ↦ v) false ∅ entryRead).Returns
      (0, entryReadStore) [.world [0]] (some none) := ⟨1, rfl⟩
  obtain ⟨n, hn⟩ := (h.returns_iff _ _).1 hleft
  rw [entryRead_inlined] at hn
  have hstep : (graphMachine (traceWorld.interp fun _ v ↦ v) false ∅
      [{ stmts := [.call (.call {} "f" false 0 [.mkVar "a1"])], ends := .ret }]).step
      (0, entryReadStore) = ([.world [1]], .inr (some none)) := rfl
  cases n with
  | zero => cases hn
  | succ n =>
    rw [Machine.run_succ_of_halt _ hstep] at hn
    exact absurd (congrArg Prod.fst hn) (by decide)

/-! ### A read after the definition -/

/-- `v1 = a1; f(v1); return;` -/
def laterRead : List Block :=
  [{ stmts := [.assign (.mkVar "v1") (.mkVar "a1"), .call (.call {} "f" false 0 [.mkVar "v1"])]
     ends := .ret }]

theorem laterRead_log : (inlineInvariantTemps {} [some 0] (fun _ ↦ true) laterRead).log =
    [⟨laterRead, 0, 0⟩] :=
  rfl

theorem laterRead_sound :
    (∀ x ∈ (inlineInvariantTemps {} [some 0] (fun _ ↦ true) laterRead).log,
      x.ReadsKept traceWorld (fun _ v ↦ v) false ∅ entryReadStore) ∧
    (graphMachine (traceWorld.interp fun _ v ↦ v) false ∅ laterRead).SameBehaviour
      (0, entryReadStore)
      (graphMachine (traceWorld.interp fun _ v ↦ v) false ∅
        (inlineInvariantTemps {} [some 0] (fun _ ↦ true) laterRead).graph)
      (0, entryReadStore) := by
  refine inlineInvariantTemps_sound traceWorld (fun _ v ↦ v) {} [some 0] (fun _ ↦ true) laterRead
    false ∅ entryReadStore (fun _ h ↦ absurd h Bool.false_ne_true)
    (correctIdom_of_no_edges (by simp [laterRead, Block.targets]))
    (by simp [laterRead, Stmt.placed, Expr.isPlace, Expr.mkVar]) ?_ ?_
  · rw [laterRead_log]
    rintro x hx b ty nm rhs ⟨hb, hst⟩ c hc e he
    obtain rfl := List.mem_singleton.1 hx
    obtain rfl := List.mem_singleton.1 hc
    cases hb
    cases hst
    revert e
    decide
  · rw [laterRead_log]
    rintro x hx p -
    obtain rfl := List.mem_singleton.1 hx
    exact fun _ _ _ _ _ _ ↦ ⟨rfl, fun hread ↦ by cases hread⟩

end Ldu
