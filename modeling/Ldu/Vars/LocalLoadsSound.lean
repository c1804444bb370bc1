import Ldu.Vars.LocalLoads

/-!
# Local loads have their value

Between a definition and its last read nothing changes its value, as far as the pass looks
(`Inlining.Local`). What it does not look at is left over: reads that come before the definition in
its block, which see the last turn of a loop or the value on entry (`Inlining.LocalHolds`), and, for
a definition that loads memory, assignments to locals that live there and calls that come before the
read in the same statement (`Inlining.LocalText`). On the runs without those, the pass keeps all
reads and the behaviour (`inlineLocalLoads_sound`).
-/

namespace Ldu

/-! ### What the pass checks -/

/-- The definition is inlined in block `b`. -/
structure Inlining.Local (taken : String → Bool) (b : Block) (nm : String) (rhs : Expr)
    (x : Inlining) : Prop where
  site : ∃ ty, x.Defines b ty nm rhs
  address : taken nm = false
  single : countWrites x.before nm ≤ 1
  call : rhs.hasCall = false
  inputs : ∀ n, rhs.readsNamedVar n = true → taken n = false
  inside : usedOutside x.before x.block nm = false
  window : (hazardWindow nm x.pos b).any (·.clashes rhs) = false

/-- The function after the inlining. -/
def Inlining.inBlock (x : Inlining) (nm : String) (rhs : Expr) : List Block :=
  x.before.modify x.block (·.inlineAfter x.pos nm rhs)

section Checks

variable {info : VarInfo} {taken : String → Bool} {nm : String} {rhs : Expr}

theorem of_localDef {writes : String → ℕ} {st : Stmt}
    (h : localDef info taken writes st = some (nm, rhs)) :
    (∃ ty, st = .assign (.var ty nm) rhs) ∧ taken nm = false ∧ writes nm = 1 ∧
      rhs.hasCall = false ∧ ∀ n, rhs.readsNamedVar n = true → taken n = false := by
  unfold localDef at h
  split at h
  · next ty nm' rhs' =>
    split at h
    · next hc =>
      obtain ⟨rfl, rfl⟩ := Prod.mk.inj (Option.some.inj h)
      simp only [Bool.and_eq_true, Bool.not_eq_true', beq_iff_eq] at hc
      obtain ⟨⟨⟨⟨⟨-, htaken⟩, hwrites⟩, hcall⟩, -⟩, hstable⟩ := hc
      refine ⟨⟨ty, rfl⟩, htaken, hwrites, hcall, fun n hn ↦ ?_⟩
      unfold isStable at hstable
      rw [Bool.not_eq_true'] at hstable
      by_contra hne
      rw [Bool.not_eq_false] at hne
      refine Bool.eq_false_iff.1 hstable (Expr.anyNode_of_readsNamedVar (fun ty ↦ ?_) hn)
      simp [hne]
    · cases h
  · cases h

theorem reads_of_lastRead_isSome {sts : List Stmt} :
    (lastRead nm sts).isSome = sts.any (0 < ·.countReads nm) := by
  induction sts with
  | nil => rfl
  | cons st sts ih =>
    rw [lastRead, List.any_cons, ← ih]
    cases lastRead nm sts with
    | some j => simp
    | none => by_cases hst : 0 < st.countReads nm <;> simp [hst]

/-- The statements before the last read are those with a read after them. -/
theorem mem_take_lastRead {sts before after : List Stmt} {st : Stmt}
    (hsplit : sts = before ++ st :: after) (hafter : after.any (0 < ·.countReads nm) = true) :
    st ∈ sts.take ((lastRead nm sts).getD 0) := by
  subst hsplit
  induction before with
  | nil =>
    rw [← reads_of_lastRead_isSome] at hafter
    obtain ⟨j, hj⟩ := Option.isSome_iff_exists.1 hafter
    simp [lastRead, hj]
  | cons c before ih =>
    have hsome : (lastRead nm (before ++ st :: after)).isSome = true := by
      rw [reads_of_lastRead_isSome, List.any_append, List.any_cons, hafter]
      simp
    obtain ⟨j, hj⟩ := Option.isSome_iff_exists.1 hsome
    rw [hj] at ih
    simp only [List.cons_append, lastRead, hj, Option.getD_some, List.take_succ_cons]
    exact List.mem_cons_of_mem _ ih

end Checks

/-! ### What the pass does not check -/

section Conditions

variable {M E : Type} (W : World M E) (decl : String → Val → Val) (taken : String → Bool)
  (usedReturn : Bool)

/-- The text of the block: the reads after the definition look like it, and if the definition loads
memory, no statement before the last read assigns a local that lives there, and no read comes after
a call in its statement. -/
structure Inlining.LocalText (x : Inlining) (b : Block) (nm : String) (rhs : Expr) : Prop where
  suits : ∀ e ∈ (b.stmts.drop (x.pos + 1)).flatMap Stmt.exprs ++ b.termExprs,
    e.suits nm rhs.ty = true
  locals : rhs.readsMem = true → ∀ st ∈ hazardWindow nm x.pos b, ∀ n, st.assigns n = true →
    taken n = false
  order : rhs.readsMem = true → ∀ st ∈ b.stmts.drop (x.pos + 1),
    Expr.lateReadList nm st.operands = false
  termOrder : rhs.readsMem = true → Expr.lateReadList nm (b.operands usedReturn) = false

/-- Whenever the block is entered: the declared type of the temporary holds the value of the
definition, and reads up to the definition, its own included, find the value `v` on entry to the
function. -/
def Inlining.LocalHolds (x : Inlining) (v : String → Val) (p : ℕ × Store M) : Prop :=
  p.1 = x.block → ∀ b ty nm rhs, x.Defines b ty nm rhs →
    let s := W.execStmts decl (b.stmts.take x.pos) p.2
    decl nm (W.eval rhs s).2.1 = (W.eval rhs s).2.1 ∧
      ((b.stmts.take x.pos).any (·.reads nm) = true ∨ rhs.readsNamedVar nm = true →
        p.2.vars nm = v nm)

end Conditions

/-! ### Sound inlinings -/

namespace Inlining.Local

section Sound

variable {M E : Type} {W : World M E} {decl : String → Val → Val} {taken : String → Bool}
  {usedReturn : Bool} {x : Inlining} {b c : Block} {nm : String} {rhs : Expr} {s₀ s t : Store M}

theorem not_aliased (h : x.Local taken b nm rhs)
    (halias : ∀ n, W.aliased n = true → taken n = true) : W.aliased nm = false :=
  Bool.eq_false_iff.2 fun hal ↦ Bool.eq_false_iff.1 h.address (halias nm hal)

theorem impure (h : x.Local taken b nm rhs) : rhs.hasImpureCall = false :=
  Expr.hasImpureCall_of_hasCall h.call

/-- The definition does not depend on memory if it loads none. -/
theorem memFree_or (h : x.Local taken b nm rhs) :
    rhs.memFree taken = true ∨ rhs.readsMem = true := by
  cases hload : rhs.readsMem with
  | true => exact .inr rfl
  | false => exact .inl (Expr.memFree_of_not_readsMem hload h.inputs)

/-- The variables before a block: the temporary is never assigned any more. -/
def Rel (nm : String) (s₀ : Store M) (vs vt : String → Val) : Prop :=
  (∀ n, n ≠ nm → vt n = vs n) ∧ vt nm = s₀.vars nm

/-- Blocks other than that of the definition do not read the temporary. -/
theorem reads_outside (h : x.Local taken b nm rhs) {j : ℕ} (hc : x.before[j]? = some c)
    (hj : j ≠ x.block) (hplaced : ∀ st ∈ c.stmts, st.placed = true) :
    (∀ st ∈ c.stmts, st.reads nm = false) ∧ c.termReads nm = false := by
  have hno : c.uses nm none = false := by
    have hall := h.inside
    unfold usedOutside at hall
    rw [List.any_eq_false] at hall
    have hcj := hall (c, j) (List.mk_mem_zipIdx_iff_getElem?.2 hc)
    simpa [hj] using hcj
  refine ⟨fun st hst ↦ ?_, ?_⟩
  · rw [Bool.eq_false_iff]
    intro hreads
    obtain ⟨l, hl⟩ := List.mem_iff_getElem?.1 hst
    exact Bool.eq_false_iff.1 hno (uses_of_reads hplaced hl (by simp) hreads)
  · rw [Bool.eq_false_iff]
    exact fun hreads ↦ Bool.eq_false_iff.1 hno (uses_of_termReads hreads)

/-- A block other than that of the definition is kept. -/
theorem inlined_other (h : x.Local taken b nm rhs)
    (halias : ∀ n, W.aliased n = true → taken n = true) {j : ℕ} (hc : x.before[j]? = some c)
    (hj : j ≠ x.block) (hplaced : ∀ st ∈ c.stmts, st.placed = true) (hmem : t.mem = s.mem)
    (hR : Rel nm s₀ s.vars t.vars) :
    W.Inlined decl nm rhs (fun s' t' ↦ W.InlinedTerm nm rhs usedReturn c c s' t' ∧
      ∀ l ∈ c.targets, Rel nm s₀ s'.vars t'.vars) c.stmts c.stmts s t := by
  obtain ⟨hreads, hterm⟩ := h.reads_outside hc hj hplaced
  obtain ⟨ty, hd, hst⟩ := h.site
  have hdef : ∀ st ∈ c.stmts, st.defOf nm = none :=
    (defOf_of_single h.single hd (eq_take_append_cons hst) (by simp [Stmt.assigns, Stmt.defOf])).2
      j c hj hc
  refine .of_append_nil <| World.inlined_prefix (L := (· ≠ nm)) (fun st' hst' n hn ↦ ?_)
    (agreeOn_ne (h.not_aliased halias) hmem hR.1) fun hoff ↦ .nil ⟨.kept rfl (hoff.mono ?_), ?_⟩
  · rintro rfl
    rw [hreads st' hst'] at hn
    cases hn
  · rintro n hn rfl
    rw [hterm] at hn
    cases hn
  · exact fun l _ ↦ ⟨fun n hn ↦ hoff.2 n (.inr hn),
      (World.execStmts_vars_of_ne hdef t).trans hR.2⟩

theorem inlineAfter_stmts (i : ℕ) {st : Stmt} (hst : b.stmts[i]? = some st) :
    (b.inlineAfter i nm rhs).stmts = b.stmts.take i ++
      ([inlinedMark] ++ ((b.stmts.drop (i + 1)).map (·.mapExprs (·.substVar nm rhs)) ++ [])) := by
  rw [Block.inlineAfter, mapIdx_eq_append_cons id (·.mapExprs (·.substVar nm rhs)) hst
    (fun j hj ↦ ?_) fun j hj ↦ ?_, if_pos rfl]
  · simp
  · funext st
    simp [hj.ne, hj.le.not_gt]
  · simp [hj.ne', hj]

/-- The statements from the definition to its last read. -/
theorem spares (h : x.Local taken b nm rhs) (htext : x.LocalText taken usedReturn b nm rhs)
    (hplaced : ∀ st ∈ b.stmts, st.placed = true) {before after : List Stmt} {st : Stmt}
    (hsplit : b.stmts.drop (x.pos + 1) = before ++ st :: after)
    (hread : after.any (·.reads nm) = true ∨ b.termReads nm = true) : st.Spares taken rhs := by
  have hafter : ∀ st ∈ b.stmts.drop (x.pos + 1), st.placed = true := fun st hst ↦
    hplaced st (List.mem_of_mem_drop hst)
  have hmem : st ∈ hazardWindow nm x.pos b := by
    unfold hazardWindow
    dsimp only
    split
    · rw [hsplit]
      simp
    · next hcount =>
      have hread := hread.resolve_right fun hterm ↦ by
        rw [Block.termReads_eq_false (Nat.eq_zero_of_not_pos hcount)] at hterm
        cases hterm
      refine mem_take_lastRead hsplit ?_
      obtain ⟨c, hc, hreads⟩ := List.any_eq_true.1 hread
      refine List.any_eq_true.2 ⟨c, hc, decide_eq_true (Nat.pos_of_ne_zero fun hzero ↦ ?_)⟩
      rw [Stmt.countReads_eq_zero_iff (hafter c (by simp [hsplit, hc])), hreads] at hzero
      cases hzero
  have hclash : st.clashes rhs = false := by
    have := List.any_eq_false.1 h.window st hmem
    simpa using this
  refine ⟨fun n hn ↦ assigns_of_not_clashes hclash hn, h.memFree_or.imp_right fun hload ↦ ?_⟩
  exact leavesMem_of_not_clashes hclash (hafter st (by simp [hsplit])) hload
    (htext.locals hload st hmem)

/-- The block of the definition. -/
theorem inlined_self (h : x.Local taken b nm rhs)
    (htext : x.LocalText taken usedReturn b nm rhs)
    (halias : ∀ n, W.aliased n = true → taken n = true)
    (haddr : addrTaken x.before nm = false) (hplaced : ∀ st ∈ b.stmts, st.placed = true)
    (hmem : t.mem = s.mem) (hholds : x.LocalHolds W decl s₀.vars (x.block, s))
    (hR : Rel nm s₀ s.vars t.vars) :
    W.Inlined decl nm rhs
      (fun s' t' ↦ W.InlinedTerm nm rhs usedReturn b (b.inlineAfter x.pos nm rhs) s' t' ∧
        ∀ l ∈ b.targets, Rel nm s₀ s'.vars t'.vars)
      b.stmts (b.inlineAfter x.pos nm rhs).stmts s t := by
  obtain ⟨ty, hb, hst⟩ := h.site
  have hsplit := eq_take_append_cons hst
  have hdef : ∀ st ∈ b.stmts.take x.pos ++ b.stmts.drop (x.pos + 1), st.defOf nm = none :=
    (defOf_of_single h.single hb hsplit (by simp [Stmt.assigns, Stmt.defOf])).1
  obtain ⟨hdecl, hentry⟩ := hholds rfl b ty nm rhs ⟨hb, hst⟩
  have hbmem := List.mem_of_getElem? hb
  -- A variable that is read up to the definition is the same on both sides.
  have hsame : ∀ n, ((b.stmts.take x.pos).any (·.reads n) = true ∨ rhs.readsNamedVar n = true) →
      n ≠ nm ∨ t.vars nm = s.vars nm := by
    intro n hn
    by_cases hne : n = nm
    · exact .inr (hR.2.trans (hentry (hne ▸ hn)).symm)
    · exact .inl hne
  have hlate : ∀ late, (rhs.readsMem = true → late = false) →
      rhs.memFree taken = true ∨ late = false := fun late hlate ↦ h.memFree_or.imp_right hlate
  have hinl : W.Inlined decl nm rhs
      (fun s' t' ↦ W.InlinedTerm nm rhs usedReturn b (b.inlineAfter x.pos nm rhs) s' t' ∧
        ∀ l ∈ b.targets, Rel nm s₀ s'.vars t'.vars)
      (b.stmts.take x.pos ++ .assign (.var ty nm) rhs :: (b.stmts.drop (x.pos + 1) ++ []))
      (b.stmts.take x.pos ++ ([inlinedMark] ++
        ((b.stmts.drop (x.pos + 1)).map (·.mapExprs (·.substVar nm rhs)) ++ []))) s t := by
    refine World.inlined_def halias (h.not_aliased halias) h.impure
      (fun n ↦ n ≠ nm ∨ t.vars nm = s.vars nm) (b.termReads nm = true) (.inr ⟨_, rfl⟩)
      (fun _ hn ↦ .inl hn)
      (fun st hst n hn ↦ hsame n (.inl (List.any_eq_true.2 ⟨st, hst, hn⟩)))
      (fun n hn ↦ hsame n (.inr hn)) (agreeOn_ne (h.not_aliased halias) hmem hR.1).or_eq hdecl
      (fun st hst ↦ hdef st (by simp [hst])) (fun st hst e he ↦ ⟨htext.suits e ?_, ?_⟩)
      (fun st hst _ ↦ hlate _ fun hload ↦ htext.order hload st hst)
      (fun _ _ _ hsplit hread ↦ .inl (h.spares htext hplaced hsplit hread))
      fun s' t' hoff hvalue hnm ↦ .nil ⟨.of_value halias h.impure rfl (fun e he ↦ ⟨?_, ?_⟩)
        (fun _ ↦ hlate _ htext.termOrder) hoff hvalue,
        fun _ _ ↦ ⟨fun n hn ↦ hoff.2 n (.inr hn), ?_⟩⟩
    · exact List.mem_append_left _ (List.mem_flatMap.2 ⟨st, hst, he⟩)
    · exact not_isAddrOf_of_addrTaken haddr hbmem
        (List.mem_append_left _ (List.mem_flatMap.2 ⟨st, List.mem_of_mem_drop hst, he⟩))
    · exact htext.suits e (List.mem_append_right _ he)
    · exact not_isAddrOf_of_addrTaken haddr hbmem (List.mem_append_right _ he)
    · rw [hnm, World.execStmts_vars_of_ne (fun st hst ↦ hdef st (by simp [hst])) t]
      exact hR.2
  rwa [List.append_nil, ← hsplit, ← inlineAfter_stmts _ hst] at hinl

theorem inBlock_self (h : x.Local taken b nm rhs) :
    (x.inBlock nm rhs)[x.block]? = some (b.inlineAfter x.pos nm rhs) := by
  obtain ⟨ty, hb, -⟩ := h.site
  rw [Inlining.inBlock, List.getElem?_modify_eq, hb]
  rfl

theorem inBlock_other {j : ℕ} (hj : j ≠ x.block) :
    (x.inBlock nm rhs)[j]? = x.before[j]? := by
  rw [Inlining.inBlock, List.getElem?_modify_ne _ _ (Ne.symm hj)]

theorem replacedIn (h : x.Local taken b nm rhs) (j : ℕ) (c c' : Block)
    (hc : x.before[j]? = some c) (hc' : (x.inBlock nm rhs)[j]? = some c') :
    c.ReplacedIn nm rhs c' := by
  obtain ⟨ty, hb, hst⟩ := h.site
  by_cases hj : j = x.block
  · subst hj
    obtain rfl : b = c := Option.some.inj (hb.symm.trans hc)
    obtain rfl : b.inlineAfter x.pos nm rhs = c' := Option.some.inj (h.inBlock_self.symm.trans hc')
    have hdefs : ∀ st ∈ b.stmts.drop (x.pos + 1), st.defOf nm = none := fun st hmem ↦
      (defOf_of_single h.single hb (eq_take_append_cons hst)
        (by simp [Stmt.assigns, Stmt.defOf])).1 st (by simp [hmem])
    refine Block.replacedIn_of_mapTerm rfl ?_
    rw [inlineAfter_stmts _ hst, List.append_nil]
    have hkept : Replaced nm rhs (b.stmts.take x.pos) (b.stmts.take x.pos) := .refl _
    have hrep := hkept.append (.blanked (.assign (.var ty nm) rhs) "\x01inl" (.map hdefs))
    rwa [← eq_take_append_cons hst] at hrep
  · rw [inBlock_other hj, hc] at hc'
    obtain rfl := Option.some.inj hc'
    exact Block.replacedIn_of_kept rfl (.refl _)

theorem derived (h : x.Local taken b nm rhs) (haddr : addrTaken x.before nm = false) :
    Derived x.before (x.inBlock nm rhs) := by
  obtain ⟨ty, hb, hst⟩ := h.site
  exact derived_of_replacedIn (by simp [Inlining.inBlock]) h.replacedIn haddr
    ⟨b, List.mem_of_getElem? hb, List.mem_append_left _ (List.mem_flatMap.2
      ⟨_, List.mem_of_getElem? hst, by simp [Stmt.exprs]⟩)⟩

/-- Inlining keeps every read, and the behaviour. -/
theorem sound (h : x.Local taken b nm rhs) {merged : Finset ℕ} {id : ℕ}
    (htext : x.LocalText taken usedReturn b nm rhs)
    (halias : ∀ n, W.aliased n = true → taken n = true)
    (haddr : addrTaken x.before nm = false)
    (hplaced : ∀ b ∈ x.before, ∀ st ∈ b.stmts, st.placed = true)
    (hrun : (graphMachine (W.interp decl) usedReturn merged x.before).Always
      (x.LocalHolds W decl s.vars) (id, s)) :
    (graphMachine (W.interp decl) usedReturn merged x.before).SameBehaviour (id, s)
        (graphMachine (W.interp decl) usedReturn merged (x.inBlock nm rhs)) (id, s) ∧
      (graphMachine (W.interp decl) usedReturn merged x.before).Together
        (graphMachine (W.interp decl) usedReturn merged (x.inBlock nm rhs))
        (W.InlinedAt decl nm rhs usedReturn merged x.before (x.inBlock nm rhs))
        (id, s) (id, s) := by
  refine World.inlined_run (R := fun _ ↦ Rel nm s) (h.not_aliased halias) h.impure
    (by simp [Inlining.inBlock]) (fun j s₁ t₁ c _ hc hholds hmem hR ↦ ?_)
    ⟨fun _ _ ↦ rfl, rfl⟩ hrun
  have hcplaced := hplaced c (List.mem_of_getElem? hc)
  by_cases hj : j = x.block
  · subst hj
    obtain ⟨ty, hb, -⟩ := h.site
    obtain rfl : b = c := Option.some.inj (hb.symm.trans hc)
    exact ⟨_, h.inBlock_self, h.inlined_self htext halias haddr hcplaced hmem hholds hR⟩
  · exact ⟨c, by rw [inBlock_other hj, hc], h.inlined_other halias hc hj hcplaced hmem hR⟩

end Sound

end Inlining.Local

/-! ### The inlinings of the pass -/

section Rounds

variable {info : VarInfo} {taken : String → Bool} {g : List Block}

/-- The inlining `x` is one that the pass makes, with result `h`. -/
def Inlining.IsLocal (taken : String → Bool) (x : Inlining) (h : List Block) : Prop :=
  ∃ b nm rhs, x.Local taken b nm rhs ∧ addrTaken x.before nm = false ∧ h = x.inBlock nm rhs

theorem Inlining.IsLocal.derived {x : Inlining} {h : List Block} (hx : x.IsLocal taken h) :
    Derived x.before h := by
  obtain ⟨b, nm, rhs, hloc, haddr, rfl⟩ := hx
  exact hloc.derived haddr

theorem localStep_steps {run : InlineRun} (k i : ℕ)
    (haddr : ∀ n, addrTaken g n = true → taken n = true)
    (h : InlineSteps (Inlining.IsLocal taken) g run.log run.graph) :
    InlineSteps (Inlining.IsLocal taken) g (localStep info taken (countWrites g) k run i).log
      (localStep info taken (countWrites g) k run i).graph := by
  have hder := h.derived fun _ _ hx ↦ hx.derived
  unfold localStep
  split
  · next b hb =>
    split
    · next nm rhs hdef =>
      obtain ⟨st, hst, hdef⟩ := Option.bind_eq_some_iff.1 hdef
      obtain ⟨⟨ty, rfl⟩, htaken, hwrites, hcall, hinputs⟩ := of_localDef hdef
      split
      · next hok =>
        simp only [localInlinable, Bool.and_eq_true, Bool.not_eq_true'] at hok
        refine InlineSteps.snoc (x := ⟨run.graph, k, i⟩) h ⟨b, nm, rhs,
          ⟨⟨ty, hb, hst⟩, htaken, (hder.writes nm).trans hwrites.le, hcall, hinputs, hok.1.1,
            hok.2⟩, ?_, rfl⟩
        exact Bool.eq_false_iff.2 fun hn ↦ Bool.eq_false_iff.1 htaken (haddr nm (hder.addr nm hn))
      · exact h
    · exact h
  · exact h

theorem erasesMarks_modify (g : List Block) (k : ℕ) :
    ErasesMarks g (g.modify k Block.eraseMarked) := by
  refine ⟨by simp, fun j b b' hb hb' ↦ ?_⟩
  by_cases hj : k = j
  · subst hj
    rw [List.getElem?_modify_eq, hb] at hb'
    exact .inr (Option.some.inj hb').symm
  · rw [List.getElem?_modify_ne _ _ hj, hb] at hb'
    exact .inl (Option.some.inj hb').symm

theorem localBlock_steps {run : InlineRun} (k : ℕ)
    (haddr : ∀ n, addrTaken g n = true → taken n = true)
    (h : InlineSteps (Inlining.IsLocal taken) g run.log run.graph) :
    InlineSteps (Inlining.IsLocal taken) g (localBlock info taken (countWrites g) run k).log
      (localBlock info taken (countWrites g) run k).graph := by
  have hsteps := List.foldlRecOn (motive := fun run : InlineRun ↦
    InlineSteps (Inlining.IsLocal taken) g run.log run.graph)
    (List.range ((run.graph[k]?.map (·.stmts.length)).getD 0))
    (localStep info taken (countWrites g) k) h fun run h i _ ↦ localStep_steps k i haddr h
  have herased := hsteps.trans (.erase (erasesMarks_modify _ k) (.done _))
  rwa [List.append_nil] at herased

theorem localRound_steps (haddr : ∀ n, addrTaken g n = true → taken n = true) :
    InlineSteps (Inlining.IsLocal taken) g (localRound info taken g).log
      (localRound info taken g).graph :=
  List.foldlRecOn (motive := fun run : InlineRun ↦
    InlineSteps (Inlining.IsLocal taken) g run.log run.graph) _ _ (.done g)
    fun _ h k _ ↦ localBlock_steps k haddr h

/-- The pass is a sequence of inlinings. -/
theorem inlineLocalLoads_steps (info : VarInfo) (budgetOk : ℕ → Bool) (g : List Block) :
    InlineSteps (Inlining.IsLocal (addrTaken g)) g (inlineLocalLoads info budgetOk g).log
      (inlineLocalLoads info budgetOk g).graph :=
  InlineSteps.rounds (fun _ _ hx ↦ hx.derived)
    (fun _ hder ↦ localRound_steps fun n hn ↦ hder.addr n hn) 12 (.done g)

end Rounds

/-! ### Soundness -/

/-- Each read of the temporary after its definition finds the value that the definition has there
after the inlining, and every other read the value it had. -/
def Inlining.LocalReadsKept {M E : Type} (W : World M E) (decl : String → Val → Val)
    (usedReturn : Bool) (merged : Finset ℕ) (p : ℕ × Store M) (x : Inlining) : Prop :=
  ∃ b ty nm rhs, x.Defines b ty nm rhs ∧
    (graphMachine (W.interp decl) usedReturn merged x.before).Together
      (graphMachine (W.interp decl) usedReturn merged (x.inBlock nm rhs))
      (W.InlinedAt decl nm rhs usedReturn merged x.before (x.inBlock nm rhs)) p p

/-- **Inlining local loads is sound** along the runs in which no read that comes before a definition
in its block finds another value than on entry. -/
theorem inlineLocalLoads_sound {M E : Type} (W : World M E) (decl : String → Val → Val)
    (info : VarInfo) (budgetOk : ℕ → Bool) (g : List Block) (usedReturn : Bool)
    (merged : Finset ℕ) (id : ℕ) (s : Store M)
    (halias : ∀ n, W.aliased n = true → addrTaken g n = true)
    (hplaced : ∀ b ∈ g, ∀ st ∈ b.stmts, st.placed = true)
    (htext : ∀ x ∈ (inlineLocalLoads info budgetOk g).log, ∀ b ty nm rhs,
      x.Defines b ty nm rhs → x.LocalText (addrTaken g) usedReturn b nm rhs)
    (hrun : ∀ x ∈ (inlineLocalLoads info budgetOk g).log,
      (graphMachine (W.interp decl) usedReturn merged x.before).Always
        (x.LocalHolds W decl s.vars) (id, s)) :
    (∀ x ∈ (inlineLocalLoads info budgetOk g).log,
      x.LocalReadsKept W decl usedReturn merged (id, s)) ∧
    (graphMachine (W.interp decl) usedReturn merged g).SameBehaviour (id, s)
      (graphMachine (W.interp decl) usedReturn merged (inlineLocalLoads info budgetOk g).graph)
      (id, s) := by
  have hsteps := inlineLocalLoads_steps info budgetOk g
  have hderived : ∀ x k, Inlining.IsLocal (addrTaken g) x k → Derived x.before k :=
    fun _ _ hx ↦ hx.derived
  refine ⟨fun x hx ↦ ?_, hsteps.sameBehaviour hderived fun x k hx hxk hder ↦ ?_⟩
  · obtain ⟨hder, k, b, nm, rhs, hloc, haddr, -⟩ := hsteps.of_mem hderived hx
    obtain ⟨ty, hsite⟩ := hloc.site
    exact ⟨b, ty, nm, rhs, hsite, (hloc.sound (htext x hx b ty nm rhs hsite) halias haddr
      (hder.placed hplaced) (hrun x hx)).2⟩
  · obtain ⟨b, nm, rhs, hloc, haddr, rfl⟩ := hxk
    obtain ⟨ty, hsite⟩ := hloc.site
    exact (hloc.sound (htext x hx b ty nm rhs hsite) halias haddr (hder.placed hplaced)
      (hrun x hx)).1

/-! ### A read that sees the last turn of a loop -/

/-- `do { f(v1); v1 = a1; f(v1); } while (1);` -/
def carriedRead : List Block :=
  [{ stmts := [.call (.call {} "f" false 0 [.mkVar "v1"]), .assign (.mkVar "v1") (.mkVar "a1"),
       .call (.call {} "f" false 0 [.mkVar "v1"])]
     ends := .jmp
     taken := some 0 }]

theorem carriedRead_inlined : (inlineLocalLoads {} (fun _ ↦ true) carriedRead).graph =
    [{ stmts := [.call (.call {} "f" false 0 [.mkVar "v1"]),
         .call (.call {} "f" false 0 [.mkVar "a1"])]
       ends := .jmp
       taken := some 0 }] :=
  rfl

/-- On entry `a1` holds `1` and the other variables `0`. -/
def carriedStore : Store (Val → Val) :=
  ⟨fun n ↦ if n = "a1" then 1 else 0, fun _ ↦ 0⟩

/-- In its second turn the loop passes the entry value of `v1` again. -/
theorem carriedRead_differs :
    ¬ (graphMachine (traceWorld.interp fun _ v ↦ v) false ∅ carriedRead).SameBehaviour
      (0, carriedStore)
      (graphMachine (traceWorld.interp fun _ v ↦ v) false ∅
        (inlineLocalLoads {} (fun _ ↦ true) carriedRead).graph)
      (0, carriedStore) := by
  intro h
  have hleft : (graphMachine (traceWorld.interp fun _ v ↦ v) false ∅ carriedRead).Emits
      (0, carriedStore) [.world [0], .world [1], .world [1]] := ⟨2, by decide⟩
  have hboth := (h.emits_iff _).1 hleft
  rw [carriedRead_inlined] at hboth
  have hright : (graphMachine (traceWorld.interp fun _ v ↦ v) false ∅
      [{ stmts := [.call (.call {} "f" false 0 [.mkVar "v1"]),
           .call (.call {} "f" false 0 [.mkVar "a1"])]
         ends := .jmp
         taken := some 0 }]).Emits
      (0, carriedStore) [.world [0], .world [1], .world [0]] := ⟨2, by decide⟩
  rcases hboth.comparable hright with hprefix | hprefix
  · exact absurd hprefix (by decide)
  · exact absurd hprefix (by decide)

/-! ### A load that is read once -/

/-- `v1 = *a1; f(v1); return;` -/
def loadRead : List Block :=
  [{ stmts := [.assign (.mkVar "v1") (.mem {} (.mkVar "a1")),
       .call (.call {} "f" false 0 [.mkVar "v1"])]
     ends := .ret }]

theorem loadRead_log : (inlineLocalLoads {} (fun _ ↦ true) loadRead).log =
    [⟨loadRead, 0, 0⟩] :=
  rfl

theorem loadRead_sound :
    (∀ x ∈ (inlineLocalLoads {} (fun _ ↦ true) loadRead).log,
      x.LocalReadsKept traceWorld (fun _ v ↦ v) false ∅ (0, carriedStore)) ∧
    (graphMachine (traceWorld.interp fun _ v ↦ v) false ∅ loadRead).SameBehaviour
      (0, carriedStore)
      (graphMachine (traceWorld.interp fun _ v ↦ v) false ∅
        (inlineLocalLoads {} (fun _ ↦ true) loadRead).graph)
      (0, carriedStore) := by
  refine inlineLocalLoads_sound traceWorld (fun _ v ↦ v) {} (fun _ ↦ true) loadRead
    false ∅ 0 carriedStore (fun _ h ↦ absurd h Bool.false_ne_true)
    (by simp [loadRead, Stmt.placed, Expr.isPlace, Expr.mkVar]) ?_ ?_
  · rw [loadRead_log]
    rintro x hx b ty nm rhs ⟨hb, hst⟩
    obtain rfl := List.mem_singleton.1 hx
    cases hb
    cases hst
    exact ⟨by decide, fun _ _ hst ↦ (List.not_mem_nil hst).elim, fun _ ↦ by decide,
      fun _ ↦ by decide⟩
  · rw [loadRead_log]
    rintro x hx p -
    obtain rfl := List.mem_singleton.1 hx
    rintro - b ty nm rhs ⟨hb, hst⟩
    cases hb
    cases hst
    exact ⟨rfl, fun hread ↦ absurd hread (by decide)⟩

end Ldu
