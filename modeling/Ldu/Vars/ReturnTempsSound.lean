import Ldu.Semantics.FirstRead
import Ldu.Vars.DeadTempsSound
import Ldu.Vars.ReturnTemps

/-!
# Temporaries in the returned value have their value

The one read of the temporary comes after its definition, and nothing else sees that the definition
is gone. What the pass does not look at is gathered in `Inlining.ReturnText`: locals that live in
memory, calls before the read in the returned value, and, for a definition that calls, whether the
read is evaluated at all and before everything that sees the call. Without those, and where `fold`
keeps the meaning of the new returned value, the behaviour is kept (`foldReturnTemps_sound`).
-/

namespace Ldu

/-! ### Terminators that only return -/

/-- The block leaves the function at once, with its returned value. -/
def Block.returnsValue (usedReturn : Bool) (b : Block) : Bool :=
  usedReturn && b.hasRetValue && b.tailCall.isNone &&
    match b.ends with
    | .ret => true
    | .jmp => !b.isSwitch && b.taken.isNone
    | .fall => !b.isSwitch && b.fall.isNone
    | .jcc => false

section Transfer

variable {σ E R : Type*} {I : Interp σ E R} {usedReturn : Bool} {b b' : Block}

theorem transfer_of_returnsValue (h : b.returnsValue usedReturn = true) (s : σ) :
    transfer I usedReturn b s = ((I.leave (.value b.retValue) s).1,
      .inr (some (I.leave (.value b.retValue) s).2)) := by
  unfold Block.returnsValue at h
  simp only [Bool.and_eq_true, Option.isNone_iff_eq_none] at h
  obtain ⟨⟨⟨hused, hret⟩, htail⟩, hends⟩ := h
  have htext : b.retText usedReturn = .value b.retValue := by
    simp [Block.retText, hused, hret, htail]
  unfold transfer
  cases hb : b.ends <;> simp only [hb, Bool.and_eq_true, Bool.not_eq_true',
    Option.isNone_iff_eq_none, Bool.false_eq_true] at hends
  · simp only [hends.1, hends.2, goTo, leaveBy, htext]
  · simp only [hends.1, hends.2, goTo, leaveBy, htext]
  · simp only [leaveBy, htext]

/-- Terminators that differ in a returned value of the same meaning. -/
theorem transfer_congr (hexits : b.SameExits b') (hcond : b'.cond = b.cond)
    (hsel : b'.switchVar = b.switchVar)
    (hleave : I.leave (b'.retText usedReturn) = I.leave (b.retText usedReturn)) (s : σ) :
    transfer I usedReturn b' s = transfer I usedReturn b s := by
  have hgo : ∀ tgt s, goTo I usedReturn b' tgt s = goTo I usedReturn b tgt s := by
    intro tgt s
    unfold goTo leaveBy
    rw [hleave]
  have hby : ∀ s, leaveBy I usedReturn b' s = leaveBy I usedReturn b s := by
    intro s
    unfold leaveBy
    rw [hleave]
  unfold transfer Block.condExpr Block.selExpr Block.caseTarget
  simp only [hexits.ends, hexits.isSwitch, hexits.taken, hexits.fall, hexits.caseSucc,
    hexits.defaultSucc, hcond, hsel, hgo, hby]

end Transfer

/-! ### Statements in between -/

section Between

variable {M E : Type} {W : World M E} {decl : String → Val → Val} {taken : String → Bool}
  {v : String} {rhs : Expr} {s t : Store M}

theorem execAll_append (sts rest : List Stmt) (s : Store M) :
    (W.interp decl).execAll (sts ++ rest) s =
      emit ((W.interp decl).execAll sts s).1
        ((W.interp decl).execAll rest (W.execStmts decl sts s)) := by
  induction sts generalizing s with
  | nil => rfl
  | cons st sts ih =>
    have hcons : ∀ l, (W.interp decl).execAll (st :: l) s =
        emit ((W.execStmt decl st s).1.map .world)
          ((W.interp decl).execAll l (W.execStmt decl st s).2.2) := fun l ↦ rfl
    rw [List.cons_append, hcons, hcons, ih, emit_emit]
    rfl

/-- Statements that read nothing on which the stores differ. -/
theorem lockstep_kept (decl : String → Val → Val) {L : String → Prop} {sts : List Stmt}
    (hreads : ∀ st ∈ sts, ∀ n, st.reads n = true → L n) (h : AgreeOn W L s t) :
    Lockstep (AgreeOn W L) ((W.interp decl).execAll sts s) ((W.interp decl).execAll sts t) := by
  induction sts generalizing s t with
  | nil => exact lockstep_inl h
  | cons st sts ih =>
    refine lockstep_cons (AgreeOn.exec (h.mono fun n hn ↦ ?_)) fun s' t' _ h' ↦
      ih (fun st hst ↦ hreads st (by simp [hst])) h'
    exact hn.elim (hreads st (by simp) n) fun hn ↦ hn.2

/-- The statement assigns a local outside memory from locals outside memory, and `rhs` does not
depend on it. -/
def Stmt.Apart (taken : String → Bool) (v : String) (rhs : Expr) (st : Stmt) : Prop :=
  ∃ ty n e, st = .assign (.var ty n) e ∧ n ≠ v ∧ taken n = false ∧ e.quiet taken = true ∧
    e.readsNamedVar v = false ∧ rhs.readsNamedVar n = false

/-- What statements apart from a call do to two stores, which may differ in `v` and in memory. -/
structure RunsApart (W : World M E) (decl : String → Val → Val) (v : String) (rhs : Expr)
    (sts : List Stmt) (s t : Store M) : Prop where
  left : (W.interp decl).execAll sts s = ([], .inl (W.execStmts decl sts s))
  right : (W.interp decl).execAll sts t = ([], .inl (W.execStmts decl sts t))
  memLeft : (W.execStmts decl sts s).mem = s.mem
  memRight : (W.execStmts decl sts t).mem = t.mem
  off : ∀ n, n ≠ v → (W.execStmts decl sts t).vars n = (W.execStmts decl sts s).vars n
  kept : (W.execStmts decl sts s).vars v = s.vars v
  inputs : ∀ n, rhs.readsNamedVar n = true → (W.execStmts decl sts t).vars n = t.vars n

/-- An assignment from locals outside memory to one. -/
theorem execStmt_quiet (decl : String → Val → Val)
    (halias : ∀ n, W.aliased n = true → taken n = true) (ty : Ty) {n : String} {e : Expr}
    (hn : taken n = false) (he : e.quiet taken = true) (s : Store M) :
    W.execStmt decl (.assign (.var ty n) e) s =
      ([], (), ⟨Function.update s.vars n (decl n (W.eval e s).2.1), s.mem⟩) := by
  simp only [Expr.quiet, Bool.and_eq_true, Bool.not_eq_true'] at he
  have hal : W.aliased n = false := Bool.eq_false_iff.2 fun h ↦ by
    rw [halias n h] at hn
    cases hn
  have hsilent := (W.silent_eval he.2 s)
  rw [W.execStmt_var, hsilent.1, hsilent.2, World.write, if_neg (by rw [hal]; decide)]

theorem runsApart (decl : String → Val → Val)
    (halias : ∀ n, W.aliased n = true → taken n = true) {sts : List Stmt}
    (h : ∀ st ∈ sts, st.Apart taken v rhs) (hoff : ∀ n, n ≠ v → t.vars n = s.vars n) :
    RunsApart W decl v rhs sts s t := by
  induction sts generalizing s t with
  | nil => exact ⟨rfl, rfl, rfl, rfl, hoff, rfl, fun _ _ ↦ rfl⟩
  | cons st sts ih =>
    obtain ⟨ty, n, e, rfl, hnv, hn, he, hev, hrhs⟩ := h st (by simp)
    have hs := execStmt_quiet decl halias ty hn he s
    have ht := execStmt_quiet decl halias ty hn he t
    have hvalue : (W.eval e t).2.1 = (W.eval e s).2.1 := by
      simp only [Expr.quiet, Bool.and_eq_true, Bool.not_eq_true'] at he
      refine W.eval_memFree halias he.1 he.2 fun m hm ↦ hoff m ?_
      rintro rfl
      rw [hev] at hm
      cases hm
    obtain ⟨hl, hr, hml, hmr, hoff', hkept, hinputs⟩ := ih (fun st hst ↦ h st (by simp [hst]))
      (s := (W.execStmt decl (.assign (.var ty n) e) s).2.2)
      (t := (W.execStmt decl (.assign (.var ty n) e) t).2.2) fun m hm ↦ by
        rw [hs, ht, hvalue]
        dsimp only
        by_cases hmn : m = n
        · rw [hmn, Function.update_self, Function.update_self]
        · rw [Function.update_of_ne hmn, Function.update_of_ne hmn, hoff m hm]
    refine ⟨?_, ?_, ?_, ?_, hoff', ?_, fun m hm ↦ ?_⟩
    · rw [World.execAll_silent_cons (by rw [hs])]
      exact hl
    · rw [World.execAll_silent_cons (by rw [ht])]
      exact hr
    · exact hml.trans (by rw [hs])
    · exact hmr.trans (by rw [ht])
    · exact hkept.trans (execStmt_vars_of_ne W (by simp [Stmt.defOf, hnv]) s)
    · refine (hinputs m hm).trans (execStmt_vars_of_ne W ?_ t)
      have hne : n ≠ m := by
        rintro rfl
        rw [hrhs] at hm
        cases hm
      simp [Stmt.defOf, hne]

end Between

/-! ### What the pass checks, and what it does not -/

/-- The temporary `v` is inlined in the value `ret` that its block returns. -/
structure Inlining.Returned (taken : String → Bool) (b : Block) (v : String) (rhs ret : Expr)
    (x : Inlining) : Prop where
  site : ∃ ty, x.Defines b ty v rhs
  value : b.retValue = some ret
  address : taken v = false
  writes : countWrites x.before v = 1
  reads : totalReads x.before v = ret.countVarReads v + b.retRaw.elim 0 (·.countVarReads v)
  once : ret.countVarReads v = 1
  hazards : ∀ st ∈ b.stmts.drop (x.pos + 1), st.returnHazard rhs = false

/-- The function after the inlining. -/
def Inlining.returned (P : Expr.PtrInfo) (x : Inlining) (v : String) (rhs ret : Expr) :
    List Block :=
  x.before.modify x.block (·.foldReturn x.pos (Expr.fold P (ret.substVar v rhs)))

/-- The text of the block. The read looks like the definition, and `fold` keeps the meaning of the
new returned value. If the definition depends on memory or calls, no statement after it changes
memory; if it calls, no statement after it reads a local that lives there. If it does not call, it
does not depend on memory or the read does not come after a call. If it calls, the block returns the
value, and the read comes first in it. -/
structure Inlining.ReturnText {M E : Type} (W : World M E) (P : Expr.PtrInfo)
    (taken : String → Bool) (usedReturn : Bool) (b : Block) (v : String) (rhs ret : Expr)
    (x : Inlining) : Prop where
  suits : ret.suits v rhs.ty = true
  mem : rhs.quiet taken = true ∨ ∀ st ∈ b.stmts.drop (x.pos + 1), st.leavesMem taken = true
  locals : rhs.hasImpureCall = true → ∀ st ∈ b.stmts.drop (x.pos + 1), ∀ n, st.reads n = true →
    taken n = false
  late : rhs.hasImpureCall = false →
    rhs.memFree taken = true ∨ Expr.lateReadList v (b.operands usedReturn) = false
  first : rhs.hasImpureCall = true →
    b.returnsValue usedReturn = true ∧ ret.firstRead taken v = true
  simplified : W.eval (Expr.fold P (ret.substVar v rhs)) = W.eval (ret.substVar v rhs)

namespace Inlining.Returned

section Reads

variable {taken : String → Bool} {x : Inlining} {b c : Block} {v : String} {rhs ret : Expr}

theorem countTermReads_eq (h : x.Returned taken b v rhs ret) :
    b.countTermReads v = ret.countVarReads v + b.retRaw.elim 0 (·.countVarReads v) +
      (b.cond.elim 0 (·.countVarReads v) + b.switchVar.elim 0 (·.countVarReads v) +
        b.tailCall.elim 0 (·.countVarReads v)) := by
  unfold Block.countTermReads Block.termExprs
  rw [h.value]
  cases b.cond <;> cases b.switchVar <;> cases b.retRaw <;> cases b.tailCall <;>
    simp <;> omega

/-- All reads of the temporary stand in the returned value and its copy. -/
theorem counts (h : x.Returned taken b v rhs ret) :
    (b.stmts.map (·.countReads v)).sum = 0 ∧ (∀ e ∈ b.cond, e.countVarReads v = 0) ∧
      (∀ e ∈ b.switchVar, e.countVarReads v = 0) ∧ ∀ e ∈ b.tailCall, e.countVarReads v = 0 := by
  obtain ⟨ty, hb, -⟩ := h.site
  have hle : (b.stmts.map (·.countReads v)).sum + b.countTermReads v ≤ totalReads x.before v :=
    List.single_le_sum (by simp) _ (List.mem_map.2 ⟨b, List.mem_of_getElem? hb, rfl⟩)
  rw [h.reads, h.countTermReads_eq] at hle
  have hzero : ∀ o : Option Expr, o.elim 0 (·.countVarReads v) = 0 →
      ∀ e ∈ o, e.countVarReads v = 0 := by
    rintro o ho e rfl
    exact ho
  exact ⟨by omega, hzero _ (by omega), hzero _ (by omega), hzero _ (by omega)⟩

theorem counts_other (h : x.Returned taken b v rhs ret) {j : ℕ} (hc : x.before[j]? = some c)
    (hj : j ≠ x.block) : (c.stmts.map (·.countReads v)).sum = 0 ∧ c.countTermReads v = 0 := by
  obtain ⟨ty, hb, -⟩ := h.site
  have hle : (b.stmts.map (·.countReads v)).sum + b.countTermReads v +
      ((c.stmts.map (·.countReads v)).sum + c.countTermReads v) ≤ totalReads x.before v :=
    add_le_sum (l := x.before.map fun b ↦ (b.stmts.map (·.countReads v)).sum + b.countTermReads v)
      hj.symm (by simp [hb]) (by simp [hc])
  rw [h.reads, h.countTermReads_eq] at hle
  omega

/-- No statement reads the temporary. -/
theorem not_reads (h : x.Returned taken b v rhs ret) {j : ℕ} (hc : x.before[j]? = some c)
    (hplaced : ∀ st ∈ c.stmts, st.placed = true) {st : Stmt} (hst : st ∈ c.stmts) :
    st.reads v = false := by
  have hsum : (c.stmts.map (·.countReads v)).sum = 0 := by
    by_cases hj : j = x.block
    · subst hj
      obtain ⟨ty, hb, -⟩ := h.site
      obtain rfl : b = c := Option.some.inj (hb.symm.trans hc)
      exact h.counts.1
    · exact (h.counts_other hc hj).1
  refine (Stmt.countReads_eq_zero_iff (hplaced st hst)).1 ?_
  exact List.sum_eq_zero_iff.1 hsum _ (List.mem_map_of_mem hst)

/-- The definition at hand is the only one. -/
theorem defOf_eq_none (h : x.Returned taken b v rhs ret) {st : Stmt}
    (hst : st ∈ b.stmts.drop (x.pos + 1)) : st.defOf v = none := by
  obtain ⟨ty, hb, hdef⟩ := h.site
  refine (defOf_of_single h.writes.le hb (eq_take_append_cons hdef) ?_).1 st
    (List.mem_append_right _ hst)
  simp [Stmt.assigns, Stmt.defOf]

/-- The other expressions of the terminator do not read the temporary. -/
theorem substVar_term (h : x.Returned taken b v rhs ret) :
    b.cond.map (·.substVar v rhs) = b.cond ∧ b.switchVar.map (·.substVar v rhs) = b.switchVar ∧
      b.tailCall.map (·.substVar v rhs) = b.tailCall := by
  have hkept : ∀ o : Option Expr, (∀ e ∈ o, e.countVarReads v = 0) →
      o.map (·.substVar v rhs) = o := by
    intro o ho
    cases o with
    | none => rfl
    | some e =>
      rw [Option.map_some, Expr.substVar_of_not_reads (Expr.not_reads_of_count (ho e rfl))]
  obtain ⟨-, hcond, hsel, htail⟩ := h.counts
  exact ⟨hkept _ hcond, hkept _ hsel, hkept _ htail⟩

end Reads

section Sound

variable {M E : Type} {W : World M E} {decl : String → Val → Val} {P : Expr.PtrInfo}
  {taken : String → Bool} {usedReturn : Bool} {x : Inlining} {b c : Block} {v : String}
  {rhs ret : Expr} {s t : Store M}

theorem not_aliased (h : x.Returned taken b v rhs ret)
    (halias : ∀ n, W.aliased n = true → taken n = true) : W.aliased v = false :=
  Bool.eq_false_iff.2 fun hal ↦ Bool.eq_false_iff.1 h.address (halias v hal)

theorem ne_of_reads (h : x.Returned taken b v rhs ret) {j : ℕ} (hc : x.before[j]? = some c)
    (hplaced : ∀ st ∈ c.stmts, st.placed = true) {st : Stmt} (hst : st ∈ c.stmts) {n : String}
    (hn : st.reads n = true) : n ≠ v := by
  rintro rfl
  rw [h.not_reads hc hplaced hst] at hn
  cases hn

/-- A block other than that of the definition. -/
theorem lockstep_other (h : x.Returned taken b v rhs ret) {j : ℕ} (hc : x.before[j]? = some c)
    (hj : j ≠ x.block) (hplaced : ∀ st ∈ c.stmts, st.placed = true)
    (hoff : AgreeOn W (· ≠ v) s t) :
    Lockstep (SameBlock (AgreeOn W (· ≠ v))) (runBlock (W.interp decl) usedReturn c s)
      (runBlock (W.interp decl) usedReturn c t) := by
  refine lockstep_runBlock
    (lockstep_kept decl (fun st hst n hn ↦ h.ne_of_reads hc hplaced hst hn) hoff)
    fun s' t' _ hoff' ↦ AgreeOn.transfer (fun n hn ↦ ?_) hoff' ⟨rfl, rfl, rfl, rfl, rfl, rfl⟩ rfl
      rfl rfl
  rintro rfl
  rw [Block.termReads_eq_false (h.counts_other hc hj).2] at hn
  cases hn

/-- The block without the copy of the returned value. -/
def bare (b : Block) : Block :=
  { b with retRaw := none }

/-- The block with the definition inlined, before the returned value is simplified. -/
def inlined (v : String) (rhs : Expr) (i : ℕ) (b : Block) : Block :=
  { (bare b).mapTerm (·.substVar v rhs) with stmts := b.stmts.take i ++ b.stmts.drop (i + 1) }

/-- Simplifying the returned value changes nothing. -/
theorem transfer_foldReturn (h : x.Returned taken b v rhs ret)
    (hsimp : W.eval (Expr.fold P (ret.substVar v rhs)) = W.eval (ret.substVar v rhs)) :
    transfer (W.interp decl) usedReturn
        (b.foldReturn x.pos (Expr.fold P (ret.substVar v rhs))) t =
      transfer (W.interp decl) usedReturn (inlined v rhs x.pos b) t := by
  obtain ⟨hcond, hsel, htail⟩ := h.substVar_term
  have hexits : (inlined v rhs x.pos b).SameExits
      (b.foldReturn x.pos (Expr.fold P (ret.substVar v rhs))) := ⟨rfl, rfl, rfl, rfl, rfl, rfl⟩
  refine transfer_congr hexits hcond.symm hsel.symm ?_ t
  have hret : (inlined v rhs x.pos b).retValue = some (ret.substVar v rhs) := by
    simp [inlined, bare, Block.mapTerm, Block.mapExprs, h.value]
  have htc : (inlined v rhs x.pos b).tailCall = b.tailCall := htail
  have hhas : (inlined v rhs x.pos b).hasRetValue = b.hasRetValue := rfl
  funext s
  unfold Block.retText
  rw [hret, htc, hhas]
  cases htail' : b.tailCall <;> cases usedReturn <;> cases hhas' : b.hasRetValue <;>
    simp [Block.foldReturn, htail', hhas', World.interp, hsimp]

/-- The statements after a definition that does not call. -/
theorem spares (h : x.Returned taken b v rhs ret)
    (htext : x.ReturnText W P taken usedReturn b v rhs ret) {st : Stmt}
    (hst : st ∈ b.stmts.drop (x.pos + 1)) : st.Spares taken rhs := by
  refine ⟨fun n hn ↦ ?_, htext.mem.imp (fun hquiet ↦ ?_) fun hmem ↦ hmem st hst⟩
  · rw [Stmt.assigns, Option.isSome_eq_false_iff, Option.isNone_iff_eq_none]
    cases hdef : st.defOf n with
    | none => rfl
    | some e =>
      obtain ⟨ty, rfl⟩ := defOf_eq_some hdef
      have hhazard := h.hazards _ hst
      simp [Stmt.returnHazard, hn] at hhazard
  · simp only [Expr.quiet, Bool.and_eq_true] at hquiet
    exact hquiet.1

/-- The block of a definition that does not call. -/
theorem inlined_pure (h : x.Returned taken b v rhs ret)
    (htext : x.ReturnText W P taken usedReturn b v rhs ret) (himp : rhs.hasImpureCall = false)
    (halias : ∀ n, W.aliased n = true → taken n = true)
    (haddr : ∀ e ∈ b.exprs, e.anyNode (Expr.isAddrOf v) = false)
    (hplaced : ∀ st ∈ b.stmts, st.placed = true) (hoff : AgreeOn W (· ≠ v) s t)
    (hholds : x.DeadHolds W decl (x.block, s)) :
    W.Inlined decl v rhs
      (fun s' t' ↦ W.InlinedTerm v rhs usedReturn (bare b) (inlined v rhs x.pos b) s' t' ∧
        AgreeOn W (· ≠ v) s' t') b.stmts (inlined v rhs x.pos b).stmts s t := by
  obtain ⟨ty, hb, hst⟩ := h.site
  have hsplit := eq_take_append_cons hst
  have hafter : ∀ st ∈ b.stmts.drop (x.pos + 1), st ∈ b.stmts := fun st hst ↦
    List.mem_of_mem_drop hst
  have hdef : ∀ st ∈ b.stmts.drop (x.pos + 1), st.defOf v = none := fun st hst ↦
    h.defOf_eq_none hst
  have hreads : ∀ st ∈ b.stmts, st.reads v = false := fun st hst ↦ h.not_reads hb hplaced hst
  have hmap : (b.stmts.drop (x.pos + 1)).map (·.mapExprs (·.substVar v rhs)) =
      b.stmts.drop (x.pos + 1) := by
    conv_rhs => rw [← List.map_id (b.stmts.drop (x.pos + 1))]
    exact List.map_congr_left fun st hst ↦ mapExprs_of_not_reads (hplaced st (hafter st hst))
      (hdef st hst) (hreads st (hafter st hst))
  have hinl : W.Inlined decl v rhs
      (fun s' t' ↦ W.InlinedTerm v rhs usedReturn (bare b) (inlined v rhs x.pos b) s' t' ∧
        AgreeOn W (· ≠ v) s' t')
      (b.stmts.take x.pos ++ .assign (.var ty v) rhs :: (b.stmts.drop (x.pos + 1) ++ []))
      (b.stmts.take x.pos ++ ([] ++
        ((b.stmts.drop (x.pos + 1)).map (·.mapExprs (·.substVar v rhs)) ++ []))) s t := by
    refine World.inlined_def halias (h.not_aliased halias) himp (· ≠ v) True (.inl rfl)
      (fun _ hn ↦ hn)
      (fun st hst n hn ↦ h.ne_of_reads hb hplaced (List.mem_of_mem_take hst) hn)
      (fun n hn ↦ h.ne_of_reads hb hplaced (List.mem_of_getElem? hst) hn) hoff
      (hholds rfl b ty v rhs ⟨hb, hst⟩) hdef
      (fun st hst e he ↦ ⟨?_, haddr e (List.mem_append_left _ (List.mem_flatMap.2
        ⟨st, hafter st hst, he⟩))⟩)
      (fun st hst hread ↦ ?_) (fun before st after hcut _ ↦ .inl (h.spares htext ?_))
      fun s' t' hoff' hvalue _ ↦ .nil ⟨.of_value halias himp rfl (fun e he ↦ ?_)
        (fun _ ↦ htext.late himp) hoff' (fun _ ↦ hvalue trivial), hoff'⟩
    · exact Expr.suits_of_not_reads
        (exprs_of_not_reads (hdef st hst) (hreads st (hafter st hst)) he)
    · rw [hreads st (hafter st hst)] at hread
      cases hread
    · rw [hcut]
      simp
    · refine ⟨?_, haddr e (List.mem_append_right _ ?_)⟩
      · obtain ⟨-, hcond, hsel, htail⟩ := h.counts
        have hno : ∀ o : Option Expr, (∀ e ∈ o, e.countVarReads v = 0) → e ∈ o →
            e.suits v rhs.ty = true := fun o ho he ↦
          Expr.suits_of_not_reads (Expr.not_reads_of_count (ho e he))
        simp only [bare, Block.termExprs, h.value, List.mem_append, Option.mem_toList,
          Option.toList_none, List.not_mem_nil, or_false] at he
        rcases he with ((he | he) | he) | he
        · exact hno _ hcond he
        · exact hno _ hsel he
        · obtain rfl := Option.some.inj he
          exact htext.suits
        · exact hno _ htail he
      · simp only [bare, Block.termExprs, List.mem_append, Option.toList_none, List.not_mem_nil,
          or_false] at he ⊢
        tauto
  rw [hmap, List.nil_append, List.append_nil, ← hsplit] at hinl
  exact hinl

theorem lockstep_pure (h : x.Returned taken b v rhs ret)
    (htext : x.ReturnText W P taken usedReturn b v rhs ret) (himp : rhs.hasImpureCall = false)
    (halias : ∀ n, W.aliased n = true → taken n = true)
    (haddr : ∀ e ∈ b.exprs, e.anyNode (Expr.isAddrOf v) = false)
    (hplaced : ∀ st ∈ b.stmts, st.placed = true) (hoff : AgreeOn W (· ≠ v) s t)
    (hholds : x.DeadHolds W decl (x.block, s)) :
    Lockstep (SameBlock (AgreeOn W (· ≠ v))) (runBlock (W.interp decl) usedReturn b s)
      (runBlock (W.interp decl) usedReturn
        (b.foldReturn x.pos (Expr.fold P (ret.substVar v rhs))) t) := by
  have hnm := h.not_aliased halias
  refine lockstep_runBlock ((h.inlined_pure htext himp halias haddr hplaced hoff
    hholds).lockstep hnm himp) fun s' t' _ ⟨hterm, hoff'⟩ ↦ ?_
  rw [h.transfer_foldReturn htext.simplified]
  refine (hterm.lockstep hnm himp).mono fun p q hpq ↦ ?_
  obtain ⟨hblock, hmem, hsv, htv⟩ := hpq
  refine ⟨hblock, hmem, fun n hn ↦ ?_⟩
  rw [hsv, htv]
  exact hoff'.2 n hn

/-- The statements after a definition that calls. -/
theorem apart (h : x.Returned taken b v rhs ret)
    (htext : x.ReturnText W P taken usedReturn b v rhs ret) (himp : rhs.hasImpureCall = true)
    (hplaced : ∀ st ∈ b.stmts, st.placed = true) {st : Stmt}
    (hst : st ∈ b.stmts.drop (x.pos + 1)) : st.Apart taken v rhs := by
  obtain ⟨ty, hb, -⟩ := h.site
  have hmem := List.mem_of_mem_drop hst
  have hdef := h.defOf_eq_none hst
  have hreads := h.not_reads hb hplaced hmem
  have hlocals := htext.locals himp st hst
  have hleaves : st.leavesMem taken = true := by
    refine (htext.mem.resolve_left fun hquiet ↦ ?_) st hst
    simp [Expr.quiet, himp] at hquiet
  have hhazard := h.hazards st hst
  have hplace := hplaced st hmem
  cases st with
  | assign lhs e =>
    cases lhs with
    | var ty n =>
      simp only [Stmt.returnHazard, himp, Bool.or_true, Bool.true_and, Bool.or_eq_false_iff]
        at hhazard
      simp only [Stmt.leavesMem, Bool.and_eq_true, Bool.not_eq_true'] at hleaves
      refine ⟨ty, n, e, rfl, ?_, hleaves.2, ?_, hreads, hhazard.2⟩
      · rintro rfl
        simp [Stmt.defOf] at hdef
      · rw [Expr.quiet, hleaves.1, Expr.memFree_of_not_readsMem hhazard.1.2 hlocals]
        rfl
    | mem ty a => cases hleaves
    | _ => cases hplace
  | call e | comment e => cases hhazard

/-- What is known of a block whose definition calls: the stores before the call, and at the end. -/
theorem bound_eq (h : x.Returned taken b v rhs ret) {ty : Ty}
    (hplaced : ∀ st ∈ b.stmts, st.placed = true) (hnm : W.aliased v = false) {sts : List Stmt}
    (hoff : AgreeOn W (· ≠ v) s t) (hdecl : decl v (W.eval rhs s).2.1 = (W.eval rhs s).2.1)
    (hrun : RunsApart W decl v rhs sts
      (W.execStmt decl (.assign (.var ty v) rhs) s).2.2 t) :
    (W.eval rhs (W.execStmts decl sts t)).1 = (W.eval rhs s).1 ∧
      W.bound v rhs (W.execStmts decl sts t) =
        W.execStmts decl sts (W.execStmt decl (.assign (.var ty v) rhs) s).2.2 := by
  obtain ⟨ty', hb, hst⟩ := h.site
  have hcall : W.eval rhs t = _ :=
    hoff.eval fun n hn ↦ h.ne_of_reads hb hplaced (List.mem_of_getElem? hst) hn
  have hlater : W.eval rhs (W.execStmts decl sts t) = _ :=
    W.eval_agree rhs hrun.memRight hrun.inputs
  rw [hcall] at hlater
  have hstore : (W.execStmt decl (.assign (.var ty v) rhs) s).2.2 =
      ⟨Function.update s.vars v (W.eval rhs s).2.1, (W.eval rhs s).2.2.mem⟩ := by
    rw [W.execStmt_var, World.write, if_neg (by rw [hnm]; decide), hdecl, W.eval_vars]
  refine ⟨by rw [hlater], ?_⟩
  have hvars : (W.bound v rhs (W.execStmts decl sts t)).vars =
      (W.execStmts decl sts (W.execStmt decl (.assign (.var ty v) rhs) s).2.2).vars := by
    funext n
    by_cases hn : n = v
    · rw [hn, hrun.kept, hstore, World.bound, hlater]
      simp only [Function.update_self]
    · rw [World.bound_vars_of_ne hn, hrun.off n hn]
  have hmem : (W.bound v rhs (W.execStmts decl sts t)).mem =
      (W.execStmts decl sts (W.execStmt decl (.assign (.var ty v) rhs) s).2.2).mem := by
    rw [hrun.memLeft, hstore, World.bound, hlater]
  exact congrArg₂ Store.mk hvars hmem

/-- The block of a definition that calls. -/
theorem lockstep_impure (h : x.Returned taken b v rhs ret)
    (htext : x.ReturnText W P taken usedReturn b v rhs ret) (himp : rhs.hasImpureCall = true)
    (halias : ∀ n, W.aliased n = true → taken n = true)
    (haddr : ∀ e ∈ b.exprs, e.anyNode (Expr.isAddrOf v) = false)
    (hplaced : ∀ st ∈ b.stmts, st.placed = true) (hoff : AgreeOn W (· ≠ v) s t)
    (hholds : x.DeadHolds W decl (x.block, s)) :
    Lockstep (SameBlock (AgreeOn W (· ≠ v))) (runBlock (W.interp decl) usedReturn b s)
      (runBlock (W.interp decl) usedReturn
        (b.foldReturn x.pos (Expr.fold P (ret.substVar v rhs))) t) := by
  have hnm := h.not_aliased halias
  obtain ⟨ty, hb, hst⟩ := h.site
  obtain ⟨hreturns, hfirst⟩ := htext.first himp
  have hpre : ∀ st ∈ b.stmts.take x.pos, ∀ n, st.reads n = true → n ≠ v := fun st hst n hn ↦
    h.ne_of_reads hb hplaced (List.mem_of_mem_take hst) hn
  have hoff₁ := World.execStmts_agree decl hpre hoff
  have hevents := (lockstep_kept decl hpre hoff).1
  have hrun := runsApart decl halias (fun st hst ↦ h.apart htext himp hplaced hst)
    (s := (W.execStmt decl (.assign (.var ty v) rhs)
      (W.execStmts decl (b.stmts.take x.pos) s)).2.2)
    (t := W.execStmts decl (b.stmts.take x.pos) t) fun n hn ↦ by
      rw [execStmt_vars_of_ne W (by simp [Stmt.defOf, hn.symm]), hoff₁.2 n (.inr hn)]
  obtain ⟨hcall, hbound⟩ := h.bound_eq hplaced hnm hoff₁ (hholds rfl b ty v rhs ⟨hb, hst⟩) hrun
  -- The call comes before what the returned value does.
  have hafter := World.after_eval (t := W.execStmts decl (b.stmts.drop (x.pos + 1))
    (W.execStmts decl (b.stmts.take x.pos) t)) halias hnm htext.suits
    (haddr ret (List.mem_append_right _ (by simp [Block.termExprs, h.value]))) hfirst h.once
  rw [World.After, hbound, hcall] at hafter
  have hleft : (W.interp decl).execAll b.stmts s =
      (((W.interp decl).execAll (b.stmts.take x.pos) s).1 ++
        (W.eval rhs (W.execStmts decl (b.stmts.take x.pos) s)).1.map .world,
        .inl (W.execStmts decl (b.stmts.drop (x.pos + 1)) (W.execStmt decl
          (.assign (.var ty v) rhs) (W.execStmts decl (b.stmts.take x.pos) s)).2.2)) := by
    conv_lhs => rw [eq_take_append_cons hst, execAll_append]
    have hcons : (W.interp decl).execAll
        (.assign (.var ty v) rhs :: b.stmts.drop (x.pos + 1))
        (W.execStmts decl (b.stmts.take x.pos) s) = emit ((W.execStmt decl
          (.assign (.var ty v) rhs) (W.execStmts decl (b.stmts.take x.pos) s)).1.map .world)
          ((W.interp decl).execAll (b.stmts.drop (x.pos + 1)) _) := rfl
    rw [hcons, hrun.left, W.execStmt_var, emit_emit, emit, List.append_nil]
  have hright : (W.interp decl).execAll (b.stmts.take x.pos ++ b.stmts.drop (x.pos + 1)) t =
      (((W.interp decl).execAll (b.stmts.take x.pos) s).1,
        .inl (W.execStmts decl (b.stmts.drop (x.pos + 1))
          (W.execStmts decl (b.stmts.take x.pos) t))) := by
    rw [execAll_append, hrun.right, hevents, emit, List.append_nil]
  rw [runBlock_of_inl hleft, runBlock_of_inl (b := b.foldReturn x.pos _) hright,
    transfer_of_returnsValue hreturns,
    transfer_of_returnsValue (b := b.foldReturn x.pos _) hreturns, h.value]
  have hleave : ∀ s, (W.interp decl).leave (.value (some (Expr.fold P (ret.substVar v rhs)))) s =
      ((W.eval (ret.substVar v rhs) s).1.map .world,
        some (W.eval (ret.substVar v rhs) s).2.1) := fun s ↦ by
    rw [← htext.simplified]
    rfl
  simp only [Block.foldReturn, hleave, hafter, emit, List.map_append, ← List.append_assoc]
  exact lockstep_inr

theorem returned_self (h : x.Returned taken b v rhs ret) : (x.returned P v rhs ret)[x.block]? =
    some (b.foldReturn x.pos (Expr.fold P (ret.substVar v rhs))) := by
  obtain ⟨ty, hb, -⟩ := h.site
  rw [Inlining.returned, List.getElem?_modify_eq, hb]
  rfl

theorem returned_other {j : ℕ} (hj : j ≠ x.block) :
    (x.returned P v rhs ret)[j]? = x.before[j]? := by
  rw [Inlining.returned, List.getElem?_modify_ne _ _ hj.symm]

/-- One inlining keeps the behaviour. -/
theorem sound (h : x.Returned taken b v rhs ret)
    (htext : x.ReturnText W P taken usedReturn b v rhs ret) {merged : Finset ℕ} {id : ℕ}
    (halias : ∀ n, W.aliased n = true → taken n = true)
    (haddr : ∀ e ∈ b.exprs, e.anyNode (Expr.isAddrOf v) = false)
    (hplaced : ∀ b ∈ x.before, ∀ st ∈ b.stmts, st.placed = true)
    (hrun : (graphMachine (W.interp decl) usedReturn merged x.before).Always
      (x.DeadHolds W decl) (id, s)) :
    (graphMachine (W.interp decl) usedReturn merged x.before).SameBehaviour (id, s)
      (graphMachine (W.interp decl) usedReturn merged (x.returned P v rhs ret)) (id, s) := by
  refine Machine.Simulation.sameBehaviour_of_always (Q := SameBlock (AgreeOn W (· ≠ v)))
    (fun p q hpq halways ↦ matches_of_lockstep ?_) ⟨rfl, agreeOn_refl _ s⟩ hrun
  obtain ⟨_, s₁⟩ := p
  obtain ⟨k, t₁⟩ := q
  obtain ⟨rfl, hoff⟩ := hpq
  by_cases hk : k ∈ merged
  · exact World.lockstep_no_block (by simp [Inlining.returned]) (.inl hk)
  cases hc : x.before[k]? with
  | none => exact World.lockstep_no_block (by simp [Inlining.returned]) (.inr hc)
  | some c =>
    have hcplaced := hplaced c (List.mem_of_getElem? hc)
    by_cases hj : k = x.block
    · subst hj
      obtain ⟨ty, hb, -⟩ := h.site
      obtain rfl : b = c := Option.some.inj (hb.symm.trans hc)
      rw [graphMachine_step _ _ hk hb, graphMachine_step _ _ hk h.returned_self]
      cases himp : rhs.hasImpureCall with
      | false => exact h.lockstep_pure htext himp halias haddr hcplaced hoff halways.now
      | true => exact h.lockstep_impure htext himp halias haddr hcplaced hoff halways.now
    · rw [graphMachine_step _ _ hk hc, graphMachine_step _ _ hk ((returned_other hj).trans hc)]
      exact h.lockstep_other hc hj hcplaced hoff

end Sound

end Inlining.Returned

/-! ### The inlinings of the pass -/

section Steps

variable {info : VarInfo} {P : Expr.PtrInfo} {taken : String → Bool} {g : List Block}

theorem of_returnTemp {b : Block} {ret : Expr} {i : ℕ} {v : String} {rhs : Expr}
    (h : returnTemp info taken g b ret i = some (v, rhs)) {k : ℕ} (hb : g[k]? = some b)
    (hret : b.retValue = some ret) : (⟨g, k, i⟩ : Inlining).Returned taken b v rhs ret := by
  unfold returnTemp at h
  split at h
  · next ty v' rhs' hst =>
    dsimp only at h
    split at h
    · cases h
    · next hc =>
      obtain ⟨rfl, rfl⟩ : v' = v ∧ rhs' = rhs := by simpa using h
      simp only [Bool.or_eq_true, not_or, Bool.not_eq_true, bne_eq_false_iff_eq] at hc
      obtain ⟨⟨⟨⟨⟨⟨⟨⟨htaken, -⟩, -⟩, hwrites⟩, hreads⟩, honce⟩, -⟩, hhazard⟩, -⟩ := hc
      refine ⟨⟨ty, hb, hst⟩, hret, htaken, hwrites, hreads, honce, fun st hst ↦ ?_⟩
      simpa using List.any_eq_false.1 hhazard st hst
  · cases h

/-- A block is left alone, or one temporary is inlined. -/
theorem returnStep_cases (info : VarInfo) (P : Expr.PtrInfo) (taken : String → Bool)
    (run : InlineRun) (k : ℕ) : returnStep info P taken run k = run ∨
    ∃ b v rhs ret i, (⟨run.graph, k, i⟩ : Inlining).Returned taken b v rhs ret ∧
      returnStep info P taken run k =
        ⟨(⟨run.graph, k, i⟩ : Inlining).returned P v rhs ret, run.log ++ [⟨run.graph, k, i⟩]⟩ := by
  unfold returnStep
  split
  · next b hb =>
    split
    · next ret hret =>
      split
      · next i v rhs hfound =>
        obtain ⟨i', -, hi⟩ := List.exists_of_findSome?_eq_some hfound
        obtain ⟨d, hd, heq⟩ := Option.map_eq_some_iff.1 hi
        obtain ⟨rfl, rfl⟩ := Prod.mk.inj heq
        exact .inr ⟨b, v, rhs, ret, i', of_returnTemp hd hb hret, rfl⟩
      · exact .inl rfl
    · exact .inl rfl
  · exact .inl rfl

/-- The pass has not come to block `k` yet. -/
structure ReturnRun (g : List Block) (k : ℕ) (run : InlineRun) : Prop where
  rest : ∀ j, k ≤ j → run.graph[j]? = g[j]?
  placed : (∀ b ∈ g, ∀ st ∈ b.stmts, st.placed = true) →
    ∀ b ∈ run.graph, ∀ st ∈ b.stmts, st.placed = true

theorem ReturnRun.step {run : InlineRun} {k : ℕ} (h : ReturnRun g k run) :
    ReturnRun g (k + 1) (returnStep info P taken run k) := by
  rcases returnStep_cases info P taken run k with heq | ⟨b, v, rhs, ret, i, hx, heq⟩
  · rw [heq]
    exact ⟨fun j hj ↦ h.rest j (by omega), h.placed⟩
  · rw [heq]
    refine ⟨fun j hj ↦ ?_, fun hplaced c hc st hst ↦ ?_⟩
    · exact (Inlining.Returned.returned_other (by dsimp only; omega)).trans (h.rest j (by omega))
    · obtain ⟨j, hj⟩ := List.mem_iff_getElem?.1 hc
      by_cases hjk : j = k
      · subst hjk
        obtain ⟨ty, hb, -⟩ := hx.site
        obtain rfl := Option.some.inj (hj.symm.trans hx.returned_self)
        refine h.placed hplaced b (List.mem_of_getElem? hb) st ?_
        simp only [Block.foldReturn, List.mem_append] at hst
        exact hst.elim List.mem_of_mem_take List.mem_of_mem_drop
      · exact h.placed hplaced c (List.mem_of_getElem?
          ((Inlining.Returned.returned_other (x := ⟨run.graph, k, i⟩) hjk).symm.trans hj)) st hst

end Steps

/-! ### Soundness -/

section Soundness

variable {M E : Type} {W : World M E} {decl : String → Val → Val} {info : VarInfo}
  {P : Expr.PtrInfo} {g : List Block} {usedReturn : Bool} {merged : Finset ℕ} {id : ℕ}
  {s : Store M}

/-- What has to be known of an inlining. -/
def Inlining.ReturnSafe (W : World M E) (decl : String → Val → Val) (P : Expr.PtrInfo)
    (taken : String → Bool) (usedReturn : Bool) (merged : Finset ℕ) (p : ℕ × Store M)
    (x : Inlining) : Prop :=
  (∀ b ty v rhs ret, x.Defines b ty v rhs → b.retValue = some ret →
    x.ReturnText W P taken usedReturn b v rhs ret) ∧
  (graphMachine (W.interp decl) usedReturn merged x.before).Always (x.DeadHolds W decl) p

/-- The pass up to block `k`. -/
theorem returnRun_sound (halias : ∀ n, W.aliased n = true → addrTaken g n = true)
    (hplaced : ∀ b ∈ g, ∀ st ∈ b.stmts, st.placed = true) (k : ℕ) {run : InlineRun}
    (hdef : run = (List.range k).foldl (returnStep info P (addrTaken g)) ⟨g, []⟩) :
    ReturnRun g k run ∧
      ((∀ x ∈ run.log, x.ReturnSafe W decl P (addrTaken g) usedReturn merged (id, s)) →
        (graphMachine (W.interp decl) usedReturn merged g).SameBehaviour (id, s)
          (graphMachine (W.interp decl) usedReturn merged run.graph) (id, s)) := by
  induction k generalizing run with
  | zero =>
    subst hdef
    exact ⟨⟨fun _ _ ↦ rfl, fun h ↦ h⟩, fun _ ↦ .refl _ _⟩
  | succ k ih =>
    rw [List.range_succ, List.foldl_append] at hdef
    obtain ⟨hrun, hsame⟩ := ih rfl
    subst hdef
    refine ⟨hrun.step, fun hsafe ↦ ?_⟩
    rw [List.foldl_cons, List.foldl_nil] at hsafe ⊢
    rcases returnStep_cases info P (addrTaken g)
      ((List.range k).foldl (returnStep info P (addrTaken g)) ⟨g, []⟩) k with
      heq | ⟨b, v, rhs, ret, i, hx, heq⟩
    · rw [heq] at hsafe ⊢
      exact hsame hsafe
    · rw [heq] at hsafe ⊢
      obtain ⟨ty, hb, hst⟩ := hx.site
      obtain ⟨htext, halways⟩ := hsafe _ (List.mem_append_right _ (List.mem_singleton_self _))
      refine (hsame fun x hx ↦ hsafe x (List.mem_append_left _ hx)).trans
        (hx.sound (htext b ty v rhs ret ⟨hb, hst⟩ hx.value) halias (fun e he ↦ ?_)
          (hrun.placed hplaced) halways)
      -- The block is still the one whose addresses were collected.
      have hbg : g[k]? = some b := (hrun.rest k le_rfl).symm.trans hb
      exact not_isAddrOf_of_addrTaken hx.address (List.mem_of_getElem? hbg) he

/-- **Folding temporaries into returned values is sound** along the runs in which the declared type
of each holds its value, where the text of its block is as it should be. -/
theorem foldReturnTemps_sound (W : World M E) (decl : String → Val → Val) (info : VarInfo)
    (P : Expr.PtrInfo) (g : List Block) (usedReturn : Bool) (merged : Finset ℕ) (id : ℕ)
    (s : Store M) (halias : ∀ n, W.aliased n = true → addrTaken g n = true)
    (hplaced : ∀ b ∈ g, ∀ st ∈ b.stmts, st.placed = true)
    (htext : ∀ x ∈ (foldReturnTemps info P g).log, ∀ b ty v rhs ret,
      x.Defines b ty v rhs → b.retValue = some ret →
        x.ReturnText W P (addrTaken g) usedReturn b v rhs ret)
    (hrun : ∀ x ∈ (foldReturnTemps info P g).log,
      (graphMachine (W.interp decl) usedReturn merged x.before).Always
        (x.DeadHolds W decl) (id, s)) :
    (graphMachine (W.interp decl) usedReturn merged g).SameBehaviour (id, s)
      (graphMachine (W.interp decl) usedReturn merged (foldReturnTemps info P g).graph) (id, s) :=
  (returnRun_sound halias hplaced g.length rfl).2 fun x hx ↦ ⟨htext x hx, hrun x hx⟩

end Soundness

/-! ### A call in the arm of a conditional -/

/-- `v1 = f(7); return a2 ? v1 : 0;` -/
def conditionalReturn : List Block :=
  [{ stmts := [.assign (.mkVar "v1") (.call {} "f" false 0 [.mkConst 7])]
     ends := .ret
     hasRetValue := true
     retValue := some (.ternary {} (.mkVar "a2") (.mkVar "v1") (.mkConst 0))
     retRaw := some (.ternary {} (.mkVar "a2") (.mkVar "v1") (.mkConst 0)) }]

/-- `return a2 ? f(7) : 0;` -/
theorem conditionalReturn_folded : (foldReturnTemps {} {} conditionalReturn).graph =
    [{ stmts := []
       ends := .ret
       hasRetValue := true
       retValue := some (.ternary {} (.mkVar "a2") (.call {} "f" false 0 [.mkConst 7]) (.mkConst 0))
       retRaw :=
        some (.ternary {} (.mkVar "a2") (.call {} "f" false 0 [.mkConst 7]) (.mkConst 0)) }] :=
  rfl

/-- When `a2` is `0`, the call is not made any more. -/
theorem conditionalReturn_differs :
    ¬ (graphMachine (traceWorld.seen fun _ v ↦ v) true ∅ conditionalReturn).SameBehaviour
      (0, zeroStore)
      (graphMachine (traceWorld.seen fun _ v ↦ v) true ∅
        (foldReturnTemps {} {} conditionalReturn).graph) (0, zeroStore) := by
  intro h
  have hleft : (graphMachine (traceWorld.seen fun _ v ↦ v) true ∅ conditionalReturn).Returns
      (0, zeroStore) [[7]] (some (some 0)) := ⟨1, rfl⟩
  have hright : (graphMachine (traceWorld.seen fun _ v ↦ v) true ∅
      (foldReturnTemps {} {} conditionalReturn).graph).Returns (0, zeroStore) []
      (some (some 0)) := by
    rw [conditionalReturn_folded]
    exact ⟨1, rfl⟩
  have htrace := (Machine.Returns.unique ((h.returns_iff _ _).1 hleft) hright).1
  exact absurd htrace (by decide)

/-! ### A call that is evaluated first -/

/-- `v1 = f(7); v2 = a2; return v1 + v2;` -/
def firstReturn : List Block :=
  [{ stmts := [.assign (.mkVar "v1") (.call {} "f" false 0 [.mkConst 7]),
       .assign (.mkVar "v2") (.mkVar "a2")]
     ends := .ret
     hasRetValue := true
     retValue := some (.binary {} .add (.mkVar "v1") (.mkVar "v2")) }]

theorem firstReturn_log : (foldReturnTemps {} {} firstReturn).log = [⟨firstReturn, 0, 0⟩] :=
  rfl

theorem firstReturn_sound :
    (graphMachine (traceWorld.interp fun _ v ↦ v) true ∅ firstReturn).SameBehaviour (0, zeroStore)
      (graphMachine (traceWorld.interp fun _ v ↦ v) true ∅
        (foldReturnTemps {} {} firstReturn).graph) (0, zeroStore) := by
  refine foldReturnTemps_sound traceWorld (fun _ v ↦ v) {} {} firstReturn true ∅ 0 zeroStore
    (fun _ h ↦ absurd h Bool.false_ne_true)
    (by simp [firstReturn, Stmt.placed, Expr.isPlace, Expr.mkVar]) ?_ ?_
  · rw [firstReturn_log]
    rintro x hx b ty v rhs ret ⟨hb, hst⟩ hret
    obtain rfl := List.mem_singleton.1 hx
    cases hb
    cases hst
    cases hret
    refine ⟨by decide, .inr (by decide), fun _ st hst n hn ↦ ?_, fun himp ↦ ?_,
      fun _ ↦ ⟨rfl, by decide⟩, rfl⟩
    · rfl
    · exact absurd himp (by decide)
  · rw [firstReturn_log]
    rintro x hx p -
    obtain rfl := List.mem_singleton.1 hx
    rintro - b ty v rhs ⟨hb, hst⟩
    rfl

end Ldu
