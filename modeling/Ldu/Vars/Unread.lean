import Ldu.Vars.ReturnTemps

/-!
# Variables that are never read

`dead_store_elim` drops the assignments to variables that nothing in the function reads, and
repeats this while something is dropped, at most 16 times. Unlike the passes that look at liveness,
it drops calls that are known to be pure. `simplify_unused_call_temps` keeps the call and drops the
temporary that takes its value.

Neither pass looks at addresses: `&x` counts as a read of `x`.
-/

namespace Ldu

/-- The statement assigns to a variable that nothing reads, with no impure call. -/
def isUnreadStore (g : List Block) : Stmt → Bool
  | .assign (.var _ x) rhs => !rhs.hasImpureCall && totalReads g x == 0
  | _ => false

/-- One round of `dead_store_elim`. -/
def unreadRound (g : List Block) : List Block :=
  g.map fun b ↦ { b with stmts := b.stmts.filter fun st ↦ !isUnreadStore g st }

/-- A round drops something. -/
def unreadChanges (g : List Block) : Bool :=
  g.any (·.stmts.any (isUnreadStore g))

/-- Rounds while something is dropped and the budget allows. -/
def unreadRounds (budgetOk : ℕ → Bool) : ℕ → List Block → List Block
  | 0, g => g
  | k + 1, g =>
    if !budgetOk k then g
    else if unreadChanges g then unreadRounds budgetOk k (unreadRound g)
    else unreadRound g

/-- `dead_store_elim`; `budgetOk k` says whether the deadline has passed when `k` rounds are
left. -/
def deadStoreElim (budgetOk : ℕ → Bool) (g : List Block) : List Block :=
  unreadRounds budgetOk 16 g

/-- A call whose value nothing reads, without its temporary. The number of reads is that of the
function before the pass: a statement reads the same before and after. -/
def Stmt.bareCall (callTemps : String → Bool) (g : List Block) : Stmt → Stmt
  | assign (.var ty x) rhs =>
    if callTemps x && rhs.hasCall && totalReads g x == 0 then call rhs else assign (.var ty x) rhs
  | st => st

/-- `simplify_unused_call_temps`. -/
def simplifyUnusedCallTemps (callTemps : String → Bool) (g : List Block) : List Block :=
  g.map fun b ↦ { b with stmts := b.stmts.map (·.bareCall callTemps g) }

/-! ### What the passes leave -/

section Lemmas

variable {g : List Block} {callTemps : String → Bool} {n : String}

theorem isUnreadStore_eq_true {st : Stmt} (h : isUnreadStore g st = true) :
    ∃ ty x rhs, st = .assign (.var ty x) rhs ∧ rhs.hasImpureCall = false ∧
      totalReads g x = 0 := by
  unfold isUnreadStore at h
  split at h
  · next ty x rhs =>
    simp only [Bool.and_eq_true, Bool.not_eq_true', beq_iff_eq] at h
    exact ⟨ty, x, rhs, rfl, h.1, h.2⟩
  · cases h

theorem Stmt.countReads_bareCall (st : Stmt) :
    (st.bareCall callTemps g).countReads n = st.countReads n := by
  unfold bareCall
  split
  · split <;> rfl
  · rfl

/-- While `simplify_unused_call_temps` runs, the number of reads stays the same. -/
theorem totalReads_simplifyUnusedCallTemps :
    totalReads (simplifyUnusedCallTemps callTemps g) n = totalReads g n := by
  unfold totalReads simplifyUnusedCallTemps
  rw [List.map_map]
  refine congrArg List.sum (List.map_congr_left fun b _ ↦ ?_)
  simp only [Function.comp_apply, List.map_map]
  refine congrArg₂ _ (congrArg List.sum (List.map_congr_left fun st _ ↦ ?_)) rfl
  exact st.countReads_bareCall

/-- The rounds end after some of them. -/
theorem exists_unreadRounds (budgetOk : ℕ → Bool) (k : ℕ) (g : List Block) :
    ∃ j ≤ k, unreadRounds budgetOk k g = unreadRound^[j] g := by
  induction k generalizing g with
  | zero => exact ⟨0, le_rfl, rfl⟩
  | succ k ih =>
    unfold unreadRounds
    split
    · exact ⟨0, Nat.zero_le _, rfl⟩
    · split
      · obtain ⟨j, hj, heq⟩ := ih (unreadRound g)
        exact ⟨j + 1, by omega, heq⟩
      · exact ⟨1, by omega, rfl⟩

end Lemmas

/-! ### Reads and addresses -/

section Reads

variable {g : List Block} {b : Block} {st : Stmt} {n : String}

/-- Every statement of the function assigns to a variable or to a memory cell, if it assigns. -/
def Placed (g : List Block) : Prop :=
  ∀ b ∈ g, ∀ st ∈ b.stmts, st.placed = true

theorem totalReads_eq_zero (h : totalReads g n = 0) (hb : b ∈ g) :
    (∀ st ∈ b.stmts, st.countReads n = 0) ∧ b.countTermReads n = 0 := by
  rw [totalReads, List.sum_eq_zero_iff] at h
  have hblock := h _ (List.mem_map.2 ⟨b, hb, rfl⟩)
  rw [Nat.add_eq_zero_iff, List.sum_eq_zero_iff] at hblock
  exact ⟨fun st hst ↦ hblock.1 _ (List.mem_map.2 ⟨st, hst, rfl⟩), hblock.2⟩

/-- What nothing reads, no statement reads. -/
theorem Placed.not_reads (h : Placed g) (hn : totalReads g n = 0) (hb : b ∈ g)
    (hst : st ∈ b.stmts) : st.reads n = false :=
  (Stmt.countReads_eq_zero_iff (h b hb st hst)).1 ((totalReads_eq_zero hn hb).1 st hst)

/-- An expression with `&n` reads `n`. -/
theorem Expr.readsNamedVar_of_addrOf {e : Expr} (h : e.anyNode (Expr.isAddrOf n) = true) :
    e.readsNamedVar n = true := by
  induction e using Expr.childInduction with
  | h e ih =>
    rw [Expr.anyNode_eq, Bool.or_eq_true, List.any_eq_true] at h
    rcases h with h | ⟨c, hc, h⟩
    · unfold Expr.isAddrOf at h
      split at h
      · next ty ty' x =>
        refine Expr.readsNamedVar_of_child (c := .var ty' x) (by simp [Expr.children]) n ?_
        rw [beq_iff_eq.1 h]
        simp [Expr.readsNamedVar, Expr.anyNode, Expr.isVarNamed]
      · cases h
    · exact Expr.readsNamedVar_of_child hc n (ih c hc h)

/-- The address of what nothing reads is not taken. -/
theorem Placed.not_addrTaken (h : Placed g) (hn : totalReads g n = 0) : addrTaken g n = false := by
  refine Bool.eq_false_iff.2 fun htaken ↦ ?_
  obtain ⟨b, hb, htaken⟩ := List.any_eq_true.1 htaken
  obtain ⟨e, he, htaken⟩ := List.any_eq_true.1 htaken
  have hread := Expr.readsNamedVar_of_addrOf htaken
  rcases List.mem_append.1 he with he | he
  · obtain ⟨st, hst, he⟩ := List.mem_flatMap.1 he
    have hnot := h.not_reads hn hb hst
    cases st with
    | assign lhs rhs =>
      rcases List.mem_cons.1 he with rfl | he
      · cases e with
        | var => simp [Expr.anyNode, Expr.isAddrOf] at htaken
        | _ => rw [Stmt.reads_lhs (by simp) hread] at hnot; cases hnot
      · rw [List.mem_singleton] at he
        rw [Stmt.reads_rhs (he ▸ hread)] at hnot
        cases hnot
    | call rhs =>
      rw [Stmt.exprs, List.mem_singleton] at he
      simp [Stmt.reads, Stmt.exprs, ← he, hread] at hnot
    | comment => cases he
  · have hterm := (totalReads_eq_zero hn hb).2
    rw [Block.countTermReads, List.sum_eq_zero_iff] at hterm
    have hzero : e.countVarReads n = 0 := hterm _ (List.mem_map.2 ⟨e, he, rfl⟩)
    rw [Expr.readsNamedVar, Expr.anyNode_eq_false_iff.2 hzero] at hread
    cases hread

end Reads

/-! ### Forgetting variables -/

/-- Statements without some of the assignments to the variables in `U`: an assignment is dropped,
or its right side stays as a call. What stays reads no variable in `U`. -/
inductive Forgets (U : String → Prop) : List Stmt → List Stmt → Prop
  | nil : Forgets U [] []
  | keep {st sts sts'} (hst : ∀ n, U n → st.reads n = false) (h : Forgets U sts sts') :
      Forgets U (st :: sts) (st :: sts')
  | drop {ty x rhs sts sts'} (hx : U x) (hpure : rhs.hasImpureCall = false)
      (h : Forgets U sts sts') : Forgets U (.assign (.var ty x) rhs :: sts) sts'
  | bare {ty x rhs sts sts'} (hx : U x) (hrhs : ∀ n, U n → rhs.readsNamedVar n = false)
      (h : Forgets U sts sts') : Forgets U (.assign (.var ty x) rhs :: sts) (.call rhs :: sts')

section Sound

variable {M E : Type} {W : World M E} {decl : String → Val → Val} {U : String → Prop}
  {g : List Block} {usedReturn : Bool} {merged : Finset ℕ}

/-- Statements with variables forgotten, in stores that agree on the others. -/
theorem Forgets.lockstep {sts sts' : List Stmt} (h : Forgets U sts sts')
    (halias : ∀ n, U n → W.aliased n = false) {s t : Store M} (hst : AgreeOn W (¬ U ·) s t) :
    Lockstep (AgreeOn W (¬ U ·)) ((W.interp decl).execAll sts s)
      ((W.interp decl).execAll sts' t) := by
  induction h generalizing s t with
  | nil => exact lockstep_inl hst
  | @keep st sts sts' hreads _ ih =>
    refine lockstep_cons (AgreeOn.exec (hst.mono fun n hn ↦ ?_)) fun s' t' _ h' ↦ ih h'
    rcases hn with hn | ⟨-, hn⟩
    · exact fun hU ↦ by rw [hreads n hU] at hn; cases hn
    · exact hn
  | @drop ty x rhs sts sts' hx hpure _ ih =>
    have hexec : (W.interp decl).exec (.assign (.var ty x) rhs) s =
        ([], .inl (W.write s x (decl x (W.eval rhs s).2.1))) := by
      unfold World.interp
      dsimp only
      rw [W.execStmt_var, (W.silent_eval hpure s).eq]
      rfl
    rw [Interp.execAll, hexec]
    exact ih (hst.write_left (halias x hx) (not_not_intro hx))
  | @bare ty x rhs sts sts' hx hrhs _ ih =>
    refine lockstep_cons ?_ fun s' t' _ h' ↦ ih h'
    have heval := hst.eval (e := rhs) fun n hn hU ↦ by rw [hrhs n hU] at hn; cases hn
    unfold World.interp
    dsimp only
    rw [W.execStmt_var, World.execStmt, Effect.bind_apply, heval, Effect.pure_apply,
      List.append_nil]
    exact lockstep_inl (AgreeOn.write_left (AgreeOn.after hst (W.eval_vars rhs s)) (halias x hx)
      (not_not_intro hx))

/-- The same block, in stores that agree on the variables that are not forgotten. -/
def ForgetRel (W : World M E) (U : String → Prop) (p q : ℕ × Store M) : Prop :=
  q.1 = p.1 ∧ AgreeOn W (¬ U ·) p.2 q.2

/-- **A function behaves the same without the variables it does not read.** -/
theorem sameBehaviour_of_forgets {f : List Stmt → List Stmt}
    (hstmts : ∀ b ∈ g, Forgets U b.stmts (f b.stmts))
    (hterm : ∀ b ∈ g, ∀ n, U n → b.termReads n = false)
    (halias : ∀ n, U n → W.aliased n = false) (p : ℕ × Store M) :
    (graphMachine (W.interp decl) usedReturn merged g).SameBehaviour p
      (graphMachine (W.interp decl) usedReturn merged
        (g.map fun b ↦ { b with stmts := f b.stmts })) p := by
  refine Machine.Simulation.sameBehaviour (Q := ForgetRel W U) ?_ ⟨rfl, agreeOn_refl _ _⟩
  rintro ⟨_, s⟩ ⟨i, t⟩ ⟨rfl, hst⟩
  refine matches_of_lockstep ?_
  dsimp only at hst ⊢
  by_cases hmerged : i ∈ merged
  · simp only [graphMachine, hmerged, if_true]
    exact lockstep_inr
  cases hb : g[i]? with
  | none =>
    simp only [graphMachine, hmerged, if_false, List.getElem?_map, hb, Option.map_none]
    exact lockstep_inr
  | some b =>
    have hmem := List.mem_of_getElem? hb
    have hb' : (g.map fun b ↦ { b with stmts := f b.stmts })[i]? =
        some { b with stmts := f b.stmts } := by rw [List.getElem?_map, hb]; rfl
    rw [graphMachine_step _ _ hmerged hb, graphMachine_step _ _ hmerged hb']
    have hreads : ∀ n, b.termReads n = true → ¬ U n := fun n hn hU ↦ by
      rw [hterm b hmem n hU] at hn
      cases hn
    have hblock : Lockstep (SameBlock (AgreeOn W (¬ U ·)))
        (runBlock (W.interp decl) usedReturn b s)
        (runBlock (W.interp decl) usedReturn { b with stmts := f b.stmts } t) :=
      lockstep_runBlock ((hstmts b hmem).lockstep halias hst) fun s' t' _ h' ↦
        AgreeOn.transfer hreads h' ⟨rfl, rfl, rfl, rfl, rfl, rfl⟩ rfl rfl rfl
    refine hblock.mono ?_
    rintro ⟨k, s'⟩ ⟨j, t'⟩ ⟨hj, hst'⟩
    exact ⟨hj, hst'⟩

end Sound

/-! ### The two passes -/

section Rounds

variable {g : List Block} {n : String}

theorem forgets_filter (hplaced : Placed g) {b : Block} (hb : b ∈ g) :
    Forgets (totalReads g · = 0) b.stmts (b.stmts.filter fun st ↦ !isUnreadStore g st) := by
  have hall : ∀ sts : List Stmt, (∀ st ∈ sts, st ∈ b.stmts) →
      Forgets (totalReads g · = 0) sts (sts.filter fun st ↦ !isUnreadStore g st) := by
    intro sts hsub
    induction sts with
    | nil => exact .nil
    | cons st sts ih =>
      have ih := ih fun st hst ↦ hsub st (List.mem_cons_of_mem _ hst)
      rw [List.filter_cons]
      split
      · exact .keep (fun n hn ↦ hplaced.not_reads hn hb (hsub st List.mem_cons_self)) ih
      · next hdrop =>
        rw [Bool.not_eq_true', Bool.not_eq_false] at hdrop
        obtain ⟨ty, x, rhs, rfl, hpure, hx⟩ := isUnreadStore_eq_true hdrop
        exact .drop hx hpure ih
  exact hall b.stmts fun _ h ↦ h

theorem forgets_bareCall {callTemps : String → Bool} (hplaced : Placed g) {b : Block}
    (hb : b ∈ g) :
    Forgets (totalReads g · = 0) b.stmts (b.stmts.map (·.bareCall callTemps g)) := by
  have hall : ∀ sts : List Stmt, (∀ st ∈ sts, st ∈ b.stmts) →
      Forgets (totalReads g · = 0) sts (sts.map (·.bareCall callTemps g)) := by
    intro sts hsub
    induction sts with
    | nil => exact .nil
    | cons st sts ih =>
      have ih := ih fun st hst ↦ hsub st (List.mem_cons_of_mem _ hst)
      have hreads : ∀ n, totalReads g n = 0 → st.reads n = false :=
        fun n hn ↦ hplaced.not_reads hn hb (hsub st List.mem_cons_self)
      rw [List.map_cons]
      unfold Stmt.bareCall
      split
      · next ty x rhs =>
        split
        · next hbare =>
          simp only [Bool.and_eq_true, beq_iff_eq] at hbare
          exact .bare hbare.2 hreads ih
        · exact .keep hreads ih
      · exact .keep hreads ih
  exact hall b.stmts fun _ h ↦ h

theorem Placed.round (h : Placed g) : Placed (unreadRound g) := by
  intro b' hb' st hst
  obtain ⟨b, hb, rfl⟩ := List.mem_map.1 hb'
  exact h b hb st (List.mem_filter.1 hst).1

/-- An address that is taken after the round was taken before. -/
theorem addrTaken_of_unreadRound (h : addrTaken (unreadRound g) n = true) :
    addrTaken g n = true := by
  obtain ⟨b', hb', h⟩ := List.any_eq_true.1 h
  obtain ⟨e, he, haddr⟩ := List.any_eq_true.1 h
  obtain ⟨b, hb, rfl⟩ := List.mem_map.1 hb'
  refine List.any_eq_true.2 ⟨b, hb, List.any_eq_true.2 ⟨e, ?_, haddr⟩⟩
  simp only [Block.exprs, List.mem_append, List.mem_flatMap] at he ⊢
  exact he.imp_left fun ⟨st, hst, he⟩ ↦ ⟨st, (List.mem_filter.1 hst).1, he⟩

theorem addrTaken_of_iterate (j : ℕ) {g : List Block}
    (h : addrTaken (unreadRound^[j] g) n = true) : addrTaken g n = true := by
  induction j generalizing g with
  | zero => exact h
  | succ j ih => exact addrTaken_of_unreadRound (ih h)

variable {M E : Type} {W : World M E} {decl : String → Val → Val} {usedReturn : Bool}
  {merged : Finset ℕ}

theorem unreadRound_sound (hplaced : Placed g)
    (halias : ∀ n, W.aliased n = true → addrTaken g n = true) (p : ℕ × Store M) :
    (graphMachine (W.interp decl) usedReturn merged g).SameBehaviour p
      (graphMachine (W.interp decl) usedReturn merged (unreadRound g)) p := by
  refine sameBehaviour_of_forgets (U := (totalReads g · = 0))
    (fun b hb ↦ forgets_filter hplaced hb)
    (fun b hb n hn ↦ Block.termReads_eq_false (totalReads_eq_zero hn hb).2) (fun n hn ↦ ?_) p
  refine Bool.eq_false_iff.2 fun hal ↦ ?_
  have htaken := hplaced.not_addrTaken hn
  rw [halias n hal] at htaken
  cases htaken

theorem unreadRound_iterate_sound (j : ℕ) {g : List Block} (hplaced : Placed g)
    (halias : ∀ n, W.aliased n = true → addrTaken (unreadRound^[j] g) n = true)
    (p : ℕ × Store M) :
    (graphMachine (W.interp decl) usedReturn merged g).SameBehaviour p
      (graphMachine (W.interp decl) usedReturn merged (unreadRound^[j] g)) p := by
  induction j generalizing g with
  | zero => exact Machine.SameBehaviour.refl _ _
  | succ j ih =>
    exact (unreadRound_sound hplaced (fun n hn ↦ addrTaken_of_iterate (j + 1) (halias n hn))
      p).trans (ih hplaced.round halias)

theorem simplifyUnusedCallTemps_sameBehaviour {callTemps : String → Bool} (hplaced : Placed g)
    (halias : ∀ n, W.aliased n = true → addrTaken g n = true) (p : ℕ × Store M) :
    (graphMachine (W.interp decl) usedReturn merged g).SameBehaviour p
      (graphMachine (W.interp decl) usedReturn merged (simplifyUnusedCallTemps callTemps g)) p := by
  refine sameBehaviour_of_forgets (U := (totalReads g · = 0))
    (fun b hb ↦ forgets_bareCall hplaced hb)
    (fun b hb n hn ↦ Block.termReads_eq_false (totalReads_eq_zero hn hb).2) (fun n hn ↦ ?_) p
  refine Bool.eq_false_iff.2 fun hal ↦ ?_
  have htaken := hplaced.not_addrTaken hn
  rw [halias n hal] at htaken
  cases htaken

/-! ### When nothing unread is left -/

/-- The number of statements. -/
def stmtCount (g : List Block) : ℕ :=
  (g.map (·.stmts.length)).sum

/-- A round that changes something drops a statement. -/
theorem stmtCount_unreadRound_lt (h : unreadChanges g = true) :
    stmtCount (unreadRound g) < stmtCount g := by
  obtain ⟨b, hb, h⟩ := List.any_eq_true.1 h
  obtain ⟨st, hst, h⟩ := List.any_eq_true.1 h
  unfold stmtCount unreadRound
  rw [List.map_map]
  refine List.sum_lt_sum _ _ (fun b _ ↦ List.length_filter_le _ _) ⟨b, hb, ?_⟩
  exact List.length_filter_lt_length_iff_exists.2 ⟨st, hst, by simp [h]⟩

/-- A round of a function without unread stores does nothing. -/
theorem unreadRound_eq_self (h : unreadChanges g = false) : unreadRound g = g := by
  refine (List.map_congr_left fun b hb ↦ ?_).trans (List.map_id g)
  have hkeep : b.stmts.filter (fun st ↦ !isUnreadStore g st) = b.stmts := by
    refine List.filter_eq_self.2 fun st hst ↦ ?_
    rw [unreadChanges, List.any_eq_false] at h
    have hb := h b hb
    rw [List.any_eq_true] at hb
    rw [Bool.not_eq_true', Bool.eq_false_iff]
    exact fun hst' ↦ hb ⟨st, hst, hst'⟩
  simp only [hkeep, id_eq]

/-- What is left after `k` rounds has no unread store, or every round dropped a statement. -/
theorem unreadRounds_exhausts {budgetOk : ℕ → Bool} (k : ℕ) (hbudget : ∀ i < k, budgetOk i = true)
    (g : List Block) :
    unreadChanges (unreadRounds budgetOk k g) = false ∨
      stmtCount (unreadRounds budgetOk k g) + k ≤ stmtCount g := by
  induction k generalizing g with
  | zero => exact .inr le_rfl
  | succ k ih =>
    unfold unreadRounds
    rw [hbudget k (Nat.lt_succ_self k)]
    by_cases hchanges : unreadChanges g = true
    · rw [if_neg (by decide), if_pos hchanges]
      have hlt := stmtCount_unreadRound_lt hchanges
      exact (ih (fun i hi ↦ hbudget i (by omega)) (unreadRound g)).imp_right fun h ↦ by omega
    · rw [if_neg (by decide), if_neg hchanges]
      rw [Bool.not_eq_true] at hchanges
      rw [unreadRound_eq_self hchanges]
      exact .inl hchanges

end Rounds

/-- `v1 = __umulh(a1, a2); v2 = v1; t3 = f(a1); return a2;` -/
def unreadProduct : List Block :=
  [{ stmts := [.assign (.mkVar "v1") (.call {} "__umulh" false 0 [.mkVar "a1", .mkVar "a2"]),
      .assign (.mkVar "v2") (.mkVar "v1"),
      .assign (.mkVar "t3") (.call {} "f" false 0 [.mkVar "a1"])]
     ends := .ret
     hasRetValue := true
     retValue := some (.mkVar "a2") }]

example : (deadStoreElim (fun _ ↦ true) unreadProduct).map (·.stmts) =
    [[.assign (.mkVar "t3") (.call {} "f" false 0 [.mkVar "a1"])]] :=
  rfl

theorem unreadProduct_placed : Placed unreadProduct := by
  unfold Placed
  decide

/-- **A call stays without its unread value**: the function in which the calls to unread temporaries
are bare makes the same calls and stores and returns the same, and it reads every variable as often
as before, so no call is left with an unread temporary. -/
theorem simplifyUnusedCallTemps_sound {M E : Type} (W : World M E) (decl : String → Val → Val)
    (callTemps : String → Bool) (g : List Block) (usedReturn : Bool) (merged : Finset ℕ)
    (p : ℕ × Store M) (hplaced : Placed g)
    (halias : ∀ n, W.aliased n = true → addrTaken g n = true) :
    (graphMachine (W.interp decl) usedReturn merged g).SameBehaviour p
      (graphMachine (W.interp decl) usedReturn merged (simplifyUnusedCallTemps callTemps g)) p ∧
    ∀ b ∈ simplifyUnusedCallTemps callTemps g, ∀ ty x rhs, .assign (.var ty x) rhs ∈ b.stmts →
      callTemps x = true → rhs.hasCall = true →
        totalReads (simplifyUnusedCallTemps callTemps g) x ≠ 0 := by
  refine ⟨simplifyUnusedCallTemps_sameBehaviour hplaced halias p, ?_⟩
  rintro b' hb' ty x rhs hmem htemp hcall hread
  rw [totalReads_simplifyUnusedCallTemps] at hread
  obtain ⟨b, -, rfl⟩ := List.mem_map.1 hb'
  obtain ⟨st, -, heq⟩ := List.mem_map.1 hmem
  unfold Stmt.bareCall at heq
  split at heq
  · split at heq
    · cases heq
    · next hkept =>
      obtain ⟨h, rfl⟩ := Stmt.assign.inj heq
      obtain ⟨-, rfl⟩ := Expr.var.inj h
      exact hkept (by simp [htemp, hcall, hread])
  · next hvar => exact hvar _ _ _ heq

theorem simplifyUnusedCallTemps_unreadProduct :
    (graphMachine (traceWorld.interp fun _ v ↦ v) true ∅ unreadProduct).SameBehaviour (0, zeroStore)
      (graphMachine (traceWorld.interp fun _ v ↦ v) true ∅
        (simplifyUnusedCallTemps (· == "t3") unreadProduct)) (0, zeroStore) ∧
    ∀ b ∈ simplifyUnusedCallTemps (· == "t3") unreadProduct, ∀ ty x rhs,
      .assign (.var ty x) rhs ∈ b.stmts → (x == "t3") = true → rhs.hasCall = true →
        totalReads (simplifyUnusedCallTemps (· == "t3") unreadProduct) x ≠ 0 :=
  simplifyUnusedCallTemps_sound traceWorld (fun _ v ↦ v) (· == "t3") unreadProduct true ∅
    (0, zeroStore) unreadProduct_placed fun _ h ↦ absurd h Bool.false_ne_true

end Ldu
