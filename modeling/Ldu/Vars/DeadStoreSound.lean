import Ldu.Vars.Agree
import Ldu.Vars.DeadStore

/-!
# Dead stores are dead

The two scans of `global_dead_store_elim` agree except on the tail call and on the cap of the
sweeps. Where neither shows (`Spared`), what is dropped is live on no path, so the function and
its rounds run in lockstep in stores that agree on what is live (`globalDeadStoreElim_sound`).
-/

namespace Ldu

/-! ### One round -/

section Round

/-- The tail call of block `i` reads a value that is assigned in the block and that nothing else
reads: no statement after the assignment, no field the second scan looks at, and no path from the
end of the block. -/
def LosesStore (info : VarInfo) (g : List Block) (i : ℕ) : Prop :=
  ∃ b pre ty x rhs post, g[i]? = some b ∧ b.stmts = pre ++ .assign (.var ty x) rhs :: post ∧
    rhs.hasCall = false ∧ droppable info g x = true ∧
    readsBefore x post = false ∧ assignsIn x post = false ∧ x ∉ b.scanTerm ∧
    (∀ k, ¬ ReadAfter g x k i) ∧ x ∈ optReadVars b.tailCall

/-- The scans of a round agree on block `i`. -/
structure Spared (info : VarInfo) (g : List Block) (i : ℕ) : Prop where
  /-- The successor list has every edge. -/
  edges : ∀ b, g[i]? = some b → ∀ j ∈ b.targets, j < g.length → j ∈ b.succ
  /-- A variable that is read after the block is read on a path the sweeps reach. -/
  reached : ∀ n k, ReadAfter g n k i → ∃ k' < 1024, ReadAfter g n k' i
  tailCall : ¬ LosesStore info g i

/-- Nothing that a round drops from block `i` is read before it is assigned again. -/
def DropsOnlyDead (info : VarInfo) (g : List Block) (i : ℕ) : Prop :=
  ∀ b pre ty x rhs post, g[i]? = some b → b.stmts = pre ++ .assign (.var ty x) rhs :: post →
    isDeadStore info g (liveStmts (fun _ ↦ true) post (scanAfter g i b))
      (.assign (.var ty x) rhs) = true →
    ¬ LiveThrough post (LiveEnd g i b) x

theorem Spared.dropsOnlyDead {info : VarInfo} {g : List Block} {i : ℕ} (h : Spared info g i) :
    DropsOnlyDead info g i := by
  intro b pre ty x rhs post hb hstmts hdead hlive
  obtain ⟨_, _, _, heq, hcall, hdrop, hafter⟩ := isDeadStore_eq_true hdead
  cases heq
  rw [mem_liveStmts rfl] at hafter
  -- Of what is live at the end of the block, the second scan misses only the tail call.
  have hscan : assignsIn x post = false → x ∉ scanAfter g i b :=
    fun hassign hmem ↦ hafter (.inr ⟨hassign, hmem⟩)
  unfold scanAfter at hscan
  rcases hlive with hread | ⟨hassign, hend⟩
  · exact hafter (.inl hread)
  have hnotin := hscan hassign
  rw [Finset.mem_union, not_or] at hnotin
  have hnone : ∀ k, ¬ ReadAfter g x k i := by
    intro k hk
    obtain ⟨k', hk', hread⟩ := h.reached x k hk
    exact hnotin.1 (mem_liveOut rfl hk' hread)
  rcases hend with hterm | ⟨k, hk⟩
  · refine h.tailCall ⟨b, pre, ty, x, rhs, post, hb, hstmts, hcall, hdrop, ?_, hassign, hnotin.2,
      hnone, ?_⟩
    · exact Bool.eq_false_iff.2 fun hread ↦ hafter (.inl hread)
    · have hfields := hnotin.2
      simp only [Block.scanTerm, Finset.mem_union, mem_optReadVars, not_or] at hfields
      simp only [Block.termReads, List.any_append, Bool.or_eq_true] at hterm
      rw [mem_optReadVars]
      tauto
  · exact hnone k hk

variable {M E : Type} {W : World M E} {decl : String → Val → Val} {info : VarInfo}
  {g : List Block} {i : ℕ} {b : Block}

/-- Statements without the dead ones. -/
theorem lockstep_dropDead {after : Finset String} {L : String → Prop} {sts : List Stmt}
    (halias : ∀ n, W.aliased n = true → addrTaken g n = true)
    (hdead : ∀ pre ty x rhs post, sts = pre ++ .assign (.var ty x) rhs :: post →
      isDeadStore info g (liveStmts (fun _ ↦ true) post after) (.assign (.var ty x) rhs) = true →
      ¬ LiveThrough post L x)
    {s t : Store M} (h : AgreeOn W (LiveThrough sts L) s t) :
    Lockstep (AgreeOn W L) ((W.interp decl).execAll sts s)
      ((W.interp decl).execAll (dropDead info g after sts).1 t) := by
  induction sts generalizing s t with
  | nil => exact lockstep_inl (h.mono fun n hn ↦ liveThrough_nil.2 hn)
  | cons st sts ih =>
    have ih := @ih fun pre ty x rhs post hsts ↦
      hdead (st :: pre) ty x rhs post (by rw [hsts, List.cons_append])
    unfold dropDead
    dsimp only
    rw [dropDead_snd]
    split
    · next hst =>
      obtain ⟨ty, x, rhs, rfl, hcall, hdrop, -⟩ := isDeadStore_eq_true hst
      have hlive : ¬ LiveThrough sts L x := hdead [] ty x rhs sts rfl hst
      have hx : W.aliased x = false := by
        refine Bool.eq_false_iff.2 fun hx ↦ ?_
        simp [droppable, halias x hx] at hdrop
      have hsilent := (W.silent_eval (Expr.hasImpureCall_of_hasCall hcall) s).eq
      have hexec : (W.interp decl).exec (.assign (.var ty x) rhs) s =
          ([], .inl (W.write s x (decl x (W.eval rhs s).2.1))) := by
        unfold World.interp
        dsimp only
        rw [W.execStmt_var, hsilent]
        rfl
      rw [Interp.execAll, hexec]
      refine ih ((h.mono fun n hn ↦ ?_).write_left hx hlive)
      rw [liveThrough_cons]
      refine .inr ⟨?_, hn⟩
      have hne : x ≠ n := by
        rintro rfl
        exact hlive hn
      simp [Stmt.assigns, Stmt.defOf, hne]
    · have hexec : AgreeOn W
          (fun n ↦ st.reads n = true ∨ (st.assigns n = false ∧ LiveThrough sts L n)) s t :=
        h.mono fun n hn ↦ liveThrough_cons.2 hn
      exact lockstep_cons hexec.exec fun s' t' _ h' ↦ ih h'

/-- The same block, in stores that agree on what is live there. -/
def LiveRel (W : World M E) (g : List Block) (p q : ℕ × Store M) : Prop :=
  q.1 = p.1 ∧ AgreeOn W (LiveStart g p.1) p.2 q.2

/-- A step before and after a round. -/
theorem lockstep_round (usedReturn : Bool) (merged : Finset ℕ)
    (halias : ∀ n, W.aliased n = true → addrTaken g n = true) (hspared : Spared info g i)
    {s t : Store M} (h : AgreeOn W (LiveStart g i) s t) :
    Lockstep (LiveRel W g) ((graphMachine (W.interp decl) usedReturn merged g).step (i, s))
      ((graphMachine (W.interp decl) usedReturn merged (deadStoreRound info g)).step (i, t)) := by
  by_cases hi : i ∈ merged
  · simp only [graphMachine, hi, if_true]
    exact lockstep_inr
  cases hb : g[i]? with
  | none =>
    have hb' : (deadStoreRound info g)[i]? = none := by rw [getElem?_deadStoreRound, hb]; rfl
    simp only [graphMachine, hi, if_false, hb, hb']
    exact lockstep_inr
  | some b =>
    have hb' : (deadStoreRound info g)[i]? =
        some { b with stmts := (dropDead info g (scanAfter g i b) b.stmts).1 } := by
      rw [getElem?_deadStoreRound, hb]
      rfl
    rw [graphMachine_step _ _ hi hb, graphMachine_step _ _ hi hb']
    have hstmts : Lockstep (AgreeOn W (LiveEnd g i b)) ((W.interp decl).execAll b.stmts s)
        ((W.interp decl).execAll (dropDead info g (scanAfter g i b) b.stmts).1 t) :=
      lockstep_dropDead halias
        (fun pre ty x rhs post ↦ hspared.dropsOnlyDead b pre ty x rhs post hb)
        (h.mono fun n hn ↦ ⟨b, hb, hn⟩)
    have hblock : Lockstep (SameBlock (AgreeOn W (LiveEnd g i b)))
        (runBlock (W.interp decl) usedReturn b s)
        (runBlock (W.interp decl) usedReturn
          { b with stmts := (dropDead info g (scanAfter g i b) b.stmts).1 } t) :=
      lockstep_runBlock hstmts fun s' t' _ h' ↦
        AgreeOn.transfer (fun n hn ↦ .inl hn) h' ⟨rfl, rfl, rfl, rfl, rfl, rfl⟩ rfl rfl rfl
    refine hblock.mono_of ?_
    rintro ⟨k, s'⟩ ⟨j, t'⟩ hs' ⟨rfl, hst'⟩
    refine ⟨rfl, hst'.mono ?_⟩
    rintro n ⟨c, hc, hn⟩
    have htarget : j ∈ b.targets := mem_targets_of_runBlock (Prod.ext rfl hs')
    obtain ⟨hlt, -⟩ := List.getElem?_eq_some_iff.1 hc
    exact liveEnd_of_succ hb (hspared.edges b hb j htarget hlt) hc hn

end Round

/-! ### All rounds -/

section Rounds

variable {M E : Type} {W : World M E} {decl : String → Val → Val} {info : VarInfo}
  {usedReturn : Bool} {merged : Finset ℕ}

theorem deadStoreRound_iterate_sound (j : ℕ) {g : List Block} {id : ℕ} {s : Store M}
    (halias : ∀ n, W.aliased n = true → addrTaken ((deadStoreRound info)^[j] g) n = true)
    (hrun : (graphMachine (W.interp decl) usedReturn merged g).Always
      (fun p ↦ ∀ k < j, Spared info ((deadStoreRound info)^[k] g) p.1) (id, s)) :
    (graphMachine (W.interp decl) usedReturn merged g).SameBehaviour (id, s)
      (graphMachine (W.interp decl) usedReturn merged ((deadStoreRound info)^[j] g)) (id, s) := by
  induction j generalizing g with
  | zero => exact Machine.SameBehaviour.refl _ _
  | succ j ih =>
    have hfirst : ∀ n, W.aliased n = true → addrTaken g n = true := by
      intro n hn
      have htaken : ∀ k g', addrTaken ((deadStoreRound info)^[k] g') n = true →
          addrTaken g' n = true := by
        intro k
        induction k with
        | zero => exact fun _ h ↦ h
        | succ k ih => exact fun g' h ↦ addrTaken_of_round (ih _ h)
      exact htaken (j + 1) g (halias n hn)
    have hlock : ∀ p q, LiveRel W g p q →
        (graphMachine (W.interp decl) usedReturn merged g).Always
          (fun p ↦ ∀ k < j + 1, Spared info ((deadStoreRound info)^[k] g) p.1) p →
        Lockstep (LiveRel W g) ((graphMachine (W.interp decl) usedReturn merged g).step p)
          ((graphMachine (W.interp decl) usedReturn merged (deadStoreRound info g)).step q) := by
      rintro ⟨i, s⟩ ⟨i', t⟩ ⟨rfl, hst⟩ halways
      exact lockstep_round _ _ hfirst (halways.now 0 (Nat.succ_pos j)) hst
    have hstart : LiveRel W g (id, s) (id, s) := ⟨rfl, agreeOn_refl _ _⟩
    refine (Machine.Simulation.sameBehaviour_of_always
      (fun p q hpq halways ↦ matches_of_lockstep (hlock p q hpq halways)) hstart hrun).trans
      (ih halias ?_)
    exact always_of_lockstep hlock
      (fun p q hpq hp k hk ↦ by rw [hpq.1]; exact hp (k + 1) (by omega)) hstart hrun

end Rounds

/-- **Dead stores are dead** on the runs through spared blocks: nothing that a round drops from a
block is read, on any path, before it is assigned again, and the function without the dead stores
behaves like the one with them. Locals live in memory when their address is taken by an expression
that the pass keeps. -/
theorem globalDeadStoreElim_sound {M E : Type} (W : World M E) (decl : String → Val → Val)
    (info : VarInfo) (budgetOk : ℕ → Bool) (g : List Block) (usedReturn : Bool)
    (merged : Finset ℕ) (id : ℕ) (s : Store M)
    (halias : ∀ n, W.aliased n = true → addrTaken (globalDeadStoreElim info budgetOk g) n = true)
    (hrun : (graphMachine (W.interp decl) usedReturn merged g).Always
      (fun p ↦ ∀ k < 16, Spared info ((deadStoreRound info)^[k] g) p.1) (id, s)) :
    (graphMachine (W.interp decl) usedReturn merged g).Always
      (fun p ↦ ∀ k < 16, DropsOnlyDead info ((deadStoreRound info)^[k] g) p.1) (id, s) ∧
    (graphMachine (W.interp decl) usedReturn merged g).SameBehaviour (id, s)
      (graphMachine (W.interp decl) usedReturn merged (globalDeadStoreElim info budgetOk g))
      (id, s) := by
  refine ⟨fun p hp k hk ↦ (hrun p hp k hk).dropsOnlyDead, ?_⟩
  obtain ⟨j, hj, heq⟩ := exists_deadStoreRounds info budgetOk 16 g
  unfold globalDeadStoreElim at halias ⊢
  rw [heq] at halias ⊢
  exact deadStoreRound_iterate_sound j halias
    fun p hp k hk ↦ hrun p hp k (by omega)

/-! ### A value read by the tail call alone -/

/-- `v1 = 1; return f(v1);` -/
def tailArgument : List Block :=
  [{ stmts := [.assign (.mkVar "v1") (.mkConst 1)]
     ends := .ret
     tailCall := some (.call {} "f" false 0 [.mkVar "v1"]) }]

def tailArgumentInfo : VarInfo where
  width := [("v1", 4)]

theorem tailArgument_elim : globalDeadStoreElim tailArgumentInfo (fun _ ↦ true) tailArgument =
    [{ stmts := []
       ends := .ret
       tailCall := some (.call {} "f" false 0 [.mkVar "v1"]) }] :=
  rfl

/-- The call gets another argument. -/
theorem tailArgument_differs :
    ¬ (graphMachine (traceWorld.interp fun _ v ↦ v) false ∅ tailArgument).SameBehaviour
      (0, ⟨fun _ ↦ 0, fun _ ↦ 0⟩)
      (graphMachine (traceWorld.interp fun _ v ↦ v) false ∅
        (globalDeadStoreElim tailArgumentInfo (fun _ ↦ true) tailArgument))
      (0, ⟨fun _ ↦ 0, fun _ ↦ 0⟩) := by
  intro h
  have hleft : (graphMachine (traceWorld.interp fun _ v ↦ v) false ∅ tailArgument).Returns
      (0, ⟨fun _ ↦ 0, fun _ ↦ 0⟩) [.world [1]] (some none) := ⟨1, rfl⟩
  obtain ⟨n, hn⟩ := (h.returns_iff _ _).1 hleft
  rw [tailArgument_elim] at hn
  have hstep : (graphMachine (traceWorld.interp fun _ v ↦ v) false ∅
      [{ ends := .ret, tailCall := some (.call {} "f" false 0 [.mkVar "v1"]) }]).step
      (0, ⟨fun _ ↦ 0, fun _ ↦ 0⟩) = ([.world [0]], .inr (some none)) := rfl
  cases n with
  | zero => cases hn
  | succ n =>
    rw [Machine.run_succ_of_halt _ hstep] at hn
    exact absurd (congrArg Prod.fst hn) (by decide)

/-! ### A value that is overwritten -/

/-- `v1 = 1; v1 = 2; return v1;` -/
def overwritten : List Block :=
  [{ stmts := [.assign (.mkVar "v1") (.mkConst 1), .assign (.mkVar "v1") (.mkConst 2)]
     ends := .ret
     hasRetValue := true
     retValue := some (.mkVar "v1") }]

example : globalDeadStoreElim tailArgumentInfo (fun _ ↦ true) overwritten =
    [{ stmts := [.assign (.mkVar "v1") (.mkConst 2)]
       ends := .ret
       hasRetValue := true
       retValue := some (.mkVar "v1") }] :=
  rfl

theorem overwritten_spared (k : ℕ) :
    Spared tailArgumentInfo ((deadStoreRound tailArgumentInfo)^[k] overwritten) 0 := by
  have hfields : ∀ b, ((deadStoreRound tailArgumentInfo)^[k] overwritten)[0]? = some b →
      b.targets = [] ∧ b.succ = [] ∧ b.tailCall = none := by
    induction k with
    | zero =>
      rintro b ⟨rfl⟩
      exact ⟨rfl, rfl, rfl⟩
    | succ k ih =>
      intro b hb
      rw [Function.iterate_succ_apply', getElem?_deadStoreRound] at hb
      obtain ⟨b', hb', rfl⟩ := Option.map_eq_some_iff.1 hb
      exact ih b' hb'
  refine ⟨fun b hb j hj ↦ ?_, fun n k hread ↦ ?_, ?_⟩
  · rw [(hfields b hb).1] at hj
    cases hj
  · cases hread with
    | here hb hj =>
      rw [(hfields _ hb).2.1] at hj
      cases hj
    | later hb hj =>
      rw [(hfields _ hb).2.1] at hj
      cases hj
  · rintro ⟨b, _, _, _, _, _, hb, -, -, -, -, -, -, -, hmem⟩
    rw [(hfields b hb).2.2] at hmem
    cases hmem

theorem overwritten_sound :
    (graphMachine (traceWorld.interp fun _ v ↦ v) true ∅ overwritten).Always
      (fun p ↦ ∀ k < 16, DropsOnlyDead tailArgumentInfo
        ((deadStoreRound tailArgumentInfo)^[k] overwritten) p.1) (0, ⟨fun _ ↦ 0, fun _ ↦ 0⟩) ∧
    (graphMachine (traceWorld.interp fun _ v ↦ v) true ∅ overwritten).SameBehaviour
      (0, ⟨fun _ ↦ 0, fun _ ↦ 0⟩)
      (graphMachine (traceWorld.interp fun _ v ↦ v) true ∅
        (globalDeadStoreElim tailArgumentInfo (fun _ ↦ true) overwritten))
      (0, ⟨fun _ ↦ 0, fun _ ↦ 0⟩) := by
  refine globalDeadStoreElim_sound traceWorld (fun _ v ↦ v) tailArgumentInfo (fun _ ↦ true)
    overwritten true ∅ 0 ⟨fun _ ↦ 0, fun _ ↦ 0⟩ (fun _ h ↦ absurd h Bool.false_ne_true) ?_
  have hstart : (graphMachine (traceWorld.interp fun _ v ↦ v) true ∅ overwritten).Always
      (·.1 = 0) (0, ⟨fun _ ↦ 0, fun _ ↦ 0⟩) := by
    refine Machine.Always.of_preserved rfl ?_
    rintro ⟨_, s⟩ es p' rfl hstep
    cases hstep
  intro p hp k _
  rw [hstart p hp]
  exact overwritten_spared k

end Ldu
