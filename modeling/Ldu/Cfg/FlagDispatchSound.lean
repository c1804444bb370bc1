import Ldu.Cfg.Reroute

/-!
# What flag dispatch preserves

Each rewriting of the pass is a sequence of splits and one rerouting. The invariants of both are
carried through the plans of a round and through the rounds: the pass keeps the behaviour of
every run in which each rewritten region is left through its first exit only while its flag is
clear (`flagDispatch_sameBehaviour`). The condition fails when a region inside a loop is left
through another exit first and through the first exit on a later visit (`revisit_diverges`).
-/

namespace Ldu

open Ldu.Expr

/-! ### The graphs in between -/

section Invariants

variable {merged : Finset ℕ} {flag : String} {sh : Shape} {g G : List Block} {seq : ℕ}

theorem Rerouting.length_le (hG : Rerouting flag sh g G) : g.length ≤ G.length := by
  by_contra hlt
  obtain ⟨b', hb', -⟩ := hG.block (g.length - 1) _ (List.getElem?_eq_getElem (by omega))
  have := (List.getElem?_eq_some_iff.1 hb').1
  omega

theorem edges_withInit (flag : String) (id : ℕ) (b : Block) :
    (withInit flag id b).edges = b.edges := by
  unfold withInit
  split <;> rfl

theorem mentions_withInit {f : String} (hne : f ≠ flag) (id : ℕ) (b : Block) :
    (withInit flag id b).mentions f = b.mentions f := by
  unfold withInit
  split
  · simp [Block.mentions, Block.exprs, Block.termExprs, Stmt.exprs, setFlagStmt, mkVar, mkConst,
      readsNamedVar, anyNode, isVarNamed, hne.symm]
  · rfl

theorem mentions_dispatchers {f : String} (hne : f ≠ flag) {p : ℕ} {d : Block}
    (hd : d ∈ dispatchers g flag p sh) : d.mentions f = false := by
  cases sh with
  | twoWay e s =>
    obtain rfl := List.mem_singleton.1 hd
    simp [Block.mentions, Block.exprs, Block.termExprs, mkVar, readsNamedVar, anyNode,
      isVarNamed, hne.symm]
  | nWay exits =>
    obtain ⟨k, -, rfl⟩ := List.mem_map.1 hd
    simp [Block.mentions, Block.exprs, Block.termExprs, mkVar, mkConst, mkBinary, readsNamedVar,
      anyNode, isVarNamed, hne.symm]

theorem edges_dispatchers (hG : Rerouting flag sh g G) (hfits : sh.Fits merged g) {d : Block}
    (hd : d ∈ dispatchers g flag g.length sh) {t : ℕ} (ht : t ∈ d.edges) : t < G.length := by
  have hexit : ∀ t ∈ sh.exits, t < G.length := fun t ht ↦
    (hfits.live t ht).1.trans_le hG.length_le
  cases sh with
  | twoWay e s =>
    obtain rfl := List.mem_singleton.1 hd
    have : t = s ∨ t = e := by simpa [Block.edges] using ht
    rcases this with rfl | rfl
    · exact hexit t (by simp [Shape.exits])
    · exact hexit t (by simp [Shape.exits])
  | nWay exits =>
    obtain ⟨k, hk, rfl⟩ := List.mem_map.1 hd
    have hmem : exits[k]? = some t ∨ (if k + 2 < exits.length then some (g.length + k + 1)
        else exits[exits.length - 1]?) = some t := by
      simpa [Block.edges] using ht
    rcases hmem with hmem | hmem
    · exact hexit t (List.mem_of_getElem? hmem)
    · split at hmem
      · next hlt =>
        obtain rfl := Option.some.inj hmem
        have hrung := hG.dispatcher (k + 1) _ (by
          rw [dispatchers, List.getElem?_map, List.getElem?_range (by omega), Option.map_some])
        exact (List.getElem?_eq_some_iff.1 hrung).1
      · exact hexit t (List.mem_of_getElem? hmem)

theorem Rerouting.length_lt (hG : Rerouting flag sh g G) (hfits : sh.Fits merged g) :
    g.length < G.length := by
  have hpos : 0 < (dispatchers g flag g.length sh).length := by
    have h₂ := hfits.two_le
    cases sh with
    | twoWay e s => exact Nat.one_pos
    | nWay exits =>
      simp only [Shape.exits] at h₂
      simp only [dispatchers, List.length_map, List.length_range]
      omega
  exact (List.getElem?_eq_some_iff.1 (hG.dispatcher 0 _ (List.getElem?_eq_getElem hpos))).1

theorem Rerouting.closed (hG : Rerouting flag sh g G) (hfits : sh.Fits merged g)
    (hclosed : Closed merged g) : Closed merged G := by
  have hp := hG.length_lt hfits
  refine ⟨fun m hm ↦ (hclosed.merged_lt m hm).trans_le hG.length_le, fun e he t ht ↦ ?_⟩
  rcases hG.mem e he with ⟨id, b, hb, hrel⟩ | hd | ⟨k, -, hedges⟩
  · obtain ⟨t₀, ht₀, hredirect⟩ := hrel.mem_edges ht
    rw [edges_withInit] at ht₀
    have hlt := hclosed.edges_lt b (List.mem_of_getElem? hb) t₀ ht₀
    unfold Redirected at hredirect
    split at hredirect
    · omega
    · omega
    · obtain ⟨-, e', he', -⟩ := hredirect
      exact (List.getElem?_eq_some_iff.1 he').1
  · exact edges_dispatchers hG hfits hd ht
  · rw [hedges] at ht
    obtain rfl := List.mem_singleton.1 ht
    exact hp

theorem Rerouting.freshAbove (hG : Rerouting (tempName (seq + 1)) sh g G)
    (hfresh : FreshAbove seq g) : FreshAbove (seq + 1) G := by
  intro k hk e he
  have hne : tempName k ≠ tempName (seq + 1) := fun h ↦ by
    have := tempName_injective h
    omega
  rcases hG.mem e he with ⟨id, b, hb, hrel⟩ | hd | ⟨j, hexprs, -⟩
  · have hb := hfresh k (by omega) b (List.mem_of_getElem? hb)
    rw [← mentions_withInit hne id b] at hb
    rwa [Block.mentions, hrel.exprs]
  · exact mentions_dispatchers hne hd
  · simp [Block.mentions, hexprs, Stmt.exprs, setFlagStmt, mkVar, mkConst, readsNamedVar, anyNode,
      isVarNamed, hne.symm]

end Invariants

/-! ### The chosen plans -/

section Choose

variable {merged : Finset ℕ} {g : List Block} {an : Analysis} {ch : Chosen}

theorem loopPlan_fits (hlive : EdgesLive merged g) (lp : Loop)
    (h : ∀ pl ∈ ch.plans, pl.shape.Fits merged g) :
    ∀ pl ∈ (loopPlan g an ch lp).plans, pl.shape.Fits merged g := by
  have hexit : ∀ t ∈ lp.exits g, t < g.length ∧ t ∉ merged := by
    intro t ht
    obtain ⟨x, -, hx⟩ := List.mem_flatMap.1 (List.mem_toFinset.1 ht)
    split at hx
    · exact hlive.succ_live x t (List.mem_filter.1 hx).1
    · exact absurd hx (by simp)
  unfold loopPlan
  dsimp only
  split
  · next f s hf hs =>
    split
    · next hcond =>
      obtain ⟨-, -, -, hfmem, -⟩ := hcond
      have hsmem : s ∈ lp.exits g := by
        have := List.find?_some hs
        simp only [decide_eq_true_eq] at this
        exact this.1
      intro pl hpl
      rcases List.mem_append.1 hpl with hpl | hpl
      · exact h pl hpl
      · obtain rfl := List.mem_singleton.1 hpl
        refine ⟨le_rfl, by simp [Shape.exits], ?_⟩
        intro t ht
        have : t = f ∨ t = s := by simpa [Shape.exits] using ht
        rcases this with rfl | rfl
        · exact hexit t hfmem
        · exact hexit t hsmem
    · exact h
  · exact h

theorem otherExits_spec (hlive : EdgesLive merged g) (r : Finset ℕ) (j : ℕ) :
    (otherExits g r j).length ≤ 4 ∧ ∀ t ∈ otherExits g r j, t < g.length ∧ t ∉ merged := by
  have hmem : ∀ s ∈ ((List.range g.length).flatMap fun x ↦ if x ∈ r then succOf g x else []),
      s < g.length ∧ s ∉ merged := by
    intro s hs
    obtain ⟨x, -, hx⟩ := List.mem_flatMap.1 hs
    split at hx
    · exact hlive.succ_live x s hx
    · exact absurd hx (by simp)
  refine List.foldlRecOn (motive := fun ts : List ℕ ↦ ts.length ≤ 4 ∧
    ∀ t ∈ ts, t < g.length ∧ t ∉ merged) _ _ ⟨by simp, by simp⟩ fun ts hts s hs ↦ ?_
  split
  · exact hts
  · next hcond =>
    refine ⟨by simp; omega, fun t ht ↦ ?_⟩
    rcases List.mem_append.1 ht with ht | ht
    · exact hts.2 t ht
    · obtain rfl := List.mem_singleton.1 ht
      exact hmem t hs

theorem joinPlan_fits (hlive : EdgesLive merged g) (j : ℕ)
    (h : ∀ pl ∈ ch.plans, pl.shape.Fits merged g) :
    ∀ pl ∈ (joinPlan g an ch j).plans, pl.shape.Fits merged g := by
  unfold joinPlan
  dsimp only
  split
  · exact h
  · next hguard =>
    split
    · exact h
    · next e _ =>
      split
      · exact h
      · split
        · split <;> exact h
        · split
          · exact h
          · split
            · exact h
            · next hne hcond =>
              obtain ⟨-, hts⟩ := otherExits_spec hlive (joinRegion g an e j) j
              have hj : j < g.length ∧ j ∉ merged := by
                refine hlive.pred_live j fun hnil ↦ hguard ?_
                simp [hnil]
              have hlen : (otherExits g (joinRegion g an e j) j).length ≤ 3 := by
                by_contra hlt
                exact hcond (.inl (by omega))
              intro pl hpl
              rcases List.mem_append.1 hpl with hpl | hpl
              · exact h pl hpl
              · obtain rfl := List.mem_singleton.1 hpl
                generalize otherExits g (joinRegion g an e j) j = ts at hne hts hlen
                rcases ts with _ | ⟨t, _ | ⟨t', ts⟩⟩
                · exact absurd rfl hne
                · refine ⟨le_rfl, by simp [Shape.exits], ?_⟩
                  simpa [Shape.exits] using ⟨hts t (by simp), hj⟩
                · exact ⟨Nat.le_add_left _ _, Nat.succ_le_succ hlen,
                    List.forall_mem_cons.2 ⟨hj, hts⟩⟩

/-- The exits of every chosen plan are usable. -/
theorem choosePlans_fits (hlive : EdgesLive merged g) (an : Analysis) (ch : Chosen) :
    ∀ pl ∈ (choosePlans g an ch).plans, pl.shape.Fits merged g := by
  unfold choosePlans
  refine List.foldlRecOn (motive := fun c : Chosen ↦ ∀ pl ∈ c.plans, pl.shape.Fits merged g)
    _ _ ?_ fun c hc j _ ↦ joinPlan_fits hlive j hc
  exact List.foldlRecOn (motive := fun c : Chosen ↦ ∀ pl ∈ c.plans, pl.shape.Fits merged g)
    _ _ (by simp) fun c hc lp _ ↦ loopPlan_fits hlive lp hc

end Choose

/-! ### The whole pass -/

theorem Shape.Fits.mono {sh : Shape} {merged : Finset ℕ} {g g' : List Block}
    (h : sh.Fits merged g) (hle : g.length ≤ g'.length) : sh.Fits merged g' :=
  ⟨h.two_le, h.le_four, fun t ht ↦ ⟨(h.live t ht).1.trans_le hle, (h.live t ht).2⟩⟩

section Pass

variable {σ E R : Type*} {I : Interp σ E R} {isFlag : String → Bool} {usedReturn : Bool}
  {merged : Finset ℕ} {seq : ℕ}

/-- What a splitting keeps: valid edges, unused temporaries and the behaviour. -/
structure Splits (I : Interp σ E R) (usedReturn : Bool) (merged : Finset ℕ) (seq : ℕ)
    (g g' : List Block) : Prop where
  length_le : g.length ≤ g'.length
  closed : Closed merged g'
  fresh : FreshAbove seq g'
  same : ∀ s, (graphMachine I usedReturn merged g').SameBehaviour (0, s)
    (graphMachine I usedReturn merged g) (0, s)

theorem Splits.split {g g' : List Block} (h : Splits I usedReturn merged seq g g') {t : ℕ}
    (ht : t < g.length ∧ t ∉ merged) (x : ℕ) :
    Splits I usedReturn merged seq g (split t g' x) where
  length_le := h.length_le.trans length_split_le
  closed := h.closed.split
  fresh := h.fresh.split
  same s := (split_sameBehaviour I usedReturn h.closed ht.2
    ((Nat.zero_lt_of_lt ht.1).trans_le h.length_le) s).trans (h.same s)

theorem Splits.splitFor {g g' : List Block} (h : Splits I usedReturn merged seq g g')
    (idom : List (Option ℕ)) (pl : Plan) {t : ℕ} (ht : t < g.length ∧ t ∉ merged) :
    Splits I usedReturn merged seq g (splitFor idom pl g' t) := by
  unfold Ldu.splitFor
  refine List.foldlRecOn _ _ h fun g' hg' x _ ↦ ?_
  split
  · exact hg'
  · exact hg'.split ht x

theorem splits_splitPlan (I : Interp σ E R) (usedReturn : Bool) {g : List Block}
    (hclosed : Closed merged g) (hfresh : FreshAbove seq g) (idom : List (Option ℕ)) {pl : Plan}
    (hfits : pl.shape.Fits merged g) :
    Splits I usedReturn merged seq g (splitPlan idom pl g) := by
  have horder : ∀ t ∈ pl.shape.splitOrder, t < g.length ∧ t ∉ merged := by
    intro t ht
    refine hfits.live t ?_
    cases hsh : pl.shape with
    | twoWay f s =>
      rw [hsh] at ht
      simpa [Shape.splitOrder, Shape.exits, or_comm] using ht
    | nWay exits =>
      rw [hsh] at ht
      exact ht
  unfold splitPlan
  refine List.foldlRecOn _ _ ⟨le_rfl, hclosed, hfresh, fun _ ↦ .refl _ _⟩ fun g' hg' t ht ↦ ?_
  exact hg'.splitFor idom pl (horder t ht)

/-- Every rewriting in the list enters its first exit only while the flag is clear. -/
def AllClear (I : Interp σ E R) (isFlag : String → Bool) (usedReturn : Bool)
    (merged : Finset ℕ) (ds : List Dispatched) (x : σ × (String → ℕ)) : Prop :=
  ∀ d ∈ ds, FirstExitClear (graphMachine (I.withFlags isFlag) usedReturn merged d.blocks)
    d.shape.exits (0, x)

/-- Carrying out plans one after the other. -/
theorem applyPlans_spec (hflag : ∀ k, seq < k → isFlag (tempName k) = true)
    (idom : List (Option ℕ)) (pls : List Plan) {g : List Block} (hclosed : Closed merged g)
    (hfresh : FreshAbove seq g) (hfits : ∀ pl ∈ pls, pl.shape.Fits merged g)
    (x : σ × (String → ℕ))
    (hclear : AllClear I isFlag usedReturn merged (planned idom pls g seq) x) :
    Closed merged (applyPlans idom pls g seq) ∧
      FreshAbove (seq + pls.length) (applyPlans idom pls g seq) ∧
      (graphMachine (I.withFlags isFlag) usedReturn merged
        (applyPlans idom pls g seq)).SameBehaviour (0, x)
        (graphMachine (I.withFlags isFlag) usedReturn merged g) (0, x) := by
  induction pls generalizing g seq with
  | nil => exact ⟨hclosed, hfresh, .refl _ _⟩
  | cons pl pls ih =>
    obtain ⟨hclear₁, hclear₂⟩ := List.forall_mem_cons.1 hclear
    have hsplits := splits_splitPlan (I.withFlags isFlag) usedReturn hclosed hfresh idom
      (hfits pl (by simp))
    have hfits' := (hfits pl (by simp)).mono hsplits.length_le
    have hG := rerouting_dispatch (tempName (seq + 1)) pl.shape (splitPlan idom pl g)
    obtain ⟨hc, hf, hsame⟩ := ih (fun k hk ↦ hflag k (by omega)) (hG.closed hfits' hsplits.closed)
      (hG.freshAbove hsplits.fresh) (fun q hq ↦ (hfits q (List.mem_cons_of_mem _ hq)).mono
        (hsplits.length_le.trans hG.length_le)) hclear₂
    have hdispatch := dispatch_sameBehaviour hfits' hsplits.closed (hflag _ (Nat.lt_succ_self _))
      (hsplits.fresh _ (Nat.lt_succ_self _)) x hclear₁
    refine ⟨hc, ?_, hsame.trans (hdispatch.trans (hsplits.same x))⟩
    rw [List.length_cons, Nat.add_comm pls.length 1, ← Nat.add_assoc]
    exact hf

/-- The rounds of choosing and rewriting. -/
theorem rounds_sameBehaviour (n : ℕ) (st : FlagState) (hclosed : Closed st.merged st.blocks)
    (hlive : EdgesLive st.merged st.blocks) (hfresh : FreshAbove st.tempSeq st.blocks)
    (hflag : ∀ k, st.tempSeq < k → isFlag (tempName k) = true) (x : σ × (String → ℕ))
    (hclear : AllClear I isFlag usedReturn st.merged (FlagState.dispatches n st) x) :
    (graphMachine (I.withFlags isFlag) usedReturn st.merged
      (FlagState.rounds n st).blocks).SameBehaviour (0, x)
      (graphMachine (I.withFlags isFlag) usedReturn st.merged st.blocks) (0, x) := by
  induction n generalizing st with
  | zero => exact .refl _ _
  | succ n ih =>
    unfold FlagState.rounds
    unfold FlagState.dispatches at hclear
    split
    · exact .refl _ _
    · next hne =>
      rw [if_neg hne] at hclear
      obtain ⟨hclear₁, hclear₂⟩ := List.forall_mem_append.1 hclear
      obtain ⟨hc, hf, hsame⟩ := applyPlans_spec hflag st.analysis.idom st.choose.plans hclosed
        hfresh (choosePlans_fits hlive st.analysis st.chosen) x hclear₁
      have hnext := ih st.rewrite hc.rebuildEdges (rebuildEdges_live _ _) hf.rebuildEdges
        (fun k hk ↦ hflag k (lt_of_le_of_lt (Nat.le_add_right _ _) hk)) hclear₂
      refine hnext.trans ?_
      have hmachine := rebuildEdges_machine (I.withFlags isFlag) usedReturn st.merged
        (applyPlans st.analysis.idom st.choose.plans st.blocks st.tempSeq)
      exact (show graphMachine _ _ _ st.rewrite.blocks = _ from hmachine) ▸ hsame

/-- Flag dispatch keeps the behaviour of every run in which each region that is rewritten is left
through its first exit only while its flag is clear. -/
theorem flagDispatch_sameBehaviour (st : FlagState) (hclosed : Closed st.merged st.blocks)
    (hlive : EdgesLive st.merged st.blocks)
    (hunused : ∀ b ∈ st.blocks, ∀ f, isFlag f = true → b.mentions f = false)
    (hflag : ∀ k, st.tempSeq < k → isFlag (tempName k) = true) (s : σ) (φ : String → ℕ)
    (hclear : AllClear I isFlag usedReturn st.merged
      (FlagState.dispatches 12 { st with chosen := {} }) (s, φ)) :
    (graphMachine (I.withFlags isFlag) usedReturn st.merged
      (flagDispatch st).blocks).SameBehaviour (0, (s, φ))
      (graphMachine I usedReturn st.merged st.blocks) (0, s) := by
  have hfresh : FreshAbove st.tempSeq st.blocks := fun k hk b hb ↦
    hunused b hb _ (hflag k hk)
  exact (rounds_sameBehaviour 12 { st with chosen := {} } hclosed hlive hfresh hflag (s, φ)
    hclear).trans (withFlags_sameBehaviour hunused 0 (s, φ))

end Pass

/-! ### A region visited twice -/

/-- A loop around the region `2`, `3`, which is left to `5` or, through the shared block `4`,
back to the outer loop:
`for (;;) { if (!g) do if (a) { F(); return; } while (b); S(); }`. -/
def revisitLoop : List Block :=
  rebuildEdges ∅
    [{ fall := some 1 },
     { ends := .jcc, cond := some (mkVar "g"), taken := some 4, fall := some 2 },
     { ends := .jcc, cond := some (mkVar "a"), taken := some 5, fall := some 3 },
     { ends := .jcc, cond := some (mkVar "b"), taken := some 2, fall := some 4 },
     { stmts := [.call (.call {} "S" false 0 [])], ends := .jmp, taken := some 1 },
     { stmts := [.call (.call {} "F" false 0 [])], fall := some 6 },
     { ends := .ret }]

def revisitState : FlagState :=
  { blocks := revisitLoop, analysis := analyse revisitLoop 0, tempSeq := 0 }

/-- The names of temporaries start with `t`. -/
def isTemp (f : String) : Bool :=
  f.toList.head? == some 't'

theorem isTemp_tempName (k : ℕ) : isTemp (tempName k) = true := by
  simp [isTemp, tempName]

theorem revisitLoop_closed : Closed ∅ revisitLoop :=
  ⟨by simp, by decide +kernel⟩

theorem revisitLoop_unused : ∀ b ∈ revisitLoop, ∀ f, isTemp f = true → b.mentions f = false := by
  intro b hb f hf
  have hne : ∀ n, isTemp n = false → n ≠ f := by
    rintro n hn rfl
    exact absurd hf (by simp [hn])
  obtain ⟨b₀, hb₀, -, hexprs⟩ := mem_rebuildEdges hb
  rw [Block.mentions, hexprs]
  simp only [List.mem_cons, List.not_mem_nil, or_false] at hb₀
  rcases hb₀ with rfl | rfl | rfl | rfl | rfl | rfl | rfl <;>
    simp [Block.exprs, Block.termExprs, Stmt.exprs, mkVar, readsNamedVar, anyNode, anyNodeList,
      isVarNamed, hne "g" (by decide), hne "a" (by decide), hne "b" (by decide)]

/-- The region is left once, through its first exit. -/
theorem revisitLoop_sameBehaviour :
    (graphMachine (outcomes.withFlags isTemp) false ∅
      (flagDispatch revisitState).blocks).SameBehaviour
      (0, ([false, true], fun _ ↦ 0)) (graphMachine outcomes false ∅ revisitLoop)
      (0, [false, true]) := by
  refine flagDispatch_sameBehaviour revisitState revisitLoop_closed
    (rebuildEdges_live _ _) revisitLoop_unused (fun k _ ↦ isTemp_tempName k) _ _ ?_
  have hrun : ∀ d ∈ FlagState.dispatches 12 revisitState,
      let M := graphMachine (outcomes.withFlags isTemp) false ∅ d.blocks
      let N := M.withGhost (lastExit d.shape.exits)
      (N.run 6 ((0, [false, true], fun _ ↦ 0), 0)).2.isRight = true ∧
        ∀ m < 6, (N.run m ((0, [false, true], fun _ ↦ 0), 0)).2.elim
          (fun t ↦ decide (EntersClear M d.shape.exits t)) (fun _ ↦ true) = true := by
    decide +kernel
  exact fun d hd ↦ Machine.Always.of_halts (hrun d hd).1 (hrun d hd).2

/-- When the region is left through `4` first and through `5` on the next visit, the flag is
still set: `S` is called again in place of `F`. -/
theorem revisit_diverges :
    Closed ∅ revisitLoop ∧ EdgesLive ∅ revisitLoop ∧
      (∀ b ∈ revisitLoop, ∀ f, isTemp f = true → b.mentions f = false) ∧
      ¬ (graphMachine (outcomes.withFlags isTemp) false ∅
          (flagDispatch revisitState).blocks).SameBehaviour
        (0, ([false, false, false, false, true], fun _ ↦ 0))
        (graphMachine outcomes false ∅ revisitLoop) (0, [false, false, false, false, true]) := by
  refine ⟨revisitLoop_closed, rebuildEdges_live _ _, revisitLoop_unused, fun h ↦ ?_⟩
  have hbefore : (graphMachine outcomes false ∅ revisitLoop).Emits
      (0, [false, false, false, false, true]) ["S", "F"] := ⟨9, by decide +kernel⟩
  have hafter : (graphMachine (outcomes.withFlags isTemp) false ∅
      (flagDispatch revisitState).blocks).Emits
      (0, ([false, false, false, false, true], fun _ ↦ 0)) ["S", "S"] := ⟨12, by decide +kernel⟩
  exact absurd (((h.emits_iff _).2 hbefore).comparable hafter) (by decide)

end Ldu
