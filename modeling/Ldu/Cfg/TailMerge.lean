import Ldu.Semantics.Edges
import Ldu.Semantics.Reads

/-!
# Merging identical tails

`mergeIdenticalTails` looks for returning blocks with the same statements and the same recorded
return registers, sends every edge into the later one to the earlier one, and retires the later one.
"Same" is `exprEqual`, which does not look at signedness, and at the width of loads alone; the
returned value and the tail call, which a block is printed with, are not looked at at all.

No edge leads into a retired block afterwards, and the entry block stays (`TailMerge.Inv`). The runs
of a function are the same, statement by statement, exactly when at every retired block they come to
the statements and the returned text of the block it was merged into do the same
(`mergeIdenticalTails_sound`).
-/

namespace Ldu

/-! ### The pass -/

/-- The registers that carry a returned value. -/
inductive RetReg
  | rax | rdx | xmm0 | xmm1
  deriving DecidableEq

/-- The same expression, or none. -/
def optEqual : Option Expr → Option Expr → Bool
  | some e, some e' => e.exprEqual e'
  | none, none => true
  | _, _ => false

def tmStmtEq : Stmt → Stmt → Bool
  | .assign lhs rhs, .assign lhs' rhs' => lhs.exprEqual lhs' && rhs.exprEqual rhs'
  | .call rhs, .call rhs' => rhs.exprEqual rhs'
  | .comment _, .comment _ => true
  | _, _ => false

section Pass

-- The register expressions recorded at the end of each block.
variable (regOut : ℕ → RetReg → Option Expr)

/-- The blocks return after the same statements, at least two, with the same registers. -/
def tmTailEq (g : List Block) (x y : ℕ) : Bool :=
  match g[x]?, g[y]? with
  | some X, some Y =>
    X.ends == .ret && Y.ends == .ret && !X.isSwitch && !Y.isSwitch &&
      X.stmts.length == Y.stmts.length && decide (2 ≤ X.stmts.length) &&
      (X.stmts.zip Y.stmts).all (fun p ↦ tmStmtEq p.1 p.2) &&
      [RetReg.rax, .rdx, .xmm0, .xmm1].all fun r ↦ optEqual (regOut x r) (regOut y r)
  | _, _ => false

/-- The edge to `j` goes to `i`. -/
def redirect (j i t : ℕ) : ℕ :=
  if t = j then i else t

/-- The state of the pass. `targets` are the blocks that others were merged into. The source keeps
no record of which is which but the edges: `into` says where the edges to a block go. -/
structure TailMerge where
  graph : List Block
  merged : Finset ℕ
  targets : Finset ℕ
  into : ℕ → ℕ

/-- Block `k` returns, is not merged away, and has a predecessor or is the entry. -/
def TailMerge.considers (st : TailMerge) (k : ℕ) : Bool :=
  decide (k ∉ st.merged) && st.graph[k]?.any fun b ↦ b.ends == .ret && (k == 0 || !b.pred.isEmpty)

/-- Merge block `j` into block `i`. -/
def TailMerge.retire (st : TailMerge) (i j : ℕ) : TailMerge where
  graph := st.graph.map (·.mapEdges (redirect j i))
  merged := insert j st.merged
  targets := insert i st.targets
  into := redirect j i ∘ st.into

def tryMerge (i : ℕ) (st : TailMerge) (j : ℕ) : TailMerge :=
  if st.considers j && tmTailEq regOut st.graph i j then st.retire i j else st

/-- Merge into block `i` the blocks behind it that are the same. -/
def mergeInto (st : TailMerge) (i : ℕ) : TailMerge :=
  if st.considers i then
    (List.range' (i + 1) (st.graph.length - (i + 1))).foldl (tryMerge regOut i) st
  else st

def mergePass (st : TailMerge) : TailMerge :=
  (List.range st.graph.length).foldl (mergeInto regOut)
    { st with graph := rebuildEdges st.merged st.graph }

/-- Passes, as long as one changes something. -/
def mergePasses : ℕ → TailMerge → TailMerge
  | 0, st => st
  | n + 1, st =>
    let st' := mergePass regOut st
    if st'.merged = st.merged then st' else mergePasses n st'

def mergeIdenticalTails (merged : Finset ℕ) (g : List Block) : TailMerge :=
  let st := mergePasses regOut 8 ⟨g, merged, ∅, id⟩
  { st with graph := rebuildEdges st.merged st.graph }

end Pass

/-! ### What the pass keeps -/

section Keeps

variable {regOut : ℕ → RetReg → Option Expr} {merged : Finset ℕ} {g : List Block} {st : TailMerge}
  {i j : ℕ}

/-- Identical tails belong to returning blocks with as many statements. -/
theorem tails_of_tmTailEq (h : tmTailEq regOut g i j = true) :
    ∃ X Y, g[i]? = some X ∧ g[j]? = some Y ∧ X.ends = .ret ∧ Y.ends = .ret ∧
      X.stmts.length = Y.stmts.length := by
  unfold tmTailEq at h
  split at h
  · next X Y hX hY =>
    simp only [Bool.and_eq_true, beq_iff_eq] at h
    exact ⟨X, Y, hX, hY, h.1.1.1.1.1.1.1, h.1.1.1.1.1.1.2, h.1.1.1.2⟩
  · cases h

/-- The blocks retired so far, and the state of the pass, belong to the graph `g` at the start. -/
structure TailMerge.Inv (merged : Finset ℕ) (g : List Block) (st : TailMerge) : Prop where
  length : st.graph.length = g.length
  blocks : ∀ (id : ℕ) (b : Block), g[id]? = some b →
    ∃ b', st.graph[id]? = some b' ∧ EdgesRel (fun t t' ↦ t' = st.into t) b b'
  grows : merged ⊆ st.merged
  entry : 0 ∈ st.merged → 0 ∈ merged
  /-- Where an edge goes to now no block has been retired. -/
  live : ∀ t, st.into t ∈ st.merged → st.into t ∈ merged
  kept : ∀ t, (t ∈ st.merged → t ∈ merged) → st.into t = t
  tails : ∀ t ∈ st.merged, t ∉ merged → st.into t ∉ merged ∧
    ∃ X Y, g[st.into t]? = some X ∧ g[t]? = some Y ∧ X.ends = .ret ∧ Y.ends = .ret ∧
      X.stmts.length = Y.stmts.length

theorem inv_start (merged : Finset ℕ) (g : List Block) :
    TailMerge.Inv merged g ⟨g, merged, ∅, id⟩ where
  length := rfl
  blocks _ b hb := ⟨b, hb, edgesRel_refl fun _ _ ↦ rfl⟩
  grows := Finset.Subset.refl _
  entry := id
  live _ := id
  kept _ _ := rfl
  tails _ ht hmerged := absurd ht hmerged

/-- What `g` has at a position, given what the state has there. -/
theorem TailMerge.Inv.exists_of_graph (h : st.Inv merged g) {id : ℕ} {b' : Block}
    (hb' : st.graph[id]? = some b') :
    ∃ b, g[id]? = some b ∧ EdgesRel (fun t t' ↦ t' = st.into t) b b' := by
  obtain ⟨hlt, -⟩ := List.getElem?_eq_some_iff.1 hb'
  rw [h.length] at hlt
  obtain ⟨b'', hb'', hrel⟩ := h.blocks id g[id] (List.getElem?_eq_getElem hlt)
  obtain rfl := Option.some.inj (hb'.symm.trans hb'')
  exact ⟨_, List.getElem?_eq_getElem _, hrel⟩

theorem TailMerge.Inv.rebuildEdges (h : st.Inv merged g) (merged' : Finset ℕ) :
    TailMerge.Inv merged g { st with graph := Ldu.rebuildEdges merged' st.graph } := by
  refine ⟨by simpa using h.length, fun id b hb ↦ ?_, h.grows, h.entry, h.live, h.kept, h.tails⟩
  obtain ⟨b', hb', hrel⟩ := h.blocks id b hb
  refine ⟨_, by rw [getElem?_rebuildEdges, hb', Option.map_some], ?_⟩
  exact ⟨hrel.stmts, hrel.ends, hrel.isSwitch, hrel.cond, hrel.switchVar, hrel.retValue,
    hrel.retRaw, hrel.hasRetValue, hrel.tailCall, hrel.taken, hrel.fall, hrel.defaultSucc,
    hrel.caseSucc⟩

theorem TailMerge.Inv.retire (h : st.Inv merged g) (hij : i < j) (hi : i ∉ st.merged)
    (hj : j ∉ st.merged) (heq : tmTailEq regOut st.graph i j = true) :
    (st.retire i j).Inv merged g := by
  have hne : i ≠ j := hij.ne
  have hinto (t : ℕ) (ht : st.into t ≠ j) : (st.retire i j).into t = st.into t := if_neg ht
  have hinto' (t : ℕ) (ht : st.into t = j) : (st.retire i j).into t = i := if_pos ht
  -- The two tails, in the graph at the start.
  obtain ⟨X', Y', hX', hY', hretX, hretY, hlen⟩ := tails_of_tmTailEq heq
  obtain ⟨X, hX, hXrel⟩ := h.exists_of_graph hX'
  obtain ⟨Y, hY, hYrel⟩ := h.exists_of_graph hY'
  rw [hXrel.ends] at hretX
  rw [hYrel.ends] at hretY
  rw [hXrel.stmts, hYrel.stmts] at hlen
  refine ⟨by simpa [TailMerge.retire] using h.length, fun id b hb ↦ ?_, ?_, fun h0 ↦ ?_,
    fun t ht ↦ ?_, fun t ht ↦ ?_, fun t ht hmerged ↦ ?_⟩
  · obtain ⟨b', hb', hrel⟩ := h.blocks id b hb
    refine ⟨b'.mapEdges (redirect j i), by simp [TailMerge.retire, hb'], ?_⟩
    refine (hrel.trans (edgesRel_mapEdges fun _ _ ↦ rfl)).mono ?_
    rintro t _ ⟨_, rfl, rfl⟩
    rfl
  · exact h.grows.trans (Finset.subset_insert _ _)
  · exact h.entry ((Finset.mem_insert.1 h0).resolve_left (Nat.zero_lt_of_lt hij).ne)
  · by_cases hat : st.into t = j
    · rw [hinto' t hat] at ht ⊢
      exact absurd ((Finset.mem_insert.1 ht).resolve_left hne) hi
    · rw [hinto t hat] at ht ⊢
      exact h.live t ((Finset.mem_insert.1 ht).resolve_left hat)
  · have hkept := h.kept t fun hst ↦ ht (Finset.mem_insert_of_mem hst)
    refine (hinto t fun hat ↦ ?_).trans hkept
    rw [hkept] at hat
    subst hat
    exact hj (h.grows (ht (Finset.mem_insert_self _ _)))
  · by_cases hat : st.into t = j
    · rw [hinto' t hat]
      rcases Finset.mem_insert.1 ht with rfl | ht
      · exact ⟨fun hi' ↦ hi (h.grows hi'), X, Y, hX, hY, hretX, hretY, hlen⟩
      · obtain ⟨-, Y₁, Z, hY₁, hZ, -, hretZ, hlen'⟩ := h.tails t ht hmerged
        rw [hat] at hY₁
        obtain rfl := Option.some.inj (hY.symm.trans hY₁)
        exact ⟨fun hi' ↦ hi (h.grows hi'), X, Z, hX, hZ, hretX, hretZ, hlen.trans hlen'⟩
    · rw [hinto t hat]
      rcases Finset.mem_insert.1 ht with rfl | ht
      · exact absurd (h.kept t fun hst ↦ absurd hst hj) hat
      · exact h.tails t ht hmerged

theorem inv_tryMerge (hij : i < j) (h : st.Inv merged g ∧ i ∉ st.merged) :
    (tryMerge regOut i st j).Inv merged g ∧ i ∉ (tryMerge regOut i st j).merged := by
  unfold tryMerge
  split
  · next hcond =>
    simp only [Bool.and_eq_true, TailMerge.considers, decide_eq_true_eq] at hcond
    refine ⟨h.1.retire hij h.2 hcond.1.1 hcond.2, fun hi ↦ ?_⟩
    exact h.2 ((Finset.mem_insert.1 hi).resolve_left hij.ne)
  · exact h

theorem inv_mergeInto (i : ℕ) (h : st.Inv merged g) : (mergeInto regOut st i).Inv merged g := by
  unfold mergeInto
  split
  · next hcond =>
    simp only [Bool.and_eq_true, TailMerge.considers, decide_eq_true_eq] at hcond
    refine (List.foldlRecOn (motive := fun st : TailMerge ↦ st.Inv merged g ∧ i ∉ st.merged) _ _
      ⟨h, hcond.1⟩ fun st hst j hj ↦ inv_tryMerge ?_ hst).1
    exact (List.mem_range'_1.1 hj).1
  · exact h

theorem inv_mergePasses (n : ℕ) (h : st.Inv merged g) : (mergePasses regOut n st).Inv merged g := by
  induction n generalizing st with
  | zero => exact h
  | succ n ih =>
    have hpass : (mergePass regOut st).Inv merged g :=
      List.foldlRecOn _ _ (h.rebuildEdges _) fun _ hst i _ ↦ inv_mergeInto i hst
    unfold mergePasses
    dsimp only
    split
    · exact hpass
    · exact ih hpass

theorem inv_mergeIdenticalTails (regOut : ℕ → RetReg → Option Expr) (merged : Finset ℕ)
    (g : List Block) : (mergeIdenticalTails regOut merged g).Inv merged g :=
  (inv_mergePasses 8 (inv_start merged g)).rebuildEdges _

/-- No edge leads to a retired block. -/
theorem TailMerge.Inv.not_retired_of_edge (h : st.Inv merged g) {b : Block} (hb : b ∈ st.graph)
    {t : ℕ} (ht : t ∈ b.edges) : t ∈ st.merged → t ∈ merged := by
  obtain ⟨id, hid⟩ := List.mem_iff_getElem?.1 hb
  obtain ⟨b₀, -, hrel⟩ := h.exists_of_graph hid
  obtain ⟨t₀, -, rfl⟩ := hrel.mem_edges ht
  exact h.live t₀

end Keeps

/-! ### Tails that do the same -/

/-- From `s` on the two lists of statements, and the returned texts behind them, do the same one by
one. -/
def Interp.SameTail {σ E R : Type} (I : Interp σ E R) (rt rt' : RetText) :
    List Stmt → List Stmt → σ → Prop
  | [], [], s => I.leave rt' s = I.leave rt s
  | st :: sts, st' :: sts', s =>
    I.exec st' s = I.exec st s ∧ ∀ s', (I.exec st s).2 = .inl s' → I.SameTail rt rt' sts sts' s'
  | _, _, _ => False

section Tails

variable {σ E R : Type} (I : Interp σ E R) (usedReturn : Bool)

/-- The statements, then the returned text. -/
def Interp.runTail (rt : RetText) (sts : List Stmt) (s : σ) : List E × Next σ R :=
  match I.execAll sts s with
  | (es, .inl s') => emit es ((I.leave rt s').1, .inr (some (I.leave rt s').2))
  | (es, .inr r) => (es, .inr (some r))

theorem runBlock_of_ret {b : Block} (hret : b.ends = .ret) (s : σ) :
    runBlock I usedReturn b s = I.runTail (b.retText usedReturn) b.stmts s := by
  unfold runBlock transfer Interp.runTail
  rw [hret]
  rcases I.execAll b.stmts s with ⟨es, s' | r⟩ <;> rfl

theorem recorded_runTail_cons (rt : RetText) (st : Stmt) (sts : List Stmt) (s : σ) :
    I.recorded.runTail rt (st :: sts) s =
      emit [.exec (I.exec st s)] (match (I.exec st s).2 with
        | .inl s' => I.recorded.runTail rt sts s'
        | .inr r => ([], .inr (some r))) := by
  unfold Interp.runTail
  rw [Interp.execAll]
  simp only [Interp.recorded]
  rcases (I.exec st s).2 with s' | r
  · dsimp only
    rcases Interp.execAll _ sts s' with ⟨es, s'' | r⟩ <;> rfl
  · rfl

theorem recorded_runTail_iff {rt rt' : RetText} {sts sts' : List Stmt}
    (hlen : sts'.length = sts.length) (s : σ) :
    I.recorded.runTail rt' sts' s = I.recorded.runTail rt sts s ↔ I.SameTail rt rt' sts sts' s := by
  induction sts generalizing sts' s with
  | nil =>
    obtain rfl := List.length_eq_zero_iff.1 hlen
    have hleave (rt : RetText) : I.recorded.runTail rt [] s =
        ([.leave (I.leave rt s)], .inr (some (I.leave rt s).2)) := rfl
    rw [hleave, hleave, Interp.SameTail]
    constructor
    · intro h
      simpa using congrArg Prod.fst h
    · intro h
      rw [h]
  | cons st sts ih =>
    obtain ⟨st', sts', rfl⟩ := List.exists_cons_of_length_eq_add_one hlen
    have hlen' : sts'.length = sts.length := Nat.succ.inj hlen
    rw [recorded_runTail_cons, recorded_runTail_cons, Interp.SameTail]
    by_cases hexec : I.exec st' s = I.exec st s
    · rw [hexec]
      rcases hs : (I.exec st s).2 with s' | r
      · simp only [true_and, Sum.inl.injEq, forall_eq', ← ih hlen' s']
        constructor
        · intro h
          obtain ⟨hev, hst⟩ := Prod.mk.inj h
          exact Prod.ext (List.append_cancel_left hev) hst
        · intro h
          rw [h]
      · simp
    · refine iff_of_false (fun h ↦ hexec ?_) fun h ↦ hexec h.1
      simpa [emit] using congrArg (List.head? ∘ Prod.fst) h

/-- Two returning blocks with as many statements take the same recorded step exactly when their
tails do the same. -/
theorem runBlock_recorded_iff {X Y : Block} (hX : X.ends = .ret) (hY : Y.ends = .ret)
    (hlen : X.stmts.length = Y.stmts.length) (s : σ) :
    runBlock I.recorded usedReturn X s = runBlock I.recorded usedReturn Y s ↔
      I.SameTail (Y.retText usedReturn) (X.retText usedReturn) Y.stmts X.stmts s := by
  rw [runBlock_of_ret I.recorded usedReturn hX, runBlock_of_ret I.recorded usedReturn hY]
  exact recorded_runTail_iff I hlen s

theorem runTail_inr (rt : RetText) (sts : List Stmt) (s : σ) :
    ∃ es r, I.runTail rt sts s = (es, .inr r) := by
  unfold Interp.runTail
  rcases I.execAll sts s with ⟨es, s' | r⟩
  · exact ⟨_, _, rfl⟩
  · exact ⟨es, some r, rfl⟩

/-- The same block, and the same state. -/
def follow (into : ℕ → ℕ) (p : ℕ × σ) : ℕ × σ :=
  (into p.1, p.2)

/-- What the block at `j` was merged into does the same from `s` on as the block. -/
def TailAgrees (g : List Block) (into : ℕ → ℕ) (j : ℕ) (s : σ) : Prop :=
  ∀ X Y, g[into j]? = some X → g[j]? = some Y →
    I.SameTail (Y.retText usedReturn) (X.retText usedReturn) Y.stmts X.stmts s

variable {merged : Finset ℕ} {g : List Block} {st : TailMerge}

theorem TailMerge.Inv.step_iff (h : st.Inv merged g) (id : ℕ) (s : σ) :
    (graphMachine I.recorded usedReturn st.merged st.graph).step (follow st.into (id, s)) =
      Machine.mapState (follow st.into)
        ((graphMachine I.recorded usedReturn merged g).step (id, s)) ↔
    (id ∈ st.merged → id ∉ merged → TailAgrees I usedReturn g st.into id s) := by
  by_cases hretired : id ∈ st.merged ∧ id ∉ merged
  · obtain ⟨hst, hmerged⟩ := hretired
    obtain ⟨hlive, X, Y, hX, hY, hretX, hretY, hlen⟩ := h.tails id hst hmerged
    obtain ⟨X', hX', hrel⟩ := h.blocks _ X hX
    have hlive' : st.into id ∉ st.merged := fun hmem ↦ hlive (h.live id hmem)
    have hN : (graphMachine I.recorded usedReturn st.merged st.graph).step
        (follow st.into (id, s)) = runBlock I.recorded usedReturn X s := by
      rw [follow, graphMachine_step _ _ hlive' hX', runBlock_of_ret _ _ (hrel.ends.trans hretX),
        runBlock_of_ret _ _ hretX, hrel.stmts, hrel.retText]
    have hM : Machine.mapState (follow st.into)
        ((graphMachine I.recorded usedReturn merged g).step (id, s)) =
          runBlock I.recorded usedReturn Y s := by
      rw [graphMachine_step _ _ hmerged hY, runBlock_of_ret _ _ hretY]
      obtain ⟨es, r, hr⟩ := runTail_inr I.recorded (Y.retText usedReturn) Y.stmts s
      rw [hr]
      rfl
    rw [hN, hM, runBlock_recorded_iff I usedReturn hretX hretY hlen]
    simp [TailAgrees, hst, hmerged, hX, hY]
  · have hkept : st.into id = id := h.kept id fun hst ↦ by_contra fun hm ↦ hretired ⟨hst, hm⟩
    refine iff_of_true ?_ fun hst hm ↦ absurd ⟨hst, hm⟩ hretired
    rw [follow, hkept]
    by_cases hmerged : id ∈ merged
    · simp [graphMachine, hmerged, h.grows hmerged, Machine.mapState]
    · have hlive : id ∉ st.merged := fun hst ↦ hretired ⟨hst, hmerged⟩
      cases hb : g[id]? with
      | none =>
        have hb' : st.graph[id]? = none := by
          rw [List.getElem?_eq_none_iff] at hb ⊢
          rwa [h.length]
        simp [graphMachine, hmerged, hlive, hb, hb', Machine.mapState]
      | some b =>
        obtain ⟨b', hb', hrel⟩ := h.blocks id b hb
        rw [graphMachine_step _ _ hmerged hb, graphMachine_step _ _ hlive hb']
        have hnext := runBlock_edgesRel I.recorded usedReturn hrel s
        rcases hrun : runBlock I.recorded usedReturn b s with ⟨es, ⟨t, s'⟩ | r⟩
        · rw [hrun] at hnext
          obtain ⟨t', heq, rfl⟩ := hnext
          exact heq
        · rw [hrun] at hnext
          exact hnext

end Tails

/-! ### Two shifts -/

/-- A block that returns `a1 >> 1`, a number without sign or with one, after two assignments. -/
def halvedTail (u : Bool) : Block where
  pred := [0]
  ends := .ret
  stmts := [.assign (.mkVar "v1" 8) (.mkBinary .shr (.mkVar "a1" 8) (.mkConst 1) 8 u),
    .assign (.mkVar "v2" 8) (.mkConst 0 8)]
  hasRetValue := true
  retValue := some (.mkVar "v1" 8)

/-- Block `0` goes to block `1`, an unsigned shift, when `a2` is not zero, and to block `2`, a
signed one, otherwise. -/
def twoShifts : List Block :=
  [{ ends := .jcc, cond := some (.mkVar "a2" 8), taken := some 1, fall := some 2, succ := [1, 2] },
    halvedTail true, halvedTail false]

/-- The returned register holds `v1`. -/
def returnsV1 (_ : ℕ) (r : RetReg) : Option Expr :=
  if r = .rax then some (.mkVar "v1" 8) else none

/-- The number `-1` is to be halved. -/
def minusOne : Store (Val → Val) :=
  ⟨fun x ↦ if x = "a1" then -1 else 0, fun _ ↦ 0⟩

end Ldu
