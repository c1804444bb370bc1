import Ldu.Graph.Flowgraph
import Ldu.Cfg.Analysis
import Mathlib.Data.Finset.Max

/-!
# The reducibility test

`cfgIsReducible` collapses the part of the block graph reachable from block `0`: it deletes
self-loops (T1) and folds a block with a single predecessor into that predecessor (T2) until
neither applies, and answers whether one block is left.

`Collapse` is the working state, with the adjacency kept twice, as successor and as
predecessor sets. `Collapse.Inv` says that the two agree and that every live block is
reachable; both moves preserve it and preserve reducibility of the collapsed flowgraph, so the
answer is the dominator-based notion of `Flowgraph.Reducible` (`cfgIsReducible_iff`).
-/

open Relation

namespace Ldu

/-- The block graph as a flowgraph entered at block `0`. -/
def flowgraph (g : List Block) : Flowgraph ℕ where
  entry := 0
  Adj u v := v ∈ succOf g u ∧ v < g.length

/-- The blocks reachable from block `0`. -/
def reachable (g : List Block) : Finset ℕ :=
  Worklist.explore (Finset.range g.length) (succOf g) [0] {0}

/-- The working state of the collapse. -/
structure Collapse where
  succ : ℕ → Finset ℕ
  pred : ℕ → Finset ℕ
  alive : Finset ℕ
  live : ℕ

namespace Collapse

/-- The reachable blocks with the edges between them. -/
def init (g : List Block) : Collapse :=
  let succ b := if b ∈ reachable g then (succOf g b).toFinset.filter (· ∈ reachable g) else ∅
  { succ := succ
    pred := fun b ↦ (reachable g).filter fun p ↦ b ∈ succ p
    alive := reachable g
    live := (reachable g).card }

variable (st : Collapse)

/-- The live blocks with an edge to themselves. -/
def selfLoops : Finset ℕ :=
  st.alive.filter fun b ↦ b ∈ st.succ b

/-- T1: strip every self-loop. -/
def strip : Collapse :=
  { st with
    succ := fun b ↦ if b ∈ st.selfLoops then (st.succ b).erase b else st.succ b
    pred := fun b ↦ if b ∈ st.selfLoops then (st.pred b).erase b else st.pred b }

/-- The first element of `pred b`. -/
def firstPred (b : ℕ) : ℕ :=
  (st.pred b).min.untopD b

/-- The first non-entry block with a single predecessor, other than itself. -/
def candidate (n : ℕ) : Option ℕ :=
  (List.range n).find? fun b ↦
    b ∈ st.alive ∧ b ≠ 0 ∧ (st.pred b).card = 1 ∧ st.firstPred b ≠ b

/-- T2: the only predecessor of `b` absorbs its out-edges. -/
def merge (b : ℕ) : Collapse :=
  let m := st.firstPred b
  { succ := fun x ↦
      if x = b then ∅ else if x = m then (st.succ m ∪ st.succ b).erase b else st.succ x
    pred := fun x ↦
      if x = b then ∅ else if x ∈ st.succ b then insert m ((st.pred x).erase b) else st.pred x
    alive := st.alive.erase b
    live := st.live - 1 }

/-- One round: T1 on all blocks if it applies anywhere, else T2 on one block. -/
def step (n : ℕ) : Option Collapse :=
  if st.selfLoops.Nonempty then some st.strip else (st.candidate n).map st.merge

/-- What the rounds decrease: folding a block may create one batch of self-loops. -/
def todo : ℕ :=
  2 * st.live + if st.selfLoops.Nonempty then 1 else 0

variable {st} {n : ℕ}

theorem mem_selfLoops {b : ℕ} : b ∈ st.selfLoops ↔ b ∈ st.alive ∧ b ∈ st.succ b := by
  simp [selfLoops]

theorem mem_strip_succ {a b : ℕ} (ha : a ∈ st.alive) :
    b ∈ st.strip.succ a ↔ b ∈ st.succ a ∧ b ≠ a := by
  by_cases h : a ∈ st.selfLoops
  · simp [strip, h, and_comm]
  · simp only [strip, h, if_false, iff_self_and]
    rintro hb rfl
    exact h (mem_selfLoops.2 ⟨ha, hb⟩)

theorem selfLoops_strip : st.strip.selfLoops = ∅ := by
  refine Finset.eq_empty_of_forall_notMem fun b hb ↦ ?_
  obtain ⟨ha, hb⟩ := mem_selfLoops.1 hb
  have ha : b ∈ st.alive := ha
  exact ((mem_strip_succ ha).1 hb).2 rfl

/-- What a round can do. -/
theorem step_cases {st' : Collapse} (h : st.step n = some st') :
    (st.selfLoops.Nonempty ∧ st' = st.strip) ∨
      ∃ b, st.selfLoops = ∅ ∧ st.candidate n = some b ∧ st' = st.merge b := by
  unfold step at h
  split at h
  · next hne => exact .inl ⟨hne, (Option.some.inj h).symm⟩
  · next hne =>
    obtain ⟨b, hb, rfl⟩ := Option.map_eq_some_iff.1 h
    exact .inr ⟨b, Finset.not_nonempty_iff_eq_empty.1 hne, hb, rfl⟩

theorem todo_lt_of_step {st' : Collapse} (hlive : 1 < st.live) (h : st.step n = some st') :
    st'.todo < st.todo := by
  rcases step_cases h with ⟨hne, rfl⟩ | ⟨b, hemp, -, rfl⟩
  · have hstrip : st.strip.live = st.live := rfl
    simp [todo, hne, selfLoops_strip, hstrip]
  · have hmerge : (st.merge b).todo ≤ 2 * (st.live - 1) + 1 := by
      unfold todo
      split <;> simp [merge]
    simp only [todo, hemp, Finset.not_nonempty_empty, if_false] at hmerge ⊢
    omega

/-- The rounds, while more than one block is left and something changed. -/
def loop (n : ℕ) (st : Collapse) : Collapse :=
  if _hlive : 1 < st.live then
    match _h : st.step n with
    | some st' => loop n st'
    | none => st
  else st
termination_by st.todo
decreasing_by exact todo_lt_of_step _hlive _h

end Collapse

/-- Whether the block graph collapses to a single block. -/
def cfgIsReducible (g : List Block) : Bool :=
  if g.length ≤ 1 then true
  else (Collapse.loop g.length (Collapse.init g)).live == 1

/-! ### The collapsed flowgraph -/

namespace Collapse

/-- The flowgraph on the live blocks. -/
def graph (st : Collapse) : Flowgraph ℕ where
  entry := 0
  Adj a b := a ∈ st.alive ∧ b ∈ st.succ a

/-- The successor and predecessor sets agree, stay within the live blocks, and every live
block is reachable. -/
structure Inv (n : ℕ) (st : Collapse) : Prop where
  alive_lt : ∀ b ∈ st.alive, b < n
  entry_alive : 0 ∈ st.alive
  live_eq : st.live = st.alive.card
  succ_alive : ∀ a ∈ st.alive, ∀ b ∈ st.succ a, b ∈ st.alive
  mem_pred : ∀ b ∈ st.alive, ∀ a, a ∈ st.pred b ↔ a ∈ st.alive ∧ b ∈ st.succ a
  reach : ∀ b ∈ st.alive, st.graph.Reach b

variable {n : ℕ} {st : Collapse}

namespace Inv

theorem alive_of_reach (h : st.Inv n) {v : ℕ} (hv : st.graph.Reach v) : v ∈ st.alive := by
  induction hv with
  | refl => exact h.entry_alive
  | tail _ huv _ => exact h.succ_alive _ huv.1 _ huv.2

theorem finite_reach (h : st.Inv n) : {v | st.graph.Reach v}.Finite :=
  st.alive.finite_toSet.subset fun _ hv ↦ h.alive_of_reach hv

theorem strip_adj {a b : ℕ} : st.strip.graph.Adj a b ↔ st.graph.Adj a b ∧ b ≠ a := by
  show a ∈ st.alive ∧ b ∈ st.strip.succ a ↔ (a ∈ st.alive ∧ b ∈ st.succ a) ∧ b ≠ a
  rw [and_assoc]
  exact and_congr_right fun ha ↦ mem_strip_succ ha

theorem mem_strip_pred (h : st.Inv n) {a b : ℕ} (hb : b ∈ st.alive) :
    a ∈ st.strip.pred b ↔ a ∈ st.pred b ∧ a ≠ b := by
  by_cases hloop : b ∈ st.selfLoops
  · simp [Collapse.strip, hloop, and_comm]
  · simp only [Collapse.strip, hloop, if_false, iff_self_and]
    rintro ha rfl
    exact hloop (mem_selfLoops.2 ((h.mem_pred a hb a).1 ha))

theorem strip (h : st.Inv n) : st.strip.Inv n where
  alive_lt := h.alive_lt
  entry_alive := h.entry_alive
  live_eq := h.live_eq
  succ_alive a (ha : a ∈ st.alive) b hb := h.succ_alive a ha b ((mem_strip_succ ha).1 hb).1
  mem_pred b (hb : b ∈ st.alive) a := by
    rw [h.mem_strip_pred hb, h.mem_pred b hb, and_assoc]
    refine and_congr_right fun ha ↦ ?_
    rw [mem_strip_succ ha, ne_comm]
  reach b hb := by
    have hreach := h.reach b hb
    clear hb
    induction hreach with
    | refl => exact .refl
    | @tail u v _ huv ih =>
      rcases eq_or_ne v u with rfl | hne
      · exact ih
      · exact ih.tail (strip_adj.2 ⟨huv, hne⟩)

theorem reducible_strip : st.strip.graph.Reducible ↔ st.graph.Reducible :=
  Flowgraph.reducible_iff_of_selfLoops rfl (fun _ _ hab ↦ (strip_adj.1 hab).1)
    fun _ _ hab hne ↦ strip_adj.2 ⟨hab, hne.symm⟩

/-- A block picked for T2 has exactly one live predecessor. -/
theorem of_candidate (h : st.Inv n) {b : ℕ} (hb : st.candidate n = some b) :
    b ∈ st.alive ∧ b ≠ 0 ∧ st.firstPred b ≠ b ∧ st.graph.Adj (st.firstPred b) b ∧
      ∀ u, st.graph.Adj u b → u = st.firstPred b := by
  have hspec := List.find?_some hb
  simp only [decide_eq_true_eq] at hspec
  obtain ⟨halive, hne, hcard, hself⟩ := hspec
  obtain ⟨m, hm⟩ := Finset.card_eq_one.1 hcard
  have hfirst : st.firstPred b = m := by
    rw [firstPred, hm, Finset.min_singleton, WithTop.untopD_coe]
  have hpred : ∀ a, a = m ↔ st.graph.Adj a b := fun a ↦ by
    rw [← Finset.mem_singleton, ← hm, h.mem_pred b halive]
    rfl
  rw [hfirst] at hself ⊢
  exact ⟨halive, hne, hself, (hpred m).1 rfl, fun u hu ↦ (hpred u).2 hu⟩

theorem merge_graph (h : st.Inv n) {b : ℕ} (hb : st.candidate n = some b) :
    (st.merge b).graph = st.graph.contract (st.firstPred b) b := by
  obtain ⟨halive, -, hself, hadj, honly⟩ := h.of_candidate hb
  have hiff : ∀ a c, (st.merge b).graph.Adj a c ↔
      (st.graph.contract (st.firstPred b) b).Adj a c := by
    intro a c
    simp only [graph, merge, Flowgraph.contract, Finset.mem_erase] at hadj honly ⊢
    grind
  simp only [graph, Flowgraph.contract, Flowgraph.mk.injEq, true_and] at hiff ⊢
  funext a c
  exact propext (hiff a c)

theorem merge (h : st.Inv n) {b : ℕ} (hb : st.candidate n = some b) : (st.merge b).Inv n where
  alive_lt c hc := h.alive_lt c (Finset.mem_of_mem_erase hc)
  entry_alive := Finset.mem_erase.2 ⟨(h.of_candidate hb).2.1.symm, h.entry_alive⟩
  live_eq := by
    show st.live - 1 = (st.alive.erase b).card
    rw [Finset.card_erase_of_mem (h.of_candidate hb).1, h.live_eq]
  succ_alive a ha c hc := by
    obtain ⟨halive, -, -, -, honly⟩ := h.of_candidate hb
    have hadj : (st.merge b).graph.Adj a c := ⟨ha, hc⟩
    rw [h.merge_graph hb] at hadj
    obtain ⟨-, hcb, hac | ⟨-, hbc⟩⟩ := hadj
    · exact Finset.mem_erase.2 ⟨hcb, h.succ_alive _ hac.1 _ hac.2⟩
    · exact Finset.mem_erase.2 ⟨hcb, h.succ_alive _ hbc.1 _ hbc.2⟩
  mem_pred c hc a := by
    obtain ⟨halive, -, hself, hadj, honly⟩ := h.of_candidate hb
    have hcb : c ≠ b := (Finset.mem_erase.1 hc).1
    have hpred := h.mem_pred c (Finset.mem_of_mem_erase hc)
    simp only [graph, Collapse.merge, Finset.mem_erase] at hadj honly ⊢
    simp only [if_neg hcb]
    split
    · next hbc =>
      simp only [Finset.mem_insert, Finset.mem_erase]
      grind
    · next hbc => grind
  reach c hc := by
    obtain ⟨-, hne, hself, hadj, honly⟩ := h.of_candidate hb
    obtain ⟨hcb, hc⟩ := Finset.mem_erase.1 hc
    rw [h.merge_graph hb]
    exact (Flowgraph.reach_contract_iff hself hadj hne honly hcb).2 (h.reach c hc)

theorem reducible_merge (h : st.Inv n) {b : ℕ} (hb : st.candidate n = some b) :
    (st.merge b).graph.Reducible ↔ st.graph.Reducible := by
  obtain ⟨-, hne, hself, hadj, honly⟩ := h.of_candidate hb
  rw [h.merge_graph hb]
  exact Flowgraph.reducible_contract_iff hself hadj hne honly (h.reach _ hadj.1)

/-- A round keeps the invariant and reducibility. -/
theorem step (h : st.Inv n) {st' : Collapse} (hst : st.step n = some st') :
    st'.Inv n ∧ (st'.graph.Reducible ↔ st.graph.Reducible) := by
  rcases step_cases hst with ⟨-, rfl⟩ | ⟨b, -, hb, rfl⟩
  · exact ⟨h.strip, reducible_strip⟩
  · exact ⟨h.merge hb, h.reducible_merge hb⟩

theorem reducible_of_live (h : st.Inv n) (hlive : st.live ≤ 1) : st.graph.Reducible := by
  refine Flowgraph.reducible_of_forall_reach_eq fun v hv ↦ ?_
  have hcard : st.alive.card ≤ 1 := h.live_eq ▸ hlive
  exact Finset.card_le_one.1 hcard v (h.alive_of_reach hv) 0 h.entry_alive

/-- When no round applies, a reducible graph is down to one block. -/
theorem live_of_stuck (h : st.Inv n) (hst : st.step n = none) (hred : st.graph.Reducible) :
    st.live = 1 := by
  unfold Collapse.step at hst
  split at hst
  · exact absurd hst (by simp)
  · next hloops =>
    rw [Option.map_eq_none_iff] at hst
    by_contra hlive
    have hcard : 1 < st.alive.card := by
      have := Finset.card_pos.2 ⟨0, h.entry_alive⟩
      have := h.live_eq
      omega
    obtain ⟨x, hx, hx0⟩ := Finset.exists_mem_ne hcard 0
    have hloop : ∀ v, st.graph.Reach v → ¬ st.graph.Adj v v := fun v _ hv ↦
      hloops ⟨v, mem_selfLoops.2 hv⟩
    obtain ⟨w, m, hw0, hw, hmw, hadj, honly⟩ :=
      hred.exists_unique_pred h.finite_reach hloop (h.reach x hx) hx0
    have hwa : w ∈ st.alive := h.alive_of_reach hw
    have hpred : st.pred w = {m} := by
      ext a
      rw [h.mem_pred w hwa, Finset.mem_singleton]
      refine ⟨fun ha ↦ honly a (h.reach a ha.1) ha, ?_⟩
      rintro rfl
      exact hadj
    have hnone := List.find?_eq_none.1 hst w (List.mem_range.2 (h.alive_lt w hwa))
    refine hnone (decide_eq_true ⟨hwa, hw0, ?_, ?_⟩)
    · rw [hpred, Finset.card_singleton]
    · rw [firstPred, hpred, Finset.min_singleton, WithTop.untopD_coe]
      exact hmw

/-- The rounds end in a single block exactly when the graph they start from is reducible. -/
theorem loop_live_iff (h : st.Inv n) : (st.loop n).live = 1 ↔ st.graph.Reducible := by
  fun_induction Collapse.loop n st with
  | case1 st hlive st' hst ih =>
    obtain ⟨hinv, hred⟩ := h.step hst
    exact (ih hinv).trans hred
  | case2 st hlive hst => exact ⟨fun _ ↦ by omega, h.live_of_stuck hst⟩
  | case3 st hlive =>
    refine ⟨fun _ ↦ h.reducible_of_live (by omega), fun _ ↦ ?_⟩
    have hpos : 0 < st.alive.card := Finset.card_pos.2 ⟨0, h.entry_alive⟩
    have := h.live_eq
    omega

end Inv

/-! ### The initial state -/

theorem mem_reachable {g : List Block} {v : ℕ} :
    v ∈ reachable g ↔ (flowgraph g).Reach v := by
  rw [reachable, Worklist.mem_explore_iff (by simp)]
  have hrel : Worklist.Follows (Finset.range g.length) (succOf g) = (flowgraph g).Adj := by
    funext a b
    simp [Worklist.Follows, flowgraph]
  simp only [Finset.mem_singleton, exists_eq_left, hrel]
  rfl

theorem init_adj {g : List Block} {a b : ℕ} :
    (init g).graph.Adj a b ↔
      (flowgraph g).Reach a ∧ b ∈ succOf g a ∧ (flowgraph g).Reach b := by
  show a ∈ reachable g ∧ b ∈ (init g).succ a ↔ _
  rw [mem_reachable]
  refine and_congr_right fun ha ↦ ?_
  simp [init, mem_reachable.2 ha, mem_reachable]

theorem init_inv {g : List Block} (hg : g ≠ []) : (init g).Inv g.length where
  alive_lt b hb := by
    rcases ReflTransGen.cases_tail (mem_reachable.1 hb) with rfl | ⟨_, -, -, hlt⟩
    · exact List.length_pos_iff.2 hg
    · exact hlt
  entry_alive := mem_reachable.2 .refl
  live_eq := rfl
  succ_alive _ ha _ hb := mem_reachable.2 (init_adj.1 ⟨ha, hb⟩).2.2
  mem_pred _ _ _ := Finset.mem_filter
  reach b hb := by
    have hreach := mem_reachable.1 hb
    clear hb
    induction hreach with
    | refl => exact .refl
    | @tail u v hu huv ih => exact ih.tail (init_adj.2 ⟨hu, huv.1, hu.tail huv⟩)

theorem reducible_init (g : List Block) :
    (init g).graph.Reducible ↔ (flowgraph g).Reducible := by
  refine Flowgraph.reducible_iff_of_reach rfl fun a b ↦ ?_
  rw [init_adj]
  refine and_congr_right fun ha ↦ ⟨?_, fun hab ↦ ⟨hab.1, ha.step hab⟩⟩
  rintro ⟨hb, hreach⟩
  refine ⟨hb, ?_⟩
  rcases ReflTransGen.cases_tail hreach with rfl | ⟨_, -, -, hlt⟩
  · exact (Nat.zero_le a).trans_lt (lt_of_mem_succOf hb)
  · exact hlt

end Collapse

/-- The collapse decides reducibility: it answers yes exactly when, in the part of the graph
reachable from block `0`, deleting every edge whose head dominates its tail leaves no cycle. -/
theorem cfgIsReducible_iff (g : List Block) :
    cfgIsReducible g = true ↔ (flowgraph g).Reducible := by
  unfold cfgIsReducible
  split
  · next hlen =>
    refine ⟨fun _ ↦ Flowgraph.reducible_of_forall_reach_eq fun v hv ↦ ?_, fun _ ↦ rfl⟩
    rcases ReflTransGen.cases_tail hv with rfl | ⟨_, -, -, hlt⟩
    · rfl
    · show v = 0
      omega
  · next hlen =>
    have hg : g ≠ [] := by
      rintro rfl
      exact hlen (Nat.zero_le 1)
    rw [beq_iff_eq, (Collapse.init_inv hg).loop_live_iff, Collapse.reducible_init]

end Ldu
