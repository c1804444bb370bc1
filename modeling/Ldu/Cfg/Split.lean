import Ldu.Cfg.FlagDispatch
import Ldu.Semantics.Edges
import Ldu.Semantics.Flags

/-!
# Splitting exits

The first half of a flag dispatch: some exits get copies of their own, one for each predecessor
behind the region. A copy does what the exit did, so a split changes no behaviour
(`split_sameBehaviour`) on graphs whose edges are valid (`Closed`).

Another invariant of the pass is stated here as well: the recorded edges lead to live blocks
(`EdgesLive`).
-/

namespace Ldu

open Ldu.Expr

/-! ### Graphs with valid edges -/

/-- Merged blocks and successors are blocks of the graph. -/
structure Closed (merged : Finset ℕ) (g : List Block) : Prop where
  merged_lt : ∀ m ∈ merged, m < g.length
  edges_lt : ∀ b ∈ g, ∀ t ∈ b.edges, t < g.length

/-- The recorded successors, and the blocks with predecessors, are blocks of the graph that
have not been merged away. -/
structure EdgesLive (merged : Finset ℕ) (g : List Block) : Prop where
  succ_live : ∀ u, ∀ s ∈ succOf g u, s < g.length ∧ s ∉ merged
  pred_live : ∀ b, predOf g b ≠ [] → b < g.length ∧ b ∉ merged

theorem rebuildEdges_live (merged : Finset ℕ) (g : List Block) :
    EdgesLive merged (rebuildEdges merged g) where
  succ_live u s hs := by
    unfold succOf at hs
    rw [getElem?_rebuildEdges] at hs
    cases hu : g[u]? with
    | none => simp [hu] at hs
    | some b =>
      simp only [hu, Option.map_some] at hs
      obtain ⟨-, -, -, -, hlt, hlive⟩ := mem_newSucc.1 hs
      exact ⟨by simpa using hlt, hlive⟩
  pred_live b hb := by
    unfold predOf at hb
    rw [getElem?_rebuildEdges] at hb
    cases hu : g[b]? with
    | none => simp [hu] at hb
    | some B =>
      simp only [hu, Option.map_some] at hb
      obtain ⟨p, hp⟩ := List.exists_mem_of_ne_nil _ hb
      obtain ⟨-, -, -, -, hlt, hlive⟩ := mem_newSucc.1 (of_decide_eq_true (List.mem_filter.1 hp).2)
      exact ⟨by simpa using hlt, hlive⟩

section Rebuild

variable {merged : Finset ℕ} {g : List Block}

theorem mem_rebuildEdges {b : Block} (hb : b ∈ rebuildEdges merged g) :
    ∃ b₀ ∈ g, b.edges = b₀.edges ∧ b.exprs = b₀.exprs := by
  obtain ⟨id, hid⟩ := List.mem_iff_getElem?.1 hb
  rw [getElem?_rebuildEdges] at hid
  obtain ⟨b₀, hb₀, rfl⟩ := Option.map_eq_some_iff.1 hid
  exact ⟨b₀, List.mem_of_getElem? hb₀, rfl, rfl⟩

theorem Closed.rebuildEdges (h : Closed merged g) : Closed merged (rebuildEdges merged g) where
  merged_lt m hm := by simpa using h.merged_lt m hm
  edges_lt b hb t ht := by
    obtain ⟨b₀, hb₀, hedges, -⟩ := mem_rebuildEdges hb
    simpa using h.edges_lt b₀ hb₀ t (hedges ▸ ht)

theorem FreshAbove.rebuildEdges {seq : ℕ} (h : FreshAbove seq g) :
    FreshAbove seq (rebuildEdges merged g) := by
  intro k hk b hb
  obtain ⟨b₀, hb₀, -, hexprs⟩ := mem_rebuildEdges hb
  simpa [Block.mentions, hexprs] using h k hk b₀ hb₀

theorem rebuildEdges_machine {σ E R : Type*} (I : Interp σ E R) (usedReturn : Bool)
    (merged : Finset ℕ) (g : List Block) :
    graphMachine I usedReturn merged (Ldu.rebuildEdges merged g) =
      graphMachine I usedReturn merged g := by
  unfold graphMachine
  congr 1
  funext ⟨id, s⟩
  simp only [getElem?_rebuildEdges]
  cases g[id]? <;> rfl

end Rebuild

/-! ### Splitting an exit -/

section Split

variable {merged : Finset ℕ} {g : List Block} {t x : ℕ} {bt : Block}

theorem length_split_le : g.length ≤ (split t g x).length := by
  unfold split
  split <;> simp

/-- The blocks after a split. -/
theorem getElem?_split (ht : g[t]? = some bt) (id : ℕ) :
    (split t g x)[id]? =
      if id < g.length then
        if id = x then g[id]?.map (Block.mapEdges fun s ↦ if s = t then g.length else s)
        else g[id]?
      else if id = g.length then some { bt with pred := [], succ := [] } else none := by
  simp only [split, ht]
  rw [List.getElem?_append]
  simp only [List.length_modify, List.getElem?_modify]
  split
  · by_cases hx : x = id
    · simp [hx]
    · simp [hx, Ne.symm hx]
  · next hlt =>
    by_cases hid : id = g.length
    · simp [hid]
    · simp only [hid, if_false, List.getElem?_eq_none_iff, List.length_singleton]
      omega

/-- How the blocks after a split stand for the blocks before. -/
def SplitRel (n t : ℕ) (i i' : ℕ) : Prop :=
  (i' = i ∧ i < n) ∨ (i' = n ∧ i = t)

theorem split_edgesRel (hc : Closed merged g) (ht : g[t]? = some bt) {i i' : ℕ}
    (hi : SplitRel g.length t i i') :
    ∃ b b', g[i]? = some b ∧ (split t g x)[i']? = some b' ∧
      EdgesRel (SplitRel g.length t) b b' := by
  have hsame : ∀ b ∈ g, ∀ s ∈ b.edges, SplitRel g.length t s s := fun b hb s hs ↦
    .inl ⟨rfl, hc.edges_lt b hb s hs⟩
  rcases hi with ⟨rfl, hlt⟩ | ⟨rfl, rfl⟩
  · obtain ⟨b, hb⟩ : ∃ b, g[i']? = some b := ⟨_, List.getElem?_eq_getElem hlt⟩
    have hmem := List.mem_of_getElem? hb
    rw [getElem?_split ht, if_pos hlt]
    split
    · refine ⟨b, _, hb, by rw [hb]; rfl, edgesRel_mapEdges fun s hs ↦ ?_⟩
      split
      · next h => exact .inr ⟨rfl, h⟩
      · exact hsame b hmem s hs
    · exact ⟨b, b, hb, hb, edgesRel_refl (hsame b hmem)⟩
  · refine ⟨bt, { bt with pred := [], succ := [] }, ht, ?_, ?_⟩
    · rw [getElem?_split ht, if_neg (lt_irrefl _), if_pos rfl]
    · have h := edgesRel_refl (hsame bt (List.mem_of_getElem? ht))
      exact ⟨rfl, rfl, rfl, rfl, rfl, rfl, rfl, rfl, rfl, h.taken, h.fall, h.defaultSucc,
        h.caseSucc⟩

/-- A split changes no behaviour: the copy does what the exit did. -/
theorem split_sameBehaviour {σ E R : Type*} (I : Interp σ E R) (usedReturn : Bool)
    (hc : Closed merged g) (ht : t ∉ merged) {id : ℕ} (hid : id < g.length) (s : σ) :
    (graphMachine I usedReturn merged (split t g x)).SameBehaviour (id, s)
      (graphMachine I usedReturn merged g) (id, s) := by
  cases hbt : g[t]? with
  | none =>
    have hsplit : split t g x = g := by simp [split, hbt]
    rw [hsplit]
    exact .refl _ _
  | some bt =>
    refine Machine.Simulation.sameBehaviour
      (Q := fun p q ↦ p.2 = q.2 ∧ SplitRel g.length t q.1 p.1) ?_ ⟨rfl, .inl ⟨rfl, hid⟩⟩
    rintro ⟨i', s⟩ ⟨i, _⟩ ⟨rfl, hi⟩
    have hmerged : i' ∈ merged ↔ i ∈ merged := by
      rcases hi with ⟨rfl, -⟩ | ⟨rfl, rfl⟩
      · rfl
      · exact iff_of_false (fun h ↦ lt_irrefl _ (hc.merged_lt _ h)) ht
    by_cases hlive : i ∈ merged
    · have hstep : (graphMachine I usedReturn merged (split t g x)).step (i', s) =
          ([], .inr none) := by
        simp [graphMachine, hmerged.2 hlive]
      rw [hstep]
      exact Machine.Matches.halt (by simp [graphMachine, hlive])
    · obtain ⟨b, b', hb, hb', hrel⟩ := split_edgesRel (x := x) hc hbt hi
      have hstep := graphMachine_step I usedReturn hlive hb s
      have hrun := runBlock_edgesRel I usedReturn hrel s
      rw [graphMachine_step I usedReturn (mt hmerged.1 hlive) hb' s]
      rcases hres : runBlock I usedReturn b s with ⟨es, ⟨j, s'⟩ | r⟩
      · rw [hres] at hstep hrun
        obtain ⟨j', hj', hjrel⟩ := hrun
        rw [hj']
        exact Machine.Matches.one hstep ⟨rfl, hjrel⟩
      · rw [hres] at hstep hrun
        rw [hrun]
        exact Machine.Matches.halt hstep

theorem Closed.split (hc : Closed merged g) : Closed merged (split t g x) := by
  cases hbt : g[t]? with
  | none =>
    have hsplit : Ldu.split t g x = g := by simp [Ldu.split, hbt]
    rwa [hsplit]
  | some bt =>
    have hlen : (Ldu.split t g x).length = g.length + 1 := by simp [Ldu.split, hbt]
    refine ⟨fun m hm ↦ hlen ▸ (hc.merged_lt m hm).trans (Nat.lt_succ_self _), ?_⟩
    intro b hb s hs
    obtain ⟨id, hid⟩ := List.mem_iff_getElem?.1 hb
    rw [getElem?_split hbt] at hid
    rw [hlen]
    split at hid
    · split at hid
      · obtain ⟨b₀, hb₀, rfl⟩ := Option.map_eq_some_iff.1 hid
        obtain ⟨s₀, hs₀, rfl⟩ := mem_edges_mapEdges hs
        have := hc.edges_lt b₀ (List.mem_of_getElem? hb₀) s₀ hs₀
        split <;> omega
      · have := hc.edges_lt b (List.mem_of_getElem? hid) s hs
        omega
    · split at hid
      · obtain rfl := Option.some.inj hid
        have := hc.edges_lt bt (List.mem_of_getElem? hbt) s hs
        omega
      · exact absurd hid (by simp)

theorem FreshAbove.split {seq : ℕ} (h : FreshAbove seq g) : FreshAbove seq (split t g x) := by
  intro k hk b hb
  have key : ∃ b₀ ∈ g, b.exprs = b₀.exprs := by
    cases hbt : g[t]? with
    | none =>
      have hsplit : Ldu.split t g x = g := by simp [Ldu.split, hbt]
      exact ⟨b, hsplit ▸ hb, rfl⟩
    | some bt =>
      obtain ⟨id, hid⟩ := List.mem_iff_getElem?.1 hb
      rw [getElem?_split hbt] at hid
      split at hid
      · split at hid
        · obtain ⟨b₀, hb₀, rfl⟩ := Option.map_eq_some_iff.1 hid
          exact ⟨b₀, List.mem_of_getElem? hb₀, rfl⟩
        · exact ⟨b, List.mem_of_getElem? hid, rfl⟩
      · split at hid
        · obtain rfl := Option.some.inj hid
          exact ⟨bt, List.mem_of_getElem? hbt, rfl⟩
        · exact absurd hid (by simp)
  obtain ⟨b₀, hb₀, hexprs⟩ := key
  simpa [Block.mentions, hexprs] using h k hk b₀ hb₀

end Split

end Ldu
