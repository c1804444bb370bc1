import Ldu.Graph.Flowgraph
import Ldu.Cfg.Analysis

/-!
# Dominators of the control flow

`controlFlow` is the flowgraph that runs follow: the edges named by the terminators. When the
immediate dominators at hand are those of this graph (`CorrectIdom`), walking up the dominator
chain finds only dominators (`dom_of_dominates`).
-/

namespace Ldu

/-- The edges named by the terminators, entered at block `0`. -/
def controlFlow (g : List Block) : Flowgraph ℕ where
  entry := 0
  Adj u v := v < g.length ∧ ∃ b, g[u]? = some b ∧ v ∈ b.targets

/-- The immediate dominators are correctly computed: the entry has itself, every other block in
reach has its closest strict dominator, and the blocks out of reach have none. -/
structure CorrectIdom (G : Flowgraph ℕ) (idom : List (Option ℕ)) : Prop where
  root : ∀ d, idom[G.entry]?.join = some d → d = G.entry
  closest : ∀ v d, v ≠ G.entry → idom[v]?.join = some d →
    d ≠ v ∧ G.Dom d v ∧ ∀ d', d' ≠ v → G.Dom d' v → G.Dom d' d
  reach_iff : ∀ v, v ≠ G.entry → (G.Reach v ↔ ∃ d, idom[v]?.join = some d)

/-- What the climb meets dominates where it starts. -/
theorem dom_of_dominates {G : Flowgraph ℕ} {idom : List (Option ℕ)} (h : CorrectIdom G idom)
    {a b : ℕ} (hdom : dominates idom a b = true) : G.Dom a b := by
  have hchain : ∀ n b, a ∈ idomChain idom n b → G.Dom a b := by
    intro n
    induction n with
    | zero =>
      intro b hmem
      cases hmem
    | succ n ih =>
      intro b hmem
      rw [idomChain] at hmem
      rcases List.mem_cons.1 hmem with rfl | hmem
      · exact Flowgraph.dom_self a
      · split at hmem
        · next d hd =>
          split at hmem
          · cases hmem
          · next hne =>
            have hb : b ≠ G.entry := fun hb ↦ hne (by rw [h.root d (hb ▸ hd), hb])
            exact (ih d hmem).trans (h.closest b d hb hd).2.1
        · cases hmem
  exact hchain _ b (by simpa [dominates] using hdom)

/-- Functions with the same edges have the same control flow. -/
theorem controlFlow_congr {g h : List Block}
    (htargets : h.map Block.targets = g.map Block.targets) :
    controlFlow h = controlFlow g := by
  have hadj : ∀ u v : ℕ, (∃ b : Block, h[u]? = some b ∧ v ∈ b.targets) ↔
      ∃ b : Block, g[u]? = some b ∧ v ∈ b.targets := by
    intro u v
    have hu := congrArg (·[u]?) htargets
    simp only [List.getElem?_map] at hu
    cases hh : h[u]? <;> cases hg : g[u]? <;> simp_all
  have hlength : h.length = g.length := by
    have := congrArg List.length htargets
    simpa using this
  simp only [controlFlow, hadj, hlength]

/-- A function without edges is its entry. -/
theorem correctIdom_of_no_edges {g : List Block} (h : ∀ b ∈ g, b.targets = []) :
    CorrectIdom (controlFlow g) [some 0] where
  root d hd := (Option.some.inj hd).symm
  closest v d hv hd := by
    cases v with
    | zero => exact absurd rfl hv
    | succ v => cases hd
  reach_iff v hv := by
    cases v with
    | zero => exact absurd rfl hv
    | succ v =>
      refine ⟨fun hreach ↦ ?_, fun ⟨d, hd⟩ ↦ by cases hd⟩
      cases hreach with
      | tail _ hadj =>
        obtain ⟨-, b, hb, hmem⟩ := hadj
        rw [h b (List.mem_of_getElem? hb)] at hmem
        cases hmem

/-- In a function whose entry leads to every other block at once, the entry is the immediate
dominator of all blocks. -/
theorem correctIdom_of_entry_adj {g : List Block}
    (h : ∀ v, v ≠ 0 → v < g.length → (controlFlow g).Adj 0 v) :
    CorrectIdom (controlFlow g) (List.replicate g.length (some 0)) := by
  have hidom : ∀ v d, (List.replicate g.length (some 0))[v]?.join = some d ↔
      v < g.length ∧ d = 0 := by
    intro v d
    rw [List.getElem?_replicate]
    by_cases hv : v < g.length <;> simp [hv, eq_comm]
  refine ⟨fun d hd ↦ ((hidom _ _).1 hd).2, fun v d hv hd ↦ ?_, fun v hv ↦ ?_⟩
  · obtain ⟨hlt, rfl⟩ := (hidom _ _).1 hd
    refine ⟨Ne.symm hv, Flowgraph.dom_entry v, fun d' hd' hdom ↦ ?_⟩
    exact hdom.of_adj (h v hv hlt) (Ne.symm hd')
  · refine ⟨fun hreach ↦ ?_, fun ⟨d, hd⟩ ↦ ?_⟩
    · cases hreach with
      | refl => exact absurd rfl hv
      | tail _ hadj => exact ⟨0, (hidom _ _).2 ⟨hadj.1, rfl⟩⟩
    · exact Flowgraph.reach_entry.step (h v hv ((hidom _ _).1 hd).1)

end Ldu
