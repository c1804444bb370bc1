import Ldu.Graph.Flowgraph

/-!
# Natural loops of a flowgraph

A latch of `h` is a vertex with an edge to `h` that `h` dominates. The natural loop of `h` is `h`
with the vertices in reach from which some latch is reached without passing through `h`.

Vertices out of reach may lead into a loop. All vertices that reach a latch without passing through
the header are in reach exactly when all edges into loops are, other than those to the header
(`reach_of_avoids_iff`).
-/

open Relation

namespace Flowgraph

variable {V : Type*} (G : Flowgraph V)

/-- Every vertex dominates itself, and the vertices in reach that no walk gets to without it. A
vertex out of reach has no other dominator. -/
def Dominates (d v : V) : Prop :=
  d = v ∨ G.Reach v ∧ G.Dom d v

/-- The source of a back edge to `h`. -/
def IsLatch (h u : V) : Prop :=
  G.Adj u h ∧ G.Dominates h u

/-- A walk leads from `x` to `u` without passing through `h`. -/
def Avoids (h x u : V) : Prop :=
  u ≠ h ∧ ReflTransGen (fun a b ↦ G.Adj a b ∧ a ≠ h) x u

/-- The natural loop of `h`. -/
def InLoop (h x : V) : Prop :=
  x = h ∨ G.Reach x ∧ ∃ u, G.IsLatch h u ∧ G.Avoids h x u

variable {G} {h u x y : V}

theorem Avoids.ne (hx : G.Avoids h x u) : x ≠ h := by
  obtain ⟨hu, hwalk⟩ := hx
  rcases ReflTransGen.cases_head hwalk with rfl | ⟨_, hstep, -⟩
  · exact hu
  · exact hstep.2

theorem Avoids.head (hy : G.Avoids h y u) (hadj : G.Adj x y) (hx : x ≠ h) : G.Avoids h x u :=
  ⟨hy.1, .head ⟨hadj, hx⟩ hy.2⟩

theorem avoids_refl (hu : u ≠ h) : G.Avoids h u u :=
  ⟨hu, .refl⟩

/-- A latch other than the header is in reach. -/
theorem IsLatch.reach (hu : G.IsLatch h u) (hne : u ≠ h) : G.Reach u :=
  (hu.2.resolve_left (Ne.symm hne)).1

/-- What leads to a latch is in reach as soon as the edges into the loop are. -/
theorem reach_of_avoids (hedges : ∀ y z, G.InLoop h z → z ≠ h → G.Adj y z → G.Reach y)
    (hu : G.IsLatch h u) (hx : G.Avoids h x u) : G.Reach x := by
  have hne := hx.1
  obtain ⟨-, hwalk⟩ := hx
  induction hwalk using ReflTransGen.head_induction_on with
  | refl => exact hu.reach hne
  | head hstep hwalk ih =>
    have hy : G.Avoids h _ u := ⟨hne, hwalk⟩
    exact hedges _ _ (.inr ⟨ih, u, hu, hy⟩) hy.ne hstep.1

theorem reach_of_avoids_iff :
    (∀ h u x, G.IsLatch h u → G.Avoids h x u → G.Reach x) ↔
      ∀ h y z, G.InLoop h z → z ≠ h → G.Adj y z → G.Reach y := by
  constructor
  · intro hall h y z hz hne hadj
    obtain ⟨-, u, hu, hzu⟩ := hz.resolve_left hne
    by_cases hy : y = h
    · -- The header itself is in reach because it dominates the latch.
      obtain ⟨hreach, hdom⟩ := hu.2.resolve_left (Ne.symm hzu.1)
      exact hy ▸ hdom.reach hreach
    · exact hall h u y hu (hzu.head hadj hy)
  · exact fun hedges h u x hu hx ↦ reach_of_avoids (hedges h) hu hx

end Flowgraph
