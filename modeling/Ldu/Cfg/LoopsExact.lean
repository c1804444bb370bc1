import Ldu.Cfg.Dominators
import Ldu.Graph.Loops

/-!
# The loops are natural loops

With successor and predecessor lists that agree and exact dominators, `findLoops` has one loop for
each target of a back edge, with the sources of these edges for latches. The body is grown from the
latches over the predecessor lists, which have edges from blocks out of reach as well:
`findLoops_exact_iff` says that the bodies are those of the natural loops exactly when no block out
of reach leads into a loop beside its header.
-/

open Relation

namespace Ldu

/-- One loop for each header, with its latches and its natural loop. -/
structure LoopsExact (G : Flowgraph ℕ) (loops : List Loop) : Prop where
  nodup : (loops.map Loop.header).Nodup
  headers : ∀ h, (∃ lp ∈ loops, lp.header = h) ↔ ∃ u, G.IsLatch h u
  latches : ∀ lp ∈ loops, ∀ u, u ∈ lp.latches ↔ G.IsLatch lp.header u
  body : ∀ lp ∈ loops, ∀ x, x ∈ lp.body ↔ G.InLoop lp.header x

section Loops

variable {g : List Block} {start : ℕ} {idom : List (Option ℕ)} {lp : Loop} {h u x : ℕ}

/-- The climb finds the dominators, and from a block out of reach only that block. -/
theorem dominates_iff (hidom : CorrectIdom (blockGraph g start) idom) :
    dominates idom h u = true ↔ (blockGraph g start).Dominates h u := by
  by_cases hu : (blockGraph g start).Reach u
  · refine ⟨fun hdom ↦ .inr ⟨hu, dom_of_dominates hidom hdom⟩, ?_⟩
    rintro (rfl | ⟨-, hdom⟩)
    · exact dominates_of_dom hidom hu (Flowgraph.dom_self h)
    · exact dominates_of_dom hidom hu hdom
  · have hnone : idom[u]?.join = none := by
      rw [Option.eq_none_iff_forall_ne_some]
      intro d hd
      refine hu ((hidom.reach_iff u ?_).2 ⟨d, hd⟩)
      rintro rfl
      exact hu Flowgraph.reach_entry
    rw [dominates, idomChain, hnone, List.contains_iff_mem, List.mem_singleton,
      Flowgraph.Dominates, or_iff_left fun hdom ↦ hu hdom.1]

theorem mem_latchesOf (hidom : CorrectIdom (blockGraph g start) idom) :
    u ∈ latchesOf g idom h ↔ (blockGraph g start).IsLatch h u := by
  rw [latchesOf, List.mem_filter, List.mem_range, decide_eq_true_iff, dominates_iff hidom]
  exact ⟨And.right, fun hlatch ↦ ⟨lt_of_mem_succOf hlatch.1, hlatch⟩⟩

/-- A body is closed under predecessors, but for those of the header. -/
def ClosedBody (g : List Block) (h : ℕ) (body : Finset ℕ) : Prop :=
  ∀ x ∈ body, x ≠ h → ∀ p ∈ predOf g x, p ∈ body

/-- What a latch adds leads to it without passing through the header. -/
theorem avoids_of_mem_growBody (hlinked : Linked g) {b : ℕ} {body : Finset ℕ}
    (hx : x ∈ growBody g h body b) :
    x = h ∨ x ∈ body ∨ (blockGraph g start).Avoids h x b := by
  unfold growBody at hx
  dsimp only at hx
  split at hx
  · exact (Finset.mem_insert.1 hx).imp_right .inl
  · next hne =>
    refine Worklist.explore_induction
      (P := fun x ↦ x = h ∨ x ∈ body ∨ (blockGraph g start).Avoids h x b)
      (Q := fun x ↦ (blockGraph g start).Avoids h x b)
      (fun y hy ↦ ?_) (fun y hy ↦ ?_) (fun y hy ↦ .inr (.inr hy)) (fun y hy p hp hnew ↦ ?_) hx
    · rcases Finset.mem_insert.1 hy with rfl | hy
      · exact .inr (.inr (Flowgraph.avoids_refl hne))
      · exact (Finset.mem_insert.1 hy).imp_right .inl
    · obtain rfl := List.mem_singleton.1 hy
      exact Flowgraph.avoids_refl hne
    · refine hy.head (hlinked.mem_pred.1 hp) ?_
      rintro rfl
      simp at hnew

/-- A body with a latch stays closed. -/
theorem ClosedBody.grow (hlinked : Linked g) {b : ℕ} {body : Finset ℕ}
    (hclosed : ClosedBody g h body) : ClosedBody g h (growBody g h body b) := by
  unfold growBody
  dsimp only
  split
  · intro x hx hne p hp
    exact Finset.mem_insert_of_mem (hclosed x ((Finset.mem_insert.1 hx).resolve_left hne) hne p hp)
  · intro x hx hne p hp
    have hlt : p ∈ Finset.range g.length :=
      Finset.mem_range.2 (lt_of_mem_succOf (hlinked.mem_pred.1 hp))
    refine Worklist.mem_explore_of_follows_of (D := (· ≠ h)) (fun y hy ↦ ?_)
      (fun a ha hah hnot q hq ↦ ?_) hx hne ⟨hp, hlt⟩
    · obtain rfl := List.mem_singleton.1 hy
      exact Finset.mem_insert_self _ _
    · -- Only the latch itself has predecessors that may be new.
      have hab := (Finset.mem_insert.1 ha).resolve_left fun hab ↦ hnot (List.mem_singleton.2 hab)
      have habody := (Finset.mem_insert.1 hab).resolve_left hah
      simp [hclosed a habody hah q hq.1]

/-- A closed body with a latch has everything that leads to it. -/
theorem ClosedBody.mem_of_avoids (hlinked : Linked g) {b : ℕ} {body : Finset ℕ}
    (hclosed : ClosedBody g h body) (hb : b ∈ body) (hx : (blockGraph g start).Avoids h x b) :
    x ∈ body := by
  have hne := hx.1
  obtain ⟨-, hwalk⟩ := hx
  induction hwalk using ReflTransGen.head_induction_on with
  | refl => exact hb
  | head hstep hwalk ih =>
    have hy : (blockGraph g start).Avoids h _ b := ⟨hne, hwalk⟩
    exact hclosed _ ih hy.ne _ (hlinked.mem_pred.2 hstep.1)

variable (start) in
/-- Growing from latches adds the header and what leads to them without passing through it. -/
theorem mem_foldl_growBody (hlinked : Linked g) {ls : List ℕ} {body : Finset ℕ}
    (hclosed : ClosedBody g h body) :
    x ∈ ls.foldl (growBody g h) body ↔
      (ls ≠ [] ∧ x = h) ∨ x ∈ body ∨ ∃ u ∈ ls, (blockGraph g start).Avoids h x u := by
  induction ls generalizing body with
  | nil => simp
  | cons l ls ih =>
    have hgrown := hclosed.grow hlinked (b := l)
    have hsub := subset_growBody g h l body
    rw [List.foldl_cons, ih hgrown]
    constructor
    · rintro (⟨-, rfl⟩ | hx | ⟨u, hu, hx⟩)
      · exact .inl ⟨by simp, rfl⟩
      · rcases avoids_of_mem_growBody hlinked hx with rfl | hx | hx
        · exact .inl ⟨by simp, rfl⟩
        · exact .inr (.inl hx)
        · exact .inr (.inr ⟨l, .head _, hx⟩)
      · exact .inr (.inr ⟨u, .tail _ hu, hx⟩)
    · rintro (⟨-, rfl⟩ | hx | ⟨u, hu, hx⟩)
      · exact .inr (.inl (header_mem_growBody g x l body))
      · exact .inr (.inl (hsub.1 hx))
      · rcases List.mem_cons.1 hu with rfl | hu
        · exact .inr (.inl (hgrown.mem_of_avoids hlinked hsub.2 hx))
        · exact .inr (.inr ⟨u, hu, hx⟩)

/-- There is a loop for each block with latches. -/
theorem mem_findLoops_iff : lp ∈ findLoops g idom ↔
    lp.header < g.length ∧ latchesOf g idom lp.header ≠ [] ∧
      lp = ⟨lp.header, (latchesOf g idom lp.header).foldl (growBody g lp.header) ∅,
        (latchesOf g idom lp.header).toFinset⟩ := by
  rw [findLoops, List.mem_filterMap]
  constructor
  · rintro ⟨h, hlt, heq⟩
    cases hls : latchesOf g idom h with
    | nil =>
      rw [hls] at heq
      cases heq
    | cons l ls =>
      rw [hls] at heq
      obtain rfl := Option.some.inj heq
      exact ⟨List.mem_range.1 hlt, by simp [hls], by rw [hls]⟩
  · rintro ⟨hlt, hne, heq⟩
    refine ⟨lp.header, List.mem_range.2 hlt, ?_⟩
    cases hls : latchesOf g idom lp.header with
    | nil => exact absurd hls hne
    | cons l ls =>
      rw [hls] at heq
      exact congrArg some heq.symm

theorem nodup_headers : ((findLoops g idom).map Loop.header).Nodup := by
  have hsub : ((findLoops g idom).map Loop.header).Sublist (List.range g.length) := by
    unfold findLoops
    generalize List.range g.length = hs
    induction hs with
    | nil => exact .slnil
    | cons h hs ih =>
      rw [List.filterMap_cons]
      split
      · exact ih.cons h
      · next lp hlp =>
        have hheader : lp.header = h := by
          split at hlp
          · cases hlp
          · exact (Option.some.inj hlp) ▸ rfl
        rw [List.map_cons, hheader]
        exact ih.cons_cons h
  exact hsub.nodup List.nodup_range

section Exact

variable (hlinked : Linked g) (hidom : CorrectIdom (blockGraph g start) idom)

include hidom in
theorem mem_latches (hlp : lp ∈ findLoops g idom) :
    u ∈ lp.latches ↔ (blockGraph g start).IsLatch lp.header u := by
  rw [(mem_findLoops hlp).2.2, List.mem_toFinset, mem_latchesOf hidom]

include hlinked hidom

theorem exists_loop_iff :
    (∃ lp ∈ findLoops g idom, lp.header = h) ↔ ∃ u, (blockGraph g start).IsLatch h u := by
  constructor
  · rintro ⟨lp, hlp, rfl⟩
    obtain ⟨u, hu⟩ := List.exists_mem_of_ne_nil _ (mem_findLoops_iff.1 hlp).2.1
    exact ⟨u, (mem_latchesOf hidom).1 hu⟩
  · rintro ⟨u, hu⟩
    exact ⟨⟨h, (latchesOf g idom h).foldl (growBody g h) ∅, (latchesOf g idom h).toFinset⟩,
      mem_findLoops_iff.2
        ⟨hlinked.succ_lt hu.1, List.ne_nil_of_mem ((mem_latchesOf hidom).2 hu), rfl⟩, rfl⟩

/-- The body of a loop is its header with what leads to a latch without passing through it. -/
theorem mem_body (hlp : lp ∈ findLoops g idom) :
    x ∈ lp.body ↔ x = lp.header ∨ ∃ u, (blockGraph g start).IsLatch lp.header u ∧
      (blockGraph g start).Avoids lp.header x u := by
  obtain ⟨-, hne, -⟩ := mem_findLoops_iff.1 hlp
  have hempty : ClosedBody g lp.header ∅ := fun x hx ↦ absurd hx (Finset.notMem_empty x)
  rw [(mem_findLoops hlp).2.1, mem_foldl_growBody start hlinked hempty]
  simp only [mem_latchesOf hidom, Finset.notMem_empty, false_or, ne_eq, hne, not_false_eq_true,
    true_and]

/-- The loops are the natural loops exactly when the edges into them, other than those to the
headers, come from blocks in reach. -/
theorem findLoops_exact_iff : LoopsExact (blockGraph g start) (findLoops g idom) ↔
    ∀ h y z, (blockGraph g start).InLoop h z → z ≠ h → (blockGraph g start).Adj y z →
      (blockGraph g start).Reach y := by
  rw [← Flowgraph.reach_of_avoids_iff]
  constructor
  · intro hexact h u x hu hx
    obtain ⟨lp, hlp, rfl⟩ := (hexact.headers h).2 ⟨u, hu⟩
    have hbody := (mem_body hlinked hidom hlp).2 (.inr ⟨u, hu, hx⟩)
    exact (((hexact.body lp hlp x).1 hbody).resolve_left hx.ne).1
  · intro hreach
    refine ⟨nodup_headers, fun h ↦ exists_loop_iff hlinked hidom,
      fun lp hlp u ↦ mem_latches hidom hlp, fun lp hlp x ↦ ?_⟩
    rw [mem_body hlinked hidom hlp]
    refine or_congr_right ⟨fun ⟨u, hu, hx⟩ ↦ ⟨hreach _ u x hu hx, u, hu, hx⟩, And.right⟩

end Exact

end Loops

/-- A loop of two blocks that a block out of reach leads into. -/
def sideEntry : List Block :=
  [{ succ := [1] }, { succ := [2, 3], pred := [0, 2] }, { succ := [1], pred := [1, 4] },
    { pred := [1] }, { succ := [2] }]

theorem linked_sideEntry : Linked sideEntry :=
  .of_forall (by decide) (by decide)

/-- The block out of reach ends up in the body. -/
theorem sideEntry_not_exact : Linked sideEntry ∧
    CorrectIdom (blockGraph sideEntry 0) (computeDominators sideEntry 0) ∧
      ¬LoopsExact (blockGraph sideEntry 0)
        (findLoops sideEntry (computeDominators sideEntry 0)) := by
  have hidom := correctIdom_computeDominators linked_sideEntry (show 0 < sideEntry.length by decide)
  refine ⟨linked_sideEntry, hidom, fun hexact ↦ ?_⟩
  have hlatch : (blockGraph sideEntry 0).IsLatch 1 2 :=
    ⟨show 1 ∈ succOf sideEntry 2 by decide, (dominates_iff hidom).1 (by decide +kernel)⟩
  obtain ⟨lp, hlp, hheader⟩ := (hexact.headers 1).2 ⟨2, hlatch⟩
  have havoids : (blockGraph sideEntry 0).Avoids 1 4 2 :=
    (Flowgraph.avoids_refl (by decide)).head (show 2 ∈ succOf sideEntry 4 by decide) (by decide)
  have hbody := (mem_body linked_sideEntry hidom hlp).2
    (.inr ⟨2, hheader.symm ▸ hlatch, hheader.symm ▸ havoids⟩)
  have hreach := (((hexact.body lp hlp 4).1 hbody).resolve_left (by rw [hheader]; decide)).1
  obtain ⟨d, hd⟩ := (hidom.reach_iff 4 (by decide)).1 hreach
  exact absurd hd (by decide +revert +kernel)

/-- The same loop without that block. -/
def plainLoop : List Block :=
  [{ succ := [1] }, { succ := [2, 3], pred := [0, 2] }, { succ := [1], pred := [1] },
    { pred := [1] }]

theorem plainLoop_exact :
    LoopsExact (blockGraph plainLoop 0) (findLoops plainLoop (computeDominators plainLoop 0)) := by
  have hlinked : Linked plainLoop := .of_forall (by decide) (by decide)
  refine (findLoops_exact_iff hlinked
    (correctIdom_computeDominators hlinked (by decide))).2 fun h y z _ _ hadj ↦ ?_
  have hone : (blockGraph plainLoop 0).Reach 1 :=
    Flowgraph.reach_entry.step (show 1 ∈ succOf plainLoop 0 by decide)
  match y, hadj with
  | 0, _ => exact Flowgraph.reach_entry
  | 1, _ => exact hone
  | 2, _ => exact hone.step (show 2 ∈ succOf plainLoop 1 by decide)
  | 3, hadj => exact absurd hadj (List.not_mem_nil)

end Ldu
