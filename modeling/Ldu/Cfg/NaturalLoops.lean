import Ldu.Cfg.Dominance
import Ldu.Vars.Liveness

/-!
# Natural loops

The loops `findLoops` finds are natural loops of the control flow when the successor and predecessor
lists and the immediate dominators are exact: the header dominates the blocks of the loop that are
in reach (`dom_of_mem_body`), so every edge to the header from inside comes from a latch
(`mem_latches_of_adj`).
-/

namespace Ldu

/-! ### Dominance is what the climb finds -/

section Climb

variable {G : Flowgraph ℕ} {idom : List (Option ℕ)} {a b : ℕ}

/-- A dominator that the first `n` steps of the climb do not meet has `n` dominators below it. -/
theorem exists_dominators_of_not_mem (h : CorrectIdom G idom) (n : ℕ) (hdom : G.Dom a b)
    (hb : G.Reach b) (hnot : a ∉ idomChain idom n b) :
    ∃ S : Finset ℕ, S.card = n ∧ ∀ x ∈ S, x < idom.length ∧ G.Dom x b := by
  induction n generalizing b with
  | zero => exact ⟨∅, rfl, by simp⟩
  | succ n ih =>
    rw [idomChain, List.mem_cons, not_or] at hnot
    obtain ⟨hab, hnot⟩ := hnot
    have hentry : b ≠ G.entry := by
      rintro rfl
      exact hab (Flowgraph.eq_entry_of_dom_entry hdom)
    obtain ⟨d, hd⟩ := (h.reach_iff b hentry).1 hb
    obtain ⟨hdb, hdomd, hclosest⟩ := h.closest b d hentry hd
    rw [hd] at hnot
    dsimp only at hnot
    rw [if_neg hdb] at hnot
    obtain ⟨S, hcard, hS⟩ := ih (hclosest a hab hdom) (hdomd.reach hb) hnot
    have hbS : b ∉ S := fun hmem ↦
      hdb (Flowgraph.Dom.antisymm (hdomd.reach hb) hdomd (hS b hmem).2)
    refine ⟨insert b S, by rw [Finset.card_insert_of_notMem hbS, hcard], fun x hx ↦ ?_⟩
    rcases Finset.mem_insert.1 hx with rfl | hx
    · refine ⟨?_, Flowgraph.dom_self x⟩
      by_contra hlt
      rw [List.getElem?_eq_none_iff.2 (Nat.le_of_not_lt hlt)] at hd
      cases hd
    · exact ⟨(hS x hx).1, (hS x hx).2.trans hdomd⟩

/-- The climb finds every dominator of a block in reach. -/
theorem dominates_of_dom (h : CorrectIdom G idom) (hb : G.Reach b) (hdom : G.Dom a b) :
    dominates idom a b = true := by
  by_contra hnot
  rw [dominates, List.contains_iff_mem] at hnot
  obtain ⟨S, hcard, hS⟩ := exists_dominators_of_not_mem h _ hdom hb hnot
  have hle := Finset.card_le_card fun x hx ↦ Finset.mem_range.2 (hS x hx).1
  rw [hcard, Finset.card_range] at hle
  omega

end Climb

/-! ### Loops -/

/-- The predecessor lists have only edges. -/
def PredsListed (g : List Block) : Prop :=
  ∀ p j, p ∈ predOf g j → (controlFlow g).Adj p j

section Loops

variable {g : List Block} {idom : List (Option ℕ)} {lp : Loop} {x : ℕ}

theorem subset_growBody (g : List Block) (h b : ℕ) (body : Finset ℕ) :
    body ⊆ growBody g h body b ∧ b ∈ growBody g h body b := by
  unfold growBody
  dsimp only
  split
  · next hb =>
    exact ⟨Finset.subset_insert _ _, by rw [hb]; exact Finset.mem_insert_self _ _⟩
  · have hsub : insert b (insert h body) ⊆ Worklist.explore (Finset.range g.length) (predOf g) [b]
        (insert b (insert h body)) := Worklist.subset_explore _ _
    exact ⟨fun x hx ↦ hsub (by simp [hx]), hsub (by simp)⟩

theorem header_mem_growBody (g : List Block) (h b : ℕ) (body : Finset ℕ) :
    h ∈ growBody g h body b := by
  unfold growBody
  dsimp only
  split
  · exact Finset.mem_insert_self _ _
  · exact Worklist.subset_explore _ _ (by simp)

/-- The header dominates the blocks in reach that a latch adds. -/
theorem dom_of_mem_growBody (hpred : PredsListed g) {h b : ℕ} {body : Finset ℕ}
    (hb : (controlFlow g).Dom h b)
    (hbody : ∀ x ∈ body, (controlFlow g).Reach x → (controlFlow g).Dom h x)
    (hx : x ∈ growBody g h body b) (hreach : (controlFlow g).Reach x) :
    (controlFlow g).Dom h x := by
  unfold growBody at hx
  dsimp only at hx
  split at hx
  · rcases Finset.mem_insert.1 hx with rfl | hx
    · exact Flowgraph.dom_self x
    · exact hbody x hx hreach
  · next hne =>
    refine Worklist.explore_induction
      (P := fun x ↦ (controlFlow g).Reach x → (controlFlow g).Dom h x)
      (Q := fun x ↦ x ≠ h ∧ ((controlFlow g).Reach x → (controlFlow g).Dom h x))
      (fun y hy ↦ ?_) (fun y hy ↦ ?_) (fun y hy ↦ hy.2) (fun y hy p hp hnew ↦ ?_) hx hreach
    · rcases Finset.mem_insert.1 hy with rfl | hy
      · exact fun _ ↦ hb
      · rcases Finset.mem_insert.1 hy with rfl | hy
        · exact fun _ ↦ Flowgraph.dom_self y
        · exact hbody y hy
    · obtain rfl := List.mem_singleton.1 hy
      exact ⟨hne, fun _ ↦ hb⟩
    · have hadj := hpred p y hp
      refine ⟨?_, fun hreach ↦ (hy.2 (hreach.step hadj)).of_adj hadj hy.1⟩
      rintro rfl
      simp at hnew

theorem mem_findLoops (hlp : lp ∈ findLoops g idom) : lp.header < g.length ∧
    lp.body = (latchesOf g idom lp.header).foldl (growBody g lp.header) ∅ ∧
      lp.latches = (latchesOf g idom lp.header).toFinset := by
  unfold findLoops at hlp
  obtain ⟨h, hlt, heq⟩ := List.mem_filterMap.1 hlp
  cases hls : latchesOf g idom h with
  | nil => rw [hls] at heq; cases heq
  | cons l ls =>
    rw [hls] at heq
    obtain rfl := Option.some.inj heq
    exact ⟨List.mem_range.1 hlt, by rw [hls], by rw [hls]⟩

/-- The latches belong to the loop. -/
theorem latches_subset_body (hlp : lp ∈ findLoops g idom) : lp.latches ⊆ lp.body := by
  obtain ⟨-, hbody, hlatches⟩ := mem_findLoops hlp
  rw [hbody, hlatches]
  generalize latchesOf g idom lp.header = ls
  generalize (∅ : Finset ℕ) = body
  suffices h : ls.toFinset ∪ body ⊆ ls.foldl (growBody g lp.header) body from
    fun x hx ↦ h (Finset.mem_union_left _ hx)
  induction ls generalizing body with
  | nil => simp
  | cons l ls ih =>
    have hgrow := subset_growBody g lp.header l body
    rw [List.foldl_cons, List.toFinset_cons]
    intro x hx
    refine ih _ ?_
    rcases Finset.mem_union.1 hx with hx | hx
    · rcases Finset.mem_insert.1 hx with rfl | hx
      · exact Finset.mem_union_right _ hgrow.2
      · exact Finset.mem_union_left _ hx
    · exact Finset.mem_union_right _ (hgrow.1 hx)

/-- The header of a loop dominates its blocks. -/
theorem dom_of_mem_body (hidom : CorrectIdom (controlFlow g) idom) (hpred : PredsListed g)
    (hlp : lp ∈ findLoops g idom) (hx : x ∈ lp.body) (hreach : (controlFlow g).Reach x) :
    (controlFlow g).Dom lp.header x := by
  have hlatch : ∀ l ∈ latchesOf g idom lp.header, (controlFlow g).Dom lp.header l := by
    intro l hl
    have hl := (List.mem_filter.1 hl).2
    simp only [Bool.decide_and, Bool.decide_eq_true, Bool.and_eq_true] at hl
    exact dom_of_dominates hidom hl.2
  rw [(mem_findLoops hlp).2.1] at hx
  generalize latchesOf g idom lp.header = ls at hlatch hx
  have hbody : ∀ x ∈ (∅ : Finset ℕ), (controlFlow g).Reach x → (controlFlow g).Dom lp.header x := by
    simp
  generalize (∅ : Finset ℕ) = body at hbody hx
  induction ls generalizing body with
  | nil => exact hbody x hx hreach
  | cons l ls ih =>
    refine ih (fun l hl ↦ hlatch l (by simp [hl])) _ (fun y hy hy' ↦ ?_) hx
    exact dom_of_mem_growBody hpred (hlatch l (by simp)) hbody hy hy'

/-- Edges to the header from inside the loop come from its latches. -/
theorem mem_latches_of_adj (hidom : CorrectIdom (controlFlow g) idom) (hedges : EdgesListed g)
    (hpred : PredsListed g) (hlp : lp ∈ findLoops g idom) (hx : x ∈ lp.body)
    (hreach : (controlFlow g).Reach x) (hadj : (controlFlow g).Adj x lp.header) :
    x ∈ lp.latches := by
  have hdom := dominates_of_dom hidom hreach (dom_of_mem_body hidom hpred hlp hx hreach)
  obtain ⟨hlt, b, hb, hmem⟩ := hadj
  obtain ⟨hx, -⟩ := List.getElem?_eq_some_iff.1 hb
  have hsucc : lp.header ∈ succOf g x := by
    rw [succOf, hb]
    exact hedges x b hb _ hmem hlt
  rw [(mem_findLoops hlp).2.2, List.mem_toFinset, latchesOf, List.mem_filter]
  exact ⟨List.mem_range.2 hx, by simp [hsucc, hdom]⟩

end Loops

end Ldu
