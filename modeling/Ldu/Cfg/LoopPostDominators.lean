import Ldu.Cfg.PostDominators
import Ldu.Graph.Overrun

/-!
# Post-dominators in a loop

`computeLoopPostdom` cuts a natural loop open: edges back to the header and out of the loop lead to
a virtual exit. Its `inter` climbs from the block that the forward numbering puts later, although
post-dominators lie ahead, and gives up at the virtual exit. So it misses the join of an `if` in a
plain loop body (`diamond_missed`). The result is right for all blocks of a loop just when each join
is numbered before all blocks between it and the successors of its branch
(`computeLoopPostdom_exact_iff`), which leaves the headers of inner loops.

The places of the blocks in the body are the blocks themselves here; the virtual exit is behind all.
-/

open Relation

namespace Ldu

open Idom (Up parent parent_replicate parent_set sweepStep sweepTable sweepTables)
open LateMeet (ExitFlow Inv IsMeet Passes Ranked Step Steps budget)

/-! ### The pass -/

section Pass

variable (g : List Block) (lp : Loop)

/-- The blocks of the loop, `B`. -/
def loopBlocks : List ℕ :=
  (List.range g.length).filter (· ∈ lp.body)

/-- Where an edge leads: back to the header and out of the loop is to the virtual exit. -/
def loopTarget (s : ℕ) : ℕ :=
  if s = lp.header ∨ s ∉ lp.body then g.length else s

/-- The forward successors, each once and in order. -/
def fsucc (u : ℕ) : List ℕ :=
  (List.range (g.length + 1)).filter fun s ↦
    s ∈ (succOf g u).map (loopTarget g lp) ∨ s = g.length ∧ succOf g u = []

/-- Those in the loop, which the depth-first search goes to. -/
def innerSucc (u : ℕ) : List ℕ :=
  (fsucc g lp u).filter (· ≠ g.length)

/-- Reverse postorder of the forward edges. The recursion of `dfs` is a stack here. -/
def loopOrder : List ℕ :=
  if lp.header ∈ lp.body then
    Postorder.loop (innerSucc g lp) (∑ w ∈ Finset.range g.length, ((innerSucc g lp w).length + 1))
      [(lp.header, innerSucc g lp lp.header)] {lp.header} []
  else []

/-- The number of a block in `rpo`; the virtual exit has the last one. -/
def loopNum (u : ℕ) : ℕ :=
  (loopOrder g lp).idxOf u

variable (pd : List (Option ℕ))

/-- An inner loop of `inter`: climb from `a` while it is numbered after `b`. There is no result if
the loop does not end within the steps, and no block where `inter` gives up. -/
def climbLoop : ℕ → ℕ → ℕ → Option (Option ℕ)
  | 0, _, _ => none
  | n + 1, a, b =>
    if loopNum g lp b < loopNum g lp a then
      match pd[a]?.join with
      | some a' => if a' = a then some none else climbLoop n a' b
      | none => some none
    else some (some a)

/-- `inter`, with the rounds that its guard leaves: it gives up with the virtual exit. -/
def interLoop : ℕ → ℕ → ℕ → Option ℕ
  | 0, a, b => some (if a = b then a else g.length)
  | n + 1, a, b =>
    if a = b then some a
    else if a = g.length ∨ b = g.length then some g.length
    else
      match climbLoop g lp pd (lp.body.card + 2) a b with
      | none => none
      | some none => some g.length
      | some (some a') =>
        match climbLoop g lp pd (lp.body.card + 2) b a' with
        | none => none
        | some none => some g.length
        | some (some b') => interLoop n a' b'

/-- One successor `s`: what the processed successors before it gave is intersected with it. -/
def newLoopPdomStep (ni : Option ℕ) (s : ℕ) : Option (Option ℕ) :=
  if (s ∉ loopOrder g lp ∧ s ≠ g.length) ∨ pd[s]?.join = none then some ni
  else
    match ni with
    | none => some (some s)
    | some q => (interLoop g lp pd (4 * (lp.body.card + 2)) s q).map some

/-- The new immediate post-dominator of `u`. -/
def newLoopPdom (u : ℕ) : Option (Option ℕ) :=
  (fsucc g lp u).foldlM (newLoopPdomStep g lp pd) none

end Pass

/-- The immediate post-dominators of the blocks of a loop, `none` for `-1`; without a result if a
loop of the pass does not end. -/
def computeLoopPostdom (g : List Block) (lp : Loop) : Option (List (ℕ × Option ℕ)) :=
  (sweepTables (newLoopPdom g lp) g.length (loopOrder g lp).reverse (lp.body.card + 8)
    ((List.replicate (g.length + 1) none).set g.length (some g.length))).map fun (pd, _) ↦
      (loopBlocks g lp).map fun u ↦
        (u, if pd[u]?.join = some g.length then none else pd[u]?.join)

/-! ### What it is for -/

section Joins

variable (g : List Block) (lp : Loop)

/-- The forward edges of the loop, from `u`. -/
def loopGraph (u : ℕ) : Flowgraph ℕ where
  entry := u
  Adj a b := a ∈ lp.body ∧ b ∈ fsucc g lp a

/-- Every forward path from `u` to the virtual exit passes through `d`. -/
def LoopPostDom (d u : ℕ) : Prop :=
  (loopGraph g lp u).Dom d g.length

/-- The other block of the loop, nearest to `u`, that every forward path from `u` passes. -/
structure IsLoopIpdom (u d : ℕ) : Prop where
  mem : d ∈ lp.body
  ne : d ≠ u
  postDom : LoopPostDom g lp d u
  nearest : ∀ x ∈ lp.body, x ≠ u → LoopPostDom g lp x u → LoopPostDom g lp x d

/-- The result for `u` is its immediate post-dominator, or none exactly if there is none. -/
def IsLoopJoin (u : ℕ) : Option ℕ → Prop
  | some d => IsLoopIpdom g lp u d
  | none => ∀ d ∈ lp.body, d ≠ u → ¬LoopPostDom g lp d u

/-- Each immediate post-dominator is numbered before all blocks that forward paths from the
successors come to before it. -/
def JoinsFirst : Prop :=
  ∀ u ∈ lp.body, ∀ d, IsLoopIpdom g lp u d → ∀ s ∈ fsucc g lp u, ∀ z,
    (loopGraph g lp s).ReachVia (· ≠ d) z → loopNum g lp d < loopNum g lp z

/-- A natural loop of the blocks in reach of `start`: the header dominates the latches, which lead
back to it, and the other blocks are those from which a latch is in reach without passing it. -/
structure IsNaturalLoop (start : ℕ) : Prop where
  latches_nonempty : lp.latches.Nonempty
  latch : ∀ l ∈ lp.latches, (blockGraph g start).Reach l ∧ lp.header ∈ succOf g l ∧
    (blockGraph g start).Dom lp.header l
  mem_body : ∀ x, x ∈ lp.body ↔ x = lp.header ∨ (blockGraph g start).Reach x ∧
    ∃ l ∈ lp.latches, (blockGraph g x).ReachVia (· ≠ lp.header) l

end Joins

/-! ### Natural loops -/

section Natural

variable {g : List Block} {start : ℕ} {lp : Loop} {u s x y : ℕ}

theorem mem_fsucc : s ∈ fsucc g lp u ↔
    (∃ v ∈ succOf g u, loopTarget g lp v = s ∧ s ≤ g.length) ∨ s = g.length ∧ succOf g u = [] := by
  simp only [fsucc, List.mem_filter, List.mem_range, decide_eq_true_eq, List.mem_map]
  constructor
  · rintro ⟨hlt, ⟨v, hv, rfl⟩ | hs⟩
    · exact .inl ⟨v, hv, rfl, by omega⟩
    · exact .inr hs
  · rintro (⟨v, hv, rfl, hle⟩ | ⟨rfl, hs⟩)
    · exact ⟨by omega, .inl ⟨v, hv, rfl⟩⟩
    · exact ⟨by omega, .inr ⟨rfl, hs⟩⟩

/-- An edge to another block of the loop is a forward edge. -/
theorem mem_fsucc_of_succ (hlt : x < g.length) (hx : x ∈ lp.body) (hne : x ≠ lp.header)
    (h : x ∈ succOf g u) : x ∈ fsucc g lp u :=
  mem_fsucc.2 (.inl ⟨x, h, if_neg (by simp [hne, hx]), hlt.le⟩)

/-- A latch leads to the virtual exit. -/
theorem exit_mem_fsucc (h : lp.header ∈ succOf g u) : g.length ∈ fsucc g lp u :=
  mem_fsucc.2 (.inl ⟨lp.header, h, if_pos (.inl rfl), le_rfl⟩)

theorem mem_body_of_fsucc (h : s ∈ fsucc g lp u) (hs : s ≠ g.length) : s ∈ lp.body := by
  rcases mem_fsucc.1 h with ⟨v, -, rfl, -⟩ | ⟨rfl, -⟩
  · unfold loopTarget at hs ⊢
    split
    · next hout => exact absurd (if_pos hout) hs
    · next hin => exact not_not.1 fun hv ↦ hin (.inr hv)
  · exact absurd rfl hs

namespace IsNaturalLoop

variable (h : IsNaturalLoop g lp start)
include h

theorem header_mem : lp.header ∈ lp.body :=
  (h.mem_body _).2 (.inl rfl)

theorem reach_header : (blockGraph g start).Reach lp.header := by
  obtain ⟨l, hl⟩ := h.latches_nonempty
  obtain ⟨hreach, -, hdom⟩ := h.latch l hl
  exact hdom.reach hreach

theorem reach (hx : x ∈ lp.body) : (blockGraph g start).Reach x := by
  rcases (h.mem_body x).1 hx with rfl | ⟨hreach, -⟩
  · exact h.reach_header
  · exact hreach

/-- A block that leads to one of the loop without passing the header belongs to the loop. -/
theorem mem_of_edge (hx : x ∈ lp.body) (hne : x ≠ lp.header) (hu : (blockGraph g start).Reach u)
    (hune : u ≠ lp.header) (hadj : x ∈ succOf g u) : u ∈ lp.body := by
  rcases (h.mem_body x).1 hx with hx | ⟨-, l, hl, hpath⟩
  · exact absurd hx hne
  · exact (h.mem_body u).2 (.inr ⟨hu, l, hl, reachVia_head hadj hune hpath⟩)

theorem latch_mem {l : ℕ} (hl : l ∈ lp.latches) : l ∈ lp.body := by
  by_cases hne : l = lp.header
  · exact hne ▸ h.header_mem
  · exact (h.mem_body l).2 (.inr ⟨(h.latch l hl).1, l, hl, .entry_of hne⟩)

/-- A path from the header that does not come back to it leads to each block of the loop. -/
theorem path_from_header (hx : x ∈ lp.body) :
    ReflTransGen (fun a b ↦ b ∈ succOf g a ∧ b ≠ lp.header) lp.header x := by
  rcases (h.mem_body x).1 hx with rfl | ⟨hreach, l, hl, hpath⟩
  · exact .refl
  have hor : (blockGraph g start).ReachVia (· ≠ lp.header) x ∨
      ReflTransGen (fun a b ↦ b ∈ succOf g a ∧ b ≠ lp.header) lp.header x := by
    clear hpath hx
    induction hreach with
    | refl =>
      by_cases hstart : start = lp.header
      · exact .inr (hstart ▸ .refl)
      · exact .inl (.entry_of hstart)
    | @tail a b _ hab ih =>
      by_cases hb : b = lp.header
      · exact .inr (hb ▸ .refl)
      · exact ih.imp (fun ha ↦ ha.step hab hb) fun ha ↦ ha.tail ⟨hab, hb⟩
  refine hor.resolve_left fun havoid ↦ ?_
  exact (h.latch l hl).2.2 ⟨havoid.1, havoid.2.trans hpath.2⟩

/-- The blocks of the loop have successors. -/
theorem exists_succ (hx : x ∈ lp.body) : ∃ v, v ∈ succOf g x := by
  rcases (h.mem_body x).1 hx with rfl | ⟨-, l, hl, hpath⟩
  · obtain ⟨l, hl⟩ := h.latches_nonempty
    have hlatch := (h.latch l hl).2.1
    rcases (h.path_from_header (h.latch_mem hl)).cases_head with heq | ⟨v, hv, -⟩
    · rw [← heq] at hlatch
      exact ⟨_, hlatch⟩
    · exact ⟨v, hv.1⟩
  · rcases hpath.2.cases_head with heq | ⟨v, hv, -⟩
    · exact ⟨_, heq ▸ (h.latch l hl).2.1⟩
    · exact ⟨v, hv.1⟩

theorem lt (hx : x ∈ lp.body) : x < g.length := by
  obtain ⟨v, hv⟩ := h.exists_succ hx
  exact lt_of_mem_succOf hv

theorem mem_innerSucc (hx : x ∈ lp.body) (hne : x ≠ lp.header) (hadj : x ∈ succOf g u) :
    x ∈ innerSucc g lp u :=
  List.mem_filter.2 ⟨mem_fsucc_of_succ (h.lt hx) hx hne hadj, by simpa using (h.lt hx).ne⟩

/-- The blocks of the loop are in reach of the header by forward edges. -/
theorem forward (hx : x ∈ lp.body) :
    ReflTransGen (fun u s ↦ s ∈ innerSucc g lp u) lp.header x := by
  have hpath := h.path_from_header hx
  induction hpath with
  | refl => exact .refl
  | @tail a b hpath hab ih =>
    have hinner := h.mem_innerSucc hx hab.2 hab.1
    by_cases ha : a = lp.header
    · exact .single (ha ▸ hinner)
    · have hreach : (blockGraph g start).Reach a :=
        h.reach_header.trans (hpath.lift id fun _ _ hstep ↦ hstep.1)
      exact (ih (h.mem_of_edge hx hab.2 hreach ha hab.1)).tail hinner

/-- And they reach the virtual exit. -/
theorem reaches (hx : x ∈ lp.body) :
    ReflTransGen (fun s u ↦ u ∈ lp.body ∧ s ∈ fsucc g lp u) g.length x := by
  have hlatch {l : ℕ} (hl : l ∈ lp.latches) :
      ReflTransGen (fun s u ↦ u ∈ lp.body ∧ s ∈ fsucc g lp u) g.length l :=
    .single ⟨h.latch_mem hl, exit_mem_fsucc (h.latch l hl).2.1⟩
  -- Backwards along a path of forward edges.
  have hback {a l : ℕ} (ha : a ∈ lp.body)
      (hpath : ReflTransGen (fun u s ↦ s ∈ innerSucc g lp u) a l) (hl : l ∈ lp.latches) :
      ReflTransGen (fun s u ↦ u ∈ lp.body ∧ s ∈ fsucc g lp u) g.length a := by
    induction hpath using ReflTransGen.head_induction_on with
    | refl => exact hlatch hl
    | @head a b hab _ ih =>
      obtain ⟨hab, hb⟩ := List.mem_filter.1 hab
      exact (ih (mem_body_of_fsucc hab (by simpa using hb))).tail ⟨ha, hab⟩
  rcases (h.mem_body x).1 hx with rfl | ⟨hreach, l, hl, hne, hpath⟩
  · obtain ⟨l, hl⟩ := h.latches_nonempty
    exact hback hx (h.forward (h.latch_mem hl)) hl
  · refine hback hx ?_ hl
    change ReflTransGen _ x l at hpath
    induction hpath using ReflTransGen.head_induction_on with
    | refl => exact .refl
    | @head a b hab hbl ih =>
      have hreach' := hreach.step hab.1
      have hb : b ∈ lp.body := (h.mem_body b).2 (.inr ⟨hreach', l, hl, hab.2, hbl⟩)
      exact .head (h.mem_innerSucc hb hab.2 hab.1) (ih hb hreach' hab.2)

end IsNaturalLoop

end Natural

/-! ### The forward flow -/

section Flow

variable {g : List Block} {start : ℕ} {lp : Loop} (h : IsNaturalLoop g lp start) {u s x d : ℕ}

/-- Reverse postorder lists the blocks of the loop. -/
theorem loopOrder_spec (h : IsNaturalLoop g lp start) :
    (loopOrder g lp).Nodup ∧ ∀ v, v ∈ loopOrder g lp ↔ v ∈ lp.body := by
  have hbody {v : ℕ} (hv : ReflTransGen (fun u s ↦ s ∈ innerSucc g lp u) lp.header v) :
      v ∈ lp.body := by
    cases hv with
    | refl => exact h.header_mem
    | tail _ hs =>
      obtain ⟨hs, hne⟩ := List.mem_filter.1 hs
      exact mem_body_of_fsucc hs (by simpa using hne)
  have hrange (v : ℕ) (hv : ReflTransGen (fun u s ↦ s ∈ innerSucc g lp u) lp.header v) :
      v ∈ Finset.range g.length :=
    Finset.mem_range.2 (h.lt (hbody hv))
  have hspec := Postorder.loop_spec hrange le_rfl
  rw [loopOrder, if_pos h.header_mem]
  exact ⟨hspec.1, fun v ↦ (hspec.2.1 v).trans ⟨hbody, h.forward⟩⟩

theorem length_loopOrder_le (h : IsNaturalLoop g lp start) :
    (loopOrder g lp).length ≤ lp.body.card := by
  obtain ⟨hnodup, hmem⟩ := loopOrder_spec h
  rw [← List.toFinset_card_of_nodup hnodup]
  exact Finset.card_le_card fun v hv ↦ (hmem v).1 (List.mem_toFinset.1 hv)

/-- The loop cut open, in its forward numbering. -/
def loopFlow : ExitFlow ℕ where
  succ := fsucc g lp
  exit := g.length
  order := loopOrder g lp
  nodup := (loopOrder_spec h).1
  exit_notMem hmem := (h.lt (((loopOrder_spec h).2 _).1 hmem)).ne rfl
  succ_mem {u s} _ hs := by
    by_cases hexit : s = g.length
    · exact .inr hexit
    · exact .inl (((loopOrder_spec h).2 s).2 (mem_body_of_fsucc hs hexit))
  reaches {u} hu := by
    simp only [(loopOrder_spec h).2] at hu ⊢
    exact h.reaches hu

theorem mem_order : u ∈ (loopFlow h).order ↔ u ∈ lp.body :=
  (loopOrder_spec h).2 u

/-- A path backwards from the virtual exit is a forward path. -/
theorem reachVia_backwards {P : ℕ → Prop} (hP : P g.length) :
    (loopFlow h).backwards.ReachVia P u ↔ (loopGraph g lp u).ReachVia P g.length := by
  have hadj {a b : ℕ} : (loopFlow h).backwards.Adj b a ↔ a ∈ lp.body ∧ b ∈ fsucc g lp a :=
    and_congr_left fun _ ↦ mem_order h
  constructor
  · rintro ⟨-, hpath⟩
    change ReflTransGen _ g.length u at hpath
    induction hpath with
    | refl => exact .entry_of hP
    | tail _ hstep ih => exact ⟨hstep.2, .head ⟨hadj.1 hstep.1, ih.1⟩ ih.2⟩
  · rintro ⟨hPu, hpath⟩
    change ReflTransGen _ u g.length at hpath
    induction hpath using ReflTransGen.head_induction_on with
    | refl => exact .entry_of hP
    | head hstep _ ih => exact (ih hstep.2).step (hadj.2 hstep.1) hPu

theorem dom_backwards (hd : d ≠ g.length) :
    (loopFlow h).backwards.Dom d u ↔ LoopPostDom g lp d u :=
  not_congr (reachVia_backwards h hd.symm)

theorem avoids_iff : (loopFlow h).Avoids d s x ↔ (loopGraph g lp s).ReachVia (· ≠ d) x := by
  have hstep : (fun u s ↦ u ∈ (loopFlow h).order ∧ s ∈ (loopFlow h).succ u ∧ s ≠ d) =
      fun a b ↦ (loopGraph g lp s).Adj a b ∧ b ≠ d := by
    funext a b
    simp only [mem_order, loopGraph, and_assoc]
    rfl
  unfold ExitFlow.Avoids Flowgraph.ReachVia
  rw [hstep]
  rfl

theorem mem_body_of_dom (hu : u ∈ lp.body) (hdom : (loopFlow h).backwards.Dom d u)
    (hd : d ≠ g.length) : d ∈ lp.body :=
  (mem_order h).1 ((LateMeet.mem_of_dom (.inl ((mem_order h).2 hu)) hdom).resolve_right hd)

/-- The closest strict post-dominator is the immediate one of the loop, unless it is the exit. -/
theorem closest_iff_isLoopIpdom (hu : u ∈ lp.body) (hd : d ≠ g.length) :
    (loopFlow h).Closest u d ↔ IsLoopIpdom g lp u d := by
  constructor
  · rintro ⟨hne, hdom, hclosest⟩
    refine ⟨mem_body_of_dom h hu hdom hd, hne, (dom_backwards h hd).1 hdom, fun x hx hxu hpost ↦ ?_⟩
    have hxg := (h.lt hx).ne
    exact (dom_backwards h hxg).1 (hclosest x hxu ((dom_backwards h hxg).2 hpost))
  · rintro ⟨-, hne, hpost, hnearest⟩
    refine ⟨hne, (dom_backwards h hd).2 hpost, fun x hxu hdom ↦ ?_⟩
    by_cases hxg : x = g.length
    · exact hxg ▸ Flowgraph.dom_entry d
    · exact (dom_backwards h hxg).2
        (hnearest x (mem_body_of_dom h hu hdom hxg) hxu ((dom_backwards h hxg).1 hdom))

/-- If it is the exit, there is none. -/
theorem closest_exit_iff (hu : u ∈ lp.body) :
    (loopFlow h).Closest u g.length ↔ ∀ d ∈ lp.body, d ≠ u → ¬LoopPostDom g lp d u := by
  constructor
  · intro hclosest d hd hne hpost
    have hdg := (h.lt hd).ne
    exact hdg (Flowgraph.eq_entry_of_dom_entry
      (hclosest.closest d hne ((dom_backwards h hdg).2 hpost)))
  · intro hnone
    refine ⟨(h.lt hu).ne', Flowgraph.dom_entry u, fun x hxu hdom ↦ ?_⟩
    by_cases hxg : x = g.length
    · exact hxg ▸ Flowgraph.dom_self _
    · exact absurd ((dom_backwards h hxg).1 hdom) (hnone x (mem_body_of_dom h hu hdom hxg) hxu)

/-- No join is overrun just when joins come first. -/
theorem not_overrun_iff_joinsFirst :
    (∀ u J, ¬LateMeet.Overrun (loopFlow h) u J) ↔ JoinsFirst g lp := by
  rw [LateMeet.not_overrun_iff]
  constructor
  · intro hfirst u hu d hd s hs z hz
    have hdg := (h.lt hd.mem).ne
    exact hfirst u ((mem_order h).2 hu) d hdg ((closest_iff_isLoopIpdom h hu hdg).2 hd) s hs z
      ((avoids_iff h).2 hz)
  · intro hfirst u hu J hJ hclosest s hs z hz
    have hu := (mem_order h).1 hu
    exact hfirst u hu J ((closest_iff_isLoopIpdom h hu hJ).1 hclosest) s hs z ((avoids_iff h).1 hz)

end Flow

/-! ### The intersection -/

section Intersect

variable {g : List Block} {start : ℕ} {lp : Loop} (h : IsNaturalLoop g lp start)
  {pd : List (Option ℕ)} {height : ℕ → ℕ} (hranked : Ranked g.length height (parent pd))
  {a b : ℕ}
include hranked

/-- An inner loop ends: it gives up or comes to a block that is not numbered after `b`, past blocks
that are. -/
theorem climbLoop_spec {n : ℕ} (ha : (parent pd a).isSome) (hn : height a < n) :
    climbLoop g lp pd n a b = some none ∨
      ∃ a', climbLoop g lp pd n a b = some (some a') ∧ (parent pd a').isSome ∧
        Up (parent pd) a a' ∧ loopNum g lp a' ≤ loopNum g lp b ∧
        ∀ z, Up (parent pd) a z → Up (parent pd) z a' →
          z = a' ∨ loopNum g lp b < loopNum g lp z := by
  induction n generalizing a with
  | zero => omega
  | succ n ih =>
    rw [climbLoop]
    by_cases hlt : loopNum g lp b < loopNum g lp a
    · rw [if_pos hlt]
      obtain ⟨d, hd⟩ := Option.isSome_iff_exists.1 ha
      have hd' : pd[a]?.join = some d := hd
      rw [hd']
      dsimp only
      by_cases hda : d = a
      · exact .inl (if_pos hda)
      have hexit : a ≠ g.length := by
        rintro rfl
        exact hda (Option.some.inj (hd.symm.trans hranked.exit_eq))
      rw [if_neg hda]
      have hheight := hranked.lt hexit hd
      refine (ih (hranked.parent_mem hd) (by omega)).imp_right ?_
      rintro ⟨a', ha', hsome, hup, hle, hlate⟩
      refine ⟨a', ha', hsome, .head hd hup, hle, fun z hz hza ↦ ?_⟩
      rcases hz.cases_head with rfl | ⟨e, he, hez⟩
      · exact .inr hlt
      · obtain rfl := Option.some.inj (hd.symm.trans he)
        exact hlate z hez hza
    · rw [if_neg hlt]
      exact .inr ⟨a, rfl, ha, .refl, not_lt.1 hlt, fun z hz hza ↦ .inl (hranked.up_antisymm hz hza)⟩

/-- It stays among vertices behind a join. -/
theorem climbLoop_stays {J : ℕ} {S : ℕ → Prop}
    (hS : LateMeet.Behind (loopFlow h) (parent pd) J S) (ha : S a) (hb : S b) {n : ℕ}
    {r : Option ℕ} (hr : climbLoop g lp pd n a b = some r) : S (r.getD g.length) := by
  induction n generalizing a with
  | zero => cases hr
  | succ n ih =>
    rw [climbLoop] at hr
    split at hr
    · next hlt =>
      have haJ : a ≠ J := by
        rintro rfl
        rcases hS b hb with rfl | ⟨hb, -⟩
        · exact lt_irrefl _ hlt
        · exact lt_asymm hlt hb
      obtain ⟨-, d, hd, hdS⟩ := (hS a ha).resolve_left haJ
      have hd' : pd[a]?.join = some d := hd
      rw [hd'] at hr
      dsimp only at hr
      split at hr
      · next hda =>
        obtain rfl := Option.some.inj hr
        by_contra hexit
        have hne : a ≠ g.length := by
          rintro rfl
          exact hexit ha
        exact absurd (hranked.lt hne hd) (by rw [hda]; exact lt_irrefl _)
      · exact ih hdS hr
    · obtain rfl := Option.some.inj hr
      exact ha

/-- Giving up is a meet, where it stays among vertices behind a join. -/
theorem isMeet_exit (ha : (parent pd a).isSome) (hb : (parent pd b).isSome)
    (hstays : ∀ J S, LateMeet.Behind (loopFlow h) (parent pd) J S → S a → S b → S g.length) :
    IsMeet (loopFlow h) (parent pd) [a, b] g.length where
  up s hs hst := hranked.up_exit hst
  late hexit := absurd rfl hexit
  stays J S _ hS hmem := hstays J S hS (hmem a (by simp) ha) (hmem b (by simp) hb)

omit hranked in
/-- A meet of where two climbs come to, each past blocks numbered after the other one. -/
theorem isMeet_of_climbs {a' b' c : ℕ} (hmeet : IsMeet (loopFlow h) (parent pd) [a', b'] c)
    (ha : (parent pd a).isSome) (hb : (parent pd b).isSome) (ha' : (parent pd a').isSome)
    (hb' : (parent pd b').isSome) (haup : Up (parent pd) a a') (hbup : Up (parent pd) b b')
    (halate : ∀ z, Up (parent pd) a z → Up (parent pd) z a' →
      z = a' ∨ loopNum g lp b < loopNum g lp z)
    (hblate : ∀ z, Up (parent pd) b z → Up (parent pd) z b' →
      z = b' ∨ loopNum g lp a' < loopNum g lp z)
    (hstays : ∀ J S, LateMeet.Behind (loopFlow h) (parent pd) J S → S a → S b → S a' ∧ S b') :
    IsMeet (loopFlow h) (parent pd) [a, b] c := by
  have hac := hmeet.up a' (by simp) ha'
  have hbc := hmeet.up b' (by simp) hb'
  have hlast {c a : ℕ} (h : a = c ∨ loopNum g lp c < loopNum g lp a) :
      loopNum g lp c ≤ loopNum g lp a := by
    rcases h with rfl | h
    · exact le_rfl
    · exact h.le
  refine ⟨fun s hs hst ↦ ?_, fun hc s hs hst z hz hzc ↦ ?_, fun J S hJ hS hmem ↦ ?_⟩
  · simp only [List.mem_cons, List.not_mem_nil, or_false] at hs
    rcases hs with rfl | rfl
    · exact haup.trans hac
    · exact hbup.trans hbc
  · have hca := hlast (hmeet.late hc a' (by simp) ha' a' .refl hac)
    have hcb' := hlast (hmeet.late hc b' (by simp) hb' b' .refl hbc)
    have hcb : loopNum g lp c ≤ loopNum g lp b := by
      rcases hblate b .refl hbup with heq | hlt
      · exact heq ▸ hcb'
      · exact hca.trans hlt.le
    simp only [List.mem_cons, List.not_mem_nil, or_false] at hs
    rcases hs with rfl | rfl
    · rcases LateMeet.up_total hz haup with hza | haz
      · rcases halate z hz hza with rfl | hlt
        · exact hmeet.late hc z (by simp) ha' z .refl hzc
        · exact .inr (hcb.trans_lt hlt)
      · exact hmeet.late hc a' (by simp) ha' z haz hzc
    · rcases LateMeet.up_total hz hbup with hzb | hbz
      · rcases hblate z hz hzb with rfl | hlt
        · exact hmeet.late hc z (by simp) hb' z .refl hzc
        · exact .inr (hca.trans_lt hlt)
      · exact hmeet.late hc b' (by simp) hb' z hbz hzc
  · obtain ⟨haS, hbS⟩ := hstays J S hS (hmem a (by simp) ha) (hmem b (by simp) hb)
    exact hmeet.stays J S hJ hS (by simp [haS, hbS])

/-- **The rounds end at a meet.** -/
theorem interLoop_spec (hmem : ∀ {v}, (parent pd v).isSome → v ∈ loopOrder g lp ∨ v = g.length)
    (hheight : ∀ v, height v < lp.body.card + 2) {n : ℕ} (ha : (parent pd a).isSome)
    (hb : (parent pd b).isSome) (hn : height a + height b ≤ n) :
    ∃ c, interLoop g lp pd n a b = some c ∧ (parent pd c).isSome ∧
      IsMeet (loopFlow h) (parent pd) [a, b] c := by
  have hzero {v : ℕ} (hv : (parent pd v).isSome) (h0 : height v = 0) : v = g.length := by
    by_contra hne
    obtain ⟨d, hd⟩ := Option.isSome_iff_exists.1 hv
    have := hranked.lt hne hd
    omega
  have hself {v : ℕ} (hv : (parent pd v).isSome) : IsMeet (loopFlow h) (parent pd) [v, v] v :=
    (IsMeet.self hranked hv).congr (by simp)
  induction n generalizing a b with
  | zero =>
    have hab : a = b := (hzero ha (by omega)).trans (hzero hb (by omega)).symm
    exact ⟨a, by rw [interLoop, if_pos hab], ha, hab ▸ hself ha⟩
  | succ n ih =>
    rw [interLoop]
    by_cases hab : a = b
    · exact ⟨a, if_pos hab, ha, hab ▸ hself ha⟩
    rw [if_neg hab]
    by_cases hexit : a = g.length ∨ b = g.length
    · rw [if_pos hexit]
      refine ⟨_, rfl, hranked.exit_eq ▸ rfl, isMeet_exit h hranked ha hb fun J S _ haS hbS ↦ ?_⟩
      rcases hexit with rfl | rfl
      · exact haS
      · exact hbS
    rw [if_neg hexit]
    rw [not_or] at hexit
    rcases climbLoop_spec hranked (b := b) ha (hheight a) with
      hgive | ⟨a', ha', hasome, haup, hale, halate⟩
    · rw [hgive]
      refine ⟨_, rfl, hranked.exit_eq ▸ rfl, isMeet_exit h hranked ha hb fun J S hS haS hbS ↦ ?_⟩
      exact climbLoop_stays h hranked hS haS hbS hgive
    rw [ha']
    dsimp only
    rcases climbLoop_spec hranked (b := a') hb (hheight b) with
      hgive | ⟨b', hb', hbsome, hbup, hble, hblate⟩
    · rw [hgive]
      refine ⟨_, rfl, hranked.exit_eq ▸ rfl, isMeet_exit h hranked ha hb fun J S hS haS hbS ↦ ?_⟩
      exact climbLoop_stays h hranked hS hbS (climbLoop_stays h hranked hS haS hbS ha') hgive
    rw [hb']
    dsimp only
    -- Blocks with different numbers: one of the two loops takes a step.
    have hless : height a' + height b' ≤ n := by
      have hne : loopNum g lp a ≠ loopNum g lp b := fun heq ↦
        hab (LateMeet.num_inj (F := loopFlow h) ((hmem ha).resolve_right hexit.1) heq)
      have hale' := hranked.height_le haup
      have hble' := hranked.height_le hbup
      by_cases haa : a' = a
      · have hbb : b' ≠ b := by
          rintro rfl
          rw [haa] at hble hale
          omega
        have := hranked.height_lt hbup hbb
        omega
      · have := hranked.height_lt haup haa
        omega
    obtain ⟨c, hc, hcsome, hmeet⟩ := ih hasome hbsome hless
    refine ⟨c, hc, hcsome,
      isMeet_of_climbs h hmeet ha hb hasome hbsome haup hbup halate hblate ?_⟩
    intro J S hS haS hbS
    have haS' := climbLoop_stays h hranked hS haS hbS ha'
    exact ⟨haS', climbLoop_stays h hranked hS hbS haS' hb'⟩

end Intersect

/-! ### The sweeps -/

section Sweeps

variable {g : List Block} {start : ℕ} {lp : Loop} (h : IsNaturalLoop g lp start)
  {pd : List (Option ℕ)} {b : ℕ → ℕ} {k : ℕ}

/-- What is met of the successors `ss`: a meet of those in the table, if there are any. -/
def Met (h : IsNaturalLoop g lp start) (pd : List (Option ℕ)) (ss : List ℕ) : Option ℕ → Prop
  | none => ∀ s ∈ ss, parent pd s = none
  | some c => (parent pd c).isSome ∧ (∃ s ∈ ss, (parent pd s).isSome) ∧
      IsMeet (loopFlow h) (parent pd) ss c

theorem newLoopPdomStep_spec (hinv : Inv (loopFlow h) b (parent pd)) {ss : List ℕ} {ni : Option ℕ}
    (hmet : Met h pd ss ni) (s : ℕ) :
    ∃ r, newLoopPdomStep g lp pd ni s = some r ∧ Met h pd (ss ++ [s]) r := by
  obtain ⟨height, hranked, hheight⟩ := hinv.ranked
  have hcard (v : ℕ) : height v < lp.body.card + 2 :=
    Nat.lt_succ_of_le ((hheight v).trans (Nat.succ_le_succ (length_loopOrder_le h)))
  have hiff : (s ∉ loopOrder g lp ∧ s ≠ g.length) ∨ pd[s]?.join = none ↔ parent pd s = none := by
    refine ⟨fun hs ↦ hs.elim (fun hs ↦ ?_) id, .inr⟩
    by_contra hne
    rcases hinv.mem (Option.isSome_iff_ne_none.2 hne) with hmem | heq
    · exact hs.1 hmem
    · exact hs.2 heq
  unfold newLoopPdomStep
  by_cases hs : parent pd s = none
  · rw [if_pos (hiff.2 hs)]
    refine ⟨ni, rfl, ?_⟩
    cases ni with
    | none =>
      intro w hw
      rcases List.mem_append.1 hw with hw | hw
      · exact hmet w hw
      · exact List.mem_singleton.1 hw ▸ hs
    | some c =>
      obtain ⟨hc, ⟨w, hw, hwt⟩, hmeet⟩ := hmet
      refine ⟨hc, ⟨w, List.mem_append_left _ hw, hwt⟩, hmeet.congr fun v hv ↦ ?_⟩
      have hvs : v ≠ s := by
        rintro rfl
        rw [hs] at hv
        cases hv
      simp [hvs]
  · have hst : (parent pd s).isSome := Option.isSome_iff_ne_none.2 hs
    rw [if_neg fun hcond ↦ hs (hiff.1 hcond)]
    cases ni with
    | none =>
      refine ⟨some s, rfl, hst, ⟨s, by simp, hst⟩, (IsMeet.self hranked hst).congr fun v hv ↦ ?_⟩
      have hvs : v ∉ ss := by
        intro hmem
        rw [hmet v hmem] at hv
        cases hv
      simp [hvs]
    | some q =>
      obtain ⟨hq, -, hmeet⟩ := hmet
      have hn : height s + height q ≤ 4 * (lp.body.card + 2) := by
        have := hcard s
        have := hcard q
        omega
      obtain ⟨c, hc, hcsome, hmeet'⟩ := interLoop_spec h hranked hinv.mem hcard hst hq hn
      exact ⟨some c, congrArg (Option.map some) hc, hcsome, ⟨s, by simp, hst⟩,
        hmeet.append hranked.exit_eq hmeet' hq⟩

theorem newLoopPdom_spec (hinv : Inv (loopFlow h) b (parent pd)) (u : ℕ) :
    ∃ r, newLoopPdom g lp pd u = some r ∧ Met h pd (fsucc g lp u) r := by
  have hfold : ∀ (ss done : List ℕ) (ni : Option ℕ), Met h pd done ni →
      ∃ r, ss.foldlM (newLoopPdomStep g lp pd) ni = some r ∧ Met h pd (done ++ ss) r := by
    intro ss
    induction ss with
    | nil => exact fun done ni hmet ↦ ⟨ni, rfl, by simpa using hmet⟩
    | cons s ss ih =>
      intro done ni hmet
      obtain ⟨ni', hni', hmet'⟩ := newLoopPdomStep_spec h hinv hmet s
      obtain ⟨r, hr, hmetr⟩ := ih _ ni' hmet'
      exact ⟨r, by rw [List.foldlM_cons, hni']; exact hr, by simpa using hmetr⟩
  exact hfold (fsucc g lp u) [] none (by simp [Met])

/-- One block of a sweep. -/
theorem sweepStep_spec (hlen : pd.length = g.length + 1) (hinv : Inv (loopFlow h) b (parent pd))
    {u : ℕ} (hu : u ∈ lp.body) (changed : Bool) :
    ∃ pd' c, sweepStep (newLoopPdom g lp) g.length (pd, changed) u = some (pd', c) ∧
      pd'.length = g.length + 1 ∧ Step (loopFlow h) u (parent pd) (parent pd') ∧
      (c = false → changed = false ∧ pd' = pd) := by
  obtain ⟨r, hr, hmet⟩ := newLoopPdom_spec h hinv u
  have hlt := h.lt hu
  unfold sweepStep
  dsimp only
  rw [if_neg hlt.ne, hr, Option.map_some]
  cases r with
  | none => exact ⟨pd, changed, rfl, hlen, .skip hmet, fun hc ↦ ⟨hc, rfl⟩⟩
  | some d =>
    obtain ⟨-, hsome, hmeet⟩ := hmet
    have hstep : Step (loopFlow h) u (parent pd) (Function.update (parent pd) u (some d)) :=
      .meet hsome hmeet
    dsimp only
    split
    · next heq =>
      have hself : Function.update (parent pd) u (some d) = parent pd :=
        Function.update_eq_self_iff.2 heq.symm
      rw [hself] at hstep
      exact ⟨pd, changed, rfl, hlen, hstep, fun hc ↦ ⟨hc, rfl⟩⟩
    · refine ⟨pd.set u (some d), true, rfl, by simpa using hlen, ?_, nofun⟩
      rw [parent_set (by omega)]
      exact hstep

/-- **A sweep is a pass.** -/
theorem sweepTable_spec (hlen : pd.length = g.length + 1)
    (hinv : Inv (loopFlow h) (budget (loopFlow h) k (loopFlow h).order.length) (parent pd)) :
    ∃ pd' c, sweepTable (newLoopPdom g lp) g.length (loopOrder g lp).reverse pd = some (pd', c) ∧
      pd'.length = g.length + 1 ∧
      Steps (loopFlow h) (loopFlow h).order (parent pd) (parent pd') ∧ (c = false → pd' = pd) := by
  have hfold : ∀ l : List ℕ, l <:+ (loopFlow h).order →
      ∃ pd' c, l.reverse.foldlM (sweepStep (newLoopPdom g lp) g.length) (pd, false) =
        some (pd', c) ∧ pd'.length = g.length + 1 ∧
        Steps (loopFlow h) l (parent pd) (parent pd') ∧ (c = false → pd' = pd) := by
    intro l
    induction l with
    | nil => exact fun _ ↦ ⟨pd, false, rfl, hlen, .nil, fun _ ↦ rfl⟩
    | cons u l ih =>
      intro hl
      have hl' : l <:+ (loopFlow h).order := (List.suffix_cons u l).trans hl
      obtain ⟨pd', c, hpd', hlen', hsteps, hc⟩ := ih hl'
      have hu := (mem_order h).1 (hl.subset (List.mem_cons_self ..))
      obtain ⟨pd'', c', hpd'', hlen'', hstep, hc'⟩ :=
        sweepStep_spec h hlen' (hinv.steps hl' hsteps) hu c
      refine ⟨pd'', c', ?_, hlen'', .cons hsteps hstep, fun hfalse ↦ ?_⟩
      · rw [List.reverse_cons, List.foldlM_append, hpd']
        simpa using hpd''
      · obtain ⟨hcfalse, rfl⟩ := hc' hfalse
        exact hc hcfalse
  exact hfold _ List.suffix_rfl

/-- Sweeps that end early would change nothing any more. -/
theorem sweepTables_spec {n : ℕ} (hlen : pd.length = g.length + 1)
    (hpasses : Passes (loopFlow h) k (LateMeet.init (loopFlow h)) (parent pd)) :
    ∃ pd' c, sweepTables (newLoopPdom g lp) g.length (loopOrder g lp).reverse n pd =
        some (pd', c) ∧
      Passes (loopFlow h) (k + n) (LateMeet.init (loopFlow h)) (parent pd') := by
  induction n generalizing k pd with
  | zero => exact ⟨pd, true, rfl, hpasses⟩
  | succ n ih =>
    obtain ⟨pd', c, hpd', hlen', hsteps, hc⟩ :=
      sweepTable_spec h hlen (LateMeet.inv_init.passes hpasses)
    rw [sweepTables, hpd']
    cases c with
    | true =>
      obtain ⟨pd'', c', hpd'', hpasses''⟩ := ih hlen' (hpasses.succ hsteps)
      exact ⟨pd'', c', hpd'', by rwa [show k + (n + 1) = k + 1 + n by omega]⟩
    | false =>
      obtain rfl := hc rfl
      refine ⟨pd', false, rfl, ?_⟩
      clear hpd' ih
      induction n + 1 with
      | zero => exact hpasses
      | succ m ih => exact ih.succ hsteps

end Sweeps

/-! ### Which results are right -/

section Exact

variable {g : List Block} {start : ℕ} {lp : Loop} (h : IsNaturalLoop g lp start)

theorem parent_init :
    parent ((List.replicate (g.length + 1) none).set g.length (some g.length)) =
      LateMeet.init (loopFlow h) := by
  rw [parent_set (by simp), parent_replicate]
  rfl

/-- The whole pass: as many passes as sweeps are allowed. -/
theorem computeLoopPostdom_eq (h : IsNaturalLoop g lp start) :
    ∃ pd, computeLoopPostdom g lp = some ((loopBlocks g lp).map fun u ↦
        (u, if pd[u]?.join = some g.length then none else pd[u]?.join)) ∧
      Passes (loopFlow h) (lp.body.card + 8) (LateMeet.init (loopFlow h)) (parent pd) := by
  have hinit : Passes (loopFlow h) 0 (LateMeet.init (loopFlow h))
      (parent ((List.replicate (g.length + 1) none).set g.length (some g.length))) :=
    parent_init h ▸ .zero
  obtain ⟨pd, c, hpd, hpasses⟩ := sweepTables_spec h (n := lp.body.card + 8) (by simp) hinit
  refine ⟨pd, ?_, by rwa [Nat.zero_add] at hpasses⟩
  rw [computeLoopPostdom, hpd]
  rfl

theorem mem_loopBlocks (h : IsNaturalLoop g lp start) {u : ℕ} :
    u ∈ loopBlocks g lp ↔ u ∈ lp.body := by
  simp only [loopBlocks, List.mem_filter, List.mem_range, decide_eq_true_eq]
  exact ⟨And.right, fun hu ↦ ⟨h.lt hu, hu⟩⟩

/-- A parent is right as a result just when it is the closest strict post-dominator. -/
theorem isLoopJoin_iff {u d : ℕ} (hu : u ∈ lp.body) :
    IsLoopJoin g lp u (if some d = some g.length then none else some d) ↔
      (loopFlow h).Closest u d := by
  split
  · next heq =>
    obtain rfl := Option.some.inj heq
    exact (closest_exit_iff h hu).symm
  · next hne => exact (closest_iff_isLoopIpdom h hu fun heq ↦ hne (heq ▸ rfl)).symm

end Exact

/-- **The result is right just where joins come first.** For a natural loop all loops of the pass
end, and its result has a value for each block of the loop. All values are right just when each
immediate post-dominator is numbered before the blocks between it and the successors of the
branch. -/
theorem computeLoopPostdom_exact_iff {g : List Block} {start : ℕ} {lp : Loop}
    (h : IsNaturalLoop g lp start) :
    ∃ out, computeLoopPostdom g lp = some out ∧ (∀ u, u ∈ out.map Prod.fst ↔ u ∈ lp.body) ∧
      ((∀ p ∈ out, IsLoopJoin g lp p.1 p.2) ↔ JoinsFirst g lp) := by
  obtain ⟨pd, heq, hpasses⟩ := computeLoopPostdom_eq h
  have hlen := length_loopOrder_le h
  have hk : (loopFlow h).order.length + 2 ≤ lp.body.card + 8 :=
    (Nat.add_le_add_right hlen 2).trans (by omega)
  refine ⟨_, heq, fun u ↦ ?_, ?_⟩
  · rw [List.map_map, ← mem_loopBlocks h]
    exact ⟨by simp, by simp⟩
  rw [← not_overrun_iff_joinsFirst h, ← LateMeet.closest_iff hpasses hk]
  have hinv := LateMeet.inv_init.passes hpasses
  have hb : ∀ v ∈ (loopFlow h).order, (loopFlow h).order.length <
      budget (loopFlow h) (lp.body.card + 8) (loopFlow h).order.length v :=
    fun v _ ↦ (show _ < lp.body.card + 8 by omega).trans_le (LateMeet.le_budget v)
  simp only [List.forall_mem_map, mem_loopBlocks h, mem_order h]
  refine forall₂_congr fun u hu ↦ ?_
  obtain ⟨d, hd, -⟩ := hinv.dom hb ((mem_order h).2 hu)
  have hd' : pd[u]?.join = some d := hd
  rw [hd', isLoopJoin_iff h hu, hd]
  exact ⟨fun hclosest ↦ ⟨d, rfl, hclosest⟩, fun ⟨e, he, hclosest⟩ ↦ Option.some.inj he ▸ hclosest⟩

/-! ### A diamond in a loop -/

/-- A loop body that is an `if` with both arms. -/
def diamondLoop : List Block :=
  [{ succ := [1, 2] }, { succ := [3] }, { succ := [3] }, { succ := [0, 4] }, {}]

def diamondBody : Loop := ⟨0, {0, 1, 2, 3}, {3}⟩

theorem isNaturalLoop_diamond : IsNaturalLoop diamondLoop diamondBody 0 := by
  have hreach : (blockGraph diamondLoop 0).Reach 1 ∧ (blockGraph diamondLoop 0).Reach 2 ∧
      (blockGraph diamondLoop 0).Reach 3 := by
    have h1 : (blockGraph diamondLoop 0).Adj 0 1 := (by decide : 1 ∈ succOf diamondLoop 0)
    have h2 : (blockGraph diamondLoop 0).Adj 0 2 := (by decide : 2 ∈ succOf diamondLoop 0)
    have h3 : (blockGraph diamondLoop 0).Adj 1 3 := (by decide : 3 ∈ succOf diamondLoop 1)
    exact ⟨.single h1, .single h2, .tail (.single h1) h3⟩
  refine ⟨⟨3, by decide⟩, fun l hl ↦ ?_, fun x ↦ ⟨fun hx ↦ ?_, fun hx ↦ ?_⟩⟩
  · obtain rfl := Finset.mem_singleton.1 hl
    exact ⟨hreach.2.2, by decide, Flowgraph.dom_entry _⟩
  · have hstep {v : ℕ} (hv : v ≠ 0) (hadj : 3 ∈ succOf diamondLoop v) :
        ∃ l ∈ diamondBody.latches, (blockGraph diamondLoop v).ReachVia (· ≠ 0) l :=
      ⟨3, by decide, hv, .single ⟨hadj, by decide⟩⟩
    simp only [diamondBody, Finset.mem_insert, Finset.mem_singleton] at hx
    rcases hx with rfl | rfl | rfl | rfl
    · exact .inl rfl
    · exact .inr ⟨hreach.1, hstep (by decide) (by decide)⟩
    · exact .inr ⟨hreach.2.1, hstep (by decide) (by decide)⟩
    · exact .inr ⟨hreach.2.2, 3, by decide, .entry_of (by decide)⟩
  · rcases hx with rfl | ⟨-, l, hl, hpath⟩
    · decide
    · obtain rfl := Finset.mem_singleton.1 hl
      rcases hpath.2.cases_head with rfl | ⟨v, hv, -⟩
      · decide
      · have hlt : x < 5 := lt_of_mem_succOf hv.1
        have hne : x ≠ 4 := by
          rintro rfl
          cases hv.1
        simp only [diamondBody, Finset.mem_insert, Finset.mem_singleton]
        omega

/-- The arms join, at the latch. -/
theorem isLoopIpdom_diamond : IsLoopIpdom diamondLoop diamondBody 0 3 where
  mem := by decide
  ne := by decide
  postDom hpath := by
    -- Without the join only the header and the arms are in reach.
    have hstay : ∀ v, (loopGraph diamondLoop diamondBody 0).ReachVia (· ≠ 3) v → v < 3 := by
      rintro v ⟨-, hpath⟩
      induction hpath with
      | refl => decide
      | tail _ hstep ih =>
        have hsucc : ∀ a < 3, ∀ b ∈ fsucc diamondLoop diamondBody a, b ≠ 3 → b < 3 := by
          decide +kernel
        exact hsucc _ ih _ hstep.1.2 hstep.2
    exact absurd (hstay _ hpath) (by decide)
  nearest x hx hne hpost := by
    -- An arm is not on the path through the other one.
    have harm {v : ℕ} (hv : v ∈ fsucc diamondLoop diamondBody 0) (hbody : v ∈ diamondBody.body)
        (hjoin : 3 ∈ fsucc diamondLoop diamondBody v) (h0 : 0 ≠ x) (hvx : v ≠ x) (h3 : 3 ≠ x)
        (h5 : 5 ≠ x) : (loopGraph diamondLoop diamondBody 0).ReachVia (· ≠ x) 5 := by
      have hv' : (loopGraph diamondLoop diamondBody 0).ReachVia (· ≠ x) v :=
        (Flowgraph.ReachVia.entry_of (G := loopGraph diamondLoop diamondBody 0) h0).step
          ⟨by decide, hv⟩ hvx
      have h3' : (loopGraph diamondLoop diamondBody 0).ReachVia (· ≠ x) 3 :=
        hv'.step ⟨hbody, hjoin⟩ h3
      exact h3'.step ⟨by decide, by decide +kernel⟩ h5
    simp only [diamondBody, Finset.mem_insert, Finset.mem_singleton] at hx
    rcases hx with rfl | rfl | rfl | rfl
    · exact absurd rfl hne
    · exact absurd (harm (v := 2) (by decide +kernel) (by decide) (by decide +kernel) (by decide)
        (by decide) (by decide) (by decide)) hpost
    · exact absurd (harm (v := 1) (by decide +kernel) (by decide) (by decide +kernel) (by decide)
        (by decide) (by decide) (by decide)) hpost
    · exact Flowgraph.dom_entry _

/-- The join of the arms is missed. -/
theorem diamond_missed : IsNaturalLoop diamondLoop diamondBody 0 ∧
    IsLoopIpdom diamondLoop diamondBody 0 3 ∧
      computeLoopPostdom diamondLoop diamondBody =
        some [(0, none), (1, some 3), (2, some 3), (3, none)] :=
  ⟨isNaturalLoop_diamond, isLoopIpdom_diamond, by decide +kernel⟩

theorem computeLoopPostdom_exact_iff_diamond :
    ∃ out, computeLoopPostdom diamondLoop diamondBody = some out ∧
      (∀ u, u ∈ out.map Prod.fst ↔ u ∈ diamondBody.body) ∧
      ((∀ p ∈ out, IsLoopJoin diamondLoop diamondBody p.1 p.2) ↔
        JoinsFirst diamondLoop diamondBody) :=
  computeLoopPostdom_exact_iff isNaturalLoop_diamond

end Ldu
