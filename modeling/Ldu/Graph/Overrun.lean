import Ldu.Graph.LateMeet

/-!
# Joins that are overrun

Which tables of `LateMeet` are right. The join of a vertex, its closest strict post-dominator, is
overrun if the climb from a successor passes a vertex that stands before the join: there the climb
from the other successors runs past the join.

* `Near.passes` — where nothing below a post-dominator is overrun, no parent lies beyond it;
* `Near.ne_of_overrun` — the lowest overrun join is never found;
* `closest_iff` — all parents are the closest strict post-dominators just when no join is overrun.
-/

open Relation

namespace LateMeet

open Idom (Up)

variable {V : Type*} [DecidableEq V] {F : ExitFlow V} {t t' : V → Option V}
  {c d u v x y z J K : V} {l : List V}

/-! ### Joins that are overrun -/

variable (F) in
/-- The climb from a successor of `u` to the closest strict post-dominator `J` of `u` passes a
vertex that stands before `J`. -/
structure Overrun (u J : V) : Prop where
  mem : u ∈ F.order
  ne_exit : J ≠ F.exit
  closest : F.Closest u J
  exists_lt : ∃ s ∈ F.succ u, ∃ x, F.backwards.Dom x s ∧ F.backwards.Dom J x ∧ x ≠ J ∧
    F.num x < F.num J

variable (F) in
/-- Nothing that `K` post-dominates is an overrun join. -/
def Free (K : V) : Prop :=
  ∀ u J, Overrun F u J → ¬F.backwards.Dom K J

section Free

variable {s : V}

theorem Free.of_dom (h : Free F K) (hdom : F.backwards.Dom K J) : Free F J :=
  fun u J' hover hJ ↦ h u J' hover (hdom.trans hJ)

/-- On the climbs from the successors to a join that is free, all vertices stand behind it. -/
theorem Free.num_lt (h : Free F J) (hu : u ∈ F.order) (hJ : F.Closest u J) (hexit : J ≠ F.exit)
    (hs : s ∈ F.succ u) (hx : F.backwards.Dom x s) (hdom : F.backwards.Dom J x) (hne : x ≠ J) :
    F.num J < F.num x := by
  have hle : F.num J ≤ F.num x := not_lt.1 fun hlt ↦
    h u J ⟨hu, hexit, hJ, s, hs, x, hx, hdom, hne, hlt⟩ (Flowgraph.dom_self J)
  refine lt_of_le_of_ne hle fun heq ↦ hne ?_
  have hJo := (mem_of_dom (.inl hu) hJ.dom).resolve_right hexit
  exact (num_inj hJo heq).symm

/-- So do all vertices in reach before the join. -/
theorem Free.num_lt_of_avoids (h : Free F J) (hu : u ∈ F.order) (hJ : F.Closest u J)
    (hexit : J ≠ F.exit) (hs : s ∈ F.succ u) (hz : F.Avoids J s z) : F.num J < F.num z := by
  have hsJ : F.backwards.Dom J s := dom_succ hJ.dom hJ.ne.symm hu hs
  suffices hup : ∀ x, F.backwards.Dom x z → F.backwards.Dom J x → x ≠ J → F.num J < F.num x by
    have := dom_of_avoids hz hsJ
    exact hup z (Flowgraph.dom_self z) this.2 this.1
  obtain ⟨hne, hpath⟩ := hz
  induction hpath with
  | refl => exact fun x hx hdom hxJ ↦ h.num_lt hu hJ hexit hs hx hdom hxJ
  | @tail y z hpath hstep ih =>
    intro x hx hdom hxJ
    obtain ⟨hyJ, hJy⟩ := dom_of_avoids ⟨hne, hpath⟩ hsJ
    -- The closest strict post-dominator of `y` lies on the climb to `J`.
    obtain ⟨K, hK⟩ := exists_closest hstep.1
    have hJK : F.backwards.Dom J K := hK.closest J hyJ.symm hJy
    have hKexit := ne_exit_of_dom hJK hexit
    have hKz : F.backwards.Dom K z := dom_succ hK.dom hK.ne.symm hstep.1 hstep.2.1
    have hKle : F.num J ≤ F.num K := by
      by_cases hKJ : K = J
      · exact hKJ ▸ le_rfl
      · exact (ih K hK.dom hJK hKJ).le
    rcases dom_total (F.succ_mem hstep.1 hstep.2.1) hx hKz with hxK | hKx
    · exact ih x (hxK.trans hK.dom) hdom hxJ
    · by_cases hxK : x = K
      · exact ih x (hxK ▸ hK.dom) hdom hxJ
      · exact hKle.trans_lt ((h.of_dom hJK).num_lt hstep.1 hK hKexit hstep.2.1 hx hKx hxK)

end Free

variable (F) in
/-- No parent lies beyond a free post-dominator. -/
def Near (t : V → Option V) : Prop :=
  ∀ K, Free F K → K ≠ F.exit → ∀ v ∈ F.order, ∀ d, t v = some d → K ≠ v →
    F.backwards.Dom K v → d = K ∨ F.Avoids K v d

section Near

variable {b : V → ℕ}

theorem near_init : Near F (init F) := by
  intro K _ _ v hv d hd
  have hne : v ≠ F.exit := fun h ↦ F.exit_notMem (h ▸ hv)
  rw [init, Function.update_of_ne hne] at hd
  cases hd

/-- The meet at a vertex lies on the way to its closest post-dominator. -/
theorem Near.meet (h : Near F t) (hinv : Inv F b t) (hu : u ∈ F.order)
    (hmeet : IsMeet F t (F.succ u) c) (hJ : F.Closest u J) (hfree : Free F J) (hexit : J ≠ F.exit) :
    c = J ∨ F.Avoids J u c := by
  have hstays : c = J ∨ (t c).isSome ∧ ∃ s ∈ F.succ u, F.Avoids J s c := by
    refine hmeet.stays J (fun z ↦ z = J ∨ (t z).isSome ∧ ∃ s ∈ F.succ u, F.Avoids J s z) hexit
      (fun z hz ↦ hz.imp_right ?_) (fun s hs hst ↦ ?_)
    · rintro ⟨hzt, s, hs, hz⟩
      have hsJ := dom_succ hJ.dom hJ.ne.symm hu hs
      obtain ⟨hzJ, hJz⟩ := dom_of_avoids hz hsJ
      obtain ⟨d, hd⟩ := Option.isSome_iff_exists.1 hzt
      have hzo := (hinv.mem hzt).resolve_right (ne_exit_of_dom hJz hexit)
      refine ⟨hfree.num_lt_of_avoids hu hJ hexit hs hz, d, hd, ?_⟩
      refine (h J hfree hexit z hzo d hd hzJ.symm hJz).imp_right fun hd' ↦ ?_
      exact ⟨hinv.parent_mem hd, s, hs, hz.1, hz.2.trans hd'.2⟩
    · by_cases hsJ : s = J
      · exact .inl hsJ
      · exact .inr ⟨hst, s, hs, hsJ, .refl⟩
  refine hstays.imp_right ?_
  rintro ⟨-, s, hs, hc⟩
  exact avoids_step hu hs hJ.ne.symm hc

/-- Looking at a vertex keeps parents near. -/
theorem Near.step (h : Near F t) (hinv : Inv F b t) (hu : u ∈ F.order) (hstep : Step F u t t') :
    Near F t' := by
  cases hstep with
  | skip => exact h
  | @meet c _ hmeet =>
    intro K hfree hK v hv d hd hne hdom
    by_cases hvu : v = u
    swap
    · rw [Function.update_of_ne hvu] at hd
      exact h K hfree hK v hv d hd hne hdom
    subst hvu
    rw [Function.update_self] at hd
    obtain rfl := Option.some.inj hd
    obtain ⟨J, hJ⟩ := exists_closest hv
    have hKJ : F.backwards.Dom K J := hJ.closest K hne hdom
    have hJv := mem_of_dom (.inl hv) hJ.dom
    have hc := h.meet hinv hv hmeet hJ (hfree.of_dom hKJ) (ne_exit_of_dom hKJ hK)
    by_cases hJK : J = K
    · exact hJK ▸ hc
    refine .inr ?_
    rcases hc with rfl | hc
    · exact avoids_of_dom (.inl hv) hJ.dom hKJ hJK
    · -- Passing `K` before `J` would put each above the other.
      refine (avoids_or hc K).resolve_right fun hKfirst ↦ hJK ?_
      exact dom_antisymm hJv (dom_of_avoids hKfirst hJ.dom).2 hKJ

theorem Near.steps {k : ℕ} (h : Near F t) (hinv : Inv F (budget F k F.order.length) t)
    (hl : l <:+ F.order) (hsteps : Steps F l t t') : Near F t' := by
  induction hsteps with
  | nil => exact h
  | @cons u l t t' t'' hsteps hu ih =>
    have hl' : l <:+ F.order := (List.suffix_cons u l).trans hl
    exact (ih h hinv hl').step (hinv.steps hl' hsteps) (hl.subset (List.mem_cons_self ..)) hu

theorem Near.passes {k : ℕ} (hpasses : Passes F k (init F) t) : Near F t := by
  generalize ht₀ : init F = t₀ at hpasses
  induction hpasses with
  | zero => exact ht₀ ▸ near_init
  | succ hk hpass ih =>
    exact (ih ht₀).steps (inv_init.passes (ht₀ ▸ hk)) List.suffix_rfl hpass

end Near

/-! ### Which tables are right -/

section Right

variable {b : V → ℕ} {k : ℕ}

/-- Where no join is overrun, a parent that is a strict post-dominator is the closest one. -/
theorem Near.closest (h : Near F t) (hfree : ∀ u J, ¬Overrun F u J) (hv : v ∈ F.order)
    (hd : t v = some d) (hne : d ≠ v) (hdom : F.backwards.Dom d v) : F.Closest v d := by
  refine ⟨hne, hdom, fun x hx hxv ↦ ?_⟩
  by_cases hexit : x = F.exit
  · exact hexit ▸ Flowgraph.dom_entry d
  · rcases h x (fun u J hover ↦ absurd hover (hfree u J)) hexit v hv d hd hx hxv with rfl | havoid
    · exact Flowgraph.dom_self d
    · exact (dom_of_avoids havoid hxv).2

theorem Inv.isSome (h : Inv F b t) (hb : ∀ v ∈ F.order, F.order.length < b v)
    (hv : v ∈ F.order ∨ v = F.exit) : (t v).isSome := by
  rcases hv with hv | rfl
  · obtain ⟨d, hd, -⟩ := h.dom hb hv
    exact hd ▸ rfl
  · exact h.exit_eq ▸ rfl

/-- What is above a vertex post-dominates it. -/
theorem Inv.dom_of_up (h : Inv F b t) (hb : ∀ v ∈ F.order, F.order.length < b v)
    (hx : Up t v x) : F.backwards.Dom x v := by
  induction hx using ReflTransGen.head_induction_on with
  | refl => exact Flowgraph.dom_self x
  | @head u d hd hdx ih =>
    rcases h.mem (hd ▸ rfl : (t u).isSome) with hu | hu
    · obtain ⟨e, he, -, hdom⟩ := h.dom hb hu
      obtain rfl := Option.some.inj (hd.symm.trans he)
      exact ih.trans hdom
    · subst hu
      rw [eq_of_up h.exit_eq (.head hd hdx)]
      exact Flowgraph.dom_self _

/-- Below a join under which nothing is overrun, the climb passes all post-dominators. -/
theorem Near.up (h : Near F t) (hinv : Inv F b t) (hb : ∀ v ∈ F.order, F.order.length < b v)
    (hfree : ∀ K, F.backwards.Dom J K → K ≠ J → Free F K) (hJ : J ≠ F.exit)
    (hx : F.backwards.Dom J x) (hxJ : x ≠ J) (hv : (t v).isSome) (hxv : F.backwards.Dom x v) :
    Up t v x := by
  obtain ⟨height, hranked, -⟩ := hinv.ranked
  induction hn : height v using Nat.strong_induction_on generalizing v with
  | _ n ih =>
    by_cases hne : x = v
    · exact hne ▸ .refl
    have hexit := ne_exit_of_dom hxv (ne_exit_of_dom hx hJ)
    have hvo := (hinv.mem hv).resolve_right hexit
    obtain ⟨d, hd, hdv, hdom⟩ := hinv.dom hb hvo
    -- The parent is the closest post-dominator, since that one is free.
    obtain ⟨K, hK⟩ := exists_closest hvo
    have hxK := hK.closest x hne hxv
    have hKv := mem_of_dom (.inl hvo) hK.dom
    have hKJ : K ≠ J := by
      rintro rfl
      exact hxJ (dom_antisymm (mem_of_dom hKv hxK) hxK hx)
    have hKexit := ne_exit_of_dom (hx.trans hxK) hJ
    obtain rfl : d = K := by
      refine (h K (hfree K (hx.trans hxK) hKJ) hKexit v hvo d hd hK.ne hK.dom).resolve_right ?_
      intro havoid
      obtain ⟨hdK, hKd⟩ := dom_of_avoids havoid hK.dom
      exact hdK (dom_antisymm (mem_of_dom (.inl hvo) hdom) (hK.closest d hdv hdom) hKd)
    exact .head hd (ih _ (hn ▸ hranked.lt hexit hd) (hinv.parent_mem hd) hxK rfl)

/-- An overrun join under which nothing is overrun is not the meet. -/
theorem Near.ne_of_overrun (h : Near F t) (hinv : Inv F b t)
    (hb : ∀ v ∈ F.order, F.order.length < b v)
    (hfree : ∀ K, F.backwards.Dom J K → K ≠ J → Free F K) (hover : Overrun F u J)
    (hmeet : IsMeet F t (F.succ u) c) : c ≠ J := by
  rintro rfl
  obtain ⟨s, hs, x, hxs, hx, hxJ, hlt⟩ := hover.exists_lt
  have hst := hinv.isSome hb (F.succ_mem hover.mem hs)
  have hsx := h.up hinv hb hfree hover.ne_exit hx hxJ hst hxs
  have hsJ := hmeet.up s hs hst
  have hxc : Up t x c := by
    refine (up_total hsx hsJ).resolve_right fun hcx ↦ hxJ ?_
    exact dom_antisymm (mem_of_dom (F.succ_mem hover.mem hs) hxs) (hinv.dom_of_up hb hcx) hx
  rcases hmeet.late hover.ne_exit s hs hst x hsx hxc with rfl | hlt'
  · exact hxJ rfl
  · omega

/-- If joins are overrun, then one under which no other one is. -/
theorem exists_overrun (hover : Overrun F u J) :
    ∃ u J, Overrun F u J ∧ ∀ K, F.backwards.Dom J K → K ≠ J → Free F K := by
  classical
  obtain ⟨J, hJ, hmax⟩ := ((vertices F).filter fun J ↦ ∃ u, Overrun F u J).exists_max_image
    (depth F) ⟨J, Finset.mem_filter.2
      ⟨mem_vertices.2 (mem_of_dom (.inl hover.mem) hover.closest.dom), u, hover⟩⟩
  obtain ⟨-, u, hover⟩ := Finset.mem_filter.1 hJ
  refine ⟨u, J, hover, fun K hJK hne u' J' hover' hKJ' ↦ ?_⟩
  have hJ' := mem_of_dom (.inl hover'.mem) hover'.closest.dom
  have hle := hmax J' (Finset.mem_filter.2 ⟨mem_vertices.2 hJ', u', hover'⟩)
  have hlt : depth F J < depth F J' := by
    refine depth_lt hJ' (hJK.trans hKJ') ?_
    rintro rfl
    exact hne (dom_antisymm (mem_of_dom hJ' hKJ') hKJ' hJK)
  omega

/-- In a pass, the parent of a vertex is a meet in a table with the invariants. -/
theorem exists_step (hinv : Inv F (budget F k F.order.length) t) (hnear : Near F t)
    (hl : l <:+ F.order) (hsteps : Steps F l t t') (hu : u ∈ l) :
    ∃ m m' p, Inv F (budget F k p) m ∧ Near F m ∧ Step F u m m' ∧ t' u = m' u := by
  induction hsteps with
  | nil => cases hu
  | @cons w l t t' t'' hsteps hw ih =>
    have hl' : l <:+ F.order := (List.suffix_cons w l).trans hl
    by_cases huw : u = w
    · subst huw
      exact ⟨t', t'', _, hinv.steps hl' hsteps, hnear.steps hinv hl' hsteps, hw, rfl⟩
    · obtain ⟨m, m', p, hm, hmnear, hstep, heq⟩ :=
        ih hinv hnear hl' ((List.mem_cons.1 hu).resolve_left huw)
      exact ⟨m, m', p, hm, hmnear, hstep, (step_of_ne hw huw).trans heq⟩

/-- **All parents are the closest strict post-dominators just when no join is overrun**, after two
passes more than there are vertices. -/
theorem closest_iff (hpasses : Passes F k (init F) t) (hk : F.order.length + 2 ≤ k) :
    (∀ u ∈ F.order, ∃ d, t u = some d ∧ F.Closest u d) ↔ ∀ u J, ¬Overrun F u J := by
  have hb {k p : ℕ} (hk : F.order.length < k) (v : V) : F.order.length < budget F k p v :=
    hk.trans_le (le_budget v)
  constructor
  · intro hclosest u J hover
    obtain ⟨u, J, hover, hfree⟩ := exists_overrun hover
    cases hpasses with
    | zero => omega
    | @succ k t₀ t₁ t hpasses hpass =>
      obtain ⟨m, m', p, hinv, hnear, hstep, heq⟩ := exists_step (inv_init.passes hpasses)
        (Near.passes hpasses) List.suffix_rfl hpass hover.mem
      have hbm : ∀ v ∈ F.order, F.order.length < budget F k p v := fun v _ ↦ hb (by omega) v
      obtain ⟨d, hd, hdclosest⟩ := hclosest u hover.mem
      cases hstep with
      | skip hnone =>
        obtain ⟨s, hs, -⟩ := hover.exists_lt
        have hst := hinv.isSome hbm (F.succ_mem hover.mem hs)
        rw [hnone s hs] at hst
        cases hst
      | @meet c _ hmeet =>
        rw [heq, Function.update_self] at hd
        refine hnear.ne_of_overrun hinv hbm hfree hover hmeet ?_
        rw [Option.some.inj hd]
        exact hdclosest.unique hover.mem hover.closest
  · intro hfree v hv
    have hinv := inv_init.passes hpasses
    obtain ⟨d, hd, hne, hdom⟩ := hinv.dom (fun v _ ↦ hb (by omega) v) hv
    exact ⟨d, hd, (Near.passes hpasses).closest hfree hv hd hne hdom⟩

/-- No join is overrun just when the closest post-dominator of a vertex, unless it is the exit,
stands before all vertices that are in reach from the successors without passing it. -/
theorem not_overrun_iff :
    (∀ u J, ¬Overrun F u J) ↔ ∀ u ∈ F.order, ∀ J, J ≠ F.exit → F.Closest u J →
      ∀ s ∈ F.succ u, ∀ z, F.Avoids J s z → F.num J < F.num z := by
  constructor
  · intro hover u hu J hJ hclosest s hs z hz
    have hfree : Free F J := fun u J' h ↦ absurd h (hover u J')
    exact hfree.num_lt_of_avoids hu hclosest hJ hs hz
  · intro h u J hover
    obtain ⟨s, hs, x, hxs, hx, hxJ, hlt⟩ := hover.exists_lt
    have havoid := avoids_of_dom (F.succ_mem hover.mem hs) hxs hx hxJ
    exact absurd (h u hover.mem J hover.ne_exit hover.closest s hs x havoid) (not_lt.2 hlt.le)

end Right

end LateMeet
