import Ldu.Graph.Idom
import Mathlib.Data.Prod.Lex

/-!
# Post-dominators by a forward numbering

Immediate post-dominators computed by passes over the vertices of a graph with one exit, backwards
in an order: a pass gives each vertex a meet of its successors in the table found so far. Two
vertices meet where a climb from both, always from the one that stands later in the order, comes to
one vertex. Numbers need not fall on the way up, since the exit is the last vertex of all: a climb
can run past the vertex where both meet, up to the exit.

Still, after `k` passes the parent of a vertex is on each walk to the exit with less than `k` edges
that lead back in the order (`Inv`). So no climb is cyclic (`Inv.ranked`), and after more passes
than there are vertices each parent is a strict post-dominator (`Inv.dom`).
-/

open Relation

namespace LateMeet

open Idom (Up)

variable {V : Type*}

/-! ### Climbs that end -/

/-- The climb from a vertex that is its own parent stays there. -/
theorem eq_of_up {t : V → Option V} {v x : V} (hv : t v = some v) (hx : Up t v x) : x = v := by
  induction hx with
  | refl => rfl
  | tail _ hd ih =>
    subst ih
    exact Option.some.inj (hd.symm.trans hv)

/-- A table in which a height falls on the way up to the exit, its own parent. -/
structure Ranked (exit : V) (height : V → ℕ) (t : V → Option V) : Prop where
  exit_eq : t exit = some exit
  lt : ∀ {v d}, v ≠ exit → t v = some d → height d < height v
  parent_mem : ∀ {v d}, t v = some d → (t d).isSome

namespace Ranked

variable {exit : V} {height : V → ℕ} {t : V → Option V} {a v x y : V}

theorem isSome_of_up (h : Ranked exit height t) (hv : (t v).isSome) (hx : Up t v x) :
    (t x).isSome := by
  cases hx with
  | refl => exact hv
  | tail _ hd => exact h.parent_mem hd

theorem height_le (h : Ranked exit height t) (hx : Up t v x) : height x ≤ height v := by
  induction hx using ReflTransGen.head_induction_on with
  | refl => exact le_rfl
  | @head u d hd _ ih =>
    by_cases hu : u = exit
    · rw [hu, h.exit_eq] at hd
      rw [hu, Option.some.inj hd]
      exact ih
    · exact ih.trans (h.lt hu hd).le

theorem up_antisymm (h : Ranked exit height t) (hx : Up t v x) (hv : Up t x v) : x = v := by
  rcases hx.cases_head with rfl | ⟨d, hd, hdx⟩
  · rfl
  · by_cases hexit : v = exit
    · rw [hexit] at hx ⊢
      exact eq_of_up h.exit_eq hx
    · have := h.lt hexit hd
      have := h.height_le (hdx.trans hv)
      omega

theorem up_exit (h : Ranked exit height t) (hv : (t v).isSome) : Up t v exit := by
  induction hn : height v using Nat.strong_induction_on generalizing v with
  | _ n ih =>
    by_cases hexit : v = exit
    · exact hexit ▸ .refl
    · obtain ⟨d, hd⟩ := Option.isSome_iff_exists.1 hv
      exact .head hd (ih _ (hn ▸ h.lt hexit hd) (h.parent_mem hd) rfl)

/-- Climbing a step at least. -/
theorem height_lt (h : Ranked exit height t) (hx : Up t v x) (hne : x ≠ v) :
    height x < height v := by
  rcases hx.cases_head with rfl | ⟨d, hd, hdx⟩
  · exact absurd rfl hne
  · by_cases hexit : v = exit
    · rw [hexit] at hx hne
      exact absurd (eq_of_up h.exit_eq hx) hne
    · exact (h.height_le hdx).trans_lt (h.lt hexit hd)

end Ranked

theorem up_total {t : V → Option V} {a x y : V} (hx : Up t a x) (hy : Up t a y) :
    Up t x y ∨ Up t y x :=
  ReflTransGen.total_of_right_unique (fun _ _ _ h h' ↦ Option.some.inj (h.symm.trans h')) hx hy

/-! ### Graphs with an exit -/

/-- A graph with an exit that each vertex of the order reaches. The edges from a vertex of the order
lead to another one or to the exit. -/
structure ExitFlow (V : Type*) [DecidableEq V] where
  succ : V → List V
  exit : V
  order : List V
  nodup : order.Nodup
  exit_notMem : exit ∉ order
  succ_mem : ∀ {u s}, u ∈ order → s ∈ succ u → s ∈ order ∨ s = exit
  reaches : ∀ {u}, u ∈ order → ReflTransGen (fun s u ↦ u ∈ order ∧ s ∈ succ u) exit u

variable [DecidableEq V] (F : ExitFlow V)

namespace ExitFlow

/-- The edges backwards, entered at the exit: its dominators are the post-dominators. -/
def backwards : Flowgraph V where
  entry := F.exit
  Adj s u := u ∈ F.order ∧ s ∈ F.succ u

/-- The place of a vertex in the order; the exit comes last. -/
def num (v : V) : ℕ :=
  F.order.idxOf v

/-- A path from `a` to `b` that does not pass `x`. -/
def Avoids (x a b : V) : Prop :=
  a ≠ x ∧ ReflTransGen (fun u s ↦ u ∈ F.order ∧ s ∈ F.succ u ∧ s ≠ x) a b

/-- The strict post-dominator of `u` that is closest to it. -/
structure Closest (u d : V) : Prop where
  ne : d ≠ u
  dom : F.backwards.Dom d u
  closest : ∀ x, x ≠ u → F.backwards.Dom x u → F.backwards.Dom x d

/-- A walk to the exit, with the vertices after the first and the number of its edges that lead back
in the order. -/
inductive Walk : V → List V → ℕ → Prop
  | exit : Walk F.exit [] 0
  | step {u s : V} {l : List V} {r : ℕ} (hu : u ∈ F.order) (hs : s ∈ F.succ u)
      (hwalk : Walk s l r) : Walk u (s :: l) (if F.num s ≤ F.num u then r + 1 else r)

end ExitFlow

variable {F} {t t' : V → Option V} {a b c d u v x y z J K : V} {l : List V} {r : ℕ}

section Walks

theorem num_exit : F.num F.exit = F.order.length :=
  List.idxOf_eq_length F.exit_notMem

theorem num_lt (hv : v ∈ F.order) : F.num v < F.order.length :=
  List.idxOf_lt_length_iff.2 hv

theorem num_inj (hu : u ∈ F.order) (h : F.num u = F.num v) : u = v :=
  (List.idxOf_inj hu).1 h

theorem reach (hv : v ∈ F.order ∨ v = F.exit) : F.backwards.Reach v := by
  rcases hv with hv | rfl
  · exact F.reaches hv
  · exact .refl

theorem mem_of_reach (hv : F.backwards.Reach v) : v ∈ F.order ∨ v = F.exit := by
  cases hv with
  | refl => exact .inr rfl
  | tail _ hadj => exact .inl hadj.1

theorem adj (hu : u ∈ F.order) (hs : a ∈ F.succ u) : F.backwards.Adj a u :=
  ⟨hu, hs⟩

/-- From a vertex on a walk on, fewer edges lead back if it stands before the first one. -/
theorem ExitFlow.Walk.suffix (h : F.Walk x l r) (hy : y ∈ l) :
    ∃ l' r', F.Walk y l' r' ∧ l'.length < l.length ∧ l' ⊆ l ∧ r' ≤ r ∧
      (F.num y ≤ F.num x → r' < r) := by
  induction h with
  | exit => cases hy
  | @step u s l r hu hs hwalk ih =>
    rcases List.mem_cons.1 hy with rfl | hy
    · refine ⟨l, r, hwalk, by simp, List.subset_cons_self .., ?_, fun hle ↦ ?_⟩
      · split <;> omega
      · rw [if_pos hle]
        exact Nat.lt_succ_self r
    · obtain ⟨l', r', hwalk', hlen, hsub, hle, hlt⟩ := ih hy
      refine ⟨l', r', hwalk', by simp; omega, fun z hz ↦ List.mem_cons_of_mem _ (hsub hz), ?_,
        fun hyu ↦ ?_⟩
      · split <;> omega
      · split
        · omega
        · exact hlt (by omega)

/-- A vertex from which the exit is in reach through a finite set has a walk through the rest of the
set, with less edges than it has vertices. -/
theorem exists_walk {A : Finset V} (h : F.backwards.ReachVia (· ∈ A) v) :
    ∃ l r, F.Walk v l r ∧ (∀ z ∈ l, z ∈ A.erase v) ∧ r < A.card := by
  induction hn : A.card using Nat.strong_induction_on generalizing A v with
  | _ n ih =>
    by_cases hentry : v = F.exit
    · subst hentry
      exact ⟨[], 0, .exit, by simp, hn ▸ Finset.card_pos.2 ⟨_, h.1⟩⟩
    · obtain ⟨s, hs, hadj⟩ := Idom.exists_adj_of_reachVia h hentry
      have hcard : (A.erase v).card + 1 = A.card := Finset.card_erase_add_one h.prop
      have hs' : F.backwards.ReachVia (· ∈ A.erase v) s := by
        simpa only [Finset.mem_erase, and_comm] using hs
      obtain ⟨l, r, hwalk, hl, hr⟩ := ih _ (by omega) hs' rfl
      refine ⟨_, _, hwalk.step hadj.1 hadj.2, fun z hz ↦ ?_, ?_⟩
      · rcases List.mem_cons.1 hz with rfl | hz
        · exact hs'.prop
        · exact Finset.mem_of_mem_erase (hl z hz)
      · split <;> omega

/-- The vertices. -/
def vertices (F : ExitFlow V) : Finset V :=
  insert F.exit F.order.toFinset

theorem mem_vertices : v ∈ vertices F ↔ v ∈ F.order ∨ v = F.exit := by
  rw [vertices, Finset.mem_insert, List.mem_toFinset, or_comm]

theorem card_vertices_le : (vertices F).card ≤ F.order.length + 1 :=
  (Finset.card_insert_le _ _).trans (Nat.succ_le_succ (List.toFinset_card_le _))

theorem exists_walk_of_reachVia {P : V → Prop} (h : F.backwards.ReachVia P v) :
    ∃ l r, F.Walk v l r ∧ (∀ z ∈ l, z ≠ v ∧ P z) ∧ r < F.order.length + 1 := by
  classical
  have hA : F.backwards.ReachVia (· ∈ (vertices F).filter P) v :=
    Idom.reachVia_of_forall h fun w hw ↦
      Finset.mem_filter.2 ⟨mem_vertices.2 (mem_of_reach hw.reach), hw.prop⟩
  obtain ⟨l, r, hwalk, hl, hr⟩ := exists_walk hA
  refine ⟨l, r, hwalk, fun z hz ↦ ?_, hr.trans_le ?_⟩
  · have hz := hl z hz
    simp only [Finset.mem_erase, Finset.mem_filter] at hz
    exact ⟨hz.1, hz.2.2⟩
  · exact (Finset.card_filter_le _ _).trans card_vertices_le

end Walks

/-! ### Post-dominance along paths -/

section PostDominance

theorem avoids_step (hu : u ∈ F.order) (hs : a ∈ F.succ u) (hne : u ≠ x) (h : F.Avoids x a b) :
    F.Avoids x u b :=
  ⟨hne, .head ⟨hu, hs, h.1⟩ h.2⟩

theorem dom_succ (h : F.backwards.Dom d u) (hne : u ≠ d) (hu : u ∈ F.order) (hs : a ∈ F.succ u) :
    F.backwards.Dom d a :=
  h.of_adj (adj hu hs) hne

/-- What is behind a path that avoids a post-dominator has it, too. -/
theorem dom_of_avoids (h : F.Avoids x a b) (hdom : F.backwards.Dom x a) :
    b ≠ x ∧ F.backwards.Dom x b := by
  obtain ⟨hne, hpath⟩ := h
  induction hpath with
  | refl => exact ⟨hne, hdom⟩
  | tail _ hstep ih => exact ⟨hstep.2.2, dom_succ ih.2 ih.1 hstep.1 hstep.2.1⟩

theorem ne_exit_of_dom (h : F.backwards.Dom x v) (hx : x ≠ F.exit) : v ≠ F.exit := by
  rintro rfl
  exact hx (Flowgraph.eq_entry_of_dom_entry h)

theorem avoids_or (h : F.Avoids x a b) (y : V) : F.Avoids y a b ∨ F.Avoids x a y := by
  obtain ⟨hne, hpath⟩ := h
  induction hpath with
  | refl =>
    by_cases hay : a = y
    · subst hay
      exact .inr ⟨hne, .refl⟩
    · exact .inl ⟨hay, .refl⟩
  | @tail u s hpath hstep ih =>
    rcases ih with ih | ih
    · by_cases hsy : s = y
      · subst hsy
        exact .inr ⟨hne, hpath.tail hstep⟩
      · exact .inl ⟨ih.1, ih.2.tail ⟨hstep.1, hstep.2.1, hsy⟩⟩
    · exact .inr ih

/-- Of a post-dominator and another vertex, one is in reach before the other. -/
theorem avoids_or_of_dom (hv : v ∈ F.order ∨ v = F.exit) (hx : F.backwards.Dom x v) (hne : x ≠ y) :
    F.Avoids y v x ∨ F.Avoids x v y := by
  obtain ⟨l, r, hwalk, -⟩ :=
    exists_walk_of_reachVia (Flowgraph.reach_iff_reachVia.1 (reach hv))
  induction hwalk with
  | exit =>
    rw [Flowgraph.eq_entry_of_dom_entry hx] at hne ⊢
    exact .inl ⟨hne, .refl⟩
  | @step u s l r hu hs _ ih =>
    by_cases hux : u = x
    · subst hux
      exact .inl ⟨hne, .refl⟩
    by_cases huy : u = y
    · subst huy
      exact .inr ⟨hne.symm, .refl⟩
    exact (ih (F.succ_mem hu hs) (dom_succ hx hux hu hs)).imp (avoids_step hu hs huy)
      (avoids_step hu hs hux)

theorem dom_antisymm (hx : x ∈ F.order ∨ x = F.exit) (hxy : F.backwards.Dom x y)
    (hyx : F.backwards.Dom y x) : x = y :=
  Flowgraph.Dom.antisymm (reach hx) hxy hyx

theorem mem_of_dom (hv : v ∈ F.order ∨ v = F.exit) (hx : F.backwards.Dom x v) :
    x ∈ F.order ∨ x = F.exit := by
  by_contra hnot
  refine hx (Idom.reachVia_of_forall (Flowgraph.reach_iff_reachVia.1 (reach hv)) fun w hw ↦ ?_)
  rintro rfl
  exact hnot (mem_of_reach hw.reach)

/-- Of two post-dominators of a vertex, one post-dominates the other. -/
theorem dom_total (hv : v ∈ F.order ∨ v = F.exit) (hx : F.backwards.Dom x v)
    (hy : F.backwards.Dom y v) : F.backwards.Dom x y ∨ F.backwards.Dom y x := by
  by_cases hne : x = y
  · exact .inl (hne ▸ Flowgraph.dom_self x)
  · rcases avoids_or_of_dom hv hx hne with h | h
    · exact .inr (dom_of_avoids h hy).2
    · exact .inl (dom_of_avoids h hx).2

/-- A post-dominator is in reach before those that post-dominate it. -/
theorem avoids_of_dom (hv : v ∈ F.order ∨ v = F.exit) (hx : F.backwards.Dom x v)
    (hy : F.backwards.Dom y x) (hne : x ≠ y) : F.Avoids y v x := by
  refine (avoids_or_of_dom hv hx hne).resolve_right fun h ↦ hne ?_
  exact dom_antisymm (mem_of_dom hv hx) (dom_of_avoids h hx).2 hy

theorem ExitFlow.Closest.unique (hu : u ∈ F.order) (h : F.Closest u c) (h' : F.Closest u d) :
    c = d :=
  dom_antisymm (mem_of_dom (.inl hu) h.dom) (h'.closest c h.ne h.dom) (h.closest d h'.ne h'.dom)

open Classical in
/-- The number of post-dominators. -/
noncomputable def depth (F : ExitFlow V) (v : V) : ℕ :=
  ((vertices F).filter fun x ↦ F.backwards.Dom x v).card

theorem depth_lt (hv : v ∈ F.order ∨ v = F.exit) (hd : F.backwards.Dom d v) (hne : d ≠ v) :
    depth F d < depth F v := by
  classical
  refine Finset.card_lt_card ((Finset.ssubset_iff_of_subset fun x hx ↦ ?_).2 ⟨v, ?_, ?_⟩)
  · rw [Finset.mem_filter] at hx ⊢
    exact ⟨hx.1, hx.2.trans hd⟩
  · exact Finset.mem_filter.2 ⟨mem_vertices.2 hv, Flowgraph.dom_self v⟩
  · exact fun hmem ↦ hne (dom_antisymm hv (Finset.mem_filter.1 hmem).2 hd).symm

/-- Every vertex but the exit has a closest strict post-dominator. -/
theorem exists_closest (hu : u ∈ F.order) : ∃ d, F.Closest u d := by
  classical
  have hexit : F.exit ≠ u := fun h ↦ F.exit_notMem (h ▸ hu)
  -- It is the one with the most post-dominators.
  obtain ⟨d, hd, hmax⟩ := ((vertices F).filter fun x ↦ x ≠ u ∧ F.backwards.Dom x u).exists_max_image
    (depth F) ⟨F.exit, Finset.mem_filter.2
      ⟨Finset.mem_insert_self _ _, hexit, Flowgraph.dom_entry u⟩⟩
  obtain ⟨hd, hne, hdom⟩ := Finset.mem_filter.1 hd
  refine ⟨d, hne, hdom, fun x hx hxu ↦ ?_⟩
  by_cases hxd : d = x
  · exact hxd ▸ Flowgraph.dom_self d
  refine (dom_total (.inl hu) hxu hdom).resolve_right fun hdx ↦ ?_
  have hxv := mem_of_dom (.inl hu) hxu
  have := hmax x (Finset.mem_filter.2 ⟨mem_vertices.2 hxv, hx, hxu⟩)
  exact absurd (depth_lt hxv hdx hxd) (not_lt.2 this)

end PostDominance

/-! ### Tables -/

section Tables

variable {b : V → ℕ}

variable (F) in
/-- The invariant of a table, where vertex `v` was looked at in `b v` passes: a vertex has a parent
exactly if the exit is in reach by a walk with less edges that lead back, and it is on each such
walk. -/
structure Inv (b : V → ℕ) (t : V → Option V) : Prop where
  exit_eq : t F.exit = some F.exit
  mem : ∀ {v}, (t v).isSome → v ∈ F.order ∨ v = F.exit
  parent_mem : ∀ {v d}, t v = some d → (t d).isSome
  short : ∀ {v l r}, v ∈ F.order → F.Walk v l r → r < b v → ∃ d ∈ l, t v = some d
  just : ∀ {v}, v ∈ F.order → (t v).isSome → ∃ l r, F.Walk v l r ∧ r < b v

variable (F) in
/-- The number of edges that lead back on a best walk, and the length of a shortest such one. -/
theorem exists_cost : ∃ cost : V → ℕ ×ₗ ℕ, ∀ {v l r}, F.Walk v l r →
    cost v ≤ toLex (r, l.length) ∧ ∃ l' r', F.Walk v l' r' ∧ cost v = toLex (r', l'.length) := by
  classical
  have hmin (v : V) : ∃ m : ℕ ×ₗ ℕ, ∀ {l r}, F.Walk v l r →
      m ≤ toLex (r, l.length) ∧ ∃ l' r', F.Walk v l' r' ∧ m = toLex (r', l'.length) := by
    by_cases hwalk : ∃ m : ℕ ×ₗ ℕ, ∃ l r, F.Walk v l r ∧ m = toLex (r, l.length)
    · obtain ⟨m, hm, hle⟩ := WellFounded.has_min wellFounded_lt {m | ∃ l r, F.Walk v l r ∧
        m = toLex (r, l.length)} hwalk
      exact ⟨m, fun {l r} h ↦ ⟨not_lt.1 (hle _ ⟨l, r, h, rfl⟩), hm⟩⟩
    · exact ⟨toLex (0, 0), fun {l r} h ↦ absurd ⟨_, l, r, h, rfl⟩ hwalk⟩
  choose cost hcost using hmin
  exact ⟨cost, fun h ↦ hcost _ h⟩

namespace Inv

/-- The parent has a better walk. -/
theorem cost_lt (h : Inv F b t) {cost : V → ℕ ×ₗ ℕ}
    (hcost : ∀ {v l r}, F.Walk v l r → cost v ≤ toLex (r, l.length) ∧
      ∃ l' r', F.Walk v l' r' ∧ cost v = toLex (r', l'.length))
    (hv : v ≠ F.exit) (hd : t v = some d) : cost d < cost v := by
  have hsome : (t v).isSome := hd ▸ rfl
  have hvo := (h.mem hsome).resolve_right hv
  obtain ⟨l₀, r₀, hwalk₀, hr₀⟩ := h.just hvo hsome
  obtain ⟨hle, l, r, hwalk, heq⟩ := hcost hwalk₀
  rw [heq, Prod.Lex.toLex_le_toLex] at hle
  obtain ⟨d', hd', ht⟩ := h.short hvo hwalk (by omega)
  obtain rfl := Option.some.inj (hd.symm.trans ht)
  obtain ⟨l', r', hwalk', hlen, -, hr', -⟩ := hwalk.suffix hd'
  refine (hcost hwalk').1.trans_lt ?_
  rw [heq, Prod.Lex.toLex_lt_toLex]
  omega

/-- So no climb is cyclic, and none is longer than there are vertices. -/
theorem ranked (h : Inv F b t) :
    ∃ height, Ranked F.exit height t ∧ ∀ v, height v ≤ F.order.length + 1 := by
  classical
  obtain ⟨cost, hcost⟩ := exists_cost F
  have hle {v x : V} (hup : Up t v x) (hx : x ≠ F.exit) : cost x ≤ cost v := by
    induction hup using ReflTransGen.head_induction_on with
    | refl => exact le_rfl
    | @head u d hd hdx ih =>
      by_cases hu : u = F.exit
      · subst hu
        exact absurd (eq_of_up h.exit_eq (.head hd hdx)) hx
      · exact ih.trans (h.cost_lt hcost hu hd).le
  refine ⟨fun v ↦ ((vertices F).filter fun x ↦ Up t v x).card, ⟨h.exit_eq, ?_, h.parent_mem⟩,
    fun v ↦ (Finset.card_filter_le _ _).trans card_vertices_le⟩
  intro v d hv hd
  refine Finset.card_lt_card ((Finset.ssubset_iff_of_subset fun x hx ↦ ?_).2 ⟨v, ?_, ?_⟩)
  · rw [Finset.mem_filter] at hx ⊢
    exact ⟨hx.1, .head hd hx.2⟩
  · exact Finset.mem_filter.2 ⟨mem_vertices.2 (h.mem (hd ▸ rfl)), .refl⟩
  · intro hmem
    exact absurd (hle (Finset.mem_filter.1 hmem).2 hv) (not_le.2 (h.cost_lt hcost hv hd))

/-- The edge at which a budget falls leads back, and it falls by one at most. -/
theorem up_mem (h : Inv F b t) (hb : ∀ y d, b y ≤ b d ∨ F.num d ≤ F.num y ∧ b y ≤ b d + 1)
    (hup : Up t y c) (hwalk : F.Walk y l r) (hr : r < b y) : c ∈ y :: l := by
  induction hup using ReflTransGen.head_induction_on generalizing l r with
  | refl => exact List.mem_cons_self ..
  | @head u d hd _ ih =>
    by_cases hu : u = F.exit
    · rw [hu, h.exit_eq] at hd
      obtain rfl := Option.some.inj hd
      exact hu ▸ ih (hu ▸ hwalk) (hu ▸ hr)
    · have huo := (h.mem (hd ▸ rfl : (t u).isSome)).resolve_right hu
      obtain ⟨d', hd', ht⟩ := h.short huo hwalk hr
      obtain rfl := Option.some.inj (hd.symm.trans ht)
      obtain ⟨l', r', hwalk', -, hsub, hle, hlt⟩ := hwalk.suffix hd'
      have hr' : r' < b d := by
        rcases hb u d with hle' | ⟨hnum, hle'⟩
        · omega
        · have := hlt hnum
          omega
      rcases List.mem_cons.1 (ih hwalk' hr') with rfl | hc
      · exact List.mem_cons_of_mem _ hd'
      · exact List.mem_cons_of_mem _ (hsub hc)

end Inv

end Tables

/-! ### Passes -/

variable (F) in
/-- All vertices of `S` stand behind `J`, but for `J` itself, and the climb from them stays in `S`
up to `J`. -/
def Behind (t : V → Option V) (J : V) (S : V → Prop) : Prop :=
  ∀ z, S z → z = J ∨ F.num J < F.num z ∧ ∃ d, t z = some d ∧ S d

variable (F) in
/-- A vertex above those of a list that are in the table. On the climb to it all vertices stand
behind it, unless it is the exit; and it does not leave vertices behind a join. -/
structure IsMeet (t : V → Option V) (ss : List V) (c : V) : Prop where
  up : ∀ s ∈ ss, (t s).isSome → Up t s c
  late : c ≠ F.exit → ∀ s ∈ ss, (t s).isSome → ∀ z, Up t s z → Up t z c →
    z = c ∨ F.num c < F.num z
  stays : ∀ J S, J ≠ F.exit → Behind F t J S → (∀ s ∈ ss, (t s).isSome → S s) → S c

namespace IsMeet

variable {height : V → ℕ} {s q : V} {ss : List V}

theorem self (h : Ranked F.exit height t) (hc : (t c).isSome) : IsMeet F t [c] c where
  up s hs _ := by
    rw [List.mem_singleton.1 hs]
    exact .refl
  late _ s hs _ z hz hzc := by
    rw [List.mem_singleton.1 hs] at hz
    exact .inl (h.up_antisymm hz hzc)
  stays _ _ _ _ hS := hS c (List.mem_singleton_self c) hc

/-- Only the vertices in the table count. -/
theorem congr {ss' : List V} (h : IsMeet F t ss c)
    (hmem : ∀ s, (t s).isSome → (s ∈ ss' ↔ s ∈ ss)) : IsMeet F t ss' c where
  up s hs hst := h.up s ((hmem s hst).1 hs) hst
  late hc s hs hst := h.late hc s ((hmem s hst).1 hs) hst
  stays J S hJ hS hS' := h.stays J S hJ hS fun s hs hst ↦ hS' s ((hmem s hst).2 hs) hst

/-- A meet of a further vertex and of what is met so far. -/
theorem append (hexit : t F.exit = some F.exit) (h : IsMeet F t ss q) (h' : IsMeet F t [s, q] c)
    (hq : (t q).isSome) : IsMeet F t (ss ++ [s]) c where
  up w hw hwt := by
    rcases List.mem_append.1 hw with hw | hw
    · exact (h.up w hw hwt).trans (h'.up q (by simp) hq)
    · exact h'.up w (by simp [List.mem_singleton.1 hw]) hwt
  late hc w hw hwt z hz hzc := by
    rcases List.mem_append.1 hw with hw | hw
    · have hqc := h'.up q (by simp) hq
      have hlate := h'.late hc q (by simp) hq
      have hqexit : q ≠ F.exit := by
        rintro rfl
        exact hc (eq_of_up hexit hqc)
      rcases up_total hz (h.up w hw hwt) with hzq | hqz
      · rcases h.late hqexit w hw hwt z hz hzq with rfl | hlt
        · exact hlate z .refl hzc
        · refine .inr (lt_of_le_of_lt ?_ hlt)
          rcases hlate q .refl hqc with rfl | hlt'
          · exact le_rfl
          · exact hlt'.le
      · exact hlate z hqz hzc
    · exact h'.late hc w (by simp [List.mem_singleton.1 hw]) hwt z hz hzc
  stays J S hJ hS hmem := by
    have hqS := h.stays J S hJ hS fun w hw ↦ hmem w (List.mem_append_left _ hw)
    refine h'.stays J S hJ hS fun w hw hwt ↦ ?_
    rcases List.mem_cons.1 hw with rfl | hw
    · exact hmem w (by simp) hwt
    · exact List.mem_singleton.1 hw ▸ hqS

end IsMeet

variable (F) in
/-- Looking at `u`: it gets a meet of the successors in the table, if there are any. -/
inductive Step (u : V) (t : V → Option V) : (V → Option V) → Prop
  | skip (hnone : ∀ s ∈ F.succ u, t s = none) : Step u t t
  | meet {c : V} (hsome : ∃ s ∈ F.succ u, (t s).isSome) (hmeet : IsMeet F t (F.succ u) c) :
      Step u t (Function.update t u (some c))

variable (F) in
/-- Looking at the vertices of a list, from its end. -/
inductive Steps : List V → (V → Option V) → (V → Option V) → Prop
  | nil {t : V → Option V} : Steps [] t t
  | cons {u : V} {l : List V} {t t' t'' : V → Option V} (hl : Steps l t t')
      (hu : Step F u t' t'') : Steps (u :: l) t t''

variable (F) in
/-- Passes over all vertices, from the end of the order. -/
inductive Passes : ℕ → (V → Option V) → (V → Option V) → Prop
  | zero {t : V → Option V} : Passes 0 t t
  | succ {k : ℕ} {t t' t'' : V → Option V} (hk : Passes k t t') (hpass : Steps F F.order t' t'') :
      Passes (k + 1) t t''

/-- The first table: only the exit is in it. -/
def init (F : ExitFlow V) : V → Option V :=
  Function.update (fun _ ↦ none) F.exit (some F.exit)

/-- The passes in which a vertex was looked at, `k` full ones and one down to number `p`. -/
def budget (F : ExitFlow V) (k p : ℕ) (v : V) : ℕ :=
  if p ≤ F.num v then k + 1 else k

section Passes

variable {k p : ℕ}

theorem step_of_ne (h : Step F u t t') (hv : v ≠ u) : t' v = t v := by
  cases h with
  | skip => rfl
  | meet => exact Function.update_of_ne hv _ _

theorem budget_cases (y d : V) :
    budget F k p y ≤ budget F k p d ∨
      F.num d ≤ F.num y ∧ budget F k p y ≤ budget F k p d + 1 := by
  unfold budget
  split <;> split <;> omega

theorem le_budget (v : V) : k ≤ budget F k p v := by
  unfold budget
  split <;> omega

theorem Inv.congr {b' : V → ℕ} {b : V → ℕ} (h : Inv F b t) (hb : ∀ v ∈ F.order, b v = b' v) :
    Inv F b' t where
  exit_eq := h.exit_eq
  mem := h.mem
  parent_mem := h.parent_mem
  short hv hwalk hr := h.short hv hwalk (by rwa [hb _ hv])
  just hv hsome := by
    rw [← hb _ hv]
    exact h.just hv hsome

theorem inv_init : Inv F (budget F 0 F.order.length) (init F) := by
  have hinit {v : V} (hv : (init F v).isSome) : v = F.exit := by
    by_contra hne
    rw [init, Function.update_of_ne hne] at hv
    cases hv
  refine ⟨Function.update_self .., fun hv ↦ .inr (hinit hv), fun {v d} hd ↦ ?_,
    fun {v l r} hv _ hr ↦ ?_, fun hv hsome ↦ absurd (hinit hsome ▸ hv) F.exit_notMem⟩
  · obtain rfl := hinit (hd ▸ rfl : (init F v).isSome)
    rw [init, Function.update_self] at hd
    rw [← Option.some.inj hd, init, Function.update_self]
    rfl
  · have := num_lt hv
    rw [budget, if_neg (by omega)] at hr
    omega

/-- A successor of the vertex that is looked at next, on a walk short enough. -/
theorem lt_budget {s : V} (hu : F.num u = p)
    (hr : (if F.num s ≤ F.num u then r + 1 else r) < k + 1) : r < budget F k (p + 1) s := by
  unfold budget
  split at hr <;> split <;> omega

/-- **Looking at a vertex** keeps the invariant. -/
theorem Inv.step (h : Inv F (budget F k (p + 1)) t) (hu : u ∈ F.order) (hnum : F.num u = p)
    (hstep : Step F u t t') : Inv F (budget F k p) t' := by
  have hexit : F.exit ≠ u := fun h ↦ F.exit_notMem (h ▸ hu)
  have hbudget : ∀ v ∈ F.order, v ≠ u → budget F k (p + 1) v = budget F k p v := by
    intro v hv hvu
    have : F.num v ≠ p := fun h ↦ hvu (num_inj hv (h.trans hnum.symm))
    unfold budget
    split <;> split <;> omega
  have hself : budget F k p u = k + 1 := if_pos hnum.ge
  -- On a short walk from `u` the next vertex is in the table.
  have hnext {s : V} {l : List V} {r : ℕ} (hs : s ∈ F.succ u) (hwalk : F.Walk s l r)
      (hr : r < budget F k (p + 1) s) : (t s).isSome := by
    rcases F.succ_mem hu hs with hso | rfl
    · obtain ⟨d, -, hd⟩ := h.short hso hwalk hr
      exact hd ▸ rfl
    · exact h.exit_eq ▸ rfl
  cases hstep with
  | skip hnone =>
    refine ⟨h.exit_eq, h.mem, h.parent_mem, fun {v l r} hv hwalk hr ↦ ?_, fun {v} hv hsome ↦ ?_⟩
    · by_cases hvu : v = u
      · subst hvu
        cases hwalk with
        | exit => exact absurd hu F.exit_notMem
        | step _ hs hwalk =>
          have hsome := hnext hs hwalk (lt_budget hnum (hself ▸ hr))
          rw [hnone _ hs] at hsome
          cases hsome
      · exact h.short hv hwalk (hbudget v hv hvu ▸ hr)
    · obtain ⟨l, r, hwalk, hr⟩ := h.just hv hsome
      refine ⟨l, r, hwalk, hr.trans_le ?_⟩
      by_cases hvu : v = u
      · subst hvu
        rw [hself, budget]
        split <;> omega
      · exact (hbudget v hv hvu).le
  | @meet c hsome hmeet =>
    have hstay {v : V} (hv : (t v).isSome) : (Function.update t u (some c) v).isSome := by
      by_cases hvu : v = u
      · rw [hvu, Function.update_self]
        rfl
      · rwa [Function.update_of_ne hvu]
    obtain ⟨height, hranked, -⟩ := h.ranked
    refine ⟨?_, fun {v} hv ↦ ?_, fun {v d} hd ↦ ?_, fun {v l r} hv hwalk hr ↦ ?_,
      fun {v} hv hv' ↦ ?_⟩
    · rw [Function.update_of_ne hexit, h.exit_eq]
    · by_cases hvu : v = u
      · exact .inl (hvu ▸ hu)
      · rw [Function.update_of_ne hvu] at hv
        exact h.mem hv
    · by_cases hvu : v = u
      · rw [hvu, Function.update_self] at hd
        obtain rfl := Option.some.inj hd
        obtain ⟨s, hs, hst⟩ := hsome
        exact hstay (hranked.isSome_of_up hst (hmeet.up s hs hst))
      · rw [Function.update_of_ne hvu] at hd
        exact hstay (h.parent_mem hd)
    · by_cases hvu : v = u
      · subst hvu
        rw [Function.update_self]
        cases hwalk with
        | exit => exact absurd hu F.exit_notMem
        | step _ hs hwalk =>
          have hr := lt_budget hnum (hself ▸ hr)
          exact ⟨c, h.up_mem budget_cases (hmeet.up _ hs (hnext hs hwalk hr)) hwalk hr, rfl⟩
      · rw [Function.update_of_ne hvu]
        exact h.short hv hwalk (hbudget v hv hvu ▸ hr)
    · by_cases hvu : v = u
      · subst hvu
        obtain ⟨s, hs, hst⟩ := hsome
        obtain ⟨l, r, hwalk, hr⟩ : ∃ l r, F.Walk s l r ∧ r < budget F k (p + 1) s := by
          rcases F.succ_mem hu hs with hso | rfl
          · exact h.just hso hst
          · refine ⟨[], 0, .exit, ?_⟩
            have := num_lt hu
            rw [budget, num_exit, if_pos (by omega)]
            exact Nat.succ_pos k
        refine ⟨_, _, hwalk.step hu hs, ?_⟩
        rw [hself]
        unfold budget at hr
        split <;> split at hr <;> omega
      · rw [Function.update_of_ne hvu] at hv'
        rw [← hbudget v hv hvu]
        exact h.just hv hv'

/-- Down to the vertices of a suffix of the order. -/
theorem Inv.steps (h : Inv F (budget F k F.order.length) t) (hl : l <:+ F.order)
    (hsteps : Steps F l t t') : Inv F (budget F k (F.order.length - l.length)) t' := by
  induction hsteps with
  | nil => exact h
  | @cons u l t t' t'' _ hu ih =>
    obtain ⟨pre, hpre⟩ := hl
    have hnum : F.num u = pre.length := by
      have hnodup := F.nodup
      rw [← hpre, List.nodup_append] at hnodup
      have hupre : u ∉ pre := fun h ↦ hnodup.2.2 u h u (List.mem_cons_self ..) rfl
      rw [ExitFlow.num, ← hpre, List.idxOf_append_of_notMem hupre, List.idxOf_cons_self,
        Nat.add_zero]
    have hlen : F.order.length = pre.length + (l.length + 1) := by
      rw [← hpre, List.length_append, List.length_cons]
    have hih := ih h ⟨pre ++ [u], by rw [← hpre]; simp⟩
    rw [show F.order.length - l.length = pre.length + 1 by omega] at hih
    rw [show F.order.length - (u :: l).length = pre.length by rw [List.length_cons]; omega]
    exact hih.step (by rw [← hpre]; simp) hnum hu

theorem Inv.pass (h : Inv F (budget F k F.order.length) t) (hpass : Steps F F.order t t') :
    Inv F (budget F (k + 1) F.order.length) t' := by
  refine (h.steps List.suffix_rfl hpass).congr fun v hv ↦ ?_
  have := num_lt hv
  rw [budget, if_pos (by omega), budget, if_neg (by omega)]

theorem Inv.passes (h : Inv F (budget F 0 F.order.length) t) (hpasses : Passes F k t t') :
    Inv F (budget F k F.order.length) t' := by
  induction hpasses with
  | zero => exact h
  | succ _ hpass ih => exact (ih h).pass hpass

end Passes

/-- **After more passes than there are vertices** each vertex has a strict post-dominator. -/
theorem Inv.dom {b : V → ℕ} (h : Inv F b t) (hb : ∀ v ∈ F.order, F.order.length < b v)
    (hv : v ∈ F.order) : ∃ d, t v = some d ∧ d ≠ v ∧ F.backwards.Dom d v := by
  have hreach {P : V → Prop} (hP : F.backwards.ReachVia P v) :
      ∃ d, t v = some d ∧ d ≠ v ∧ P d := by
    obtain ⟨l, r, hwalk, hl, hr⟩ := exists_walk_of_reachVia hP
    obtain ⟨d, hd, ht⟩ := h.short hv hwalk (by have := hb v hv; omega)
    exact ⟨d, ht, hl d hd⟩
  obtain ⟨d, hd, hne, -⟩ := hreach (Flowgraph.reach_iff_reachVia.1 (reach (.inl hv)))
  refine ⟨d, hd, hne, fun havoid ↦ ?_⟩
  obtain ⟨e, he, -, hde⟩ := hreach havoid
  exact hde (Option.some.inj (he.symm.trans hd))

end LateMeet
