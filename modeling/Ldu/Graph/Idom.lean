import Ldu.Graph.Flowgraph
import Mathlib.Data.Finset.Card
import Mathlib.Data.List.Nodup
import Mathlib.Logic.Function.Iterate

/-!
# Iterated immediate dominators

Immediate dominators computed by passes over the vertices of a flowgraph in an order in which every
vertex but the entry stands behind one of its predecessors. A pass gives each vertex the meet of its
predecessors in the tree found so far, and two vertices meet where a climb from both, always from
the one that stands further back, comes to one vertex (`climb`).

* `Sound` — the invariant of every table: numbers fall on the way up, and what dominates a vertex
  strictly dominates its parent;
* `exists_pass` — from such a table every climb ends and the pass leaves such a table;
* `mem_of_up` — after `k` passes the climb from a vertex stays on each walk to it with less than `k`
  edges that lead back in the order;
* `up_iff_dom`, `tables_succ_eq` — after as many passes as there are vertices, the climb from a
  vertex passes exactly its dominators, and one more pass changes nothing.
-/

open Relation

namespace Idom

variable {V : Type*}

/-! ### Climbing -/

/-- The climb from `a` passes `b`. -/
def Up (t : V → Option V) (a b : V) : Prop :=
  ReflTransGen (fun u v ↦ t u = some v) a b

/-- A tree with its root, in which numbers fall on the way up. A vertex is in it if it has a
parent; the root is its own. -/
structure Tree (root : V) (num : V → ℕ) (t : V → Option V) : Prop where
  root_eq : t root = some root
  lt : ∀ {v d}, v ≠ root → t v = some d → num d < num v
  parent_mem : ∀ {v d}, t v = some d → (t d).isSome
  num_inj : ∀ {u v}, (t u).isSome → (t v).isSome → num u = num v → u = v

namespace Tree

variable {root : V} {num : V → ℕ} {t : V → Option V} {a b d v x y : V}

theorem up_root (h : Tree root num t) (hv : (t v).isSome) : Up t v root := by
  induction hn : num v using Nat.strong_induction_on generalizing v with
  | _ n ih =>
    by_cases hroot : v = root
    · exact hroot ▸ .refl
    · obtain ⟨d, hd⟩ := Option.isSome_iff_exists.1 hv
      exact .head hd (ih _ (hn ▸ h.lt hroot hd) (h.parent_mem hd) rfl)

theorem up_iff (hd : t v = some d) : Up t v x ↔ x = v ∨ Up t d x := by
  constructor
  · intro hx
    rcases hx.cases_head with rfl | ⟨e, he, hx⟩
    · exact .inl rfl
    · obtain rfl := Option.some.inj (hd.symm.trans he)
      exact .inr hx
  · rintro (rfl | hx)
    · exact .refl
    · exact .head hd hx

theorem num_le_of_parent (h : Tree root num t) (hd : t v = some d) : num d ≤ num v := by
  by_cases hroot : v = root
  · subst hroot
    rw [Option.some.inj (hd.symm.trans h.root_eq)]
  · exact (h.lt hroot hd).le

theorem num_le (h : Tree root num t) (hx : Up t v x) : num x ≤ num v := by
  induction hx with
  | refl => exact le_rfl
  | tail _ hd ih => exact (h.num_le_of_parent hd).trans ih

theorem isSome_of_up (h : Tree root num t) (hv : (t v).isSome) (hx : Up t v x) :
    (t x).isSome := by
  cases hx with
  | refl => exact hv
  | tail _ hd => exact h.parent_mem hd

theorem up_root_iff (h : Tree root num t) : Up t root x ↔ x = root := by
  constructor
  · intro hx
    induction hx with
    | refl => rfl
    | tail _ hd ih =>
      subst ih
      exact Option.some.inj (hd.symm.trans h.root_eq)
  · rintro rfl
    exact .refl

theorem up_antisymm (h : Tree root num t) (hv : (t v).isSome) (hx : Up t v x) (hv' : Up t x v) :
    x = v :=
  h.num_inj (h.isSome_of_up hv hx) hv (le_antisymm (h.num_le hx) (h.num_le hv'))

end Tree

section Climb

variable [DecidableEq V] (num : V → ℕ) (t : V → Option V)

/-- Climb from both, from the one with the larger number, until they meet; `none` if they do not
within the steps, or if there is nothing to climb to. -/
def climb : ℕ → V → V → Option V
  | 0, a, b => if a = b then some a else none
  | n + 1, a, b =>
    if a = b then some a
    else if num b < num a then (t a).bind fun a' ↦ climb n a' b
    else if num a < num b then (t b).bind fun b' ↦ climb n a b'
    else none

/-- Where what is met so far and `p` meet, unless `p` is not in the tree. -/
def meetStep (fuel : ℕ) (ni : Option V) (p : V) : Option (Option V) :=
  if (t p).isNone then some ni
  else
    match ni with
    | none => some (some p)
    | some q => (climb num t fuel p q).map some

/-- Where all of `ps` meet that are in the tree, if any is; `none` if a climb does not end. -/
def meet (fuel : ℕ) (ps : List V) : Option (Option V) :=
  ps.foldlM (meetStep num t fuel) none

variable {num t} {root : V}

/-- Two vertices of a tree meet, in what is above both. -/
theorem Tree.climb_spec (h : Tree root num t) {fuel : ℕ} {a b : V} (ha : (t a).isSome)
    (hb : (t b).isSome) (hfuel : num a + num b ≤ fuel) :
    ∃ c, climb num t fuel a b = some c ∧ ∀ x, Up t c x ↔ Up t a x ∧ Up t b x := by
  induction fuel generalizing a b with
  | zero =>
    obtain rfl := h.num_inj ha hb (by omega)
    exact ⟨a, if_pos rfl, fun x ↦ (and_self_iff).symm⟩
  | succ n ih =>
    rw [climb]
    by_cases hab : a = b
    · subst hab
      exact ⟨a, if_pos rfl, fun x ↦ (and_self_iff).symm⟩
    rw [if_neg hab]
    rcases lt_trichotomy (num a) (num b) with hlt | heq | hlt
    · -- The second is not the root: the first, with a smaller number, has the root above it.
      have hroot : b ≠ root := by
        rintro rfl
        exact absurd (h.num_le (h.up_root ha)) (not_le.2 hlt)
      obtain ⟨d, hd⟩ := Option.isSome_iff_exists.1 hb
      have hdb := h.lt hroot hd
      obtain ⟨c, hc, hup⟩ := ih ha (h.parent_mem hd) (by omega)
      rw [if_neg (by omega), if_pos hlt, hd, Option.bind_some]
      refine ⟨c, hc, fun x ↦ (hup x).trans (and_congr_right fun hx ↦ ?_)⟩
      rw [Tree.up_iff hd, or_iff_right]
      rintro rfl
      exact absurd (h.num_le hx) (not_le.2 hlt)
    · exact absurd (h.num_inj ha hb heq) hab
    · have hroot : a ≠ root := by
        rintro rfl
        exact absurd (h.num_le (h.up_root hb)) (not_le.2 hlt)
      obtain ⟨d, hd⟩ := Option.isSome_iff_exists.1 ha
      have hda := h.lt hroot hd
      obtain ⟨c, hc, hup⟩ := ih (h.parent_mem hd) hb (by omega)
      rw [if_pos hlt, hd, Option.bind_some]
      refine ⟨c, hc, fun x ↦ (hup x).trans (and_congr_left fun hx ↦ ?_)⟩
      rw [Tree.up_iff hd, or_iff_right]
      rintro rfl
      exact absurd (h.num_le hx) (not_le.2 hlt)

theorem Tree.meetStep_spec (h : Tree root num t) {fuel : ℕ}
    (hfuel : ∀ u v, (t u).isSome → (t v).isSome → num u + num v ≤ fuel) {ni : Option V} {p : V}
    (hni : ∀ q ∈ ni, (t q).isSome) :
    ∃ r, meetStep num t fuel ni p = some r ∧ (∀ q ∈ r, (t q).isSome) ∧
      (r = none ↔ ni = none ∧ t p = none) ∧
      ∀ c ∈ r, ∀ x, Up t c x ↔ (∀ q ∈ ni, Up t q x) ∧ ((t p).isSome → Up t p x) := by
  unfold meetStep
  cases hp : t p with
  | none =>
    refine ⟨ni, rfl, hni, by simp, fun c hc x ↦ ?_⟩
    obtain rfl := Option.mem_def.1 hc
    simp
  | some d =>
    have hsome : (t p).isSome := by simp [hp]
    cases ni with
    | none =>
      refine ⟨some p, rfl, by simpa using hsome, by simp, fun c hc x ↦ ?_⟩
      obtain rfl := Option.some.inj hc
      simp
    | some q =>
      obtain ⟨c, hc, hup⟩ := h.climb_spec hsome (hni q rfl) (hfuel p q hsome (hni q rfl))
      refine ⟨some c, by simp [hc], fun e he ↦ ?_, by simp, fun e he x ↦ ?_⟩
      · obtain rfl := Option.some.inj he
        exact h.isSome_of_up hsome ((hup c).1 .refl).1
      · obtain rfl := Option.some.inj he
        rw [hup]
        simp [and_comm]

theorem Tree.foldlM_meetStep (h : Tree root num t) {fuel : ℕ}
    (hfuel : ∀ u v, (t u).isSome → (t v).isSome → num u + num v ≤ fuel) (ps : List V)
    {ni : Option V} (hni : ∀ q ∈ ni, (t q).isSome) :
    ∃ r, ps.foldlM (meetStep num t fuel) ni = some r ∧
      (r = none ↔ ni = none ∧ ∀ p ∈ ps, t p = none) ∧
      ∀ c ∈ r, ∀ x, Up t c x ↔
        (∀ q ∈ ni, Up t q x) ∧ ∀ p ∈ ps, (t p).isSome → Up t p x := by
  induction ps generalizing ni with
  | nil =>
    refine ⟨ni, rfl, by simp, fun c hc x ↦ ?_⟩
    obtain rfl := Option.mem_def.1 hc
    simp
  | cons p ps ih =>
    obtain ⟨r, hr, hmem, hnone, hup⟩ := h.meetStep_spec hfuel hni (p := p)
    obtain ⟨r', hr', hnone', hup'⟩ := ih hmem
    refine ⟨r', ?_, ?_, fun c hc x ↦ ?_⟩
    · rw [List.foldlM_cons, hr]
      exact hr'
    · rw [hnone', hnone, List.forall_mem_cons, and_assoc]
    · rw [hup' c hc, List.forall_mem_cons, ← and_assoc]
      refine and_congr_left fun _ ↦ ?_
      cases hcase : r with
      | none =>
        obtain ⟨rfl, hpn⟩ := hnone.1 hcase
        simp [hpn]
      | some q => simpa using hup q (by rw [hcase]; rfl) x

/-- Vertices of a tree meet in what is above all of them. -/
theorem Tree.meet_spec (h : Tree root num t) {fuel : ℕ}
    (hfuel : ∀ u v, (t u).isSome → (t v).isSome → num u + num v ≤ fuel) {ps : List V} {p : V}
    (hp : p ∈ ps) (hpt : (t p).isSome) :
    ∃ c, meet num t fuel ps = some (some c) ∧
      ∀ x, Up t c x ↔ ∀ p ∈ ps, (t p).isSome → Up t p x := by
  obtain ⟨r, hr, hnone, hup⟩ :=
    h.foldlM_meetStep hfuel ps (by simp : ∀ q ∈ (none : Option V), (t q).isSome)
  cases r with
  | none =>
    have hpn := (hnone.1 rfl).2 p hp
    rw [hpn] at hpt
    cases hpt
  | some c => exact ⟨c, hr, fun x ↦ by simpa using hup c rfl x⟩

end Climb

/-! ### Walks and dominators -/

/-- What dominates a vertex strictly dominates its predecessors. -/
theorem dom_of_adj {G : Flowgraph V} {u v x : V} (hdom : G.Dom x v) (hne : x ≠ v)
    (hadj : G.Adj u v) : G.Dom x u :=
  fun hu ↦ hdom (hu.step hadj hne.symm)

theorem exists_adj_of_reachVia {G : Flowgraph V} {v : V} {P : V → Prop} (h : G.ReachVia P v)
    (hentry : v ≠ G.entry) :
    ∃ p, G.ReachVia (fun u ↦ P u ∧ u ≠ v) p ∧ G.Adj p v := by
  -- The vertex before the first visit of `v`.
  have hfirst : ∀ w, ReflTransGen (fun a b ↦ G.Adj a b ∧ P b) G.entry w →
      G.ReachVia (fun u ↦ P u ∧ u ≠ v) w ∨
        ∃ p, G.ReachVia (fun u ↦ P u ∧ u ≠ v) p ∧ G.Adj p v := by
    intro w hw
    induction hw with
    | refl => exact .inl (.entry_of ⟨h.1, hentry.symm⟩)
    | @tail a b _ hab ih =>
      rcases ih with ha | hp
      · by_cases hbv : b = v
        · exact .inr ⟨a, ha, hbv ▸ hab.1⟩
        · exact .inl (ha.step hab.1 ⟨hab.2, hbv⟩)
      · exact .inr hp
  rcases hfirst v h.2 with hv | hp
  · exact absurd rfl hv.prop.2
  · exact hp

theorem reachVia_of_forall {G : Flowgraph V} {v : V} {P Q : V → Prop} (h : G.ReachVia P v)
    (hPQ : ∀ w, G.ReachVia P w → Q w) : G.ReachVia Q v := by
  obtain ⟨he, hpath⟩ := h
  induction hpath with
  | refl => exact .entry_of (hPQ _ (.entry_of he))
  | tail hpath hab ih => exact ih.step hab.1 (hPQ _ ⟨he, hpath.tail hab⟩)

/-! ### Passes -/

/-- An order of the vertices in reach in which each but the entry stands behind one of its
predecessors, with lists of the predecessors. -/
structure Numbering [DecidableEq V] (G : Flowgraph V) where
  preds : V → List V
  mem_preds : ∀ {u v}, u ∈ preds v ↔ G.Adj u v
  order : List V
  nodup : order.Nodup
  mem_order : ∀ {v}, v ∈ order ↔ G.Reach v
  exists_pred : ∀ {v}, v ∈ order → v ≠ G.entry →
    ∃ p ∈ order, G.Adj p v ∧ order.idxOf p < order.idxOf v

namespace Numbering

variable [DecidableEq V] {G : Flowgraph V} (N : Numbering G)

/-- The place of a vertex in the order. -/
def num (v : V) : ℕ :=
  N.order.idxOf v

/-- Give a vertex the meet of its predecessors, if there is one. -/
def process (fuel : ℕ) (t : V → Option V) (v : V) : Option (V → Option V) :=
  if v = G.entry then some t
  else
    (meet N.num t fuel (N.preds v)).map fun r ↦
      match r with
      | some d => Function.update t v (some d)
      | none => t

/-- One pass over the order. -/
def pass (fuel : ℕ) (t : V → Option V) : Option (V → Option V) :=
  N.order.foldlM (N.process fuel) t

/-- The first table: only the entry is in it. -/
def init (G : Flowgraph V) : V → Option V :=
  Function.update (fun _ ↦ none) G.entry (some G.entry)

/-- The invariant of every table: a tree of vertices in reach, in which what dominates a vertex
strictly dominates its parent. -/
structure Sound (t : V → Option V) : Prop where
  tree : Tree G.entry N.num t
  mem_order : ∀ {v}, (t v).isSome → v ∈ N.order
  dom : ∀ {v d x}, v ≠ G.entry → t v = some d → G.Dom x v → x ≠ v → G.Dom x d

variable {N} {t m t' : V → Option V} {u v d x y : V} {fuel : ℕ}

theorem num_inj (hu : u ∈ N.order) (h : N.num u = N.num v) : u = v :=
  (List.idxOf_inj hu).1 h

theorem num_lt (hv : v ∈ N.order) : N.num v < N.order.length :=
  List.idxOf_lt_length_iff.2 hv

theorem entry_mem : G.entry ∈ N.order :=
  N.mem_order.2 Flowgraph.reach_entry

theorem sound_init : N.Sound (init G) := by
  have hinit {v d : V} : init G v = some d → v = G.entry ∧ d = G.entry := by
    intro hd
    by_cases hv : v = G.entry
    · rw [hv, init, Function.update_self] at hd
      exact ⟨hv, (Option.some.inj hd).symm⟩
    · rw [init, Function.update_of_ne hv] at hd
      cases hd
  have hentry {v : V} (hv : (init G v).isSome) : v = G.entry := by
    obtain ⟨d, hd⟩ := Option.isSome_iff_exists.1 hv
    exact (hinit hd).1
  refine ⟨⟨Function.update_self .., fun hv hd ↦ absurd (hinit hd).1 hv, fun hd ↦ ?_,
    fun hu hv _ ↦ (hentry hu).trans (hentry hv).symm⟩, fun hv ↦ hentry hv ▸ entry_mem,
    fun hv hd ↦ absurd (hinit hd).1 hv⟩
  rw [(hinit hd).2, init, Function.update_self]
  rfl

namespace Sound

/-- The climb from a vertex passes all of its dominators. -/
theorem up_of_dom (h : N.Sound t) (hv : (t v).isSome) (hdom : G.Dom x v) : Up t v x := by
  induction hn : N.num v using Nat.strong_induction_on generalizing v with
  | _ n ih =>
    by_cases hxv : x = v
    · exact hxv ▸ .refl
    · have hentry : v ≠ G.entry := by
        rintro rfl
        exact hxv (Flowgraph.eq_entry_of_dom_entry hdom)
      obtain ⟨d, hd⟩ := Option.isSome_iff_exists.1 hv
      exact .head hd (ih _ (hn ▸ h.tree.lt hentry hd) (h.tree.parent_mem hd)
        (h.dom hentry hd hdom hxv) rfl)

/-- On the climb from a vertex, what dominates it dominates each vertex up to the dominator. -/
theorem dom_or_lt (h : N.Sound t) (hv : Up t v y) (hdom : G.Dom x v) :
    G.Dom x y ∨ N.num y < N.num x := by
  induction hv using ReflTransGen.head_induction_on with
  | refl => exact .inl hdom
  | @head u d hd hup ih =>
    by_cases hentry : u = G.entry
    · subst hentry
      rw [Option.some.inj (hd.symm.trans h.tree.root_eq)] at ih
      exact ih hdom
    · by_cases hxu : x = u
      · subst hxu
        exact .inr ((h.tree.num_le hup).trans_lt (h.tree.lt hentry hd))
      · exact ih (h.dom hentry hd hdom hxu)

/-- Entering a parent that is above all predecessors in the tree. -/
theorem update (h : N.Sound t) (hv : v ∈ N.order) (hentry : v ≠ G.entry)
    (hup : ∀ x, Up t d x ↔ ∀ p ∈ N.preds v, (t p).isSome → Up t p x) {p : V}
    (hp : G.Adj p v) (hpt : (t p).isSome) (hlt : N.num p < N.num v) :
    N.Sound (Function.update t v (some d)) := by
  have hpd : Up t p d := (hup d).1 .refl p (N.mem_preds.2 hp) hpt
  have hdt : (t d).isSome := h.tree.isSome_of_up hpt hpd
  have hmem {w : V} (hw : (Function.update t v (some d) w).isSome) : w ∈ N.order := by
    by_cases hwv : w = v
    · exact hwv ▸ hv
    · rw [Function.update_of_ne hwv] at hw
      exact h.mem_order hw
  have hstay {w : V} (hw : (t w).isSome) : (Function.update t v (some d) w).isSome := by
    by_cases hwv : w = v
    · rw [hwv, Function.update_self]
      rfl
    · rwa [Function.update_of_ne hwv]
  refine ⟨⟨?_, fun {w e} hw he ↦ ?_, fun {w e} he ↦ ?_, fun hu hw heq ↦ num_inj (hmem hu) heq⟩,
    hmem, fun {w e x} hw he hdom hne ↦ ?_⟩
  · rw [Function.update_of_ne hentry.symm, h.tree.root_eq]
  · by_cases hwv : w = v
    · subst hwv
      rw [Function.update_self] at he
      obtain rfl := Option.some.inj he
      exact (h.tree.num_le hpd).trans_lt hlt
    · rw [Function.update_of_ne hwv] at he
      exact h.tree.lt hw he
  · by_cases hwv : w = v
    · rw [hwv, Function.update_self] at he
      obtain rfl := Option.some.inj he
      exact hstay hdt
    · rw [Function.update_of_ne hwv] at he
      exact hstay (h.tree.parent_mem he)
  · by_cases hwv : w = v
    · subst hwv
      rw [Function.update_self] at he
      obtain rfl := Option.some.inj he
      -- The dominator is above all predecessors, so above their meet, and not below it.
      have hxd : Up t d x := (hup x).2 fun q hq hqt ↦
        h.up_of_dom hqt (dom_of_adj hdom hne (N.mem_preds.1 hq))
      exact (h.dom_or_lt hpd (dom_of_adj hdom hne hp)).resolve_right
        (not_lt.2 (h.tree.num_le hxd))
    · rw [Function.update_of_ne hwv] at he
      exact h.dom hw he hdom hne

end Sound

/-! ### One pass -/

theorem process_of_ne (h : N.process fuel t v = some t') (hu : u ≠ v) : t' u = t u := by
  unfold process at h
  split at h
  · rw [Option.some.inj h]
  · obtain ⟨r, -, hr⟩ := Option.map_eq_some_iff.1 h
    cases r with
    | none => rw [← hr]
    | some d =>
      rw [← hr]
      exact Function.update_of_ne hu _ _

theorem foldlM_process_of_not_mem {l : List V} (h : l.foldlM (N.process fuel) t = some t')
    (hu : u ∉ l) : t' u = t u := by
  induction l generalizing t with
  | nil => rw [Option.some.inj h]
  | cons v l ih =>
    rw [List.foldlM_cons] at h
    obtain ⟨m, hm, hl⟩ := Option.bind_eq_some_iff.1 h
    rw [List.mem_cons, not_or] at hu
    rw [ih hl hu.2, process_of_ne hm hu.1]

/-- Processing a vertex behind one of its predecessors that is in the tree. -/
theorem Sound.process (h : N.Sound t) (hfuel : 2 * N.order.length ≤ fuel) (hv : v ∈ N.order)
    (hentry : v ≠ G.entry) {p : V} (hp : G.Adj p v) (hpt : (t p).isSome)
    (hlt : N.num p < N.num v) :
    ∃ d, N.process fuel t v = some (Function.update t v (some d)) ∧
      N.Sound (Function.update t v (some d)) ∧
      ∀ x, Up t d x ↔ ∀ p ∈ N.preds v, (t p).isSome → Up t p x := by
  have hfuel' : ∀ u v, (t u).isSome → (t v).isSome → N.num u + N.num v ≤ fuel := by
    intro u v hu hv
    have hu := num_lt (h.mem_order hu)
    have hv := num_lt (h.mem_order hv)
    omega
  obtain ⟨d, hd, hup⟩ := h.tree.meet_spec hfuel' (N.mem_preds.2 hp) hpt
  exact ⟨d, by rw [Numbering.process, if_neg hentry, hd]; rfl,
    h.update hv hentry hup hp hpt hlt, hup⟩

/-- Processing the first vertices of the order. -/
theorem Sound.foldlM (h : N.Sound t) (hfuel : 2 * N.order.length ≤ fuel) {l : List V}
    (hl : l <+: N.order) :
    ∃ m, l.foldlM (N.process fuel) t = some m ∧ N.Sound m ∧ ∀ v ∈ l, (m v).isSome := by
  induction l using List.reverseRecOn with
  | nil => exact ⟨t, rfl, h, by simp⟩
  | append_singleton l v ih =>
    obtain ⟨post, hpost⟩ := hl
    obtain ⟨m, hm, hsound, hdone⟩ := ih ⟨v :: post, by rw [← hpost]; simp⟩
    have horder : N.order = l ++ v :: post := by rw [← hpost]; simp
    have hv : v ∈ N.order := by rw [horder]; simp
    rw [List.foldlM_append, hm]
    by_cases hentry : v = G.entry
    · refine ⟨m, ?_, hsound, fun u hu ↦ ?_⟩
      · rw [Option.bind_eq_bind, Option.bind_some, List.foldlM_cons, Numbering.process,
          if_pos hentry]
        rfl
      · rcases List.mem_append.1 hu with hu | hu
        · exact hdone u hu
        · rw [List.mem_singleton.1 hu, hentry, hsound.tree.root_eq]
          rfl
    · obtain ⟨p, hp, hadj, hlt⟩ := N.exists_pred hv hentry
      have hpl : p ∈ l := by
        have hnodup := N.nodup
        rw [horder, List.nodup_append] at hnodup
        have hvl : v ∉ l := fun hvl ↦ hnodup.2.2 v hvl v (List.mem_cons_self ..) rfl
        by_contra hpl
        rw [horder, List.idxOf_append_of_notMem hpl, List.idxOf_append_of_notMem hvl,
          List.idxOf_cons_self] at hlt
        omega
      obtain ⟨d, hd, hsound', -⟩ := hsound.process hfuel hv hentry hadj (hdone p hpl) hlt
      refine ⟨Function.update m v (some d), ?_, hsound', fun u hu ↦ ?_⟩
      · rw [Option.bind_eq_bind, Option.bind_some, List.foldlM_cons, hd]
        rfl
      · by_cases huv : u = v
        · rw [huv, Function.update_self]
          rfl
        · rw [Function.update_of_ne huv]
          exact hdone u ((List.mem_append.1 hu).resolve_right (by simpa using huv))

/-- **A pass ends**: from a table with the invariant every climb ends, and all vertices in reach are
in the table it leaves, which has the invariant as well. -/
theorem Sound.exists_pass (h : N.Sound t) (hfuel : 2 * N.order.length ≤ fuel) :
    ∃ t', N.pass fuel t = some t' ∧ N.Sound t' ∧ ∀ v ∈ N.order, (t' v).isSome :=
  h.foldlM hfuel List.prefix_rfl

/-- What a pass does to a vertex: its parent is the meet of its predecessors in a table `m` that is
the new one up to the vertex and the old one from there on. -/
theorem Sound.pass_apply (h : N.Sound t) (hfuel : 2 * N.order.length ≤ fuel)
    (hpass : N.pass fuel t = some t') (hv : v ∈ N.order) (hentry : v ≠ G.entry) :
    ∃ m d, N.Sound m ∧ (∀ u ∈ N.order, N.num u < N.num v → m u = t' u ∧ (m u).isSome) ∧
      (∀ u, N.num v ≤ N.num u → m u = t u) ∧ t' v = some d ∧
      ∀ x, Up m d x ↔ ∀ p ∈ N.preds v, (m p).isSome → Up m p x := by
  obtain ⟨pre, post, horder⟩ := List.append_of_mem hv
  have hnodup := N.nodup
  rw [horder, List.nodup_append, List.nodup_cons] at hnodup
  have hvpre : v ∉ pre := fun hvl ↦ hnodup.2.2 v hvl v (List.mem_cons_self ..) rfl
  have hnum : N.num v = pre.length := by
    rw [num, horder, List.idxOf_append_of_notMem hvpre, List.idxOf_cons_self, Nat.add_zero]
  have hmem_pre {u : V} : u ∈ pre ↔ N.num u < N.num v := by
    rw [hnum, num, horder]
    constructor
    · intro hu
      rw [List.idxOf_append_of_mem hu]
      exact List.idxOf_lt_length_iff.2 hu
    · intro hlt
      by_contra hu
      rw [List.idxOf_append_of_notMem hu] at hlt
      omega
  obtain ⟨m, hm, hsound, hdone⟩ := h.foldlM hfuel (⟨v :: post, horder.symm⟩ : pre <+: N.order)
  obtain ⟨p, hp, hadj, hlt⟩ := N.exists_pred hv hentry
  obtain ⟨d, hd, -, hup⟩ :=
    hsound.process hfuel hv hentry hadj (hdone p (hmem_pre.2 hlt)) hlt
  rw [pass, horder, List.foldlM_append, hm, Option.bind_eq_bind, Option.bind_some,
    List.foldlM_cons, hd, Option.bind_eq_bind, Option.bind_some] at hpass
  refine ⟨m, d, hsound, fun u _ hlt ↦ ?_, fun u hle ↦ ?_, ?_, hup⟩
  · have hu := hmem_pre.2 hlt
    refine ⟨?_, hdone u hu⟩
    have hpost : u ∉ post := fun hup ↦ hnodup.2.2 u hu u (List.mem_cons_of_mem _ hup) rfl
    rw [foldlM_process_of_not_mem hpass hpost, Function.update_of_ne]
    rintro rfl
    exact hvpre hu
  · exact foldlM_process_of_not_mem hm fun hu ↦ absurd (hmem_pre.1 hu) (not_lt.2 hle)
  · rw [foldlM_process_of_not_mem hpass hnodup.2.1.1, Function.update_self]

/-! ### Passes one after the other -/

/-- The tables after `k` passes. -/
def tables (N : Numbering G) (fuel k : ℕ) : V → Option V :=
  (fun t ↦ (N.pass fuel t).getD t)^[k] (init G)

theorem sound_tables (hfuel : 2 * N.order.length ≤ fuel) (k : ℕ) : N.Sound (N.tables fuel k) := by
  induction k with
  | zero => exact sound_init
  | succ k ih =>
    obtain ⟨t', ht', hsound, -⟩ := ih.exists_pass hfuel
    rw [tables, Function.iterate_succ_apply', ← tables, ht']
    exact hsound

theorem pass_tables (hfuel : 2 * N.order.length ≤ fuel) (k : ℕ) :
    N.pass fuel (N.tables fuel k) = some (N.tables fuel (k + 1)) := by
  obtain ⟨t', ht', -⟩ := (sound_tables hfuel k).exists_pass hfuel
  rw [tables, tables, Function.iterate_succ_apply', ← tables, ht']
  rfl

theorem isSome_tables (hfuel : 2 * N.order.length ≤ fuel) (k : ℕ) (hv : v ∈ N.order) :
    (N.tables fuel (k + 1) v).isSome := by
  obtain ⟨t', ht', -, hdone⟩ := (sound_tables hfuel k).exists_pass hfuel
  rw [pass_tables hfuel] at ht'
  exact Option.some.inj ht' ▸ hdone v hv

/-- A walk from the entry to a vertex through the vertices of a set, with the number of its edges
that lead back in the order. -/
inductive Walk (N : Numbering G) : V → Set V → ℕ → Prop
  | entry : Walk N G.entry {G.entry} 0
  | step {u v : V} {S : Set V} {r : ℕ} (hwalk : Walk N u S r) (hadj : G.Adj u v) :
      Walk N v (insert v S) (if N.num v ≤ N.num u then r + 1 else r)

theorem Walk.mem {S : Set V} {r : ℕ} (h : N.Walk v S r) : v ∈ S := by
  cases h with
  | entry => rfl
  | step => exact Set.mem_insert _ _

theorem Walk.reach {S : Set V} {r : ℕ} (h : N.Walk v S r) : G.Reach v := by
  induction h with
  | entry => exact Flowgraph.reach_entry
  | step _ hadj ih => exact ih.step hadj

/-- Two tables that agree on the numbers up to that of a vertex have the same climb from it. -/
theorem Sound.up_congr (h : N.Sound t) {n : ℕ} (heq : ∀ u ∈ N.order, N.num u < n → t u = m u)
    (hu : (t u).isSome) (hlt : N.num u < n) (hx : Up t u x) : Up m u x := by
  induction hx using ReflTransGen.head_induction_on with
  | refl => exact .refl
  | @head u d hd _ ih =>
    have hum : m u = some d := by rw [← heq u (h.mem_order hu) hlt, hd]
    exact .head hum (ih (h.tree.parent_mem hd) ((h.tree.num_le_of_parent hd).trans_lt hlt))

/-- A climb in a table that is new below a number and old from there on goes along the old table,
and along the new one from the first smaller number on. -/
theorem Sound.up_split (h : N.Sound m) {n : ℕ} (hnew : ∀ u ∈ N.order, N.num u < n → m u = t' u)
    (hold : ∀ u, n ≤ N.num u → m u = t u) (hu : (m u).isSome) (hx : Up m u x) :
    Up t u x ∨ ∃ w, Up t u w ∧ Up t' w x := by
  induction hx using ReflTransGen.head_induction_on with
  | refl => exact .inl .refl
  | @head w e he hex ih =>
    rcases lt_or_ge (N.num w) n with hlt | hle
    · exact .inr ⟨w, .refl, h.up_congr hnew hu hlt (.head he hex)⟩
    · have hwe : t w = some e := by rw [← hold w hle, he]
      rcases ih (h.tree.parent_mem he) with h | ⟨z, hz, hzx⟩
      · exact .inl (.head hwe h)
      · exact .inr ⟨z, .head hwe hz, hzx⟩

/-- **After `k` passes the climb from a vertex stays on each walk with less than `k` edges that
lead back.** An edge that leads forward was looked at in the same pass. At one that leads back the
climb goes along the table before, on the walk without its last edge, until it comes to a vertex
with a smaller number, which is on the walk and was looked at in the same pass. -/
theorem Walk.mem_of_up (hfuel : 2 * N.order.length ≤ fuel) {S : Set V} {r : ℕ}
    (h : N.Walk v S r) {k : ℕ} (hk : r < k) (hx : x ∈ S) (hup : Up (N.tables fuel k) x y) :
    y ∈ S := by
  induction h generalizing k x y with
  | entry =>
    obtain rfl := Set.mem_singleton_iff.1 hx
    exact Set.mem_singleton_iff.2 ((sound_tables hfuel k).tree.up_root_iff.1 hup)
  | @step u v S r hwalk hadj ih =>
    have hr : r ≤ if N.num v ≤ N.num u then r + 1 else r := by split <;> omega
    rcases Set.mem_insert_iff.1 hx with rfl | hx
    swap
    · exact Set.mem_insert_of_mem _ (ih (hr.trans_lt hk) hx hup)
    obtain ⟨k, rfl⟩ : ∃ j, k = j + 1 := ⟨k - 1, by omega⟩
    by_cases hentry : x = G.entry
    · rw [hentry] at hup
      rw [(sound_tables hfuel _).tree.up_root_iff.1 hup, ← hentry]
      exact Set.mem_insert _ _
    have hsound := sound_tables (N := N) hfuel k
    have hsound' := sound_tables (N := N) hfuel (k + 1)
    have hxorder : x ∈ N.order := N.mem_order.2 (hwalk.reach.step hadj)
    have huorder : u ∈ N.order := N.mem_order.2 hwalk.reach
    obtain ⟨m, d, hm, hnew, hold, hd, hmeet⟩ :=
      hsound.pass_apply hfuel (pass_tables hfuel k) hxorder hentry
    rcases (Tree.up_iff hd).1 hup with rfl | hup
    · exact Set.mem_insert _ _
    refine Set.mem_insert_of_mem _ ?_
    -- The parent stands before the vertex, so that the climb from it is the same in `m`.
    have hdy : Up m d y :=
      hsound'.up_congr (fun w hw hlt ↦ (hnew w hw hlt).1.symm) (hsound'.tree.parent_mem hd)
        (hsound'.tree.lt hentry hd) hup
    have hback {w z : V} (hw : (m w).isSome) (hlt : N.num w < N.num x) (hz : Up m w z) :
        Up (N.tables fuel (k + 1)) w z :=
      hm.up_congr (fun w hw hlt ↦ (hnew w hw hlt).1) hw hlt hz
    have huS : u ∈ S := hwalk.mem
    split at hk
    · next hle =>
      have hut : (m u).isSome := by
        rw [hold u hle]
        obtain ⟨j, rfl⟩ : ∃ j, k = j + 1 := ⟨k - 1, by omega⟩
        exact isSome_tables hfuel j huorder
      have huy : Up m u y := (hmeet y).1 hdy u (N.mem_preds.2 hadj) hut
      have hclimb := hm.up_split (fun w hw hlt ↦ (hnew w hw hlt).1) hold hut huy
      rcases hclimb with h | ⟨w, hw, hwy⟩
      · exact ih (by omega) huS h
      · exact ih (by omega) (ih (by omega) huS hw) hwy
    · next hlt =>
      have hlt : N.num u < N.num x := not_le.1 hlt
      have hut := (hnew u huorder hlt).2
      have huy : Up m u y := (hmeet y).1 hdy u (N.mem_preds.2 hadj) hut
      exact ih hk huS (hback hut hlt huy)

/-! ### Enough passes -/

/-- A vertex that is in reach through a finite set is so by a walk with less edges than the set has
vertices. -/
theorem exists_walk {A : Finset V} (h : G.ReachVia (· ∈ A) v) :
    ∃ S r, N.Walk v S r ∧ S ⊆ A ∧ r < A.card := by
  induction hn : A.card using Nat.strong_induction_on generalizing A v with
  | _ n ih =>
    by_cases hentry : v = G.entry
    · subst hentry
      refine ⟨_, 0, .entry, Set.singleton_subset_iff.2 h.1, ?_⟩
      exact hn ▸ Finset.card_pos.2 ⟨_, h.1⟩
    · obtain ⟨p, hp, hadj⟩ := exists_adj_of_reachVia h hentry
      have hcard : (A.erase v).card + 1 = A.card := Finset.card_erase_add_one h.prop
      have hp' : G.ReachVia (· ∈ A.erase v) p := by
        simpa only [Finset.mem_erase, and_comm] using hp
      obtain ⟨S, r, hwalk, hS, hr⟩ := ih _ (by omega) hp' rfl
      refine ⟨_, _, hwalk.step hadj, Set.insert_subset h.prop fun x hx ↦ ?_, ?_⟩
      · exact Finset.mem_of_mem_erase (hS hx)
      · split <;> omega

/-- **The climb passes exactly the dominators**, after as many passes as there are vertices. -/
theorem up_iff_dom (hfuel : 2 * N.order.length ≤ fuel) {k : ℕ} (hk : N.order.length ≤ k)
    (hv : v ∈ N.order) : Up (N.tables fuel k) v x ↔ G.Dom x v := by
  have hpos : 0 < N.order.length := List.length_pos_of_mem hv
  obtain ⟨j, rfl⟩ : ∃ j, k = j + 1 := ⟨k - 1, by omega⟩
  refine ⟨fun hup hreach ↦ ?_, fun hdom ↦
    (sound_tables hfuel _).up_of_dom (isSome_tables hfuel j hv) hdom⟩
  -- A walk without `x` is short, and the climb stays on it.
  have hset : G.ReachVia (· ∈ N.order.toFinset.erase x) v := reachVia_of_forall hreach fun w hw ↦
    Finset.mem_erase.2 ⟨hw.prop, List.mem_toFinset.2 (N.mem_order.2 hw.reach)⟩
  obtain ⟨S, r, hwalk, hS, hr⟩ := exists_walk (N := N) hset
  have hcard : (N.order.toFinset.erase x).card ≤ N.order.length :=
    (Finset.card_erase_le).trans (List.toFinset_card_le _)
  have hx := hwalk.mem_of_up hfuel (by omega : r < j + 1) hwalk.mem hup
  exact Finset.notMem_erase x _ (hS hx)

/-- Then one more pass changes nothing. -/
theorem tables_succ_eq (hfuel : 2 * N.order.length ≤ fuel) {k : ℕ} (hk : N.order.length ≤ k) :
    N.tables fuel (k + 1) = N.tables fuel k := by
  have hsound := sound_tables (N := N) hfuel k
  have hsound' := sound_tables (N := N) hfuel (k + 1)
  have hpos : 0 < N.order.length := List.length_pos_of_mem entry_mem
  funext v
  by_cases hv : v ∈ N.order
  swap
  · rw [Option.not_isSome_iff_eq_none.1 fun h ↦ hv (hsound.mem_order h),
      Option.not_isSome_iff_eq_none.1 fun h ↦ hv (hsound'.mem_order h)]
  by_cases hentry : v = G.entry
  · rw [hentry, hsound.tree.root_eq, hsound'.tree.root_eq]
  obtain ⟨j, rfl⟩ : ∃ j, k = j + 1 := ⟨k - 1, by omega⟩
  obtain ⟨d, hd⟩ := Option.isSome_iff_exists.1 (isSome_tables hfuel j hv)
  obtain ⟨e, he⟩ := Option.isSome_iff_exists.1 (isSome_tables hfuel (j + 1) hv)
  -- Both parents are strict dominators that all other strict dominators dominate.
  have hdlt := hsound.tree.lt hentry hd
  have helt := hsound'.tree.lt hentry he
  have hdv : Up (N.tables fuel (j + 1 + 1)) v d :=
    (up_iff_dom hfuel (by omega) hv).2
      ((up_iff_dom hfuel hk hv).1 ((Tree.up_iff hd).2 (.inr .refl)))
  have hev : Up (N.tables fuel (j + 1)) v e :=
    (up_iff_dom hfuel hk hv).2
      ((up_iff_dom hfuel (by omega) hv).1 ((Tree.up_iff he).2 (.inr .refl)))
  have hde : N.num d ≤ N.num e := by
    rcases (Tree.up_iff he).1 hdv with rfl | h
    · exact absurd hdlt (lt_irrefl _)
    · exact hsound'.tree.num_le h
  have hed : N.num e ≤ N.num d := by
    rcases (Tree.up_iff hd).1 hev with rfl | h
    · exact absurd helt (lt_irrefl _)
    · exact hsound.tree.num_le h
  rw [hd, he, num_inj (hsound.mem_order (hsound.tree.parent_mem hd)) (le_antisymm hde hed)]

/-- And the parent of a vertex is its closest strict dominator. -/
theorem tables_closest (hfuel : 2 * N.order.length ≤ fuel) {k : ℕ} (hk : N.order.length ≤ k)
    (hentry : v ≠ G.entry) (hd : N.tables fuel k v = some d) :
    d ≠ v ∧ G.Dom d v ∧ ∀ x, x ≠ v → G.Dom x v → G.Dom x d := by
  have hsound := sound_tables (N := N) hfuel k
  have hv := hsound.mem_order (Option.isSome_iff_exists.2 ⟨d, hd⟩)
  refine ⟨?_, (up_iff_dom hfuel hk hv).1 (.single hd), fun x hx hdom ↦ hsound.dom hentry hd hdom hx⟩
  rintro rfl
  exact lt_irrefl _ (hsound.tree.lt hentry hd)

theorem isSome_tables_iff (hfuel : 2 * N.order.length ≤ fuel) {k : ℕ} (hk : N.order.length ≤ k) :
    (N.tables fuel k v).isSome ↔ G.Reach v := by
  have hpos : 0 < N.order.length := List.length_pos_of_mem entry_mem
  obtain ⟨j, rfl⟩ : ∃ j, k = j + 1 := ⟨k - 1, by omega⟩
  exact ⟨fun h ↦ N.mem_order.1 ((sound_tables hfuel _).mem_order h),
    fun h ↦ isSome_tables hfuel j (N.mem_order.2 h)⟩

end Numbering

end Idom
