import Mathlib.Logic.Relation
import Mathlib.Order.WellFounded
import Mathlib.Data.Fintype.EquivFin
import Mathlib.Data.Fintype.Order

/-!
# Flowgraphs, dominance and reducibility

A **flowgraph** is a directed graph with a distinguished entry vertex. This module develops
the order theory that an interval-style reducibility test rests on, over an arbitrary vertex
type: nothing here knows what a vertex stands for.

* `Reach`/`ReachVia` — walks from the entry, optionally confined to a set of vertices;
* `Dom d v` — every walk from the entry to `v` meets `d`, phrased as "`v` is out of reach
  once `d` is forbidden";
* `Fwd` — the edges that survive when every edge whose head dominates its tail is deleted;
* `Reducible` — the surviving edges form no cycle.

Reducibility is then shown invariant under the two collapsing moves, deletion of self-loops
(`reducible_iff_of_selfLoops`) and contraction of a vertex into its only predecessor
(`reducible_contract_iff`), and it is shown that a reducible flowgraph in which neither move
applies has a single reachable vertex (`Reducible.exists_unique_pred`).
-/

open Relation

/-- A directed graph with an entry vertex. -/
structure Flowgraph (V : Type*) where
  /-- The entry vertex. -/
  entry : V
  /-- The edge relation. -/
  Adj : V → V → Prop

namespace Flowgraph

variable {V : Type*} (G : Flowgraph V)

/-! ### Walks from the entry -/

/-- `v` is reached from the entry by a walk all of whose vertices satisfy `P`. -/
def ReachVia (P : V → Prop) (v : V) : Prop :=
  P G.entry ∧ ReflTransGen (fun a b ↦ G.Adj a b ∧ P b) G.entry v

/-- `v` is reached from the entry. -/
def Reach (v : V) : Prop :=
  ReflTransGen G.Adj G.entry v

/-- `d` **dominates** `v`: with `d` forbidden, `v` is out of reach. -/
def Dom (d v : V) : Prop :=
  ¬ G.ReachVia (· ≠ d) v

/-- The edges kept when every edge whose head dominates its tail is deleted, restricted to
the part reachable from the entry. -/
def Fwd (u v : V) : Prop :=
  G.Reach u ∧ G.Adj u v ∧ ¬ G.Dom v u

/-- Deleting the edges whose head dominates their tail leaves no cycle. -/
def Reducible : Prop :=
  ∀ v, ¬ TransGen G.Fwd v v

variable {G}

theorem ReachVia.entry_of {P : V → Prop} (h : P G.entry) : G.ReachVia P G.entry :=
  ⟨h, .refl⟩

theorem ReachVia.step {P : V → Prop} {u v : V} (hu : G.ReachVia P u) (huv : G.Adj u v)
    (hv : P v) : G.ReachVia P v :=
  ⟨hu.1, hu.2.tail ⟨huv, hv⟩⟩

theorem ReachVia.prop {P : V → Prop} {v : V} (h : G.ReachVia P v) : P v := by
  obtain ⟨he, hp⟩ := h
  cases hp with
  | refl => exact he
  | tail _ hlast => exact hlast.2

theorem ReachVia.reach {P : V → Prop} {v : V} (h : G.ReachVia P v) : G.Reach v :=
  h.2.lift id fun _ _ hab ↦ hab.1

theorem reach_entry : G.Reach G.entry :=
  .refl

theorem Reach.step {u v : V} (hu : G.Reach u) (huv : G.Adj u v) : G.Reach v :=
  hu.tail huv

theorem reach_iff_reachVia {v : V} : G.Reach v ↔ G.ReachVia (fun _ ↦ True) v := by
  constructor
  · intro h
    induction h with
    | refl => exact .entry_of trivial
    | tail _ huv ih => exact ih.step huv trivial
  · exact ReachVia.reach

/-! ### Dominance -/

theorem dom_self (v : V) : G.Dom v v :=
  fun h ↦ h.prop rfl

theorem dom_entry (v : V) : G.Dom G.entry v :=
  fun h ↦ h.1 rfl

theorem eq_entry_of_dom_entry {d : V} (h : G.Dom d G.entry) : d = G.entry := by
  by_contra hne
  exact h (.entry_of (Ne.symm hne))

/-- A dominator of a vertex dominates each of its predecessors, unless it is the vertex. -/
theorem Dom.of_adj {d u v : V} (h : G.Dom d v) (huv : G.Adj u v) (hne : v ≠ d) :
    G.Dom d u :=
  fun hu ↦ h (hu.step huv hne)

/-- A walk to `c` that avoids `a` passes through every dominator of `c`. -/
theorem ReachVia.of_dom {a b c : V} (hac : G.ReachVia (· ≠ a) c) (hbc : G.Dom b c) :
    G.ReachVia (· ≠ a) b := by
  have key : G.ReachVia (· ≠ b) c ∨ G.ReachVia (· ≠ a) b := by
    obtain ⟨he, hp⟩ := hac
    clear hbc
    induction hp with
    | refl =>
      rcases eq_or_ne G.entry b with rfl | hne
      · exact .inr (.entry_of he)
      · exact .inl (.entry_of hne)
    | @tail u v hu huv ih =>
      rcases eq_or_ne v b with rfl | hne
      · exact .inr (ReachVia.step ⟨he, hu⟩ huv.1 huv.2)
      · exact ih.imp_left fun h ↦ h.step huv.1 hne
  exact key.resolve_left hbc

theorem Dom.trans {a b c : V} (hab : G.Dom a b) (hbc : G.Dom b c) : G.Dom a c :=
  fun hac ↦ hab (hac.of_dom hbc)

/-- A dominator of a reachable vertex is reachable. -/
theorem Dom.reach {d v : V} (hdom : G.Dom d v) (hv : G.Reach v) : G.Reach d := by
  by_contra hd
  -- A walk to `v` passes only vertices in reach, hence avoids `d`.
  suffices h : ∀ x, G.Reach x → G.ReachVia (· ≠ d) x from hdom (h v hv)
  intro x hx
  induction hx with
  | refl => exact .entry_of fun h ↦ hd (h ▸ reach_entry)
  | tail hu huv ih => exact ih.step huv fun h ↦ hd (h ▸ Reach.step hu huv)

/-- Of two distinct reachable vertices, one is reached without meeting the other. -/
theorem Reach.reachVia_or {a b v : V} (hv : G.Reach v) (hab : a ≠ b) :
    (v ≠ a ∧ v ≠ b) ∨ G.ReachVia (· ≠ b) a ∨ G.ReachVia (· ≠ a) b := by
  suffices h : (G.ReachVia (fun x ↦ x ≠ a ∧ x ≠ b) v) ∨
      G.ReachVia (· ≠ b) a ∨ G.ReachVia (· ≠ a) b from
    h.imp_left fun h ↦ h.prop
  have weaken : ∀ {x y : V} (P : V → Prop), G.ReachVia (fun z ↦ P z ∧ z ≠ y) x →
      G.ReachVia (· ≠ y) x := fun P h ↦
    ⟨h.1.2, h.2.lift id fun _ _ hxy ↦ ⟨hxy.1, hxy.2.2⟩⟩
  have weaken' : ∀ {x y : V} (P : V → Prop), G.ReachVia (fun z ↦ z ≠ y ∧ P z) x →
      G.ReachVia (· ≠ y) x := fun P h ↦
    ⟨h.1.1, h.2.lift id fun _ _ hxy ↦ ⟨hxy.1, hxy.2.1⟩⟩
  induction hv with
  | refl =>
    rcases eq_or_ne G.entry a with rfl | ha
    · exact .inr (.inl (.entry_of hab))
    rcases eq_or_ne G.entry b with rfl | hb
    · exact .inr (.inr (.entry_of hab.symm))
    exact .inl (.entry_of ⟨ha, hb⟩)
  | @tail u v _ huv ih =>
    rcases ih with ih | ih
    · rcases eq_or_ne v a with rfl | ha
      · exact .inr (.inl ((weaken _ ih).step huv hab))
      rcases eq_or_ne v b with rfl | hb
      · exact .inr (.inr ((weaken' _ ih).step huv hab.symm))
      exact .inl (ih.step huv ⟨ha, hb⟩)
    · exact .inr ih

theorem Dom.antisymm {a b : V} (ha : G.Reach a) (hab : G.Dom a b) (hba : G.Dom b a) :
    a = b := by
  by_contra hne
  rcases ha.reachVia_or hne with h | h | h
  · exact h.1 rfl
  · exact hba h
  · exact hab h

/-! ### The surviving edges still span the reachable part -/

theorem Fwd.ne {u v : V} (h : G.Fwd u v) : u ≠ v := by
  rintro rfl
  exact h.2.2 (dom_self u)

/-- `v` ends a walk of `n` edges from the entry. -/
inductive WalkLength (G : Flowgraph V) : ℕ → V → Prop
  | zero : WalkLength G 0 G.entry
  | succ {n : ℕ} {u v : V} : WalkLength G n u → G.Adj u v → WalkLength G (n + 1) v

theorem Reach.exists_walkLength {v : V} (h : G.Reach v) : ∃ n, G.WalkLength n v := by
  induction h with
  | refl => exact ⟨0, .zero⟩
  | tail _ huv ih =>
    obtain ⟨n, hn⟩ := ih
    exact ⟨n + 1, hn.succ huv⟩

theorem WalkLength.reach {n : ℕ} {v : V} (h : G.WalkLength n v) : G.Reach v := by
  induction h with
  | zero => exact reach_entry
  | succ _ huv ih => exact ih.step huv

/-- A walk to `u` either avoids `d` or has an initial part ending at `d`. -/
theorem WalkLength.avoids_or {n : ℕ} {u : V} (d : V) (h : G.WalkLength n u) :
    G.ReachVia (· ≠ d) u ∨ ∃ m ≤ n, G.WalkLength m d := by
  induction h with
  | zero =>
    rcases eq_or_ne G.entry d with rfl | hne
    · exact .inr ⟨0, le_rfl, .zero⟩
    · exact .inl (.entry_of hne)
  | @succ n u v hu huv ih =>
    rcases eq_or_ne v d with rfl | hne
    · exact .inr ⟨n + 1, le_rfl, hu.succ huv⟩
    · refine ih.imp (fun h ↦ h.step huv hne) ?_
      rintro ⟨m, hm, hd⟩
      exact ⟨m, Nat.le_succ_of_le hm, hd⟩

/-- Every reachable vertex is reached along surviving edges alone. The induction is on the
length of a walk: an edge into a dominator of its tail closes a detour, and cutting the
detour shortens the walk. -/
theorem Reach.fwd {v : V} (h : G.Reach v) : ReflTransGen G.Fwd G.entry v := by
  obtain ⟨n, hn⟩ := h.exists_walkLength
  induction n using Nat.strong_induction_on generalizing v with
  | _ n ih =>
    cases hn with
    | zero => exact .refl
    | @succ n u _ hu huv =>
      rcases hu.avoids_or v with hoff | ⟨m, hm, hv⟩
      · exact (ih n (Nat.lt_succ_self n) hu.reach hu).tail ⟨hu.reach, huv, fun hd ↦ hd hoff⟩
      · exact ih m (Nat.lt_succ_of_le hm) hv.reach hv

/-- A walk along surviving edges to `w` passes through every dominator of `w`. -/
theorem Dom.fwd {d w : V} (hd : G.Dom d w) (hw : G.Reach w) : ReflTransGen G.Fwd d w := by
  suffices h : G.ReachVia (· ≠ d) w ∨ ReflTransGen G.Fwd d w from h.resolve_left hd
  have hp := hw.fwd
  clear hd hw
  induction hp with
  | refl =>
    rcases eq_or_ne G.entry d with rfl | hne
    · exact .inr .refl
    · exact .inl (.entry_of hne)
  | @tail u v _ huv ih =>
    rcases ih with ih | ih
    · rcases eq_or_ne v d with rfl | hne
      · exact .inr .refl
      · exact .inl (ih.step huv.2.1 hne)
    · exact .inr (ih.tail huv)

/-! ### A reducible graph in which no vertex can be folded is a single vertex -/

/-- Heads of deleted edges, together with the entry. -/
def Head (G : Flowgraph V) (v : V) : Prop :=
  v = G.entry ∨ ∃ u, G.Reach u ∧ G.Adj u v ∧ G.Dom v u

/-- In a reducible flowgraph without self-loops and with finitely many reachable vertices,
unless the entry is the only reachable vertex, some other reachable vertex has exactly one
reachable predecessor.

Take the last head `v` in the order of the surviving edges, and the first vertex `w` strictly
dominated by it: a second predecessor of `w` would be strictly dominated by `v` too, and the
edge from it would be a surviving edge from an earlier vertex or make `w` a later head. -/
theorem Reducible.exists_unique_pred (hfin : {v | G.Reach v}.Finite) (hG : G.Reducible)
    (hloop : ∀ v, G.Reach v → ¬ G.Adj v v) {x : V} (hx : G.Reach x) (hxe : x ≠ G.entry) :
    ∃ w m, w ≠ G.entry ∧ G.Reach w ∧ m ≠ w ∧ G.Adj m w ∧ ∀ u, G.Reach u → G.Adj u w → u = m := by
  have : Finite {v // G.Reach v} := hfin
  let r : {v // G.Reach v} → {v // G.Reach v} → Prop := fun a b ↦ TransGen G.Fwd a b
  have : IsTrans _ r := ⟨fun _ _ _ ↦ TransGen.trans⟩
  have : Std.Irrefl r := ⟨fun v ↦ hG v⟩
  have hwf : WellFounded r := Finite.wellFounded_of_trans_of_irrefl _
  have : IsTrans _ (flip r) := ⟨fun _ _ _ h h' ↦ TransGen.trans h' h⟩
  have : Std.Irrefl (flip r) := ⟨fun v ↦ hG v⟩
  have hwf' : WellFounded (flip r) := Finite.wellFounded_of_trans_of_irrefl _
  obtain ⟨⟨v, hvr⟩, hv, hlast⟩ :=
    hwf'.has_min {v | G.Head v.1} ⟨⟨G.entry, reach_entry⟩, .inl rfl⟩
  -- The vertices strictly dominated by the last head.
  let B : Set {v // G.Reach v} := {w | w.1 ≠ v ∧ G.Dom v w.1}
  have hB : B.Nonempty := by
    rcases hv with rfl | ⟨u, hu, huv, hd⟩
    · exact ⟨⟨x, hx⟩, hxe, dom_entry x⟩
    · refine ⟨⟨u, hu⟩, ?_, hd⟩
      rintro rfl
      exact hloop u hu huv
  obtain ⟨⟨w, hw⟩, ⟨hwv, hdw⟩, hfirst⟩ := hwf.has_min B hB
  have hpred : ∀ u, G.Reach u → G.Adj u w → u = v := by
    intro u hu huw
    by_contra huv
    have hdu : G.Dom v u := hdw.of_adj huw hwv
    by_cases hdom : G.Dom w u
    · have hvw : TransGen G.Fwd v w :=
        (reflTransGen_iff_eq_or_transGen.1 (hdw.fwd hw)).resolve_left hwv
      exact hlast ⟨w, hw⟩ (.inr ⟨u, hu, huw, hdom⟩) hvw
    · exact hfirst ⟨u, hu⟩ ⟨huv, hdu⟩ (.single ⟨hu, huw, hdom⟩)
  have hwe : w ≠ G.entry := by
    rintro rfl
    exact hwv (eq_entry_of_dom_entry hdw).symm
  obtain ⟨m, hm, hmw⟩ : ∃ m, G.Reach m ∧ G.Adj m w := by
    rcases ReflTransGen.cases_tail hw with h | ⟨m, hm, hmw⟩
    · exact absurd h hwe
    · exact ⟨m, hm, hmw⟩
  obtain rfl := hpred m hm hmw
  exact ⟨w, m, hwe, hw, hwv.symm, hmw, hpred⟩

/-! ### Deleting self-loops -/

section SelfLoops

variable {H : Flowgraph V}

theorem reachVia_iff_of_selfLoops (he : H.entry = G.entry)
    (hadj : ∀ a b, H.Adj a b → G.Adj a b) (hne : ∀ a b, G.Adj a b → a ≠ b → H.Adj a b)
    {P : V → Prop} {v : V} : H.ReachVia P v ↔ G.ReachVia P v := by
  constructor
  · rintro ⟨h, hp⟩
    exact ⟨he ▸ h, he ▸ hp.lift id fun a b hab ↦ ⟨hadj a b hab.1, hab.2⟩⟩
  · rintro ⟨h, hp⟩
    induction hp with
    | refl => exact he ▸ .entry_of (he ▸ h)
    | @tail u v _ huv ih =>
      rcases eq_or_ne u v with rfl | hne'
      · exact ih
      · exact ih.step (hne u v huv.1 hne') huv.2

/-- Flowgraphs that differ in self-loops only are reducible together. -/
theorem reducible_iff_of_selfLoops (he : H.entry = G.entry)
    (hadj : ∀ a b, H.Adj a b → G.Adj a b) (hne : ∀ a b, G.Adj a b → a ≠ b → H.Adj a b) :
    H.Reducible ↔ G.Reducible := by
  have hdom : ∀ d v, H.Dom d v ↔ G.Dom d v := fun d v ↦
    not_congr (reachVia_iff_of_selfLoops he hadj hne)
  have hreach : ∀ v, H.Reach v ↔ G.Reach v := fun v ↦ by
    rw [reach_iff_reachVia, reach_iff_reachVia, reachVia_iff_of_selfLoops he hadj hne]
  have hfwd : H.Fwd = G.Fwd := by
    funext u v
    refine propext ⟨fun h ↦ ?_, fun h ↦ ?_⟩
    · exact ⟨(hreach u).1 h.1, hadj u v h.2.1, fun hd ↦ h.2.2 ((hdom v u).2 hd)⟩
    · exact ⟨(hreach u).2 h.1, hne u v h.2.1 h.ne, fun hd ↦ h.2.2 ((hdom v u).1 hd)⟩
  rw [Reducible, Reducible, hfwd]

end SelfLoops

/-! ### Restriction to the reachable part -/

/-- Edges that leave unreachable vertices do not matter for reducibility. -/
theorem reducible_iff_of_reach {H : Flowgraph V} (he : H.entry = G.entry)
    (hadj : ∀ a b, H.Adj a b ↔ G.Reach a ∧ G.Adj a b) : H.Reducible ↔ G.Reducible := by
  have hvia : ∀ {P : V → Prop} {v : V}, H.ReachVia P v ↔ G.ReachVia P v := by
    intro P v
    constructor
    · rintro ⟨h, hp⟩
      exact ⟨he ▸ h, he ▸ hp.lift id fun a b hab ↦ ⟨((hadj a b).1 hab.1).2, hab.2⟩⟩
    · rintro ⟨h, hp⟩
      induction hp with
      | refl => exact he ▸ .entry_of (he ▸ h)
      | @tail u v hu huv ih =>
        exact ih.step ((hadj u v).2 ⟨ReachVia.reach ⟨h, hu⟩, huv.1⟩) huv.2
  have hreach : ∀ v, H.Reach v ↔ G.Reach v := fun v ↦ by
    rw [reach_iff_reachVia, reach_iff_reachVia, hvia]
  have hfwd : H.Fwd = G.Fwd := by
    funext u v
    refine propext ⟨fun h ↦ ?_, fun h ↦ ?_⟩
    · exact ⟨(hreach u).1 h.1, ((hadj u v).1 h.2.1).2, fun hd ↦ h.2.2 fun hu ↦ hd (hvia.1 hu)⟩
    · exact ⟨(hreach u).2 h.1, (hadj u v).2 ⟨h.1, h.2.1⟩, fun hd ↦ h.2.2 fun hu ↦ hd (hvia.2 hu)⟩
  rw [Reducible, Reducible, hfwd]

/-! ### Folding a vertex into its only predecessor -/

/-- `n` folded into `m`: the edges of `n` leave from `m` instead, and `n` is isolated. -/
def contract (G : Flowgraph V) (m n : V) : Flowgraph V where
  entry := G.entry
  Adj a b := a ≠ n ∧ b ≠ n ∧ (G.Adj a b ∨ a = m ∧ G.Adj n b)

section Contract

variable {m n : V}

/-- Confined walks survive the folding, as long as the folded vertex was allowed. -/
theorem reachVia_contract_iff (hmn : m ≠ n) (hadj : G.Adj m n) (hn : n ≠ G.entry)
    (hpred : ∀ u, G.Adj u n → u = m) {P : V → Prop} (hP : P n) {v : V} (hv : v ≠ n) :
    (G.contract m n).ReachVia P v ↔ G.ReachVia P v := by
  constructor
  · rintro ⟨he, hp⟩
    induction hp with
    | refl => exact .entry_of he
    | @tail u w _ huw ih =>
      obtain ⟨⟨hu, -, huw | ⟨rfl, hnw⟩⟩, hw⟩ := huw
      · exact (ih hu).step huw hw
      · exact ((ih hu).step hadj hP).step hnw hw
  · rintro ⟨he, hp⟩
    -- Along a walk, the image of the current vertex under the folding is reached.
    suffices h : ∀ {w}, ReflTransGen (fun a b ↦ G.Adj a b ∧ P b) G.entry w →
        (w ≠ n → (G.contract m n).ReachVia P w) ∧ (w = n → (G.contract m n).ReachVia P m) from
      (h hp).1 hv
    intro w hw
    induction hw with
    | refl => exact ⟨fun _ ↦ .entry_of he, fun h ↦ absurd h.symm hn⟩
    | @tail u w _ huw ih =>
      obtain ⟨huw, hw⟩ := huw
      constructor
      · intro hwn
        by_cases hun : u = n
        · subst hun
          exact (ih.2 rfl).step ⟨hmn, hwn, .inr ⟨rfl, huw⟩⟩ hw
        · exact (ih.1 hun).step ⟨hun, hwn, .inl huw⟩ hw
      · rintro rfl
        obtain rfl := hpred u huw
        exact ih.1 hmn

theorem reach_contract_iff (hmn : m ≠ n) (hadj : G.Adj m n) (hn : n ≠ G.entry)
    (hpred : ∀ u, G.Adj u n → u = m) {v : V} (hv : v ≠ n) :
    (G.contract m n).Reach v ↔ G.Reach v := by
  rw [reach_iff_reachVia, reach_iff_reachVia,
    reachVia_contract_iff hmn hadj hn hpred trivial hv]

theorem dom_contract_iff (hmn : m ≠ n) (hadj : G.Adj m n) (hn : n ≠ G.entry)
    (hpred : ∀ u, G.Adj u n → u = m) {d v : V} (hd : d ≠ n) (hv : v ≠ n) :
    (G.contract m n).Dom d v ↔ G.Dom d v :=
  not_congr (reachVia_contract_iff hmn hadj hn hpred (P := (· ≠ d)) hd.symm hv)

/-- A vertex is dominated by what dominates its only predecessor. -/
theorem dom_iff_of_unique_pred (hadj : G.Adj m n) (hn : n ≠ G.entry)
    (hpred : ∀ u, G.Adj u n → u = m) {d : V} (hd : d ≠ n) : G.Dom d n ↔ G.Dom d m := by
  refine not_congr ⟨?_, fun h ↦ h.step hadj hd.symm⟩
  rintro ⟨he, hp⟩
  rcases ReflTransGen.cases_tail hp with h | ⟨u, hu, hun⟩
  · exact absurd h hn
  · obtain rfl := hpred u hun.1
    exact ⟨he, hu⟩

/-- Folding a vertex into its only predecessor neither makes nor breaks reducibility. -/
theorem reducible_contract_iff (hmn : m ≠ n) (hadj : G.Adj m n) (hn : n ≠ G.entry)
    (hpred : ∀ u, G.Adj u n → u = m) (hm : G.Reach m) :
    (G.contract m n).Reducible ↔ G.Reducible := by
  classical
  have hdommn : G.Dom m n :=
    (dom_iff_of_unique_pred hadj hn hpred hmn).2 (dom_self m)
  have hdomnm : ¬ G.Dom n m := fun h ↦ hmn (hdommn.antisymm hm h)
  have hreach : ∀ {v}, v ≠ n → ((G.contract m n).Reach v ↔ G.Reach v) :=
    fun hv ↦ reach_contract_iff hmn hadj hn hpred hv
  have hdom : ∀ {d v}, d ≠ n → v ≠ n → ((G.contract m n).Dom d v ↔ G.Dom d v) :=
    fun hd hv ↦ dom_contract_iff hmn hadj hn hpred hd hv
  constructor
  · -- A cycle of surviving edges folds to one: only the edge `m → n` is lost.
    intro hG v hv
    let φ : V → V := fun x ↦ if x = n then m else x
    have hstep : ∀ {a b}, G.Fwd a b → b ≠ n → (G.contract m n).Fwd (φ a) b := by
      intro a b hab hb
      by_cases ha : a = n
      · subst ha
        have hbm : b ≠ m := by
          rintro rfl
          exact hab.2.2 hdommn
        simp only [φ, if_true]
        refine ⟨(hreach hmn).2 hm, ⟨hmn, hb, .inr ⟨rfl, hab.2.1⟩⟩, fun hd ↦ hab.2.2 ?_⟩
        exact (dom_iff_of_unique_pred hadj hn hpred hb).2 ((hdom hb hmn).1 hd)
      · simp only [φ, if_neg ha]
        exact ⟨(hreach ha).2 hab.1, ⟨ha, hb, .inl hab.2.1⟩,
          fun hd ↦ hab.2.2 ((hdom hb ha).1 hd)⟩
    have hpath : ∀ {a b}, ReflTransGen G.Fwd a b →
        ReflTransGen (G.contract m n).Fwd (φ a) (φ b) := by
      intro a b hab
      induction hab with
      | refl => exact .refl
      | @tail x y _ hxy ih =>
        by_cases hy : y = n
        · subst hy
          obtain rfl := hpred x hxy.2.1
          simpa [φ, hmn] using ih
        · have hφ : φ y = y := if_neg hy
          rw [hφ]
          exact ih.tail (hstep hxy hy)
    -- The cycle may be entered at a vertex other than `n`.
    obtain ⟨w, hwn, hw⟩ : ∃ w, w ≠ n ∧ TransGen G.Fwd w w := by
      by_cases hvn : v = n
      · subst hvn
        obtain ⟨x, hvx, hxv⟩ := TransGen.tail'_iff.1 hv
        obtain rfl := hpred x hxv.2.1
        exact ⟨x, hmn, TransGen.head' hxv hvx⟩
      · exact ⟨v, hvn, hv⟩
    obtain ⟨x, hwx, hxw⟩ := TransGen.tail'_iff.1 hw
    have hφ : φ w = w := if_neg hwn
    exact hG w (TransGen.tail' (hφ ▸ hpath hwx) (hstep hxw hwn))
  · -- A surviving edge of the folded graph is one or two surviving edges.
    intro hG v hv
    refine hG v (TransGen.lift' id (fun a b hab ↦ ?_) v v hv)
    obtain ⟨ha, ⟨han, hbn, hab | ⟨rfl, hnb⟩⟩, hd⟩ := hab
    · exact .single ⟨(hreach han).1 ha, hab, fun h ↦ hd ((hdom hbn han).2 h)⟩
    · refine TransGen.tail (.single ⟨hm, hadj, hdomnm⟩) ⟨hm.step hadj, hnb, fun h ↦ hd ?_⟩
      exact (hdom hbn hmn).2 ((dom_iff_of_unique_pred hadj hn hpred hbn).1 h)

end Contract

/-- A flowgraph whose only reachable vertex is the entry is reducible. -/
theorem reducible_of_forall_reach_eq (h : ∀ v, G.Reach v → v = G.entry) : G.Reducible := by
  intro v hv
  obtain ⟨u, hvu, huv⟩ := TransGen.tail'_iff.1 hv
  have hu : u = G.entry := h u huv.1
  have hv' : v = G.entry := h v (huv.1.step huv.2.1)
  exact huv.ne (hu.trans hv'.symm)

end Flowgraph
