import Mathlib.Data.Finset.Card
import Mathlib.Data.Fintype.Defs
import Mathlib.Logic.Function.Basic
import Mathlib.Data.Nat.Find

/-!
# Marks that spread along edges

Every node of a graph carries some of the marks `ρ`: those that start at it, and those that one of
its neighbours has and the edge to it lets pass (`System`). What the marks ought to be is said by
paths (`Carried`); what is computed are sweeps over the nodes, in place, until nothing changes or a
number of sweeps has been made (`sweeps`).

No mark is found that no path carries (`Carried.of_sweeps`). A sweep finds what is carried along one
more edge, and paths with fewer edges than there are nodes lead everywhere (`Carried.exists_lt`). So
as many sweeps as there are nodes find everything (`marks_sweeps_iff`).
-/

namespace Marking

variable {ρ : Type*}

/-- Which marks start where, from which neighbours marks come to a node, and which of them do. -/
structure System (ρ : Type*) where
  start : ℕ → ρ → Bool
  next : ℕ → List ℕ
  pass : ℕ → ℕ → ρ → Bool

/-- The mark comes to the node along a path with this many edges. -/
inductive Carried (S : System ρ) (r : ρ) : ℕ → ℕ → Prop
  | start {i : ℕ} (h : S.start i r = true) : Carried S r 0 i
  | step {k i j : ℕ} (hj : j ∈ S.next i) (hpass : S.pass i j r = true) (h : Carried S r k j) :
      Carried S r (k + 1) i

/-! ### Sweeps -/

/-- The marks found so far. -/
structure State (ρ : Type*) where
  marks : ℕ → ρ → Bool
  /-- Some marks changed in this sweep. -/
  changed : Bool := false

section Sweeps

variable (S : System ρ)

/-- The marks of a node, by those of its neighbours. -/
def System.marksAt (marks : ℕ → ρ → Bool) (i : ℕ) (r : ρ) : Bool :=
  S.start i r || (S.next i).any fun j ↦ S.pass i j r && marks j r

variable [Fintype ρ]

def visit (st : State ρ) (i : ℕ) : State ρ where
  marks := Function.update st.marks i (S.marksAt st.marks i)
  changed := st.changed || decide (∃ r, S.marksAt st.marks i r ≠ st.marks i r)

/-- Visit the nodes in order. -/
def visits (order : List ℕ) (st : State ρ) : State ρ :=
  order.foldl (visit S) st

def sweep (order : List ℕ) (st : State ρ) : State ρ :=
  visits S order { st with changed := false }

/-- Sweeps until nothing changes, at most `k`; `allowed k` says whether to go on with `k` more. -/
def sweeps (order : List ℕ) (allowed : ℕ → Bool) : ℕ → State ρ → State ρ
  | 0, st => st
  | k + 1, st =>
    if allowed k then
      let st' := sweep S order st
      if st'.changed then sweeps order allowed k st' else st'
    else st

end Sweeps

variable {S : System ρ} {r : ρ} {i j k m : ℕ}

/-! ### Paths -/

/-- A shortest path to a node goes on along shortest paths. -/
theorem Carried.exists_shortest (h : Carried S r k i) (hmin : ∀ m < k, ¬ Carried S r m i)
    (hm : m ≤ k) : ∃ j, Carried S r m j ∧ ∀ l < m, ¬ Carried S r l j := by
  induction h with
  | start h =>
    obtain rfl := Nat.le_zero.1 hm
    exact ⟨_, .start h, fun l hl ↦ absurd hl (Nat.not_lt_zero l)⟩
  | @step k i j hj hpass h ih =>
    rcases Nat.le_succ_iff.1 hm with hm | rfl
    · exact ih (fun l hl hl' ↦ hmin (l + 1) (by omega) (.step hj hpass hl')) hm
    · exact ⟨i, .step hj hpass h, hmin⟩

/-- Paths with fewer edges than there are nodes lead everywhere. -/
theorem Carried.exists_lt {U : Finset ℕ} (hU : ∀ i k, Carried S r k i → i ∈ U)
    (h : Carried S r k i) : ∃ m < U.card, Carried S r m i := by
  classical
  have hex : ∃ m, Carried S r m i := ⟨k, h⟩
  refine ⟨Nat.find hex, ?_, Nat.find_spec hex⟩
  choose! node hnode hshort using fun m (hm : m ≤ Nat.find hex) ↦
    (Nat.find_spec hex).exists_shortest (fun l hl ↦ Nat.find_min hex hl) hm
  -- The nodes at different distances are different.
  have hcard : (Finset.range (Nat.find hex + 1)).card ≤ U.card := by
    refine Finset.card_le_card_of_injOn node (fun m hm ↦ ?_) fun m hm l hl heq ↦ ?_
    · exact hU _ _ (hnode m (by simpa [Nat.lt_succ_iff] using hm))
    · have hm : m ≤ Nat.find hex := by simpa [Nat.lt_succ_iff] using hm
      have hl : l ≤ Nat.find hex := by simpa [Nat.lt_succ_iff] using hl
      by_contra hne
      rcases Nat.lt_or_gt_of_ne hne with hlt | hlt
      · exact hshort l hl m hlt (heq ▸ hnode m hm)
      · exact hshort m hm l hlt (heq ▸ hnode l hl)
  rwa [Finset.card_range] at hcard

/-! ### What sweeps find -/

section Sweeps

theorem marksAt_eq_true {marks : ℕ → ρ → Bool} : S.marksAt marks i r = true ↔
    S.start i r = true ∨ ∃ j ∈ S.next i, S.pass i j r = true ∧ marks j r = true := by
  simp [System.marksAt]

/-- A node that is visited has what comes to it along one more edge. -/
theorem marksAt_of_found {marks : ℕ → ρ → Bool}
    (h : ∀ i, ∀ k < m, Carried S r k i → marks i r = true) (hk : k < m + 1)
    (hi : Carried S r k i) : S.marksAt marks i r = true := by
  rw [marksAt_eq_true]
  cases hi with
  | start h => exact .inl h
  | step hj hpass hj' => exact .inr ⟨_, hj, hpass, h _ _ (by omega) hj'⟩

variable [Fintype ρ] {order : List ℕ} {st : State ρ}

theorem visit_marks (st : State ρ) (j : ℕ) :
    (visit S st j).marks = Function.update st.marks j (S.marksAt st.marks j) :=
  rfl

/-- No mark is found that no path carries. -/
theorem Carried.of_visit (h : ∀ i, st.marks i r = true → ∃ k, Carried S r k i) (i : ℕ)
    (hi : (visit S st j).marks i r = true) : ∃ k, Carried S r k i := by
  by_cases hij : i = j
  · subst hij
    rw [visit_marks, Function.update_self, marksAt_eq_true] at hi
    rcases hi with hi | ⟨j, hj, hpass, hmark⟩
    · exact ⟨0, .start hi⟩
    · obtain ⟨k, hk⟩ := h j hmark
      exact ⟨k + 1, .step hj hpass hk⟩
  · rw [visit_marks, Function.update_of_ne hij] at hi
    exact h i hi

theorem Carried.of_sweep (h : ∀ i, st.marks i r = true → ∃ k, Carried S r k i) (i : ℕ)
    (hi : (sweep S order st).marks i r = true) : ∃ k, Carried S r k i := by
  have hvisits : ∀ st : State ρ, (∀ i, st.marks i r = true → ∃ k, Carried S r k i) →
      ∀ i, (visits S order st).marks i r = true → ∃ k, Carried S r k i := fun st h ↦
    List.foldlRecOn (motive := fun st : State ρ ↦
      ∀ i, st.marks i r = true → ∃ k, Carried S r k i) _ _ h fun st hst _ _ i hi ↦
        Carried.of_visit hst i hi
  exact hvisits { st with changed := false } h i hi

theorem Carried.of_sweeps {allowed : ℕ → Bool} {n : ℕ}
    (h : ∀ i, st.marks i r = true → ∃ k, Carried S r k i) (i : ℕ)
    (hi : (sweeps S order allowed n st).marks i r = true) : ∃ k, Carried S r k i := by
  induction n generalizing st with
  | zero => exact h i hi
  | succ n ih =>
    rw [sweeps] at hi
    dsimp only at hi
    split at hi
    · split at hi
      · exact ih (fun i ↦ Carried.of_sweep h i) hi
      · exact Carried.of_sweep h i hi
    · exact h i hi

/-- The marks that come along fewer than `m` edges have been found. -/
def Found (S : System ρ) (r : ρ) (m : ℕ) (st : State ρ) : Prop :=
  ∀ i, ∀ k < m, Carried S r k i → st.marks i r = true

/-- The marks of the nodes that are never visited are known from the start. -/
def Fixed (S : System ρ) (r : ρ) (order : List ℕ) (st : State ρ) : Prop :=
  ∀ i ∉ order, ∀ k, Carried S r k i → st.marks i r = true

theorem visit_marks_of_ne (h : i ≠ j) : (visit S st j).marks i = st.marks i :=
  Function.update_of_ne h _ _

theorem visits_marks_of_notMem (h : i ∉ order) : (visits S order st).marks i = st.marks i := by
  induction order generalizing st with
  | nil => rfl
  | cons j order ih =>
    obtain ⟨hne, hmem⟩ := List.ne_and_not_mem_of_not_mem_cons h
    change (visits S order (visit S st j)).marks i = _
    rw [ih hmem, visit_marks_of_ne hne]

theorem Fixed.sweep (h : Fixed S r order st) : Fixed S r order (sweep S order st) := by
  intro i hi k hk
  rw [Marking.sweep, visits_marks_of_notMem hi]
  exact h i hi k hk

theorem found_visits (h : Found S r m st) :
    Found S r m (visits S order st) ∧
      ∀ i ∈ order, ∀ k < m + 1, Carried S r k i → (visits S order st).marks i r = true := by
  induction order using List.reverseRecOn with
  | nil => exact ⟨h, fun _ hi ↦ absurd hi List.not_mem_nil⟩
  | append_singleton order j ih =>
    have hstep : visits S (order ++ [j]) st = visit S (visits S order st) j := by
      simp [visits, List.foldl_append]
    rw [hstep]
    have hj (k : ℕ) (hk : k < m + 1) (hcar : Carried S r k j) :
        (visit S (visits S order st) j).marks j r = true := by
      rw [visit_marks, Function.update_self]
      exact marksAt_of_found ih.1 hk hcar
    refine ⟨fun i k hk hcar ↦ ?_, fun i hi k hk hcar ↦ ?_⟩
    · by_cases hij : i = j
      · subst hij
        exact hj k (by omega) hcar
      · rw [visit_marks_of_ne hij]
        exact ih.1 i k hk hcar
    · by_cases hij : i = j
      · subst hij
        exact hj k hk hcar
      · rw [visit_marks_of_ne hij]
        refine ih.2 i ?_ k hk hcar
        simpa [hij] using hi

/-- A sweep finds what comes along one more edge. -/
theorem Found.sweep (h : Found S r m st) (hfix : Fixed S r order st) :
    Found S r (m + 1) (sweep S order st) := by
  intro i k hk hcar
  by_cases hi : i ∈ order
  · have hstart : Found S r m { st with changed := false } := h
    exact (found_visits hstart).2 i hi k hk hcar
  · exact hfix.sweep i hi k hcar

theorem visits_unchanged (h : (visits S order st).changed = false) :
    st.changed = false ∧ (visits S order st).marks = st.marks ∧
      ∀ i ∈ order, S.marksAt st.marks i = st.marks i := by
  induction order generalizing st with
  | nil => exact ⟨h, rfl, fun _ hi ↦ absurd hi List.not_mem_nil⟩
  | cons j order ih =>
    obtain ⟨hch, hmarks, hall⟩ := ih h
    simp only [visit, Bool.or_eq_false_iff, decide_eq_false_iff_not, not_exists, not_not] at hch
    have hj : S.marksAt st.marks j = st.marks j := funext hch.2
    have hsame : (visit S st j).marks = st.marks := by
      rw [visit_marks, hj, Function.update_eq_self]
    refine ⟨hch.1, hmarks.trans hsame, fun i hi ↦ ?_⟩
    rcases List.mem_cons.1 hi with rfl | hi
    · exact hj
    · simpa only [hsame] using hall i hi

/-- A sweep that changes nothing has found everything. -/
theorem found_of_unchanged (hfix : Fixed S r order st)
    (h : (sweep S order st).changed = false) (hcar : Carried S r k i) :
    (sweep S order st).marks i r = true := by
  obtain ⟨-, hmarks, hall⟩ := visits_unchanged h
  rw [Marking.sweep, hmarks]
  dsimp only at hall ⊢
  induction hcar with
  | @start i h =>
    by_cases hi : i ∈ order
    · rw [← hall i hi, marksAt_eq_true]
      exact .inl h
    · exact hfix i hi 0 (.start h)
  | @step k i j hj hpass hcar ih =>
    by_cases hi : i ∈ order
    · rw [← hall i hi, marksAt_eq_true]
      exact .inr ⟨j, hj, hpass, ih⟩
    · exact hfix i hi (k + 1) (.step hj hpass hcar)

theorem Found.sweeps {allowed : ℕ → Bool} {n : ℕ} (hallowed : ∀ k < n, allowed k = true)
    (h : Found S r m st) (hfix : Fixed S r order st) :
    Found S r (m + n) (sweeps S order allowed n st) := by
  induction n generalizing m st with
  | zero => exact h
  | succ n ih =>
    rw [Marking.sweeps, if_pos (hallowed n (Nat.lt_succ_self n))]
    dsimp only
    split
    · rw [← Nat.add_assoc, Nat.add_right_comm]
      exact ih (fun k hk ↦ hallowed k (by omega)) (h.sweep hfix) hfix.sweep
    · next hch =>
      exact fun i k _ hcar ↦ found_of_unchanged hfix (by simpa using hch) hcar

/-- As many sweeps as there are nodes find everything. -/
theorem marks_sweeps_iff {U : Finset ℕ} {allowed : ℕ → Bool} {n : ℕ}
    (hU : ∀ i k, Carried S r k i → i ∈ U) (hn : U.card ≤ n)
    (hallowed : ∀ k < n, allowed k = true) (hfix : Fixed S r order st)
    (hst : ∀ i, st.marks i r = true → ∃ k, Carried S r k i) :
    (sweeps S order allowed n st).marks i r = true ↔ ∃ k, Carried S r k i := by
  refine ⟨Carried.of_sweeps hst i, fun ⟨k, hk⟩ ↦ ?_⟩
  obtain ⟨m, hm, hcar⟩ := hk.exists_lt hU
  have hfound : Found S r (0 + n) (sweeps S order allowed n st) :=
    Found.sweeps hallowed (fun _ _ hk ↦ absurd hk (Nat.not_lt_zero _)) hfix
  exact hfound i m (by omega) hcar

end Sweeps

end Marking
