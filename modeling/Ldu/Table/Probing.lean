import Mathlib.Data.Finset.Card
import Mathlib.Logic.Function.Iterate

/-!
# Open addressing with linear probing

A table has `m` slots, read through a function `t`, some of which hold the value `empty`. A key `v`
is looked for from its home slot on, in the order `next`, up to the first slot that holds it or is
empty (`firstStop`).

`Stores t S` is the invariant: what the slots hold is `S`, each key once, and the walk from the home
of a key to its slot meets no empty slot. A search then ends at the key or, when it is not there, at
an empty slot (`Stores.firstStop_of_mem`, `Stores.exists_firstStop`), and putting a new key where
its search ended keeps the invariant (`Stores.insert`).
-/

namespace Ldu

/-- The first slot at which `stop` holds, from slot `i` on, among the next `fuel`. -/
def firstStop (next : ℕ → ℕ) (stop : ℕ → Bool) : ℕ → ℕ → Option ℕ
  | 0, _ => none
  | fuel + 1, i => if stop i then some i else firstStop next stop fuel (next i)

section FirstStop

variable {next : ℕ → ℕ} {stop : ℕ → Bool} {fuel i j k : ℕ}

/-- A walk that stops within the fuel stops at the first stop. -/
theorem exists_firstStop (stop : ℕ → Bool) (hk : k < fuel) (hstop : stop (next^[k] i)) :
    ∃ d ≤ k, firstStop next stop fuel i = some (next^[d] i) ∧ stop (next^[d] i) ∧
      ∀ d' < d, stop (next^[d'] i) = false := by
  induction fuel generalizing i k with
  | zero => exact absurd hk (Nat.not_lt_zero _)
  | succ fuel ih =>
    unfold firstStop
    by_cases hi : stop i
    · exact ⟨0, Nat.zero_le _, by rw [if_pos hi]; rfl, hi, fun d' hd' ↦ absurd hd' (by omega)⟩
    · rw [if_neg hi]
      cases k with
      | zero => exact absurd hstop hi
      | succ k =>
        obtain ⟨d, hd, hrun, hat, hbefore⟩ := ih (k := k) (i := next i) (by omega) hstop
        refine ⟨d + 1, by omega, hrun, hat, fun d' hd' ↦ ?_⟩
        cases d' with
        | zero => simpa using hi
        | succ d' => exact hbefore d' (by omega)

/-- What a walk that stopped has passed. -/
theorem firstStop_eq_some (h : firstStop next stop fuel i = some j) :
    ∃ d < fuel, next^[d] i = j ∧ stop j ∧ ∀ d' < d, stop (next^[d'] i) = false := by
  induction fuel generalizing i with
  | zero => exact absurd h (by simp [firstStop])
  | succ fuel ih =>
    unfold firstStop at h
    split at h
    · next hi =>
      cases h
      exact ⟨0, Nat.succ_pos _, rfl, hi, fun d' hd' ↦ absurd hd' (Nat.not_lt_zero _)⟩
    · next hi =>
      obtain ⟨d, hd, hj, hat, hbefore⟩ := ih h
      refine ⟨d + 1, by omega, hj, hat, fun d' hd' ↦ ?_⟩
      cases d' with
      | zero => simpa using hi
      | succ d' => exact hbefore d' (by omega)

end FirstStop

namespace Probing

variable {α : Type*} [DecidableEq α]

/-- The order of the slots of a table with `m` of them, in which every slot comes after every other
one. -/
structure Cycle (m : ℕ) (next : ℕ → ℕ) : Prop where
  lt : ∀ {i}, i < m → next i < m
  reaches : ∀ {i j}, i < m → j < m → ∃ k < m, next^[k] i = j

variable (empty : α) (home : α → ℕ) (next : ℕ → ℕ) (m : ℕ)

/-- The slots hold the keys of `S`, each of them once and without an empty slot between its home and
its place. -/
structure Stores (t : ℕ → α) (S : Finset α) : Prop where
  empty_notMem : empty ∉ S
  mem : ∀ i < m, t i ≠ empty → t i ∈ S
  inj : ∀ i < m, ∀ j < m, t i ≠ empty → t i = t j → i = j
  path : ∀ v ∈ S, ∃ k < m, t (next^[k] (home v)) = v ∧ ∀ d < k, t (next^[d] (home v)) ≠ empty

/-- The first empty slot from the home of a key on. -/
def Vacant (t : ℕ → α) (v : α) (j : ℕ) : Prop :=
  ∃ k < m, next^[k] (home v) = j ∧ t j = empty ∧ ∀ d < k, t (next^[d] (home v)) ≠ empty

variable {empty home next m} {t : ℕ → α} {S : Finset α} {v : α} {j : ℕ}

theorem Cycle.iterate_lt (hnext : Cycle m next) {i : ℕ} (hi : i < m) (k : ℕ) :
    next^[k] i < m := by
  induction k with
  | zero => exact hi
  | succ k ih => exact Function.iterate_succ_apply' next k i ▸ hnext.lt ih

omit [DecidableEq α] in
/-- Nothing is stored in a table of empty slots. -/
theorem stores_empty (h : ∀ i < m, t i = empty) : Stores empty home next m t ∅ where
  empty_notMem := Finset.notMem_empty _
  mem i hi hne := absurd (h i hi) hne
  inj i hi _ _ hne _ := absurd (h i hi) hne
  path _ hv := absurd hv (Finset.notMem_empty _)

namespace Stores

/-- Fewer keys than slots leave a slot empty. -/
theorem exists_empty (h : Stores empty home next m t S) (hlt : S.card < m) :
    ∃ i < m, t i = empty := by
  by_contra hfull
  push Not at hfull
  have hmaps : Set.MapsTo t (Finset.range m) S := fun i hi ↦
    have hi := Finset.mem_range.1 hi
    h.mem i hi (hfull i hi)
  have hinj : Set.InjOn t (Finset.range m) := fun i hi j hj ↦
    have hi := Finset.mem_range.1 hi
    h.inj i hi j (Finset.mem_range.1 hj) (hfull i hi)
  have hcard := Finset.card_le_card_of_injOn t hmaps hinj
  rw [Finset.card_range] at hcard
  omega

/-- The search for a key that is there ends at its slot. -/
theorem firstStop_of_mem (h : Stores empty home next m t S) (hv : v ∈ S) :
    ∃ j, firstStop next (fun i ↦ t i = empty ∨ t i = v) m (home v) = some j ∧ t j = v := by
  obtain ⟨k, hk, hat, hpath⟩ := h.path v hv
  have hstop : decide (t (next^[k] (home v)) = empty ∨ t (next^[k] (home v)) = v) = true :=
    decide_eq_true (.inr hat)
  obtain ⟨d, hd, hrun, hstop, -⟩ :=
    exists_firstStop (fun i ↦ t i = empty ∨ t i = v) hk hstop
  refine ⟨_, hrun, ?_⟩
  rcases of_decide_eq_true hstop with hempty | hv'
  · -- Before the place of the key no slot is empty, and its place is not.
    rcases Nat.lt_or_eq_of_le hd with hlt | rfl
    · exact absurd hempty (hpath d hlt)
    · exact hat
  · exact hv'

/-- The search for an empty slot ends at the first one. -/
theorem exists_vacant (h : Stores empty home next m t S) (hnext : Cycle m next)
    (hhome : home v < m) (hlt : S.card < m) (stop : ℕ → Bool)
    (hstop : ∀ i < m, stop i ↔ t i = empty) :
    ∃ j, firstStop next stop m (home v) = some j ∧ Vacant empty home next m t v j := by
  obtain ⟨i, hi, hempty⟩ := h.exists_empty hlt
  obtain ⟨k, hk, rfl⟩ := hnext.reaches hhome hi
  obtain ⟨d, hd, hrun, hat, hbefore⟩ := exists_firstStop stop hk ((hstop _ hi).2 hempty)
  have hin : ∀ d, next^[d] (home v) < m := hnext.iterate_lt hhome
  refine ⟨_, hrun, d, by omega, rfl, (hstop _ (hin d)).1 hat, fun d' hd' hne ↦ ?_⟩
  exact Bool.eq_false_iff.1 (hbefore d' hd') ((hstop _ (hin d')).2 hne)

/-- The search for a key that is not there ends at the first empty slot. -/
theorem firstStop_of_notMem (h : Stores empty home next m t S) (hnext : Cycle m next)
    (hhome : home v < m) (hlt : S.card < m) (hv : v ∉ S) :
    ∃ j, firstStop next (fun i ↦ t i = empty ∨ t i = v) m (home v) = some j ∧
      Vacant empty home next m t v j := by
  refine h.exists_vacant hnext hhome hlt _ fun i hi ↦ ?_
  have hnot : t i = v → t i = empty := fun hiv ↦ by
    by_contra hi'
    exact hv (hiv ▸ h.mem i hi hi')
  simpa using hnot

/-- Put a new key in its vacant slot. -/
theorem insert (h : Stores empty home next m t S) (hv : v ∉ S) (hne : v ≠ empty)
    (hj : Vacant empty home next m t v j) :
    Stores empty home next m (Function.update t j v) (insert v S) := by
  obtain ⟨k, hk, rfl, hvacant, hpath⟩ := hj
  have hmoved : ∀ {i}, t i ≠ empty →
      Function.update t (next^[k] (home v)) v i = t i := fun hi ↦
    Function.update_of_ne (by rintro rfl; exact hi hvacant) _ _
  refine ⟨?_, fun i hi hi' ↦ ?_, fun i hi j hj hi' hij ↦ ?_, fun w hw ↦ ?_⟩
  · simpa [hne.symm] using h.empty_notMem
  · -- What a slot holds is the new key or was there before.
    by_cases hik : i = next^[k] (home v)
    · rw [hik, Function.update_self]
      exact Finset.mem_insert_self _ _
    · rw [Function.update_of_ne hik] at hi' ⊢
      exact Finset.mem_insert_of_mem (h.mem i hi hi')
  · by_cases hik : i = next^[k] (home v) <;> by_cases hjk : j = next^[k] (home v)
    · exact hik.trans hjk.symm
    · rw [hik, Function.update_self, Function.update_of_ne hjk] at hij
      exact absurd (h.mem j hj (hij ▸ hne)) (hij ▸ hv)
    · rw [hjk, Function.update_self, Function.update_of_ne hik] at hij
      exact absurd (h.mem i hi (hij ▸ hne)) (hij ▸ hv)
    · rw [Function.update_of_ne hik] at hi' hij
      rw [Function.update_of_ne hjk] at hij
      exact h.inj i hi j hj hi' hij
  · rcases Finset.mem_insert.1 hw with rfl | hw
    · refine ⟨k, hk, Function.update_self _ _ _, fun d hd ↦ ?_⟩
      rw [hmoved (hpath d hd)]
      exact hpath d hd
    · obtain ⟨k', hk', hat, hpath'⟩ := h.path w hw
      have hw0 : w ≠ empty := fun h0 ↦ h.empty_notMem (h0 ▸ hw)
      refine ⟨k', hk', (hmoved (hat.trans_ne hw0)).trans hat, fun d hd ↦ ?_⟩
      rw [hmoved (hpath' d hd)]
      exact hpath' d hd

end Stores

/-- Every slot comes after every other one when the slots are taken in turn. -/
theorem cycle_succ_mod {m : ℕ} : Cycle m fun i ↦ (i + 1) % m where
  lt hi := Nat.mod_lt _ (by omega)
  reaches {i j} hi hj := by
    have hwalk : ∀ k, (fun i ↦ (i + 1) % m)^[k] i = (i + k) % m := fun k ↦ by
      induction k with
      | zero => exact (Nat.mod_eq_of_lt hi).symm
      | succ k ih =>
        rw [Function.iterate_succ_apply', ih, Nat.mod_add_mod]
        rfl
    refine ⟨(j + (m - i)) % m, Nat.mod_lt _ (by omega), ?_⟩
    rw [hwalk, Nat.add_mod_mod, show i + (j + (m - i)) = j + m by omega, Nat.add_mod_right,
      Nat.mod_eq_of_lt hj]

end Probing

end Ldu
