import Mathlib.Order.Basic
import Mathlib.Data.List.Basic
import Mathlib.Order.Lattice

/-!
# Consecutive intervals

`Tiles lo hi ps` says that the intervals of `ps`, each from its first to before its second
component, follow each other without a gap from `lo` to `hi`, and that none of them is empty. Each
point between the ends is in exactly one of them (`Tiles.existsUnique`).
-/

namespace Ldu

variable {α : Type*} [LinearOrder α] {lo mid hi a : α} {p : α × α} {ps qs : List (α × α)}

/-- The intervals follow each other from `lo` to `hi`. -/
def Tiles : α → α → List (α × α) → Prop
  | lo, hi, [] => lo = hi
  | lo, hi, p :: ps => p.1 = lo ∧ p.1 < p.2 ∧ Tiles p.2 hi ps

theorem Tiles.append (h : Tiles lo mid ps) (h' : Tiles mid hi qs) : Tiles lo hi (ps ++ qs) := by
  induction ps generalizing lo with
  | nil =>
    obtain rfl := h
    exact h'
  | cons p ps ih => exact ⟨h.1, h.2.1, ih h.2.2⟩

theorem Tiles.le (h : Tiles lo hi ps) : lo ≤ hi := by
  induction ps generalizing lo with
  | nil => exact le_of_eq h
  | cons p ps ih => exact (h.1 ▸ h.2.1.le).trans (ih h.2.2)

theorem Tiles.le_of_mem (h : Tiles lo hi ps) (hp : p ∈ ps) : lo ≤ p.1 ∧ p.1 < p.2 ∧ p.2 ≤ hi := by
  induction ps generalizing lo with
  | nil => cases hp
  | cons q ps ih =>
    obtain ⟨rfl, hlt, hps⟩ := h
    rcases List.mem_cons.1 hp with rfl | hp
    · exact ⟨le_rfl, hlt, hps.le⟩
    · obtain ⟨hle, hlt', hle'⟩ := ih hps hp
      exact ⟨hlt.le.trans hle, hlt', hle'⟩

/-- A point between the ends is in exactly one interval. -/
theorem Tiles.existsUnique (h : Tiles lo hi ps) (hlo : lo ≤ a) (hhi : a < hi) :
    ∃! k : ℕ, ∃ p : α × α, ps[k]? = some p ∧ p.1 ≤ a ∧ a < p.2 := by
  induction ps generalizing lo with
  | nil => exact absurd hhi (not_lt.2 (le_of_eq_of_le (Eq.symm h) hlo))
  | cons p ps ih =>
    obtain ⟨rfl, -, hps⟩ := h
    by_cases ha : a < p.2
    · refine ⟨0, ⟨p, rfl, hlo, ha⟩, fun k hk ↦ ?_⟩
      obtain ⟨q, hq, hle, -⟩ := hk
      cases k with
      | zero => rfl
      | succ k =>
        have hmem : q ∈ ps := List.mem_of_getElem? hq
        exact absurd ha (not_lt.2 ((hps.le_of_mem hmem).1.trans hle))
    · obtain ⟨k, ⟨q, hq, hqa⟩, huniq⟩ := ih hps (not_lt.1 ha)
      refine ⟨k + 1, ⟨q, hq, hqa⟩, fun j hj ↦ ?_⟩
      obtain ⟨r, hr, hra⟩ := hj
      cases j with
      | zero =>
        obtain rfl := Option.some.inj hr
        exact absurd hra.2 ha
      | succ j => exact congrArg (· + 1) (huniq j ⟨r, hr, hra⟩)

end Ldu
