import Mathlib.Order.Defs.LinearOrder
import Mathlib.Order.Nat
import Mathlib.Data.List.Pairwise

/-!
# Lower bounds by binary search

The first position of a list whose key is not below a given one, found by halving an interval. On a
list sorted by the key the search is exact (`searchFor_eq_some_iff`); on any other list what it
finds still has the key (`of_searchFor`).
-/

namespace BinarySearch

variable {α : Type*} (key : α → ℕ) (l : List α) (k : ℕ)

/-- Halve the interval from `lo` to `hi`, at most `fuel` times. -/
def lowerBound : ℕ → ℕ → ℕ → ℕ
  | 0, lo, _ => lo
  | fuel + 1, lo, hi =>
    if lo < hi then
      let mid := lo + (hi - lo) / 2
      if l[mid]?.any (key · < k) then lowerBound fuel (mid + 1) hi else lowerBound fuel lo mid
    else lo

/-- The position of an element with the key `k`. -/
def searchFor : Option ℕ :=
  let lo := lowerBound key l k l.length 0 l.length
  if l[lo]?.any (key · = k) then some lo else none

variable {key l k}

theorem lowerBound_le (fuel lo hi : ℕ) (h : lo ≤ hi) : lowerBound key l k fuel lo hi ≤ hi := by
  induction fuel generalizing lo hi with
  | zero => exact h
  | succ fuel ih =>
    rw [lowerBound]
    split
    · dsimp only
      split
      · exact ih _ _ (by omega)
      · exact (ih _ _ (by omega)).trans (by omega)
    · exact h

/-- Everything left of the bound is below the key, and everything from the bound on is not. -/
theorem lowerBound_spec (hsorted : l.Pairwise (key · < key ·)) (fuel lo hi : ℕ)
    (hfuel : hi - lo ≤ fuel) (hlohi : lo ≤ hi) (hhi : hi ≤ l.length)
    (hlow : ∀ j a, j < lo → l[j]? = some a → key a < k)
    (hhigh : ∀ j a, hi ≤ j → l[j]? = some a → k ≤ key a) :
    (∀ j a, j < lowerBound key l k fuel lo hi → l[j]? = some a → key a < k) ∧
      ∀ j a, lowerBound key l k fuel lo hi ≤ j → l[j]? = some a → k ≤ key a := by
  have hmono : ∀ (i j : ℕ) (a b : α), i ≤ j → l[i]? = some a → l[j]? = some b → key a ≤ key b := by
    intro i j a b hij ha hb
    obtain ⟨hi, rfl⟩ := List.getElem?_eq_some_iff.1 ha
    obtain ⟨hj, rfl⟩ := List.getElem?_eq_some_iff.1 hb
    rcases hij.eq_or_lt with rfl | hij
    · exact le_rfl
    · exact (List.pairwise_iff_getElem.1 hsorted i j hi hj hij).le
  induction fuel generalizing lo hi with
  | zero =>
    obtain rfl : hi = lo := by omega
    exact ⟨hlow, hhigh⟩
  | succ fuel ih =>
    rw [lowerBound]
    split
    · next hlt =>
      have hmid : lo + (hi - lo) / 2 < l.length := by omega
      obtain ⟨m, hm⟩ : ∃ m, l[lo + (hi - lo) / 2]? = some m :=
        ⟨_, List.getElem?_eq_getElem hmid⟩
      dsimp only
      rw [hm, Option.any_some]
      split
      · next hbelow =>
        refine ih _ _ (by omega) (by omega) hhi (fun j a hj ha ↦ ?_) hhigh
        exact (hmono j _ a m (by omega) ha hm).trans_lt (of_decide_eq_true hbelow)
      · next habove =>
        refine ih _ _ (by omega) (by omega) (by omega) hlow fun j a hj ha ↦ ?_
        have hk : k ≤ key m := by simpa using habove
        exact hk.trans (hmono _ j m a hj hm ha)
    · next hge =>
      obtain rfl : hi = lo := by omega
      exact ⟨hlow, hhigh⟩

theorem of_searchFor {i : ℕ} (h : searchFor key l k = some i) :
    ∃ a, l[i]? = some a ∧ key a = k := by
  unfold searchFor at h
  dsimp only at h
  split at h
  · next hany =>
    obtain rfl := Option.some.inj h
    obtain ⟨a, ha, hk⟩ := (Option.any_eq_true _ _).1 hany
    exact ⟨a, ha, of_decide_eq_true hk⟩
  · cases h

/-- Keys of a sorted list stand at one position. -/
theorem eq_of_key_eq (hsorted : l.Pairwise (key · < key ·)) {i j : ℕ} {a b : α}
    (ha : l[i]? = some a) (hb : l[j]? = some b) (hkey : key a = key b) : i = j := by
  obtain ⟨hi, rfl⟩ := List.getElem?_eq_some_iff.1 ha
  obtain ⟨hj, rfl⟩ := List.getElem?_eq_some_iff.1 hb
  rcases Nat.lt_trichotomy i j with hlt | rfl | hlt
  · exact absurd hkey (List.pairwise_iff_getElem.1 hsorted i j hi hj hlt).ne
  · rfl
  · exact absurd hkey.symm (List.pairwise_iff_getElem.1 hsorted j i hj hi hlt).ne

/-- On a sorted list the search is exact. -/
theorem searchFor_eq_some_iff (hsorted : l.Pairwise (key · < key ·)) {i : ℕ} :
    searchFor key l k = some i ↔ ∃ a, l[i]? = some a ∧ key a = k := by
  refine ⟨of_searchFor, ?_⟩
  rintro ⟨a, ha, rfl⟩
  obtain ⟨hi, -⟩ := List.getElem?_eq_some_iff.1 ha
  obtain ⟨hlow, hhigh⟩ := lowerBound_spec (k := key a) hsorted l.length 0 l.length
    (by omega) (by omega) le_rfl (fun j _ hj ↦ absurd hj (by omega))
    fun j b hj hb ↦ absurd (List.getElem?_eq_some_iff.1 hb).choose (by omega)
  have hle : lowerBound key l (key a) l.length 0 l.length ≤ i := by
    by_contra hlt
    exact lt_irrefl _ (hlow i a (by omega) ha)
  obtain ⟨b, hb⟩ : ∃ b, l[lowerBound key l (key a) l.length 0 l.length]? = some b :=
    ⟨_, List.getElem?_eq_getElem (by omega)⟩
  have hba : key b = key a := by
    refine le_antisymm ?_ (hhigh _ b le_rfl hb)
    rcases hle.eq_or_lt with heq | hlt
    · rw [heq, ha] at hb
      exact (Option.some.inj hb ▸ le_rfl)
    · obtain ⟨hj, rfl⟩ := List.getElem?_eq_some_iff.1 hb
      obtain ⟨_, rfl⟩ := List.getElem?_eq_some_iff.1 ha
      exact (List.pairwise_iff_getElem.1 hsorted _ i hj hi hlt).le
  unfold searchFor
  dsimp only
  rw [hb, Option.any_some, if_pos (decide_eq_true hba), eq_of_key_eq hsorted hb ha hba]

end BinarySearch
