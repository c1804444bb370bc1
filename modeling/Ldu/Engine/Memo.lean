import Mathlib.Logic.Function.Basic

/-!
# Memo tables

A memo table remembers one value for each key, with a tag that says what it was computed for. A
lookup answers with the value that is there when its tag is the one asked for, and otherwise
computes the value and remembers it (`Memo.fetch`). Nothing else is checked, so the answer is the
computed value exactly when what is there, if it has the tag, is that value (`Memo.RightAt`). A
lookup keeps what is right for the other keys, and is right afterwards for its own.
-/

/-- A memo table with keys `K`, tags `T` and values `V`. -/
abbrev Memo (K T V : Type*) := K → Option (T × V)

namespace Memo

variable {K T V : Type*}

def empty : Memo K T V := fun _ ↦ none

/-- What is remembered for `k`, if it has the tag `t`, is `v`. -/
def RightAt (m : Memo K T V) (k : K) (t : T) (v : V) : Prop :=
  ∀ w, m k = some (t, w) → w = v

variable [DecidableEq K] [DecidableEq T]

/-- The answer for `k` under the tag `t`, where `v` is the value that would be computed, and the
table afterwards. -/
def fetch (m : Memo K T V) (k : K) (t : T) (v : V) : V × Memo K T V :=
  match m k with
  | some (t', w) => if t' = t then (w, m) else (v, Function.update m k (some (t, v)))
  | none => (v, Function.update m k (some (t, v)))

variable {m : Memo K T V} {k k' : K} {t t' : T} {v v' : V}

/-- A lookup answers from the table or changes it. -/
theorem fetch_cases (m : Memo K T V) (k : K) (t : T) (v : V) :
    (∃ w, m k = some (t, w) ∧ m.fetch k t v = (w, m)) ∨
    ((∀ w, m k ≠ some (t, w)) ∧ m.fetch k t v = (v, Function.update m k (some (t, v)))) := by
  unfold fetch
  rcases h : m k with - | ⟨t', w⟩
  · exact .inr ⟨by simp, rfl⟩
  · by_cases ht : t' = t
    · subst ht
      exact .inl ⟨w, rfl, if_pos rfl⟩
    · exact .inr ⟨by simp [ht], if_neg ht⟩

/-- The answer is the computed value exactly when the table is right. -/
theorem fetch_fst_eq_iff : (m.fetch k t v).1 = v ↔ m.RightAt k t v := by
  obtain ⟨w, hw, h⟩ | ⟨hw, h⟩ := fetch_cases m k t v
  · rw [h]
    constructor
    · intro hv w' hw'
      rw [hw] at hw'
      obtain ⟨-, rfl⟩ := Prod.mk.inj (Option.some.inj hw')
      exact hv
    · intro hr
      exact hr w hw
  · rw [h]
    exact iff_of_true rfl fun w hw' ↦ absurd hw' (hw w)

/-- A lookup keeps what is right. -/
theorem RightAt.fetch (h : m.RightAt k' t' v') (hv : k' = k → t' = t → v' = v) :
    (m.fetch k t v).2.RightAt k' t' v' := by
  obtain ⟨w, -, hf⟩ | ⟨-, hf⟩ := fetch_cases m k t v
  · rw [hf]
    exact h
  · rw [hf]
    intro w hw
    dsimp only at hw
    by_cases hk : k' = k
    · subst hk
      rw [Function.update_self] at hw
      obtain ⟨ht, hvw⟩ := Prod.mk.inj (Option.some.inj hw)
      rw [← hvw, hv rfl ht.symm]
    · rw [Function.update_of_ne hk] at hw
      exact h w hw

end Memo
