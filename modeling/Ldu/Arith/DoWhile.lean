import Mathlib.Order.Basic

/-!
# Loops that test after the body

`doWhile body again fuel s` runs the body at least once and repeats it while `again` holds of the
state it leaves; it is `none` when the fuel runs out. `doWhile_spec` is the rule for total
correctness: a property of the head of the loop, one of the states the body leaves, and a measure.
-/

/-- Run `body`, and again while the state it leaves satisfies `again`. -/
def doWhile {S : Type*} (body : S → S) (again : S → Bool) : ℕ → S → Option S
  | 0, _ => none
  | fuel + 1, s => if again (body s) then doWhile body again fuel (body s) else some (body s)

/-- Total correctness of a loop. -/
theorem doWhile_spec {S : Type*} {body : S → S} {again : S → Bool} (Head Post : S → Prop)
    (μ : S → ℕ) (hbody : ∀ s, Head s → Post (body s))
    (hagain : ∀ s, Head s → again (body s) = true → Head (body s) ∧ μ (body s) < μ s)
    {fuel : ℕ} {s : S} (hs : Head s) (hμ : μ s < fuel) :
    ∃ s', doWhile body again fuel s = some s' ∧ Post s' ∧ again s' = false := by
  induction fuel generalizing s with
  | zero => exact absurd hμ (Nat.not_lt_zero _)
  | succ fuel ih =>
    unfold doWhile
    split
    · next h =>
      obtain ⟨hhead, hlt⟩ := hagain s hs h
      exact ih hhead (Nat.lt_of_lt_of_le hlt (Nat.le_of_lt_succ hμ))
    · next h => exact ⟨_, rfl, hbody s hs, by simpa using h⟩
