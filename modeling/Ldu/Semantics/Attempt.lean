import Mathlib.Data.List.Basic
import Mathlib.Order.Nat

/-!
# Computations that may stop

An `Attempt` changes a state and returns a value, or stops for a reason; what follows a computation
that has stopped is not run. Recursive programs are computed with fuel, and running out of it is one
of the reasons.

Two runs of one program are compared through its text (`Congruence`): a relation between outcomes
that sequences of computations respect, and then every program built from related parts. With more
and more fuel a program settles on an outcome (`Settles`); that this is another one than running out
of fuel is what termination means (`Halts`), and is proved part by part (`Halts.bind`).
-/

/-- A computation that returns a value and a state, or stops. -/
def Attempt (X S α : Type) := S → Except X (α × S)

namespace Attempt

variable {X S α β : Type}

instance : Monad (Attempt X S) where
  pure a := fun s ↦ .ok (a, s)
  bind x f := fun s ↦
    match x s with
    | .ok (a, s') => f a s'
    | .error e => .error e

/-- Stop for the reason `e`. -/
def stop (e : X) : Attempt X S α := fun _ ↦ .error e

def get : Attempt X S S := fun s ↦ .ok (s, s)

def modify (f : S → S) : Attempt X S Unit := fun s ↦ .ok ((), f s)

theorem bind_of_ok {x : Attempt X S α} {s s' : S} {a : α} (h : x s = .ok (a, s'))
    (f : α → Attempt X S β) : (x >>= f) s = f a s' := by
  change (match x s with | .ok (a, s') => f a s' | .error e => .error e) = _
  rw [h]

theorem bind_of_error {x : Attempt X S α} {s : S} {e : X} (h : x s = .error e)
    (f : α → Attempt X S β) : (x >>= f) s = .error e := by
  change (match x s with | .ok (a, s') => f a s' | .error e => .error e) = _
  rw [h]

/-- A sequence that returns has returned in both parts. -/
theorem exists_of_bind {x : Attempt X S α} {f : α → Attempt X S β} {s : S} {r : β × S}
    (h : (x >>= f) s = .ok r) : ∃ a s', x s = .ok (a, s') ∧ f a s' = .ok r := by
  rcases hx : x s with e | ⟨a, s'⟩
  · rw [bind_of_error hx] at h
    cases h
  · rw [bind_of_ok hx] at h
    exact ⟨a, s', rfl, h⟩

/-! ### Comparing two runs -/

/-- A relation between the outcomes of two computations that sequences respect. -/
structure Congruence (X S : Type) where
  rel : ∀ {α : Type}, Except X (α × S) → Except X (α × S) → Prop
  refl : ∀ {α : Type} (x : Except X (α × S)), rel x x
  bind : ∀ {α β : Type} {x y : Attempt X S α} {f g : α → Attempt X S β} {s : S},
    rel (x s) (y s) → (∀ a s', rel (f a s') (g a s')) → rel ((x >>= f) s) ((y >>= g) s)

/-- The same outcome, unless the first has stopped for the reason `e`. -/
def Congruence.refines (e : X) : Congruence X S where
  rel x y := x = .error e ∨ x = y
  refl x := .inr rfl
  bind {α β x y f g s} h hfg := by
    rcases h with h | h
    · exact .inl (bind_of_error h f)
    · rcases hy : y s with e' | ⟨a, s'⟩
      · right
        rw [bind_of_error (h.trans hy), bind_of_error hy]
      · rw [bind_of_ok (h.trans hy), bind_of_ok hy]
        exact hfg a s'

/-- The same outcome, unless the first has stopped for the reason `e` and the second does not
return. -/
def Congruence.fails (e : X) : Congruence X S where
  rel x y := (x = .error e ∧ ∀ r, y ≠ .ok r) ∨ x = y
  refl x := .inr rfl
  bind {α β x y f g s} h hfg := by
    rcases h with ⟨h, hy⟩ | h
    · refine .inl ⟨bind_of_error h f, fun r hr ↦ ?_⟩
      obtain ⟨a, s', ha, -⟩ := exists_of_bind hr
      exact hy _ ha
    · rcases hy : y s with e' | ⟨a, s'⟩
      · right
        rw [bind_of_error (h.trans hy), bind_of_error hy]
      · rw [bind_of_ok (h.trans hy), bind_of_ok hy]
        exact hfg a s'

/-! ### Termination -/

section Halts

variable {fuel : X} {x y : ℕ → Attempt X S α} {f : ℕ → α → Attempt X S β} {s : S}

/-- With enough fuel the outcome is `r`. -/
def Settles (x : ℕ → Attempt X S α) (s : S) (r : Except X (α × S)) : Prop :=
  ∃ n, ∀ m, n ≤ m → x m s = r

/-- With enough fuel the outcome is no lack of fuel. -/
def Halts (fuel : X) (x : ℕ → Attempt X S α) (s : S) : Prop :=
  ∃ r, Settles x s r ∧ r ≠ .error fuel

theorem Halts.of_const {r : Except X (α × S)} (h : ∀ n, x n s = r) (hr : r ≠ .error fuel) :
    Halts fuel x s :=
  ⟨r, ⟨0, fun n _ ↦ h n⟩, hr⟩

theorem Halts.of_eq {s' : S} (h : ∀ n, x n s = y n s') (hy : Halts fuel y s') :
    Halts fuel x s := by
  obtain ⟨r, ⟨n, hn⟩, hr⟩ := hy
  exact ⟨r, ⟨n, fun m hm ↦ (h m).trans (hn m hm)⟩, hr⟩

/-- A program that spends one unit of fuel before it goes on. -/
theorem Halts.of_succ (h : Halts fuel (fun m ↦ x (m + 1)) s) : Halts fuel x s := by
  obtain ⟨r, ⟨n, hn⟩, hr⟩ := h
  refine ⟨r, ⟨n + 1, fun m hm ↦ ?_⟩, hr⟩
  obtain ⟨k, rfl⟩ := Nat.exists_eq_add_of_le' hm
  exact hn (k + n) (by omega)

/-- A sequence halts when its first part does and, from where that ends, its second part. -/
theorem Halts.bind (hx : Halts fuel x s)
    (hf : ∀ a s', Settles x s (.ok (a, s')) → Halts fuel (fun m ↦ f m a) s') :
    Halts fuel (fun m ↦ x m >>= f m) s := by
  obtain ⟨r, ⟨n, hn⟩, hr⟩ := hx
  rcases r with e | ⟨a, s'⟩
  · exact ⟨.error e, ⟨n, fun m hm ↦ bind_of_error (hn m hm) _⟩, by simpa using hr⟩
  · obtain ⟨r', ⟨n', hn'⟩, hr'⟩ := hf a s' ⟨n, hn⟩
    refine ⟨r', ⟨max n n', fun m hm ↦ ?_⟩, hr'⟩
    exact (bind_of_ok (hn m (le_trans (le_max_left n n') hm)) _).trans
      (hn' m (le_trans (le_max_right n n') hm))

theorem Halts.exists_ne (h : Halts fuel x s) : ∃ n, x n s ≠ .error fuel := by
  obtain ⟨r, ⟨n, hn⟩, hr⟩ := h
  exact ⟨n, by rwa [hn n le_rfl]⟩

theorem Settles.exists_eq {r : Except X (α × S)} (h : Settles x s r) : ∃ n, x n s = r := by
  obtain ⟨n, hn⟩ := h
  exact ⟨n, hn n le_rfl⟩

end Halts

end Attempt
