import Ldu.Checked.Run

/-!
# Computations that are given up or stopped

A computation that does not find what it looks for is given up, and the one around it may go on
without it (`attempt`). An exception stops them all: nothing in here catches it.

`Found` and `Gives` say that a computation ends without a fault and what then holds of its value.
The loops repeat a computation as long as it finds something (`collect`), or a number of times,
along a position (`times`); they end when what they repeat does, from every position that they get
to.
-/

namespace Checked

/-! ### Computations that may find nothing -/

section Found

variable {α β : Type} {x : OptionT Checked α} {f : α → OptionT Checked β} {post : α → Prop}

/-- The computation ends, and `post` holds of what it finds. -/
def Found (x : OptionT Checked α) (post : α → Prop) : Prop :=
  ∃ o, x.run = .ok o ∧ ∀ a, o = some a → post a

theorem run_liftM (y : Checked α) :
    (liftM y : OptionT Checked α).run = y >>= fun a ↦ .ok (some a) := by
  cases y <;> rfl

/-- A sequence of two computations that are as two that may only find nothing. -/
theorem run_bind_eq_ok {o : Option α} {g : α → Option β} (hx : x.run = .ok o)
    (hf : ∀ a, o = some a → (f a).run = .ok (g a)) : (x >>= f).run = .ok (o >>= g) := by
  rw [OptionT.run_bind, Option.elimM, hx]
  cases o with
  | none => rfl
  | some a => exact hf a rfl

theorem run_bind_of_some {a : α} (hx : x.run = .ok (some a)) : (x >>= f).run = (f a).run := by
  rw [OptionT.run_bind, Option.elimM, hx]
  rfl

theorem run_bind_of_none (hx : x.run = .ok none) : (x >>= f).run = .ok none := by
  rw [OptionT.run_bind, Option.elimM, hx]
  rfl

/-- A choice is between two computations that end. -/
theorem run_ite {p : Prop} [Decidable p] {y : OptionT Checked α} {a b : Option α}
    (hx : p → x.run = .ok a) (hy : ¬p → y.run = .ok b) :
    (if p then x else y).run = .ok (if p then a else b) := by
  split
  · next h => exact hx h
  · next h => exact hy h

/-- A guard against `q`. -/
theorem run_guard_bind_unless {p q : Prop} [Decidable p] [Decidable q]
    {f : Unit → OptionT Checked α} {o : Option α} (hpq : p ↔ ¬q) (h : p → (f ()).run = .ok o) :
    (guard p >>= f).run = .ok (if q then none else o) := by
  rw [run_guard_bind]
  by_cases hp : p
  · rw [if_pos hp, if_neg (hpq.1 hp), h hp]
  · rw [if_neg hp, if_pos (not_not.1 fun hq ↦ hp (hpq.2 hq))]

theorem run_orElse {y : OptionT Checked α} {a b : Option α} (hx : x.run = .ok a)
    (hy : y.run = .ok b) : (x <|> y).run = .ok (a.or b) := by
  rw [OptionT.run_orElse, Option.elimM, hx]
  cases a with
  | none => exact hy
  | some a => rfl

theorem run_bind_eq_error {fault : Fault} (hx : x.run = .error fault) :
    (x >>= f).run = .error fault := by
  rw [OptionT.run_bind, Option.elimM, hx]
  rfl

theorem Found.mono {post' : α → Prop} (h : Found x post) (hpost : ∀ a, post a → post' a) :
    Found x post' := by
  obtain ⟨o, ho, h⟩ := h
  exact ⟨o, ho, fun a ha ↦ hpost a (h a ha)⟩

theorem found_pure {a : α} (h : post a) : Found (pure a) post :=
  ⟨some a, rfl, fun _ ha ↦ Option.some.inj ha ▸ h⟩

theorem found_failure : Found (failure : OptionT Checked α) post :=
  ⟨none, rfl, nofun⟩

theorem found_bind {mid : α → Prop} {post : β → Prop} (hx : Found x mid)
    (hf : ∀ a, mid a → Found (f a) post) : Found (x >>= f) post := by
  obtain ⟨o, ho, hmid⟩ := hx
  cases o with
  | none => exact ⟨none, by rw [OptionT.run_bind, Option.elimM, ho]; rfl, nofun⟩
  | some a =>
    obtain ⟨o', ho', hpost⟩ := hf a (hmid a rfl)
    exact ⟨o', by rw [OptionT.run_bind, Option.elimM, ho]; exact ho', hpost⟩

theorem found_guard {p : Prop} [Decidable p] :
    Found (guard p : OptionT Checked Unit) fun _ ↦ p := by
  unfold guard
  split
  · next hp => exact found_pure hp
  · exact found_failure

end Found

/-! ### Computations that may also be stopped -/

/-- Why a computation has no value: what it looks for is not there, or an exception is thrown. -/
inductive Exit
  | missing | thrown
  deriving DecidableEq, Repr

abbrev Exits (α : Type) := ExceptT Exit Checked α

namespace Exits

variable {α β σ : Type}

instance : MonadLift (OptionT Checked) Exits where
  monadLift x := ExceptT.mk (x.run >>= fun o ↦ .ok (o.elim (.error .missing) .ok))

/-- Go on without what is not found. -/
def attempt (x : Exits α) : Exits (Option α) :=
  ExceptT.mk (x.run >>= fun
    | .ok a => .ok (.ok (some a))
    | .error .missing => .ok (.ok none)
    | .error .thrown => .ok (.error .thrown))

/-- The values for the numbers from `i` on, at most `n` of them, up to the first that is not
found. -/
def collect (f : ℕ → Exits α) : ℕ → ℕ → Exits (List α)
  | 0, _ => return []
  | n + 1, i => do
    match ← attempt (f i) with
    | some a => return a :: (← collect f n (i + 1))
    | none => return []

/-- The values of `n` rounds, each of which leaves a position to the next one. -/
def times (f : σ → Exits (α × σ)) : ℕ → σ → Exits (List α × σ)
  | 0, s => return ([], s)
  | n + 1, s => do
    let (a, s) ← f s
    let (as, s) ← times f n s
    return (a :: as, s)

/-- The computation ends, and `post` holds of its value if it has one. -/
def Gives (x : Exits α) (post : α → Prop) : Prop :=
  ∃ r, x.run = .ok r ∧ ∀ a, r = .ok a → post a

variable {x : Exits α} {f : α → Exits β} {post : α → Prop}

theorem Gives.safe (h : Gives x post) : Safe x.run := by
  obtain ⟨r, hr, -⟩ := h
  exact ⟨r, hr⟩

theorem Gives.mono {post' : α → Prop} (h : Gives x post) (hpost : ∀ a, post a → post' a) :
    Gives x post' := by
  obtain ⟨r, hr, h⟩ := h
  exact ⟨r, hr, fun a ha ↦ hpost a (h a ha)⟩

theorem gives_pure {a : α} (h : post a) : Gives (pure a) post :=
  ⟨.ok a, rfl, fun _ ha ↦ Except.ok.inj ha ▸ h⟩

theorem gives_throw (e : Exit) : Gives (throw e : Exits α) post :=
  ⟨.error e, rfl, nofun⟩

theorem gives_bind {mid : α → Prop} {post : β → Prop} (hx : Gives x mid)
    (hf : ∀ a, mid a → Gives (f a) post) : Gives (x >>= f) post := by
  obtain ⟨r, hr, hmid⟩ := hx
  cases r with
  | error e => exact ⟨.error e, by rw [ExceptT.run_bind, hr]; rfl, nofun⟩
  | ok a =>
    obtain ⟨r', hr', hpost⟩ := hf a (hmid a rfl)
    exact ⟨r', by rw [ExceptT.run_bind, hr]; exact hr', hpost⟩

theorem gives_lift {y : OptionT Checked α} (h : Found y post) :
    Gives (liftM y : Exits α) post := by
  obtain ⟨o, ho, hpost⟩ := h
  refine ⟨o.elim (.error .missing) .ok, bind_eq_ok.2 ⟨o, ho, rfl⟩, fun a ha ↦ hpost a ?_⟩
  cases o with
  | none => cases ha
  | some a' => exact congrArg some (Except.ok.inj ha)

theorem run_bind_lift (y : Checked α) :
    ((liftM y : Exits α) >>= f).run = y >>= fun a ↦ (f a).run := by
  cases y <;> rfl

theorem gives_attempt (h : Gives x post) : Gives (attempt x) fun o ↦ ∀ a, o = some a → post a := by
  obtain ⟨r, hr, hpost⟩ := h
  match r with
  | .ok a =>
    refine ⟨.ok (some a), bind_eq_ok.2 ⟨_, hr, rfl⟩, ?_⟩
    rintro _ h a' rfl
    exact hpost a' (congrArg _ (Option.some.inj (Except.ok.inj h)))
  | .error .missing =>
    refine ⟨.ok none, bind_eq_ok.2 ⟨_, hr, rfl⟩, ?_⟩
    rintro _ h a' rfl
    cases h
  | .error .thrown => exact ⟨.error .thrown, bind_eq_ok.2 ⟨_, hr, rfl⟩, nofun⟩

theorem gives_collect {f : ℕ → Exits α} {n i : ℕ}
    (h : ∀ k, i ≤ k → k < i + n → Gives (f k) fun _ ↦ True) :
    Gives (collect f n i) fun _ ↦ True := by
  induction n generalizing i with
  | zero => exact gives_pure trivial
  | succ n ih =>
    refine gives_bind (gives_attempt (h i le_rfl (by omega))) fun o _ ↦ ?_
    cases o with
    | none => exact gives_pure trivial
    | some a =>
      exact gives_bind (ih fun k hk hlt ↦ h k (by omega) (by omega)) fun _ _ ↦ gives_pure trivial

/-- What every round keeps holds of the position behind the last one. -/
theorem gives_times {f : σ → Exits (α × σ)} (inv : σ → Prop)
    (h : ∀ s, inv s → Gives (f s) fun r ↦ inv r.2) {n : ℕ} {s : σ} (hs : inv s) :
    Gives (times f n s) fun r ↦ inv r.2 := by
  induction n generalizing s with
  | zero => exact gives_pure hs
  | succ n ih =>
    refine gives_bind (h s hs) fun r hr ↦ ?_
    exact gives_bind (ih hr) fun r' hr' ↦ gives_pure hr'

end Exits

end Checked
