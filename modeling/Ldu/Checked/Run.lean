import Ldu.Checked.Arith

/-!
# Loops and readers in checked arithmetic

A loop repeats a step until the step stops it, at most a number of times (`iterate`). It is safe
exactly when its step is at every state that the loop gets to (`safe_iterate`, `Within`).

A reader is a computation on a state that may find nothing, and then still leaves a state behind.
`EndsWith` says that it ends with a value, and what then holds; a sequence of readers ends when its
parts do (`endsWith_bind`).
-/

namespace Checked

/-! ### Loops -/

section Loop

variable {σ : Type} (step : σ → Checked (Option σ))

/-- Repeat a step until it stops, at most `n` times. The state that is left is the one before the
step that stopped. -/
def iterate : ℕ → σ → Checked σ
  | 0, s => .ok s
  | n + 1, s => do
    match ← step s with
    | some s' => iterate n s'
    | none => return s

/-- The loop takes its step at the second state, if it starts at the first one with `n` rounds
left. -/
inductive Within : ℕ → σ → σ → Prop
  | here (n : ℕ) (s : σ) : Within (n + 1) s s
  | there {n : ℕ} {s s₁ s' : σ} (hstep : step s = .ok (some s₁)) (hrest : Within n s₁ s') :
    Within (n + 1) s s'

variable {step}

theorem safe_iterate {n : ℕ} {s : σ} :
    Safe (iterate step n s) ↔ ∀ s', Within step n s s' → Safe (step s') := by
  induction n generalizing s with
  | zero =>
    exact ⟨nofun, fun _ ↦ safe_ok _⟩
  | succ n ih =>
    rw [iterate, safe_bind]
    constructor
    · rintro ⟨o, ho, hrest⟩ s' hwithin
      cases hwithin with
      | here => exact ⟨o, ho⟩
      | there hstep hwithin =>
        obtain rfl := Except.ok.inj (ho.symm.trans hstep)
        exact ih.1 hrest s' hwithin
    · intro hall
      obtain ⟨o, ho⟩ := hall s (.here n s)
      refine ⟨o, ho, ?_⟩
      cases o with
      | none => exact safe_pure s
      | some s₁ => exact ih.2 fun s' hwithin ↦ hall s' (.there ho hwithin)

/-- What every step keeps holds wherever the loop gets to. -/
theorem Within.induction {p : σ → Prop} (hkeep : ∀ s s₁, p s → step s = .ok (some s₁) → p s₁)
    {n : ℕ} {s s' : σ} (hwithin : Within step n s s') (hs : p s) : p s' := by
  induction hwithin with
  | here => exact hs
  | there hstep _ ih => exact ih (hkeep _ _ hs hstep)

/-- A loop that counts its rounds, goes on while there are more of them, and whose step is safe for
some numbers only, is safe when it is for all numbers that it gets to. -/
theorem safe_iterate_while (num : σ → ℕ) (inv more : ℕ → Prop) {p : ℕ → Prop}
    (hkeep : ∀ i, inv i → more i → inv (i + 1))
    (hstop : ∀ s, inv (num s) → ¬more (num s) → step s = .ok none)
    (hstep : ∀ s, inv (num s) → more (num s) → p (num s) →
      ∃ s₁, step s = .ok (some s₁) ∧ num s₁ = num s + 1)
    (hfault : ∀ s, inv (num s) → more (num s) → Safe (step s) → p (num s))
    {n : ℕ} {s : σ} (hs : inv (num s)) :
    Safe (iterate step n s) ↔ ∀ i < n, (∀ j ≤ i, more (num s + j)) → p (num s + i) := by
  induction n generalizing s with
  | zero => exact ⟨fun _ ↦ nofun, fun _ ↦ safe_ok _⟩
  | succ n ih =>
    by_cases hmore : more (num s)
    · have hkept := hkeep _ hs hmore
      rw [iterate, safe_bind]
      constructor
      · rintro ⟨o, ho, hrest⟩ i hi hall
        have hnow := hfault s hs hmore ⟨o, ho⟩
        obtain ⟨s₁, hs₁, hnum⟩ := hstep s hs hmore hnow
        obtain rfl := Except.ok.inj (hs₁.symm.trans ho)
        have hshift : ∀ k, num s + (k + 1) = num s₁ + k := by omega
        cases i with
        | zero => exact hnow
        | succ i =>
          rw [hshift]
          refine (ih (by rwa [hnum])).1 hrest i (by omega) fun j hj ↦ ?_
          rw [← hshift]
          exact hall (j + 1) (by omega)
      · intro hall
        have hnow := hall 0 (by omega) fun j hj ↦ by rwa [Nat.le_zero.1 hj]
        obtain ⟨s₁, hs₁, hnum⟩ := hstep s hs hmore hnow
        have hshift : ∀ k, num s₁ + k = num s + (k + 1) := by omega
        refine ⟨_, hs₁, (ih (by rwa [hnum])).2 fun i hi hmores ↦ ?_⟩
        rw [hshift]
        refine hall (i + 1) (by omega) fun j hj ↦ ?_
        cases j with
        | zero => exact hmore
        | succ j =>
          rw [← hshift]
          exact hmores j (by omega)
    · rw [iterate, hstop s hs hmore]
      exact ⟨fun _ i _ hall ↦ absurd (hall 0 (by omega)) hmore, fun _ ↦ safe_pure _⟩

/-- The same for a loop that takes all its rounds. -/
theorem safe_iterate_count {num : σ → ℕ} {p : ℕ → Prop}
    (hstep : ∀ s, p (num s) → ∃ s₁, step s = .ok (some s₁) ∧ num s₁ = num s + 1)
    (hfault : ∀ s, Safe (step s) → p (num s)) {n : ℕ} {s : σ} :
    Safe (iterate step n s) ↔ ∀ i < n, p (num s + i) := by
  rw [safe_iterate_while num (fun _ ↦ True) (fun _ ↦ True) (fun _ _ _ ↦ trivial)
    (fun _ _ h ↦ absurd trivial h) (fun s _ _ ↦ hstep s) (fun s _ _ ↦ hfault s) trivial]
  simp only [implies_true, forall_const]

end Loop

/-! ### Readers -/

/-- A computation on a state that may find nothing. -/
abbrev Reader (σ α : Type) := OptionT (StateT σ Checked) α

namespace Reader

variable {σ α β : Type}

/-- A fault. -/
def fault (e : Fault) : Reader σ α :=
  OptionT.mk fun _ ↦ .error e

/-- A computation that has nothing to do with the state. -/
def lift (x : Checked α) : Reader σ α :=
  OptionT.mk fun s ↦ x >>= fun a ↦ .ok (some a, s)

/-- Go on whether something is found or not. -/
def attempt (x : Reader σ α) : Reader σ (Option α) :=
  OptionT.mk fun s ↦ x.run s >>= fun r ↦ .ok (some r.1, r.2)

/-- The reader ends with a value or without, in a state of which `post` holds. -/
def EndsWith (x : Reader σ α) (s : σ) (post : Option α → σ → Prop) : Prop :=
  ∃ o s', x.run s = .ok (o, s') ∧ post o s'

variable {x : Reader σ α} {f : α → Reader σ β} {s : σ} {post : Option α → σ → Prop}

theorem run_bind (x : Reader σ α) (f : α → Reader σ β) (s : σ) :
    (x >>= f).run s = x.run s >>= fun r ↦
      match r.1 with
      | some a => (f a).run r.2
      | none => .ok (none, r.2) := by
  rw [OptionT.run_bind, Option.elimM]
  change (x.run s >>= fun r ↦ (r.1.elim (pure none) fun a ↦ (f a).run) r.2) = _
  congr 1
  funext r
  obtain ⟨o, s'⟩ := r
  cases o <;> rfl

@[simp] theorem run_pure (a : α) (s : σ) : (pure a : Reader σ α).run s = .ok (some a, s) := rfl

theorem run_bind_get (f : σ → Reader σ β) (s : σ) : (get >>= f).run s = (f s).run s := by
  rw [run_bind]
  rfl

theorem run_bind_set (s' : σ) (f : PUnit → Reader σ β) (s : σ) :
    (set s' >>= f).run s = (f ⟨⟩).run s' := by
  rw [run_bind]
  rfl

theorem run_bind_guard {p : Prop} [Decidable p] (f : Unit → Reader σ β) (s : σ) :
    (guard p >>= f).run s = if p then (f ()).run s else .ok (none, s) := by
  rw [run_bind, guard]
  split <;> rfl

theorem run_bind_lift (y : Checked α) (f : α → Reader σ β) (s : σ) :
    (lift y >>= f).run s = y >>= fun a ↦ (f a).run s := by
  rw [run_bind]
  cases y <;> rfl

theorem run_bind_attempt (x : Reader σ α) (f : Option α → Reader σ β) (s : σ) :
    (attempt x >>= f).run s = x.run s >>= fun r ↦ (f r.1).run r.2 := by
  rw [run_bind]
  change (x.run s >>= fun r ↦ Except.ok (some r.1, r.2)) >>= _ = _
  cases x.run s <;> rfl

theorem endsWith_bind {post : Option β → σ → Prop} :
    EndsWith (x >>= f) s post ↔
      EndsWith x s fun o s' ↦
        match o with
        | some a => EndsWith (f a) s' post
        | none => post none s' := by
  unfold EndsWith
  constructor
  · rintro ⟨o, s', h, hpost⟩
    rw [run_bind] at h
    obtain ⟨⟨a, s₁⟩, ha, h⟩ := bind_eq_ok.1 h
    refine ⟨a, s₁, ha, ?_⟩
    cases a with
    | none =>
      cases h
      exact hpost
    | some a => exact ⟨o, s', h, hpost⟩
  · rintro ⟨a, s₁, ha, h⟩
    cases a with
    | none => exact ⟨none, s₁, by rw [run_bind, ha]; rfl, h⟩
    | some a =>
      obtain ⟨o, s', h, hpost⟩ := h
      exact ⟨o, s', by rw [run_bind, ha]; exact h, hpost⟩

@[simp] theorem endsWith_pure {a : α} :
    EndsWith (pure a : Reader σ α) s post ↔ post (some a) s := by
  constructor
  · rintro ⟨o, s', h, hpost⟩
    cases h
    exact hpost
  · exact fun h ↦ ⟨_, _, rfl, h⟩

theorem EndsWith.mono {post' : Option α → σ → Prop} (h : EndsWith x s post)
    (hpost : ∀ o s', post o s' → post' o s') : EndsWith x s post' := by
  obtain ⟨o, s', hrun, h⟩ := h
  exact ⟨o, s', hrun, hpost o s' h⟩

theorem EndsWith.safe (h : EndsWith x s post) : Safe (x.run s) := by
  obtain ⟨o, s', hrun, -⟩ := h
  exact ⟨_, hrun⟩

/-- What a reader ends with is what its run says. -/
theorem EndsWith.of_run (h : EndsWith x s post) {o : Option α} {s' : σ}
    (hrun : x.run s = .ok (o, s')) : post o s' := by
  obtain ⟨o', s'', hrun', hpost⟩ := h
  obtain ⟨rfl, rfl⟩ := Prod.mk.inj (Except.ok.inj (hrun'.symm.trans hrun))
  exact hpost

theorem endsWith_attempt {post : Option (Option α) → σ → Prop} :
    EndsWith (attempt x) s post ↔ EndsWith x s fun o s' ↦ post (some o) s' := by
  unfold EndsWith attempt
  constructor
  · rintro ⟨o, s', h, hpost⟩
    obtain ⟨⟨a, s₁⟩, ha, h⟩ := bind_eq_ok.1 h
    cases h
    exact ⟨a, _, ha, hpost⟩
  · rintro ⟨a, s₁, ha, hpost⟩
    exact ⟨some a, s₁, bind_eq_ok.2 ⟨_, ha, rfl⟩, hpost⟩

theorem endsWith_lift {y : Checked α} {post : Option α → σ → Prop} :
    EndsWith (lift y : Reader σ α) s post ↔ ∃ a, y = .ok a ∧ post (some a) s := by
  unfold EndsWith lift
  constructor
  · rintro ⟨o, s', h, hpost⟩
    obtain ⟨a, ha, h⟩ := bind_eq_ok.1 h
    cases h
    exact ⟨a, ha, hpost⟩
  · rintro ⟨a, ha, hpost⟩
    exact ⟨some a, s, bind_eq_ok.2 ⟨a, ha, rfl⟩, hpost⟩

@[simp] theorem endsWith_failure : EndsWith (failure : Reader σ α) s post ↔ post none s := by
  constructor
  · rintro ⟨o, s', h, hpost⟩
    cases h
    exact hpost
  · exact fun h ↦ ⟨_, _, rfl, h⟩

theorem endsWith_guard {p : Prop} [Decidable p] {post : Option Unit → σ → Prop} :
    EndsWith (guard p : Reader σ Unit) s post ↔ if p then post (some ()) s else post none s := by
  unfold guard
  split
  · exact endsWith_pure
  · exact endsWith_failure

theorem endsWith_bind_guard {p : Prop} [Decidable p] {f : Unit → Reader σ β}
    {post : Option β → σ → Prop} (hyes : p → EndsWith (f ()) s post) (hno : ¬p → post none s) :
    EndsWith (guard p >>= f) s post := by
  refine endsWith_bind.2 (endsWith_guard.2 ?_)
  split
  · next hp => exact hyes hp
  · next hp => exact hno hp

theorem endsWith_bind_get {f : σ → Reader σ β} {post : Option β → σ → Prop}
    (h : EndsWith (f s) s post) :
    EndsWith (get >>= f) s post := by
  obtain ⟨o, s', hrun, hpost⟩ := h
  exact ⟨o, s', by rw [run_bind_get]; exact hrun, hpost⟩

end Reader

end Checked
