import Mathlib.Data.List.Basic
import Mathlib.Order.Nat

/-!
# Deterministic machines and lock-step simulation

A **machine** takes deterministic steps; each step emits a list of events and either moves
to a new state or halts with a result. Two states behave alike (`SameBehaviour`) when they
emit the same finite event prefixes — so also the same infinite event sequence when neither
halts — and return the same results after the same events.

A **simulation** (`Simulation`) relates states so that every step of the first machine is
matched by one or more steps of the second with the same events; in a `SimulationUpTo` the
second may also stay where it is, while a measure decreases. Since both machines are
deterministic, the relation yields equality of behaviours in both directions
(`SimulationUpTo.sameBehaviour`).

Invariants of runs are packaged once: `Reaches` and `Always`, a property of every state of
the run, with `Always.step` to move along it.
-/

/-- A deterministic machine with states `S`, events `E` and results `R`. -/
structure Machine (S E R : Type*) where
  /-- One step: the events it emits, and the next state or the final result. -/
  step : S → List E × (S ⊕ R)

namespace Machine

variable {S T U E R : Type*}

/-- At most `n` steps: the events emitted and where the run stands. -/
def run (M : Machine S E R) : ℕ → S → List E × (S ⊕ R)
  | 0, s => ([], .inl s)
  | n + 1, s =>
    match M.step s with
    | (es, .inl s') => (es ++ (M.run n s').1, (M.run n s').2)
    | (es, .inr r) => (es, .inr r)

/-- The run from `s` emits at least the events `tr`. -/
def Emits (M : Machine S E R) (s : S) (tr : List E) : Prop :=
  ∃ n, tr <+: (M.run n s).1

/-- The run from `s` halts with result `r`, having emitted exactly `tr`. -/
def Returns (M : Machine S E R) (s : S) (tr : List E) (r : R) : Prop :=
  ∃ n, M.run n s = (tr, .inr r)

/-- The same event prefixes and the same results. -/
structure SameBehaviour (M : Machine S E R) (s : S) (N : Machine T E R) (t : T) : Prop where
  emits_iff : ∀ tr, M.Emits s tr ↔ N.Emits t tr
  returns_iff : ∀ tr r, M.Returns s tr r ↔ N.Returns t tr r

namespace SameBehaviour

variable {M : Machine S E R} {N : Machine T E R} {K : Machine U E R} {s : S} {t : T} {u : U}

theorem refl (M : Machine S E R) (s : S) : M.SameBehaviour s M s :=
  ⟨fun _ ↦ Iff.rfl, fun _ _ ↦ Iff.rfl⟩

theorem symm (h : M.SameBehaviour s N t) : N.SameBehaviour t M s :=
  ⟨fun tr ↦ (h.emits_iff tr).symm, fun tr r ↦ (h.returns_iff tr r).symm⟩

theorem trans (h : M.SameBehaviour s N t) (h' : N.SameBehaviour t K u) :
    M.SameBehaviour s K u :=
  ⟨fun tr ↦ (h.emits_iff tr).trans (h'.emits_iff tr),
    fun tr r ↦ (h.returns_iff tr r).trans (h'.returns_iff tr r)⟩

end SameBehaviour

/-! ### Runs -/

section Run

variable (M : Machine S E R)

@[simp] theorem run_zero (s : S) : M.run 0 s = ([], .inl s) := rfl

theorem run_succ_of_step {s s' : S} {es : List E} (h : M.step s = (es, .inl s')) (n : ℕ) :
    M.run (n + 1) s = (es ++ (M.run n s').1, (M.run n s').2) := by
  rw [run, h]

theorem run_succ_of_halt {s : S} {es : List E} {r : R} (h : M.step s = (es, .inr r)) (n : ℕ) :
    M.run (n + 1) s = (es, .inr r) := by
  rw [run, h]

theorem run_one (s : S) : M.run 1 s = M.step s := by
  rcases hs : M.step s with ⟨es, s' | r⟩ <;> simp [run, hs]

variable {M}

/-- A run that has not halted is continued by the run from where it stands. -/
theorem run_add {m n : ℕ} {s s' : S} {es : List E} (h : M.run m s = (es, .inl s')) :
    M.run (m + n) s = (es ++ (M.run n s').1, (M.run n s').2) := by
  induction m generalizing s es with
  | zero =>
    obtain ⟨rfl, hs⟩ := Prod.mk.inj h
    obtain rfl := Sum.inl.inj hs
    simp
  | succ m ih =>
    rcases hs : M.step s with ⟨es₁, s₁ | r⟩
    · rw [run_succ_of_step M hs] at h
      obtain ⟨rfl, hr⟩ := Prod.mk.inj h
      rw [Nat.succ_add, run_succ_of_step M hs, ih (Prod.ext rfl hr)]
      simp
    · rw [run_succ_of_halt M hs] at h
      exact absurd (Prod.mk.inj h).2 (by simp)

/-- A run that has halted stays as it is. -/
theorem run_add_of_halt {m n : ℕ} {s : S} {es : List E} {r : R}
    (h : M.run m s = (es, .inr r)) : M.run (m + n) s = (es, .inr r) := by
  induction m generalizing s es with
  | zero => exact absurd (Prod.mk.inj h).2 (by simp)
  | succ m ih =>
    rcases hs : M.step s with ⟨es₁, s₁ | r₁⟩
    · rw [run_succ_of_step M hs] at h
      obtain ⟨rfl, hr⟩ := Prod.mk.inj h
      rw [Nat.succ_add, run_succ_of_step M hs, ih (Prod.ext rfl hr)]
    · rw [run_succ_of_halt M hs] at h
      rw [Nat.succ_add, run_succ_of_halt M hs, h]

theorem run_fst_mono {m n : ℕ} (hmn : m ≤ n) (s : S) :
    (M.run m s).1 <+: (M.run n s).1 := by
  obtain ⟨k, rfl⟩ := Nat.exists_eq_add_of_le hmn
  rcases h : M.run m s with ⟨es, s' | r⟩
  · rw [run_add h]
    exact List.prefix_append _ _
  · exact (congrArg Prod.fst (run_add_of_halt h)).symm ▸ List.prefix_refl _

end Run

/-- A run has one trace and one result. -/
theorem Returns.unique {M : Machine S E R} {s : S} {tr tr' : List E} {r r' : R}
    (h : M.Returns s tr r) (h' : M.Returns s tr' r') : tr = tr' ∧ r = r' := by
  obtain ⟨m, hm⟩ := h
  obtain ⟨n, hn⟩ := h'
  have heq := run_add_of_halt (n := n) hm
  rw [Nat.add_comm, run_add_of_halt hn] at heq
  obtain ⟨rfl, hr⟩ := Prod.mk.inj heq
  exact ⟨rfl, (Sum.inr.inj hr).symm⟩

/-! ### Properties of every state of a run -/

/-- `s'` stands on the run from `s`. -/
def Reaches (M : Machine S E R) (s s' : S) : Prop :=
  ∃ n, (M.run n s).2 = .inl s'

/-- `P` holds in every state of the run from `s`. -/
def Always (M : Machine S E R) (P : S → Prop) (s : S) : Prop :=
  ∀ s', M.Reaches s s' → P s'

section Always

variable {M : Machine S E R} {P : S → Prop} {s s' : S} {es : List E}

theorem Reaches.refl (M : Machine S E R) (s : S) : M.Reaches s s :=
  ⟨0, rfl⟩

theorem Always.now (h : M.Always P s) : P s :=
  h s (.refl M s)

theorem Always.step (h : M.Always P s) (hs : M.step s = (es, .inl s')) : M.Always P s' := by
  rintro t ⟨n, hn⟩
  refine h t ⟨n + 1, ?_⟩
  rw [run_succ_of_step M hs]
  exact hn

/-- A property that every step preserves holds along the whole run. -/
theorem Always.of_preserved (h₀ : P s)
    (hstep : ∀ s es s', P s → M.step s = (es, .inl s') → P s') : M.Always P s := by
  rintro t ⟨n, hn⟩
  induction n generalizing s with
  | zero =>
    obtain rfl := Sum.inl.inj hn
    exact h₀
  | succ n ih =>
    rcases hs : M.step s with ⟨es, s' | r⟩
    · rw [run_succ_of_step M hs] at hn
      exact ih (hstep s es s' h₀ hs) hn
    · rw [run_succ_of_halt M hs] at hn
      exact absurd hn (by simp)

/-- On a run that halts, a property is checked by running. -/
theorem Always.of_halts [DecidablePred P] {n : ℕ} (hhalt : (M.run n s).2.isRight = true)
    (h : ∀ m < n, (M.run m s).2.elim (fun t ↦ decide (P t)) (fun _ ↦ true) = true) :
    M.Always P s := by
  rintro t ⟨m, hm⟩
  obtain ⟨r, hr⟩ := Sum.isRight_iff.1 hhalt
  rcases lt_or_ge m n with hlt | hle
  · have hP := h m hlt
    rw [hm] at hP
    exact of_decide_eq_true hP
  · obtain ⟨k, rfl⟩ := Nat.exists_eq_add_of_le hle
    rw [run_add_of_halt (Prod.ext rfl hr)] at hm
    exact absurd hm (by simp)

end Always

/-- An outcome with its state, if it has one, sent along `f`. -/
def mapState (f : S → T) (x : List E × (S ⊕ R)) : List E × (T ⊕ R) :=
  (x.1, x.2.map f id)

@[simp] theorem mapState_id (x : List E × (S ⊕ R)) : mapState id x = x := by
  rcases x with ⟨es, s | r⟩ <;> rfl

/-- The second machine runs along `f` exactly when from there on each of its steps does. -/
theorem run_map_iff {M : Machine S E R} {N : Machine T E R} {f : S → T} {s : S} :
    (∀ n, N.run n (f s) = mapState f (M.run n s)) ↔
      ∀ s', M.Reaches s s' → N.step (f s') = mapState f (M.step s') := by
  constructor
  · rintro h s' ⟨n, hn⟩
    -- One more step than it takes to reach `s'`.
    have hM : M.run n s = ((M.run n s).1, .inl s') := Prod.ext rfl hn
    have hN : N.run n (f s) = ((M.run n s).1, .inl (f s')) := by
      rw [h n, hM]
      rfl
    have hnext := h (n + 1)
    rw [run_add hN, run_add hM] at hnext
    obtain ⟨hev, hst⟩ := Prod.mk.inj hnext
    rw [← run_one, ← run_one]
    exact Prod.ext (List.append_cancel_left hev) hst
  · intro h n
    induction n generalizing s with
    | zero => rfl
    | succ n ih =>
      have hstep := h s (.refl M s)
      rcases hs : M.step s with ⟨es, s' | r⟩
      · rw [hs] at hstep
        rw [run_succ_of_step M hs, run_succ_of_step N hstep,
          ih fun t ⟨m, hm⟩ ↦ h t ⟨m + 1, by rw [run_succ_of_step M hs]; exact hm⟩]
        rfl
      · rw [hs] at hstep
        rw [run_succ_of_halt M hs, run_succ_of_halt N hstep]
        rfl

/-- Two machines run alike from `s` exactly when they take the same steps from there on. -/
theorem run_eq_iff {M N : Machine S E R} {s : S} :
    (∀ n, N.run n s = M.run n s) ↔ ∀ s', M.Reaches s s' → N.step s' = M.step s' := by
  simpa using run_map_iff (M := M) (N := N) (f := id) (s := s)

/-- As long as the first machine runs the second runs too, and after as many steps the states
are related by `Q`. -/
def Together (M : Machine S E R) (N : Machine T E R) (Q : S → T → Prop) (s : S) (t : T) : Prop :=
  ∀ n s', (M.run n s).2 = .inl s' → ∃ t', (N.run n t).2 = .inl t' ∧ Q s' t'

/-! ### Simulations -/

/-- What the second machine owes for one step of the first: some steps, at least one, with
the same events, to a related state or to the same result. -/
def Matches (N : Machine T E R) (Q : S → T → Prop) (t : T) : List E × (S ⊕ R) → Prop
  | (es, .inl s') => ∃ k t', N.run (k + 1) t = (es, .inl t') ∧ Q s' t'
  | (es, .inr r) => ∃ k, N.run (k + 1) t = (es, .inr r)

/-- Every step of the first machine is matched by the second. -/
def Simulation (M : Machine S E R) (N : Machine T E R) (Q : S → T → Prop) : Prop :=
  ∀ s t, Q s t → N.Matches Q t (M.step s)

section Matches

variable {N : Machine T E R} {Q : S → T → Prop} {s' : S} {t t₁ t₂ : T} {es es₁ es₂ : List E}

theorem Matches.one (h : N.step t = (es, .inl t₁)) (hrel : Q s' t₁) :
    N.Matches Q t (es, .inl s') :=
  ⟨0, t₁, by simp [run, h], hrel⟩

theorem Matches.two (h₁ : N.step t = (es₁, .inl t₁)) (h₂ : N.step t₁ = (es₂, .inl t₂))
    (hrel : Q s' t₂) : N.Matches Q t (es₁ ++ es₂, .inl s') :=
  ⟨1, t₂, by simp [run, h₁, h₂], hrel⟩

theorem Matches.step_run {n : ℕ} (h₁ : N.step t = (es, .inl t₁))
    (h₂ : N.run n t₁ = ([], .inl t₂)) (hrel : Q s' t₂) : N.Matches Q t (es, .inl s') :=
  ⟨n, t₂, by simp [run, h₁, h₂], hrel⟩

theorem Matches.after_run {n : ℕ} {x : S ⊕ R} (h₁ : N.run n t = (es₁, .inl t₁))
    (h₂ : N.Matches Q t₁ (es₂, x)) : N.Matches Q t (es₁ ++ es₂, x) := by
  cases x with
  | inl s' =>
    obtain ⟨k, t', hk, hrel⟩ := h₂
    exact ⟨n + k, t', by rw [Nat.add_assoc, run_add h₁, hk], hrel⟩
  | inr r =>
    obtain ⟨k, hk⟩ := h₂
    exact ⟨n + k, by rw [Nat.add_assoc, run_add h₁, hk]⟩

theorem Matches.halt {r : R} (h : N.step t = (es, .inr r)) : N.Matches Q t (es, .inr r) :=
  ⟨0, by simp [run, h]⟩

end Matches

section Simulation

variable {M : Machine S E R} {N : Machine T E R} {Q : S → T → Prop} {μ : S → ℕ}

/-- A simulation in which the second machine may also stay where it is, for as long as the
measure `μ` decreases. -/
def SimulationUpTo (M : Machine S E R) (N : Machine T E R) (Q : S → T → Prop) (μ : S → ℕ) :
    Prop :=
  ∀ s t, Q s t →
    N.Matches Q t (M.step s) ∨ ∃ s', M.step s = ([], .inl s') ∧ Q s' t ∧ μ s' < μ s

/-- Whatever the first machine does in `n` steps, the second does in some number of steps. -/
theorem SimulationUpTo.forth (h : M.SimulationUpTo N Q μ) (n : ℕ) {s : S} {t : T}
    (hst : Q s t) :
    match M.run n s with
    | (es, .inl s') => ∃ k t', N.run k t = (es, .inl t') ∧ Q s' t'
    | (es, .inr r) => ∃ k, N.run k t = (es, .inr r) := by
  induction n generalizing s t with
  | zero => exact ⟨0, t, rfl, hst⟩
  | succ n ih =>
    rcases h s t hst with hmatch | ⟨s', hs, hst', -⟩
    · rcases hs : M.step s with ⟨es, s' | r⟩
      · rw [hs] at hmatch
        obtain ⟨k, t', hk, hst'⟩ := hmatch
        have ih' := ih hst'
        rw [run_succ_of_step M hs]
        rcases hr : M.run n s' with ⟨es', s'' | r⟩
        · rw [hr] at ih'
          obtain ⟨k', t'', hk', hrel⟩ := ih'
          exact ⟨k + 1 + k', t'', by rw [run_add hk, hk'], hrel⟩
        · rw [hr] at ih'
          obtain ⟨k', hk'⟩ := ih'
          exact ⟨k + 1 + k', by rw [run_add hk, hk']⟩
      · rw [hs] at hmatch
        obtain ⟨k, hk⟩ := hmatch
        rw [run_succ_of_halt M hs]
        exact ⟨k + 1, hk⟩
    · rw [run_succ_of_step M hs, List.nil_append]
      exact ih hst'

/-- The first machine catches up with any number of steps of the second. The induction is on
that number and, while the second machine stays where it is, on the measure. -/
theorem SimulationUpTo.back (h : M.SimulationUpTo N Q μ) (k : ℕ) {s : S} {t : T} (hst : Q s t) :
    ∃ n m, (k ≤ m ∧ ∃ t', N.run m t = ((M.run n s).1, .inl t')) ∨
      ∃ r, M.run n s = ((M.run n s).1, .inr r) ∧ N.run m t = ((M.run n s).1, .inr r) := by
  induction k using Nat.strong_induction_on generalizing s t with
  | _ k ihk =>
    induction hμ : μ s using Nat.strong_induction_on generalizing s with
    | _ j ihμ =>
      rcases h s t hst with hmatch | ⟨s', hs, hst', hlt⟩
      · rcases hs : M.step s with ⟨es, s' | r⟩
        · rw [hs] at hmatch
          obtain ⟨i, t', hi, hst'⟩ := hmatch
          obtain ⟨n, m, hnm⟩ : ∃ n m, (k - (i + 1) ≤ m ∧ ∃ t'', N.run m t' =
              ((M.run n s').1, .inl t'')) ∨ ∃ r, M.run n s' = ((M.run n s').1, .inr r) ∧
                N.run m t' = ((M.run n s').1, .inr r) := by
            rcases Nat.eq_zero_or_pos k with rfl | hpos
            · exact ⟨0, 0, .inl ⟨by omega, t', rfl⟩⟩
            · exact ihk (k - (i + 1)) (by omega) hst'
          refine ⟨n + 1, i + 1 + m, ?_⟩
          rw [run_add hi, run_succ_of_step M hs]
          rcases hnm with ⟨hle, t'', ht''⟩ | ⟨r, hr, hm⟩
          · exact .inl ⟨by omega, t'', by rw [ht'']⟩
          · exact .inr ⟨r, by rw [hr], by rw [hm]⟩
        · rw [hs] at hmatch
          obtain ⟨i, hi⟩ := hmatch
          refine ⟨1, i + 1, .inr ⟨r, ?_, ?_⟩⟩
          · rw [run_succ_of_halt M hs]
          · rw [run_succ_of_halt M hs, hi]
      · obtain ⟨n, m, hnm⟩ := ihμ (μ s') (hμ ▸ hlt) hst' rfl
        refine ⟨n + 1, m, ?_⟩
        rw [run_succ_of_step M hs, List.nil_append]
        exact hnm

/-- A simulation between deterministic machines gives equal behaviours. -/
theorem SimulationUpTo.sameBehaviour (h : M.SimulationUpTo N Q μ) {s : S} {t : T}
    (hst : Q s t) : M.SameBehaviour s N t := by
  refine ⟨fun tr ↦ ⟨?_, ?_⟩, fun tr r ↦ ⟨?_, ?_⟩⟩
  · rintro ⟨n, hn⟩
    have hforth := h.forth n hst
    rcases hr : M.run n s with ⟨es, s' | r⟩
    · rw [hr] at hforth hn
      obtain ⟨k, t', hk, -⟩ := hforth
      exact ⟨k, by rwa [hk]⟩
    · rw [hr] at hforth hn
      obtain ⟨k, hk⟩ := hforth
      exact ⟨k, by rwa [hk]⟩
  · rintro ⟨k, hk⟩
    obtain ⟨n, m, ⟨hle, t', ht'⟩ | ⟨r, -, hm⟩⟩ := h.back k hst
    · have hmono := run_fst_mono (M := N) hle t
      rw [ht'] at hmono
      exact ⟨n, hk.trans hmono⟩
    · rcases le_total k m with hle | hle
      · have hmono := run_fst_mono (M := N) hle t
        rw [hm] at hmono
        exact ⟨n, hk.trans hmono⟩
      · obtain ⟨j, rfl⟩ := Nat.exists_eq_add_of_le hle
        rw [run_add_of_halt hm] at hk
        exact ⟨n, hk⟩
  · rintro ⟨n, hn⟩
    have hforth := h.forth n hst
    rw [hn] at hforth
    exact hforth
  · rintro ⟨k, hk⟩
    obtain ⟨n, m, ⟨hle, t', ht'⟩ | ⟨r', hn, hm⟩⟩ := h.back k hst
    · obtain ⟨j, rfl⟩ := Nat.exists_eq_add_of_le hle
      rw [run_add_of_halt hk] at ht'
      exact absurd (Prod.mk.inj ht').2 (by simp)
    · -- Both machines have halted, so they agree on the result.
      obtain ⟨rfl, rfl⟩ := Returns.unique ⟨k, hk⟩ ⟨m, hm⟩
      exact ⟨n, hn⟩

/-- A simulation along the runs all of whose states satisfy `P`. -/
theorem SimulationUpTo.sameBehaviour_of_always {P : S → Prop} (μ : S → ℕ)
    (h : ∀ s t, Q s t → M.Always P s →
      N.Matches Q t (M.step s) ∨ ∃ s', M.step s = ([], .inl s') ∧ Q s' t ∧ μ s' < μ s)
    {s : S} {t : T} (hst : Q s t) (hP : M.Always P s) : M.SameBehaviour s N t := by
  have hsim : M.SimulationUpTo N (fun s t ↦ Q s t ∧ M.Always P s) μ := by
    rintro s t ⟨hst, hP⟩
    rcases h s t hst hP with hmatch | ⟨s', hs, hst', hlt⟩
    · left
      rcases hs : M.step s with ⟨es, s' | r⟩
      · rw [hs] at hmatch
        obtain ⟨k, t', hk, hrel⟩ := hmatch
        exact ⟨k, t', hk, hrel, hP.step hs⟩
      · rw [hs] at hmatch
        exact hmatch
    · exact .inr ⟨s', hs, ⟨hst', hP.step hs⟩, hlt⟩
  exact hsim.sameBehaviour ⟨hst, hP⟩

theorem Simulation.sameBehaviour (h : M.Simulation N Q) {s : S} {t : T} (hst : Q s t) :
    M.SameBehaviour s N t :=
  SimulationUpTo.sameBehaviour (μ := fun _ ↦ 0) (fun s t hst ↦ .inl (h s t hst)) hst

theorem Simulation.sameBehaviour_of_always {P : S → Prop}
    (h : ∀ s t, Q s t → M.Always P s → N.Matches Q t (M.step s)) {s : S} {t : T}
    (hst : Q s t) (hP : M.Always P s) : M.SameBehaviour s N t :=
  SimulationUpTo.sameBehaviour_of_always (fun _ ↦ 0) (fun s t hst hP ↦ .inl (h s t hst hP)) hst hP

end Simulation

/-! ### Traces of one run -/

/-- Of two traces that one run emits, one continues the other. -/
theorem Emits.comparable {M : Machine S E R} {s : S} {tr tr' : List E} (h : M.Emits s tr)
    (h' : M.Emits s tr') : tr <+: tr' ∨ tr' <+: tr := by
  obtain ⟨m, hm⟩ := h
  obtain ⟨n, hn⟩ := h'
  rcases le_total m n with hle | hle
  · exact List.prefix_or_prefix_of_prefix (hm.trans (run_fst_mono hle s)) hn
  · exact List.prefix_or_prefix_of_prefix hm (hn.trans (run_fst_mono hle s))

/-! ### History variables -/

section Ghost

variable {K : Type*}

/-- The machine with a history variable, updated from the states before and after a step. -/
def withGhost (M : Machine S E R) (upd : S → K → S → K) : Machine (S × K) E R where
  step := fun (s, k) ↦
    match M.step s with
    | (es, .inl s') => (es, .inl (s', upd s k s'))
    | (es, .inr r) => (es, .inr r)

variable {M : Machine S E R} {upd : S → K → S → K} {s s' : S} {k : K} {es : List E}

theorem withGhost_step (h : M.step s = (es, .inl s')) :
    (M.withGhost upd).step (s, k) = (es, .inl (s', upd s k s')) := by
  simp [withGhost, h]

theorem withGhost_halt {r : R} (h : M.step s = (es, .inr r)) :
    (M.withGhost upd).step (s, k) = (es, .inr r) := by
  simp [withGhost, h]

/-- A history variable changes no behaviour. -/
theorem withGhost_sameBehaviour (M : Machine S E R) (upd : S → K → S → K) (s : S) (k : K) :
    (M.withGhost upd).SameBehaviour (s, k) M s := by
  refine Simulation.sameBehaviour (Q := fun p s ↦ p.1 = s) ?_ rfl
  rintro ⟨s, k⟩ _ rfl
  rcases hs : M.step s with ⟨es, s' | r⟩
  · rw [withGhost_step hs]
    exact Matches.one hs rfl
  · rw [withGhost_halt hs]
    exact Matches.halt hs

/-- The machine with a history variable runs along. -/
theorem exists_withGhost_run {n : ℕ} (h : (M.run n s).2 = .inl s') (k : K) :
    ∃ k', ((M.withGhost upd).run n (s, k)).2 = .inl (s', k') := by
  induction n generalizing s k with
  | zero =>
    obtain rfl := Sum.inl.inj h
    exact ⟨k, rfl⟩
  | succ n ih =>
    rcases hs : M.step s with ⟨es, s₁ | r⟩
    · rw [run_succ_of_step M hs] at h
      rw [run_succ_of_step _ (withGhost_step hs)]
      exact ih h _
    · rw [run_succ_of_halt M hs] at h
      cases h

/-- What holds together with a history variable holds without. -/
theorem Together.of_withGhost {N : Machine T E R} {Q : S → T → Prop} {t : T}
    (h : (M.withGhost upd).Together N (fun p t ↦ Q p.1 t) (s, k) t) : M.Together N Q s t := by
  intro n s' hs'
  obtain ⟨k', hk'⟩ := exists_withGhost_run hs' k
  exact h n (s', k') hk'

end Ghost

end Machine
