import Ldu.Semantics.Machine

/-!
# Machines that pass over states

A machine that does two steps of another one at once passes over the state between them. When the
states that it passes over are hidden, and it does so wherever the other machine would get to one,
the two behave alike and get to the same states that are not hidden (`keeps_of_skips`). Such
shortcuts may be taken one after the other (`Keeps.trans`).
-/

namespace Machine

variable {S E R : Type*} {M N K : Machine S E R} {hidden : S → Prop} {s s' p : S} {es : List E}

/-- The state behind a step is reached, and what is reached from there. -/
theorem Reaches.head (h : M.step s = (es, .inl s')) (hrest : M.Reaches s' p) : M.Reaches s p := by
  obtain ⟨n, hn⟩ := hrest
  exact ⟨n + 1, by rw [run_succ_of_step M h]; exact hn⟩

/-- At `s` the first machine does what the second does, or two of its steps at once, and never gets
to a hidden state. -/
inductive Skips (M N : Machine S E R) (hidden : S → Prop) (s : S) : Prop
  | one (h : M.step s = N.step s) (hnext : ∀ es s', N.step s = (es, .inl s') → ¬hidden s')
  | two {es₁ es₂ : List E} {s₁ s₂ : S} (h₁ : N.step s = (es₁, .inl s₁)) (hmid : hidden s₁)
    (h₂ : N.step s₁ = (es₂, .inl s₂)) (h : M.step s = (es₁ ++ es₂, .inl s₂)) (hnext : ¬hidden s₂)

/-- From `s` the two machines behave alike, and get to the same states but for the hidden ones, to
which the first machine does not get. -/
structure Keeps (M N : Machine S E R) (hidden : S → Prop) (s : S) : Prop where
  sameBehaviour : M.SameBehaviour s N s
  reaches_iff : ∀ p, ¬hidden p → (M.Reaches s p ↔ N.Reaches s p)
  not_hidden : ∀ p, M.Reaches s p → ¬hidden p

theorem Keeps.refl (M : Machine S E R) (s : S) : M.Keeps M (fun _ ↦ False) s :=
  ⟨.refl M s, fun _ _ ↦ Iff.rfl, fun _ _ ↦ id⟩

theorem Keeps.congr {hidden' : S → Prop} (h : M.Keeps N hidden s)
    (hiff : ∀ p, hidden p ↔ hidden' p) : M.Keeps N hidden' s where
  sameBehaviour := h.sameBehaviour
  reaches_iff p hp := h.reaches_iff p fun hh ↦ hp ((hiff p).1 hh)
  not_hidden p hp hh := h.not_hidden p hp ((hiff p).2 hh)

theorem Keeps.trans {hidden' : S → Prop} (h : K.Keeps M hidden' s) (h' : M.Keeps N hidden s) :
    K.Keeps N (fun p ↦ hidden p ∨ hidden' p) s where
  sameBehaviour := h.sameBehaviour.trans h'.sameBehaviour
  reaches_iff p hp :=
    (h.reaches_iff p fun hh ↦ hp (.inr hh)).trans (h'.reaches_iff p fun hh ↦ hp (.inl hh))
  not_hidden p hp hh := by
    have hp' := h.not_hidden p hp
    exact hh.elim (h'.not_hidden p ((h.reaches_iff p hp').1 hp)) hp'

section Skips

variable (hskips : N.Always (fun p ↦ ¬hidden p → M.Skips N hidden p) s) (hs : ¬hidden s)

include hskips hs

theorem reaches_of_skips (hp : M.Reaches s p) : N.Reaches s p ∧ ¬hidden p := by
  obtain ⟨n, hn⟩ := hp
  induction n generalizing s with
  | zero =>
    obtain rfl := Sum.inl.inj hn
    exact ⟨.refl N s, hs⟩
  | succ n ih =>
    rcases hstep : M.step s with ⟨es, s' | r⟩
    · rw [run_succ_of_step M hstep] at hn
      cases hskips.now hs with
      | one h hnext =>
        rw [h] at hstep
        obtain ⟨hreach, hp⟩ := ih (hskips.step hstep) (hnext _ _ hstep) hn
        exact ⟨hreach.head hstep, hp⟩
      | two h₁ _ h₂ h hnext =>
        obtain ⟨-, hs'⟩ := Prod.mk.inj (hstep.symm.trans h)
        obtain rfl := Sum.inl.inj hs'
        obtain ⟨hreach, hp⟩ := ih ((hskips.step h₁).step h₂) hnext hn
        exact ⟨(hreach.head h₂).head h₁, hp⟩
    · rw [run_succ_of_halt M hstep] at hn
      cases hn

/-- The induction is on the number of steps of the second machine, of which the first may do two at
once. -/
theorem reaches_of_not_hidden (hp : N.Reaches s p) (hvis : ¬hidden p) : M.Reaches s p := by
  obtain ⟨n, hn⟩ := hp
  induction n using Nat.strong_induction_on generalizing s with
  | _ n ih =>
    cases n with
    | zero =>
      obtain rfl := Sum.inl.inj hn
      exact .refl M s
    | succ n =>
      cases hskips.now hs with
      | one h hnext =>
        rcases hstep : N.step s with ⟨es, s' | r⟩
        · rw [run_succ_of_step N hstep] at hn
          exact (ih n (by omega) (hskips.step hstep) (hnext _ _ hstep) hn).head (h.trans hstep)
        · rw [run_succ_of_halt N hstep] at hn
          cases hn
      | two h₁ hmid h₂ h hnext =>
        rw [run_succ_of_step N h₁] at hn
        cases n with
        | zero =>
          obtain rfl := Sum.inl.inj hn
          exact absurd hmid hvis
        | succ n =>
          rw [run_succ_of_step N h₂] at hn
          exact (ih n (by omega) ((hskips.step h₁).step h₂) hnext hn).head h

theorem keeps_of_skips : M.Keeps N hidden s where
  sameBehaviour := by
    refine Simulation.sameBehaviour (Q := fun p q ↦ p = q ∧ ¬hidden q ∧
      N.Always (fun p ↦ ¬hidden p → M.Skips N hidden p) q) ?_ ⟨rfl, hs, hskips⟩
    rintro p _ ⟨rfl, hp, hall⟩
    cases hall.now hp with
    | one h hnext =>
      rw [h]
      rcases hstep : N.step p with ⟨es, p' | r⟩
      · exact Matches.one hstep ⟨rfl, hnext _ _ hstep, hall.step hstep⟩
      · exact Matches.halt hstep
    | two h₁ _ h₂ h hnext =>
      rw [h]
      exact Matches.two h₁ h₂ ⟨rfl, hnext, (hall.step h₁).step h₂⟩
  reaches_iff p hp :=
    ⟨fun h ↦ (reaches_of_skips hskips hs h).1, fun h ↦ reaches_of_not_hidden hskips hs h hp⟩
  not_hidden p hp := (reaches_of_skips hskips hs hp).2

end Skips

end Machine
