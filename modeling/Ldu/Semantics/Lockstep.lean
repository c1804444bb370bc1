import Ldu.Semantics.Flow

/-!
# Blocks in lockstep

Two computations are in lockstep (`Lockstep`) when they emit the same events and end in related
states or in the same result. A pass that keeps the shape of the graph is verified block by
block: the statements one by one (`lockstep_execAll`), then the terminator
(`lockstep_transfer`), which gives every step of the machine (`matches_of_lockstep`).

`Interp.Along P` says that `P` holds of every statement of a list in the state it is executed in.
-/

namespace Ldu

variable {σ τ E R : Type*}

/-- The same events, then related states or the same result. -/
def Lockstep (Q : σ → τ → Prop) (x : List E × (σ ⊕ R)) (y : List E × (τ ⊕ R)) : Prop :=
  y.1 = x.1 ∧ Sum.LiftRel Q Eq x.2 y.2

/-- Related states at the same block. -/
def SameBlock (Q : σ → τ → Prop) (p : ℕ × σ) (q : ℕ × τ) : Prop :=
  q.1 = p.1 ∧ Q p.2 q.2

section Lockstep

variable {Q Q' : σ → τ → Prop} {x : List E × (σ ⊕ R)} {y : List E × (τ ⊕ R)}

theorem Lockstep.emit (h : Lockstep Q x y) (es : List E) : Lockstep Q (emit es x) (emit es y) :=
  ⟨congrArg (es ++ ·) h.1, h.2⟩

theorem Lockstep.mono (h : Lockstep Q x y) (hQ : ∀ s t, Q s t → Q' s t) : Lockstep Q' x y :=
  ⟨h.1, h.2.mono hQ fun _ _ h ↦ h⟩

/-- The other computation is in lockstep with the one. -/
theorem Lockstep.symm (h : Lockstep Q x y) : Lockstep (fun t s ↦ Q s t) y x := by
  obtain ⟨hev, hst⟩ := h
  obtain ⟨es, s | r⟩ := x <;> obtain ⟨es', t | r'⟩ := y <;> cases hst
  · next hst => exact ⟨hev.symm, .inl hst⟩
  · next hr => exact ⟨hev.symm, .inr hr.symm⟩

/-- The relation may use what is known of both states reached. -/
theorem Lockstep.mono_of_both (h : Lockstep Q x y)
    (hQ : ∀ s t, x.2 = .inl s → y.2 = .inl t → Q s t → Q' s t) : Lockstep Q' x y := by
  obtain ⟨hev, hst⟩ := h
  obtain ⟨es, s | r⟩ := x <;> obtain ⟨es', t | r'⟩ := y <;> cases hst
  · next hst => exact ⟨hev, .inl (hQ s t rfl rfl hst)⟩
  · next hr => exact ⟨hev, .inr hr⟩

/-- The relation may use what is known of the state reached. -/
theorem Lockstep.mono_of (h : Lockstep Q x y) (hQ : ∀ s t, x.2 = .inl s → Q s t → Q' s t) :
    Lockstep Q' x y :=
  h.mono_of_both fun s t hs _ ↦ hQ s t hs

theorem lockstep_inl {es : List E} {s : σ} {t : τ} (h : Q s t) :
    Lockstep (R := R) Q (es, .inl s) (es, .inl t) :=
  ⟨rfl, .inl h⟩

/-- A computation that goes on is followed by one that goes on. -/
theorem Lockstep.exists_inl {es : List E} {s : σ} (h : Lockstep Q (es, .inl s) y) :
    ∃ t, y = (es, .inl t) ∧ Q s t := by
  obtain ⟨es', t | r⟩ := y
  · obtain ⟨hev, hst⟩ := h
    cases hst
    next hQ => exact ⟨t, Prod.ext hev rfl, hQ⟩
  · cases h.2

/-- A computation that ends is followed by one that ends. -/
theorem Lockstep.eq_inr {es : List E} {r : R} (h : Lockstep Q (es, .inr r) y) :
    y = (es, .inr r) := by
  obtain ⟨es', t | r'⟩ := y
  · cases h.2
  · obtain ⟨hev, hr⟩ := h
    cases hr
    next hr => exact Prod.ext hev (congrArg Sum.inr hr.symm)

/-- A computation that goes on follows one that goes on. -/
theorem Lockstep.exists_inl_left {es : List E} {t : τ} (h : Lockstep Q x (es, .inl t)) :
    ∃ s, x = (es, .inl s) ∧ Q s t := by
  obtain ⟨es', s | r⟩ := x
  · obtain ⟨hev, hst⟩ := h
    cases hst
    next hQ => exact ⟨s, Prod.ext hev.symm rfl, hQ⟩
  · cases h.2

theorem lockstep_inr {es : List E} {r : R} : Lockstep Q (es, .inr r) (es, .inr r) :=
  ⟨rfl, .inr rfl⟩

end Lockstep

/-- A step in lockstep is matched. -/
theorem matches_of_lockstep {S T : Type*} {M : Machine S E R} {N : Machine T E R}
    {Q : S → T → Prop} {s : S} {t : T} (h : Lockstep Q (M.step s) (N.step t)) :
    N.Matches Q t (M.step s) := by
  obtain ⟨hev, hst⟩ := h
  rcases hs : M.step s with ⟨es, s' | r⟩ <;> rcases ht : N.step t with ⟨es', t' | r'⟩ <;>
    rw [hs, ht] at hst hev <;> cases hst <;> obtain rfl : es' = es := hev
  · next hq => exact .one ht hq
  · next hr =>
    obtain rfl : r = r' := hr
    exact .halt ht

/-- What holds along a run holds along a run in lockstep. -/
theorem always_of_lockstep {S T : Type*} {M : Machine S E R} {N : Machine T E R} {Q : S → T → Prop}
    {P : S → Prop} {P' : T → Prop}
    (h : ∀ s t, Q s t → M.Always P s → Lockstep Q (M.step s) (N.step t))
    (hP : ∀ s t, Q s t → P s → P' t) {s : S} {t : T} (hst : Q s t) (hs : M.Always P s) :
    N.Always P' t := by
  have hrel : N.Always (fun t ↦ ∃ s, Q s t ∧ M.Always P s) t := by
    refine Machine.Always.of_preserved ⟨s, hst, hs⟩ ?_
    rintro t es t' ⟨s, hst, hs⟩ hstep
    have hlock := h s t hst hs
    rw [hstep] at hlock
    obtain ⟨s', hs', hst'⟩ := hlock.exists_inl_left
    exact ⟨s', hst', hs.step hs'⟩
  intro t' ht'
  obtain ⟨s', hst', hs'⟩ := hrel t' ht'
  exact hP s' t' hst' hs'.now

/-- Runs in lockstep stay related. -/
theorem together_of_lockstep {S T : Type*} {M : Machine S E R} {N : Machine T E R}
    {Q : S → T → Prop} {P : S → Prop}
    (h : ∀ s t, Q s t → M.Always P s → Lockstep Q (M.step s) (N.step t)) {s : S} {t : T}
    (hst : Q s t) (hs : M.Always P s) : M.Together N (fun s t ↦ Q s t ∧ M.Always P s) s t := by
  intro n
  induction n generalizing s t with
  | zero =>
    intro s' hs'
    obtain rfl := Sum.inl.inj hs'
    exact ⟨t, rfl, hst, hs⟩
  | succ n ih =>
    intro s' hs'
    rcases hstep : M.step s with ⟨es, s₁ | r⟩
    · have hlock := h s t hst hs
      rw [hstep] at hlock
      obtain ⟨t₁, ht₁, hst₁⟩ := hlock.exists_inl
      rw [Machine.run_succ_of_step M hstep] at hs'
      rw [Machine.run_succ_of_step N ht₁]
      exact ih hst₁ (hs.step hstep) s' hs'
    · rw [Machine.run_succ_of_halt M hstep] at hs'
      cases hs'

/-! ### Statements -/

section Statements

variable {I : Interp σ E R} {J : Interp τ E R} {Q : σ → τ → Prop}

/-- `P` holds of every statement in the state it is executed in. -/
def Interp.Along (I : Interp σ E R) (P : Stmt → σ → Prop) : List Stmt → σ → Prop
  | [], _ => True
  | st :: sts, s => P st s ∧ ∀ s', (I.exec st s).2 = .inl s' → I.Along P sts s'

/-- Sequences of statements in lockstep. -/
theorem lockstep_cons {Q' : σ → τ → Prop} {st st' : Stmt} {sts sts' : List Stmt} {s : σ} {t : τ}
    (h : Lockstep Q' (I.exec st s) (J.exec st' t))
    (hrest : ∀ s' t', (I.exec st s).2 = .inl s' → Q' s' t' →
      Lockstep Q (I.execAll sts s') (J.execAll sts' t')) :
    Lockstep Q (I.execAll (st :: sts) s) (J.execAll (st' :: sts') t) := by
  unfold Interp.execAll
  obtain ⟨hev, hst⟩ := h
  rcases hs : I.exec st s with ⟨es, s' | r⟩ <;> rcases ht : J.exec st' t with ⟨es', t' | r'⟩ <;>
    rw [hs, ht] at hst hev <;> cases hst <;> obtain rfl : es' = es := hev
  · next hq => exact (hrest s' t' (by rw [hs]) hq).emit es'
  · next hr =>
    obtain rfl : r = r' := hr
    exact lockstep_inr

/-- Statements rewritten one by one, along which `P` holds. -/
theorem lockstep_execAll {P : Stmt → σ → Prop} {f : Stmt → Stmt} {sts : List Stmt}
    (h : ∀ st ∈ sts, ∀ s t, Q s t → P st s → Lockstep Q (I.exec st s) (J.exec (f st) t))
    {s : σ} {t : τ} (hst : Q s t) (hP : I.Along P sts s) :
    Lockstep Q (I.execAll sts s) (J.execAll (sts.map f) t) := by
  induction sts generalizing s t with
  | nil => exact lockstep_inl hst
  | cons st sts ih =>
    refine lockstep_cons (h st (by simp) s t hst hP.1) fun s' t' hs' hst' ↦ ?_
    exact ih (fun st hmem ↦ h st (by simp [hmem])) hst' (hP.2 s' hs')

end Statements

/-! ### Terminators -/

/-- The fields of a block that say how it ends and where its successors are. -/
structure Block.SameExits (b b' : Block) : Prop where
  ends : b'.ends = b.ends
  isSwitch : b'.isSwitch = b.isSwitch
  taken : b'.taken = b.taken
  fall : b'.fall = b.fall
  caseSucc : b'.caseSucc = b.caseSucc
  defaultSucc : b'.defaultSucc = b.defaultSucc

section Terminators

variable {I : Interp σ E R} {J : Interp τ E R} {usedReturn : Bool} {Q : σ → τ → Prop}
  {b b' : Block}

theorem lockstep_goTo {s : σ} {t : τ} (tgt : Option ℕ) (hst : Q s t)
    (hleave : tgt = none → J.leave (b'.retText usedReturn) t = I.leave (b.retText usedReturn) s) :
    Lockstep (SameBlock Q) (goTo I usedReturn b tgt s) (goTo J usedReturn b' tgt t) := by
  cases tgt with
  | none =>
    unfold goTo leaveBy
    rw [hleave rfl]
    exact lockstep_inr
  | some id => exact lockstep_inl ⟨rfl, hst⟩

/-- Terminators whose conditions, selectors and returns are in lockstep. -/
theorem lockstep_transfer (hshape : b.SameExits b')
    (htest : ∀ s t, Q s t → (J.test b'.condExpr t).1 = (I.test b.condExpr s).1 ∧
      (J.test b'.condExpr t).2.1 = (I.test b.condExpr s).2.1 ∧
      Q (I.test b.condExpr s).2.2 (J.test b'.condExpr t).2.2)
    (hselect : ∀ s t, Q s t → (J.select b'.selExpr t).1 = (I.select b.selExpr s).1 ∧
      (J.select b'.selExpr t).2.1 = (I.select b.selExpr s).2.1 ∧
      Q (I.select b.selExpr s).2.2 (J.select b'.selExpr t).2.2)
    (hleave : ∀ s t, Q s t →
      J.leave (b'.retText usedReturn) t = I.leave (b.retText usedReturn) s)
    {s : σ} {t : τ} (hst : Q s t) :
    Lockstep (SameBlock Q) (transfer I usedReturn b s) (transfer J usedReturn b' t) := by
  unfold transfer
  rw [hshape.ends, hshape.isSwitch]
  split
  · unfold leaveBy
    rw [hleave s t hst]
    exact lockstep_inr
  · obtain ⟨hev, hk, hQ⟩ := hselect s t hst
    dsimp only
    rw [hev, hk, Block.caseTarget, Block.caseTarget, hshape.caseSucc, hshape.defaultSucc]
    exact (lockstep_goTo _ hQ fun _ ↦ hleave _ _ hQ).emit _
  · obtain ⟨hev, hc, hQ⟩ := htest s t hst
    dsimp only
    rw [hev, hc, hshape.taken, hshape.fall]
    exact (lockstep_goTo _ hQ fun _ ↦ hleave _ _ hQ).emit _
  · rw [hshape.taken]
    exact lockstep_goTo _ hst fun _ ↦ hleave s t hst
  · rw [hshape.fall]
    exact lockstep_goTo _ hst fun _ ↦ hleave s t hst

/-- A block is in lockstep when its statements and its terminator are. -/
theorem lockstep_runBlock {Q' : ℕ × σ → ℕ × τ → Prop} {s : σ} {t : τ}
    (hstmts : Lockstep Q (I.execAll b.stmts s) (J.execAll b'.stmts t))
    (hterm : ∀ s' t', (I.execAll b.stmts s).2 = .inl s' → Q s' t' →
      Lockstep Q' (transfer I usedReturn b s') (transfer J usedReturn b' t')) :
    Lockstep Q' (runBlock I usedReturn b s) (runBlock J usedReturn b' t) := by
  unfold runBlock
  obtain ⟨hev, hst⟩ := hstmts
  rcases hs : I.execAll b.stmts s with ⟨es, s' | r⟩ <;>
    rcases ht : J.execAll b'.stmts t with ⟨es', t' | r'⟩ <;>
    rw [hs, ht] at hst hev <;> cases hst <;> obtain rfl : es' = es := hev
  · next hq => exact (hterm s' t' (by rw [hs]) hq).emit es'
  · next hr =>
    obtain rfl : r = r' := hr
    exact lockstep_inr

end Terminators

end Ldu
