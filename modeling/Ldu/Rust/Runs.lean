import Ldu.Rust.Demangle

/-!
# Runs of the v0 parser

The outcomes of two runs are compared function by function (`body_rel`, `call_rel`): more fuel
changes none (`call_of_le`), and watching changes none where nothing is found (`call_moves_rel`,
`call_all_rel`). A constant is found when it refers back to another without end (`Ends`); it never
returns (`call_constant_ne_ok`).
-/

namespace Ldu

namespace Rust

open Attempt

/-! ### Comparing runs of the parser -/

section Congruence

variable {w w' : Watch} {s : List Char} (Φ : Congruence Stop V0)

theorem backref_rel {x y : Parse String} (h : ∀ st, Φ.rel (x st) (y st)) (st : V0) :
    Φ.rel (backref s x st) (backref s y st) := by
  refine Φ.bind (Φ.refl _) fun off st' ↦ Φ.bind (Φ.refl _) fun st₁ st₂ ↦ ?_
  split
  · exact Φ.refl _
  · exact Φ.bind (Φ.refl _) fun _ _ ↦ Φ.bind (h _) fun _ _ ↦ Φ.refl _

theorem counted_rel {x y : Parse String} (h : ∀ st, Φ.rel (x st) (y st)) (st : V0) :
    Φ.rel (counted x st) (counted y st) := by
  refine Φ.bind (Φ.refl _) fun st₁ st' ↦ ?_
  split
  · exact Φ.refl _
  · refine Φ.bind (Φ.refl _) fun _ _ ↦ ?_
    split
    · exact Φ.refl _
    · exact Φ.bind (h _) fun _ _ ↦ Φ.refl _

theorem elements_rel {first : Bool} {sep : String} {x y x' y' : Parse String}
    (h : ∀ st, Φ.rel (x st) (y st)) (h' : ∀ st, Φ.rel (x' st) (y' st)) (st : V0) :
    Φ.rel (elements s first sep x x' st) (elements s first sep y y' st) := by
  refine Φ.bind (Φ.refl _) fun c st' ↦ Φ.bind (Φ.refl _) fun st₁ st₂ ↦ ?_
  split
  · exact Φ.refl _
  · exact Φ.bind (h _) fun _ _ ↦ Φ.bind (h' _) fun _ _ ↦ Φ.refl _

theorem compoundType_rel {rec rec' : Call → Parse String} (h : ∀ c st, Φ.rel (rec c st) (rec' c st))
    (c : Char) (st : V0) : Φ.rel (compoundType s rec c st) (compoundType s rec' c st) := by
  unfold compoundType refAfter typeAfter
  split
  all_goals
    repeat first
      | exact Φ.refl _
      | exact h _ _
      | exact backref_rel Φ (h _) _
      | refine Φ.bind ?_ fun _ _ ↦ ?_

theorem abi_rel (hident : ∀ st, Φ.rel (ident w s st) (ident w' s st)) (st : V0) :
    Φ.rel (abi w s st) (abi w' s st) := by
  refine Φ.bind (Φ.refl _) fun b st' ↦ ?_
  split
  · refine Φ.bind (Φ.refl _) fun b st' ↦ ?_
    split
    · exact Φ.refl _
    · exact Φ.bind (hident _) fun _ _ ↦ Φ.refl _
  · exact Φ.refl _

/-- Bodies whose callees are related are related. -/
theorem body_rel (hident : ∀ st, Φ.rel (ident w s st) (ident w' s st))
    {rec rec' : Call → Parse String} (h : ∀ c st, Φ.rel (rec c st) (rec' c st)) (c : Call)
    (st : V0) : Φ.rel (body w s rec c st) (body w' s rec' c st) := by
  cases c with
  | path =>
    refine counted_rel Φ (fun st ↦ Φ.bind (Φ.refl _) fun t st' ↦ ?_) st
    split
    all_goals
      repeat first
        | exact Φ.refl _
        | exact h _ _
        | exact hident _
        | exact backref_rel Φ (h _) _
        | refine Φ.bind ?_ fun _ _ ↦ ?_
  | type =>
    refine counted_rel Φ (fun st ↦ Φ.bind (Φ.refl _) fun c st' ↦ ?_) st
    cases basicType c with
    | some text => exact Φ.refl _
    | none => exact compoundType_rel Φ h c st'
  | constant =>
    refine Φ.bind (Φ.refl _) fun b st' ↦ ?_
    split
    · exact backref_rel Φ (h _) _
    · exact Φ.bind (h _ _) fun _ _ ↦ Φ.refl _
  | genericArg =>
    refine Φ.bind (Φ.refl _) fun b st' ↦ ?_
    split
    · exact Φ.refl _
    · refine Φ.bind (Φ.refl _) fun b st' ↦ ?_
      split <;> exact h _ _
  | fnSig =>
    refine Φ.bind (Φ.refl _) fun _ _ ↦ Φ.bind (Φ.refl _) fun _ _ ↦ Φ.bind (abi_rel Φ hident _) ?_
    exact fun _ _ ↦ Φ.bind (h _ _) fun _ _ ↦ Φ.bind (Φ.refl _) fun _ _ ↦
      Φ.bind (h _ _) fun _ _ ↦ Φ.refl _
  | dynBounds => exact Φ.bind (Φ.refl _) fun _ _ ↦ Φ.bind (h _ _) fun _ _ ↦ Φ.refl _
  | genericArgs first => exact elements_rel Φ (h _) (h _) st
  | types first => exact elements_rel Φ (h _) (h _) st
  | traits first =>
    exact elements_rel Φ (fun st ↦ Φ.bind (h _ _) fun _ _ ↦ Φ.bind (h _ _) fun _ _ ↦ Φ.refl _)
      (h _) st
  | bindings =>
    refine Φ.bind (Φ.refl _) fun b st' ↦ ?_
    split
    · exact Φ.bind (hident _) fun _ _ ↦ Φ.bind (h _ _) fun _ _ ↦ h _ _
    · exact Φ.refl _

theorem call_of_stops {n : ℕ} {c : Call} {st : V0}
    (h : c = .constant ∧ st.err = false ∧ w.cycle st.pos = true) :
    call w s (n + 1) c st = .error .cycle :=
  if_pos h

theorem call_of_not_stops {n : ℕ} {c : Call} {st : V0}
    (h : ¬(c = .constant ∧ st.err = false ∧ w.cycle st.pos = true)) :
    call w s (n + 1) c st = body w s (call w s n) c st :=
  if_neg h

/-- Runs of the parser with the same fuel are related when they are at the constants where one of
them stops. -/
theorem call_rel (hident : ∀ st, Φ.rel (ident w s st) (ident w' s st))
    (hcycle : ∀ n st, st.err = false → w.cycle st.pos = true ∨ w'.cycle st.pos = true →
      Φ.rel (call w s (n + 1) .constant st) (call w' s (n + 1) .constant st))
    (n : ℕ) (c : Call) (st : V0) : Φ.rel (call w s n c st) (call w' s n c st) := by
  induction n generalizing c st with
  | zero => exact Φ.refl _
  | succ n ih =>
    by_cases hstop : c = .constant ∧ st.err = false ∧
      (w.cycle st.pos = true ∨ w'.cycle st.pos = true)
    · obtain ⟨rfl, herr, hstop⟩ := hstop
      exact hcycle n st herr hstop
    · have hw : ¬(c = .constant ∧ st.err = false ∧ w.cycle st.pos = true) := fun h ↦
        hstop ⟨h.1, h.2.1, .inl h.2.2⟩
      have hw' : ¬(c = .constant ∧ st.err = false ∧ w'.cycle st.pos = true) := fun h ↦
        hstop ⟨h.1, h.2.1, .inr h.2.2⟩
      rw [call_of_not_stops hw, call_of_not_stops hw']
      exact body_rel Φ hident ih c st

end Congruence

/-! ### More fuel -/

section Fuel

variable {w : Watch} {s : List Char} {n m : ℕ}

theorem call_succ_rel (w : Watch) (s : List Char) (n : ℕ) (c : Call) (st : V0) :
    (Congruence.refines .fuel).rel (call w s n c st) (call w s (n + 1) c st) := by
  induction n generalizing c st with
  | zero => exact .inl rfl
  | succ n ih =>
    by_cases hstop : c = .constant ∧ st.err = false ∧ w.cycle st.pos = true
    · rw [call_of_stops hstop, call_of_stops hstop]
      exact Congruence.refl _ _
    · rw [call_of_not_stops hstop, call_of_not_stops hstop]
      exact body_rel _ (fun _ ↦ Congruence.refl _ _) ih c st

/-- More fuel changes no outcome. -/
theorem call_of_le (hnm : n ≤ m) {c : Call} {st : V0} (h : call w s n c st ≠ .error .fuel) :
    call w s m c st = call w s n c st := by
  induction m, hnm using Nat.le_induction with
  | base => rfl
  | succ m _ ih =>
    rcases call_succ_rel w s m c st with hfuel | heq
    · exact absurd (ih ▸ hfuel) h
    · rw [← heq, ih]

end Fuel

/-! ### What the readers do -/

section Readers

variable {s : List Char} {st : V0}

theorem eat_eq (s : List Char) (c : Char) (st : V0) : eat s c st =
    if charAt s st.pos = c then .ok (true, { st with pos := st.pos + 1 }) else .ok (false, st) := by
  unfold eat
  rw [bind_of_ok (rfl : peek s st = .ok (charAt s st.pos, st))]
  split <;> rfl

/-- The value of the number to base 62 at `k`, where it ends, and whether it is ill-formed. -/
def base62At (s : List Char) (k : ℕ) : ℕ × ℕ × Bool :=
  if charAt s k = '_' then (0, k + 1, false)
  else
    let ds := (s.drop k).takeWhile (base62Digit · |>.isSome)
    if charAt s (k + ds.length) = '_' then
      (wrap (ds.foldl (fun v c ↦ wrap (v * 62 + (base62Digit c).getD 0)) 0 + 1),
        k + ds.length + 1, false)
    else (0, k + ds.length, true)

theorem base62_eq (s : List Char) (st : V0) : base62 s st =
    .ok ((base62At s st.pos).1,
      ⟨(base62At s st.pos).2.1, st.err || (base62At s st.pos).2.2, st.depth⟩) := by
  unfold base62 base62At
  by_cases h : charAt s st.pos = '_'
  · rw [bind_of_ok ((eat_eq s '_' st).trans (if_pos h)), if_pos h, Bool.or_false]
    rfl
  · rw [bind_of_ok ((eat_eq s '_' st).trans (if_neg h)), if_neg h]
    let k := st.pos + ((s.drop st.pos).takeWhile (base62Digit · |>.isSome)).length
    by_cases h' : charAt s k = '_'
    · rw [if_pos h', Bool.or_false]
      exact bind_of_ok ((eat_eq s '_' { st with pos := k }).trans (if_pos h')) _
    · rw [if_neg h', Bool.or_true]
      exact bind_of_ok ((eat_eq s '_' { st with pos := k }).trans (if_neg h')) _

/-- A reference back to an earlier position reads on from there, and any other one fails. -/
theorem backref_eq (s : List Char) (fn : Parse String) (st : V0) : backref s fn st =
    if (st.err || (base62At s st.pos).2.2) = true ∨
        (base62At s st.pos).2.1 ≤ (base62At s st.pos).1 then
      .ok ("", ⟨(base62At s st.pos).2.1, true, st.depth⟩)
    else
      (do
        let out ← fn
        moveTo (base62At s st.pos).2.1
        pure out : Parse String)
        ⟨(base62At s st.pos).1, st.err || (base62At s st.pos).2.2, st.depth⟩ := by
  unfold backref
  rw [bind_of_ok (base62_eq s st), bind_of_ok (rfl : get _ = .ok (_, _))]
  split <;> rfl

end Readers

/-! ### Chains of constants -/

/-- The position that the constant at `k` refers back to, if it does. -/
def nextConstant (s : List Char) (k : ℕ) : Option ℕ :=
  if charAt s k = 'B' ∧ (base62At s (k + 1)).2.2 = false ∧
      (base62At s (k + 1)).1 < (base62At s (k + 1)).2.1 then some (base62At s (k + 1)).1
  else none

/-- The constant at `k` refers back, over and over, to one that does not. -/
inductive Ends (s : List Char) : ℕ → Prop
  | last {k : ℕ} (h : nextConstant s k = none) : Ends s k
  | step {k k' : ℕ} (h : nextConstant s k = some k') (h' : Ends s k') : Ends s k

section Chains

variable {w : Watch} {s : List Char} {st : V0} {k k' : ℕ}

theorem nextConstant_eq_some (h : nextConstant s k = some k') : charAt s k = 'B' ∧
    (base62At s (k + 1)).2.2 = false ∧ (base62At s (k + 1)).1 < (base62At s (k + 1)).2.1 ∧
      (base62At s (k + 1)).1 = k' := by
  obtain ⟨⟨hB, hok, hlt⟩, heq⟩ := Option.ite_none_right_eq_some.1 h
  exact ⟨hB, hok, hlt, Option.some.inj heq⟩

/-- A constant that refers back is the one it refers to. -/
theorem constant_of_nextConstant {rec : Call → Parse String} (herr : st.err = false)
    (h : nextConstant s st.pos = some k') : constant s rec st =
      (do
        let out ← rec .constant
        moveTo (base62At s (st.pos + 1)).2.1
        pure out : Parse String) ⟨k', false, st.depth⟩ := by
  obtain ⟨hB, hok, hlt, rfl⟩ := nextConstant_eq_some h
  unfold constant
  rw [bind_of_ok ((eat_eq s 'B' st).trans (if_pos hB)), if_pos rfl, backref_eq]
  dsimp only
  rw [herr, hok, if_neg (by simpa using hlt)]
  rfl

/-- A constant that refers back without end never returns. -/
theorem call_constant_ne_ok (hends : ¬Ends s st.pos) (herr : st.err = false) (n : ℕ)
    (r : String × V0) : call w s n .constant st ≠ .ok r := by
  induction n generalizing st r with
  | zero => exact fun h ↦ by cases h
  | succ n ih =>
    intro h
    by_cases hstop : Call.constant = .constant ∧ st.err = false ∧ w.cycle st.pos = true
    · rw [call_of_stops hstop] at h
      cases h
    · rw [call_of_not_stops hstop] at h
      cases hnext : nextConstant s st.pos with
      | none => exact hends (.last hnext)
      | some k' =>
        obtain ⟨a, st', ha, -⟩ :=
          exists_of_bind ((constant_of_nextConstant herr hnext).symm.trans h)
        exact ih (fun h' ↦ hends (.step hnext h')) rfl _ ha

theorem not_ends_of_self (h : nextConstant s k = some k) : ¬Ends s k := by
  intro hends
  induction hends with
  | last hnone => cases h.symm.trans hnone
  | step hsome _ ih =>
    obtain rfl := Option.some.inj (h.symm.trans hsome)
    exact ih h

/-- The constant at position 5 refers to itself. -/
example (n : ℕ) (r : String × V0) :
    call .none "IC1aKB4_E".toList n .constant ⟨5, false, 1⟩ ≠ .ok r :=
  call_constant_ne_ok (not_ends_of_self (by decide)) rfl n r

end Chains

/-! ### What is watched -/

/-- Components that move the cursor back. -/
def Watch.moves : Watch :=
  ⟨true, fun _ ↦ false⟩

open Classical in
/-- Components that move the cursor back, and constants that refer back without end. -/
noncomputable def Watch.all (s : List Char) : Watch :=
  ⟨true, fun k ↦ decide (¬Ends s k)⟩

theorem ident_moves_rel (s : List Char) (st : V0) :
    (Congruence.refines .back).rel (ident .moves s st) (ident .none s st) := by
  refine Congruence.bind _ (Congruence.refl _ _) fun puny _ ↦
    Congruence.bind _ (Congruence.refl _ _) fun len _ ↦
      Congruence.bind _ (Congruence.refl _ _) fun _ _ ↦
        Congruence.bind _ (Congruence.refl _ _) fun st₁ st' ↦ ?_
  by_cases hshort : st₁.err = true ∨ s.length < wrap (st₁.pos + len)
  · rw [if_pos hshort, if_pos hshort]
    exact Congruence.refl _ _
  · rw [if_neg hshort, if_neg hshort]
    by_cases hback : wrap (st₁.pos + len) < st₁.pos
    · exact .inl (by rw [if_pos ⟨rfl, hback⟩]; rfl)
    · rw [if_neg fun h ↦ hback h.2, if_neg fun h ↦ hback h.2]
      exact Congruence.refl _ _

/-- As long as no component moves the cursor back, watching for that changes nothing. -/
theorem call_moves_rel (s : List Char) (n : ℕ) (c : Call) (st : V0) :
    (Congruence.refines .back).rel (call .moves s n c st) (call .none s n c st) :=
  call_rel _ (ident_moves_rel s) (fun _ _ _ h ↦ by simp [Watch.moves, Watch.none] at h) n c st

/-- Where a constant refers back without end, the parser does not return. -/
theorem call_all_rel (s : List Char) (n : ℕ) (c : Call) (st : V0) :
    (Congruence.fails .cycle).rel (call (.all s) s n c st) (call .moves s n c st) := by
  have hident : ∀ st, (Congruence.fails .cycle).rel (ident (.all s) s st) (ident .moves s st) :=
    fun _ ↦ Congruence.refl _ _
  refine call_rel _ hident (fun n st herr h ↦ ?_) n c st
  have hcycle : (Watch.all s).cycle st.pos = true := h.resolve_right (by simp [Watch.moves])
  have hends : ¬Ends s st.pos := by simpa [Watch.all] using hcycle
  exact .inl ⟨call_of_stops ⟨rfl, herr, hcycle⟩, call_constant_ne_ok hends herr (n + 1)⟩

end Rust

end Ldu
