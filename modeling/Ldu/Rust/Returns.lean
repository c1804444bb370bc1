import Ldu.Rust.Runs

/-!
# When demangling returns

No function of the parser moves the cursor back, and those that count their depth move it on
(`call_post`). With that loops halt where their elements do (`runs_elements`), paths and types by
going down to the limit of the depth (`runs_path_type`), and constants along the chain of those they
refer back to (`runs_constant`). The loop over the components of a legacy symbol halts because its
cursor moves on (`legacyLoop_halts`).

All this is shown of the run that is watched (`Watch.all`); what it says about the unwatched one is
`dsRustDemangle_returns_iff`.
-/

namespace Ldu

namespace Rust

open Attempt

/-! ### The cursor and the depth -/

/-- From `st` to `st'` the cursor has not moved back, nor beyond the end, the depth has not
decreased, and an error is not forgotten. -/
structure Adv (s : List Char) (st st' : V0) : Prop where
  pos : st.pos ≤ st'.pos
  len : st'.pos ≤ s.length
  depth : st.depth ≤ st'.depth
  err : st.err = true → st'.err = true

/-- The computation advances. -/
def Advances (s : List Char) {α : Type} (x : Parse α) : Prop :=
  ∀ st a st', st.pos ≤ s.length → x st = .ok (a, st') → Adv s st st'

section Advances

variable {w : Watch} {s : List Char} {α β : Type} {x : Parse α}

theorem Adv.refl {st : V0} (h : st.pos ≤ s.length) : Adv s st st :=
  ⟨le_rfl, h, le_rfl, id⟩

theorem Adv.trans {st st' st'' : V0} (h : Adv s st st') (h' : Adv s st' st'') : Adv s st st'' :=
  ⟨h.pos.trans h'.pos, h'.len, h.depth.trans h'.depth, h'.err ∘ h.err⟩

theorem advances_pure (a : α) : Advances s (pure a : Parse α) := by
  intro st _ st' hst h
  obtain ⟨rfl, rfl⟩ := Prod.mk.inj (Except.ok.inj h)
  exact .refl hst

theorem Advances.bind {f : α → Parse β} (hx : Advances s x) (hf : ∀ a, Advances s (f a)) :
    Advances s (x >>= f) := by
  intro st b st'' hst h
  obtain ⟨a, st', hx', hf'⟩ := exists_of_bind h
  have hadv := hx st a st' hst hx'
  exact hadv.trans (hf a st' b st'' hadv.len hf')

theorem advances_stop (e : Stop) : Advances s (stop e : Parse α) := by
  intro st a st' _ h
  cases h

theorem advances_fail : Advances s fail := by
  intro st a st' hst h
  obtain ⟨-, rfl⟩ := Prod.mk.inj (Except.ok.inj h)
  exact ⟨le_rfl, hst, le_rfl, fun _ ↦ rfl⟩

/-- Where there is a character other than zero the input has not ended. -/
theorem lt_of_charAt {k : ℕ} {c : Char} (h : charAt s k = c) (hc : c ≠ Char.ofNat 0) :
    k < s.length := by
  by_contra hle
  rw [charAt, List.getElem?_eq_none (not_lt.1 hle)] at h
  exact hc h.symm

theorem advances_eat {c : Char} (hc : c ≠ Char.ofNat 0) : Advances s (eat s c) := by
  intro st a st' hst h
  rw [eat_eq] at h
  split at h
  · next hat =>
    obtain ⟨-, rfl⟩ := Prod.mk.inj (Except.ok.inj h)
    exact ⟨Nat.le_succ _, lt_of_charAt hat hc, le_rfl, id⟩
  · obtain ⟨-, rfl⟩ := Prod.mk.inj (Except.ok.inj h)
    exact .refl hst

theorem advances_takeWhile (p : Char → Bool) : Advances s (takeWhile s p) := by
  intro st a st' hst h
  obtain ⟨-, rfl⟩ := Prod.mk.inj (Except.ok.inj h)
  have hle := (List.takeWhile_sublist p (l := s.drop st.pos)).length_le
  rw [List.length_drop] at hle
  exact ⟨Nat.le_add_right _ _, by dsimp only; omega, le_rfl, id⟩

/-- Reading a character moves the cursor on, or fails. -/
theorem advances_take : Advances s (take s) ∧ ∀ st c st', take s st = .ok (c, st') →
    st'.err = true ∨ st.pos < st'.pos := by
  refine ⟨fun st c st' hst h ↦ ?_, fun st c st' h ↦ ?_⟩
  all_goals
    unfold take at h
    split at h
    all_goals obtain ⟨-, rfl⟩ := Prod.mk.inj (Except.ok.inj h)
  · next hc => exact ⟨Nat.le_succ _, (List.getElem?_eq_some_iff.1 hc).1, le_rfl, id⟩
  · exact ⟨le_rfl, hst, le_rfl, fun _ ↦ rfl⟩
  · exact .inr (Nat.lt_succ_self _)
  · exact .inl rfl

theorem advances_ite {p : Prop} [Decidable p] {y : Parse α} (hx : Advances s x)
    (hy : Advances s y) : Advances s (if p then x else y) := by
  split
  · exact hx
  · exact hy

theorem advances_base62 : Advances s (base62 s) := by
  refine (advances_eat (by decide)).bind fun b ↦ advances_ite (advances_pure _) ?_
  refine (advances_takeWhile _).bind fun ds ↦ (advances_eat (by decide)).bind fun b ↦ ?_
  exact advances_ite (advances_pure _) (advances_fail.bind fun _ ↦ advances_pure _)

theorem advances_tagged {c : Char} (hc : c ≠ Char.ofNat 0) : Advances s (tagged s c) :=
  (advances_eat hc).bind fun _ ↦ advances_ite (advances_base62.bind fun _ ↦ advances_pure _)
    (advances_pure _)

theorem advances_decimal : Advances s (decimal s) := by
  intro st n st' hst h
  unfold decimal at h
  rw [bind_of_ok (rfl : peek s st = .ok (charAt s st.pos, st))] at h
  by_cases hdigit : (charAt s st.pos).isDigit = true
  · rw [if_neg (by simp [hdigit])] at h
    have hlt : st.pos < s.length := lt_of_charAt rfl fun h0 ↦ by rw [h0] at hdigit; cases hdigit
    split at h
    · obtain ⟨-, rfl⟩ := Prod.mk.inj (Except.ok.inj h)
      exact ⟨Nat.le_succ _, hlt, le_rfl, id⟩
    · exact (advances_takeWhile _).bind (fun _ ↦ advances_pure _) st n st' hst h
  · rw [if_pos (by simp [hdigit])] at h
    exact advances_fail.bind (fun _ ↦ advances_pure _) st n st' hst h

/-- A component moves the cursor on when it is watched for moving it back. -/
theorem advances_ident (hback : w.back = true) : Advances s (ident w s) := by
  refine (advances_eat (by decide)).bind fun puny ↦ advances_decimal.bind fun len ↦
    (advances_eat (by decide)).bind fun _ ↦ ?_
  intro st out st' hst h
  rw [bind_of_ok (rfl : get st = .ok (st, st))] at h
  dsimp only at h
  split at h
  · exact advances_fail.bind (fun _ ↦ advances_pure _) st out st' hst h
  · next hlen =>
    split at h
    · cases h
    · next hmove =>
      obtain ⟨-, rfl⟩ := Prod.mk.inj (Except.ok.inj h)
      exact ⟨not_lt.1 fun hlt ↦ hmove ⟨hback, hlt⟩, not_lt.1 fun hlt ↦ hlen (.inr hlt), le_rfl, id⟩

theorem Advances.backref {x : Parse String} (hx : Advances s x) : Advances s (backref s x) := by
  refine advances_base62.bind fun off ↦ ?_
  intro st out st' hst h
  rw [bind_of_ok (rfl : get st = .ok (st, st))] at h
  split at h
  · exact advances_fail.bind (fun _ ↦ advances_pure _) st out st' hst h
  · next hoff =>
    rw [bind_of_ok (rfl : moveTo off st = .ok ((), ⟨off, st.err, st.depth⟩))] at h
    obtain ⟨out, st₁, hx', h⟩ := exists_of_bind h
    obtain ⟨-, rfl⟩ := Prod.mk.inj (Except.ok.inj h)
    have hlt : off < st.pos := not_le.1 fun hle ↦ hoff (.inr hle)
    have hadv := hx ⟨off, st.err, st.depth⟩ out st₁ (hlt.le.trans hst) hx'
    exact ⟨le_rfl, hst, hadv.depth, hadv.err⟩

/-- What `counted` does where there is no error yet and the limit is not reached. -/
theorem counted_of_lt {x : Parse String} {st : V0} (herr : st.err = false) (hlt : st.depth < 200) :
    counted x st = (do
      let out ← x
      modify fun st ↦ { st with depth := st.depth - 1 }
      pure out : Parse String) ⟨st.pos, st.err, st.depth + 1⟩ := by
  unfold counted
  rw [bind_of_ok (rfl : get st = .ok (st, st))]
  rw [if_neg (by simp [herr]), bind_of_ok (rfl : modify _ st = .ok ((), _)), if_neg (by omega)]

theorem counted_of_le {x : Parse String} {st : V0} (herr : st.err = false) (hle : 200 ≤ st.depth) :
    counted x st = .ok ("", ⟨st.pos, true, st.depth + 1⟩) := by
  unfold counted
  rw [bind_of_ok (rfl : get st = .ok (st, st))]
  rw [if_neg (by simp [herr]), bind_of_ok (rfl : modify _ st = .ok ((), _)), if_pos (by omega)]
  rfl

theorem counted_of_err {x : Parse String} {st : V0} (herr : st.err = true) :
    counted x st = .ok ("", st) := by
  unfold counted
  rw [bind_of_ok (rfl : get st = .ok (st, st)), if_pos herr]
  rfl

/-- An ending of a counted function is one of the function, one deeper, or an error. -/
theorem counted_eq_ok {x : Parse String} {st st' : V0} {out : String}
    (h : counted x st = .ok (out, st')) :
    (∃ st₁, x ⟨st.pos, st.err, st.depth + 1⟩ = .ok (out, st₁) ∧
      st' = ⟨st₁.pos, st₁.err, st₁.depth - 1⟩) ∨
      st'.err = true ∧ st'.pos = st.pos ∧ st.depth ≤ st'.depth := by
  rcases herr : st.err with - | -
  · rcases lt_or_ge st.depth 200 with hlt | hle
    · rw [counted_of_lt herr hlt] at h
      obtain ⟨out₁, st₁, hx, h⟩ := exists_of_bind h
      obtain ⟨rfl, rfl⟩ := Prod.mk.inj (Except.ok.inj h)
      exact .inl ⟨st₁, herr ▸ hx, rfl⟩
    · rw [counted_of_le herr hle] at h
      obtain ⟨-, rfl⟩ := Prod.mk.inj (Except.ok.inj h)
      exact .inr ⟨rfl, rfl, Nat.le_succ _⟩
  · rw [counted_of_err herr] at h
    obtain ⟨-, rfl⟩ := Prod.mk.inj (Except.ok.inj h)
    exact .inr ⟨herr, rfl, le_rfl⟩

/-- The computation moves the cursor on or fails. -/
def Consumes (s : List Char) {α : Type} (x : Parse α) : Prop :=
  ∀ st a st', st.pos ≤ s.length → x st = .ok (a, st') → st'.err = true ∨ st.pos < st'.pos

theorem Consumes.bind_post {f : α → Parse β} (hx : Advances s x) (hx' : Consumes s x)
    (hf : ∀ a, Advances s (f a)) : Advances s (x >>= f) ∧ Consumes s (x >>= f) := by
  refine ⟨hx.bind hf, fun st b st'' hst h ↦ ?_⟩
  obtain ⟨a, st', hx₁, hf₁⟩ := exists_of_bind h
  have hadv := hf a st' b st'' (hx st a st' hst hx₁).len hf₁
  rcases hx' st a st' hst hx₁ with herr | hlt
  · exact .inl (hadv.err herr)
  · exact .inr (hlt.trans_le hadv.pos)

/-- A choice on a character moves the cursor on when it is there. -/
theorem Consumes.eat_post {c : Char} (hc : c ≠ Char.ofNat 0) {y : Parse α} (hx : Advances s x)
    (hy : Advances s y ∧ Consumes s y) : Advances s (do if ← eat s c then x else y) ∧
      Consumes s (do if ← eat s c then x else y) := by
  refine ⟨(advances_eat hc).bind fun b ↦ advances_ite hx hy.1, fun st a st' hst h ↦ ?_⟩
  by_cases hat : charAt s st.pos = c
  · rw [bind_of_ok ((eat_eq s c st).trans (if_pos hat))] at h
    exact .inr (hx ⟨st.pos + 1, st.err, st.depth⟩ a st' (lt_of_charAt hat hc) h).pos
  · rw [bind_of_ok ((eat_eq s c st).trans (if_neg hat))] at h
    exact hy.2 st a st' hst h

theorem Advances.counted {x : Parse String} (hx : Advances s x) : Advances s (counted x) := by
  intro st out st' hst h
  obtain ⟨st₁, h₁, rfl⟩ | ⟨herr, hpos, hdepth⟩ := counted_eq_ok h
  · have hadv := hx ⟨st.pos, st.err, st.depth + 1⟩ out st₁ hst h₁
    exact ⟨hadv.pos, hadv.len, Nat.le_sub_of_add_le hadv.depth, hadv.err⟩
  · exact ⟨hpos.ge, hpos ▸ hst, hdepth, fun _ ↦ herr⟩

theorem Consumes.counted_post {x : Parse String} (hx : Advances s x ∧ Consumes s x) :
    Advances s (counted x) ∧ Consumes s (counted x) := by
  refine ⟨hx.1.counted, fun st out st' hst h ↦ ?_⟩
  obtain ⟨st₁, h₁, rfl⟩ | ⟨herr, -, -⟩ := counted_eq_ok h
  · exact hx.2 ⟨st.pos, st.err, st.depth + 1⟩ out st₁ hst h₁
  · exact .inl herr

/-! ### The functions -/

section Body

variable {rec : Call → Parse String}

/-- Behind the character that has been looked at the cursor has moved on. -/
theorem advance_bind {st st' : V0} {f : Unit → Parse α} {a : α} (hst : st.pos < s.length)
    (hf : Advances s (f ())) (h : (advance >>= f) st = .ok (a, st')) :
    Adv s st st' ∧ st.pos < st'.pos := by
  have hadv := hf ⟨st.pos + 1, st.err, st.depth⟩ a st' hst h
  exact ⟨⟨(Nat.le_succ _).trans hadv.pos, hadv.len, hadv.depth, hadv.err⟩, hadv.pos⟩

theorem compoundType_post (hrec : ∀ c, Advances s (rec c)) (hpath : Consumes s (rec .path))
    {st st' : V0} {out : String} (hst : st.pos ≤ s.length)
    (h : compoundType s rec (charAt s st.pos) st = .ok (out, st')) :
    Adv s st st' ∧ (st'.err = true ∨ st.pos < st'.pos) := by
  have hmove {f : Unit → Parse String} (hc : charAt s st.pos ≠ Char.ofNat 0)
      (hf : Advances s (f ())) (h : (advance >>= f) st = .ok (out, st')) :
      Adv s st st' ∧ (st'.err = true ∨ st.pos < st'.pos) :=
    (advance_bind (lt_of_charAt rfl hc) hf h).imp_right .inr
  have htagged (c : Char) (hc : c ≠ Char.ofNat 0) (t : String) :
      Advances s (do tagged s c; let e ← rec .type; pure (t ++ e)) :=
    (advances_tagged hc).bind fun _ ↦ (hrec _).bind fun _ ↦ advances_pure _
  unfold compoundType at h
  generalize charAt s st.pos = c at h hmove
  split at h
  · exact hmove (by decide) ((hrec _).bind fun _ ↦ (hrec _).bind fun _ ↦ advances_pure _) h
  · exact hmove (by decide) ((hrec _).bind fun _ ↦ advances_pure _) h
  · refine hmove (by decide) ((hrec _).bind fun _ ↦ (advances_eat (by decide)).bind ?_) h
    exact fun _ ↦ advances_pure _
  · exact hmove (by decide) (htagged 'L' (by decide) _) h
  · exact hmove (by decide) (htagged 'L' (by decide) _) h
  · exact hmove (by decide) ((hrec _).bind fun _ ↦ advances_pure _) h
  · exact hmove (by decide) ((hrec _).bind fun _ ↦ advances_pure _) h
  · exact hmove (by decide) (hrec _) h
  · refine hmove (by decide) ((hrec _).bind fun _ ↦ (advances_tagged (by decide)).bind ?_) h
    exact fun _ ↦ advances_pure _
  · exact hmove (by decide) (hrec _).backref h
  · exact ⟨hrec _ st out st' hst h, hpath st out st' hst h⟩

/-- What `type` does between counting up and down. -/
theorem typeBody_post (hrec : ∀ c, Advances s (rec c)) (hpath : Consumes s (rec .path))
    {st st' : V0} {out : String} (hst : st.pos ≤ s.length)
    (h : (do
      let c ← peek s
      match basicType c with
      | some text =>
        advance
        pure text
      | none => compoundType s rec c : Parse String) st = .ok (out, st')) :
    Adv s st st' ∧ (st'.err = true ∨ st.pos < st'.pos) := by
  rw [bind_of_ok (rfl : peek s st = .ok (charAt s st.pos, st))] at h
  cases hbasic : basicType (charAt s st.pos) with
  | some text =>
    rw [hbasic] at h
    have hlt : st.pos < s.length := lt_of_charAt rfl fun h0 ↦ by rw [h0] at hbasic; cases hbasic
    exact (advance_bind hlt (advances_pure text) h).imp_right .inr
  | none =>
    rw [hbasic] at h
    exact compoundType_post hrec hpath hst h

theorem advances_abi (hback : w.back = true) : Advances s (abi w s) := by
  refine (advances_eat (by decide)).bind fun b ↦ advances_ite ?_ (advances_pure _)
  refine (advances_eat (by decide)).bind fun b ↦ advances_ite (advances_pure _) ?_
  exact (advances_ident hback).bind fun _ ↦ advances_pure _

theorem elements_eq {x y : Parse String} {first : Bool} {sep : String} (st : V0) :
    elements s first sep x y st =
      if charAt s st.pos = 'E' ∨ st.err = true then .ok ("", st)
      else
        (do
          let e ← x
          let es ← y
          pure ((if first then "" else sep) ++ e ++ es) : Parse String) st := by
  unfold elements
  rw [bind_of_ok (rfl : peek s st = .ok (charAt s st.pos, st)),
    bind_of_ok (rfl : get st = .ok (st, st))]
  split <;> rfl

theorem Advances.elements {x y : Parse String} {first : Bool} {sep : String} (hx : Advances s x)
    (hy : Advances s y) : Advances s (elements s first sep x y) := by
  intro st out st' hst h
  rw [elements_eq] at h
  split at h
  · exact advances_pure _ st out st' hst h
  · exact hx.bind (fun _ ↦ hy.bind fun _ ↦ advances_pure _) st out st' hst h

/-- The functions that move the cursor on where they do not fail. -/
def Call.consumes : Call → Prop
  | .path | .type | .genericArg => True
  | _ => False

/-- What holds of a function wherever it returns. -/
def Post (s : List Char) (rec : Call → Parse String) : Prop :=
  ∀ c, Advances s (rec c) ∧ (c.consumes → Consumes s (rec c))

variable (hback : w.back = true) (hrec : Post s rec)

include hback hrec

theorem path_post : Advances s (path w s rec) ∧ Consumes s (path w s rec) := by
  have hident := advances_ident (s := s) hback
  have hdis : Advances s (disambiguator s) := advances_tagged (by decide)
  have hconsumes : Consumes s (take s) := fun st c st' _ h ↦ advances_take.2 st c st' h
  refine Consumes.counted_post (Consumes.bind_post advances_take.1 hconsumes fun t ↦ ?_)
  split
  · exact hdis.bind fun _ ↦ hident
  · exact advances_take.1.bind fun _ ↦ (hrec _).1.bind fun _ ↦ hdis.bind fun _ ↦
      hident.bind fun _ ↦ advances_pure _
  · exact hdis.bind fun _ ↦ (hrec _).1.bind fun _ ↦ (hrec _).1.bind fun _ ↦ advances_pure _
  · exact hdis.bind fun _ ↦ (hrec _).1.bind fun _ ↦ (hrec _).1.bind fun _ ↦
      (hrec _).1.bind fun _ ↦ advances_pure _
  · exact (hrec _).1.bind fun _ ↦ (hrec _).1.bind fun _ ↦ advances_pure _
  · exact (hrec _).1.bind fun _ ↦ (hrec _).1.bind fun _ ↦
      (advances_eat (by decide)).bind fun _ ↦ advances_pure _
  · exact (hrec _).1.backref
  · exact advances_fail.bind fun _ ↦ advances_pure _

omit hback in
theorem type_post : Advances s (type s rec) ∧ Consumes s (type s rec) := by
  have hpath : Consumes s (rec .path) := (hrec .path).2 trivial
  exact Consumes.counted_post
    ⟨fun _ _ _ hst h ↦ (typeBody_post (fun c ↦ (hrec c).1) hpath hst h).1,
      fun _ _ _ hst h ↦ (typeBody_post (fun c ↦ (hrec c).1) hpath hst h).2⟩

omit hback in
theorem genericArg_post : Advances s (genericArg s rec) ∧ Consumes s (genericArg s rec) :=
  Consumes.eat_post (by decide) (advances_base62.bind fun _ ↦ advances_pure _)
    (Consumes.eat_post (by decide) (hrec _).1 ⟨(hrec _).1, (hrec _).2 trivial⟩)

theorem body_post (c : Call) :
    Advances s (body w s rec c) ∧ (c.consumes → Consumes s (body w s rec c)) := by
  cases c with
  | path => exact (path_post hback hrec).imp_right fun h _ ↦ h
  | type => exact (type_post hrec).imp_right fun h _ ↦ h
  | genericArg => exact (genericArg_post hrec).imp_right fun h _ ↦ h
  | constant =>
    refine ⟨?_, False.elim⟩
    refine (advances_eat (by decide)).bind fun b ↦ advances_ite (hrec _).1.backref ?_
    refine (hrec _).1.bind fun _ ↦ (advances_eat (by decide)).bind fun b ↦
      advances_ite (advances_pure _) ?_
    exact (advances_eat (by decide)).bind fun _ ↦ (advances_takeWhile _).bind fun _ ↦
      (advances_eat (by decide)).bind fun _ ↦ advances_pure _
  | fnSig =>
    refine ⟨?_, False.elim⟩
    exact (advances_tagged (by decide)).bind fun _ ↦ (advances_eat (by decide)).bind fun _ ↦
      (advances_abi hback).bind fun _ ↦ (hrec _).1.bind fun _ ↦
        (advances_eat (by decide)).bind fun _ ↦ (hrec _).1.bind fun _ ↦ advances_pure _
  | dynBounds =>
    refine ⟨?_, False.elim⟩
    exact (advances_tagged (by decide)).bind fun _ ↦ (hrec _).1.bind fun _ ↦
      (advances_eat (by decide)).bind fun _ ↦ advances_pure _
  | genericArgs first => exact ⟨(hrec _).1.elements (hrec _).1, False.elim⟩
  | types first => exact ⟨(hrec _).1.elements (hrec _).1, False.elim⟩
  | traits first =>
    refine ⟨Advances.elements ?_ (hrec _).1, False.elim⟩
    exact (hrec _).1.bind fun _ ↦ (hrec _).1.bind fun _ ↦ advances_pure _
  | bindings =>
    refine ⟨?_, False.elim⟩
    refine (advances_eat (by decide)).bind fun b ↦ advances_ite ?_ (advances_pure _)
    exact (advances_ident hback).bind fun _ ↦ (hrec _).1.bind fun _ ↦ (hrec _).1

omit hrec in
/-- No function moves the cursor back, and those that count their depth move it on. -/
theorem call_post (n : ℕ) : Post s (call w s n) := by
  induction n with
  | zero => exact fun c ↦ ⟨advances_stop _, fun _ _ _ _ _ h ↦ by cases h⟩
  | succ n ih =>
    intro c
    have hbody {st st' : V0} {out : String} (h : call w s (n + 1) c st = .ok (out, st')) :
        body w s (call w s n) c st = .ok (out, st') := by
      by_cases hstop : c = .constant ∧ st.err = false ∧ w.cycle st.pos = true
      · rw [call_of_stops hstop] at h
        cases h
      · rwa [call_of_not_stops hstop] at h
    refine ⟨fun st out st' hst h ↦ ?_, fun hc st out st' hst h ↦ ?_⟩
    · exact (body_post hback ih c).1 st out st' hst (hbody h)
    · exact (body_post hback ih c).2 hc st out st' hst (hbody h)

end Body

end Advances

/-! ### Halting -/

/-- The computation halts from wherever the cursor is at `k` or further and the depth is `d` or
more, and advances. -/
structure Runs (s : List Char) (d k : ℕ) {α : Type} (x : ℕ → Parse α) : Prop where
  halts : ∀ st, k ≤ st.pos → st.pos ≤ s.length → d ≤ st.depth → Halts .fuel x st
  advances : ∀ n, Advances s (x n)

section Runs

variable {s : List Char} {d k : ℕ} {α β : Type} {x y : ℕ → Parse α}

theorem Runs.mono (h : Runs s d 0 x) : Runs s d k x :=
  ⟨fun st _ hst hd ↦ h.halts st (Nat.zero_le _) hst hd, h.advances⟩

theorem Runs.bind {f : ℕ → α → Parse β} (hx : Runs s d k x) (hf : ∀ a, Runs s d k fun n ↦ f n a) :
    Runs s d k fun n ↦ x n >>= f n := by
  refine ⟨fun st hk hst hd ↦ ?_, fun n ↦ (hx.advances n).bind fun a ↦ (hf a).advances n⟩
  refine (hx.halts st hk hst hd).bind fun a st' hset ↦ ?_
  obtain ⟨n, hn⟩ := hset.exists_eq
  have hadv := hx.advances n st a st' hst hn
  exact (hf a).halts st' (hk.trans hadv.pos) hadv.len (hd.trans hadv.depth)

theorem Runs.ite {p : Prop} [Decidable p] (hx : Runs s d k x) (hy : Runs s d k y) :
    Runs s d k fun n ↦ if p then x n else y n := by
  split
  · exact hx
  · exact hy

theorem halts_ite_eat {c : Char} {st : V0}
    (hx : charAt s st.pos = c → Halts .fuel x ⟨st.pos + 1, st.err, st.depth⟩)
    (hy : charAt s st.pos ≠ c → Halts .fuel y st) :
    Halts .fuel (fun n ↦ (do if ← eat s c then x n else y n)) st := by
  by_cases hat : charAt s st.pos = c
  · exact Halts.of_eq (fun n ↦ bind_of_ok ((eat_eq s c st).trans (if_pos hat)) _) (hx hat)
  · exact Halts.of_eq (fun n ↦ bind_of_ok ((eat_eq s c st).trans (if_neg hat)) _) (hy hat)

/-- A choice on a character moves the cursor on when it is there. -/
theorem Runs.ite_eat {c : Char} (hc : c ≠ Char.ofNat 0) (hx : Runs s d (k + 1) x)
    (hy : Runs s d k y) :
    Runs s d k fun n ↦ (do if ← eat s c then x n else y n) := by
  refine ⟨fun st hk hst hd ↦ halts_ite_eat (fun hat ↦ ?_) fun _ ↦ hy.halts st hk hst hd, fun n ↦
    (advances_eat hc).bind fun b ↦ advances_ite (hx.advances n) (hy.advances n)⟩
  exact hx.halts ⟨st.pos + 1, st.err, st.depth⟩ (Nat.succ_le_succ hk) (lt_of_charAt hat hc) hd

theorem Runs.of_reader {z : Parse α} (hz : Advances s z) (hfuel : ∀ st, z st ≠ .error .fuel) :
    Runs s d k fun _ ↦ z :=
  ⟨fun st _ _ _ ↦ .of_const (fun _ ↦ rfl) (hfuel st), fun _ ↦ hz⟩

theorem runs_pure (a : α) : Runs s d k fun _ ↦ (pure a : Parse α) :=
  .of_reader (advances_pure a) fun _ h ↦ by cases h

theorem runs_eat {c : Char} (hc : c ≠ Char.ofNat 0) : Runs s d k fun _ ↦ eat s c := by
  refine .of_reader (advances_eat hc) fun st h ↦ ?_
  rw [eat_eq] at h
  split at h <;> cases h

theorem runs_takeWhile (p : Char → Bool) : Runs s d k fun _ ↦ takeWhile s p :=
  .of_reader (advances_takeWhile p) fun _ h ↦ by cases h

theorem runs_take : Runs s d k fun _ ↦ take s := by
  refine .of_reader advances_take.1 fun st h ↦ ?_
  unfold take at h
  split at h <;> cases h

theorem runs_base62 : Runs s d k fun _ ↦ base62 s := by
  refine .of_reader advances_base62 fun st h ↦ ?_
  rw [base62_eq] at h
  cases h

theorem runs_fail : Runs s d k fun _ ↦ fail :=
  .of_reader advances_fail fun _ h ↦ by cases h

theorem runs_tagged {c : Char} (hc : c ≠ Char.ofNat 0) : Runs s d k fun _ ↦ tagged s c :=
  (runs_eat hc).bind fun _ ↦ Runs.ite (runs_base62.bind fun _ ↦ runs_pure _) (runs_pure _)

theorem ne_fuel_of_bind {x : Parse α} {f : α → Parse β} (hx : ∀ st, x st ≠ .error .fuel)
    (hf : ∀ a st, f a st ≠ .error .fuel) (st : V0) : (x >>= f) st ≠ .error .fuel := by
  rcases h : x st with e | ⟨a, st'⟩
  · rw [bind_of_error h]
    rintro ⟨⟩
    exact hx st h
  · rw [bind_of_ok h]
    exact hf a st'

theorem runs_ident {w : Watch} (hback : w.back = true) : Runs s d k fun _ ↦ ident w s := by
  refine .of_reader (advances_ident hback) (ne_fuel_of_bind ?_ fun puny ↦ ne_fuel_of_bind ?_
    fun len ↦ ne_fuel_of_bind ?_ fun _ ↦ ne_fuel_of_bind ?_ fun st' st h ↦ ?_)
  · intro st h
    rw [eat_eq] at h
    split at h <;> cases h
  · intro st h
    unfold decimal at h
    rw [bind_of_ok (rfl : peek s st = .ok (charAt s st.pos, st))] at h
    split at h
    · cases h
    · split at h <;> cases h
  · intro st h
    rw [eat_eq] at h
    split at h <;> cases h
  · exact fun st h ↦ by cases h
  · split at h
    · cases h
    · split at h <;> cases h

/-! ### The functions halt -/

/-- What halts beyond the end, and from `k` on if from `k + 1` on, halts from everywhere. -/
theorem Runs.of_step (hadv : ∀ n, Advances s (x n))
    (hstep : ∀ k, Runs s d (k + 1) x → Runs s d k x) : Runs s d 0 x := by
  have hlast : Runs s d (s.length + 1) x := ⟨fun st hk hst _ ↦ absurd hst (by omega), hadv⟩
  have hall (m : ℕ) (hm : m ≤ s.length + 1) : Runs s d (s.length + 1 - m) x := by
    induction m with
    | zero => exact hlast
    | succ m ih =>
      refine hstep _ ?_
      rw [show s.length + 1 - (m + 1) + 1 = s.length + 1 - m by omega]
      exact ih (by omega)
  simpa using hall (s.length + 1) le_rfl

/-- At the limit a counted function fails at once. -/
theorem halts_counted_of_le {x : ℕ → Parse String} {st : V0} (hle : 200 ≤ st.depth) :
    Halts .fuel (fun n ↦ counted (x n)) st := by
  rcases herr : st.err with - | -
  · exact Halts.of_const (fun n ↦ counted_of_le herr hle) fun h ↦ by cases h
  · exact Halts.of_const (fun n ↦ counted_of_err herr) fun h ↦ by cases h

theorem Runs.counted {x : ℕ → Parse String} (hx : Runs s (d + 1) 0 x) :
    Runs s d 0 fun n ↦ counted (x n) := by
  refine ⟨fun st _ hst hd ↦ ?_, fun n ↦ (hx.advances n).counted⟩
  rcases lt_or_ge st.depth 200 with hlt | hle
  · rcases herr : st.err with - | -
    · refine Halts.of_eq (fun n ↦ counted_of_lt herr hlt) (Halts.bind ?_ fun out st' _ ↦ ?_)
      · exact hx.halts _ (Nat.zero_le _) hst (Nat.succ_le_succ hd)
      · exact Halts.of_const (fun _ ↦ rfl) fun h ↦ by cases h
    · exact Halts.of_const (fun n ↦ counted_of_err herr) fun h ↦ by cases h
  · exact halts_counted_of_le hle

/-- What is read again halts from wherever the cursor may be. -/
theorem Runs.backref {x : ℕ → Parse String} (hx : Runs s d 0 x) :
    Runs s d k fun n ↦ backref s (x n) := by
  refine ⟨fun st _ hst hd ↦ ?_, fun n ↦ (hx.advances n).backref⟩
  have hend := (advances_base62 st _ _ hst (base62_eq s st)).len
  by_cases hoff : (st.err || (base62At s st.pos).2.2) = true ∨
      (base62At s st.pos).2.1 ≤ (base62At s st.pos).1
  · exact Halts.of_const (fun n ↦ (backref_eq s (x n) st).trans (if_pos hoff)) fun h ↦ by cases h
  · refine Halts.of_eq (fun n ↦ (backref_eq s (x n) st).trans (if_neg hoff)) (Halts.bind ?_ ?_)
    · have hlt : (base62At s st.pos).1 < (base62At s st.pos).2.1 :=
        not_le.1 fun hle ↦ hoff (.inr hle)
      exact hx.halts _ (Nat.zero_le _) (hlt.le.trans hend) hd
    · exact fun _ _ _ ↦ Halts.of_const (fun _ ↦ rfl) fun h ↦ by cases h

end Runs

section Calls

variable {w : Watch} {s : List Char} {d k : ℕ} (hback : w.back = true)

include hback

theorem call_advances (n : ℕ) (c : Call) : Advances s (call w s n c) :=
  (call_post hback n c).1

theorem runs_call {c : Call} (hc : c ≠ .constant)
    (h : Runs s d k fun n ↦ body w s (call w s n) c) : Runs s d k fun n ↦ call w s n c := by
  refine ⟨fun st hk hst hd ↦ ?_, fun n ↦ call_advances hback n c⟩
  exact Halts.of_succ
    (Halts.of_eq (fun n ↦ call_of_not_stops fun h ↦ hc h.1) (h.halts st hk hst hd))

theorem runs_abi : Runs s d k fun _ ↦ abi w s := by
  refine (runs_eat (by decide)).bind fun b ↦ Runs.ite ?_ (runs_pure _)
  refine (runs_eat (by decide)).bind fun b ↦ Runs.ite (runs_pure _) ?_
  exact (runs_ident hback).bind fun _ ↦ runs_pure _

/-- A loop whose elements halt and move the cursor on halts. -/
theorem runs_elements {c : Bool → Call} {sep : String} {x : ℕ → Parse String} (first : Bool)
    (hx : Runs s d 0 x) (hconsumes : ∀ n, Consumes s (x n)) (hc : ∀ first, c first ≠ .constant)
    (hbody : ∀ n first, body w s (call w s n) (c first) =
      elements s first sep (x n) (call w s n (c false))) :
    Runs s d 0 fun n ↦ call w s n (c first) := by
  have hcall (n : ℕ) (first : Bool) (st : V0) :
      call w s (n + 1) (c first) st = elements s first sep (x n) (call w s n (c false)) st := by
    rw [call_of_not_stops fun h ↦ hc _ h.1, hbody]
  -- from `k`, when the rest of the loop halts beyond `k`
  have hfrom (k : ℕ) (hnext : Runs s d (k + 1) fun n ↦ call w s n (c false)) (first : Bool) :
      Runs s d k fun n ↦ call w s n (c first) := by
    refine ⟨fun st hk hst hd ↦ Halts.of_succ ?_, fun n ↦ call_advances hback n _⟩
    by_cases h : charAt s st.pos = 'E' ∨ st.err = true
    · refine Halts.of_const (r := .ok ("", st)) (fun n ↦ ?_) fun h ↦ by cases h
      rw [hcall, elements_eq, if_pos h]
    · refine Halts.of_eq (fun n ↦ (hcall n first st).trans ((elements_eq st).trans (if_neg h))) ?_
      refine (hx.halts st (Nat.zero_le _) hst hd).bind fun e st' hset ↦ ?_
      obtain ⟨n, hn⟩ := hset.exists_eq
      have hadv := hx.advances n st e st' hst hn
      refine Halts.bind ?_ fun _ _ _ ↦ Halts.of_const (fun _ ↦ rfl) fun h ↦ by cases h
      rcases hconsumes n st e st' hst hn with herr | hlt
      · refine Halts.of_succ (Halts.of_const (r := .ok ("", st')) (fun n ↦ ?_) fun h ↦ by cases h)
        rw [hcall, elements_eq, if_pos (.inr herr)]
      · exact hnext.halts st' (hk.trans_lt hlt) hadv.len (hd.trans hadv.depth)
  have hrest : Runs s d 0 fun n ↦ call w s n (c false) :=
    Runs.of_step (fun n ↦ call_advances hback n _) fun k h ↦ hfrom k h false
  exact hfrom 0 hrest.mono first

section Depth

-- At the depth `d` and deeper paths and types halt.
variable (hpath : Runs s d 0 fun n ↦ call w s n .path) (htype : Runs s d 0 fun n ↦ call w s n .type)

include hpath htype

omit hpath in
theorem runs_bindings : Runs s d 0 fun n ↦ call w s n .bindings := by
  refine Runs.of_step (fun n ↦ call_advances hback n _) fun k h ↦ runs_call hback (by decide) ?_
  exact Runs.ite_eat (c := 'p') (by decide)
    ((runs_ident hback).bind fun _ ↦ htype.mono.bind fun _ ↦ h) (runs_pure _)

theorem runs_traits (first : Bool) : Runs s d 0 fun n ↦ call w s n (.traits first) := by
  refine runs_elements hback (c := .traits) first (x := fun n ↦ boundTrait (call w s n))
    (hpath.bind fun _ ↦ (runs_bindings hback htype).bind fun _ ↦ runs_pure _) (fun n ↦ ?_)
    (fun _ h ↦ by cases h) fun _ _ ↦ rfl
  exact (Consumes.bind_post (call_advances hback n _) ((call_post hback n .path).2 trivial)
    fun _ ↦ (call_advances hback n _).bind fun _ ↦ advances_pure _).2

omit hpath in
theorem runs_types (first : Bool) : Runs s d 0 fun n ↦ call w s n (.types first) :=
  runs_elements hback first htype (fun n ↦ (call_post hback n .type).2 trivial)
    (fun _ h ↦ by cases h) fun _ _ ↦ rfl

theorem runs_dynBounds : Runs s d 0 fun n ↦ call w s n .dynBounds :=
  runs_call hback (by decide) <| (runs_tagged (by decide)).bind fun _ ↦
    (runs_traits hback hpath htype true).bind fun _ ↦ (runs_eat (by decide)).bind fun _ ↦
      runs_pure _

omit hpath in
theorem runs_fnSig : Runs s d 0 fun n ↦ call w s n .fnSig :=
  runs_call hback (by decide) <| (runs_tagged (by decide)).bind fun _ ↦
    (runs_eat (by decide)).bind fun _ ↦ (runs_abi hback).bind fun _ ↦
      (runs_types hback htype true).bind fun _ ↦ (runs_eat (by decide)).bind fun _ ↦
        htype.bind fun _ ↦ runs_pure _

-- Constants halt as well.
variable (hconstant : Runs s d 0 fun n ↦ call w s n .constant)

include hconstant

omit hpath in
theorem runs_genericArg : Runs s d 0 fun n ↦ call w s n .genericArg :=
  runs_call hback (by decide) <|
    Runs.ite_eat (c := 'L') (by decide) (runs_base62.bind fun _ ↦ runs_pure _)
      (Runs.ite_eat (c := 'K') (by decide) hconstant.mono htype)

omit hpath in
theorem runs_genericArgs (first : Bool) : Runs s d 0 fun n ↦ call w s n (.genericArgs first) :=
  runs_elements hback first (runs_genericArg hback htype hconstant)
    (fun n ↦ (call_post hback n .genericArg).2 trivial) (fun _ h ↦ by cases h) fun _ _ ↦ rfl

end Depth

end Calls

section All

variable {s : List Char} {d : ℕ} {st : V0}

theorem le_length_of_nextConstant {k k' : ℕ} (h : nextConstant s k = some k') : k' ≤ s.length := by
  obtain ⟨hB, -, hlt, rfl⟩ := nextConstant_eq_some h
  have hk : k + 1 ≤ s.length := lt_of_charAt hB (by decide)
  exact hlt.le.trans (advances_base62 ⟨k + 1, false, 0⟩ _ _ hk (base62_eq s _)).len

/-- A constant halts if the one it refers back to does. -/
theorem halts_body_constant (htype : Runs s d 0 fun n ↦ call (.all s) s n .type)
    (hst : st.pos ≤ s.length) (hd : d ≤ st.depth)
    (hnext : ∀ k', st.err = false → nextConstant s st.pos = some k' →
      Halts .fuel (fun n ↦ call (.all s) s n .constant) ⟨k', false, st.depth⟩) :
    Halts .fuel (fun n ↦ body (.all s) s (call (.all s) s n) .constant) st := by
  refine halts_ite_eat (fun hB ↦ ?_) fun _ ↦
    Runs.halts (d := d) (k := 0) ?_ st (Nat.zero_le _) hst hd
  · let p := base62At s (st.pos + 1)
    by_cases hoff : (st.err || p.2.2) = true ∨ p.2.1 ≤ p.1
    · exact Halts.of_const (fun n ↦ (backref_eq s _ _).trans (if_pos hoff)) fun h ↦ by cases h
    · refine Halts.of_eq (fun n ↦ (backref_eq s _ _).trans (if_neg hoff)) (Halts.bind ?_ ?_)
      · have herr : (st.err || p.2.2) = false := Bool.eq_false_iff.2 fun h ↦ hoff (.inl h)
        obtain ⟨h, h'⟩ := Bool.or_eq_false_iff.1 herr
        have hlt : p.1 < p.2.1 := not_le.1 fun h ↦ hoff (.inr h)
        dsimp only
        rw [herr]
        exact hnext p.1 h (if_pos ⟨hB, h', hlt⟩)
      · exact fun _ _ _ ↦ Halts.of_const (fun _ ↦ rfl) fun h ↦ by cases h
  · refine htype.bind fun _ ↦ (runs_eat (by decide)).bind fun b ↦ Runs.ite (runs_pure _) ?_
    exact (runs_eat (by decide)).bind fun _ ↦ (runs_takeWhile _).bind fun _ ↦
      (runs_eat (by decide)).bind fun _ ↦ runs_pure _

/-- Constants halt: those that refer back without end are found. -/
theorem runs_constant (htype : Runs s d 0 fun n ↦ call (.all s) s n .type) :
    Runs s d 0 fun n ↦ call (.all s) s n .constant := by
  refine ⟨?_, fun n ↦ call_advances rfl n _⟩
  rintro st - hst hd
  have hgo {st : V0} (h : st.err = false → Ends s st.pos) (n : ℕ) :
      call (.all s) s (n + 1) .constant st = body (.all s) s (call (.all s) s n) .constant st :=
    call_of_not_stops fun hstop ↦ by simpa [Watch.all, h hstop.2.1] using hstop.2.2
  rcases herr : st.err with - | -
  · by_cases hends : Ends s st.pos
    · obtain ⟨pos, err, depth⟩ := st
      obtain rfl : err = false := herr
      dsimp only at hends hst hd
      induction hends with
      | last hnone =>
        refine Halts.of_succ (Halts.of_eq (hgo fun _ ↦ .last hnone) ?_)
        exact halts_body_constant htype hst hd fun k' _ h ↦ by cases hnone.symm.trans h
      | @step k k' hsome h' ih =>
        refine Halts.of_succ (Halts.of_eq (hgo fun _ ↦ .step hsome h') ?_)
        refine halts_body_constant htype hst hd fun k'' _ h ↦ ?_
        obtain rfl := Option.some.inj (hsome.symm.trans h)
        exact ih (le_length_of_nextConstant hsome)
    · refine Halts.of_succ
        (Halts.of_const (fun n ↦ call_of_stops ⟨rfl, herr, ?_⟩) fun h ↦ by cases h)
      simpa [Watch.all] using hends
  · refine Halts.of_succ (Halts.of_eq (hgo fun h ↦ by cases herr.symm.trans h) ?_)
    exact halts_body_constant htype hst hd fun k' h ↦ by cases herr.symm.trans h

section Deeper

-- What is read at the depth `d` and deeper halts.
variable (hpath : Runs s d 0 fun n ↦ call (.all s) s n .path)
  (htype : Runs s d 0 fun n ↦ call (.all s) s n .type)

include hpath htype

theorem halts_compoundType (hst : st.pos ≤ s.length) (hd : d ≤ st.depth) :
    Halts .fuel (fun n ↦ compoundType s (call (.all s) s n) (charAt s st.pos)) st := by
  have hback : (Watch.all s).back = true := rfl
  have hmove {f : ℕ → Unit → Parse String} (hc : charAt s st.pos ≠ Char.ofNat 0)
      (hf : Runs s d 0 fun n ↦ f n ()) : Halts .fuel (fun n ↦ advance >>= f n) st :=
    hf.halts ⟨st.pos + 1, st.err, st.depth⟩ (Nat.zero_le _) (lt_of_charAt rfl hc) hd
  have hL : Runs s d 0 fun _ ↦ tagged s 'L' := runs_tagged (by decide)
  have hE : Runs s d 0 fun _ ↦ eat s 'E' := runs_eat (by decide)
  unfold compoundType
  generalize charAt s st.pos = c at hmove
  split
  · refine hmove (by decide) (htype.bind fun _ ↦ ?_)
    exact (runs_constant htype).bind fun _ ↦ runs_pure _
  · exact hmove (by decide) (htype.bind fun _ ↦ runs_pure _)
  · refine hmove (by decide) ((runs_types hback htype true).bind fun _ ↦ ?_)
    exact hE.bind fun _ ↦ runs_pure _
  · exact hmove (by decide) (hL.bind fun _ ↦ htype.bind fun _ ↦ runs_pure _)
  · exact hmove (by decide) (hL.bind fun _ ↦ htype.bind fun _ ↦ runs_pure _)
  · exact hmove (by decide) (htype.bind fun _ ↦ runs_pure _)
  · exact hmove (by decide) (htype.bind fun _ ↦ runs_pure _)
  · exact hmove (by decide) (runs_fnSig hback htype)
  · refine hmove (by decide) ((runs_dynBounds hback hpath htype).bind fun _ ↦ ?_)
    exact hL.bind fun _ ↦ runs_pure _
  · exact hmove (by decide) htype.backref
  · exact hpath.halts st (Nat.zero_le _) hst hd

theorem runs_typeBody : Runs s d 0 fun n ↦ (do
    let c ← peek s
    match basicType c with
    | some text =>
      advance
      pure text
    | none => compoundType s (call (.all s) s n) c : Parse String) := by
  have hpost (n : ℕ) := call_post (w := .all s) (s := s) rfl n
  refine ⟨fun st _ hst hd ↦ ?_, fun n st out st' hst h ↦
    (typeBody_post (fun c ↦ (hpost n c).1) ((hpost n .path).2 trivial) hst h).1⟩
  refine Halts.of_eq (fun n ↦ bind_of_ok (rfl : peek s st = .ok (charAt s st.pos, st)) _) ?_
  cases basicType (charAt s st.pos) with
  | some text => exact Halts.of_const (fun _ ↦ rfl) fun h ↦ by cases h
  | none => exact halts_compoundType hpath htype hst hd

end Deeper

/-- What is read at the depth `d` halts when what is read deeper does. -/
theorem runs_path_type (hpath : Runs s (d + 1) 0 fun n ↦ call (.all s) s n .path)
    (htype : Runs s (d + 1) 0 fun n ↦ call (.all s) s n .type) :
    (Runs s d 0 fun n ↦ call (.all s) s n .path) ∧ Runs s d 0 fun n ↦ call (.all s) s n .type := by
  have hback : (Watch.all s).back = true := rfl
  constructor
  · have hident : Runs s (d + 1) 0 fun _ ↦ ident (.all s) s := runs_ident hback
    have hdis : Runs s (d + 1) 0 fun _ ↦ disambiguator s := runs_tagged (by decide)
    refine runs_call hback (by decide) (Runs.counted (runs_take.bind fun t ↦ ?_))
    split
    · exact hdis.bind fun _ ↦ hident
    · exact runs_take.bind fun _ ↦ hpath.bind fun _ ↦ hdis.bind fun _ ↦
        hident.bind fun _ ↦ runs_pure _
    · exact hdis.bind fun _ ↦ hpath.bind fun _ ↦ htype.bind fun _ ↦ runs_pure _
    · exact hdis.bind fun _ ↦ hpath.bind fun _ ↦ htype.bind fun _ ↦
        hpath.bind fun _ ↦ runs_pure _
    · exact htype.bind fun _ ↦ hpath.bind fun _ ↦ runs_pure _
    · exact hpath.bind fun _ ↦
        (runs_genericArgs hback htype (runs_constant htype) true).bind fun _ ↦
        (runs_eat (by decide)).bind fun _ ↦ runs_pure _
    · exact hpath.backref
    · exact runs_fail.bind fun _ ↦ runs_pure _
  · exact runs_call hback (by decide) (Runs.counted (runs_typeBody hpath htype))

/-- At every depth paths and types halt. -/
theorem runs_path_type_zero (s : List Char) : (Runs s 0 0 fun n ↦ call (.all s) s n .path) ∧
    Runs s 0 0 fun n ↦ call (.all s) s n .type := by
  have hlimit {c : Call} (hc : c ≠ .constant)
      (hcounted : ∀ n, ∃ x, body (.all s) s (call (.all s) s n) c = counted x) :
      Runs s 200 0 fun n ↦ call (.all s) s n c := by
    choose x hx using hcounted
    refine runs_call rfl hc ⟨fun st _ _ hd ↦ ?_, fun n ↦ (body_post rfl (call_post rfl n) c).1⟩
    exact Halts.of_eq (fun n ↦ congrFun (hx n) st) (halts_counted_of_le hd)
  have hall (m : ℕ) (hm : m ≤ 200) : (Runs s (200 - m) 0 fun n ↦ call (.all s) s n .path) ∧
      Runs s (200 - m) 0 fun n ↦ call (.all s) s n .type := by
    induction m with
    | zero => exact ⟨hlimit (by decide) fun _ ↦ ⟨_, rfl⟩, hlimit (by decide) fun _ ↦ ⟨_, rfl⟩⟩
    | succ m ih =>
      obtain ⟨hpath, htype⟩ := ih (by omega)
      rw [show 200 - m = 200 - (m + 1) + 1 by omega] at hpath htype
      exact runs_path_type hpath htype
  simpa using hall 200 le_rfl

end All

/-! ### The three runs -/

/-- How a run, the run that watches for components that move the cursor back, and the run that
watches for constants without end as well belong together. -/
structure Watched {α : Type} (run moves all : ℕ → Except Stop α) : Prop where
  moves_run : ∀ n, moves n = .error .back ∨ moves n = run n
  all_moves : ∀ n, (all n = .error .cycle ∧ ∀ a, moves n ≠ .ok a) ∨ all n = moves n
  moves_le : ∀ n m, n ≤ m → moves n ≠ .error .fuel → moves m = moves n
  all_le : ∀ n m, n ≤ m → all n ≠ .error .fuel → all m = all n
  halts : ∃ n, all n ≠ .error .fuel

section Watched

variable {α β : Type} {run moves all : ℕ → Except Stop α}

theorem map_ne_error {x : Except Stop α} {f : α → β} {e : Stop} :
    x.map f ≠ .error e ↔ x ≠ .error e := by
  cases x <;> simp [Except.map]

theorem Watched.map (h : Watched run moves all) (f : α → β) :
    Watched (fun n ↦ (run n).map f) (fun n ↦ (moves n).map f) fun n ↦ (all n).map f := by
  refine ⟨fun n ↦ ?_, fun n ↦ ?_, fun n m hnm hn ↦ ?_, fun n m hnm hn ↦ ?_, ?_⟩
  · exact (h.moves_run n).imp (fun h ↦ by rw [h]; rfl) fun h ↦ by rw [h]
  · refine (h.all_moves n).imp (fun ⟨hcycle, hne⟩ ↦ ⟨by rw [hcycle]; rfl, fun b hb ↦ ?_⟩)
      fun h ↦ by rw [h]
    rcases hm : moves n with e | a
    · rw [hm] at hb
      cases hb
    · exact hne a hm
  · exact congrArg (Except.map f) (h.moves_le n m hnm (map_ne_error.1 hn))
  · exact congrArg (Except.map f) (h.all_le n m hnm (map_ne_error.1 hn))
  · exact h.halts.imp fun n hn ↦ map_ne_error.2 hn

/-- The run returns, and its cursor never moves back, when nothing is found. -/
theorem Watched.returns_iff (h : Watched run moves all) :
    ((∃ n a, run n = .ok a) ∧ ∀ n, moves n ≠ .error .back) ↔
      ∀ n, all n ≠ .error .back ∧ all n ≠ .error .cycle := by
  constructor
  · rintro ⟨⟨n₀, a, hrun⟩, hback⟩ n
    have hmoves : moves n₀ = .ok a := ((h.moves_run n₀).resolve_left (hback n₀)).trans hrun
    have hall : all n₀ = .ok a :=
      ((h.all_moves n₀).resolve_left fun hcycle ↦ hcycle.2 a hmoves).trans hmoves
    have hne (e : Stop) (hfuel : e ≠ .fuel) : all n ≠ .error e := by
      intro hn
      have hle := h.all_le n (max n n₀) (le_max_left _ _) (by rw [hn]; simpa using hfuel)
      have hle₀ := h.all_le n₀ (max n n₀) (le_max_right _ _) (by rw [hall]; simp)
      rw [hle₀, hall, hn] at hle
      cases hle
    exact ⟨hne .back (by decide), hne .cycle (by decide)⟩
  · intro hfind
    obtain ⟨n₀, hfuel⟩ := h.halts
    obtain ⟨a, hall⟩ : ∃ a, all n₀ = .ok a := by
      rcases hall : all n₀ with e | a
      · cases e with
        | fuel => exact absurd hall hfuel
        | back => exact absurd hall (hfind n₀).1
        | cycle => exact absurd hall (hfind n₀).2
      · exact ⟨a, rfl⟩
    have hmoves : moves n₀ = .ok a :=
      ((h.all_moves n₀).resolve_left fun hcycle ↦ (hfind n₀).2 hcycle.1).symm.trans hall
    refine ⟨⟨n₀, a, ?_⟩, fun n hn ↦ ?_⟩
    · exact ((h.moves_run n₀).resolve_left (by rw [hmoves]; simp)).symm.trans hmoves
    · have hle := h.moves_le n (max n n₀) (le_max_left _ _) (by rw [hn]; simp)
      have hle₀ := h.moves_le n₀ (max n n₀) (le_max_right _ _) (by rw [hmoves]; simp)
      rw [hle₀, hmoves, hn] at hle
      cases hle

theorem watched_const (x : Except Stop α) (h : x ≠ .error .fuel) :
    Watched (fun _ ↦ x) (fun _ ↦ x) fun _ ↦ x :=
  ⟨fun _ ↦ .inr rfl, fun _ ↦ .inr rfl, fun _ _ _ _ ↦ rfl, fun _ _ _ _ ↦ rfl, ⟨0, h⟩⟩

theorem watched_call (s : List Char) : Watched (fun n ↦ call .none s n .path {})
    (fun n ↦ call .moves s n .path {}) fun n ↦ call (.all s) s n .path {} where
  moves_run n := call_moves_rel s n .path {}
  all_moves n := call_all_rel s n .path {}
  moves_le _ _ hnm hn := call_of_le hnm hn
  all_le _ _ hnm hn := call_of_le hnm hn
  halts := ((runs_path_type_zero s).1.halts {} le_rfl (Nat.zero_le _) le_rfl).exists_ne

end Watched

/-! ### Legacy symbols -/

section Legacy

variable {w : Watch} {sym : List Char}

/-- The digits at the cursor, and where the component behind them ends. -/
def legacyDigits (sym : List Char) (i : ℕ) : List Char :=
  (sym.drop i).takeWhile Char.isDigit

def legacyNext (sym : List Char) (i : ℕ) : ℕ :=
  wrap (i + (legacyDigits sym i).length + decimalValue (legacyDigits sym i))

/-- How the loop ends at the cursor, unless it goes on with the next component. -/
def legacyEnd (w : Watch) (sym : List Char) (i : ℕ) :
    Option (Except Stop (Option (List (List Char)))) :=
  if legacyDigits sym i = [] then some (.ok (some []))
  else if decimalValue (legacyDigits sym i) = 0 ∨ sym.length < legacyNext sym i then some (.ok none)
  else if w.back ∧ legacyNext sym i < i + (legacyDigits sym i).length then some (.error .back)
  else none

/-- The component at the cursor. -/
def legacyPart (sym : List Char) (i : ℕ) : List Char :=
  (sym.drop (i + (legacyDigits sym i).length)).take (decimalValue (legacyDigits sym i))

theorem legacyLoop_succ (w : Watch) (sym : List Char) (n i : ℕ) : legacyLoop w sym (n + 1) i =
    (legacyEnd w sym i).getD ((legacyLoop w sym n (legacyNext sym i)).map fun parts ↦
      parts.map (legacyPart sym i :: ·)) := by
  change (if legacyDigits sym i = [] then _
    else if decimalValue (legacyDigits sym i) = 0 ∨ sym.length < legacyNext sym i then _
    else if w.back ∧ legacyNext sym i < i + (legacyDigits sym i).length then _ else _) = _
  unfold legacyEnd
  by_cases hdigits : legacyDigits sym i = []
  · rw [if_pos hdigits, if_pos hdigits]
    rfl
  · rw [if_neg hdigits, if_neg hdigits]
    by_cases hlen : decimalValue (legacyDigits sym i) = 0 ∨ sym.length < legacyNext sym i
    · rw [if_pos hlen, if_pos hlen]
      rfl
    · rw [if_neg hlen, if_neg hlen]
      split <;> rfl

/-- Where the loop goes on, and is watched for moving back, the cursor moves on. -/
theorem legacyEnd_eq_none {i : ℕ} (hback : w.back = true) (h : legacyEnd w sym i = none) :
    i < legacyNext sym i ∧ legacyNext sym i ≤ sym.length := by
  unfold legacyEnd at h
  split at h
  · cases h
  · next hdigits =>
    split at h
    · cases h
    · next hlen =>
      split at h
      · cases h
      · next hmove =>
        have hpos : 0 < (legacyDigits sym i).length := List.length_pos_of_ne_nil hdigits
        have hle := not_lt.1 fun hlt ↦ hmove ⟨hback, hlt⟩
        exact ⟨by omega, not_lt.1 fun hlt ↦ hlen (.inr hlt)⟩

theorem legacyEnd_ne_fuel (w : Watch) (sym : List Char) (i : ℕ) :
    legacyEnd w sym i ≠ some (.error .fuel) := by
  unfold legacyEnd
  intro h
  split at h
  · cases h
  · split at h
    · cases h
    · split at h <;> cases h

theorem legacyEnd_moves (sym : List Char) (i : ℕ) :
    legacyEnd .moves sym i = some (.error .back) ∨
      legacyEnd .moves sym i = legacyEnd .none sym i := by
  unfold legacyEnd
  split
  · exact .inr rfl
  · split
    · exact .inr rfl
    · by_cases hback : legacyNext sym i < i + (legacyDigits sym i).length
      · exact .inl (if_pos ⟨rfl, hback⟩)
      · rw [if_neg fun h ↦ hback h.2, if_neg fun h ↦ hback h.2]
        exact .inr rfl

theorem legacyLoop_moves (sym : List Char) (n i : ℕ) :
    legacyLoop .moves sym n i = .error .back ∨
      legacyLoop .moves sym n i = legacyLoop .none sym n i := by
  induction n generalizing i with
  | zero => exact .inr rfl
  | succ n ih =>
    rw [legacyLoop_succ, legacyLoop_succ]
    rcases legacyEnd_moves sym i with h | h
    · exact .inl (by rw [h]; rfl)
    · rw [h]
      cases legacyEnd .none sym i with
      | some r => exact .inr rfl
      | none => exact (ih _).imp (fun h ↦ by rw [h]; rfl) fun h ↦ by rw [h]

/-- More fuel changes no outcome. -/
theorem legacyLoop_of_le {n m i : ℕ} (hnm : n ≤ m) (h : legacyLoop w sym n i ≠ .error .fuel) :
    legacyLoop w sym m i = legacyLoop w sym n i := by
  induction n generalizing m i with
  | zero => exact absurd rfl h
  | succ n ih =>
    obtain ⟨m, rfl⟩ := Nat.exists_eq_add_of_le' (Nat.le_of_add_left_le hnm)
    rw [legacyLoop_succ] at h ⊢
    rw [legacyLoop_succ]
    cases hend : legacyEnd w sym i with
    | some r => rfl
    | none =>
      rw [hend] at h
      exact congrArg (Except.map _) (ih (Nat.le_of_succ_le_succ hnm) (map_ne_error.1 h))

/-- A loop whose cursor is watched for moving back halts. -/
theorem legacyLoop_halts (hback : w.back = true) (i : ℕ) (hi : i ≤ sym.length) :
    ∃ n, legacyLoop w sym n i ≠ .error .fuel := by
  induction hm : sym.length - i using Nat.strong_induction_on generalizing i with
  | _ m ih =>
    cases hend : legacyEnd w sym i with
    | some r =>
      refine ⟨1, fun h ↦ legacyEnd_ne_fuel w sym i (hend.trans (congrArg some ?_))⟩
      rwa [legacyLoop_succ, hend] at h
    | none =>
      obtain ⟨hlt, hle⟩ := legacyEnd_eq_none hback hend
      obtain ⟨n, hn⟩ := ih (sym.length - legacyNext sym i) (by omega) (legacyNext sym i) hle rfl
      refine ⟨n + 1, ?_⟩
      rw [legacyLoop_succ, hend]
      exact map_ne_error.2 hn

theorem watched_legacyLoop (sym : List Char) (s : List Char) {i : ℕ} (hi : i ≤ sym.length) :
    Watched (fun n ↦ legacyLoop .none sym n i) (fun n ↦ legacyLoop .moves sym n i)
      fun n ↦ legacyLoop (.all s) sym n i := by
  have hall (n i : ℕ) : legacyLoop (.all s) sym n i = legacyLoop .moves sym n i := by
    induction n generalizing i with
    | zero => rfl
    | succ n ih =>
      rw [legacyLoop_succ, legacyLoop_succ, ih]
      rfl
  exact ⟨fun n ↦ legacyLoop_moves sym n i, fun n ↦ .inr (hall n i), fun _ _ ↦ legacyLoop_of_le,
    fun _ _ ↦ legacyLoop_of_le, legacyLoop_halts rfl i hi⟩

/-- Runs on a legacy symbol. -/
theorem watched_demangleLegacy (sym : List Char) (s : List Char) (hlen : 3 ≤ sym.length) :
    Watched (fun n ↦ demangleLegacy .none n sym) (fun n ↦ demangleLegacy .moves n sym)
      fun n ↦ demangleLegacy (.all s) n sym := by
  unfold demangleLegacy
  split
  · exact (watched_legacyLoop sym s hlen).map _
  · split
    · exact (watched_legacyLoop sym s (by omega)).map _
    · exact watched_const _ fun h ↦ by cases h

end Legacy

theorem watched_dsRustDemangle (sym : List Char) :
    Watched (fun n ↦ dsRustDemangle .none n sym) (fun n ↦ dsRustDemangle .moves n sym)
      fun n ↦ dsRustDemangle (.all (v0Body sym)) n sym := by
  unfold dsRustDemangle
  split
  · exact watched_const _ fun h ↦ by cases h
  · next hlen =>
    split
    · exact (watched_call (v0Body sym)).map _
    · exact watched_demangleLegacy sym _ (by omega)

end Rust

end Ldu
