import Ldu.Graph.Relaxation
import Ldu.Table.SigTable
import Mathlib.Data.List.Nodup

/-!
# When the table of signatures is a fixed point

Each loop hands one thing along the calls: a number of parameters, a kind, a type. What it hands on
is relaxed (`Relaxation`), in rounds whose number is fixed, and in the order of the addresses. The
table is a fixed point exactly when the rounds suffice (`settled_iff`).
-/

namespace Ldu

open Relaxation

namespace Scan

/-! ### Projections of loops -/

section Project

variable {S ε ε' δ γ : Type*}

/-- What a loop does to a part of the state, where an invariant holds. -/
theorem project_foldl {step : S → ε → S} {p : S → δ} {step' : δ → ε' → δ} {g : ε → Option ε'}
    {I : S → Prop} (hI : ∀ s e, I s → I (step s e))
    (h : ∀ s e, I s → p (step s e) = (g e).elim (p s) (step' (p s))) (es : List ε) {s : S}
    (hs : I s) : p (es.foldl step s) = (es.filterMap g).foldl step' (p s) := by
  induction es generalizing s with
  | nil => rfl
  | cons e es ih =>
    rw [List.foldl_cons, ih (hI s e hs), h s e hs, List.filterMap_cons]
    cases g e <;> rfl

theorem foldl_keeps {step : S → ε → S} {I : S → Prop} (hI : ∀ s e, I s → I (step s e))
    (es : List ε) {s : S} (hs : I s) : I (es.foldl step s) := by
  induction es generalizing s with
  | nil => exact hs
  | cons e es ih => exact ih (hI s e hs)

theorem project_iterate {f : S → S} {p : S → δ} {step : δ → ε → δ} {es : List ε} {I : S → Prop}
    (hI : ∀ s, I s → I (f s)) (h : ∀ s, I s → p (f s) = es.foldl step (p s)) (n : ℕ) {s : S}
    (hs : I s) : p (f^[n] s) = (rounds n es).foldl step (p s) := by
  induction n generalizing s with
  | zero => rfl
  | succ n ih =>
    rw [Function.iterate_succ_apply, ih (hI s hs), h s hs, rounds, rounds, List.replicate_succ,
      List.flatten_cons, List.foldl_append]

theorem iterate_keeps {f : S → S} {I : S → Prop} (hI : ∀ s, I s → I (f s)) (n : ℕ) {s : S}
    (hs : I s) : I (f^[n] s) := by
  induction n generalizing s with
  | zero => exact hs
  | succ n ih => exact ih (hI s hs)

theorem comp_foldl {q : FuncSig → γ} {step : Sigs → ε → Sigs}
    (h : ∀ s e, q ∘ step s e = q ∘ s) (es : List ε) (sig : Sigs) :
    q ∘ es.foldl step sig = q ∘ sig :=
  foldl_keeps (I := fun s ↦ q ∘ s = q ∘ sig) (fun s e hs ↦ (h s e).trans hs) es rfl

/-- An update of what `q` does not show. -/
theorem comp_update_of_eq {q : FuncSig → γ} {sig : Sigs} {a : ℕ} {s : FuncSig}
    (h : q s = q (sig a)) : q ∘ Function.update sig a s = q ∘ sig := by
  rw [Function.comp_update, h]
  exact Function.update_eq_self a (q ∘ sig)

end Project

variable {t : Scan} {sig : Sigs}

section Steps

variable {γ : Type*} {q : FuncSig → γ} {s : Sigs}

theorem comp_tailStep (h : ∀ r c, q { r with retKind := c } = q r) (k : Tail) :
    q ∘ t.tailStep s k = q ∘ s := by
  unfold tailStep
  split
  · exact comp_update_of_eq (h _ _)
  · rfl

theorem comp_lockStep (h : ∀ r c, q { r with lockKind := c } = q r) (p : ℕ × ℕ) :
    q ∘ t.lockStep s p = q ∘ s := by
  unfold lockStep
  split
  · exact comp_update_of_eq (h _ _)
  · rfl

theorem comp_fwdStep (h : ∀ r c, q (withReturn (withParams r c) c) = q r) (k : Tail) :
    q ∘ t.fwdStep s k = q ∘ s := by
  unfold fwdStep
  split
  · exact comp_update_of_eq (h _ _)
  · rfl

end Steps

/-! ### Parameters -/

theorem paramCount_withReturn (s target : FuncSig) :
    (withReturn s target).paramCount = s.paramCount := by
  unfold withReturn
  split <;> rfl

theorem paramCount_withParams (s target : FuncSig) :
    (withParams s target).paramCount = s.paramCount ⊔ target.paramCount := by
  unfold withParams
  split
  · next h => exact (max_eq_right h.le).symm
  · next h => exact (max_eq_left (not_lt.1 h)).symm

variable (t) in
/-- The calls along which parameters are handed on. -/
def forwardEdges : List (ℕ × ℕ) :=
  t.tailOf.filterMap fun k ↦
    if k.forwards = true ∧ t.Known k.rva k.target then some (k.rva, k.target) else none

theorem paramCount_fwdStep (k : Tail) :
    FuncSig.paramCount ∘ t.fwdStep sig k =
      Option.elim
        (if k.forwards = true ∧ t.Known k.rva k.target then some (k.rva, k.target) else none)
        (FuncSig.paramCount ∘ sig) (relax (FuncSig.paramCount ∘ sig)) := by
  unfold fwdStep
  split
  · rw [Function.comp_update, paramCount_withReturn, paramCount_withParams]
    rfl
  · rfl

theorem paramCount_round (sig : Sigs) :
    FuncSig.paramCount ∘ t.round sig = run t.forwardEdges (FuncSig.paramCount ∘ sig) := by
  have htail := comp_foldl (fun s k ↦ comp_tailStep (t := t) (s := s)
    (q := FuncSig.paramCount) (fun _ _ ↦ rfl) k) t.tailOf sig
  have hlock := comp_foldl (fun s k ↦ comp_lockStep (t := t) (s := s)
    (q := FuncSig.paramCount) (fun _ _ ↦ rfl) k) t.lockThunkOf (t.tailOf.foldl t.tailStep sig)
  unfold round
  rw [project_foldl (p := fun s : Sigs ↦ FuncSig.paramCount ∘ s) (I := fun _ ↦ True)
    (fun _ _ _ ↦ trivial) (fun _ k _ ↦ paramCount_fwdStep k) t.tailOf trivial, hlock, htail]
  rfl

theorem paramCount_propagate (t : Scan) :
    FuncSig.paramCount ∘ t.propagate =
      run (rounds 4 t.forwardEdges) (FuncSig.paramCount ∘ t.sig) :=
  project_iterate (p := fun s : Sigs ↦ FuncSig.paramCount ∘ s) (I := fun _ ↦ True)
    (fun _ _ ↦ trivial) (fun s _ ↦ paramCount_round s) 4 trivial

/-! ### What the loops leave alone -/

/-- What decides whether something is handed on. -/
def frozen (s : FuncSig) : Bool × Bool × ℕ :=
  (s.isWrapper, s.sawPriorCall, s.retCallTarget)

theorem frozen_withReturn_withParams (s c : FuncSig) :
    frozen (withReturn (withParams s c) c) = frozen s := by
  unfold withReturn withParams
  split <;> split <;> rfl

/-- A part that no step of a round changes. -/
theorem comp_round {γ : Type*} {q : FuncSig → γ} (hkind : ∀ s c, q { s with retKind := c } = q s)
    (hlock : ∀ s c, q { s with lockKind := c } = q s)
    (hfwd : ∀ s c, q (withReturn (withParams s c) c) = q s) (sig : Sigs) :
    q ∘ t.round sig = q ∘ sig := by
  unfold round
  rw [comp_foldl (fun _ k ↦ comp_fwdStep hfwd k), comp_foldl (fun _ k ↦ comp_lockStep hlock k),
    comp_foldl (fun _ k ↦ comp_tailStep hkind k)]

theorem frozen_tailStep (k : Tail) : frozen ∘ t.tailStep sig k = frozen ∘ sig :=
  comp_tailStep (fun _ _ ↦ rfl) k

theorem frozen_round (sig : Sigs) : frozen ∘ t.round sig = frozen ∘ sig :=
  comp_round (fun _ _ ↦ rfl) (fun _ _ ↦ rfl) frozen_withReturn_withParams sig

theorem frozen_propagate (t : Scan) : frozen ∘ t.propagate = frozen ∘ t.sig :=
  iterate_keeps (I := fun s ↦ frozen ∘ s = frozen ∘ t.sig)
    (fun s hs ↦ (frozen_round s).trans hs) 4 rfl

/-! ### Kinds -/

/-- A call along which a kind is handed on. -/
def tailHop (t : Scan) (k : Tail) : Hop ℕ ℕ :=
  ⟨k.rva, k.target, fun c ↦ !(t.sig k.rva).sawPriorCall || isFloat c⟩

def forwardHop (k : Tail) : Hop ℕ ℕ :=
  ⟨k.rva, k.target, fun _ ↦ true⟩

variable (t) in
/-- The calls along which kinds are handed on, in the order of a round. -/
def kindHops : List (Hop ℕ ℕ) :=
  (t.tailOf.filterMap fun k ↦ if t.Known k.rva k.target then some (t.tailHop k) else none) ++
    t.tailOf.filterMap fun k ↦
      if k.forwards = true ∧ t.Known k.rva k.target then some (forwardHop k) else none

theorem retKind_tailStep (hsig : frozen ∘ sig = frozen ∘ t.sig) (k : Tail) :
    FuncSig.retKind ∘ t.tailStep sig k =
      (if t.Known k.rva k.target then some (t.tailHop k) else none).elim
        (FuncSig.retKind ∘ sig) (copy 0 (FuncSig.retKind ∘ sig)) := by
  have hprior : (sig k.rva).sawPriorCall = (t.sig k.rva).sawPriorCall :=
    congrArg (·.2.1) (congrFun hsig k.rva)
  unfold tailStep
  by_cases hknown : t.Known k.rva k.target
  · rw [if_pos hknown, Option.elim_some, hprior]
    by_cases hcopy : (sig k.rva).retKind = 0 ∧ (sig k.target).retKind ≠ 0 ∧
        (!(t.sig k.rva).sawPriorCall || isFloat (sig k.target).retKind) = true
    · rw [if_pos ⟨hknown, hcopy⟩, Function.comp_update]
      exact (copy_of _ (t.tailHop k) hcopy).symm
    · rw [if_neg fun h ↦ hcopy h.2]
      exact (copy_of_not hcopy).symm
  · rw [if_neg fun h ↦ hknown h.1, if_neg hknown]
    rfl

theorem retKind_withReturn_withParams (s c : FuncSig) :
    (withReturn (withParams s c) c).retKind =
      if s.retKind = 0 ∧ c.retKind ≠ 0 then c.retKind else s.retKind := by
  have hparams : (withParams s c).retKind = s.retKind := by
    unfold withParams
    split <;> rfl
  unfold withReturn
  rw [hparams]
  split
  · rfl
  · exact hparams

theorem retKind_fwdStep (k : Tail) :
    FuncSig.retKind ∘ t.fwdStep sig k =
      (if k.forwards = true ∧ t.Known k.rva k.target then some (forwardHop k) else none).elim
        (FuncSig.retKind ∘ sig) (copy 0 (FuncSig.retKind ∘ sig)) := by
  unfold fwdStep
  split
  · rw [Function.comp_update, retKind_withReturn_withParams, Option.elim_some]
    by_cases hcopy : (sig k.rva).retKind = 0 ∧ (sig k.target).retKind ≠ 0
    · rw [if_pos hcopy]
      exact (copy_of _ (forwardHop k) ⟨hcopy.1, hcopy.2, rfl⟩).symm
    · rw [if_neg hcopy, copy_of_not fun h ↦ hcopy ⟨h.1, h.2.1⟩]
      exact Function.update_eq_self k.rva (FuncSig.retKind ∘ sig)
  · rfl

theorem retKind_round (hsig : frozen ∘ sig = frozen ∘ t.sig) :
    FuncSig.retKind ∘ t.round sig = copyAll 0 t.kindHops (FuncSig.retKind ∘ sig) := by
  have hlock := comp_foldl (fun s k ↦ comp_lockStep (t := t) (s := s)
    (q := FuncSig.retKind) (fun _ _ ↦ rfl) k) t.lockThunkOf (t.tailOf.foldl t.tailStep sig)
  unfold round
  rw [project_foldl (p := fun s : Sigs ↦ FuncSig.retKind ∘ s) (I := fun _ ↦ True)
    (fun _ _ _ ↦ trivial) (fun _ k _ ↦ retKind_fwdStep k) t.tailOf trivial, hlock,
    project_foldl (p := fun s : Sigs ↦ FuncSig.retKind ∘ s)
      (I := fun s ↦ frozen ∘ s = frozen ∘ t.sig)
      (fun _ k hs ↦ (frozen_tailStep k).trans hs) (fun _ k hs ↦ retKind_tailStep hs k)
      t.tailOf hsig, copyAll, kindHops, List.foldl_append]

theorem retKind_propagate (t : Scan) :
    FuncSig.retKind ∘ t.propagate =
      copyAll 0 (rounds 4 t.kindHops) (FuncSig.retKind ∘ t.sig) :=
  project_iterate (p := fun s : Sigs ↦ FuncSig.retKind ∘ s)
    (I := fun s ↦ frozen ∘ s = frozen ∘ t.sig) (fun s hs ↦ (frozen_round s).trans hs)
    (fun _ hs ↦ retKind_round hs) 4 rfl

/-! ### Locks -/

variable (t) in
/-- The calls along which lock kinds are handed on. -/
def lockHops : List (Hop ℕ ℕ) :=
  t.lockThunkOf.filterMap fun p ↦
    if t.Known p.1 p.2 then some ⟨p.1, p.2, fun _ ↦ true⟩ else none

theorem lockKind_lockStep (p : ℕ × ℕ) :
    FuncSig.lockKind ∘ t.lockStep sig p =
      (if t.Known p.1 p.2 then some (⟨p.1, p.2, fun _ ↦ true⟩ : Hop ℕ ℕ) else none).elim
        (FuncSig.lockKind ∘ sig) (copy 0 (FuncSig.lockKind ∘ sig)) := by
  unfold lockStep
  by_cases hknown : t.Known p.1 p.2
  · rw [if_pos hknown, Option.elim_some]
    by_cases hcopy : (sig p.2).lockKind ≠ 0 ∧ (sig p.1).lockKind = 0
    · rw [if_pos ⟨hknown, hcopy⟩, Function.comp_update]
      exact (copy_of _ ⟨p.1, p.2, fun _ ↦ true⟩ ⟨hcopy.2, hcopy.1, rfl⟩).symm
    · rw [if_neg fun h ↦ hcopy h.2]
      exact (copy_of_not fun h ↦ hcopy ⟨h.2.1, h.1⟩).symm
  · rw [if_neg fun h ↦ hknown h.1, if_neg hknown]
    rfl

theorem lockKind_withReturn_withParams (s c : FuncSig) :
    (withReturn (withParams s c) c).lockKind = s.lockKind := by
  unfold withReturn withParams
  split <;> split <;> rfl

theorem lockKind_round (sig : Sigs) :
    FuncSig.lockKind ∘ t.round sig = copyAll 0 t.lockHops (FuncSig.lockKind ∘ sig) := by
  have htail := comp_foldl (fun s k ↦ comp_tailStep (t := t) (s := s)
    (q := FuncSig.lockKind) (fun _ _ ↦ rfl) k) t.tailOf sig
  unfold round
  rw [comp_foldl (fun _ k ↦ comp_fwdStep lockKind_withReturn_withParams k),
    project_foldl (p := fun s : Sigs ↦ FuncSig.lockKind ∘ s) (I := fun _ ↦ True)
      (fun _ _ _ ↦ trivial) (fun _ p _ ↦ lockKind_lockStep p) t.lockThunkOf trivial, htail]
  rfl

theorem lockKind_propagate (t : Scan) :
    FuncSig.lockKind ∘ t.propagate =
      copyAll 0 (rounds 4 t.lockHops) (FuncSig.lockKind ∘ t.sig) :=
  project_iterate (p := fun s : Sigs ↦ FuncSig.lockKind ∘ s) (I := fun _ ↦ True)
    (fun _ _ ↦ trivial) (fun s _ ↦ lockKind_round s) 4 trivial

/-! ### API return types -/

variable (t) in
/-- The calls along which API return types are handed on, in the order of a round. -/
def apiHops : List (Hop ℕ String) :=
  (t.addrs.filterMap fun a ↦
    if (t.sig a).isWrapper = true ∧ (t.sig a).retCallTarget ≠ a ∧
        (t.sig a).retCallTarget ∈ t.addrs then
      some ⟨a, (t.sig a).retCallTarget, fun _ ↦ true⟩
    else none) ++
    t.tailOf.filterMap fun k ↦
      if t.Known k.rva k.target then some ⟨k.rva, k.target, fun _ ↦ true⟩ else none

variable {x : Sigs × Bool}

theorem retApi_wrapStep (hx : frozen ∘ x.1 = frozen ∘ t.sig) (a : ℕ) :
    FuncSig.retApi ∘ (t.wrapStep x a).1 =
      (if (t.sig a).isWrapper = true ∧ (t.sig a).retCallTarget ≠ a ∧
          (t.sig a).retCallTarget ∈ t.addrs then
        some (⟨a, (t.sig a).retCallTarget, fun _ ↦ true⟩ : Hop ℕ String)
      else none).elim (FuncSig.retApi ∘ x.1) (copy "" (FuncSig.retApi ∘ x.1)) := by
  have hwrapper : (x.1 a).isWrapper = (t.sig a).isWrapper := congrArg (·.1) (congrFun hx a)
  have htarget : (x.1 a).retCallTarget = (t.sig a).retCallTarget :=
    congrArg (·.2.2) (congrFun hx a)
  rw [wrapStep]
  simp only [hwrapper, htarget]
  by_cases hcall : (t.sig a).isWrapper = true ∧ (t.sig a).retCallTarget ≠ a ∧
      (t.sig a).retCallTarget ∈ t.addrs
  · rw [if_pos hcall, Option.elim_some]
    by_cases hcopy : (x.1 a).retApi = "" ∧ (x.1 (t.sig a).retCallTarget).retApi ≠ ""
    · rw [if_pos ⟨hcopy.1, hcall.1, hcall.2.1, hcall.2.2, hcopy.2⟩, Function.comp_update]
      exact (copy_of _ ⟨a, (t.sig a).retCallTarget, fun _ ↦ true⟩ ⟨hcopy.1, hcopy.2, rfl⟩).symm
    · rw [if_neg fun h ↦ hcopy ⟨h.1, h.2.2.2.2⟩]
      exact (copy_of_not fun h ↦ hcopy ⟨h.1, h.2.1⟩).symm
  · rw [if_neg fun h ↦ hcall ⟨h.2.1, h.2.2.1, h.2.2.2.1⟩, if_neg hcall]
    rfl

theorem retApi_tailApiStep (k : Tail) :
    FuncSig.retApi ∘ (t.tailApiStep x k).1 =
      (if t.Known k.rva k.target then
        some (⟨k.rva, k.target, fun _ ↦ true⟩ : Hop ℕ String)
      else none).elim (FuncSig.retApi ∘ x.1) (copy "" (FuncSig.retApi ∘ x.1)) := by
  unfold tailApiStep
  by_cases hknown : t.Known k.rva k.target
  · rw [if_pos hknown, Option.elim_some]
    by_cases hcopy : (x.1 k.rva).retApi = "" ∧ (x.1 k.target).retApi ≠ ""
    · rw [if_pos ⟨hknown, hcopy⟩, Function.comp_update]
      exact (copy_of _ ⟨k.rva, k.target, fun _ ↦ true⟩ ⟨hcopy.1, hcopy.2, rfl⟩).symm
    · rw [if_neg fun h ↦ hcopy h.2]
      exact (copy_of_not fun h ↦ hcopy ⟨h.1, h.2.1⟩).symm
  · rw [if_neg fun h ↦ hknown h.1, if_neg hknown]
    rfl

/-- A part of the signatures without the API return type. -/
theorem comp_wrapStep {γ : Type*} {q : FuncSig → γ} (h : ∀ s c, q { s with retApi := c } = q s)
    (a : ℕ) : q ∘ (t.wrapStep x a).1 = q ∘ x.1 := by
  rw [wrapStep]
  split
  · exact comp_update_of_eq (h _ _)
  · rfl

theorem comp_tailApiStep {γ : Type*} {q : FuncSig → γ}
    (h : ∀ s c, q { s with retApi := c } = q s) (k : Tail) :
    q ∘ (t.tailApiStep x k).1 = q ∘ x.1 := by
  unfold tailApiStep
  split
  · exact comp_update_of_eq (h _ _)
  · rfl

theorem comp_apiRound {γ : Type*} {q : FuncSig → γ} (h : ∀ s c, q { s with retApi := c } = q s)
    (sig : Sigs) : q ∘ (t.apiRound sig).1 = q ∘ sig :=
  foldl_keeps (I := fun x : Sigs × Bool ↦ q ∘ x.1 = q ∘ sig)
    (fun _ k hx ↦ (comp_tailApiStep h k).trans hx) t.tailOf
    (foldl_keeps (I := fun x : Sigs × Bool ↦ q ∘ x.1 = q ∘ sig)
      (fun _ a hx ↦ (comp_wrapStep h a).trans hx) t.addrs rfl)

theorem retApi_apiRound (hsig : frozen ∘ sig = frozen ∘ t.sig) :
    FuncSig.retApi ∘ (t.apiRound sig).1 = copyAll "" t.apiHops (FuncSig.retApi ∘ sig) := by
  unfold apiRound
  rw [project_foldl (p := fun x : Sigs × Bool ↦ FuncSig.retApi ∘ x.1) (I := fun _ ↦ True)
    (fun _ _ _ ↦ trivial) (fun _ k _ ↦ retApi_tailApiStep k) t.tailOf trivial,
    project_foldl (p := fun x : Sigs × Bool ↦ FuncSig.retApi ∘ x.1)
      (I := fun x ↦ frozen ∘ x.1 = frozen ∘ t.sig)
      (fun _ a hx ↦ (comp_wrapStep (fun _ _ ↦ rfl) a).trans hx)
      (fun _ a hx ↦ retApi_wrapStep hx a) t.addrs hsig, copyAll, apiHops, List.foldl_append]

/-- A round that says it changed nothing has changed nothing. -/
theorem apiRound_eq_of_not_changed (h : (t.apiRound sig).2 = false) :
    (t.apiRound sig).1 = sig := by
  -- What is left is `x` as long as the flag is not set.
  have hkeep : (t.apiRound sig).2 = false → t.apiRound sig = (sig, false) := by
    refine foldl_keeps (I := fun x : Sigs × Bool ↦ x.2 = false → x = (sig, false))
      (fun x k hx ↦ ?_) t.tailOf (foldl_keeps
        (I := fun x : Sigs × Bool ↦ x.2 = false → x = (sig, false)) (fun x a hx ↦ ?_) t.addrs
        fun _ ↦ rfl)
    · unfold tailApiStep
      split
      · exact nofun
      · exact hx
    · rw [wrapStep]
      split
      · exact nofun
      · exact hx
  rw [hkeep h]

theorem apiRounds_eq_iterate (n : ℕ) (sig : Sigs) :
    t.apiRounds n sig = (fun s ↦ (t.apiRound s).1)^[n] sig := by
  induction n generalizing sig with
  | zero => rfl
  | succ n ih =>
    rw [apiRounds, Function.iterate_succ_apply]
    split
    · exact ih _
    · next h =>
      have hfix := apiRound_eq_of_not_changed (Bool.eq_false_iff.2 h)
      rw [hfix, Function.iterate_fixed hfix]

theorem retApi_apiRounds (hsig : frozen ∘ sig = frozen ∘ t.sig) (n : ℕ) :
    FuncSig.retApi ∘ t.apiRounds n sig =
      copyAll "" (rounds n t.apiHops) (FuncSig.retApi ∘ sig) := by
  rw [apiRounds_eq_iterate]
  exact project_iterate (p := fun s : Sigs ↦ FuncSig.retApi ∘ s)
    (I := fun s ↦ frozen ∘ s = frozen ∘ t.sig)
    (fun _ hs ↦ (comp_apiRound (fun _ _ ↦ rfl) _).trans hs) (fun _ hs ↦ retApi_apiRound hs) n hsig

/-! ### The table at the end -/

section End

variable (imports : List (ℕ × String)) (apiRetType : String → String)

/-- A part of the signatures that only the first loop changes. -/
theorem comp_buildSigTable {γ : Type*} {q : FuncSig → γ}
    (hkind : ∀ s c, q { s with retKind := c } = q s)
    (hapi : ∀ s c, q { s with retApi := c } = q s) (t : Scan) :
    q ∘ t.buildSigTable imports apiRetType = q ∘ t.propagate := by
  have hvoid : q ∘ t.voidFix t.propagate = q ∘ t.propagate := by
    funext a
    rw [Function.comp_apply, voidFix]
    split
    · exact hkind _ _
    · rfl
  have hseed (sig : Sigs) : q ∘ t.seed imports apiRetType sig = q ∘ sig := by
    funext a
    rw [Function.comp_apply, seed]
    split
    · exact hapi _ _
    · rfl
  rw [buildSigTable, apiRounds_eq_iterate, ← hvoid, ← hseed (t.voidFix t.propagate)]
  exact iterate_keeps (I := fun s ↦ q ∘ s = q ∘ t.seed imports apiRetType (t.voidFix t.propagate))
    (fun s hs ↦ (comp_apiRound hapi s).trans hs) 8 rfl

/-- The wrappers of imports with a return type. -/
def seeded (t : Scan) (a : ℕ) : Bool :=
  a ∈ t.addrs ∧ importType imports apiRetType (t.sig a) ≠ ""

theorem retApi_propagate (t : Scan) : ∀ a, (t.propagate a).retApi = "" := by
  have hupdate {sig : Sigs} {a : ℕ} {s : FuncSig} (hsig : ∀ a, (sig a).retApi = "")
      (hs : s.retApi = "") (b : ℕ) : (Function.update sig a s b).retApi = "" := by
    by_cases hb : b = a
    · rw [hb, Function.update_self, hs]
    · rw [Function.update_of_ne hb, hsig b]
  refine iterate_keeps (I := fun s : Sigs ↦ ∀ a, (s a).retApi = "") (fun s hs ↦ ?_) 4 t.retApi_eq
  refine foldl_keeps (I := fun s : Sigs ↦ ∀ a, (s a).retApi = "") (fun s k hs ↦ ?_) t.tailOf
    (foldl_keeps (I := fun s : Sigs ↦ ∀ a, (s a).retApi = "") (fun s p hs ↦ ?_) t.lockThunkOf
      (foldl_keeps (I := fun s : Sigs ↦ ∀ a, (s a).retApi = "") (fun s k hs ↦ ?_) t.tailOf hs))
  · unfold fwdStep
    split
    · refine hupdate hs ?_
      unfold withReturn withParams
      split <;> split <;> simp [hs]
    · exact hs
  · unfold lockStep
    split
    · exact hupdate hs (hs _)
    · exact hs
  · unfold tailStep
    split
    · exact hupdate hs (hs _)
    · exact hs

theorem importType_eq_of_frozen {s s' : FuncSig} (h : frozen s = frozen s') :
    importType imports apiRetType s = importType imports apiRetType s' := by
  have hwrapper : s.isWrapper = s'.isWrapper := congrArg (·.1) h
  have htarget : s.retCallTarget = s'.retCallTarget := congrArg (·.2.2) h
  rw [importType, importType, hwrapper, htarget]

theorem frozen_voidFix (t : Scan) : frozen ∘ t.voidFix t.propagate = frozen ∘ t.sig := by
  rw [← frozen_propagate]
  funext a
  rw [Function.comp_apply, voidFix]
  split <;> rfl

theorem held_seed (t : Scan) :
    held "" (FuncSig.retApi ∘ t.seed imports apiRetType (t.voidFix t.propagate)) =
      t.seeded imports apiRetType := by
  funext a
  have htype : importType imports apiRetType (t.voidFix t.propagate a) =
      importType imports apiRetType (t.sig a) :=
    importType_eq_of_frozen imports apiRetType (congrFun (frozen_voidFix t) a)
  have hnone : (t.voidFix t.propagate a).retApi = "" := by
    unfold voidFix
    split <;> exact retApi_propagate t a
  rw [held, seeded, Function.comp_apply, seed, htype, decide_eq_decide]
  split
  · next h => simp [h]
  · next h => simp [h, hnone]

theorem frozen_seed (t : Scan) :
    frozen ∘ t.seed imports apiRetType (t.voidFix t.propagate) = frozen ∘ t.sig := by
  rw [← frozen_voidFix]
  funext a
  rw [Function.comp_apply, seed]
  split <;> rfl

theorem held_buildSigTable (t : Scan) :
    held "" (FuncSig.retApi ∘ t.buildSigTable imports apiRetType) =
      run (rounds 8 (t.apiHops.map Hop.edge)) (t.seeded imports apiRetType) := by
  have hok : ∀ o ∈ rounds 8 t.apiHops, ∀ c, o.ok c = true := by
    intro o ho c
    rcases List.mem_append.1 (rounds_subset ho) with ho | ho
    · obtain ⟨a, -, ho⟩ := List.mem_filterMap.1 ho
      split at ho <;> cases ho
      rfl
    · obtain ⟨k, -, ho⟩ := List.mem_filterMap.1 ho
      split at ho <;> cases ho
      rfl
  rw [buildSigTable, retApi_apiRounds (frozen_seed imports apiRetType t), held_copyAll_of_ok hok,
    map_rounds, held_seed]

end End

/-! ### The fixed point -/

/-- A key has one entry in a map. -/
theorem eq_of_sorted {ε : Type*} {key : ε → ℕ} {l : List ε} (h : l.Pairwise (key · < key ·))
    {x y : ε} (hx : x ∈ l) (hy : y ∈ l) (hkey : key x = key y) : x = y :=
  List.inj_on_of_nodup_map (List.pairwise_map.2 (h.imp Nat.ne_of_lt)) hx hy hkey

section Fixed

variable {t : Scan} {imports : List (ℕ × String)} {apiRetType : String → String}

theorem params_iff :
    (∀ k ∈ t.tailOf, k.forwards = true → t.Known k.rva k.target →
      (t.buildSigTable imports apiRetType k.target).paramCount ≤
        (t.buildSigTable imports apiRetType k.rva).paramCount) ↔
      Converges 4 t.forwardEdges (FuncSig.paramCount ∘ t.sig) := by
  have hfinal (a : ℕ) : (t.buildSigTable imports apiRetType a).paramCount =
      run (rounds 4 t.forwardEdges) (FuncSig.paramCount ∘ t.sig) a := by
    rw [← paramCount_propagate]
    exact congrFun (comp_buildSigTable imports apiRetType (fun _ _ ↦ rfl) (fun _ _ ↦ rfl) t) a
  rw [← closed_iff_converges]
  constructor
  · intro h e he
    obtain ⟨k, hk, he⟩ := List.mem_filterMap.1 he
    split at he <;> cases he
    next hforward =>
    rw [← hfinal, ← hfinal]
    exact h k hk hforward.1 hforward.2
  · intro h k hk hforwards hknown
    rw [hfinal, hfinal]
    exact h (k.rva, k.target)
      (List.mem_filterMap.2 ⟨k, hk, if_pos ⟨hforwards, hknown⟩⟩)

theorem mem_kindHops {o : Hop ℕ ℕ} :
    o ∈ t.kindHops ↔ ∃ k ∈ t.tailOf, t.Known k.rva k.target ∧
      (o = t.tailHop k ∨ (k.forwards = true ∧ o = forwardHop k)) := by
  rw [kindHops, List.mem_append, List.mem_filterMap, List.mem_filterMap]
  constructor
  · rintro (⟨k, hk, ho⟩ | ⟨k, hk, ho⟩)
    · split at ho <;> cases ho
      next hknown => exact ⟨k, hk, hknown, .inl rfl⟩
    · split at ho <;> cases ho
      next hforward => exact ⟨k, hk, hforward.2, .inr ⟨hforward.1, rfl⟩⟩
  · rintro ⟨k, hk, hknown, rfl | ⟨hforwards, rfl⟩⟩
    · exact .inl ⟨k, hk, if_pos hknown⟩
    · exact .inr ⟨k, hk, if_pos ⟨hforwards, hknown⟩⟩

/-- A kind has one way on from a function. -/
theorem kindHops_one : ∀ o ∈ t.kindHops, ∀ o' ∈ t.kindHops, o.src = o'.src → o.tgt = o'.tgt := by
  have hrva {o : Hop ℕ ℕ} (ho : o ∈ t.kindHops) :
      ∃ k ∈ t.tailOf, o.src = k.rva ∧ o.tgt = k.target := by
    obtain ⟨k, hk, -, rfl | ⟨-, rfl⟩⟩ := mem_kindHops.1 ho
    · exact ⟨k, hk, rfl, rfl⟩
    · exact ⟨k, hk, rfl, rfl⟩
  intro o ho o' ho' heq
  obtain ⟨k, hk, hsrc, htgt⟩ := hrva ho
  obtain ⟨k', hk', hsrc', htgt'⟩ := hrva ho'
  rw [htgt, htgt', eq_of_sorted t.tailOf_sorted hk hk' (hsrc.symm.trans (heq.trans hsrc'))]

open Classical in
variable (t) in
/-- The calls that hand on the kind that comes to their targets. -/
noncomputable def kindEdges : List (ℕ × ℕ) :=
  (t.kindHops.filter fun o ↦ Passes 0 t.kindHops (FuncSig.retKind ∘ t.sig) o).map Hop.edge

theorem mem_kindEdges {e : ℕ × ℕ} :
    e ∈ t.kindEdges ↔
      ∃ o ∈ t.kindHops, Passes 0 t.kindHops (FuncSig.retKind ∘ t.sig) o ∧ o.edge = e := by
  simp [kindEdges, and_assoc]

theorem follows_propagate (t : Scan) :
    Follows 0 t.kindHops (FuncSig.retKind ∘ t.sig) (FuncSig.retKind ∘ t.propagate) := by
  rw [retKind_propagate]
  exact (Follows.refl _ _).copyAll rounds_subset

theorem held_propagate (t : Scan) :
    held 0 (FuncSig.retKind ∘ t.propagate) =
      run (rounds 4 t.kindEdges) (held 0 (FuncSig.retKind ∘ t.sig)) := by
  rw [retKind_propagate, held_copyAll kindHops_one rounds_subset (.refl _ _), filter_rounds,
    map_rounds]
  rfl

/-- The hop hands on the kind at its end. -/
theorem ok_iff_passes {o : Hop ℕ ℕ} (htgt : (t.propagate o.tgt).retKind ≠ 0) :
    o.ok (t.propagate o.tgt).retKind = true ↔
      Passes 0 t.kindHops (FuncSig.retKind ∘ t.sig) o := by
  have hsource := (follows_propagate t).source _ htgt
  exact ⟨fun hok c hc ↦ hc.unique kindHops_one hsource ▸ hok, fun hp ↦ hp _ hsource⟩

theorem kinds_iff :
    (∀ k ∈ t.tailOf, t.Known k.rva k.target → (t.propagate k.rva).retKind = 0 →
      (t.propagate k.target).retKind ≠ 0 →
        t.shouldForward k (t.propagate k.target).retKind = false) ↔
      Converges 4 t.kindEdges (held 0 (FuncSig.retKind ∘ t.sig)) := by
  rw [← closed_iff_converges, ← held_propagate]
  constructor
  · intro h e he
    obtain ⟨o, ho, hpasses, rfl⟩ := mem_kindEdges.1 he
    refine Bool.le_iff_imp.2 fun htgt ↦ ?_
    have htgt : (t.propagate o.tgt).retKind ≠ 0 := of_decide_eq_true htgt
    have hok := (ok_iff_passes htgt).2 hpasses
    refine decide_eq_true fun hsrc ↦ ?_
    obtain ⟨k, hk, hknown, rfl | ⟨hforwards, rfl⟩⟩ := mem_kindHops.1 ho
    · have hno := h k hk hknown hsrc htgt
      rw [shouldForward, Bool.or_assoc, Bool.or_eq_false_iff] at hno
      exact absurd (hok.symm.trans hno.2) (by decide)
    · have hno := h k hk hknown hsrc htgt
      rw [shouldForward, hforwards, Bool.true_or, Bool.true_or] at hno
      cases hno
  · intro h k hk hknown hsrc htgt
    -- A hop that hands the kind on would have done so.
    have hclosed {o : Hop ℕ ℕ} (ho : o ∈ t.kindHops) (hosrc : o.src = k.rva)
        (hotgt : o.tgt = k.target) : o.ok (t.propagate k.target).retKind = false := by
      refine Bool.eq_false_iff.2 fun hok ↦ ?_
      rw [← hotgt] at hok htgt
      have hpasses := (ok_iff_passes htgt).1 hok
      have hle := h o.edge (mem_kindEdges.2 ⟨o, ho, hpasses, rfl⟩)
      have hheld := of_decide_eq_true (Bool.le_iff_imp.1 hle (decide_eq_true htgt))
      exact hheld ((congrArg (fun a ↦ (t.propagate a).retKind) hosrc).trans hsrc)
    have htail := hclosed (mem_kindHops.2 ⟨k, hk, hknown, .inl rfl⟩) rfl rfl
    have hforwards : k.forwards = false := by
      refine Bool.eq_false_iff.2 fun hforwards ↦ ?_
      exact absurd (hclosed (mem_kindHops.2 ⟨k, hk, hknown, .inr ⟨hforwards, rfl⟩⟩) rfl rfl)
        (by simp [forwardHop])
    rw [shouldForward, hforwards, Bool.false_or]
    exact htail

variable (t) in
def lockEdges : List (ℕ × ℕ) :=
  t.lockHops.map Hop.edge

theorem mem_lockHops {o : Hop ℕ ℕ} :
    o ∈ t.lockHops ↔ ∃ p ∈ t.lockThunkOf, t.Known p.1 p.2 ∧ o = ⟨p.1, p.2, fun _ ↦ true⟩ := by
  rw [lockHops, List.mem_filterMap]
  constructor
  · rintro ⟨p, hp, ho⟩
    split at ho <;> cases ho
    next hknown => exact ⟨p, hp, hknown, rfl⟩
  · rintro ⟨p, hp, hknown, rfl⟩
    exact ⟨p, hp, if_pos hknown⟩

theorem lockHops_one : ∀ o ∈ t.lockHops, ∀ o' ∈ t.lockHops, o.src = o'.src → o.tgt = o'.tgt := by
  intro o ho o' ho' heq
  obtain ⟨p, hp, -, rfl⟩ := mem_lockHops.1 ho
  obtain ⟨p', hp', -, rfl⟩ := mem_lockHops.1 ho'
  rw [eq_of_sorted t.lockThunkOf_sorted hp hp' heq]

theorem locks_iff :
    (∀ p ∈ t.lockThunkOf, t.Known p.1 p.2 →
      (t.buildSigTable imports apiRetType p.2).lockKind ≠ 0 →
        (t.buildSigTable imports apiRetType p.1).lockKind =
          (t.buildSigTable imports apiRetType p.2).lockKind) ↔
      Converges 4 t.lockEdges (held 0 (FuncSig.lockKind ∘ t.sig)) := by
  have hfinal (a : ℕ) : (t.buildSigTable imports apiRetType a).lockKind =
      copyAll 0 (rounds 4 t.lockHops) (FuncSig.lockKind ∘ t.sig) a := by
    rw [← lockKind_propagate]
    exact congrFun (comp_buildSigTable imports apiRetType (fun _ _ ↦ rfl) (fun _ _ ↦ rfl) t) a
  have hok : ∀ o ∈ rounds 4 t.lockHops, ∀ c, o.ok c = true := by
    intro o ho c
    obtain ⟨p, -, -, rfl⟩ := mem_lockHops.1 (rounds_subset ho)
    rfl
  have hfollows : Follows 0 t.lockHops (FuncSig.lockKind ∘ t.sig)
      (copyAll 0 (rounds 4 t.lockHops) (FuncSig.lockKind ∘ t.sig)) :=
    (Follows.refl _ _).copyAll rounds_subset
  have hheld := held_copyAll_of_ok (z := 0) (v := FuncSig.lockKind ∘ t.sig) hok
  rw [map_rounds] at hheld
  rw [← closed_iff_converges, lockEdges, ← hheld]
  simp only [hfinal]
  constructor
  · intro h e he
    obtain ⟨o, ho, rfl⟩ := List.mem_map.1 he
    obtain ⟨p, hp, hknown, rfl⟩ := mem_lockHops.1 ho
    refine Bool.le_iff_imp.2 fun htgt ↦ ?_
    have htgt := of_decide_eq_true htgt
    exact decide_eq_true ((h p hp hknown htgt).trans_ne htgt)
  · intro h p hp hknown htgt
    have ho : (⟨p.1, p.2, fun _ ↦ true⟩ : Hop ℕ ℕ) ∈ t.lockHops :=
      mem_lockHops.2 ⟨p, hp, hknown, rfl⟩
    have hle := h (p.1, p.2) (List.mem_map.2 ⟨_, ho, rfl⟩)
    have hsrc := of_decide_eq_true (Bool.le_iff_imp.1 hle (decide_eq_true htgt))
    -- A wrapper has no kind of its own, so that it has the one of what it wraps.
    have hwrapped := hfollows.source _ htgt
    have hsource : Source 0 t.lockHops (FuncSig.lockKind ∘ t.sig) p.1
        (copyAll 0 (rounds 4 t.lockHops) (FuncSig.lockKind ∘ t.sig) p.2) :=
      .there ho (t.lockKind_eq p hp) hwrapped
    exact (hfollows.source _ hsrc).unique lockHops_one hsource

variable (t) in
def apiEdges : List (ℕ × ℕ) :=
  t.apiHops.map Hop.edge

theorem mem_apiEdges {e : ℕ × ℕ} :
    e ∈ t.apiEdges ↔
      (∃ a ∈ t.addrs, ((t.sig a).isWrapper = true ∧ (t.sig a).retCallTarget ≠ a ∧
        (t.sig a).retCallTarget ∈ t.addrs) ∧ e = (a, (t.sig a).retCallTarget)) ∨
      ∃ k ∈ t.tailOf, t.Known k.rva k.target ∧ e = (k.rva, k.target) := by
  rw [apiEdges, apiHops, List.map_append, List.mem_append, List.map_filterMap,
    List.map_filterMap, List.mem_filterMap, List.mem_filterMap]
  refine or_congr (exists_congr fun a ↦ and_congr_right fun _ ↦ ?_)
    (exists_congr fun k ↦ and_congr_right fun _ ↦ ?_)
  · split
    · next h => exact ⟨fun he ↦ ⟨h, (Option.some.inj he).symm⟩, fun he ↦ congrArg some he.2.symm⟩
    · next h => exact ⟨nofun, fun he ↦ absurd he.1 h⟩
  · split
    · next h => exact ⟨fun he ↦ ⟨h, (Option.some.inj he).symm⟩, fun he ↦ congrArg some he.2.symm⟩
    · next h => exact ⟨nofun, fun he ↦ absurd he.1 h⟩

theorem api_iff :
    ((∀ a ∈ t.addrs, (t.sig a).isWrapper = true → (t.sig a).retCallTarget ∈ t.addrs →
      (t.buildSigTable imports apiRetType (t.sig a).retCallTarget).retApi ≠ "" →
        (t.buildSigTable imports apiRetType a).retApi ≠ "") ∧
    ∀ k ∈ t.tailOf, t.Known k.rva k.target →
      (t.buildSigTable imports apiRetType k.target).retApi ≠ "" →
        (t.buildSigTable imports apiRetType k.rva).retApi ≠ "") ↔
      Converges 8 t.apiEdges (t.seeded imports apiRetType) := by
  rw [← closed_iff_converges, apiEdges, ← held_buildSigTable, ← apiEdges]
  constructor
  · rintro ⟨hwrap, htail⟩ e he
    refine Bool.le_iff_imp.2 fun htgt ↦ decide_eq_true ?_
    have htgt := of_decide_eq_true htgt
    rcases mem_apiEdges.1 he with ⟨a, ha, hcall, rfl⟩ | ⟨k, hk, hknown, rfl⟩
    · exact hwrap a ha hcall.1 hcall.2.2 htgt
    · exact htail k hk hknown htgt
  · intro h
    constructor
    · intro a ha hwrapper hknown htgt
      by_cases hself : (t.sig a).retCallTarget = a
      · rwa [hself] at htgt
      · have hle := h _ (mem_apiEdges.2 (.inl ⟨a, ha, ⟨hwrapper, hself, hknown⟩, rfl⟩))
        exact of_decide_eq_true (Bool.le_iff_imp.1 hle (decide_eq_true htgt))
    · intro k hk hknown htgt
      have hle := h _ (mem_apiEdges.2 (.inr ⟨k, hk, hknown, rfl⟩))
      exact of_decide_eq_true (Bool.le_iff_imp.1 hle (decide_eq_true htgt))

end Fixed

/-- The table is a fixed point exactly when four rounds suffice for the parameters, the kinds and
the locks, and eight for the API return types. -/
theorem settled_iff (t : Scan) (imports : List (ℕ × String)) (apiRetType : String → String) :
    t.Settled imports apiRetType ↔
      Converges 4 t.forwardEdges (FuncSig.paramCount ∘ t.sig) ∧
      Converges 4 t.kindEdges (held 0 (FuncSig.retKind ∘ t.sig)) ∧
      Converges 4 t.lockEdges (held 0 (FuncSig.lockKind ∘ t.sig)) ∧
      Converges 8 t.apiEdges (t.seeded imports apiRetType) := by
  rw [← @params_iff t imports apiRetType, ← kinds_iff, ← @locks_iff t imports apiRetType,
    ← api_iff]
  exact ⟨fun h ↦ ⟨h.params, h.kinds, h.locks, h.wrappers, h.thunks⟩,
    fun ⟨hparams, hkinds, hlocks, hwrappers, hthunks⟩ ↦
      ⟨hparams, hkinds, hlocks, hwrappers, hthunks⟩⟩

/-- Five thunks in a row, each of which jumps to the next address, before a function of two
parameters. -/
def ascendingThunks : Scan where
  addrs := [1, 2, 3, 4, 5, 6]
  sig a := if a = 6 then { paramCount := 2, retKind := 0 } else { retKind := 0 }
  tailOf := [⟨1, 2, true⟩, ⟨2, 3, true⟩, ⟨3, 4, true⟩, ⟨4, 5, true⟩, ⟨5, 6, true⟩]
  lockThunkOf := []
  addrs_sorted := by decide
  tailOf_sorted := by decide
  lockThunkOf_sorted := .nil
  retApi_eq a := by split <;> rfl
  lockKind_eq := nofun

/-- The parameters get to the second thunk in the last round, and not to the first. -/
theorem not_settled_ascendingThunks :
    ¬ascendingThunks.Settled [] fun _ ↦ "" := by
  intro h
  have hle := h.params ⟨1, 2, true⟩ List.mem_cons_self rfl (by decide)
  have hfinal (a : ℕ) : (ascendingThunks.buildSigTable [] (fun _ ↦ "") a).paramCount =
      run (rounds 4 ascendingThunks.forwardEdges) (FuncSig.paramCount ∘ ascendingThunks.sig) a := by
    rw [← paramCount_propagate]
    exact congrFun (comp_buildSigTable [] _ (fun _ _ ↦ rfl) (fun _ _ ↦ rfl) ascendingThunks) a
  rw [hfinal, hfinal] at hle
  exact absurd hle (by decide)

end Scan

end Ldu
