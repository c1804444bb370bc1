import Mathlib.Data.List.Nodup
import Mathlib.Data.List.Forall2

/-!
# Copies in parallel

Some variables are to be assigned at once, each a value of the variables before
(`List (V × X)`: the variable and an expression for its value). A machine that assigns one variable
at a time does it by `Sequences`: a variable is assigned when no other value still to be computed
depends on it, and at any time a variable that is still to be assigned can be saved in a new one,
which the values still to be computed may read in its place.

Variables, values and expressions are arbitrary. An expression is known by its value in a store
only, `eval`; what an assignment keeps of a value, `put`, may depend on the variable.

`Sequences.run` says that the variables get their values: those that are to be assigned the value
their expression has before, the new ones what they save, and the others are left alone. It asks for
distinct variables, and for saves that keep the saved value.
-/

/-- An assignment. -/
inductive CopyStep (V X : Type*)
  | copy (dst : V) (src : X)
  | save (tmp v : V)

namespace CopyStep

variable {V X D : Type*}

/-- The variable that is assigned. -/
def target : CopyStep V X → V
  | copy dst _ => dst
  | save tmp _ => tmp

section Run

variable [DecidableEq V] (eval : X → (V → D) → D) (put : V → D → D)

/-- The store after an assignment. -/
def exec (s : V → D) : CopyStep V X → V → D
  | copy dst src => Function.update s dst (put dst (eval src s))
  | save tmp v => Function.update s tmp (put tmp (s v))

/-- The store after some assignments. -/
def run (out : List (CopyStep V X)) (s : V → D) : V → D :=
  out.foldl (exec eval put) s

@[simp] theorem run_cons (c : CopyStep V X) (out : List (CopyStep V X)) (s : V → D) :
    run eval put (c :: out) s = run eval put out (exec eval put s c) := rfl

/-- What is not assigned is left alone. -/
theorem run_of_notMem {out : List (CopyStep V X)} {n : V} (h : n ∉ out.map target) (s : V → D) :
    run eval put out s n = s n := by
  induction out generalizing s with
  | nil => rfl
  | cons c out ih =>
    rw [List.map_cons, List.mem_cons, not_or] at h
    rw [run_cons, ih h.2]
    cases c with
    | copy dst src => exact Function.update_of_ne h.1 _ _
    | save tmp v => exact Function.update_of_ne h.1 _ _

end Run

end CopyStep

open CopyStep

section Sequences

variable {V X D : Type*} [DecidableEq V] {eval : X → (V → D) → D} {put : V → D → D}

/-- The value of the expression does not depend on `v`. -/
def Ignores (eval : X → (V → D) → D) (x : X) (v : V) : Prop :=
  ∀ s d, eval x (Function.update s v d) = eval x s

/-- `x'` is `x`, but may read `w` in place of `v`. -/
def Redirects (eval : X → (V → D) → D) (v w : V) (x x' : X) : Prop :=
  ∀ s, s w = s v → eval x' s = eval x s

/-- The assignments are an order of the copies, with saves. -/
inductive Sequences (eval : X → (V → D) → D) : List (V × X) → List (CopyStep V X) → Prop
  | done : Sequences eval [] []
  | copy {l r d x out} (hfree : ∀ m ∈ l ++ r, Ignores eval m.2 d)
      (h : Sequences eval (l ++ r) out) : Sequences eval (l ++ (d, x) :: r) (.copy d x :: out)
  | save {ms ms' w v out} (hv : v ∈ ms.map Prod.fst) (hw : ∀ m ∈ ms, Ignores eval m.2 w)
      (hread : List.Forall₂ (fun m m' ↦ m'.1 = m.1 ∧ Redirects eval v w m.2 m'.2) ms ms')
      (h : Sequences eval ms' out) : Sequences eval ms (.save w v :: out)

namespace Sequences

variable {ms : List (V × X)} {out : List (CopyStep V X)} {v w : V}

omit [DecidableEq V] in
theorem fst_eq_of_redirected {ms' : List (V × X)}
    (h : List.Forall₂ (fun m m' ↦ m'.1 = m.1 ∧ Redirects eval v w m.2 m'.2) ms ms') :
    ms'.map Prod.fst = ms.map Prod.fst := by
  induction h with
  | nil => rfl
  | cons h _ ih => rw [List.map_cons, List.map_cons, h.1, ih]

omit [DecidableEq V] in
theorem exists_redirected {ms' : List (V × X)}
    (h : List.Forall₂ (fun m m' ↦ m'.1 = m.1 ∧ Redirects eval v w m.2 m'.2) ms ms')
    {m : V × X} (hm : m ∈ ms) : ∃ m' ∈ ms', m'.1 = m.1 ∧ Redirects eval v w m.2 m'.2 := by
  induction h with
  | nil => cases hm
  | cons hab _ ih =>
    rcases List.mem_cons.1 hm with rfl | hm
    · exact ⟨_, List.mem_cons_self, hab⟩
    · obtain ⟨m', hm', h⟩ := ih hm
      exact ⟨m', List.mem_cons_of_mem _ hm', h⟩

/-- What is to be assigned is assigned. -/
theorem mem_targets (h : Sequences eval ms out) {n : V} (hn : n ∈ ms.map Prod.fst) :
    n ∈ out.map target := by
  induction h with
  | done => cases hn
  | copy hfree h ih =>
    simp only [List.map_append, List.map_cons, List.mem_append, List.mem_cons, target] at hn ih ⊢
    tauto
  | save hv hw hread h ih =>
    exact List.mem_cons_of_mem _ (ih (fst_eq_of_redirected hread ▸ hn))

/-- What is saved is to be assigned. -/
theorem mem_of_save (h : Sequences eval ms out) (hsave : .save w v ∈ out) :
    v ∈ ms.map Prod.fst := by
  induction h with
  | done => cases hsave
  | copy hfree h ih =>
    have := ih ((List.mem_cons.1 hsave).resolve_left (by simp))
    simp only [List.map_append, List.map_cons, List.mem_append, List.mem_cons] at this ⊢
    tauto
  | save hv hw hread h ih =>
    rcases List.mem_cons.1 hsave with heq | hsave
    · cases heq
      exact hv
    · exact fst_eq_of_redirected hread ▸ ih hsave

/-- The copies do what they do at once. -/
structure Parallel (eval : X → (V → D) → D) (put : V → D → D) (ms : List (V × X))
    (out : List (CopyStep V X)) (s t : V → D) : Prop where
  copied : ∀ m ∈ ms, t m.1 = put m.1 (eval m.2 s)
  saved : ∀ w v, .save w v ∈ out → t w = s v
  kept : ∀ n, n ∉ out.map target → t n = s n

/-- **Copies one after the other do what they do at once.** -/
theorem run (h : Sequences eval ms out) (hnodup : (out.map target).Nodup) (s : V → D)
    (hput : ∀ w v, .save w v ∈ out → put w (s v) = s v) :
    Parallel eval put ms out s (CopyStep.run eval put out s) := by
  induction h generalizing s with
  | done =>
    exact ⟨fun _ hm ↦ absurd hm List.not_mem_nil, fun _ _ h ↦ absurd h List.not_mem_nil,
      fun _ _ ↦ rfl⟩
  | @copy l r d x out hfree h ih =>
    rw [List.map_cons, List.nodup_cons] at hnodup
    -- What is saved later is not the variable that is assigned now.
    have hlater : ∀ w v, .save w v ∈ out → Function.update s d (put d (eval x s)) v = s v := by
      intro w v hsave
      refine Function.update_of_ne ?_ _ _
      rintro rfl
      exact hnodup.1 (h.mem_targets (h.mem_of_save hsave))
    have hrest := ih hnodup.2 (Function.update s d (put d (eval x s)))
      fun w v hsave ↦ by rw [hlater w v hsave]; exact hput w v (List.mem_cons_of_mem _ hsave)
    refine ⟨fun m hm ↦ ?_, fun w v hsave ↦ ?_, fun n hn ↦ run_of_notMem _ _ hn s⟩
    · by_cases hmid : m = (d, x)
      · subst hmid
        exact (run_of_notMem _ _ hnodup.1 _).trans (Function.update_self _ _ _)
      · have hm : m ∈ l ++ r := by
          simp only [List.mem_append, List.mem_cons] at hm ⊢
          tauto
        exact (hrest.copied m hm).trans (congrArg _ (hfree m hm s _))
    · have hsave := (List.mem_cons.1 hsave).resolve_left (by simp)
      exact (hrest.saved w v hsave).trans (hlater w v hsave)
  | @save ms ms' w v out hv hw hread h ih =>
    rw [List.map_cons, List.nodup_cons] at hnodup
    have hfst := fst_eq_of_redirected hread
    have hvw : v ≠ w := by
      rintro rfl
      exact hnodup.1 (h.mem_targets (hfst ▸ hv))
    have hkeep : put w (s v) = s v := hput w v List.mem_cons_self
    have hlater : ∀ w' v', .save w' v' ∈ out → Function.update s w (s v) v' = s v' := by
      intro w' v' hsave
      refine Function.update_of_ne ?_ _ _
      rintro rfl
      exact hnodup.1 (h.mem_targets (h.mem_of_save hsave))
    have hrest := ih hnodup.2 (Function.update s w (s v))
      fun w' v' hsave ↦ by rw [hlater w' v' hsave]; exact hput w' v' (List.mem_cons_of_mem _ hsave)
    have hrun : CopyStep.run eval put (.save w v :: out) s =
        CopyStep.run eval put out (Function.update s w (s v)) := by
      rw [run_cons, exec, hkeep]
    rw [hrun]
    refine ⟨fun m hm ↦ ?_, fun w' v' hsave ↦ ?_, fun n hn ↦ ?_⟩
    · obtain ⟨m', hm', hfst', hred⟩ := exists_redirected hread hm
      have hcopied := hrest.copied m' hm'
      rw [hfst', hred _ ?_, hw m hm] at hcopied
      · exact hcopied
      · rw [Function.update_self, Function.update_of_ne hvw]
    · rcases List.mem_cons.1 hsave with heq | hsave
      · cases heq
        exact (run_of_notMem _ _ hnodup.1 _).trans (Function.update_self _ _ _)
      · exact (hrest.saved w' v' hsave).trans (hlater w' v' hsave)
    · rw [List.map_cons, List.mem_cons, not_or] at hn
      exact (run_of_notMem _ _ hn.2 _).trans (Function.update_of_ne hn.1 _ _)

end Sequences

end Sequences
