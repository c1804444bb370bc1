import Mathlib.Data.Finset.Card
import Mathlib.Logic.Relation

/-!
# Worklist searches

The search every graph traversal of the development runs: a stack of vertices still to be
expanded and a set of vertices already seen. Expanding a vertex pushes those of its
neighbours that belong to a fixed finite universe and have not been seen.

The search is total because every push takes a vertex out of the unseen part of the
universe. Its result is exactly what the neighbours relation, restricted to the universe,
reaches from the starting vertices (`mem_explore_iff`).
-/

open Relation

namespace Worklist

variable {V : Type*} [DecidableEq V] (U : Finset V) (next : V → List V)

/-- Push one neighbour, unless it is outside the universe or already seen. -/
def push (p : List V × Finset V) (s : V) : List V × Finset V :=
  if s ∈ U ∧ s ∉ p.2 then (s :: p.1, insert s p.2) else p

/-- Push the neighbours in order. -/
def pushAll (p : List V × Finset V) (ss : List V) : List V × Finset V :=
  ss.foldl (push U) p

/-- What is left to do: the unseen part of the universe and the stack. -/
def todo (p : List V × Finset V) : ℕ :=
  (U \ p.2).card + p.1.length

variable {U}

theorem todo_push (p : List V × Finset V) (s : V) : todo U (push U p s) = todo U p := by
  unfold push
  split
  · next h =>
    have hmem : s ∈ U \ p.2 := Finset.mem_sdiff.2 h
    have hcard := Finset.card_erase_add_one hmem
    have hsdiff : U \ insert s p.2 = (U \ p.2).erase s := by
      ext x
      simp only [Finset.mem_sdiff, Finset.mem_insert, Finset.mem_erase]
      tauto
    simp only [todo, hsdiff, List.length_cons]
    omega
  · rfl

theorem todo_pushAll (p : List V × Finset V) (ss : List V) :
    todo U (pushAll U p ss) = todo U p := by
  induction ss generalizing p with
  | nil => rfl
  | cons s ss ih => exact (ih (push U p s)).trans (todo_push p s)

variable (U)

/-- Expand the top of the stack until the stack is empty. -/
def explore (stack : List V) (seen : Finset V) : Finset V :=
  match stack with
  | [] => seen
  | b :: stack =>
    let p := pushAll U (stack, seen) (next b)
    explore p.1 p.2
termination_by todo U (stack, seen)
decreasing_by
  have h := todo_pushAll (U := U) (stack, seen) (next b)
  simp only [todo, List.length_cons] at h ⊢
  omega

variable {U next}

/-! ### What one push does -/

theorem mem_pushAll_snd {p : List V × Finset V} {ss : List V} {x : V} :
    x ∈ (pushAll U p ss).2 ↔ x ∈ p.2 ∨ x ∈ ss ∧ x ∈ U := by
  induction ss generalizing p with
  | nil => simp [pushAll]
  | cons s ss ih =>
    have hstep : pushAll U p (s :: ss) = pushAll U (push U p s) ss := rfl
    rw [hstep, ih]
    unfold push
    split
    · simp only [Finset.mem_insert, List.mem_cons]
      grind
    · simp only [List.mem_cons]
      grind

theorem mem_pushAll_fst {p : List V × Finset V} {ss : List V} {x : V} :
    x ∈ (pushAll U p ss).1 ↔ x ∈ p.1 ∨ x ∈ ss ∧ x ∈ U ∧ x ∉ p.2 := by
  induction ss generalizing p with
  | nil => simp [pushAll]
  | cons s ss ih =>
    have hstep : pushAll U p (s :: ss) = pushAll U (push U p s) ss := rfl
    rw [hstep, ih]
    unfold push
    split
    · simp only [Finset.mem_insert, List.mem_cons]
      grind
    · simp only [List.mem_cons]
      grind

/-! ### What the search finds -/

/-- The part of the neighbours relation that the search follows. -/
def Follows (U : Finset V) (next : V → List V) (a b : V) : Prop :=
  b ∈ next a ∧ b ∈ U

theorem subset_explore (stack : List V) (seen : Finset V) : seen ⊆ explore U next stack seen := by
  fun_induction explore U next stack seen with
  | case1 seen => exact Finset.Subset.refl _
  | case2 =>
    rename_i p ih
    exact fun x hx ↦ ih (mem_pushAll_snd.2 (.inl hx))

/-- Nothing is found that is not reached from a vertex seen before or on the stack. -/
theorem exists_follows_of_mem_explore {stack : List V} {seen : Finset V} {x : V}
    (hstack : ∀ b ∈ stack, b ∈ seen) (hx : x ∈ explore U next stack seen) :
    ∃ a ∈ seen, ReflTransGen (Follows U next) a x := by
  fun_induction explore U next stack seen with
  | case1 seen => exact ⟨x, hx, .refl⟩
  | case2 seen b stack p ih =>
    have hb : b ∈ seen := hstack b (by simp)
    have hp : ∀ c ∈ p.1, c ∈ p.2 := by
      intro c hc
      rcases mem_pushAll_fst.1 hc with h | ⟨h, hU, -⟩
      · exact mem_pushAll_snd.2 (.inl (hstack c (List.mem_cons_of_mem _ h)))
      · exact mem_pushAll_snd.2 (.inr ⟨h, hU⟩)
    obtain ⟨a, ha, hax⟩ := ih hp hx
    rcases mem_pushAll_snd.1 ha with h | ⟨h, hU⟩
    · exact ⟨a, h, hax⟩
    · exact ⟨b, hb, .head ⟨h, hU⟩ hax⟩

/-- The search closes the seen set under the neighbours relation, from the vertices of which `D`
holds, provided every such vertex seen before and no longer on the stack has had its neighbours
seen. -/
theorem mem_explore_of_follows_of {D : V → Prop} {stack : List V} {seen : Finset V}
    (hstack : ∀ b ∈ stack, b ∈ seen)
    (hdone : ∀ a ∈ seen, D a → a ∉ stack → ∀ b, Follows U next a b → b ∈ seen) {a b : V}
    (ha : a ∈ explore U next stack seen) (hDa : D a) (hab : Follows U next a b) :
    b ∈ explore U next stack seen := by
  fun_induction explore U next stack seen with
  | case1 seen => exact hdone a ha hDa (by simp) b hab
  | case2 seen c stack p ih =>
    refine ih ?_ ?_ ha
    · intro d hd
      rcases mem_pushAll_fst.1 hd with h | ⟨h, hU, -⟩
      · exact mem_pushAll_snd.2 (.inl (hstack d (List.mem_cons_of_mem _ h)))
      · exact mem_pushAll_snd.2 (.inr ⟨h, hU⟩)
    · intro d hd hDd hnot e he
      have hnot' := fun h ↦ hnot (mem_pushAll_fst.2 h)
      by_cases hdc : d = c
      · subst hdc
        exact mem_pushAll_snd.2 (.inr he)
      · have hds : d ∈ seen := by
          rcases mem_pushAll_snd.1 hd with h | ⟨h, hU⟩
          · exact h
          · by_contra hns
            exact hnot' (.inr ⟨h, hU, hns⟩)
        have hdst : d ∉ c :: stack := by
          simp only [List.mem_cons, not_or]
          exact ⟨hdc, fun h ↦ hnot' (.inl h)⟩
        exact mem_pushAll_snd.2 (.inl (hdone d hds hDd hdst e he))

theorem mem_explore_of_follows {stack : List V} {seen : Finset V}
    (hstack : ∀ b ∈ stack, b ∈ seen)
    (hdone : ∀ a ∈ seen, a ∉ stack → ∀ b, Follows U next a b → b ∈ seen) {a b : V}
    (ha : a ∈ explore U next stack seen) (hab : Follows U next a b) :
    b ∈ explore U next stack seen :=
  mem_explore_of_follows_of (D := fun _ ↦ True) hstack (fun a ha _ ↦ hdone a ha) ha trivial hab

/-- A search started with every seen vertex on the stack finds exactly what is reached from
them. -/
theorem mem_explore_iff {stack : List V} {seen : Finset V} (h : ∀ b, b ∈ stack ↔ b ∈ seen)
    {x : V} :
    x ∈ explore U next stack seen ↔ ∃ a ∈ seen, ReflTransGen (Follows U next) a x := by
  refine ⟨exists_follows_of_mem_explore fun b hb ↦ (h b).1 hb, ?_⟩
  rintro ⟨a, ha, hax⟩
  induction hax with
  | refl => exact subset_explore _ _ ha
  | tail _ hbc ih =>
    refine mem_explore_of_follows (fun b hb ↦ (h b).1 hb) ?_ ih hbc
    exact fun c hc hnot ↦ absurd ((h c).2 hc) hnot

/-- What holds of the vertices seen before holds of every vertex found, if it follows from what the
stack has and what is handed on to new neighbours. -/
theorem explore_induction {P Q : V → Prop} {stack : List V} {seen : Finset V}
    (hseen : ∀ b ∈ seen, P b) (hstack : ∀ b ∈ stack, Q b) (hP : ∀ b, Q b → P b)
    (hnext : ∀ a, Q a → ∀ b ∈ next a, b ∉ seen → Q b) {x : V}
    (hx : x ∈ explore U next stack seen) : P x := by
  fun_induction explore U next stack seen with
  | case1 seen => exact hseen x hx
  | case2 seen c stack p ih =>
    have hc : Q c := hstack c (by simp)
    refine ih (fun b hb ↦ ?_) (fun b hb ↦ ?_) (fun a ha b hb hnot ↦ ?_) hx
    · by_cases hb' : b ∈ seen
      · exact hseen b hb'
      · have hmem := (mem_pushAll_snd.1 hb).resolve_left hb'
        exact hP b (hnext c hc b hmem.1 hb')
    · rcases mem_pushAll_fst.1 hb with hb | ⟨hb, -, hnot⟩
      · exact hstack b (by simp [hb])
      · exact hnext c hc b hb hnot
    · exact hnext a ha b hb fun hmem ↦ hnot (mem_pushAll_snd.2 (.inl hmem))

end Worklist
