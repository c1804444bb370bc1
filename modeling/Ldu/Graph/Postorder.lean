import Mathlib.Algebra.BigOperators.Group.Finset.Basic
import Mathlib.Data.Finset.Basic
import Mathlib.Data.List.Nodup
import Mathlib.Logic.Relation
import Mathlib.Algebra.GroupWithZero.Nat

/-!
# Depth-first search and reverse postorder

`loop succ` is a depth-first search with an explicit stack: each entry is a vertex with the
successors that are still to be tried, and finished vertices go to the front of a list. What stands
on the stack, from its bottom, and the finished vertices after it are one list that only grows; a
vertex enters it behind the one it was found from. So in the list that the search returns the
vertices in reach stand once each, and each but the first stands behind one of its predecessors
(`loop_spec`).
-/

open Relation

namespace Postorder

variable {V : Type*} (succ : V → List V)

/-- The search: a stack, the vertices visited, and those finished, the last one first. -/
def loop [DecidableEq V] : ℕ → List (V × List V) → Finset V → List V → List V
  | 0, _, _, post => post
  | _ + 1, [], _, post => post
  | n + 1, (u, []) :: stk, vis, post => loop n stk vis (u :: post)
  | n + 1, (u, v :: vs) :: stk, vis, post =>
    if v ∈ vis then loop n ((u, vs) :: stk) vis post
    else loop n ((v, succ v) :: (u, vs) :: stk) (insert v vis) post

/-- Every vertex but the root stands behind one of its predecessors. -/
def Parented (root : V) (l : List V) : Prop :=
  ∀ pre v post, l = pre ++ v :: post → v ≠ root → ∃ p ∈ pre, v ∈ succ p

variable {succ} {root : V}

theorem Parented.insert {pre post : List V} {u v : V} (h : Parented succ root (pre ++ post))
    (hu : u ∈ pre) (hv : v ∈ succ u) : Parented succ root (pre ++ v :: post) := by
  intro pre' w post' heq hw
  rcases List.append_eq_append_iff.1 heq with ⟨as, rfl, has⟩ | ⟨as, rfl, has⟩
  · -- `w` is `v` or stands behind it.
    cases as with
    | nil =>
      obtain ⟨rfl, rfl⟩ := List.cons.inj has
      exact ⟨u, by simpa using hu, hv⟩
    | cons _ as =>
      obtain ⟨rfl, rfl⟩ := List.cons.inj has
      obtain ⟨p, hp, hw'⟩ := h (pre ++ as) w post' (by simp) hw
      exact ⟨p, by rcases List.mem_append.1 hp with hp | hp <;> simp [hp], hw'⟩
  · cases as with
    | nil =>
      obtain ⟨rfl, rfl⟩ := List.cons.inj has
      exact ⟨u, by simpa using hu, hv⟩
    | cons _ as =>
      obtain ⟨rfl, rfl⟩ := List.cons.inj has
      exact h pre' w (as ++ post) (by simp) hw

/-- So its place is after that of a predecessor. -/
theorem Parented.exists_idxOf_lt [DecidableEq V] {l : List V} (h : Parented succ root l)
    (hnodup : l.Nodup) {v : V} (hv : v ∈ l) (hne : v ≠ root) :
    ∃ p ∈ l, v ∈ succ p ∧ l.idxOf p < l.idxOf v := by
  obtain ⟨pre, post, rfl⟩ := List.append_of_mem hv
  obtain ⟨p, hp, hsucc⟩ := h pre v post rfl hne
  rw [List.nodup_append] at hnodup
  have hvpre : v ∉ pre := fun hvl ↦ hnodup.2.2 v hvl v (List.mem_cons_self ..) rfl
  refine ⟨p, List.mem_append_left _ hp, hsucc, ?_⟩
  rw [List.idxOf_append_of_mem hp, List.idxOf_append_of_notMem hvpre]
  exact (List.idxOf_lt_length_iff.2 hp).trans_le (Nat.le_add_right _ _)

/-- The vertices on the stack, from its bottom, and those finished. -/
def line (stk : List (V × List V)) (post : List V) : List V :=
  (stk.map Prod.fst).reverse ++ post

variable (succ root) in
/-- The state of a search. -/
structure Inv (stk : List (V × List V)) (vis : Finset V) (post : List V) : Prop where
  nodup : (line stk post).Nodup
  mem_vis : ∀ v, v ∈ vis ↔ v ∈ line stk post
  root_mem : root ∈ vis
  reach : ∀ v ∈ vis, ReflTransGen (fun u v ↦ v ∈ succ u) root v
  finished : ∀ u ∈ post, ∀ v ∈ succ u, v ∈ vis
  listed : ∀ p ∈ stk, ∀ v ∈ p.2, v ∈ succ p.1
  pending : ∀ p ∈ stk, ∀ v ∈ succ p.1, v ∈ vis ∨ v ∈ p.2
  parented : Parented succ root (line stk post)

namespace Inv

variable {stk : List (V × List V)} {vis : Finset V} {post : List V} {u v : V} {vs : List V}

theorem line_pop : line stk (u :: post) = line ((u, vs) :: stk) post := by
  simp [line]

/-- The top of the stack is finished. -/
theorem pop (h : Inv succ root ((u, []) :: stk) vis post) : Inv succ root stk vis (u :: post) where
  nodup := by rw [line_pop]; exact h.nodup
  mem_vis w := by rw [line_pop]; exact h.mem_vis w
  root_mem := h.root_mem
  reach := h.reach
  finished w hw x hx := by
    rcases List.mem_cons.1 hw with rfl | hw
    · exact (h.pending _ (List.mem_cons_self ..) x hx).resolve_right (by simp)
    · exact h.finished w hw x hx
  listed p hp := h.listed p (List.mem_cons_of_mem _ hp)
  pending p hp := h.pending p (List.mem_cons_of_mem _ hp)
  parented := by rw [line_pop]; exact h.parented

/-- A successor that was visited is skipped. -/
theorem skip (h : Inv succ root ((u, v :: vs) :: stk) vis post) (hv : v ∈ vis) :
    Inv succ root ((u, vs) :: stk) vis post where
  nodup := h.nodup
  mem_vis := h.mem_vis
  root_mem := h.root_mem
  reach := h.reach
  finished := h.finished
  listed p hp x hx := by
    rcases List.mem_cons.1 hp with rfl | hp
    · exact h.listed _ (List.mem_cons_self ..) x (List.mem_cons_of_mem _ hx)
    · exact h.listed p (List.mem_cons_of_mem _ hp) x hx
  pending p hp x hx := by
    rcases List.mem_cons.1 hp with rfl | hp
    · rcases h.pending _ (List.mem_cons_self ..) x hx with hx | hx
      · exact .inl hx
      · rcases List.mem_cons.1 hx with rfl | hx
        · exact .inl hv
        · exact .inr hx
    · exact h.pending p (List.mem_cons_of_mem _ hp) x hx
  parented := h.parented

/-- A successor that was not visited goes on the stack. -/
theorem push [DecidableEq V] (h : Inv succ root ((u, v :: vs) :: stk) vis post) (hv : v ∉ vis) :
    Inv succ root ((v, succ v) :: (u, vs) :: stk) (insert v vis) post where
  nodup := by
    have hline : v ∉ line ((u, v :: vs) :: stk) post := fun hmem ↦ hv ((h.mem_vis v).2 hmem)
    have hnodup := h.nodup
    simp only [line, List.map_cons, List.reverse_cons] at hline hnodup ⊢
    rw [List.append_assoc, List.singleton_append, List.nodup_middle]
    exact List.nodup_cons.2 ⟨hline, hnodup⟩
  mem_vis w := by
    rw [Finset.mem_insert, h.mem_vis]
    simp only [line, List.map_cons, List.reverse_cons, List.mem_append, List.mem_singleton]
    tauto
  root_mem := Finset.mem_insert_of_mem h.root_mem
  reach w hw := by
    rcases Finset.mem_insert.1 hw with rfl | hw
    · have hu : u ∈ vis := (h.mem_vis u).2 (by simp [line])
      exact (h.reach u hu).tail (h.listed _ (List.mem_cons_self ..) w (List.mem_cons_self ..))
    · exact h.reach w hw
  finished w hw x hx := Finset.mem_insert_of_mem (h.finished w hw x hx)
  listed p hp x hx := by
    rcases List.mem_cons.1 hp with rfl | hp
    · exact hx
    · rcases List.mem_cons.1 hp with rfl | hp
      · exact h.listed _ (List.mem_cons_self ..) x (List.mem_cons_of_mem _ hx)
      · exact h.listed p (List.mem_cons_of_mem _ hp) x hx
  pending p hp x hx := by
    rcases List.mem_cons.1 hp with rfl | hp
    · exact .inr hx
    · rcases List.mem_cons.1 hp with rfl | hp
      · rcases h.pending _ (List.mem_cons_self ..) x hx with hx | hx
        · exact .inl (Finset.mem_insert_of_mem hx)
        · rcases List.mem_cons.1 hx with rfl | hx
          · exact .inl (Finset.mem_insert_self _ _)
          · exact .inr hx
      · exact (h.pending p (List.mem_cons_of_mem _ hp) x hx).imp_left Finset.mem_insert_of_mem
  parented := by
    have hline : line ((v, succ v) :: (u, vs) :: stk) post =
        ((u :: stk.map Prod.fst).reverse) ++ v :: post := by simp [line]
    rw [hline]
    exact h.parented.insert (List.mem_reverse.2 (List.mem_cons_self ..))
      (h.listed _ (List.mem_cons_self ..) v (List.mem_cons_self ..))

end Inv

/-! ### The search ends -/

section Search

variable [DecidableEq V]

variable (succ) in
/-- The steps that are left: one to take each vertex from the stack and one for each successor that
is pending, and the same for the vertices of `U` that were not visited. -/
def stepsLeft (U : Finset V) (stk : List (V × List V)) (vis : Finset V) : ℕ :=
  (stk.map fun p ↦ p.2.length + 1).sum + ∑ w ∈ U \ vis, ((succ w).length + 1)

theorem stepsLeft_push {U vis : Finset V} (stk : List (V × List V)) (u : V) {v : V} (vs : List V)
    (hU : v ∈ U) (hv : v ∉ vis) :
    stepsLeft succ U ((v, succ v) :: (u, vs) :: stk) (insert v vis) + 1 =
      stepsLeft succ U ((u, v :: vs) :: stk) vis := by
  have hmem : v ∈ U \ vis := Finset.mem_sdiff.2 ⟨hU, hv⟩
  have hsum := Finset.add_sum_erase (U \ vis) (fun w ↦ (succ w).length + 1) hmem
  rw [← Finset.sdiff_insert] at hsum
  simp only [stepsLeft, List.map_cons, List.sum_cons, List.length_cons]
  omega

/-- The search ends with the vertices in reach in the order in which they finish, backwards. -/
theorem loop_inv {U : Finset V} (hU : ∀ v, ReflTransGen (fun u v ↦ v ∈ succ u) root v → v ∈ U)
    {fuel : ℕ} {stk : List (V × List V)} {vis : Finset V} {post : List V}
    (h : Inv succ root stk vis post) (hfuel : stepsLeft succ U stk vis ≤ fuel) :
    ∃ vis', Inv succ root [] vis' (loop succ fuel stk vis post) := by
  induction fuel generalizing stk vis post with
  | zero =>
    cases stk with
    | nil => exact ⟨vis, h⟩
    | cons p stk =>
      simp only [stepsLeft, List.map_cons, List.sum_cons] at hfuel
      omega
  | succ fuel ih =>
    match stk with
    | [] => exact ⟨vis, h⟩
    | (u, []) :: stk =>
      refine ih h.pop ?_
      simp only [stepsLeft, List.map_cons, List.sum_cons] at hfuel ⊢
      omega
    | (u, v :: vs) :: stk =>
      rw [loop]
      split
      · next hv =>
        refine ih (h.skip hv) ?_
        simp only [stepsLeft, List.map_cons, List.sum_cons, List.length_cons] at hfuel ⊢
        omega
      · next hv =>
        have hpush := h.push hv
        have hvU := hU v (hpush.reach v (Finset.mem_insert_self _ _))
        refine ih hpush ?_
        have hleft : stepsLeft succ U ((v, succ v) :: (u, vs) :: stk) (insert v vis) + 1 =
            stepsLeft succ U ((u, v :: vs) :: stk) vis := stepsLeft_push stk u vs hvU hv
        omega

/-- **The search lists what is in reach**, each vertex once, and each but the root behind one of its
predecessors. -/
theorem loop_spec {U : Finset V} (hU : ∀ v, ReflTransGen (fun u v ↦ v ∈ succ u) root v → v ∈ U)
    {fuel : ℕ} (hfuel : ∑ w ∈ U, ((succ w).length + 1) ≤ fuel) :
    let l := loop succ fuel [(root, succ root)] {root} []
    l.Nodup ∧ (∀ v, v ∈ l ↔ ReflTransGen (fun u v ↦ v ∈ succ u) root v) ∧
      Parented succ root l := by
  have hinit : Inv succ root [(root, succ root)] {root} [] := by
    refine ⟨by simp [line], by simp [line], by simp, ?_, by simp, by simp, by simp +contextual, ?_⟩
    · intro v hv
      rw [Finset.mem_singleton.1 hv]
    · intro pre v post heq hv
      cases pre with
      | nil => exact absurd (List.cons.inj heq).1.symm hv
      | cons _ pre =>
        have := congrArg List.length heq
        simp [line] at this
  have hsteps : stepsLeft succ U [(root, succ root)] {root} ≤ fuel := by
    have hsum := Finset.add_sum_erase U (fun w ↦ (succ w).length + 1) (hU root .refl)
    rw [← Finset.sdiff_singleton_eq_erase] at hsum
    simp only [stepsLeft, List.map_cons, List.map_nil, List.sum_cons, List.sum_nil]
    omega
  obtain ⟨vis, hvis⟩ := loop_inv hU hinit hsteps
  refine ⟨hvis.nodup, fun v ↦ ⟨fun hv ↦ hvis.reach v ((hvis.mem_vis v).2 hv), fun hv ↦ ?_⟩,
    hvis.parented⟩
  induction hv with
  | refl => exact (hvis.mem_vis root).1 hvis.root_mem
  | tail _ hvw ih => exact (hvis.mem_vis _).1 (hvis.finished _ ih _ hvw)

end Search

end Postorder
