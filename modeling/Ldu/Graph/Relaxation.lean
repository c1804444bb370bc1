import Mathlib.Order.MinMax
import Mathlib.Data.List.Basic
import Mathlib.Data.Fintype.Order
import Mathlib.Order.Lattice.Nat

/-!
# Relaxation of edges, in rounds

The nodes of a graph carry values, and an edge takes the value at its end over to its start by a
supremum (`relax`). After a list of edges a node has the supremum of the values of all nodes that
feed it (`run_le_iff`): those from which the value comes along a path whose edges stand in the list
in order, the last edge of the path first (`Feeds`).

When the list is a round that is repeated a number of times, a path carries a value along if the
round starts at most so many times along it (`laps`, `feeds_rounds_iff`). Every edge is settled at
the end exactly when each node reaches, by such a path, a node as large as any that a path leads to
(`closed_iff_converges`).

Values that are copied once, to nodes that have none, come from the first node with a value on the
way (`Source`). Whether a node has a value is again a matter of relaxation, of the edges that take
over what comes to them (`held_copyAll`).
-/

namespace Relaxation

open scoped List

variable {α β : Type*} [DecidableEq α]

/-! ### Relaxing a list of edges -/

section Semilattice

variable [SemilatticeSup β]

/-- The value at the end of the edge is taken over. -/
def relax (v : α → β) (e : α × α) : α → β :=
  Function.update v e.1 (v e.1 ⊔ v e.2)

def run (es : List (α × α)) (v : α → β) : α → β :=
  es.foldl relax v

/-- The value of the second node comes to the first. -/
def Feeds : List (α × α) → α → α → Prop
  | [], a, b => a = b
  | e :: es, a, b => Feeds es a b ∨ (Feeds es a e.1 ∧ b = e.2)

@[simp] theorem run_nil (v : α → β) : run [] v = v := rfl

@[simp] theorem run_cons (e : α × α) (es : List (α × α)) (v : α → β) :
    run (e :: es) v = run es (relax v e) := rfl

theorem le_relax (v : α → β) (e : α × α) (a : α) : v a ≤ relax v e a := by
  unfold relax
  by_cases h : a = e.1
  · subst h
    rw [Function.update_self]
    exact le_sup_left
  · rw [Function.update_of_ne h]

omit [DecidableEq α] [SemilatticeSup β] in
theorem feeds_refl (es : List (α × α)) (a : α) : Feeds es a a := by
  induction es with
  | nil => rfl
  | cons e es ih => exact .inl ih

/-- A node has the supremum of what feeds it. -/
theorem run_le_iff {es : List (α × α)} {v : α → β} {a : α} {x : β} :
    run es v a ≤ x ↔ ∀ b, Feeds es a b → v b ≤ x := by
  induction es generalizing v with
  | nil =>
    constructor
    · rintro h _ rfl
      exact h
    · exact fun h ↦ h a rfl
  | cons e es ih =>
    rw [run_cons, ih]
    constructor
    · intro h b hb
      rcases hb with hb | ⟨hb, rfl⟩
      · exact (le_relax v e b).trans (h b hb)
      · refine le_trans ?_ (h e.1 hb)
        rw [relax, Function.update_self]
        exact le_sup_right
    · intro h b hb
      by_cases hbe : b = e.1
      · subst hbe
        rw [relax, Function.update_self]
        exact sup_le (h _ (.inl hb)) (h _ (.inr ⟨hb, rfl⟩))
      · rw [relax, Function.update_of_ne hbe]
        exact h b (.inl hb)

theorem le_run_of_feeds {es : List (α × α)} {v : α → β} {a b : α} (h : Feeds es a b) :
    v b ≤ run es v a :=
  run_le_iff.1 le_rfl b h

end Semilattice

/-! ### Paths and the rounds they need -/

section Path

omit [DecidableEq α]

/-- These edges lead from the first node to the second. -/
def Path : α → List (α × α) → α → Prop
  | a, [], b => a = b
  | a, e :: es, b => a = e.1 ∧ Path e.2 es b

theorem path_concat {a b : α} {p : List (α × α)} {e : α × α} :
    Path a (p ++ [e]) b ↔ Path a p e.1 ∧ b = e.2 := by
  induction p generalizing a with
  | nil => exact and_congr_right fun _ ↦ eq_comm
  | cons e' p ih =>
    rw [List.cons_append, Path, Path, ih, and_assoc]

/-- A node feeds another along a path whose edges are relaxed in order, the last one first. -/
theorem feeds_iff_path {es : List (α × α)} {a b : α} :
    Feeds es a b ↔ ∃ p, Path a p b ∧ p.reverse <+ es := by
  induction es generalizing b with
  | nil =>
    constructor
    · rintro rfl
      exact ⟨[], rfl, .slnil⟩
    · rintro ⟨p, hp, hsub⟩
      obtain rfl := List.reverse_eq_nil_iff.1 (List.sublist_nil.1 hsub)
      exact hp
  | cons e es ih =>
    constructor
    · rintro (h | ⟨h, rfl⟩)
      · obtain ⟨p, hp, hsub⟩ := ih.1 h
        exact ⟨p, hp, hsub.cons e⟩
      · obtain ⟨p, hp, hsub⟩ := ih.1 h
        refine ⟨p ++ [e], path_concat.2 ⟨hp, rfl⟩, ?_⟩
        rw [List.reverse_append]
        exact hsub.cons_cons e
    · rintro ⟨p, hp, hsub⟩
      rcases List.sublist_cons_iff.1 hsub with hsub | ⟨r, hr, hsub⟩
      · exact .inl (ih.2 ⟨p, hp, hsub⟩)
      · obtain rfl : p = r.reverse ++ [e] := by
          rw [← List.reverse_reverse p, hr, List.reverse_cons]
        obtain ⟨hpath, rfl⟩ := path_concat.1 hp
        exact .inr ⟨ih.2 ⟨r.reverse, hpath, by rwa [List.reverse_reverse]⟩, rfl⟩

end Path

/-- The round, `n` times. -/
def rounds {ε : Type*} (n : ℕ) (round : List ε) : List ε :=
  (List.replicate n round).flatten

section Laps

variable {ε : Type*} [DecidableEq ε]

/-- What stands behind the first `e` of a list. -/
def behind (e : ε) (l : List ε) : List ε :=
  (l.dropWhile (· ≠ e)).tail

/-- How often the round has to start again until all these have come in order; `rest` is what is
left of a round already started. -/
def laps (round : List ε) : List ε → List ε → ℕ
  | _, [] => 0
  | rest, e :: es =>
    if e ∈ rest then laps round (behind e rest) es else laps round (behind e round) es + 1

/-- The first occurrence is as good as any. -/
theorem cons_sublist_append_iff {e : ε} {l : List ε} (h : e ∈ l) (es m : List ε) :
    e :: es <+ l ++ m ↔ es <+ behind e l ++ m := by
  induction l with
  | nil => cases h
  | cons x l ih =>
    by_cases hx : x = e
    · subst hx
      have hbehind : behind x (x :: l) = l := by
        rw [behind, List.dropWhile_cons_of_neg (by simp), List.tail_cons]
      rw [hbehind, List.cons_append, List.cons_sublist_cons]
    · have hbehind : behind e (x :: l) = behind e l := by
        rw [behind, List.dropWhile_cons_of_pos (by simpa using hx), behind]
      rw [hbehind, ← ih ((List.mem_cons.1 h).resolve_left (Ne.symm hx)), List.cons_append]
      exact ⟨fun hsub ↦ hsub.of_cons_of_ne (Ne.symm hx), fun hsub ↦ hsub.cons x⟩

omit [DecidableEq ε] in
/-- What the rest of the round does not have comes with the next. -/
theorem cons_sublist_skip {e : ε} {l : List ε} (h : e ∉ l) (es m : List ε) :
    e :: es <+ l ++ m ↔ e :: es <+ m := by
  induction l with
  | nil => rfl
  | cons x l ih =>
    rw [List.mem_cons, not_or] at h
    rw [List.cons_append, ← ih h.2]
    exact ⟨fun hsub ↦ hsub.of_cons_of_ne h.1, fun hsub ↦ hsub.cons x⟩

theorem sublist_rounds_iff {round : List ε} {n : ℕ} {es : List ε} (rest : List ε)
    (hes : es ⊆ round) :
    es <+ rest ++ rounds n round ↔ laps round rest es ≤ n := by
  induction es generalizing rest n with
  | nil => simp [laps]
  | cons e es ih =>
    rw [List.cons_subset] at hes
    rw [laps]
    by_cases hrest : e ∈ rest
    · rw [if_pos hrest, cons_sublist_append_iff hrest, ih _ hes.2]
    · rw [if_neg hrest, cons_sublist_skip hrest]
      cases n with
      | zero => simp [rounds]
      | succ n =>
        have hrounds : rounds (n + 1) round = round ++ rounds n round := by
          rw [rounds, List.replicate_succ, List.flatten_cons, rounds]
        rw [hrounds, cons_sublist_append_iff hes.1, ih _ hes.2, Nat.add_le_add_iff_right]

end Laps

section Rounds

variable {ε ε' : Type*} {n : ℕ} {round : List ε}

theorem rounds_subset : rounds n round ⊆ round := by
  intro e h
  obtain ⟨l, hl, he⟩ := List.mem_flatten.1 h
  rwa [List.eq_of_mem_replicate hl] at he

theorem map_rounds (f : ε → ε') : (rounds n round).map f = rounds n (round.map f) := by
  rw [rounds, rounds, List.map_flatten, List.map_replicate]

theorem filter_rounds (p : ε → Bool) : (rounds n round).filter p = rounds n (round.filter p) := by
  rw [rounds, rounds, List.filter_flatten, List.map_replicate]

end Rounds

/-- A path carries the value at its end within `n` rounds when the round starts at most `n` times
along it. -/
theorem feeds_rounds_iff {n : ℕ} {round : List (α × α)} {a b : α} :
    Feeds (rounds n round) a b ↔
      ∃ p, Path a p b ∧ p ⊆ round ∧ laps round [] p.reverse ≤ n := by
  rw [feeds_iff_path]
  refine exists_congr fun p ↦ and_congr_right fun _ ↦ ?_
  constructor
  · intro hsub
    have hp : p ⊆ round := fun e he ↦ rounds_subset (hsub.subset (List.mem_reverse.2 he))
    exact ⟨hp, (sublist_rounds_iff [] fun e he ↦ hp (List.mem_reverse.1 he)).1 hsub⟩
  · rintro ⟨hp, hlaps⟩
    exact (sublist_rounds_iff [] fun e he ↦ hp (List.mem_reverse.1 he)).2 hlaps

/-! ### Settled edges -/

section Linear

variable [LinearOrder β]

/-- In a linear order the supremum is attained. -/
theorem exists_feeds_eq (es : List (α × α)) (v : α → β) (a : α) :
    ∃ b, Feeds es a b ∧ run es v a = v b := by
  induction es generalizing v with
  | nil => exact ⟨a, rfl, rfl⟩
  | cons e es ih =>
    obtain ⟨b, hb, hrun⟩ := ih (relax v e)
    rw [run_cons, hrun]
    by_cases hbe : b = e.1
    · subst hbe
      rw [relax, Function.update_self]
      rcases max_choice (v e.1) (v e.2) with h | h
      · exact ⟨e.1, .inl hb, h⟩
      · exact ⟨e.2, .inr ⟨hb, rfl⟩, h⟩
    · exact ⟨b, .inl hb, by rw [relax, Function.update_of_ne hbe]⟩

/-- Whatever a path leads to, a node as large stands at the end of a path along which the round
starts at most `n` times. -/
def Converges (n : ℕ) (round : List (α × α)) (v : α → β) : Prop :=
  ∀ a p b, Path a p b → p ⊆ round →
    ∃ q h, Path a q h ∧ q ⊆ round ∧ laps round [] q.reverse ≤ n ∧ v b ≤ v h

/-- At the end of the rounds every edge is settled exactly when the values converge. -/
theorem closed_iff_converges {n : ℕ} {round : List (α × α)} {v : α → β} :
    (∀ e ∈ round, run (rounds n round) v e.2 ≤ run (rounds n round) v e.1) ↔
      Converges n round v := by
  constructor
  · intro hclosed a p b hpath hp
    have hle : v b ≤ run (rounds n round) v a := by
      induction p generalizing a with
      | nil =>
        obtain rfl := hpath
        exact le_run_of_feeds (feeds_refl _ _)
      | cons e p ih =>
        obtain ⟨rfl, hpath⟩ := hpath
        rw [List.cons_subset] at hp
        exact (ih e.2 hpath hp.2).trans (hclosed e hp.1)
    obtain ⟨h, hfeeds, hrun⟩ := exists_feeds_eq (rounds n round) v a
    obtain ⟨q, hq, hsub, hlaps⟩ := feeds_rounds_iff.1 hfeeds
    exact ⟨q, h, hq, hsub, hlaps, hrun ▸ hle⟩
  · intro hconv e he
    refine run_le_iff.2 fun b hb ↦ ?_
    obtain ⟨p, hpath, hp, -⟩ := feeds_rounds_iff.1 hb
    obtain ⟨q, h, hq, hsub, hlaps, hle⟩ :=
      hconv e.1 (e :: p) b ⟨rfl, hpath⟩ (List.cons_subset.2 ⟨he, hp⟩)
    exact hle.trans (le_run_of_feeds (feeds_rounds_iff.2 ⟨q, hq, hsub, hlaps⟩))

end Linear

/-! ### Copying values -/

/-- An edge that takes over some values only. -/
structure Hop (α κ : Type*) where
  src : α
  tgt : α
  ok : κ → Bool

section Copy

variable {κ : Type*} [DecidableEq κ] (z : κ)

def Hop.edge (o : Hop α κ) : α × α :=
  (o.src, o.tgt)

/-- A node without a value, which is `z`, takes over the value at the end of the hop. -/
def copy (v : α → κ) (o : Hop α κ) : α → κ :=
  if v o.src = z ∧ v o.tgt ≠ z ∧ o.ok (v o.tgt) = true then Function.update v o.src (v o.tgt)
  else v

def copyAll (os : List (Hop α κ)) (v : α → κ) : α → κ :=
  os.foldl (copy z) v

/-- The nodes with a value. -/
def held (v : α → κ) (a : α) : Bool :=
  v a ≠ z

/-- The first value on the way along the hops. -/
inductive Source (os : List (Hop α κ)) (v : α → κ) : α → κ → Prop
  | here {a : α} (h : v a ≠ z) : Source os v a (v a)
  | there {o : Hop α κ} {c : κ} (ho : o ∈ os) (h : v o.src = z) (hc : Source os v o.tgt c) :
    Source os v o.src c

variable {z} {os : List (Hop α κ)} {v v' : α → κ}

theorem copy_of (v : α → κ) (o : Hop α κ)
    (h : v o.src = z ∧ v o.tgt ≠ z ∧ o.ok (v o.tgt) = true) :
    copy z v o = Function.update v o.src (v o.tgt) :=
  if_pos h

theorem copy_of_not {o : Hop α κ} (h : ¬(v o.src = z ∧ v o.tgt ≠ z ∧ o.ok (v o.tgt) = true)) :
    copy z v o = v :=
  if_neg h

omit [DecidableEq α] [DecidableEq κ] in
/-- Where a node has one way on, it has one source. -/
theorem Source.unique (hone : ∀ o ∈ os, ∀ o' ∈ os, o.src = o'.src → o.tgt = o'.tgt) {a : α}
    {c c' : κ} (h : Source z os v a c) (h' : Source z os v a c') : c = c' := by
  induction h with
  | here h =>
    cases h' with
    | here => rfl
    | there _ hz _ => exact absurd hz h
  | @there o c ho hz _ ih =>
    generalize hsrc : o.src = a at h' hz
    cases h' with
    | here hne => exact absurd hz hne
    | there ho' _ hc' => exact ih (hone o ho _ ho' hsrc ▸ hc')

/-- The hop takes over what comes to its end. -/
def Passes (z : κ) (os : List (Hop α κ)) (v : α → κ) (o : Hop α κ) : Prop :=
  ∀ c, Source z os v o.tgt c → o.ok c = true

/-- A hop relaxes its edge when it takes over the value at its end, and nothing else. -/
theorem held_copy {o : Hop α κ} {p : Prop} [Decidable p]
    (h : v o.tgt ≠ z → (o.ok (v o.tgt) = true ↔ p)) :
    held z (copy z v o) = if p then relax (held z v) o.edge else held z v := by
  funext a
  by_cases htgt : v o.tgt = z
  · have hrelax : relax (held z v) o.edge = held z v := by
      rw [relax, Hop.edge, Function.update_eq_self_iff]
      simp [held, htgt]
    rw [copy, if_neg (by simp [htgt]), hrelax, ite_self]
  by_cases hp : p
  · have hok : o.ok (v o.tgt) = true := (h htgt).2 hp
    rw [if_pos hp, relax, Hop.edge]
    by_cases hsrc : v o.src = z
    · rw [copy, if_pos ⟨hsrc, htgt, hok⟩]
      by_cases ha : a = o.src
      · simp [held, ha, htgt]
      · simp [held, ha]
    · rw [copy, if_neg fun hcopy ↦ hsrc hcopy.1]
      by_cases ha : a = o.src
      · simp [held, ha, hsrc]
      · simp [held, ha]
  · rw [if_neg hp, copy, if_neg fun hcopy ↦ hp ((h htgt).1 hcopy.2.2)]

/-- Hops that take over everything relax their edges. -/
theorem held_copyAll_of_ok (h : ∀ o ∈ os, ∀ c, o.ok c = true) :
    held z (copyAll z os v) = run (os.map Hop.edge) (held z v) := by
  induction os generalizing v with
  | nil => rfl
  | cons o os ih =>
    rw [List.forall_mem_cons] at h
    have hstep : held z (copy z v o) = relax (held z v) o.edge :=
      (held_copy (p := True) fun _ ↦ iff_true_intro (h.1 _)).trans (if_pos trivial)
    rw [List.map_cons, run_cons, ← hstep]
    exact ih h.2

/-- The values of the one have been copied along the hops to the other. -/
structure Follows (z : κ) (os : List (Hop α κ)) (v v' : α → κ) : Prop where
  source : ∀ a, v' a ≠ z → Source z os v a (v' a)
  keeps : ∀ a, v a ≠ z → v' a ≠ z

omit [DecidableEq α] [DecidableEq κ] in
theorem Follows.refl (os : List (Hop α κ)) (v : α → κ) : Follows z os v v :=
  ⟨fun _ h ↦ .here h, fun _ h ↦ h⟩

theorem Follows.copy (h : Follows z os v v') {o : Hop α κ} (ho : o ∈ os) :
    Follows z os v (copy z v' o) := by
  unfold Relaxation.copy
  split
  · next hcopy =>
    obtain ⟨hsrc, htgt, -⟩ := hcopy
    constructor
    · intro a ha
      by_cases hasrc : a = o.src
      · subst hasrc
        rw [Function.update_self]
        exact .there ho (not_not.1 fun hne ↦ h.keeps _ hne hsrc) (h.source _ htgt)
      · rw [Function.update_of_ne hasrc] at ha ⊢
        exact h.source a ha
    · intro a ha
      by_cases hasrc : a = o.src
      · subst hasrc
        rwa [Function.update_self]
      · rw [Function.update_of_ne hasrc]
        exact h.keeps a ha
  · exact h

theorem Follows.copyAll (h : Follows z os v v') {os' : List (Hop α κ)} (hos : os' ⊆ os) :
    Follows z os v (copyAll z os' v') := by
  induction os' generalizing v' with
  | nil => exact h
  | cons o os' ih =>
    rw [List.cons_subset] at hos
    exact ih (h.copy hos.1) hos.2

open Classical in
/-- Hops of which each node has one relax the edges of those that take over what comes to them. -/
theorem held_copyAll (hone : ∀ o ∈ os, ∀ o' ∈ os, o.src = o'.src → o.tgt = o'.tgt)
    {os' : List (Hop α κ)} (hos : os' ⊆ os) (h : Follows z os v v') :
    held z (copyAll z os' v') =
      run ((os'.filter fun o ↦ Passes z os v o).map Hop.edge) (held z v') := by
  induction os' generalizing v' with
  | nil => rfl
  | cons o os' ih =>
    rw [List.cons_subset] at hos
    have hstep : held z (copy z v' o) =
        if Passes z os v o then relax (held z v') o.edge else held z v' := by
      refine held_copy fun htgt ↦ ?_
      have hsource := h.source _ htgt
      exact ⟨fun hok c hc ↦ hc.unique hone hsource ▸ hok, fun hp ↦ hp _ hsource⟩
    have hrest := ih hos.2 (h.copy hos.1)
    rw [List.filter_cons]
    by_cases hp : Passes z os v o
    · rw [if_pos hp] at hstep
      rw [if_pos (decide_eq_true hp), List.map_cons, run_cons, ← hstep]
      exact hrest
    · rw [if_neg hp] at hstep
      rw [if_neg (by simpa using hp), ← hstep]
      exact hrest

end Copy

end Relaxation
