import Ldu.Cfg.Dominators

/-!
# Immediate post-dominators are exact

`computePostdom` runs the dominator computation backwards, from a virtual exit behind all blocks
without successors. Its `intersect` has returns of its own to the virtual exit, for a climb that
takes too long or comes to a block that was not numbered; in the tables of the pass they are never
taken. The result gives each block that reaches an exit its immediate post-dominator
(`computePostdom_exact`).
-/

open Relation

namespace Ldu

open Idom (Computes Numbering Tree Up climb meet meetStep parent parent_replicate parent_set
  sweepTable sweepTables)

/-! ### The pass -/

section Pass

variable (g : List Block)

/-- The edges backwards: the virtual exit leads to the blocks without successors. -/
def rsucc (u : ℕ) : List ℕ :=
  if u = g.length then (List.range g.length).filter fun b ↦ (succOf g b).isEmpty else predOf g u

/-- Reverse postorder of the edges backwards, from the virtual exit. -/
def postdomRpo : List ℕ :=
  Postorder.loop (rsucc g) (∑ w ∈ Finset.range (g.length + 1), ((rsucc g w).length + 1))
    [(g.length, rsucc g g.length)] {g.length} []

variable (prpo : List ℕ) (pdom : List (Option ℕ))

/-- An inner loop of `intersect`: climb from `a` while it is numbered after `b`. There is no result
if the loop does not end within the steps, and no vertex if the climb comes to one without a
parent, where `intersect` gives up. -/
def climbPast : ℕ → ℕ → ℕ → Option (Option ℕ)
  | 0, _, _ => none
  | n + 1, a, b =>
    if a ∈ prpo ∧ b ∈ prpo ∧ prpo.idxOf b < prpo.idxOf a then
      match pdom[a]?.join with
      | some a' => climbPast n a' b
      | none => some none
    else some (some a)

/-- `intersect`, with the rounds that `guard` leaves: it gives up with the virtual exit. -/
def intersectPost : ℕ → ℕ → ℕ → Option ℕ
  | 0, a, b => some (if a = b then a else g.length)
  | n + 1, a, b =>
    if a = b then some a
    else
      match climbPast prpo pdom (g.length + 2) a b with
      | none => none
      | some none => some g.length
      | some (some a') =>
        match climbPast prpo pdom (g.length + 2) b a' with
        | none => none
        | some none => some g.length
        | some (some b') =>
          if a' ∉ prpo ∨ b' ∉ prpo then some g.length else intersectPost n a' b'

/-- One successor `s`: what the processed successors before it gave is intersected with it. -/
def newPdomStep (ni : Option ℕ) (s : ℕ) : Option (Option ℕ) :=
  if s ∉ prpo ∨ pdom[s]?.join = none then some ni
  else
    match ni with
    | none => some (some s)
    | some q => (intersectPost g prpo pdom (4 * (g.length + 2)) s q).map some

/-- The new immediate post-dominator of `b`: the virtual exit for a block without successors, else
the processed successors intersected, in order. -/
def newPdom (b : ℕ) : Option (Option ℕ) :=
  (succOf g b).foldlM (newPdomStep g prpo pdom)
    (if (succOf g b).isEmpty then some g.length else none)

end Pass

/-- The immediate post-dominators, `none` for `-1`; without a result if a loop does not end. -/
def computePostdom (g : List Block) : Option (List (Option ℕ)) :=
  if g.isEmpty then some []
  else
    (sweepTables (newPdom g (postdomRpo g)) g.length (postdomRpo g) (g.length + 8)
      ((List.replicate (g.length + 1) none).set g.length (some g.length))).map fun (pdom, _) ↦
        (List.range g.length).map fun i ↦
          if pdom[i]?.join = some g.length then none else pdom[i]?.join

/-! ### Post-dominance -/

/-- A path from `u` comes to a block without successors. -/
def ReachesExit (g : List Block) (u : ℕ) : Prop :=
  ∃ e < g.length, succOf g e = [] ∧ (blockGraph g u).Reach e

/-- Every path from `u` to a block without successors passes through `d`. -/
def PostDom (g : List Block) (d u : ℕ) : Prop :=
  ∀ e < g.length, succOf g e = [] → (blockGraph g u).Dom d e

/-- The block after `u` on every path to an exit that is nearest to it: each other one is also on
every path from there. -/
structure IsIpdom (g : List Block) (u d : ℕ) : Prop where
  ne : d ≠ u
  postDom : PostDom g d u
  nearest : ∀ x, x ≠ u → PostDom g x u → PostDom g x d

/-- The edges backwards, entered at the virtual exit. -/
def exitGraph (g : List Block) : Flowgraph ℕ where
  entry := g.length
  Adj x v := v ∈ rsucc g x

section Backwards

variable {g : List Block} {u v x d : ℕ} {P : ℕ → Prop}

theorem mem_rsucc_exit : u ∈ rsucc g g.length ↔ u < g.length ∧ succOf g u = [] := by
  rw [rsucc, if_pos rfl, List.mem_filter, List.mem_range, List.isEmpty_iff]

theorem mem_rsucc (hlinked : Linked g) (hx : x ≠ g.length) :
    u ∈ rsucc g x ↔ x ∈ succOf g u := by
  rw [rsucc, if_neg hx, hlinked.mem_pred]

theorem lt_of_mem_rsucc (hlinked : Linked g) (h : u ∈ rsucc g x) : u < g.length := by
  by_cases hx : x = g.length
  · exact (mem_rsucc_exit.1 (hx ▸ h)).1
  · exact lt_of_mem_succOf ((mem_rsucc hlinked hx).1 h)

/-- A step before a path. -/
theorem reachVia_head (hadj : x ∈ succOf g u) (hu : P u) (h : (blockGraph g x).ReachVia P v) :
    (blockGraph g u).ReachVia P v :=
  ⟨hu, .head ⟨hadj, h.1⟩ h.2⟩

/-- A path backwards from the virtual exit is a path to a block without successors. -/
theorem reachVia_exitGraph (hlinked : Linked g) (hP : P g.length) (hu : u ≠ g.length) :
    (exitGraph g).ReachVia P u ↔
      ∃ e < g.length, succOf g e = [] ∧ (blockGraph g u).ReachVia P e := by
  constructor
  · rintro ⟨-, hpath⟩
    induction hpath with
    | refl => exact absurd rfl hu
    | @tail x u _ hstep ih =>
      obtain ⟨hadj, hPu⟩ := hstep
      by_cases hx : x = g.length
      · obtain ⟨hlt, hexit⟩ := mem_rsucc_exit.1 (hx ▸ hadj : u ∈ rsucc g g.length)
        exact ⟨u, hlt, hexit, .entry_of hPu⟩
      · obtain ⟨e, hlt, hexit, hreach⟩ := ih hx
        exact ⟨e, hlt, hexit, reachVia_head ((mem_rsucc hlinked hx).1 hadj) hPu hreach⟩
  · rintro ⟨e, hlt, hexit, hPu, hpath⟩
    have hentry : (exitGraph g).ReachVia P g.length := .entry_of hP
    change ReflTransGen _ u e at hpath
    induction hpath using ReflTransGen.head_induction_on with
    | refl => exact hentry.step (mem_rsucc_exit.2 ⟨hlt, hexit⟩) hPu
    | @head u x hstep _ ih =>
      have hx : x ≠ g.length := (hlinked.succ_lt hstep.1).ne
      exact (ih hx hstep.2).step ((mem_rsucc hlinked hx).2 hstep.1) hPu

theorem reach_exitGraph (hlinked : Linked g) (hu : u ≠ g.length) :
    (exitGraph g).Reach u ↔ ReachesExit g u := by
  rw [Flowgraph.reach_iff_reachVia, reachVia_exitGraph hlinked trivial hu]
  exact exists_congr fun e ↦ and_congr_right fun _ ↦ and_congr_right fun _ ↦
    Flowgraph.reach_iff_reachVia.symm

theorem dom_exitGraph (hlinked : Linked g) (hd : d ≠ g.length) (hu : u ≠ g.length) :
    (exitGraph g).Dom d u ↔ PostDom g d u := by
  rw [Flowgraph.Dom, reachVia_exitGraph hlinked hd.symm hu]
  simp only [not_exists, not_and]
  rfl

theorem ReachesExit.lt (h : ReachesExit g u) : u < g.length := by
  obtain ⟨e, hlt, -, hreach⟩ := h
  rcases hreach.cases_head with rfl | ⟨v, hadj, -⟩
  · exact hlt
  · exact lt_of_mem_succOf hadj

/-- What post-dominates a block that reaches an exit is a block. -/
theorem ReachesExit.lt_of_postDom (hlinked : Linked g) (h : ReachesExit g u)
    (hdom : PostDom g d u) : d < g.length := by
  have hlt := h.lt
  obtain ⟨e, he, hexit, hreach⟩ := h
  have hd : (blockGraph g u).Reach d := (hdom e he hexit).reach hreach
  cases hd with
  | refl => exact hlt
  | tail _ hadj => exact hlinked.succ_lt hadj

end Backwards

/-! ### The intersection gives up nowhere -/

section Intersect

variable {g : List Block} {prpo : List ℕ} {pdom : List (Option ℕ)} {root a b : ℕ}
  (h : Tree root (fun x ↦ prpo.idxOf x) (parent pdom))
  (hmem : ∀ {v}, (parent pdom v).isSome → v ∈ prpo)
include h hmem

/-- An inner loop ends, at a vertex that is not numbered after `b` and has the same vertices above
it and `b`. -/
theorem climbPast_spec {n : ℕ} (ha : (parent pdom a).isSome) (hb : (parent pdom b).isSome)
    (hn : prpo.idxOf a < n) :
    ∃ a', climbPast prpo pdom n a b = some (some a') ∧ (parent pdom a').isSome ∧
      prpo.idxOf a' ≤ prpo.idxOf b ∧ (a' = a ∨ prpo.idxOf a' < prpo.idxOf a) ∧
      ∀ x, Up (parent pdom) a' x ∧ Up (parent pdom) b x ↔
        Up (parent pdom) a x ∧ Up (parent pdom) b x := by
  induction n generalizing a with
  | zero => omega
  | succ n ih =>
    rw [climbPast]
    by_cases hlt : prpo.idxOf b < prpo.idxOf a
    · rw [if_pos ⟨hmem ha, hmem hb, hlt⟩]
      have hroot : a ≠ root := by
        rintro rfl
        exact absurd (h.num_le (h.up_root hb)) (not_le.2 hlt)
      obtain ⟨d, hd⟩ := Option.isSome_iff_exists.1 ha
      have hda : prpo.idxOf d < prpo.idxOf a := h.lt hroot hd
      obtain ⟨a', ha', hsome, hle, hor, hup⟩ := ih (h.parent_mem hd) (by omega)
      have hd' : pdom[a]?.join = some d := hd
      rw [hd']
      refine ⟨a', ha', hsome, hle, .inr ?_, fun x ↦ (hup x).trans (and_congr_left fun hx ↦ ?_)⟩
      · rcases hor with rfl | hlt'
        · exact hda
        · exact hlt'.trans hda
      · rw [Tree.up_iff hd, or_iff_right]
        rintro rfl
        exact absurd (h.num_le hx) (not_le.2 hlt)
    · rw [if_neg fun hcond ↦ hlt hcond.2.2]
      exact ⟨a, rfl, ha, not_lt.1 hlt, .inl rfl, fun x ↦ Iff.rfl⟩

/-- The rounds end at the vertex above which is what is above both. -/
theorem intersectPost_spec (hsize : prpo.length ≤ g.length + 1) {n : ℕ}
    (ha : (parent pdom a).isSome) (hb : (parent pdom b).isSome)
    (hn : prpo.idxOf a + prpo.idxOf b ≤ n) :
    ∃ c, intersectPost g prpo pdom n a b = some c ∧ (parent pdom c).isSome ∧
      ∀ x, Up (parent pdom) c x ↔ Up (parent pdom) a x ∧ Up (parent pdom) b x := by
  have hfuel {v : ℕ} (hv : (parent pdom v).isSome) : prpo.idxOf v < g.length + 2 := by
    have := List.idxOf_lt_length_iff.2 (hmem hv)
    omega
  induction n generalizing a b with
  | zero =>
    obtain rfl : a = b := h.num_inj ha hb (by omega : prpo.idxOf a = prpo.idxOf b)
    exact ⟨a, by rw [intersectPost, if_pos rfl], ha, fun x ↦ and_self_iff.symm⟩
  | succ n ih =>
    rw [intersectPost]
    by_cases hab : a = b
    · subst hab
      exact ⟨a, if_pos rfl, ha, fun x ↦ and_self_iff.symm⟩
    rw [if_neg hab]
    obtain ⟨a', ha', hasome, hale, haor, haup⟩ := climbPast_spec h hmem ha hb (hfuel ha)
    obtain ⟨b', hb', hbsome, hble, hbor, hbup⟩ := climbPast_spec h hmem hb hasome (hfuel hb)
    -- Vertices with different numbers: one of the two loops takes a step.
    have hless : prpo.idxOf a' + prpo.idxOf b' ≤ n := by
      have hne : prpo.idxOf a ≠ prpo.idxOf b := fun heq ↦ hab (h.num_inj ha hb heq)
      have hle : prpo.idxOf a' ≤ prpo.idxOf a := haor.elim (fun h ↦ h ▸ le_rfl) le_of_lt
      have hle' : prpo.idxOf b' ≤ prpo.idxOf b := hbor.elim (fun h ↦ h ▸ le_rfl) le_of_lt
      rcases haor with rfl | hlt
      · rcases hbor with rfl | hlt
        · omega
        · omega
      · omega
    obtain ⟨c, hc, hcsome, hup⟩ := ih hasome hbsome hless
    rw [ha']
    dsimp only
    rw [hb']
    dsimp only
    rw [if_neg (by simp [hmem hasome, hmem hbsome])]
    refine ⟨c, hc, hcsome, fun x ↦ ?_⟩
    rw [hup, and_comm, hbup, and_comm, haup]

/-- So it meets where the climb that always takes the later vertex does. -/
theorem intersectPost_eq_climb (hsize : prpo.length ≤ g.length + 1) {n fuel : ℕ}
    (ha : (parent pdom a).isSome) (hb : (parent pdom b).isSome)
    (hn : prpo.idxOf a + prpo.idxOf b ≤ n) (hfuel : prpo.idxOf a + prpo.idxOf b ≤ fuel) :
    intersectPost g prpo pdom n a b = climb (fun x ↦ prpo.idxOf x) (parent pdom) fuel a b := by
  obtain ⟨c, hc, hcsome, hup⟩ := intersectPost_spec h hmem hsize ha hb hn
  obtain ⟨c', hc', hup'⟩ := h.climb_spec ha hb hfuel
  rw [hc, hc']
  have hcc' : Up (parent pdom) c c' := (hup c').2 ((hup' c').1 .refl)
  have hc'c : Up (parent pdom) c' c := (hup' c).2 ((hup c).1 .refl)
  rw [h.up_antisymm hcsome hcc' hc'c]

end Intersect

/-! ### The tables of the pass -/

section Tables

variable {g : List Block} (hlinked : Linked g)

theorem postdomRpo_spec (hlinked : Linked g) :
    (postdomRpo g).Nodup ∧ (∀ v, v ∈ postdomRpo g ↔ (exitGraph g).Reach v) ∧
      Postorder.Parented (rsucc g) g.length (postdomRpo g) := by
  refine Postorder.loop_spec (fun v hv ↦ ?_) le_rfl
  rw [Finset.mem_range]
  cases hv with
  | refl => exact Nat.lt_succ_self _
  | tail _ hadj => exact (lt_of_mem_rsucc hlinked hadj).trans (Nat.lt_succ_self _)

theorem lt_of_mem_postdomRpo (hlinked : Linked g) {v : ℕ} (hv : v ∈ postdomRpo g) :
    v < g.length + 1 := by
  cases ((postdomRpo_spec hlinked).2.1 v).1 hv with
  | refl => exact Nat.lt_succ_self _
  | tail _ hadj => exact (lt_of_mem_rsucc hlinked hadj).trans (Nat.lt_succ_self _)

theorem length_postdomRpo_le (hlinked : Linked g) : (postdomRpo g).length ≤ g.length + 1 := by
  have hsub : postdomRpo g ⊆ List.range (g.length + 1) := fun v hv ↦
    List.mem_range.2 (lt_of_mem_postdomRpo hlinked hv)
  simpa using ((postdomRpo_spec hlinked).1.subperm hsub).length_le

/-- The numbering of the virtual exit and the blocks that reach it. -/
def exitNumbering : Numbering (exitGraph g) where
  preds v := if v < g.length ∧ succOf g v = [] then [g.length] else succOf g v
  mem_preds {u v} := by
    change _ ↔ v ∈ rsucc g u
    by_cases hu : u = g.length
    · subst hu
      rw [mem_rsucc_exit]
      split
      · next hexit => simp [hexit]
      · next hexit =>
        refine ⟨fun h ↦ absurd (hlinked.succ_lt h) (lt_irrefl _), fun h ↦ absurd h hexit⟩
    · rw [mem_rsucc hlinked hu]
      split
      · next hexit => simp [hexit, hu]
      · exact Iff.rfl
  order := postdomRpo g
  nodup := (postdomRpo_spec hlinked).1
  mem_order := (postdomRpo_spec hlinked).2.1 _
  exists_pred := (postdomRpo_spec hlinked).2.2.exists_idxOf_lt (postdomRpo_spec hlinked).1

/-- One successor: what is intersected is in the tree, so it is the step of the meet. -/
theorem newPdomStep_eq {pdom : List (Option ℕ)}
    (hsound : (exitNumbering hlinked).Sound (parent pdom)) {ni : Option ℕ} {s : ℕ}
    (hni : ∀ q ∈ ni, (parent pdom q).isSome) :
    newPdomStep g (postdomRpo g) pdom ni s =
      meetStep (exitNumbering hlinked).num (parent pdom) (2 * (g.length + 1)) ni s := by
  have hmem {u : ℕ} (hu : (parent pdom u).isSome) : u ∈ postdomRpo g := hsound.mem_order hu
  have hiff : (s ∉ postdomRpo g ∨ pdom[s]?.join = none) ↔ (parent pdom s).isNone := by
    rw [Option.isNone_iff_eq_none]
    refine ⟨fun h ↦ h.elim (fun hs ↦ ?_) id, .inr⟩
    by_contra hne
    exact hs (hmem (Option.isSome_iff_ne_none.2 hne))
  unfold newPdomStep meetStep
  by_cases hs : (parent pdom s).isNone
  · rw [if_pos (hiff.2 hs), if_pos hs]
  rw [if_neg fun h ↦ hs (hiff.1 h), if_neg hs]
  cases ni with
  | none => rfl
  | some q =>
    have hsize := length_postdomRpo_le hlinked
    have hnum {u : ℕ} (hu : (parent pdom u).isSome) : (postdomRpo g).idxOf u ≤ g.length := by
      have := List.idxOf_lt_length_iff.2 (hmem hu)
      omega
    have hsome : (parent pdom s).isSome := Option.isSome_iff_ne_none.2 (by simpa using hs)
    have hsn := hnum hsome
    have hqn := hnum (hni q rfl)
    have hle : (postdomRpo g).idxOf s + (postdomRpo g).idxOf q ≤ 2 * (g.length + 1) := by omega
    exact congrArg (Option.map some) (intersectPost_eq_climb hsound.tree hmem hsize hsome
      (hni q rfl) (hle.trans (by omega)) hle)

/-- The new immediate post-dominators are the meets of the numbering. -/
theorem computes_newPdom :
    Computes (exitNumbering hlinked) (newPdom g (postdomRpo g)) (g.length + 1)
      (2 * (g.length + 1)) where
  fuel_le := Nat.mul_le_mul_left 2 (length_postdomRpo_le hlinked)
  lt_size hv := lt_of_mem_postdomRpo hlinked hv
  new_eq {pdom v} _ hsound hv hne := by
    have hlt : v < g.length :=
      lt_of_le_of_ne (Nat.lt_succ_iff.1 (lt_of_mem_postdomRpo hlinked hv)) hne
    have hfuel : ∀ u w, (parent pdom u).isSome → (parent pdom w).isSome →
        (exitNumbering hlinked).num u + (exitNumbering hlinked).num w ≤ 2 * (g.length + 1) := by
      intro u w hu hw
      have hu := Numbering.num_lt (hsound.mem_order hu)
      have hw := Numbering.num_lt (hsound.mem_order hw)
      have hle : (exitNumbering hlinked).order.length ≤ g.length + 1 :=
        length_postdomRpo_le hlinked
      omega
    have hfold (l : List ℕ) : ∀ ni : Option ℕ, (∀ q ∈ ni, (parent pdom q).isSome) →
        l.foldlM (newPdomStep g (postdomRpo g) pdom) ni =
          l.foldlM (meetStep (exitNumbering hlinked).num (parent pdom) (2 * (g.length + 1)))
            ni := by
      induction l with
      | nil => exact fun ni _ ↦ rfl
      | cons s l ih =>
        intro ni hni
        obtain ⟨r, hr, hrsome, -, -⟩ := hsound.tree.meetStep_spec hfuel hni (p := s)
        rw [List.foldlM_cons, List.foldlM_cons, newPdomStep_eq hlinked hsound hni, hr]
        exact ih r hrsome
    rw [newPdom, meet]
    change _ = (if v < g.length ∧ succOf g v = [] then [g.length] else succOf g v).foldlM _ _
    by_cases hexit : succOf g v = []
    · have hroot : parent pdom g.length = some g.length := hsound.tree.root_eq
      rw [if_pos (⟨hlt, hexit⟩ : v < g.length ∧ succOf g v = []), List.foldlM_cons, hexit]
      unfold meetStep
      rw [hroot]
      rfl
    · rw [if_neg (fun h ↦ hexit h.2 : ¬(v < g.length ∧ succOf g v = [])),
        if_neg (by simpa using hexit)]
      exact hfold _ _ (by simp)

include hlinked in
/-- The pass ends, with a table of at least as many sweeps as there are vertices. -/
theorem computePostdom_eq :
    ∃ pdom k, computePostdom g = some ((List.range g.length).map fun i ↦
        if pdom[i]?.join = some g.length then none else pdom[i]?.join) ∧
      (exitNumbering hlinked).order.length ≤ k ∧
      parent pdom = (exitNumbering hlinked).tables (2 * (g.length + 1)) k := by
  have hinit : parent ((List.replicate (g.length + 1) none).set g.length (some g.length)) =
      Numbering.init (exitGraph g) := by
    rw [parent_set (by simp), parent_replicate]
    rfl
  have hle : (exitNumbering hlinked).order.length ≤ g.length + 1 := length_postdomRpo_le hlinked
  obtain ⟨pdom, k, hsweeps, -, -, hk, htable⟩ :=
    (computes_newPdom hlinked).sweeps_spec (by simp) hinit
      (by omega : (exitNumbering hlinked).order.length < g.length + 8)
  refine ⟨pdom, k, ?_, hk, htable⟩
  rw [computePostdom]
  split
  · next hempty => rw [List.isEmpty_iff.1 hempty]; rfl
  · exact congrArg (Option.map _) hsweeps

end Tables

/-! ### Post-dominators are exact -/

section Exact

variable {g : List Block} {u d d' : ℕ} (hlinked : Linked g)
include hlinked

/-- A block has at most one immediate post-dominator. -/
theorem IsIpdom.unique (hu : ReachesExit g u) (h : IsIpdom g u d) (h' : IsIpdom g u d') :
    d = d' := by
  have hd := (hu.lt_of_postDom hlinked h.postDom).ne
  have hd' := (hu.lt_of_postDom hlinked h'.postDom).ne
  have hreach : (exitGraph g).Reach d :=
    ((dom_exitGraph hlinked hd hu.lt.ne).2 h.postDom).reach
      ((reach_exitGraph hlinked hu.lt.ne).2 hu)
  exact Flowgraph.Dom.antisymm hreach
    ((dom_exitGraph hlinked hd hd').2 (h'.nearest d h.ne h.postDom))
    ((dom_exitGraph hlinked hd' hd).2 (h.nearest d' h'.ne h'.postDom))

/-- The closest strict dominator of a block backwards, if it is a block. -/
theorem isIpdom_of_closest (hu : ReachesExit g u) (hd : d ≠ g.length) (hne : d ≠ u)
    (hdom : (exitGraph g).Dom d u)
    (hclosest : ∀ x, x ≠ u → (exitGraph g).Dom x u → (exitGraph g).Dom x d) : IsIpdom g u d where
  ne := hne
  postDom := (dom_exitGraph hlinked hd hu.lt.ne).1 hdom
  nearest x hx hpost := by
    have hxn := (hu.lt_of_postDom hlinked hpost).ne
    exact (dom_exitGraph hlinked hxn hd).1
      (hclosest x hx ((dom_exitGraph hlinked hxn hu.lt.ne).2 hpost))

/-- If it is the virtual exit, nothing else is on every path. -/
theorem not_postDom_of_closest (hu : ReachesExit g u)
    (hclosest : ∀ x, x ≠ u → (exitGraph g).Dom x u → (exitGraph g).Dom x g.length) (hne : d ≠ u) :
    ¬PostDom g d u := by
  intro hpost
  have hd := (hu.lt_of_postDom hlinked hpost).ne
  exact hd (Flowgraph.eq_entry_of_dom_entry
    (hclosest d hne ((dom_exitGraph hlinked hd hu.lt.ne).2 hpost)))

end Exact

/-- **Post-dominators are exact.** When the predecessor lists are the inverse of the successor
lists, every loop of the pass ends, and a block that reaches a block without successors has its
immediate post-dominator, or none exactly if no other block is on all of those paths. -/
theorem computePostdom_exact (g : List Block) (hlinked : Linked g) :
    ∃ ipdom, computePostdom g = some ipdom ∧ ipdom.length = g.length ∧
      ∀ u, ReachesExit g u →
        (∀ d, ipdom[u]?.join = some d ↔ IsIpdom g u d) ∧
        (ipdom[u]?.join = none ↔ ∀ d, d ≠ u → ¬PostDom g d u) := by
  obtain ⟨pdom, k, heq, hk, htable⟩ := computePostdom_eq hlinked
  refine ⟨_, heq, by simp, fun u hu ↦ ?_⟩
  have hentry : u ≠ (exitGraph g).entry := hu.lt.ne
  have hfuel := (computes_newPdom hlinked).fuel_le
  obtain ⟨e, he⟩ := Option.isSome_iff_exists.1
    ((Numbering.isSome_tables_iff hfuel hk).2 ((reach_exitGraph hlinked hentry).2 hu))
  obtain ⟨hne, hdom, hclosest⟩ := Numbering.tables_closest hfuel hk hentry he
  have hpdom : pdom[u]?.join = some e := (congrFun htable u).trans he
  rw [List.getElem?_map, List.getElem?_range hu.lt, Option.map_some, Option.join_some, hpdom]
  by_cases hexit : e = g.length
  · subst hexit
    have hnot {d : ℕ} (hd : d ≠ u) : ¬PostDom g d u :=
      not_postDom_of_closest hlinked hu hclosest hd
    rw [if_pos rfl]
    exact ⟨fun d ↦ ⟨nofun, fun h ↦ absurd h.postDom (hnot h.ne)⟩, fun _ d hd ↦ hnot hd, fun _ ↦ rfl⟩
  · have hipdom := isIpdom_of_closest hlinked hu hexit hne hdom hclosest
    rw [if_neg fun h ↦ hexit (Option.some.inj h)]
    refine ⟨fun d ↦ ⟨fun h ↦ Option.some.inj h ▸ hipdom, fun h ↦ ?_⟩, nofun,
      fun h ↦ absurd hipdom.postDom (h e hne)⟩
    rw [hipdom.unique hlinked hu h]

/-- A diamond with two exits behind its join, next to a loop without an exit. -/
def twoExits : List Block :=
  [{ succ := [1, 2] }, { succ := [3], pred := [0] }, { succ := [3], pred := [0] },
    { succ := [4, 5], pred := [1, 2] }, { pred := [3] }, { succ := [], pred := [3] },
    { succ := [6], pred := [6] }]

theorem computePostdom_exact_twoExits :
    ∃ ipdom, computePostdom twoExits = some ipdom ∧ ipdom.length = twoExits.length ∧
      ∀ u, ReachesExit twoExits u →
        (∀ d, ipdom[u]?.join = some d ↔ IsIpdom twoExits u d) ∧
        (ipdom[u]?.join = none ↔ ∀ d, d ≠ u → ¬PostDom twoExits d u) :=
  computePostdom_exact twoExits (.of_forall (by decide) (by decide))

example : computePostdom twoExits = some [some 3, some 3, some 3, none, none, none, none] := by
  decide +kernel

end Ldu
