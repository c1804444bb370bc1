import Ldu.Cfg.NaturalLoops
import Ldu.Graph.IdomTables
import Ldu.Graph.Postorder

/-!
# Immediate dominators are exact

`computeDominators` numbers the blocks in reverse postorder and sweeps over them until nothing
changes, at most `n + 4` times. When the predecessor lists are the inverse of the successor lists,
every climb of `intersect` ends, a sweep changes nothing before the cap is reached, and `dominates`
holds exactly of dominance (`computeDominators_exact`).

To tell a climb that ends from one that does not, the sweeps are defined a second time with a
climb that may have no result.
-/

namespace Ldu

open Idom (Computes Numbering climb meet parent parent_replicate parent_set
  sweepStep sweepTable sweepTables)

/-- The edges of the successor lists, entered at `start`. -/
def blockGraph (g : List Block) (start : ℕ) : Flowgraph ℕ where
  entry := start
  Adj u v := v ∈ succOf g u

/-- The successors are blocks, and the predecessor lists are the inverse of the successor lists. -/
structure Linked (g : List Block) : Prop where
  succ_lt : ∀ {u v}, v ∈ succOf g u → v < g.length
  mem_pred : ∀ {u v}, u ∈ predOf g v ↔ v ∈ succOf g u

theorem Linked.of_forall {g : List Block}
    (hsucc : ∀ u < g.length, ∀ v ∈ succOf g u, v < g.length ∧ u ∈ predOf g v)
    (hpred : ∀ v < g.length, ∀ u ∈ predOf g v, v ∈ succOf g u) : Linked g := by
  have hnil {u : ℕ} (hu : ¬u < g.length) : succOf g u = [] ∧ predOf g u = [] := by
    rw [succOf, predOf, List.getElem?_eq_none (not_lt.1 hu)]
    exact ⟨rfl, rfl⟩
  have hsucc' {u v : ℕ} (h : v ∈ succOf g u) : v < g.length ∧ u ∈ predOf g v := by
    by_cases hu : u < g.length
    · exact hsucc u hu v h
    · rw [(hnil hu).1] at h
      cases h
  refine ⟨fun h ↦ (hsucc' h).1, fun {u v} ↦ ⟨fun h ↦ ?_, fun h ↦ (hsucc' h).2⟩⟩
  by_cases hv : v < g.length
  · exact hpred v hv u h
  · rw [(hnil hv).2] at h
    cases h

/-! ### Sweeps that may not end -/

section Sweeps

variable (g : List Block) (start : ℕ) (rpo : List ℕ)

/-- `newIdom`, without a result if a climb does not end within `fuel` steps or comes to a block
that has no parent. -/
def newIdom? (fuel : ℕ) (idom : List (Option ℕ)) (b : ℕ) : Option (Option ℕ) :=
  (predOf g b).foldlM (fun ni p ↦
    if p ∉ rpo ∨ idom[p]?.join = none then some ni
    else
      match ni with
      | none => some (some p)
      | some q => (climb (fun x ↦ rpo.idxOf x) (parent idom) fuel p q).map some) none

/-- The whole pass, without a result if a climb does not end, and whether the last sweep still
changed something. -/
def dominatorPass? : Option (List (Option ℕ) × Bool) :=
  sweepTables (newIdom? g (computeRpo g start) (2 * g.length + 2)) start (computeRpo g start)
    (g.length + 4) ((List.replicate g.length none).set start (some start))

end Sweeps

/-! ### The sweeps that end are those of the source -/

section Agree

variable {g : List Block} {start : ℕ} {rpo : List ℕ}

theorem intersect_of_climb {num : ℕ → ℕ} {idom : List (Option ℕ)} {fuel a b c : ℕ}
    (h : climb num (parent idom) fuel a b = some c) : intersect num idom fuel a b = c := by
  induction fuel generalizing a b with
  | zero =>
    rw [climb] at h
    split at h
    · exact Option.some.inj h
    · cases h
  | succ n ih =>
    rw [climb] at h
    rw [intersect]
    split at h
    · next hab => rw [if_pos hab, Option.some.inj h]
    next hab =>
    rw [if_neg hab]
    split at h
    · next hlt =>
      obtain ⟨d, hd, hclimb⟩ := Option.bind_eq_some_iff.1 h
      rw [parent] at hd
      rw [if_pos hlt, hd]
      exact ih hclimb
    · next hlt =>
      rw [if_neg hlt]
      split at h
      · obtain ⟨d, hd, hclimb⟩ := Option.bind_eq_some_iff.1 h
        rw [parent] at hd
        rw [hd]
        exact ih hclimb
      · cases h

/-- A fold whose steps have results is the fold over them. -/
theorem foldl_eq_of_foldlM {α β : Type*} {f? : β → α → Option β} {f : β → α → β}
    (hf : ∀ s a s', f? s a = some s' → f s a = s') {l : List α} {s r : β}
    (h : l.foldlM f? s = some r) : l.foldl f s = r := by
  induction l generalizing s with
  | nil => exact Option.some.inj h
  | cons a l ih =>
    rw [List.foldlM_cons] at h
    obtain ⟨s', hs', hrest⟩ := Option.bind_eq_some_iff.1 h
    rw [List.foldl_cons, hf s a s' hs']
    exact ih hrest

theorem newIdom_of_newIdom? {idom : List (Option ℕ)} {b : ℕ} {r : Option ℕ}
    (h : newIdom? g rpo (2 * g.length + 2) idom b = some r) : newIdom g rpo idom b = r := by
  refine foldl_eq_of_foldlM (fun ni p ni' hstep ↦ ?_) h
  split at hstep
  · next hskip => rw [if_pos hskip, Option.some.inj hstep]
  · next hskip =>
    rw [if_neg hskip]
    cases ni with
    | none => exact Option.some.inj hstep
    | some q =>
      obtain ⟨c, hc, rfl⟩ := Option.map_eq_some_iff.1 hstep
      exact congrArg some (intersect_of_climb hc)

theorem idomSweep_of_sweep {idom : List (Option ℕ)} {r : List (Option ℕ) × Bool}
    (h : sweepTable (newIdom? g rpo (2 * g.length + 2)) start rpo idom = some r) :
    idomSweep g start rpo idom = r := by
  refine foldl_eq_of_foldlM (fun st b st' hstep ↦ ?_) h
  obtain ⟨idom, changed⟩ := st
  rw [sweepStep] at hstep
  dsimp only
  split at hstep
  · next hb => rw [if_pos hb, Option.some.inj hstep]
  · next hb =>
    obtain ⟨d, hd, hst⟩ := Option.map_eq_some_iff.1 hstep
    rw [if_neg hb, newIdom_of_newIdom? hd]
    exact hst

theorem idomSweeps_of_sweeps {n : ℕ} {idom r : List (Option ℕ)} {c : Bool}
    (h : sweepTables (newIdom? g rpo (2 * g.length + 2)) start rpo n idom = some (r, c)) :
    idomSweeps g start rpo n idom = r := by
  induction n generalizing idom with
  | zero => exact (Prod.ext_iff.1 (Option.some.inj h)).1
  | succ n ih =>
    rw [sweepTables] at h
    rw [idomSweeps]
    split at h
    · next heq =>
      rw [idomSweep_of_sweep heq]
      exact ih h
    · next heq =>
      rw [idomSweep_of_sweep heq]
      exact (Prod.ext_iff.1 (Option.some.inj h)).1
    · cases h

end Agree

/-! ### The order of the blocks -/

section Order

variable {g : List Block} {start : ℕ}

theorem rpoLoop_eq (g : List Block) (fuel : ℕ) (stk : List (ℕ × List ℕ)) (vis : Finset ℕ)
    (post : List ℕ) :
    rpoLoop g fuel stk vis post = Postorder.loop (succOf g) fuel stk vis post := by
  induction fuel generalizing stk vis post with
  | zero => rfl
  | succ n ih =>
    match stk with
    | [] => rfl
    | (u, []) :: stk => exact ih _ _ _
    | (u, v :: vs) :: stk =>
      rw [rpoLoop, Postorder.loop]
      split
      · exact ih _ _ _
      · exact ih _ _ _

theorem sum_succ (g : List Block) :
    ∑ w ∈ Finset.range g.length, ((succOf g w).length + 1) =
      (g.map fun b ↦ b.succ.length + 1).sum := by
  have hmap : (List.range g.length).map (fun w ↦ (succOf g w).length + 1) =
      g.map fun b ↦ b.succ.length + 1 := by
    refine List.ext_getElem (by simp) fun w hw hw' ↦ ?_
    rw [List.length_map] at hw'
    rw [List.getElem_map, List.getElem_map, List.getElem_range, succOf,
      List.getElem?_eq_getElem hw']
  rw [← hmap]
  rfl

theorem lt_of_reach (hlinked : Linked g) (hstart : start < g.length) {v : ℕ}
    (hv : (blockGraph g start).Reach v) : v < g.length := by
  cases hv with
  | refl => exact hstart
  | tail _ hadj => exact hlinked.succ_lt hadj

/-- The reverse postorder lists the blocks in reach, each but the entry behind a predecessor. -/
theorem computeRpo_spec (hlinked : Linked g) (hstart : start < g.length) :
    (computeRpo g start).Nodup ∧
      (∀ v, v ∈ computeRpo g start ↔ (blockGraph g start).Reach v) ∧
      Postorder.Parented (succOf g) start (computeRpo g start) := by
  have hne : g.isEmpty = false := by
    cases g with
    | nil => exact absurd hstart (Nat.not_lt_zero _)
    | cons => rfl
  rw [computeRpo, hne, rpoLoop_eq]
  exact Postorder.loop_spec (fun v hv ↦ Finset.mem_range.2 (lt_of_reach hlinked hstart hv))
    ((sum_succ g).le.trans (Nat.le_succ _))

theorem length_computeRpo_le (hlinked : Linked g) (hstart : start < g.length) :
    (computeRpo g start).length ≤ g.length := by
  have hsub : computeRpo g start ⊆ List.range g.length := fun v hv ↦ List.mem_range.2
    (lt_of_reach hlinked hstart (((computeRpo_spec hlinked hstart).2.1 v).1 hv))
  simpa using ((computeRpo_spec hlinked hstart).1.subperm hsub).length_le

/-- The numbering of the blocks. -/
def blockNumbering (hlinked : Linked g) (hstart : start < g.length) :
    Numbering (blockGraph g start) where
  preds := predOf g
  mem_preds := hlinked.mem_pred
  order := computeRpo g start
  nodup := (computeRpo_spec hlinked hstart).1
  mem_order := (computeRpo_spec hlinked hstart).2.1 _
  exists_pred :=
    (computeRpo_spec hlinked hstart).2.2.exists_idxOf_lt (computeRpo_spec hlinked hstart).1

end Order

/-! ### Dominators are exact -/

section Exact

variable {g : List Block} {start : ℕ} (hlinked : Linked g) (hstart : start < g.length)

/-- The meet of the predecessors is that of the numbering. -/
theorem computes_newIdom? :
    Computes (blockNumbering hlinked hstart)
      (newIdom? g (computeRpo g start) (2 * g.length + 2)) g.length (2 * g.length + 2) where
  fuel_le := by
    have hle := length_computeRpo_le hlinked hstart
    exact (by omega : 2 * (computeRpo g start).length ≤ 2 * g.length + 2)
  lt_size hv := lt_of_reach hlinked hstart ((blockNumbering hlinked hstart).mem_order.1 hv)
  new_eq {idom v} _ hsound _ _ := by
    rw [newIdom?, meet]
    congr 1
    funext ni p
    have hiff : (p ∉ computeRpo g start ∨ idom[p]?.join = none) ↔ (parent idom p).isNone := by
      rw [Option.isNone_iff_eq_none]
      refine ⟨fun h ↦ h.elim (fun hp ↦ ?_) id, .inr⟩
      by_contra hne
      exact hp (hsound.mem_order (Option.isSome_iff_ne_none.2 hne))
    refine if_congr hiff rfl ?_
    cases ni <;> rfl

include hlinked hstart in
/-- The pass ends, with a table that a sweep leaves as it is. -/
theorem dominatorPass?_spec :
    ∃ idom k, dominatorPass? g start = some (idom, false) ∧
      sweepTable (newIdom? g (computeRpo g start) (2 * g.length + 2)) start (computeRpo g start)
        idom = some (idom, false) ∧
      (computeRpo g start).length ≤ k ∧
      parent idom = (blockNumbering hlinked hstart).tables (2 * g.length + 2) k := by
  have hle := length_computeRpo_le hlinked hstart
  have hinit : parent ((List.replicate g.length none).set start (some start)) =
      Numbering.init (blockGraph g start) := by
    rw [parent_set (by simpa using hstart), parent_replicate]
    rfl
  obtain ⟨idom, k, hsweeps, hfixed, -, hk, htable⟩ :=
    (computes_newIdom? hlinked hstart).sweeps_spec (by simp) hinit
      (by omega : (computeRpo g start).length < g.length + 4)
  exact ⟨idom, k, hsweeps, hfixed, hk, htable⟩

include hlinked hstart in
/-- The immediate dominators are those of the graph of the successor lists. -/
theorem correctIdom_computeDominators :
    CorrectIdom (blockGraph g start) (computeDominators g start) := by
  obtain ⟨idom, k, hpass, -, hk, htable⟩ := dominatorPass?_spec hlinked hstart
  have hfuel := (computes_newIdom? hlinked hstart).fuel_le
  have hidom (v : ℕ) : idom[v]?.join =
      (blockNumbering hlinked hstart).tables (2 * g.length + 2) k v := congrFun htable v
  rw [computeDominators, idomSweeps_of_sweeps hpass]
  refine ⟨fun d hd ↦ ?_, fun v d hv hd ↦ ?_, fun v _ ↦ ?_⟩
  · rw [hidom, (Numbering.sound_tables hfuel k).tree.root_eq] at hd
    exact (Option.some.inj hd).symm
  · rw [hidom] at hd
    exact Numbering.tables_closest hfuel hk hv hd
  · rw [hidom, ← Option.isSome_iff_exists, Numbering.isSome_tables_iff hfuel hk]

end Exact

/-- **Dominators are exact.** When the predecessor lists are the inverse of the successor lists, the
pass ends before its cap with a table that a further sweep leaves as it is, and a block in reach is
dominated, by the climb of `dominates`, exactly by the blocks on every path to it. -/
theorem computeDominators_exact (g : List Block) (start : ℕ) (hlinked : Linked g)
    (hstart : start < g.length) :
    dominatorPass? g start = some (computeDominators g start, false) ∧
      idomSweep g start (computeRpo g start) (computeDominators g start) =
        (computeDominators g start, false) ∧
      ∀ a b, (blockGraph g start).Reach b →
        (dominates (computeDominators g start) a b = true ↔ (blockGraph g start).Dom a b) := by
  obtain ⟨idom, k, hpass, hfixed, -, -⟩ := dominatorPass?_spec hlinked hstart
  have heq : computeDominators g start = idom := idomSweeps_of_sweeps hpass
  have hcorrect := correctIdom_computeDominators hlinked hstart
  refine ⟨heq ▸ hpass, heq ▸ idomSweep_of_sweep hfixed, fun a b hb ↦ ?_⟩
  exact ⟨dom_of_dominates hcorrect, dominates_of_dom hcorrect hb⟩

/-- A cycle that is entered at both of its blocks, and a block out of reach that leads into it. -/
def twoEntries : List Block :=
  [{ succ := [1, 2] }, { succ := [2], pred := [0, 2] }, { succ := [1], pred := [0, 1, 3] },
    { succ := [2] }]

theorem computeDominators_exact_twoEntries :
    dominatorPass? twoEntries 0 = some (computeDominators twoEntries 0, false) ∧
      idomSweep twoEntries 0 (computeRpo twoEntries 0) (computeDominators twoEntries 0) =
        (computeDominators twoEntries 0, false) ∧
      ∀ a b, (blockGraph twoEntries 0).Reach b →
        (dominates (computeDominators twoEntries 0) a b = true ↔
          (blockGraph twoEntries 0).Dom a b) :=
  computeDominators_exact twoEntries 0 (.of_forall (by decide) (by decide)) (by decide)

end Ldu
