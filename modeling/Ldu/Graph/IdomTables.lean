import Ldu.Graph.Idom

/-!
# Immediate dominators in lists

The passes of `Idom` over tables that are lists, with a flag that says whether a sweep changed
something: sweeps are repeated until one changes nothing, at most a given number of times. With more
sweeps allowed than there are vertices, the last one changes nothing (`sweeps_spec`).
-/

namespace Idom

/-- The table as a function. -/
def parent (t : List (Option ℕ)) (v : ℕ) : Option ℕ :=
  t[v]?.join

theorem parent_set {t : List (Option ℕ)} {v : ℕ} (hv : v < t.length) (d : ℕ) :
    parent (t.set v (some d)) = Function.update (parent t) v (some d) := by
  funext u
  rw [parent, List.getElem?_set]
  by_cases hu : v = u
  · subst hu
    rw [if_pos rfl, if_pos hv, Function.update_self]
    rfl
  · rw [if_neg hu, Function.update_of_ne (Ne.symm hu)]
    rfl

theorem parent_replicate (n : ℕ) : parent (List.replicate n none) = fun _ ↦ none := by
  funext v
  rw [parent, List.getElem?_replicate]
  split <;> rfl

theorem eq_of_parent_eq {t t' : List (Option ℕ)} (hlen : t'.length = t.length)
    (h : parent t' = parent t) : t' = t := by
  refine List.ext_getElem hlen fun v hv hv' ↦ ?_
  have hval := congrFun h v
  rwa [parent, parent, List.getElem?_eq_getElem hv, List.getElem?_eq_getElem hv'] at hval

/-! ### Sweeps -/

section Sweeps

variable (new : List (Option ℕ) → ℕ → Option (Option ℕ)) (root : ℕ) (order : List ℕ)

/-- Give a vertex its new parent, and remember whether that is another one. -/
def sweepStep : List (Option ℕ) × Bool → ℕ → Option (List (Option ℕ) × Bool)
  | (t, changed), v =>
    if v = root then some (t, changed)
    else
      (new t v).map fun
        | some d => if t[v]?.join = some d then (t, changed) else (t.set v (some d), true)
        | none => (t, changed)

def sweepTable (t : List (Option ℕ)) : Option (List (Option ℕ) × Bool) :=
  order.foldlM (sweepStep new root) (t, false)

/-- Sweeps until one changes nothing, at most `n`, and whether the last one still changed
something. -/
def sweepTables : ℕ → List (Option ℕ) → Option (List (Option ℕ) × Bool)
  | 0, t => some (t, true)
  | n + 1, t =>
    match sweepTable new root order t with
    | some (t', true) => sweepTables n t'
    | some (t', false) => some (t', false)
    | none => none

end Sweeps

section Spec

variable {G : Flowgraph ℕ} {N : Numbering G} {new : List (Option ℕ) → ℕ → Option (Option ℕ)}
  {size fuel : ℕ}

variable (N new size fuel) in
/-- The new parents are the meets of the predecessors, in tables with the invariant that have a
place for each vertex. -/
structure Computes : Prop where
  fuel_le : 2 * N.order.length ≤ fuel
  lt_size : ∀ {v}, v ∈ N.order → v < size
  new_eq : ∀ {t v}, t.length = size → N.Sound (parent t) → v ∈ N.order → v ≠ G.entry →
    new t v = meet N.num (parent t) fuel (N.preds v)

namespace Computes

variable (h : Computes N new size fuel) {t : List (Option ℕ)}
include h

/-- One vertex: the table either stays as it is or changes at the vertex. -/
theorem sweepStep_spec {v : ℕ} (c : Bool) (hlen : t.length = size) (hv : v ∈ N.order)
    (hsound : N.Sound (parent t)) {m : ℕ → Option ℕ}
    (hm : N.process fuel (parent t) v = some m) :
    ∃ t' c', sweepStep new G.entry (t, c) v = some (t', c') ∧ t'.length = size ∧ parent t' = m ∧
      (t' = t ∧ c' = c ∨ c' = true ∧ parent t' v ≠ parent t v) := by
  unfold Numbering.process at hm
  unfold sweepStep
  dsimp only
  split at hm
  · next hentry => exact ⟨t, c, if_pos hentry, hlen, Option.some.inj hm, .inl ⟨rfl, rfl⟩⟩
  next hentry =>
  obtain ⟨r, hr, hmr⟩ := Option.map_eq_some_iff.1 hm
  rw [if_neg hentry, h.new_eq hlen hsound hv hentry, hr, Option.map_some]
  cases r with
  | none => exact ⟨t, c, rfl, hlen, hmr, .inl ⟨rfl, rfl⟩⟩
  | some d =>
    dsimp only at hmr ⊢
    split
    · next heq =>
      refine ⟨t, c, rfl, hlen, ?_, .inl ⟨rfl, rfl⟩⟩
      rw [← hmr, eq_comm, Function.update_eq_self_iff]
      exact heq.symm
    · next hne =>
      have hset := parent_set (hlen.symm ▸ h.lt_size hv : v < t.length) d
      refine ⟨t.set v (some d), true, rfl, by simpa using hlen, hset.trans hmr, .inr ⟨rfl, ?_⟩⟩
      rw [hset, Function.update_self]
      exact fun h ↦ hne h.symm

/-- A sweep over the first vertices of the order does what processing them does, and says whether
it changes something. -/
theorem foldlM_sweepStep (hlen : t.length = size) (hsound : N.Sound (parent t)) {l : List ℕ}
    (hl : l <+: N.order) :
    ∃ t' c, l.foldlM (sweepStep new G.entry) (t, false) = some (t', c) ∧ t'.length = size ∧
      l.foldlM (N.process fuel) (parent t) = some (parent t') ∧ (c = false → t' = t) ∧
      (c = true → parent t' ≠ parent t) := by
  induction l using List.reverseRecOn with
  | nil => exact ⟨t, false, rfl, hlen, rfl, fun _ ↦ rfl, by simp⟩
  | append_singleton l v ih =>
    have hl' : l <+: N.order := (List.prefix_append l [v]).trans hl
    obtain ⟨t', c, hfold, hlen', hprocess, hfalse, htrue⟩ := ih hl'
    obtain ⟨m, hm, hsound', -⟩ := hsound.foldlM h.fuel_le hl'
    obtain rfl := Option.some.inj (hprocess.symm.trans hm)
    obtain ⟨m', hm', -, -⟩ := hsound.foldlM h.fuel_le hl
    rw [List.foldlM_append, hprocess, Option.bind_eq_bind, Option.bind_some, List.foldlM_cons]
      at hm'
    obtain ⟨m', hm', -⟩ := Option.bind_eq_some_iff.1 hm'
    have hvl : v ∉ l := by
      have hnodup := N.nodup.sublist hl.sublist
      rw [List.nodup_append] at hnodup
      exact fun hvl ↦ hnodup.2.2 v hvl v (List.mem_singleton_self v) rfl
    obtain ⟨t'', c', hstep, hlen'', hparent, hchange⟩ :=
      h.sweepStep_spec c hlen' (hl.subset (by simp)) hsound' hm'
    refine ⟨t'', c', ?_, hlen'', ?_, fun hc ↦ ?_, fun hc heq ↦ ?_⟩
    · rw [List.foldlM_append, hfold, Option.bind_eq_bind, Option.bind_some, List.foldlM_cons, hstep]
      rfl
    · rw [List.foldlM_append, hprocess, Option.bind_eq_bind, Option.bind_some, List.foldlM_cons,
        hm', hparent]
      rfl
    · rcases hchange with ⟨rfl, rfl⟩ | ⟨rfl, -⟩
      · exact hfalse hc
      · cases hc
    · rcases hchange with ⟨rfl, rfl⟩ | ⟨-, hne⟩
      · exact htrue hc heq
      · rw [heq, Numbering.foldlM_process_of_not_mem hprocess hvl] at hne
        exact hne rfl

/-- **A sweep is a pass**, and it reports a change exactly if there is one. -/
theorem sweep_spec (hlen : t.length = size) (hsound : N.Sound (parent t)) :
    ∃ t' c, sweepTable new G.entry N.order t = some (t', c) ∧ t'.length = size ∧
      N.pass fuel (parent t) = some (parent t') ∧ (c = false ↔ t' = t) := by
  obtain ⟨t', c, hsweep, hlen', hpass, hfalse, htrue⟩ :=
    h.foldlM_sweepStep hlen hsound List.prefix_rfl
  refine ⟨t', c, hsweep, hlen', hpass, hfalse, ?_⟩
  rintro rfl
  cases c with
  | false => rfl
  | true => exact absurd rfl (htrue rfl)

theorem sweeps_of_tables {n k : ℕ} (hlen : t.length = size) (ht : parent t = N.tables fuel k)
    (hk : k ≤ N.order.length) (hn : N.order.length < k + n) :
    ∃ t' j, sweepTables new G.entry N.order n t = some (t', false) ∧
      sweepTable new G.entry N.order t' = some (t', false) ∧ t'.length = size ∧
      parent t' = N.tables fuel j ∧ parent t' = N.tables fuel (j + 1) := by
  induction n generalizing k t with
  | zero => omega
  | succ n ih =>
    have hsound : N.Sound (parent t) := ht ▸ Numbering.sound_tables h.fuel_le k
    obtain ⟨t', c, hsweep, hlen', hpass, hc⟩ := h.sweep_spec hlen hsound
    rw [ht, Numbering.pass_tables h.fuel_le] at hpass
    have ht' := (Option.some.inj hpass).symm
    rw [sweepTables, hsweep]
    cases c with
    | false =>
      obtain rfl := hc.1 rfl
      exact ⟨t', k, rfl, hsweep, hlen', ht, ht'⟩
    | true =>
      refine ih hlen' ht' ?_ (by omega)
      by_contra hlt
      have heq : t' = t := eq_of_parent_eq (hlen'.trans hlen.symm) (by
        rw [ht', ht, Numbering.tables_succ_eq h.fuel_le (by omega)])
      exact absurd (hc.2 heq) (by simp)

/-- **The sweeps end before the cap**, with a table that one more sweep leaves as it is. -/
theorem sweeps_spec {n : ℕ} (hlen : t.length = size) (ht : parent t = Numbering.init G)
    (hn : N.order.length < n) :
    ∃ t' k, sweepTables new G.entry N.order n t = some (t', false) ∧
      sweepTable new G.entry N.order t' = some (t', false) ∧ t'.length = size ∧
      N.order.length ≤ k ∧ parent t' = N.tables fuel k := by
  have ht₀ : parent t = N.tables fuel 0 := ht
  obtain ⟨t', j, hsweeps, hfixed, hlen', hj, hj'⟩ :=
    h.sweeps_of_tables hlen ht₀ (Nat.zero_le _) (by omega : N.order.length < 0 + n)
  -- The table stays the same in all further passes.
  have hstay (i : ℕ) : parent t' = N.tables fuel (j + i) := by
    induction i with
    | zero => exact hj
    | succ i ih =>
      have h₁ := Numbering.pass_tables (N := N) h.fuel_le j
      have h₂ := Numbering.pass_tables (N := N) h.fuel_le (j + i)
      rw [← hj, ← hj'] at h₁
      rw [← ih, h₁] at h₂
      exact Option.some.inj h₂
  exact ⟨t', j + N.order.length, hsweeps, hfixed, hlen', Nat.le_add_left _ _, hstay _⟩

end Computes

end Spec

end Idom
