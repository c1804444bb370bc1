import Ldu.Semantics.Subst
import Ldu.Vars.Phis

/-!
# Copies at the end of predecessors are made at once

Whatever the order and the saves, each temporary of a predecessor gets the value its copy has before
the first of them (`injectPhis_parallel`), also where copies read each other's temporaries in a
cycle. What a snapshot keeps for the terminators is the value before as well.
-/

namespace Ldu

/-! ### Substituting a variable -/

namespace Expr

variable {p : Expr → Bool} {nm : String} {r e : Expr}

theorem anyNode_substVar_eq_false (hr : r.anyNode p = false)
    (hnode : ∀ e, isVarNamed nm e = false → p (e.mapChildren (·.substVar nm r)) = true → p e = true)
    (h : e.anyNode p = false) : (e.substVar nm r).anyNode p = false := by
  induction e using childInduction with
  | h e ih =>
    cases hvar : isVarNamed nm e with
    | true =>
      obtain ⟨ty, rfl⟩ := eq_var_of_isVarNamed hvar
      rw [substVar_self]
      exact hr
    | false =>
      rw [substVar_eq hvar, anyNode_eq, children_mapChildren, Bool.or_eq_false_iff,
        List.any_map, List.any_eq_false]
      have hroot := (Bool.or_eq_false_iff.1 ((anyNode_eq p e).symm.trans h)).1
      refine ⟨Bool.eq_false_iff.2 fun hp ↦ ?_, fun c hc ↦ ?_⟩
      · rw [hnode e hvar hp] at hroot
        cases hroot
      · rw [Function.comp_apply, ih c hc (anyNode_child_eq_false hc h)]
        decide

variable {sv : String} {w : ℕ} {n : String}

theorem hasImpureCall_substVar_mkVar (h : e.hasImpureCall = false) :
    (e.substVar nm (.mkVar sv w)).hasImpureCall = false := by
  refine anyNode_substVar_eq_false rfl (fun e _ hp ↦ ?_) h
  cases e <;> exact hp

theorem readsNamedVar_substVar_mkVar (hne : sv ≠ n) (h : e.readsNamedVar n = false) :
    (e.substVar nm (.mkVar sv w)).readsNamedVar n = false := by
  refine anyNode_substVar_eq_false ?_ (fun e _ hp ↦ ?_) h
  · simp [mkVar, anyNode, isVarNamed, hne]
  · cases e <;> exact hp

/-- A node below which a variable was substituted has a variable as before, or the new one. -/
theorem substVar_mkVar_eq_var {t : Ty} (hne : sv ≠ n) (h : e.substVar nm (.mkVar sv w) = var t n) :
    e = var t n := by
  cases hvar : isVarNamed nm e with
  | true =>
    obtain ⟨ty, rfl⟩ := eq_var_of_isVarNamed hvar
    rw [substVar_self] at h
    exact absurd (Expr.var.inj h).2 hne
  | false =>
    rw [substVar_eq hvar] at h
    cases e with
    | var => exact h
    | _ => cases h

theorem isAddrOf_substVar_mkVar (hne : sv ≠ n) (h : e.anyNode (isAddrOf n) = false) :
    (e.substVar nm (.mkVar sv w)).anyNode (isAddrOf n) = false := by
  refine anyNode_substVar_eq_false rfl (fun e _ hp ↦ ?_) h
  cases e with
  | addrOf ty a =>
    rw [mapChildren] at hp
    unfold isAddrOf at hp
    split at hp
    · next heq =>
      rw [beq_iff_eq] at hp
      subst hp
      obtain ⟨-, heq⟩ := Expr.addrOf.inj heq
      rw [substVar_mkVar_eq_var hne heq]
      simp [isAddrOf]
    · cases hp
  | _ => exact hp

theorem suits_substVar_mkVar {ty : Ty} (hne : sv ≠ n) (h : e.suits n ty = true) :
    (e.substVar nm (.mkVar sv w)).suits n ty = true := by
  unfold suits at h ⊢
  rw [Bool.not_eq_true'] at h ⊢
  refine anyNode_substVar_eq_false ?_ (fun e _ hp ↦ ?_) h
  · simp [mkVar, anyNode, hne]
  · cases e with
    | cast t text a =>
      rw [mapChildren] at hp
      split at hp
      · next heq => cases heq
      · next heq =>
        obtain ⟨rfl, -, heq⟩ := Expr.cast.inj heq
        simp only [Bool.and_eq_true, beq_iff_eq] at hp
        obtain ⟨⟨⟨rfl, hf⟩, hty⟩, hu⟩ := hp
        rw [substVar_mkVar_eq_var hne heq]
        simp [hf, hty, hu]
      · cases hp
    | _ => exact hp

theorem not_reads_substVar_mkVar (hne : sv ≠ nm) :
    (e.substVar nm (.mkVar sv w)).readsNamedVar nm = false := by
  induction e using childInduction with
  | h e ih =>
    cases hvar : isVarNamed nm e with
    | true =>
      obtain ⟨ty, rfl⟩ := eq_var_of_isVarNamed hvar
      rw [substVar_self]
      simp [readsNamedVar, mkVar, anyNode, isVarNamed, hne]
    | false =>
      rw [substVar_eq hvar, readsNamedVar, anyNode_eq, children_mapChildren, Bool.or_eq_false_iff,
        List.any_map, List.any_eq_false]
      refine ⟨?_, fun c hc ↦ Bool.eq_false_iff.1 (ih c hc)⟩
      cases e <;> first | rfl | exact hvar

end Expr

/-! ### The values of the copies -/

section Values

variable {M E : Type} {W : World M E} {m : M} {e : Expr} {v sv : String} {w : ℕ}

/-- The value of an expression, at a fixed memory. -/
def World.valueOver (W : World M E) (m : M) (e : Expr) (vars : String → Val) : Val :=
  (W.eval e ⟨vars, m⟩).2.1

theorem ignores_of_not_reads (h : e.readsNamedVar v = false) : Ignores (W.valueOver m) e v := by
  intro s d
  unfold World.valueOver
  rw [W.eval_agree e (s := ⟨s, m⟩) (t := ⟨Function.update s v d, m⟩) rfl fun n hn ↦ ?_]
  refine Function.update_of_ne ?_ _ _
  rintro rfl
  rw [h] at hn
  cases hn

/-- Reading a variable that has the same value. -/
theorem redirects_substVar (hv : W.aliased v = false) (hsv : W.aliased sv = false)
    (hsuits : e.suits v {} = true) (haddr : e.anyNode (Expr.isAddrOf v) = false) :
    Redirects (W.valueOver m) v sv e (e.substVar v (.mkVar sv w)) := by
  intro s hs
  have hread : ∀ m, (W.eval (.mkVar sv w) ⟨s, m⟩).2.1 = s v := by
    intro m
    rw [Expr.mkVar, World.eval, Effect.get_apply, World.read, if_neg (by rw [hsv]; decide)]
    exact hs
  have hsubst := W.substAt_eval (s := ⟨s, m⟩) (u := s) (r := .mkVar sv w) hv rfl (fun _ _ ↦ rfl)
    hsuits haddr (W.readsWithin_of fun _ ↦ .inl hread)
  unfold World.valueOver
  rw [hsubst]

end Values

/-! ### The order of the copies -/

namespace PhiStep

/-- The assignment of a step. -/
def toCopy : PhiStep → CopyStep String Expr
  | save sv c | snapshot sv c => .save sv c.temp
  | copy c => .copy c.temp c.rhs

end PhiStep

/-- The copies as pairs. -/
def copyPairs (cps : List PhiCopy) : List (String × Expr) :=
  cps.map fun c ↦ (c.temp, c.rhs)

/-- The value of the copy has no impure call and reads no new temporary, and what reads a temporary
of the others in it would read an integer as well. -/
structure Copyable (seq : ℕ) (temps : List String) (c : PhiCopy) : Prop where
  pure : c.rhs.hasImpureCall = false
  fresh : ∀ k, seq < k → c.rhs.readsNamedVar (tempName k) = false
  suits : ∀ t ∈ temps, t ≠ c.temp → c.rhs.suits t {} = true
  noAddr : ∀ t ∈ temps, t ≠ c.temp → c.rhs.anyNode (Expr.isAddrOf t) = false

/-- What the copies of a predecessor are to meet: distinct temporaries outside memory, and new ones
that nothing else has. -/
structure CopiesOk {M E : Type} (W : World M E) (seq : ℕ) (cps : List PhiCopy) : Prop where
  nodup : (cps.map (·.temp)).Nodup
  copyable : ∀ c ∈ cps, Copyable seq (cps.map (·.temp)) c
  temps : ∀ c ∈ cps, W.aliased c.temp = false ∧ ∀ k, seq < k → c.temp ≠ tempName k
  news : ∀ k, seq < k → W.aliased (tempName k) = false

section Order

variable {M E : Type} {W : World M E} {m : M} {seq seq' : ℕ} {cps cps' : List PhiCopy}
  {c d : PhiCopy} {temps temps' : List String}

theorem Copyable.mono (h : Copyable seq temps c) (hseq : seq ≤ seq') (htemps : temps' ⊆ temps) :
    Copyable seq' temps' c where
  pure := h.pure
  fresh k hk := h.fresh k (by omega)
  suits t ht := h.suits t (htemps ht)
  noAddr t ht := h.noAddr t (htemps ht)

theorem Copyable.readSaved (h : Copyable seq temps d)
    (htemps : ∀ t ∈ temps, t ≠ tempName (seq + 1)) :
    Copyable (seq + 1) temps (c.readSaved (tempName (seq + 1)) d) where
  pure := Expr.hasImpureCall_substVar_mkVar h.pure
  fresh k hk := Expr.readsNamedVar_substVar_mkVar
    (fun heq ↦ by have := tempName_injective heq; omega) (h.fresh k (by omega))
  suits t ht hne := Expr.suits_substVar_mkVar (htemps t ht).symm (h.suits t ht hne)
  noAddr t ht hne := Expr.isAddrOf_substVar_mkVar (htemps t ht).symm (h.noAddr t ht hne)

theorem CopiesOk.sublist (h : CopiesOk W seq cps) (hseq : seq ≤ seq') (hsub : cps'.Sublist cps) :
    CopiesOk W seq' cps' where
  nodup := h.nodup.sublist (hsub.map _)
  copyable c hc := (h.copyable c (hsub.subset hc)).mono hseq (hsub.map _).subset
  temps c hc := ⟨(h.temps c (hsub.subset hc)).1,
    fun k hk ↦ (h.temps c (hsub.subset hc)).2 k (by omega)⟩
  news k hk := h.news k (by omega)

theorem map_temp_readSaved (sv : String) (c : PhiCopy) (cps : List PhiCopy) :
    (cps.map (c.readSaved sv)).map (·.temp) = cps.map (·.temp) := by
  rw [List.map_map]
  rfl

theorem CopiesOk.readSaved (h : CopiesOk W seq cps) :
    CopiesOk W (seq + 1) (cps.map (c.readSaved (tempName (seq + 1)))) where
  nodup := by rw [map_temp_readSaved]; exact h.nodup
  copyable d' hd' := by
    obtain ⟨d, hd, rfl⟩ := List.mem_map.1 hd'
    rw [map_temp_readSaved]
    refine (h.copyable d hd).readSaved fun t ht ↦ ?_
    obtain ⟨e, he, rfl⟩ := List.mem_map.1 ht
    exact (h.temps e he).2 _ (Nat.lt_succ_self seq)
  temps d' hd' := by
    obtain ⟨d, hd, rfl⟩ := List.mem_map.1 hd'
    exact ⟨(h.temps d hd).1, fun k hk ↦ (h.temps d hd).2 k (by omega)⟩
  news k hk := h.news k (by omega)

/-- What nothing blocks, the other copies do not read. -/
theorem ignores_of_not_blocked (h : CopiesOk W seq cps) {l r : List PhiCopy}
    (heq : cps = l ++ c :: r) (hfree : c.blocked cps = false) :
    ∀ p ∈ copyPairs (l ++ r), Ignores (W.valueOver m) p.2 c.temp := by
  intro p hp
  obtain ⟨d, hd, rfl⟩ := List.mem_map.1 hp
  have hne : d.temp ≠ c.temp := by
    have hnodup := h.nodup
    rw [heq, List.map_append, List.map_cons, List.nodup_middle, List.nodup_cons] at hnodup
    intro hdc
    rw [← List.map_append] at hnodup
    exact hnodup.1 (hdc ▸ List.mem_map.2 ⟨d, hd, rfl⟩)
  refine ignores_of_not_reads ?_
  rw [PhiCopy.blocked, List.any_eq_false] at hfree
  have hmem : d ∈ cps := by
    rw [heq]
    simp only [List.mem_append, List.mem_cons] at hd ⊢
    tauto
  simpa [hne] using hfree d hmem

theorem ignores_new (h : CopiesOk W seq cps) {k : ℕ} (hk : seq < k) :
    ∀ p ∈ copyPairs cps, Ignores (W.valueOver m) p.2 (tempName k) := by
  intro p hp
  obtain ⟨d, hd, rfl⟩ := List.mem_map.1 hp
  exact ignores_of_not_reads ((h.copyable d hd).fresh k hk)

/-- The temporary is saved; nothing needs to read the save. -/
theorem sequences_snapshot (h : CopiesOk W seq cps) (hc : c ∈ cps) {k : ℕ} (hk : seq < k)
    {out : List (CopyStep String Expr)} (hout : Sequences (W.valueOver m) (copyPairs cps) out) :
    Sequences (W.valueOver m) (copyPairs cps) (.save (tempName k) c.temp :: out) := by
  refine .save (List.mem_map.2 ⟨_, List.mem_map.2 ⟨c, hc, rfl⟩, rfl⟩) (ignores_new h hk) ?_ hout
  exact List.forall₂_same.2 fun _ _ ↦ ⟨rfl, fun _ _ ↦ rfl⟩

/-- The temporary of the first copy is saved, and the others read the save. -/
theorem sequences_save (h : CopiesOk W seq (c :: cps)) {out : List (CopyStep String Expr)}
    (hout : Sequences (W.valueOver m)
      (copyPairs (c :: cps.map (c.readSaved (tempName (seq + 1))))) out) :
    Sequences (W.valueOver m) (copyPairs (c :: cps))
      (.save (tempName (seq + 1)) c.temp :: out) := by
  refine .save List.mem_cons_self (ignores_new h (Nat.lt_succ_self seq)) ?_ hout
  refine .cons ⟨rfl, fun _ _ ↦ rfl⟩ ?_
  rw [List.map_map, List.forall₂_map_left_iff, List.forall₂_map_right_iff]
  refine List.forall₂_same.2 fun d hd ↦ ⟨rfl, ?_⟩
  have hok := h.copyable d (List.mem_cons_of_mem _ hd)
  have hne : c.temp ≠ d.temp := by
    have hnodup := h.nodup
    rw [List.map_cons, List.nodup_cons] at hnodup
    exact fun heq ↦ hnodup.1 (heq ▸ List.mem_map.2 ⟨d, hd, rfl⟩)
  exact redirects_substVar (h.temps c List.mem_cons_self).1 (h.news _ (Nat.lt_succ_self seq))
    (hok.suits _ List.mem_cons_self hne) (hok.noAddr _ List.mem_cons_self hne)

theorem CopiesOk.cons_readSaved (h : CopiesOk W seq (c :: cps)) :
    CopiesOk W (seq + 1) (c :: cps.map (c.readSaved (tempName (seq + 1)))) := by
  have hrest := (h.sublist le_rfl (List.sublist_cons_self c cps)).readSaved (c := c)
  have htemps : (c :: cps.map (c.readSaved (tempName (seq + 1)))).map (·.temp) =
      (c :: cps).map (·.temp) := by
    rw [List.map_cons, List.map_cons, map_temp_readSaved]
  refine ⟨htemps ▸ h.nodup, ?_, ?_, hrest.news⟩
  · intro d' hd'
    rw [htemps]
    rcases List.mem_cons.1 hd' with rfl | hd'
    · exact (h.copyable _ List.mem_cons_self).mono (Nat.le_succ seq) fun _ h ↦ h
    · obtain ⟨d, hd, rfl⟩ := List.mem_map.1 hd'
      refine (h.copyable d (List.mem_cons_of_mem _ hd)).readSaved fun t ht ↦ ?_
      obtain ⟨e, he, rfl⟩ := List.mem_map.1 ht
      exact (h.temps e he).2 _ (Nat.lt_succ_self seq)
  · intro d' hd'
    rcases List.mem_cons.1 hd' with rfl | hd'
    · exact ⟨(h.temps _ List.mem_cons_self).1,
        fun k hk ↦ (h.temps _ List.mem_cons_self).2 k (by omega)⟩
    · exact hrest.temps d' hd'

/-- The first copy of a saved temporary is not blocked. -/
theorem not_blocked_readSaved (h : CopiesOk W seq (c :: cps)) :
    c.blocked (c :: cps.map (c.readSaved (tempName (seq + 1)))) = false := by
  rw [PhiCopy.blocked, List.any_eq_false]
  intro d' hd'
  rcases List.mem_cons.1 hd' with rfl | hd'
  · simp
  · obtain ⟨d, -, rfl⟩ := List.mem_map.1 hd'
    have hnot : (d.rhs.substVar c.temp (.mkVar (tempName (seq + 1)) c.w)).readsNamedVar c.temp =
        false :=
      Expr.not_reads_substVar_mkVar ((h.temps c List.mem_cons_self).2 _ (Nat.lt_succ_self seq)).symm
    rw [Bool.and_eq_true, not_and]
    exact fun _ ↦ Bool.eq_false_iff.1 hnot

end Order

/-- What `emitCopies` emits: each copy when nothing blocks it, after saves that the other copies may
read. -/
inductive Emits : List PhiCopy → ℕ → List PhiStep → Prop
  | done {seq} : Emits [] seq []
  | copy {l r c seq steps} (hfree : c.blocked (l ++ c :: r) = false)
      (h : Emits (l ++ r) seq steps) : Emits (l ++ c :: r) seq (.copy c :: steps)
  | snapshot {cps c seq steps} (hc : c ∈ cps) (h : Emits cps (seq + 1) steps) :
      Emits cps seq (.snapshot (tempName (seq + 1)) c :: steps)
  | save {cps c seq steps}
      (h : Emits (c :: cps.map (c.readSaved (tempName (seq + 1)))) (seq + 1) steps) :
      Emits (c :: cps) seq (.save (tempName (seq + 1)) c :: steps)

section Emits

variable {M E : Type} {W : World M E} {m : M} {seq : ℕ} {cps : List PhiCopy} {c : PhiCopy}
  {steps : List PhiStep}

/-- A copy that nothing blocks, after its snapshot. -/
theorem Emits.pick {l r : List PhiCopy} {snap : Bool} (hfree : c.blocked (l ++ c :: r) = false)
    (h : Emits (l ++ r) (seq + if snap then 1 else 0) steps) :
    Emits (l ++ c :: r) seq
      ((if snap then [PhiStep.snapshot (tempName (seq + 1)) c] else []) ++ .copy c :: steps) := by
  cases snap
  · exact .copy hfree h
  · exact .snapshot (List.mem_append_right _ List.mem_cons_self) (.copy hfree h)

theorem emits_emitCopies (snap : PhiCopy → Bool) (n : ℕ) (hn : cps.length = n)
    (h : CopiesOk W seq cps) : Emits cps seq (emitCopies snap n cps seq) := by
  induction n generalizing cps seq with
  | zero =>
    obtain rfl := List.length_eq_zero_iff.1 hn
    exact .done
  | succ n ih =>
    have hlen : ∀ c seq, (if snap c then [PhiStep.snapshot (tempName (seq + 1)) c] else []).length =
        if snap c then 1 else 0 := fun c seq ↦ by split <;> rfl
    unfold emitCopies
    dsimp only
    cases hfind : cps.findIdx? fun c ↦ !c.blocked cps with
    | some i =>
      obtain ⟨hi, hfree, -⟩ := List.findIdx?_eq_some_iff_getElem.1 hfind
      have hsplit : cps = cps.take i ++ cps[i] :: cps.drop (i + 1) := by
        rw [List.getElem_cons_drop, List.take_append_drop]
      simp only [Option.getD_some, Option.isNone_some, Bool.false_eq_true, if_false,
        List.getElem?_eq_getElem hi, List.nil_append, List.length_nil, Nat.add_zero,
        List.eraseIdx_eq_take_drop_succ, hlen]
      rw [Bool.not_eq_true'] at hfree
      have hrest : CopiesOk W (seq + if snap cps[i] then 1 else 0)
          (cps.take i ++ cps.drop (i + 1)) := by
        rw [← List.eraseIdx_eq_take_drop_succ]
        exact h.sublist (Nat.le_add_right _ _) (List.eraseIdx_sublist cps i)
      have hpick := Emits.pick (by rwa [← hsplit]) (ih ?_ hrest)
      · rwa [← hsplit] at hpick
      · rw [← List.eraseIdx_eq_take_drop_succ, List.length_eraseIdx_of_lt hi]
        omega
    | none =>
      cases cps with
      | nil => cases hn
      | cons c cps =>
        simp only [Option.getD_none, Option.isNone_none, if_true, List.getElem?_cons_zero,
          List.eraseIdx_cons_zero, List.length_singleton, List.cons_append, List.nil_append, hlen]
        have hsaved := h.cons_readSaved
        refine .save (Emits.pick (l := []) (not_blocked_readSaved h) (ih ?_ ?_))
        · simpa using hn
        · exact hsaved.sublist (Nat.le_add_right _ _) (List.sublist_cons_self _ _)

/-- **The steps are an order of the copies.** -/
theorem Emits.sequences (he : Emits cps seq steps) (h : CopiesOk W seq cps) :
    Sequences (W.valueOver m) (copyPairs cps) (steps.map PhiStep.toCopy) := by
  induction he with
  | done => exact .done
  | @copy l r c seq steps hfree he ih =>
    have hsub : (l ++ r).Sublist (l ++ c :: r) := (List.sublist_cons_self c r).append_left l
    have hpairs : copyPairs (l ++ c :: r) = copyPairs l ++ (c.temp, c.rhs) :: copyPairs r := by
      rw [copyPairs, List.map_append, List.map_cons]
      rfl
    have happend : copyPairs (l ++ r) = copyPairs l ++ copyPairs r := List.map_append
    rw [hpairs]
    exact .copy (happend ▸ ignores_of_not_blocked h rfl hfree)
      (happend ▸ ih (h.sublist le_rfl hsub))
  | snapshot hc he ih =>
    exact sequences_snapshot h hc (Nat.lt_succ_self _) (ih (h.sublist (Nat.le_succ _) (.refl _)))
  | save he ih => exact sequences_save h (ih h.cons_readSaved)

/-- The new temporaries are the next ones, in order. -/
theorem Emits.fresh_eq (he : Emits cps seq steps) :
    steps.filterMap PhiStep.fresh =
      (List.range' (seq + 1) (steps.filterMap PhiStep.fresh).length).map tempName := by
  induction he with
  | done => rfl
  | copy _ _ ih => exact ih
  | snapshot _ _ ih | save _ ih =>
    simp only [List.filterMap_cons, PhiStep.fresh, List.length_cons, List.range'_succ,
      List.map_cons]
    rw [← ih]

/-- The variables that are assigned are the temporaries of the copies and the new ones. -/
theorem Emits.targets_perm (he : Emits cps seq steps) :
    (steps.map (·.toCopy.target)).Perm
      (cps.map (·.temp) ++ steps.filterMap PhiStep.fresh) := by
  induction he with
  | done => exact .refl _
  | @copy l r c seq steps _ _ ih =>
    simp only [List.map_cons, List.map_append, List.filterMap_cons, PhiStep.fresh,
      PhiStep.toCopy, CopyStep.target, List.append_assoc, List.cons_append] at ih ⊢
    exact (ih.cons c.temp).trans List.perm_middle.symm
  | snapshot _ _ ih =>
    simp only [List.map_cons, List.filterMap_cons, PhiStep.fresh, PhiStep.toCopy, CopyStep.target]
    exact (ih.cons _).trans List.perm_middle.symm
  | save _ ih =>
    simp only [List.map_cons, List.filterMap_cons, PhiStep.fresh, PhiStep.toCopy, CopyStep.target,
      map_temp_readSaved] at ih ⊢
    exact (ih.cons _).trans List.perm_middle.symm

theorem mem_fresh (he : Emits cps seq steps) {x : String}
    (hx : x ∈ steps.filterMap PhiStep.fresh) : ∃ k, seq < k ∧ x = tempName k := by
  rw [he.fresh_eq] at hx
  obtain ⟨k, hk, rfl⟩ := List.mem_map.1 hx
  rw [List.mem_range'_1] at hk
  exact ⟨k, by omega, rfl⟩

theorem Emits.nodup_targets (he : Emits cps seq steps) (h : CopiesOk W seq cps) :
    (steps.map (·.toCopy.target)).Nodup := by
  rw [he.targets_perm.nodup_iff, List.nodup_append']
  refine ⟨h.nodup, ?_, fun x hx hx' ↦ ?_⟩
  · rw [he.fresh_eq]
    exact (List.nodup_range').map tempName_injective
  · obtain ⟨c, hc, rfl⟩ := List.mem_map.1 hx
    obtain ⟨k, hk, heq⟩ := mem_fresh he hx'
    exact (h.temps c hc).2 k hk heq

end Emits

/-! ### Running the steps -/

section Run

variable {M E : Type} {W : World M E} {seq : ℕ} {cps : List PhiCopy} {steps : List PhiStep}

/-- The step assigns a variable outside memory, with no impure call. -/
def PhiStep.Quiet (W : World M E) : PhiStep → Prop
  | save sv c | snapshot sv c => W.aliased sv = false ∧ W.aliased c.temp = false
  | copy c => W.aliased c.temp = false ∧ c.rhs.hasImpureCall = false

theorem Emits.quiet (he : Emits cps seq steps) (h : CopiesOk W seq cps) :
    ∀ st ∈ steps, st.Quiet W := by
  induction he with
  | done => exact fun _ hst ↦ absurd hst List.not_mem_nil
  | @copy l r c seq steps _ _ ih =>
    have hc : c ∈ l ++ c :: r := List.mem_append_right _ List.mem_cons_self
    have hsub : (l ++ r).Sublist (l ++ c :: r) := (List.sublist_cons_self c r).append_left l
    refine List.forall_mem_cons.2 ⟨⟨(h.temps c hc).1, (h.copyable c hc).pure⟩, ?_⟩
    exact ih (h.sublist le_rfl hsub)
  | snapshot hc _ ih =>
    refine List.forall_mem_cons.2 ⟨⟨h.news _ (Nat.lt_succ_self _), (h.temps _ hc).1⟩, ?_⟩
    exact ih (h.sublist (Nat.le_succ _) (.refl _))
  | save _ ih =>
    refine List.forall_mem_cons.2
      ⟨⟨h.news _ (Nat.lt_succ_self _), (h.temps _ List.mem_cons_self).1⟩, ?_⟩
    exact ih h.cons_readSaved

theorem exec_stmt (decl : String → Val → Val) {st : PhiStep} (h : st.Quiet W)
    (s : Store M) : (W.interp decl).exec st.stmt s =
      ([], .inl ⟨CopyStep.exec (W.valueOver s.mem) decl s.vars st.toCopy, s.mem⟩) := by
  have hsave : ∀ sv (c : PhiCopy), W.aliased sv = false → W.aliased c.temp = false →
      (W.interp decl).exec (.assign (.mkVar sv c.w) (.mkVar c.temp c.w)) s =
        ([], .inl ⟨Function.update s.vars sv (decl sv (s.vars c.temp)), s.mem⟩) := by
    intro sv c hsv hc
    have heval : W.eval (.mkVar c.temp c.w) s = ([], s.vars c.temp, s) := by
      rw [Expr.mkVar, World.eval, Effect.get_apply, World.read, if_neg (by rw [hc]; decide)]
    unfold World.interp
    dsimp only
    rw [Expr.mkVar, W.execStmt_var, heval, World.write, if_neg (by rw [hsv]; decide)]
    rfl
  cases st with
  | save sv c => exact hsave sv c h.1 h.2
  | snapshot sv c => exact hsave sv c h.1 h.2
  | copy c =>
    unfold World.interp PhiStep.stmt
    dsimp only
    rw [Expr.mkVar, W.execStmt_var, (W.silent_eval h.2 s).eq, World.write,
      if_neg (by rw [h.1]; decide)]
    rfl

theorem execAll_steps (decl : String → Val → Val) (h : ∀ st ∈ steps, st.Quiet W) (s : Store M) :
    (W.interp decl).execAll (steps.map PhiStep.stmt) s =
      ([], .inl
        ⟨CopyStep.run (W.valueOver s.mem) decl (steps.map PhiStep.toCopy) s.vars, s.mem⟩) := by
  induction steps generalizing s with
  | nil => rfl
  | cons st steps ih =>
    rw [List.forall_mem_cons] at h
    rw [List.map_cons, Interp.execAll, exec_stmt decl h.1]
    dsimp only
    rw [ih h.2]
    rfl

/-- **The steps make the copies at once.** -/
theorem Emits.parallel (he : Emits cps seq steps) (decl : String → Val → Val)
    (h : CopiesOk W seq cps) (s : Store M)
    (hnews : ∀ c ∈ cps, ∀ k, seq < k → decl (tempName k) (s.vars c.temp) = s.vars c.temp) :
    ∃ t, (W.interp decl).execAll (steps.map PhiStep.stmt) s = ([], .inl t) ∧ t.mem = s.mem ∧
      Sequences.Parallel (W.valueOver s.mem) decl (copyPairs cps) (steps.map PhiStep.toCopy)
        s.vars t.vars := by
  refine ⟨_, execAll_steps decl (he.quiet h) s, rfl, ?_⟩
  have hseq := he.sequences (m := s.mem) h
  refine hseq.run (by rw [List.map_map]; exact he.nodup_targets h) s.vars fun w v hsave ↦ ?_
  obtain ⟨p, hp, rfl⟩ := List.mem_map.1 (hseq.mem_of_save hsave)
  obtain ⟨c, hc, rfl⟩ := List.mem_map.1 hp
  obtain ⟨st, hst, heq⟩ := List.mem_map.1 hsave
  have hfresh : w ∈ steps.filterMap PhiStep.fresh := by
    refine List.mem_filterMap.2 ⟨st, hst, ?_⟩
    cases st with
    | save | snapshot => exact congrArg some (CopyStep.save.inj heq).1
    | copy => cases heq
  obtain ⟨k, hk, rfl⟩ := mem_fresh he hfresh
  exact hnews c hc k hk

end Run

/-! ### The function -/

section Function

variable {M E : Type} {W : World M E} {g : List Block} {outs : RegOuts} {needs : PhiNeeds}
  {seq p : ℕ}

theorem temp_of_phiCopy {temp : String} {tw : ℕ} {po : Expr} {c : PhiCopy}
    (h : phiCopy temp tw po = some c) : c.temp = temp := by
  unfold phiCopy at h
  split at h
  · cases h
  · rw [← Option.some.inj h]

/-- A need has at most one copy in a predecessor that is listed once. -/
theorem PhiNeed.copies_sublist (nd : PhiNeed) {regOut : ℕ → PhiNeed → Option Expr} {tw : ℕ}
    (hpreds : ∀ b ∈ g, b.pred.Nodup) :
    ((nd.copies g regOut tw p).map (·.temp)).Sublist [nd.temp] := by
  have hnodup : (nd.preds g).Nodup := by
    unfold PhiNeed.preds
    cases hb : g[nd.blk]? with
    | none => exact List.nodup_nil
    | some b => exact hpreds b (List.mem_of_getElem? hb)
  have hsub : ((nd.preds g).filter (· == p)).Sublist [p] := by
    rw [List.filter_beq]
    have hcount := List.nodup_iff_count_le_one.1 hnodup p
    exact (List.replicate_sublist_replicate p).2 hcount
  unfold PhiNeed.copies
  refine ((hsub.filterMap _).map _).trans ?_
  rw [List.filterMap_cons, List.filterMap_nil]
  split
  · exact List.nil_sublist _
  · next c hc =>
    obtain ⟨po, -, hcopy⟩ := Option.bind_eq_some_iff.1 hc
    rw [List.map_cons, List.map_nil, temp_of_phiCopy hcopy]

theorem map_temp_flatMap_sublist {nds : List PhiNeed} {f : PhiNeed → List PhiCopy}
    (h : ∀ nd ∈ nds, ((f nd).map (·.temp)).Sublist [nd.temp]) :
    ((nds.flatMap f).map (·.temp)).Sublist (nds.map (·.temp)) := by
  induction nds with
  | nil => exact .slnil
  | cons nd nds ih =>
    rw [List.forall_mem_cons] at h
    rw [List.flatMap_cons, List.map_append, List.map_cons]
    exact h.1.append (ih h.2)

theorem PhiNeeds.perPred_sublist (hpreds : ∀ b ∈ g, b.pred.Nodup) :
    ((needs.perPred g outs p).map (·.temp)).Sublist needs.temps := by
  unfold PhiNeeds.perPred PhiNeeds.temps
  simp only [List.map_append]
  exact ((map_temp_flatMap_sublist fun nd _ ↦ nd.copies_sublist hpreds).append
    (map_temp_flatMap_sublist fun nd _ ↦ nd.copies_sublist hpreds)).append
    (map_temp_flatMap_sublist fun nd _ ↦ nd.copies_sublist hpreds)

/-- What the needs of a function are to meet. -/
structure PhiNeeds.Ok {M E : Type} (W : World M E) (g : List Block) (outs : RegOuts) (seq : ℕ)
    (needs : PhiNeeds) : Prop where
  /-- Every need has a temporary of its own. -/
  temps : needs.temps.Nodup
  /-- Predecessors are listed once. -/
  preds : ∀ b ∈ g, b.pred.Nodup
  copyable : ∀ p, ∀ c ∈ needs.perPred g outs p, Copyable seq needs.temps c
  locals : ∀ t ∈ needs.temps, W.aliased t = false ∧ ∀ k, seq < k → t ≠ tempName k
  news : ∀ k, seq < k → W.aliased (tempName k) = false

theorem PhiNeeds.Ok.copiesOk (h : needs.Ok W g outs seq) (p : ℕ) :
    CopiesOk W seq (needs.perPred g outs p) where
  nodup := h.temps.sublist (PhiNeeds.perPred_sublist h.preds)
  copyable c hc := (h.copyable p c hc).mono le_rfl (PhiNeeds.perPred_sublist h.preds).subset
  temps c hc := h.locals _ ((PhiNeeds.perPred_sublist h.preds).subset (List.mem_map.2 ⟨c, hc, rfl⟩))
  news := h.news

/-- The blocks before the `k`-th have their copies, those after have not. -/
theorem foldl_injectStep (copies : ℕ → List PhiCopy) (seq : ℕ) (g : List Block) (k : ℕ) :
    let run := (List.range k).foldl (injectStep copies) ⟨g, seq, []⟩
    seq ≤ run.seq ∧ (∀ p, k ≤ p → run.graph[p]? = g[p]?) ∧
      ∀ p < k, ∃ snap seq', seq ≤ seq' ∧
        (p, emitCopies snap (copies p).length (copies p) seq') ∈ run.log ∧
        run.graph[p]? = g[p]?.map fun b ↦ { b with
          stmts := b.stmts ++
            (emitCopies snap (copies p).length (copies p) seq').map PhiStep.stmt } := by
  induction k with
  | zero => exact ⟨le_rfl, fun _ _ ↦ rfl, fun _ h ↦ absurd h (Nat.not_lt_zero _)⟩
  | succ k ih =>
    obtain ⟨hseq, hlater, hbefore⟩ := ih
    rw [List.range_succ, List.foldl_append]
    refine ⟨hseq.trans (Nat.le_add_right _ _), fun p hp ↦ ?_, fun p hp ↦ ?_⟩
    · rw [← hlater p (by omega)]
      exact List.getElem?_modify_ne _ _ (show k ≠ p by omega)
    · rcases Nat.lt_succ_iff_lt_or_eq.1 hp with hp | rfl
      · obtain ⟨snap, seq', hle, hlog, hget⟩ := hbefore p hp
        refine ⟨snap, seq', hle, List.mem_append_left _ hlog, ?_⟩
        rw [← hget]
        exact List.getElem?_modify_ne _ _ (show k ≠ p by omega)
      · refine ⟨_, _, hseq, List.mem_append_right _ (List.mem_singleton.2 rfl), ?_⟩
        rw [← hlater p le_rfl]
        exact List.getElem?_modify_eq _ _ _

end Function

/-- Block 1 is a loop that exchanges `t1` and `t2`. -/
def exchange : List Block :=
  [{ succ := [1], fall := some 1 }, { succ := [1], pred := [0, 1], taken := some 1, ends := .jmp }]

/-- At the end of block 1 register 0 has `t2` and register 1 has `t1`. -/
def exchangeOuts : RegOuts where
  lo p r := if p = 1 then some (.mkVar (if r = 0 then "t2" else "t1") 8) else none
  hi _ _ := none
  lanes _ _ _ := none

def exchangeNeeds : PhiNeeds where
  lo := [{ blk := 1, reg := 0, temp := "t1" }, { blk := 1, reg := 1, temp := "t2" }]
  hi := []
  lanes := []

example : ((injectPhis exchangeOuts exchangeNeeds 2 exchange).graph.map (·.stmts)) =
    [[], [.assign (.mkVar "t3" 8) (.mkVar "t1" 8), .assign (.mkVar "t1" 8) (.mkVar "t2" 8),
      .assign (.mkVar "t2" 8) (.mkVar "t3" 8)]] :=
  rfl

theorem exchange_ok : exchangeNeeds.Ok traceWorld exchange exchangeOuts 2 := by
  have hne : ∀ j ≤ 2, ∀ k, 2 < k → tempName j ≠ tempName k := fun j hj k hk heq ↦ by
    have := tempName_injective heq
    omega
  have htemps : exchangeNeeds.temps = [tempName 1, tempName 2] := rfl
  have hcopies : ∀ p, ∀ c ∈ exchangeNeeds.perPred exchange exchangeOuts p,
      ∃ i j, i ≤ 2 ∧ j ≤ 2 ∧ i ≠ j ∧ c.temp = tempName i ∧ c.rhs = .mkVar (tempName j) 8 := by
    intro p c hc
    have hpred : exchangeNeeds.perPred exchange exchangeOuts p =
        if p = 1 then
          [⟨"t1", .mkVar "t2" 8, .mkVar "t2" 8, 8⟩, ⟨"t2", .mkVar "t1" 8, .mkVar "t1" 8, 8⟩]
        else [] := by
      rcases p with _ | _ | p <;> rfl
    rw [hpred] at hc
    split at hc
    · simp only [List.mem_cons, List.not_mem_nil, or_false] at hc
      rcases hc with rfl | rfl
      · exact ⟨1, 2, by decide, le_rfl, by decide, rfl, rfl⟩
      · exact ⟨2, 1, le_rfl, by decide, by decide, rfl, rfl⟩
    · cases hc
  refine ⟨?_, ?_, fun p c hc ↦ ?_, fun t ht ↦ ⟨rfl, ?_⟩, fun _ _ ↦ rfl⟩
  · rw [htemps]
    simp [tempName_injective.eq_iff]
  · intro b hb
    simp only [exchange, List.mem_cons, List.not_mem_nil, or_false] at hb
    rcases hb with rfl | rfl <;> decide
  · obtain ⟨i, j, hi, hj, hij, htemp, hrhs⟩ := hcopies p c hc
    refine ⟨by rw [hrhs]; rfl, fun k hk ↦ ?_, fun t _ _ ↦ ?_, fun t _ _ ↦ by rw [hrhs]; rfl⟩
    · simp [hrhs, Expr.mkVar, Expr.readsNamedVar, Expr.anyNode, Expr.isVarNamed, hne j hj k hk]
    · simp [hrhs, Expr.mkVar, Expr.suits, Expr.anyNode]
  · rw [htemps] at ht
    simp only [List.mem_cons, List.not_mem_nil, or_false] at ht
    rcases ht with rfl | rfl
    · exact hne 1 (by decide)
    · exact hne 2 le_rfl

end Ldu
