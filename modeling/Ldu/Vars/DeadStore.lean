import Ldu.Vars.Liveness

/-!
# Removing dead stores

`global_dead_store_elim` computes liveness by at most 1024 sweeps and then scans each block once
more, backwards from what is live after it, dropping assignments to variables that are not live.
It repeats this until nothing is dropped, at most 16 times.

The second scan starts from its own list of the fields of a terminator (`scanTerm`), which is not
the list of the first (`liveTerm`).
-/

namespace Ldu

section Pass

variable (info : VarInfo) (g : List Block)

/-- The fields of the terminator that the second scan looks at. -/
def Block.scanTerm (b : Block) : Finset String :=
  optReadVars b.cond ∪ optReadVars b.retValue ∪ optReadVars b.switchVar

/-- `n` is a tracked local whose address is not taken. -/
def droppable (n : String) : Bool :=
  (info.width.lookup n).isSome && !addrTaken g n

/-- The assignment is dropped, given what is live after it. -/
def isDeadStore (after : Finset String) : Stmt → Bool
  | .assign (.var _ x) rhs => !rhs.hasCall && droppable info g x && x ∉ after
  | _ => false

/-- The statements that stay, and what is live before them. -/
def dropDead (after : Finset String) : List Stmt → List Stmt × Finset String
  | [] => ([], after)
  | st :: sts =>
    let rest := dropDead after sts
    (if isDeadStore info g rest.2 st then rest.1 else st :: rest.1,
      st.liveBefore (fun _ ↦ true) rest.2)

/-- The sweeps of one round. -/
def liveSets : LiveSets :=
  sweeps (fun _ ↦ true) g 1024 {}

/-- What the second scan takes for live at the end of block `i`. -/
def scanAfter (i : ℕ) (b : Block) : Finset String :=
  (liveSets g).liveOut i ∪ b.scanTerm

/-- One round. -/
def deadStoreRound : List Block :=
  g.mapIdx fun i b ↦ { b with stmts := (dropDead info g (scanAfter g i b) b.stmts).1 }

/-- A round drops something. -/
def roundChanges : Bool :=
  (deadStoreRound info g).map (·.stmts.length) != g.map (·.stmts.length)

end Pass

/-- Rounds while something is dropped and the budget allows. -/
def deadStoreRounds (info : VarInfo) (budgetOk : ℕ → Bool) : ℕ → List Block → List Block
  | 0, g => g
  | k + 1, g =>
    if !budgetOk k then g
    else if roundChanges info g then deadStoreRounds info budgetOk k (deadStoreRound info g)
    else deadStoreRound info g

/-- Remove the assignments whose value is not read; `budgetOk k` says whether the deadline has
passed when `k` rounds are left. -/
def globalDeadStoreElim (info : VarInfo) (budgetOk : ℕ → Bool) (g : List Block) : List Block :=
  deadStoreRounds info budgetOk 16 g

section Lemmas

variable {info : VarInfo} {g : List Block} {i : ℕ} {n : String}

theorem getElem?_deadStoreRound (i : ℕ) :
    (deadStoreRound info g)[i]? = g[i]?.map fun b ↦
      { b with stmts := (dropDead info g (scanAfter g i b) b.stmts).1 } := by
  simp [deadStoreRound, List.getElem?_mapIdx]

theorem isDeadStore_eq_true {after : Finset String} {st : Stmt}
    (h : isDeadStore info g after st = true) :
    ∃ ty x rhs, st = .assign (.var ty x) rhs ∧ rhs.hasCall = false ∧
      droppable info g x = true ∧ x ∉ after := by
  unfold isDeadStore at h
  split at h
  · next ty x rhs =>
    simp only [Bool.and_eq_true, Bool.not_eq_true', decide_eq_true_eq] at h
    exact ⟨ty, x, rhs, rfl, h.1.1, h.1.2, h.2⟩
  · cases h

theorem dropDead_snd (after : Finset String) (sts : List Stmt) :
    (dropDead info g after sts).2 = liveStmts (fun _ ↦ true) sts after := by
  induction sts with
  | nil => rfl
  | cons st sts ih =>
    unfold dropDead
    dsimp only
    rw [ih]
    rfl

theorem dropDead_sublist (after : Finset String) (sts : List Stmt) :
    (dropDead info g after sts).1.Sublist sts := by
  induction sts with
  | nil => exact .refl _
  | cons st sts ih =>
    unfold dropDead
    dsimp only
    split
    · exact ih.cons st
    · exact ih.cons_cons st

/-- An address that is taken after a round was taken before. -/
theorem addrTaken_of_round (h : addrTaken (deadStoreRound info g) n = true) :
    addrTaken g n = true := by
  unfold addrTaken at h ⊢
  rw [List.any_eq_true] at h ⊢
  obtain ⟨b', hb', h⟩ := h
  obtain ⟨i, hi⟩ := List.mem_iff_getElem?.1 hb'
  rw [getElem?_deadStoreRound] at hi
  obtain ⟨b, hb, rfl⟩ := Option.map_eq_some_iff.1 hi
  refine ⟨b, List.mem_of_getElem? hb, ?_⟩
  rw [List.any_eq_true] at h ⊢
  obtain ⟨e, he, h⟩ := h
  refine ⟨e, ?_, h⟩
  simp only [Block.exprs, List.mem_append, List.mem_flatMap] at he ⊢
  refine he.imp_left fun ⟨st, hst, he⟩ ↦ ⟨st, ?_, he⟩
  exact (dropDead_sublist _ _).subset hst

/-- The rounds end after some of them; a round that drops nothing ends them. -/
theorem exists_deadStoreRounds (info : VarInfo) (budgetOk : ℕ → Bool) (k : ℕ) (g : List Block) :
    ∃ j ≤ k, deadStoreRounds info budgetOk k g = (deadStoreRound info)^[j] g := by
  induction k generalizing g with
  | zero => exact ⟨0, le_rfl, rfl⟩
  | succ k ih =>
    unfold deadStoreRounds
    split
    · exact ⟨0, Nat.zero_le _, rfl⟩
    · split
      · obtain ⟨j, hj, heq⟩ := ih (deadStoreRound info g)
        exact ⟨j + 1, by omega, heq⟩
      · exact ⟨1, by omega, rfl⟩

end Lemmas

end Ldu
