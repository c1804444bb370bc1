import Ldu.Vars.InvariantTemps
import Ldu.Vars.Liveness

/-!
# Locals that may be read before they are assigned

The emitter declares a local with an initial value when it may be read before it is assigned: the
blocks are swept, in the order of the list, for the variables assigned on every path to them,
starting from all variables, and a block that reads a variable outside that set before it assigns it
puts it in `maybeUninit`.

A variable is found out not to be assigned by as many sweeps as the path has edges that do not lead
to a later block of the list, and one more, exactly (`round_found`). So the sweeps are exact up to
their cap. But of the expressions of the terminator the tail call is not looked at: a local that is
read unassigned is found exactly if it is also read so elsewhere (`maybeUninit_complete_iff`).
-/

namespace Ldu

/-! ### What a block assigns and reads -/

/-- The variables a statement reads. -/
def Stmt.readSet : Stmt → Finset String
  | assign (.var _ _) rhs => rhs.readVars
  | assign lhs rhs => rhs.readVars ∪ lhs.readVars
  | call rhs => rhs.readVars
  | comment _ => ∅

/-- The variable a statement assigns. -/
def Stmt.defSet : Stmt → Finset String
  | assign (.var _ x) _ => {x}
  | _ => ∅

/-- The variables that a block assigns, those it reads before it assigns them, and all that it
mentions. -/
structure BlockSets where
  gen : Finset String := ∅
  ubd : Finset String := ∅
  all : Finset String := ∅

def BlockSets.read (s : BlockSets) (reads : Finset String) : BlockSets :=
  { s with ubd := s.ubd ∪ reads \ s.gen, all := s.all ∪ reads }

def BlockSets.define (s : BlockSets) (names : Finset String) : BlockSets :=
  { s with gen := s.gen ∪ names, all := s.all ∪ names }

/-- The fields of the terminator that are looked at: the condition, the returned value and the
selector of a switch. -/
def Block.uninitTerm (b : Block) : Finset String :=
  optReadVars b.cond ∪ optReadVars b.retValue ∪ optReadVars b.switchVar

def stmtSets (sts : List Stmt) (s : BlockSets) : BlockSets :=
  sts.foldl (fun s st ↦ (s.read st.readSet).define st.defSet) s

def Block.sets (b : Block) : BlockSets :=
  (stmtSets b.stmts {}).read b.uninitTerm

/-- The variables of the function. -/
def allVars (g : List Block) : Finset String :=
  (g.map fun b ↦ b.sets.all).foldr (· ∪ ·) ∅

/-- The block reads `n`, elsewhere than in a tail call, before it assigns it. -/
def Block.readsSeen (n : String) (b : Block) : Bool :=
  readsBefore n b.stmts ||
    (!assignsIn n b.stmts && (b.cond.toList ++ b.retValue.toList ++ b.switchVar.toList).any
      (·.readsNamedVar n))

/-- The block reads `n` in its tail call and assigns it nowhere. -/
def Block.tailReads (n : String) (b : Block) : Bool :=
  !assignsIn n b.stmts && b.tailCall.toList.any (·.readsNamedVar n)

section Sets

variable {v : String} {st : Stmt} {sts : List Stmt} {s : BlockSets} {b : Block} {g : List Block}
  {i : ℕ}

theorem readsFirst_eq : b.readsFirst v = (b.readsSeen v || b.tailReads v) := by
  simp only [Block.readsFirst, Block.readsSeen, Block.tailReads, Block.termReads, List.any_append]
  grind

theorem mem_readSet : v ∈ st.readSet ↔ st.reads v = true := by
  cases st with
  | assign lhs rhs =>
    cases lhs <;> simp [Stmt.readSet, Stmt.reads, Stmt.exprs, Expr.mem_readVars, or_comm]
  | call rhs => simp [Stmt.readSet, Stmt.reads, Stmt.exprs, Expr.mem_readVars]
  | comment => simp [Stmt.readSet, Stmt.reads, Stmt.exprs]

theorem mem_defSet : v ∈ st.defSet ↔ st.assigns v = true := by
  cases st with
  | assign lhs rhs =>
    cases lhs with
    | var ty x => simp [Stmt.defSet, Stmt.assigns, Stmt.defOf, eq_comm (a := v)]
    | _ => simp [Stmt.defSet, Stmt.assigns, Stmt.defOf]
  | _ => simp [Stmt.defSet, Stmt.assigns, Stmt.defOf]

theorem mem_gen_stmtSets : v ∈ (stmtSets sts s).gen ↔ v ∈ s.gen ∨ assignsIn v sts = true := by
  induction sts generalizing s with
  | nil => simp [stmtSets, assignsIn]
  | cons st sts ih =>
    rw [stmtSets, List.foldl_cons, ← stmtSets, ih]
    simp only [BlockSets.define, BlockSets.read, Finset.mem_union, mem_defSet, assignsIn,
      List.any_cons, Bool.or_eq_true, or_assoc]

theorem mem_ubd_stmtSets :
    v ∈ (stmtSets sts s).ubd ↔ v ∈ s.ubd ∨ (v ∉ s.gen ∧ readsBefore v sts = true) := by
  induction sts generalizing s with
  | nil => simp [stmtSets, readsBefore]
  | cons st sts ih =>
    rw [stmtSets, List.foldl_cons, ← stmtSets, ih]
    simp only [BlockSets.define, BlockSets.read, Finset.mem_union, Finset.mem_sdiff, mem_readSet,
      mem_defSet, readsBefore, Bool.or_eq_true, Bool.and_eq_true, Bool.not_eq_true']
    grind

theorem all_stmtSets (sts : List Stmt) (h : s.gen ⊆ s.all ∧ s.ubd ⊆ s.all) :
    (stmtSets sts s).gen ⊆ (stmtSets sts s).all ∧ (stmtSets sts s).ubd ⊆ (stmtSets sts s).all := by
  induction sts generalizing s with
  | nil => exact h
  | cons st sts ih =>
    rw [stmtSets, List.foldl_cons, ← stmtSets]
    refine ih ⟨?_, ?_⟩ <;> intro v hv <;>
      simp only [BlockSets.define, BlockSets.read, Finset.mem_union, Finset.mem_sdiff] at hv ⊢
    · rcases hv with hv | hv
      · exact .inl (.inl (h.1 hv))
      · exact .inr hv
    · rcases hv with hv | hv
      · exact .inl (.inl (h.2 hv))
      · exact .inl (.inr hv.1)

theorem mem_uninitTerm : v ∈ b.uninitTerm ↔
    (b.cond.toList ++ b.retValue.toList ++ b.switchVar.toList).any (·.readsNamedVar v) = true := by
  simp only [Block.uninitTerm, Finset.mem_union, mem_optReadVars, List.any_append, Bool.or_eq_true]

theorem mem_gen : v ∈ b.sets.gen ↔ assignsIn v b.stmts = true := by
  rw [Block.sets, BlockSets.read, mem_gen_stmtSets]
  simp

theorem mem_ubd : v ∈ b.sets.ubd ↔ b.readsSeen v = true := by
  simp only [Block.sets, BlockSets.read, Finset.mem_union, Finset.mem_sdiff, mem_ubd_stmtSets,
    mem_gen_stmtSets, mem_uninitTerm, Block.readsSeen, Bool.or_eq_true, Bool.and_eq_true,
    Bool.not_eq_true', Finset.notMem_empty, false_or, not_false_eq_true, true_and,
    Bool.not_eq_true]
  tauto

theorem ubd_subset_all : b.sets.ubd ⊆ b.sets.all := by
  have h := (all_stmtSets (s := {}) b.stmts (by simp)).2
  exact Finset.union_subset_union h Finset.sdiff_subset

theorem mem_allVars (hb : g[i]? = some b) (hv : v ∈ b.sets.ubd) : v ∈ allVars g := by
  have hmem := List.mem_of_getElem? hb
  clear hb
  induction g with
  | nil => cases hmem
  | cons c g ih =>
    change v ∈ c.sets.all ∪ allVars g
    rcases List.mem_cons.1 hmem with rfl | hmem
    · exact Finset.mem_union_left _ (ubd_subset_all hv)
    · exact Finset.mem_union_right _ (ih hmem)

end Sets

/-! ### The sweeps -/

/-- The sets the sweeps compute: what is assigned on every path to a block, and to its end. -/
structure AssignedSets where
  assignedIn : ℕ → Finset String := fun _ ↦ ∅
  assignedOut : ℕ → Finset String
  /-- Some set changed in this sweep. -/
  changed : Bool := false

/-- What is assigned at the end of one more predecessor, if it is a block, and of those before. -/
def meetPred (size : ℕ) (out : ℕ → Finset String) (ni : Option (Finset String)) (p : ℕ) :
    Option (Finset String) :=
  if p < size then
    match ni with
    | none => some (out p)
    | some s => some (s ∩ out p)
  else ni

/-- What is assigned at the end of all predecessors that are blocks, if there is one. -/
def meetPreds (size : ℕ) (out : ℕ → Finset String) (preds : List ℕ) : Option (Finset String) :=
  preds.foldl (meetPred size out) none

section Sweeps

variable (g : List Block) (entry : ℕ)

/-- Nothing is assigned at the entry and where no block leads. -/
def assignedAt (out : ℕ → Finset String) (i : ℕ) (b : Block) : Finset String :=
  if i = entry then ∅ else (meetPreds g.length out b.pred).getD ∅

def assignVisit (i : ℕ) (st : AssignedSets) : AssignedSets :=
  match g[i]? with
  | none => st
  | some b =>
    let ni := assignedAt g entry st.assignedOut i b
    let no := ni ∪ b.sets.gen
    { assignedIn := Function.update st.assignedIn i ni
      assignedOut := Function.update st.assignedOut i no
      changed := st.changed || no ≠ st.assignedOut i }

/-- Visit the first `i` blocks. -/
def assignVisits : ℕ → AssignedSets → AssignedSets
  | 0, st => st
  | i + 1, st => assignVisit g entry i (assignVisits i st)

def assignRound (st : AssignedSets) : AssignedSets :=
  assignVisits g entry g.length { st with changed := false }

/-- Sweeps until nothing changes, at most `k`; `budgetOk k` says whether the deadline has not
passed with `k` more to go. -/
def assignRounds (budgetOk : ℕ → Bool) : ℕ → AssignedSets → AssignedSets
  | 0, st => st
  | k + 1, st =>
    if !budgetOk k then st
    else
      let st' := assignRound g entry st
      if st'.changed then assignRounds budgetOk k st' else st'

/-- The sets after the sweeps. -/
def assignedSets (budgetOk : ℕ → Bool) : AssignedSets :=
  assignRounds g entry budgetOk 200000 { assignedOut := fun _ ↦ allVars g }

/-- Parameters, placeholders of registers and arrays get no initial value. -/
def isExempt (arrays : Finset String) (v : String) : Bool :=
  isParamName v || Expr.startsWith v "in_" || v ∈ arrays

/-- The locals that are declared with an initial value. -/
def maybeUninit (arrays : Finset String) (budgetOk : ℕ → Bool) : Finset String :=
  (Finset.range g.length).biUnion fun i ↦
    match g[i]? with
    | none => ∅
    | some b => b.sets.ubd.filter fun v ↦
        v ∉ (assignedSets g entry budgetOk).assignedIn i ∧ isExempt arrays v = false

end Sweeps

/-! ### Paths -/

section Paths

variable (g : List Block) (entry : ℕ) (v : String)

/-- A path that does not assign `v` leads along the predecessor lists from the entry, or from a
block without predecessors, to the start of block `i`, with `k` edges that do not lead to a later
block. -/
inductive Unassigned : ℕ → ℕ → Prop
  | source {i : ℕ} {b : Block} (hb : g[i]? = some b)
      (h : i = entry ∨ ∀ p ∈ b.pred, g.length ≤ p) : Unassigned 0 i
  | step {k p i : ℕ} {c b : Block} (hc : g[p]? = some c) (hb : g[i]? = some b) (hp : p ∈ b.pred)
      (hkeep : assignsIn v c.stmts = false) (h : Unassigned k p) : Unassigned (k + back p i) i

/-- A path from the entry along the successor lists leads to the start of block `i` and does not
assign `v`. -/
inductive Reaches : ℕ → Prop
  | entry {b : Block} (hb : g[entry]? = some b) : Reaches entry
  | step {p i : ℕ} {c b : Block} (hc : g[p]? = some c) (hb : g[i]? = some b) (hi : i ∈ c.succ)
      (hkeep : assignsIn v c.stmts = false) (h : Reaches p) : Reaches i

/-- At the end of some path from the entry that does not assign `v` is a block that reads it, in
the way `reads` says. -/
def ReadUnassigned (reads : String → Block → Bool) : Prop :=
  ∃ i b, g[i]? = some b ∧ Reaches g entry v i ∧ reads v b = true

/-- Something else than a tail call reads `v` at the end of a path from the entry, or from a block
without predecessors, with less than `rounds` edges that do not lead to a later block; if there are
no rounds, anywhere. -/
def SeenUnassigned (rounds : ℕ) : Prop :=
  ∃ i b, g[i]? = some b ∧ b.readsSeen v = true ∧
    (rounds = 0 ∨ ∃ k < rounds, Unassigned g entry v k i)

end Paths

/-- The predecessor lists have every edge of the successor lists. -/
def PredsComplete (g : List Block) : Prop :=
  ∀ (p i : ℕ) (c b : Block), g[p]? = some c → g[i]? = some b → i ∈ c.succ → p ∈ b.pred

theorem PredsComplete.of_forall {g : List Block}
    (h : ∀ p < g.length, ∀ i ∈ succOf g p, i < g.length → p ∈ predOf g i) : PredsComplete g := by
  intro p i c b hc hb hi
  have hp := (List.getElem?_eq_some_iff.1 hc).1
  have hmem := h p hp i (by rwa [succOf, hc]) (List.getElem?_eq_some_iff.1 hb).1
  rwa [predOf, hb] at hmem

/-! ### What the sweeps find -/

section Found

variable {g : List Block} {entry : ℕ} {v : String} {i m : ℕ} {b : Block} {st : AssignedSets}

theorem not_mem_foldl_meetPred {size : ℕ} {out : ℕ → Finset String} {preds : List ℕ}
    {ni : Option (Finset String)} :
    v ∉ (preds.foldl (meetPred size out) ni).getD ∅ ↔
      (ni = none ∧ ∀ p ∈ preds, size ≤ p) ∨ (∃ s ∈ ni, v ∉ s) ∨
        ∃ p ∈ preds, p < size ∧ v ∉ out p := by
  induction preds generalizing ni with
  | nil => cases ni <;> simp
  | cons p preds ih =>
    rw [List.foldl_cons, ih]
    unfold meetPred
    by_cases hp : p < size
    · cases ni with
      | none => simp [hp]
      | some s => simp [hp, imp_iff_not_or, or_assoc]
    · simp [hp, not_lt.1 hp]

theorem not_mem_meetPreds {size : ℕ} {out : ℕ → Finset String} {preds : List ℕ} :
    v ∉ (meetPreds size out preds).getD ∅ ↔
      (∀ p ∈ preds, size ≤ p) ∨ ∃ p ∈ preds, p < size ∧ v ∉ out p := by
  rw [meetPreds, not_mem_foldl_meetPred]
  simp

/-- What is found not to be assigned, at the start of a block and at its end, after `m` sweeps. -/
structure FoundAt (g : List Block) (entry : ℕ) (v : String) (m i : ℕ) (st : AssignedSets) :
    Prop where
  out : ∀ b, g[i]? = some b → (v ∉ st.assignedOut i ↔
    assignsIn v b.stmts = false ∧ ∃ k < m, Unassigned g entry v k i)
  ins : ∀ b, g[i]? = some b → 0 < m →
    (v ∉ st.assignedIn i ↔ ∃ k < m, Unassigned g entry v k i)

/-- The last edge of a path to a block. -/
theorem exists_unassigned_iff (hb : g[i]? = some b) (hentry : i ≠ entry) {P : ℕ → Prop} :
    (∃ k, P k ∧ Unassigned g entry v k i) ↔
      (P 0 ∧ ∀ p ∈ b.pred, g.length ≤ p) ∨
        ∃ p ∈ b.pred, ∃ c, g[p]? = some c ∧ assignsIn v c.stmts = false ∧
          ∃ k, P (k + back p i) ∧ Unassigned g entry v k p := by
  constructor
  · rintro ⟨k, hk, h⟩
    cases h with
    | @source _ b' hb' h =>
      obtain rfl : b' = b := Option.some.inj (hb'.symm.trans hb)
      exact .inl ⟨hk, h.resolve_left hentry⟩
    | @step k p _ c b' hc hb' hp hkeep h =>
      obtain rfl : b' = b := Option.some.inj (hb'.symm.trans hb)
      exact .inr ⟨p, hp, c, hc, hkeep, k, hk, h⟩
  · rintro (⟨hk, h⟩ | ⟨p, hp, c, hc, hkeep, k, hk, h⟩)
    · exact ⟨0, hk, .source hb (.inr h)⟩
    · exact ⟨_, hk, .step hc hb hp hkeep h⟩

/-- A block of a sweep: the blocks before it were visited in this sweep. -/
theorem not_mem_assignedAt (hb : g[i]? = some b)
    (hbefore : ∀ p < i, FoundAt g entry v (m + 1) p st)
    (hback : ∀ p, i ≤ p → FoundAt g entry v m p st) :
    v ∉ assignedAt g entry st.assignedOut i b ↔ ∃ k < m + 1, Unassigned g entry v k i := by
  rw [assignedAt]
  by_cases hentry : i = entry
  · rw [if_pos hentry]
    exact iff_of_true (Finset.notMem_empty v) ⟨0, Nat.succ_pos m, .source hb (.inl hentry)⟩
  rw [if_neg hentry, not_mem_meetPreds, exists_unassigned_iff hb hentry]
  refine or_congr (by simp) (exists_congr fun p ↦ and_congr_right fun _ ↦ ?_)
  by_cases hp : p < g.length
  · have hc : g[p]? = some g[p] := List.getElem?_eq_getElem hp
    rw [hc]
    simp only [hp, true_and, Option.some.injEq, exists_eq_left']
    by_cases hpi : p < i
    · rw [(hbefore p hpi).out _ hc, back, if_neg (not_le.2 hpi)]
      rfl
    · rw [(hback p (not_lt.1 hpi)).out _ hc, back, if_pos (not_lt.1 hpi)]
      simp only [Nat.add_lt_add_iff_right]
  · simp [hp]

/-- Visiting the first blocks. -/
theorem assignVisits_found (h : ∀ j, FoundAt g entry v m j st) (i j : ℕ) :
    FoundAt g entry v (if j < i then m + 1 else m) j (assignVisits g entry i st) := by
  induction i generalizing j with
  | zero => exact h j
  | succ i ih =>
    rw [assignVisits, assignVisit]
    cases hb : g[i]? with
    | none =>
      refine ⟨fun c hc ↦ ?_, fun c hc ↦ ?_⟩
      all_goals
        have hj : j ≠ i := by
          rintro rfl
          cases hb.symm.trans hc
        have hlt : j < i + 1 ↔ j < i := by omega
        simp only [hlt]
      · exact (ih j).out c hc
      · exact (ih j).ins c hc
    | some b =>
      have hin := not_mem_assignedAt hb (fun p hp ↦ by simpa [hp] using ih p)
        (fun p hp ↦ by simpa [not_lt.2 hp] using ih p)
      by_cases hj : j = i
      · subst hj
        rw [if_pos (Nat.lt_succ_self j)]
        refine ⟨fun c hc ↦ ?_, fun c hc _ ↦ ?_⟩
        · obtain rfl : b = c := Option.some.inj (hb.symm.trans hc)
          simp only [Function.update_self, Finset.mem_union, not_or, hin, mem_gen,
            Bool.not_eq_true]
          exact and_comm
        · simpa only [Function.update_self] using hin
      · have hlt : j < i + 1 ↔ j < i := by omega
        have hj' := ih j
        simp only [hlt]
        exact ⟨fun c hc ↦ by simpa only [Function.update_of_ne hj] using hj'.out c hc,
          fun c hc ↦ by simpa only [Function.update_of_ne hj] using hj'.ins c hc⟩

/-- **A sweep follows one more edge that does not lead to a later block.** -/
theorem assignRound_found (h : ∀ j, FoundAt g entry v m j st) (j : ℕ) :
    FoundAt g entry v (m + 1) j (assignRound g entry st) := by
  have hreset (j : ℕ) : FoundAt g entry v m j { st with changed := false } :=
    ⟨(h j).out, (h j).ins⟩
  have hvisit := assignVisits_found hreset g.length j
  by_cases hj : j < g.length
  · rwa [if_pos hj] at hvisit
  · have hnone : g[j]? = none := List.getElem?_eq_none (not_lt.1 hj)
    exact ⟨fun c hc ↦ absurd (hnone.symm.trans hc) (by simp),
      fun c hc ↦ absurd (hnone.symm.trans hc) (by simp)⟩

/-! ### The end of the sweeps -/

/-- The sets are a solution of the equations. -/
def AssignedSets.Stable (g : List Block) (entry : ℕ) (st : AssignedSets) : Prop :=
  ∀ j b, g[j]? = some b → st.assignedIn j = assignedAt g entry st.assignedOut j b ∧
    st.assignedOut j = st.assignedIn j ∪ b.sets.gen

theorem assignVisits_unchanged (h : (assignVisits g entry i st).changed = false) :
    st.changed = false ∧ (assignVisits g entry i st).assignedOut = st.assignedOut ∧
      ∀ j < i, ∀ b, g[j]? = some b →
        (assignVisits g entry i st).assignedIn j = assignedAt g entry st.assignedOut j b ∧
          st.assignedOut j = assignedAt g entry st.assignedOut j b ∪ b.sets.gen := by
  induction i with
  | zero => exact ⟨h, rfl, fun j hj ↦ absurd hj (Nat.not_lt_zero j)⟩
  | succ i ih =>
    rw [assignVisits] at h ⊢
    unfold assignVisit at h ⊢
    cases hb : g[i]? with
    | none =>
      rw [hb] at h
      obtain ⟨hch, hout, hall⟩ := ih h
      refine ⟨hch, hout, fun j hj b hj' ↦ ?_⟩
      rcases Nat.eq_or_lt_of_le (Nat.le_of_lt_succ hj) with rfl | hlt
      · exact absurd (hb.symm.trans hj') (by simp)
      · exact hall j hlt b hj'
    | some c =>
      rw [hb] at h
      simp only [Bool.or_eq_false_iff, decide_eq_false_iff_not, not_not] at h
      obtain ⟨hch, hout, hall⟩ := ih h.1
      have hsame := h.2
      rw [hout] at hsame
      refine ⟨hch, ?_, fun j hj b hj' ↦ ?_⟩
      · simp only [hout]
        rw [hsame, Function.update_eq_self]
      · rcases Nat.eq_or_lt_of_le (Nat.le_of_lt_succ hj) with rfl | hlt
        · obtain rfl : c = b := Option.some.inj (hb.symm.trans hj')
          simp only [hout, Function.update_self, true_and]
          exact hsame.symm
        · simp only [Function.update_of_ne hlt.ne]
          exact hall j hlt b hj'

/-- A sweep that changes nothing leaves a solution. -/
theorem assignRound_stable (h : (assignRound g entry st).changed = false) :
    (assignRound g entry st).Stable g entry := by
  obtain ⟨-, hout, hall⟩ := assignVisits_unchanged h
  intro j b hb
  obtain ⟨hin, heq⟩ := hall j (List.getElem?_eq_some_iff.1 hb).1 b hb
  unfold assignRound
  rw [hout, hin]
  exact ⟨rfl, heq⟩

/-- A solution has no variable that some path does not assign. -/
theorem AssignedSets.Stable.not_mem (hst : st.Stable g entry) {k : ℕ}
    (h : Unassigned g entry v k i) : v ∉ st.assignedIn i := by
  induction h with
  | @source i b hb h =>
    rw [(hst i b hb).1, assignedAt]
    split
    · exact Finset.notMem_empty v
    · next hentry => exact not_mem_meetPreds.2 (.inl (h.resolve_left hentry))
  | @step k p i c b hc hb hp hkeep _ ih =>
    rw [(hst i b hb).1, assignedAt]
    split
    · exact Finset.notMem_empty v
    · refine not_mem_meetPreds.2 (.inr ⟨p, hp, (List.getElem?_eq_some_iff.1 hc).1, ?_⟩)
      rw [(hst p c hc).2, Finset.mem_union, not_or]
      exact ⟨ih, by simp [mem_gen, hkeep]⟩

/-- What is found does not change then with more sweeps. -/
theorem FoundAt.of_stable {m' : ℕ} (hst : st.Stable g entry) (h : FoundAt g entry v m i st)
    (hm : 0 < m) (hle : m ≤ m') : FoundAt g entry v m' i st := by
  have hins : ∀ b, g[i]? = some b →
      (v ∉ st.assignedIn i ↔ ∃ k < m', Unassigned g entry v k i) := fun b hb ↦
    ⟨fun hv ↦ ((h.ins b hb hm).1 hv).imp fun k hk ↦ ⟨hk.1.trans_le hle, hk.2⟩,
      fun ⟨_, _, hk⟩ ↦ hst.not_mem hk⟩
  refine ⟨fun b hb ↦ ?_, fun b hb _ ↦ hins b hb⟩
  rw [(hst i b hb).2, Finset.mem_union, not_or, hins b hb, mem_gen, Bool.not_eq_true]
  exact and_comm

/-- The sweeps that the deadline leaves, of `k`. -/
def roundsAllowed (budgetOk : ℕ → Bool) : ℕ → ℕ
  | 0 => 0
  | k + 1 => if budgetOk k then roundsAllowed budgetOk k + 1 else 0

theorem assignRounds_found {n : ℕ} (budgetOk : ℕ → Bool) (h : ∀ j, FoundAt g entry v m j st)
    (j : ℕ) : FoundAt g entry v (m + roundsAllowed budgetOk n) j
      (assignRounds g entry budgetOk n st) := by
  induction n generalizing m st with
  | zero => exact h j
  | succ n ih =>
    rw [assignRounds, roundsAllowed]
    cases hok : budgetOk n with
    | false => exact h j
    | true =>
      have hround := assignRound_found h
      simp only [Bool.not_true, Bool.false_eq_true, if_false, if_true]
      rw [← Nat.add_assoc, Nat.add_right_comm]
      split
      · exact ih hround
      · next hch =>
        exact (hround j).of_stable (assignRound_stable (by simpa using hch)) (Nat.succ_pos m)
          (Nat.le_add_right _ _)

theorem assignRounds_eq_of_zero {budgetOk : ℕ → Bool} {n : ℕ}
    (h : roundsAllowed budgetOk n = 0) : assignRounds g entry budgetOk n st = st := by
  cases n with
  | zero => rfl
  | succ n =>
    rw [roundsAllowed] at h
    rw [assignRounds]
    split at h
    · exact absurd h (Nat.succ_ne_zero _)
    · next hok => simp [hok]

/-- **The sweeps are exact up to their number.** -/
theorem not_mem_assignedIn {budgetOk : ℕ → Bool} (hb : g[i]? = some b) (hv : v ∈ allVars g) :
    v ∉ (assignedSets g entry budgetOk).assignedIn i ↔ roundsAllowed budgetOk 200000 = 0 ∨
      ∃ k < roundsAllowed budgetOk 200000, Unassigned g entry v k i := by
  unfold assignedSets
  generalize 200000 = n
  rcases Nat.eq_zero_or_pos (roundsAllowed budgetOk n) with hzero | hpos
  · rw [assignRounds_eq_of_zero hzero]
    exact iff_of_true (Finset.notMem_empty v) (.inl hzero)
  · have hinit (j : ℕ) : FoundAt g entry v 0 j { assignedOut := fun _ ↦ allVars g } :=
      ⟨fun b _ ↦ by simp [hv], fun _ _ h ↦ absurd h (lt_irrefl 0)⟩
    have hfound := assignRounds_found (n := n) budgetOk hinit i
    rw [Nat.zero_add] at hfound
    rw [hfound.ins b hb hpos, or_iff_right hpos.ne']

end Found

/-! ### Enough sweeps -/

section Enough

variable {g : List Block} {entry : ℕ} {v : String} {i m : ℕ}

theorem Unassigned.lt {k : ℕ} (h : Unassigned g entry v k i) : i < g.length := by
  cases h with
  | source hb => exact (List.getElem?_eq_some_iff.1 hb).1
  | step _ hb => exact (List.getElem?_eq_some_iff.1 hb).1

theorem Unassigned.exists_source {k : ℕ} (h : Unassigned g entry v k i) :
    ∃ j, Unassigned g entry v 0 j := by
  induction h with
  | source hb h => exact ⟨_, .source hb h⟩
  | step _ _ _ _ _ ih => exact ih

/-- If one more edge back leads to no other block, no path does. -/
theorem Unassigned.exists_le (hm : ∀ j k, k ≤ m + 1 → Unassigned g entry v k j →
    ∃ k ≤ m, Unassigned g entry v k j) {k : ℕ} (h : Unassigned g entry v k i) :
    ∃ k ≤ m, Unassigned g entry v k i := by
  induction h with
  | source hb h => exact ⟨0, Nat.zero_le m, .source hb h⟩
  | @step k p i c b hc hb hp hkeep _ ih =>
    obtain ⟨k', hk', hpath⟩ := ih
    refine hm i _ ?_ (.step hc hb hp hkeep hpath)
    rw [back]
    split <;> omega

open Classical in
/-- Paths with fewer edges back than there are blocks lead everywhere. -/
theorem Unassigned.exists_lt {k : ℕ} (h : Unassigned g entry v k i) :
    ∃ k < g.length, Unassigned g entry v k i := by
  by_cases hstop : ∃ m < g.length, ∀ j k, k ≤ m + 1 → Unassigned g entry v k j →
      ∃ k ≤ m, Unassigned g entry v k j
  · obtain ⟨m, hm, hle⟩ := hstop
    obtain ⟨k', hk', hpath⟩ := h.exists_le hle
    exact ⟨k', hk'.trans_lt hm, hpath⟩
  -- Otherwise each edge back leads to one more block.
  exfalso
  push Not at hstop
  let found (m : ℕ) : Finset ℕ :=
    (Finset.range g.length).filter fun j ↦ ∃ k ≤ m, Unassigned g entry v k j
  have hgrow : ∀ m ≤ g.length, m + 1 ≤ (found m).card := by
    intro m
    induction m with
    | zero =>
      obtain ⟨j, hj⟩ := h.exists_source
      exact fun _ ↦ Finset.card_pos.2
        ⟨j, Finset.mem_filter.2 ⟨Finset.mem_range.2 hj.lt, 0, le_rfl, hj⟩⟩
    | succ m ih =>
      intro hm
      obtain ⟨j, k, hk, hpath, hnot⟩ := hstop m hm
      have hsub : found m ⊆ found (m + 1) := fun j hj ↦ by
        obtain ⟨hj, k, hk, hpath⟩ := Finset.mem_filter.1 hj
        exact Finset.mem_filter.2 ⟨hj, k, by omega, hpath⟩
      have hj : j ∈ found (m + 1) :=
        Finset.mem_filter.2 ⟨Finset.mem_range.2 hpath.lt, k, hk, hpath⟩
      have hj' : j ∉ found m := fun hj ↦ by
        obtain ⟨-, k', hk', hpath'⟩ := Finset.mem_filter.1 hj
        exact hnot k' hk' hpath'
      exact (ih (by omega)).trans_lt (Finset.card_lt_card ⟨hsub, fun hss ↦ hj' (hss hj)⟩)
  have hcard : (found g.length).card ≤ g.length :=
    (Finset.card_filter_le _ _).trans (Finset.card_range _).le
  have := hgrow g.length le_rfl
  omega

/-- With complete predecessor lists, the paths from the entry are among those that are followed. -/
theorem Reaches.exists_unassigned (hpred : PredsComplete g) (h : Reaches g entry v i) :
    ∃ k, Unassigned g entry v k i := by
  induction h with
  | entry hb => exact ⟨0, .source hb (.inl rfl)⟩
  | @step p i c b hc hb hi hkeep _ ih =>
    obtain ⟨k, hk⟩ := ih
    exact ⟨_, .step hc hb (hpred p i c b hc hb hi) hkeep hk⟩

/-- With as many sweeps as there are blocks, no read is missed but in a tail call. -/
theorem ReadUnassigned.seen (hpred : PredsComplete g) {rounds : ℕ} (hle : g.length ≤ rounds)
    (h : ReadUnassigned g entry v Block.readsSeen) : SeenUnassigned g entry v rounds := by
  obtain ⟨i, b, hb, hreach, hread⟩ := h
  obtain ⟨k, hk⟩ := hreach.exists_unassigned hpred
  obtain ⟨k', hk', hpath⟩ := hk.exists_lt
  exact ⟨i, b, hb, hread, .inr ⟨k', hk'.trans_le hle, hpath⟩⟩

end Enough

/-! ### Which reads get an initial value -/

theorem mem_maybeUninit_iff {g : List Block} {entry : ℕ} {v : String} {arrays : Finset String}
    {budgetOk : ℕ → Bool} : v ∈ maybeUninit g entry arrays budgetOk ↔
      isExempt arrays v = false ∧
        SeenUnassigned g entry v (roundsAllowed budgetOk 200000) := by
  rw [maybeUninit, Finset.mem_biUnion]
  constructor
  · rintro ⟨i, -, hv⟩
    cases hb : g[i]? with
    | none =>
      rw [hb] at hv
      exact absurd hv (Finset.notMem_empty v)
    | some b =>
      rw [hb] at hv
      obtain ⟨hubd, hin, hexempt⟩ := Finset.mem_filter.1 hv
      exact ⟨hexempt, i, b, hb, mem_ubd.1 hubd, (not_mem_assignedIn hb (mem_allVars hb hubd)).1 hin⟩
  · rintro ⟨hexempt, i, b, hb, hread, hpath⟩
    have hubd := mem_ubd.2 hread
    refine ⟨i, Finset.mem_range.2 (List.getElem?_eq_some_iff.1 hb).1, ?_⟩
    rw [hb]
    exact Finset.mem_filter.2
      ⟨hubd, (not_mem_assignedIn hb (mem_allVars hb hubd)).2 hpath, hexempt⟩

theorem readUnassigned_readsFirst {g : List Block} {entry : ℕ} {v : String} :
    ReadUnassigned g entry v Block.readsFirst ↔
      ReadUnassigned g entry v Block.tailReads ∨ ReadUnassigned g entry v Block.readsSeen := by
  simp only [ReadUnassigned, readsFirst_eq, Bool.or_eq_true]
  grind

/-- **Tail calls are not looked at.** Every local that some path from the entry reads before any
assignment to it gets an initial value exactly if each that a tail call reads so is also read
elsewhere in this way, and each that is read elsewhere is so behind few enough edges back. -/
theorem maybeUninit_complete_iff (g : List Block) (entry : ℕ) (arrays : Finset String)
    (budgetOk : ℕ → Bool) :
    (∀ v, ReadUnassigned g entry v Block.readsFirst →
        v ∈ maybeUninit g entry arrays budgetOk ∨ isExempt arrays v = true) ↔
      (∀ v, isExempt arrays v = false → ReadUnassigned g entry v Block.tailReads →
        SeenUnassigned g entry v (roundsAllowed budgetOk 200000)) ∧
      ∀ v, isExempt arrays v = false → ReadUnassigned g entry v Block.readsSeen →
        SeenUnassigned g entry v (roundsAllowed budgetOk 200000) := by
  simp only [mem_maybeUninit_iff, readUnassigned_readsFirst]
  grind

/-- The second of the conditions holds of all graphs with at most as many blocks as sweeps. -/
theorem maybeUninit_complete_iff_of_le {g : List Block} {entry : ℕ} {arrays : Finset String}
    {budgetOk : ℕ → Bool} (hpred : PredsComplete g)
    (hle : g.length ≤ roundsAllowed budgetOk 200000) :
    (∀ v, ReadUnassigned g entry v Block.readsFirst →
        v ∈ maybeUninit g entry arrays budgetOk ∨ isExempt arrays v = true) ↔
      ∀ v, isExempt arrays v = false → ReadUnassigned g entry v Block.tailReads →
        SeenUnassigned g entry v (roundsAllowed budgetOk 200000) := by
  rw [maybeUninit_complete_iff, and_iff_left]
  exact fun v _ h ↦ h.seen hpred hle

/-- `if (a1 != 0) v1 = 5;` before the tail call `return g(v1);`. -/
def oneArm : List Block :=
  [{ succ := [1, 2], taken := some 2, fall := some 1, ends := .jcc
     cond := some (.mkBinary .eq (.mkVar "a1") (.mkConst 0) 4) },
    { succ := [2], pred := [0], fall := some 2
      stmts := [.assign (.mkVar "v1") (.mkConst 5)] },
    { pred := [0, 1], ends := .jmp, tailCall := some (.call {} "g" false 0 [.mkVar "v1"]) }]

/-- Past the assignment the tail call reads `v1`, which gets no initial value. -/
theorem oneArm_missed :
    PredsComplete oneArm ∧
      ¬∀ v, ReadUnassigned oneArm 0 v Block.readsFirst →
        v ∈ maybeUninit oneArm 0 ∅ (fun _ ↦ true) ∨ isExempt ∅ v = true := by
  refine ⟨.of_forall (by decide), fun h ↦ ?_⟩
  have hreach : Reaches oneArm 0 "v1" 2 :=
    .step (p := 0) rfl rfl (by decide) (by decide) (.entry rfl)
  rcases h "v1" ⟨2, _, rfl, hreach, by decide⟩ with hmem | hexempt
  · revert hmem
    decide +kernel
  · revert hexempt
    decide

end Ldu
