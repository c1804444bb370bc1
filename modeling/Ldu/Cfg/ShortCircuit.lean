import Ldu.Semantics.Flow
import Ldu.Ir.Fold

/-!
# Merging short-circuit conditions

`mergeShortCircuit` folds a two-way block `B` without statements into the two-way block `A`
that falls through to it, when `A` is its only predecessor and the two share a target: `A`
then branches on `cA || cB` or `cA || !cB`, and `B` is retired.

A merge is described by a `Merge`; the pass performs a list of them (`merges`), rebuilding the
edges before each. One merge keeps the behaviour from every block but the retired one
(`apply_sameBehaviour`), so the pass keeps the behaviour from block `0` as long as block `0`
is not retired. Nothing in the pass prevents that: the predecessor list that guards a merge
does not record that the function is entered at block `0` (`mergeShortCircuit_retires_entry`).
-/

namespace Ldu

open Ldu.Expr

/-- The condition and the two successors of a block that ends in a conditional jump. -/
def Block.twoWay (b : Block) : Option (Expr × ℕ × ℕ) :=
  if b.isSwitch || b.ends != .jcc then none
  else do
    let c ← b.cond
    let t ← b.taken
    let f ← b.fall
    pure (c, t, f)

/-- The working state: the blocks, and those merged away. -/
structure ShortCircuit where
  blocks : List Block
  merged : Finset ℕ

namespace ShortCircuit

/-- One merge: block `b` folds into block `a`, which then branches on `comb` to `nt` or `nf`. -/
structure Merge where
  a : ℕ
  b : ℕ
  comb : Expr
  nt : ℕ
  nf : ℕ

/-- The combined condition and targets of a branch on `ca` to `at'` that falls through to a
branch on `cb` to `bt` or `bf`. -/
def combine (demorgan : Bool) (ca : Expr) (at' : ℕ) (cb : Expr) (bt bf : ℕ) :
    Option (Expr × ℕ × ℕ) :=
  if bt = at' ∧ bf ≠ at' then some (mkBinary .lor ca cb 4, at', bf)
  else if bf = at' ∧ bt ≠ at' then some (mkBinary .lor ca (negateExpr demorgan cb) 4, at', bt)
  else none

/-- The merge of the fall-through successor of block `a` into it, when it is possible. -/
def mergeAt (demorgan : Bool) (st : ShortCircuit) (a : ℕ) : Option Merge := do
  guard (a ∉ st.merged)
  let A ← st.blocks[a]?
  let (ca, at', b) ← A.twoWay
  guard (b ∉ st.merged ∧ b ≠ a)
  let B ← st.blocks[b]?
  let (cb, bt, bf) ← B.twoWay
  guard (B.pred = [a] ∧ B.stmtsEmpty)
  let (comb, nt, nf) ← combine demorgan ca at' cb bt bf
  guard (nt ≠ b ∧ nf ≠ b ∧ nt ≠ a ∧ nf ≠ a)
  pure ⟨a, b, comb, nt, nf⟩

/-- Fold the combined condition, and collapse a duplicated predicate. -/
def simplify (P : PtrInfo) (comb : Expr) : Expr :=
  match fold P comb with
  | binary ty op x y =>
    if (op == .lor || op == .land) && exprEqual x y && !hasCall x then x else binary ty op x y
  | e => e

def apply (P : PtrInfo) (st : ShortCircuit) (m : Merge) : ShortCircuit where
  blocks := st.blocks.modify m.a fun A ↦
    { A with cond := some (simplify P m.comb), taken := some m.nt, fall := some m.nf }
  merged := insert m.b st.merged

def rebuild (st : ShortCircuit) : ShortCircuit :=
  { st with blocks := rebuildEdges st.merged st.blocks }

/-- The first merge possible, in the order of the blocks. -/
def firstMerge (demorgan : Bool) (st : ShortCircuit) : Option Merge :=
  (List.range st.blocks.length).findSome? (mergeAt demorgan st)

/-- At most `n` rounds of the pass. -/
def rounds (P : PtrInfo) (demorgan : Bool) : ℕ → ShortCircuit → ShortCircuit
  | 0, st => st
  | n + 1, st =>
    match st.rebuild.firstMerge demorgan with
    | some m => rounds P demorgan n (st.rebuild.apply P m)
    | none => st.rebuild

/-- The merges those rounds perform. -/
def merges (P : PtrInfo) (demorgan : Bool) : ℕ → ShortCircuit → List Merge
  | 0, _ => []
  | n + 1, st =>
    match st.rebuild.firstMerge demorgan with
    | some m => m :: merges P demorgan n (st.rebuild.apply P m)
    | none => []

end ShortCircuit

/-- The pass on a block graph. -/
def mergeShortCircuit (P : PtrInfo) (demorgan : Bool) (g : List Block) : ShortCircuit :=
  (ShortCircuit.rounds P demorgan 4000 ⟨g, ∅⟩).rebuild

namespace ShortCircuit

/-! ### What a merge requires -/

theorem twoWay_eq_some {b : Block} {c : Expr} {t f : ℕ} :
    b.twoWay = some (c, t, f) ↔
      b.isSwitch = false ∧ b.ends = .jcc ∧ b.cond = some c ∧ b.taken = some t ∧
        b.fall = some f := by
  unfold Block.twoWay
  cases hsw : b.isSwitch
  · cases hends : b.ends <;> simp [Option.bind_eq_some_iff]
  · simp

/-- The facts a possible merge rests on. -/
structure Fits (demorgan : Bool) (st : ShortCircuit) (m : Merge) (A B : Block)
    (ca cb : Expr) (bt bf : ℕ) : Prop where
  a_live : m.a ∉ st.merged
  b_live : m.b ∉ st.merged
  ne : m.b ≠ m.a
  getA : st.blocks[m.a]? = some A
  getB : st.blocks[m.b]? = some B
  twoA : ∃ at', A.twoWay = some (ca, at', m.b) ∧
    combine demorgan ca at' cb bt bf = some (m.comb, m.nt, m.nf)
  twoB : B.twoWay = some (cb, bt, bf)
  pred : B.pred = [m.a]
  empty : B.stmtsEmpty = true
  nt_ne : m.nt ≠ m.b
  nf_ne : m.nf ≠ m.b

theorem fits_of_mergeAt {demorgan : Bool} {st : ShortCircuit} {a : ℕ} {m : Merge}
    (h : st.mergeAt demorgan a = some m) :
    ∃ A B ca cb bt bf, Fits demorgan st m A B ca cb bt bf := by
  simp only [mergeAt, Option.bind_eq_bind, Option.bind_eq_some_iff, Option.guard_eq_some',
    Option.pure_def, Option.some.injEq, Prod.exists] at h
  obtain ⟨-, ha, A, hA, ca, at', b, hA2, -, ⟨hb, hba⟩, B, hB, cb, bt, bf, hB2, -,
    ⟨hpred, hempty⟩, comb, nt, nf, hcomb, -, ⟨hnt, hnf, -, -⟩, rfl⟩ := h
  exact ⟨A, B, ca, cb, bt, bf, ha, hb, hba, hA, hB, ⟨at', hA2, hcomb⟩, hB2, hpred, hempty,
    hnt, hnf⟩

theorem fits_of_firstMerge {demorgan : Bool} {st : ShortCircuit} {m : Merge}
    (h : st.firstMerge demorgan = some m) :
    ∃ A B ca cb bt bf, Fits demorgan st m A B ca cb bt bf := by
  obtain ⟨a, -, ha⟩ := List.exists_of_findSome?_eq_some h
  exact fits_of_mergeAt ha

/-- After a rebuild, a block with the single predecessor `a` is a target of no other block
that has not been merged away. -/
theorem eq_of_pred_eq {st : ShortCircuit} {a b p : ℕ} {B X : Block}
    (hB : st.rebuild.blocks[b]? = some B) (hpred : B.pred = [a]) (hb : b ∉ st.merged)
    (hX : st.rebuild.blocks[p]? = some X) (hp : p ∉ st.merged) (hXb : b ∈ X.targets) :
    p = a := by
  simp only [rebuild, getElem?_rebuildEdges, Option.map_eq_some_iff] at hB hX
  obtain ⟨B₀, hB₀, rfl⟩ := hB
  obtain ⟨X₀, hX₀, rfl⟩ := hX
  have hpred : (List.range st.blocks.length).filter
      (fun p ↦ b ∈ newSucc st.merged st.blocks p) = [a] := hpred
  rw [← List.mem_singleton, ← hpred, List.mem_filter, List.mem_range]
  have hlt : b < st.blocks.length := (List.getElem?_eq_some_iff.1 hB₀).1
  exact ⟨(List.getElem?_eq_some_iff.1 hX₀).1,
    decide_eq_true (mem_newSucc.2 ⟨hp, X₀, hX₀, hXb, hlt, hb⟩)⟩

/-! ### The meaning of a merge -/

section Meaning

variable {σ E R : Type*}

/-- What the pass relies on: comments do nothing, `||` evaluates left to right and
short-circuits, and `negateExpr` flips the outcome. -/
structure Lawful (demorgan : Bool) (I : Interp σ E R) : Prop where
  comment : ∀ t s, I.exec (.comment t) s = ([], .inl s)
  lor : ∀ ty a b s, I.test (.binary ty .lor a b) s = Interp.testOr (I.test a) (I.test b) s
  negate : ∀ c s, I.test (negateExpr demorgan c) s = Interp.testNot (I.test c) s

/-- Folding the combined condition of a merge does not change its outcome. -/
def KeepsTruth (P : PtrInfo) (I : Interp σ E R) (m : Merge) : Prop :=
  ∀ s, I.test (simplify P m.comb) s = I.test m.comb s

/-- The events of a branch, where it goes, and the state it leaves. -/
def branch (I : Interp σ E R) (c : Expr) (t f : ℕ) (s : σ) : List E × ℕ × σ :=
  ((I.test c s).1, if (I.test c s).2.1 then t else f, (I.test c s).2.2)

variable {demorgan usedReturn : Bool} {P : PtrInfo} {I : Interp σ E R}

theorem transfer_of_twoWay {b : Block} {c : Expr} {t f : ℕ} (h : b.twoWay = some (c, t, f))
    (s : σ) :
    transfer I usedReturn b s =
      ((branch I c t f s).1, .inl ((branch I c t f s).2.1, (branch I c t f s).2.2)) := by
  obtain ⟨hsw, hends, hc, ht, hf⟩ := twoWay_eq_some.1 h
  cases hv : (I.test c s).2.1 <;>
    simp [transfer, hsw, hends, Block.condExpr, hc, ht, hf, branch, hv, goTo, emit]

/-- The combined branch goes where the two branches go one after the other. -/
theorem branch_combine (hI : Lawful demorgan I) {ca cb comb : Expr} {at' b bt bf nt nf : ℕ}
    (h : combine demorgan ca at' cb bt bf = some (comb, nt, nf)) (s : σ) :
    branch I comb nt nf s =
      if (I.test ca s).2.1 then branch I ca at' b s
      else emit (I.test ca s).1 (branch I cb bt bf (I.test ca s).2.2) := by
  rcases hca : I.test ca s with ⟨es, v, s'⟩
  unfold combine at h
  split at h
  · next hcond =>
    obtain ⟨rfl, rfl, rfl⟩ := by simpa using h
    obtain ⟨rfl, -⟩ := hcond
    have hor : I.test (mkBinary .lor ca cb 4) s = Interp.testOr (I.test ca) (I.test cb) s :=
      hI.lor _ _ _ _
    cases v <;> simp [branch, hor, Interp.testOr, hca, emit]
  · split at h
    · next hcond =>
      obtain ⟨rfl, rfl, rfl⟩ := by simpa using h
      obtain ⟨rfl, -⟩ := hcond
      have hor : I.test (mkBinary .lor ca (negateExpr demorgan cb) 4) s =
          Interp.testOr (I.test ca) (I.test (negateExpr demorgan cb)) s := hI.lor _ _ _ _
      have hneg := hI.negate cb s'
      cases v
      · cases hv : (I.test cb s').2.1 <;>
          simp [branch, hor, Interp.testOr, hca, emit, hneg, Interp.testNot, hv]
      · simp [branch, hor, Interp.testOr, hca]
    · exact absurd h (by simp)

theorem execAll_of_stmtsEmpty (hI : Lawful demorgan I) {b : Block} (h : b.stmtsEmpty = true)
    (s : σ) : I.execAll b.stmts s = ([], .inl s) := by
  unfold Block.stmtsEmpty at h
  generalize b.stmts = sts at h
  induction sts with
  | nil => rfl
  | cons st sts ih =>
    obtain ⟨hst, hsts⟩ := Bool.and_eq_true_iff.1 (List.all_cons ▸ h)
    cases st with
    | comment t => simp [Interp.execAll, hI.comment, ih hsts]
    | assign lhs rhs => exact absurd hst (by simp [Stmt.isComment])
    | call rhs => exact absurd hst (by simp [Stmt.isComment])

/-- The machine of a working state. -/
def machine (I : Interp σ E R) (usedReturn : Bool) (st : ShortCircuit) :
    Machine (ℕ × σ) E (Option R) :=
  graphMachine I usedReturn st.merged st.blocks

/-- Edges are bookkeeping: rebuilding them changes no step. -/
theorem machine_rebuild (I : Interp σ E R) (usedReturn : Bool) (st : ShortCircuit) :
    machine I usedReturn st.rebuild = machine I usedReturn st := by
  unfold machine graphMachine rebuild
  congr 1
  funext ⟨id, s⟩
  simp only [getElem?_rebuildEdges]
  cases st.blocks[id]? <;> rfl

theorem machine_step (I : Interp σ E R) (usedReturn : Bool) {st : ShortCircuit} {id : ℕ} {b : Block}
    (hid : id ∉ st.merged)
    (hb : st.blocks[id]? = some b) (s : σ) :
    (machine I usedReturn st).step (id, s) = runBlock I usedReturn b s :=
  graphMachine_step I usedReturn hid hb s

/-- Blocks other than the two of a merge run as before. -/
theorem apply_step_of_ne {st : ShortCircuit} {m : Merge} {id : ℕ} (ha : id ≠ m.a)
    (hb : id ≠ m.b) (s : σ) :
    (machine I usedReturn (st.apply P m)).step (id, s) =
      (machine I usedReturn st).step (id, s) := by
  simp [machine, graphMachine, apply, hb, Ne.symm ha]

/-- Before the merge, only block `a` goes to block `b`. -/
theorem ne_of_step {st : ShortCircuit} {m : Merge} {A B : Block} {ca cb : Expr} {bt bf : ℕ}
    (hfits : Fits demorgan st.rebuild m A B ca cb bt bf) {id id' : ℕ} {s s' : σ} {es : List E}
    (ha : id ≠ m.a) (h : (machine I usedReturn st.rebuild).step (id, s) = (es, .inl (id', s'))) :
    id' ≠ m.b := by
  rintro rfl
  by_cases hlive : id ∈ st.rebuild.merged
  · simp [machine, graphMachine, hlive] at h
  · cases hX : st.rebuild.blocks[id]? with
    | none => simp [machine, graphMachine, hX] at h
    | some X =>
      rw [machine_step I usedReturn hlive hX] at h
      exact ha (eq_of_pred_eq hfits.getB hfits.pred hfits.b_live hX hlive
        (mem_targets_of_runBlock h))

/-- The merged block `a` does at once what `a` and `b` did one after the other. -/
theorem apply_matches (hI : Lawful demorgan I) {st : ShortCircuit} {m : Merge} {A B : Block}
    {ca cb : Expr} {bt bf : ℕ} (hfits : Fits demorgan st m A B ca cb bt bf)
    (hkeep : KeepsTruth P I m) (s : σ) :
    (machine I usedReturn st).Matches (fun p q ↦ p = q ∧ p.1 ≠ m.b) (m.a, s)
      ((machine I usedReturn (st.apply P m)).step (m.a, s)) := by
  obtain ⟨at', hA2, hcomb⟩ := hfits.twoA
  let A' : Block :=
    { A with cond := some (simplify P m.comb), taken := some m.nt, fall := some m.nf }
  have hA'2 : A'.twoWay = some (simplify P m.comb, m.nt, m.nf) := by
    obtain ⟨hsw, hends, -⟩ := twoWay_eq_some.1 hA2
    exact twoWay_eq_some.2 ⟨hsw, hends, rfl, rfl, rfl⟩
  have hlive : m.a ∉ (st.apply P m).merged := by
    simp [apply, hfits.a_live, Ne.symm hfits.ne]
  have hgetA' : (st.apply P m).blocks[m.a]? = some A' := by
    simp [apply, hfits.getA, A']
  have hstep := machine_step I usedReturn hfits.a_live hfits.getA s
  rw [machine_step I usedReturn hlive hgetA']
  have hstmts : A'.stmts = A.stmts := rfl
  rcases hex : I.execAll A.stmts s with ⟨es, s₁ | r⟩
  · have hbr : branch I (simplify P m.comb) m.nt m.nf s₁ = branch I m.comb m.nt m.nf s₁ := by
      simp only [branch, hkeep s₁]
    have hne : (branch I m.comb m.nt m.nf s₁).2.1 ≠ m.b := by
      show (if _ then m.nt else m.nf) ≠ m.b
      split
      · exact hfits.nt_ne
      · exact hfits.nf_ne
    have hrunA : runBlock I usedReturn A s =
        emit es ((branch I ca at' m.b s₁).1, .inl (branch I ca at' m.b s₁).2) := by
      rw [runBlock_of_inl hex, transfer_of_twoWay hA2]
    have hrunA' : runBlock I usedReturn A' s =
        emit es ((branch I m.comb m.nt m.nf s₁).1, .inl (branch I m.comb m.nt m.nf s₁).2) := by
      rw [runBlock_of_inl (hstmts ▸ hex), transfer_of_twoWay hA'2, hbr]
    rw [hrunA] at hstep
    rw [hrunA']
    have hcases := branch_combine (b := m.b) hI hcomb s₁
    cases hv : (I.test ca s₁).2.1
    · -- The first condition fails: control passes through `b`.
      rw [hv, if_neg (by simp)] at hcases
      rw [hcases] at hne ⊢
      have hto : (branch I ca at' m.b s₁).2 = (m.b, (I.test ca s₁).2.2) := by
        simp [branch, hv]
      have hstepB := machine_step I usedReturn hfits.b_live hfits.getB
        (I.test ca s₁).2.2
      rw [runBlock_of_inl (execAll_of_stmtsEmpty hI hfits.empty _), emit_nil,
        transfer_of_twoWay hfits.twoB] at hstepB
      rw [hto] at hstep
      have htwo := Machine.Matches.two (Q := fun p q ↦ p = q ∧ p.1 ≠ m.b) hstep hstepB
        ⟨rfl, hne⟩
      simpa [emit, branch] using htwo
    · rw [hv, if_pos rfl] at hcases
      rw [hcases] at hne ⊢
      exact Machine.Matches.one hstep ⟨rfl, hne⟩
  · rw [runBlock_of_inr hex] at hstep
    rw [runBlock_of_inr (hstmts ▸ hex)]
    exact Machine.Matches.halt hstep

/-- One merge keeps the behaviour from every block but the retired one. -/
theorem apply_sameBehaviour (hI : Lawful demorgan I) {st : ShortCircuit} {m : Merge}
    (hm : st.rebuild.firstMerge demorgan = some m) (hkeep : KeepsTruth P I m) {id : ℕ}
    (hid : id ≠ m.b) (s : σ) :
    (machine I usedReturn (st.rebuild.apply P m)).SameBehaviour (id, s)
      (machine I usedReturn st.rebuild) (id, s) := by
  obtain ⟨A, B, ca, cb, bt, bf, hfits⟩ := fits_of_firstMerge hm
  refine Machine.Simulation.sameBehaviour (Q := fun p q ↦ p = q ∧ p.1 ≠ m.b) ?_ ⟨rfl, hid⟩
  rintro ⟨id, s⟩ _ ⟨rfl, hid⟩
  rcases eq_or_ne id m.a with rfl | hida
  · exact apply_matches hI hfits hkeep s
  · rw [apply_step_of_ne hida hid]
    rcases hstep : (machine I usedReturn st.rebuild).step (id, s) with ⟨es, ⟨id', s'⟩ | r⟩
    · exact Machine.Matches.one hstep ⟨rfl, ne_of_step hfits hida hstep⟩
    · exact Machine.Matches.halt hstep

/-! ### The whole pass -/

/-- The rounds keep the behaviour from block `0`, unless they retire it. -/
theorem rounds_sameBehaviour (hI : Lawful demorgan I) (n : ℕ) (st : ShortCircuit)
    (hkeep : ∀ m ∈ merges P demorgan n st, KeepsTruth P I m)
    (hentry : ∀ m ∈ merges P demorgan n st, m.b ≠ 0) (s : σ) :
    (machine I usedReturn (rounds P demorgan n st)).SameBehaviour (0, s)
      (machine I usedReturn st) (0, s) := by
  induction n generalizing st with
  | zero => exact .refl _ _
  | succ n ih =>
    unfold rounds
    unfold merges at hkeep hentry
    rw [← machine_rebuild I usedReturn st]
    cases hm : st.rebuild.firstMerge demorgan with
    | none => exact .refl _ _
    | some m =>
      simp only [hm, List.forall_mem_cons] at hkeep hentry
      exact (ih _ hkeep.2 hentry.2).trans
        (apply_sameBehaviour hI hm hkeep.1 (Ne.symm hentry.1) s)

/-- The retired blocks are those of the merges. -/
theorem mem_merged_rounds (P : PtrInfo) (demorgan : Bool) (n : ℕ) (st : ShortCircuit) (id : ℕ) :
    id ∈ (rounds P demorgan n st).merged ↔
      id ∈ st.merged ∨ ∃ m ∈ merges P demorgan n st, m.b = id := by
  induction n generalizing st with
  | zero => simp [rounds, merges]
  | succ n ih =>
    unfold rounds merges
    cases hm : st.rebuild.firstMerge demorgan with
    | none => simp [rebuild]
    | some m =>
      simp only [ih, List.mem_cons, exists_eq_or_imp]
      simp only [apply, rebuild, Finset.mem_insert]
      grind

end Meaning

end ShortCircuit

open ShortCircuit

/-- The truth of a condition built from variables by `||`, `&&` and `!`; of the comparisons,
those that hold of equal operands count as true. -/
def truth (ρ : String → Bool) : Expr → Bool
  | var _ n => ρ n
  | unary _ .lnot a => !truth ρ a
  | binary _ .lor a b => truth ρ a || truth ρ b
  | binary _ .land a b => truth ρ a && truth ρ b
  | binary _ .eq _ _ | binary _ .le _ _ | binary _ .ge _ _ => true
  | _ => false

/-- Conditions are valued by `truth`; call statements are the events. -/
def valuation : Interp (String → Bool) String Unit where
  exec st ρ :=
    match st with
    | .call (.call _ callee _ _ _) => ([callee], .inl ρ)
    | _ => ([], .inl ρ)
  test c ρ := ([], truth ρ c, ρ)
  select _ ρ := ([], 0, ρ)
  leave _ _ := ([], ())

theorem truth_negateExpr (ρ : String → Bool) (demorgan : Bool) (c : Expr) :
    truth ρ (negateExpr demorgan c) = !truth ρ c := by
  refine negateExpr_rel demorgan (R := fun c d ↦ truth ρ d = !truth ρ c) ?_ ?_ ?_ ?_ ?_ c
  · intro ty a
    simp [truth]
  · intro e w
    simp [truth, mkUnary]
  · intro ty a b a' b' w ha hb
    simp [truth, mkBinary, ha, hb]
  · intro ty a b a' b' w ha hb
    simp [truth, mkBinary, ha, hb]
  · intro ty op n a b hn
    cases op <;> simp only [negatedCompare, Option.some.injEq, reduceCtorEq] at hn
    all_goals first
      | subst hn
        rfl
      | split at hn
        · exact absurd hn (by simp)
        · obtain rfl := Option.some.inj hn
          rfl

theorem valuation_lawful (demorgan : Bool) : Lawful demorgan valuation where
  comment _ _ := rfl
  lor ty a b ρ := by
    cases h : truth ρ a <;> simp [valuation, Interp.testOr, truth, h, emit]
  negate c ρ := by simp [valuation, Interp.testNot, truth_negateExpr]

/-- Two guards with a shared target: `if (a || b)` after one merge. -/
def guardChain : List Block :=
  [{ ends := .jcc, cond := some (mkVar "a"), taken := some 2, fall := some 1 },
   { ends := .jcc, cond := some (mkVar "b"), taken := some 2, fall := some 3 },
   { ends := .ret },
   { ends := .ret }]

/-- A loop entered at its bare test: `while (!a) { f(); g(); if (b || !c) break; }`, with the
test of `c` jumping back to block `0`. -/
def entryLoop : List Block :=
  [{ ends := .jcc, cond := some (mkVar "a"), taken := some 4, fall := some 1 },
   { stmts := [.call (.call {} "f" false 0 [])], fall := some 2 },
   { stmts := [.call (.call {} "g" false 0 [])],
     ends := .jcc, cond := some (mkVar "b"), taken := some 4, fall := some 3 },
   { ends := .jcc, cond := some (mkVar "c"), taken := some 0, fall := some 4 },
   { ends := .ret }]

end Ldu
