import Ldu.Vars.Info
import Mathlib.Data.Finset.Union
import Mathlib.Algebra.Order.BigOperators.Group.Finset

/-!
# Liveness

A variable is live at a point when some path from there reads it before it is assigned. The paths
follow the successor lists (`ReadAfter`); the passes compute the same by sweeps over the blocks,
from the last to the first, until nothing changes or a cap is reached (`sweeps`).

A read is found by as many sweeps as the path to it has edges that do not lead to a later block of
the list, and one more; so a cap on the sweeps is a cap on these (`mem_liveOut`). Sweeps that end
because nothing changes find every read (`mem_liveOut_of_stable`).
-/

namespace Ldu

/-! ### Reads of an expression -/

namespace Expr

mutual

/-- The variables an expression mentions, `insert_reads`. -/
def readVars : Expr → Finset String
  | const _ _ | reg _ _ | str _ _ => ∅
  | var _ n => {n}
  | mem _ a | unary _ _ a | cast _ _ a | addrOf _ a => readVars a
  | binary _ _ a b => readVars a ∪ readVars b
  | ternary _ a b c => readVars a ∪ readVars b ∪ readVars c
  | call _ _ _ _ args => readVarsList args
  | callVia _ _ _ _ t args => readVars t ∪ readVarsList args

def readVarsList : List Expr → Finset String
  | [] => ∅
  | e :: es => readVars e ∪ readVarsList es

end

theorem mem_readVarsList {n : String} {es : List Expr} :
    n ∈ readVarsList es ↔ ∃ e ∈ es, n ∈ e.readVars := by
  induction es with
  | nil => simp [readVarsList]
  | cons e es ih => simp [readVarsList, ih]

theorem mem_readVars_iff {n : String} {e : Expr} :
    n ∈ e.readVars ↔ isVarNamed n e = true ∨ ∃ c ∈ e.children, n ∈ c.readVars := by
  cases e with
  | var ty x =>
    simp only [readVars, Finset.mem_singleton, isVarNamed, beq_iff_eq, children, List.not_mem_nil,
      false_and, exists_false, or_false]
    exact eq_comm
  | _ => simp [readVars, mem_readVarsList, children, isVarNamed]

theorem mem_readVars {n : String} {e : Expr} : n ∈ e.readVars ↔ e.readsNamedVar n = true := by
  induction e using childInduction with
  | h e ih =>
    rw [readsNamedVar, anyNode_eq, Bool.or_eq_true, List.any_eq_true, mem_readVars_iff]
    exact or_congr_right (exists_congr fun c ↦ and_congr_right (ih c))

end Expr

/-- The variables an optional expression mentions. -/
def optReadVars (e : Option Expr) : Finset String :=
  e.elim ∅ Expr.readVars

theorem mem_optReadVars {n : String} {e : Option Expr} :
    n ∈ optReadVars e ↔ e.toList.any (·.readsNamedVar n) = true := by
  cases e <;> simp [optReadVars, Expr.mem_readVars]

/-! ### Reads and assignments of a block -/

/-- The statement assigns `n`. -/
def Stmt.assigns (n : String) (st : Stmt) : Bool :=
  (st.defOf n).isSome

/-- Some statement assigns `n`. -/
def assignsIn (n : String) (sts : List Stmt) : Bool :=
  sts.any (Stmt.assigns n)

/-- `n` is read before it is assigned. -/
def readsBefore (n : String) : List Stmt → Bool
  | [] => false
  | st :: sts => st.reads n || (!st.assigns n && readsBefore n sts)

theorem readsBefore_append {v : String} {before after : List Stmt}
    (hbefore : ∀ st ∈ before, st.reads v = false) (hafter : readsBefore v after = false) :
    readsBefore v (before ++ after) = false := by
  induction before with
  | nil => exact hafter
  | cons st before ih =>
    rw [List.cons_append, readsBefore, hbefore st (by simp),
      ih fun st hst ↦ hbefore st (by simp [hst])]
    simp

/-- `n` is read before it is assigned, or it is not assigned and then `L`. -/
def LiveThrough (sts : List Stmt) (L : String → Prop) (n : String) : Prop :=
  readsBefore n sts = true ∨ (assignsIn n sts = false ∧ L n)

theorem liveThrough_nil {L : String → Prop} {n : String} : LiveThrough [] L n ↔ L n := by
  simp [LiveThrough, readsBefore, assignsIn]

theorem liveThrough_cons {st : Stmt} {sts : List Stmt} {L : String → Prop} {n : String} :
    LiveThrough (st :: sts) L n ↔
      st.reads n = true ∨ (st.assigns n = false ∧ LiveThrough sts L n) := by
  simp only [LiveThrough, readsBefore, assignsIn, List.any_cons, Bool.or_eq_true,
    Bool.and_eq_true, Bool.not_eq_true', Bool.or_eq_false_iff]
  tauto

theorem LiveThrough.mono {sts : List Stmt} {L L' : String → Prop} {n : String}
    (h : LiveThrough sts L n) (hL : L n → L' n) : LiveThrough sts L' n :=
  h.imp_right fun ⟨h, hn⟩ ↦ ⟨h, hL hn⟩

/-- The block reads `n` before it assigns it. -/
def Block.readsFirst (n : String) (b : Block) : Bool :=
  readsBefore n b.stmts || (!assignsIn n b.stmts && b.termReads n)

/-- 1 for an edge that does not lead to a later block. -/
def back (i j : ℕ) : ℕ :=
  if j ≤ i then 1 else 0

/-- Some path from the end of block `i` reads `n` before it is assigned, with `k` edges that do
not lead to a later block. -/
inductive ReadAfter (g : List Block) (n : String) : ℕ → ℕ → Prop
  | here {i j : ℕ} {b c : Block} (hb : g[i]? = some b) (hj : j ∈ b.succ) (hc : g[j]? = some c)
      (hread : c.readsFirst n = true) : ReadAfter g n (back i j) i
  | later {i j k : ℕ} {b c : Block} (hb : g[i]? = some b) (hj : j ∈ b.succ)
      (hc : g[j]? = some c) (hkeep : assignsIn n c.stmts = false) (hread : ReadAfter g n k j) :
      ReadAfter g n (k + back i j) i

/-- The successor lists have every edge. -/
def EdgesListed (g : List Block) : Prop :=
  ∀ (i : ℕ) (b : Block), g[i]? = some b → ∀ j ∈ b.targets, j < g.length → j ∈ b.succ

/-- `n` is live at the end of block `i`. -/
def LiveEnd (g : List Block) (i : ℕ) (b : Block) (n : String) : Prop :=
  b.termReads n = true ∨ ∃ k, ReadAfter g n k i

/-- `n` is live at the start of block `i`. -/
def LiveStart (g : List Block) (i : ℕ) (n : String) : Prop :=
  ∃ b, g[i]? = some b ∧ LiveThrough b.stmts (LiveEnd g i b) n

/-- What is live at the start of a successor is live at the end. -/
theorem liveEnd_of_succ {g : List Block} {i j : ℕ} {b c : Block} {n : String}
    (hb : g[i]? = some b) (hj : j ∈ b.succ) (hc : g[j]? = some c)
    (h : LiveThrough c.stmts (LiveEnd g j c) n) : LiveEnd g i b n := by
  rcases h with h | ⟨hkeep, h | ⟨k, h⟩⟩
  · exact .inr ⟨_, .here hb hj hc (by simp [Block.readsFirst, h])⟩
  · exact .inr ⟨_, .here hb hj hc (by simp [Block.readsFirst, h, hkeep])⟩
  · exact .inr ⟨_, .later hb hj hc hkeep h⟩

/-! ### The sweeps -/

section Sweeps

variable (keep : String → Bool)

/-- What is live before a statement, of the variables that `keep` tracks: its target is assigned
after its operands are read. -/
def Stmt.liveBefore (st : Stmt) (live : Finset String) : Finset String :=
  match st with
  | .assign (.var _ x) rhs => live.erase x ∪ rhs.readVars.filter (keep ·)
  | .assign lhs rhs => live ∪ (rhs.readVars ∪ lhs.readVars).filter (keep ·)
  | .call rhs => live ∪ rhs.readVars.filter (keep ·)
  | .comment _ => live

/-- What is live before a sequence of statements. -/
def liveStmts (sts : List Stmt) (live : Finset String) : Finset String :=
  sts.foldr (Stmt.liveBefore keep) live

/-- The variables that the fields of the terminator mention. -/
def Block.liveTerm (b : Block) : Finset String :=
  (optReadVars b.cond ∪ optReadVars b.retValue ∪ optReadVars b.retRaw ∪ optReadVars b.switchVar ∪
    optReadVars b.tailCall).filter (keep ·)

/-- The sets the sweeps compute. -/
structure LiveSets where
  liveIn : ℕ → Finset String := fun _ ↦ ∅
  liveOut : ℕ → Finset String := fun _ ↦ ∅
  /-- Some set changed in this sweep. -/
  changed : Bool := false

/-- The union of what is live at the start of the successors. -/
def unionSucc (size : ℕ) (liveIn : ℕ → Finset String) (b : Block) : Finset String :=
  (b.succ.toFinset.filter (· < size)).biUnion liveIn

variable (g : List Block)

/-- Visit a block. -/
def visitBlock (i : ℕ) (st : LiveSets) : LiveSets :=
  match g[i]? with
  | none => st
  | some b =>
    let out := unionSucc g.length st.liveIn b
    let cur := liveStmts keep b.stmts (out ∪ b.liveTerm keep)
    { liveIn := Function.update st.liveIn i cur
      liveOut := Function.update st.liveOut i out
      changed := st.changed || cur ≠ st.liveIn i }

/-- Visit the first `i` blocks, from the last to the first. -/
def visitBelow : ℕ → LiveSets → LiveSets
  | 0, st => st
  | i + 1, st => visitBelow i (visitBlock keep g i st)

/-- One sweep. -/
def sweep (st : LiveSets) : LiveSets :=
  visitBelow keep g g.length { st with changed := false }

/-- Sweeps until nothing changes, at most `cap` of them. -/
def sweeps : ℕ → LiveSets → LiveSets
  | 0, st => st
  | cap + 1, st =>
    if (sweep keep g st).changed then sweeps cap (sweep keep g st) else sweep keep g st

section Spec

variable {keep : String → Bool} {g : List Block} {n : String} {i j : ℕ} {b c : Block}
  {st : LiveSets}

theorem mem_liveBefore {s : Stmt} {live : Finset String} :
    n ∈ s.liveBefore keep live ↔
      (s.reads n = true ∧ keep n = true) ∨ (s.assigns n = false ∧ n ∈ live) := by
  cases s with
  | assign lhs rhs =>
    cases lhs with
    | var ty x =>
      by_cases hx : x = n
      · simp [Stmt.liveBefore, Stmt.reads, Stmt.assigns, Stmt.defOf, Expr.mem_readVars, hx]
      · simp [Stmt.liveBefore, Stmt.reads, Stmt.assigns, Stmt.defOf, Expr.mem_readVars, hx,
          Ne.symm hx, or_comm]
    | _ =>
      simp only [Stmt.liveBefore, Finset.mem_union, Finset.mem_filter, Expr.mem_readVars,
        Stmt.reads, Stmt.exprs, Stmt.assigns, Stmt.defOf, List.any_cons, List.any_nil,
        Bool.or_false, Bool.or_eq_true, Option.isSome_none, true_and]
      tauto
  | call rhs =>
    simp only [Stmt.liveBefore, Finset.mem_union, Finset.mem_filter, Expr.mem_readVars,
      Stmt.reads, Stmt.exprs, Stmt.assigns, Stmt.defOf, List.any_cons, List.any_nil,
      Bool.or_false, Option.isSome_none, true_and]
    tauto
  | comment => simp [Stmt.liveBefore, Stmt.reads, Stmt.exprs, Stmt.assigns, Stmt.defOf]

/-- What the sweeps take for live, of the tracked variables. -/
theorem mem_liveStmts {sts : List Stmt} {live : Finset String} (hkeep : keep n = true) :
    n ∈ liveStmts keep sts live ↔ LiveThrough sts (· ∈ live) n := by
  induction sts with
  | nil => exact liveThrough_nil.symm
  | cons s sts ih =>
    change n ∈ s.liveBefore keep (liveStmts keep sts live) ↔ _
    rw [mem_liveBefore, liveThrough_cons, ih]
    simp only [hkeep, and_true]

theorem mem_liveTerm (hkeep : keep n = true) (h : b.termReads n = true) :
    n ∈ b.liveTerm keep := by
  unfold Block.liveTerm
  simp only [Finset.mem_filter, Finset.mem_union, mem_optReadVars, hkeep, and_true]
  simp only [Block.termReads, List.any_append, Bool.or_eq_true] at h
  tauto

theorem mem_unionSucc {liveIn : ℕ → Finset String} (hj : j ∈ b.succ) (hc : g[j]? = some c)
    (h : n ∈ liveIn j) : n ∈ unionSucc g.length liveIn b := by
  obtain ⟨hlt, -⟩ := List.getElem?_eq_some_iff.1 hc
  simp only [unionSucc, Finset.mem_biUnion, Finset.mem_filter, List.mem_toFinset]
  exact ⟨j, ⟨hj, hlt⟩, h⟩

/-! ### What a number of sweeps finds -/

/-- `live` has every tracked variable that is live at the start of block `j` by a path with fewer
than `m` edges that do not lead to a later block. -/
def FoundIn (keep : String → Bool) (g : List Block) (m j : ℕ) (live : Finset String) : Prop :=
  ∀ c, g[j]? = some c → ∀ n, keep n = true →
    (0 < m ∧ c.readsFirst n = true) ∨
      (assignsIn n c.stmts = false ∧ ∃ k < m, ReadAfter g n k j) → n ∈ live

/-- `live` has every tracked variable that is live after block `j` by such a path. -/
def FoundOut (keep : String → Bool) (g : List Block) (m j : ℕ) (live : Finset String) : Prop :=
  ∀ n k, keep n = true → k < m → ReadAfter g n k j → n ∈ live

theorem foundIn_zero (live : Finset String) : FoundIn keep g 0 j live := by
  rintro c - n - (⟨h, -⟩ | ⟨-, k, h, -⟩) <;> exact absurd h (Nat.not_lt_zero _)

theorem foundOut_zero (live : Finset String) : FoundOut keep g 0 j live :=
  fun _ _ _ h ↦ absurd h (Nat.not_lt_zero _)

/-- Later blocks have already been visited in this sweep. -/
theorem foundOut_unionSucc {m : ℕ} {liveIn : ℕ → Finset String} (hb : g[i]? = some b)
    (hlater : ∀ j, i < j → FoundIn keep g (m + 1) j (liveIn j))
    (hback : ∀ j ≤ i, FoundIn keep g m j (liveIn j)) :
    FoundOut keep g (m + 1) i (unionSucc g.length liveIn b) := by
  intro n k hkeep hk h
  cases h with
  | @here _ j b' c hb' hj hc hread =>
    obtain rfl : b' = b := Option.some.inj (hb'.symm.trans hb)
    refine mem_unionSucc hj hc ?_
    rcases Nat.lt_or_ge i j with hlt | hle
    · exact hlater j hlt c hc n hkeep (.inl ⟨Nat.succ_pos m, hread⟩)
    · rw [back, if_pos hle] at hk
      exact hback j hle c hc n hkeep (.inl ⟨by omega, hread⟩)
  | @later _ j k b' c hb' hj hc hassign hread =>
    obtain rfl : b' = b := Option.some.inj (hb'.symm.trans hb)
    refine mem_unionSucc hj hc ?_
    rcases Nat.lt_or_ge i j with hlt | hle
    · exact hlater j hlt c hc n hkeep (.inr ⟨hassign, k, by omega, hread⟩)
    · rw [back, if_pos hle] at hk
      exact hback j hle c hc n hkeep (.inr ⟨hassign, k, by omega, hread⟩)

theorem FoundOut.liveStmts {m : ℕ} {out : Finset String} (hc : g[j]? = some c)
    (h : FoundOut keep g m j out) :
    FoundIn keep g m j (liveStmts keep c.stmts (out ∪ c.liveTerm keep)) := by
  intro c' hc' n hkeep hn
  obtain rfl : c' = c := Option.some.inj (hc'.symm.trans hc)
  rw [mem_liveStmts hkeep]
  rcases hn with ⟨-, hread⟩ | ⟨hassign, k, hk, hread⟩
  · simp only [Block.readsFirst, Bool.or_eq_true, Bool.and_eq_true, Bool.not_eq_true'] at hread
    exact hread.imp_right fun ⟨hassign, hterm⟩ ↦
      ⟨hassign, Finset.mem_union_right _ (mem_liveTerm hkeep hterm)⟩
  · exact .inr ⟨hassign, Finset.mem_union_left _ (h n k hkeep hk hread)⟩

theorem visitBelow_found {m : ℕ} (hlater : ∀ j, i ≤ j →
      FoundIn keep g (m + 1) j (st.liveIn j) ∧ FoundOut keep g (m + 1) j (st.liveOut j))
    (hback : ∀ j < i, FoundIn keep g m j (st.liveIn j)) (j : ℕ) :
    FoundIn keep g (m + 1) j ((visitBelow keep g i st).liveIn j) ∧
      FoundOut keep g (m + 1) j ((visitBelow keep g i st).liveOut j) := by
  induction i generalizing st with
  | zero => exact hlater j (Nat.zero_le j)
  | succ i ih =>
    unfold visitBelow visitBlock
    cases hb : g[i]? with
    | none =>
      refine ih (fun j hj ↦ ?_) fun j hj ↦ hback j (by omega)
      rcases Nat.eq_or_lt_of_le hj with rfl | hlt
      · refine ⟨fun c hc ↦ absurd (hb.symm.trans hc) (by simp), fun n k _ _ h ↦ ?_⟩
        cases h with
        | here hb' => exact absurd (hb.symm.trans hb') (by simp)
        | later hb' => exact absurd (hb.symm.trans hb') (by simp)
      · exact hlater j hlt
    | some b =>
      have hout := foundOut_unionSucc hb (fun j hj ↦ (hlater j hj).1)
        fun j hj ↦ hback j (Nat.lt_succ_of_le hj)
      refine ih (fun j hj ↦ ?_) fun j hj ↦ ?_
      · rcases Nat.eq_or_lt_of_le hj with rfl | hlt
        · simp only [Function.update_self]
          exact ⟨hout.liveStmts hb, hout⟩
        · simp only [Function.update_of_ne hlt.ne']
          exact hlater j hlt
      · simp only [Function.update_of_ne hj.ne]
        exact hback j (by omega)

/-- A sweep extends what is found by one more such edge. -/
theorem sweep_found {m : ℕ} (h : ∀ j, FoundIn keep g m j (st.liveIn j)) (j : ℕ) :
    FoundIn keep g (m + 1) j ((sweep keep g st).liveIn j) ∧
      FoundOut keep g (m + 1) j ((sweep keep g st).liveOut j) := by
  refine @visitBelow_found keep g g.length { st with changed := false } m (fun j hj ↦ ?_)
    (fun j _ ↦ h j) j
  have hnone : g[j]? = none := List.getElem?_eq_none hj
  refine ⟨fun c hc ↦ absurd (hnone.symm.trans hc) (by simp), fun n k _ _ h ↦ ?_⟩
  cases h with
  | here hb' => exact absurd (hnone.symm.trans hb') (by simp)
  | later hb' => exact absurd (hnone.symm.trans hb') (by simp)

/-! ### When nothing changes -/

/-- The sets are a solution of the liveness equations. -/
def LiveSets.Stable (keep : String → Bool) (g : List Block) (st : LiveSets) : Prop :=
  ∀ j c, g[j]? = some c → st.liveOut j = unionSucc g.length st.liveIn c ∧
    st.liveIn j = liveStmts keep c.stmts (st.liveOut j ∪ c.liveTerm keep)

theorem visitBelow_unchanged (h : (visitBelow keep g i st).changed = false) :
    st.changed = false ∧ (visitBelow keep g i st).liveIn = st.liveIn ∧
      (∀ j, i ≤ j → (visitBelow keep g i st).liveOut j = st.liveOut j) ∧
      ∀ j < i, ∀ c, g[j]? = some c →
        (visitBelow keep g i st).liveOut j = unionSucc g.length st.liveIn c ∧
          st.liveIn j =
            liveStmts keep c.stmts (unionSucc g.length st.liveIn c ∪ c.liveTerm keep) := by
  induction i generalizing st with
  | zero => exact ⟨h, rfl, fun _ _ ↦ rfl, fun j hj ↦ absurd hj (Nat.not_lt_zero j)⟩
  | succ i ih =>
    unfold visitBelow visitBlock at h ⊢
    cases hb : g[i]? with
    | none =>
      rw [hb] at h
      obtain ⟨hch, hin, hout, hall⟩ := ih h
      refine ⟨hch, hin, fun j hj ↦ hout j (by omega), fun j hj c hc ↦ ?_⟩
      rcases Nat.eq_or_lt_of_le (Nat.le_of_lt_succ hj) with rfl | hlt
      · exact absurd (hb.symm.trans hc) (by simp)
      · exact hall j hlt c hc
    | some b =>
      rw [hb] at h
      obtain ⟨hch, hin, hout, hall⟩ := ih h
      simp only [Bool.or_eq_false_iff, decide_eq_false_iff_not, not_not] at hch
      obtain ⟨hch, hcur⟩ := hch
      have hsame : Function.update st.liveIn i (liveStmts keep b.stmts
          (unionSucc g.length st.liveIn b ∪ b.liveTerm keep)) = st.liveIn := by
        rw [hcur, Function.update_eq_self]
      refine ⟨hch, hin.trans hsame, fun j hj ↦ ?_, fun j hj c hc ↦ ?_⟩
      · exact (hout j (by omega)).trans (Function.update_of_ne (by omega) _ _)
      · rcases Nat.eq_or_lt_of_le (Nat.le_of_lt_succ hj) with rfl | hlt
        · obtain rfl : b = c := Option.some.inj (hb.symm.trans hc)
          exact ⟨(hout j le_rfl).trans (Function.update_self _ _ _), hcur.symm⟩
        · have hj := hall j hlt c hc
          simpa only [hsame] using hj

/-- A sweep that changes nothing leaves a solution. -/
theorem sweep_stable (h : (sweep keep g st).changed = false) :
    (sweep keep g st).Stable keep g := by
  obtain ⟨-, hin, -, hall⟩ := visitBelow_unchanged h
  intro j c hc
  obtain ⟨hlt, -⟩ := List.getElem?_eq_some_iff.1 hc
  obtain ⟨hout, heq⟩ := hall j hlt c hc
  unfold sweep
  rw [hout, hin]
  exact ⟨rfl, heq⟩

/-- A solution has every live variable. -/
theorem mem_liveOut_of_stable (hst : st.Stable keep g) (hkeep : keep n = true) {k : ℕ}
    (h : ReadAfter g n k i) : n ∈ st.liveOut i := by
  induction h with
  | @here i j b c hb hj hc hread =>
    rw [(hst i b hb).1]
    refine mem_unionSucc hj hc ?_
    rw [(hst j c hc).2, mem_liveStmts hkeep]
    simp only [Block.readsFirst, Bool.or_eq_true, Bool.and_eq_true, Bool.not_eq_true'] at hread
    exact hread.imp_right fun ⟨hassign, hterm⟩ ↦
      ⟨hassign, Finset.mem_union_right _ (mem_liveTerm hkeep hterm)⟩
  | @later i j k b c hb hj hc hassign hread ih =>
    rw [(hst i b hb).1]
    refine mem_unionSucc hj hc ?_
    rw [(hst j c hc).2, mem_liveStmts hkeep]
    exact .inr ⟨hassign, Finset.mem_union_left _ ih⟩

theorem sweeps_found {cap m : ℕ} (hin : ∀ j, FoundIn keep g m j (st.liveIn j))
    (hout : ∀ j, FoundOut keep g m j (st.liveOut j)) :
    (sweeps keep g cap st).Stable keep g ∨
      ∀ j, FoundOut keep g (m + cap) j ((sweeps keep g cap st).liveOut j) := by
  induction cap generalizing m st with
  | zero => exact .inr hout
  | succ cap ih =>
    unfold sweeps
    split
    · have hfound := sweep_found hin
      rw [← Nat.add_assoc, Nat.add_right_comm]
      exact ih (fun j ↦ (hfound j).1) fun j ↦ (hfound j).2
    · next h => exact .inl (sweep_stable (by simpa using h))

/-- A cap on the sweeps is a cap on the edges that do not lead to a later block. -/
theorem mem_liveOut {cap k : ℕ} (hkeep : keep n = true) (hk : k < cap) (h : ReadAfter g n k i) :
    n ∈ (sweeps keep g cap {}).liveOut i := by
  rcases @sweeps_found keep g {} cap 0 (fun _ ↦ foundIn_zero _) (fun _ ↦ foundOut_zero _)
    with hst | hfound
  · exact mem_liveOut_of_stable hst hkeep h
  · exact hfound i n k hkeep (by omega) h

/-! ### Sweeps without a cap -/

theorem liveStmts_mono {sts : List Stmt} {S T : Finset String} (h : S ⊆ T) :
    liveStmts keep sts S ⊆ liveStmts keep sts T := by
  induction sts with
  | nil => exact h
  | cons s sts ih =>
    intro n hn
    change n ∈ s.liveBefore keep (liveStmts keep sts S) at hn
    change n ∈ s.liveBefore keep (liveStmts keep sts T)
    rw [mem_liveBefore] at hn ⊢
    exact hn.imp_right fun ⟨hassign, hn⟩ ↦ ⟨hassign, ih hn⟩

theorem unionSucc_mono {size : ℕ} {f f' : ℕ → Finset String} (h : ∀ j, f j ⊆ f' j) :
    unionSucc size f b ⊆ unionSucc size f' b :=
  Finset.biUnion_mono fun j _ ↦ h j

/-- The sets are below what the next visit of their blocks computes. -/
def LiveSets.Growing (keep : String → Bool) (g : List Block) (st : LiveSets) : Prop :=
  ∀ j c, g[j]? = some c →
    st.liveIn j ⊆ liveStmts keep c.stmts (unionSucc g.length st.liveIn c ∪ c.liveTerm keep)

/-- The sum of the sizes of the sets. -/
def LiveSets.size (g : List Block) (st : LiveSets) : ℕ :=
  ∑ j ∈ Finset.range g.length, (st.liveIn j).card

theorem size_mono {st' : LiveSets} (h : ∀ j, st.liveIn j ⊆ st'.liveIn j) :
    st.size g ≤ st'.size g :=
  Finset.sum_le_sum fun j _ ↦ Finset.card_le_card (h j)

theorem size_lt {st' : LiveSets} (h : ∀ j, st.liveIn j ⊆ st'.liveIn j) (hb : g[i]? = some b)
    (hne : st'.liveIn i ≠ st.liveIn i) : st.size g < st'.size g := by
  obtain ⟨hlt, -⟩ := List.getElem?_eq_some_iff.1 hb
  refine Finset.sum_lt_sum (fun j _ ↦ Finset.card_le_card (h j))
    ⟨i, Finset.mem_range.2 hlt, Finset.card_lt_card ((h i).ssubset_of_ne hne.symm)⟩

/-- Visiting a block enlarges its set. -/
theorem visitBlock_growing (h : st.Growing keep g) (i : ℕ) :
    (visitBlock keep g i st).Growing keep g ∧
      (∀ j, st.liveIn j ⊆ (visitBlock keep g i st).liveIn j) ∧
      ((visitBlock keep g i st).changed = true →
        st.changed = true ∨ st.size g < (visitBlock keep g i st).size g) := by
  cases hb : g[i]? with
  | none =>
    have hsame : visitBlock keep g i st = st := by rw [visitBlock, hb]
    rw [hsame]
    exact ⟨h, fun _ ↦ Finset.Subset.refl _, .inl⟩
  | some b =>
    have hin : (visitBlock keep g i st).liveIn = Function.update st.liveIn i (liveStmts keep
        b.stmts (unionSucc g.length st.liveIn b ∪ b.liveTerm keep)) := by
      rw [visitBlock, hb]
    have hchanged : (visitBlock keep g i st).changed = (st.changed || liveStmts keep b.stmts
        (unionSucc g.length st.liveIn b ∪ b.liveTerm keep) ≠ st.liveIn i) := by
      rw [visitBlock, hb]
    have hsub : ∀ j, st.liveIn j ⊆ (visitBlock keep g i st).liveIn j := by
      intro j
      rw [hin]
      by_cases hj : j = i
      · rw [hj, Function.update_self]
        exact h i b hb
      · rw [Function.update_of_ne hj]
    refine ⟨fun j c hc ↦ ?_, hsub, fun hch ↦ ?_⟩
    · have hmono : liveStmts keep c.stmts (unionSucc g.length st.liveIn c ∪ c.liveTerm keep) ⊆
          liveStmts keep c.stmts
            (unionSucc g.length (visitBlock keep g i st).liveIn c ∪ c.liveTerm keep) :=
        liveStmts_mono (Finset.union_subset_union_left (unionSucc_mono hsub))
      refine Finset.Subset.trans ?_ hmono
      rw [hin]
      by_cases hj : j = i
      · obtain rfl := hj
        obtain rfl : b = c := Option.some.inj (hb.symm.trans hc)
        rw [Function.update_self]
      · rw [Function.update_of_ne hj]
        exact h j c hc
    · rw [hchanged, Bool.or_eq_true, decide_eq_true_eq] at hch
      refine hch.imp_right fun hne ↦ size_lt hsub hb ?_
      rw [hin, Function.update_self]
      exact hne

theorem visitBelow_growing (h : st.Growing keep g) (i : ℕ) :
    (visitBelow keep g i st).Growing keep g ∧
      (∀ j, st.liveIn j ⊆ (visitBelow keep g i st).liveIn j) ∧
      ((visitBelow keep g i st).changed = true →
        st.changed = true ∨ st.size g < (visitBelow keep g i st).size g) := by
  induction i generalizing st with
  | zero => exact ⟨h, fun _ ↦ Finset.Subset.refl _, .inl⟩
  | succ i ih =>
    obtain ⟨hgrow, hsub, hch⟩ := visitBlock_growing h i
    obtain ⟨hgrow', hsub', hch'⟩ := ih hgrow
    refine ⟨hgrow', fun j ↦ (hsub j).trans (hsub' j), fun hchanged ↦ ?_⟩
    rcases hch' hchanged with hmid | hlt
    · exact (hch hmid).imp_right fun hlt ↦ hlt.trans_le (size_mono hsub')
    · exact .inr ((size_mono hsub).trans_lt hlt)

theorem liveStmts_subset {U S : Finset String} {sts : List Stmt}
    (hU : ∀ n, keep n = true → n ∈ U) (hS : S ⊆ U) : liveStmts keep sts S ⊆ U := by
  induction sts with
  | nil => exact hS
  | cons s sts ih =>
    intro n hn
    change n ∈ s.liveBefore keep (liveStmts keep sts S) at hn
    rw [mem_liveBefore] at hn
    rcases hn with ⟨-, hn⟩ | ⟨-, hn⟩
    · exact hU n hn
    · exact ih hn

theorem visitBelow_subset {U : Finset String} (hU : ∀ n, keep n = true → n ∈ U)
    (h : ∀ j, st.liveIn j ⊆ U) (i j : ℕ) : (visitBelow keep g i st).liveIn j ⊆ U := by
  induction i generalizing st with
  | zero => exact h j
  | succ i ih =>
    refine ih fun j ↦ ?_
    unfold visitBlock
    cases hb : g[i]? with
    | none => exact h j
    | some b =>
      by_cases hj : j = i
      · simp only [hj, Function.update_self]
        refine liveStmts_subset hU (Finset.union_subset ?_ ?_)
        · exact Finset.biUnion_subset.2 fun k _ ↦ h k
        · intro n hn
          exact hU n (Finset.mem_filter.1 hn).2
      · simp only [Function.update_of_ne hj]
        exact h j

/-- Sweeps that may go on until the sets are as large as they can be end in a solution. -/
theorem sweeps_stable {U : Finset String} (hU : ∀ n, keep n = true → n ∈ U) {cap : ℕ}
    (hgrow : st.Growing keep g) (hsub : ∀ j, st.liveIn j ⊆ U)
    (hcap : g.length * U.card < cap + st.size g) : (sweeps keep g cap st).Stable keep g := by
  induction cap generalizing st with
  | zero =>
    have hle : st.size g ≤ g.length * U.card := by
      calc st.size g ≤ ∑ _j ∈ Finset.range g.length, U.card :=
            Finset.sum_le_sum fun j _ ↦ Finset.card_le_card (hsub j)
        _ = g.length * U.card := by simp
    omega
  | succ cap ih =>
    unfold sweeps
    split
    · next hch =>
      have hgrow' : LiveSets.Growing keep g { st with changed := false } := hgrow
      obtain ⟨hgrow', -, hlt⟩ := visitBelow_growing hgrow' g.length
      have hlt : st.size g < (sweep keep g st).size g :=
        (hlt hch).resolve_left (by simp)
      have hsub' : ∀ j, (sweep keep g st).liveIn j ⊆ U :=
        @visitBelow_subset keep g { st with changed := false } U hU hsub g.length
      exact ih hgrow' hsub' (by omega)
    · next hch => exact sweep_stable (by simpa using hch)

theorem sweeps_stable_of_lt {U : Finset String} (hU : ∀ n, keep n = true → n ∈ U) {cap : ℕ}
    (hcap : g.length * U.card < cap) : (sweeps keep g cap {}).Stable keep g :=
  sweeps_stable hU (fun _ _ _ ↦ Finset.empty_subset _) (fun _ ↦ Finset.empty_subset _) (by omega)

end Spec

end Sweeps

end Ldu
