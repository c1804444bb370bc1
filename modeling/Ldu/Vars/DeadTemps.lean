import Ldu.Vars.Inlining

/-!
# Temporaries that are dead after their block

`fold_dead_block_temps` inlines a definition of a temporary that is read once before the temporary
is assigned again or the block ends, when no block in reach of the end of the block reads the
temporary. The temporary may have other definitions. What the next assignment to it reads is not
looked at.

The names read in the blocks in reach are found by sweeps over the blocks, at most four more than
there are blocks (`mem_reachReads`).
-/

namespace Ldu

/-! ### Names read in reach of a block -/

/-- The expressions of a statement that are searched for reads. -/
def Stmt.readExprs : Stmt → List Expr
  | assign (.mem ty a) rhs => [rhs, .mem ty a]
  | assign _ rhs => [rhs]
  | call rhs => [rhs]
  | comment _ => []

namespace Block

/-- The names read in a block, `node_reads`. -/
def nodeReads (b : Block) : Finset String :=
  Expr.readVarsList (b.stmts.flatMap Stmt.readExprs ++ b.termExprs)

/-- The successors `succs` goes to. -/
def allSuccs (b : Block) : List ℕ :=
  b.taken.toList ++ b.fall.toList ++ b.defaultSucc.toList ++ b.caseSucc.reduceOption

end Block

section Reach

variable (g : List Block)

/-- The names read in the successors of a block, and in reach of them. -/
def reachOf (reach : ℕ → Finset String) (b : Block) : Finset String :=
  (b.allSuccs.map fun s ↦ g[s]?.elim ∅ fun c ↦ c.nodeReads ∪ reach s).foldr (· ∪ ·) ∅

/-- Visit block `i`. -/
def reachVisit (reach : ℕ → Finset String) (i : ℕ) : ℕ → Finset String :=
  match g[i]? with
  | some b => Function.update reach i (reach i ∪ reachOf g reach b)
  | none => reach

/-- Visit all blocks. -/
def reachSweep (reach : ℕ → Finset String) : ℕ → Finset String :=
  (List.range g.length).foldl (reachVisit g) reach

/-- Sweeps until nothing changes, at most `k` of them. -/
def reachSweeps : ℕ → (ℕ → Finset String) → ℕ → Finset String
  | 0, reach => reach
  | k + 1, reach =>
    let new := reachSweep g reach
    if (List.range g.length).any fun i ↦ (new i).card != (reach i).card then reachSweeps k new
    else new

/-- The names read in the blocks in reach of the end of a block, `reach_reads`. -/
def reachReads : ℕ → Finset String :=
  reachSweeps g (g.length + 4) fun _ ↦ ∅

end Reach

/-- Some block in reach of the end of block `i` reads `n`. -/
inductive ReadLater (g : List Block) (n : String) : ℕ → Prop
  | here {i j : ℕ} {b c : Block} (hb : g[i]? = some b) (hj : j ∈ b.allSuccs)
    (hc : g[j]? = some c) (hread : n ∈ c.nodeReads) : ReadLater g n i
  | later {i j : ℕ} {b c : Block} (hb : g[i]? = some b) (hj : j ∈ b.allSuccs)
    (hc : g[j]? = some c) (hread : ReadLater g n j) : ReadLater g n i

section ReachLemmas

variable {g : List Block} {reach : ℕ → Finset String} {n : String} {i j k : ℕ} {b c : Block}

theorem subset_reachOf (hj : j ∈ b.allSuccs) (hc : g[j]? = some c) :
    c.nodeReads ∪ reach j ⊆ reachOf g reach b := by
  unfold reachOf
  generalize b.allSuccs = ss at hj
  induction ss with
  | nil => cases hj
  | cons s ss ih =>
    rw [List.map_cons, List.foldr_cons]
    rcases List.mem_cons.1 hj with rfl | hj
    · rw [hc]
      exact Finset.subset_union_left
    · exact (ih hj).trans Finset.subset_union_right

theorem subset_reachVisit (i j : ℕ) : reach j ⊆ reachVisit g reach i j := by
  unfold reachVisit
  cases g[i]? with
  | none => exact subset_rfl
  | some b =>
    by_cases hj : j = i
    · subst hj
      simp only [Function.update_self]
      exact Finset.subset_union_left
    · simp only [Function.update_of_ne hj]
      exact subset_rfl

theorem subset_foldl_reachVisit (is : List ℕ) (reach : ℕ → Finset String) (j : ℕ) :
    reach j ⊆ is.foldl (reachVisit g) reach j := by
  induction is generalizing reach with
  | nil => exact subset_rfl
  | cons i is ih => exact (subset_reachVisit i j).trans (ih _)

theorem subset_reachSweep (j : ℕ) : reach j ⊆ reachSweep g reach j :=
  subset_foldl_reachVisit _ _ j

/-- A sweep finds what the last one found in the successors. -/
theorem subset_reachSweep_of_succ (hb : g[i]? = some b) (hj : j ∈ b.allSuccs)
    (hc : g[j]? = some c) : c.nodeReads ∪ reach j ⊆ reachSweep g reach i := by
  obtain ⟨hlt, -⟩ := List.getElem?_eq_some_iff.1 hb
  obtain ⟨before, after, hsplit⟩ := List.append_of_mem (List.mem_range.2 hlt)
  rw [reachSweep, hsplit, List.foldl_append, List.foldl_cons]
  refine subset_trans ?_ (subset_foldl_reachVisit _ _ i)
  unfold reachVisit
  rw [hb]
  simp only [Function.update_self]
  refine subset_trans ?_ ((subset_reachOf hj hc).trans Finset.subset_union_right)
  exact Finset.union_subset_union subset_rfl (subset_foldl_reachVisit _ _ j)

theorem subset_reachSweeps (k : ℕ) (reach : ℕ → Finset String) (j : ℕ) :
    reach j ⊆ reachSweeps g k reach j := by
  induction k generalizing reach with
  | zero => exact subset_rfl
  | succ k ih =>
    rw [reachSweeps]
    split
    · exact (subset_reachSweep j).trans (ih _)
    · exact subset_reachSweep j

/-- The blocks from whose end a read of `n` has been found. -/
def foundAt (g : List Block) (n : String) (reach : ℕ → Finset String) : Finset ℕ :=
  (Finset.range g.length).filter (n ∈ reach ·)

/-- If a sweep finds `n` nowhere new, all its reads are found. -/
theorem mem_of_foundAt_eq (heq : foundAt g n (reachSweep g reach) = foundAt g n reach)
    (h : ReadLater g n i) : n ∈ reach i := by
  have hback : ∀ {i b}, g[i]? = some b → n ∈ reachSweep g reach i → n ∈ reach i := by
    intro i b hb hmem
    obtain ⟨hlt, -⟩ := List.getElem?_eq_some_iff.1 hb
    have hfound : i ∈ foundAt g n (reachSweep g reach) :=
      Finset.mem_filter.2 ⟨Finset.mem_range.2 hlt, hmem⟩
    rw [heq] at hfound
    exact (Finset.mem_filter.1 hfound).2
  induction h with
  | here hb hj hc hread =>
    exact hback hb (subset_reachSweep_of_succ hb hj hc (Finset.mem_union_left _ hread))
  | later hb hj hc _ ih =>
    exact hback hb (subset_reachSweep_of_succ hb hj hc (Finset.mem_union_right _ ih))

/-- Each sweep but the last finds `n` at a new block. The induction is on the number of sweeps. -/
theorem mem_reachSweeps (hk : g.length < k + (foundAt g n reach).card) (h : ReadLater g n i) :
    n ∈ reachSweeps g k reach i := by
  induction k generalizing reach with
  | zero =>
    have hcard := Finset.card_le_card
      (Finset.filter_subset (n ∈ reach ·) (Finset.range g.length))
    rw [Finset.card_range] at hcard
    unfold foundAt at hk
    omega
  | succ k ih =>
    have hsub : foundAt g n reach ⊆ foundAt g n (reachSweep g reach) :=
      Finset.monotone_filter_right _ fun j _ hj ↦ subset_reachSweep j hj
    rcases hsub.eq_or_ssubset with heq | hlt
    · exact subset_reachSweeps _ _ i (mem_of_foundAt_eq heq.symm h)
    · have hcard := Finset.card_lt_card hlt
      rw [reachSweeps]
      split
      · exact ih (by omega)
      · next hsame =>
        -- Nothing has changed, so nothing is new.
        refine absurd (fun j hj ↦ ?_) hlt.2
        obtain ⟨hj, hmem⟩ := Finset.mem_filter.1 hj
        have hcardj : ((reachSweep g reach) j).card = (reach j).card := by
          have := List.any_eq_false.1 (Bool.not_eq_true _ ▸ hsame) j
            (List.mem_range.2 (Finset.mem_range.1 hj))
          simpa using this
        rw [← Finset.eq_of_subset_of_card_le (subset_reachSweep j) hcardj.le] at hmem
        exact Finset.mem_filter.2 ⟨hj, hmem⟩

/-- Every read in reach is found. -/
theorem mem_reachReads (h : ReadLater g n i) : n ∈ reachReads g i :=
  mem_reachSweeps (by omega) h

end ReachLemmas

/-! ### The pass -/

/-- The only read of `v` by which the value it gets before the statements `post` can be seen in the
block: `some j` for statement `j` of them, `none` for the terminator. -/
def deadUse (v : String) (b : Block) (post : List Stmt) : Option (Option ℕ) :=
  let live := post.take (post.findIdx (·.assigns v))
  let termRead := !post.any (·.assigns v) && 0 < b.countTermReads v
  match live.countP (0 < ·.countReads v), termRead with
  | 1, false => some (some (live.findIdx (0 < ·.countReads v)))
  | 0, true => some none
  | _, _ => none

/-- Drop the definition at position `i` and replace the read. -/
def Block.foldUse (i : ℕ) (v : String) (rhs : Expr) (use : Option ℕ) (b : Block) : Block :=
  let post := b.stmts.drop (i + 1)
  match use with
  | some j => { b with stmts := b.stmts.take i ++ post.modify j (·.mapExprs (·.substVar v rhs)) }
  | none => { b.mapTerm (·.substVar v rhs) with stmts := b.stmts.take i ++ post }

section Pass

variable (info : VarInfo) (taken : String → Bool) (reach : Finset String)

/-- The definition at position `i` and its use, if it is inlined; `reach` are the names read after
the block. -/
def deadDef (b : Block) (i : ℕ) : Option (String × Expr × Option ℕ) :=
  match b.stmts[i]? with
  | some (.assign (.var _ v) rhs) =>
    if isScalarLocal info v && !taken v && v ∉ reach && !rhs.hasImpureCall &&
      rhs.nodeCount ≤ 16 then
      let post := b.stmts.drop (i + 1)
      match deadUse v b post with
      | some use =>
        if (post.take (use.getD post.length)).any (·.clashes rhs) then none else some (v, rhs, use)
      | none => none
    else none
  | _ => none

/-- Inline the first definition that can be inlined, while there is one and the budget allows; at
most `k` of them. -/
def foldBlock (budgetOk : ℕ → Bool) (id : ℕ) : ℕ → InlineRun → InlineRun
  | 0, run => run
  | k + 1, run =>
    match run.graph[id]? with
    | some b =>
      if !budgetOk k then run
      else
        match (List.range b.stmts.length).findSome? fun i ↦
            (deadDef info taken reach b i).map (i, ·) with
        | some (i, v, rhs, use) =>
          foldBlock budgetOk id k
            ⟨run.graph.modify id (·.foldUse i v rhs use), run.log ++ [⟨run.graph, id, i⟩]⟩
        | none => run
    | none => run

end Pass

/-- Inline the temporaries that are dead after their block. -/
def foldDeadBlockTemps (info : VarInfo) (budgetOk : ℕ → ℕ → Bool) (g : List Block) : InlineRun :=
  if 300 < g.length then ⟨g, []⟩
  else
    (List.range g.length).foldl (fun run id ↦
      foldBlock info (addrTaken g) (reachReads g id) (budgetOk id) id 400 run) ⟨g, []⟩

end Ldu
