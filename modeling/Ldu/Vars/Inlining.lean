import Ldu.Vars.Inline

/-!
# Passes that inline temporaries

What the passes over temporaries share: the count of assignments, the marks that stand for removed
definitions, and the record of the inlinings a pass makes. An inlining keeps the control flow of a
function, the places that are assigned, and takes no new address (`Derived`).
-/

namespace Ldu

/-- An inlining that a pass makes: the function before it, and where the definition stands. -/
structure Inlining where
  before : List Block
  block : ℕ
  pos : ℕ

/-- The definition at hand: block `b` assigns `rhs` to `nm`. -/
structure Inlining.Defines (x : Inlining) (b : Block) (ty : Ty) (nm : String) (rhs : Expr) :
    Prop where
  block : x.before[x.block]? = some b
  stmt : b.stmts[x.pos]? = some (.assign (.var ty nm) rhs)

/-- A pass under way: the function as it is, and the inlinings made so far. -/
structure InlineRun where
  graph : List Block
  log : List Inlining := []

/-- Rounds while something is inlined and the budget allows; `budgetOk k` says whether the deadline
has passed when `k` rounds are left. -/
def inlineRounds (round : List Block → InlineRun) (budgetOk : ℕ → Bool) : ℕ → InlineRun → InlineRun
  | 0, run => run
  | k + 1, run =>
    if !budgetOk k then run
    else
      let new := round run.graph
      let run' : InlineRun := ⟨new.graph, run.log ++ new.log⟩
      if new.log.isEmpty then run' else inlineRounds round budgetOk k run'

/-- The statement at position `i` of block `k`. -/
def stmtAt (g : List Block) (k i : ℕ) : Option Stmt :=
  g[k]?.bind (·.stmts[i]?)

/-- The number of assignments to `n`, `writes`. -/
def countWrites (g : List Block) (n : String) : ℕ :=
  (g.map fun b ↦ b.stmts.countP (·.assigns n)).sum

/-- The positions of the statements, block by block. -/
def positions (g : List Block) : List (ℕ × ℕ) :=
  g.zipIdx.flatMap fun (b, k) ↦ (List.range b.stmts.length).map (k, ·)

/-- What is left of a removed definition until the end of a round. -/
def inlinedMark : Stmt :=
  .comment "\x01inl"

def Stmt.isInlinedMark : Stmt → Bool
  | .comment label => label == "\x01inl"
  | _ => false

/-- Remove the marks of a block. -/
def Block.eraseMarked (b : Block) : Block :=
  { b with stmts := b.stmts.filter (!·.isInlinedMark) }

/-- Remove all marks. -/
def eraseMarked (g : List Block) : List Block :=
  g.map Block.eraseMarked

/-- Block `b` reads `nm` besides at position `skip`. -/
def Block.uses (nm : String) (skip : Option ℕ) (b : Block) : Bool :=
  (b.stmts.zipIdx.any fun (st, i) ↦ some i != skip && 0 < st.countReads nm) ||
    0 < b.countTermReads nm

/-- The number of nodes, `node_count`. -/
def Expr.nodeCount (e : Expr) : ℕ :=
  e.sumNodes fun _ ↦ 1

theorem eq_take_append_cons {α : Type*} {l : List α} {i : ℕ} {a : α} (h : l[i]? = some a) :
    l = l.take i ++ a :: l.drop (i + 1) := by
  obtain ⟨hlt, rfl⟩ := List.getElem?_eq_some_iff.1 h
  rw [← List.drop_eq_getElem_cons hlt, List.take_append_drop]

/-- A function of positions that singles out position `i`. -/
theorem mapIdx_eq_append_cons {α β : Type*} {l : List α} {i : ℕ} {a : α} {f : ℕ → α → β}
    (g g' : α → β) (h : l[i]? = some a) (hlt : ∀ j < i, f j = g) (hgt : ∀ j, i < j → f j = g') :
    l.mapIdx f = (l.take i).map g ++ f i a :: (l.drop (i + 1)).map g' := by
  obtain ⟨hlen, -⟩ := List.getElem?_eq_some_iff.1 h
  have htake : ((l.take i).map g).length = i := by
    rw [List.length_map, List.length_take]
    omega
  refine List.ext_getElem? fun j ↦ ?_
  rw [List.getElem?_mapIdx]
  rcases lt_trichotomy j i with hj | rfl | hj
  · rw [List.getElem?_append_left (hj.trans_eq htake.symm), List.getElem?_map,
      List.getElem?_take_of_lt hj, hlt j hj]
  · rw [List.getElem?_append_right htake.le, htake, Nat.sub_self, h]
    rfl
  · obtain ⟨d, rfl⟩ := Nat.exists_eq_add_of_lt hj
    rw [List.getElem?_append_right (by omega), htake, show i + d + 1 - i = d + 1 by omega,
      List.getElem?_cons_succ, List.getElem?_map, List.getElem?_drop, hgt _ hj,
      show i + 1 + d = i + d + 1 by omega]

theorem stmtAt_eq_some {g : List Block} {k i : ℕ} {st : Stmt} (h : stmtAt g k i = some st) :
    ∃ b, g[k]? = some b ∧ b.stmts[i]? = some st :=
  Option.bind_eq_some_iff.1 h

section Uses

variable {nm : String} {b : Block} {skip : Option ℕ}

theorem uses_of_reads {l : ℕ} {st : Stmt}
    (hplaced : ∀ st ∈ b.stmts, st.placed = true) (hl : b.stmts[l]? = some st)
    (hskip : some l ≠ skip) (hreads : st.reads nm = true) : b.uses nm skip = true := by
  have hcount : 0 < st.countReads nm := by
    refine Nat.pos_of_ne_zero fun hzero ↦ ?_
    rw [Stmt.countReads_eq_zero_iff (hplaced st (List.mem_of_getElem? hl)), hreads] at hzero
    cases hzero
  rw [Block.uses, Bool.or_eq_true, List.any_eq_true]
  refine .inl ⟨(st, l), List.mk_mem_zipIdx_iff_getElem?.2 hl, ?_⟩
  simp [hskip, hcount]

theorem uses_of_termReads (h : b.termReads nm = true) :
    b.uses nm skip = true := by
  have hcount : 0 < b.countTermReads nm := by
    refine Nat.pos_of_ne_zero fun hzero ↦ ?_
    rw [Block.termReads_eq_false hzero] at h
    cases h
  simp [Block.uses, hcount]

end Uses

/-! ### Statements in between -/

/-- The statement may change the value of `rhs`: it assigns an input or, if `rhs` loads memory,
calls or stores. -/
def Stmt.clashes (rhs : Expr) : Stmt → Bool
  | assign (.var _ x) e => rhs.readsNamedVar x || (rhs.readsMem && e.hasCall)
  | assign (.mem _ _) _ => rhs.readsMem
  | assign _ e => rhs.readsMem && e.hasCall
  | call e => rhs.readsMem && e.hasCall
  | comment _ => false

section Clashes

variable {rhs : Expr} {st : Stmt} {taken : String → Bool}

theorem assigns_of_not_clashes (h : st.clashes rhs = false) {n : String}
    (hn : rhs.readsNamedVar n = true) : st.assigns n = false := by
  rw [Stmt.assigns, Option.isSome_eq_false_iff, Option.isNone_iff_eq_none]
  cases hdef : st.defOf n with
  | none => rfl
  | some e =>
    obtain ⟨ty, rfl⟩ := defOf_eq_some hdef
    rw [Stmt.clashes, hn] at h
    cases h

/-- What lies between a load and its use leaves memory alone, unless it assigns a local there. -/
theorem leavesMem_of_not_clashes (h : st.clashes rhs = false) (hplaced : st.placed = true)
    (hload : rhs.readsMem = true) (hassigns : ∀ n, st.assigns n = true → taken n = false) :
    st.leavesMem taken = true := by
  cases st with
  | assign lhs e =>
    cases lhs with
    | var ty x =>
      rw [Stmt.clashes, hload, Bool.true_and, Bool.or_eq_false_iff] at h
      rw [Stmt.leavesMem, Expr.hasImpureCall_of_hasCall h.2,
        hassigns x (by simp [Stmt.assigns, Stmt.defOf])]
      rfl
    | mem ty a =>
      rw [Stmt.clashes, hload] at h
      cases h
    | _ => cases hplaced
  | call e =>
    rw [Stmt.clashes, hload, Bool.true_and] at h
    rw [Stmt.leavesMem, Expr.hasImpureCall_of_hasCall h]
    rfl
  | comment => rfl

end Clashes

/-! ### Counting assignments -/

section CountWrites

variable {g : List Block} {n : String} {k i : ℕ} {b : Block}

theorem countP_le_countWrites (hb : g[k]? = some b) :
    b.stmts.countP (·.assigns n) ≤ countWrites g n :=
  List.single_le_sum (by simp) _ (List.mem_map.2 ⟨b, List.mem_of_getElem? hb, rfl⟩)

theorem defOf_of_countWrites (h : countWrites g n = 0) (hb : g[k]? = some b) {st : Stmt}
    (hst : st ∈ b.stmts) : st.defOf n = none := by
  have hzero : b.stmts.countP (·.assigns n) = 0 := by
    have := countP_le_countWrites (n := n) hb
    omega
  have hno := List.countP_eq_zero.1 hzero st hst
  simpa [Stmt.assigns] using hno

theorem sum_le_sum_of_getElem? {α : Type*} {l l' : List α} {f : α → ℕ}
    (hlength : l'.length = l.length)
    (h : ∀ (j : ℕ) (a a' : α), l[j]? = some a → l'[j]? = some a' → f a' ≤ f a) :
    (l'.map f).sum ≤ (l.map f).sum := by
  refine List.Forall₂.sum_le_sum (List.forall₂_iff_get.2 ⟨by simp [hlength], fun j hj' hj ↦ ?_⟩)
  simp only [List.length_map] at hj hj'
  simpa using h j _ _ (List.getElem?_eq_getElem hj) (List.getElem?_eq_getElem hj')

/-- Two entries of a list of numbers. -/
theorem add_le_sum {l : List ℕ} {i j x y : ℕ} (hij : i ≠ j) (hi : l[i]? = some x)
    (hj : l[j]? = some y) : x + y ≤ l.sum := by
  induction l generalizing i j with
  | nil => cases hi
  | cons a l ih =>
    rw [List.sum_cons]
    cases i with
    | zero =>
      cases j with
      | zero => exact absurd rfl hij
      | succ j =>
        obtain rfl : a = x := by simpa using hi
        have := List.single_le_sum (by simp) y (List.mem_of_getElem? (by simpa using hj))
        omega
    | succ i =>
      cases j with
      | zero =>
        obtain rfl : a = y := by simpa using hj
        have := List.single_le_sum (by simp) x (List.mem_of_getElem? (by simpa using hi))
        omega
      | succ j =>
        rw [List.getElem?_cons_succ] at hi hj
        have := ih (by omega) hi hj
        omega

/-- When `n` is assigned once, there is no assignment to it besides the one at hand. -/
theorem defOf_of_single (h : countWrites g n ≤ 1) (hb : g[k]? = some b) {pre post : List Stmt}
    {st : Stmt} (hstmts : b.stmts = pre ++ st :: post) (hst : st.assigns n = true) :
    (∀ st' ∈ pre ++ post, st'.defOf n = none) ∧
      ∀ j c, j ≠ k → g[j]? = some c → ∀ st' ∈ c.stmts, st'.defOf n = none := by
  have hcount : b.stmts.countP (·.assigns n) = (pre ++ post).countP (·.assigns n) + 1 := by
    rw [hstmts, List.countP_append, List.countP_cons_of_pos hst, List.countP_append, Nat.add_assoc]
  have hnone : ∀ l : List Stmt, l.countP (·.assigns n) = 0 → ∀ st' ∈ l, st'.defOf n = none := by
    intro l hl st' hst'
    have hno := List.countP_eq_zero.1 hl st' hst'
    simpa [Stmt.assigns] using hno
  refine ⟨hnone _ ?_, fun j c hj hc ↦ hnone _ ?_⟩
  · have := countP_le_countWrites (n := n) hb
    omega
  · have hle : b.stmts.countP (·.assigns n) + c.stmts.countP (·.assigns n) ≤ countWrites g n :=
      add_le_sum hj.symm (by simp [hb]) (by simp [hc])
    omega

end CountWrites

/-! ### What an inlining keeps -/

/-- The function `h` has the control flow of `g`, has no more assignments, takes no address that `g`
does not take, and assigns to variables and memory cells if `g` does. -/
structure Derived (g h : List Block) : Prop where
  targets : h.map Block.targets = g.map Block.targets
  writes : ∀ n, countWrites h n ≤ countWrites g n
  addr : ∀ n, addrTaken h n = true → addrTaken g n = true
  placed : (∀ b ∈ g, ∀ st ∈ b.stmts, st.placed = true) → ∀ b ∈ h, ∀ st ∈ b.stmts, st.placed = true

theorem Derived.refl (g : List Block) : Derived g g :=
  ⟨rfl, fun _ ↦ le_rfl, fun _ h ↦ h, fun h ↦ h⟩

theorem Derived.trans {g h k : List Block} (hgh : Derived g h) (hhk : Derived h k) : Derived g k :=
  ⟨hhk.targets.trans hgh.targets, fun n ↦ (hhk.writes n).trans (hgh.writes n),
    fun n hn ↦ hgh.addr n (hhk.addr n hn), fun h ↦ hhk.placed (hgh.placed h)⟩

/-- The statements `sts'` are `sts`, some with `nm` replaced by `r`, some removed or blanked. -/
inductive Replaced (nm : String) (r : Expr) : List Stmt → List Stmt → Prop
  | nil : Replaced nm r [] []
  | kept {sts sts' : List Stmt} (st : Stmt) (h : Replaced nm r sts sts') :
    Replaced nm r (st :: sts) (st :: sts')
  | replaced {st : Stmt} {sts sts' : List Stmt} (hdef : st.defOf nm = none)
    (h : Replaced nm r sts sts') :
    Replaced nm r (st :: sts) (st.mapExprs (·.substVar nm r) :: sts')
  | removed {sts sts' : List Stmt} (st : Stmt) (h : Replaced nm r sts sts') :
    Replaced nm r (st :: sts) sts'
  | blanked {sts sts' : List Stmt} (st : Stmt) (label : String) (h : Replaced nm r sts sts') :
    Replaced nm r (st :: sts) (.comment label :: sts')

namespace Replaced

variable {nm : String} {r : Expr} {sts sts' rest rest' : List Stmt}

theorem refl (sts : List Stmt) : Replaced nm r sts sts := by
  induction sts with
  | nil => exact .nil
  | cons st sts ih => exact .kept st ih

theorem map (h : ∀ st ∈ sts, st.defOf nm = none) :
    Replaced nm r sts (sts.map (·.mapExprs (·.substVar nm r))) := by
  induction sts with
  | nil => exact .nil
  | cons st sts ih =>
    exact .replaced (h st (by simp)) (ih fun st hst ↦ h st (by simp [hst]))

theorem append (h : Replaced nm r sts sts') (hrest : Replaced nm r rest rest') :
    Replaced nm r (sts ++ rest) (sts' ++ rest') := by
  induction h with
  | nil => exact hrest
  | kept st _ ih => exact .kept st ih
  | replaced hdef _ ih => exact .replaced hdef ih
  | removed st _ ih => exact .removed st ih
  | blanked st label _ ih => exact .blanked st label ih

theorem countP_le (h : Replaced nm r sts sts') (n : String) :
    sts'.countP (·.assigns n) ≤ sts.countP (·.assigns n) := by
  induction h with
  | nil => exact le_rfl
  | kept st _ ih =>
    simp only [List.countP_cons]
    omega
  | replaced hdef _ ih =>
    simp only [List.countP_cons, Stmt.assigns, World.defOf_substVar hdef, Option.isSome_map]
    simp only [Stmt.assigns] at ih
    omega
  | removed st _ ih => exact ih.trans ((List.sublist_cons_self st _).countP_le)
  | blanked st label _ ih =>
    rw [List.countP_cons_of_neg (by simp [Stmt.assigns, Stmt.defOf])]
    exact ih.trans ((List.sublist_cons_self st _).countP_le)

theorem of_mem (h : Replaced nm r sts sts') {st' : Stmt} (hst' : st' ∈ sts') :
    st'.isComment = true ∨ st' ∈ sts ∨
      ∃ st ∈ sts, st.defOf nm = none ∧ st' = st.mapExprs (·.substVar nm r) := by
  induction h with
  | nil => cases hst'
  | kept st _ ih =>
    rcases List.mem_cons.1 hst' with rfl | hst'
    · exact .inr (.inl (by simp))
    · refine (ih hst').imp_right (Or.imp (List.mem_cons_of_mem _) ?_)
      exact fun ⟨c, hc, h⟩ ↦ ⟨c, List.mem_cons_of_mem _ hc, h⟩
  | @replaced st _ _ hdef _ ih =>
    rcases List.mem_cons.1 hst' with rfl | hst'
    · exact .inr (.inr ⟨st, by simp, hdef, rfl⟩)
    · refine (ih hst').imp_right (Or.imp (List.mem_cons_of_mem _) ?_)
      exact fun ⟨c, hc, h⟩ ↦ ⟨c, List.mem_cons_of_mem _ hc, h⟩
  | removed st _ ih =>
    refine (ih hst').imp_right (Or.imp (List.mem_cons_of_mem _) ?_)
    exact fun ⟨c, hc, h⟩ ↦ ⟨c, List.mem_cons_of_mem _ hc, h⟩
  | blanked st label _ ih =>
    rcases List.mem_cons.1 hst' with rfl | hst'
    · exact .inl rfl
    · refine (ih hst').imp_right (Or.imp (List.mem_cons_of_mem _) ?_)
      exact fun ⟨c, hc, h⟩ ↦ ⟨c, List.mem_cons_of_mem _ hc, h⟩

end Replaced

/-- The statements and the expressions of `b'` are those of `b`, some with `nm` replaced by `r`. -/
structure Block.ReplacedIn (nm : String) (r : Expr) (b b' : Block) : Prop where
  targets : b'.targets = b.targets
  stmts : Replaced nm r b.stmts b'.stmts
  term : ∀ e' ∈ b'.termExprs, ∃ e ∈ b.termExprs, e' = e ∨ e' = e.substVar nm r

/-- A terminator that is left alone. -/
theorem Block.replacedIn_of_kept {nm : String} {r : Expr} {b b' : Block}
    (hb' : b' = { b with stmts := b'.stmts }) (h : Replaced nm r b.stmts b'.stmts) :
    b.ReplacedIn nm r b' := by
  refine ⟨?_, h, fun e he ↦ ⟨e, ?_, .inl rfl⟩⟩
  · rw [hb']
    rfl
  · rw [hb'] at he
    exact he

/-- A terminator with `nm` replaced. -/
theorem Block.replacedIn_of_mapTerm {nm : String} {r : Expr} {b b' : Block}
    (hb' : b' = { b.mapTerm (·.substVar nm r) with stmts := b'.stmts })
    (h : Replaced nm r b.stmts b'.stmts) : b.ReplacedIn nm r b' := by
  refine ⟨?_, h, fun e' he' ↦ ?_⟩
  · rw [hb']
    rfl
  · rw [hb'] at he'
    obtain ⟨e, he, rfl⟩ : ∃ e ∈ b.termExprs, e.substVar nm r = e' := by
      simpa [Block.mapTerm, Block.mapExprs, Block.termExprs, or_assoc, or_and_right, exists_or]
        using he'
    exact ⟨e, he, .inr rfl⟩

section Replaced

variable {nm : String} {r : Expr}

theorem isAddrOf_substVar {n : String} {e : Expr} (hnm : e.anyNode (Expr.isAddrOf nm) = false)
    (h : (e.substVar nm r).anyNode (Expr.isAddrOf n) = true) :
    e.anyNode (Expr.isAddrOf n) = true ∨ r.anyNode (Expr.isAddrOf n) = true := by
  induction e using Expr.childInduction with
  | h e ih =>
    cases hvar : Expr.isVarNamed nm e with
    | true =>
      obtain ⟨ty, rfl⟩ := Expr.eq_var_of_isVarNamed hvar
      rw [Expr.substVar_self] at h
      exact .inr h
    | false =>
      rw [Expr.substVar_eq hvar, Expr.anyNode_eq, Bool.or_eq_true, Expr.children_mapChildren,
        List.any_map, List.any_eq_true] at h
      rcases h with hroot | ⟨c, hc, h⟩
      · left
        rw [Expr.anyNode_eq, Bool.or_eq_true]
        left
        rw [Expr.anyNode_eq, Bool.or_eq_false_iff] at hnm
        cases e with
        | addrOf ty a =>
          have hvar' : Expr.isVarNamed nm a = false := by
            cases a <;> first | rfl | exact hnm.1
          rw [Expr.mapChildren, Expr.substVar_eq hvar'] at hroot
          cases a <;> exact hroot
        | _ => cases hroot
      · exact (ih c hc (Expr.anyNode_child_eq_false hc hnm) h).imp_left (Expr.anyNode_of_child hc)

theorem placed_substVar {st : Stmt} (hdef : st.defOf nm = none) (h : st.placed = true) :
    (st.mapExprs (·.substVar nm r)).placed = true := by
  cases st with
  | assign lhs rhs =>
    have hkept : World.PlaceKept (·.substVar nm r) lhs := World.placeKept_substVar hdef
    cases lhs with
    | var ty x => rw [Stmt.mapExprs, hkept.var ty x rfl]; rfl
    | mem ty a => rw [Stmt.mapExprs, hkept.mem ty a rfl]; rfl
    | _ => cases h
  | call | comment => rfl

theorem mem_exprs_of_replacedIn {b b' : Block} (h : b.ReplacedIn nm r b') {e' : Expr}
    (he' : e' ∈ b'.exprs) : ∃ e ∈ b.exprs, e' = e ∨ e' = e.substVar nm r := by
  rcases List.mem_append.1 he' with he' | he'
  · obtain ⟨st', hst', he'⟩ := List.mem_flatMap.1 he'
    rcases h.stmts.of_mem hst' with hcom | hmem | ⟨st, hst, -, rfl⟩
    · cases st' with
      | comment => cases he'
      | _ => cases hcom
    · exact ⟨e', List.mem_append_left _ (List.mem_flatMap.2 ⟨st', hmem, he'⟩), .inl rfl⟩
    · obtain ⟨e, he, rfl⟩ : ∃ e ∈ st.exprs, e' = e.substVar nm r := by
        cases st <;> simp [Stmt.mapExprs, Stmt.exprs] at he' ⊢ <;> exact he'
      exact ⟨e, List.mem_append_left _ (List.mem_flatMap.2 ⟨st, hst, he⟩), .inr rfl⟩
  · obtain ⟨e, he, h⟩ := h.term e' he'
    exact ⟨e, List.mem_append_right _ he, h⟩

theorem not_isAddrOf_of_addrTaken {g : List Block} (h : addrTaken g nm = false) {b : Block}
    (hb : b ∈ g) {e : Expr} (he : e ∈ b.exprs) : e.anyNode (Expr.isAddrOf nm) = false := by
  unfold addrTaken at h
  rw [List.any_eq_false] at h
  have hb' := h b hb
  rw [Bool.not_eq_true, List.any_eq_false] at hb'
  simpa using hb' e he

/-- Replacing `nm`, whose address is not taken, by an expression of the function. -/
theorem derived_of_replacedIn {g h : List Block} (hlength : h.length = g.length)
    (hblocks : ∀ (j : ℕ) (b b' : Block), g[j]? = some b → h[j]? = some b' → b.ReplacedIn nm r b')
    (hnm : addrTaken g nm = false) (hr : ∃ b ∈ g, r ∈ b.exprs) : Derived g h := by
  have hback : ∀ (j : ℕ) (b' : Block), h[j]? = some b' →
      ∃ b, g[j]? = some b ∧ b.ReplacedIn nm r b' := by
    intro j b' hb'
    obtain ⟨b, hb⟩ := exists_of_length_eq hlength hb'
    exact ⟨b, hb, hblocks j b b' hb hb'⟩
  refine ⟨?_, fun n ↦ ?_, fun n hn ↦ ?_, fun hplaced b' hb' st' hst' ↦ ?_⟩
  · refine List.ext_getElem? fun j ↦ ?_
    rw [List.getElem?_map, List.getElem?_map]
    cases hb' : h[j]? with
    | none =>
      rw [List.getElem?_eq_none_iff] at hb'
      rw [List.getElem?_eq_none_iff.2 (by omega)]
    | some b' =>
      obtain ⟨b, hb, hrep⟩ := hback j b' hb'
      rw [hb, Option.map_some, Option.map_some, hrep.targets]
  · refine sum_le_sum_of_getElem? hlength fun j b b' hb hb' ↦
      (hblocks j b b' hb hb').stmts.countP_le n
  · unfold addrTaken at hn ⊢
    rw [List.any_eq_true] at hn ⊢
    obtain ⟨b', hb', hn⟩ := hn
    rw [List.any_eq_true] at hn
    obtain ⟨e', he', hn⟩ := hn
    obtain ⟨j, hj⟩ := List.mem_iff_getElem?.1 hb'
    obtain ⟨b, hb, hrep⟩ := hback j b' hj
    have hmem := List.mem_of_getElem? hb
    obtain ⟨e, he, rfl | rfl⟩ := mem_exprs_of_replacedIn hrep he'
    · exact ⟨b, hmem, List.any_eq_true.2 ⟨e', he, hn⟩⟩
    · obtain ⟨c, hc, hrc⟩ := hr
      rcases isAddrOf_substVar (not_isAddrOf_of_addrTaken hnm hmem he) hn with hn | hn
      · exact ⟨b, hmem, List.any_eq_true.2 ⟨e, he, hn⟩⟩
      · exact ⟨c, hc, List.any_eq_true.2 ⟨r, hrc, hn⟩⟩
  · obtain ⟨j, hj⟩ := List.mem_iff_getElem?.1 hb'
    obtain ⟨b, hb, hrep⟩ := hback j b' hj
    rcases hrep.stmts.of_mem hst' with hcom | hst | ⟨st, hst, hdef, rfl⟩
    · cases st' with
      | comment => rfl
      | _ => cases hcom
    · exact hplaced b (List.mem_of_getElem? hb) st' hst
    · exact placed_substVar hdef (hplaced b (List.mem_of_getElem? hb) st hst)

end Replaced

/-! ### Marks -/

section Marks

variable {M E : Type} {W : World M E} {decl : String → Val → Val}

theorem execAll_eraseMarked (sts : List Stmt) (s : Store M) :
    (W.interp decl).execAll (sts.filter (!·.isInlinedMark)) s = (W.interp decl).execAll sts s := by
  induction sts generalizing s with
  | nil => rfl
  | cons st sts ih =>
    cases hmark : st.isInlinedMark with
    | true =>
      rw [List.filter_cons_of_neg (by simp [hmark]), ih]
      cases st with
      | comment label =>
        have hsilent : (W.interp decl).execAll (.comment label :: sts) s =
            (W.interp decl).execAll sts s := World.execAll_silent_cons rfl
        exact hsilent.symm
      | _ => cases hmark
    | false =>
      rw [List.filter_cons_of_pos (by simp [hmark])]
      simp only [Interp.execAll, ih]

/-- The function `h` is `g` without the marks of some blocks. -/
structure ErasesMarks (g h : List Block) : Prop where
  length_eq : h.length = g.length
  blocks : ∀ (j : ℕ) (b b' : Block), g[j]? = some b → h[j]? = some b' →
    b' = b ∨ b' = b.eraseMarked

theorem erasesMarks_eraseMarked (g : List Block) : ErasesMarks g (eraseMarked g) := by
  refine ⟨by simp [eraseMarked], fun j b b' hb hb' ↦ .inr ?_⟩
  rw [eraseMarked, List.getElem?_map, hb] at hb'
  exact (Option.some.inj hb').symm

variable {g h : List Block}

theorem ErasesMarks.exists (hgh : ErasesMarks g h) {j : ℕ} {b' : Block} (hb' : h[j]? = some b') :
    ∃ b, g[j]? = some b ∧ (b' = b ∨ b' = b.eraseMarked) := by
  obtain ⟨b, hb⟩ := exists_of_length_eq hgh.length_eq hb'
  exact ⟨b, hb, hgh.blocks j b b' hb hb'⟩

/-- Marks do nothing. -/
theorem graphMachine_of_erasesMarks (usedReturn : Bool) (merged : Finset ℕ)
    (hgh : ErasesMarks g h) :
    graphMachine (W.interp decl) usedReturn merged h =
      graphMachine (W.interp decl) usedReturn merged g := by
  unfold graphMachine
  congr 1
  funext p
  obtain ⟨k, s⟩ := p
  dsimp only
  split
  · rfl
  · cases hb' : h[k]? with
    | none =>
      have hb : g[k]? = none := by
        rw [List.getElem?_eq_none_iff] at hb' ⊢
        rwa [← hgh.length_eq]
      rw [hb]
    | some b' =>
      obtain ⟨b, hb, rfl | rfl⟩ := hgh.exists hb'
      · rw [hb]
      · rw [hb]
        simp only [runBlock, Block.eraseMarked, execAll_eraseMarked]
        rfl

theorem derived_of_erasesMarks (hgh : ErasesMarks g h) : Derived g h := by
  have hsub : ∀ b b' : Block, b' = b ∨ b' = b.eraseMarked → b'.stmts.Sublist b.stmts ∧
      b'.targets = b.targets ∧ b'.termExprs = b.termExprs := by
    rintro b b' (rfl | rfl)
    · exact ⟨.refl _, rfl, rfl⟩
    · exact ⟨List.filter_sublist, rfl, rfl⟩
  refine ⟨?_, fun n ↦ ?_, fun n hn ↦ ?_, fun hplaced b' hb' st hst ↦ ?_⟩
  · refine List.ext_getElem? fun j ↦ ?_
    rw [List.getElem?_map, List.getElem?_map]
    cases hb' : h[j]? with
    | none =>
      rw [List.getElem?_eq_none_iff] at hb'
      rw [List.getElem?_eq_none_iff.2 (by rwa [← hgh.length_eq])]
    | some b' =>
      obtain ⟨b, hb, hcase⟩ := hgh.exists hb'
      rw [hb, Option.map_some, Option.map_some, (hsub b b' hcase).2.1]
  · exact sum_le_sum_of_getElem? hgh.length_eq fun j b b' hb hb' ↦
      (hsub b b' (hgh.blocks j b b' hb hb')).1.countP_le
  · unfold addrTaken at hn ⊢
    rw [List.any_eq_true] at hn ⊢
    obtain ⟨b', hb', hn⟩ := hn
    obtain ⟨j, hj⟩ := List.mem_iff_getElem?.1 hb'
    obtain ⟨b, hb, hcase⟩ := hgh.exists hj
    rw [List.any_eq_true] at hn
    obtain ⟨e, he, hn⟩ := hn
    refine ⟨b, List.mem_of_getElem? hb, List.any_eq_true.2 ⟨e, ?_, hn⟩⟩
    rcases List.mem_append.1 he with he | he
    · obtain ⟨st, hst, he⟩ := List.mem_flatMap.1 he
      exact List.mem_append_left _ (List.mem_flatMap.2 ⟨st, (hsub b b' hcase).1.mem hst, he⟩)
    · rw [(hsub b b' hcase).2.2] at he
      exact List.mem_append_right _ he
  · obtain ⟨j, hj⟩ := List.mem_iff_getElem?.1 hb'
    obtain ⟨b, hb, hcase⟩ := hgh.exists hj
    exact hplaced b (List.mem_of_getElem? hb) st ((hsub b b' hcase).1.mem hst)

end Marks

/-! ### The inlinings of a pass, one after the other -/

/-- The inlinings `log` lead from `g` to `h`; `ok x h'` says that `x` is an inlining with result
`h'`. Marks are erased in between. -/
inductive InlineSteps (ok : Inlining → List Block → Prop) :
    List Block → List Inlining → List Block → Prop
  | done (g : List Block) : InlineSteps ok g [] g
  | erase {g g' h : List Block} {log : List Inlining} (herase : ErasesMarks g g')
    (hrest : InlineSteps ok g' log h) : InlineSteps ok g log h
  | inline {x : Inlining} {h' h : List Block} {log : List Inlining} (hok : ok x h')
    (hrest : InlineSteps ok h' log h) : InlineSteps ok x.before (x :: log) h

namespace InlineSteps

variable {ok : Inlining → List Block → Prop} {g h k : List Block} {log log' : List Inlining}
  {x : Inlining}

theorem trans (hgh : InlineSteps ok g log h) (hhk : InlineSteps ok h log' k) :
    InlineSteps ok g (log ++ log') k := by
  induction hgh with
  | done => exact hhk
  | erase herase _ ih => exact .erase herase (ih hhk)
  | inline hok _ ih => exact .inline hok (ih hhk)

/-- One more inlining. -/
theorem snoc (hgh : InlineSteps ok g log x.before) (hok : ok x k) :
    InlineSteps ok g (log ++ [x]) k :=
  hgh.trans (.inline hok (.done k))

theorem derived (hok : ∀ x k, ok x k → Derived x.before k) (hgh : InlineSteps ok g log h) :
    Derived g h := by
  induction hgh with
  | done => exact .refl _
  | erase herase _ ih => exact (derived_of_erasesMarks herase).trans ih
  | inline hx _ ih => exact (hok _ _ hx).trans ih

/-- Each inlining of the log is one of a function derived from the first. -/
theorem of_mem (hok : ∀ x k, ok x k → Derived x.before k) (hgh : InlineSteps ok g log h)
    (hx : x ∈ log) : Derived g x.before ∧ ∃ k, ok x k := by
  induction hgh with
  | done => cases hx
  | erase herase _ ih => exact ⟨(derived_of_erasesMarks herase).trans (ih hx).1, (ih hx).2⟩
  | inline hy _ ih =>
    rcases List.mem_cons.1 hx with rfl | hx
    · exact ⟨.refl _, _, hy⟩
    · exact ⟨(hok _ _ hy).trans (ih hx).1, (ih hx).2⟩

/-- When each inlining keeps the behaviour, so do all. -/
theorem sameBehaviour {M E : Type} {W : World M E} {decl : String → Val → Val} {usedReturn : Bool}
    {merged : Finset ℕ} {id : ℕ} {s : Store M} (hok : ∀ x k, ok x k → Derived x.before k)
    (hgh : InlineSteps ok g log h)
    (hsame : ∀ x k, x ∈ log → ok x k → Derived g x.before →
      (graphMachine (W.interp decl) usedReturn merged x.before).SameBehaviour (id, s)
        (graphMachine (W.interp decl) usedReturn merged k) (id, s)) :
    (graphMachine (W.interp decl) usedReturn merged g).SameBehaviour (id, s)
      (graphMachine (W.interp decl) usedReturn merged h) (id, s) := by
  induction hgh with
  | done => exact .refl _ _
  | erase herase _ ih =>
    have hrest := ih fun x k hx hxk hder ↦
      hsame x k hx hxk ((derived_of_erasesMarks herase).trans hder)
    rwa [graphMachine_of_erasesMarks _ _ herase] at hrest
  | inline hx _ ih =>
    refine (hsame _ _ (by simp) hx (.refl _)).trans (ih fun y k hy hyk hder ↦ ?_)
    exact hsame y k (by simp [hy]) hyk ((hok _ _ hx).trans hder)

/-- Rounds of inlinings, each of a function derived from the first. -/
theorem rounds {round : List Block → InlineRun} {budgetOk : ℕ → Bool}
    (hok : ∀ x k, ok x k → Derived x.before k)
    (hround : ∀ h, Derived g h → InlineSteps ok h (round h).log (round h).graph) (n : ℕ)
    {run : InlineRun} (hrun : InlineSteps ok g run.log run.graph) :
    InlineSteps ok g (inlineRounds round budgetOk n run).log
      (inlineRounds round budgetOk n run).graph := by
  induction n generalizing run with
  | zero => exact hrun
  | succ n ih =>
    have hnext := hrun.trans (hround run.graph (hrun.derived hok))
    rw [inlineRounds]
    split
    · exact hrun
    · dsimp only
      split
      · exact hnext
      · exact ih hnext

end InlineSteps

end Ldu
