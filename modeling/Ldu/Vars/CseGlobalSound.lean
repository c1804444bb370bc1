import Ldu.Semantics.Equal
import Ldu.Vars.CseGlobal
import Ldu.Vars.CseSound

/-!
# Subexpressions shared across blocks keep their value
-/

open Relation

namespace Ldu

/-! ### Structural keys -/

namespace Expr

variable {e target c : Expr}

/-- Trees that `exprEqual` takes for the same have the same text, if there is no call in them. -/
theorem cseKey_of_exprEqual (h : e.exprEqual target = true) (hcall : target.hasCall = false) :
    e.cseKey = target.cseKey := by
  induction e using childInduction generalizing target with
  | h e ih =>
    have hkey : ∀ c ∈ e.children, ∀ d ∈ target.children, c.exprEqual d = true →
        c.cseKey = d.cseKey := fun c hc d hd hcd ↦
      ih c hc hcd (anyNode_child_eq_false hd hcall)
    clear ih
    revert h
    fun_cases exprEqual e target <;> intro h
    all_goals try simp only [Bool.and_eq_true, beq_iff_eq] at h
    all_goals simp only [children, List.mem_cons, List.not_mem_nil, or_false] at hkey
    case case1 | case2 | case3 | case9 => rw [cseKey, cseKey, h]
    case case4 t a t' a' => rw [cseKey, cseKey, h.2, hkey a rfl a' rfl h.1]
    case case5 t op a t' op' a' => rw [cseKey, cseKey, h.1, hkey a rfl a' rfl h.2]
    case case6 t op a b t' op' a' b' =>
      rw [cseKey, cseKey, h.1.1, hkey a (.inl rfl) a' (.inl rfl) h.1.2,
        hkey b (.inr rfl) b' (.inr rfl) h.2]
    case case7 t text a t' text' a' => rw [cseKey, cseKey, h.1, hkey a rfl a' rfl h.2]
    case case8 t a t' a' => rw [cseKey, cseKey, hkey a rfl a' rfl h]
    case case10 t a b c t' a' b' c' =>
      rw [cseKey, cseKey, hkey a (.inl rfl) a' (.inl rfl) h.1.1,
        hkey b (.inr (.inl rfl)) b' (.inr (.inl rfl)) h.1.2,
        hkey c (.inr (.inr rfl)) c' (.inr (.inr rfl)) h.2]
    case case11 | case12 | case13 | case14 =>
      rw [hasCall, anyNode_eq] at hcall
      cases hcall
    case case15 => cases h

theorem mem_nodes_of_mem_collectSubs (h : c ∈ e.collectSubs) : c ∈ e.nodes := by
  induction e using childInduction with
  | h e ih =>
    rw [collectSubs_eq] at h
    rw [nodes_eq, List.mem_cons]
    rcases List.mem_append.1 h with h | h
    · split at h
      · exact .inl (List.mem_singleton.1 h)
      · cases h
    · obtain ⟨d, hd, h⟩ := List.mem_flatMap.1 h
      exact .inr (List.mem_flatMap.2 ⟨d, hd, ih d hd h⟩)

end Expr

/-- Some statement or the terminator has an occurrence. -/
def Block.occurs (best : Expr) (b : Block) : Prop :=
  b.occursAfter best b.stmts

/-- The occurrences are among the subexpressions counted. -/
theorem mem_keyBlocks {g : List Block} {j : ℕ} {b : Block} {best : Expr} (hb : g[j]? = some b)
    (hint : best.isInternal = true) (hcall : best.hasCall = false) (hocc : b.occurs best) :
    j ∈ keyBlocks g best.cseKey := by
  have hkey : ∀ e ∈ b.stmts.flatMap Stmt.scanned ++ b.sharedTerm, e.countOcc best ≠ 0 →
      best.cseKey ∈ b.cseKeys := by
    intro e he hne
    obtain ⟨c, hc, heq⟩ := Expr.exists_mem_collectSubs hint hne
    rw [← Expr.cseKey_of_exprEqual heq hcall]
    exact List.mem_map_of_mem
      (List.mem_flatMap.2 ⟨e, he, Expr.mem_nodes_of_mem_collectSubs hc⟩)
  have hmem : best.cseKey ∈ b.cseKeys := by
    rcases hocc with hocc | hocc
    · obtain ⟨st, hst, hpos⟩ := List.any_eq_true.1 hocc
      cases st with
      | assign lhs rhs =>
        have hscan : ∀ e ∈ [rhs, lhs], e ∈ b.stmts.flatMap Stmt.scanned ++ b.sharedTerm :=
          fun e he ↦ List.mem_append_left _ (List.mem_flatMap.2 ⟨_, hst, he⟩)
        rw [decide_eq_true_eq, Stmt.countOcc] at hpos
        by_cases hrhs : rhs.countOcc best = 0
        · exact hkey lhs (hscan lhs (by simp)) (by omega)
        · exact hkey rhs (hscan rhs (by simp)) hrhs
      | call | comment => cases hpos
    · obtain ⟨n, hn, hne⟩ := List.exists_mem_ne_zero_of_sum_ne_zero (Nat.ne_of_gt hocc)
      obtain ⟨e, he, rfl⟩ := List.mem_map.1 hn
      exact hkey e (List.mem_append_right _ he) hne
  obtain ⟨hlt, -⟩ := List.getElem?_eq_some_iff.1 hb
  rw [keyBlocks, List.mem_filter, List.mem_range, hb]
  exact ⟨hlt, by simpa using hmem⟩

/-! ### The search for assignments -/

section Search

variable {g : List Block} {d : ℕ} {sub : Expr}

/-- The block assigns no variable of `sub`. -/
def SparesLeaves (g : List Block) (sub : Expr) (j : ℕ) : Prop :=
  ∀ B, g[j]? = some B → ∀ st ∈ B.stmts, st.assignsLeaf sub = false

/-- Blocks that assign no variable of `sub`, and that only `d` leads out of. -/
def ClosedSet (g : List Block) (d : ℕ) (sub : Expr) (S : Set ℕ) : Prop :=
  ∀ a ∈ S, SparesLeaves g sub a ∧ ∀ c ∈ succOf g a, c = d ∨ c ∈ S

/-- A block seen spares the variables, and leads to `d`, to blocks seen, or to the stack. -/
def SearchInv (g : List Block) (d : ℕ) (sub : Expr) (work seen : List ℕ) : Prop :=
  ∀ a ∈ seen, SparesLeaves g sub a ∧ ∀ c ∈ succOf g a, c = d ∨ c ∈ seen ∨ c ∈ work

theorem SearchInv.skip {b : ℕ} {work seen : List ℕ} (h : SearchInv g d sub (b :: work) seen)
    (hb : b = d ∨ b ∈ seen) : SearchInv g d sub work seen := by
  refine fun a ha ↦ ⟨(h a ha).1, fun c hc ↦ ?_⟩
  rcases (h a ha).2 c hc with hc | hc | hc
  · exact .inl hc
  · exact .inr (.inl hc)
  · rcases List.mem_cons.1 hc with rfl | hc
    · exact hb.imp_right .inl
    · exact .inr (.inr hc)

theorem SearchInv.push {b : ℕ} {work seen : List ℕ} (h : SearchInv g d sub (b :: work) seen)
    (hb : SparesLeaves g sub b) :
    SearchInv g d sub ((succOf g b).reverse ++ work) (b :: seen) := by
  intro a ha
  rcases List.mem_cons.1 ha with rfl | ha
  · exact ⟨hb, fun c hc ↦ .inr (.inr (List.mem_append_left _ (List.mem_reverse.2 hc)))⟩
  · refine ⟨(h a ha).1, fun c hc ↦ ?_⟩
    rcases (h a ha).2 c hc with hc | hc | hc
    · exact .inl hc
    · exact .inr (.inl (List.mem_cons_of_mem _ hc))
    · rcases List.mem_cons.1 hc with rfl | hc
      · exact .inr (.inl List.mem_cons_self)
      · exact .inr (.inr (List.mem_append_right _ hc))

/-- When the stack is empty, the blocks seen are closed. -/
theorem SearchInv.closedSet {seen : List ℕ} (h : SearchInv g d sub [] seen) :
    ClosedSet g d sub {a | a ∈ seen} := fun a ha ↦
  ⟨(h a ha).1, fun c hc ↦ ((h a ha).2 c hc).imp_right fun h ↦ h.resolve_right List.not_mem_nil⟩

/-- A search that succeeds has gone through a closed set. -/
theorem exists_closed_of_stableFrom {fuel : ℕ} {work seen : List ℕ}
    (h : stableFrom g d sub fuel work seen = true) (hinv : SearchInv g d sub work seen) :
    ∃ S, ClosedSet g d sub S ∧ (∀ a ∈ seen, a ∈ S) ∧ ∀ b ∈ work, b = d ∨ b ∈ S := by
  fun_induction stableFrom g d sub fuel work seen with
  | case1 work seen =>
    obtain rfl := List.isEmpty_iff.1 h
    exact ⟨_, hinv.closedSet, fun a ha ↦ ha, fun b hb ↦ absurd hb List.not_mem_nil⟩
  | case2 fuel seen =>
    exact ⟨_, hinv.closedSet, fun a ha ↦ ha, fun b hb ↦ absurd hb List.not_mem_nil⟩
  | case3 fuel b work seen hb ih =>
    obtain ⟨S, hS, hseen, hwork⟩ := ih h (hinv.skip hb)
    refine ⟨S, hS, hseen, fun c hc ↦ (List.mem_cons.1 hc).elim ?_ (hwork c)⟩
    rintro rfl
    exact hb.imp_right (hseen c)
  | case4 fuel b work seen hb B hB hassigns => cases h
  | case5 fuel b work seen hb B hB hassigns ih =>
    have hspares : SparesLeaves g sub b := fun B' hB' st hst ↦ by
      obtain rfl := Option.some.inj (hB.symm.trans hB')
      simpa using List.any_eq_false.1 (Bool.eq_false_iff.2 hassigns) st hst
    have hpush := hinv.push hspares
    rw [succOf, hB] at hpush
    obtain ⟨S, hS, hseen, hwork⟩ := ih h hpush
    refine ⟨S, hS, fun a ha ↦ hseen a (List.mem_cons_of_mem _ ha), fun c hc ↦ ?_⟩
    rcases List.mem_cons.1 hc with rfl | hc
    · exact .inr (hseen c List.mem_cons_self)
    · exact hwork c (List.mem_append_right _ hc)
  | case6 fuel b work seen hb hB ih =>
    have hpush := hinv.push (b := b) fun B' hB' ↦ by
      rw [hB] at hB'
      cases hB'
    rw [succOf, hB] at hpush
    obtain ⟨S, hS, hseen, hwork⟩ := ih h hpush
    refine ⟨S, hS, fun a ha ↦ hseen a (List.mem_cons_of_mem _ ha), fun c hc ↦ ?_⟩
    rcases List.mem_cons.1 hc with rfl | hc
    · exact .inr (hseen c List.mem_cons_self)
    · exact hwork c hc

/-- Nothing that `d` leads to assigns a variable of `sub`. -/
theorem sparesLeaves_of_leavesStable (h : leavesStable g d sub = true) {j : ℕ}
    (hj : TransGen (fun a b ↦ b ∈ succOf g a ∧ b ≠ d) d j) : SparesLeaves g sub j := by
  obtain ⟨S, hS, -, hwork⟩ := exists_closed_of_stableFrom h fun a ha ↦ absurd ha List.not_mem_nil
  have hmem : j ∈ S := by
    induction hj with
    | single h => exact (hwork _ (List.mem_reverse.2 h.1)).resolve_left h.2
    | tail _ h ih => exact ((hS _ ih).2 _ h.1).resolve_left h.2
  exact (hS j hmem).1

end Search

/-! ### What the pass checks -/

/-- The subexpression is shared across the blocks. -/
structure Sharing.Placed (idom : List (Option ℕ)) (D : Block) (x : Sharing) : Prop where
  block : x.before[x.block]? = some D
  le : x.first ≤ D.stmts.length
  before : ∀ st ∈ D.stmts.take x.first, st.countOcc x.best = 0
  after : ∀ st ∈ D.stmts.drop x.first, st.assignsLeaf x.best = false
  mem : ∃ b ∈ x.before, x.best ∈ b.collectSubs
  call : x.best.hasCall = false
  load : x.best.readsMem = false
  dominates : ∀ j b, x.before[j]? = some b → b.occurs x.best → dominates idom x.block j = true
  stable : leavesStable x.before x.block x.best = true

section Checks

variable {idom : List (Option ℕ)} {g : List Block} {sub : Expr}

theorem of_globalSite {p : GlobalShared} (h : globalSite idom g sub = some p) :
    p.sub = sub ∧ p.uses = keyBlocks g sub.cseKey ∧ (∀ u ∈ p.uses, dominates idom p.dom u = true) ∧
      leavesStable g p.dom sub = true ∧ ∃ D, g[p.dom]? = some D ∧
        (p.uses.contains p.dom = true → D.leavesStableWithin sub = true) := by
  unfold globalSite at h
  dsimp only at h
  split at h
  · cases h
  · split at h
    · cases h
    · split at h
      · cases h
      · next d _ D hD =>
        split at h
        · next hcond =>
          obtain rfl := Option.some.inj h
          simp only [Bool.and_eq_true, List.all_eq_true, Bool.or_eq_true,
            Bool.not_eq_true'] at hcond
          obtain ⟨⟨⟨hdom, -⟩, hstable⟩, hwithin⟩ := hcond
          refine ⟨rfl, rfl, hdom, hstable, D, hD, fun huse ↦ ?_⟩
          exact (hwithin.resolve_left (by rw [huse]; decide)).2
        · cases h

/-- A subexpression that is picked. -/
structure GlobalShared.Ok (idom : List (Option ℕ)) (g : List Block) (p : GlobalShared) : Prop where
  mem : ∃ b ∈ g, p.sub ∈ b.collectSubs
  call : p.sub.hasCall = false
  load : p.sub.readsMem = false
  site : globalSite idom g p.sub = some p

theorem pickGlobalStep_ok {acc : List String × Option GlobalShared}
    (hsub : ∃ b ∈ g, sub ∈ b.collectSubs) (hacc : ∀ p, acc.2 = some p → p.Ok idom g)
    (p : GlobalShared) (h : (pickGlobalStep idom g acc sub).2 = some p) : p.Ok idom g := by
  obtain ⟨seen, best⟩ := acc
  unfold pickGlobalStep at h
  dsimp only at h
  split at h
  · exact hacc p h
  · next hcond =>
    have hok : ∀ q, globalSite idom g sub = some q → q.Ok idom g := fun q hq ↦ by
      obtain rfl := (of_globalSite hq).1
      simp only [Bool.or_eq_true, not_or, Bool.not_eq_true] at hcond
      exact ⟨hsub, hcond.1.1.2, hcond.1.2, hq⟩
    split at h
    · exact hacc p h
    · split at h
      · exact hacc p h
      · next q hq => exact Option.some.inj h ▸ hok q hq
      · next _ q _ hq =>
        split at h
        · exact Option.some.inj h ▸ hok q hq
        · exact hacc p h

theorem pickGlobal_ok {p : GlobalShared} (h : pickGlobal idom g = some p) : p.Ok idom g := by
  have hall := List.foldlRecOn (motive := fun acc : List String × Option GlobalShared ↦
    ∀ p, acc.2 = some p → p.Ok idom g) (g.flatMap Block.collectSubs) (pickGlobalStep idom g)
    (b := ([], none)) (fun _ h ↦ by cases h)
    fun acc hacc sub hsub p hp ↦ pickGlobalStep_ok (List.mem_flatMap.1 hsub) hacc p hp
  exact hall p h

theorem insertAt_le (sub : Expr) (b : Block) : b.insertAt sub ≤ b.stmts.length := by
  unfold Block.insertAt
  cases h : b.stmts.findIdx? (0 < ·.countOcc sub) with
  | none => exact le_rfl
  | some i => exact (List.findIdx?_eq_some_iff_getElem.1 h).choose.le

/-- No occurrence stands before the definition. -/
theorem countOcc_of_mem_take {b : Block} {st : Stmt} (h : st ∈ b.stmts.take (b.insertAt sub)) :
    st.countOcc sub = 0 := by
  unfold Block.insertAt at h
  cases hfind : b.stmts.findIdx? (0 < ·.countOcc sub) with
  | none =>
    have hnone := List.findIdx?_eq_none_iff.1 hfind st (List.mem_of_mem_take h)
    simpa using hnone
  | some i =>
    rw [hfind] at h
    obtain ⟨_, _, hno⟩ := List.findIdx?_eq_some_iff_getElem.1 hfind
    obtain ⟨j, hj, rfl⟩ := List.mem_take_iff_getElem.1 h
    simpa using hno j (by rw [Option.getD_some] at hj; omega)

theorem GlobalShared.Ok.internal {p : GlobalShared} (h : p.Ok idom g) :
    p.sub.isInternal = true := by
  obtain ⟨b, -, hb⟩ := h.mem
  obtain ⟨e, -, he⟩ := exists_of_mem_blockSubs hb
  exact Expr.isInternal_of_mem_collectSubs he

/-- What is picked may be shared. -/
theorem GlobalShared.Ok.placed {p : GlobalShared} (h : p.Ok idom g) (temp : String) :
    ∃ D, Sharing.Placed idom D ⟨g, p.dom, p.pos g, p.sub, temp⟩ := by
  obtain ⟨-, huses, hdom, hstable, D, hD, hwithin⟩ := of_globalSite h.site
  have hocc : ∀ j b, g[j]? = some b → b.occurs p.sub → j ∈ p.uses := fun j b hb hocc ↦
    huses ▸ mem_keyBlocks hb h.internal h.call hocc
  have hpos : p.pos g = if p.uses.contains p.dom then D.insertAt p.sub else D.stmts.length := by
    rw [GlobalShared.pos, hD]
  have hsite : p.pos g ≤ D.stmts.length ∧
      (∀ st ∈ D.stmts.take (p.pos g), st.countOcc p.sub = 0) ∧
      ∀ st ∈ D.stmts.drop (p.pos g), st.assignsLeaf p.sub = false := by
    rw [hpos]
    cases huse : p.uses.contains p.dom with
    | true =>
      refine ⟨insertAt_le _ _, fun st hst ↦ countOcc_of_mem_take hst, fun st hst ↦ ?_⟩
      have hno := hwithin huse
      rw [Block.leavesStableWithin, Bool.not_eq_true'] at hno
      simpa using List.any_eq_false.1 hno st hst
    | false =>
      -- The block has no occurrence itself, and the definition stands at its end.
      refine ⟨le_rfl, fun st hst ↦ ?_, fun st hst ↦ ?_⟩
      · by_contra hne
        have hmem : p.dom ∈ p.uses := hocc _ D hD (.inl (List.any_eq_true.2
          ⟨st, List.mem_of_mem_take hst, decide_eq_true (Nat.pos_of_ne_zero hne)⟩))
        rw [List.contains_iff_mem.2 hmem] at huse
        cases huse
      · rw [if_neg (by decide), List.drop_length] at hst
        cases hst
  exact ⟨D, hD, hsite.1, hsite.2.1, hsite.2.2, h.mem, h.call, h.load,
    fun j b hb hj ↦ hdom j (hocc j b hb hj), hstable⟩

end Checks

/-! ### What the pass does not check -/

/-- The recorded successors of a block are those its terminator names, blocks merged away apart. -/
def EdgesRecorded (merged : Finset ℕ) (g : List Block) : Prop :=
  ∀ j b, j ∉ merged → g[j]? = some b → ∀ l ∈ b.targets, l < g.length → l ∉ merged → l ∈ b.succ

/-- The edges are those that `rebuild_edges` leaves. -/
theorem edgesRecorded_rebuildEdges (merged : Finset ℕ) (g : List Block) :
    EdgesRecorded merged (rebuildEdges merged g) := by
  intro j b hj hb l hl hlt hmerged
  rw [getElem?_rebuildEdges] at hb
  obtain ⟨c, hc, rfl⟩ := Option.map_eq_some_iff.1 hb
  rw [length_rebuildEdges] at hlt
  exact mem_newSucc.2 ⟨hj, c, hc, hl, hlt, hmerged⟩

namespace Sharing

variable (merged : Finset ℕ) (x : Sharing)

/-- An edge that runs may take and that does not lead into the block of the definition. -/
def Onward (j l : ℕ) : Prop :=
  j ∉ merged ∧ l ∉ merged ∧ l ≠ x.block ∧ (controlFlow x.before).Adj j l

/-- From block `j` an occurrence can be reached without passing the definition. -/
def Wanted (j : ℕ) : Prop :=
  ∃ u c, ReflTransGen (x.Onward merged) j u ∧ x.before[u]? = some c ∧ c.occurs x.best

/-- The block is reached from the definition without passing it again. -/
def Beyond (j : ℕ) : Prop :=
  TransGen (x.Onward merged) x.block j

/-- After the statements before `after`, block `j` may still come to an occurrence. -/
def WantedAfter (j : ℕ) (b : Block) (after : List Stmt) : Prop :=
  b.occursAfter x.best after ∨ ∃ l, x.Onward merged j l ∧ x.Wanted merged l

/-- The text of the function: every occurrence is the shared expression itself, types included, and
only its value counts; and either the expression does not depend on memory, or no occurrence comes
after a call in its statement or terminator. -/
structure GlobalText (taken : String → Bool) (usedReturn : Bool) : Prop where
  typed : ∀ b ∈ x.before, ∀ c ∈ b.collectSubs, c.exprEqual x.best = true → c = x.best
  looks : ∀ b ∈ x.before, ∀ e ∈ b.stmts.flatMap Stmt.sharedExprs ++ b.sharedTerm,
    e.anyNode (Expr.looksAt x.best) = false
  late : x.best.memFree taken = true ∨ ∀ b ∈ x.before,
    (∀ st ∈ b.stmts, 0 < st.countOcc x.best → Expr.lateOccList x.best st.operands = false) ∧
    (0 < b.countTermOcc x.best → Expr.lateOccList x.best (b.sharedOperands usedReturn) = false)

section Holds

variable {M E : Type} (W : World M E) (decl : String → Val → Val) (taken : String → Bool)
  (usedReturn : Bool)

/-- The declared type of the temporary holds the value that it is assigned. -/
def Fits (p : ℕ × Store M) : Prop :=
  p.1 = x.block → ∀ b, x.before[x.block]? = some b →
    let s := W.execStmts decl (b.stmts.take x.first) p.2
    decl x.temp (W.eval x.best s).2.1 = (W.eval x.best s).2.1

/-- The expression does not depend on memory, or in this block no store and no call changes its
value through memory while an occurrence may still come. -/
def Undisturbed (p : ℕ × Store M) : Prop :=
  x.best.memFree taken = true ∨ ∀ b, x.before[p.1]? = some b →
    let n := if p.1 = x.block then x.first else 0
    (∀ before st after, b.stmts.drop n = before ++ st :: after → x.WantedAfter merged p.1 b after →
      st.leavesMem taken = true ∨
        W.LeavesValue decl x.best st (W.execStmts decl (b.stmts.take n ++ before) p.2)) ∧
    ∀ l s', (transfer (W.interp decl) usedReturn b (W.execStmts decl b.stmts p.2)).2 =
      .inl (l, s') →
      x.Onward merged p.1 l → x.Wanted merged l →
      (W.eval x.best s').2.1 = (W.eval x.best (W.execStmts decl b.stmts p.2)).2.1

end Holds

end Sharing

/-! ### Sound sharings -/

namespace Sharing.Placed

variable {idom : List (Option ℕ)} {D : Block} {x : Sharing}

theorem internal (h : x.Placed idom D) : x.best.isInternal = true := by
  obtain ⟨b, -, hb⟩ := h.mem
  obtain ⟨e, -, he⟩ := exists_of_mem_blockSubs hb
  exact Expr.isInternal_of_mem_collectSubs he

theorem impure (h : x.Placed idom D) : x.best.hasImpureCall = false :=
  Expr.hasImpureCall_of_hasCall h.call

/-- The function mentions the variables of the expression. -/
theorem best_fresh (h : x.Placed idom D) {n : String}
    (hfresh : ∀ b ∈ x.before, b.mentions n = false) : x.best.readsNamedVar n = false := by
  obtain ⟨b, hb, hmem⟩ := h.mem
  obtain ⟨e, he, hsub⟩ := exists_of_mem_blockSubs hmem
  rw [Bool.eq_false_iff]
  intro hn
  have hread := Expr.readsNamedVar_of_mem_collectSubs hsub hn
  rw [mentions_eq_false.1 (hfresh b hb) e he] at hread
  cases hread

end Sharing.Placed

/-- A sharing across blocks that may be sound: what the pass checks holds, and so does what it
relies on of the text. -/
structure Sharing.Ready (idom : List (Option ℕ)) (taken : String → Bool) (usedReturn : Bool)
    (merged : Finset ℕ) (D : Block) (x : Sharing) : Prop where
  placed : x.Placed idom D
  text : x.GlobalText taken usedReturn
  edges : EdgesRecorded merged x.before
  fresh : ∀ b ∈ x.before, b.mentions x.temp = false
  places : ∀ b ∈ x.before, ∀ st ∈ b.stmts, st.placed = true

/-- The stores before block `j` without and with the sharing. Where the value is wanted, the
definition has been passed and the temporary has it. -/
def Sharing.Held {M E : Type} (W : World M E) (merged : Finset ℕ) (x : Sharing) (j : ℕ)
    (t s : Store M) : Prop :=
  AgreeOn W (· ≠ x.temp) t s ∧
    (j ≠ x.block → j ∉ merged → x.Wanted merged j →
      x.Beyond merged j ∧ (W.eval x.best s).2.1 = t.vars x.temp)

/-- After the statements of block `j`, the terminator of its new form `b'` still reads the
temporary, or a block it leads to wants the value. -/
def Sharing.Later (merged : Finset ℕ) (x : Sharing) (j : ℕ) (b' : Block) : Prop :=
  b'.termReads x.temp = true ∨ ∃ l, x.Onward merged j l ∧ x.Wanted merged l

namespace Sharing.Ready

variable {idom : List (Option ℕ)} {taken : String → Bool} {usedReturn : Bool} {merged : Finset ℕ}
  {D : Block} {x : Sharing}

section Text

variable {b : Block} {st : Stmt} {j : ℕ}

/-- No occurrence is assigned to: the expression is no load. -/
theorem sharable (h : x.Ready idom taken usedReturn merged D) (hb : b ∈ x.before)
    (hst : st ∈ b.stmts) : st.Sharable x.best x.temp where
  fresh e he := mentions_eq_false.1 (h.fresh b hb) e
    (List.mem_append_left _ (List.mem_flatMap.2 ⟨st, hst, he⟩))
  typed c hc := h.text.typed b hb c (List.mem_append_left _ (List.mem_flatMap.2 ⟨st, hst, hc⟩))
  looks e he := h.text.looks b hb e (List.mem_append_left _ (List.mem_flatMap.2 ⟨st, hst, he⟩))
  place lhs rhs hassign := by
    subst hassign
    rw [Bool.eq_false_iff]
    intro heq
    have hint := Expr.isInternal_of_exprEqual heq h.placed.internal
    have hbest : lhs = x.best := h.text.typed b hb lhs
      (List.mem_append_left _ (List.mem_flatMap.2 ⟨_, hst,
        List.mem_append_right _ (Expr.mem_collectSubs_self hint)⟩)) heq
    have hload := h.placed.load
    rw [← hbest] at hload
    cases lhs with
    | mem => cases hload
    | var => cases hint
    | _ => exact absurd (h.places b hb _ hst) (by simp [Stmt.placed, Expr.isPlace])

theorem termSharable (h : x.Ready idom taken usedReturn merged D) (hb : b ∈ x.before) :
    b.TermSharable x.best x.temp where
  fresh e he := mentions_eq_false.1 (h.fresh b hb) e (List.mem_append_right _ he)
  typed e he c hc := h.text.typed b hb c (List.mem_append_right _ (List.mem_flatMap.2 ⟨e, he, hc⟩))
  looks e he := h.text.looks b hb e (List.mem_append_right _ he)

theorem best_ne (h : x.Ready idom taken usedReturn merged D) {n : String}
    (hn : x.best.readsNamedVar n = true) : n ≠ x.temp := by
  rintro rfl
  rw [h.placed.best_fresh h.fresh] at hn
  cases hn

theorem reads_ne (h : x.Ready idom taken usedReturn merged D) (hb : b ∈ x.before)
    (hst : st ∈ b.stmts) {n : String} (hn : st.reads n = true) : n ≠ x.temp := by
  rintro rfl
  rw [reads_fresh (h.fresh b hb) hst] at hn
  cases hn

end Text

/-! ### Blocks on the way to an occurrence -/

section Ways

variable {b : Block} {j l : ℕ}

theorem lt_length_of_wanted (hl : x.Wanted merged l) : l < x.before.length := by
  obtain ⟨u, c, hpath, hc, -⟩ := hl
  rcases hpath.cases_head with rfl | ⟨v, ⟨-, -, -, -, c', hc', -⟩, -⟩
  · exact (List.getElem?_eq_some_iff.1 hc).choose
  · exact (List.getElem?_eq_some_iff.1 hc').choose

/-- An edge that leads to a block where the value is wanted. -/
theorem onward_of_wanted (hj : j ∉ merged) (hb : x.before[j]? = some b) (hl : l ∈ b.targets)
    (hblock : l ≠ x.block) (hmerged : l ∉ merged) (hwant : x.Wanted merged l) :
    x.Onward merged j l :=
  ⟨hj, hmerged, hblock, lt_length_of_wanted hwant, b, hb, hl⟩

theorem wanted_of_onward (h : x.Onward merged j l) (hl : x.Wanted merged l) :
    x.Wanted merged j := by
  obtain ⟨u, c, hpath, hc⟩ := hl
  exact ⟨u, c, .head h hpath, hc⟩

/-- The blocks beyond the definition assign no variable of the expression. -/
theorem spares_of_beyond (h : x.Ready idom taken usedReturn merged D) (hj : x.Beyond merged j)
    (hb : x.before[j]? = some b) {st : Stmt} (hst : st ∈ b.stmts) :
    st.assignsLeaf x.best = false := by
  have hpath : TransGen (fun a c ↦ c ∈ succOf x.before a ∧ c ≠ x.block) x.block j := by
    refine hj.lift id ?_
    rintro a c ⟨ha, hc, hne, hlt, A, hA, hmem⟩
    have hsucc : c ∈ succOf x.before a := by
      rw [succOf, hA]
      exact h.edges a A ha hA c hmem hlt hc
    exact ⟨hsucc, hne⟩
  exact sparesLeaves_of_leavesStable h.placed.stable hpath b hb st hst

/-- On entry nothing is wanted: the block of the definition dominates the occurrences. -/
theorem not_wanted_entry (h : x.Ready idom taken usedReturn merged D)
    (hidom : CorrectIdom (controlFlow x.before) idom) (h0 : 0 ≠ x.block) :
    ¬ x.Wanted merged 0 := by
  rintro ⟨u, c, hpath, hc, hocc⟩
  refine dom_of_dominates hidom (h.placed.dominates u c hc hocc) ⟨h0, ?_⟩
  exact hpath.lift id fun a b hab ↦ ⟨hab.2.2.2, hab.2.2.1⟩

end Ways

/-! ### One block -/

section Run

variable {M E : Type} {W : World M E} {decl : String → Val → Val} {b b' : Block} {j n : ℕ}
  {s t : Store M}

/-- What the statements from position `n` on leave of the value. -/
theorem window_keeps (h : x.Ready idom taken usedReturn merged D) (hb : x.before[j]? = some b)
    (hn : n = if j = x.block then x.first else 0)
    (hleaf : ∀ st ∈ b.stmts.drop n, st.assignsLeaf x.best = false)
    (hund : x.Undisturbed merged W decl taken usedReturn (j, s))
    {before' after' : List Stmt} {st' : Stmt}
    (hsplit : (b.stmts.drop n).map (·.shareAs x.best (varTy x.best) x.temp) =
      before' ++ st' :: after')
    (hread : after'.any (·.reads x.temp) = true ∨
      x.Later merged j (b.shareTerm x.best (varTy x.best) x.temp)) :
    st'.Spares taken x.best ∨
      W.LeavesValue decl x.best (st'.mapExprs (·.substVar x.temp x.best))
        (W.execStmts decl (before'.map (·.mapExprs (·.substVar x.temp x.best)))
          (W.execStmts decl (b.stmts.take n) s)) := by
  have hmem := List.mem_of_getElem? hb
  have hsharable : ∀ st ∈ b.stmts.drop n, st.Sharable x.best x.temp := fun st hst ↦
    h.sharable hmem (List.mem_of_mem_drop hst)
  obtain ⟨before, rest, hdrop, rfl, hrest⟩ := List.map_eq_append_iff.1 hsplit
  obtain ⟨st, after, rfl, rfl, rfl⟩ := List.map_eq_cons_iff.1 hrest
  have hst : st.Sharable x.best x.temp := hsharable st (by simp [hdrop])
  have hinputs : ∀ m, x.best.readsNamedVar m = true →
      (st.shareAs x.best (varTy x.best) x.temp).assigns m = false := fun m hm ↦
    (hst.assigns_shareAs m).trans (assigns_of_assignsLeaf (hleaf st (by simp [hdrop])) hm)
  have hwant : x.WantedAfter merged j b after := by
    rcases hread with hread | hterm | honward
    · obtain ⟨c', hc', hreadc⟩ := List.any_eq_true.1 hread
      obtain ⟨c, hc, rfl⟩ := List.mem_map.1 hc'
      exact .inl (.inl (List.any_eq_true.2 ⟨c, hc, decide_eq_true
        ((hsharable c (by simp [hdrop, hc])).reads_shareAs hreadc)⟩))
    · exact .inl (.inr ((h.termSharable hmem).termReads_shareTerm hterm))
    · exact .inr honward
  rcases hund with hfree | hund
  · exact .inl ⟨hinputs, .inl hfree⟩
  · have hkeep := (hund b hb).1
    rw [← hn] at hkeep
    rcases hkeep before st after hdrop hwant with hleaves | hvalue
    · exact .inl ⟨hinputs, .inr (hst.leavesMem_shareAs hleaves)⟩
    · right
      have hbefore : (before.map (·.shareAs x.best (varTy x.best) x.temp)).map
          (·.mapExprs (·.substVar x.temp x.best)) = before :=
        map_shareAs_back h.placed.internal fun c hc ↦ hsharable c (by simp [hdrop, hc])
      rw [hbefore, hst.mapExprs_shareAs h.placed.internal, ← World.execStmts_append]
      exact hvalue

/-- What the terminator hands over. -/
theorem inlined_end (h : x.Ready idom taken usedReturn merged D) (hj : j ∉ merged)
    (hb : x.before[j]? = some b)
    (hb' : b' = { b.shareTerm x.best (varTy x.best) x.temp with stmts := b'.stmts })
    (halias : ∀ n, W.aliased n = true → taken n = true)
    (hund : x.Undisturbed merged W decl taken usedReturn (j, s))
    (hbeyond : j = x.block ∨ x.Beyond merged j ∨ ¬ x.Wanted merged j) {t' : Store M}
    (hoff : AgreeOn W (· ≠ x.temp) t' (W.execStmts decl b.stmts s))
    (hvalue : x.Later merged j (b.shareTerm x.best (varTy x.best) x.temp) →
      (W.eval x.best (W.execStmts decl b.stmts s)).2.1 = t'.vars x.temp) :
    W.InlinedTerm x.temp x.best usedReturn b' b t' (W.execStmts decl b.stmts s) ∧
      W.HandsOver decl usedReturn (x.Held W merged) b' b t' (W.execStmts decl b.stmts s) := by
  have hmem := List.mem_of_getElem? hb
  have hterm := h.termSharable hmem
  have hback : (b.shareTerm x.best (varTy x.best) x.temp).mapTerm (·.substVar x.temp x.best) = b :=
    hterm.mapTerm_shareTerm h.placed.internal
  refine ⟨?_, fun l t₁ s₁ ht hs hmems hvt hvs ↦ ⟨⟨hmems, fun m hm ↦ ?_⟩, fun hblock hl hwant ↦ ?_⟩⟩
  · rw [hb']
    refine .of_value halias h.placed.impure
      (congrArg (fun c : Block ↦ { c with stmts := b.stmts }) hback.symm)
      (fun e he ↦ hterm.static (show (varTy x.best).isFloat = _ from rfl) rfl he)
      (fun hread ↦ h.text.late.imp_right fun hlate ↦ ?_) hoff fun hread ↦ hvalue (.inl hread)
    exact hterm.lateRead_shareTerm h.placed.internal
      ((hlate b hmem).2 (hterm.termReads_shareTerm hread))
  · rw [hvs, hvt]
    exact hoff.2 m hm
  · -- The next block wants the value, so this one hands it over.
    have honward : x.Onward merged j l :=
      onward_of_wanted hj hb (mem_targets_of_transfer (Prod.ext rfl hs)) hblock hl hwant
    have hbeyond : x.Beyond merged l := by
      rcases hbeyond with rfl | hbeyond | hno
      · exact .single honward
      · exact hbeyond.tail honward
      · exact absurd (wanted_of_onward honward hwant) hno
    refine ⟨hbeyond, ?_⟩
    rw [hvt, ← hvalue (.inr ⟨l, honward, hwant⟩)]
    rcases hund with hfree | hund
    · exact W.eval_memFree halias hfree h.placed.impure fun m _ ↦ congrFun hvs m
    · exact (hund b hb).2 l s₁ hs honward hwant

/-- The block with the definition. -/
theorem inlined_self (h : x.Ready idom taken usedReturn merged D) (hj : x.block ∉ merged)
    (halias : ∀ n, W.aliased n = true → taken n = true) (htemp : W.aliased x.temp = false)
    (hfits : x.Fits W decl (x.block, s))
    (hund : x.Undisturbed merged W decl taken usedReturn (x.block, s))
    (hheld : x.Held W merged x.block t s) :
    W.Inlined decl x.temp x.best
      (fun t' s' ↦ W.InlinedTerm x.temp x.best usedReturn (D.share x.first x.best x.temp) D t' s' ∧
        W.HandsOver decl usedReturn (x.Held W merged) (D.share x.first x.best x.temp) D t' s')
      (D.share x.first x.best x.temp).stmts D.stmts t s := by
  have hD := h.placed.block
  have hmem := List.mem_of_getElem? hD
  have hsharable : ∀ st ∈ D.stmts.drop x.first, st.Sharable x.best x.temp := fun st hst ↦
    h.sharable hmem (List.mem_of_mem_drop hst)
  have hpre : ∀ st ∈ D.stmts.take x.first, ∀ n, st.reads n = true → n ≠ x.temp :=
    fun st hst n hn ↦ h.reads_ne hmem (List.mem_of_mem_take hst) hn
  have hbest : ∀ n, x.best.readsNamedVar n = true → n ≠ x.temp := fun n hn ↦ h.best_ne hn
  have hvalue : (W.eval x.best (W.execStmts decl (D.stmts.take x.first) t)).2.1 =
      (W.eval x.best (W.execStmts decl (D.stmts.take x.first) s)).2.1 := by
    rw [(World.execStmts_agree decl hpre hheld.1).eval hbest]
  have hmap : ((D.stmts.drop x.first).map (·.shareAs x.best (varTy x.best) x.temp)).map
      (·.mapExprs (·.substVar x.temp x.best)) = D.stmts.drop x.first :=
    map_shareAs_back h.placed.internal hsharable
  have hinl : W.Inlined decl x.temp x.best
      (fun t' s' ↦ W.InlinedTerm x.temp x.best usedReturn (D.share x.first x.best x.temp) D t' s' ∧
        W.HandsOver decl usedReturn (x.Held W merged) (D.share x.first x.best x.temp) D t' s')
      (D.stmts.take x.first ++ .assign (.var (varTy x.best) x.temp) x.best ::
        ((D.stmts.drop x.first).map (·.shareAs x.best (varTy x.best) x.temp) ++ []))
      (D.stmts.take x.first ++ ([] ++
        (((D.stmts.drop x.first).map (·.shareAs x.best (varTy x.best) x.temp)).map
          (·.mapExprs (·.substVar x.temp x.best)) ++ []))) t s := by
    refine World.inlined_def_at halias htemp h.placed.impure (· ≠ x.temp)
      (x.Later merged x.block (D.shareTerm x.best (varTy x.best) x.temp)) (.inl rfl)
      (fun _ hn ↦ hn) hpre hbest hheld.1 (by rw [hvalue]; exact hfits rfl D hD)
      (List.forall_mem_map.2 fun st hst ↦ (hsharable st hst).defOf_shareAs)
      (List.forall_mem_map.2 fun st hst e he ↦ (hsharable st hst).static
        (show (varTy x.best).isFloat = _ from rfl) rfl he)
      (List.forall_mem_map.2 fun st hst hread ↦ h.text.late.imp_right fun hlate ↦
        (hsharable st hst).lateRead_shareAs hread
          ((hlate D hmem).1 st (List.mem_of_mem_drop hst) ((hsharable st hst).reads_shareAs hread)))
      (fun before st after hsplit hread ↦ h.window_keeps hD (if_pos rfl).symm h.placed.after hund
        hsplit hread) fun t' s' hs' hoff hval ↦ .nil ?_
    rw [hmap, ← World.execStmts_append, List.take_append_drop] at hs'
    subst hs'
    exact h.inlined_end hj hD rfl halias hund (.inl rfl) hoff hval
  rwa [hmap, List.append_nil, List.append_nil, List.nil_append, List.take_append_drop,
    ← stmts_share h.placed.le h.placed.before] at hinl

/-- The other blocks from which an occurrence can be reached. -/
theorem inlined_wanted (h : x.Ready idom taken usedReturn merged D) (hj : j ∉ merged)
    (hblock : j ≠ x.block) (hb : x.before[j]? = some b)
    (halias : ∀ n, W.aliased n = true → taken n = true) (htemp : W.aliased x.temp = false)
    (hund : x.Undisturbed merged W decl taken usedReturn (j, s)) (hwant : x.Wanted merged j)
    (hheld : x.Held W merged j t s) :
    W.Inlined decl x.temp x.best
      (fun t' s' ↦ W.InlinedTerm x.temp x.best usedReturn (b.replaceOcc x.best x.temp) b t' s' ∧
        W.HandsOver decl usedReturn (x.Held W merged) (b.replaceOcc x.best x.temp) b t' s')
      (b.replaceOcc x.best x.temp).stmts b.stmts t s := by
  obtain ⟨hbeyond, hval⟩ := hheld.2 hblock hj hwant
  have hmem := List.mem_of_getElem? hb
  have hsharable : ∀ st ∈ b.stmts, st.Sharable x.best x.temp := fun st hst ↦ h.sharable hmem hst
  have hmap : (b.stmts.map (·.shareAs x.best (varTy x.best) x.temp)).map
      (·.mapExprs (·.substVar x.temp x.best)) = b.stmts :=
    map_shareAs_back h.placed.internal hsharable
  have hinl : W.Inlined decl x.temp x.best
      (fun t' s' ↦ W.InlinedTerm x.temp x.best usedReturn (b.replaceOcc x.best x.temp) b t' s' ∧
        W.HandsOver decl usedReturn (x.Held W merged) (b.replaceOcc x.best x.temp) b t' s')
      (b.stmts.map (·.shareAs x.best (varTy x.best) x.temp) ++ [])
      ((b.stmts.map (·.shareAs x.best (varTy x.best) x.temp)).map
        (·.mapExprs (·.substVar x.temp x.best)) ++ []) t s := by
    refine World.inlined_window halias htemp h.placed.impure
      (x.Later merged j (b.shareTerm x.best (varTy x.best) x.temp))
      (List.forall_mem_map.2 fun st hst ↦ (hsharable st hst).defOf_shareAs)
      (List.forall_mem_map.2 fun st hst e he ↦ (hsharable st hst).static
        (show (varTy x.best).isFloat = _ from rfl) rfl he)
      (List.forall_mem_map.2 fun st hst hread ↦ h.text.late.imp_right fun hlate ↦
        (hsharable st hst).lateRead_shareAs hread
          ((hlate b hmem).1 st hst ((hsharable st hst).reads_shareAs hread)))
      (fun before st after hsplit hread ↦ h.window_keeps hb (if_neg hblock).symm
        (fun st hst ↦ h.spares_of_beyond hbeyond hb hst) hund hsplit hread)
      hheld.1 (fun _ ↦ hval) fun hoff hval ↦ .nil ?_
    rw [hmap] at hoff hval ⊢
    exact h.inlined_end hj hb rfl halias hund (.inr (.inl hbeyond)) hoff hval
  rwa [hmap, List.append_nil, List.append_nil] at hinl

/-- The other blocks: they have no occurrence. -/
theorem inlined_rest (h : x.Ready idom taken usedReturn merged D) (hj : j ∉ merged)
    (hb : x.before[j]? = some b) (halias : ∀ n, W.aliased n = true → taken n = true)
    (hund : x.Undisturbed merged W decl taken usedReturn (j, s)) (hno : ¬ x.Wanted merged j)
    (hheld : x.Held W merged j t s) :
    W.Inlined decl x.temp x.best
      (fun t' s' ↦ W.InlinedTerm x.temp x.best usedReturn (b.replaceOcc x.best x.temp) b t' s' ∧
        W.HandsOver decl usedReturn (x.Held W merged) (b.replaceOcc x.best x.temp) b t' s')
      (b.replaceOcc x.best x.temp).stmts b.stmts t s := by
  have hmem := List.mem_of_getElem? hb
  have hocc : ¬ b.occurs x.best := fun hocc ↦ hno ⟨j, b, .refl, hb, hocc⟩
  have hstmts : (b.replaceOcc x.best x.temp).stmts = b.stmts := by
    refine (List.map_congr_left fun st hst ↦ shareAs_of_countOcc ?_).trans (List.map_id _)
    by_contra hne
    exact hocc (.inl (List.any_eq_true.2 ⟨st, hst, decide_eq_true (Nat.pos_of_ne_zero hne)⟩))
  rw [hstmts]
  refine .of_append_nil <| World.inlined_prefix (fun st hst n hn ↦ h.reads_ne hmem hst hn) hheld.1
    fun hoff ↦ .nil (h.inlined_end hj hb rfl halias hund (.inr (.inr hno)) hoff fun hlater ↦ ?_)
  rcases hlater with hterm | ⟨l, honward, hwant⟩
  · exact absurd (.inr ((h.termSharable hmem).termReads_shareTerm hterm)) hocc
  · exact absurd (wanted_of_onward honward hwant) hno

theorem everywhere_self (h : x.Ready idom taken usedReturn merged D) :
    x.everywhere[x.block]? = some (D.share x.first x.best x.temp) := by
  rw [Sharing.everywhere, List.getElem?_mapIdx, h.placed.block, Option.map_some, if_pos rfl]

theorem everywhere_other (hblock : j ≠ x.block) (hb : x.before[j]? = some b) :
    x.everywhere[j]? = some (b.replaceOcc x.best x.temp) := by
  rw [Sharing.everywhere, List.getElem?_mapIdx, hb, Option.map_some, if_neg hblock]

/-- Sharing across blocks keeps every value, and the behaviour. -/
theorem sound (h : x.Ready idom taken usedReturn merged D)
    (hidom : CorrectIdom (controlFlow x.before) idom)
    (halias : ∀ n, W.aliased n = true → taken n = true) (htemp : W.aliased x.temp = false)
    (hrun : (graphMachine (W.interp decl) usedReturn merged x.before).Always
      (fun p ↦ x.Fits W decl p ∧ x.Undisturbed merged W decl taken usedReturn p) (0, s)) :
    (graphMachine (W.interp decl) usedReturn merged x.before).SameBehaviour (0, s)
        (graphMachine (W.interp decl) usedReturn merged x.everywhere) (0, s) ∧
      (graphMachine (W.interp decl) usedReturn merged x.before).Together
        (graphMachine (W.interp decl) usedReturn merged x.everywhere)
        (fun p q ↦ W.InlinedAt decl x.temp x.best usedReturn merged x.everywhere x.before q p)
        (0, s) (0, s) := by
  refine World.hoisted_run_at (R := x.Held W merged) htemp h.placed.impure
    (by simp [Sharing.everywhere]) (fun j s₁ t₁ b hj hb ⟨hfits, hund⟩ hheld ↦ ?_)
    ⟨agreeOn_refl _ _, fun h0 _ hwant ↦ absurd hwant (h.not_wanted_entry hidom h0)⟩ hrun
  by_cases hblock : j = x.block
  · subst hblock
    obtain rfl : D = b := Option.some.inj (h.placed.block.symm.trans hb)
    exact ⟨_, h.everywhere_self, h.inlined_self hj halias htemp hfits hund hheld⟩
  · refine ⟨_, everywhere_other hblock hb, ?_⟩
    by_cases hwant : x.Wanted merged j
    · exact h.inlined_wanted hj hblock hb halias htemp hund hwant hheld
    · exact h.inlined_rest hj hb halias hund hwant hheld

end Run

/-! ### What a sharing keeps -/

section Kept

variable {c : Block} {j n : ℕ}

theorem exists_of_everywhere (h : x.Ready idom taken usedReturn merged D)
    (hc : x.everywhere[j]? = some c) :
    (j = x.block ∧ c = D.share x.first x.best x.temp) ∨
      (j ≠ x.block ∧ ∃ b, x.before[j]? = some b ∧ c = b.replaceOcc x.best x.temp) := by
  by_cases hj : j = x.block
  · subst hj
    exact .inl ⟨rfl, Option.some.inj (hc.symm.trans h.everywhere_self)⟩
  · rw [Sharing.everywhere, List.getElem?_mapIdx] at hc
    obtain ⟨b, hb, rfl⟩ := Option.map_eq_some_iff.1 hc
    exact .inr ⟨hj, b, hb, if_neg hj⟩

/-- The statements of the new blocks. -/
theorem mem_stmts_everywhere (h : x.Ready idom taken usedReturn merged D)
    (hc : x.everywhere[j]? = some c) :
    ∃ b, x.before[j]? = some b ∧
      c.termExprs = (b.shareTerm x.best (varTy x.best) x.temp).termExprs ∧
      ∀ st' ∈ c.stmts, st' = .assign (.var (varTy x.best) x.temp) x.best ∨ st' ∈ b.stmts ∨
        ∃ st ∈ b.stmts, st' = st.shareAs x.best (varTy x.best) x.temp := by
  rcases h.exists_of_everywhere hc with ⟨rfl, rfl⟩ | ⟨-, b, hb, rfl⟩
  · refine ⟨D, h.placed.block, rfl, fun st' hst' ↦ ?_⟩
    rw [stmts_share h.placed.le h.placed.before, List.mem_append, List.mem_cons,
      List.mem_map] at hst'
    rcases hst' with hst' | rfl | ⟨st, hst, rfl⟩
    · exact .inr (.inl (List.mem_of_mem_take hst'))
    · exact .inl rfl
    · exact .inr (.inr ⟨st, List.mem_of_mem_drop hst, rfl⟩)
  · refine ⟨b, hb, rfl, fun st' hst' ↦ ?_⟩
    obtain ⟨st, hst, rfl⟩ := List.mem_map.1 hst'
    exact .inr (.inr ⟨st, hst, rfl⟩)

theorem mentions_everywhere (h : x.Ready idom taken usedReturn merged D) {m : String}
    (hm : m ≠ x.temp) (hno : ∀ b ∈ x.before, b.mentions m = false) :
    ∀ c ∈ x.everywhere, c.mentions m = false := by
  intro c hc
  obtain ⟨j, hj⟩ := List.mem_iff_getElem?.1 hc
  obtain ⟨b, hb, hterm, hstmts⟩ := h.mem_stmts_everywhere hj
  exact mentions_of_shareAs hm (hno b (List.mem_of_getElem? hb)) (h.placed.best_fresh hno) hterm
    hstmts

theorem places_everywhere (h : x.Ready idom taken usedReturn merged D) :
    ∀ c ∈ x.everywhere, ∀ st ∈ c.stmts, st.placed = true := by
  intro c hc st' hst'
  obtain ⟨j, hj⟩ := List.mem_iff_getElem?.1 hc
  obtain ⟨b, hb, -, hstmts⟩ := h.mem_stmts_everywhere hj
  have hmem := List.mem_of_getElem? hb
  rcases hstmts st' hst' with rfl | hst' | ⟨st, hst, rfl⟩
  · rfl
  · exact h.places b hmem st' hst'
  · exact (h.sharable hmem hst).placed_shareAs (h.places b hmem st hst)

end Kept

end Sharing.Ready

theorem map_targets_everywhere (x : Sharing) :
    x.everywhere.map Block.targets = x.before.map Block.targets := by
  refine List.ext_getElem? fun j ↦ ?_
  rw [List.getElem?_map, List.getElem?_map, Sharing.everywhere, List.getElem?_mapIdx,
    Option.map_map]
  congr 1
  funext b
  by_cases hj : j = x.block <;> simp only [Function.comp_apply, hj, if_true, if_false] <;> rfl

theorem edgesRecorded_everywhere {merged : Finset ℕ} {x : Sharing}
    (h : EdgesRecorded merged x.before) : EdgesRecorded merged x.everywhere := by
  intro j c hj hc l hl hlt hmerged
  rw [Sharing.everywhere, List.getElem?_mapIdx] at hc
  rw [Sharing.everywhere, List.length_mapIdx] at hlt
  obtain ⟨b, hb, rfl⟩ := Option.map_eq_some_iff.1 hc
  by_cases hblock : j = x.block
  · rw [if_pos hblock] at hl ⊢
    exact h j b hj hb l hl hlt hmerged
  · rw [if_neg hblock] at hl ⊢
    exact h j b hj hb l hl hlt hmerged

/-! ### The sharings of the pass -/

/-- The sharings `log` lead from `g` to `h`; the temporaries have the numbers above `seq`. -/
inductive GlobalSteps (idom : List (Option ℕ)) :
    List Block → ℕ → List Sharing → List Block → ℕ → Prop
  | done (g : List Block) (seq : ℕ) : GlobalSteps idom g seq [] g seq
  | share {x : Sharing} {D : Block} {seq seq' : ℕ} {log : List Sharing} {h : List Block}
    (hx : x.Placed idom D) (htemp : x.temp = tempName (seq + 1))
    (hrest : GlobalSteps idom x.everywhere (seq + 1) log h seq') :
    GlobalSteps idom x.before seq (x :: log) h seq'

section Steps

variable {idom : List (Option ℕ)} {g h k : List Block} {seq seq' seq'' : ℕ}
  {log log' : List Sharing}

theorem GlobalSteps.trans (hgh : GlobalSteps idom g seq log h seq')
    (hhk : GlobalSteps idom h seq' log' k seq'') :
    GlobalSteps idom g seq (log ++ log') k seq'' := by
  induction hgh with
  | done => exact hhk
  | share hx htemp _ ih => exact .share hx htemp (ih hhk)

theorem globalRounds_steps (budgetOk : ℕ → Bool) (n : ℕ) {run : ShareRun}
    (h : GlobalSteps idom g seq run.log run.graph run.tempSeq) :
    GlobalSteps idom g seq (globalRounds idom budgetOk n run).log
      (globalRounds idom budgetOk n run).graph (globalRounds idom budgetOk n run).tempSeq := by
  induction n generalizing run with
  | zero => exact h
  | succ n ih =>
    rw [globalRounds]
    split
    · exact h
    · split
      · exact h
      · next p hp =>
        obtain ⟨D, hx⟩ := (pickGlobal_ok hp).placed (tempName (run.tempSeq + 1))
        exact ih (h.trans (.share hx rfl (.done _ _)))

/-- The pass is a sequence of sharings. -/
theorem cseGlobal_steps (idom : List (Option ℕ)) (budgetOk : ℕ → Bool) (seq : ℕ)
    (g : List Block) :
    GlobalSteps idom g seq (cseGlobal idom budgetOk seq g).log
      (cseGlobal idom budgetOk seq g).graph (cseGlobal idom budgetOk seq g).tempSeq :=
  globalRounds_steps budgetOk 60 (.done g seq)

end Steps

/-! ### Soundness -/

/-- The temporary is read only in blocks that the block of the definition dominates, and in this
block after the definition. -/
def Sharing.DefinedAcross (x : Sharing) : Prop :=
  ∀ j c, x.everywhere[j]? = some c →
    (j = x.block → readsBefore x.temp c.stmts = false ∧ assignsIn x.temp c.stmts = true) ∧
    (c.stmts.any (·.reads x.temp) = true ∨ c.termReads x.temp = true →
      (controlFlow x.before).Dom x.block j)

theorem Sharing.Ready.definedAcross {idom : List (Option ℕ)} {taken : String → Bool}
    {usedReturn : Bool} {merged : Finset ℕ} {D : Block} {x : Sharing}
    (h : x.Ready idom taken usedReturn merged D)
    (hidom : CorrectIdom (controlFlow x.before) idom) : x.DefinedAcross := by
  intro j c hc
  rcases h.exists_of_everywhere hc with ⟨rfl, rfl⟩ | ⟨hj, b, hb, rfl⟩
  · have hD := h.fresh D (List.mem_of_getElem? h.placed.block)
    have hdef : (Stmt.assign (.var (varTy x.best) x.temp) x.best).assigns x.temp = true := by
      simp [Stmt.assigns, Stmt.defOf]
    rw [stmts_share h.placed.le h.placed.before]
    refine ⟨fun _ ↦ ⟨readsBefore_append (fun st hst ↦ reads_fresh hD (List.mem_of_mem_take hst)) ?_,
      ?_⟩, fun _ ↦ Flowgraph.dom_self _⟩
    · have hreads : (Stmt.assign (.var (varTy x.best) x.temp) x.best).reads x.temp = false :=
        h.placed.best_fresh h.fresh
      rw [readsBefore, hreads, hdef]
      rfl
    · rw [assignsIn, List.any_append, List.any_cons, hdef, Bool.true_or, Bool.or_true]
  · refine ⟨fun heq ↦ absurd heq hj, fun hread ↦ ?_⟩
    have hmem := List.mem_of_getElem? hb
    refine dom_of_dominates hidom (h.placed.dominates j b hb ?_)
    refine hread.imp (fun hread ↦ ?_) (h.termSharable hmem).termReads_shareTerm
    obtain ⟨st', hst', hread⟩ := List.any_eq_true.1 hread
    obtain ⟨st, hst, rfl⟩ := List.mem_map.1 hst'
    exact List.any_eq_true.2 ⟨st, hst, decide_eq_true ((h.sharable hmem hst).reads_shareAs hread)⟩

/-- Each occurrence that a sharing replaces has the value that the temporary was assigned, which
happens before on every path. -/
def Sharing.KeptAcross {M E : Type} (W : World M E) (decl : String → Val → Val)
    (usedReturn : Bool) (merged : Finset ℕ) (p : ℕ × Store M) (x : Sharing) : Prop :=
  x.DefinedAcross ∧
    (graphMachine (W.interp decl) usedReturn merged x.before).Together
      (graphMachine (W.interp decl) usedReturn merged x.everywhere)
      (fun p q ↦ W.InlinedAt decl x.temp x.best usedReturn merged x.everywhere x.before q p) p p

theorem GlobalSteps.sound {M E : Type} {W : World M E} {decl : String → Val → Val}
    {taken : String → Bool} {usedReturn : Bool} {merged : Finset ℕ} {idom : List (Option ℕ)}
    {g h : List Block} {seq seq' : ℕ} {log : List Sharing} {s : Store M}
    (halias : ∀ n, W.aliased n = true → taken n = true)
    (hsteps : GlobalSteps idom g seq log h seq') (hidom : CorrectIdom (controlFlow g) idom)
    (hedges : EdgesRecorded merged g) (hfresh : FreshAbove seq g)
    (htemps : ∀ k, seq < k → W.aliased (tempName k) = false)
    (hplaced : ∀ b ∈ g, ∀ st ∈ b.stmts, st.placed = true)
    (htext : ∀ x ∈ log, x.GlobalText taken usedReturn)
    (hrun : ∀ x ∈ log, (graphMachine (W.interp decl) usedReturn merged x.before).Always
      (fun p ↦ x.Fits W decl p ∧ x.Undisturbed merged W decl taken usedReturn p) (0, s)) :
    (∀ x ∈ log, x.KeptAcross W decl usedReturn merged (0, s)) ∧
      (graphMachine (W.interp decl) usedReturn merged g).SameBehaviour (0, s)
        (graphMachine (W.interp decl) usedReturn merged h) (0, s) := by
  induction hsteps with
  | done => exact ⟨fun x hx ↦ (List.not_mem_nil hx).elim, .refl _ _⟩
  | @share x D seq seq' log h hx htemp hrest ih =>
    have hready : x.Ready idom taken usedReturn merged D := by
      refine ⟨hx, htext x (by simp), hedges, fun c hc ↦ ?_, hplaced⟩
      rw [htemp]
      exact hfresh (seq + 1) (Nat.lt_succ_self seq) c hc
    have hal : W.aliased x.temp = false := by
      rw [htemp]
      exact htemps (seq + 1) (Nat.lt_succ_self seq)
    obtain ⟨hsame, htogether⟩ := hready.sound hidom halias hal (hrun x (by simp))
    have hfresh' : FreshAbove (seq + 1) x.everywhere := by
      intro k hk
      refine hready.mentions_everywhere (fun heq ↦ ?_) (hfresh k (by omega))
      have := tempName_injective (heq.trans htemp)
      omega
    have hidom' : CorrectIdom (controlFlow x.everywhere) idom := by
      rwa [controlFlow_congr (map_targets_everywhere x)]
    obtain ⟨hvalues, hrestSame⟩ := ih hidom' (edgesRecorded_everywhere hedges) hfresh'
      (fun k hk ↦ htemps k (by omega)) hready.places_everywhere
      (fun y hy ↦ htext y (by simp [hy])) fun y hy ↦ hrun y (by simp [hy])
    refine ⟨fun y hy ↦ ?_, hsame.trans hrestSame⟩
    rcases List.mem_cons.1 hy with rfl | hy
    · exact ⟨hready.definedAcross hidom, htogether⟩
    · exact hvalues y hy

/-- **Sharing subexpressions across blocks is sound** along the runs in which no store and no call
changes the value of a shared expression through memory while it is wanted. The temporaries above
`seq` are unused. -/
theorem cseGlobal_sound {M E : Type} (W : World M E) (decl : String → Val → Val)
    (idom : List (Option ℕ)) (budgetOk : ℕ → Bool) (seq : ℕ) (g : List Block) (usedReturn : Bool)
    (merged : Finset ℕ) (s : Store M) (halias : ∀ n, W.aliased n = true → addrTaken g n = true)
    (hidom : CorrectIdom (controlFlow g) idom) (hedges : EdgesRecorded merged g)
    (hfresh : FreshAbove seq g) (hplaced : ∀ b ∈ g, ∀ st ∈ b.stmts, st.placed = true)
    (htext : ∀ x ∈ (cseGlobal idom budgetOk seq g).log, x.GlobalText (addrTaken g) usedReturn)
    (hrun : ∀ x ∈ (cseGlobal idom budgetOk seq g).log,
      (graphMachine (W.interp decl) usedReturn merged x.before).Always (fun p ↦
        x.Fits W decl p ∧ x.Undisturbed merged W decl (addrTaken g) usedReturn p) (0, s)) :
    (∀ x ∈ (cseGlobal idom budgetOk seq g).log,
      x.KeptAcross W decl usedReturn merged (0, s)) ∧
    (graphMachine (W.interp decl) usedReturn merged g).SameBehaviour (0, s)
      (graphMachine (W.interp decl) usedReturn merged (cseGlobal idom budgetOk seq g).graph)
      (0, s) :=
  (cseGlobal_steps idom budgetOk seq g).sound halias hidom hedges hfresh
    (fun _ hk ↦ hfresh.not_aliased halias hk) hplaced htext hrun

/-! ### A value shared by two branches -/

/-- `if (a2) return e₂; else return e₁;` -/
def branches (e₁ e₂ : Expr) : List Block :=
  [{ succ := [2, 1], fall := some 1, taken := some 2, ends := .jcc, cond := some (.mkVar "a2") },
   { pred := [0], ends := .ret, retValue := some e₁, hasRetValue := true },
   { pred := [0], ends := .ret, retValue := some e₂, hasRetValue := true }]

theorem branches_correctIdom (e₁ e₂ : Expr) :
    CorrectIdom (controlFlow (branches e₁ e₂)) [some 0, some 0, some 0] := by
  refine correctIdom_of_entry_adj (g := branches e₁ e₂) fun v hv hlt ↦ ⟨hlt, _, rfl, ?_⟩
  have hlt : v < 3 := hlt
  show v ∈ [2, 1]
  simp only [List.mem_cons, List.not_mem_nil, or_false]
  omega

/-- `(a1 + 4) >> 1` -/
def halved (isUnsigned : Bool) : Expr :=
  .binary ⟨4, isUnsigned, false⟩ .shr (.mkBinary .add (.mkVar "a1") (.mkConst 4) 4) (.mkConst 1)

/-- The texts do not tell a signed shift from an unsigned one. -/
theorem branches_halved_shared :
    (cseGlobal [some 0, some 0, some 0] (fun _ ↦ true) 0
        (branches (halved false) (halved true))).graph =
      [{ succ := [2, 1], fall := some 1, taken := some 2, ends := .jcc,
         stmts := [.assign (.mkVar "t1") (halved false)], cond := some (.mkVar "a2") },
       { pred := [0], ends := .ret, retValue := some (.mkVar "t1"), hasRetValue := true },
       { pred := [0], ends := .ret, retValue := some (.mkVar "t1"), hasRetValue := true }] :=
  rfl

/-- On entry `a1` holds `-8`, and the other variables `1`. -/
def halvedStore : Store (Val → Val) :=
  ⟨fun n ↦ if n = "a1" then -8 else 1, fun _ ↦ 0⟩

/-- The branch with the unsigned shift returns what the signed one does. -/
theorem branches_halved_differs :
    CorrectIdom (controlFlow (branches (halved false) (halved true))) [some 0, some 0, some 0] ∧
    ¬ (graphMachine (traceWorld.interp fun _ v ↦ v) true ∅
          (branches (halved false) (halved true))).SameBehaviour (0, halvedStore)
        (graphMachine (traceWorld.interp fun _ v ↦ v) true ∅
          (cseGlobal [some 0, some 0, some 0] (fun _ ↦ true) 0
            (branches (halved false) (halved true))).graph) (0, halvedStore) := by
  refine ⟨branches_correctIdom _ _, fun h ↦ ?_⟩
  have hleft : (graphMachine (traceWorld.interp fun _ v ↦ v) true ∅
      (branches (halved false) (halved true))).Returns (0, halvedStore) [.branch true]
        (some (some 0x7FFFFFFE)) := ⟨2, rfl⟩
  have hright := (h.returns_iff _ _).1 hleft
  rw [branches_halved_shared] at hright
  obtain ⟨-, hvalue⟩ : [.branch true] = [Event.branch true] ∧
      some (some (0x7FFFFFFE : Val)) = some (some (-2)) := hright.unique ⟨2, rfl⟩
  exact absurd (Option.some.inj (Option.some.inj hvalue)) (by decide)

/-! ### The same value in both branches -/

/-- `(a1 + 4) * 8` in both branches is shared at the end of the first block. -/
theorem branches_offset_log :
    (cseGlobal [some 0, some 0, some 0] (fun _ ↦ true) 0 (branches offset offset)).log =
      [⟨branches offset offset, 0, 0, offset, "t1"⟩] :=
  rfl

theorem branches_offset_fresh : FreshAbove 0 (branches offset offset) := by
  intro k _ b hb
  simp only [branches, List.mem_cons, List.not_mem_nil, or_false] at hb
  rcases hb with rfl | rfl | rfl <;>
    simp [Block.mentions, Block.exprs, Block.termExprs, offset, Expr.mkVar, Expr.mkBinary,
      Expr.mkConst, Expr.readsNamedVar, Expr.anyNode, Expr.isVarNamed,
      (ne_tempName (n := "a1") k (by decide)), (ne_tempName (n := "a2") k (by decide))]

theorem branches_offset_sound :
    (∀ x ∈ (cseGlobal [some 0, some 0, some 0] (fun _ ↦ true) 0 (branches offset offset)).log,
      x.KeptAcross traceWorld (fun _ v ↦ v) true ∅ (0, offsetStore)) ∧
    (graphMachine (traceWorld.interp fun _ v ↦ v) true ∅ (branches offset offset)).SameBehaviour
      (0, offsetStore)
      (graphMachine (traceWorld.interp fun _ v ↦ v) true ∅
        (cseGlobal [some 0, some 0, some 0] (fun _ ↦ true) 0 (branches offset offset)).graph)
      (0, offsetStore) := by
  refine cseGlobal_sound traceWorld (fun _ v ↦ v) [some 0, some 0, some 0] (fun _ ↦ true) 0
    (branches offset offset) true ∅ offsetStore (fun _ h ↦ absurd h Bool.false_ne_true)
    (branches_correctIdom _ _) ?_ branches_offset_fresh (by simp [branches]) ?_ ?_
  · intro j b _ hb l hl _ _
    rcases j with _ | _ | _ | j <;> cases hb
    · exact hl
    · cases hl
    · cases hl
  · rw [branches_offset_log]
    intro x hx
    obtain rfl := List.mem_singleton.1 hx
    refine ⟨fun b hb c hc heq ↦ ?_, by decide, .inl (by decide)⟩
    have hsub : c ∈ [offset, .mkBinary .add (.mkVar "a1") (.mkConst 4) 4] := by
      simp only [branches, List.mem_cons, List.not_mem_nil, or_false] at hb
      rcases hb with rfl | rfl | rfl
      · cases hc
      · exact hc
      · exact hc
    simp only [List.mem_cons, List.not_mem_nil, or_false] at hsub
    rcases hsub with rfl | rfl
    · rfl
    · exact absurd heq (by decide)
  · rw [branches_offset_log]
    intro x hx p _
    obtain rfl := List.mem_singleton.1 hx
    exact ⟨fun _ _ _ ↦ rfl, .inl (by decide)⟩

end Ldu
