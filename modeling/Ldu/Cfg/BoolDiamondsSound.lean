import Ldu.Cfg.BoolDiamonds
import Ldu.Cfg.ConstBranches
import Ldu.Emit.BoolSimplify
import Ldu.Semantics.Skip

/-!
# What folding boolean diamonds keeps

A fold makes of a branch and the arm that it selects one step, which passes over the arm
(`skips_apply`). Nothing else leads to an arm, although the predecessors are those from before the
pass: that is the invariant of the sweep (`Swept`).

The step assigns the condition where the arm assigned a constant. That is the same when the
condition is `0` or `1`, and for the negation it depends on whether that is (`eval_val`): the
negation of `!x` is `x`. The function is also entered at block `0`, which no list of predecessors
says, and an arm that ends in a return does not go on to the join. Apart from these the pass keeps
every run, and the retired arms are not reached (`foldBooleanDiamonds_keeps`).
-/

namespace Ldu

namespace BoolDiamonds

open Expr ShortCircuit

/-! ### What a diamond is -/

theorem stmts_of_singleBoolAssign {b : Block} {x : String} {v : Bool}
    (h : b.singleBoolAssign = some (x, v)) :
    b.isSwitch = false ∧ b.ends ≠ .jcc ∧ ∃ ty ty',
      b.stmts.filter (!·.isComment) =
        [.assign (.var ty x) (.const ty' (if v then 1 else 0))] := by
  unfold Block.singleBoolAssign at h
  split at h
  · cases h
  · next hkind =>
    have hkind : b.isSwitch = false ∧ b.ends ≠ .jcc := by simpa using hkind
    refine ⟨hkind.1, hkind.2, ?_⟩
    split at h
    · next ty name ty' w hstmts =>
      split_ifs at h with h₀ h₁
      · obtain ⟨rfl, rfl⟩ := Prod.mk.inj (Option.some.inj h)
        exact ⟨ty, ty', by rw [hstmts, h₀]; rfl⟩
      · obtain ⟨rfl, rfl⟩ := Prod.mk.inj (Option.some.inj h)
        exact ⟨ty, ty', by rw [hstmts, h₁]; rfl⟩
    · cases h

theorem usucc_eq_some {b : Block} {j : ℕ} (h : b.usucc = some j) :
    b.isSwitch = false ∧ b.ends ≠ .jcc ∧ (if b.ends = .jmp then b.taken else b.fall) = some j := by
  unfold Block.usucc at h
  split at h
  · cases h
  · next hkind =>
    have hkind : b.isSwitch = false ∧ b.ends ≠ .jcc := by simpa using hkind
    exact ⟨hkind.1, hkind.2, h⟩

theorem mem_targets_of_usucc {b : Block} {j : ℕ} (h : b.usucc = some j) : j ∈ b.targets := by
  obtain ⟨hsw, -, h⟩ := usucc_eq_some h
  simp only [Block.targets, hsw, Bool.false_eq_true, if_false, List.mem_append, Option.mem_toList]
  split at h
  · exact .inl h
  · exact .inr h

/-- The facts that a fold rests on. -/
structure Fits (st : ShortCircuit) (d : Diamond) (A T F : Block) : Prop where
  getA : st.blocks[d.a]? = some A
  getT : st.blocks[d.t]? = some T
  getF : st.blocks[d.f]? = some F
  twoA : A.twoWay = some (d.cond, d.t, d.f)
  ne : d.t ≠ d.f
  predT : T.pred = [d.a]
  predF : F.pred = [d.a]
  assignT : T.singleBoolAssign = some (d.name, d.one)
  assignF : F.singleBoolAssign = some (d.name, !d.one)
  joinT : T.usucc = some d.join
  joinF : F.usucc = some d.join
  join_ne_a : d.join ≠ d.a
  join_ne_t : d.join ≠ d.t
  join_ne_f : d.join ≠ d.f

theorem fits_of_diamondAt {st : ShortCircuit} {a : ℕ} {d : Diamond}
    (h : diamondAt st a = some d) : ∃ A T F, Fits st d A T F := by
  simp only [diamondAt, Option.bind_eq_bind, Option.bind_eq_some_iff, Option.guard_eq_some',
    Option.pure_def, Option.some.injEq, Prod.exists] at h
  obtain ⟨A, hA, cond, t, f, htwo, -, hne, T, hT, F, hF, -, ⟨hpT, hpF⟩, xt, ct, hxt, xf, cf, hxf,
    -, ⟨rfl, hc⟩, jt, hjt, jf, hjf, -, ⟨rfl, hja, hjt', hjf'⟩, rfl⟩ := h
  have hcf : cf = !ct := by
    cases ct <;> cases cf <;> simp_all
  exact ⟨A, T, F, hA, hT, hF, htwo, hne, hpT, hpF, hxt, hcf ▸ hxf, hjt, hjf, hja, hjt', hjf'⟩

namespace Fits

variable {st : ShortCircuit} {d : Diamond} {A T F : Block}

theorem ends_jcc (h : Fits st d A T F) : A.ends = .jcc :=
  (twoWay_eq_some.1 h.twoA).2.1

theorem t_ne_a (h : Fits st d A T F) : d.t ≠ d.a := by
  intro heq
  have hsame : T = A := Option.some.inj (h.getT.symm.trans (heq ▸ h.getA))
  exact (stmts_of_singleBoolAssign h.assignT).2.1 (hsame ▸ h.ends_jcc)

theorem f_ne_a (h : Fits st d A T F) : d.f ≠ d.a := by
  intro heq
  have hsame : F = A := Option.some.inj (h.getF.symm.trans (heq ▸ h.getA))
  exact (stmts_of_singleBoolAssign h.assignF).2.1 (hsame ▸ h.ends_jcc)

end Fits

/-! ### What the sweep keeps -/

/-- A state of the sweep of a graph `g` in which the blocks `gone` were merged away before. An edge
to a block with one predecessor comes from there; the blocks that were retired have a predecessor
that branches no more; blocks that do not fall through are those of the graph. -/
structure Swept (g : List Block) (gone : Finset ℕ) (st : ShortCircuit) : Prop where
  edge : ∀ {p b q : ℕ} {P B : Block}, p ∉ st.merged → st.blocks[p]? = some P → b ∈ P.targets →
    st.blocks[b]? = some B → B.pred = [q] → p = q
  pred_live : ∀ {b q : ℕ} {B : Block}, st.blocks[b]? = some B → B.pred = [q] → q ∉ gone ∧ b ∉ gone
  retired : ∀ {b : ℕ} {B : Block}, st.blocks[b]? = some B → b ∈ st.merged → b ∉ gone →
    B.ends ≠ .jcc ∧ ∃ q Q, B.pred = [q] ∧ st.blocks[q]? = some Q ∧ Q.ends ≠ .jcc
  same : ∀ {b : ℕ} {B : Block}, st.blocks[b]? = some B → B.ends ≠ .fall →
    ∃ B₀, g[b]? = some B₀ ∧ B₀.ends = B.ends ∧ B₀.stmts = B.stmts

/-- A single predecessor of a block has not been merged away, nor has the block. -/
theorem live_of_pred_eq {st : ShortCircuit} {b q : ℕ} {B : Block}
    (hB : st.rebuild.blocks[b]? = some B) (hpred : B.pred = [q]) :
    q ∉ st.merged ∧ b ∉ st.merged := by
  simp only [rebuild, getElem?_rebuildEdges, Option.map_eq_some_iff] at hB
  obtain ⟨B₀, -, rfl⟩ := hB
  have hpred : (List.range st.blocks.length).filter
      (fun p ↦ b ∈ newSucc st.merged st.blocks p) = [q] := hpred
  have hmem : q ∈ (List.range st.blocks.length).filter
      (fun p ↦ b ∈ newSucc st.merged st.blocks p) := by
    rw [hpred]
    exact List.mem_singleton_self q
  obtain ⟨hq, -, -, -, -, hb⟩ := mem_newSucc.1 (of_decide_eq_true (List.mem_filter.1 hmem).2)
  exact ⟨hq, hb⟩

theorem swept_rebuild (st : ShortCircuit) : Swept st.blocks st.merged st.rebuild where
  edge hp hP hbP hB hpred := eq_of_pred_eq hB hpred (live_of_pred_eq hB hpred).2 hP hp hbP
  pred_live := live_of_pred_eq
  retired _ hb hgone := absurd hb hgone
  same hB _ := by
    simp only [rebuild, getElem?_rebuildEdges, Option.map_eq_some_iff] at hB
    obtain ⟨B₀, hB₀, rfl⟩ := hB
    exact ⟨B₀, hB₀, rfl, rfl⟩

namespace Swept

variable {g : List Block} {gone : Finset ℕ} {st : ShortCircuit} {d : Diamond} {A T F : Block}
  {demorgan : Bool} {varWidth : String → Option ℕ}

/-- A block that branches, and is the predecessor of another, has not been retired. -/
theorem not_mem_of_pred (h : Swept g gone st) {a b : ℕ} {A B : Block}
    (hA : st.blocks[a]? = some A) (hjcc : A.ends = .jcc) (hB : st.blocks[b]? = some B)
    (hpred : B.pred = [a]) : a ∉ st.merged ∧ b ∉ st.merged := by
  obtain ⟨ha, hb⟩ := h.pred_live hB hpred
  refine ⟨fun hmem ↦ (h.retired hA hmem ha).1 hjcc, fun hmem ↦ ?_⟩
  obtain ⟨-, q, Q, hq, hQ, hends⟩ := h.retired hB hmem hb
  obtain rfl : a = q := List.singleton_injective (hpred.symm.trans hq)
  obtain rfl : A = Q := Option.some.inj (hA.symm.trans hQ)
  exact hends hjcc

theorem getElem?_apply {b : ℕ} (h : b ≠ d.a) :
    (BoolDiamonds.apply demorgan varWidth st d).blocks[b]? = st.blocks[b]? := by
  simp [BoolDiamonds.apply, Ne.symm h]

theorem getElem?_apply_self (hA : st.blocks[d.a]? = some A) :
    (BoolDiamonds.apply demorgan varWidth st d).blocks[d.a]? =
      some (d.into demorgan varWidth A) := by
  simp [BoolDiamonds.apply, hA]

/-- A block after a fold: the one that was folded into, or one from before; the predecessors are
those from before. -/
theorem of_getElem?_apply (hA : st.blocks[d.a]? = some A) {b : ℕ} {B : Block}
    (hB : (BoolDiamonds.apply demorgan varWidth st d).blocks[b]? = some B) :
    (b = d.a ∧ B = d.into demorgan varWidth A) ∨ (b ≠ d.a ∧ st.blocks[b]? = some B) := by
  rcases eq_or_ne b d.a with rfl | hb
  · exact .inl ⟨rfl, Option.some.inj (hB.symm.trans (getElem?_apply_self hA))⟩
  · exact .inr ⟨hb, (getElem?_apply hb).symm.trans hB⟩

/-- A block that two blocks lead to has not one predecessor only. -/
theorem join_pred_ne (h : Swept g gone st) (hfits : Fits st d A T F) {q : ℕ} {J : Block}
    (hJ : st.blocks[d.join]? = some J) : J.pred ≠ [q] := by
  intro hpred
  have hT := (h.not_mem_of_pred hfits.getA hfits.ends_jcc hfits.getT hfits.predT).2
  have hF := (h.not_mem_of_pred hfits.getA hfits.ends_jcc hfits.getF hfits.predF).2
  refine hfits.ne ?_
  rw [h.edge hT hfits.getT (mem_targets_of_usucc hfits.joinT) hJ hpred,
    h.edge hF hfits.getF (mem_targets_of_usucc hfits.joinF) hJ hpred]

/-- One fold keeps the invariant. -/
theorem apply (h : Swept g gone st) (hfits : Fits st d A T F) :
    Swept g gone (BoolDiamonds.apply demorgan varWidth st d) := by
  have hA := hfits.getA
  -- A block from before, with the same predecessors, and not branching if it was not.
  have hbefore : ∀ {b : ℕ} {B : Block},
      (BoolDiamonds.apply demorgan varWidth st d).blocks[b]? = some B →
        ∃ B₀, st.blocks[b]? = some B₀ ∧ B₀.pred = B.pred := fun hB ↦ by
    obtain ⟨rfl, rfl⟩ | ⟨-, hB⟩ := of_getElem?_apply hA hB
    · exact ⟨A, hA, rfl⟩
    · exact ⟨_, hB, rfl⟩
  constructor
  · intro p b q P B hp hP hbP hB hpred
    obtain ⟨B₀, hB₀, heq⟩ := hbefore hB
    obtain ⟨rfl, rfl⟩ | ⟨-, hP⟩ := of_getElem?_apply hA hP
    · have hjoin : b = d.join := by
        have hsw := (twoWay_eq_some.1 hfits.twoA).1
        simpa [Block.targets, Diamond.into, hsw] using hbP
      exact absurd (heq.trans hpred) (h.join_pred_ne hfits (hjoin ▸ hB₀))
    · have hlive : p ∉ st.merged := fun hmem ↦ hp (by simp [BoolDiamonds.apply, hmem])
      exact h.edge hlive hP hbP hB₀ (heq.trans hpred)
  · intro b q B hB hpred
    obtain ⟨B₀, hB₀, heq⟩ := hbefore hB
    exact h.pred_live hB₀ (heq.trans hpred)
  · intro b B hB hmem hgone
    -- The two arms have the block as their predecessor, which branches no more.
    have harm : ∀ {C : Block}, B = C → C.pred = [d.a] → C.ends ≠ .jcc →
        B.ends ≠ .jcc ∧ ∃ q Q, B.pred = [q] ∧
          (BoolDiamonds.apply demorgan varWidth st d).blocks[q]? = some Q ∧ Q.ends ≠ .jcc := by
      rintro C rfl hpred hends
      exact ⟨hends, d.a, _, hpred, getElem?_apply_self hA,
        show Ends.fall ≠ Ends.jcc by decide⟩
    have hmem : b = d.f ∨ b = d.t ∨ b ∈ st.merged := by simpa [BoolDiamonds.apply] using hmem
    rcases hmem with rfl | rfl | hmem
    · rw [getElem?_apply hfits.f_ne_a, hfits.getF] at hB
      exact harm (Option.some.inj hB).symm hfits.predF (stmts_of_singleBoolAssign hfits.assignF).2.1
    · rw [getElem?_apply hfits.t_ne_a, hfits.getT] at hB
      exact harm (Option.some.inj hB).symm hfits.predT (stmts_of_singleBoolAssign hfits.assignT).2.1
    · obtain ⟨rfl, rfl⟩ | ⟨-, hB⟩ := of_getElem?_apply hA hB
      · exact absurd hmem (h.not_mem_of_pred hA hfits.ends_jcc hfits.getT hfits.predT).1
      · obtain ⟨hends, q, Q, hpred, hQ, hQends⟩ := h.retired hB hmem hgone
        have hq : q ≠ d.a := by
          rintro rfl
          obtain rfl : A = Q := Option.some.inj (hA.symm.trans hQ)
          exact hQends hfits.ends_jcc
        exact ⟨hends, q, Q, hpred, (getElem?_apply hq).trans hQ, hQends⟩
  · intro b B hB hends
    obtain ⟨rfl, rfl⟩ | ⟨-, hB⟩ := of_getElem?_apply hA hB
    · exact absurd rfl hends
    · exact h.same hB hends

/-- Blocks that end in a return are those of the graph. -/
theorem ends_ne_ret (h : Swept g gone st) {b : ℕ} {B : Block}
    (hret : ∀ B, g[b]? = some B → B.ends ≠ .ret) (hB : st.blocks[b]? = some B) :
    B.ends ≠ .ret := by
  intro hends
  obtain ⟨B₀, hB₀, heq, -⟩ := h.same hB (by rw [hends]; decide)
  exact hret B₀ hB₀ (heq.trans hends)

end Swept

/-! ### One fold -/

section Meaning

variable {M E : Type} {W : World M E} {outcome : Val → Val → FloatOutcome}
  {decl : String → Val → Val} {usedReturn demorgan : Bool} {varWidth : String → Option ℕ}
  {st : ShortCircuit} {d : Diamond} {A T F : Block}

theorem filterMap_world (es : List E) : (es.map Event.world).filterMap Event.world? = es := by
  rw [List.filterMap_map]
  exact List.filterMap_some

theorem exec_assign (ty : Ty) (x : String) (e : Expr) (s : Store M) :
    (W.seen decl).exec (.assign (.var ty x) e) s =
      ((W.eval e s).1, .inl (W.write (W.eval e s).2.2 x (decl x (W.eval e s).2.1))) := by
  simp only [World.seen, Interp.observe, World.interp, World.execStmt_var, filterMap_world]

theorem test_seen (c : Expr) (s : Store M) : (W.seen decl).test c s = W.truth c s := by
  simp only [World.seen, Interp.observe, World.interp, List.filterMap_append, filterMap_world]
  rfl

theorem execAll_filter (l : List Stmt) (s : Store M) :
    (W.seen decl).execAll (l.filter (!·.isComment)) s = (W.seen decl).execAll l s := by
  induction l generalizing s with
  | nil => rfl
  | cons st l ih =>
    cases st with
    | comment label =>
      exact ih s
    | assign lhs rhs =>
      rw [List.filter_cons_of_pos rfl, Interp.execAll, Interp.execAll]
      simp only [ih]
    | call rhs =>
      rw [List.filter_cons_of_pos rfl, Interp.execAll, Interp.execAll]
      simp only [ih]

theorem ext_one (ty : Ty) : ty.ext 1 = 1 := by
  have hnarrow : ∀ w < 8, 0 < w → ((1 : Val).setWidth (8 * w)).setWidth 64 = (1 : Val) ∧
      ((1 : Val).setWidth (8 * w)).signExtend 64 = (1 : Val) := by decide
  unfold Ty.ext
  split_ifs with hwide hsign
  · rfl
  · exact (hnarrow ty.width (by omega) (by omega)).1
  · exact (hnarrow ty.width (by omega) (by omega)).2

theorem ext_ofBool (ty : Ty) (v : Bool) : ty.ext (if v then 1 else 0) = ofBool v := by
  cases v with
  | false => exact ty.ext_zero
  | true => exact ext_one ty

/-- An arm assigns its constant and goes on to the join. -/
theorem runBlock_arm {b : Block} {x : String} {one : Bool} {j : ℕ}
    (hassign : b.singleBoolAssign = some (x, one)) (hjoin : b.usucc = some j) (hret : b.ends ≠ .ret)
    (s : Store M) :
    runBlock (W.seen decl) usedReturn b s =
      ([], .inl (j, W.write s x (decl x (ofBool one)))) := by
  obtain ⟨hsw, hjcc, ty, ty', hstmts⟩ := stmts_of_singleBoolAssign hassign
  obtain ⟨-, -, hsucc⟩ := usucc_eq_some hjoin
  have hexec : (W.seen decl).execAll b.stmts s =
      ([], .inl (W.write s x (decl x (ofBool one)))) := by
    rw [← execAll_filter, hstmts, Interp.execAll, exec_assign]
    simp only [World.eval, Effect.pure_apply, ext_ofBool, Interp.execAll, emit_nil]
  rw [runBlock_of_inl hexec, emit_nil]
  unfold transfer
  cases hends : b.ends <;> simp_all [goTo]

/-- When it is entered in this state, the block of a diamond ends in one in which what replaces the
constants is `0` or `1`. -/
def ValIsBool (W : World M E) (decl : String → Val → Val) (demorgan : Bool) (g : List Block)
    (d : Diamond) (s : Store M) : Prop :=
  ∀ A es s', g[d.a]? = some A → (W.seen decl).execAll A.stmts s = (es, .inl s') →
    (W.eval (d.val demorgan) s').2.1 = 0 ∨ (W.eval (d.val demorgan) s').2.1 = 1

theorem ofBool_eq (b : Bool) : ofBool b = 0 ∨ ofBool b = 1 := by
  cases b
  · exact .inl rfl
  · exact .inr rfl

theorem eq_ofBool {v : Val} (h : v = 0 ∨ v = 1) : v = ofBool (v != 0) := by
  rcases h with rfl | rfl <;> rfl

theorem truth_val (hW : W.ComparesFloats outcome) (demorgan : Bool) (d : Diamond) (s : Store M) :
    W.truth (d.val demorgan) s =
      ((W.truth d.cond s).1, (W.truth d.cond s).2.1 == d.one, (W.truth d.cond s).2.2) := by
  unfold Diamond.val
  cases d.one with
  | true => simp
  | false =>
    simp only [Bool.false_eq_true, if_false, World.truth_negateExpr hW, beq_false,
      map_eq_pure_bind, Effect.bind_apply, Effect.pure_apply, List.append_nil]

/-- What replaces the constants does what the condition does, and is the constant of the arm that
the condition selects. -/
theorem eval_val (hW : W.ComparesFloats outcome) {s : Store M}
    (hbool : (W.eval (d.val demorgan) s).2.1 = 0 ∨ (W.eval (d.val demorgan) s).2.1 = 1) :
    W.eval (d.val demorgan) s =
      ((W.truth d.cond s).1, ofBool ((W.truth d.cond s).2.1 == d.one), (W.truth d.cond s).2.2) := by
  have heq : W.truth (d.val demorgan) s = ((W.eval (d.val demorgan) s).1,
      (W.eval (d.val demorgan) s).2.1 != 0, (W.eval (d.val demorgan) s).2.2) := by
    rw [World.truth, Effect.bind_apply, Effect.pure_apply, List.append_nil]
  obtain ⟨hev, hrest⟩ := Prod.mk.inj ((truth_val hW demorgan d s).symm.trans heq)
  obtain ⟨htruth, hstore⟩ := Prod.mk.inj hrest
  exact Prod.ext hev.symm (Prod.ext ((eq_ofBool hbool).trans (congrArg ofBool htruth.symm))
    hstore.symm)

/-- The folded block goes to the join with what the arm that is selected would have assigned. -/
theorem runBlock_into (hW : W.ComparesFloats outcome) {s s₁ : Store M} {es : List E}
    (hsw : A.isSwitch = false) (hexec : (W.seen decl).execAll A.stmts s = (es, .inl s₁))
    (hbool : (W.eval (d.val demorgan) s₁).2.1 = 0 ∨ (W.eval (d.val demorgan) s₁).2.1 = 1) :
    runBlock (W.seen decl) usedReturn (d.into demorgan varWidth A) s =
      (es ++ (W.truth d.cond s₁).1,
        .inl (d.join, W.write (W.truth d.cond s₁).2.2 d.name
          (decl d.name (ofBool ((W.truth d.cond s₁).2.1 == d.one))))) := by
  have hall : (W.seen decl).execAll (d.into demorgan varWidth A).stmts s =
      (es ++ (W.truth d.cond s₁).1, .inl (W.write (W.truth d.cond s₁).2.2 d.name
        (decl d.name (ofBool ((W.truth d.cond s₁).2.1 == d.one))))) := by
    refine (Interp.execAll_append_of_inl hexec _).trans ?_
    rw [Interp.execAll, mkVar, exec_assign, eval_val hW hbool]
    simp only [Interp.execAll, emit, List.append_nil]
  rw [runBlock_of_inl hall]
  simp only [transfer, Diamond.into, hsw, goTo, emit, List.append_nil]

/-- A block that branches is one of the graph. -/
theorem Swept.valIsBool {g : List Block} {gone : Finset ℕ} (h : Swept g gone st)
    (hfits : Fits st d A T F) {s : Store M} (hbool : ValIsBool W decl demorgan g d s) :
    ValIsBool W decl demorgan st.blocks d s := by
  intro A' es s' hA' hexec
  obtain rfl : A = A' := Option.some.inj (hfits.getA.symm.trans hA')
  obtain ⟨A₀, hA₀, -, hstmts⟩ := h.same hfits.getA (by rw [hfits.ends_jcc]; decide)
  exact hbool A₀ es s' hA₀ (hstmts ▸ hexec)

/-- A fold passes over the arms, and over nothing else. -/
theorem skips_apply (hW : W.ComparesFloats outcome) {g : List Block} {gone : Finset ℕ}
    (h : Swept g gone st) (hfits : Fits st d A T F) (hT : T.ends ≠ .ret) (hF : F.ends ≠ .ret)
    {p : ℕ × Store M} (hbool : d.a = p.1 → ValIsBool W decl demorgan st.blocks d p.2)
    (hvis : p.1 ≠ d.t ∧ p.1 ≠ d.f) :
    (machine (W.seen decl) usedReturn (apply demorgan varWidth st d)).Skips
      (machine (W.seen decl) usedReturn st) (fun q ↦ q.1 = d.t ∨ q.1 = d.f) p := by
  obtain ⟨id, s⟩ := p
  obtain ⟨ha, ht⟩ := h.not_mem_of_pred hfits.getA hfits.ends_jcc hfits.getT hfits.predT
  have hf := (h.not_mem_of_pred hfits.getA hfits.ends_jcc hfits.getF hfits.predF).2
  rcases eq_or_ne d.a id with rfl | hid
  · obtain ⟨es, s₁, hexec⟩ := exists_execAll W decl A.stmts s
    have hlive : d.a ∉ (apply demorgan varWidth st d).merged := by
      simp [apply, ha, hfits.t_ne_a.symm, hfits.f_ne_a.symm]
    have hnew :=
      machine_step (W.seen decl) usedReturn hlive (Swept.getElem?_apply_self hfits.getA) s
    rw [runBlock_into hW (twoWay_eq_some.1 hfits.twoA).1 hexec
      (hbool rfl A es s₁ hfits.getA hexec)] at hnew
    have hold := machine_step (W.seen decl) usedReturn ha hfits.getA s
    rw [runBlock_of_inl hexec, transfer_of_twoWay hfits.twoA, branch, test_seen] at hold
    have hnext : d.join ≠ d.t ∧ d.join ≠ d.f := ⟨hfits.join_ne_t, hfits.join_ne_f⟩
    -- The condition selects one of the arms, which goes on to the join.
    cases hv : (W.truth d.cond s₁).2.1 with
    | true =>
      rw [hv] at hold hnew
      have harm := machine_step (W.seen decl) usedReturn ht hfits.getT (W.truth d.cond s₁).2.2
      rw [runBlock_arm hfits.assignT hfits.joinT hT] at harm
      refine .two hold (.inl rfl) harm ?_ (not_or.2 hnext)
      rw [hnew, List.append_nil, Bool.true_beq]
    | false =>
      rw [hv] at hold hnew
      have harm := machine_step (W.seen decl) usedReturn hf hfits.getF (W.truth d.cond s₁).2.2
      rw [runBlock_arm hfits.assignF hfits.joinF hF] at harm
      refine .two hold (.inr rfl) harm ?_ (not_or.2 hnext)
      rw [hnew, List.append_nil, Bool.false_beq]
  · refine .one ?_ ?_
    · simp [machine, graphMachine, apply, hvis.1, hvis.2, hid]
    · rintro es ⟨id', s'⟩ hstep harm
      -- Only the folded block leads to the arms.
      have hmem : id ∉ st.merged := fun hmem ↦ by
        simp [machine, graphMachine, hmem] at hstep
      cases hX : st.blocks[id]? with
      | none => simp [machine, graphMachine, hmem, hX] at hstep
      | some X =>
        rw [machine_step _ _ hmem hX] at hstep
        have htarget := mem_targets_of_runBlock hstep
        rcases harm with rfl | rfl
        · exact hid (h.edge hmem hX htarget hfits.getT hfits.predT).symm
        · exact hid (h.edge hmem hX htarget hfits.getF hfits.predF).symm

/-! ### The whole pass -/

/-- Neither arm is the block in which the function is entered, or ends in a return. -/
def ArmsFit (g : List Block) (d : Diamond) : Prop :=
  ∀ b, b = d.t ∨ b = d.f → b ≠ 0 ∧ ∀ B, g[b]? = some B → B.ends ≠ .ret

/-- The block is an arm of one of the diamonds. -/
def IsArm (ds : List Diamond) (b : ℕ) : Prop :=
  ∃ d ∈ ds, b = d.t ∨ b = d.f

theorem keeps_sweep (hW : W.ComparesFloats outcome) {g : List Block} {gone : Finset ℕ} (l : List ℕ)
    {st : ShortCircuit} (h : Swept g gone st) (s : Store M)
    (harms : ∀ d ∈ diamonds demorgan varWidth l st, ArmsFit g d)
    (hbool : (machine (W.seen decl) usedReturn st).Always
      (fun p ↦ ∀ d ∈ diamonds demorgan varWidth l st,
        d.a = p.1 → ValIsBool W decl demorgan g d p.2) (0, s)) :
    (machine (W.seen decl) usedReturn (sweep demorgan varWidth l st)).Keeps
      (machine (W.seen decl) usedReturn st)
      (fun p ↦ IsArm (diamonds demorgan varWidth l st) p.1) (0, s) := by
  induction l generalizing st with
  | nil => exact (Machine.Keeps.refl _ _).congr fun p ↦ ⟨False.elim, fun ⟨_, hd, _⟩ ↦ nomatch hd⟩
  | cons a l ih =>
    unfold sweep
    unfold diamonds at harms hbool ⊢
    cases hd : diamondAt st a with
    | none =>
      simp only [hd] at harms hbool
      exact ih h harms hbool
    | some d =>
      simp only [hd, List.forall_mem_cons] at harms hbool
      obtain ⟨A, T, F, hfits⟩ := fits_of_diamondAt hd
      obtain ⟨⟨harm, harms⟩, hret⟩ : (ArmsFit g d ∧ _) ∧ (T.ends ≠ .ret ∧ F.ends ≠ .ret) :=
        ⟨harms, h.ends_ne_ret (harms.1 d.t (.inl rfl)).2 hfits.getT,
          h.ends_ne_ret (harms.1 d.f (.inr rfl)).2 hfits.getF⟩
      have hentry : ¬((0 : ℕ) = d.t ∨ (0 : ℕ) = d.f) := fun h₀ ↦ (harm 0 h₀).1 rfl
      have hfold : (machine (W.seen decl) usedReturn (apply demorgan varWidth st d)).Keeps
          (machine (W.seen decl) usedReturn st) (fun p ↦ p.1 = d.t ∨ p.1 = d.f) (0, s) := by
        refine Machine.keeps_of_skips (fun p hp hvis ↦ ?_) hentry
        exact skips_apply hW h hfits hret.1 hret.2
          (fun ha ↦ h.valIsBool hfits ((hbool p hp).1 ha)) (not_or.1 hvis)
      have hrest := ih (h.apply hfits) harms fun p hp ↦
        (hbool p ((hfold.reaches_iff p (hfold.not_hidden p hp)).1 hp)).2
      refine (hrest.trans hfold).congr fun p ↦ ?_
      simp only [IsArm, List.mem_cons, exists_eq_or_imp]

end Meaning

/-- Folding the boolean diamonds of a graph keeps a run, up to the arms that are retired and not
reached any more, if no arm is the entry or ends in a return, and if the conditions of the diamonds
that it comes to, or their negations where these are assigned, are `0` or `1`. -/
theorem foldBooleanDiamonds_keeps {M E : Type} {W : World M E} {outcome : Val → Val → FloatOutcome}
    (hW : W.ComparesFloats outcome) (decl : String → Val → Val) (usedReturn demorgan : Bool)
    (varWidth : String → Option ℕ) (st : ShortCircuit) (s : Store M)
    (harms : ∀ d ∈ folded demorgan varWidth st, ArmsFit st.blocks d)
    (hbool : (machine (W.seen decl) usedReturn st).Always (fun p ↦
      ∀ d ∈ folded demorgan varWidth st, d.a = p.1 → ValIsBool W decl demorgan st.blocks d p.2)
      (0, s)) :
    (machine (W.seen decl) usedReturn (foldBooleanDiamonds demorgan varWidth st)).Keeps
      (machine (W.seen decl) usedReturn st)
      (fun p ↦ IsArm (folded demorgan varWidth st) p.1) (0, s) := by
  unfold foldBooleanDiamonds
  rw [machine_rebuild, ← machine_rebuild (W.seen decl) usedReturn st]
  rw [← machine_rebuild (W.seen decl) usedReturn st] at hbool
  exact keeps_sweep hW _ (swept_rebuild st) s harms hbool

/-- `if (c) x = 1; else x = 0; return x;` -/
def oneOrZero (c : Expr) : List Block :=
  [{ ends := .jcc, cond := some c, taken := some 1, fall := some 2 },
   { stmts := [.assign (mkVar "x") (mkConst 1)], fall := some 3 },
   { stmts := [.assign (mkVar "x") (mkConst 0)], fall := some 3 },
   { ends := .ret, hasRetValue := true, retValue := some (mkVar "x") }]

/-- A comparison is `0` or `1`. -/
theorem foldBooleanDiamonds_keeps_comparison :
    let st : ShortCircuit := ⟨oneOrZero (mkBinary .ne (mkVar "a") (mkConst 0) 4), ∅⟩
    (machine ((floatWorld perverse).seen fun _ v ↦ v) true
        (foldBooleanDiamonds true (fun _ ↦ none) st)).Keeps
      (machine ((floatWorld perverse).seen fun _ v ↦ v) true st)
      (fun p ↦ IsArm (folded true (fun _ ↦ none) st) p.1) (0, zeroStore) := by
  have hfolded : folded true (fun _ ↦ none)
      ⟨oneOrZero (mkBinary .ne (mkVar "a") (mkConst 0) 4), ∅⟩ =
        [⟨0, 1, 2, 3, "x", true, mkBinary .ne (mkVar "a") (mkConst 0) 4⟩] := rfl
  refine foldBooleanDiamonds_keeps (floatWorld_comparesFloats perverse) _ true true _ _ _ ?_ ?_
  · rw [hfolded]
    intro d hd b hb
    obtain rfl := List.mem_singleton.1 hd
    rcases hb with rfl | rfl
    · exact ⟨by decide, fun B hB ↦ by obtain rfl := Option.some.inj hB; decide⟩
    · exact ⟨by decide, fun B hB ↦ by obtain rfl := Option.some.inj hB; decide⟩
  · rw [hfolded]
    intro p _ d hd _ A es s' _ _
    obtain rfl := List.mem_singleton.1 hd
    exact ofBool_eq _

/-- All variables are `4`. -/
def fours : Store (Val → Val) :=
  ⟨fun _ ↦ 4, fun _ ↦ 0⟩

/-- `if (a & 4) x = 1; else x = 0; return x;` -/
def maskTest : ShortCircuit :=
  ⟨oneOrZero (mkBinary .band (mkVar "a") (mkConst 4) 4), ∅⟩

/-- The condition `a & 4` is `4` where the arm that it selects assigns `1`. -/
theorem not_foldBooleanDiamonds_keeps_mask :
    ¬∀ (W : World (Val → Val) (List Val)) (outcome : Val → Val → FloatOutcome),
      W.ComparesFloats outcome → ∀ (decl : String → Val → Val) (usedReturn demorgan : Bool)
        (varWidth : String → Option ℕ) (st : ShortCircuit) (s : Store (Val → Val)),
        (machine (W.seen decl) usedReturn (foldBooleanDiamonds demorgan varWidth st)).Keeps
          (machine (W.seen decl) usedReturn st)
          (fun p ↦ IsArm (folded demorgan varWidth st) p.1) (0, s) := by
  intro h
  have hkeeps := h _ perverse (floatWorld_comparesFloats perverse) (fun _ v ↦ v) true true
    (fun _ ↦ none) maskTest fours
  have hbefore : (machine ((floatWorld perverse).seen fun _ v ↦ v) true maskTest).Returns
      (0, fours) [] (some (some 1)) := ⟨3, Prod.ext rfl rfl⟩
  have hafter : (machine ((floatWorld perverse).seen fun _ v ↦ v) true
      (foldBooleanDiamonds true (fun _ ↦ none) maskTest)).Returns (0, fours) []
      (some (some 4)) := ⟨2, rfl⟩
  have hresult := (Machine.Returns.unique ((hkeeps.sameBehaviour.returns_iff _ _).1 hafter)
    hbefore).2
  exact absurd hresult (by decide)

end BoolDiamonds

end Ldu
