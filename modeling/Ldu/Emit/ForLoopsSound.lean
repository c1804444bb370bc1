import Ldu.Cfg.NaturalLoops
import Ldu.Emit.ForLoops
import Ldu.Vars.Agree
import Ldu.Vars.Inline

/-!
# Moving the statements of a for loop

Between its old and its new place a moved assignment is outstanding: the graph has executed it, the
program with the `for` has not. The value the induction variable had before is a history variable of
the graph's run (`ForLoop.track`); the program with the `for` still has it (`Behind`). When nothing
reads the variable meanwhile, and the statement in the header gives the variable the value it holds
in the graph (`ForLoop.Safe`), every statement and every terminator reads the same values, and the
behaviour is the same (`forLoop_sound`). For the increment the second follows from the shape of the
loop.
-/

namespace Ldu

/-! ### What is detected -/

section Detect

variable {g : List Block} {idom : List (Option ℕ)} {lp : Loop} {F : ForLoop}

theorem of_isVarNamed {e : Expr} {n : String} (h : e.isVarNamed n = true) :
    ∃ ty, e = .var ty n := by
  cases e with
  | var ty x =>
    simp only [Expr.isVarNamed, beq_iff_eq] at h
    exact ⟨ty, by rw [h]⟩
  | _ => cases h

theorem of_intConst {e : Expr} {c : BitVec 64} (h : intConst e = some c) :
    ∃ ty, e = .const ty c := by
  cases e with
  | const ty v =>
    unfold intConst at h
    dsimp only at h
    split at h
    · cases h
    · exact ⟨ty, by rw [Option.some.inj h]⟩
  | _ => cases h

theorem of_varConst {nm : String} {op : BinOp} {a b : Expr} {inc : Incr}
    (h : (if a.isVarNamed nm then (intConst b).map (⟨nm, op, ·⟩ : _ → Incr) else none) =
      some inc) :
    inc.iv = nm ∧ inc.op = op ∧ ∃ tv tc c, a = .var tv nm ∧ b = .const tc c := by
  split at h
  · next ha =>
    obtain ⟨c, hc, rfl⟩ := Option.map_eq_some_iff.1 h
    obtain ⟨tv, rfl⟩ := of_isVarNamed ha
    obtain ⟨tc, rfl⟩ := of_intConst hc
    exact ⟨rfl, rfl, tv, tc, c, rfl, rfl⟩
  · cases h

/-- The shape of an increment. -/
theorem of_matchIncr {st : Stmt} {inc : Incr} (h : matchIncr st = some inc) :
    ∃ ty ty' a b, st = .assign (.var ty inc.iv) (.binary ty' inc.op a b) ∧
      (inc.op = .add ∨ inc.op = .sub) ∧ ∃ tv tc c,
        (a = .var tv inc.iv ∧ b = .const tc c) ∨ (a = .const tc c ∧ b = .var tv inc.iv) := by
  unfold matchIncr at h
  split at h
  · next ty nm ty' op a b =>
    dsimp only at h
    split at h
    · rcases (Option.orElse_eq_some _ _ _).1 h with h | ⟨-, h⟩
      · obtain ⟨rfl, hop, tv, tc, c, ha, hb⟩ := of_varConst h
        exact ⟨ty, ty', a, b, by rw [hop], .inl hop, tv, tc, c, .inl ⟨ha, hb⟩⟩
      · obtain ⟨rfl, hop, tv, tc, c, hb, ha⟩ := of_varConst h
        exact ⟨ty, ty', a, b, by rw [hop], .inl hop, tv, tc, c, .inr ⟨ha, hb⟩⟩
    · obtain ⟨rfl, hop, tv, tc, c, ha, hb⟩ := of_varConst h
      exact ⟨ty, ty', a, b, by rw [hop], .inr hop, tv, tc, c, .inl ⟨ha, hb⟩⟩
    · cases h
  · cases h

/-- The increment stands between comments. -/
theorem of_soleIncr {sts : List Stmt} {i : ℕ} {inc : Incr} (h : soleIncr sts = some (i, inc)) :
    ∃ pre st post, sts = pre ++ st :: post ∧ pre.length = i ∧ matchIncr st = some inc ∧
      ∀ c ∈ pre ++ post, c.isComment = true := by
  unfold soleIncr at h
  split at h
  · next st j hsole =>
    obtain ⟨inc', hinc, heq⟩ := Option.map_eq_some_iff.1 h
    obtain ⟨rfl, rfl⟩ := Prod.mk.inj heq
    have hmem : (st, j) ∈ sts.zipIdx.filter fun p ↦ !p.1.isComment := by rw [hsole]; simp
    have hj : sts[j]? = some st := List.mk_mem_zipIdx_iff_getElem?.1 (List.mem_filter.1 hmem).1
    obtain ⟨hlt, -⟩ := List.getElem?_eq_some_iff.1 hj
    refine ⟨_, st, _, eq_take_append_cons hj, by simp [hlt.le], hinc, fun c hc ↦ ?_⟩
    by_contra hcomment
    -- A statement elsewhere would be found too.
    have hother : ∃ l, l ≠ j ∧ sts[l]? = some c := by
      rcases List.mem_append.1 hc with hc | hc
      · obtain ⟨l, hl⟩ := List.mem_iff_getElem?.1 hc
        obtain ⟨hlj, -⟩ := List.getElem?_eq_some_iff.1 hl
        rw [List.length_take] at hlj
        exact ⟨l, by omega, by rwa [List.getElem?_take_of_lt (by omega)] at hl⟩
      · obtain ⟨l, hl⟩ := List.mem_iff_getElem?.1 hc
        exact ⟨j + 1 + l, by omega, by rwa [List.getElem?_drop] at hl⟩
    obtain ⟨l, hne, hl⟩ := hother
    have hmem : (c, l) ∈ sts.zipIdx.filter fun p ↦ !p.1.isComment :=
      List.mem_filter.2 ⟨List.mk_mem_zipIdx_iff_getElem?.2 hl, by simpa using hcomment⟩
    rw [hsole, List.mem_singleton] at hmem
    exact hne (Prod.mk.inj hmem).2
  · cases h

theorem of_initSite {iv : String} {j i : ℕ} (h : initSite g idom lp iv = some (j, i)) :
    j ∉ lp.body ∧ ∃ st, stmtAt g j i = some st ∧ isInit iv st = true := by
  unfold initSite at h
  split at h
  · next pre _ =>
    split at h
    · cases h
    · next hpre =>
      split at h
      · next b hb =>
        obtain ⟨⟨st, l⟩, hfind, heq⟩ := Option.map_eq_some_iff.1 h
        obtain ⟨rfl, rfl⟩ := Prod.mk.inj heq
        have hmem := List.mem_reverse.1 (List.mem_of_find?_eq_some hfind)
        have hinit := List.find?_some hfind
        refine ⟨fun hj ↦ hpre (.inr hj), st, ?_, hinit⟩
        rw [stmtAt, hb]
        exact List.mk_mem_zipIdx_iff_getElem?.1 hmem
      · cases h
  · cases h

/-- A loop that becomes a `for`: its latch is the increment, the initialisation is outside. -/
structure ForLoop.Detected (g : List Block) (F : ForLoop) : Prop where
  latch_mem : F.latch ∈ F.loop.body
  latch_only : ∀ l ∈ F.loop.latches, l = F.latch
  incr : ∃ b, g[F.latch]? = some b ∧ soleIncr b.stmts = some (F.incIdx, F.incr)
  init : ∀ j i, F.init = some (j, i) →
    j ∉ F.loop.body ∧ ∃ st, stmtAt g j i = some st ∧ isInit F.iv st = true

theorem of_uniqueLatch {l : ℕ} (hlp : lp ∈ findLoops g idom) (h : uniqueLatch g lp = some l) :
    l ∈ lp.latches ∧ ∀ l' ∈ lp.latches, l' = l := by
  unfold uniqueLatch at h
  split at h
  · next l₀ hsole =>
    split at h
    · cases h
    · obtain rfl := Option.some.inj h
      have hmem : ∀ l', l' ∈ lp.latches ↔ l' ∈ [l₀] := by
        intro l'
        rw [← hsole, List.mem_filter, List.mem_range, decide_eq_true_iff]
        refine ⟨fun hl' ↦ ⟨?_, hl'⟩, And.right⟩
        rw [(mem_findLoops hlp).2.2, List.mem_toFinset, latchesOf, List.mem_filter] at hl'
        exact List.mem_range.1 hl'.1
      exact ⟨(hmem _).2 (by simp), fun l' hl' ↦ List.mem_singleton.1 ((hmem l').1 hl')⟩
  · cases h

theorem detected_of_mem (h : F ∈ detectForLoops g idom) :
    F.loop ∈ findLoops g idom ∧ F.Detected g := by
  obtain ⟨lp, hlp, h⟩ := List.mem_filterMap.1 h
  unfold detectForLoop at h
  simp only [Option.bind_eq_bind, Option.bind_eq_some_iff, Prod.exists,
    Option.filter_eq_some_iff] at h
  obtain ⟨b, -, stay, -, l, ⟨hl, -⟩, latch, hlatch, i, incr, hincr, h⟩ := h
  split at h
  · obtain rfl := Option.some.inj h
    obtain ⟨hmem, honly⟩ := of_uniqueLatch hlp hl
    exact ⟨hlp, latches_subset_body hlp hmem, honly, ⟨latch, hlatch, hincr⟩, fun j i ↦ of_initSite⟩
  · cases h

end Detect

/-! ### What is outstanding -/

section Track

variable {M E : Type} (W : World M E) (decl : String → Val → Val) (F : ForLoop)

/-- A moved assignment: to the induction variable, of a value that no call computes. -/
def ForLoop.IsMoved (st : Stmt) : Prop :=
  ∃ rhs, st.defOf F.iv = some rhs ∧ rhs.hasCall = false

/-- The value the variable had before the outstanding assignments, from before to after the
statement at position `i` of block `j`; `v` is the value it has before the statement. -/
def ForLoop.pend (j i : ℕ) (st : Stmt) (v : Val) (k : Option Val) : Option Val :=
  if F.moves j i then some (k.getD v) else if st.assigns F.iv then none else k

/-- The same for the statements of block `j` from the `i`-th on. -/
def ForLoop.track (j : ℕ) : ℕ → List Stmt → Store M → Option Val → Option Val
  | _, [], _, k => k
  | i, st :: sts, s, k =>
    track j (i + 1) sts (W.execStmt decl st s).2.2 (F.pend j i st (s.vars F.iv) k)

/-- Nothing in block `b`, at position `j`, reads the variable while an assignment is outstanding;
`out` says whether one is before the `i`-th statement. -/
def ForLoop.unread (b : Block) (j : ℕ) : ℕ → List Stmt → Bool → Bool
  | _, [], out => !out || !b.termReads F.iv
  | i, st :: sts, out =>
    if F.moves j i then unread b j (i + 1) sts true
    else (!out || !st.reads F.iv) && unread b j (i + 1) sts (out && !st.assigns F.iv)

/-- The statements of block `j` from the `i`-th on, in the graph and in the program with the `for`:
those that stay read the same values in both, and then `Q` holds. -/
def ForLoop.Kept (Q : Store M → Store M → Prop) (j : ℕ) : ℕ → List Stmt → Store M → Store M → Prop
  | _, [], s, t => Q s t
  | i, st :: sts, s, t =>
    if F.moves j i then Kept Q j (i + 1) sts (W.execStmt decl st s).2.2 t
    else (∀ n, st.reads n = true → W.read t n = W.read s n) ∧
      Kept Q j (i + 1) sts (W.execStmt decl st s).2.2 (W.execStmt decl st t).2.2

/-- The stores of the graph and of the program with the `for`: they differ in the variable, which
has the value before the outstanding assignments. -/
structure Behind (k : Option Val) (s t : Store M) : Prop where
  agree : AgreeOn W (· ≠ F.iv) s t
  value : t.vars F.iv = k.getD (s.vars F.iv)

variable {W decl F} {k : Option Val} {s t : Store M}

theorem Behind.agreeOn (h : Behind W F k s t) : AgreeOn W (fun n ↦ n ≠ F.iv ∨ k = none) s t := by
  refine ⟨h.agree.1, fun n hn ↦ ?_⟩
  by_cases hiv : n = F.iv
  · subst hiv
    rcases hn with hal | hne | rfl
    · exact h.agree.2 _ (.inl hal)
    · exact absurd rfl hne
    · exact h.value
  · exact h.agree.2 n (.inr hiv)

/-- Without outstanding assignments the stores agree. -/
theorem behind_none (h : ∀ n, t.vars n = s.vars n) (hmem : t.mem = s.mem) : Behind W F none s t :=
  ⟨⟨hmem, fun n _ ↦ h n⟩, h F.iv⟩

/-- What is read has the same value. -/
theorem Behind.read (h : Behind W F k s t) {n : String} (hn : n ≠ F.iv ∨ k = none) :
    W.read t n = W.read s n := by
  unfold World.read
  rw [h.agree.1, h.agreeOn.2 n (.inr hn)]

theorem ForLoop.IsMoved.exec {st : Stmt} (hst : F.IsMoved st) (decl : String → Val → Val)
    (halias : W.aliased F.iv = false) (s : Store M) :
    ∃ v, W.execStmt decl st s = ([], (), W.write s F.iv v) ∧
      W.write s F.iv v = ⟨Function.update s.vars F.iv v, s.mem⟩ := by
  obtain ⟨rhs, hdef, hcall⟩ := hst
  obtain ⟨ty, rfl⟩ := defOf_eq_some hdef
  refine ⟨decl F.iv (W.eval rhs s).2.1, ?_, by rw [World.write, halias]; rfl⟩
  rw [W.execStmt_var, (W.silent_eval (Expr.hasImpureCall_of_hasCall hcall) s).eq]

/-- The graph executes an assignment that moves. -/
theorem Behind.moved {st : Stmt} (h : Behind W F k s t) (decl : String → Val → Val)
    (hst : F.IsMoved st) (halias : W.aliased F.iv = false) :
    Behind W F (some (k.getD (s.vars F.iv))) (W.execStmt decl st s).2.2 t := by
  obtain ⟨v, hexec, hwrite⟩ := hst.exec decl halias s
  rw [hexec]
  refine ⟨h.agree.write_left halias fun hne ↦ hne rfl, h.value⟩

/-- Both execute a statement that stays. -/
theorem Behind.exec {st : Stmt} (h : Behind W F k s t) (decl : String → Val → Val)
    (hread : k = none ∨ st.reads F.iv = false) :
    Lockstep (Behind W F (if st.assigns F.iv then none else k)) ((W.interp decl).exec st s)
      ((W.interp decl).exec st t) := by
  have hagree : AgreeOn W (fun n ↦ st.reads n = true ∨
      (st.assigns n = false ∧ (n ≠ F.iv ∨ k = none ∨ st.assigns F.iv = true))) s t := by
    refine h.agreeOn.mono fun n hn ↦ ?_
    by_cases hiv : n = F.iv
    · subst hiv
      right
      rcases hn with hn | ⟨hassign, hne | hk | hassign'⟩
      · exact hread.resolve_right (by rw [hn]; decide)
      · exact absurd rfl hne
      · exact hk
      · rw [hassign] at hassign'
        cases hassign'
    · exact .inl hiv
  refine hagree.exec.mono_of_both fun s' t' hs ht hst ↦
    ⟨hst.mono fun n hn ↦ .inl hn, ?_⟩
  obtain rfl := Sum.inl.inj hs
  obtain rfl := Sum.inl.inj ht
  split
  · next hassign => exact hst.2 F.iv (.inr (.inr (.inr hassign)))
  · next hassign =>
    have hdef : st.defOf F.iv = none := by simpa [Stmt.assigns] using hassign
    have hs : (W.execStmt decl st s).2.2.vars F.iv = s.vars F.iv := execStmt_vars_of_ne W hdef s
    have ht : (W.execStmt decl st t).2.2.vars F.iv = t.vars F.iv := execStmt_vars_of_ne W hdef t
    exact ht.trans (h.value.trans (congrArg k.getD hs.symm))

/-- The statements of a block. -/
theorem Behind.stmts (decl : String → Val → Val) (halias : W.aliased F.iv = false) {b : Block}
    {j i : ℕ} {sts : List Stmt}
    (hmoves : ∀ l st, F.moves j (i + l) = true → sts[l]? = some st → F.IsMoved st)
    (h : Behind W F k s t) (hunread : F.unread b j i sts k.isSome = true) :
    Lockstep (Behind W F (F.track W decl j i sts s k)) ((W.interp decl).execAll sts s)
        ((W.interp decl).execAll (F.kept j i sts) t) ∧
      F.Kept W decl (fun s' t' ↦ ∀ n, b.termReads n = true → W.read t' n = W.read s' n)
        j i sts s t := by
  induction sts generalizing i k s t with
  | nil =>
    refine ⟨lockstep_inl h, fun n hn ↦ h.read ?_⟩
    by_cases hiv : n = F.iv
    · subst hiv
      rw [ForLoop.unread, hn] at hunread
      exact .inr (by simpa using hunread)
    · exact .inl hiv
  | cons st sts ih =>
    have hmoves' : ∀ l st', F.moves j (i + 1 + l) = true → sts[l]? = some st' → F.IsMoved st' :=
      fun l st' hl hst ↦ hmoves (l + 1) st' (by rwa [Nat.add_comm l, ← Nat.add_assoc]) (by simpa)
    rw [ForLoop.unread] at hunread
    rw [ForLoop.kept, ForLoop.Kept, ForLoop.track, ForLoop.pend]
    by_cases hmove : F.moves j i = true
    · rw [if_pos hmove] at hunread
      rw [if_pos hmove, if_pos hmove, if_pos hmove]
      have hst : F.IsMoved st := hmoves 0 st hmove rfl
      obtain ⟨hlock, hkept⟩ := ih hmoves' (h.moved decl hst halias) hunread
      refine ⟨?_, hkept⟩
      obtain ⟨v, hexec, -⟩ := hst.exec decl halias s
      rw [hexec] at hlock ⊢
      have hleft : (W.interp decl).exec st s = ([], .inl (W.write s F.iv v)) := by
        unfold World.interp
        dsimp only
        rw [hexec]
        rfl
      rw [Interp.execAll, hleft]
      exact hlock
    · rw [if_neg hmove, Bool.and_eq_true] at hunread
      rw [if_neg hmove, if_neg hmove, if_neg hmove]
      have hread : k = none ∨ st.reads F.iv = false := by
        cases k with
        | none => exact .inl rfl
        | some v => exact .inr (by simpa using hunread.1)
      have hexec := h.exec decl hread
      have hnext : Behind W F (if st.assigns F.iv then none else k) (W.execStmt decl st s).2.2
          (W.execStmt decl st t).2.2 := by
        obtain ⟨-, hlift⟩ := hexec
        cases hlift with
        | inl h => exact h
      have hunread' : F.unread b j (i + 1) sts (if st.assigns F.iv then none else k).isSome =
          true := by
        cases hassign : st.assigns F.iv <;> simpa [hassign] using hunread.2
      have hkept := (ih hmoves' hnext hunread').2
      refine ⟨lockstep_cons hexec fun s' t' hs' hst' ↦ ?_, fun n hn ↦ h.read ?_, hkept⟩
      · obtain rfl := Sum.inl.inj hs'
        exact (ih hmoves' hst' hunread').1
      · by_cases hiv : n = F.iv
        · subst hiv
          exact .inr (hread.resolve_right (by rw [hn]; decide))
        · exact .inl hiv

/-- What is outstanding at the end of the block is not read by the terminator. -/
theorem ForLoop.track_of_unread {b : Block} {j i : ℕ} {sts : List Stmt}
    (hunread : F.unread b j i sts k.isSome = true) (s : Store M) :
    F.track W decl j i sts s k = none ∨ b.termReads F.iv = false := by
  induction sts generalizing i k s with
  | nil =>
    cases k with
    | none => exact .inl rfl
    | some v => exact .inr (by simpa [ForLoop.unread] using hunread)
  | cons st sts ih =>
    refine ih ?_ _
    unfold ForLoop.unread at hunread
    unfold ForLoop.pend
    split
    · next hmove => simpa [hmove] using hunread
    · next hmove =>
      rw [if_neg hmove, Bool.and_eq_true] at hunread
      cases hassign : st.assigns F.iv <;> simpa [hassign] using hunread.2

theorem transfer_vars {usedReturn : Bool} {b : Block} {s' : Store M} {j : ℕ}
    (h : (transfer (W.interp decl) usedReturn b s).2 = .inl (j, s')) : s'.vars = s.vars := by
  have hgoto : ∀ {t : Option ℕ} {s₁ : Store M},
      (goTo (W.interp decl) usedReturn b t s₁).2 = .inl (j, s') → s' = s₁ := by
    intro t s₁ h
    cases t with
    | none => cases h
    | some t => exact (Prod.mk.inj (Sum.inl.inj h)).2.symm
  unfold transfer at h
  split at h
  · cases h
  · rw [hgoto h]
    exact W.eval_vars _ _
  · rw [hgoto h]
    exact W.eval_vars _ _
  · rw [hgoto h]
  · rw [hgoto h]

/-- The terminator, after the statements. -/
theorem Behind.transfer {usedReturn : Bool} {b b' : Block} (h : Behind W F k s t)
    (hread : k = none ∨ b.termReads F.iv = false) (hb' : b' = { b with stmts := b'.stmts }) :
    Lockstep (SameBlock (Behind W F k)) (Ldu.transfer (W.interp decl) usedReturn b s)
      (Ldu.transfer (W.interp decl) usedReturn b' t) := by
  have hterm : ∀ n, b.termReads n = true → n ≠ F.iv ∨ k = none := by
    intro n hn
    by_cases hiv : n = F.iv
    · subst hiv
      exact .inr (hread.resolve_right (by rw [hn]; decide))
    · exact .inl hiv
  have hret : b'.retText usedReturn = b.retText usedReturn := by
    rw [hb']
    rfl
  refine (AgreeOn.transfer hterm h.agreeOn (by rw [hb']; exact ⟨rfl, rfl, rfl, rfl, rfl, rfl⟩)
    (by rw [hb']) (by rw [hb']) hret).mono_of_both ?_
  rintro ⟨j, s'⟩ ⟨_, t'⟩ hs ht ⟨rfl, hst⟩
  refine ⟨rfl, hst.mono fun n hn ↦ .inl hn, ?_⟩
  dsimp only at hs ht ⊢
  rw [transfer_vars hs, transfer_vars ht, h.value]

end Track

/-! ### The header of the `for` -/

section Head

variable {M E : Type} (W : World M E) (decl : String → Val → Val) (F : ForLoop) (g : List Block)

/-- The header of the `for`, run where control comes from block `j` with the value the variable had
before what is outstanding, gives the variable the value it holds. -/
def ForLoop.Due (j : ℕ) (k : Option Val) (s : Store M) : Prop :=
  (W.execStmts decl (F.head g j)
    ⟨Function.update s.vars F.iv (k.getD (s.vars F.iv)), s.mem⟩).vars F.iv = s.vars F.iv

variable {W decl F g} {k : Option Val} {s t : Store M}

theorem stmtAt_of_append {j : ℕ} {b : Block} {pre post : List Stmt} {st : Stmt}
    (hb : g[j]? = some b) (hstmts : b.stmts = pre ++ st :: post) :
    stmtAt g j pre.length = some st := by
  rw [stmtAt, hb, Option.bind_some, hstmts, List.getElem?_append_right (Nat.le_refl _)]
  simp

theorem ForLoop.Detected.isMoved (hF : F.Detected g) {j i : ℕ} {st : Stmt}
    (hmove : F.moves j i = true) (hst : stmtAt g j i = some st) : F.IsMoved st := by
  unfold ForLoop.moves at hmove
  simp only [Bool.or_eq_true, Bool.and_eq_true, beq_iff_eq] at hmove
  rcases hmove with ⟨rfl, rfl⟩ | hinit
  · obtain ⟨b, hb, hsole⟩ := hF.incr
    obtain ⟨pre, st', post, hstmts, hlen, hmatch, -⟩ := of_soleIncr hsole
    have hat := stmtAt_of_append hb hstmts
    rw [hlen, hst] at hat
    obtain rfl := Option.some.inj hat
    obtain ⟨ty, ty', a, c, rfl, -, tv, tc, v, ⟨rfl, rfl⟩ | ⟨rfl, rfl⟩⟩ := of_matchIncr hmatch
    · exact ⟨_, if_pos rfl, rfl⟩
    · exact ⟨_, if_pos rfl, rfl⟩
  · obtain ⟨-, st', hst', hisInit⟩ := hF.init j i hinit
    obtain rfl := Option.some.inj (hst.symm.trans hst')
    unfold isInit at hisInit
    cases hdef : st.defOf F.iv with
    | none => simp [hdef] at hisInit
    | some rhs => exact ⟨rhs, hdef, by simpa [hdef] using hisInit⟩

theorem ForLoop.Detected.isMoved_head (hF : F.Detected g) {j : ℕ} {st : Stmt}
    (hst : st ∈ F.head g j) : F.IsMoved st := by
  rw [ForLoop.head, Option.mem_toList, Option.bind_eq_some_iff] at hst
  obtain ⟨⟨l, i⟩, hsite, hst⟩ := hst
  refine hF.isMoved (j := l) (i := i) ?_ hst
  split at hsite
  · obtain ⟨rfl, rfl⟩ := Prod.mk.inj (Option.some.inj hsite)
    simp [ForLoop.moves]
  · simp [ForLoop.moves, hsite]

theorem Behind.eq_update (h : Behind W F k s t) :
    t = ⟨Function.update s.vars F.iv (k.getD (s.vars F.iv)), s.mem⟩ := by
  obtain ⟨u, m⟩ := t
  obtain ⟨⟨rfl, hagree⟩, hvalue⟩ := h
  congr 1
  funext n
  by_cases hn : n = F.iv
  · subst hn
    rw [Function.update_self]
    exact hvalue
  · rw [Function.update_of_ne hn]
    exact hagree n (.inr hn)

/-- Running the header of the `for` catches up. -/
theorem Behind.head (h : Behind W F k s t) (hF : F.Detected g) (halias : W.aliased F.iv = false)
    {j : ℕ} (hdue : F.Due W decl g j k s) :
    ∃ t', (W.interp decl).execAll (F.head g j) t = ([], .inl t') ∧ Behind W F none s t' := by
  rw [ForLoop.Due, ← h.eq_update] at hdue
  have hmoved : ∀ st ∈ F.head g j, F.IsMoved st := fun st ↦ hF.isMoved_head
  have hshape : F.head g j = [] ∨ ∃ st, F.head g j = [st] := by
    unfold ForLoop.head
    generalize (if j ∈ F.loop.body then some (F.latch, F.incIdx) else F.init).bind
      (fun p ↦ stmtAt g p.1 p.2) = o
    cases o <;> simp
  rcases hshape with hnil | ⟨st, hsingle⟩
  · rw [hnil] at hdue ⊢
    exact ⟨t, rfl, h.agree, hdue⟩
  · rw [hsingle] at hdue hmoved ⊢
    obtain ⟨v, hexec, hwrite⟩ := (hmoved st (by simp)).exec decl halias t
    refine ⟨(W.execStmt decl st t).2.2, ?_, ?_, hdue⟩
    · have hstep : (W.interp decl).exec st t = ([], .inl (W.execStmt decl st t).2.2) := by
        unfold World.interp
        dsimp only
        rw [hexec]
        rfl
      rw [Interp.execAll, hstep]
      rfl
    · rw [hexec, hwrite]
      refine ⟨h.agree.1, fun n hn ↦ ?_⟩
      have hne : n ≠ F.iv := by
        rintro rfl
        rcases hn with hn | hn
        · rw [halias] at hn
          cases hn
        · exact hn rfl
      exact (Function.update_of_ne hne _ _).trans (h.agree.2 n hn)

/-! ### The increment -/

/-- What an increment computes depends on its variable only. -/
theorem incr_vars {st : Stmt} (hmatch : matchIncr st = some F.incr)
    (halias : W.aliased F.iv = false) (h : t.vars F.iv = s.vars F.iv) :
    (W.execStmt decl st t).2.2.vars F.iv = (W.execStmt decl st s).2.2.vars F.iv := by
  obtain ⟨ty, ty', a, b, rfl, hop, tv, tc, c, hab⟩ := of_matchIncr hmatch
  have hdef : (Stmt.assign (.var ty F.incr.iv) (.binary ty' F.incr.op a b)).defOf F.iv =
      some (.binary ty' F.incr.op a b) := by simp [Stmt.defOf, ForLoop.iv]
  have hread : ∀ s : Store M, W.read s F.incr.iv = s.vars F.iv := by
    intro s
    have halias' : W.aliased F.incr.iv = false := halias
    rw [World.read, halias']
    rfl
  have hshort : ∀ v, shortCircuit F.incr.op v = none := by
    intro v
    rcases hop with hop | hop <;> rw [hop] <;> rfl
  rw [execStmt_vars_of_eq W hdef halias, execStmt_vars_of_eq W hdef halias]
  rcases hab with ⟨rfl, rfl⟩ | ⟨rfl, rfl⟩
  · simp [World.eval, Effect.bind_apply, hread, hshort, h]
  · simp only [World.eval, pure_bind, hshort, hread]
    exact congrArg (fun v ↦ decl F.iv (W.binop ty' tc tv F.incr.op (tc.ext c) v)) h

theorem execStmts_comments {sts : List Stmt} (h : ∀ c ∈ sts, c.isComment = true) (s : Store M) :
    W.execStmts decl sts s = s := by
  induction sts with
  | nil => rfl
  | cons c sts ih =>
    have hc := h c (by simp)
    cases c with
    | comment => exact ih fun c hc ↦ h c (by simp [hc])
    | _ => cases hc

theorem track_comments {j i : ℕ} {sts : List Stmt} (h : ∀ c ∈ sts, c.isComment = true)
    (hmoves : ∀ l, i ≤ l → l < i + sts.length → F.moves j l = false) (s : Store M) :
    F.track W decl j i sts s k = k := by
  induction sts generalizing i k s with
  | nil => rfl
  | cons c sts ih =>
    have hc := h c (by simp)
    cases c with
    | comment label =>
      rw [ForLoop.track, ForLoop.pend, hmoves i (Nat.le_refl _) (by simp)]
      refine ih (fun c hc ↦ h c (by simp [hc])) (fun l hl hlt ↦ hmoves l (by omega) ?_) _
      rw [List.length_cons]
      omega
    | _ => cases hc

theorem track_append {j i : ℕ} {sts sts' : List Stmt} (s : Store M) :
    F.track W decl j i (sts ++ sts') s k =
      F.track W decl j (i + sts.length) sts' (W.execStmts decl sts s)
        (F.track W decl j i sts s k) := by
  induction sts generalizing i k s with
  | nil => rfl
  | cons st sts ih =>
    rw [List.cons_append, ForLoop.track, ih, List.length_cons, Nat.add_right_comm i,
      Nat.add_assoc i]
    rfl

/-- After the latch the increment is due. -/
theorem ForLoop.Detected.due_latch (hF : F.Detected g) (halias : W.aliased F.iv = false)
    {b : Block} (hb : g[F.latch]? = some b) {s' : Store M}
    (hs' : s'.vars = (W.execStmts decl b.stmts s).vars) :
    F.Due W decl g F.latch (F.track W decl F.latch 0 b.stmts s none) s' := by
  obtain ⟨b', hb', hsole⟩ := hF.incr
  obtain rfl := Option.some.inj (hb.symm.trans hb')
  obtain ⟨pre, st, post, hstmts, hlen, hmatch, hcomments⟩ := of_soleIncr hsole
  have hat : stmtAt g F.latch F.incIdx = some st := hlen ▸ stmtAt_of_append hb hstmts
  have hmoves : ∀ l, F.moves F.latch l = true ↔ l = F.incIdx := by
    intro l
    have hinit : F.init ≠ some (F.latch, l) := fun h ↦ (hF.init _ _ h).1 hF.latch_mem
    simp [ForLoop.moves, hinit]
  have hpre : ∀ c ∈ pre, c.isComment = true := fun c hc ↦ hcomments c (by simp [hc])
  have hpost : ∀ c ∈ post, c.isComment = true := fun c hc ↦ hcomments c (by simp [hc])
  have htrack : F.track W decl F.latch 0 b.stmts s none = some (s.vars F.iv) := by
    rw [hstmts, track_append, track_comments hpre, execStmts_comments hpre, ForLoop.track,
      ForLoop.pend, if_pos ((hmoves _).2 (by omega)), track_comments hpost]
    · rfl
    · exact fun l hl _ ↦ Bool.eq_false_iff.2 fun h ↦ by rw [hmoves] at h; omega
    · exact fun l _ hl ↦ Bool.eq_false_iff.2 fun h ↦ by rw [hmoves] at h; omega
  have hend : W.execStmts decl b.stmts s = (W.execStmt decl st s).2.2 := by
    rw [hstmts, World.execStmts_append, execStmts_comments hpre]
    exact execStmts_comments hpost _
  have hhead : F.head g F.latch = [st] := by
    rw [ForLoop.head, if_pos hF.latch_mem, Option.bind_some, hat]
    rfl
  rw [ForLoop.Due, hhead, htrack, hs', hend]
  exact incr_vars hmatch halias (Function.update_self _ _ _)

end Head

/-! ### Runs -/

section Runs

variable {M E : Type} (W : World M E) (decl : String → Val → Val) (F : ForLoop) (g : List Block)
  (usedReturn : Bool) (merged : Finset ℕ)

/-- What is outstanding at the end of block `p.1`. -/
def ForLoop.trackBlock (p : ℕ × Store M) (k : Option Val) : Option Val :=
  F.track W decl p.1 0 (g[p.1]?.getD {}).stmts p.2 k

/-- What is outstanding after a step; at the header of the loop nothing is. -/
def ForLoop.after (p : ℕ × Store M) (k : Option Val) (q : ℕ × Store M) : Option Val :=
  if q.1 = F.loop.header then none else F.trackBlock W decl g p k

/-- While an assignment is outstanding nothing reads the variable and the latch is not entered, and
when the loop is entered from outside, the initialisation is due. -/
structure ForLoop.Safe (p : (ℕ × Store M) × Option Val) : Prop where
  unread : ∀ b, g[p.1.1]? = some b → F.unread b p.1.1 0 b.stmts p.2.isSome = true
  latch : p.1.1 = F.latch → p.2 = none
  entry : p.1.1 ∉ F.loop.body → ∀ s', ((graphMachine (W.interp decl) usedReturn merged g).step
    p.1).2 = .inl (F.loop.header, s') →
      F.Due W decl g p.1.1 (F.trackBlock W decl g p.1 p.2) s'

/-- Block `p.1` reads the same values in the graph and in the program with the `for`. -/
def ForLoop.KeptAt (p q : ℕ × Store M) : Prop :=
  q.1 = p.1 ∧ ∀ b, p.1 ∉ merged → g[p.1]? = some b →
    F.Kept W decl (fun s t ↦ ∀ n, b.termReads n = true → W.read t n = W.read s n) p.1 0 b.stmts
      p.2 q.2

/-- The graph and the program with the `for`, at the same block in reach. -/
structure ForLoop.Rel (p : (ℕ × Store M) × Option Val) (q : ℕ × Store M) : Prop where
  block : q.1 = p.1.1
  behind : Behind W F p.2 p.1.2 q.2
  reach : p.1.1 < g.length → (controlFlow g).Reach p.1.1

variable {W decl F g usedReturn merged}

theorem getElem?_strip (j : ℕ) :
    (F.strip g)[j]? = g[j]?.map fun b ↦ { b with stmts := F.kept j 0 b.stmts } := by
  rw [ForLoop.strip, List.getElem?_mapIdx]

theorem execAll_interp (sts : List Stmt) (s : Store M) :
    ((W.interp decl).execAll sts s).2 = .inl (W.execStmts decl sts s) := by
  induction sts generalizing s with
  | nil => rfl
  | cons st sts ih => exact ih (W.execStmt decl st s).2.2

/-- The store after a block has the variables of the store after its statements. -/
theorem runBlock_vars {b : Block} {s s' : Store M} {j : ℕ}
    (h : (runBlock (W.interp decl) usedReturn b s).2 = .inl (j, s')) :
    s'.vars = (W.execStmts decl b.stmts s).vars := by
  have hexec : ((W.interp decl).execAll b.stmts s).2 = _ := execAll_interp b.stmts s
  rw [runBlock_of_inl (Prod.ext rfl hexec)] at h
  exact transfer_vars h

/-- A block of the graph and the block without the statements that move. -/
theorem ForLoop.Rel.block_step {p : (ℕ × Store M) × Option Val} {q : ℕ × Store M} {b : Block}
    (h : F.Rel W g p q) (hF : F.Detected g) (halias : W.aliased F.iv = false)
    (hb : g[p.1.1]? = some b) (hsafe : F.Safe W decl g usedReturn merged p) :
    Lockstep (SameBlock (Behind W F (F.trackBlock W decl g p.1 p.2)))
        (runBlock (W.interp decl) usedReturn b p.1.2)
        (runBlock (W.interp decl) usedReturn { b with stmts := F.kept p.1.1 0 b.stmts } q.2) ∧
      F.Kept W decl (fun s t ↦ ∀ n, b.termReads n = true → W.read t n = W.read s n) p.1.1 0
        b.stmts p.1.2 q.2 := by
  have hunread := hsafe.unread b hb
  have htrack : F.trackBlock W decl g p.1 p.2 = F.track W decl p.1.1 0 b.stmts p.1.2 p.2 := by
    rw [ForLoop.trackBlock, hb]
    rfl
  obtain ⟨hlock, hkept⟩ := h.behind.stmts decl halias (fun l st hl hst ↦ by
    rw [Nat.zero_add] at hl
    exact hF.isMoved hl (by rw [stmtAt, hb]; exact hst)) hunread
  refine ⟨?_, hkept⟩
  rw [htrack]
  exact lockstep_runBlock hlock fun s' t' _ hst ↦
    hst.transfer (ForLoop.track_of_unread hunread p.1.2) rfl

/-- Whenever the header is entered, its part that is run is due. -/
theorem ForLoop.Rel.due {idom : List (Option ℕ)} {p : (ℕ × Store M) × Option Val} {q : ℕ × Store M}
    {b : Block} {s' : Store M} (h : F.Rel W g p q) (hidom : CorrectIdom (controlFlow g) idom)
    (hedges : EdgesListed g) (hpred : PredsListed g) (hlp : F.loop ∈ findLoops g idom)
    (hF : F.Detected g) (halias : W.aliased F.iv = false) (hb : g[p.1.1]? = some b)
    (hj : p.1.1 ∉ merged) (hsafe : F.Safe W decl g usedReturn merged p)
    (hrun : (runBlock (W.interp decl) usedReturn b p.1.2).2 = .inl (F.loop.header, s')) :
    F.Due W decl g p.1.1 (F.trackBlock W decl g p.1 p.2) s' := by
  by_cases hbody : p.1.1 ∈ F.loop.body
  · -- From inside the loop control comes from the latch.
    obtain ⟨hlt, -⟩ := List.getElem?_eq_some_iff.1 hb
    have hadj : (controlFlow g).Adj p.1.1 F.loop.header :=
      ⟨(mem_findLoops hlp).1, b, hb, mem_targets_of_runBlock (Prod.ext rfl hrun)⟩
    have hlatch : p.1.1 = F.latch := hF.latch_only _
      (mem_latches_of_adj hidom hedges hpred hlp hbody (h.reach hlt) hadj)
    rw [ForLoop.trackBlock, hsafe.latch hlatch, hb, Option.getD_some, hlatch]
    exact hF.due_latch halias (hlatch ▸ hb) (runBlock_vars hrun)
  · exact hsafe.entry hbody s' (by rw [graphMachine_step _ _ hj hb]; exact hrun)

/-- One step. -/
theorem ForLoop.Rel.step {idom : List (Option ℕ)} {p : (ℕ × Store M) × Option Val}
    {q : ℕ × Store M} (h : F.Rel W g p q) (hidom : CorrectIdom (controlFlow g) idom)
    (hedges : EdgesListed g) (hpred : PredsListed g) (hlp : F.loop ∈ findLoops g idom)
    (hF : F.Detected g) (halias : W.aliased F.iv = false)
    (hsafe : F.Safe W decl g usedReturn merged p) :
    Lockstep (F.Rel W g)
      (((graphMachine (W.interp decl) usedReturn merged g).withGhost (F.after W decl g)).step p)
      ((F.forMachine (W.interp decl) usedReturn merged g).step q) := by
  obtain ⟨⟨_, s⟩, k⟩ := p
  obtain ⟨j, t⟩ := q
  obtain rfl := h.block
  by_cases hj : j ∈ merged
  · simp only [Machine.withGhost, ForLoop.forMachine, graphMachine, hj, if_true]
    exact lockstep_inr
  cases hb : g[j]? with
  | none =>
    simp only [Machine.withGhost, ForLoop.forMachine, graphMachine, hj, if_false, hb,
      getElem?_strip, Option.map_none]
    exact lockstep_inr
  | some b =>
    have hb' : (F.strip g)[j]? = some { b with stmts := F.kept j 0 b.stmts } := by
      rw [getElem?_strip, hb]
      rfl
    have hblock := (h.block_step hF halias hb hsafe).1
    have hstep := graphMachine_step (W.interp decl) usedReturn hj hb s
    dsimp only [ForLoop.forMachine]
    rw [graphMachine_step (W.interp decl) usedReturn hj hb']
    rcases hrun : runBlock (W.interp decl) usedReturn b s with ⟨es, ⟨l, s'⟩ | r⟩
    · rw [hrun] at hstep hblock
      rw [Machine.withGhost_step hstep]
      obtain ⟨⟨l', t'⟩, ht', hl', hst⟩ := hblock.exists_inl
      obtain rfl : l' = l := hl'
      rw [ht']
      obtain ⟨hlt, -⟩ := List.getElem?_eq_some_iff.1 hb
      have hreach : l' < g.length → (controlFlow g).Reach l' := fun hl ↦
        (h.reach hlt).step ⟨hl, b, hb, mem_targets_of_runBlock hrun⟩
      dsimp only at hst ⊢
      split
      · next hheader =>
        subst hheader
        have hdue : F.Due W decl g j (F.trackBlock W decl g (j, s) k) s' :=
          h.due hidom hedges hpred hlp hF halias hb hj hsafe (by rw [hrun])
        obtain ⟨t'', ht'', hst'⟩ := hst.head hF halias hdue
        rw [ht'']
        dsimp only
        rw [List.append_nil]
        refine lockstep_inl ⟨rfl, ?_, hreach⟩
        rw [ForLoop.after, if_pos rfl]
        exact hst'
      · next hheader =>
        refine lockstep_inl ⟨rfl, ?_, hreach⟩
        rw [ForLoop.after, if_neg hheader]
        exact hst
    · rw [hrun] at hstep hblock
      rw [Machine.withGhost_halt hstep, hblock.eq_inr]
      exact lockstep_inr

end Runs

/-! ### Soundness -/

/-- **Moving the statements of a for loop is sound** when the address of the variable is not taken
and the run of the graph is safe: every statement that stays and every terminator reads the same
values, and calls, stores, decisions and the result are the same. -/
theorem forLoop_sound {M E : Type} (W : World M E) (decl : String → Val → Val) (g : List Block)
    (idom : List (Option ℕ)) (F : ForLoop) (usedReturn : Bool) (merged : Finset ℕ) (s : Store M)
    (halias : ∀ n, W.aliased n = true → addrTaken g n = true)
    (hidom : CorrectIdom (controlFlow g) idom) (hedges : EdgesListed g) (hpred : PredsListed g)
    (hF : F ∈ detectForLoops g idom) (haddr : addrTaken g F.iv = false)
    (hsafe : ((graphMachine (W.interp decl) usedReturn merged g).withGhost
      (F.after W decl g)).Always (F.Safe W decl g usedReturn merged) ((0, s), none)) :
    (graphMachine (W.interp decl) usedReturn merged g).Together
        (F.forMachine (W.interp decl) usedReturn merged g) (F.KeptAt W decl g merged) (0, s)
        (0, s) ∧
      (graphMachine (W.interp decl) usedReturn merged g).SameBehaviour (0, s)
        (F.forMachine (W.interp decl) usedReturn merged g) (0, s) := by
  obtain ⟨hlp, hdet⟩ := detected_of_mem hF
  have hiv : W.aliased F.iv = false := Bool.eq_false_iff.2 fun h ↦ by
    rw [halias _ h] at haddr
    cases haddr
  have hlock : ∀ p q, F.Rel W g p q → ((graphMachine (W.interp decl) usedReturn merged g).withGhost
      (F.after W decl g)).Always (F.Safe W decl g usedReturn merged) p →
      Lockstep (F.Rel W g) (((graphMachine (W.interp decl) usedReturn merged g).withGhost
        (F.after W decl g)).step p) ((F.forMachine (W.interp decl) usedReturn merged g).step q) :=
    fun p q hpq halways ↦ hpq.step hidom hedges hpred hlp hdet hiv halways.now
  have hstart : F.Rel W g ((0, s), none) (0, s) :=
    ⟨rfl, behind_none (fun _ ↦ rfl) rfl, fun _ ↦ Flowgraph.reach_entry⟩
  have htogether : ((graphMachine (W.interp decl) usedReturn merged g).withGhost
      (F.after W decl g)).Together (F.forMachine (W.interp decl) usedReturn merged g)
      (fun p q ↦ F.KeptAt W decl g merged p.1 q) ((0, s), none) (0, s) := by
    intro n p hp
    obtain ⟨q, hq, hpq, halways⟩ := together_of_lockstep hlock hstart hsafe n p hp
    exact ⟨q, hq, hpq.block, fun b _ hb ↦ (hpq.block_step hdet hiv hb halways.now).2⟩
  refine ⟨htogether.of_withGhost, ?_⟩
  refine (Machine.withGhost_sameBehaviour _ (F.after W decl g) (0, s) none).symm.trans ?_
  exact Machine.Simulation.sameBehaviour_of_always
    (fun p q hpq halways ↦ matches_of_lockstep (hlock p q hpq halways)) hstart hsafe

/-! ### A counted loop -/

/-- `v1 = 0; …; while (v1 < 1) v1 = v1 + 1; return;` -/
def countedLoop (rest : List Stmt) : List Block :=
  [{ stmts := .assign (.mkVar "v1") (.mkConst 0) :: rest, fall := some 1, succ := [1] },
    { ends := .jcc, cond := some (.mkBinary .lt (.mkVar "v1") (.mkConst 1) 4)
      taken := some 2, fall := some 3, succ := [2, 3], pred := [0, 2] },
    { stmts := [.assign (.mkVar "v1") (.mkBinary .add (.mkVar "v1") (.mkConst 1) 4)]
      ends := .jmp, taken := some 1, succ := [1], pred := [1] },
    { ends := .ret, pred := [1] }]

def countedLoopIdom : List (Option ℕ) :=
  [some 0, some 0, some 1, some 1]

/-- `for (v1 = 0; v1 < 1; v1++)` -/
def countedFor : ForLoop where
  loop := ⟨1, {1, 2}, {2}⟩
  latch := 2
  incIdx := 0
  incr := ⟨"v1", .add, 1⟩
  init := some (0, 0)

section CountedLoop

variable (rest : List Stmt)

theorem findLoops_countedLoop :
    findLoops (countedLoop rest) countedLoopIdom = [⟨1, {1, 2}, {2}⟩] := by
  have hlatches : (List.range (countedLoop rest).length).map
      (latchesOf (countedLoop rest) countedLoopIdom) = [[], [2], [], []] := rfl
  have hbody : growBody (countedLoop rest) 1 ∅ 2 = {1, 2} := by
    rw [Finset.pair_comm]
    simp [growBody, Worklist.explore, Worklist.pushAll, Worklist.push, predOf, countedLoop]
  have hrange : List.range (countedLoop rest).length = [0, 1, 2, 3] := rfl
  simp only [hrange, List.map_cons, List.map_nil, List.cons.injEq, and_true] at hlatches
  obtain ⟨h0, h1, h2, h3⟩ := hlatches
  simp [findLoops, hrange, h0, h1, h2, h3, hbody]

theorem countedFor_mem (h : detectForLoop (countedLoop rest) countedLoopIdom ⟨1, {1, 2}, {2}⟩ =
    some countedFor) : countedFor ∈ detectForLoops (countedLoop rest) countedLoopIdom := by
  rw [detectForLoops, findLoops_countedLoop]
  exact List.mem_filterMap.2 ⟨_, List.mem_singleton_self _, h⟩

theorem countedLoop_adj_iff (i j : ℕ) : (controlFlow (countedLoop rest)).Adj i j ↔
    i = 0 ∧ j = 1 ∨ i = 1 ∧ (j = 2 ∨ j = 3) ∨ i = 2 ∧ j = 1 := by
  constructor
  · rintro ⟨-, b, hb, hj⟩
    rcases i with _ | _ | _ | _ | i
    all_goals
      cases hb
    all_goals
      grind [Block.targets]
  · rintro (⟨rfl, rfl⟩ | ⟨rfl, rfl | rfl⟩ | ⟨rfl, rfl⟩)
    all_goals
      exact ⟨by simp [countedLoop], _, rfl, by simp [Block.targets]⟩

theorem countedLoop_edges : EdgesListed (countedLoop rest) := by
  intro i b hb j hj _
  rcases i with _ | _ | _ | _ | i
  all_goals
    cases hb
  all_goals
    grind [Block.targets]

theorem countedLoop_preds : PredsListed (countedLoop rest) := by
  intro p j hp
  rw [countedLoop_adj_iff]
  rcases j with _ | _ | _ | _ | j
  all_goals
    simp only [predOf, countedLoop, List.getElem?_cons_zero, List.getElem?_cons_succ,
      List.getElem?_nil, List.mem_cons, List.not_mem_nil, or_false] at hp
  all_goals
    omega

theorem countedLoop_idom : CorrectIdom (controlFlow (countedLoop rest)) countedLoopIdom := by
  have h01 : (controlFlow (countedLoop rest)).Adj 0 1 := (countedLoop_adj_iff rest 0 1).2 (by omega)
  have h12 : (controlFlow (countedLoop rest)).Adj 1 2 := (countedLoop_adj_iff rest 1 2).2 (by omega)
  have h13 : (controlFlow (countedLoop rest)).Adj 1 3 := (countedLoop_adj_iff rest 1 3).2 (by omega)
  have hpred : ∀ u v, v = 2 ∨ v = 3 → (controlFlow (countedLoop rest)).Adj u v → u = 1 := by
    intro u v hv hadj
    rw [countedLoop_adj_iff] at hadj
    omega
  have hreach : (controlFlow (countedLoop rest)).Reach 1 := Flowgraph.reach_entry.step h01
  refine ⟨fun d hd ↦ (Option.some.inj hd).symm, fun v d hv hd ↦ ?_, fun v hv ↦ ?_⟩
  · rcases v with _ | _ | _ | _ | v
    · exact absurd rfl hv
    · obtain rfl : 0 = d := Option.some.inj hd
      exact ⟨by decide, Flowgraph.dom_entry 1, fun d' hne hdom ↦ hdom.of_adj h01 hne.symm⟩
    · obtain rfl : 1 = d := Option.some.inj hd
      refine ⟨by decide, ?_, fun d' hne hdom ↦ hdom.of_adj h12 hne.symm⟩
      exact (Flowgraph.dom_iff_of_unique_pred h12 hv (hpred · 2 (.inl rfl)) (by decide)).2
        (Flowgraph.dom_self 1)
    · obtain rfl : 1 = d := Option.some.inj hd
      refine ⟨by decide, ?_, fun d' hne hdom ↦ hdom.of_adj h13 hne.symm⟩
      exact (Flowgraph.dom_iff_of_unique_pred h13 hv (hpred · 3 (.inr rfl)) (by decide)).2
        (Flowgraph.dom_self 1)
    · cases hd
  · rcases v with _ | _ | _ | _ | v
    · exact absurd rfl hv
    · exact ⟨fun _ ↦ ⟨0, rfl⟩, fun _ ↦ hreach⟩
    · exact ⟨fun _ ↦ ⟨1, rfl⟩, fun _ ↦ hreach.step h12⟩
    · exact ⟨fun _ ↦ ⟨1, rfl⟩, fun _ ↦ hreach.step h13⟩
    · refine ⟨fun h ↦ ?_, fun ⟨d, hd⟩ ↦ by cases hd⟩
      cases h with
      | tail _ hadj =>
        obtain ⟨hlt, -⟩ := hadj
        simp only [countedLoop, List.length_cons, List.length_nil] at hlt
        omega

end CountedLoop

/-- At the start of a block of the bare counted loop nothing is outstanding. -/
theorem countedLoop_safe (s : Store (Val → Val)) :
    ((graphMachine (traceWorld.interp fun _ v ↦ v) false ∅ (countedLoop [])).withGhost
      (countedFor.after traceWorld (fun _ v ↦ v) (countedLoop []))).Always
      (countedFor.Safe traceWorld (fun _ v ↦ v) (countedLoop []) false ∅) ((0, s), none) := by
  have hnone : ((graphMachine (traceWorld.interp fun _ v ↦ v) false ∅ (countedLoop [])).withGhost
      (countedFor.after traceWorld (fun _ v ↦ v) (countedLoop []))).Always
      (fun p ↦ p.2 = none) ((0, s), none) := by
    refine Machine.Always.of_preserved rfl ?_
    rintro ⟨⟨j, s⟩, _⟩ es ⟨⟨l, s'⟩, k'⟩ rfl hstep
    rcases j with _ | _ | _ | _ | j
    · cases hstep
      rfl
    · -- The header has no statements.
      simp only [Machine.withGhost] at hstep
      split at hstep
      · cases hstep
        unfold ForLoop.after
        split <;> rfl
      · cases hstep
    · cases hstep
      rfl
    · cases hstep
    · cases hstep
  rintro ⟨⟨j, s⟩, _⟩ hp
  obtain rfl := hnone _ hp
  refine ⟨fun b hb ↦ ?_, fun _ ↦ rfl, fun hj s' hs' ↦ ?_⟩
  · rcases j with _ | _ | _ | _ | j
    all_goals
      cases hb
    all_goals
      rfl
  · rcases j with _ | _ | _ | _ | j
    · cases hs'
      rfl
    · simp [countedFor] at hj
    · simp [countedFor] at hj
    · cases hs'
    · cases hs'

/-- On entry every variable holds `7`. -/
def sevens : Store (Val → Val) :=
  ⟨fun _ ↦ 7, fun _ ↦ 0⟩

theorem countedLoop_sound :
    (graphMachine (traceWorld.interp fun _ v ↦ v) false ∅ (countedLoop [])).Together
        (countedFor.forMachine (traceWorld.interp fun _ v ↦ v) false ∅ (countedLoop []))
        (countedFor.KeptAt traceWorld (fun _ v ↦ v) (countedLoop []) ∅) (0, sevens) (0, sevens) ∧
      (graphMachine (traceWorld.interp fun _ v ↦ v) false ∅ (countedLoop [])).SameBehaviour
        (0, sevens)
        (countedFor.forMachine (traceWorld.interp fun _ v ↦ v) false ∅ (countedLoop []))
        (0, sevens) :=
  forLoop_sound traceWorld (fun _ v ↦ v) (countedLoop []) countedLoopIdom countedFor false ∅ sevens
    (fun _ h ↦ absurd h Bool.false_ne_true) (countedLoop_idom []) (countedLoop_edges [])
    (countedLoop_preds []) (countedFor_mem [] rfl) (by decide) (countedLoop_safe sevens)

/-! ### A read before the loop -/

/-- `v1 = 0; f(v1); while (v1 < 1) v1 = v1 + 1; return;` -/
def passesCounter : List Block :=
  countedLoop [.call (.call {} "f" false 0 [.mkVar "v1"])]

/-- The call gets what `v1` held on entry. -/
theorem passesCounter_differs : CorrectIdom (controlFlow passesCounter) countedLoopIdom ∧
    EdgesListed passesCounter ∧ PredsListed passesCounter ∧
    countedFor ∈ detectForLoops passesCounter countedLoopIdom ∧
    ¬ (graphMachine (traceWorld.interp fun _ v ↦ v) false ∅ passesCounter).SameBehaviour
        (0, sevens)
        (countedFor.forMachine (traceWorld.interp fun _ v ↦ v) false ∅ passesCounter)
        (0, sevens) := by
  refine ⟨countedLoop_idom _, countedLoop_edges _, countedLoop_preds _, countedFor_mem _ rfl,
    fun h ↦ ?_⟩
  have hleft : (graphMachine (traceWorld.interp fun _ v ↦ v) false ∅ passesCounter).Emits
      (0, sevens) [.world [0]] := ⟨1, by decide⟩
  have hright : (countedFor.forMachine (traceWorld.interp fun _ v ↦ v) false ∅
      passesCounter).Emits (0, sevens) [.world [7]] := ⟨1, by decide⟩
  rcases hright.comparable ((h.emits_iff _).1 hleft) with h | h
  all_goals
    exact absurd h (by decide)

end Ldu
