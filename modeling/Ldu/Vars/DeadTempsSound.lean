import Ldu.Vars.DeadTemps

/-!
# Dead temporaries have their value

The one read that the pass finds sees the definition, and nothing in reach of the block sees that it
is gone. Two things are left over (`Inlining.DeadText`): the next assignment to the temporary in the
block may read it, and the statements in between may change memory on which the definition depends
through a local that lives there. Without those, the pass keeps all reads and the behaviour
(`foldDeadBlockTemps_sound`).
-/

namespace Ldu

/-! ### Lists cut at the first match -/

section Cut

variable {α : Type*} {p : α → Bool} {l : List α}

theorem cut_at_findIdx (p : α → Bool) (l : List α) : ∃ tail, l = l.take (l.findIdx p) ++ tail ∧
    (∀ a ∈ l.take (l.findIdx p), p a = false) ∧
    (tail = [] ∨ ∃ a rest, tail = a :: rest ∧ p a = true ∧ l[l.findIdx p]? = some a) := by
  refine ⟨l.drop (l.findIdx p), (List.take_append_drop _ _).symm, fun a ha ↦ ?_, ?_⟩
  · obtain ⟨i, hi⟩ := List.mem_iff_getElem?.1 ha
    rw [List.getElem?_take] at hi
    split at hi
    · next hlt =>
      obtain ⟨hlen, rfl⟩ := List.getElem?_eq_some_iff.1 hi
      exact Bool.eq_false_iff.2 (by simpa using List.not_of_lt_findIdx hlt)
    · cases hi
  · by_cases hlt : l.findIdx p < l.length
    · exact .inr ⟨l[l.findIdx p], l.drop (l.findIdx p + 1), List.drop_eq_getElem_cons hlt,
        List.findIdx_getElem, List.getElem?_eq_getElem hlt⟩
    · exact .inl (List.drop_eq_nil_of_le (not_lt.1 hlt))

theorem cut_of_countP_eq_one (h : l.countP p = 1) : ∃ before a after, l = before ++ a :: after ∧
    before.length = l.findIdx p ∧ (∀ c ∈ before, p c = false) ∧ ∀ c ∈ after, p c = false := by
  obtain ⟨tail, hl, hbefore, hnil | ⟨a, after, rfl, ha, -⟩⟩ := cut_at_findIdx p l
  · subst hnil
    rw [List.append_nil] at hl
    rw [← hl] at hbefore
    rw [List.countP_eq_zero.2 (by simpa using hbefore)] at h
    cases h
  · have hlength : (l.take (l.findIdx p)).length = l.findIdx p := by
      have := congrArg List.length hl
      simp only [List.length_append, List.length_cons, List.length_take] at this ⊢
      omega
    refine ⟨l.take (l.findIdx p), a, after, hl, hlength, hbefore, fun c hc ↦ ?_⟩
    rw [hl, List.countP_append, List.countP_eq_zero.2 (by simpa using hbefore),
      List.countP_cons_of_pos ha] at h
    exact Bool.eq_false_iff.2 (List.countP_eq_zero.1 (by omega) c hc)

theorem modify_append_cons (before after : List α) (a : α) (f : α → α) :
    (before ++ a :: after).modify before.length f = before ++ f a :: after := by
  induction before with
  | nil => rfl
  | cons c before ih => simpa using ih

end Cut

/-! ### Reads of a block -/

section NodeReads

variable {n v : String} {r : Expr} {b b' : Block} {g h k : List Block} {i j : ℕ}

theorem mem_nodeReads : n ∈ b.nodeReads ↔
    ∃ e ∈ b.stmts.flatMap Stmt.readExprs ++ b.termExprs, e.readsNamedVar n = true := by
  simp only [Block.nodeReads, Expr.mem_readVarsList, Expr.mem_readVars]

theorem mem_nodeReads_of_reads {st : Stmt} (hst : st ∈ b.stmts) (hplaced : st.placed = true)
    (h : st.reads n = true) : n ∈ b.nodeReads := by
  obtain ⟨e, he, hn⟩ : ∃ e ∈ st.readExprs, e.readsNamedVar n = true := by
    cases st with
    | assign lhs rhs =>
      cases lhs with
      | var ty x => exact ⟨rhs, by simp [Stmt.readExprs], h⟩
      | mem ty a =>
        simp only [Stmt.reads, Stmt.exprs, List.any_cons, List.any_nil, Bool.or_false,
          Bool.or_eq_true] at h
        rcases h with h | h
        · exact ⟨.mem ty a, by simp [Stmt.readExprs], h⟩
        · exact ⟨rhs, by simp [Stmt.readExprs], h⟩
      | _ => cases hplaced
    | call rhs => exact ⟨rhs, by simp [Stmt.readExprs], by simpa [Stmt.reads, Stmt.exprs] using h⟩
    | comment => cases h
  exact mem_nodeReads.2 ⟨e, List.mem_append_left _ (List.mem_flatMap.2 ⟨st, hst, he⟩), hn⟩

theorem mem_nodeReads_of_rhs {ty : Ty} {x : String} {rhs : Expr}
    (hst : .assign (.var ty x) rhs ∈ b.stmts) (h : rhs.readsNamedVar n = true) : n ∈ b.nodeReads :=
  mem_nodeReads_of_reads hst rfl (Stmt.reads_rhs h)

theorem mem_nodeReads_of_termReads (h : b.termReads n = true) : n ∈ b.nodeReads := by
  unfold Block.termReads at h
  obtain ⟨e, he, hn⟩ := List.any_eq_true.1 h
  refine mem_nodeReads.2 ⟨e, List.mem_append_right _ ?_, hn⟩
  unfold Block.termExprs
  simp only [List.mem_append] at he ⊢
  tauto

theorem mem_allSuccs (h : j ∈ b.targets) : j ∈ b.allSuccs := by
  unfold Block.targets at h
  unfold Block.allSuccs
  split at h
  all_goals
    simp only [List.mem_append] at h ⊢
    tauto

theorem readExprs_of_not_place {lhs rhs : Expr} (h : lhs.isPlace = false) :
    (Stmt.assign lhs rhs).readExprs = [rhs] := by
  cases lhs <;> first | rfl | cases h

theorem readExprs_mapExprs {st : Stmt} (hdef : st.defOf v = none) {e' : Expr}
    (he' : e' ∈ (st.mapExprs (·.substVar v r)).readExprs) :
    ∃ e ∈ st.readExprs, e' = e.substVar v r := by
  cases st with
  | assign lhs rhs =>
    have hkept : World.PlaceKept (·.substVar v r) lhs := World.placeKept_substVar hdef
    cases lhs with
    | var ty x =>
      rw [Stmt.mapExprs, hkept.var ty x rfl] at he'
      simpa [Stmt.readExprs] using he'
    | mem ty a =>
      rw [Stmt.mapExprs, hkept.mem ty a rfl] at he'
      have hmem := hkept.mem ty a rfl
      simp only [Stmt.readExprs, List.mem_cons, List.not_mem_nil, or_false] at he'
      rcases he' with rfl | rfl
      · exact ⟨rhs, by simp [Stmt.readExprs], rfl⟩
      · exact ⟨.mem ty a, by simp [Stmt.readExprs], hmem.symm⟩
    | _ =>
      rw [Stmt.mapExprs, readExprs_of_not_place (hkept.other rfl), List.mem_singleton] at he'
      exact ⟨rhs, by rw [readExprs_of_not_place rfl]; simp, he'⟩
  | call rhs => simpa [Stmt.mapExprs, Stmt.readExprs] using he'
  | comment => cases he'

/-- Replacing reads of `v` by an expression of the block reads nothing new. -/
theorem nodeReads_subset (h : b.ReplacedIn v r b') (hr : ∀ n, r.readsNamedVar n = true →
    n ∈ b.nodeReads) : b'.nodeReads ⊆ b.nodeReads := by
  intro n hn
  obtain ⟨e', he', hn⟩ := mem_nodeReads.1 hn
  have hold : ∀ e ∈ b.stmts.flatMap Stmt.readExprs ++ b.termExprs,
      e' = e ∨ e' = e.substVar v r → n ∈ b.nodeReads := by
    rintro e he (rfl | rfl)
    · exact mem_nodeReads.2 ⟨e', he, hn⟩
    · rcases Expr.readsNamedVar_substVar hn with hn | hn
      · exact mem_nodeReads.2 ⟨e, he, hn⟩
      · exact hr n hn
  rcases List.mem_append.1 he' with he' | he'
  · obtain ⟨st', hst', he'⟩ := List.mem_flatMap.1 he'
    rcases h.stmts.of_mem hst' with hcom | hst | ⟨st, hst, hdef, rfl⟩
    · cases st' with
      | comment => cases he'
      | _ => cases hcom
    · exact hold e' (List.mem_append_left _ (List.mem_flatMap.2 ⟨st', hst, he'⟩)) (.inl rfl)
    · obtain ⟨e, he, rfl⟩ := readExprs_mapExprs hdef he'
      exact hold e (List.mem_append_left _ (List.mem_flatMap.2 ⟨st, hst, he⟩)) (.inr rfl)
  · obtain ⟨e, he, hcase⟩ := h.term e' he'
    exact hold e (List.mem_append_right _ he) hcase

/-- The blocks of `h` read no more names than those of `g`. -/
def Shrinks (g h : List Block) : Prop :=
  ∀ (j : ℕ) (b' : Block), h[j]? = some b' → ∃ b, g[j]? = some b ∧ b'.allSuccs = b.allSuccs ∧
    b'.nodeReads ⊆ b.nodeReads

theorem Shrinks.refl (g : List Block) : Shrinks g g :=
  fun _ b' hb' ↦ ⟨b', hb', rfl, subset_rfl⟩

theorem Shrinks.trans (hgh : Shrinks g h) (hhk : Shrinks h k) : Shrinks g k := by
  intro j b' hb'
  obtain ⟨b, hb, hsuccs, hreads⟩ := hhk j b' hb'
  obtain ⟨c, hc, hsuccs', hreads'⟩ := hgh j b hb
  exact ⟨c, hc, hsuccs.trans hsuccs', hreads.trans hreads'⟩

theorem Shrinks.readLater (hgh : Shrinks g h) (hread : ReadLater h n i) : ReadLater g n i := by
  induction hread with
  | here hb hj hc hread =>
    obtain ⟨b, hb', hsuccs, -⟩ := hgh _ _ hb
    obtain ⟨c, hc', -, hreads⟩ := hgh _ _ hc
    exact .here hb' (hsuccs ▸ hj) hc' (hreads hread)
  | later hb hj hc _ ih =>
    obtain ⟨b, hb', hsuccs, -⟩ := hgh _ _ hb
    obtain ⟨c, hc', -, -⟩ := hgh _ _ hc
    exact .later hb' (hsuccs ▸ hj) hc' ih

end NodeReads

/-! ### The read that is found -/

section Use

variable {v : String} {b : Block} {post : List Stmt}

/-- The next assignment to the temporary does not read it. -/
def NextFresh (v : String) (post : List Stmt) : Prop :=
  ∀ st, post[post.findIdx (·.assigns v)]? = some st → st.reads v = false

theorem reads_of_countReads_eq {st : Stmt} (hplaced : st.placed = true)
    (h : decide (0 < st.countReads v) = false) : st.reads v = false := by
  rw [decide_eq_false_iff_not, Nat.not_lt, Nat.le_zero] at h
  exact (Stmt.countReads_eq_zero_iff hplaced).1 h

/-- The read stands in statement `u`, and no other statement reads the temporary up to the next
assignment to it, the first of `tail`. -/
theorem cut_of_deadUse {j : ℕ} (h : deadUse v b post = some (some j)) :
    ∃ win u mid tail, post = win ++ u :: (mid ++ tail) ∧ win.length = j ∧
      (∀ st ∈ win ++ u :: mid, st.defOf v = none) ∧
      (∀ st ∈ win, decide (0 < st.countReads v) = false) ∧
      (∀ st ∈ mid, decide (0 < st.countReads v) = false) ∧
      (tail = [] ∧ b.countTermReads v = 0 ∨ ∃ a rest, tail = a :: rest ∧ a.assigns v = true ∧
        post[post.findIdx (·.assigns v)]? = some a) := by
  unfold deadUse at h
  dsimp only at h
  split at h
  · next hcount hterm =>
    obtain ⟨tail, hpost, hlive, htail⟩ := cut_at_findIdx (fun st : Stmt ↦ st.assigns v) post
    obtain ⟨win, u, mid, hcut, hlength, hwin, hmid⟩ := cut_of_countP_eq_one hcount
    rw [hcut] at hlive
    have hsplit : post = win ++ u :: (mid ++ tail) := by
      rw [hpost, hcut]
      simp
    refine ⟨win, u, mid, tail, hsplit, ?_, fun st hst ↦ ?_, hwin, hmid, htail.imp_left ?_⟩
    · rw [hlength]
      simpa using h
    · simpa [Stmt.assigns] using hlive st hst
    · rintro rfl
      have hany : post.any (·.assigns v) = false := by
        rw [hsplit, List.append_nil, List.any_eq_false]
        exact fun st hst ↦ by simpa using hlive st hst
      rw [hany] at hterm
      exact ⟨rfl, by simpa using hterm⟩
  · cases h
  · cases h

/-- Nothing else reads the temporary before it is assigned again, and the terminator only reads it
if it is. -/
theorem of_deadUse_some {j : ℕ} (h : deadUse v b post = some (some j))
    (hplaced : ∀ st ∈ post, st.placed = true) (hnext : NextFresh v post) :
    ∃ win u rest, post = win ++ u :: rest ∧ win.length = j ∧
      (∀ st ∈ win ++ [u], st.defOf v = none) ∧ (∀ st ∈ win, st.reads v = false) ∧
      readsBefore v rest = false ∧ (assignsIn v rest = false → b.termReads v = false) := by
  obtain ⟨win, u, mid, tail, hsplit, hlength, hdef, hwin, hmid, htail⟩ := cut_of_deadUse h
  have hmem : ∀ st ∈ win ++ u :: mid, st ∈ post := fun st hst ↦ by
    rw [hsplit]
    simp only [List.mem_append, List.mem_cons] at hst ⊢
    tauto
  refine ⟨win, u, mid ++ tail, hsplit, hlength, fun st hst ↦ hdef st ?_, fun st hst ↦
    reads_of_countReads_eq (hplaced st (hmem st (by simp [hst]))) (hwin st hst),
    readsBefore_append (fun st hst ↦
      reads_of_countReads_eq (hplaced st (hmem st (by simp [hst]))) (hmid st hst)) ?_, ?_⟩
  · simp only [List.mem_append, List.mem_cons, List.not_mem_nil, or_false] at hst ⊢
    tauto
  · rcases htail with ⟨rfl, -⟩ | ⟨a, rest, rfl, ha, hidx⟩
    · rfl
    · rw [readsBefore, hnext a hidx, ha]
      rfl
  · intro hassigns
    rw [assignsIn, List.any_append, Bool.or_eq_false_iff] at hassigns
    rcases htail with ⟨rfl, hterm⟩ | ⟨a, rest, rfl, ha, -⟩
    · exact Block.termReads_eq_false hterm
    · rw [List.any_cons, ha] at hassigns
      exact absurd hassigns.2 (by simp)

/-- The read stands in the terminator: the statements do not read or assign the temporary. -/
theorem of_deadUse_none (h : deadUse v b post = some none)
    (hplaced : ∀ st ∈ post, st.placed = true) :
    ∀ st ∈ post, st.defOf v = none ∧ st.reads v = false := by
  unfold deadUse at h
  dsimp only at h
  split at h
  · cases h
  · next hcount hterm =>
    intro st hst
    simp only [Bool.and_eq_true, Bool.not_eq_true', List.any_eq_false] at hterm
    have hall : post.take (post.findIdx (·.assigns v)) = post :=
      List.take_of_length_le (List.findIdx_eq_length.2 fun st hst ↦ by
        simpa using hterm.1 st hst).ge
    rw [hall] at hcount
    refine ⟨by simpa [Stmt.assigns] using hterm.1 st hst,
      reads_of_countReads_eq (hplaced st hst) ?_⟩
    simpa using List.countP_eq_zero.1 hcount st hst
  · cases h

end Use

/-! ### What the pass checks, and what it does not -/

/-- The definition is inlined at `use`. -/
structure Inlining.Dead (taken : String → Bool) (b : Block) (v : String) (rhs : Expr)
    (use : Option ℕ) (x : Inlining) : Prop where
  site : ∃ ty, x.Defines b ty v rhs
  address : taken v = false
  later : ¬ ReadLater x.before v x.block
  impure : rhs.hasImpureCall = false
  found : deadUse v b (b.stmts.drop (x.pos + 1)) = some use
  window : ((b.stmts.drop (x.pos + 1)).take
    (use.getD (b.stmts.drop (x.pos + 1)).length)).any (·.clashes rhs) = false

/-- The function after the inlining. -/
def Inlining.folded (x : Inlining) (v : String) (rhs : Expr) (use : Option ℕ) : List Block :=
  x.before.modify x.block (·.foldUse x.pos v rhs use)

/-- The expressions in which the definition at position `i` is used. -/
def Block.useExprs (i : ℕ) (use : Option ℕ) (b : Block) : List Expr :=
  match use with
  | some j => (b.stmts.drop (i + 1))[j]?.elim [] Stmt.exprs
  | none => b.termExprs

/-- The operands among them, in order. -/
def Block.useOperands (usedReturn : Bool) (i : ℕ) (use : Option ℕ) (b : Block) : List Expr :=
  match use with
  | some j => (b.stmts.drop (i + 1))[j]?.elim [] Stmt.operands
  | none => b.operands usedReturn

/-- The text of the block: the next assignment to the temporary does not read it, the read that is
replaced looks like the definition, and either the definition does not depend on memory, or the
statements in between leave memory alone and the read does not come after a call. -/
structure Inlining.DeadText (taken : String → Bool) (usedReturn : Bool) (b : Block) (v : String)
    (rhs : Expr) (use : Option ℕ) (x : Inlining) : Prop where
  next : NextFresh v (b.stmts.drop (x.pos + 1))
  suits : ∀ e ∈ b.useExprs x.pos use, e.suits v rhs.ty = true
  mem : rhs.memFree taken = true ∨
    (∀ st ∈ (b.stmts.drop (x.pos + 1)).take (use.getD (b.stmts.drop (x.pos + 1)).length),
      st.leavesMem taken = true) ∧ Expr.lateReadList v (b.useOperands usedReturn x.pos use) = false

/-- Whenever the block is entered, the declared type of the temporary holds the value of the
definition. -/
def Inlining.DeadHolds {M E : Type} (W : World M E) (decl : String → Val → Val) (x : Inlining)
    (p : ℕ × Store M) : Prop :=
  p.1 = x.block → ∀ b ty v rhs, x.Defines b ty v rhs →
    decl v (W.eval rhs (W.execStmts decl (b.stmts.take x.pos) p.2)).2.1 =
      (W.eval rhs (W.execStmts decl (b.stmts.take x.pos) p.2)).2.1

/-! ### Sound inlinings -/

theorem mapExprs_of_not_reads {v : String} {r : Expr} {st : Stmt} (hplaced : st.placed = true)
    (hdef : st.defOf v = none) (hreads : st.reads v = false) :
    st.mapExprs (·.substVar v r) = st := by
  cases st with
  | assign lhs rhs =>
    have hkept : World.PlaceKept (·.substVar v r) lhs := World.placeKept_substVar hdef
    cases lhs with
    | var ty x =>
      rw [Stmt.mapExprs, hkept.var ty x rfl, Expr.substVar_of_not_reads hreads]
    | mem ty a =>
      simp only [Stmt.reads, Stmt.exprs, List.any_cons, List.any_nil, Bool.or_false,
        Bool.or_eq_false_iff] at hreads
      rw [Stmt.mapExprs, Expr.substVar_of_not_reads hreads.1, Expr.substVar_of_not_reads hreads.2]
    | _ => cases hplaced
  | call rhs =>
    rw [Stmt.mapExprs, Expr.substVar_of_not_reads (by simpa [Stmt.reads, Stmt.exprs] using hreads)]
  | comment => rfl

theorem exprs_of_not_reads {v : String} {st : Stmt} (hdef : st.defOf v = none)
    (hreads : st.reads v = false) {e : Expr} (he : e ∈ st.exprs) : e.readsNamedVar v = false := by
  cases st with
  | assign lhs rhs =>
    rw [Stmt.exprs, List.mem_cons, List.mem_singleton] at he
    rcases he with rfl | rfl
    · cases e with
      | var ty y =>
        rw [Stmt.defOf, ite_eq_right_iff] at hdef
        simpa [Expr.readsNamedVar, Expr.anyNode, Expr.isVarNamed] using hdef
      | _ =>
        rw [Bool.eq_false_iff]
        exact fun hn ↦ Bool.eq_false_iff.1 hreads (Stmt.reads_lhs (by simp) hn)
    · rw [Bool.eq_false_iff]
      exact fun hn ↦ Bool.eq_false_iff.1 hreads (Stmt.reads_rhs hn)
  | call rhs =>
    rw [Stmt.exprs, List.mem_singleton] at he
    simpa [Stmt.reads, Stmt.exprs, he] using hreads
  | comment => cases he

/-- Block `j` or one in reach of it reads `n`. -/
def Mentioned (g : List Block) (n : String) (j : ℕ) : Prop :=
  (∃ b, g[j]? = some b ∧ n ∈ b.nodeReads) ∨ ReadLater g n j

theorem readLater_of_mentioned {g : List Block} {n : String} {i j : ℕ} {b : Block}
    (hb : g[i]? = some b) (hj : j ∈ b.targets) (h : Mentioned g n j) : ReadLater g n i := by
  rcases h with ⟨c, hc, hread⟩ | hread
  · exact .here hb (mem_allSuccs hj) hc hread
  · obtain ⟨c, hc⟩ : ∃ c, g[j]? = some c := by
      cases hread with
      | here hb => exact ⟨_, hb⟩
      | later hb => exact ⟨_, hb⟩
    exact .later hb (mem_allSuccs hj) hc hread

namespace Inlining.Dead

section Sound

variable {M E : Type} {W : World M E} {decl : String → Val → Val} {taken : String → Bool}
  {usedReturn : Bool} {x : Inlining} {b c : Block} {v : String} {rhs : Expr} {use : Option ℕ}
  {s t : Store M}

theorem not_aliased (h : x.Dead taken b v rhs use)
    (halias : ∀ n, W.aliased n = true → taken n = true) : W.aliased v = false :=
  Bool.eq_false_iff.2 fun hal ↦ Bool.eq_false_iff.1 h.address (halias v hal)

/-- The variables before block `j`: the temporary differs only where nothing reads it. -/
def Rel (x : Inlining) (v : String) (j : ℕ) (vs vt : String → Val) : Prop :=
  (∀ n, n ≠ v → vt n = vs n) ∧ (vt v = vs v ∨ ¬ Mentioned x.before v j)

/-- What a block reads is the same on both sides. -/
theorem Rel.same {j : ℕ} {vs vt : String → Val} (hR : Rel x v j vs vt) (hc : x.before[j]? = some c)
    {n : String} (hn : n ∈ c.nodeReads) : n ≠ v ∨ vt v = vs v := by
  by_cases hne : n = v
  · exact .inr (hR.2.resolve_right (not_not_intro (.inl ⟨c, hc, hne ▸ hn⟩)))
  · exact .inl hne

/-- A block other than that of the definition is kept. -/
theorem inlined_other (h : x.Dead taken b v rhs use)
    (halias : ∀ n, W.aliased n = true → taken n = true) {j : ℕ} (hc : x.before[j]? = some c)
    (hplaced : ∀ st ∈ c.stmts, st.placed = true) (hmem : t.mem = s.mem)
    (hR : Rel x v j s.vars t.vars) :
    W.Inlined decl v rhs (fun s' t' ↦ W.InlinedTerm v rhs usedReturn c c s' t' ∧
      ∀ l ∈ c.targets, Rel x v l s'.vars t'.vars) c.stmts c.stmts s t := by
  refine .of_append_nil <| World.inlined_prefix (L := fun n ↦ n ≠ v ∨ t.vars v = s.vars v)
    (fun st hst n hn ↦ hR.same hc (mem_nodeReads_of_reads hst (hplaced st hst) hn))
    (agreeOn_ne (h.not_aliased halias) hmem hR.1).or_eq fun hagree ↦ .nil
      ⟨.kept rfl (hagree.mono fun n hn ↦ hR.same hc (mem_nodeReads_of_termReads hn)), fun l hl ↦
        ⟨fun n hn ↦ hagree.2 n (.inr (.inl hn)), ?_⟩⟩
  rcases hR.2 with heq | hno
  · exact .inl (hagree.2 v (.inr (.inr heq)))
  · exact .inr fun hl' ↦ hno (.inr (readLater_of_mentioned hc hl hl'))

/-- What both sides agree on at the end is enough for the successors. -/
theorem rel_of_target (h : x.Dead taken b v rhs use) (hoff : AgreeOn W (· ≠ v) s t) {l : ℕ}
    (hl : l ∈ b.targets) : Rel x v l s.vars t.vars := by
  obtain ⟨ty, hb, -⟩ := h.site
  exact ⟨fun n hn ↦ hoff.2 n (.inr hn), .inr fun hl' ↦
    h.later (readLater_of_mentioned hb hl hl')⟩

/-- The statements between the definition and its use. -/
theorem spares (h : x.Dead taken b v rhs use) (htext : x.DeadText taken usedReturn b v rhs use)
    {st : Stmt} (hst : st ∈ (b.stmts.drop (x.pos + 1)).take
      (use.getD (b.stmts.drop (x.pos + 1)).length)) : st.Spares taken rhs := by
  have hclash : st.clashes rhs = false := by
    simpa using List.any_eq_false.1 h.window st hst
  exact ⟨fun n hn ↦ assigns_of_not_clashes hclash hn, htext.mem.imp_right fun hmem ↦ hmem.1 st hst⟩

/-- What comes before the last element of a cut that is not at the end. -/
theorem mem_of_cut {α : Type} {win before after : List α} {u st : α}
    (hcut : win ++ [u] = before ++ st :: after) (hafter : after ≠ []) : st ∈ win := by
  have hdrop := congrArg List.dropLast hcut
  rw [List.dropLast_concat, List.dropLast_append_of_ne_nil (by simp),
    List.dropLast_cons_of_ne_nil hafter] at hdrop
  rw [hdrop]
  simp

/-- Statements that do not read the temporary stay as they are. -/
theorem map_window {win : List Stmt} {v : String} {rhs : Expr}
    (hplaced : ∀ st ∈ win, st.placed = true) (hdef : ∀ st ∈ win, st.defOf v = none)
    (hwin : ∀ st ∈ win, st.reads v = false) (u : Stmt) :
    (win ++ [u]).map (·.mapExprs (·.substVar v rhs)) =
      win ++ [u.mapExprs (·.substVar v rhs)] := by
  have hkept : win.map (·.mapExprs (·.substVar v rhs)) = win := by
    conv_rhs => rw [← List.map_id win]
    exact List.map_congr_left fun st hst ↦
      mapExprs_of_not_reads (hplaced st hst) (hdef st hst) (hwin st hst)
  rw [List.map_append, hkept, List.map_singleton]

/-- The block of the definition, used in a statement. -/
theorem inlined_self_some {j : ℕ} (h : x.Dead taken b v rhs (some j))
    (htext : x.DeadText taken usedReturn b v rhs (some j))
    (halias : ∀ n, W.aliased n = true → taken n = true)
    (haddr : addrTaken x.before v = false) (hplaced : ∀ st ∈ b.stmts, st.placed = true)
    (hmem : t.mem = s.mem) (hholds : x.DeadHolds W decl (x.block, s))
    (hR : Rel x v x.block s.vars t.vars) :
    W.Inlined decl v rhs
      (fun s' t' ↦ W.InlinedTerm v rhs usedReturn b (b.foldUse x.pos v rhs (some j)) s' t' ∧
        ∀ l ∈ b.targets, Rel x v l s'.vars t'.vars)
      b.stmts (b.foldUse x.pos v rhs (some j)).stmts s t := by
  obtain ⟨ty, hb, hst⟩ := h.site
  have hsplit := eq_take_append_cons hst
  have hpostPlaced : ∀ st ∈ b.stmts.drop (x.pos + 1), st.placed = true := fun st hst ↦
    hplaced st (List.mem_of_mem_drop hst)
  obtain ⟨win, u, rest, hpost, hlength, hdef, hwin, hrest, hterm⟩ :=
    of_deadUse_some h.found hpostPlaced htext.next
  have hu : (b.stmts.drop (x.pos + 1))[j]? = some u := by
    rw [hpost, ← hlength]
    simp
  have hspares : ∀ st ∈ win, st.Spares taken rhs := fun st hst ↦ h.spares htext <| by
    rw [hpost, Option.getD_some, ← hlength]
    simpa using hst
  have hsuits := htext.suits
  have hmemText := htext.mem
  simp only [Block.useExprs, Block.useOperands, hu, Option.elim_some] at hsuits hmemText
  have hbmem := List.mem_of_getElem? hb
  have hmemPost : ∀ st ∈ win ++ [u], st ∈ b.stmts := fun st hst ↦ by
    refine List.mem_of_mem_drop (i := x.pos + 1) ?_
    rw [hpost]
    simp only [List.mem_append, List.mem_cons, List.not_mem_nil, or_false] at hst ⊢
    tauto
  have hmap := @map_window _ v rhs (fun st hst ↦ hplaced st (hmemPost st (by simp [hst])))
    (fun st hst ↦ hdef st (by simp [hst])) hwin u
  have hinl : W.Inlined decl v rhs
      (fun s' t' ↦ W.InlinedTerm v rhs usedReturn b (b.foldUse x.pos v rhs (some j)) s' t' ∧
        ∀ l ∈ b.targets, Rel x v l s'.vars t'.vars)
      (b.stmts.take x.pos ++ .assign (.var ty v) rhs :: ((win ++ [u]) ++ (rest ++ [])))
      (b.stmts.take x.pos ++ ([] ++
        ((win ++ [u]).map (·.mapExprs (·.substVar v rhs)) ++ (rest ++ [])))) s t := by
    refine World.inlined_def halias (h.not_aliased halias) h.impure
      (fun n ↦ n ≠ v ∨ t.vars v = s.vars v) False (.inl rfl) (fun _ hn ↦ .inl hn)
      (fun st hst n hn ↦ hR.same hb (mem_nodeReads_of_reads (List.mem_of_mem_take hst)
        (hplaced st (List.mem_of_mem_take hst)) hn))
      (fun n hn ↦ hR.same hb (mem_nodeReads_of_rhs (List.mem_of_getElem? hst) hn))
      (agreeOn_ne (h.not_aliased halias) hmem hR.1).or_eq (hholds rfl b ty v rhs ⟨hb, hst⟩) hdef
      (fun st hst e he ↦ ⟨?_, ?_⟩) (fun st hst hread ↦ hmemText.imp_right fun hm ↦ ?_)
      (fun before st after hcut hread ↦ .inl (hspares st ?_)) fun s' t' hoff _ _ ↦
        World.inlined_suffix hrest hoff fun hoff' ↦ .nil ⟨.kept rfl (hoff'.mono fun n hn ↦ ?_),
          fun l hl ↦ h.rel_of_target (hoff'.mono fun n hn ↦ .inl hn) hl⟩
    · rcases List.mem_append.1 hst with hst | hst
      · exact Expr.suits_of_not_reads
          (exprs_of_not_reads (hdef st (by simp [hst])) (hwin st hst) he)
      · rw [List.mem_singleton.1 hst] at he
        exact hsuits e he
    · exact not_isAddrOf_of_addrTaken haddr hbmem
        (List.mem_append_left _ (List.mem_flatMap.2 ⟨st, hmemPost st hst, he⟩))
    · rcases List.mem_append.1 hst with hst | hst
      · rw [hwin st hst] at hread
        cases hread
      · rw [List.mem_singleton.1 hst]
        exact hm.2
    · -- What comes before another statement of the window is not the use.
      refine mem_of_cut hcut ?_
      rintro rfl
      simp at hread
    · by_cases hnv : n = v
      · refine .inr ?_
        rw [← Bool.not_eq_false]
        exact fun hassigns ↦ by rw [hnv, hterm hassigns] at hn; cases hn
      · exact .inl hnv
  have hstmts : (b.foldUse x.pos v rhs (some j)).stmts =
      b.stmts.take x.pos ++ (win ++ [u.mapExprs (·.substVar v rhs)] ++ rest) := by
    simp only [Block.foldUse]
    rw [hpost, ← hlength, modify_append_cons, List.append_assoc win, List.singleton_append]
  rw [hmap, List.nil_append, List.append_nil] at hinl
  rw [hstmts]
  rwa [List.append_assoc win, List.singleton_append, ← hpost, ← hsplit] at hinl

/-- The block of the definition, used in the terminator. -/
theorem inlined_self_none (h : x.Dead taken b v rhs none)
    (htext : x.DeadText taken usedReturn b v rhs none)
    (halias : ∀ n, W.aliased n = true → taken n = true)
    (haddr : addrTaken x.before v = false) (hplaced : ∀ st ∈ b.stmts, st.placed = true)
    (hmem : t.mem = s.mem) (hholds : x.DeadHolds W decl (x.block, s))
    (hR : Rel x v x.block s.vars t.vars) :
    W.Inlined decl v rhs
      (fun s' t' ↦ W.InlinedTerm v rhs usedReturn b (b.foldUse x.pos v rhs none) s' t' ∧
        ∀ l ∈ b.targets, Rel x v l s'.vars t'.vars)
      b.stmts (b.foldUse x.pos v rhs none).stmts s t := by
  obtain ⟨ty, hb, hst⟩ := h.site
  have hsplit := eq_take_append_cons hst
  have hbmem := List.mem_of_getElem? hb
  have hpost : ∀ st ∈ b.stmts.drop (x.pos + 1), st ∈ b.stmts := fun st hst ↦
    List.mem_of_mem_drop hst
  have hdef := of_deadUse_none h.found fun st hst ↦ hplaced st (hpost st hst)
  have hmap : (b.stmts.drop (x.pos + 1)).map (·.mapExprs (·.substVar v rhs)) =
      b.stmts.drop (x.pos + 1) := by
    conv_rhs => rw [← List.map_id (b.stmts.drop (x.pos + 1))]
    exact List.map_congr_left fun st hst ↦ mapExprs_of_not_reads (hplaced st (hpost st hst))
      (hdef st hst).1 (hdef st hst).2
  have hinl : W.Inlined decl v rhs
      (fun s' t' ↦ W.InlinedTerm v rhs usedReturn b (b.foldUse x.pos v rhs none) s' t' ∧
        ∀ l ∈ b.targets, Rel x v l s'.vars t'.vars)
      (b.stmts.take x.pos ++ .assign (.var ty v) rhs :: (b.stmts.drop (x.pos + 1) ++ []))
      (b.stmts.take x.pos ++ ([] ++
        ((b.stmts.drop (x.pos + 1)).map (·.mapExprs (·.substVar v rhs)) ++ []))) s t := by
    refine World.inlined_def halias (h.not_aliased halias) h.impure
      (fun n ↦ n ≠ v ∨ t.vars v = s.vars v) (b.termReads v = true) (.inl rfl)
      (fun _ hn ↦ .inl hn)
      (fun st hst n hn ↦ hR.same hb (mem_nodeReads_of_reads (List.mem_of_mem_take hst)
        (hplaced st (List.mem_of_mem_take hst)) hn))
      (fun n hn ↦ hR.same hb (mem_nodeReads_of_rhs (List.mem_of_getElem? hst) hn))
      (agreeOn_ne (h.not_aliased halias) hmem hR.1).or_eq (hholds rfl b ty v rhs ⟨hb, hst⟩)
      (fun st hst ↦ (hdef st hst).1) (fun st hst e he ↦ ⟨?_, ?_⟩) (fun st hst hread ↦ ?_)
      (fun before st after hcut _ ↦ .inl (h.spares htext ?_)) fun s' t' hoff hvalue _ ↦
        .nil ⟨.of_value halias h.impure rfl (fun e he ↦ ⟨?_, ?_⟩)
          (fun _ ↦ htext.mem.imp_right fun hm ↦ hm.2) hoff hvalue,
          fun l hl ↦ h.rel_of_target hoff hl⟩
    · exact Expr.suits_of_not_reads (exprs_of_not_reads (hdef st hst).1 (hdef st hst).2 he)
    · exact not_isAddrOf_of_addrTaken haddr hbmem
        (List.mem_append_left _ (List.mem_flatMap.2 ⟨st, hpost st hst, he⟩))
    · rw [(hdef st hst).2] at hread
      cases hread
    · rw [Option.getD_none, List.take_length, hcut]
      simp
    · exact htext.suits e he
    · exact not_isAddrOf_of_addrTaken haddr hbmem (List.mem_append_right _ he)
  rw [hmap, List.nil_append, List.append_nil, ← hsplit] at hinl
  exact hinl

/-- The block of the definition. -/
theorem inlined_self (h : x.Dead taken b v rhs use)
    (htext : x.DeadText taken usedReturn b v rhs use)
    (halias : ∀ n, W.aliased n = true → taken n = true)
    (haddr : addrTaken x.before v = false) (hplaced : ∀ st ∈ b.stmts, st.placed = true)
    (hmem : t.mem = s.mem) (hholds : x.DeadHolds W decl (x.block, s))
    (hR : Rel x v x.block s.vars t.vars) :
    W.Inlined decl v rhs
      (fun s' t' ↦ W.InlinedTerm v rhs usedReturn b (b.foldUse x.pos v rhs use) s' t' ∧
        ∀ l ∈ b.targets, Rel x v l s'.vars t'.vars)
      b.stmts (b.foldUse x.pos v rhs use).stmts s t := by
  cases use with
  | some j => exact h.inlined_self_some htext halias haddr hplaced hmem hholds hR
  | none => exact h.inlined_self_none htext halias haddr hplaced hmem hholds hR

theorem folded_self (h : x.Dead taken b v rhs use) :
    (x.folded v rhs use)[x.block]? = some (b.foldUse x.pos v rhs use) := by
  obtain ⟨ty, hb, -⟩ := h.site
  rw [Inlining.folded, List.getElem?_modify_eq, hb]
  rfl

theorem folded_other {j : ℕ} (hj : j ≠ x.block) : (x.folded v rhs use)[j]? = x.before[j]? := by
  rw [Inlining.folded, List.getElem?_modify_ne _ _ (Ne.symm hj)]

/-- Inlining keeps every read, and the behaviour. -/
theorem sound (h : x.Dead taken b v rhs use) {merged : Finset ℕ} {id : ℕ}
    (htext : x.DeadText taken usedReturn b v rhs use)
    (halias : ∀ n, W.aliased n = true → taken n = true)
    (haddr : addrTaken x.before v = false)
    (hplaced : ∀ b ∈ x.before, ∀ st ∈ b.stmts, st.placed = true)
    (hrun : (graphMachine (W.interp decl) usedReturn merged x.before).Always
      (x.DeadHolds W decl) (id, s)) :
    (graphMachine (W.interp decl) usedReturn merged x.before).SameBehaviour (id, s)
        (graphMachine (W.interp decl) usedReturn merged (x.folded v rhs use)) (id, s) ∧
      (graphMachine (W.interp decl) usedReturn merged x.before).Together
        (graphMachine (W.interp decl) usedReturn merged (x.folded v rhs use))
        (W.InlinedAt decl v rhs usedReturn merged x.before (x.folded v rhs use))
        (id, s) (id, s) := by
  refine World.inlined_run (R := Rel x v) (h.not_aliased halias) h.impure
    (by simp [Inlining.folded]) (fun j s₁ t₁ c _ hc hholds hmem hR ↦ ?_)
    ⟨fun _ _ ↦ rfl, .inl rfl⟩ hrun
  have hcplaced := hplaced c (List.mem_of_getElem? hc)
  by_cases hj : j = x.block
  · subst hj
    obtain ⟨ty, hb, -⟩ := h.site
    obtain rfl : b = c := Option.some.inj (hb.symm.trans hc)
    exact ⟨_, h.folded_self, h.inlined_self htext halias haddr hcplaced hmem hholds hR⟩
  · exact ⟨c, by rw [folded_other hj, hc], h.inlined_other halias hc hcplaced hmem hR⟩

theorem replacedIn (h : x.Dead taken b v rhs use) (j : ℕ) (c c' : Block)
    (hc : x.before[j]? = some c) (hc' : (x.folded v rhs use)[j]? = some c') :
    c.ReplacedIn v rhs c' := by
  obtain ⟨ty, hb, hst⟩ := h.site
  by_cases hj : j = x.block
  · subst hj
    obtain rfl : b = c := Option.some.inj (hb.symm.trans hc)
    obtain rfl : b.foldUse x.pos v rhs use = c' := Option.some.inj (h.folded_self.symm.trans hc')
    have hsplit := eq_take_append_cons hst
    cases use with
    | some j =>
      obtain ⟨win, u, mid, tail, hpost, hlength, hdef, -⟩ := cut_of_deadUse h.found
      refine Block.replacedIn_of_kept rfl ?_
      simp only [Block.foldUse]
      rw [hpost, ← hlength, modify_append_cons]
      have hrep : Replaced v rhs (b.stmts.take x.pos ++ .assign (.var ty v) rhs ::
          (win ++ u :: (mid ++ tail))) (b.stmts.take x.pos ++
            (win ++ u.mapExprs (·.substVar v rhs) :: (mid ++ tail))) :=
        (Replaced.refl _).append (.removed _ ((Replaced.refl win).append
          (.replaced (hdef u (by simp)) (.refl _))))
      rwa [← hpost, ← hsplit] at hrep
    | none =>
      refine Block.replacedIn_of_mapTerm rfl ?_
      have hrep : Replaced v rhs (b.stmts.take x.pos ++ .assign (.var ty v) rhs ::
          b.stmts.drop (x.pos + 1)) (b.stmts.take x.pos ++ b.stmts.drop (x.pos + 1)) :=
        (Replaced.refl _).append (.removed _ (.refl _))
      rwa [← hsplit] at hrep
  · rw [folded_other hj, hc] at hc'
    obtain rfl := Option.some.inj hc'
    exact Block.replacedIn_of_kept rfl (.refl _)

theorem derived (h : x.Dead taken b v rhs use) (haddr : addrTaken x.before v = false) :
    Derived x.before (x.folded v rhs use) := by
  obtain ⟨ty, hb, hst⟩ := h.site
  exact derived_of_replacedIn (by simp [Inlining.folded]) h.replacedIn haddr
    ⟨b, List.mem_of_getElem? hb, List.mem_append_left _ (List.mem_flatMap.2
      ⟨_, List.mem_of_getElem? hst, by simp [Stmt.exprs]⟩)⟩

theorem shrinks (h : x.Dead taken b v rhs use) : Shrinks x.before (x.folded v rhs use) := by
  intro j c' hc'
  have hlength : (x.folded v rhs use).length = x.before.length := by simp [Inlining.folded]
  obtain ⟨c, hc⟩ := exists_of_length_eq hlength hc'
  refine ⟨c, hc, ?_⟩
  by_cases hj : j = x.block
  · subst hj
    obtain ⟨ty, hb, hst⟩ := h.site
    obtain rfl : b = c := Option.some.inj (hb.symm.trans hc)
    refine ⟨?_, nodeReads_subset (h.replacedIn _ b c' hb hc') fun n hn ↦
      mem_nodeReads_of_rhs (List.mem_of_getElem? hst) hn⟩
    obtain rfl : b.foldUse x.pos v rhs use = c' := Option.some.inj (h.folded_self.symm.trans hc')
    cases use <;> rfl
  · rw [folded_other hj, hc] at hc'
    obtain rfl := Option.some.inj hc'
    exact ⟨rfl, subset_rfl⟩

end Sound

end Inlining.Dead

/-! ### The inlinings of the pass -/

section Steps

variable {info : VarInfo} {taken : String → Bool} {g : List Block}

/-- The inlining `x` is one that the pass makes, with result `h`. -/
def Inlining.IsDead (taken : String → Bool) (x : Inlining) (h : List Block) : Prop :=
  ∃ b v rhs use, x.Dead taken b v rhs use ∧ addrTaken x.before v = false ∧
    h = x.folded v rhs use

theorem Inlining.IsDead.derived {x : Inlining} {h : List Block} (hx : x.IsDead taken h) :
    Derived x.before h := by
  obtain ⟨b, v, rhs, use, hdead, haddr, rfl⟩ := hx
  exact hdead.derived haddr

theorem Inlining.IsDead.shrinks {x : Inlining} {h : List Block} (hx : x.IsDead taken h) :
    Shrinks x.before h := by
  obtain ⟨b, v, rhs, use, hdead, -, rfl⟩ := hx
  exact hdead.shrinks

theorem shrinks_of_erasesMarks {h : List Block} (hgh : ErasesMarks g h) : Shrinks g h := by
  intro j b' hb'
  obtain ⟨b, hb, rfl | rfl⟩ := hgh.exists hb'
  · exact ⟨_, hb, rfl, subset_rfl⟩
  · refine ⟨_, hb, rfl, fun n hn ↦ ?_⟩
    obtain ⟨e, he, hn⟩ := mem_nodeReads.1 hn
    refine mem_nodeReads.2 ⟨e, ?_, hn⟩
    rcases List.mem_append.1 he with he | he
    · obtain ⟨st, hst, he⟩ := List.mem_flatMap.1 he
      exact List.mem_append_left _ (List.mem_flatMap.2 ⟨st, (List.mem_filter.1 hst).1, he⟩)
    · exact List.mem_append_right _ he

theorem InlineSteps.shrinks {log : List Inlining} {h : List Block}
    (hgh : InlineSteps (Inlining.IsDead taken) g log h) : Shrinks g h := by
  induction hgh with
  | done => exact .refl _
  | erase herase _ ih => exact (shrinks_of_erasesMarks herase).trans ih
  | inline hx _ ih => exact hx.shrinks.trans ih

theorem of_deadDef {reach : Finset String} {b : Block} {i : ℕ} {v : String} {rhs : Expr}
    {use : Option ℕ} (h : deadDef info taken reach b i = some (v, rhs, use)) :
    (∃ ty, b.stmts[i]? = some (.assign (.var ty v) rhs)) ∧ taken v = false ∧ v ∉ reach ∧
      rhs.hasImpureCall = false ∧ deadUse v b (b.stmts.drop (i + 1)) = some use ∧
      ((b.stmts.drop (i + 1)).take (use.getD (b.stmts.drop (i + 1)).length)).any
        (·.clashes rhs) = false := by
  unfold deadDef at h
  split at h
  · next ty v' rhs' hst =>
    split at h
    · next hc =>
      simp only [Bool.and_eq_true, Bool.not_eq_true', decide_eq_true_eq] at hc
      dsimp only at h
      split at h
      · next use' huse =>
        split at h
        · cases h
        · next hclash =>
          obtain ⟨rfl, rfl, rfl⟩ : v' = v ∧ rhs' = rhs ∧ use' = use := by simpa using h
          exact ⟨⟨ty, hst⟩, hc.1.1.1.2, hc.1.1.2, hc.1.2, huse, by simpa using hclash⟩
      · cases h
    · cases h
  · cases h

theorem foldBlock_steps (budgetOk : ℕ → Bool) (id k : ℕ) {run : InlineRun}
    (h : InlineSteps (Inlining.IsDead (addrTaken g)) g run.log run.graph) :
    InlineSteps (Inlining.IsDead (addrTaken g)) g
      (foldBlock info (addrTaken g) (reachReads g id) budgetOk id k run).log
      (foldBlock info (addrTaken g) (reachReads g id) budgetOk id k run).graph := by
  induction k generalizing run with
  | zero => exact h
  | succ k ih =>
    rw [foldBlock]
    split
    · next b hb =>
      split
      · exact h
      · split
        · next i v rhs use hfound =>
          obtain ⟨i', -, hi⟩ := List.exists_of_findSome?_eq_some hfound
          obtain ⟨d, hd, heq⟩ := Option.map_eq_some_iff.1 hi
          obtain ⟨rfl, rfl⟩ := Prod.mk.inj heq
          obtain ⟨⟨ty, hst⟩, htaken, hreach, himp, huse, hwindow⟩ := of_deadDef hd
          have hder := h.derived fun _ _ hx ↦ hx.derived
          refine ih (InlineSteps.snoc (x := ⟨run.graph, id, i'⟩) h ⟨b, v, rhs, use,
            ⟨⟨ty, hb, hst⟩, htaken, fun hread ↦ hreach ?_, himp, huse, hwindow⟩, ?_, rfl⟩)
          · exact mem_reachReads (h.shrinks.readLater hread)
          · exact Bool.eq_false_iff.2 fun hn ↦ Bool.eq_false_iff.1 htaken (hder.addr v hn)
        · exact h
    · exact h

/-- The pass is a sequence of inlinings. -/
theorem foldDeadBlockTemps_steps (info : VarInfo) (budgetOk : ℕ → ℕ → Bool) (g : List Block) :
    InlineSteps (Inlining.IsDead (addrTaken g)) g (foldDeadBlockTemps info budgetOk g).log
      (foldDeadBlockTemps info budgetOk g).graph := by
  unfold foldDeadBlockTemps
  split
  · exact .done g
  · exact List.foldlRecOn (motive := fun run : InlineRun ↦
      InlineSteps (Inlining.IsDead (addrTaken g)) g run.log run.graph) _ _ (.done g)
      fun _ h id _ ↦ foldBlock_steps (budgetOk id) id 400 h

end Steps

/-! ### Soundness -/

/-- The read that is replaced finds the value that the definition has there after the inlining, and
every other read the value it had. -/
def Inlining.DeadReadsKept {M E : Type} (W : World M E) (decl : String → Val → Val)
    (usedReturn : Bool) (merged : Finset ℕ) (p : ℕ × Store M) (x : Inlining) : Prop :=
  ∃ b ty v rhs use, x.Defines b ty v rhs ∧ deadUse v b (b.stmts.drop (x.pos + 1)) = some use ∧
    (graphMachine (W.interp decl) usedReturn merged x.before).Together
      (graphMachine (W.interp decl) usedReturn merged (x.folded v rhs use))
      (W.InlinedAt decl v rhs usedReturn merged x.before (x.folded v rhs use)) p p

/-- **Folding dead temporaries is sound** when the next assignment to each of them does not read it
and nothing in between changes the memory that its definition depends on. -/
theorem foldDeadBlockTemps_sound {M E : Type} (W : World M E) (decl : String → Val → Val)
    (info : VarInfo) (budgetOk : ℕ → ℕ → Bool) (g : List Block) (usedReturn : Bool)
    (merged : Finset ℕ) (id : ℕ) (s : Store M)
    (halias : ∀ n, W.aliased n = true → addrTaken g n = true)
    (hplaced : ∀ b ∈ g, ∀ st ∈ b.stmts, st.placed = true)
    (htext : ∀ x ∈ (foldDeadBlockTemps info budgetOk g).log, ∀ b ty v rhs use,
      x.Defines b ty v rhs → deadUse v b (b.stmts.drop (x.pos + 1)) = some use →
        x.DeadText (addrTaken g) usedReturn b v rhs use)
    (hrun : ∀ x ∈ (foldDeadBlockTemps info budgetOk g).log,
      (graphMachine (W.interp decl) usedReturn merged x.before).Always
        (x.DeadHolds W decl) (id, s)) :
    (∀ x ∈ (foldDeadBlockTemps info budgetOk g).log,
      x.DeadReadsKept W decl usedReturn merged (id, s)) ∧
    (graphMachine (W.interp decl) usedReturn merged g).SameBehaviour (id, s)
      (graphMachine (W.interp decl) usedReturn merged (foldDeadBlockTemps info budgetOk g).graph)
      (id, s) := by
  have hsteps := foldDeadBlockTemps_steps info budgetOk g
  have hderived : ∀ x k, Inlining.IsDead (addrTaken g) x k → Derived x.before k :=
    fun _ _ hx ↦ hx.derived
  refine ⟨fun x hx ↦ ?_, hsteps.sameBehaviour hderived fun x k hx hxk hder ↦ ?_⟩
  · obtain ⟨hder, k, b, v, rhs, use, hdead, haddr, -⟩ := hsteps.of_mem hderived hx
    obtain ⟨ty, hsite⟩ := hdead.site
    exact ⟨b, ty, v, rhs, use, hsite, hdead.found,
      (hdead.sound (htext x hx b ty v rhs use hsite hdead.found) halias haddr
        (hder.placed hplaced) (hrun x hx)).2⟩
  · obtain ⟨b, v, rhs, use, hdead, haddr, rfl⟩ := hxk
    obtain ⟨ty, hsite⟩ := hdead.site
    exact (hdead.sound (htext x hx b ty v rhs use hsite hdead.found) halias haddr
      (hder.placed hplaced) (hrun x hx)).1

/-! ### A temporary that is assigned from itself -/

/-- `v1 = 5; f(v1); v1 = v1 + 1; f(v1); return;` -/
def selfAssigned : List Block :=
  [{ stmts := [.assign (.mkVar "v1") (.mkConst 5), .call (.call {} "f" false 0 [.mkVar "v1"]),
       .assign (.mkVar "v1") (.binary {} .add (.mkVar "v1") (.mkConst 1)),
       .call (.call {} "f" false 0 [.mkVar "v1"])]
     ends := .ret }]

theorem selfAssigned_folded : (foldDeadBlockTemps {} (fun _ _ ↦ true) selfAssigned).graph =
    [{ stmts := [.call (.call {} "f" false 0 [.mkConst 5]),
         .call (.call {} "f" false 0 [.binary {} .add (.mkVar "v1") (.mkConst 1)])]
       ends := .ret }] :=
  rfl

/-- The second call gets `1` in place of `6`. -/
theorem selfAssigned_differs :
    ¬ (graphMachine (traceWorld.interp fun _ v ↦ v) false ∅ selfAssigned).SameBehaviour
      (0, ⟨fun _ ↦ 0, fun _ ↦ 0⟩)
      (graphMachine (traceWorld.interp fun _ v ↦ v) false ∅
        (foldDeadBlockTemps {} (fun _ _ ↦ true) selfAssigned).graph)
      (0, ⟨fun _ ↦ 0, fun _ ↦ 0⟩) := by
  intro h
  have hleft : (graphMachine (traceWorld.interp fun _ v ↦ v) false ∅ selfAssigned).Emits
      (0, ⟨fun _ ↦ 0, fun _ ↦ 0⟩) [.world [5], .world [6]] := ⟨1, by decide⟩
  have hboth := (h.emits_iff _).1 hleft
  rw [selfAssigned_folded] at hboth
  have hright : (graphMachine (traceWorld.interp fun _ v ↦ v) false ∅
      [{ stmts := [.call (.call {} "f" false 0 [.mkConst 5]),
           .call (.call {} "f" false 0 [.binary {} .add (.mkVar "v1") (.mkConst 1)])]
         ends := .ret }]).Emits
      (0, ⟨fun _ ↦ 0, fun _ ↦ 0⟩) [.world [5], .world [1]] := ⟨1, by decide⟩
  rcases hboth.comparable hright with hprefix | hprefix
  · exact absurd hprefix (by decide)
  · exact absurd hprefix (by decide)

/-! ### A temporary that is used again for another value -/

/-- `v1 = 5; f(v1); v1 = a1; return;` -/
def usedAgain : List Block :=
  [{ stmts := [.assign (.mkVar "v1") (.mkConst 5), .call (.call {} "f" false 0 [.mkVar "v1"]),
       .assign (.mkVar "v1") (.mkVar "a1")]
     ends := .ret }]

theorem usedAgain_log : (foldDeadBlockTemps {} (fun _ _ ↦ true) usedAgain).log =
    [⟨usedAgain, 0, 0⟩] :=
  rfl

theorem usedAgain_sound :
    (∀ x ∈ (foldDeadBlockTemps {} (fun _ _ ↦ true) usedAgain).log,
      x.DeadReadsKept traceWorld (fun _ v ↦ v) false ∅ (0, ⟨fun _ ↦ 0, fun _ ↦ 0⟩)) ∧
    (graphMachine (traceWorld.interp fun _ v ↦ v) false ∅ usedAgain).SameBehaviour
      (0, ⟨fun _ ↦ 0, fun _ ↦ 0⟩)
      (graphMachine (traceWorld.interp fun _ v ↦ v) false ∅
        (foldDeadBlockTemps {} (fun _ _ ↦ true) usedAgain).graph)
      (0, ⟨fun _ ↦ 0, fun _ ↦ 0⟩) := by
  refine foldDeadBlockTemps_sound traceWorld (fun _ v ↦ v) {} (fun _ _ ↦ true) usedAgain
    false ∅ 0 ⟨fun _ ↦ 0, fun _ ↦ 0⟩ (fun _ h ↦ absurd h Bool.false_ne_true)
    (by simp [usedAgain, Stmt.placed, Expr.isPlace, Expr.mkVar]) ?_ ?_
  · rw [usedAgain_log]
    rintro x hx b ty v rhs use ⟨hb, hst⟩ huse
    obtain rfl := List.mem_singleton.1 hx
    cases hb
    cases hst
    obtain rfl : some 0 = use := Option.some.inj huse
    refine ⟨fun st hst ↦ ?_, by decide, .inl (by decide)⟩
    cases hst
    decide
  · rw [usedAgain_log]
    rintro x hx p -
    obtain rfl := List.mem_singleton.1 hx
    rintro - b ty v rhs ⟨hb, hst⟩
    rfl

end Ldu
