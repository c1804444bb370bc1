import Ldu.Semantics.Locals
import Ldu.Vars.Agree

/-!
# Dead stores within a block

`local_dead_store_elim` drops an assignment without calls to a variable that a later statement of
the block assigns again before a statement in between names it. It does not stop at loads and
calls, which may look at a local whose address is taken. Where none does before the local is
assigned again (`DropsUnseen`), a block without the dropped assignments does what it did
(`execAll_keepLive`), and the function behaves alike (`localDeadStoreElim_sound`).
-/

namespace Ldu

/-! ### The pass -/

/-- The statement names the variable in an operand that is looked at: its value, or the address of
a store. -/
def Stmt.countedReads (x : String) : Stmt → Bool
  | assign (.mem _ a) rhs => rhs.readsNamedVar x || a.readsNamedVar x
  | assign _ rhs => rhs.readsNamedVar x
  | call rhs => rhs.readsNamedVar x
  | comment _ => false

/-- A statement assigns the variable before one names it. -/
def overwrittenBy (x : String) : List Stmt → Bool
  | [] => false
  | st :: sts =>
    if st.countedReads x then false else if st.assigns x then true else overwrittenBy x sts

/-- The assignment is dropped, given the statements after it. -/
def isLocalDead : Stmt → List Stmt → Bool
  | .assign (.var _ x) rhs, sts => !rhs.hasCall && overwrittenBy x sts
  | _, _ => false

/-- The statements that stay. -/
def keepLive : List Stmt → List Stmt
  | [] => []
  | st :: sts => if isLocalDead st sts then keepLive sts else st :: keepLive sts

def localDeadStoreElim (g : List Block) : List Block :=
  g.map fun b ↦ { b with stmts := keepLive b.stmts }

/-- The left side is no place and names the variable. -/
def Stmt.strayReads (x : String) : Stmt → Bool
  | assign lhs _ => !lhs.isPlace && lhs.readsNamedVar x
  | _ => false

section Pass

variable {x : String} {st : Stmt} {sts : List Stmt}

theorem reads_eq_counted : st.reads x = (st.countedReads x || st.strayReads x) := by
  cases st with
  | assign lhs rhs =>
    cases lhs <;>
      simp [Stmt.reads, Stmt.countedReads, Stmt.strayReads, Stmt.exprs, Expr.isPlace,
        Bool.or_comm, Expr.readsNamedVar, Expr.anyNode, Expr.isVarNamed]
  | call rhs => simp [Stmt.reads, Stmt.countedReads, Stmt.strayReads, Stmt.exprs]
  | comment => simp [Stmt.reads, Stmt.countedReads, Stmt.strayReads, Stmt.exprs]

theorem overwrittenBy_cons : overwrittenBy x (st :: sts) = true ↔
    st.countedReads x = false ∧ (st.assigns x = true ∨ overwrittenBy x sts = true) := by
  rw [overwrittenBy]
  split <;> simp_all

theorem isLocalDead_eq_true (h : isLocalDead st sts = true) : ∃ ty x rhs,
    st = .assign (.var ty x) rhs ∧ rhs.hasCall = false ∧ overwrittenBy x sts = true := by
  unfold isLocalDead at h
  split at h
  · next ty x rhs =>
    simp only [Bool.and_eq_true, Bool.not_eq_true'] at h
    exact ⟨ty, x, rhs, rfl, h⟩
  · cases h

theorem assigns_var {ty : Ty} {y : String} {rhs : Expr} :
    (Stmt.assign (.var ty y) rhs).assigns x = true ↔ x = y := by
  simp [Stmt.assigns, Stmt.defOf, eq_comm (a := x)]

end Pass

/-! ### Who looks at a dropped value -/

section Looks

variable {M E : Type} {W : World M E} (F : LocalMemory W) (decl : String → Val → Val)

/-- The statement looks at the variable without naming it in a counted operand: through memory, or
in a left side that is no place. -/
def LooksAt (st : Stmt) (s : Store M) (x : String) : Prop :=
  (W.aliased x = true ∧ F.StmtSees st s x) ∨ st.strayReads x = true

/-- No statement looks at the variable until one assigns it. -/
def Unseen (x : String) : List Stmt → Store M → Prop
  | [], _ => True
  | st :: sts, s => ¬LooksAt F st s x ∧
      (st.assigns x = false → Unseen x sts (W.execStmt decl st s).2.2)

/-- After each assignment that is dropped, no statement looks at the variable until one assigns
it. -/
def DropsUnseen : List Stmt → Store M → Prop
  | [], _ => True
  | st :: sts, s =>
    (∀ x, st.assigns x = true → isLocalDead st sts = true →
        Unseen F decl x sts (W.execStmt decl st s).2.2) ∧
      DropsUnseen sts (W.execStmt decl st s).2.2

end Looks

/-! ### A block without the dropped assignments -/

section Pending

variable {M E : Type} {W : World M E} {F : LocalMemory W} {decl : String → Val → Val}
  {P : String → Prop} {s t : Store M} {st : Stmt} {sts : List Stmt}

variable (F P) in
/-- The stores differ at most in the values of the variables in `P`. -/
structure Pending (s t : Store M) : Prop where
  mem : F.Same (fun x ↦ P x ∧ W.aliased x = true) s.mem t.mem
  vars : ∀ n, W.aliased n = true ∨ ¬P n → t.vars n = s.vars n

theorem pending_refl (s : Store M) : Pending F P s s :=
  ⟨F.same_refl _ _, fun _ _ ↦ rfl⟩

theorem Pending.eq (h : Pending F P s t) (hP : ∀ x, ¬P x) : t = s := by
  have hmem := F.eq_of_same (fun x hx ↦ hP x hx.1) h.mem
  have hvars : t.vars = s.vars := funext fun n ↦ h.vars n (.inr (hP n))
  cases s
  cases t
  simp_all

/-- Assigning a variable in one of the stores. -/
theorem Pending.write_left (h : Pending F P s t) (x : String) (v : Val) :
    Pending F (fun y ↦ P y ∨ y = x) (W.write s x v) t := by
  unfold World.write
  split
  · next hx =>
    exact ⟨F.same_setLocal_left v hx ⟨.inr rfl, hx⟩
      (F.same_mono (fun y hy ↦ ⟨.inl hy.1, hy.2⟩) h.mem),
      fun n hn ↦ h.vars n (hn.imp_right fun hn hP ↦ hn (.inl hP))⟩
  · next hx =>
    refine ⟨F.same_mono (fun y hy ↦ ⟨.inl hy.1, hy.2⟩) h.mem, fun n hn ↦ ?_⟩
    have hne : n ≠ x := by
      rintro rfl
      exact hn.elim hx fun hn ↦ hn (.inr rfl)
    rw [h.vars n (hn.imp_right fun hn hP ↦ hn (.inl hP))]
    exact (Function.update_of_ne hne _ _).symm

/-- Assigning it in both: afterwards it is the same. -/
theorem Pending.write (h : Pending F P s t) (x : String) (v : Val) :
    Pending F (fun y ↦ P y ∧ y ≠ x) (W.write s x v) (W.write t x v) := by
  unfold World.write
  split
  · next hx =>
    refine ⟨F.same_mono (fun y hy ↦ ⟨⟨hy.1.1, hy.2⟩, hy.1.2⟩) (F.same_setLocal v hx h.mem),
      fun n hn ↦ h.vars n ?_⟩
    by_cases hne : n = x
    · exact .inl (hne ▸ hx)
    · exact hn.imp_right fun hn hP ↦ hn ⟨hP, hne⟩
  · next hx =>
    refine ⟨F.same_mono (fun y hy ↦ ⟨⟨hy.1, ?_⟩, hy.2⟩) h.mem, fun n hn ↦ ?_⟩
    · rintro rfl
      exact hx hy.2
    · by_cases hne : n = x
      · simp only [hne, Function.update_self]
      · simp only [Function.update_of_ne hne]
        exact h.vars n (hn.imp_right fun hn hP ↦ hn ⟨hP, hne⟩)

/-- A statement that does not look at the variables in `P`. -/
theorem Pending.execStmt (decl : String → Val → Val) (h : Pending F P s t)
    (hcounted : ∀ x, P x → st.countedReads x = false) (hlooks : ∀ x, P x → ¬LooksAt F st s x) :
    (W.execStmt decl st t).1 = (W.execStmt decl st s).1 ∧
      Pending F (fun x ↦ P x ∧ st.assigns x = false) (W.execStmt decl st s).2.2
        (W.execStmt decl st t).2.2 := by
  have hreads : ∀ x, P x → st.reads x = false := fun x hx ↦ by
    rw [reads_eq_counted, hcounted x hx, Bool.false_or]
    exact Bool.eq_false_iff.2 fun hstray ↦ hlooks x hx (.inr hstray)
  have hsees : ∀ x, P x ∧ W.aliased x = true → ¬F.StmtSees st s x := fun x hx hs ↦
    hlooks x hx.1 (.inl ⟨hx.2, hs⟩)
  have hvars : ∀ n, st.reads n = true → t.vars n = s.vars n := fun n hn ↦
    h.vars n (.inr fun hP ↦ absurd hn (by simp [hreads n hP]))
  by_cases hdef : ∀ n, st.defOf n = none
  · obtain ⟨m, hm, hsame⟩ :=
      F.framedAt_execStmt decl s hdef (fun x hx ↦ hreads x hx.1) hsees t h.mem hvars
    have hassigns (x : String) : st.assigns x = false := by rw [Stmt.assigns, hdef x]; rfl
    rw [hm]
    refine ⟨rfl, F.same_mono (fun x hx ↦ ⟨⟨hx.1, hassigns x⟩, hx.2⟩) hsame, fun n hn ↦ ?_⟩
    rw [(W.readsOnly_execStmt decl hdef).vars_eq s]
    exact h.vars n (hn.imp_right fun hn hP ↦ hn ⟨hP, hassigns n⟩)
  · obtain ⟨x, hx⟩ := not_forall.1 hdef
    obtain ⟨rhs, hx⟩ := Option.ne_none_iff_exists'.1 hx
    obtain ⟨ty, rfl⟩ := defOf_eq_some hx
    have hname : LocalMemory.Unnamed (fun x ↦ P x ∧ W.aliased x = true) rhs := fun y hy ↦
      Bool.eq_false_iff.2 fun hread ↦ by
        have hread : (Stmt.assign (.var ty x) rhs).reads y = true := Stmt.reads_rhs hread
        rw [hreads y hy.1] at hread
        cases hread
    obtain ⟨m, hm, hsame⟩ := F.framedAt_eval rhs s hname
      (fun y hy hs ↦ hsees y hy (.inr hs)) t h.mem fun n hn ↦ hvars n (Stmt.reads_rhs hn)
    have hpend : Pending F P (W.eval rhs s).2.2 ⟨t.vars, m⟩ :=
      ⟨hsame, fun n hn ↦ by rw [W.eval_vars]; exact h.vars n hn⟩
    rw [W.execStmt_var, W.execStmt_var, hm]
    refine ⟨rfl, ?_⟩
    have hwrite := hpend.write x (decl x (W.eval rhs s).2.1)
    have heq : (fun y ↦ P y ∧ (Stmt.assign (.var ty x) rhs).assigns y = false) =
        fun y ↦ P y ∧ y ≠ x := by
      funext y
      rw [← Bool.not_eq_true, assigns_var]
    rw [heq]
    exact hwrite

/-- **A block without the dropped assignments does the same**, in a store that differs in variables
that no statement looks at until one assigns them. -/
theorem execAll_keepLive (h : Pending F P s t) (hover : ∀ x, P x → overwrittenBy x sts = true)
    (hunseen : ∀ x, P x → Unseen F decl x sts s) (hspared : DropsUnseen F decl sts s) :
    (W.interp decl).execAll (keepLive sts) t = (W.interp decl).execAll sts s := by
  induction sts generalizing P s t with
  | nil =>
    rw [h.eq fun x hx ↦ absurd (hover x hx) (by simp [overwrittenBy])]
    rfl
  | cons st sts ih =>
    obtain ⟨hdropped, hspared⟩ := hspared
    have hcounted (x : String) (hx : P x) := (overwrittenBy_cons.1 (hover x hx)).1
    have hlooks (x : String) (hx : P x) : ¬LooksAt F st s x := (hunseen x hx).1
    rw [keepLive]
    split
    · next hdead =>
      obtain ⟨ty, x, rhs, rfl, hcall, hx⟩ := isLocalDead_eq_true hdead
      have hsilent := (W.silent_eval (Expr.hasImpureCall_of_hasCall hcall) s).eq
      have hexec : W.execStmt decl (.assign (.var ty x) rhs) s =
          ([], (), W.write s x (decl x (W.eval rhs s).2.1)) := by
        rw [W.execStmt_var, hsilent]
      have hrest := ih (h.write_left x (decl x (W.eval rhs s).2.1)) (fun y hy ↦ ?_)
        (fun y hy ↦ ?_) (by rwa [hexec] at hspared)
      · rw [hrest, Interp.execAll]
        unfold World.interp
        dsimp only
        rw [hexec]
        rfl
      · rcases hy with hy | rfl
        · rcases (overwrittenBy_cons.1 (hover y hy)).2 with hassign | hy'
          · rw [assigns_var.1 hassign]
            exact hx
          · exact hy'
        · exact hx
      · by_cases hyx : y = x
        · subst hyx
          have hun := hdropped y (assigns_var.2 rfl) hdead
          rwa [hexec] at hun
        · have hun := (hunseen y (hy.resolve_right hyx)).2
            (Bool.eq_false_iff.2 fun hassign ↦ hyx (assigns_var.1 hassign))
          rwa [hexec] at hun
    · obtain ⟨hev, hpend⟩ := h.execStmt decl hcounted hlooks
      have hrest := ih hpend
        (fun x hx ↦ (overwrittenBy_cons.1 (hover x hx.1)).2.resolve_left (by simp [hx.2]))
        (fun x hx ↦ (hunseen x hx.1).2 hx.2) hspared
      rw [Interp.execAll, Interp.execAll]
      unfold World.interp at hrest ⊢
      dsimp only
      rw [hev, hrest]

end Pending

/-! ### The function -/

section Function

variable {M E : Type} {W : World M E} {F : LocalMemory W} {decl : String → Val → Val}
  {g : List Block} {usedReturn : Bool} {merged : Finset ℕ}

theorem runBlock_keepLive {b : Block} {s : Store M} (h : DropsUnseen F decl b.stmts s) :
    runBlock (W.interp decl) usedReturn { b with stmts := keepLive b.stmts } s =
      runBlock (W.interp decl) usedReturn b s := by
  have hstmts := execAll_keepLive (P := fun _ ↦ False) (pending_refl s) (fun _ ↦ False.elim)
    (fun _ ↦ False.elim) h
  unfold runBlock
  dsimp only
  rw [hstmts]
  rfl

/-- A step before and after the pass. -/
theorem step_localDeadStoreElim {p : ℕ × Store M}
    (h : ∀ b, g[p.1]? = some b → DropsUnseen F decl b.stmts p.2) :
    (graphMachine (W.interp decl) usedReturn merged (localDeadStoreElim g)).step p =
      (graphMachine (W.interp decl) usedReturn merged g).step p := by
  obtain ⟨i, s⟩ := p
  unfold graphMachine localDeadStoreElim
  dsimp only
  rw [List.getElem?_map]
  split
  · rfl
  · cases hb : g[i]? with
    | none => rfl
    | some b => exact runBlock_keepLive (h b hb)

end Function

/-- **Dropped values are not observed**, in the runs in which nothing looks through memory at a
local between a dropped assignment to it and the next one: the function without the dropped
assignments makes the same calls and stores and returns the same. -/
theorem localDeadStoreElim_sound {M E : Type} (W : World M E) (F : LocalMemory W)
    (decl : String → Val → Val) (g : List Block) (usedReturn : Bool) (merged : Finset ℕ) (id : ℕ)
    (s : Store M)
    (hrun : (graphMachine (W.interp decl) usedReturn merged g).Always
      (fun p ↦ ∀ b, g[p.1]? = some b → DropsUnseen F decl b.stmts p.2) (id, s)) :
    (graphMachine (W.interp decl) usedReturn merged g).SameBehaviour (id, s)
      (graphMachine (W.interp decl) usedReturn merged (localDeadStoreElim g)) (id, s) := by
  refine Machine.Simulation.sameBehaviour_of_always (Q := fun p q ↦ q = p) ?_ rfl hrun
  rintro p q rfl halways
  refine matches_of_lockstep ?_
  rw [step_localDeadStoreElim halways.now]
  rcases (graphMachine (W.interp decl) usedReturn merged g).step q with ⟨es, p' | r⟩
  · exact lockstep_inl rfl
  · exact lockstep_inr

/-! ### A local at an address -/

/-- The world of traces, in which `v1` lives at address 100. -/
def slotWorld : World (Val → Val) (List Val) :=
  { traceWorld with
    aliased := (· == "v1")
    getLocal := fun m _ ↦ m 100
    setLocal := fun m _ v ↦ Function.update m 100 v
    addr := fun x ↦ if x = "v1" then 100 else 0 }

/-- Loads of the address look at `v1`; calls do not. -/
def slotMemory : LocalMemory slotWorld where
  Same P m m' := ∀ p, (P "v1" → p ≠ 100) → m' p = m p
  loadHits _ p x := x = "v1" ∧ p = 100
  callSees _ _ _ _ _ := False
  same_refl _ _ _ _ := rfl
  eq_of_same hP h := funext fun p ↦ h p fun h ↦ absurd h (hP _)
  same_mono hPQ h p hp := h p fun hP ↦ hp (hPQ _ hP)
  same_setLocal_left {P m m' x} v hx hP h p hp := by
    obtain rfl : x = "v1" := by simpa [slotWorld] using hx
    change m' p = Function.update m 100 v p
    rw [Function.update_of_ne (hp hP), h p hp]
  same_setLocal {P m m' x} v hx h p _ := by
    change Function.update m' 100 v p = Function.update m 100 v p
    by_cases hp : p = 100
    · rw [hp, Function.update_self, Function.update_self]
    · rw [Function.update_of_ne hp, Function.update_of_ne hp, h p fun _ ↦ hp]
  getLocal_eq {P m m' x} hx hP h := by
    obtain rfl : x = "v1" := by simpa [slotWorld] using hx
    exact h 100 fun h ↦ absurd h hP
  load_eq {P m m' ty p} hP h := h p fun hv hp ↦ hP "v1" hv ⟨rfl, hp⟩
  store_same {P m m'} ty p v h := by
    refine ⟨rfl, fun q hq ↦ ?_⟩
    change Function.update m' p v q = Function.update m p v q
    by_cases hqp : q = p
    · rw [hqp, Function.update_self, Function.update_self]
    · rw [Function.update_of_ne hqp, Function.update_of_ne hqp, h q hq]
  call_same _ _ _ _ h := ⟨rfl, rfl, h⟩

/-- `v1 = a1; v1 = 0; t2 = *&v1; return t2;` -/
def homedZero : List Block :=
  [{ stmts := [.assign (.mkVar "v1") (.mkVar "a1"), .assign (.mkVar "v1") (.mkConst 0),
      .assign (.mkVar "t2") (.mem {} (.addrOf {} (.mkVar "v1")))]
     ends := .ret
     hasRetValue := true
     retValue := some (.mkVar "t2") }]

theorem homedZero_sound :
    (graphMachine (slotWorld.interp fun _ v ↦ v) true ∅ homedZero).SameBehaviour (0, zeroStore)
      (graphMachine (slotWorld.interp fun _ v ↦ v) true ∅ (localDeadStoreElim homedZero))
      (0, zeroStore) := by
  refine localDeadStoreElim_sound slotWorld slotMemory (fun _ v ↦ v) homedZero true ∅ 0 zeroStore ?_
  -- The function is left from its only block, so only the first state is reached.
  have hstart : (graphMachine (slotWorld.interp fun _ v ↦ v) true ∅ homedZero).Always
      (· = (0, zeroStore)) (0, zeroStore) := by
    refine Machine.Always.of_preserved rfl ?_
    rintro _ es p' rfl hstep
    cases hstep
  intro p hp b hb
  obtain rfl := hstart p hp
  obtain rfl := Option.some.inj hb
  simp [DropsUnseen, Unseen, LooksAt, LocalMemory.StmtSees, LocalMemory.TargetSees,
    LocalMemory.Sees, Stmt.strayReads, Stmt.assigns, Stmt.defOf, isLocalDead, overwrittenBy,
    Expr.mkVar, Expr.mkConst, Expr.isPlace]

/-- `t1 = &v1; v1 = 1; t2 = *t1; v1 = 2; return t2;` -/
def loadBetween : List Block :=
  [{ stmts := [.assign (.mkVar "t1") (.addrOf {} (.mkVar "v1")),
      .assign (.mkVar "v1") (.mkConst 1), .assign (.mkVar "t2") (.mem {} (.mkVar "t1")),
      .assign (.mkVar "v1") (.mkConst 2)]
     ends := .ret
     hasRetValue := true
     retValue := some (.mkVar "t2") }]

/-- The load in between reads the value that is dropped. -/
theorem loadBetween_differs :
    (∀ x, slotWorld.aliased x = true → addrTaken loadBetween x = true) ∧
      ¬(graphMachine (slotWorld.interp fun _ v ↦ v) true ∅ loadBetween).SameBehaviour (0, zeroStore)
        (graphMachine (slotWorld.interp fun _ v ↦ v) true ∅ (localDeadStoreElim loadBetween))
        (0, zeroStore) := by
  refine ⟨fun x hx ↦ ?_, fun h ↦ ?_⟩
  · obtain rfl : x = "v1" := by simpa [slotWorld] using hx
    decide
  · have hleft : (graphMachine (slotWorld.interp fun _ v ↦ v) true ∅ loadBetween).Returns
        (0, zeroStore) [] (some (some 1)) := ⟨1, rfl⟩
    have hright : (graphMachine (slotWorld.interp fun _ v ↦ v) true ∅
        (localDeadStoreElim loadBetween)).Returns (0, zeroStore) [] (some (some 0)) := ⟨1, rfl⟩
    obtain ⟨-, hval⟩ := Machine.Returns.unique ((h.returns_iff _ _).1 hleft) hright
    exact absurd hval (by decide)

end Ldu
