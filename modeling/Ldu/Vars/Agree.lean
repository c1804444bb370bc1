import Ldu.Vars.Liveness
import Ldu.Semantics.Reads

/-!
# Stores that agree on some variables

Stores with the same memory and the same values of some variables (`AgreeOn`) give statements and
terminators that read no others the same meaning.
-/

namespace Ldu

section AgreeOn

variable {M E : Type} {W : World M E} {decl : String → Val → Val} {g : List Block}
  {L : String → Prop} {s t : Store M}

/-- The same memory, and the same values of the variables in `L`; the variables that live in memory
have no other value that changes. -/
def AgreeOn (W : World M E) (L : String → Prop) (s t : Store M) : Prop :=
  t.mem = s.mem ∧ ∀ n, W.aliased n = true ∨ L n → t.vars n = s.vars n

theorem agreeOn_refl (L : String → Prop) (s : Store M) : AgreeOn W L s s :=
  ⟨rfl, fun _ _ ↦ rfl⟩

theorem AgreeOn.mono {L' : String → Prop} (h : AgreeOn W L s t) (hL : ∀ n, L' n → L n) :
    AgreeOn W L' s t :=
  ⟨h.1, fun n hn ↦ h.2 n (hn.imp_right (hL n))⟩

/-- Stores that differ in a variable outside memory. -/
theorem agreeOn_ne {nm : String} (hnm : W.aliased nm = false) (hmem : t.mem = s.mem)
    (h : ∀ n, n ≠ nm → t.vars n = s.vars n) : AgreeOn W (· ≠ nm) s t := by
  refine ⟨hmem, fun n hn ↦ h n ?_⟩
  rintro rfl
  rcases hn with hn | hn
  · rw [hnm] at hn
    cases hn
  · exact hn rfl

/-- They agree on that variable too if it has the same value. -/
theorem AgreeOn.or_eq {nm : String} (h : AgreeOn W (· ≠ nm) s t) :
    AgreeOn W (fun n ↦ n ≠ nm ∨ t.vars nm = s.vars nm) s t := by
  refine ⟨h.1, fun n hn ↦ ?_⟩
  by_cases hne : n = nm
  · subst hne
    rcases hn with hal | hne | heq
    · exact h.2 n (.inl hal)
    · exact absurd rfl hne
    · exact heq
  · exact h.2 n (.inr hne)

theorem AgreeOn.eval {e : Expr} (h : AgreeOn W L s t)
    (he : ∀ n, e.readsNamedVar n = true → L n) :
    W.eval e t = ((W.eval e s).1, (W.eval e s).2.1, ⟨t.vars, (W.eval e s).2.2.mem⟩) :=
  W.eval_agree e h.1 fun n hn ↦ h.2 n (.inr (he n hn))

/-- The stores an evaluation leaves agree as before. -/
theorem AgreeOn.after {x : Store M} (h : AgreeOn W L s t) (hx : x.vars = s.vars) :
    AgreeOn W L x ⟨t.vars, x.mem⟩ :=
  ⟨rfl, fun n hn ↦ by rw [hx]; exact h.2 n hn⟩

theorem AgreeOn.write {x : String} {v : Val} (h : AgreeOn W (fun n ↦ n ≠ x ∧ L n) s t) :
    AgreeOn W L (W.write s x v) (W.write t x v) := by
  unfold World.write
  split
  · next hx =>
    refine ⟨by simp only [h.1], fun n hn ↦ h.2 n ?_⟩
    by_cases hnx : n = x
    · exact .inl (hnx ▸ hx)
    · exact hn.imp_right fun hn ↦ ⟨hnx, hn⟩
  · refine ⟨h.1, fun n hn ↦ ?_⟩
    by_cases hnx : n = x
    · simp only [hnx, Function.update_self]
    · simp only [Function.update_of_ne hnx]
      exact h.2 n (hn.imp_right fun hn ↦ ⟨hnx, hn⟩)

/-- Assigning a variable that is not in `L`, on one side only. -/
theorem AgreeOn.write_left {x : String} {v : Val} (h : AgreeOn W L s t)
    (halias : W.aliased x = false) (hx : ¬ L x) : AgreeOn W L (W.write s x v) t := by
  unfold World.write
  rw [if_neg (by rw [halias]; decide)]
  refine ⟨h.1, fun n hn ↦ ?_⟩
  have hne : n ≠ x := by
    rintro rfl
    rcases hn with hn | hn
    · rw [halias] at hn
      cases hn
    · exact hx hn
  rw [h.2 n hn]
  exact (Function.update_of_ne hne _ _).symm

/-- One statement, in stores that agree on what is live before it. -/
theorem AgreeOn.exec {st : Stmt}
    (h : AgreeOn W (fun n ↦ st.reads n = true ∨ (st.assigns n = false ∧ L n)) s t) :
    Lockstep (AgreeOn W L) ((W.interp decl).exec st s) ((W.interp decl).exec st t) := by
  unfold World.interp
  dsimp only
  by_cases hdef : ∀ n, st.defOf n = none
  · have hstep := W.readsOnly_execStmt decl hdef s t h.1 fun n hn ↦ h.2 n (.inr (.inl hn))
    have hvars := (W.readsOnly_execStmt decl hdef).vars_eq s
    rw [hstep]
    refine lockstep_inl (AgreeOn.after (h.mono fun n hn ↦ .inr ⟨?_, hn⟩) hvars)
    rw [Stmt.assigns, hdef n]
    rfl
  · obtain ⟨x, hx⟩ := not_forall.1 hdef
    obtain ⟨rhs, hx⟩ := Option.ne_none_iff_exists'.1 hx
    obtain ⟨ty, rfl⟩ := defOf_eq_some hx
    have heval := h.eval (e := rhs) fun n hn ↦ .inl (Stmt.reads_rhs hn)
    rw [W.execStmt_var, W.execStmt_var, heval]
    refine lockstep_inl (AgreeOn.write (AgreeOn.after (h.mono fun n hn ↦ .inr ⟨?_, hn.2⟩)
      (W.eval_vars rhs s)))
    simp [Stmt.assigns, Stmt.defOf, hn.1.symm]

end AgreeOn

/-! ### Terminators -/

section Transfer

variable {M E : Type} {W : World M E} {decl : String → Val → Val} {g : List Block}
  {usedReturn : Bool} {b b' : Block} {i : ℕ} {s t : Store M}

/-- A block leaves with the same value. -/
theorem AgreeOn.leave {L : String → Prop} (h : AgreeOn W L s t)
    (hL : ∀ n, b.termReads n = true → L n) :
    (W.interp decl).leave (b.retText usedReturn) t =
      (W.interp decl).leave (b.retText usedReturn) s := by
  have heval : ∀ e ∈ b.tailCall.toList ++ b.retValue.toList,
      (W.eval e t).1 = (W.eval e s).1 ∧ (W.eval e t).2.1 = (W.eval e s).2.1 := by
    intro e he
    rw [h.eval fun n hn ↦ hL n ?_]
    · exact ⟨rfl, rfl⟩
    · simp only [Block.termReads, List.any_append, Bool.or_eq_true, List.any_eq_true]
      rcases List.mem_append.1 he with he | he
      · exact .inr ⟨e, he, hn⟩
      · exact .inl (.inr ⟨e, he, hn⟩)
  unfold Block.retText
  cases htc : b.tailCall with
  | some e =>
    obtain ⟨hev, hv⟩ := heval e (by simp [htc])
    cases usedReturn <;> simp [World.interp, hev, hv]
  | none =>
    cases hrv : b.retValue with
    | some e =>
      obtain ⟨hev, hv⟩ := heval e (by simp [hrv])
      cases usedReturn <;> cases b.hasRetValue <;> simp [World.interp, hev, hv]
    | none => cases usedReturn <;> cases b.hasRetValue <;> simp [World.interp]

/-- Terminators with the same expressions, in stores that agree on what is live at the end. -/
theorem AgreeOn.transfer {L : String → Prop} (hL : ∀ n, b.termReads n = true → L n)
    (h : AgreeOn W L s t) (hexits : b.SameExits b') (hcond : b'.cond = b.cond)
    (hsel : b'.switchVar = b.switchVar)
    (hret : b'.retText usedReturn = b.retText usedReturn) :
    Lockstep (SameBlock (AgreeOn W L)) (transfer (W.interp decl) usedReturn b s)
      (transfer (W.interp decl) usedReturn b' t) := by
  refine lockstep_transfer hexits (fun s t h ↦ ?_) (fun s t h ↦ ?_) (fun s t h ↦ ?_) h
  · have heval := h.eval (e := b.condExpr) fun n hn ↦ hL n (condExpr_reads hn)
    have hc : b'.condExpr = b.condExpr := by rw [Block.condExpr, Block.condExpr, hcond]
    simp only [World.interp, hc, heval, true_and]
    exact AgreeOn.after h (W.eval_vars _ s)
  · have heval := h.eval (e := b.selExpr) fun n hn ↦ hL n (selExpr_reads hn)
    have hc : b'.selExpr = b.selExpr := by rw [Block.selExpr, Block.selExpr, hsel]
    simp only [World.interp, hc, heval, true_and]
    exact AgreeOn.after h (W.eval_vars _ s)
  · rw [hret]
    exact AgreeOn.leave h hL

end Transfer

end Ldu
