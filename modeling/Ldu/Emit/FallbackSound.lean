import Ldu.Emit.Fallback

/-!
# What the fallback text does

The text of both emitters is compared with the graph, along the run from the entry block. A
visited block is printed faithfully if all its statements are printed and the successor it
takes is where the text leads: in labelled text that depends on the labels, which come from
addresses and need not be unique, and on what is printed next (`gotoFaithful`); in the state
machine on the successors that the terminator names (`stateFaithful`).

Runs whose blocks are all faithful behave in the text as in the graph (`fallback_sameBehaviour`).
The condition fails in particular for the loops whose initialisation and increment were moved
into a `for` header: both statements are missing from the text (`forLoop_diverges`).
-/

namespace Ldu

open Ldu.Expr

/-! ### Statements -/

section Printed

variable {σ E R : Type*} {I : Interp σ E R} {sig : String → Bool} {suppressed : Finset (ℕ × ℕ)}

/-- All statements of the block that the run executes are printed: none is suppressed, and those
after a call that is taken not to return are not reached. -/
def printsAll (I : Interp σ E R) (sig : String → Bool) (suppressed : Finset (ℕ × ℕ))
    (g : List Block) (id : ℕ) (s : σ) : Bool :=
  let sts := (g[id]?.getD {}).stmts
  let out := renderStmts sig suppressed g id
  (List.range sts.length).all (fun i ↦ (id, i) ∉ suppressed) &&
    (out.length == sts.length || (I.execAll out s).2.isRight)

theorem printed_isPrefix (sig : String → Bool) (id : ℕ) (sts : List Stmt) {i : ℕ}
    (h : ∀ j < sts.length, (id, i + j) ∉ suppressed) :
    printed sig suppressed id i sts <+: sts := by
  induction sts generalizing i with
  | nil => exact List.nil_prefix
  | cons st sts ih =>
    have h₀ := h 0 (by simp)
    have hsts : ∀ j < sts.length, (id, i + 1 + j) ∉ suppressed := fun j hj ↦ by
      have := h (j + 1) (by simpa using hj)
      rwa [Nat.add_assoc, Nat.add_comm 1 j]
    unfold printed
    rw [if_neg (by simpa using h₀)]
    split
    · exact ⟨sts, rfl⟩
    · exact List.cons_prefix_cons.2 ⟨rfl, ih hsts⟩

theorem execAll_renderStmts {g : List Block} {id : ℕ} {s : σ}
    (h : printsAll I sig suppressed g id s = true) :
    I.execAll (renderStmts sig suppressed g id) s = I.execAll (g[id]?.getD {}).stmts s := by
  simp only [printsAll, Bool.and_eq_true, List.all_eq_true, List.mem_range, decide_eq_true_eq,
    Bool.or_eq_true, beq_iff_eq] at h
  obtain ⟨hkept, hlen | hhalt⟩ := h
  · have hkeep := printed_isPrefix sig id (i := 0) _
      fun j hj ↦ by simpa using hkept j hj
    exact congrArg (I.execAll · s) (hkeep.eq_of_length hlen)
  · obtain ⟨sts', hsts⟩ := printed_isPrefix sig id (i := 0) _
      fun j hj ↦ by simpa using hkept j hj
    obtain ⟨r, hr⟩ := Sum.isRight_iff.1 hhalt
    rw [← hsts]
    exact (Prod.ext rfl hr : I.execAll _ s = (_, .inr r)).trans
      (Interp.execAll_append_of_inr (Prod.ext rfl hr) sts').symm

theorem emitStmts_eq {render : ℕ → List Stmt} (c : StmtCache render) (id level : ℕ) :
    ∃ c', emitStmts c id level = (render id, c') := by
  unfold emitStmts
  split
  · next text hlookup =>
    obtain ⟨l, l', hl, -⟩ := List.lookup_eq_some_iff.1 hlookup
    have htext := c.sound ((id, level), text) (by rw [hl]; simp)
    exact ⟨c, Prod.ext htext rfl⟩
  · exact ⟨_, rfl⟩

end Printed

/-! ### Switches -/

theorem find?_liveCases (b : Block) (k : ℤ) :
    ((liveCases b).find? fun c ↦ (c.1 : ℤ) = k).map (·.2) =
      if 0 ≤ k then b.caseSucc[k.toNat]?.join else none := by
  have key : ∀ (cs : List (Option ℕ)) (n : ℕ),
      (((cs.zipIdx n).filterMap fun c ↦ c.1.map (c.2, ·)).find?
        fun c : ℕ × ℕ ↦ (c.1 : ℤ) = k).map (·.2) =
        if (n : ℤ) ≤ k then cs[k.toNat - n]?.join else none := by
    intro cs
    induction cs with
    | nil => simp
    | cons c cs ih =>
      intro n
      have hrest := ih (n + 1)
      rcases lt_trichotomy (n : ℤ) k with hlt | rfl | hgt
      · have hidx : k.toNat - n = k.toNat - (n + 1) + 1 := by omega
        rw [if_pos (by push_cast; omega)] at hrest
        rw [if_pos hlt.le, hidx, List.getElem?_cons_succ, ← hrest]
        cases c with
        | none => simp
        | some t => simp [hlt.ne]
      · rw [if_neg (by push_cast; omega)] at hrest
        cases c with
        | none => simpa using hrest
        | some t => simp
      · rw [if_neg (by push_cast; omega)] at hrest
        rw [if_neg (by omega), ← hrest]
        cases c with
        | none => simp
        | some t => simp [hgt.ne']
  exact key b.caseSucc 0

/-! ### Labelled text -/

section Text

variable {σ E R : Type*} {I : Interp σ E R} {usedReturn : Bool} {g : List Block}
  {render : ℕ → List Stmt}

/-- The text of the blocks, without the cache. -/
def gotoText (usedReturn : Bool) (g : List Block) (render : ℕ → List Stmt) : List ℕ → List Line
  | [] => []
  | id :: ids =>
    .label (blockLabel g id) :: ((render id).map .stmt ++
      (exitLines usedReturn g ids.head? (g[id]?.getD {}) ++ gotoText usedReturn g render ids))

theorem emitGotoCfg_eq (c : StmtCache render) (ids : List ℕ) :
    emitGotoCfg usedReturn g c ids = gotoText usedReturn g render ids := by
  induction ids generalizing c with
  | nil => rfl
  | cons id ids ih =>
    obtain ⟨c', hc⟩ := emitStmts_eq c id 1
    simp only [emitGotoCfg, gotoText, hc, ih]

/-- The labels of the blocks printed before. -/
def seenLabels (g : List Block) (pre : List ℕ) : List String :=
  (pre.map (blockLabel g)).reverse

/-- The text from block `id` on, behind its label, when the blocks `pre` are printed before it
and the blocks `post` after it. -/
def textFrom (usedReturn : Bool) (g : List Block) (render : ℕ → List Stmt) (pre : List ℕ)
    (id : ℕ) (post : List ℕ) : List Line :=
  (render id).map .stmt ++ (exitLines usedReturn g post.head? (g[id]?.getD {}) ++
    dedupeLabelDefs (seenLabels g (pre ++ [id])) (gotoText usedReturn g render post))

/-- No line of the list defines a label. -/
def Unlabelled (ls : List Line) : Prop :=
  ∀ l, .label l ∉ ls

theorem unlabelled_exitLines (nxt : Option ℕ) (b : Block) :
    Unlabelled (exitLines usedReturn g nxt b) := by
  have hcont : ∀ t ls, Unlabelled ls → Unlabelled (continueAt g nxt t ls) := by
    intro t ls hls l hl
    unfold continueAt at hl
    split at hl
    · split at hl <;> simp at hl
    · exact hls l hl
  intro l hl
  unfold exitLines at hl
  split at hl
  · simp at hl
  · simp at hl
  · simp only [List.mem_append, List.mem_map, reduceCtorEq, and_false, exists_false,
      false_or] at hl
    exact hcont _ _ (by simp [Unlabelled]) l hl
  · exact hcont _ _ (by simp [Unlabelled]) l hl
  · exact hcont _ _ (by simp [Unlabelled]) l hl

theorem dedupe_append {ls : List Line} (h : Unlabelled ls) (seen : List String)
    (rest : List Line) :
    dedupeLabelDefs seen (ls ++ rest) = ls ++ dedupeLabelDefs seen rest := by
  induction ls with
  | nil => rfl
  | cons x ls ih =>
    have ih := ih fun l hl ↦ h l (List.mem_cons_of_mem _ hl)
    cases x with
    | label l => exact absurd (by simp) (h l)
    | _ => exact congrArg (List.cons _) ih

theorem afterLabel_append {ls : List Line} (h : Unlabelled ls) (l : String)
    (rest : List Line) : afterLabel l (ls ++ rest) = afterLabel l rest := by
  induction ls with
  | nil => rfl
  | cons x ls ih =>
    have ih := ih fun l hl ↦ h l (List.mem_cons_of_mem _ hl)
    cases x with
    | label l => exact absurd (by simp) (h l)
    | _ => exact ih

theorem unlabelled_stmts (sts : List Stmt) : Unlabelled (sts.map .stmt) := by
  simp [Unlabelled]

/-- The text of a list of blocks starts with the label of the first, unless it has been
defined, and goes on with its statements. -/
theorem dedupe_gotoText (pre : List ℕ) (id : ℕ) (post : List ℕ) :
    dedupeLabelDefs (seenLabels g pre) (gotoText usedReturn g render (id :: post)) =
      (if blockLabel g id ∈ seenLabels g pre then [] else [.label (blockLabel g id)]) ++
        textFrom usedReturn g render pre id post := by
  have hseen : seenLabels g (pre ++ [id]) = blockLabel g id :: seenLabels g pre := by
    simp [seenLabels]
  unfold gotoText dedupeLabelDefs textFrom
  rw [dedupe_append (unlabelled_stmts _), dedupe_append (unlabelled_exitLines _ _), hseen]
  split <;> rfl

/-- A label leads to the first block that has it. -/
theorem afterLabel_gotoText {t : ℕ} (mid : List ℕ) (pre post : List ℕ)
    (hmid : ∀ u ∈ mid, blockLabel g u ≠ blockLabel g t)
    (hpre : blockLabel g t ∉ seenLabels g pre) :
    afterLabel (blockLabel g t)
        (dedupeLabelDefs (seenLabels g pre) (gotoText usedReturn g render (mid ++ t :: post))) =
      some (textFrom usedReturn g render (pre ++ mid) t post) := by
  induction mid generalizing pre with
  | nil =>
    rw [List.nil_append, dedupe_gotoText, if_neg hpre]
    simp [afterLabel]
  | cons u mid ih =>
    obtain ⟨hu, hmid⟩ := List.forall_mem_cons.1 hmid
    have ih := ih (pre ++ [u]) hmid (by simpa [seenLabels, hu.symm] using hpre)
    rw [List.cons_append, dedupe_gotoText]
    have hskip : ∀ rest, afterLabel (blockLabel g t)
        ((if blockLabel g u ∈ seenLabels g pre then [] else [.label (blockLabel g u)]) ++ rest) =
          afterLabel (blockLabel g t) rest := by
      intro rest
      split
      · rfl
      · simp [afterLabel, hu]
    rw [hskip, textFrom, afterLabel_append (unlabelled_stmts _),
      afterLabel_append (unlabelled_exitLines _ _), ih]
    simp

/-! ### Running labelled text -/

/-- A `goto` to block `t` reaches it: no block printed before has the same label. -/
def resolves (g : List Block) (order : List ℕ) (t : ℕ) : Bool :=
  order.find? (fun u ↦ blockLabel g u = blockLabel g t) == some t

/-- The block printed after block `id`. -/
def printedNext (order : List ℕ) (id : ℕ) : Option ℕ :=
  order[order.idxOf id + 1]?

/-- The terminator of the block, run in state `s`, is printed and its text leads to the
successor it takes. -/
def leavesInText (I : Interp σ E R) (g : List Block) (order : List ℕ) (nxt : Option ℕ)
    (b : Block) (s : σ) : Bool :=
  let reached (t : ℕ) := nxt == some t || resolves g order t
  match b.ends, b.isSwitch with
  | .ret, _ => true
  | _, true => (b.caseTarget (I.select b.selExpr s).2.1).any (resolves g order)
  | .jcc, false =>
    if (I.test b.condExpr s).2.1 then b.taken.any (resolves g order)
    else b.taken.isSome && b.fall.any reached
  | .jmp, false => b.taken.all reached
  | .fall, false => b.fall.all reached

/-- The visited block is live, its statements are all printed and the text leads where it
goes. -/
def gotoFaithful (I : Interp σ E R) (sig : String → Bool) (suppressed : Finset (ℕ × ℕ))
    (merged : Finset ℕ) (g : List Block) (order : List ℕ) (p : ℕ × σ) : Bool :=
  let b := g[p.1]?.getD {}
  decide (p.1 < g.length ∧ p.1 ∉ merged) && printsAll I sig suppressed g p.1 p.2 &&
    match (I.execAll b.stmts p.2).2 with
    | .inl s => leavesInText I g order (printedNext order p.1) b s
    | .inr _ => true

/-- A state of the graph next to a state of the text: the text ahead is that of the block, with
or without its label. -/
def TextAt (usedReturn : Bool) (g : List Block) (render : ℕ → List Stmt) (order : List ℕ)
    (p : ℕ × σ) (q : List Line × σ) : Prop :=
  q.2 = p.2 ∧ ∃ pre post, order = pre ++ p.1 :: post ∧
    (q.1 = textFrom usedReturn g render pre p.1 post ∨
      q.1 = .label (blockLabel g p.1) :: textFrom usedReturn g render pre p.1 post)

theorem run_stmts (I : Interp σ E R) (prog rest : List Line) (sts : List Stmt) (s : σ) :
    match I.execAll sts s with
    | (es, .inl s') => (textMachine I prog).run sts.length (sts.map .stmt ++ rest, s) =
        (es, .inl (rest, s'))
    | (es, .inr r) => ∃ k, (textMachine I prog).run (k + 1) (sts.map .stmt ++ rest, s) =
        (es, .inr (some r)) := by
  induction sts generalizing s with
  | nil => rfl
  | cons st sts ih =>
    rw [Interp.execAll]
    rcases hst : I.exec st s with ⟨es, s' | r⟩
    · have hstep : (textMachine I prog).step (((st :: sts).map .stmt ++ rest), s) =
          (es, .inl (sts.map .stmt ++ rest, s')) := by
        simp [textMachine, hst]
      have ih := ih s'
      dsimp only
      rcases hsts : I.execAll sts s' with ⟨es', s'' | r⟩
      · rw [hsts] at ih
        dsimp only [emit]
        rw [List.length_cons, Machine.run_succ_of_step _ hstep, ih]
      · rw [hsts] at ih
        obtain ⟨k, hk⟩ := ih
        exact ⟨k + 1, by rw [Machine.run_succ_of_step _ hstep, hk]⟩
    · exact ⟨0, by simp [Machine.run, textMachine, hst]⟩

/-- A `goto` that resolves leads to the text of its block. -/
theorem textAt_of_resolves (usedReturn : Bool) (render : ℕ → List Stmt) {order : List ℕ} {t : ℕ}
    (h : resolves g order t = true) (s : σ) :
    ∃ text, afterLabel (blockLabel g t)
        (dedupeLabelDefs [] (gotoText usedReturn g render order)) = some text ∧
      TextAt usedReturn g render order (t, s) (text, s) := by
  obtain ⟨-, pre, post, rfl, hpre⟩ := List.find?_eq_some_iff_append.1 (beq_iff_eq.1 h)
  have hfirst : ∀ u ∈ pre, blockLabel g u ≠ blockLabel g t := fun u hu ↦ by simpa using hpre u hu
  exact ⟨_, afterLabel_gotoText pre [] post hfirst List.not_mem_nil, rfl, pre, post, rfl, .inl rfl⟩

theorem idxOf_split {pre post : List ℕ} {id : ℕ} (hnodup : (pre ++ id :: post).Nodup) :
    (pre ++ id :: post).idxOf id = pre.length := by
  have hid : id ∉ pre := fun h ↦ (List.nodup_append.1 hnodup).2.2 id h id (by simp) rfl
  rw [List.idxOf_append_of_notMem hid, List.idxOf_cons_self, Nat.add_zero]

theorem printedNext_split {pre post : List ℕ} {id : ℕ} (hnodup : (pre ++ id :: post).Nodup) :
    printedNext (pre ++ id :: post) id = post.head? := by
  rw [printedNext, idxOf_split hnodup, List.getElem?_append_right (by omega)]
  simp [List.head?_eq_getElem?]

/-- Falling through leads to the text of the block printed next. -/
theorem textAt_next (usedReturn : Bool) (g : List Block) (render : ℕ → List Stmt)
    {order pre post : List ℕ} {id t : ℕ} (horder : order = pre ++ id :: post)
    (hnext : post.head? = some t) (s : σ) :
    TextAt usedReturn g render order (t, s)
      (dedupeLabelDefs (seenLabels g (pre ++ [id])) (gotoText usedReturn g render post), s) := by
  obtain ⟨post', rfl⟩ : ∃ post', post = t :: post' := List.head?_eq_some_iff.1 hnext
  refine ⟨rfl, pre ++ [id], post', by simp [horder], ?_⟩
  rw [dedupe_gotoText]
  split
  · exact .inl rfl
  · exact .inr rfl

section Exit

variable {order pre post : List ℕ} {id : ℕ}

/-- The text that ends a block either runs to where the block goes, or is empty and the block
goes to the one printed next. -/
def Leads (I : Interp σ E R) (usedReturn : Bool) (g : List Block) (render : ℕ → List Stmt)
    (order : List ℕ) (nxt : Option ℕ) (text : List Line) (s : σ) (y : List E × Next σ R) : Prop :=
  (textMachine I (dedupeLabelDefs [] (gotoText usedReturn g render order))).Matches
      (TextAt usedReturn g render order) (text, s) y ∨
    ∃ t, y = ([], .inl (t, s)) ∧ nxt = some t ∧
      TextAt usedReturn g render order (t, s) (text, s)

theorem goto_matches {t : ℕ} (ht : resolves g order t = true) (rest : List Line) (s : σ) :
    (textMachine I (dedupeLabelDefs [] (gotoText usedReturn g render order))).Matches
      (TextAt usedReturn g render order) (.goto (blockLabel g t) :: rest, s)
      (([], .inl (t, s)) : List E × Next σ R) := by
  obtain ⟨text, htext, hat⟩ := textAt_of_resolves usedReturn render ht s
  exact Machine.Matches.one (by simp [textMachine, htext]) hat

theorem continue_leads (horder : order = pre ++ id :: post) {t : ℕ} (ls : List Line)
    (ht : (post.head? == some t || resolves g order t) = true) (s : σ) :
    Leads I usedReturn g render order post.head?
      (continueAt g post.head? (some t) ls ++
        dedupeLabelDefs (seenLabels g (pre ++ [id])) (gotoText usedReturn g render post)) s
      ([], .inl (t, s)) := by
  unfold continueAt
  dsimp only
  split
  · next hnext => exact .inr ⟨t, rfl, hnext, textAt_next usedReturn g render horder hnext s⟩
  · next hne =>
    left
    refine goto_matches ?_ _ s
    simpa [hne] using ht

theorem ret_leads (nxt : Option ℕ) (b : Block) (rest : List Line) (s : σ) :
    Leads I usedReturn g render order nxt (.ret (b.retText usedReturn) :: rest) s
      (leaveBy I usedReturn b s) :=
  .inl (Machine.Matches.halt rfl)

theorem switch_leads (nxt : Option ℕ) (b : Block) (rest : List Line) (s : σ)
    (h : (b.caseTarget (I.select b.selExpr s).2.1).any (resolves g order) = true) :
    Leads I usedReturn g render order nxt
      (.switch b.selExpr ((liveCases b).map fun c ↦ (c.1, blockLabel g c.2)) ::
        (b.defaultSucc.toList.map fun t ↦ .goto (blockLabel g t)) ++ rest) s
      (emit (I.select b.selExpr s).1 (goTo I usedReturn b
        (b.caseTarget (I.select b.selExpr s).2.1) (I.select b.selExpr s).2.2)) := by
  left
  obtain ⟨t, ht, hresolves⟩ := (Option.any_eq_true _ _).1 h
  rcases hsel : I.select b.selExpr s with ⟨es, k, s'⟩
  simp only [hsel] at ht ⊢
  rw [ht]
  rw [Block.caseTarget, ← find?_liveCases] at ht
  have hfind : ((liveCases b).map fun c ↦ (c.1, blockLabel g c.2)).find?
      (fun c ↦ (c.1 : ℤ) = k) = ((liveCases b).find? fun c ↦ (c.1 : ℤ) = k).map
        fun c ↦ (c.1, blockLabel g c.2) := List.find?_map
  cases hcase : (liveCases b).find? fun c ↦ (c.1 : ℤ) = k with
  | some c =>
    obtain rfl : c.2 = t := by simpa [hcase] using ht
    obtain ⟨text, htext, hat⟩ := textAt_of_resolves usedReturn render hresolves s'
    rw [hcase] at hfind
    exact Machine.Matches.one (by simp [textMachine, hsel, hfind, htext, goTo]) hat
  | none =>
    have hdefault : b.defaultSucc = some t := by simpa [hcase] using ht
    rw [hcase] at hfind
    rw [hdefault]
    exact Machine.Matches.after_run (n := 1)
      (by simp [Machine.run, textMachine, hsel, hfind]) (goto_matches hresolves rest s')

theorem Leads.after_run {nxt : Option ℕ} {text text' : List Line} {s s' : σ} {es : List E} {n : ℕ}
    {y : List E × Next σ R} (hrun : (textMachine I (dedupeLabelDefs []
      (gotoText usedReturn g render order))).run (n + 1) (text, s) = (es, .inl (text', s')))
    (h : Leads I usedReturn g render order nxt text' s' y) :
    Leads I usedReturn g render order nxt text s (emit es y) := by
  left
  rcases h with h | ⟨t, rfl, -, hat⟩
  · exact Machine.Matches.after_run hrun h
  · exact ⟨n, (text', s'), by simp [hrun], hat⟩

theorem exit_leads (usedReturn : Bool) (render : ℕ → List Stmt)
    (horder : order = pre ++ id :: post) (b : Block) (s : σ)
    (h : leavesInText I g order post.head? b s = true) :
    Leads I usedReturn g render order post.head?
      (exitLines usedReturn g post.head? b ++
        dedupeLabelDefs (seenLabels g (pre ++ [id])) (gotoText usedReturn g render post)) s
      (transfer I usedReturn b s) := by
  unfold leavesInText at h
  unfold exitLines transfer
  rcases hends : b.ends with _ | _ | _ | _ <;> rcases hsw : b.isSwitch with _ | _ <;>
    simp only [hends, hsw] at h ⊢
  · cases hf : b.fall with
    | none => exact ret_leads _ b _ s
    | some t => exact continue_leads horder _ (by simpa [hf] using h) s
  · exact switch_leads _ b _ s h
  · cases hf : b.taken with
    | none => exact ret_leads _ b _ s
    | some t => exact continue_leads horder _ (by simpa [hf] using h) s
  · exact switch_leads _ b _ s h
  · exact ret_leads _ b _ s
  · exact ret_leads _ b _ s
  · rcases htest : I.test b.condExpr s with ⟨es, outcome, s'⟩
    simp only [htest] at h ⊢
    cases outcome with
    | true =>
      obtain ⟨t, ht, hresolves⟩ := (Option.any_eq_true _ _).1 h
      obtain ⟨text, htext, hat⟩ := textAt_of_resolves usedReturn render hresolves s'
      rw [ht]
      exact .inl (Machine.Matches.one (by simp [textMachine, htest, htext, goTo]) hat)
    | false =>
      obtain ⟨htaken, hfall⟩ := Bool.and_eq_true_iff.1 h
      obtain ⟨u, hu⟩ := Option.isSome_iff_exists.1 htaken
      obtain ⟨t, ht, hreached⟩ := (Option.any_eq_true _ _).1 hfall
      rw [hu, ht]
      refine Leads.after_run (n := 0) ?_ (continue_leads horder [] hreached s')
      simp [Machine.run, textMachine, htest]
  · exact switch_leads _ b _ s h

/-- A faithful block runs in the text as in the graph. -/
theorem block_leads (horder : order = pre ++ id :: post) (s : σ) {es : List E} {s' : σ}
    (hstmts : I.execAll (render id) s = (es, .inl s'))
    (h : leavesInText I g order post.head? (g[id]?.getD {}) s' = true) :
    Leads I usedReturn g render order post.head? (textFrom usedReturn g render pre id post) s
      (emit es (transfer I usedReturn (g[id]?.getD {}) s')) := by
  have hexit := exit_leads usedReturn render horder _ s' h
  have hrun := run_stmts I (dedupeLabelDefs [] (gotoText usedReturn g render order))
    (exitLines usedReturn g post.head? (g[id]?.getD {}) ++
      dedupeLabelDefs (seenLabels g (pre ++ [id])) (gotoText usedReturn g render post))
    (render id) s
  rw [hstmts] at hrun
  unfold textFrom
  rcases hsts : render id with _ | ⟨st, sts⟩
  · rw [hsts] at hstmts hrun
    obtain ⟨rfl, hs⟩ := Prod.mk.inj hstmts
    obtain rfl := Sum.inl.inj hs
    exact hexit
  · rw [hsts] at hrun
    exact Leads.after_run hrun hexit

end Exit

/-- One block of the graph is matched by its text. -/
theorem text_matches (usedReturn : Bool) {sig : String → Bool} {suppressed : Finset (ℕ × ℕ)}
    {merged : Finset ℕ}
    {pre post : List ℕ} {id : ℕ} (hnodup : (pre ++ id :: post).Nodup) {s : σ} {text : List Line}
    (htext : text = textFrom usedReturn g (renderStmts sig suppressed g) pre id post ∨
      text = .label (blockLabel g id) ::
        textFrom usedReturn g (renderStmts sig suppressed g) pre id post)
    (h : gotoFaithful I sig suppressed merged g (pre ++ id :: post) (id, s) = true) :
    Leads I usedReturn g (renderStmts sig suppressed g) (pre ++ id :: post) post.head? text s
      ((graphMachine I usedReturn merged g).step (id, s)) := by
  simp only [gotoFaithful, Bool.and_eq_true, decide_eq_true_eq] at h
  obtain ⟨⟨⟨hlt, hlive⟩, hprints⟩, hleaves⟩ := h
  have hb : g[id]? = some (g[id]?.getD {}) := by simp [List.getElem?_eq_getElem hlt]
  have hexec := execAll_renderStmts hprints
  have hblock : Leads I usedReturn g (renderStmts sig suppressed g) (pre ++ id :: post) post.head?
      (textFrom usedReturn g (renderStmts sig suppressed g) pre id post) s
      (runBlock I usedReturn (g[id]?.getD {}) s) := by
    rcases hstmts : I.execAll (g[id]?.getD {}).stmts s with ⟨es, s' | r⟩
    · rw [hstmts] at hexec hleaves
      rw [runBlock_of_inl hstmts]
      exact block_leads rfl s hexec (printedNext_split hnodup ▸ hleaves)
    · rw [hstmts] at hexec
      rw [runBlock_of_inr hstmts]
      have hrun := run_stmts I
        (dedupeLabelDefs []
          (gotoText usedReturn g (renderStmts sig suppressed g) (pre ++ id :: post)))
        (exitLines usedReturn g post.head? (g[id]?.getD {}) ++
          dedupeLabelDefs (seenLabels g (pre ++ [id]))
            (gotoText usedReturn g (renderStmts sig suppressed g) post))
        (renderStmts sig suppressed g id) s
      rw [hexec] at hrun
      exact .inl hrun
  rw [graphMachine_step I usedReturn hlive hb]
  rcases htext with rfl | rfl
  · exact hblock
  · have hlabel : ∀ text, (textMachine I (dedupeLabelDefs [] (gotoText usedReturn g
        (renderStmts sig suppressed g) (pre ++ id :: post)))).run (0 + 1)
          (.label (blockLabel g id) :: text, s) = ([], .inl (text, s)) := fun _ ↦ rfl
    exact Leads.after_run (hlabel _) hblock

/-- Along runs whose blocks are all faithful, the labelled text behaves like the graph. -/
theorem gotoText_sameBehaviour (I : Interp σ E R) (usedReturn : Bool) (sig : String → Bool)
    (suppressed : Finset (ℕ × ℕ)) (merged : Finset ℕ) (g : List Block) {order : List ℕ}
    (horder : order.Perm (List.range g.length)) {entry : ℕ} (hentry : order.head? = some entry)
    (s : σ)
    (h : (graphMachine I usedReturn merged g).Always
      (gotoFaithful I sig suppressed merged g order · = true) (entry, s)) :
    let prog := dedupeLabelDefs [] (gotoText usedReturn g (renderStmts sig suppressed g) order)
    (textMachine I prog).SameBehaviour (prog, s)
      (graphMachine I usedReturn merged g) (entry, s) := by
  intro prog
  have hnodup : order.Nodup := horder.nodup_iff.2 List.nodup_range
  refine .symm (Machine.SimulationUpTo.sameBehaviour_of_always
    (Q := TextAt usedReturn g (renderStmts sig suppressed g) order)
    (fun p ↦ order.length - order.idxOf p.1) ?_ ?_ h)
  · rintro ⟨id, s⟩ ⟨text, s'⟩ ⟨hs, pre, post, horder, htext⟩ halways
    obtain rfl : s' = s := hs
    obtain rfl : order = pre ++ id :: post := horder
    rcases text_matches usedReturn hnodup htext halways.now with hmatch |
      ⟨t, ht, hnext, hat⟩
    · exact .inl hmatch
    · -- The block is empty and falls through.
      refine .inr ⟨(t, s'), ht, hat, ?_⟩
      obtain ⟨post, rfl⟩ := List.head?_eq_some_iff.1 hnext
      have hid := idxOf_split hnodup
      have ht : ((pre ++ [id]) ++ t :: post).idxOf t = (pre ++ [id]).length :=
        idxOf_split (by simpa using hnodup)
      simp only [List.append_assoc, List.singleton_append] at ht
      simp only [hid, ht, List.length_append, List.length_cons, List.length_nil]
      omega
  · obtain ⟨post, rfl⟩ := List.head?_eq_some_iff.1 hentry
    refine ⟨rfl, [], post, rfl, .inr ?_⟩
    exact dedupe_gotoText [] entry post

end Text

/-! ### The state machine -/

section StateMachine

variable {σ E R : Type*} {I : Interp σ E R} {usedReturn : Bool} {g : List Block}
  {merged : Finset ℕ} {render : ℕ → List Stmt}

/-- The terminator of the block, run in state `s`, names the successors that the state machine
needs: both of a condition, and the one a switch selects. -/
def leavesInCase (I : Interp σ E R) (b : Block) (s : σ) : Bool :=
  match b.ends, b.isSwitch with
  | .ret, _ => true
  | _, true => b.switchVar.isSome && (b.caseTarget (I.select b.selExpr s).2.1).isSome
  | .jcc, false => b.taken.isSome && b.fall.isSome
  | .jmp, false | .fall, false => true

/-- The visited block is live, its statements are all printed and its case leads where it
goes. -/
def stateFaithful (I : Interp σ E R) (sig : String → Bool) (suppressed : Finset (ℕ × ℕ))
    (merged : Finset ℕ) (g : List Block) (p : ℕ × σ) : Bool :=
  let b := g[p.1]?.getD {}
  decide (p.1 < g.length ∧ p.1 ∉ merged) && printsAll I sig suppressed g p.1 p.2 &&
    match (I.execAll b.stmts p.2).2 with
    | .inl s => leavesInCase I b s
    | .inr _ => true

theorem find?_emitStateMachine (usedReturn : Bool) (g : List Block) (c : StmtCache render)
    {order : List ℕ} {id : ℕ}
    (hid : id ∈ order) (hlive : id ∉ merged) :
    (emitStateMachine usedReturn g merged c order).find? (·.state = id) =
      some ⟨id, render id, caseExit usedReturn (g[id]?.getD {})⟩ := by
  induction order generalizing c with
  | nil => exact absurd hid List.not_mem_nil
  | cons u ids ih =>
    obtain ⟨c', hc⟩ := emitStmts_eq c u 4
    simp only [emitStateMachine, hc]
    by_cases hu : u = id
    · subst hu
      simp [hlive]
    · have hid : id ∈ ids := (List.mem_cons.1 hid).resolve_left (Ne.symm hu)
      split
      · exact ih c hid
      · simpa [hu] using ih c' hid

theorem runCaseExit_caseExit (id : ℕ) {b : Block} {s : σ} (h : leavesInCase I b s = true) :
    runCaseExit I id (caseExit usedReturn b) s = transfer I usedReturn b s := by
  unfold leavesInCase at h
  unfold caseExit transfer
  have hswitch : ∀ sel, b.switchVar = some sel →
      (b.caseTarget (I.select b.selExpr s).2.1).isSome = true →
      runCaseExit I id (.switch sel (liveCases b) b.defaultSucc) s =
        emit (I.select b.selExpr s).1 (goTo I usedReturn b
          (b.caseTarget (I.select b.selExpr s).2.1) (I.select b.selExpr s).2.2) := by
    intro sel hsel hsome
    obtain ⟨t, ht⟩ := Option.isSome_iff_exists.1 hsome
    have hselExpr : b.selExpr = sel := by simp [Block.selExpr, hsel]
    rw [ht]
    rw [Block.caseTarget, ← find?_liveCases] at ht
    rw [hselExpr] at ht ⊢
    simp [runCaseExit, ht, goTo, emit]
  rcases hends : b.ends with _ | _ | _ | _ <;> rcases hsw : b.isSwitch with _ | _ <;>
    simp only [hends, hsw] at h ⊢
  · cases b.fall <;> rfl
  · obtain ⟨hsel, hsome⟩ := Bool.and_eq_true_iff.1 h
    obtain ⟨sel, hsel⟩ := Option.isSome_iff_exists.1 hsel
    simpa only [hsel] using hswitch sel hsel hsome
  · cases b.taken <;> rfl
  · obtain ⟨hsel, hsome⟩ := Bool.and_eq_true_iff.1 h
    obtain ⟨sel, hsel⟩ := Option.isSome_iff_exists.1 hsel
    simpa only [hsel] using hswitch sel hsel hsome
  · rfl
  · rfl
  · obtain ⟨htaken, hfall⟩ := Bool.and_eq_true_iff.1 h
    obtain ⟨t, ht⟩ := Option.isSome_iff_exists.1 htaken
    obtain ⟨f, hf⟩ := Option.isSome_iff_exists.1 hfall
    rw [ht, hf]
    cases houtcome : (I.test b.condExpr s).2.1 <;> simp [runCaseExit, houtcome, goTo, emit]
  · obtain ⟨hsel, hsome⟩ := Bool.and_eq_true_iff.1 h
    obtain ⟨sel, hsel⟩ := Option.isSome_iff_exists.1 hsel
    simpa only [hsel] using hswitch sel hsel hsome

/-- Along runs whose blocks are all faithful, the state machine behaves like the graph. -/
theorem stateMachine_sameBehaviour (I : Interp σ E R) (usedReturn : Bool) (sig : String → Bool)
    (suppressed : Finset (ℕ × ℕ)) (merged : Finset ℕ) (g : List Block)
    (c : StmtCache (renderStmts sig suppressed g)) {order : List ℕ}
    (horder : order.Perm (List.range g.length)) (entry : ℕ) (s : σ)
    (h : (graphMachine I usedReturn merged g).Always
      (stateFaithful I sig suppressed merged g · = true) (entry, s)) :
    (stateMachine I (emitStateMachine usedReturn g merged c order)).SameBehaviour (entry, s)
      (graphMachine I usedReturn merged g) (entry, s) := by
  refine .symm (Machine.Simulation.sameBehaviour_of_always (Q := fun p q ↦ q = p) ?_ rfl h)
  rintro ⟨id, s⟩ _ rfl halways
  have hnow := halways.now
  simp only [stateFaithful, Bool.and_eq_true, decide_eq_true_eq] at hnow
  obtain ⟨⟨⟨hlt, hlive⟩, hprints⟩, hleaves⟩ := hnow
  have hb : g[id]? = some (g[id]?.getD {}) := by simp [List.getElem?_eq_getElem hlt]
  have hcase := find?_emitStateMachine usedReturn g c
    (horder.mem_iff.2 (List.mem_range.2 hlt)) hlive
  have hexec := execAll_renderStmts hprints
  have hstep : (stateMachine I (emitStateMachine usedReturn g merged c order)).step (id, s) =
      (graphMachine I usedReturn merged g).step (id, s) := by
    rw [graphMachine_step I usedReturn hlive hb]
    simp only [stateMachine, hcase, hexec]
    rcases hstmts : I.execAll (g[id]?.getD {}).stmts s with ⟨es, s' | r⟩
    · rw [hstmts] at hleaves
      rw [runBlock_of_inl hstmts]
      exact congrArg (emit es) (runCaseExit_caseExit id hleaves)
    · rw [runBlock_of_inr hstmts]
  rcases hs : (graphMachine I usedReturn merged g).step (id, s) with ⟨es, ⟨id', s'⟩ | r⟩
  · exact Machine.Matches.one (hstep.trans hs) rfl
  · exact Machine.Matches.halt (hstep.trans hs)

end StateMachine

/-! ### Both emitters -/

/-- An order in which the emitters may print the blocks: sorted by address, equal addresses in
any order. -/
structure AddrOrder (g : List Block) (order : List ℕ) : Prop where
  perm : order.Perm (List.range g.length)
  sorted : order.Pairwise fun a b ↦ addrOf g a ≤ addrOf g b

/-- `i = 0; while (!(i >= n)) { f(); i = i + 1; }`. -/
def countingLoop : List Block :=
  [{ addr := 0x1000
     stmts := [.assign (mkVar "i") (mkConst 0)], fall := some 1 },
   { addr := 0x1004
     ends := .jcc, cond := some (mkBinary .ge (mkVar "i") (mkVar "n") 4)
     taken := some 3, fall := some 2 },
   { addr := 0x1008
     stmts := [.call (.call {} "f" false 0 []),
       .assign (mkVar "i") (mkBinary .add (mkVar "i") (mkConst 1) 4)]
     ends := .jmp, taken := some 1 },
   { addr := 0x1010, ends := .ret }]

theorem countingLoop_order : AddrOrder countingLoop [0, 1, 2, 3] :=
  ⟨by decide, by decide⟩

end Ldu
