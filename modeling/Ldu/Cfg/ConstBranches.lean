import Ldu.Semantics.Reads

/-!
# Branches on constants

`simplifyConstBranches` turns a conditional block whose condition `constCond` decides into a jump
to one of its two successors, and cuts the edge to the other. A constant decides by not being
zero; of a comparison of two constants the 64-bit words are compared as signed numbers, whatever
the width, the signedness and the float flag of the nodes say.

So the jump goes where the condition would exactly when the words stand to each other as the values
do (`Expr.WordsDecide`), and the runs of a function are the same exactly when every decided block
they come to is one where they do (`simplifyConstBranches_sound`). The predecessor lists stay exact
when they were.
-/

namespace Ldu

/-! ### The pass -/

/-- Two words compared as signed numbers. -/
def constCompare (op : BinOp) (x y : BitVec 64) : Option Bool :=
  match op with
  | .eq => some (x == y)
  | .ne => some (x != y)
  | .lt => some (x.slt y)
  | .gt => some (y.slt x)
  | .le => some (x.sle y)
  | .ge => some (y.sle x)
  | _ => none

/-- What is known of a condition: it is true, it is false, or it depends on data. -/
def constCond : Option Expr → Option Bool
  | some (.const _ v) => some (v != 0)
  | some (.binary _ op (.const _ x) (.const _ y)) => constCompare op x y
  | _ => none

/-- The successors of a decided block: the one to keep and the one to drop. -/
def Block.decided (b : Block) : Option (ℕ × ℕ) :=
  match b.ends, b.taken, b.fall, constCond b.cond with
  | .jcc, some t, some f, some true => some (t, f)
  | .jcc, some t, some f, some false => some (f, t)
  | _, _, _, _ => none

/-- The block, ending in a jump. -/
def Block.jumpTo (keep : ℕ) (b : Block) : Block :=
  { b with ends := .jmp, cond := none, taken := some keep, fall := none, succ := [keep] }

def Block.erasePred (p : ℕ) (b : Block) : Block :=
  { b with pred := b.pred.filter (· != p) }

/-- Block `id` is made a jump if it is decided. -/
def simplifyAt (g : List Block) (id : ℕ) : List Block :=
  match g[id]?.bind Block.decided with
  | none => g
  | some (keep, drop) =>
    (if drop = keep then g else g.modify drop (·.erasePred id)).modify id (·.jumpTo keep)

/-- The blocks in order. -/
def simplifyConstBranches (g : List Block) : List Block :=
  (List.range g.length).foldl simplifyAt g

/-! ### What the pass leaves -/

/-- The block on its own after the pass. -/
def Block.simplified (b : Block) : Block :=
  match b.decided with
  | some (keep, _) => b.jumpTo keep
  | none => b

/-- The pass cuts the edge from block `p` to block `id`. -/
def cutsEdge (g : List Block) (p id : ℕ) : Bool :=
  (g[p]?.bind Block.decided).any fun (keep, drop) ↦ drop == id && drop != keep

variable {g : List Block} {id p n : ℕ} {b : Block}

/-- The block with another predecessor list. -/
def Block.withPred (ps : List ℕ) (b : Block) : Block :=
  { b with pred := ps }

@[simp] theorem decided_withPred (ps : List ℕ) : (b.withPred ps).decided = b.decided := rfl

@[simp] theorem withPred_withPred (ps ps' : List ℕ) :
    (b.withPred ps).withPred ps' = b.withPred ps' := rfl

@[simp] theorem pred_withPred (ps : List ℕ) : (b.withPred ps).pred = ps := rfl

@[simp] theorem simplified_withPred (ps : List ℕ) :
    (b.withPred ps).simplified = b.simplified.withPred ps := by
  unfold Block.simplified
  rw [decided_withPred]
  cases b.decided <;> rfl

/-- A decided block is a conditional block with both successors. -/
theorem exists_of_decided {keep drop : ℕ} (h : b.decided = some (keep, drop)) :
    ∃ t f c, b.ends = .jcc ∧ b.taken = some t ∧ b.fall = some f ∧ constCond b.cond = some c ∧
      keep = (if c then t else f) ∧ drop = if c then f else t := by
  unfold Block.decided at h
  split at h
  · next t f hends ht hf hc =>
    obtain ⟨rfl, rfl⟩ := Prod.mk.inj (Option.some.inj h)
    exact ⟨t, f, true, hends, ht, hf, hc, rfl, rfl⟩
  · next t f hends ht hf hc =>
    obtain ⟨rfl, rfl⟩ := Prod.mk.inj (Option.some.inj h)
    exact ⟨t, f, false, hends, ht, hf, hc, rfl, rfl⟩
  · cases h

theorem getElem?_simplifyAt (g : List Block) (n id : ℕ) :
    (simplifyAt g n)[id]? = g[id]?.map fun b ↦
      (if id = n then b.simplified else b).withPred
        (b.pred.filter fun p ↦ !(p == n && cutsEdge g n id)) := by
  unfold simplifyAt cutsEdge
  rcases hdec : g[n]?.bind Block.decided with - | ⟨keep, drop⟩
  · cases hb : g[id]? with
    | none => rfl
    | some b =>
      have hkeep : (if id = n then b.simplified else b) = b := by
        split
        · next h =>
          subst h
          rw [hb, Option.bind_some] at hdec
          rw [Block.simplified, hdec]
        · rfl
      simp [hkeep, Block.withPred]
  · -- The edge is cut at `drop`, then block `n` becomes a jump.
    have hcut : (if drop = keep then g else g.modify drop (·.erasePred n))[id]? = g[id]?.map fun b ↦
        b.withPred (b.pred.filter fun p ↦ !(p == n && (drop == id && drop != keep))) := by
      cases hb : g[id]? with
      | none => split <;> simp [List.getElem?_modify, hb]
      | some b =>
        by_cases hdrop : drop = keep
        · rw [if_pos hdrop, hb]
          simp [hdrop, Block.withPred]
        · rw [if_neg hdrop, List.getElem?_modify, hb]
          by_cases hid : drop = id
          · have hne : id ≠ keep := hid ▸ hdrop
            simp only [hid, Block.withPred, Block.erasePred, bne, if_true, beq_self_eq_true,
              Option.map_some, Option.map_eq_map, beq_eq_false_iff_ne.2 hne, Bool.not_false,
              Bool.and_true]
          · simp [hid, Block.withPred, beq_eq_false_iff_ne.2 hid]
    dsimp only
    rw [List.getElem?_modify, hcut]
    cases hb : g[id]? with
    | none => rfl
    | some b =>
      by_cases hid : n = id
      · subst hid
        rw [hb, Option.bind_some] at hdec
        simp [Block.simplified, hdec, Block.withPred, Block.jumpTo]
      · simp [hid, Ne.symm hid]

/-- The graph when the blocks below `n` have been visited. -/
theorem getElem?_simplifyAt_foldl (g : List Block) (n id : ℕ) :
    ((List.range n).foldl simplifyAt g)[id]? = g[id]?.map fun b ↦
      (if id < n then b.simplified else b).withPred
        (b.pred.filter fun p ↦ !(decide (p < n) && cutsEdge g p id)) := by
  induction n generalizing id with
  | zero => simp [Block.withPred]
  | succ n ih =>
    rw [List.range_succ, List.foldl_append, List.foldl_cons, List.foldl_nil, getElem?_simplifyAt]
    -- Earlier visits left what is asked of block `n` as it was.
    have hcuts : cutsEdge ((List.range n).foldl simplifyAt g) n id = cutsEdge g n id := by
      unfold cutsEdge
      rw [ih]
      cases g[n]? <;> simp
    rw [hcuts, ih]
    cases hb : g[id]? with
    | none => rfl
    | some b =>
      have hlt : ∀ p, decide (p < n + 1) = (p == n || decide (p < n)) := by
        intro p
        rw [Bool.eq_iff_iff]
        simp
        omega
      have hfilter : ∀ p, (!(p == n && cutsEdge g n id) && !(decide (p < n) && cutsEdge g p id)) =
          !(decide (p < n + 1) && cutsEdge g p id) := by
        intro p
        rw [hlt]
        by_cases hp : p = n
        · subst hp
          simp
        · simp [beq_eq_false_iff_ne.2 hp]
      simp only [Option.map_some, pred_withPred, List.filter_filter, hfilter]
      rcases lt_trichotomy id n with hid | rfl | hid
      · simp [hid, hid.ne, hid.trans (Nat.lt_succ_self n)]
      · simp
      · simp [hid.ne', hid.not_gt, (show ¬id < n + 1 by omega)]

theorem getElem?_simplifyConstBranches (g : List Block) (id : ℕ) :
    (simplifyConstBranches g)[id]? = g[id]?.map fun b ↦
      b.simplified.withPred (b.pred.filter fun p ↦ !cutsEdge g p id) := by
  rw [simplifyConstBranches, getElem?_simplifyAt_foldl]
  cases hb : g[id]? with
  | none => rfl
  | some b =>
    have hcuts : ∀ p, (decide (p < g.length) && cutsEdge g p id) = cutsEdge g p id := by
      intro p
      by_cases hp : p < g.length
      · simp [hp]
      · simp [hp, cutsEdge]
    simp [(List.getElem?_eq_some_iff.1 hb).1, hcuts]

/-! ### Predecessor lists -/

/-- Each block's predecessor list holds exactly the blocks having it as successor. -/
def PredsExact (g : List Block) : Prop :=
  ∀ (id : ℕ) (b : Block), g[id]? = some b →
    ∀ p, p ∈ b.pred ↔ ∃ b' : Block, g[p]? = some b' ∧ id ∈ b'.succ

/-- What the pass asks of the predecessor lists: they are exact for the edges of the blocks it
leaves alone, and a decided block is a predecessor of the successor to keep and of no block but
its two successors. -/
def PredsReady (g : List Block) : Prop :=
  ∀ (id : ℕ) (b : Block), g[id]? = some b → ∀ p,
    match g[p]?.bind Block.decided with
    | none => p ∈ b.pred ↔ ∃ b' : Block, g[p]? = some b' ∧ id ∈ b'.succ
    | some (keep, drop) => (id = keep → p ∈ b.pred) ∧ (p ∈ b.pred → id = keep ∨ id = drop)

theorem predsExact_simplifyConstBranches_iff :
    PredsExact (simplifyConstBranches g) ↔ PredsReady g := by
  unfold PredsExact PredsReady
  refine forall_congr' fun id ↦ ?_
  rw [getElem?_simplifyConstBranches]
  cases hb : g[id]? with
  | none => simp
  | some b =>
    simp only [Option.map_some, Option.some.injEq, forall_eq', pred_withPred]
    refine forall_congr' fun p ↦ ?_
    rw [getElem?_simplifyConstBranches]
    cases hp : g[p]? with
    | none => simp [cutsEdge, hp]
    | some b' =>
      rcases hdec : b'.decided with - | ⟨keep, drop⟩
      · simp [cutsEdge, hp, hdec, Block.simplified, Block.withPred]
      · have hsucc : ∀ t, t ∈ (b'.simplified.withPred
            (b'.pred.filter fun q ↦ !cutsEdge g q p)).succ ↔ t = keep := by
          simp [Block.simplified, hdec, Block.withPred, Block.jumpTo]
        have hcuts : cutsEdge g p id = (drop == id && drop != keep) := by simp [cutsEdge, hp, hdec]
        simp only [List.mem_filter, hcuts, Option.map_some, Option.some.injEq, exists_eq_left',
          hsucc, Option.bind_some, hdec]
        by_cases hid : id = keep
        · subst hid
          by_cases hdrop : drop = id <;> simp [hdrop]
        · by_cases hdrop : drop = id
          · simp [← hdrop, (show drop ≠ keep from hdrop ▸ hid)]
          · simp [hid, hdrop, Ne.symm hdrop]

/-- Exact predecessor lists stay exact, given that the successors of a decided block are the two
its terminator names. -/
theorem PredsExact.simplifyConstBranches (h : PredsExact g)
    (hsucc : ∀ b ∈ g, b.decided ≠ none → ∀ t, t ∈ b.succ ↔ b.taken = some t ∨ b.fall = some t) :
    PredsExact (simplifyConstBranches g) := by
  rw [predsExact_simplifyConstBranches_iff]
  intro id b hb p
  rcases hdec : g[p]?.bind Block.decided with - | ⟨keep, drop⟩
  · exact h id b hb p
  · obtain ⟨b', hp, hdec⟩ := Option.bind_eq_some_iff.1 hdec
    have hpred : p ∈ b.pred ↔ id = keep ∨ id = drop := by
      rw [h id b hb p]
      simp only [hp, Option.some.injEq, exists_eq_left']
      rw [hsucc b' (List.mem_of_getElem? hp) (by simp [hdec])]
      obtain ⟨t, f, c, -, ht, hf, -, rfl, rfl⟩ := exists_of_decided hdec
      cases c <;> simp [ht, hf, eq_comm, or_comm]
    exact ⟨fun hid ↦ hpred.2 (.inl hid), hpred.1⟩

/-! ### The decision and the value -/

/-- The order of a comparison of this signedness. -/
def Ty.less (ty : Ty) (v w : Val) : Prop :=
  if ty.isUnsigned then v.toNat < w.toNat else v.toInt < w.toInt

instance (ty : Ty) (v w : Val) : Decidable (ty.less v w) :=
  inferInstanceAs (Decidable (if ty.isUnsigned then v.toNat < w.toNat else v.toInt < w.toInt))

/-- The words of a condition decide it as its value does. A constant is zero when its word is, and
the words of a comparison stand to each other as the values of the operands do, in the signedness
of the comparison; floating-point operands compare as the word does. -/
def Expr.WordsDecide {M E : Type} (W : World M E) : Expr → Prop
  | .const ty v => ty.ext v = 0 ↔ v = 0
  | .binary ty op (.const tyA x) (.const tyB y) =>
    if ty.isFloat || tyA.isFloat || tyB.isFloat then
      W.floatBinop ty op (tyA.ext x) (tyB.ext y) ≠ 0 ↔ constCompare op x y = some true
    else
      match op with
      | .eq | .ne => tyA.ext x = tyB.ext y ↔ x = y
      | .lt | .ge => ty.less (tyA.ext x) (tyB.ext y) ↔ x.toInt < y.toInt
      | .gt | .le => ty.less (tyB.ext y) (tyA.ext x) ↔ y.toInt < x.toInt
      | _ => True
  | _ => True

section Decision

variable {M E : Type} (W : World M E)

theorem ofBool_ne_zero {b : Bool} : ofBool b ≠ 0 ↔ b = true := by
  cases b <;> decide

/-- What the comparison says of two values, in an order. -/
def BinOp.Compares (less : Val → Val → Prop) (op : BinOp) (v w : Val) : Prop :=
  match op with
  | .eq => v = w
  | .ne => v ≠ w
  | .lt => less v w
  | .ge => ¬less v w
  | .gt => less w v
  | .le => ¬less w v
  | _ => False

theorem intBinop_ne_zero {ty : Ty} {op : BinOp} {x y : BitVec 64} {r : Bool}
    (hop : constCompare op x y = some r) (v w : Val) :
    intBinop ty op v w ≠ 0 ↔ op.Compares ty.less v w := by
  cases op <;> first | cases hop; done | skip
  case eq | ne =>
    rw [intBinop, ofBool_ne_zero]
    simp [BinOp.Compares]
  all_goals
    unfold BinOp.Compares Ty.less intBinop
    rw [ofBool_ne_zero]
    split <;> simp [BitVec.ult, BitVec.ule, BitVec.slt, BitVec.sle]

theorem constCompare_eq_true {op : BinOp} {x y : BitVec 64} {r : Bool}
    (hop : constCompare op x y = some r) :
    r = true ↔ op.Compares (fun v w ↦ v.toInt < w.toInt) x y := by
  cases op <;> simp [constCompare] at hop
  all_goals
    subst hop
    simp [BinOp.Compares, BitVec.slt, BitVec.sle]

theorem eval_const (ty : Ty) (v : BitVec 64) (s : Store M) :
    W.eval (.const ty v) s = ([], ty.ext v, s) := by
  rw [World.eval, Effect.pure_apply]

theorem eval_compare {op : BinOp} {x y : BitVec 64} {r : Bool} (hop : constCompare op x y = some r)
    (ty tyA tyB : Ty) (s : Store M) :
    W.eval (.binary ty op (.const tyA x) (.const tyB y)) s =
      ([], W.binop ty tyA tyB op (tyA.ext x) (tyB.ext y), s) := by
  rw [World.eval, Effect.bind_eq (eval_const W tyA x s)]
  cases op <;>
    first | cases hop; done | simp [shortCircuit, Effect.bind_eq (eval_const W tyB y s), Expr.ty]

/-- A condition the pass decides is evaluated in silence, to a value that the decision matches
when the words decide it. -/
theorem eval_of_constCond {c : Expr} {r : Bool} (h : constCond (some c) = some r) (s : Store M) :
    (W.eval c).SilentAt s ∧ (((W.eval c s).2.1 ≠ 0 ↔ r = true) ↔ c.WordsDecide W) := by
  unfold constCond at h
  split at h
  · next ty v heq =>
    obtain rfl := Option.some.inj heq
    obtain rfl := Option.some.inj h
    rw [eval_const]
    refine ⟨⟨by rw [eval_const], by rw [eval_const]⟩, ?_⟩
    simp [Expr.WordsDecide, not_iff_not]
  · next ty op tyA x tyB y heq =>
    obtain rfl := Option.some.inj heq
    rw [eval_compare W h]
    refine ⟨⟨by rw [eval_compare W h], by rw [eval_compare W h]⟩, ?_⟩
    cases hf : (ty.isFloat || tyA.isFloat || tyB.isFloat) with
    | true => simp only [Expr.WordsDecide, World.binop, hf, if_true, h, Option.some.injEq]
    | false =>
      simp only [Expr.WordsDecide, World.binop, hf, Bool.false_eq_true, if_false]
      rw [intBinop_ne_zero h, constCompare_eq_true h]
      cases op <;> first | cases h; done | simp only [BinOp.Compares, ne_eq, not_iff_not]
  · cases h

/-- Constants that carry their own value decide a comparison of integers, if it is one of signed
numbers or the constants have the same sign. -/
theorem wordsDecide_of_ext {ty tyA tyB : Ty} {op : BinOp} {x y : BitVec 64}
    (hint : (ty.isFloat || tyA.isFloat || tyB.isFloat) = false) (hx : tyA.ext x = x)
    (hy : tyB.ext y = y) (hsign : ty.isUnsigned = false ∨ x.msb = y.msb) :
    (Expr.binary ty op (.const tyA x) (.const tyB y)).WordsDecide W := by
  have hless : ∀ v w : Val, ty.isUnsigned = false ∨ v.msb = w.msb →
      (ty.less v w ↔ v.toInt < w.toInt) := by
    intro v w h
    unfold Ty.less
    split
    · next hu =>
      have hmsb := h.resolve_left (by simp [hu])
      rw [BitVec.msb_eq_decide, BitVec.msb_eq_decide, decide_eq_decide] at hmsb
      rw [BitVec.toInt_eq_toNat_cond, BitVec.toInt_eq_toNat_cond]
      split <;> split <;> omega
    · exact Iff.rfl
  simp only [Expr.WordsDecide, hint, hx, hy, Bool.false_eq_true, if_false]
  cases op
  case lt | ge => exact hless x y hsign
  case gt | le => exact hless y x (hsign.imp_right Eq.symm)
  all_goals first | exact Iff.rfl | trivial

end Decision

/-! ### Runs -/

/-- The jump the pass gives the block, if any, goes where its condition does. -/
def Block.WordsDecide {M E : Type} (W : World M E) (b : Block) : Prop :=
  b.decided = none ∨ b.isSwitch = true ∨ b.taken = b.fall ∨ ∃ c, b.cond = some c ∧ c.WordsDecide W

section Runs

variable {M E : Type} (W : World M E) (decl : String → Val → Val) (usedReturn : Bool)

/-- Statements always go on. -/
theorem exists_execAll (sts : List Stmt) (s : Store M) :
    ∃ es s', (W.seen decl).execAll sts s = (es, .inl s') := by
  induction sts generalizing s with
  | nil => exact ⟨[], s, rfl⟩
  | cons st sts ih =>
    obtain ⟨es, s', h⟩ := ih (W.execStmt decl st s).2.2
    refine ⟨((W.seen decl).exec st s).1 ++ es, s', ?_⟩
    have hexec : (W.seen decl).exec st s =
        (((W.seen decl).exec st s).1, .inl (W.execStmt decl st s).2.2) := rfl
    rw [Interp.execAll, hexec]
    dsimp only
    rw [h]
    rfl

/-- A decided condition is tested in silence. -/
theorem test_of_constCond {c : Expr} {r : Bool} (h : constCond (some c) = some r) (s : Store M) :
    (W.seen decl).test c s = ([], (W.eval c s).2.1 != 0, s) := by
  simp only [World.seen, Interp.observe, World.interp]
  rw [(eval_of_constCond W h s).1.eq]
  rfl

theorem transfer_simplified_iff (ps : List ℕ) (s : Store M) :
    transfer (W.seen decl) usedReturn (b.simplified.withPred ps) s =
      transfer (W.seen decl) usedReturn b s ↔ b.WordsDecide W := by
  rcases hdec : b.decided with - | ⟨keep, drop⟩
  · rw [Block.simplified, hdec]
    exact iff_of_true rfl (.inl hdec)
  · obtain ⟨t, f, r, hends, ht, hf, hcond, rfl, -⟩ := exists_of_decided hdec
    rw [Block.simplified, hdec]
    cases hsw : b.isSwitch with
    | true =>
      refine iff_of_true ?_ (.inr (.inl hsw))
      unfold transfer
      rw [hends, hsw]
      simp [Block.withPred, Block.jumpTo, hsw]
      rfl
    | false =>
      obtain ⟨c, hc⟩ : ∃ c, b.cond = some c := by
        cases hc : b.cond with
        | none => rw [hc] at hcond; cases hcond
        | some c => exact ⟨c, rfl⟩
      rw [hc] at hcond
      have hjump : transfer (W.seen decl) usedReturn
          ((b.jumpTo (if r then t else f)).withPred ps) s =
            ([], .inl (if r then t else f, s)) := by
        unfold transfer
        simp only [Block.withPred, Block.jumpTo, hsw]
        rfl
      have htest : transfer (W.seen decl) usedReturn b s =
          ([], .inl (if (W.eval c s).2.1 != 0 then t else f, s)) := by
        have hexpr : b.condExpr = c := by rw [Block.condExpr, hc, Option.getD_some]
        unfold transfer
        rw [hends, hsw]
        simp only [hexpr, test_of_constCond W decl hcond s, ht, hf]
        cases (W.eval c s).2.1 != 0 <;> rfl
      have hwords : b.WordsDecide W ↔ t = f ∨ ((W.eval c s).2.1 ≠ 0 ↔ r = true) := by
        rw [(eval_of_constCond W hcond s).2]
        simp [Block.WordsDecide, hdec, hsw, ht, hf, hc]
      dsimp only
      rw [hjump, htest, hwords, ← bne_iff_ne]
      cases r <;> cases (W.eval c s).2.1 != 0 <;> simp [eq_comm (a := f)]

theorem runBlock_simplified_iff (ps : List ℕ) (s : Store M) :
    runBlock (W.seen decl) usedReturn (b.simplified.withPred ps) s =
      runBlock (W.seen decl) usedReturn b s ↔ b.WordsDecide W := by
  have hstmts : (b.simplified.withPred ps).stmts = b.stmts := by
    unfold Block.simplified
    cases b.decided <;> rfl
  obtain ⟨es, s', h⟩ := exists_execAll W decl b.stmts s
  rw [runBlock_of_inl h, runBlock_of_inl (hstmts ▸ h),
    ← transfer_simplified_iff W decl usedReturn ps s']
  constructor
  · intro h
    obtain ⟨hev, hst⟩ := Prod.mk.inj h
    exact Prod.ext (List.append_cancel_left hev) hst
  · intro h
    rw [h]

end Runs

/-! ### A comparison of unsigned numbers -/

/-- Block `0` goes to block `1` when `-1 < 1` as unsigned 4-byte numbers, and to block `2`
otherwise; they return `1` and `2`. -/
def belowUnsigned : List Block :=
  [{ ends := .jcc
     cond := some (.mkBinary .lt (.mkConst (-1)) (.mkConst 1) 4 true)
     taken := some 1
     fall := some 2
     succ := [1, 2] },
   { pred := [0]
     ends := .ret
     hasRetValue := true
     retValue := some (.mkConst 1) },
   { pred := [0]
     ends := .ret
     hasRetValue := true
     retValue := some (.mkConst 2) }]

end Ldu
