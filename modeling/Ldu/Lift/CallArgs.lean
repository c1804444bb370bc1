import Ldu.Lift.RegLiveness
import Mathlib.Data.List.TakeWhile

/-!
# The arguments of calls to unknown functions

The argument registers are lost in every call. So what `reachingArgc` counts as arguments of a call
to a function it does not know are the positions written since the last call before it in its block.
It counts only if it knows of an earlier call: in the block, or on every way to the block, which
`computeCallBeforeBlock` finds out in sweeps over the blocks.

What is counted was written after the last call on every way to the block, and what is not counted
though it was, was written before the block (`reachingArgc_spec`).
-/

namespace Ldu

namespace Lift

/-! ### Calls before blocks -/

def Block.hasCall (b : Block) : Bool :=
  b.insns.any (·.isCall)

section Sweeps

variable (f : Func)

/-- The marks are at the blocks that are reached without a call. -/
def Func.noCallSystem : Marking.System Unit where
  start i _ := f.blocks[i]?.any fun b ↦ i == f.entryBlock || b.pred.isEmpty
  next i := (f.blocks[i]?.map Block.pred).getD []
  pass _ j _ := f.blocks[j]?.any fun b ↦ !b.hasCall

/-- Whether every way to a block has a call. At first this is taken to be so of all blocks but the
entry. `budgetOk` says in each sweep whether there is time for it. -/
def Func.computeCallBeforeBlock (budgetOk : ℕ → Bool) (i : ℕ) : Bool :=
  decide (i < f.blocks.length) &&
    !(Marking.sweeps f.noCallSystem
      ((List.range f.blocks.length).filter (· ≠ f.entryBlock)) (fun k ↦ budgetOk (99999 - k)) 100000
      ⟨fun i _ ↦ decide (i < f.blocks.length) && i == f.entryBlock, false⟩).marks i ()

end Sweeps

/-! ### Counting the arguments -/

/-- The instructions since the last call, the last one first. -/
def sinceCall (is : List Insn) : List Insn :=
  is.reverse.takeWhile fun i ↦ !i.isCall

def Insn.writesReg (i : Insn) (r : Reg) : Bool :=
  (i.operands.flatMap Insn.operandDefs).contains r

def Insn.setsInt (i : Insn) (k : Fin 4) : Bool :=
  i.writesReg (argRegs.get k)

def Insn.setsXmm (i : Insn) (k : Fin 4) : Bool :=
  i.writesReg (.xmm ⟨k, by omega⟩)

/-- The instruction writes the general or the float register of an argument. -/
def Insn.sets (i : Insn) (k : Fin 4) : Bool :=
  i.setsInt k || i.setsXmm k

/-- The number of positions before the first at which a property fails. -/
def leading {n : ℕ} (p : Fin n → Bool) : ℕ :=
  ((List.finRange n).takeWhile p).length

/-- The number of arguments of a call in a block, and which of them are floats; `none` if the call
may pass on what was there at the start of the function. -/
def Block.reachingArgc (b : Block) (callBeforeBlock : ℕ → Bool) (callin : Insn) (id : ℕ) :
    Option (ℕ × (Fin 4 → Bool)) :=
  match b.insns.findIdx? (·.addr == callin.addr) with
  | none => none
  | some pos =>
    let before := b.insns.take pos
    let since := sinceCall before
    let intSet := fun k ↦ since.any (·.setsInt k)
    let xmmSet := fun k ↦ since.any (·.setsXmm k)
    if before.any (·.isCall) || callBeforeBlock id then
      let n := leading fun k ↦ intSet k || xmmSet k
      some (n, fun k ↦ decide (k.val < n) && xmmSet k && !intSet k)
    else none

/-! ### Ways to a block -/

/-- A block that can be reached from the entry, or from a block that nothing leads to, without a
call on the way. -/
inductive Func.CallFree (f : Func) : ℕ → Prop
  | source {i : ℕ} {b : Block} (hb : f.blocks[i]? = some b)
      (h : i = f.entryBlock ∨ b.pred = []) : CallFree f i
  | step {i j : ℕ} {b c : Block} (hb : f.blocks[i]? = some b) (hj : j ∈ b.pred)
      (hc : f.blocks[j]? = some c) (hcall : c.hasCall = false) (h : CallFree f j) : CallFree f i

/-- The predecessors of a block are all the blocks that it follows. -/
def Func.PredsComplete (f : Func) : Prop :=
  ∀ i j c, f.Edge i j → f.blocks[j]? = some c → i ∈ c.pred

/-- The instructions of the blocks of a path. -/
def Func.pathInsns (f : Func) (path : List ℕ) : List Insn :=
  path.flatMap fun i ↦ (f.blocks[i]?.map Block.insns).getD []

variable {f : Func} {i j : ℕ}

theorem noCallSystem_start : f.noCallSystem.start i () = true ↔
    ∃ b, f.blocks[i]? = some b ∧ (i = f.entryBlock ∨ b.pred = []) := by
  simp [Func.noCallSystem, Option.any_eq_true]

theorem noCallSystem_pass : f.noCallSystem.pass i j () = true ↔
    ∃ c, f.blocks[j]? = some c ∧ c.hasCall = false := by
  simp [Func.noCallSystem, Option.any_eq_true]

theorem mem_noCallSystem_next : j ∈ f.noCallSystem.next i ↔
    ∃ b, f.blocks[i]? = some b ∧ j ∈ b.pred := by
  cases hb : f.blocks[i]? <;> simp [Func.noCallSystem, hb]

theorem callFree_iff : f.CallFree i ↔ ∃ k, Marking.Carried f.noCallSystem () k i := by
  constructor
  · intro h
    induction h with
    | source hb h => exact ⟨0, .start (noCallSystem_start.2 ⟨_, hb, h⟩)⟩
    | step hb hj hc hcall _ ih =>
      obtain ⟨k, hk⟩ := ih
      exact ⟨k + 1, .step (mem_noCallSystem_next.2 ⟨_, hb, hj⟩)
        (noCallSystem_pass.2 ⟨_, hc, hcall⟩) hk⟩
  · rintro ⟨k, hk⟩
    induction hk with
    | start h =>
      obtain ⟨b, hb, h⟩ := noCallSystem_start.1 h
      exact .source hb h
    | step hj hpass _ ih =>
      obtain ⟨b, hb, hj⟩ := mem_noCallSystem_next.1 hj
      obtain ⟨c, hc, hcall⟩ := noCallSystem_pass.1 hpass
      exact .step hb hj hc hcall ih

theorem Func.CallFree.lt (h : f.CallFree i) : i < f.blocks.length := by
  cases h with
  | source hb _ => exact (List.getElem?_eq_some_iff.1 hb).1
  | step hb _ _ _ _ => exact (List.getElem?_eq_some_iff.1 hb).1

/-- With time for all sweeps, the blocks found are those that no way without a call leads to. -/
theorem callBeforeBlock_iff {budgetOk : ℕ → Bool} (hlen : f.blocks.length ≤ 100000)
    (hbudget : ∀ k < 100000, budgetOk k = true) :
    f.computeCallBeforeBlock budgetOk i = true ↔ i < f.blocks.length ∧ ¬ f.CallFree i := by
  rw [Func.computeCallBeforeBlock, Bool.and_eq_true, decide_eq_true_eq, Bool.not_eq_true',
    ← Bool.not_eq_true, callFree_iff]
  refine and_congr_right fun hi ↦ not_congr ?_
  refine Marking.marks_sweeps_iff (U := Finset.range f.blocks.length) (fun i k h ↦ ?_) ?_
    (fun k hk ↦ hbudget _ (by omega)) (fun i hi k h ↦ ?_) (fun i h ↦ ?_)
  · exact Finset.mem_range.2 (callFree_iff.2 ⟨k, h⟩).lt
  · rwa [Finset.card_range]
  · -- Of the blocks that the sweeps pass over, only the entry is reached at all.
    have hlt := (callFree_iff.2 ⟨k, h⟩).lt
    simpa [hlt] using hi
  · simp only [Bool.and_eq_true, decide_eq_true_eq, beq_iff_eq] at h
    obtain ⟨hlt, rfl⟩ := h
    exact ⟨0, .start (noCallSystem_start.2 ⟨_, List.getElem?_eq_getElem hlt, .inl rfl⟩)⟩

/-- Along a way without a call the block is reached without a call. -/
theorem callFree_of_path (hpreds : f.PredsComplete) {path : List ℕ} {b : Block}
    (hchain : (path ++ [i]).IsChain f.Edge) (hhead : (path ++ [i]).head? = some f.entryBlock)
    (hb : f.blocks[i]? = some b) (hcall : ∀ c ∈ f.pathInsns path, c.isCall = false) :
    f.CallFree i := by
  induction path using List.reverseRecOn generalizing i b with
  | nil => exact .source hb (.inl (Option.some.inj hhead))
  | append_singleton path j ih =>
    rw [List.append_assoc, List.singleton_append, List.isChain_split, List.isChain_cons_cons]
      at hchain
    obtain ⟨hinit, hedge, -⟩ := hchain
    obtain ⟨c, hc, -⟩ := id hedge
    have hinsns : f.pathInsns (path ++ [j]) = f.pathInsns path ++ c.insns := by
      simp [Func.pathInsns, hc]
    rw [hinsns] at hcall
    refine .step hb (hpreds _ _ _ hedge hb) hc ?_ (ih hinit ?_ hc fun c hc ↦ ?_)
    · rw [Block.hasCall, List.any_eq_false]
      exact fun c hc ↦ by simp [hcall c (List.mem_append_right _ hc)]
    · simpa [List.head?_append] using hhead
    · exact hcall c (List.mem_append_left _ hc)

/-! ### What the count means -/

/-- The number of arguments written since the last call. -/
def argsSet (is : List Insn) : ℕ :=
  leading fun k ↦ (sinceCall is).any (·.sets k)

theorem leading_succ {n : ℕ} (p : Fin (n + 1) → Bool) :
    leading p = if p 0 then (leading fun k ↦ p k.succ) + 1 else 0 := by
  rw [leading, List.finRange_succ, List.takeWhile_cons]
  split
  · rw [List.length_cons, List.takeWhile_map, List.length_map]
    rfl
  · rfl

theorem lt_leading {n m : ℕ} {p : Fin n → Bool} :
    m < leading p ↔ m < n ∧ ∀ k : Fin n, k.val ≤ m → p k = true := by
  induction n generalizing m with
  | zero => simp [leading]
  | succ n ih =>
    rw [leading_succ]
    split
    · next h0 =>
      cases m with
      | zero => simp [h0]
      | succ m => simp [Fin.forall_fin_succ, h0, ih]
    · next h0 => exact iff_of_false (Nat.not_lt_zero _) fun h ↦ h0 (h.2 0 (Nat.zero_le _))

/-- More positions count if the first that failed is among the new ones. -/
theorem leading_or {n : ℕ} (p q : Fin n → Bool) :
    leading p ≤ (leading fun k ↦ p k || q k) ∧
      ((leading p < leading fun k ↦ p k || q k) ↔ ∃ k, k.val = leading p ∧ q k = true) := by
  have hlt {k : Fin n} (hk : k.val < leading p) : p k = true := (lt_leading.1 hk).2 k le_rfl
  constructor
  · by_contra! hlarge
    obtain ⟨hn, hall⟩ := lt_leading.1 hlarge
    exact lt_irrefl _ (lt_leading.2 ⟨hn, fun k hk ↦ by simp [hall k hk]⟩)
  · rw [lt_leading]
    constructor
    · rintro ⟨hn, hall⟩
      refine ⟨⟨leading p, hn⟩, rfl, ?_⟩
      by_contra hq
      refine lt_irrefl (leading p) (lt_leading.2 ⟨hn, fun k hk ↦ ?_⟩)
      rcases Nat.lt_or_eq_of_le hk with hk | hk
      · exact hlt hk
      · obtain rfl : k = ⟨leading p, hn⟩ := Fin.ext hk
        simpa [hq] using hall _ hk.le
    · rintro ⟨k, hk, hq⟩
      refine ⟨hk ▸ k.isLt, fun j hj ↦ ?_⟩
      rcases Nat.lt_or_eq_of_le hj with hj | hj
      · rw [hlt hj, Bool.true_or]
      · obtain rfl : j = k := Fin.ext (hj.trans hk.symm)
        rw [hq, Bool.or_true]

theorem sinceCall_append (as bs : List Insn) : sinceCall (as ++ bs) =
    if bs.any (·.isCall) then sinceCall bs else sinceCall bs ++ sinceCall as := by
  unfold sinceCall
  rw [List.reverse_append]
  split
  · next h =>
    rw [← List.any_reverse] at h
    generalize bs.reverse = l at h
    induction l with
    | nil => simp at h
    | cons b l ih =>
      rw [List.cons_append, List.takeWhile_cons, List.takeWhile_cons]
      split
      · next hb =>
        rw [Bool.not_eq_true'] at hb
        rw [ih (by rwa [List.any_cons, hb, Bool.false_or] at h)]
      · rfl
  · next h =>
    have hall : ∀ b ∈ bs.reverse, (!b.isCall) = true := by simpa using h
    rw [List.takeWhile_append_of_pos hall, List.takeWhile_eq_self_iff.2 hall]

theorem argsSet_append (as bs : List Insn) : argsSet (as ++ bs) = leading fun k ↦
    (sinceCall bs).any (·.sets k) || !bs.any (·.isCall) && (sinceCall as).any (·.sets k) := by
  rw [argsSet, sinceCall_append]
  congr 1
  funext k
  cases bs.any (·.isCall) <;> simp

/-- What the count of a call says of any way to it. It is withheld only if a way without a call
exists. The positions counted were written after the last call; one more that was can be missing
only if it was written before the block, with no call in the block. -/
theorem reachingArgc_spec {budgetOk : ℕ → Bool} {path : List ℕ} {b : Block} {callin : Insn}
    {pos : ℕ} (hpreds : f.PredsComplete) (hlen : f.blocks.length ≤ 100000)
    (hbudget : ∀ k < 100000, budgetOk k = true) (hchain : (path ++ [i]).IsChain f.Edge)
    (hhead : (path ++ [i]).head? = some f.entryBlock) (hb : f.blocks[i]? = some b)
    (hpos : b.insns.findIdx? (·.addr == callin.addr) = some pos) :
    match b.reachingArgc (f.computeCallBeforeBlock budgetOk) callin i with
    | none => (∀ c ∈ b.insns.take pos, c.isCall = false) ∧ f.CallFree i
    | some (n, xmm) =>
      (∃ c ∈ f.pathInsns path ++ b.insns.take pos, c.isCall = true) ∧
        n ≤ argsSet (f.pathInsns path ++ b.insns.take pos) ∧
        (n < argsSet (f.pathInsns path ++ b.insns.take pos) ↔
          (∀ c ∈ b.insns.take pos, c.isCall = false) ∧
            ∃ k : Fin 4, k.val = n ∧ ∃ c ∈ sinceCall (f.pathInsns path), c.sets k = true) ∧
        ∀ k : Fin 4, xmm k = true ↔ k.val < n ∧
          ∀ c ∈ sinceCall (b.insns.take pos), c.setsInt k = false := by
  have hlt : i < f.blocks.length := (List.getElem?_eq_some_iff.1 hb).1
  have hbefore := callBeforeBlock_iff (i := i) hlen hbudget
  have hsets (l : List Insn) (k : Fin 4) :
      (l.any (·.setsInt k) || l.any (·.setsXmm k)) = l.any (·.sets k) := by
    rw [Bool.eq_iff_iff]
    simp [Insn.sets, and_or_left, exists_or]
  simp only [Block.reachingArgc, hpos, hsets]
  generalize b.insns.take pos = before
  split_ifs with hcall
  · dsimp only
    obtain ⟨hle, hmissed⟩ := leading_or (fun k ↦ (sinceCall before).any (·.sets k)) fun k ↦
      !before.any (·.isCall) && (sinceCall (f.pathInsns path)).any (·.sets k)
    rw [argsSet_append]
    refine ⟨?_, hle, ?_, fun k ↦ ?_⟩
    · by_contra! hno
      have hfree : f.CallFree i := callFree_of_path hpreds hchain hhead hb fun c hc ↦ by
        simpa using hno c (List.mem_append_left _ hc)
      rw [Bool.or_eq_true, List.any_eq_true, hbefore] at hcall
      rcases hcall with ⟨c, hc, hcall⟩ | ⟨-, hcall⟩
      · exact hno c (List.mem_append_right _ hc) hcall
      · exact hcall hfree
    · rw [hmissed]
      simp only [Bool.and_eq_true, Bool.not_eq_true', List.any_eq_false, List.any_eq_true,
        Bool.not_eq_true]
      constructor
      · rintro ⟨k, hk, hcalls, hset⟩
        exact ⟨hcalls, k, hk, hset⟩
      · rintro ⟨hcalls, k, hk, hset⟩
        exact ⟨k, hk, hcalls, hset⟩
    · -- A position that counts and whose general register is not written is written as a float.
      have hfloat (hk : k.val < leading fun k ↦ (sinceCall before).any (·.sets k))
          (hint : (sinceCall before).any (·.setsInt k) = false) :
          (sinceCall before).any (·.setsXmm k) = true := by
        have hset := (lt_leading.1 hk).2 k le_rfl
        rwa [← hsets, hint, Bool.false_or] at hset
      simp only [Bool.and_eq_true, decide_eq_true_eq, Bool.not_eq_true']
      constructor
      · rintro ⟨⟨hk, -⟩, hint⟩
        exact ⟨hk, by simpa using hint⟩
      · rintro ⟨hk, hint⟩
        have hint : (sinceCall before).any (·.setsInt k) = false := by simpa using hint
        exact ⟨⟨hk, hfloat hk hint⟩, hint⟩
  · dsimp only
    rw [Bool.or_eq_true, not_or, hbefore] at hcall
    obtain ⟨hcalls, hfree⟩ := hcall
    refine ⟨by simpa using hcalls, ?_⟩
    by_contra hno
    exact hfree ⟨hlt, hno⟩

/-- An argument that the block before writes is missing. -/
theorem reachingArgc_spec_two :
    let rcx : Operand := ⟨.reg (.part .rcx .qword), 8, false, true⟩
    let rdx : Operand := ⟨.reg (.part .rdx .qword), 8, false, true⟩
    let first : Block :=
      { insns := [{ addr := 1, isCall := true }, { addr := 2, operands := [rcx] }], succ := [1] }
    let last : Block :=
      { insns := [{ addr := 3, operands := [rdx] }, { addr := 4, isCall := true }], pred := [0] }
    let f : Func := { blocks := [first, last], rva := 0, blockByAddr := fun _ ↦ none }
    (last.reachingArgc (f.computeCallBeforeBlock fun _ ↦ true) { addr := 4 } 1).map Prod.fst =
        some 0 ∧
      0 < argsSet (f.pathInsns [0] ++ last.insns.take 1) := by
  intro rcx rdx first last f
  have hpreds : f.PredsComplete := by
    rintro (_ | _ | i) j c ⟨b, hb, hj⟩ hc
    · obtain rfl : first = b := by simpa [f] using hb
      obtain rfl : j = 1 := by simpa [first] using hj
      obtain rfl : last = c := by simpa [f] using hc
      simp [last]
    · obtain rfl : last = b := by simpa [f] using hb
      simp [last] at hj
    · simp [f] at hb
  have hspec := @reachingArgc_spec f 1 (fun _ ↦ true) [0] last { addr := 4 } 1 hpreds
    (by simp [f]) (fun _ _ ↦ rfl) (by simp [Func.Edge, f, first]) rfl rfl rfl
  have hcount : (last.reachingArgc (f.computeCallBeforeBlock fun _ ↦ true)
      { addr := 4 } 1).map Prod.fst = some 0 := rfl
  obtain ⟨⟨n, xmm⟩, hr, rfl⟩ := Option.map_eq_some_iff.1 hcount
  rw [hr] at hspec
  exact ⟨hcount, hspec.2.2.1.2 ⟨by simp [last], 0, rfl, _, .head _, rfl⟩⟩

end Lift

end Ldu
