import Ldu.Graph.Marking
import Mathlib.Data.Finset.Basic
import Mathlib.Data.Fintype.Sum
import Mathlib.Data.List.Chain
import Mathlib.Tactic.DeriveFintype

/-!
# Live registers, and the parameters they tell

`computeRegLiveness` looks through the instructions of each block for the registers that it uses
before it defines them, and hands these on to the predecessors of the block in sweeps. An access to
part of a register counts for all of it. The number of sweeps is capped, four above the number of
blocks, and that is enough: a register is found live at a block exactly when some path from there
uses it first (`regLiveIn_iff`).

`finalizeParams` makes a parameter of every argument register that is live at the entry. For that
the registers a call hands on do not count as used.
-/

namespace Ldu

namespace Lift

/-! ### Instructions -/

/-- The general registers. -/
inductive Gp
  | rax | rcx | rdx | rbx | rsp | rbp | rsi | rdi
  | r8 | r9 | r10 | r11 | r12 | r13 | r14 | r15
  deriving DecidableEq

instance : Fintype Gp :=
  .ofList [.rax, .rcx, .rdx, .rbx, .rsp, .rbp, .rsi, .rdi, .r8, .r9, .r10, .r11, .r12, .r13, .r14,
    .r15] fun g ↦ by cases g <;> decide

/-- The registers that are followed. -/
inductive Reg
  | gp (g : Gp)
  | xmm (n : Fin 16)
  | rip
  deriving DecidableEq, Fintype

/-- What an instruction names of a general register: all of it, or one of its ends. -/
inductive Part
  | qword | dword | word | low | high
  deriving DecidableEq

/-- A register as an instruction names it. -/
inductive X86Reg
  | part (g : Gp) (p : Part)
  | xmm (n : Fin 16)
  | rip
  /-- A register that is not followed. -/
  | other (n : ℕ)
  deriving DecidableEq

def mapReg : X86Reg → Option Reg
  | .part g _ => some (.gp g)
  | .xmm n => some (.xmm n)
  | .rip => some .rip
  | .other _ => none

inductive OperandKind
  | reg (r : X86Reg)
  | mem (base index : Option X86Reg)
  | imm
  deriving DecidableEq

/-- An operand, its size in bytes, and whether the disassembler says that it is read or written. -/
structure Operand where
  kind : OperandKind
  size : ℕ := 8
  reads : Bool := false
  writes : Bool := false
  deriving DecidableEq

/-- The instructions that are told apart. -/
inductive Opcode
  | xor | sub | cmov | div | idiv | mul | imul | cpuid | xgetbv | cdq | cqo | cwd | other
  deriving DecidableEq

structure Insn where
  addr : ℕ
  id : Opcode := .other
  operands : List Operand := []
  isCall : Bool := false
  branchTarget : Option ℕ := none
  deriving DecidableEq

structure Block where
  insns : List Insn
  succ : List ℕ := []
  pred : List ℕ := []
  endsRet : Bool := false

/-- What is known of the parameters and of the result of a function. -/
structure FuncSig where
  paramCount : ℤ := 0
  retKind : ℤ := 1
  retByte : Bool := false
  deriving DecidableEq

/-- A function before it is lifted, and what is known of the functions it calls. -/
structure Func where
  /-- The block with the number `i` is the `i`-th. -/
  blocks : List Block
  rva : ℕ
  blockByAddr : ℕ → Option ℕ
  isX64 : Bool := true
  cookieCallAddrs : Finset ℕ := ∅
  chkstkCallAddrs : Finset ℕ := ∅
  /-- The signatures of the functions at addresses. -/
  sigtab : ℕ → Option FuncSig := fun _ ↦ none
  usedReturn : Bool := false
  retIsFloat : Bool := false

def Func.entryBlock (f : Func) : ℕ :=
  (f.blockByAddr f.rva).getD 0

/-- The registers of the first four arguments. -/
def argRegs : List Reg :=
  [.gp .rcx, .gp .rdx, .gp .r8, .gp .r9]

def Func.retReg (f : Func) : Reg :=
  if f.retIsFloat then .xmm 0 else .gp .rax

/-! ### Uses and definitions -/

/-- What an instruction does with a register. -/
inductive Access
  | use (r : Reg)
  | define (r : Reg)
  deriving DecidableEq

namespace Insn

variable (i : Insn)

/-- `xor r, r` or `sub r, r`, which does not depend on what `r` holds. -/
def selfZero : Bool :=
  (i.id == .xor || i.id == .sub) &&
    match i.operands with
    | [a, b] =>
      match a.kind, b.kind with
      | .reg r, .reg r' => r == r'
      | _, _ => false
    | _ => false

/-- An operand of unknown access counts as read. -/
def operandUses (op : Operand) : List Reg :=
  match op.kind with
  | .reg r => if (op.reads || !op.writes) && !i.selfZero then (mapReg r).toList else []
  | .mem base index => (base.bind mapReg).toList ++ (index.bind mapReg).toList
  | .imm => []

/-- A conditional move may keep what its destination holds. -/
def keptDest : List Reg :=
  match i.id, i.operands with
  | .cmov, op :: _ =>
    match op.kind with
    | .reg r => (mapReg r).toList
    | _ => []
  | _, _ => []

def implicitUses : List Reg :=
  match i.id with
  | .div | .idiv =>
    .gp .rax :: if i.operands.head?.any (1 < ·.size) then [.gp .rdx] else []
  | .mul | .imul => if i.operands.length ≤ 1 then [.gp .rax] else []
  | .cpuid => [.gp .rax, .gp .rcx]
  | .xgetbv => [.gp .rcx]
  | _ => []

def operandDefs (op : Operand) : List Reg :=
  match op.kind with
  | .reg r => if op.writes then (mapReg r).toList else []
  | _ => []

def implicitDefs : List Reg :=
  match i.id with
  | .cdq | .cqo | .cwd => [.gp .rdx]
  | .div | .idiv | .mul | .imul => if i.operands.length ≤ 1 then [.gp .rdx] else []
  | _ => []

/-- The number of argument registers that a call is taken to use. -/
def argCount (sigtab : ℕ → Option FuncSig) : ℕ :=
  (min (((i.branchTarget.bind sigtab).map FuncSig.paramCount).getD 4) 4).toNat

/-- The accesses of an instruction in order. The arguments of a call count if `callArgs` says so. -/
def accesses (sigtab : ℕ → Option FuncSig) (callArgs : Bool) : List Access :=
  let ops := i.operands.take 8
  (ops.flatMap i.operandUses ++ i.keptDest ++ i.implicitUses).map .use ++
    (ops.flatMap operandDefs ++ i.implicitDefs).map .define ++
    if i.isCall then
      (if callArgs then (argRegs.take (i.argCount sigtab)).map .use else []) ++
        [.define (.gp .rax)]
    else []

end Insn

/-- The accesses of a block in order; behind them, what the return reads. Calls of the stack checks
are passed over. -/
def Func.accesses (f : Func) (callArgs : Bool) (b : Block) : List Access :=
  (b.insns.filter fun i ↦ i.addr ∉ f.cookieCallAddrs ∧ i.addr ∉ f.chkstkCallAddrs).flatMap
      (·.accesses f.sigtab callArgs) ++
    if b.endsRet && f.usedReturn then [.use f.retReg] else []

/-- The registers that a block uses first, and those that it defines. -/
structure UseDef where
  use : Finset Reg := ∅
  defined : Finset Reg := ∅

def UseDef.access (u : UseDef) : Access → UseDef
  | .use r => if r ∈ u.defined then u else { u with use := insert r u.use }
  | .define r => { u with defined := insert r u.defined }

def useDef (as : List Access) : UseDef :=
  as.foldl UseDef.access {}

/-! ### The sweeps -/

section Sweeps

variable (f : Func) (callArgs : Bool)

/-- What makes a register live at a block. -/
def Func.liveSystem : Marking.System Reg where
  start i r :=
    match f.blocks[i]? with
    | none => false
    | some b =>
      let u := useDef (f.accesses callArgs b)
      decide (r ∈ u.use) ||
        (b.endsRet && f.usedReturn && r == f.retReg && decide (r ∉ u.defined))
  next i := (f.blocks[i]?.map Block.succ).getD []
  pass i _ r :=
    f.blocks[i]?.all fun b ↦ decide (r ∉ (useDef (f.accesses callArgs b)).defined)

/-- Whether a register is live at the start of a block. -/
def Func.computeRegLiveness : ℕ → Reg → Bool :=
  (Marking.sweeps (f.liveSystem callArgs) (List.range f.blocks.length).reverse (fun _ ↦ true)
    (f.blocks.length + 4) ⟨fun _ _ ↦ false, false⟩).marks

end Sweeps

/-! ### Paths -/

/-- The register is used before it is defined. -/
def usedFirst (r : Reg) : List Access → Bool
  | [] => false
  | .use q :: as => q == r || usedFirst r as
  | .define q :: as => q != r && usedFirst r as

def Func.Edge (f : Func) (i j : ℕ) : Prop :=
  ∃ b, f.blocks[i]? = some b ∧ j ∈ b.succ

/-- The accesses along a path. -/
def Func.pathAccesses (f : Func) (callArgs : Bool) (path : List ℕ) : List Access :=
  path.flatMap fun i ↦ f.blocks[i]?.elim [] (f.accesses callArgs)

/-- Some path from the block on uses the register before it defines it. -/
def Func.UsedFrom (f : Func) (callArgs : Bool) (i : ℕ) (r : Reg) : Prop :=
  ∃ path, (i :: path).IsChain f.Edge ∧
    usedFirst r (f.pathAccesses callArgs (i :: path)) = true

variable {f : Func} {callArgs : Bool} {i : ℕ} {r : Reg} {as bs : List Access}

theorem usedFirst_append : usedFirst r (as ++ bs) =
    (usedFirst r as || (decide (Access.define r ∉ as) && usedFirst r bs)) := by
  induction as with
  | nil => simp [usedFirst]
  | cons a as ih =>
    cases a with
    | use q =>
      rw [List.cons_append, usedFirst, usedFirst, ih]
      simp [Bool.or_assoc]
    | define q =>
      rw [List.cons_append, usedFirst, usedFirst, ih]
      by_cases hq : q = r
      · simp [hq]
      · have hne : (q != r) = true := by simpa using hq
        simp [hne, Ne.symm hq]

/-- What the scan of a block finds. -/
theorem mem_useDef (as : List Access) :
    (r ∈ (useDef as).use ↔ usedFirst r as = true) ∧
      (r ∈ (useDef as).defined ↔ Access.define r ∈ as) := by
  induction as using List.reverseRecOn with
  | nil => simp [useDef, usedFirst]
  | append_singleton as a ih =>
    have hstep : useDef (as ++ [a]) = (useDef as).access a := by
      simp [useDef, List.foldl_append]
    rw [hstep, usedFirst_append]
    cases a with
    | use q =>
      simp only [UseDef.access, usedFirst, Bool.or_false, Bool.or_eq_true, Bool.and_eq_true,
        decide_eq_true_eq, beq_iff_eq, ← ih.1, ← ih.2, List.mem_append, List.mem_singleton,
        reduceCtorEq, or_false]
      split
      · next hq => refine ⟨(or_iff_left ?_).symm, Iff.rfl⟩
                   rintro ⟨hr, rfl⟩
                   exact hr hq
      · next hq =>
        rw [Finset.mem_insert]
        refine ⟨⟨?_, ?_⟩, Iff.rfl⟩
        · rintro (rfl | hr)
          · exact .inr ⟨hq, rfl⟩
          · exact .inl hr
        · rintro (hr | ⟨-, rfl⟩)
          · exact .inr hr
          · exact .inl rfl
    | define q =>
      simp only [UseDef.access, usedFirst, Bool.and_false, Bool.or_false, ih.1, true_and,
        Finset.mem_insert, ih.2, List.mem_append, List.mem_singleton, Access.define.injEq]
      exact or_comm

/-! ### The sweeps find the paths -/

theorem liveSystem_start : (f.liveSystem callArgs).start i r = true ↔
    ∃ b, f.blocks[i]? = some b ∧ usedFirst r (f.accesses callArgs b) = true := by
  cases hb : f.blocks[i]? with
  | none => simp [Func.liveSystem, hb]
  | some b =>
    obtain ⟨huse, hdef⟩ := mem_useDef (r := r) (f.accesses callArgs b)
    simp only [Func.liveSystem, hb, huse, hdef, Bool.or_eq_true, Option.some.injEq, exists_eq_left',
      decide_eq_true_eq, Bool.and_eq_true, beq_iff_eq]
    refine or_iff_left_of_imp ?_
    -- What the return reads is the last access of the block.
    rintro ⟨⟨hret, rfl⟩, hdef⟩
    rw [Func.accesses, if_pos (by simpa using hret)] at hdef ⊢
    rw [List.mem_append, not_or] at hdef
    rw [usedFirst_append, decide_eq_true hdef.1]
    simp [usedFirst]

theorem liveSystem_pass {j : ℕ} {b : Block} (hb : f.blocks[i]? = some b) :
    (f.liveSystem callArgs).pass i j r = true ↔ Access.define r ∉ f.accesses callArgs b := by
  simp [Func.liveSystem, hb, (mem_useDef (r := r) _).2]

theorem mem_liveSystem_next {j : ℕ} : j ∈ (f.liveSystem callArgs).next i ↔ f.Edge i j := by
  cases hb : f.blocks[i]? <;> simp [Func.liveSystem, Func.Edge, hb]

theorem pathAccesses_cons {b : Block} (hb : f.blocks[i]? = some b) (path : List ℕ) :
    f.pathAccesses callArgs (i :: path) =
      f.accesses callArgs b ++ f.pathAccesses callArgs path := by
  simp [Func.pathAccesses, hb]

theorem UsedFrom.of_carried {k : ℕ} (h : Marking.Carried (f.liveSystem callArgs) r k i) :
    f.UsedFrom callArgs i r := by
  induction h with
  | start h =>
    obtain ⟨b, hb, huse⟩ := liveSystem_start.1 h
    refine ⟨[], .singleton _, ?_⟩
    rw [pathAccesses_cons hb, usedFirst_append, huse, Bool.true_or]
  | @step k i j hj hpass h ih =>
    obtain ⟨path, hchain, huse⟩ := ih
    have hedge := mem_liveSystem_next.1 hj
    obtain ⟨b, hb, -⟩ := id hedge
    refine ⟨j :: path, .cons_cons hedge hchain, ?_⟩
    rw [pathAccesses_cons hb, usedFirst_append, huse,
      decide_eq_true ((liveSystem_pass hb).1 hpass), Bool.and_self, Bool.or_true]

theorem carried_of_path {path : List ℕ} (hchain : (i :: path).IsChain f.Edge)
    (huse : usedFirst r (f.pathAccesses callArgs (i :: path)) = true) :
    ∃ k, Marking.Carried (f.liveSystem callArgs) r k i := by
  induction path generalizing i with
  | nil =>
    cases hb : f.blocks[i]? with
    | none => simp [Func.pathAccesses, hb, usedFirst] at huse
    | some b =>
      have hacc : f.pathAccesses callArgs [i] = f.accesses callArgs b := by
        simp [Func.pathAccesses, hb]
      exact ⟨0, .start (liveSystem_start.2 ⟨b, hb, hacc ▸ huse⟩)⟩
  | cons j path ih =>
    obtain ⟨hedge, hchain⟩ := List.isChain_cons_cons.1 hchain
    obtain ⟨b, hb, -⟩ := id hedge
    rw [pathAccesses_cons hb, usedFirst_append, Bool.or_eq_true, Bool.and_eq_true,
      decide_eq_true_eq] at huse
    rcases huse with huse | ⟨hdef, huse⟩
    · exact ⟨0, .start (liveSystem_start.2 ⟨b, hb, huse⟩)⟩
    · obtain ⟨k, hk⟩ := ih hchain huse
      exact ⟨k + 1, .step (mem_liveSystem_next.2 hedge) ((liveSystem_pass hb).2 hdef) hk⟩

theorem carried_lt {k : ℕ} (h : Marking.Carried (f.liveSystem callArgs) r k i) :
    i < f.blocks.length := by
  cases h with
  | start h =>
    obtain ⟨b, hb, -⟩ := liveSystem_start.1 h
    exact (List.getElem?_eq_some_iff.1 hb).1
  | step hj _ _ =>
    obtain ⟨b, hb, -⟩ := mem_liveSystem_next.1 hj
    exact (List.getElem?_eq_some_iff.1 hb).1

/-- A register is found live exactly when some path uses it first. -/
theorem regLiveIn_iff : f.computeRegLiveness callArgs i r = true ↔ f.UsedFrom callArgs i r := by
  have hiff : f.computeRegLiveness callArgs i r = true ↔
      ∃ k, Marking.Carried (f.liveSystem callArgs) r k i := by
    refine Marking.marks_sweeps_iff (U := Finset.range f.blocks.length) (fun i k h ↦ ?_) ?_
      (fun _ _ ↦ rfl) (fun i hi k h ↦ ?_) (fun _ h ↦ nomatch h)
    · exact Finset.mem_range.2 (carried_lt h)
    · rw [Finset.card_range]
      exact Nat.le_add_right _ _
    · rw [List.mem_reverse, List.mem_range] at hi
      exact absurd (carried_lt h) hi
  rw [hiff]
  exact ⟨fun ⟨k, hk⟩ ↦ UsedFrom.of_carried hk, fun ⟨path, hchain, huse⟩ ↦
    carried_of_path hchain huse⟩

/-! ### Parameters -/

/-- What is known of the parameters and of the result of a function that is decompiled. -/
structure ParamInfo where
  /-- The numbers of the parameters that have a home on the stack. -/
  homes : List ℕ := []
  isFloatParam : Fin 4 → Bool := fun _ ↦ false
  regParamMax : ℤ := 0
  numParams : ℤ := 0
  usedReturn : Bool := false
  retIsFloat : Bool := false
  retWidth : ℕ := 4
  retByteReturn : Bool := false

/-- One above the highest position at which a property holds. -/
def highest {n : ℕ} (p : Fin n → Bool) : ℤ :=
  (List.finRange n).foldl (fun m q ↦ if p q then (q : ℤ) + 1 else m) 0

namespace ParamInfo

variable (f : Func) (s : ParamInfo)

/-- The number of parameters by the homes, the float registers, and the signature. -/
def signalled : ℤ :=
  let maxHome : ℤ := s.homes.foldl max 0
  let fmax := highest s.isFloatParam
  let gmax := max maxHome s.regParamMax
  let n :=
    if 0 < gmax then max gmax fmax
    else match f.sigtab f.rva with
      | some sig => max s.numParams sig.paramCount
      | none => s.numParams
  max n (max fmax s.regParamMax)

/-- One above the highest argument register that is live at the entry. -/
def liveMax : ℤ :=
  if f.isX64 && !f.blocks.isEmpty then
    if f.entryBlock < f.blocks.length then
      let live := f.computeRegLiveness false f.entryBlock
      highest fun p ↦ live (argRegs.get p)
    else 0
  else 0

/-- The kind of the result by the signature. -/
def withReturn (sig : FuncSig) : ParamInfo :=
  let s :=
    if sig.retKind == 0 then { s with usedReturn := false }
    else if sig.retKind == 3 || sig.retKind == 4 then
      { s with usedReturn := true, retIsFloat := true,
               retWidth := if sig.retKind == 4 then 8 else 4 }
    else { s with usedReturn := true, retWidth := if sig.retKind == 2 then 8 else 4 }
  if sig.retByte && s.usedReturn && !s.retIsFloat then
    { s with retByteReturn := true, retWidth := 1 }
  else s

def finalizeParams : ParamInfo :=
  let n := max (s.signalled f) (liveMax f)
  let n := if 32 < n then 32 else n
  let s := { s with numParams := if n < 0 then 0 else n }
  match f.sigtab f.rva with
  | some sig => s.withReturn sig
  | none => s

end ParamInfo

theorem highest_succ {n : ℕ} (p : Fin (n + 1) → Bool) :
    highest p = if p (Fin.last n) then (n : ℤ) + 1 else highest fun q ↦ p q.castSucc := by
  simp [highest, List.finRange_succ_last, List.foldl_append, List.foldl_map]

theorem lt_highest {n : ℕ} {p : Fin n → Bool} {m : ℕ} :
    (m : ℤ) < highest p ↔ ∃ q, m ≤ q.val ∧ p q = true := by
  induction n with
  | zero => simp [highest]
  | succ n ih =>
    rw [highest_succ, Fin.exists_fin_succ']
    split
    · next hp =>
      refine ⟨fun hm ↦ .inr ⟨?_, hp⟩, ?_⟩
      · exact Int.ofNat_le.1 (Int.lt_add_one_iff.1 hm)
      · rintro (⟨q, hq, -⟩ | ⟨hm, -⟩)
        · have := q.isLt
          simp only [Fin.val_castSucc] at hq
          omega
        · simp only [Fin.val_last] at hm
          omega
    · next hp =>
      rw [ih]
      simp [hp]

namespace ParamInfo

theorem withReturn_numParams (s : ParamInfo) (sig : FuncSig) :
    (s.withReturn sig).numParams = s.numParams := by
  unfold withReturn
  dsimp only
  split_ifs <;> rfl

theorem finalizeParams_numParams (f : Func) (s : ParamInfo) :
    (s.finalizeParams f).numParams = max 0 (min 32 (max (s.signalled f) (liveMax f))) := by
  have hcap (n : ℤ) : (if (if 32 < n then 32 else n) < 0 then 0 else if 32 < n then 32 else n) =
      max 0 (min 32 n) := by
    split_ifs <;> omega
  unfold finalizeParams
  cases f.sigtab f.rva with
  | none => exact hcap _
  | some sig => exact (withReturn_numParams _ sig).trans (hcap _)

theorem lt_liveMax (f : Func) {m : ℕ} : (m : ℤ) < liveMax f ↔ f.isX64 = true ∧
    ∃ q : Fin 4, m ≤ q.val ∧ f.UsedFrom false f.entryBlock (argRegs.get q) := by
  unfold liveMax
  have hlt (r : Reg) (h : f.UsedFrom false f.entryBlock r) : f.entryBlock < f.blocks.length := by
    obtain ⟨path, hchain, huse⟩ := h
    obtain ⟨k, hk⟩ := carried_of_path hchain huse
    exact carried_lt hk
  split_ifs with hx hentry
  · rw [Bool.and_eq_true] at hx
    rw [lt_highest]
    simp only [regLiveIn_iff, hx.1, true_and]
    exact Iff.rfl
  · refine iff_of_false (by omega) ?_
    rintro ⟨-, q, -, h⟩
    exact hentry (hlt _ h)
  · refine iff_of_false (by omega) ?_
    rintro ⟨hx64, q, -, h⟩
    have hblocks : f.blocks ≠ [] := List.ne_nil_of_length_pos (Nat.zero_lt_of_lt (hlt _ h))
    exact hx (by simp [hx64, hblocks])

end ParamInfo

/-- A register is live at a block exactly when some path from there uses it before it is defined;
and an argument register is a parameter exactly when the homes, the signature and the float
registers say so, or it or a later one is live at the entry. What is known of the functions that are
called makes no parameter. -/
theorem live_registers_and_params (f : Func) (s : ParamInfo) :
    (∀ callArgs i r, f.computeRegLiveness callArgs i r = true ↔ f.UsedFrom callArgs i r) ∧
      0 ≤ (s.finalizeParams f).numParams ∧ (s.finalizeParams f).numParams ≤ 32 ∧
      (∀ p < 32, (p : ℕ) < (s.finalizeParams f).numParams ↔ p < s.signalled f ∨
        f.isX64 = true ∧ ∃ q : Fin 4, p ≤ q.val ∧
          f.UsedFrom false f.entryBlock (argRegs.get q)) ∧
      ∀ sigtab : ℕ → Option FuncSig, sigtab f.rva = f.sigtab f.rva →
        s.finalizeParams { f with sigtab := sigtab } = s.finalizeParams f := by
  refine ⟨fun _ _ _ ↦ regLiveIn_iff, ?_, ?_, fun p hp ↦ ?_, fun sigtab hsig ↦ ?_⟩
  · rw [ParamInfo.finalizeParams_numParams]
    omega
  · rw [ParamInfo.finalizeParams_numParams]
    omega
  · rw [ParamInfo.finalizeParams_numParams, ← ParamInfo.lt_liveMax]
    omega
  · have hsignalled : s.signalled { f with sigtab := sigtab } = s.signalled f := by
      simp only [ParamInfo.signalled, hsig]
    have hlive : ParamInfo.liveMax { f with sigtab := sigtab } = ParamInfo.liveMax f := rfl
    simp only [ParamInfo.finalizeParams, hsignalled, hlive, hsig]

end Lift

end Ldu
