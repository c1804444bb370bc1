import Ldu.Listing.Engine
import Mathlib.Data.List.Destutter
import Mathlib.Data.List.Sort
import Mathlib.Data.Finset.Card

/-!
# Recovering functions

`buildCfg` collects the addresses where functions start and walks from each of them through the
listing, in the order of addresses, until the next start, the end of the segment or an instruction
behind which control does not continue, unless a jump seen before goes beyond it. A jump through a
register may go on at the entries of a table; `resolveJumptableMax` reads the table that the
instructions before it point to.

The names that come from debug information or run-time types have been put among the symbols before,
so that an engine has them already. The names that functions get afterwards are not modelled here.
-/

namespace Ldu

namespace Listing

/-- The position of the instruction at an address, `insn_index_exact`. -/
def insnIndexExact (insns : List Insn) (rva : ℕ) : Option ℕ :=
  BinarySearch.searchFor Insn.rva insns rva

/-! ### Operand texts -/

section Text

/-- The text of an instruction that `strstr` finds. -/
def Insn.operandsHave (t : String) (i : Insn) : Bool :=
  t.toList <:+: i.operands.toList

/-- The text behind the first occurrence of `t`. -/
def afterFirst (t : List Char) : List Char → Option (List Char)
  | [] => if t = [] then some [] else none
  | c :: l => if t.isPrefixOf (c :: l) then some ((c :: l).drop t.length) else afterFirst t l

def isHexDigit (c : Char) : Bool :=
  c.isDigit || ('a' ≤ c && c ≤ 'f') || ('A' ≤ c && c ≤ 'F')

def hexDigitVal (c : Char) : ℕ :=
  if c.isDigit then c.toNat - '0'.toNat else c.toUpper.toNat - 'A'.toNat + 10

/-- The hexadecimal number at the head of a text, cut to the largest 64-bit number as `strtoull`
does. -/
def readHex (l : List Char) : ℕ :=
  min ((l.takeWhile isHexDigit).foldl (fun n c ↦ 16 * n + hexDigitVal c) 0) (2 ^ 64 - 1)

/-- A 64-bit number read as a signed one. -/
def toInt64 (n : ℕ) : ℤ :=
  if 2 ^ 63 ≤ n then (n : ℤ) - 2 ^ 64 else n

/-- The digits behind `0x` at the head of a text. -/
def afterHexPrefix : List Char → Option (List Char)
  | '0' :: 'x' :: l => some l
  | '0' :: 'X' :: l => some l
  | _ => none

/-- The first register in the brackets of a memory operand. -/
def memBaseReg (ops : List Char) : Option (List Char) :=
  ((afterFirst ['['] ops).map fun l ↦
    ((l.dropWhile (· = ' ')).takeWhile (· ∉ [' ', '+', ']', '*'])).take 15).filter (· ≠ [])

/-- The destination register. -/
def destReg (ops : List Char) : Option (List Char) :=
  (some ((ops.takeWhile (· ∉ [',', ' '])).take 15)).filter (· ≠ [])

/-- The displacement of an operand relative to the next instruction. -/
def ripDisp (ops : List Char) : Option ℤ :=
  (afterFirst ['r', 'i', 'p'] ops).bind fun l ↦
    match l.dropWhile (· = ' ') with
    | '+' :: l => (afterHexPrefix (l.dropWhile (· = ' '))).map fun l ↦ toInt64 (readHex l)
    | '-' :: l => (afterHexPrefix (l.dropWhile (· = ' '))).map fun l ↦ -toInt64 (readHex l)
    | _ => none

/-- The last number in hexadecimal notation of a text. -/
def lastHex : List Char → Option (List Char)
  | [] => none
  | c :: l => (lastHex l).or (afterHexPrefix (c :: l))

/-- The last displacement in the brackets of a memory operand. -/
def lastMemDisp (ops : List Char) : Option ℤ :=
  (afterFirst ['['] ops).bind fun l ↦
    -- up to the last bracket
    if ']' ∈ l then
      (lastHex ((l.reverse.dropWhile (· ≠ ']')).tail.reverse)).map fun l ↦ toInt64 (readHex l)
    else none

end Text

/-! ### Jump tables -/

/-- The instruction is a jump through a register. -/
def Insn.isRegJmp (i : Insn) : Bool :=
  i.mnemonic = "jmp" && i.refType ≠ .jmp && i.refType ≠ .branch && '[' ∉ i.operands.toList

/-- The offset of the table and the base register, if the instruction loads an entry of a table. -/
def Insn.tableLoad? (i : Insn) : Option (ℤ × List Char) :=
  if i.mnemonic = "mov" && i.operandsHave "*4" then
    (lastMemDisp i.operands.toList).bind fun disp ↦
      (memBaseReg i.operands.toList).map fun base ↦ (disp, base)
  else none

/-- The address that the instruction loads into the register `base`, relative to the next
instruction. -/
def Insn.leaTarget? (base : List Char) (i : Insn) : Option ℤ :=
  if i.mnemonic = "lea" && i.operandsHave "rip" && destReg i.operands.toList = some base then
    (ripDisp i.operands.toList).map fun disp ↦ toInt64 (wrap64 (i.rva + i.size)) + disp
  else none

namespace Engine

variable (e : Engine)

/-- The 32-bit number at an address, signed. -/
def readI32 (rva : ℕ) : Option ℤ :=
  if e.image.length < wrap64 (rva + 4) then none
  else
    match e.image.drop rva with
    | a :: b :: c :: d :: _ =>
      let n : ℕ := a.toNat + 2 ^ 8 * b.toNat + 2 ^ 16 * c.toNat + 2 ^ 24 * d.toNat
      some (if 2 ^ 31 ≤ n then (n : ℤ) - 2 ^ 32 else n)
    | _ => none

/-- The target of the table entry at an address, if it lies in the function and an instruction
starts there. -/
def tableTarget? (base : ℤ) (fstart segEnd rva : ℕ) : Option ℕ :=
  (e.readI32 rva).bind fun entry ↦
    let t := ((base + entry) % 2 ^ 64).toNat
    if t < fstart ∨ segEnd ≤ t ∨ (insnIndexExact e.insns t).isNone then none else some t

/-- The targets of the table at an address, up to the first entry that is not valid, at most `n`. -/
def tableTargets (base : ℤ) (fstart segEnd : ℕ) : ℕ → ℕ → List ℕ
  | 0, _ => []
  | n + 1, rva =>
    match e.tableTarget? base fstart segEnd rva with
    | some t => t :: tableTargets base fstart segEnd n (wrap64 (rva + 4))
    | none => []

/-- The instructions before a position, the nearest first, at most thirty. -/
def jumpWindow (k : ℕ) : List Insn :=
  (e.insns.take k).reverse.take 30

/-- The largest target of the table that the jump at a position goes through, and zero if no table
is found, `resolve_jumptable_max`. -/
def resolveJumptableMax (k fstart segEnd : ℕ) : ℕ :=
  if (e.insns[k]?).any (·.isRegJmp) then
    match (e.jumpWindow k).findSome? (·.tableLoad?) with
    | some (disp, base) =>
      if disp < 0 then 0
      else
        match (e.jumpWindow k).findSome? (·.leaTarget? base) with
        | some lea =>
          if lea < 0 then 0
          else
            let targets :=
              e.tableTargets lea fstart segEnd 1024 ((lea + disp) % 2 ^ 64).toNat
            if 2 ≤ targets.length then targets.foldl max 0 else 0
        | none => 0
    | none => 0
  else 0

end Engine

/-! ### Function starts -/

/-- The instruction is right behind the other one. -/
def Insn.follows (prev i : Insn) : Bool :=
  wrap64 (prev.rva + prev.size) = i.rva

/-- A function may start here: there is no instruction right before, or control does not continue
behind that. -/
def atBoundary (prev : Option Insn) (i : Insn) : Bool :=
  match prev with
  | none => true
  | some prev =>
    prev.mnemStarts "ret" || prev.mnemonic = "jmp" || prev.mnemonic = "int3" ||
      prev.mnemonic = "ud2" || prev.mnemonic = "hlt" || !prev.follows i

/-- `push rbp` -/
def Insn.pushesFrame (i : Insn) : Bool :=
  i.mnemonic = "push" && (i.operandsHave "rbp" || i.operandsHave "ebp")

/-- `mov rbp, rsp` -/
def Insn.setsFrame (i : Insn) : Bool :=
  i.mnemonic = "mov" && (i.operandsHave "rbp, rsp" || i.operandsHave "ebp, esp")

/-- `sub rsp, imm` -/
def Insn.growsStack (i : Insn) : Bool :=
  i.mnemonic = "sub" && (i.operandsHave "rsp," || i.operandsHave "esp,")

/-- A push of a register that the callee saves. -/
def Insn.isNonvolPush (i : Insn) : Bool :=
  i.mnemonic = "push" &&
    ["rbx", "rbp", "rsi", "rdi", "r12", "r13", "r14", "r15"].any fun r ↦ i.operandsHave r

/-- The instructions go on with such pushes, each right behind the one before, and then set up the
frame. -/
def frameAfterPushes (prev : Insn) : List Insn → Bool
  | [] => false
  | i :: rest =>
    if prev.follows i && i.isNonvolPush then frameAfterPushes i rest
    else prev.follows i && (i.growsStack || i.setsFrame)

/-- The instruction begins a prologue. -/
def isPrologue (prev : Option Insn) (i : Insn) (rest : List Insn) : Bool :=
  atBoundary prev i &&
    if i.pushesFrame && rest.head?.any (·.setsFrame) then true
    else i.growsStack || (i.isNonvolPush && frameAfterPushes i rest)

namespace Engine

variable (e : Engine)

/-- The addresses where a prologue begins. -/
def prologueStarts (prev : Option Insn) : List Insn → List ℕ
  | [] => []
  | i :: rest =>
    if e.rvaIsExec i.rva && isPrologue prev i rest then i.rva :: prologueStarts (some i) rest
    else prologueStarts (some i) rest

/-- The targets of calls. -/
def callTargets : List ℕ :=
  (e.insns.filter fun i ↦ i.refType = .call && i.refTarget ≠ 0).map (·.refTarget)

/-- A known start of code is one of a function where there is an instruction. -/
def isStart (rva : ℕ) : Bool :=
  (insnIndexExact e.insns rva).isSome && e.rvaIsExec rva

/-- The first instructions at or behind the starts of the executable segments. -/
def segmentStarts : List ℕ :=
  (e.segments.filter (·.exec)).filterMap fun s ↦
    ((insnLowerBound e.insns s.rva).bind fun k ↦ e.insns[k]?).map (·.rva)

/-- The starts of functions, sorted. -/
def funcStarts : List ℕ :=
  let found :=
    (e.entry.toList ++ e.entries ++ e.symbols.map (·.rva) ++ e.callTargets).filter e.isStart ++
      e.prologueStarts none e.insns
  let starts := if found = [] then e.segmentStarts else found
  starts.dedup.insertionSort (· ≤ ·)

end Engine

/-! ### Extents -/

/-- The instruction is a `ret`, a direct `jmp` or a `hlt`. -/
def Insn.isTerminator (i : Insn) : Bool :=
  i.mnemStarts "ret" || i.refType = .jmp || i.mnemonic = "hlt"

/-- One past the last byte of the instruction. -/
def Insn.stop (i : Insn) : ℕ :=
  wrap64 (i.rva + i.size)

/-- A function is looked for from `start` on, up to the next start and inside its segment. -/
structure Span where
  start : ℕ
  next : ℕ
  segEnd : ℕ

/-- The addresses of the span. -/
def Span.contains (s : Span) (rva : ℕ) : Bool :=
  s.start ≤ rva && rva < s.next && rva < s.segEnd

/-- A walk under way: the starts of blocks, the calls, the end of the last instruction and the
farthest target inside the function. -/
structure Walk where
  leaders : Finset ℕ
  callCount : ℕ := 0
  fend : ℕ
  maxTarget : ℕ

section Extent

variable (e : Engine) (s : Span)

/-- The farthest target known after the instruction at position `k`. -/
def Walk.reach (k : ℕ) (i : Insn) (m : ℕ) : ℕ :=
  let m := if i.isRegJmp then max m (e.resolveJumptableMax k s.start s.segEnd) else m
  if (i.refType = .branch ∨ i.refType = .jmp) ∧ s.contains i.refTarget then max m i.refTarget
  else m

/-- The starts of blocks known after an instruction, with what comes behind it. -/
def Walk.lead (i : Insn) (rest : List Insn) (leaders : Finset ℕ) : Finset ℕ :=
  if i.refType = .branch ∨ i.refType = .jmp then
    let leaders :=
      match rest with
      | [] => leaders
      | n :: _ => if n.rva < s.next then insert n.rva leaders else leaders
    if s.contains i.refTarget then insert i.refTarget leaders else leaders
  else leaders

/-- One instruction of a walk, at position `k`. -/
def Walk.visit (k : ℕ) (i : Insn) (rest : List Insn) (w : Walk) : Walk where
  leaders := Walk.lead s i rest w.leaders
  callCount := if i.refType = .call then w.callCount + 1 else w.callCount
  fend := i.stop
  maxTarget := Walk.reach e s k i w.maxTarget

/-- The walk does not go on behind the instruction: control does not continue there, no target known
lies behind it, and what comes next is not such a target. -/
def Walk.ends (i : Insn) (rest : List Insn) (w : Walk) : Bool :=
  i.isTerminator && w.maxTarget < i.stop &&
    !rest.head?.any fun n ↦ n.rva ∈ w.leaders && n.rva ≤ w.maxTarget

/-- The walk through the listing from position `k` on. -/
def walkFrom : ℕ → List Insn → Walk → Walk
  | _, [], w => w
  | k, i :: rest, w =>
    if s.next ≤ i.rva ∨ s.segEnd ≤ i.rva then w
    else
      let w := w.visit e s k i rest
      if w.ends i rest then w else walkFrom (k + 1) rest w

end Extent

namespace Engine

variable (e : Engine)

/-- The span of the function at `start`. -/
def spanOf (start next : ℕ) : Span where
  start := start
  next := next
  segEnd := ((e.segForRva start).map (·.stop)).getD (2 ^ 64 - 1)

/-- The function at `start`, where the next one starts at `next`. -/
def funcAt (start next : ℕ) : Option Func :=
  (insnIndexExact e.insns start).map fun k ↦
    let w := walkFrom e (e.spanOf start next) k (e.insns.drop k)
      { leaders := {start}, fend := start, maxTarget := start }
    { rva := start
      size := if start < w.fend then w.fend - start else 0
      blockCount := w.leaders.card
      callCount := w.callCount }

/-- The functions at the starts, each with the next one. -/
def funcsAt : List ℕ → List Func
  | [] => []
  | start :: starts => (e.funcAt start (starts.headD (2 ^ 64 - 1))).toList ++ funcsAt starts

/-- `ds_engine_build_cfg` -/
def buildCfg : Engine :=
  { e with
    funcs :=
      if e.insns = [] then []
      else
        ((e.funcsAt e.funcStarts).insertionSort (·.rva ≤ ·.rva)).destutter (·.rva ≠ ·.rva) }

end Engine

end Listing

end Ldu
