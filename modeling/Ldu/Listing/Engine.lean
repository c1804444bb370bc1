import Ldu.Listing.Search
import Mathlib.Algebra.Group.Int.Defs
import Mathlib.Algebra.Group.Nat.Defs

/-!
# The engine as the listing passes see it

An engine holds the flat image of a binary, its segments, what is known of its code from outside,
and what the passes recover: the instructions, the cross references and the functions. Addresses are
offsets into the image (rvas), 64-bit numbers; where the source lets a sum wrap, `wrap64` says so.

The segment of an address is the first one in the list that contains it, so that where segments
overlap the first one decides whether code may stand there (`rvaIsExec`).
-/

namespace Ldu

namespace Listing

/-- A sum or difference in 64-bit arithmetic. -/
def wrap64 (n : ℕ) : ℕ :=
  n % 2 ^ 64

/-! ### Records -/

/-- What an instruction refers to, `DS_REF_*`. -/
inductive RefType
  | none | call | jmp | data | branch
  deriving DecidableEq, Repr

/-- An instruction of the listing. The bytes are those of the instruction, at most sixteen. -/
structure Insn where
  rva : ℕ
  bytes : List UInt8 := []
  size : ℕ
  refType : RefType := .none
  refTarget : ℕ := 0
  mnemonic : String := ""
  operands : String := ""
  deriving DecidableEq, Repr

/-- A segment; `exec` is the flag `DS_FLAG_X`. -/
structure Segment where
  name : String
  rva : ℕ
  size : ℕ
  exec : Bool
  deriving DecidableEq, Repr

structure Symbol where
  rva : ℕ
  name : String
  deriving DecidableEq, Repr

/-- The kinds of cross references, `DS_XREF_*`. -/
inductive XrefKind
  | call | jmp | data
  deriving DecidableEq, Repr

structure Ref where
  src : ℕ
  dst : ℕ
  kind : XrefKind
  deriving DecidableEq, Repr

/-- A recovered function. -/
structure Func where
  rva : ℕ
  size : ℕ
  blockCount : ℕ
  callCount : ℕ
  deriving DecidableEq, Repr

inductive Arch
  | x86 | x64 | arm | arm64
  deriving DecidableEq, Repr

/-- An engine; `entry` is absent unless it has been set. -/
structure Engine where
  image : List UInt8
  arch : Arch := .x64
  entry : Option ℕ := none
  segments : List Segment
  symbols : List Symbol := []
  entries : List ℕ := []
  insns : List Insn := []
  refs : List Ref := []
  funcs : List Func := []

/-! ### Segments -/

namespace Segment

/-- One past the last address. -/
def stop (s : Segment) : ℕ :=
  wrap64 (s.rva + s.size)

def contains (s : Segment) (rva : ℕ) : Bool :=
  s.rva ≤ rva && rva < s.stop

end Segment

namespace Engine

variable (e : Engine)

/-- The segment of an address, `ds_seg_for_rva`. -/
def segForRva (rva : ℕ) : Option Segment :=
  e.segments.find? (·.contains rva)

/-- Code may stand at the address, `ds_rva_is_exec`. -/
def rvaIsExec (rva : ℕ) : Bool :=
  (e.segForRva rva).any (·.exec)

/-- The bytes from an address on, `image_ptr`; there are none outside the image. -/
def imageFrom (rva : ℕ) : List UInt8 :=
  e.image.drop rva

end Engine

/-! ### Instructions -/

/-- The instruction is a call, a jump or a branch with a known target. -/
def Insn.target? (i : Insn) : Option ℕ :=
  if i.refTarget ≠ 0 ∧ (i.refType = .call ∨ i.refType = .jmp ∨ i.refType = .branch) then
    some i.refTarget
  else none

/-- The text of the mnemonic starts with `t`. -/
def Insn.mnemStarts (t : String) (i : Insn) : Bool :=
  t.toList.isPrefixOf i.mnemonic.toList

/-- The position of the first instruction that is not below an address, if there is one,
`ds_insn_lower_bound`. -/
def insnLowerBound (insns : List Insn) (rva : ℕ) : Option ℕ :=
  let lo := BinarySearch.lowerBound Insn.rva insns rva insns.length 0 insns.length
  if lo < insns.length then some lo else none

/-- The instruction at an address, `ds_insn_at`. -/
def insnAt (insns : List Insn) (rva : ℕ) : Option Insn :=
  (insnLowerBound insns rva).bind fun i ↦ insns[i]?.filter (·.rva = rva)

theorem of_insnAt {insns : List Insn} {rva : ℕ} {i : Insn} (h : insnAt insns rva = some i) :
    i ∈ insns ∧ i.rva = rva := by
  obtain ⟨n, -, h⟩ := Option.bind_eq_some_iff.1 h
  obtain ⟨hget, hrva⟩ := Option.filter_eq_some_iff.1 h
  exact ⟨List.mem_of_getElem? hget, of_decide_eq_true hrva⟩

end Listing

end Ldu
