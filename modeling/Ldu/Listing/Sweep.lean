import Ldu.Listing.Engine
import Mathlib.Data.Finset.Insert
import Mathlib.Data.List.Destutter

/-!
# Disassembling an image

`disassemble` first decodes every executable segment from its start to its end, one instruction
after the other. Then it decodes, from every known start of code and every target of a call, a jump
or a branch met on the way, until code that has been decoded before, or until control does not
continue. No address is decoded twice, but instructions may overlap. At the end the instructions are
sorted by address.

The set of addresses visited is a finite set here; the source keeps it in a hash table, which
answers as the set does (`RvaSet.run_init`). Allocations succeed.
-/

namespace Ldu

namespace Listing

/-- A decoder, given the bytes at an address (in 64-bit mode or not), returns an instruction of at
least one byte and no more than the bytes it was given. -/
structure Decoder where
  decode : Bool → List UInt8 → ℕ → Insn
  rva_decode : ∀ is64 bytes rva, (decode is64 bytes rva).rva = rva
  size_pos : ∀ is64 bytes rva, bytes ≠ [] → 0 < (decode is64 bytes rva).size
  size_le : ∀ is64 bytes rva, bytes ≠ [] → (decode is64 bytes rva).size ≤ bytes.length

/-- The cap on the number of instructions, `DS_MAX_INSNS`. -/
def maxInsns : ℕ :=
  8 * 1024 * 1024

/-! ### Seeds -/

/-- A little-endian 32-bit number, `sweep_rd_u32`. -/
def readU32 (image : List UInt8) (rva : ℕ) : Option ℕ :=
  if image.length < wrap64 (rva + 4) then none
  else
    match image.drop rva with
    | a :: b :: c :: d :: _ =>
      some (a.toNat + 2 ^ 8 * b.toNat + 2 ^ 16 * c.toNat + 2 ^ 24 * d.toNat)
    | _ => none

namespace Engine

/-- Remember a start of code, once. -/
def addEntry (e : Engine) (rva : ℕ) : Engine :=
  if rva ∈ e.entries then e else { e with entries := e.entries ++ [rva] }

/-- Whether an entry of the exception directory is a fragment of another function. -/
def isChained (e : Engine) (unwind : ℕ) : Bool :=
  e.image[unwind]?.any fun vf ↦ vf.toNat / 32 % 2 = 1

/-- The entries of the exception directory from address `base` on, at most `n`. -/
def seedPdataFrom : ℕ → ℕ → Engine → Engine
  | 0, _, e => e
  | n + 1, base, e =>
    match readU32 e.image base, readU32 e.image (wrap64 (base + 4)),
        readU32 e.image (wrap64 (base + 8)) with
    | some start, some stop, some unwind =>
      if start = 0 ∧ stop = 0 ∧ unwind = 0 then e
      else if stop ≤ start || !e.rvaIsExec start || e.isChained unwind then
        seedPdataFrom n (wrap64 (base + 12)) e
      else seedPdataFrom n (wrap64 (base + 12)) (e.addEntry start)
    | _, _, _ => e

/-- The starts of functions in the exception directory; `noPdataSeed` says whether
`DS_NO_PDATASEED` is set. -/
def seedPdataEntries (noPdataSeed : Bool) (e : Engine) : Engine :=
  if e.image = [] ∨ noPdataSeed ∨ e.arch ≠ .x64 then e
  else
    match e.segments.find? (·.name = ".pdata") with
    | some s => if s.rva = 0 ∨ s.size = 0 then e else seedPdataFrom (s.size / 12) s.rva e
    | none => e

/-- The known starts of code, in the order they are put on the worklist. -/
def seeds (e : Engine) : List ℕ :=
  e.entry.toList ++ e.entries ++ (e.symbols.map (·.rva)).filter e.rvaIsExec

end Engine

/-! ### The sweep -/

/-- A sweep under way: the instructions in the order they were found, the addresses visited, and the
worklist with its top first. -/
structure Sweep where
  insns : List Insn
  visited : Finset ℕ
  work : List ℕ

namespace Sweep

/-- An instruction at an address that has not been visited. -/
def record (i : Insn) (st : Sweep) : Sweep :=
  { st with insns := st.insns ++ [i], visited := insert i.rva st.visited }

/-- Put an address on the worklist. -/
def push (rva : ℕ) (st : Sweep) : Sweep :=
  { st with work := rva :: st.work }

end Sweep

section Disassemble

variable (dec : Decoder) (e : Engine)

/-- Decode at most `avail` bytes. -/
def decodeAt (rva avail : ℕ) : Insn :=
  dec.decode (e.arch = .x64) ((e.imageFrom rva).take avail) rva

/-- The number of bytes that the linear sweep decodes at an address of a segment that ends at
`stop`. -/
def linearAvail (rva stop : ℕ) : ℕ :=
  let avail := min (e.image.length - rva) 15
  if stop < wrap64 (rva + 16) then min (stop - rva) avail else avail

/-- The target of an instruction met in the linear sweep goes on the worklist. -/
def queueLinear (i : Insn) (st : Sweep) : Sweep :=
  match i.target? with
  | some t => if e.rvaIsExec t then st.push t else st
  | none => st

/-- The number of bytes to go on by. -/
def Insn.step (i : Insn) : ℕ :=
  if i.size = 0 then 1 else i.size

/-- The linear sweep of a segment from `rva` to `stop`. An address visited before is stepped over
by the instruction found there, if the search in the unsorted listing finds it, and else by one
byte. -/
def linearFrom (stop : ℕ) : ℕ → ℕ → Sweep → Sweep
  | 0, _, st => st
  | fuel + 1, rva, st =>
    if stop ≤ rva ∨ maxInsns ≤ st.insns.length then st
    else if rva ∈ st.visited then
      let step := ((insnAt st.insns rva).map (·.step)).getD 1
      linearFrom stop fuel (wrap64 (rva + step)) st
    else if e.image.length ≤ rva then st
    else
      let i := decodeAt dec e rva (linearAvail e rva stop)
      let st := queueLinear e i (st.record i)
      let next := wrap64 (rva + i.step)
      if next ≤ rva then st else linearFrom stop fuel next st

/-- The linear sweep of one segment. -/
def linearSegment (st : Sweep) (s : Segment) : Sweep :=
  if maxInsns ≤ st.insns.length ∨ !s.exec ∨ s.stop < s.rva then st
  else linearFrom dec e s.stop s.size s.rva st

/-- The target of an instruction met in a run goes on the worklist, unless it has been visited. -/
def queueRun (i : Insn) (st : Sweep) : Sweep :=
  match i.target? with
  | some t => if e.rvaIsExec t && t ∉ st.visited then st.push t else st
  | none => st

/-- Control does not continue behind the instruction. -/
def endsRun (i : Insn) : Bool :=
  i.refType = .jmp || i.mnemStarts "ret" || i.mnemStarts "hlt"

/-- A run of instructions, `sweep_run` in its recursive mode. -/
def sweepRun : ℕ → ℕ → Sweep → Sweep
  | 0, _, st => st
  | fuel + 1, rva, st =>
    if maxInsns ≤ st.insns.length || !e.rvaIsExec rva || rva ∈ st.visited ||
        e.image.length ≤ rva then st
    else
      let i := decodeAt dec e rva (min (e.image.length - rva) 15)
      let st := queueRun e i (st.record i)
      let next := wrap64 (rva + i.step)
      if endsRun i ∨ next ≤ rva then st else sweepRun fuel next st

/-- Recursive descent from the worklist, with at most `guard` addresses taken from it. A run goes
up in the image, so that as many steps as the image has bytes are enough for it. -/
def descend : ℕ → Sweep → Sweep
  | 0, st => st
  | guard + 1, st =>
    if maxInsns ≤ st.insns.length then st
    else
      match st.work with
      | [] => st
      | target :: work =>
        let st := { st with work := work }
        if target ∈ st.visited || !e.rvaIsExec target then descend guard st
        else descend guard (sweepRun dec e e.image.length target st)

/-- Both passes. -/
def sweep : Sweep :=
  let st : Sweep := ⟨[], ∅, e.seeds.reverse⟩
  descend dec e maxInsns (e.segments.foldl (linearSegment dec e) st)

end Disassemble

/-! ### The listing -/

/-- Sorted by address, with one instruction for each. -/
def sortListing (insns : List Insn) : List Insn :=
  (insns.mergeSort fun a b ↦ a.rva ≤ b.rva).destutter (·.rva ≠ ·.rva)

/-- The cross reference of an instruction. -/
def Insn.ref? (i : Insn) : Option Ref :=
  if i.refTarget = 0 then none
  else
    match i.refType with
    | .none => none
    | .call => some ⟨i.rva, i.refTarget, .call⟩
    | .jmp | .branch => some ⟨i.rva, i.refTarget, .jmp⟩
    | .data => some ⟨i.rva, i.refTarget, .data⟩

/-- `ds_engine_disassemble`, for an engine that has not been disassembled before. Code for ARM is
not decoded. -/
def disassemble (dec : Decoder) (noPdataSeed : Bool) (e : Engine) : Engine :=
  if e.image = [] then e
  else
    let e := e.seedPdataEntries noPdataSeed
    if e.arch = .arm ∨ e.arch = .arm64 then e
    else
      let insns := sortListing (sweep dec e).insns
      { e with insns := insns, refs := e.refs ++ insns.filterMap (·.ref?) }

/-- The caps were not reached: the sweep found fewer instructions than it may, and emptied the
worklist. -/
def CapsNotReached (dec : Decoder) (noPdataSeed : Bool) (e : Engine) : Prop :=
  let st := sweep dec (e.seedPdataEntries noPdataSeed)
  st.insns.length < maxInsns ∧ st.work = []

end Listing

end Ldu
