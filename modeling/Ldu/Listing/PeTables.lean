import Ldu.Checked.Exits
import Ldu.Listing.Engine

/-!
# The exception directory and the base relocations of a PE image

The x64 exception directory gives the sweep its entries (`seedPdataEntries`). The decompiler reads
it once more (`pdata`), and the base relocations (`reloc64`).

An address is a number of 64 bits that was added up from parts. The sum is reduced where something
is read (`rdBytes`), and before that where it is compared. A read looks whether the bytes end inside
the image, and then takes them one by one; a byte that is not there is the fault `index`. Numbers of
32 bits that were read keep their width, so that their sums wrap as those of the source do.
-/

namespace Ldu

namespace Listing

open Checked Exits

/-- An engine as it is made: the image is an object in memory, and the addresses and the sizes of
the segments are numbers of 64 bits. -/
structure Loaded extends Engine where
  length_lt : image.length < 2 ^ 63
  segments_lt : ∀ s ∈ segments, s.rva < 2 ^ 64 ∧ s.size < 2 ^ 64

/-- What the environment switches off, `DS_NO_PDATASEED` and `DS_NO_EH4`. -/
structure PeOptions where
  noPdataSeed : Bool := false
  noEh4 : Bool := false

/-- A record of the exception directory. -/
structure RuntimeFunction where
  begin : UInt32
  stop : UInt32
  unwind : UInt32
  deriving DecidableEq

/-- The record that ends the directory. -/
def RuntimeFunction.isZero (rf : RuntimeFunction) : Bool :=
  rf.begin = 0 && rf.stop = 0 && rf.unwind = 0

/-- A point of a loop over the directory: how many records are behind it, and what they gave. -/
structure Directory (α : Type) where
  i : ℕ := 0
  found : List α

/-- A point of the walk over the relocations. -/
structure Relocs where
  p : ℕ
  reloc64 : List ℕ := []

namespace Loaded

variable (e : Loaded)

/-- `ds_rva_is_mapped` -/
def rvaIsMapped (rva : ℕ) : Bool :=
  (e.segForRva rva).isSome

/-- The entry points with one more, `ds_engine_add_entry`. -/
def addEntry (entries : List ℕ) (rva : ℕ) : List ℕ :=
  if rva ∈ entries then entries else entries ++ [rva]

/-! ### Reading the image -/

/-- The bytes at an address, if their end is not behind the end of the image. -/
def rdBytes (n rva : ℕ) : OptionT Checked (List UInt8) := do
  guard (wrap64 (rva + n) ≤ e.image.length)
  liftM ((List.range n).mapM fun i ↦ index e.image (wrap64 (rva + i)))

def peRdU8 (rva : ℕ) : OptionT Checked UInt8 := do
  let bs ← e.rdBytes 1 rva
  return UInt8.ofNat (ofLE bs)

def peRdU16 (rva : ℕ) : OptionT Checked UInt16 := do
  let bs ← e.rdBytes 2 rva
  return UInt16.ofNat (ofLE bs)

def peRdU32 (rva : ℕ) : OptionT Checked UInt32 := do
  let bs ← e.rdBytes 4 rva
  return UInt32.ofNat (ofLE bs)

/-- The same check and the same bytes as for `peRdU32`. -/
def sweepRdU32 (rva : ℕ) : OptionT Checked UInt32 :=
  e.peRdU32 rva

/-- Three bytes, each of which is looked for on its own. -/
def rdU24 (rva : ℕ) : OptionT Checked UInt32 := do
  let b₀ ← e.peRdU8 rva
  let b₁ ← e.peRdU8 (rva + 1)
  let b₂ ← e.peRdU8 (rva + 2)
  return UInt32.ofNat (ofLE [b₀, b₁, b₂])

/-- A number of one to four bytes and the address behind it: the low bits of the first byte say how
many there are. -/
def peRdFh4uint (rva : ℕ) : OptionT Checked (UInt32 × ℕ) := do
  let b ← e.peRdU8 rva
  if b &&& 1 = 0 then return ((b >>> 1).toUInt32, rva + 1)
  else if b &&& 2 = 0 then do
    let w ← e.peRdU16 rva
    return ((w >>> 2).toUInt32, rva + 2)
  else if b &&& 4 = 0 then do
    let w ← e.rdU24 rva
    return (w >>> 3, rva + 3)
  else if b &&& 8 = 0 then do
    let w ← e.peRdU32 rva
    return (w >>> 4, rva + 4)
  else failure

/-! ### Finding the tables -/

/-- The first segment with a name, `pe_seg_named`. -/
def segNamed (nm : String) : Option Segment :=
  e.segments.find? (·.name = nm)

/-- The address and the size in the data directory `idx`, from the headers at the start of the
image. -/
def peDataDir (idx : ℕ) : OptionT Checked (UInt32 × UInt32) := do
  let mz ← e.peRdU16 0
  guard (mz = 0x5A4D)
  let lfanew ← e.peRdU32 0x3C
  let sig ← e.peRdU32 lfanew.toNat
  guard (sig = 0x00004550)
  let opt := lfanew.toNat + 4 + 20
  let magic ← e.peRdU16 opt
  guard (magic = 0x20B ∨ magic = 0x10B)
  let dirs := if magic = 0x20B then opt + 112 else opt + 96
  let off := dirs + idx * 8
  let rva ← e.peRdU32 off
  let sz ← e.peRdU32 (off + 4)
  return (rva, sz)

/-- Where a table is: in the segment of that name, or else where the directory says. -/
def peTable (nm : String) (idx : ℕ) : Checked (ℕ × ℕ) := do
  match e.segNamed nm with
  | some s => return (s.rva, s.size)
  | none =>
    match ← (e.peDataDir idx).run with
    | some (a, z) => return if a = 0 then (0, 0) else (a.toNat, z.toNat)
    | none => return (0, 0)

/-! ### The exception directory -/

def runtimeFunction (rd : ℕ → OptionT Checked UInt32) (base : ℕ) :
    OptionT Checked RuntimeFunction := do
  let begin ← rd base
  let stop ← rd (base + 4)
  let unwind ← rd (base + 8)
  return { begin, stop, unwind }

/-- A round of a loop over the directory at `pr`: nothing is left behind the last record. -/
def directoryStep {α : Type} (rd : ℕ → OptionT Checked UInt32) (pr : ℕ)
    (take : RuntimeFunction → List α → Checked (List α)) (s : Directory α) :
    Checked (Option (Directory α)) := do
  match ← (runtimeFunction rd (pr + s.i * 12)).run with
  | none => return none
  | some rf =>
    if rf.isZero then return none
    else do
      let found ← take rf s.found
      return some { i := s.i + 1, found }

/-- What the first `n` records of the directory give. -/
def directory {α : Type} (rd : ℕ → OptionT Checked UInt32) (pr n : ℕ)
    (take : RuntimeFunction → List α → Checked (List α)) (found : List α) : Checked (List α) := do
  let t ← iterate (directoryStep rd pr take) n { found }
  return t.found

/-- The record is for a fragment of a function, `UNW_FLAG_CHAININFO`. Its unwind data starts with a
version of three bits and flags of five. The sum that is compared is one of 32 bits. -/
def isChained (unwind : UInt32) : Checked Bool := do
  if (unwind + 1).toNat ≤ e.image.length then
    let vf ← index e.image unwind.toNat
    return vf >>> 3 &&& 4 ≠ 0
  else return false

/-- The entry points with that of a record. -/
def seedRecord (rf : RuntimeFunction) (found : List ℕ) : Checked (List ℕ) := do
  if rf.stop ≤ rf.begin then return found
  else if !e.rvaIsExec rf.begin.toNat then return found
  else if ← e.isChained rf.unwind then return found
  else return addEntry found rf.begin.toNat

/-- The entry points with those of the exception directory. -/
def seedPdataEntries (o : PeOptions) : Checked (List ℕ) := do
  if o.noPdataSeed || e.arch ≠ .x64 then return e.entries
  else match e.segNamed ".pdata" with
    | none => return e.entries
    | some s =>
      if s.rva = 0 ∨ s.size = 0 then return e.entries
      else directory e.sweepRdU32 s.rva (s.size / 12) e.seedRecord e.entries

/-- The records with one more. -/
def pdataRecord (rf : RuntimeFunction) (found : List RuntimeFunction) :
    Checked (List RuntimeFunction) :=
  return if rf.stop ≤ rf.begin then found else found ++ [rf]

/-- The records of the directory at an address, sorted by where their functions begin. -/
def pdataAt (pr psz : ℕ) : Checked (List RuntimeFunction) := do
  if pr = 0 ∨ psz = 0 then return []
  else do
    let found ← directory e.peRdU32 pr (psz / 12) pdataRecord []
    return found.mergeSort fun x y ↦ x.begin ≤ y.begin

def pdata : Checked (List RuntimeFunction) := do
  let (pr, psz) ← e.peTable ".pdata" 3
  e.pdataAt pr psz

/-! ### The base relocations -/

/-- One entry of a block, `IMAGE_REL_BASED_DIR64`. -/
def relocEntry (page : UInt32) (s : Relocs) : Checked (Option Relocs) := do
  match ← (e.peRdU16 s.p).run with
  | none => return none
  | some ent =>
    if ent >>> 12 = 10 then
      return some ⟨s.p + 2, s.reloc64.insert (page.toNat + (ent &&& 0x0FFF).toNat)⟩
    else return some { s with p := s.p + 2 }

/-- The page and the size of a block. -/
def relocHeader (p : ℕ) : OptionT Checked (UInt32 × UInt32) := do
  let page ← e.peRdU32 p
  let bsz ← e.peRdU32 (p + 4)
  return (page, bsz)

/-- The blocks up to an address, with a fault where `n` rounds are not enough for them. -/
def relocBlocks (stop : ℕ) : ℕ → Relocs → Checked (List ℕ)
  | 0, _ => .error .endless
  | n + 1, s => do
    if wrap64 (s.p + 8) ≤ stop then
      match ← (e.relocHeader s.p).run with
      | none => return s.reloc64
      | some (page, bsz) =>
        if bsz < 8 ∨ stop < wrap64 (s.p + bsz.toNat) then return s.reloc64
        else do
          let t ← iterate (e.relocEntry page) ((bsz.toNat - 8) / 2) ⟨s.p + 8, s.reloc64⟩
          relocBlocks stop n ⟨wrap64 (s.p + bsz.toNat), t.reloc64⟩
    else return s.reloc64

/-- The slots in the blocks at an address. -/
def relocsAt (rr rsz : ℕ) : Checked (List ℕ) :=
  if rr = 0 ∨ rsz = 0 then return []
  else e.relocBlocks (wrap64 (rr + rsz)) (e.image.length + 1) ⟨rr, []⟩

def reloc64 : Checked (List ℕ) := do
  let (rr, rsz) ← e.peTable ".reloc" 5
  e.relocsAt rr rsz

end Loaded

end Listing

end Ldu
