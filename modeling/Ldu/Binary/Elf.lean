import Ldu.Binary.Dwarf

/-!
# ELF files

The header of a file says where its tables are: the program headers, of which the segments are made,
and the section headers, which lead to the symbols, and by their names to the DWARF sections. Both
tables are read up to the first header that is not in the file.

Positions are 64-bit numbers. What is read at a position is looked for in the file first, but the
positions are sums and products that are not: they are computed in checked arithmetic.
-/

namespace Ldu

namespace Elf

open BinParser Checked

/-! ### Readers -/

/-- A file, with the order of the bytes of its numbers. -/
structure Rdr where
  b : Slice
  le : Bool

namespace Rdr

/-- A number of `n` bytes. -/
def number (r : Rdr) (n off : ℕ) : Option ℕ :=
  if off + n < 2 ^ 64 ∧ off + n ≤ r.b.bytes.length then
    let s := (r.b.bytes.drop off).take n
    some (if r.le then ofLE s else ofBE s)
  else none

def u16 (r : Rdr) (off : ℕ) : Option ℕ := r.number 2 off

def u32 (r : Rdr) (off : ℕ) : Option ℕ := r.number 4 off

def u64 (r : Rdr) (off : ℕ) : Option ℕ := r.number 8 off

/-- The number of `n` bytes at `k` bytes behind a position, or zero. -/
def field (r : Rdr) (n start k : ℕ) : Checked ℕ := do
  let off ← add 64 start k
  return (r.number n off).getD 0

end Rdr

/-! ### The header of the file -/

structure Header where
  r : Rdr
  is64 : Bool
  eType : ℕ
  eMachine : ℕ
  entry : ℕ
  phoff : ℕ
  shoff : ℕ
  phentsize : ℕ
  phnum : ℕ
  shentsize : ℕ
  shnum : ℕ
  shstrndx : ℕ

/-- `EI_CLASS` and `EI_DATA` -/
def ident (b : Slice) : Except String (Bool × Rdr) := do
  let eiClass : UInt8 ← okOr "truncated ELF e_ident" b.bytes[4]?
  let eiData : UInt8 ← okOr "truncated ELF e_ident" b.bytes[5]?
  let is64 ←
    match eiClass with
    | 1 => .ok false
    | 2 => .ok true
    | other => .error s!"invalid ELF class {other}"
  let le ←
    match eiData with
    | 1 => .ok true
    | 2 => .ok false
    | other => .error s!"invalid ELF data encoding {other}"
  return (is64, ⟨b, le⟩)

/-- What is behind `e_version`: three numbers as wide as an address, and five of two bytes from
`half` on. -/
def fields (r : Rdr) (is64 : Bool) (eType eMachine : ℕ) (truncated : String) (word : ℕ → Option ℕ)
    (phoff shoff half : ℕ) : Except String Header := do
  let entry ← okOr truncated (word 24)
  let phoff ← okOr truncated (word phoff)
  let shoff ← okOr truncated (word shoff)
  let phentsize ← okOr truncated (r.u16 half)
  let phnum ← okOr truncated (r.u16 (half + 2))
  let shentsize ← okOr truncated (r.u16 (half + 4))
  let shnum ← okOr truncated (r.u16 (half + 6))
  let shstrndx ← okOr truncated (r.u16 (half + 8))
  return { r, is64, eType, eMachine, entry, phoff, shoff, phentsize, phnum, shentsize, shnum,
           shstrndx }

def header (b : Slice) : Except String Header := do
  let (is64, r) ← ident b
  let eType ← okOr "truncated ELF header (e_type)" (r.u16 16)
  let eMachine ← okOr "truncated ELF header (e_machine)" (r.u16 18)
  if is64 then fields r is64 eType eMachine "truncated ELF64 header" r.u64 32 40 54
  else fields r is64 eType eMachine "truncated ELF32 header" r.u32 28 32 42

def arch (eMachine : ℕ) : Arch :=
  match eMachine with
  | 0x03 => .x86
  | 0x3E => .x64
  | 0x28 => .arm
  | 0xB7 => .arm64
  | _ => .unknown

/-! ### Tables of headers -/

/-- Headers of `size` bytes, one behind the other, and how one of them is read: the number `tag`
bytes behind its start says what it is. -/
structure Layout (α : Type) where
  off : ℕ
  size : ℕ
  tag : ℕ
  read : ℕ → ℕ → Checked (Option α)

/-- A point of the loop over a table. -/
structure Scan (α : Type) where
  i : ℕ := 0
  found : List α := []

/-- One header; nothing if it is not in the file. -/
def scanStep {α : Type} (r : Rdr) (t : Layout α) (s : Scan α) : Checked (Option (Scan α)) := do
  let start ← add 64 t.off (← mul 64 s.i t.size)
  match r.u32 (← add 64 start t.tag) with
  | none => return none
  | some kind => do
    let o ← t.read kind start
    return some { i := s.i + 1, found := s.found ++ o.toList }

/-- The first `n` headers of a table. -/
def scan {α : Type} (r : Rdr) (t : Layout α) (n : ℕ) : Checked (List α) := do
  let s ← iterate (scanStep r t) (min n 65536) {}
  return s.found

/-! ### Program headers -/

structure Load where
  vaddr : ℕ
  memsz : ℕ
  off : ℕ
  filesz : ℕ
  flags : ℕ
  deriving DecidableEq

/-- The program header at a position, if it is for a segment that is loaded. -/
def loadAt (r : Rdr) (is64 : Bool) (pType ph : ℕ) : Checked (Option Load) :=
  if pType ≠ 1 then return none
  else if is64 then do
    let flags ← r.field 4 ph 4
    let off ← r.field 8 ph 8
    let vaddr ← r.field 8 ph 16
    let filesz ← r.field 8 ph 32
    let memsz ← r.field 8 ph 40
    return some { vaddr, memsz, off, filesz, flags }
  else do
    let flags ← r.field 4 ph 24
    let off ← r.field 4 ph 4
    let vaddr ← r.field 4 ph 8
    let filesz ← r.field 4 ph 16
    let memsz ← r.field 4 ph 20
    return some { vaddr, memsz, off, filesz, flags }

def Header.programHeaders (h : Header) : Layout Load where
  off := h.phoff
  size := h.phentsize
  tag := 0
  read := loadAt h.r h.is64

/-- The lowest address of a segment. -/
def baseOf (loads : List Load) : ℕ :=
  (loads.map Load.vaddr).min?.getD 0

def segmentFlags (pflags : ℕ) : ℕ :=
  let flags := (if pflags &&& 4 ≠ 0 then flagR else 0) |||
    (if pflags &&& 2 ≠ 0 then flagW else 0) ||| (if pflags &&& 1 ≠ 0 then flagX else 0)
  if flags = 0 then flagR else flags

def segment (base idx : ℕ) (l : Load) : Segment where
  name :=
    if segmentFlags l.flags &&& flagX ≠ 0 then "LOAD.text"
    else if segmentFlags l.flags &&& flagW ≠ 0 then "LOAD.data"
    else s!"LOAD{idx}"
  rva := l.vaddr - base
  vsize := l.memsz
  flags := segmentFlags l.flags
  fileOff := l.off
  fileSize := l.filesz

def imageSize (segments : List Segment) : ℕ :=
  segments.foldl (fun size seg ↦ max size (satAdd seg.rva seg.vsize)) 0

/-! ### Section headers -/

structure Section where
  shType : ℕ
  link : ℕ
  offset : ℕ
  size : ℕ
  entsize : ℕ
  name : ℕ
  deriving DecidableEq

/-- The section header at a position. -/
def sectionAt (r : Rdr) (is64 : Bool) (shType sh : ℕ) : Checked (Option Section) :=
  if is64 then do
    let offset ← r.field 8 sh 24
    let size ← r.field 8 sh 32
    let link ← r.field 4 sh 40
    let entsize ← r.field 8 sh 56
    let name ← r.field 4 sh 0
    return some { shType, link, offset, size, entsize, name }
  else do
    let offset ← r.field 4 sh 16
    let size ← r.field 4 sh 20
    let link ← r.field 4 sh 24
    let entsize ← r.field 4 sh 36
    let name ← r.field 4 sh 0
    return some { shType, link, offset, size, entsize, name }

def Header.sectionHeaders (h : Header) : Layout Section where
  off := h.shoff
  size := h.shentsize
  tag := 4
  read := sectionAt h.r h.is64

/-- The bytes of a section, as far as they are in the file. -/
def Section.bytes (b : Slice) (s : Section) : Slice :=
  let a := min s.offset b.bytes.length
  let z := min (satAdd s.offset s.size) b.bytes.length
  (b.get a z).getD .nil

/-- The names of the sections. -/
def shstr (b : Slice) (sections : List Section) (shstrndx : ℕ) : Slice :=
  (sections[shstrndx]?.map (·.bytes b)).getD .nil

/-- The bytes of the first section with a name. -/
def secByName (b names : Slice) (want : String) : List Section → Checked Slice
  | [] => .ok .nil
  | s :: rest => do
    let nm ← rdCstr names.bytes s.name 64
    if nm.getD "" = want then return s.bytes b else secByName b names want rest

/-! ### Symbols -/

/-- The symbols that are found. -/
structure Symbols where
  exports : List Symbol := []
  imports : List Symbol := []

/-- A point of the loop over a table of symbols. -/
structure Entries where
  i : ℕ := 0
  found : Symbols

/-- How far an entry is read behind its start. -/
def lastField (is64 : Bool) : ℕ :=
  if is64 then 8 else 14

/-- An entry of a table of symbols. -/
structure SymbolEntry where
  name : ℕ
  info : UInt8
  shndx : ℕ
  value : ℕ

def entryAt (r : Rdr) (is64 : Bool) (so : ℕ) : Checked SymbolEntry :=
  if is64 then do
    let name := (r.u32 so).getD 0
    let info := (r.b.bytes[← add 64 so 4]?).getD 0
    let shndx ← r.field 2 so 6
    let value ← r.field 8 so 8
    return { name, info, shndx, value }
  else do
    let name := (r.u32 so).getD 0
    let info := (r.b.bytes[← add 64 so 12]?).getD 0
    let shndx ← r.field 2 so 14
    let value ← r.field 4 so 4
    return { name, info, shndx, value }

/-- The name of an entry in its table of strings. -/
def entryName (b : Slice) (strtab : Section) (stName : ℕ) : Checked String :=
  if stName < strtab.size then do
    let name ← rdCstr b.bytes (satAdd strtab.offset stName) 4096
    return name.getD ""
  else return ""

/-- Keep a symbol of a function. -/
def Symbols.push (t : Symbols) (base : ℕ) (e : SymbolEntry) (name : String) : Symbols :=
  let symbol := { rva := e.value - base, name }
  -- A function that is not defined here is an import.
  if e.shndx = 0 ∨ e.value = 0 then { t with imports := t.imports ++ [symbol] }
  else { t with exports := t.exports ++ [symbol] }

/-- One entry. -/
def entryStep (r : Rdr) (is64 : Bool) (base : ℕ) (sec strtab : Section) (entsize : ℕ)
    (s : Entries) : Checked (Option Entries) := do
  let so ← add 64 sec.offset (← mul 64 s.i entsize)
  let e ← entryAt r is64 so
  -- Only symbols of functions are kept, and only with a name.
  if e.info &&& 0x0F ≠ 2 then return some { s with i := s.i + 1 }
  else do
    let name ← entryName r.b strtab e.name
    if name = "" then return some { s with i := s.i + 1 }
    else return some { i := s.i + 1, found := s.found.push base e name }

/-- The size of an entry, if the section does not say. -/
def Section.entrySize (s : Section) (is64 : Bool) : ℕ :=
  if s.entsize ≠ 0 then s.entsize else if is64 then 24 else 16

/-- The number of entries that are read. -/
def Section.entryCount (s : Section) (is64 : Bool) : ℕ :=
  min (s.size / max s.entsize (s.entrySize is64)) 2000000

/-- The table of strings of a section of symbols. -/
def Section.strtab (sections : List Section) (s : Section) : Option Section :=
  if s.shType ≠ 2 ∧ s.shType ≠ 11 then none else sections[s.link]?

/-- The symbols of a section. -/
def sectionSymbols (r : Rdr) (is64 : Bool) (base : ℕ) (sections : List Section) (sec : Section)
    (t : Symbols) : Checked Symbols :=
  match sec.strtab sections with
  | none => .ok t
  | some strtab => do
    let s ← iterate (entryStep r is64 base sec strtab (sec.entrySize is64)) (sec.entryCount is64)
      { found := t }
    return s.found

def symbols (r : Rdr) (is64 : Bool) (base : ℕ) (sections : List Section) :
    List Section → Symbols → Checked Symbols
  | [], t => .ok t
  | sec :: rest, t => do
    let t ← sectionSymbols r is64 base sections sec t
    symbols r is64 base sections rest t

/-- Each symbol once. -/
def dedupSymbols (l : List Symbol) : List Symbol :=
  l.foldl (fun kept s ↦ if kept.any fun t ↦ t.rva = s.rva && t.name = s.name then kept
    else kept ++ [s]) []

/-! ### The file -/

def debugSections (b : Slice) (sections : List Section) (shstrndx : ℕ) :
    Checked Dwarf.Sections := do
  let names := shstr b sections shstrndx
  let info ← secByName b names ".debug_info" sections
  let abbrevs ← secByName b names ".debug_abbrev" sections
  let str ← secByName b names ".debug_str" sections
  let lineStr ← secByName b names ".debug_line_str" sections
  let strOffsets ← secByName b names ".debug_str_offsets" sections
  return { info, abbrevs, str, lineStr, strOffsets }

/-- The place of a link-time address in the image. -/
def rebase (base va : ℕ) : Option ℕ :=
  if base ≤ va then some (va - base) else none

/-- The names of functions that DWARF has. -/
def debugFunctions (base : ℕ) (secs : Dwarf.Sections) : Checked (List Symbol) :=
  if secs.info.bytes = [] then .ok [] else Dwarf.functions secs (rebase base)

def parse (b : Slice) : Checked (Except String BinaryMeta) :=
  match header b with
  | .error e => .ok (.error e)
  | .ok h => do
    let loads ← scan h.r h.programHeaders h.phnum
    let base := baseOf loads
    let segments := loads.mapIdx (segment base)
    let sections ← scan h.r h.sectionHeaders h.shnum
    let t ← symbols h.r h.is64 base sections sections {}
    -- Names from DWARF come last, so that a name of the linker is kept before them.
    let found ← debugFunctions base (← debugSections b sections h.shstrndx)
    return .ok {
      format := if h.is64 then .elf64 else .elf32
      arch := arch h.eMachine
      base
      entry := h.entry - base
      isDll := h.eType = 3
      imageSize := imageSize segments
      segments
      exports := dedupSymbols (t.exports ++ found)
      imports := dedupSymbols t.imports
      tlsCallbacks := [] }

end Elf

/-! ### Formats -/

def Elf.magic : List UInt8 := [0x7F, 0x45, 0x4C, 0x46]

/-- The parser for the format that the first bytes of a file name. The parsers of the other formats
are left open. -/
def BinParser.BinaryMeta.parse (pe macho : Checked.Slice → Checked (Except String BinaryMeta))
    (isMacho : Checked.Slice → Bool) (b : Checked.Slice) : Checked (Except String BinaryMeta) :=
  if [0x4D, 0x5A].isPrefixOf b.bytes then pe b
  else if Elf.magic.isPrefixOf b.bytes then Elf.parse b
  else if isMacho b then macho b
  else .ok (.error "unrecognized binary format (expected PE 'MZ', ELF, or Mach-O magic)")

end Ldu
