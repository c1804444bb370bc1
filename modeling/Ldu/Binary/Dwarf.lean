import Ldu.Binary.Meta

/-!
# Names of functions from DWARF

The sections of a file are walked unit by unit, and each unit entry by entry. An entry has the
attributes its abbreviation lists, each in a form that says how its value is laid out; the values
have no lengths. The walk decodes the names, the addresses and the base of the string offsets itself
(`attr`), and skips the values of all other attributes (`skipForm`), or leaves the unit.

Offsets into a section are 64-bit numbers. The model computes with them as the source does, in
checked arithmetic, with rounds for loops that have no bound of their own.
-/

namespace Ldu

namespace Dwarf

open BinParser Checked Reader

/-! ### The cursor -/

/-- A position in a section. -/
structure Cur where
  b : List UInt8
  p : ℕ

abbrev Read (α : Type) := Reader Cur α

namespace Cur

def left (c : Cur) : ℕ :=
  c.b.length - c.p

/-- The bytes from the position on. -/
def rest (c : Cur) : List UInt8 :=
  c.b.drop c.p

end Cur

/-- Move the position. -/
def advance (n : ℕ) : Read Unit := do
  let c ← get
  let p ← lift (add 64 c.p n)
  set { c with p }

def u8 : Read UInt8 := do
  let c ← get
  match c.b[c.p]? with
  | none => failure
  | some v => do
    advance 1
    return v

/-- A number of `n` bytes. -/
def number (n : ℕ) : Read ℕ := do
  let c ← get
  guard (c.p + n < 2 ^ 64 ∧ c.p + n ≤ c.b.length)
  advance n
  return ofLE (c.rest.take n)

def u16 : Read ℕ := number 2

def u32 : Read ℕ := number 4

def u64 : Read ℕ := number 8

def skip (n : ℕ) : Read Unit := do
  let c ← get
  guard (n ≤ c.left)
  advance n

/-- The low seven bits of a byte, `shift` bits up. -/
def payload (b : UInt8) (shift : ℕ) : UInt64 :=
  if shift < 64 then (b &&& 0x7F).toUInt64 <<< UInt64.ofNat shift else 0

/-- A number in LEB128, whose last byte is the first with a clear top bit; it is refused if none of
nineteen is. The value is made of the last byte, the payloads and their number of bits. -/
def lebLoop {α : Type} (value : UInt8 → UInt64 → ℕ → α) : ℕ → UInt64 → ℕ → Read α
  | 0, _, _ => fault .endless
  | fuel + 1, v, shift => do
    let b ← u8
    let v := v ||| payload b shift
    let shift ← lift (add 32 shift 7)
    if b &&& 0x80 = 0 then return value b v shift
    else if 128 < shift then failure
    else lebLoop value fuel v shift

def uleb : Read ℕ := lebLoop (fun _ v _ ↦ v.toNat) 19 0 0

/-- Fill up a negative number. -/
def signExtend (b : UInt8) (v : UInt64) (shift : ℕ) : UInt64 :=
  if shift < 64 ∧ b &&& 0x40 ≠ 0 then v ||| (-1) <<< UInt64.ofNat shift else v

def sleb : Read ℤ := lebLoop (fun b v shift ↦ (signExtend b v shift).toInt64.toInt) 19 0 0

/-- A string with the zero behind it. The position moves on over the string even where there is
none, and over the end of the section where the zero is missing. -/
def cstr : Read String := do
  let c ← get
  let text := c.rest.takeWhile (· ≠ 0)
  set { c with p := c.p + text.length }
  guard (c.p + text.length ≤ c.b.length)
  set { c with p := min (c.p + text.length + 1) (2 ^ 64 - 1) }
  return Utf8.fromUtf8Lossy text

/-- The string at an offset of a section; it is empty if no zero follows. -/
def strAt (sec : Slice) (off : ℕ) : Checked (Option String) :=
  if sec.bytes.length < off then .ok none
  else do
    let text := sec.bytes.drop off
    let n := (text.findIdx? (· = 0)).getD 0
    let stop ← add 64 off n
    if stop ≤ sec.bytes.length then return some (Utf8.fromUtf8Lossy (text.take n)) else return none

/-! ### Abbreviations -/

structure Attr where
  attr : ℕ
  form : ℕ
  implicit : ℤ
  deriving DecidableEq

structure Abbrev where
  tag : ℕ
  hasChildren : Bool
  attrs : List Attr
  deriving DecidableEq

/-- The abbreviations by their codes, each code once. -/
abbrev Table := List (ℕ × Abbrev)

def Table.get (t : Table) (code : ℕ) : Option Abbrev :=
  (t.find? (·.1 = code)).map Prod.snd

def Table.insert (t : Table) (code : ℕ) (ab : Abbrev) : Table :=
  (code, ab) :: t.filter (·.1 ≠ code)

/-- The value that an abbreviation has for a form. -/
def implicitConst (form : ℕ) : Read ℤ :=
  if form = 0x21 then sleb else return 0

def attrsLoop : ℕ → List Attr → Read (List Attr)
  | 0, _ => fault .endless
  | fuel + 1, attrs => do
    let attr ← uleb
    let form ← uleb
    let implicit ← implicitConst form
    if attr = 0 ∧ form = 0 then return attrs
    else attrsLoop fuel (attrs ++ [{ attr, form, implicit }])

def tableLoop : ℕ → Table → Read Table
  | 0, _ => fault .endless
  | fuel + 1, out => do
    let code ← uleb
    if code = 0 then return out
    else do
      let tag ← uleb
      let children ← u8
      let c ← get
      let attrs ← attrsLoop (c.left + 1) []
      let out := out.insert code { tag, hasChildren := children ≠ 0, attrs }
      if 200000 < out.length then failure else tableLoop fuel out

/-- The table at an offset, `parse_abbrev`. -/
def parseAbbrev (sec : Slice) (off : ℕ) : Checked (Option Table) :=
  if sec.bytes.length < off then .ok none
  else do
    let r ← (tableLoop (sec.bytes.length + 1) []).run ⟨sec.bytes.drop off, 0⟩
    return r.1

/-! ### Forms -/

/-- How the value of a form is laid out. -/
inductive Layout
  | addr
  | fixed (n : ℕ)
  | block1 | block2 | block4 | block
  | sleb | uleb
  | string
  | offset
  | absent
  | indirect
  deriving DecidableEq

/-- `F_ADDR` to `F_ADDRX4` -/
def layout (form : ℕ) : Option Layout :=
  match form with
  | 0x01 => some .addr
  | 0x0A => some .block1
  | 0x03 => some .block2
  | 0x04 => some .block4
  | 0x09 | 0x18 => some .block
  | 0x0B | 0x0C | 0x11 | 0x25 | 0x29 => some (.fixed 1)
  | 0x05 | 0x12 | 0x26 | 0x2A => some (.fixed 2)
  | 0x27 | 0x2B => some (.fixed 3)
  | 0x06 | 0x13 | 0x1C | 0x28 | 0x2C => some (.fixed 4)
  | 0x07 | 0x14 | 0x20 | 0x24 => some (.fixed 8)
  | 0x1E => some (.fixed 16)
  | 0x0D => some .sleb
  | 0x0F | 0x15 | 0x1A | 0x1B | 0x22 | 0x23 => some .uleb
  | 0x08 => some .string
  | 0x0E | 0x1F | 0x17 | 0x1D | 0x10 => some .offset
  | 0x19 | 0x21 => some .absent
  | 0x16 => some .indirect
  | _ => none

/-- The sizes of a unit. -/
structure Sizes where
  addrSize : ℕ
  dwarf64 : Bool
  deriving DecidableEq

def Sizes.offSize (z : Sizes) : ℕ :=
  if z.dwarf64 then 8 else 4

/-- Skip the value of a form; forms that are not known are not skipped. -/
def skipLoop (z : Sizes) : ℕ → ℕ → Read Unit
  | 0, _ => fault .endless
  | fuel + 1, form =>
    match layout form with
    | some .addr => skip z.addrSize
    | some (.fixed n) => skip n
    | some .block1 => do
      let n ← u8
      skip n.toNat
    | some .block2 => do
      let n ← u16
      skip n
    | some .block4 => do
      let n ← u32
      skip n
    | some .block => do
      let n ← uleb
      skip n
    | some .sleb => do
      let _ ← sleb
    | some .uleb => do
      let _ ← uleb
    | some .string => do
      let _ ← cstr
    | some .offset => skip z.offSize
    | some .absent => return
    | some .indirect => do
      let real ← uleb
      skipLoop z fuel real
    | none => failure

/-- `skip_form` -/
def skipForm (z : Sizes) (form : ℕ) : Read Unit := do
  let c ← get
  skipLoop z (c.left + 1) form

/-! ### Entries -/

/-- The sections that are read. -/
structure Sections where
  info : Slice := .nil
  abbrevs : Slice := .nil
  str : Slice := .nil
  lineStr : Slice := .nil
  strOffsets : Slice := .nil

/-- What is known of an entry, with the base of the string offsets of its unit. -/
structure Die where
  name : Option String := none
  lowPc : Option ℕ := none
  strx : Option ℕ := none
  base : ℕ
  deriving DecidableEq

def atName : ℕ := 0x03

def atLowPc : ℕ := 0x11

def atStrOffsetsBase : ℕ := 0x72

/-- An offset of the unit. -/
def offset (z : Sizes) : Read ℕ :=
  if z.dwarf64 then u64 else u32

/-- An address of the unit. -/
def address (z : Sizes) : Read ℕ :=
  if z.addrSize = 8 then u64 else u32

/-- The string that a value of `DW_FORM_strp` or `DW_FORM_line_strp` stands for. -/
def stringAt (sec : Slice) (o : Option ℕ) : Checked (Option String) :=
  match o with
  | some o => strAt sec o
  | none => .ok none

/-- The attributes that the walk decodes itself. -/
def decodes (a form : ℕ) : Bool :=
  (a = atName && [0x08, 0x0E, 0x1F, 0x1A, 0x25, 0x26, 0x28].contains form) ||
    (a = atLowPc && form = 0x01) || a = atStrOffsetsBase

/-- A name. -/
def nameAttr (secs : Sections) (z : Sizes) (form : ℕ) (d : Die) : Read Die :=
  match form with
  -- A value that is cut off gives no name, and the walk goes on where the cursor is.
  | 0x08 => do
    let name ← attempt cstr
    return { d with name }
  | 0x0E => do
    let o ← attempt (offset z)
    let name ← lift (stringAt secs.str o)
    return { d with name }
  | 0x1F => do
    let o ← attempt (offset z)
    let name ← lift (stringAt secs.lineStr o)
    return { d with name }
  | 0x1A => do
    let strx ← attempt uleb
    return { d with strx }
  | 0x25 => do
    let strx ← attempt u8
    return { d with strx := strx.map UInt8.toNat }
  | 0x26 => do
    let strx ← attempt u16
    return { d with strx }
  | 0x28 => do
    let strx ← attempt u32
    return { d with strx }
  | _ => do
    skipForm z form
    return d

/-- One attribute of an entry. -/
def attr (secs : Sections) (z : Sizes) (a form : ℕ) (d : Die) : Read Die :=
  if a = atName then nameAttr secs z form d
  else if a = atLowPc ∧ form = 0x01 then do
    let lowPc ← attempt (address z)
    return { d with lowPc }
  else if a = atStrOffsetsBase then do
    let o ← attempt (offset z)
    return { d with base := o.getD d.base }
  else do
    skipForm z form
    return d

/-- The attributes of an entry. -/
def attrs (secs : Sections) (z : Sizes) : List Attr → Die → Read Die
  | [], d => return d
  | a :: as, d => do
    let d ← attr secs z a.attr a.form d
    attrs secs z as d

/-- The offset that the string offsets have for an index. -/
def strOffset (secs : Sections) (z : Sizes) (base ix : ℕ) : Checked (Option ℕ) := do
  let slot ← add 64 base (← mul 64 ix z.offSize)
  let stop ← add 64 slot z.offSize
  if stop ≤ secs.strOffsets.bytes.length then
    return some (ofLE ((secs.strOffsets.bytes.drop slot).take z.offSize))
  else return none

/-- The function that an entry stands for. -/
def subprogram (secs : Sections) (z : Sizes) (tag : ℕ) (d : Die) : Checked (Option (String × ℕ)) :=
  if tag ≠ 0x2E then .ok none
  else
    match d.lowPc, d.name, d.strx with
    | some pc, some n, _ => .ok (if n = "" then none else some (n, pc))
    | some pc, none, some ix => do
      let name ← stringAt secs.str (← strOffset secs z d.base ix)
      return (name.filter (· ≠ "")).map (·, pc)
    | _, _, _ => .ok none

/-! ### Units -/

/-- A unit, with the cursor behind its header and its end. -/
structure CompUnit where
  sizes : Sizes
  table : Table
  cur : Cur
  stop : ℕ

/-- A point of the walk through the entries of a unit. -/
structure Walk where
  cur : Cur
  base : ℕ
  pending : List (String × ℕ) := []

/-- One entry; nothing if the walk leaves the unit. -/
def dieStep (secs : Sections) (u : CompUnit) (w : Walk) : Checked (Option Walk) :=
  if u.stop ≤ w.cur.p then .ok none
  else do
    match ← uleb.run w.cur with
    | (none, _) => return none
    | (some code, c) =>
      -- A zero ends a list of siblings.
      if code = 0 then return some { w with cur := c }
      else
        match u.table.get code with
        -- The walk has lost its place.
        | none => return none
        | some ab => do
          match ← (attrs secs u.sizes ab.attrs { base := w.base }).run c with
          | (none, _) => return none
          | (some d, c) => do
            let found ← subprogram secs u.sizes ab.tag d
            return some { cur := c, base := d.base, pending := w.pending ++ found.toList }

/-- The length of a unit, and whether its offsets have 64 bits. -/
def unitLength : Read (Bool × ℕ) := do
  let n ← u32
  if n = 0xFFFFFFFF then do
    let n ← u64
    return (true, n)
  else do
    guard (n < 0xFFFFFFF0)
    return (false, n)

/-- The offset of the abbreviations and the size of an address. -/
def unitFields (version : ℕ) (dwarf64 : Bool) : Read (ℕ × ℕ) :=
  if 5 ≤ version then do
    -- The type of the unit is not looked at.
    let _ ← attempt u8
    let a ← attempt u8
    let ao ← attempt (offset ⟨0, dwarf64⟩)
    return (ao.getD 0, (a.getD 8).toNat)
  else do
    let ao ← attempt (offset ⟨0, dwarf64⟩)
    let a ← attempt u8
    return (ao.getD 0, (a.getD 8).toNat)

/-- The unit at `start`, if it is walked, and where the next one starts. -/
def unitHeader (secs : Sections) (start : ℕ) : Read (ℕ × Option CompUnit) := do
  let (dwarf64, len) ← unitLength
  let c ← get
  let next := satAdd (satAdd start c.p) len
  -- A length that leads nowhere ends the walk through the units.
  guard (len ≠ 0 ∧ start < next ∧ next ≤ secs.info.bytes.length)
  let version ← u16
  let (abbrevOff, addrSize) ← unitFields version dwarf64
  -- Units that cannot be read are stepped over.
  if version = 0 ∨ 5 < version then return (next, none)
  else do
    match ← lift (parseAbbrev secs.abbrevs abbrevOff) with
    | none => return (next, none)
    | some table => do
      let cur ← get
      let stop ← lift (sub next start)
      return (next, some { sizes := ⟨addrSize, dwarf64⟩, table, cur, stop })

/-- A point of the walk through the units. -/
structure Units where
  start : ℕ := 0
  out : List Symbol := []

/-- Where the walk through a unit begins. -/
def CompUnit.walk (u : CompUnit) : Walk where
  cur := u.cur
  base := 8

/-- One unit; nothing if the walk ends. -/
def unitStep (secs : Sections) (vaddrToRva : ℕ → Option ℕ) (s : Units) : Checked (Option Units) :=
  if secs.info.bytes.length < satAdd s.start 11 then .ok none
  else do
    let b ← slice secs.info.bytes s.start secs.info.bytes.length
    match ← (unitHeader secs s.start).run ⟨b, 0⟩ with
    | (none, _) => return none
    | (some (next, none), _) => return some { s with start := next }
    | (some (next, some u), _) => do
      let w ← iterate (dieStep secs u) 2000000 u.walk
      let found := w.pending.filterMap fun p ↦ (vaddrToRva p.2).map fun rva ↦ ⟨rva, p.1, none⟩
      return some { start := next, out := s.out ++ found }

/-- `functions` -/
def functions (secs : Sections) (vaddrToRva : ℕ → Option ℕ) : Checked (List Symbol) :=
  if secs.info.bytes = [] ∨ secs.abbrevs.bytes = [] then .ok []
  else do
    let s ← iterate (unitStep secs vaddrToRva) 100000 {}
    return s.out

end Dwarf

end Ldu
