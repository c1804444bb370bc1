import Ldu.Binary.Elf

/-!
# Mach-O files

A file is one Mach-O, or a universal one that holds several, of which one slice is chosen
(`selectFatSlice`). Behind the header come the load commands: they name the segments, the symbols
and the entry. Addresses become offsets from the address of the first segment that is mapped.

What is read behind a position that is known to be in the file never faults. The one sum that can is
that of the entry, which is a place in a segment (`safe_macho_iff`).
-/

namespace Ldu

namespace Macho

open BinParser Checked
open Elf (Rdr)

/-- A parser may refuse the file. -/
abbrev Parse (α : Type) := ExceptT String Checked α

/-! ### Constants -/

def mhMagic64 : ℕ := 0xfeedfacf

def mhCigam64 : ℕ := 0xcffaedfe

def mhMagic32 : ℕ := 0xfeedface

def mhCigam32 : ℕ := 0xcefaedfe

def fatMagic : ℕ := 0xcafebabe

def fatCigam : ℕ := 0xbebafeca

def mhDylib : ℕ := 6

def mhBundle : ℕ := 8

def lcSegment : ℕ := 0x01

def lcSymtab : ℕ := 0x02

def lcUnixthread : ℕ := 0x05

def lcSegment64 : ℕ := 0x19

def lcMain : ℕ := 0x80000028

def cpuTypeX86 : ℕ := 7

def cpuTypeX86_64 : ℕ := 0x01000007

def cpuTypeArm : ℕ := 12

def cpuTypeArm64 : ℕ := 0x0100000c

def nStab : ℕ := 0xe0

def nType : ℕ := 0x0e

def nSect : ℕ := 0x0e

def vmProtRead : ℕ := 1

def vmProtWrite : ℕ := 2

def vmProtExecute : ℕ := 4

/-! ### Readers -/

/-- What is there, or what is wrong. -/
def okOr {α : Type} (e : String) : Option α → Parse α
  | some a => pure a
  | none => throw e

/-- The number of `n` bytes at `k` bytes behind a position. -/
def number? (r : Rdr) (n off k : ℕ) : Parse (Option ℕ) := do
  let pos ← add 64 off k
  return r.number n pos

def number (e : String) (r : Rdr) (n off k : ℕ) : Parse ℕ := do
  okOr e (← number? r n off k)

/-- The file starts like one Mach-O or a universal one. -/
def isMacho (b : Slice) : Bool :=
  match b.get 0 4 with
  | some s =>
    ofBE s.bytes ∈ [fatMagic, fatCigam] ||
      ofLE s.bytes ∈ [mhMagic64, mhCigam64, mhMagic32, mhCigam32]
  | none => false

/-! ### Universal files -/

/-- A slice of a universal file. -/
structure FatArch where
  cputype : ℕ
  off : ℕ
  size : ℕ
  deriving DecidableEq

def fatArch (r : Rdr) (i : ℕ) : Parse FatArch := do
  let e ← add 64 8 (← mul 64 i 20)
  let cputype ← number "truncated fat arch" r 4 e 0
  let off ← number "truncated fat arch" r 4 e 8
  let size ← number "truncated fat arch" r 4 e 12
  return { cputype, off, size }

/-- How much an architecture is preferred. -/
def FatArch.rank (a : FatArch) : ℕ :=
  if a.cputype = cpuTypeX86_64 then 2 else if a.cputype = cpuTypeArm64 then 1 else 0

/-- A slice that is not inside the file is not usable. -/
def FatArch.Fits (a : FatArch) (b : Slice) : Prop :=
  satAdd a.off a.size ≤ b.bytes.length

instance (a : FatArch) (b : Slice) : Decidable (a.Fits b) :=
  inferInstanceAs (Decidable (_ ≤ _))

/-- The slices that are kept in mind: the best one and the first. -/
structure Fat where
  best : Option FatArch := none
  first : Option FatArch := none

/-- Look through the slices from `i` on, up to the first that cannot be bettered. -/
def fatFrom (r : Rdr) : ℕ → ℕ → Fat → Parse Fat
  | 0, _, f => return f
  | n + 1, i, f => do
    let a ← fatArch r i
    if a.Fits r.b then
      let f := { f with first := f.first.or (some a) }
      if 0 < a.rank ∧ (f.best = none ∨ a.rank = 2) then
        let f := { f with best := some a }
        if a.rank = 2 then return f else fatFrom r n (i + 1) f
      else fatFrom r n (i + 1) f
    else fatFrom r n (i + 1) f

/-- The header of a universal file has the highest byte first. -/
def selectFatSlice (b : Slice) : Parse FatArch := do
  let r : Rdr := ⟨b, false⟩
  let nfat ← number "truncated fat header" r 4 4 0
  if nfat = 0 ∨ 64 < nfat then throw s!"implausible fat arch count {nfat}"
  let f ← fatFrom r nfat 0 {}
  okOr "no usable slice in fat binary" (f.best.or f.first)

/-- Where the Mach-O starts that is looked at. -/
def sliceOff (b head : Slice) : Parse ℕ :=
  if ofBE head.bytes ∈ [fatMagic, fatCigam] then do
    let a ← selectFatSlice b
    return a.off
  else return 0

def sliceOf (b : Slice) : Parse (ℕ × Slice) := do
  let head ← okOr "truncated Mach-O" (b.get 0 4)
  let off ← sliceOff b head
  let s ← okOr "fat slice out of range" (b.get off b.bytes.length)
  return (off, s)

/-! ### The header -/

structure Header where
  r : Rdr
  is64 : Bool
  cputype : ℕ
  filetype : ℕ
  ncmds : ℕ
  sizeofcmds : ℕ

/-- How wide addresses are, and the order of the bytes. -/
def magic (m : ℕ) : Option (Bool × Bool) :=
  if m = mhMagic64 then some (true, true)
  else if m = mhCigam64 then some (true, false)
  else if m = mhMagic32 then some (false, true)
  else if m = mhCigam32 then some (false, false)
  else none

def header (b : Slice) : Parse Header := do
  let raw ← okOr "truncated mach header" (b.get 0 4)
  let (is64, le) ← okOr "not a Mach-O (bad magic)" (magic (ofLE raw.bytes))
  let r : Rdr := ⟨b, le⟩
  let cputype ← number "truncated mach header" r 4 4 0
  let filetype ← number "truncated mach header" r 4 12 0
  let ncmds ← number "truncated mach header" r 4 16 0
  let sizeofcmds ← number "truncated mach header" r 4 20 0
  if 0x4000 < ncmds then throw s!"implausible ncmds {ncmds}"
  return { r, is64, cputype, filetype, ncmds, sizeofcmds }

namespace Header

variable (h : Header)

def len : ℕ :=
  if h.is64 then 32 else 28

def arch : Arch :=
  if h.cputype = cpuTypeX86_64 then .x64
  else if h.cputype = cpuTypeX86 then .x86
  else if h.cputype = cpuTypeArm64 then .arm64
  else if h.cputype = cpuTypeArm then .arm
  else .unknown

def isDll : Bool :=
  h.filetype = mhDylib || h.filetype = mhBundle

end Header

/-! ### Load commands -/

/-- Where the symbols and their names are. -/
structure Symtab where
  symoff : ℕ
  nsyms : ℕ
  stroff : ℕ
  strsize : ℕ
  deriving DecidableEq

/-- What the load commands say. -/
structure Cmds where
  segments : List Segment := []
  base : Option ℕ := none
  /-- The offset of the entry in the file. -/
  entryFileOff : Option ℕ := none
  /-- The address of the entry. -/
  entryAbs : Option ℕ := none
  symtab : Option Symtab := none

def segmentFlags (initprot : ℕ) : ℕ :=
  (if initprot &&& vmProtRead ≠ 0 then flagR else 0) |||
    (if initprot &&& vmProtWrite ≠ 0 then flagW else 0) |||
      if initprot &&& vmProtExecute ≠ 0 then flagX else 0

/-- A segment is mapped if it is not the guard before the others, and not empty. -/
def Mapped (seg : Segment) : Prop :=
  ¬(seg.name = "__PAGEZERO" ∨ seg.vsize = 0 ∧ seg.fileSize = 0)

instance (seg : Segment) : Decidable (Mapped seg) :=
  inferInstanceAs (Decidable ¬_)

/-- A segment, with its address for its offset. -/
def segmentAt (h : Header) (sliceOff off : ℕ) (seg64 : Bool) : Parse Segment := do
  let name ← rdCstr h.r.b.bytes (← add 64 off 8) 16
  let (e, n) := if seg64 then ("truncated LC_SEGMENT_64", 8) else ("truncated LC_SEGMENT", 4)
  let vmaddr ← number e h.r n off 24
  let vmsize ← number e h.r n off (24 + n)
  let fileoff ← number e h.r n off (24 + 2 * n)
  let filesize ← number e h.r n off (24 + 3 * n)
  let maxprotOff ← add 64 off (24 + 4 * n)
  let initprot ← number? h.r 4 maxprotOff 4
  return {
    name := name.getD ""
    rva := vmaddr
    vsize := vmsize
    flags := segmentFlags (initprot.getD vmProtRead)
    fileOff := satAdd fileoff sliceOff
    fileSize := filesize }

def Cmds.push (c : Cmds) (seg : Segment) : Cmds :=
  { c with segments := c.segments ++ [seg], base := c.base.or (some seg.rva) }

/-- One load command. -/
def command (h : Header) (sliceOff off cmd : ℕ) (c : Cmds) : Parse Cmds :=
  if cmd = lcSegment64 ∨ cmd = lcSegment then do
    let seg ← segmentAt h sliceOff off (cmd = lcSegment64)
    return if Mapped seg then c.push seg else c
  else if cmd = lcSymtab then do
    let symoff ← number "truncated LC_SYMTAB" h.r 4 off 8
    let nsyms ← number "truncated LC_SYMTAB" h.r 4 off 12
    let stroff ← number "truncated LC_SYMTAB" h.r 4 off 16
    let strsize ← number "truncated LC_SYMTAB" h.r 4 off 20
    return { c with symtab := some { symoff, nsyms, stroff, strsize } }
  else if cmd = lcMain then do
    return { c with entryFileOff := ← number? h.r 8 off 8 }
  else if cmd = lcUnixthread then
    -- The program counter, behind the registers of either architecture.
    if h.cputype = cpuTypeX86_64 then do
      return { c with entryAbs := ← number? h.r 8 off (16 + 16 * 8) }
    else if h.cputype = cpuTypeArm64 then do
      return { c with entryAbs := ← number? h.r 8 off (16 + 32 * 8) }
    else return c
  else return c

/-- At most `n` load commands from a position on. -/
def commandsFrom (h : Header) (sliceOff cmdsEnd : ℕ) : ℕ → ℕ → Cmds → Parse Cmds
  | 0, _, c => return c
  | n + 1, off, c =>
    if cmdsEnd < satAdd off 8 then return c
    else do
      let cmd ← number "truncated load command" h.r 4 off 0
      let cmdsize ← number "truncated load command" h.r 4 off 4
      if cmdsize < 8 ∨ cmdsEnd < satAdd off cmdsize then return c
      else
        let c ← command h sliceOff off cmd c
        let next ← add 64 off cmdsize
        commandsFrom h sliceOff cmdsEnd n next c

def Header.cmdsEnd (h : Header) : ℕ :=
  min (satAdd h.len h.sizeofcmds) h.r.b.bytes.length

/-! ### The file -/

/-- What is read before the entry and the symbols are. -/
structure Loaded where
  sliceOff : ℕ
  header : Header
  cmds : Cmds
  base : ℕ

def loadSlice (sliceOff : ℕ) (s : Slice) : Parse Loaded := do
  let header ← header s
  let cmds ← commandsFrom header sliceOff header.cmdsEnd header.ncmds header.len {}
  let base ← okOr "Mach-O has no mapped segment" cmds.base
  if cmds.segments.isEmpty then throw "Mach-O has no loadable segments"
  return { sliceOff, header, cmds, base }

def load (b : Slice) : Parse Loaded := do
  let (sliceOff, s) ← sliceOf b
  loadSlice sliceOff s

namespace Loaded

variable (l : Loaded)

def segments : List Segment :=
  l.cmds.segments.map fun s ↦ { s with rva := s.rva - l.base }

def imageSize : ℕ :=
  l.segments.foldl (fun size s ↦ max size (satAdd s.rva s.vsize)) 0

/-- The segment that an offset in the file is in. -/
def covering (fo : ℕ) : Option Segment :=
  l.segments.find? fun s ↦ s.fileOff ≤ fo && fo < satAdd s.fileOff s.fileSize

def entry : Checked ℕ :=
  match l.cmds.entryFileOff with
  | some fo =>
    let fo := satAdd fo l.sliceOff
    match l.covering fo with
    | some s => do add 64 s.rva (← sub fo s.fileOff)
    | none => return 0
  | none => return (l.cmds.entryAbs.map (· - l.base)).getD 0

/-- The names of the symbols. -/
def strs (t : Symtab) : List UInt8 :=
  let b := l.header.r.b
  let a := min t.stroff b.bytes.length
  let z := min (satAdd t.stroff t.strsize) b.bytes.length
  ((b.get a z).getD .nil).bytes

/-- The size of a symbol. -/
def nlist : ℕ :=
  if l.header.is64 then 16 else 12

/-- A C name without the underscore before it. -/
def stripUnderscore (name : String) : String :=
  match name.toList with
  | '_' :: cs => String.ofList cs
  | _ => name

/-- The symbol at a position, if it is defined in a section and has a name. -/
def symbolAt (strs : List UInt8) (e : ℕ) : Checked (Option Symbol) := do
  let r := l.header.r
  let strx := (r.number 4 e).getD 0
  let type := ((r.b.bytes[← add 64 e 4]?).getD 0).toNat
  let value ← r.field (if l.header.is64 then 8 else 4) e 8
  if type &&& nStab ≠ 0 ∨ type &&& nType ≠ nSect ∨ value = 0 then return none
  else
    match ← rdCstr strs strx 1024 with
    | some name =>
      if name = "" then return none
      else return some { rva := value - l.base, name := stripUnderscore name }
    | none => return none

/-- The symbols from the `i`-th on, at most `n`. -/
def symbolsFrom (t : Symtab) : ℕ → ℕ → Checked (List Symbol)
  | 0, _ => return []
  | n + 1, i =>
    let e := satAdd t.symoff (min (i * l.nlist) (2 ^ 64 - 1))
    if l.header.r.b.bytes.length < satAdd e l.nlist then return []
    else do
      let o ← l.symbolAt (l.strs t) e
      let rest ← symbolsFrom t n (i + 1)
      return o.toList ++ rest

def exports : Checked (List Symbol) :=
  match l.cmds.symtab with
  | some t => l.symbolsFrom t (min t.nsyms 2000000) 0
  | none => return []

def toMeta : Checked BinaryMeta := do
  let entry ← l.entry
  let exports ← l.exports
  return {
    format := if l.header.is64 then .machO64 else .machO32
    arch := l.header.arch
    base := l.base
    entry
    isDll := l.header.isDll
    imageSize := l.imageSize
    segments := l.segments
    exports
    imports := []
    tlsCallbacks := [] }

end Loaded

def parse (b : Slice) : Parse BinaryMeta := do
  let l ← load b
  l.toMeta

/-! ### No faults -/

/-- The parser ends without a fault, and `post` holds of what it finds. -/
def Parse.Gives {α : Type} (x : Parse α) (post : α → Prop) : Prop :=
  ∃ r, x.run = .ok r ∧ ∀ a, r = .ok a → post a

section Gives

open Parse

variable {α β : Type} {x : Parse α} {f : α → Parse β} {post : α → Prop}

theorem run_bind_lift (y : Checked α) :
    ((liftM y : Parse α) >>= f).run = y >>= fun a ↦ (f a).run := by
  cases y <;> rfl

theorem gives_pure {a : α} (h : post a) : Gives (pure a) post :=
  ⟨.ok a, rfl, fun _ ha ↦ Except.ok.inj ha ▸ h⟩

theorem gives_throw (e : String) : Gives (throw e) post :=
  ⟨.error e, rfl, fun _ h ↦ by cases h⟩

theorem gives_okOr {e : String} {o : Option α} (h : ∀ a, o = some a → post a) :
    Gives (okOr e o) post := by
  cases o with
  | some a => exact gives_pure (h a rfl)
  | none => exact gives_throw e

theorem gives_bind {mid : α → Prop} {post : β → Prop} (hx : Gives x mid)
    (hf : ∀ a, mid a → Gives (f a) post) : Gives (x >>= f) post := by
  obtain ⟨r, hr, hmid⟩ := hx
  cases r with
  | error e => exact ⟨.error e, by rw [ExceptT.run_bind, hr]; rfl, fun _ h ↦ by cases h⟩
  | ok a =>
    obtain ⟨r', hr', hpost⟩ := hf a (hmid a rfl)
    exact ⟨r', by rw [ExceptT.run_bind, hr]; exact hr', hpost⟩

theorem gives_bind_lift {y : Checked α} {a : α} {post : β → Prop} (hy : y = .ok a)
    (hf : Gives (f a) post) : Gives ((liftM y : Parse α) >>= f) post := by
  obtain ⟨r, hr, h⟩ := hf
  exact ⟨r, by rw [run_bind_lift, hy]; exact hr, h⟩

theorem gives_ite {p : Prop} [Decidable p] {y : Parse α} (hx : p → Gives x post)
    (hy : ¬p → Gives y post) : Gives (if p then x else y) post := by
  split
  · next hp => exact hx hp
  · next hp => exact hy hp

variable {r : Rdr} {n off k : ℕ}

theorem gives_number? (h : off + k < 2 ^ 64) :
    Gives (number? r n off k) fun o ↦ o = r.number n (off + k) :=
  gives_bind_lift (add_of_lt h) (gives_pure rfl)

theorem gives_number {e : String} (h : off + k < 2 ^ 64) :
    Gives (number e r n off k) fun v ↦ r.number n (off + k) = some v :=
  gives_bind (gives_number? h) fun _ ho ↦ gives_okOr fun _ ha ↦ ho ▸ ha

end Gives

/-! ### Slices -/

/-- The `i`-th slice of a universal file, if its entry is in the file. -/
def archAt (r : Rdr) (i : ℕ) : Option FatArch := do
  let cputype ← r.number 4 (8 + i * 20)
  let off ← r.number 4 (8 + i * 20 + 8)
  let size ← r.number 4 (8 + i * 20 + 12)
  return { cputype, off, size }

/-- Among the first `n` slices that are inside the file, there is none that is preferred to the
`j`-th, and none before it that is not preferred less. -/
structure Chosen (r : Rdr) (n j : ℕ) (a : FatArch) : Prop where
  lt : j < n
  eq : archAt r j = some a
  fits : a.Fits r.b
  le : ∀ k < n, ∀ c, archAt r k = some c → c.Fits r.b → c.rank ≤ a.rank
  first : ∀ k < j, ∀ c, archAt r k = some c → c.Fits r.b → c.rank < a.rank

/-- What is kept in mind after `n` slices, if one for x64 has not been among them. -/
structure Fat.Kept (r : Rdr) (n : ℕ) (f : Fat) : Prop where
  chosen : ∀ a, f.best.or f.first = some a → ∃ j, Chosen r n j a
  noFit : f.best.or f.first = none → ∀ k < n, ∀ c, archAt r k = some c → ¬c.Fits r.b
  best : ∀ a, f.best = some a → a.rank = 1
  first : f.best = none → ∀ a, f.first = some a → a.rank = 0

variable {r : Rdr} {f : Fat} {a : FatArch} {n i j : ℕ}

theorem FatArch.rank_le (a : FatArch) : a.rank ≤ 2 := by
  unfold rank
  split_ifs <;> omega

theorem gives_fatArch (hi : i < 64) : Parse.Gives (fatArch r i) fun a ↦ archAt r i = some a := by
  refine gives_bind_lift (mul_of_lt (by omega)) (gives_bind_lift (add_of_lt (by omega)) ?_)
  refine gives_bind (gives_number (by omega)) fun cputype hcputype ↦ ?_
  refine gives_bind (gives_number (by omega)) fun off hoff ↦ ?_
  refine gives_bind (gives_number (by omega)) fun size hsize ↦ gives_pure ?_
  rw [Nat.add_zero] at hcputype
  simp [archAt, hcputype, hoff, hsize]

/-- A slice that is not usable changes nothing. -/
theorem Fat.Kept.skip (h : f.Kept r i) (ha : archAt r i = some a) (hfits : ¬a.Fits r.b) :
    f.Kept r (i + 1) where
  chosen c hc := by
    obtain ⟨j, hj⟩ := h.chosen c hc
    refine ⟨j, { hj with lt := Nat.lt_succ_of_lt hj.lt, le := fun k hk d hd hdfits ↦ ?_ }⟩
    rcases Nat.lt_succ_iff_lt_or_eq.1 hk with hk | rfl
    · exact hj.le k hk d hd hdfits
    · obtain rfl := Option.some.inj (ha.symm.trans hd)
      exact absurd hdfits hfits
  noFit hnone k hk d hd := by
    rcases Nat.lt_succ_iff_lt_or_eq.1 hk with hk | rfl
    · exact h.noFit hnone k hk d hd
    · obtain rfl := Option.some.inj (ha.symm.trans hd)
      exact hfits
  best := h.best
  first := h.first

/-- The slices before are preferred at most as much as the one that is kept. -/
theorem Fat.Kept.rank_le (h : f.Kept r i) {k : ℕ} (hk : k < i) {c : FatArch}
    (hc : archAt r k = some c) (hfits : c.Fits r.b) :
    ∃ d, f.best.or f.first = some d ∧ c.rank ≤ d.rank := by
  cases hd : f.best.or f.first with
  | none => exact absurd hfits (h.noFit hd k hk c hc)
  | some d =>
    obtain ⟨j, hj⟩ := h.chosen d hd
    exact ⟨d, rfl, hj.le k hk c hc hfits⟩

/-- A slice that becomes the best one is the chosen one. -/
theorem Fat.Kept.chosen_best (h : f.Kept r i) (ha : archAt r i = some a) (hfits : a.Fits r.b)
    (hrank : 0 < a.rank) (hbest : f.best = none ∨ a.rank = 2) : Chosen r (i + 1) i a := by
  have hbefore (k : ℕ) (hk : k < i) (c : FatArch) (hc : archAt r k = some c)
      (hcfits : c.Fits r.b) : c.rank < a.rank := by
    obtain ⟨d, hd, hle⟩ := h.rank_le hk hc hcfits
    cases hb : f.best with
    | none =>
      rw [hb, Option.none_or] at hd
      have := h.first hb d hd
      omega
    | some d' =>
      rw [hb, Option.some_or, Option.some.injEq] at hd
      have h1 := h.best d' hb
      have h2 := hbest.resolve_left (by simp [hb])
      rw [← hd] at hle
      omega
  refine ⟨Nat.lt_succ_self i, ha, hfits, fun k hk c hc hcfits ↦ ?_, hbefore⟩
  rcases Nat.lt_succ_iff_lt_or_eq.1 hk with hk | rfl
  · exact (hbefore k hk c hc hcfits).le
  · exact (congrArg FatArch.rank (Option.some.inj (hc.symm.trans ha))).le

theorem Fat.Kept.add_best (h : f.Kept r i) (ha : archAt r i = some a) (hfits : a.Fits r.b)
    (hrank : 0 < a.rank) (hbest : f.best = none) (h2 : a.rank ≠ 2) (first : Option FatArch) :
    Fat.Kept r (i + 1) { best := some a, first } where
  chosen c hc := by
    obtain rfl := Option.some.inj hc
    exact ⟨i, h.chosen_best ha hfits hrank (.inl hbest)⟩
  noFit hnone := by cases hnone
  best c hc := by
    obtain rfl := Option.some.inj hc
    have := a.rank_le
    omega
  first hnone := by cases hnone

theorem Fat.Kept.add_first (h : f.Kept r i) (ha : archAt r i = some a) (hfits : a.Fits r.b)
    (hno : ¬(0 < a.rank ∧ (f.best = none ∨ a.rank = 2))) :
    Fat.Kept r (i + 1) { f with first := f.first.or (some a) } := by
  have ha2 := a.rank_le
  cases hd : f.best.or f.first with
  | some d =>
    have hkeep : f.best.or (f.first.or (some a)) = some d := by
      rw [← Option.or_assoc, hd, Option.some_or]
    obtain ⟨j, hj⟩ := h.chosen d hd
    have hle : a.rank ≤ d.rank := by
      cases hb : f.best with
      | none =>
        rw [hb, eq_self_iff_true, true_or, and_true] at hno
        omega
      | some d' =>
        rw [hb, Option.some_or, Option.some.injEq] at hd
        have h1 := h.best d' hb
        have h2 : a.rank ≠ 2 := fun h2 ↦ hno ⟨by omega, .inr h2⟩
        rw [← hd]
        omega
    refine ⟨fun c hc ↦ ⟨j, ?_⟩, fun hnone ↦ ?_, h.best, fun hnone c hc ↦ ?_⟩
    · obtain rfl := Option.some.inj (hkeep.symm.trans hc)
      refine { hj with lt := Nat.lt_succ_of_lt hj.lt, le := fun k hk c hc hcfits ↦ ?_ }
      rcases Nat.lt_succ_iff_lt_or_eq.1 hk with hk | rfl
      · exact hj.le k hk c hc hcfits
      · exact (congrArg FatArch.rank (Option.some.inj (hc.symm.trans ha))).le.trans hle
    · exact absurd (hkeep.symm.trans hnone) (by simp)
    · dsimp only at hnone hc
      rw [hnone, Option.none_or] at hd
      rw [hd, Option.some_or] at hc
      exact h.first hnone c (hd.trans hc)
  | none =>
    obtain ⟨hb, hf⟩ := Option.or_eq_none_iff.1 hd
    have hrank : a.rank = 0 := by
      rw [hb, eq_self_iff_true, true_or, and_true] at hno
      omega
    have hchosen : Chosen r (i + 1) i a := by
      have hbefore := h.noFit hd
      refine ⟨Nat.lt_succ_self i, ha, hfits, fun k hk c hc hcfits ↦ ?_, fun k hk c hc hcfits ↦ ?_⟩
      · rcases Nat.lt_succ_iff_lt_or_eq.1 hk with hk | rfl
        · exact absurd hcfits (hbefore k hk c hc)
        · exact (congrArg FatArch.rank (Option.some.inj (hc.symm.trans ha))).le
      · exact absurd hcfits (hbefore k hk c hc)
    refine ⟨fun c hc ↦ ⟨i, ?_⟩, fun hnone ↦ ?_, h.best, fun hnone c hc ↦ ?_⟩
    · rw [hb, hf, Option.none_or, Option.none_or] at hc
      exact Option.some.inj hc ▸ hchosen
    · rw [hb, hf, Option.none_or, Option.none_or] at hnone
      cases hnone
    · rw [hf, Option.none_or] at hc
      exact Option.some.inj hc ▸ hrank

/-- What is kept when the loop has ended. -/
theorem gives_fatFrom (hn : i + n ≤ 64) (h : f.Kept r i) :
    Parse.Gives (fatFrom r n i f) fun f' ↦
      f'.Kept r (i + n) ∨ ∃ a j, f'.best = some a ∧ Chosen r (i + n) j a := by
  induction n generalizing i f with
  | zero => exact gives_pure (.inl h)
  | succ n ih =>
    refine gives_bind (gives_fatArch (by omega)) fun a ha ↦ ?_
    have hnext {f' : Fat} (h' : f'.Kept r (i + 1)) : Parse.Gives (fatFrom r n (i + 1) f')
        fun f' ↦ f'.Kept r (i + (n + 1)) ∨
          ∃ a j, f'.best = some a ∧ Chosen r (i + (n + 1)) j a := by
      rw [show i + (n + 1) = i + 1 + n by omega]
      exact ih (by omega) h'
    refine gives_ite (fun hfits ↦ gives_ite (fun hbest ↦ gives_ite (fun h2 ↦ ?_) fun h2 ↦ ?_)
      fun hno ↦ ?_) fun hfits ↦ hnext (h.skip ha hfits)
    · -- Nothing behind this slice is preferred to it.
      have hc := h.chosen_best ha hfits hbest.1 hbest.2
      refine gives_pure (.inr ⟨a, i, rfl, hc.lt.trans_le (by omega), ha, hfits, fun _ _ c _ _ ↦ ?_,
        hc.first⟩)
      exact c.rank_le.trans h2.ge
    · exact hnext (h.add_best ha hfits hbest.1 (hbest.2.resolve_right h2) h2 _)
    · exact hnext (h.add_first ha hfits hno)

/-- The slice that is selected is one of those that are preferred most, and the first of them. -/
theorem gives_selectFatSlice (b : Slice) : Parse.Gives (selectFatSlice b) fun a ↦
    ∃ n j, Elf.Rdr.number ⟨b, false⟩ 4 4 = some n ∧ n ≤ 64 ∧ Chosen ⟨b, false⟩ n j a := by
  refine gives_bind (gives_number (by decide)) fun n hn ↦ ?_
  dsimp only
  refine gives_ite (fun _ ↦ gives_throw _) fun hsmall ↦ ?_
  have hsmall : n ≤ 64 := by omega
  have hstart : Fat.Kept ⟨b, false⟩ 0 {} :=
    ⟨fun _ h ↦ (by cases h), fun _ _ hk ↦ absurd hk (Nat.not_lt_zero _), fun _ h ↦ (by cases h),
      fun _ _ h ↦ (by cases h)⟩
  refine gives_bind (gives_fatFrom (by omega) hstart) fun f hf ↦ gives_okOr fun a ha ↦ ?_
  rw [Nat.zero_add] at hf
  rcases hf with hkept | ⟨a', j, hbest, hchosen⟩
  · obtain ⟨j, hj⟩ := hkept.chosen a ha
    exact ⟨n, j, hn, hsmall, hj⟩
  · rw [hbest, Option.some_or, Option.some.injEq] at ha
    exact ⟨n, j, hn, hsmall, ha ▸ hchosen⟩

/-! ### Load commands -/

variable {h : Header} {c : Cmds} {sliceOff off cmd cmdsEnd : ℕ}

/-- What holds of the segments after some load commands. -/
structure Cmds.Good (n : ℕ) (c : Cmds) : Prop where
  length_le : c.segments.length ≤ n
  mapped : ∀ s ∈ c.segments, Mapped s
  base_eq : c.base = c.segments.head?.map Segment.rva

theorem Cmds.Good.mono {n m : ℕ} (hc : c.Good n) (hnm : n ≤ m) : c.Good m :=
  ⟨hc.length_le.trans hnm, hc.mapped, hc.base_eq⟩

theorem Cmds.Good.push {n : ℕ} (hc : c.Good n) {seg : Segment} (hseg : Mapped seg) :
    (c.push seg).Good (n + 1) where
  length_le := by
    have := hc.length_le
    simp only [Cmds.push, List.length_append, List.length_singleton]
    omega
  mapped s hs := by
    rcases List.mem_append.1 hs with hs | hs
    · exact hc.mapped s hs
    · exact List.mem_singleton.1 hs ▸ hseg
  base_eq := by
    have hbase := hc.base_eq
    rw [Cmds.push, hbase]
    cases c.segments <;> rfl

/-- The fields that do not tell of segments do not matter. -/
theorem Cmds.Good.congr {n : ℕ} {c' : Cmds} (hc : c.Good n) (hsegments : c'.segments = c.segments)
    (hbase : c'.base = c.base) : c'.Good n :=
  ⟨hsegments ▸ hc.length_le, hsegments ▸ hc.mapped, by rw [hsegments, hbase, hc.base_eq]⟩

theorem gives_segmentAt (hoff : off < 2 ^ 63) (seg64 : Bool) :
    Parse.Gives (segmentAt h sliceOff off seg64) fun _ ↦ True := by
  have hlen := h.r.b.length_lt
  refine gives_bind_lift (add_of_lt (by omega)) ?_
  refine gives_bind_lift (rdCstr_eq (by omega) _ _) ?_
  cases seg64 with
  | false =>
    refine gives_bind (gives_number (by omega)) fun _ _ ↦ ?_
    refine gives_bind (gives_number (by omega)) fun _ _ ↦ ?_
    refine gives_bind (gives_number (by omega)) fun _ _ ↦ ?_
    refine gives_bind (gives_number (by omega)) fun _ _ ↦ ?_
    refine gives_bind_lift (add_of_lt (by omega)) ?_
    exact gives_bind (gives_number? (by omega)) fun _ _ ↦ gives_pure trivial
  | true =>
    refine gives_bind (gives_number (by omega)) fun _ _ ↦ ?_
    refine gives_bind (gives_number (by omega)) fun _ _ ↦ ?_
    refine gives_bind (gives_number (by omega)) fun _ _ ↦ ?_
    refine gives_bind (gives_number (by omega)) fun _ _ ↦ ?_
    refine gives_bind_lift (add_of_lt (by omega)) ?_
    exact gives_bind (gives_number? (by omega)) fun _ _ ↦ gives_pure trivial

theorem gives_command {n : ℕ} (hoff : off < 2 ^ 63) (hc : c.Good n) :
    Parse.Gives (command h sliceOff off cmd c) (Cmds.Good (n + 1)) := by
  have hmore : c.Good (n + 1) := hc.mono (Nat.le_succ n)
  refine gives_ite (fun _ ↦ ?_) fun _ ↦ gives_ite (fun _ ↦ ?_) fun _ ↦ gives_ite (fun _ ↦ ?_)
    fun _ ↦ gives_ite (fun _ ↦ gives_ite (fun _ ↦ ?_) fun _ ↦ gives_ite (fun _ ↦ ?_) fun _ ↦ ?_)
      fun _ ↦ gives_pure hmore
  · refine gives_bind (gives_segmentAt hoff _) fun seg _ ↦ gives_pure ?_
    split
    · next hseg => exact hc.push hseg
    · exact hmore
  · refine gives_bind (gives_number (by omega)) fun _ _ ↦ ?_
    refine gives_bind (gives_number (by omega)) fun _ _ ↦ ?_
    refine gives_bind (gives_number (by omega)) fun _ _ ↦ ?_
    exact gives_bind (gives_number (by omega)) fun _ _ ↦ gives_pure (hmore.congr rfl rfl)
  · exact gives_bind (gives_number? (by omega)) fun _ _ ↦ gives_pure (hmore.congr rfl rfl)
  · exact gives_bind (gives_number? (by omega)) fun _ _ ↦ gives_pure (hmore.congr rfl rfl)
  · exact gives_bind (gives_number? (by omega)) fun _ _ ↦ gives_pure (hmore.congr rfl rfl)
  · exact gives_pure hmore

theorem gives_commandsFrom {k n : ℕ} (hend : cmdsEnd < 2 ^ 63) (hc : c.Good k) :
    Parse.Gives (commandsFrom h sliceOff cmdsEnd n off c) (Cmds.Good (k + n)) := by
  induction n generalizing k off c with
  | zero => exact gives_pure hc
  | succ n ih =>
    have hmore : c.Good (k + (n + 1)) := hc.mono (Nat.le_add_right _ _)
    refine gives_ite (fun _ ↦ gives_pure hmore) fun hoff ↦ ?_
    have hoff : off + 8 ≤ cmdsEnd := by
      rw [satAdd] at hoff
      omega
    refine gives_bind (gives_number (by omega)) fun cmd _ ↦ ?_
    refine gives_bind (gives_number (by omega)) fun cmdsize _ ↦ ?_
    refine gives_ite (fun _ ↦ gives_pure hmore) fun hsize ↦ ?_
    have hsize : off + cmdsize ≤ cmdsEnd := by
      rw [satAdd] at hsize
      omega
    refine gives_bind (gives_command (by omega) hc) fun c' hc' ↦ ?_
    refine gives_bind_lift (add_of_lt (by omega)) ?_
    rw [show k + (n + 1) = k + 1 + n by omega]
    exact ih hc'

/-! ### The file -/

theorem mem_of_magic {m : ℕ} {p : Bool × Bool} (hm : magic m = some p) :
    m ∈ [mhMagic64, mhCigam64, mhMagic32, mhCigam32] := by
  unfold magic at hm
  split_ifs at hm with h1 h2 h3 h4 <;> simp [*]

/-- The file starts like a universal one. -/
def isFat (b : Slice) : Bool :=
  (b.get 0 4).any fun s ↦ ofBE s.bytes ∈ [fatMagic, fatCigam]

/-- The slice that is looked at starts where the chosen one does, or where the file does. -/
structure IsSlice (b : Slice) (off : ℕ) (s : Slice) : Prop where
  bytes_eq : s.bytes = b.bytes.drop off
  fat : isFat b = true → ∃ n j a, Elf.Rdr.number ⟨b, false⟩ 4 4 = some n ∧ n ≤ 64 ∧
    Chosen ⟨b, false⟩ n j a ∧ a.off = off
  thin : isFat b = false → off = 0

theorem bytes_of_get {b s : Slice} (hs : b.get off b.bytes.length = some s) :
    s.bytes = b.bytes.drop off := by
  unfold Slice.get at hs
  split at hs
  · obtain rfl := Option.some.inj hs
    dsimp only
    rw [← List.length_drop, List.take_length]
  · cases hs

theorem gives_sliceOf (b : Slice) : Parse.Gives (sliceOf b) fun p ↦ IsSlice b p.1 p.2 := by
  refine gives_bind (gives_okOr fun head hhead ↦ hhead) fun head hhead ↦ ?_
  have hfat : isFat b = decide (ofBE head.bytes ∈ [fatMagic, fatCigam]) := by
    rw [isFat, hhead, Option.any_some]
  refine gives_bind (?_ : Parse.Gives _ fun off ↦
    (isFat b = true → ∃ n j a, Elf.Rdr.number ⟨b, false⟩ 4 4 = some n ∧ n ≤ 64 ∧
      Chosen ⟨b, false⟩ n j a ∧ a.off = off) ∧ (isFat b = false → off = 0)) fun off hoff ↦ ?_
  · refine gives_ite (fun hmagic ↦ ?_) fun hmagic ↦ gives_pure ⟨fun h ↦ ?_, fun _ ↦ rfl⟩
    · refine gives_bind (gives_selectFatSlice b) fun a ⟨n, j, hn, hsmall, ha⟩ ↦ gives_pure ?_
      refine ⟨fun _ ↦ ⟨n, j, a, hn, hsmall, ha, rfl⟩, fun h ↦ ?_⟩
      rw [hfat, decide_eq_false_iff_not] at h
      exact absurd hmagic h
    · rw [hfat, decide_eq_true_eq] at h
      exact absurd h hmagic
  · exact gives_bind (gives_okOr fun s hs ↦ hs) fun s hs ↦
      gives_pure ⟨bytes_of_get hs, hoff.1, hoff.2⟩

theorem gives_header (s : Slice) : Parse.Gives (header s) fun h ↦ h.r.b = s ∧ h.ncmds ≤ 0x4000 ∧
    ∃ raw, s.get 0 4 = some raw ∧ magic (ofLE raw.bytes) = some (h.is64, h.r.le) := by
  refine gives_bind (gives_okOr fun raw hraw ↦ hraw) fun raw hraw ↦ ?_
  refine gives_bind (gives_okOr fun p hp ↦ hp) fun p hp ↦ ?_
  refine gives_bind (gives_number (by decide)) fun _ _ ↦ ?_
  refine gives_bind (gives_number (by decide)) fun _ _ ↦ ?_
  refine gives_bind (gives_number (by decide)) fun ncmds _ ↦ ?_
  refine gives_bind (gives_number (by decide)) fun _ _ ↦ ?_
  exact gives_ite (fun _ ↦ gives_throw _) fun hsmall ↦
    gives_pure ⟨rfl, not_lt.1 hsmall, raw, hraw, hp⟩

/-- What holds of what is read before the entry and the symbols. -/
structure Loaded.Valid (b : Slice) (l : Loaded) : Prop where
  slice : IsSlice b l.sliceOff l.header.r.b
  isMacho : isMacho b = true
  good : l.cmds.Good 0x4000
  base : l.cmds.base = some l.base

theorem gives_load (b : Slice) : Parse.Gives (load b) (Loaded.Valid b) := by
  refine gives_bind (gives_sliceOf b) fun ⟨sliceOff, s⟩ hs ↦ ?_
  dsimp only at hs ⊢
  refine gives_bind (gives_header s) fun h ⟨hb, hncmds, raw, hraw, hmagic⟩ ↦ ?_
  have hend : h.cmdsEnd < 2 ^ 63 := by
    have := h.r.b.length_lt
    rw [Header.cmdsEnd]
    omega
  have hstart : Cmds.Good 0 {} := ⟨Nat.le_refl 0, fun _ h ↦ absurd h List.not_mem_nil, rfl⟩
  refine gives_bind (gives_commandsFrom hend hstart) fun c hc ↦ ?_
  refine gives_bind (gives_okOr fun base hbase ↦ hbase) fun base hbase ↦ ?_
  refine gives_ite (fun _ ↦ gives_throw _) fun _ ↦ gives_pure ?_
  refine ⟨hb.symm ▸ hs, ?_, hc.mono (by omega), hbase⟩
  cases hfat : isFat b with
  | true =>
    obtain ⟨head, hhead, hmem⟩ := (Option.any_eq_true ..).1 hfat
    rw [Macho.isMacho, hhead]
    exact Bool.or_eq_true_iff.2 (.inl hmem)
  | false =>
    -- The slice is the file, and its header has been read.
    have hbs : s = b := by
      have hbytes := hs.bytes_eq
      rw [hs.thin hfat, List.drop_zero] at hbytes
      cases s
      cases b
      simpa using hbytes
    rw [Macho.isMacho, ← hbs, hraw]
    exact Bool.or_eq_true_iff.2 (.inr (decide_eq_true (mem_of_magic hmagic)))

namespace Loaded

variable {l : Loaded} {t : Symtab}

theorem length_strs (l : Loaded) (t : Symtab) : (l.strs t).length < 2 ^ 64 := by
  have := (((l.header.r.b.get (min t.stroff l.header.r.b.bytes.length)
    (min (satAdd t.stroff t.strsize) l.header.r.b.bytes.length)).getD .nil)).length_lt
  exact this.trans (by decide)

theorem symbolAt_ok {strs : List UInt8} {e : ℕ} (hstrs : strs.length < 2 ^ 64) (he : e < 2 ^ 63) :
    ∃ o, l.symbolAt strs e = .ok o := by
  unfold symbolAt Elf.Rdr.field
  dsimp only
  rw [add_of_lt (by omega), ok_bind, add_of_lt (by omega), ok_bind, pure_bind]
  generalize (l.header.r.number (if l.header.is64 = true then 8 else 4) (e + 8)).getD 0 = value
  split_ifs
  · exact ⟨none, rfl⟩
  · rw [rdCstr_eq hstrs, ok_bind]
    split
    · split_ifs
      · exact ⟨none, rfl⟩
      · exact ⟨some _, rfl⟩
    · exact ⟨none, rfl⟩

theorem symbolsFrom_ok (n i : ℕ) : ∃ out, l.symbolsFrom t n i = .ok out ∧ out.length ≤ n := by
  induction n generalizing i with
  | zero => exact ⟨[], rfl, Nat.le_refl 0⟩
  | succ n ih =>
    rw [symbolsFrom]
    split
    · exact ⟨[], rfl, Nat.zero_le _⟩
    · next he =>
      have hlen := l.header.r.b.length_lt
      obtain ⟨o, ho⟩ := l.symbolAt_ok (e := satAdd t.symoff (min (i * l.nlist) (2 ^ 64 - 1)))
        (l.length_strs t) (by
          rw [satAdd] at he
          omega)
      obtain ⟨rest, hrest, hle⟩ := ih (i + 1)
      rw [ho, ok_bind, hrest, ok_bind]
      refine ⟨o.toList ++ rest, rfl, ?_⟩
      rw [List.length_append]
      cases o with
      | none => exact (Nat.zero_add _).le.trans (hle.trans (Nat.le_succ n))
      | some s => exact (Nat.add_comm 1 _).le.trans (Nat.succ_le_succ hle)

theorem exports_ok (l : Loaded) : ∃ out, l.exports = .ok out ∧ out.length ≤ 2000000 := by
  unfold exports
  cases l.cmds.symtab with
  | none => exact ⟨[], rfl, Nat.zero_le _⟩
  | some t =>
    obtain ⟨out, hout, hle⟩ := symbolsFrom_ok (l := l) (t := t) (min t.nsyms 2000000) 0
    exact ⟨out, hout, hle.trans (Nat.min_le_right _ _)⟩

/-- The place of the entry in its segment is an address. -/
def EntryFits (l : Loaded) : Prop :=
  ∀ fo s, l.cmds.entryFileOff = some fo → l.covering (satAdd fo l.sliceOff) = some s →
    s.rva + (satAdd fo l.sliceOff - s.fileOff) < 2 ^ 64

theorem of_covering {fo : ℕ} {s : Segment} (h : l.covering fo = some s) :
    s ∈ l.segments ∧ s.fileOff ≤ fo ∧ fo < s.fileOff + s.fileSize := by
  have hs := List.find?_some h
  rw [Bool.and_eq_true, decide_eq_true_eq, decide_eq_true_eq, satAdd] at hs
  exact ⟨List.mem_of_find?_eq_some h, hs.1, by omega⟩

theorem safe_entry_iff : Safe l.entry ↔ l.EntryFits := by
  unfold entry EntryFits
  cases hfo : l.cmds.entryFileOff with
  | none => exact iff_of_true (safe_pure _) fun _ _ h ↦ by cases h
  | some fo =>
    dsimp only
    cases hs : l.covering (satAdd fo l.sliceOff) with
    | none =>
      refine iff_of_true (safe_pure _) fun fo' s h hs' ↦ ?_
      obtain rfl := Option.some.inj h
      cases hs.symm.trans hs'
    | some s =>
      dsimp only
      rw [sub_of_le (of_covering hs).2.1, ok_bind]
      constructor
      · rintro ⟨v, hv⟩ fo' s' h hs'
        obtain rfl := Option.some.inj h
        obtain rfl := Option.some.inj (hs.symm.trans hs')
        exact (add_eq_ok.1 hv).1
      · exact fun h ↦ ⟨_, add_of_lt (h fo s rfl hs)⟩

/-- The entry that `LC_MAIN` gives is in a segment. -/
theorem entry_mem {fo v : ℕ} (h : l.entry = .ok v) (hfo : l.cmds.entryFileOff = some fo) :
    v = 0 ∨ ∃ s ∈ l.segments, s.rva ≤ v ∧ v < s.rva + s.fileSize := by
  unfold entry at h
  rw [hfo] at h
  dsimp only at h
  cases hs : l.covering (satAdd fo l.sliceOff) with
  | none =>
    rw [hs] at h
    exact .inl (Except.ok.inj h).symm
  | some s =>
    obtain ⟨hmem, hle, hlt⟩ := of_covering hs
    rw [hs] at h
    dsimp only at h
    rw [sub_of_le hle, ok_bind, add_eq_ok] at h
    exact .inr ⟨s, hmem, by omega, by omega⟩

theorem le_imageSize {s : Segment} (hs : s ∈ l.segments) : satAdd s.rva s.vsize ≤ l.imageSize := by
  have hfold : ∀ (segs : List Segment) (m : ℕ), m ≤ segs.foldl
      (fun size s ↦ max size (satAdd s.rva s.vsize)) m ∧ ∀ s ∈ segs, satAdd s.rva s.vsize ≤
        segs.foldl (fun size s ↦ max size (satAdd s.rva s.vsize)) m := by
    intro segs
    induction segs with
    | nil => exact fun m ↦ ⟨le_rfl, fun _ h ↦ absurd h List.not_mem_nil⟩
    | cons s segs ih =>
      intro m
      obtain ⟨hle, hall⟩ := ih (max m (satAdd s.rva s.vsize))
      refine ⟨(le_max_left _ _).trans hle, fun s' hs' ↦ ?_⟩
      rcases List.mem_cons.1 hs' with rfl | hs'
      · exact (le_max_right _ _).trans hle
      · exact hall s' hs'
  exact (hfold _ _).2 s hs

end Loaded

/-- What is found of a file is well formed. -/
structure Sound (m : BinaryMeta) : Prop where
  first : ∃ s rest, m.segments = s :: rest ∧ s.rva = 0
  length_le : m.segments.length ≤ 0x4000
  mapped : ∀ s ∈ m.segments, Mapped s
  le_imageSize : ∀ s ∈ m.segments, satAdd s.rva s.vsize ≤ m.imageSize
  exports_le : m.exports.length ≤ 2000000

theorem Loaded.Valid.first {b : Slice} {l : Loaded} (hl : l.Valid b) :
    ∃ s rest, l.segments = s :: rest ∧ s.rva = 0 := by
  have hbase := hl.good.base_eq.symm.trans hl.base
  obtain ⟨s, hs, hrva⟩ := Option.map_eq_some_iff.1 hbase
  obtain ⟨rest, hrest⟩ := List.head?_eq_some_iff.1 hs
  refine ⟨{ s with rva := s.rva - l.base }, _, congrArg (List.map _) hrest, ?_⟩
  rw [hrva, Nat.sub_self]

/-- What is known of a file that is loaded, with its entry and its symbols. -/
theorem run_parse {b : Slice} {l : Loaded} (hl : (load b).run = .ok (.ok l)) :
    (parse b).run = l.toMeta >>= fun m ↦ .ok (.ok m) := by
  rw [parse, ExceptT.run_bind, hl, ok_bind]
  dsimp only
  cases l.toMeta <;> rfl

theorem safe_toMeta_iff {l : Loaded} : Safe l.toMeta ↔ l.EntryFits := by
  obtain ⟨exports, hexports, -⟩ := l.exports_ok
  rw [Loaded.toMeta, hexports, ← Loaded.safe_entry_iff, safe_bind]
  exact ⟨fun ⟨v, hv, _⟩ ↦ ⟨v, hv⟩, fun ⟨v, hv⟩ ↦ ⟨v, hv, _, rfl⟩⟩

theorem safe_macho_iff (b : Slice) :
    Safe (parse b).run ↔ ∀ l, (load b).run = .ok (.ok l) → l.EntryFits := by
  obtain ⟨r, hr, -⟩ := gives_load b
  cases r with
  | error e =>
    have hrun : (parse b).run = .ok (.error e) := by
      rw [parse, ExceptT.run_bind, hr]
      rfl
    refine iff_of_true ⟨_, hrun⟩ fun l hl ↦ ?_
    cases hr.symm.trans hl
  | ok l =>
    rw [run_parse hr, safe_bind]
    constructor
    · rintro ⟨m, hm, -⟩ l' hl'
      obtain rfl := Except.ok.inj (Except.ok.inj (hr.symm.trans hl'))
      exact safe_toMeta_iff.1 ⟨m, hm⟩
    · intro h
      obtain ⟨m, hm⟩ := safe_toMeta_iff.2 (h l hr)
      exact ⟨m, hm, safe_ok _⟩

/-- A file is parsed or refused without a fault if and only if the place of its entry in a segment
is an address. What is parsed has been recognized before, and is well formed; the entry of a program
is in one of its segments. -/
theorem parse_spec (b : Slice) :
    (Safe (parse b).run ↔ ∀ l, (load b).run = .ok (.ok l) → l.EntryFits) ∧
      ∀ m, (parse b).run = .ok (.ok m) → isMacho b = true ∧ Sound m ∧
        ∃ l, (load b).run = .ok (.ok l) ∧ m.segments = l.segments ∧
          ∀ fo, l.cmds.entryFileOff = some fo →
            m.entry = 0 ∨ ∃ s ∈ m.segments, s.rva ≤ m.entry ∧ m.entry < s.rva + s.fileSize := by
  refine ⟨safe_macho_iff b, fun m hm ↦ ?_⟩
  obtain ⟨r, hr, hvalid⟩ := gives_load b
  cases r with
  | error e =>
    rw [parse, ExceptT.run_bind, hr] at hm
    cases hm
  | ok l =>
    have hl := hvalid l rfl
    rw [run_parse hr, Loaded.toMeta, bind_eq_ok] at hm
    obtain ⟨m', hm', hm⟩ := hm
    obtain rfl := Except.ok.inj (Except.ok.inj hm)
    obtain ⟨v, hv, hm'⟩ := bind_eq_ok.1 hm'
    obtain ⟨exports, hexports, hle⟩ := l.exports_ok
    rw [hexports, ok_bind] at hm'
    obtain rfl := Except.ok.inj hm'
    refine ⟨hl.isMacho, ⟨hl.first, ?_, fun s hs ↦ ?_, fun s ↦ Loaded.le_imageSize, hle⟩, l, hr, rfl,
      fun fo hfo ↦ Loaded.entry_mem hv hfo⟩
    · exact (List.length_map _).trans_le hl.good.length_le
    · obtain ⟨s', hs', rfl⟩ := List.mem_map.1 hs
      exact hl.good.mapped s' hs'

end Macho

end Ldu
