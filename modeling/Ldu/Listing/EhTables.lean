import Ldu.Listing.PeTables

/-!
# The exception handlers of a PE image

A record of the exception directory leads to the unwind data of its function, and behind that is
what its handler uses: a scope table (`sehScopes`), or the tables of version 3 (`cppTries3`) or 4
(`cppTries4`) of the C++ frame handler. They are tried one after the other, and what fails the
checks of one is left to the next. All three are found at addresses that the tables themselves
give.

A table of version 3 is read as far as it goes, one of version 4 as a whole or not at all. The
names of types in them are turned into C++ names, and a name that is only a tag throws
(`peDemangleType`): `substr` is asked for what is behind the end.
-/

namespace Ldu

namespace Listing

open Checked Exits

/-! ### What is recovered -/

structure SehScope where
  begin : UInt32
  stop : UInt32
  filter : UInt32
  target : UInt32

/-- A handler; `type` is empty where all exceptions are caught. -/
structure CppCatch where
  type : List UInt8 := []
  handler : UInt32
  byRef : Bool := false

/-- The number as a signed one. -/
def toInt32 (n : UInt32) : ℤ :=
  if n.toNat < 2 ^ 31 then n.toNat else n.toNat - 2 ^ 32

structure CppTry where
  low : ℤ
  high : ℤ
  catches : List CppCatch

structure EHInfo where
  seh : List SehScope := []
  cpp : List CppTry := []

def EHInfo.any (info : EHInfo) : Bool :=
  !info.seh.isEmpty || !info.cpp.isEmpty

structure PeTables where
  reloc64 : List ℕ
  pdata : List RuntimeFunction
  eh : List (UInt32 × EHInfo)

namespace PeTables

variable (t : PeTables)

def hasReloc : Bool :=
  !t.reloc64.isEmpty

def hasPdata : Bool :=
  !t.pdata.isEmpty

end PeTables

/-! ### Names of types -/

/-- `.?A` -/
def typeTag : List UInt8 := [0x2E, 0x3F, 0x41]

/-- The parts of a name, the innermost first, as a C++ name: `.?AVexception@std@@` is
`std::exception`. -/
def peDemangleType (raw : List UInt8) : Exits (List UInt8) := do
  let s ←
    if typeTag <+: raw then
      if raw.length < 4 then throw .thrown else pure (raw.drop 4)
    else pure raw
  let s := if [0x40, 0x40] <:+ s then s.take (s.length - 2) else s
  let parts := (s.splitOn 0x40).filter (· ≠ [])
  return if parts = [] then raw else List.intercalate [0x3A, 0x3A] parts.reverse

namespace Loaded

variable (e : Loaded)

/-- The name in a type descriptor, at most 512 bytes of it. -/
def typeName (descriptor : UInt32) : Exits (List UInt8) :=
  collect (fun j ↦ do
    let b ← e.peRdU8 (descriptor.toNat + 16 + j)
    if b = 0 then throw .missing else return b) 512 0

/-! ### Scope tables -/

def sehScope (rf : RuntimeFunction) (rec : ℕ) : Exits (SehScope × ℕ) := do
  let begin ← e.peRdU32 rec
  let stop ← e.peRdU32 (rec + 4)
  let filter ← e.peRdU32 (rec + 8)
  let target ← e.peRdU32 (rec + 12)
  if rf.begin ≤ begin ∧ stop ≤ rf.stop ∧ begin < stop then
    return ({ begin, stop, filter, target }, rec + 16)
  else throw .missing

/-- The table of `__C_specific_handler`: all scopes are inside the function. -/
def sehScopes (rf : RuntimeFunction) (data : ℕ) : Exits (List SehScope) := do
  let scount ← e.peRdU32 data
  if 1 ≤ scount ∧ scount ≤ 64 then
    let r ← times (e.sehScope rf) scount.toNat (data + 4)
    return r.1
  else throw .missing

/-! ### Version 3 of the C++ frame handler -/

def cppCatch3 (ho : ℕ) : Exits CppCatch := do
  let _adj ← e.peRdU32 ho
  let pType ← e.peRdU32 (ho + 4)
  let handler ← e.peRdU32 (ho + 12)
  if pType = 0 then return { handler }
  else do
    let type ← peDemangleType (← e.typeName pType)
    return { type, handler }

def cppTry3 (entry : ℕ) : Exits CppTry := do
  let tl ← e.peRdU32 entry
  let th ← e.peRdU32 (entry + 4)
  let _ch ← e.peRdU32 (entry + 8)
  let nc ← e.peRdU32 (entry + 12)
  let pha ← e.peRdU32 (entry + 16)
  let catches ←
    if pha = 0 then pure []
    else collect (fun ci ↦ e.cppCatch3 (pha.toNat + ci * 20)) (min nc.toNat 32) 0
  return { low := toInt32 tl, high := toInt32 th, catches }

def magic3 : List UInt32 :=
  [0x19930520, 0x19930521, 0x19930522]

def cppTries3 (data : ℕ) : Exits (List CppTry) := do
  let fi ← e.peRdU32 data
  if fi = 0 then return []
  else do
    let magic ← e.peRdU32 fi.toNat
    if magic ∈ magic3 then
      let nTry := (← attempt (e.peRdU32 (fi + 12).toNat)).getD 0
      let pTry := (← attempt (e.peRdU32 (fi + 16).toNat)).getD 0
      if pTry = 0 then return []
      else collect (fun ti ↦ e.cppTry3 (pTry.toNat + ti * 20)) (min nTry.toNat 64) 0
    else return []

/-! ### Version 4 of the C++ frame handler -/

/-- A number of four bytes and the address behind it. -/
def rdDisp (p : ℕ) : OptionT Checked (UInt32 × ℕ) := do
  let v ← e.peRdU32 p
  return (v, p + 4)

/-- A field that is there if a bit of the header is set; otherwise it is zero. -/
def field (present : Bool) (rd : ℕ → OptionT Checked (UInt32 × ℕ)) (p : ℕ) :
    OptionT Checked (UInt32 × ℕ) :=
  if present then rd p else return (0, p)

def cppCatch4 (hp : ℕ) : Exits (CppCatch × ℕ) := do
  let h ← e.peRdU8 hp
  let (adj, hp) ← field (h &&& 0x01 ≠ 0) e.peRdFh4uint (hp + 1)
  let (dispType, hp) ← field (h &&& 0x02 ≠ 0) e.rdDisp hp
  let (_, hp) ← field (h &&& 0x04 ≠ 0) e.peRdFh4uint hp
  let (handler, hp) ← e.rdDisp hp
  let (_, hp) ← field (h &&& 0x08 ≠ 0) e.peRdFh4uint hp
  let (_, hp) ← field (h &&& 0x10 ≠ 0) e.peRdFh4uint hp
  let (_, hp) ← field (h &&& 0x20 ≠ 0) e.peRdFh4uint hp
  if dispType = 0 then return ({ handler }, hp)
  else if e.rvaIsMapped dispType.toNat then
    let nm ← e.typeName dispType
    if typeTag <+: nm then
      let type ← peDemangleType nm
      return ({ type, handler, byRef := adj &&& 0x08 ≠ 0 }, hp)
    else throw .missing
  else throw .missing

def cppTry4 (tp : ℕ) : Exits (CppTry × ℕ) := do
  let (tl, tp) ← e.peRdFh4uint tp
  let (th, tp) ← e.peRdFh4uint tp
  let (_, tp) ← e.peRdFh4uint tp
  let (dha, tp) ← e.rdDisp tp
  if e.rvaIsMapped dha.toNat then
    let (nC, hp) ← e.peRdFh4uint dha.toNat
    if nC ≤ 32 then
      let r ← times e.cppCatch4 nC.toNat hp
      return ({ low := toInt32 tl, high := toInt32 th, catches := r.1 }, tp)
    else throw .missing
  else throw .missing

/-- Where the table of tries is, from the header of the function at `fi`. -/
def dispTryMap (fi : UInt32) : OptionT Checked UInt32 := do
  let hdr ← e.peRdU8 fi.toNat
  guard (hdr &&& 0x80 = 0)
  let (_, p) ← field (hdr &&& 0x04 ≠ 0) e.peRdFh4uint (fi + 1).toNat
  let p := if hdr &&& 0x08 ≠ 0 then p + 4 else p
  let (dispTry, p) ← field (hdr &&& 0x10 ≠ 0) e.rdDisp p
  let _dispIP ← e.rdDisp p
  return dispTry

def cppTries4 (data : ℕ) : Exits (List CppTry) := do
  let fi ← e.peRdU32 data
  if fi ≠ 0 ∧ e.rvaIsMapped fi.toNat ∧ ¬e.rvaIsExec fi.toNat then
    let dispTry ← e.dispTryMap fi
    if dispTry ≠ 0 ∧ e.rvaIsMapped dispTry.toNat then
      let (nTry, tp) ← e.peRdFh4uint dispTry.toNat
      if 1 ≤ nTry ∧ nTry ≤ 64 then
        let r ← times e.cppTry4 nTry.toNat tp
        return r.1
      else throw .missing
    else throw .missing
  else throw .missing

/-! ### All tables -/

/-- What stands behind the unwind codes of a function that has a handler. There are `cnt` codes of
two bytes, and one more if that is odd. -/
def handlerData (rf : RuntimeFunction) : OptionT Checked ℕ := do
  let vf ← e.peRdU8 rf.unwind.toNat
  let cnt ← e.peRdU8 (rf.unwind + 2).toNat
  let flags := vf >>> 3
  guard (flags &&& 0x4 = 0 ∧ flags &&& 0x3 ≠ 0)
  let hs := (rf.unwind + 4).toNat + (cnt.toNat + 1) / 2 * 2 * 2
  return hs + 4

def ehInfo (o : PeOptions) (rf : RuntimeFunction) : Exits EHInfo := do
  let data ← e.handlerData rf
  match ← attempt (e.sehScopes rf data) with
  | some seh => return { seh }
  | none =>
    let cpp := (← attempt (e.cppTries3 data)).getD []
    if cpp.isEmpty && !o.noEh4 then
      return { cpp := (← attempt (e.cppTries4 data)).getD [] }
    else return { cpp }

/-- The handlers of all functions; the last of two records with the same beginning counts. -/
def ehTables (o : PeOptions) : List RuntimeFunction → List (UInt32 × EHInfo) →
    Exits (List (UInt32 × EHInfo))
  | [], eh => return eh
  | rf :: rest, eh => do
    match ← attempt (e.ehInfo o rf) with
    | some info =>
      ehTables o rest
        (if info.any then (rf.begin, info) :: eh.filter (·.1 ≠ rf.begin) else eh)
    | none => ehTables o rest eh

/-- The tables, or the exception that a name throws. -/
def computePeTables (o : PeOptions) : Exits PeTables := do
  let reloc64 ← liftM e.reloc64
  let pdata ← liftM e.pdata
  let eh ← e.ehTables o pdata []
  return { reloc64, pdata, eh }

end Loaded

end Listing

end Ldu
