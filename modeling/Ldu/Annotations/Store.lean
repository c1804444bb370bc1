import Ldu.Listing.Engine
import Mathlib.Data.List.Perm.Basic
import Mathlib.Data.List.TakeWhile

/-!
# Annotations of functions and variables

What a user says of a function (a name, a comment) and of its variables (a name, a type) is recorded
with two identities: the address where the function lay, and a hash of what it is. The hash is taken
over the instructions with everything masked that moves on a rebuild (`maskedBytes`). `resolve`
decides which function of the current analysis each record is bound to.

Annotations are switched on, and allocations succeed. `DS_ANNO_UNBOUND` is no address of a function,
so that the address a record is bound to is an `Option`.
-/

namespace Ldu

namespace Annotations

open Listing

/-! ### Strings -/

abbrev Bytes := List UInt8

/-- A C string: the bytes before the first zero. -/
def cstr (s : Bytes) : Bytes :=
  s.takeWhile (· ≠ 0)

theorem ne_zero_of_mem_cstr {s : Bytes} {b : UInt8} (hb : b ∈ cstr s) : b ≠ 0 := by
  have := List.mem_takeWhile_imp hb
  simpa using this

/-- What an array of `n + 1` characters holds: a string of at most `n` bytes. -/
@[ext]
structure Field (n : ℕ) where
  bytes : Bytes
  length_le : bytes.length ≤ n
  ne_zero : ∀ b ∈ bytes, b ≠ 0
  deriving DecidableEq

/-- `ds_strlcpy` into an array of `n + 1` characters. -/
def strlcpy (n : ℕ) (s : Bytes) : Field n where
  bytes := (cstr s).take n
  length_le := List.length_take_le _ _
  ne_zero _ hb := ne_zero_of_mem_cstr (List.mem_of_mem_take hb)

instance (n : ℕ) : Inhabited (Field n) :=
  ⟨strlcpy n []⟩

@[simp] theorem bytes_strlcpy (n : ℕ) (s : Bytes) : (strlcpy n s).bytes = (cstr s).take n := rfl

namespace Field

/-- The empty string. -/
def empty {n : ℕ} : Field n :=
  strlcpy n []

def isEmpty {n : ℕ} (f : Field n) : Bool :=
  f.bytes = []

end Field

/-! ### The identity of a function -/

/-- The number of a kind of reference. -/
def refCode : RefType → UInt8
  | .none => 0
  | .call => 1
  | .jmp => 2
  | .data => 3
  | .branch => 4

/-- The bytes that stand for an instruction in the hash of a function. Of an instruction that refers
to something the kind of reference stays, and its bytes do not. -/
def maskedBytes (i : Insn) : Bytes :=
  i.mnemonic.toList.map (fun c ↦ UInt8.ofNat c.toNat) ++ [0, UInt8.ofNat i.size] ++
    if i.refType ≠ .none then [0xFE, refCode i.refType] else i.bytes.take (min i.size 16)

/-- One byte into the hash. -/
def mix (h : UInt64) (b : UInt8) : UInt64 :=
  (h ^^^ b.toUInt64) * 1099511628211

/-- The instructions of a function; there are none unless one starts where the function does. -/
def funcInsns (e : Engine) (f : Func) : List Insn :=
  match insnLowerBound e.insns f.rva with
  | some k =>
    if (e.insns[k]?).any (·.rva = f.rva) then
      (e.insns.drop k).takeWhile (·.rva < wrap64 (f.rva + f.size))
    else []
  | none => []

/-- The hash of instructions, which is never zero. -/
def hashInsns (insns : List Insn) : UInt64 :=
  let h := (insns.flatMap maskedBytes).foldl mix 1469598103934665603
  if h = 0 then 1 else h

/-- The hash of a function, `hash_func`; zero if there is none. -/
def hashFunc (e : Engine) (f : Func) : UInt64 :=
  if f.size = 0 then 0
  else if funcInsns e f = [] then 0
  else hashInsns (funcInsns e f)

/-! ### Records -/

/-- An annotation of a function, `ds_anno`. -/
structure Anno where
  hash : UInt64 := 0
  rva : UInt64
  bound : Option ℕ := none
  name : Field 95 := .empty
  comment : Field 255 := .empty
  deriving DecidableEq

/-- An annotation of a variable, `ds_anno_var`: the name that was displayed, the new one and the
type. -/
structure AnnoVar where
  hash : UInt64 := 0
  rva : UInt64
  bound : Option ℕ := none
  fromName : Field 63
  toName : Field 63 := .empty
  type : Field 63 := .empty
  deriving DecidableEq

structure Store where
  annos : List Anno := []
  vars : List AnnoVar := []
  deriving DecidableEq

/-! ### Recording -/

/-- The function at an address, `func_at`. -/
def funcAt (e : Engine) (rva : UInt64) : Option Func :=
  e.funcs.find? (·.rva = rva.toNat)

/-- Change the first record for an address, or a new one, `anno_upsert`. -/
def annoUpsert (rva : UInt64) (change : Anno → Anno) : List Anno → List Anno
  | [] => [change { rva := rva }]
  | a :: annos => if a.rva = rva then change a :: annos else a :: annoUpsert rva change annos

/-- What is said of the function at the address of a record; an empty string says nothing. -/
def Anno.edit (e : Engine) (name comment : Bytes) (a : Anno) : Anno where
  hash :=
    match funcAt e a.rva with
    | some f => hashFunc e f
    | none => a.hash
  rva := a.rva
  bound := none
  name := if cstr name = [] then a.name else strlcpy 95 name
  comment := if cstr comment = [] then a.comment else strlcpy 255 comment

/-- `ds_engine_set_func_annotation` -/
def setFuncAnno (e : Engine) (rva : UInt64) (name comment : Bytes) (st : Store) : Store :=
  { st with annos := annoUpsert rva (·.edit e name comment) st.annos }

/-- The record is the one of a variable at an address. -/
def AnnoVar.isFor (rva : UInt64) (fromName : Bytes) (v : AnnoVar) : Bool :=
  v.rva = rva && v.fromName.bytes = cstr fromName

/-- Change the last record for a variable, or a new one. -/
def varUpsert (rva : UInt64) (fromName : Bytes) (change : AnnoVar → AnnoVar) :
    List AnnoVar → List AnnoVar
  | [] => [change { rva := rva, fromName := strlcpy 63 fromName }]
  | v :: vars =>
    if v.isFor rva fromName && !vars.any (·.isFor rva fromName) then change v :: vars
    else v :: varUpsert rva fromName change vars

/-- The identity of the function that lies at the address of a record now. -/
def AnnoVar.identify (e : Engine) (v : AnnoVar) : AnnoVar :=
  { v with
    hash :=
      match funcAt e v.rva with
      | some f => hashFunc e f
      | none => 0
    bound := (funcAt e v.rva).map fun _ ↦ v.rva.toNat }

/-- Change the record for a variable, and identify it anew, `anno_var_upsert`. -/
def annoVarUpsert (e : Engine) (rva : UInt64) (fromName : Bytes) (change : AnnoVar → AnnoVar)
    (st : Store) : Store :=
  { st with vars := varUpsert rva fromName (fun v ↦ change (v.identify e)) st.vars }

/-- `ds_engine_set_var_annotation` -/
def setVarAnno (e : Engine) (rva : UInt64) (fromName toName : Bytes) (st : Store) : Store :=
  if cstr fromName = [] ∨ cstr toName = [] then st
  else annoVarUpsert e rva fromName (fun v ↦ { v with toName := strlcpy 63 toName }) st

/-- `ds_engine_set_var_type`; an empty type takes back an earlier one. -/
def setVarType (e : Engine) (rva : UInt64) (var type : Bytes) (st : Store) : Store :=
  if cstr var = [] then st
  else annoVarUpsert e rva var (fun v ↦ { v with type := strlcpy 63 type }) st

/-- The types that are reported for the function at an address, `ds_engine_get_var_types` with room
for all of them. -/
def getVarTypes (st : Store) (rva : ℕ) : List (Field 63 × Field 63) :=
  (st.vars.filter fun v ↦ v.bound = some rva && !v.type.isEmpty && !v.fromName.isEmpty).map
    fun v ↦ (v.fromName, v.type)

/-! ### Binding -/

/-- The function that an identity is bound to: the only one with the hash, or else the one at the
address unless the hashes say that it is another one. -/
def bind (e : Engine) (hash rva : UInt64) : Option ℕ :=
  match e.funcs.filter fun f ↦ hash ≠ 0 && hashFunc e f = hash with
  | [f] => some f.rva
  | _ =>
    (funcAt e rva).bind fun f ↦
      if hash ≠ 0 ∧ hashFunc e f ≠ 0 ∧ hash ≠ hashFunc e f then none else some rva.toNat

/-- Bind the records of functions; the first one that finds a function owns it. -/
def bindAnnos (e : Engine) : List ℕ → List Anno → List Anno
  | _, [] => []
  | owned, a :: annos =>
    match bind e a.hash a.rva with
    | some b =>
      if b ∈ owned then { a with bound := none } :: bindAnnos e owned annos
      else { a with bound := some b } :: bindAnnos e (b :: owned) annos
    | none => { a with bound := none } :: bindAnnos e owned annos

/-- `ds_anno_resolve` -/
def resolve (e : Engine) (st : Store) : Store where
  annos := bindAnnos e [] st.annos
  vars := st.vars.map fun v ↦ { v with bound := bind e v.hash v.rva }

/-- The record bound to the function at an address, `ds_anno_for_func`. -/
def annoForFunc (st : Store) (rva : ℕ) : Option Anno :=
  st.annos.find? (·.bound = some rva)

end Annotations

end Ldu
