import Mathlib.Data.Nat.Notation
import Mathlib.Logic.Function.Iterate

/-!
# The table of signatures

`build_sig_table` scans each function for a signature, and for calls that hand on those of others: a
function that ends in a jump to another one (`tail_of`), maybe with its arguments untouched
(`fwd_thunk_of`), or that does nothing but call one (`lock_thunk_of`). What the scan finds is a
`Scan`. Afterwards the signatures are handed along these calls in loops that run a number of times,
each over the functions in the order of their addresses (`propagate`, `apiRounds`).
-/

namespace Ldu

/-- What is known of a function, as far as it is handed on or decides what is. -/
structure FuncSig where
  paramCount : ℕ := 0
  floatMask : UInt8 := 0
  doubleMask : UInt8 := 0
  floatTypedMask : UInt8 := 0
  ptrParamMask : UInt8 := 0
  /-- The widths at which the four register parameters are dereferenced. -/
  ptrParamW : Vector UInt8 4 := Vector.replicate 4 0
  /-- 0 void, 1 int, 2 long long, 3 float, 4 double -/
  retKind : ℕ := 1
  retOnlyFromCall : Bool := false
  sawRealValueRet : Bool := false
  sawPriorCall : Bool := false
  retCallTarget : ℕ := 0
  lockKind : ℕ := 0
  retApi : String := ""

/-- The result of the function is that of a call. -/
def FuncSig.isWrapper (s : FuncSig) : Bool :=
  s.retCallTarget != 0 && s.retOnlyFromCall && !s.sawRealValueRet

/-- The signatures, by the addresses of the functions. -/
abbrev Sigs := ℕ → FuncSig

/-- An entry of `tail_of`, which may also be one of `fwd_thunk_of`. -/
structure Tail where
  rva : ℕ
  target : ℕ
  forwards : Bool

/-- What the scan leaves. It gives no function an API return type, and a lock kind to none that it
lists as a wrapper. -/
structure Scan where
  /-- The functions of the table. -/
  addrs : List ℕ
  sig : Sigs
  tailOf : List Tail
  lockThunkOf : List (ℕ × ℕ)
  addrs_sorted : addrs.Pairwise (· < ·)
  tailOf_sorted : tailOf.Pairwise (·.rva < ·.rva)
  lockThunkOf_sorted : lockThunkOf.Pairwise (·.1 < ·.1)
  retApi_eq : ∀ a, (sig a).retApi = ""
  lockKind_eq : ∀ p ∈ lockThunkOf, (sig p.1).lockKind = 0

namespace Scan

variable (t : Scan)

/-- Both functions are in the table. -/
def Known (a b : ℕ) : Prop :=
  a ∈ t.addrs ∧ b ∈ t.addrs

instance (a b : ℕ) : Decidable (t.Known a b) :=
  inferInstanceAs (Decidable (_ ∧ _))

def isFloat (kind : ℕ) : Bool :=
  kind == 3 || kind == 4

/-! ### Kinds, locks and parameters -/

/-- A tail call returns what its target does; a result that is no float is not returned behind other
calls. -/
def tailStep (sig : Sigs) (k : Tail) : Sigs :=
  if t.Known k.rva k.target ∧ (sig k.rva).retKind = 0 ∧ (sig k.target).retKind ≠ 0 ∧
      (!(sig k.rva).sawPriorCall || isFloat (sig k.target).retKind) = true then
    Function.update sig k.rva { sig k.rva with retKind := (sig k.target).retKind }
  else sig

def lockStep (sig : Sigs) (p : ℕ × ℕ) : Sigs :=
  if t.Known p.1 p.2 ∧ (sig p.2).lockKind ≠ 0 ∧ (sig p.1).lockKind = 0 then
    Function.update sig p.1 { sig p.1 with lockKind := (sig p.2).lockKind }
  else sig

/-- The parameters of the target, where it has more. -/
def withParams (s target : FuncSig) : FuncSig :=
  if s.paramCount < target.paramCount then
    { s with
      paramCount := target.paramCount
      floatMask := target.floatMask
      doubleMask := target.doubleMask
      floatTypedMask := target.floatTypedMask
      ptrParamMask := target.ptrParamMask
      ptrParamW := target.ptrParamW }
  else s

/-- The return type of the target, for a void function. -/
def withReturn (s target : FuncSig) : FuncSig :=
  if s.retKind = 0 ∧ target.retKind ≠ 0 then
    { s with
      retKind := target.retKind
      retApi := if s.retApi = "" then target.retApi else s.retApi }
  else s

def fwdStep (sig : Sigs) (k : Tail) : Sigs :=
  if k.forwards = true ∧ t.Known k.rva k.target then
    Function.update sig k.rva (withReturn (withParams (sig k.rva) (sig k.target)) (sig k.target))
  else sig

/-- One round of the first loop. -/
def round (sig : Sigs) : Sigs :=
  t.tailOf.foldl t.fwdStep (t.lockThunkOf.foldl t.lockStep (t.tailOf.foldl t.tailStep sig))

def propagate : Sigs :=
  t.round^[4] t.sig

/-! ### API return types -/

/-- A function that returns only what a call of itself does is void. -/
def voidFix (sig : Sigs) (a : ℕ) : FuncSig :=
  if a ∈ t.addrs ∧ (sig a).retKind ≠ 0 ∧ (sig a).retOnlyFromCall = true ∧
      (sig a).sawRealValueRet = false ∧ (sig a).retCallTarget = a then
    { sig a with retKind := 0 }
  else sig a

variable (imports : List (ℕ × String)) (apiRetType : String → String)

/-- The return type of the import that a wrapper calls. -/
def importType (s : FuncSig) : String :=
  if s.isWrapper then
    match imports.find? fun i ↦ i.1 == s.retCallTarget && i.2 != "" with
    | some i => apiRetType i.2
    | none => ""
  else ""

def seed (sig : Sigs) (a : ℕ) : FuncSig :=
  if a ∈ t.addrs ∧ importType imports apiRetType (sig a) ≠ "" then
    { sig a with retApi := importType imports apiRetType (sig a) }
  else sig a

/-- A wrapper has the type of what it calls. -/
def wrapStep (x : Sigs × Bool) (a : ℕ) : Sigs × Bool :=
  let s := x.1 a
  if s.retApi = "" ∧ s.isWrapper = true ∧ s.retCallTarget ≠ a ∧ s.retCallTarget ∈ t.addrs ∧
      (x.1 s.retCallTarget).retApi ≠ "" then
    (Function.update x.1 a { s with retApi := (x.1 s.retCallTarget).retApi }, true)
  else x

/-- A tail call has the type of its target. -/
def tailApiStep (x : Sigs × Bool) (k : Tail) : Sigs × Bool :=
  if t.Known k.rva k.target ∧ (x.1 k.rva).retApi = "" ∧ (x.1 k.target).retApi ≠ "" then
    (Function.update x.1 k.rva { x.1 k.rva with retApi := (x.1 k.target).retApi }, true)
  else x

/-- One round of the second loop, and whether it changed anything. -/
def apiRound (sig : Sigs) : Sigs × Bool :=
  t.tailOf.foldl t.tailApiStep (t.addrs.foldl t.wrapStep (sig, false))

/-- At most `n` rounds, until one changes nothing. -/
def apiRounds : ℕ → Sigs → Sigs
  | 0, sig => sig
  | n + 1, sig =>
    if (t.apiRound sig).2 then apiRounds n (t.apiRound sig).1 else (t.apiRound sig).1

/-- The table at the end. -/
def buildSigTable : Sigs :=
  t.apiRounds 8 (t.seed imports apiRetType (t.voidFix t.propagate))

/-! ### The fixed point -/

/-- The target's kind should be forwarded. -/
def shouldForward (k : Tail) (kind : ℕ) : Bool :=
  k.forwards || !(t.sig k.rva).sawPriorCall || isFloat kind

/-- At the end of the loops nothing is left to hand on: each forwarding thunk has the parameters of
its target, a void thunk has no target whose kind should be forwarded, a lock wrapper has the kind
of what it wraps, and a wrapper or thunk of a function with an API return type has one. -/
structure Settled : Prop where
  params : ∀ k ∈ t.tailOf, k.forwards = true → t.Known k.rva k.target →
    (t.buildSigTable imports apiRetType k.target).paramCount ≤
      (t.buildSigTable imports apiRetType k.rva).paramCount
  kinds : ∀ k ∈ t.tailOf, t.Known k.rva k.target → (t.propagate k.rva).retKind = 0 →
    (t.propagate k.target).retKind ≠ 0 →
      t.shouldForward k (t.propagate k.target).retKind = false
  locks : ∀ p ∈ t.lockThunkOf, t.Known p.1 p.2 →
    (t.buildSigTable imports apiRetType p.2).lockKind ≠ 0 →
      (t.buildSigTable imports apiRetType p.1).lockKind =
        (t.buildSigTable imports apiRetType p.2).lockKind
  wrappers : ∀ a ∈ t.addrs, (t.sig a).isWrapper = true → (t.sig a).retCallTarget ∈ t.addrs →
    (t.buildSigTable imports apiRetType (t.sig a).retCallTarget).retApi ≠ "" →
      (t.buildSigTable imports apiRetType a).retApi ≠ ""
  thunks : ∀ k ∈ t.tailOf, t.Known k.rva k.target →
    (t.buildSigTable imports apiRetType k.target).retApi ≠ "" →
      (t.buildSigTable imports apiRetType k.rva).retApi ≠ ""

end Scan

end Ldu
