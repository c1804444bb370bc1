import Ldu.Flirt.Sig
import Ldu.Naming.Symbols

/-!
# Names from signatures

After the functions are named, their names are copied out of the engine, and a pass over the copies
names those without a name that a signature matches. But every function has a name by then, the
fallback at least (`name_ne_nil`), so that the pass looks at no function (`flirtPass_functions`): it
gives a function the name of a signature only if that is the name the function had before
(`flirtPass_names_iff`).
-/

namespace Ldu

namespace Naming

open Checked
open Flirt (SigDb matchFn makeSig)
open Annotations (Field Bytes)

/-- A function as it is copied out of the engine. -/
structure FuncCopy where
  rva : ℕ
  name : String
  size : ℕ
  blockCount : ℕ
  callCount : ℕ
  deriving DecidableEq

/-- The text of an array of characters, `cstr_field`. -/
def cstrField {n : ℕ} (name : Field n) : String :=
  Utf8.fromUtf8Lossy name.bytes

/-- The copies of the functions, `Engine::functions`. -/
def functions (funcs : List Func) : List FuncCopy :=
  funcs.map fun f ↦
    { rva := f.rva, name := cstrField f.name, size := f.size, blockCount := f.blockCount,
      callCount := f.callCount }

/-- A segment of the file. -/
structure FileSegment where
  rva : ℕ
  vsize : ℕ
  fileOff : ℕ
  fileSize : ℕ

section Pass

variable (bytes : List UInt8) (segs : List FileSegment)

/-- The code at an address as the file has it, `len` bytes at most, `read_rva_code`. -/
def readRvaCode (rva len : ℕ) : List FileSegment → Checked (Option (List UInt8))
  | [] => .ok none
  | s :: segs =>
    if s.rva ≤ rva ∧ rva < min (s.rva + s.vsize) (2 ^ 64 - 1) then do
      let fo ← add 64 s.fileOff (← sub rva s.rva)
      if bytes.length ≤ fo then return none
      else
        let segEnd ← add 64 s.fileOff s.fileSize
        let stop ← add 64 fo len
        let stop := min (min stop segEnd) bytes.length
        if stop ≤ fo then return none else return some (← slice bytes fo stop)
    else readRvaCode rva len segs

/-- The code of a function: at least six bytes, at most 65536. -/
def codeOf (rva size : ℕ) : Checked (Option (List UInt8)) :=
  readRvaCode bytes rva (min (max size 6) 65536) segs

/-- The name that the first database to answer gives some code. -/
def firstMatch (code : List UInt8) : List SigDb → Checked (Option String)
  | [] => .ok none
  | db :: dbs => do
    match ← matchFn code (fun _ ↦ none) db with
    | some nm => return some nm
    | none => firstMatch code dbs

variable (dbs : List SigDb)

/-- One function of the pass, with the number of functions that are named. -/
def flirtFunc (e : Engine) (f : FuncCopy) : Checked (Engine × FuncCopy × ℕ) :=
  if f.name ≠ "" then .ok (e, f, 0)
  else do
    match ← codeOf bytes segs f.rva f.size with
    | none => return (e, f, 0)
    | some code =>
      match ← firstMatch code dbs with
      | some nm => return (e.addSymbol f.rva (Utf8.encode nm), { f with name := nm }, 1)
      | none => return (e, f, 0)

def flirtFuncs : Engine → List FuncCopy → Checked (Engine × List FuncCopy × ℕ)
  | e, [] => .ok (e, [], 0)
  | e, f :: fs => do
    let (e, f, n) ← flirtFunc bytes segs dbs e f
    let (e, fs, m) ← flirtFuncs e fs
    return (e, f :: fs, n + m)

end Pass

/-- `flirt_pass`, with the databases of the directory if there is one. -/
def flirtPass (dir : Option (List SigDb)) (bytes : List UInt8) (segs : List FileSegment)
    (e : Engine) (funcs : List FuncCopy) : Checked (Engine × List FuncCopy × ℕ) :=
  match dir with
  | none => .ok (e, funcs, 0)
  | some dbs => if dbs.isEmpty then .ok (e, funcs, 0) else flirtFuncs bytes segs dbs e funcs

/-! ### The pass looks at no function -/

theorem flirtFuncs_of_named (bytes : List UInt8) (segs : List FileSegment) (dbs : List SigDb)
    (e : Engine) (fs : List FuncCopy) (hnamed : ∀ f ∈ fs, f.name ≠ "") :
    flirtFuncs bytes segs dbs e fs = .ok (e, fs, 0) := by
  induction fs with
  | nil => rfl
  | cons f fs ih =>
    have hf : flirtFunc bytes segs dbs e f = .ok (e, f, 0) := if_pos (hnamed f List.mem_cons_self)
    rw [flirtFuncs, hf, ok_bind]
    dsimp only
    rw [ih fun g hg ↦ hnamed g (List.mem_cons_of_mem _ hg)]
    rfl

theorem functions_named (env : Env) (e : Engine) :
    ∀ f ∈ functions (resolveSymbols env e), f.name ≠ "" := by
  intro f hf hempty
  obtain ⟨g, hg, rfl⟩ := List.mem_map.1 hf
  exact name_ne_nil env e g hg (Utf8.fromUtf8Lossy_eq_empty_iff.1 hempty)

/-- On the functions of an engine the pass changes nothing. -/
theorem flirtPass_functions (dir : Option (List SigDb)) (bytes : List UInt8)
    (segs : List FileSegment) (env : Env) (e e' : Engine) :
    flirtPass dir bytes segs e' (functions (resolveSymbols env e)) =
      .ok (e', functions (resolveSymbols env e), 0) := by
  unfold flirtPass
  cases dir with
  | none => rfl
  | some dbs =>
    dsimp only
    split
    · rfl
    · exact flirtFuncs_of_named bytes segs dbs e' _ (functions_named env e)

/-- The pass gives the function with the number `i` a name. -/
def Names (dbs : List SigDb) (bytes : List UInt8) (segs : List FileSegment) (e : Engine)
    (funcs : List FuncCopy) (i : ℕ) (nm : String) : Prop :=
  ∃ e' fs n, flirtPass (some dbs) bytes segs e funcs = .ok (e', fs, n) ∧
    (fs[i]?).map (·.name) = some nm

theorem names_functions_iff {env : Env} {e : Engine} {dbs : List SigDb} {bytes : List UInt8}
    {segs : List FileSegment} {i : ℕ} {f : Func} {nm : String}
    (hf : (resolveSymbols env e)[i]? = some f) :
    Names dbs bytes segs e (functions (resolveSymbols env e)) i nm ↔ nm = cstrField f.name := by
  have hname : ((functions (resolveSymbols env e))[i]?).map (·.name) = some (cstrField f.name) := by
    rw [functions, List.getElem?_map, hf, Option.map_some, Option.map_some]
  constructor
  · rintro ⟨e', fs, n, hpass, hnm⟩
    rw [flirtPass_functions] at hpass
    cases hpass
    exact Option.some.inj (hnm.symm.trans hname)
  · rintro rfl
    exact ⟨e, _, 0, flirtPass_functions (some dbs) bytes segs env e e, hname⟩

/-- A function that was left with its fallback gets the name of the first database to answer, if and
only if that name is the fallback itself. -/
theorem flirtPass_names_iff (env : Env) (e : Engine) (dbs : List SigDb) (bytes : List UInt8)
    (segs : List FileSegment) (i : ℕ) (f : Func) (hf : (resolveSymbols env e)[i]? = some f)
    (hleft : f.name = fallbackName f.rva) :
    (∀ code nm, codeOf bytes segs f.rva f.size = .ok (some code) →
        firstMatch code dbs = .ok (some nm) →
        Names dbs bytes segs e (functions (resolveSymbols env e)) i nm) ↔
      ∀ code nm, codeOf bytes segs f.rva f.size = .ok (some code) →
        firstMatch code dbs = .ok (some nm) → nm = cstrField (fallbackName f.rva) := by
  rw [← hleft]
  constructor
  · intro h code nm hcode hmatch
    exact (names_functions_iff hf).1 (h code nm hcode hmatch)
  · intro h code nm hcode hmatch
    exact (names_functions_iff hf).2 (h code nm hcode hmatch)

/-! ### A function that a signature matches -/

/-- A program of two functions: `call 10h; ret` and `xor eax, eax; inc rax; inc rax; ret`. -/
def caller : Engine where
  image := [0xE8, 0x0B, 0, 0, 0, 0xC3] ++ List.replicate 10 0xCC ++
    [0x31, 0xC0, 0x48, 0xFF, 0xC0, 0x48, 0xFF, 0xC0, 0xC3]
  entry := some 0
  segments := [{ name := ".text", rva := 0, size := 25, exec := true, write := false }]
  insns := [
    { rva := 0, bytes := [0xE8, 0x0B, 0, 0, 0], size := 5, refType := .call, refTarget := 0x10,
      mnemonic := "call", operands := "0x10" },
    { rva := 5, bytes := [0xC3], size := 1, mnemonic := "ret" },
    { rva := 0x10, bytes := [0x31, 0xC0], size := 2, mnemonic := "xor", operands := "eax, eax" },
    { rva := 0x12, bytes := [0x48, 0xFF, 0xC0], size := 3, mnemonic := "inc", operands := "rax" },
    { rva := 0x15, bytes := [0x48, 0xFF, 0xC0], size := 3, mnemonic := "inc", operands := "rax" },
    { rva := 0x18, bytes := [0xC3], size := 1, mnemonic := "ret" }]
  funcs := [⟨0, 6, 1, 1⟩, ⟨0x10, 9, 1, 0⟩]

def callee : Func :=
  ⟨⟨0x10, 9, 1, 0⟩, fallbackName 0x10⟩

def calleeCode : List UInt8 :=
  [0x31, 0xC0, 0x48, 0xFF, 0xC0, 0x48, 0xFF, 0xC0, 0xC3]

def callerSegs : List FileSegment :=
  [⟨0, 25, 0, 25⟩]

/-- A database with the signature of the second function. -/
def calleeDb (name : String) : SigDb :=
  SigDb.new "gcc" (makeSig calleeCode [] name []).toList

theorem resolveSymbols_caller : (resolveSymbols {} caller)[1]? = some callee := by
  decide +kernel

theorem codeOf_callee : codeOf caller.image callerSegs callee.rva callee.size =
    .ok (some calleeCode) := by
  decide +kernel

theorem firstMatch_callee : firstMatch calleeCode [calleeDb "rt_two"] = .ok (some "rt_two") := by
  decide +kernel

/-- The function is left with its fallback, the database answers `rt_two`, and the pass leaves the
fallback. -/
theorem flirtPass_caller :
    (resolveSymbols {} caller)[1]? = some callee ∧ callee.name = fallbackName callee.rva ∧
      codeOf caller.image callerSegs callee.rva callee.size = .ok (some calleeCode) ∧
      firstMatch calleeCode [calleeDb "rt_two"] = .ok (some "rt_two") ∧
      ¬Names [calleeDb "rt_two"] caller.image callerSegs caller
        (functions (resolveSymbols {} caller)) 1 "rt_two" := by
  refine ⟨resolveSymbols_caller, rfl, codeOf_callee, firstMatch_callee, ?_⟩
  rw [names_functions_iff resolveSymbols_caller]
  decide +kernel

theorem flirtPass_names_iff_caller :
    (∀ code nm, codeOf caller.image callerSegs callee.rva callee.size = .ok (some code) →
        firstMatch code [calleeDb "rt_two"] = .ok (some nm) →
        Names [calleeDb "rt_two"] caller.image callerSegs caller
          (functions (resolveSymbols {} caller)) 1 nm) ↔
      ∀ code nm, codeOf caller.image callerSegs callee.rva callee.size = .ok (some code) →
        firstMatch code [calleeDb "rt_two"] = .ok (some nm) →
        nm = cstrField (fallbackName callee.rva) :=
  flirtPass_names_iff {} caller [calleeDb "rt_two"] caller.image callerSegs 1 callee
    resolveSymbols_caller rfl

end Naming

end Ldu
