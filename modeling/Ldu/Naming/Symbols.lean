import Ldu.Annotations.Json
import Mathlib.Data.List.Dedup
import Mathlib.Data.List.Sort

/-!
# Names of recovered functions

Every recovered function gets the first name of: a symbol that was seeded for its address, the name
of the entry point, the import it jumps to, a signature of its first bytes; or else the fallback
`fun_` with its address (`fallbackName`). Names that start with `fun_` count as placeholders, and
three passes give better names to functions that have one: a string the function reports as its own
name (`stringUpgrades`), the global variable it gives access to (`accessorUpgrades`), the function
it jumps to (`thunkUpgrades`).

What the passes do is one list of attempts, `upgrades`, that does not depend on the names: which
function is looked at, and what name is proposed for it. `upgradeAt` is one attempt.
-/

namespace Ldu

namespace Naming

open Listing
open Annotations hiding funcAt

/-! ### The engine -/

/-- A segment; `write` is the flag `DS_FLAG_W`. -/
structure Segment extends Listing.Segment where
  write : Bool
  deriving DecidableEq

/-- `ds_symbol` -/
structure Symbol where
  rva : ℕ
  name : Field 95
  deriving DecidableEq

/-- `ds_import`; `iatRva` is the slot that holds the address. -/
structure Import where
  iatRva : ℕ
  name : Field 95
  deriving DecidableEq

/-- A recovered function with its name. -/
structure Func extends Listing.Func where
  name : Field 95
  deriving DecidableEq

/-- What the names are taken from. The functions have none yet. -/
structure Engine where
  image : List UInt8
  arch : Arch := .x64
  isDll : Bool := false
  entry : Option ℕ := none
  segments : List Segment := []
  symbols : List Symbol := []
  imports : List Import := []
  insns : List Insn := []
  funcs : List Listing.Func := []

/-- The passes that the environment switches off, `DS_NO_STRNAME` and `DS_NO_HEURNAME`. -/
structure Env where
  noStrname : Bool := false
  noHeurname : Bool := false

/-- `snprintf` into an array of ninety-six characters. -/
def buf (text : Bytes) : Field 95 :=
  strlcpy 95 text

/-- The digits of `%llx`. -/
def hex (n : ℕ) : Bytes :=
  (Nat.toDigits 16 n).map ch

/-- The digits of `%08llx`. -/
def hex8 (n : ℕ) : Bytes :=
  List.replicate (8 - (hex n).length) (ch '0') ++ hex n

/-- `ds_engine_add_symbol`. The name comes without the zeros in it. -/
def Engine.addSymbol (e : Engine) (rva : ℕ) (name : Bytes) : Engine :=
  { e with symbols := e.symbols ++ [⟨rva, strlcpy 95 (name.filter (· ≠ 0))⟩] }

/-! ### The first names -/

section Names

variable (e : Engine)

/-- `insn_index_exact` -/
def insnIndexExact (rva : ℕ) : Option ℕ :=
  BinarySearch.searchFor Insn.rva e.insns rva

/-- The symbol seeded for an address, `seeded_symbol`. -/
def seededSymbol (symbols : List Symbol) (rva : ℕ) : Option (Field 95) :=
  (symbols.find? fun s ↦ s.rva = rva && !s.name.isEmpty).map (·.name)

/-- `import_for_iat` -/
def importForIat (iatRva : ℕ) : Option (Field 95) :=
  (e.imports.find? (·.iatRva = iatRva)).map (·.name)

/-- The import that a function jumps to, `import_thunk_name`. -/
def importThunkName (fstart : ℕ) : Option (Field 95) := do
  let i ← e.insns[← insnIndexExact e fstart]?
  if i.mnemonic ≠ "jmp" then none
  else if i.refType ≠ .jmp ∨ i.refTarget = 0 then none
  else importForIat e i.refTarget

/-- The name that the first instruction of a function stands for, `flirt_match`. Whether a jump
follows the comparison with the cookie makes no difference. -/
def flirtMatch (first : Insn) : Option Bytes :=
  if 3 ≤ first.size ∧ [0x48, 0x3B, 0x0D].isPrefixOf first.bytes then
    some (lit "__security_check_cookie")
  else if 2 ≤ first.size ∧ [0x3B, 0x0D].isPrefixOf first.bytes then
    some (lit "__security_check_cookie")
  else if 2 ≤ first.size ∧ [0x3B, 0xEC].isPrefixOf first.bytes then some (lit "_RTC_CheckEsp")
  else none

def entryName : Bytes :=
  if e.isDll then lit "DllEntryPoint" else lit "start"

/-- The name of the function at an address that says what it is, if there is one. -/
def knownName (rva : ℕ) : Option (Field 95) :=
  match seededSymbol e.symbols rva with
  | some sym => some sym
  | none =>
    if e.entry = some rva then some (strlcpy 95 (entryName e))
    else
      match importThunkName e rva with
      | some imp => some (buf (lit "j_" ++ imp.bytes))
      | none => do
        let first ← e.insns[← insnIndexExact e rva]?
        (flirtMatch first).map (strlcpy 95)

/-- The name of a function that nothing is known of. -/
def fallbackName (rva : ℕ) : Field 95 :=
  buf (lit "fun_" ++ hex8 rva)

/-- The functions with their first names. -/
def firstNames : List Func :=
  e.funcs.map fun f ↦ { f with name := (knownName e f.rva).getD (fallbackName f.rva) }

end Names

/-! ### Better names -/

/-- `is_placeholder` -/
def isPlaceholder (name : Field 95) : Bool :=
  (lit "fun_").isPrefixOf name.bytes

/-- Another function than the one with the number `skip` has the name, `name_taken`. -/
def nameTaken (funcs : List Func) (name : Field 95) (skip : ℕ) : Bool :=
  funcs.zipIdx.any fun p ↦ p.2 ≠ skip && p.1.name = name

/-- An attempt at a better name for the function with the number `index`. -/
structure Upgrade where
  index : ℕ
  propose : List Func → Func → Option (Field 95)

/-- Give the function the name that is proposed for it, if it has a placeholder and no other
function has that name. -/
def upgradeAt (funcs : List Func) (u : Upgrade) : List Func :=
  match funcs[u.index]? with
  | none => funcs
  | some f =>
    if !isPlaceholder f.name then funcs
    else
      match u.propose funcs f with
      | some name =>
        if nameTaken funcs name u.index then funcs else funcs.set u.index { f with name }
      | none => funcs

section Strings

variable (e : Engine)

def Engine.segForRva (rva : ℕ) : Option Segment :=
  e.segments.find? (·.contains rva)

/-- The string at an address, at most `fuel` bytes long with its zero, behind the bytes `t`. -/
def cstringFrom : ℕ → ℕ → Bytes → Option Bytes
  | 0, _, _ => none
  | fuel + 1, rva, t =>
    match e.image[rva]? with
    | none => none
    | some b =>
      if b = 0 then if t.length < 4 then none else some t
      else if b < 0x20 ∨ 0x7F ≤ b then none
      else cstringFrom fuel (wrap64 (rva + 1)) (t ++ [b])

/-- The string that lies in data that is only read, `sym_read_cstring`. -/
def readCString (rva : ℕ) : Option Bytes := do
  let s ← e.segForRva rva
  if s.exec ∨ s.write then none else cstringFrom e 96 rva []

/-- The words of C and C++ that are no names. -/
def reserved : List String :=
  ["auto", "bool", "break", "case", "catch", "char", "class", "const", "continue", "default",
    "delete", "double", "else", "enum", "extern", "false", "float", "goto", "inline", "long",
    "namespace", "NULL", "operator", "private", "protected", "public", "register", "restrict",
    "return", "short", "signed", "sizeof", "static", "struct", "switch", "template", "this",
    "throw", "true", "typedef", "union", "unsigned", "virtual", "void", "volatile", "while"]

def isAlpha (b : UInt8) : Bool :=
  (ch 'a' ≤ b && b ≤ ch 'z') || (ch 'A' ≤ b && b ≤ ch 'Z')

/-- The string may be the name of a function, `is_c_ident`. -/
def isCIdent : Bytes → Bool
  | [] => false
  | c :: s =>
    4 ≤ s.length + 1 && s.length + 1 ≤ 63 && (isAlpha c || c = ch '_') &&
      s.all (fun b ↦ isAlpha b || isDigit b || b = ch '_') && !(reserved.map lit).contains (c :: s)

/-- The function that covers an address, `func_containing`. -/
def funcContaining (rva : ℕ) : Option Listing.Func :=
  let lo :=
    BinarySearch.lowerBound Listing.Func.rva e.funcs (rva + 1) e.funcs.length 0 e.funcs.length
  if lo = 0 then none
  else (e.funcs[lo - 1]?).filter fun f ↦ f.size ≠ 0 && rva < wrap64 (f.rva + f.size)

/-- `func_at` -/
def funcAt (rva : ℕ) : Bool :=
  (BinarySearch.searchFor Listing.Func.rva e.funcs rva).isSome

/-- The text starts with `t`. -/
def startsWith (t s : String) : Bool :=
  t.toList.isPrefixOf s.toList

/-- The instruction overwrites the register of the first argument, `writes_arg0`. -/
def writesArg0 (i : Insn) : Bool :=
  ["rcx", "ecx", "cx", "cl", "ch"].any fun r ↦ i.operands = r || startsWith (r ++ ",") i.operands

/-- A string in the register of the first argument, by a `lea`. -/
def literalOf (i : Insn) : Option Bytes :=
  if i.mnemonic ≠ "lea" then none
  else if i.refType ≠ .data ∨ i.refTarget = 0 then none
  else if !startsWith "rcx," i.operands then none
  else (readCString e i.refTarget).filter isCIdent

/-- The function that is called first, with the string still in its register, by one of the next
`n` instructions. -/
def helperFrom (caller : Listing.Func) : ℕ → List Insn → Option ℕ
  | 0, _ => none
  | _ + 1, [] => none
  | n + 1, w :: ws =>
    if wrap64 (caller.rva + caller.size) ≤ w.rva then none
    else if w.mnemonic = "ret" then none
    else if w.refType = .jmp ∨ w.refType = .branch then none
    else if w.mnemonic = "call" then
      if w.refType = .call ∧ w.refTarget ≠ 0 ∧ importForIat e w.refTarget = none ∧
        funcAt e w.refTarget then some w.refTarget else none
    else if writesArg0 w then none
    else helperFrom caller n ws

/-- A function passes a string to another. -/
structure Hit where
  helper : ℕ
  caller : ℕ
  literal : Bytes
  deriving DecidableEq

/-- The string that an instruction passes with those behind it. -/
def hitAt (i : Insn) (is : List Insn) : Option Hit := do
  let literal ← literalOf e i
  let caller ← funcContaining e i.rva
  let helper ← helperFrom e caller 16 is
  return ⟨helper, caller.rva, literal⟩

def hitsFrom : List Insn → List Hit
  | [] => []
  | i :: is => (hitAt e i is).toList ++ hitsFrom is

/-- The keys of a map, in order. -/
def keys (l : List ℕ) : List ℕ :=
  l.dedup.insertionSort (· ≤ ·)

/-- The callers that pass one string to a function and no other, with the string. -/
def reported (hits : List Hit) (helper : ℕ) : List (ℕ × Bytes) :=
  let toHelper := hits.filter (·.helper = helper)
  (keys (toHelper.map (·.caller))).filterMap fun c ↦
    match ((toHelper.filter (·.caller = c)).map (·.literal)).dedup with
    | [id] => some (c, id)
    | _ => none

/-- Three callers have passed strings of their own. -/
def isQuorum (named : List (ℕ × Bytes)) : Bool :=
  3 ≤ named.length && 3 ≤ (named.map Prod.snd).dedup.length

/-- The names that functions report, `recover_string_names`. -/
def stringUpgrades (env : Env) : List Upgrade :=
  if env.noStrname ∨ e.arch ≠ .x64 then []
  else
    let hits := hitsFrom e e.insns
    (keys (hits.map (·.helper))).flatMap fun h ↦
      let named := reported hits h
      if !isQuorum named then []
      else
        named.filterMap fun p ↦
          (e.funcs.findIdx? (·.rva = p.1)).map fun i ↦ ⟨i, fun _ _ ↦ some (strlcpy 95 p.2)⟩

end Strings

section Shapes

variable (e : Engine)

/-- The operand in memory is the first one. -/
def memFirst (operands : String) : Bool :=
  operands.toList.contains '[' && !(operands.toList.takeWhile (· ≠ '[')).contains ','

/-- The name of a function that is `a; ret`. -/
def accessName (a : Insn) : Option Bytes :=
  if a.refType ≠ .data ∨ a.refTarget = 0 then none
  else if a.mnemonic = "lea" then some (lit "ptr_" ++ hex a.refTarget)
  else if a.mnemonic = "mov" then
    some ((if memFirst a.operands then lit "set_" else lit "get_") ++ hex a.refTarget)
  else none

/-- The name of a function that gives access to a global variable. -/
def accessorName (_ : List Func) (f : Func) : Option (Field 95) := do
  let idx ← insnIndexExact e f.rva
  let a ← e.insns[idx]?
  let b ← e.insns[idx + 1]?
  if b.mnemonic ≠ "ret" then none else (accessName a).map buf

/-- The name of a function that jumps to another one. -/
def thunkName (funcs : List Func) (f : Func) : Option (Field 95) := do
  let a ← e.insns[← insnIndexExact e f.rva]?
  if a.mnemonic ≠ "jmp" ∨ a.refType ≠ .jmp ∨ a.refTarget = 0 then none
  else if (importForIat e a.refTarget).isSome then none
  else
    let target ← funcs.find? (·.rva = a.refTarget)
    if target.name.isEmpty then none else some (buf (lit "j_" ++ target.name.bytes))

/-- One attempt for each function. -/
def eachFunc (propose : List Func → Func → Option (Field 95)) : List Upgrade :=
  (List.range e.funcs.length).map (⟨·, propose⟩)

/-- `recover_heuristic_names`, the first pass -/
def accessorUpgrades (env : Env) : List Upgrade :=
  if env.noHeurname then [] else eachFunc e (accessorName e)

/-- `recover_heuristic_names`, the second pass -/
def thunkUpgrades (env : Env) : List Upgrade :=
  if env.noHeurname then [] else eachFunc e (thunkName e)

end Shapes

/-- All attempts, in the order of the passes. -/
def upgrades (env : Env) (e : Engine) : List Upgrade :=
  stringUpgrades e env ++ accessorUpgrades e env ++ thunkUpgrades e env

/-- The functions after the first `k` attempts. -/
def namesAfter (env : Env) (e : Engine) (k : ℕ) : List Func :=
  ((upgrades env e).take k).foldl upgradeAt (firstNames e)

/-- The functions with their names, `ds_engine_resolve_symbols`. -/
def resolveSymbols (env : Env) (e : Engine) : List Func :=
  (upgrades env e).foldl upgradeAt (firstNames e)

/-! ### What an attempt does -/

theorem upgradeAt_cases (funcs : List Func) (u : Upgrade) :
    upgradeAt funcs u = funcs ∨
      ∃ f name, funcs[u.index]? = some f ∧ isPlaceholder f.name ∧ u.propose funcs f = some name ∧
        nameTaken funcs name u.index = false ∧
        upgradeAt funcs u = funcs.set u.index { f with name } := by
  unfold upgradeAt
  cases hf : funcs[u.index]? with
  | none => exact .inl rfl
  | some f =>
    dsimp only
    split
    · exact .inl rfl
    · next hplace =>
      cases hname : u.propose funcs f with
      | none => exact .inl rfl
      | some name =>
        dsimp only
        split
        · exact .inl rfl
        · next hfree =>
          refine .inr ⟨f, name, rfl, by simpa using hplace, hname, ?_, rfl⟩
          simpa using hfree

/-- A function with a name of its own keeps it. -/
theorem upgradeAt_keeps {funcs : List Func} {i : ℕ} {f : Func} (u : Upgrade)
    (hf : funcs[i]? = some f) (hnamed : isPlaceholder f.name = false) :
    (upgradeAt funcs u)[i]? = some f := by
  obtain heq | ⟨g, name, hg, hplace, -, -, heq⟩ := upgradeAt_cases funcs u
  · rw [heq, hf]
  · have hne : u.index ≠ i := by
      rintro rfl
      obtain rfl := Option.some.inj (hg.symm.trans hf)
      rw [hplace] at hnamed
      cases hnamed
    rw [heq, List.getElem?_set_ne hne, hf]

theorem foldl_upgradeAt_keeps {i : ℕ} {f : Func} (us : List Upgrade) (funcs : List Func)
    (hf : funcs[i]? = some f) (hnamed : isPlaceholder f.name = false) :
    (us.foldl upgradeAt funcs)[i]? = some f := by
  induction us generalizing funcs with
  | nil => exact hf
  | cons u us ih => exact ih _ (upgradeAt_keeps u hf hnamed)

/-- What holds of the first names and of every name that is proposed holds of all names. -/
theorem foldl_upgradeAt_induction {p : Field 95 → Prop} (us : List Upgrade) (funcs : List Func)
    (hfirst : ∀ f ∈ funcs, p f.name)
    (hpropose : ∀ u ∈ us, ∀ funcs f name, u.propose funcs f = some name → p name) :
    ∀ f ∈ us.foldl upgradeAt funcs, p f.name := by
  induction us generalizing funcs with
  | nil => exact hfirst
  | cons u us ih =>
    refine ih _ (fun f hf ↦ ?_) fun v hv ↦ hpropose v (List.mem_cons_of_mem _ hv)
    obtain heq | ⟨g, name, -, -, hname, -, heq⟩ := upgradeAt_cases funcs u
    · rw [heq] at hf
      exact hfirst f hf
    · rw [heq] at hf
      rcases List.mem_or_eq_of_mem_set hf with hf | rfl
      · exact hfirst f hf
      · exact hpropose u List.mem_cons_self _ _ _ hname

/-- The first names, one by one. -/
theorem getElem?_firstNames (e : Engine) (i : ℕ) :
    (firstNames e)[i]? = (e.funcs[i]?).map fun f ↦
      { f with name := (knownName e f.rva).getD (fallbackName f.rva) } :=
  List.getElem?_map ..

/-! ### Names with a prefix -/

theorem bytes_buf_append {a : Bytes} (t : Bytes) (ha : ∀ b ∈ a, b ≠ 0) (hlen : a.length ≤ 95) :
    (buf (a ++ t)).bytes = a ++ (cstr t).take (95 - a.length) := by
  have hcstr : cstr (a ++ t) = a ++ cstr t :=
    List.takeWhile_append_of_pos fun b hb ↦ by simpa using ha b hb
  rw [buf, bytes_strlcpy, hcstr, List.take_append, List.take_of_length_le hlen]

theorem buf_append_ne_nil {a : Bytes} (t : Bytes) (ha : ∀ b ∈ a, b ≠ 0) (hlen : a.length ≤ 95)
    (hne : a ≠ []) : (buf (a ++ t)).bytes ≠ [] := by
  rw [bytes_buf_append t ha hlen]
  simp [hne]

theorem isPlaceholder_fallbackName (rva : ℕ) : isPlaceholder (fallbackName rva) = true := by
  rw [isPlaceholder, fallbackName, bytes_buf_append _ (by decide +kernel) (by decide +kernel)]
  exact List.isPrefixOf_iff_prefix.2 (List.prefix_append _ _)

theorem ne_nil_of_isPlaceholder {name : Field 95} (h : isPlaceholder name = true) :
    name.bytes ≠ [] := by
  intro hnil
  rw [isPlaceholder, hnil] at h
  cases h

theorem seededSymbol_ne_nil {symbols : List Symbol} {rva : ℕ} {sym : Field 95}
    (h : seededSymbol symbols rva = some sym) : sym.bytes ≠ [] := by
  obtain ⟨s, hs, rfl⟩ := Option.map_eq_some_iff.1 h
  have hfound := List.find?_some hs
  rw [Bool.and_eq_true] at hfound
  simpa [Field.isEmpty] using hfound.2

/-! ### No name is empty -/

theorem flirtMatch_ne_nil {first : Insn} {nm : Bytes} (h : flirtMatch first = some nm) :
    (strlcpy 95 nm).bytes ≠ [] := by
  unfold flirtMatch at h
  split at h
  · cases h
    decide
  · split at h
    · cases h
      decide
    · split at h
      · cases h
        decide
      · cases h

theorem knownName_ne_nil {e : Engine} {rva : ℕ} {name : Field 95}
    (h : knownName e rva = some name) : name.bytes ≠ [] := by
  unfold knownName at h
  split at h
  · next sym hsym =>
    cases h
    exact seededSymbol_ne_nil hsym
  · split at h
    · cases h
      cases hdll : e.isDll <;> simp only [entryName, hdll] <;> decide
    · split at h
      · cases h
        exact buf_append_ne_nil _ (by decide +kernel) (by decide +kernel)
          (by decide +kernel)
      · obtain ⟨idx, -, h⟩ := Option.bind_eq_some_iff.1 h
        obtain ⟨first, -, h⟩ := Option.bind_eq_some_iff.1 h
        obtain ⟨nm, hnm, rfl⟩ := Option.map_eq_some_iff.1 h
        exact flirtMatch_ne_nil hnm

/-- A string that may be a name is not empty, and has no zero in it. -/
theorem strlcpy_ne_nil_of_isCIdent {id : Bytes} (h : isCIdent id = true) :
    (strlcpy 95 id).bytes ≠ [] := by
  cases id with
  | nil => cases h
  | cons c s =>
    have hc : c ≠ 0 := by
      rintro rfl
      simp [isCIdent, isAlpha, ch] at h
    rw [bytes_strlcpy, cstr, List.takeWhile_cons_of_pos (by simpa using hc)]
    simp

theorem isCIdent_of_hit {e : Engine} {is : List Insn} {h : Hit} (hh : h ∈ hitsFrom e is) :
    isCIdent h.literal = true := by
  induction is with
  | nil => cases hh
  | cons i is ih =>
    rcases List.mem_append.1 hh with hh | hh
    · obtain ⟨l, hl, hh⟩ := Option.bind_eq_some_iff.1 (Option.mem_toList.1 hh)
      obtain ⟨caller, -, hh⟩ := Option.bind_eq_some_iff.1 hh
      obtain ⟨helper, -, hh⟩ := Option.bind_eq_some_iff.1 hh
      cases hh
      unfold literalOf at hl
      split_ifs at hl
      exact (Option.filter_eq_some_iff.1 hl).2
    · exact ih hh

theorem mem_of_reported {hits : List Hit} {helper : ℕ} {p : ℕ × Bytes}
    (hp : p ∈ reported hits helper) : ∃ h ∈ hits, h.literal = p.2 := by
  obtain ⟨c, -, hc⟩ := List.mem_filterMap.1 hp
  split at hc
  · next id hid =>
    cases hc
    have hmem : id ∈ [id] := List.mem_singleton_self id
    rw [← hid, List.mem_dedup] at hmem
    obtain ⟨h, hh, rfl⟩ := List.mem_map.1 hmem
    exact ⟨h, List.mem_of_mem_filter (List.mem_of_mem_filter hh), rfl⟩
  · cases hc

theorem stringUpgrades_propose {e : Engine} {env : Env} {u : Upgrade}
    (hu : u ∈ stringUpgrades e env) :
    ∃ id, isCIdent id = true ∧ u.propose = fun _ _ ↦ some (strlcpy 95 id) := by
  unfold stringUpgrades at hu
  split at hu
  · cases hu
  · obtain ⟨h, -, hu⟩ := List.mem_flatMap.1 hu
    dsimp only at hu
    split at hu
    · cases hu
    · obtain ⟨p, hp, hu⟩ := List.mem_filterMap.1 hu
      obtain ⟨i, -, rfl⟩ := Option.map_eq_some_iff.1 hu
      obtain ⟨hit, hhit, hlit⟩ := mem_of_reported hp
      exact ⟨p.2, hlit ▸ isCIdent_of_hit hhit, rfl⟩

theorem accessorName_ne_nil {e : Engine} {funcs : List Func} {f : Func} {name : Field 95}
    (h : accessorName e funcs f = some name) : name.bytes ≠ [] := by
  obtain ⟨idx, -, h⟩ := Option.bind_eq_some_iff.1 h
  obtain ⟨a, -, h⟩ := Option.bind_eq_some_iff.1 h
  obtain ⟨b, -, h⟩ := Option.bind_eq_some_iff.1 h
  split at h
  · cases h
  · obtain ⟨nm, hnm, rfl⟩ := Option.map_eq_some_iff.1 h
    unfold accessName at hnm
    split_ifs at hnm <;> cases hnm <;>
      exact buf_append_ne_nil _ (by decide +kernel) (by decide +kernel)
          (by decide +kernel)

theorem thunkName_ne_nil {e : Engine} {funcs : List Func} {f : Func} {name : Field 95}
    (h : thunkName e funcs f = some name) : name.bytes ≠ [] := by
  obtain ⟨idx, -, h⟩ := Option.bind_eq_some_iff.1 h
  obtain ⟨a, -, h⟩ := Option.bind_eq_some_iff.1 h
  split at h
  · cases h
  · split at h
    · cases h
    · obtain ⟨target, -, h⟩ := Option.bind_eq_some_iff.1 h
      split at h
      · cases h
      · cases h
        exact buf_append_ne_nil _ (by decide +kernel) (by decide +kernel)
          (by decide +kernel)

theorem propose_ne_nil {env : Env} {e : Engine} {u : Upgrade} (hu : u ∈ upgrades env e)
    {funcs : List Func} {f : Func} {name : Field 95} (hname : u.propose funcs f = some name) :
    name.bytes ≠ [] := by
  rcases List.mem_append.1 hu with hu | hu
  · rcases List.mem_append.1 hu with hu | hu
    · obtain ⟨id, hid, hpropose⟩ := stringUpgrades_propose hu
      rw [hpropose] at hname
      cases hname
      exact strlcpy_ne_nil_of_isCIdent hid
    · unfold accessorUpgrades at hu
      split at hu
      · cases hu
      · obtain ⟨i, -, rfl⟩ := List.mem_map.1 hu
        have haccessor : accessorName e funcs f = some name := hname
        exact accessorName_ne_nil haccessor
  · unfold thunkUpgrades at hu
    split at hu
    · cases hu
    · obtain ⟨i, -, rfl⟩ := List.mem_map.1 hu
      exact thunkName_ne_nil hname

/-- No function is left without a name. -/
theorem name_ne_nil (env : Env) (e : Engine) : ∀ f ∈ resolveSymbols env e, f.name.bytes ≠ [] := by
  refine foldl_upgradeAt_induction (p := fun name ↦ name.bytes ≠ []) _ _ (fun f hf ↦ ?_)
    fun u hu funcs f name hname ↦ propose_ne_nil hu hname
  obtain ⟨g, -, rfl⟩ := List.mem_map.1 hf
  dsimp only
  cases hknown : knownName e g.rva with
  | none => exact ne_nil_of_isPlaceholder (isPlaceholder_fallbackName _)
  | some name => exact knownName_ne_nil hknown

end Naming

end Ldu
