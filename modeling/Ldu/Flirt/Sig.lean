import Ldu.Checked.Arith
import Ldu.Text.Utf8

/-!
# Function signatures

A signature keeps the first bytes of a library function, with those the linker changes left open, a
checksum of the bytes behind them and the names the function refers to. `makeSig` builds one from
the code of a function, `matchFn` looks the code of an unknown function up in a database of them.
-/

namespace Ldu

namespace Flirt

open Checked

/-- `PATLEN` -/
def patLen : ℕ := 32

/-- The signature of a function. A set bit of `mask` leaves the byte of the pattern open. -/
@[ext]
structure FuncSig where
  pat : List UInt8
  length_pat : pat.length = 32
  mask : UInt32
  plen : UInt8
  crcLen : UInt8
  crc : UInt16
  fullLen : UInt32
  name : String
  refs : List (UInt16 × String)
  deriving DecidableEq

/-! ### Making signatures -/

/-- One bit into the checksum. -/
def crcBit (crc : UInt16) : UInt16 :=
  if crc &&& 0x8000 ≠ 0 then (crc <<< 1) ^^^ 0x1021 else crc <<< 1

/-- One byte into the checksum. -/
def crcByte (crc : UInt16) (b : UInt8) : UInt16 :=
  let high : UInt16 := b.toUInt16 <<< 8
  Nat.iterate crcBit 8 (crc ^^^ high)

/-- CRC-16 of bytes, `crc16`. -/
def crc16 (data : List UInt8) : UInt16 :=
  data.foldl crcByte 0xFFFF

section Make

variable (code : List UInt8) (variant : List Bool)

/-- The linker changes the byte. -/
def isVariant (i : ℕ) : Bool :=
  variant[i]?.getD false

/-- The bits of the first `n` bytes that the linker changes. -/
def sigMask (n : ℕ) : UInt32 :=
  (List.range n).foldl (fun m i ↦ if isVariant variant i then m ||| UInt32.ofNat (2 ^ i) else m) 0

/-- The first bytes, with zeros for those that are left open or missing. -/
def sigPat : List UInt8 :=
  (List.range patLen).map fun i ↦ if isVariant variant i then 0 else code[i]?.getD 0

/-- The number of bytes behind the pattern that the linker leaves as they are. -/
def sigCrcLen : ℕ :=
  ((List.range (code.length - patLen)).takeWhile
    fun k ↦ k < 255 && !isVariant variant (patLen + k)).length

/-- The signature of a function, `make_sig`; functions of less than six bytes have none. -/
def makeSig (name : String) (refs : List (UInt16 × String)) : Option FuncSig :=
  if code.length < 6 then none
  else
    let plen := min code.length patLen
    let crcLen := sigCrcLen code variant
    some {
      pat := sigPat code variant
      length_pat := by simp [sigPat, patLen]
      mask := sigMask variant plen
      plen := UInt8.ofNat plen
      crcLen := UInt8.ofNat crcLen
      crc := if 0 < crcLen then crc16 ((code.drop patLen).take crcLen) else 0
      fullLen := UInt32.ofNat code.length
      name, refs }

end Make

/-! ### Databases -/

/-- A database; `byFirst` lists the signatures with a known first byte, `wildFirst` the others. -/
structure SigDb where
  toolchain : String
  sigs : List FuncSig
  byFirst : UInt8 → List ℕ
  wildFirst : List ℕ

namespace FuncSig

/-- The byte of the pattern is left open. -/
def wild (s : FuncSig) (i : ℕ) : Bool :=
  s.mask &&& UInt32.ofNat (2 ^ i) ≠ 0

/-- The first byte of the pattern. -/
def first (s : FuncSig) : UInt8 :=
  s.pat.head (List.ne_nil_of_length_pos (by rw [s.length_pat]; decide))

end FuncSig

namespace SigDb

/-- Enter the signature with the number `i` in the index. -/
def insert (db : SigDb) (p : FuncSig × ℕ) : SigDb :=
  if p.1.wild 0 then { db with wildFirst := db.wildFirst ++ [p.2] }
  else { db with byFirst := Function.update db.byFirst p.1.first (db.byFirst p.1.first ++ [p.2]) }

/-- `SigDb::new` -/
def new (toolchain : String) (sigs : List FuncSig) : SigDb :=
  sigs.zipIdx.foldl insert { toolchain, sigs, byFirst := fun _ ↦ [], wildFirst := [] }

theorem foldl_insert_toolchain (ps : List (FuncSig × ℕ)) (db : SigDb) :
    (ps.foldl insert db).toolchain = db.toolchain := by
  induction ps generalizing db with
  | nil => rfl
  | cons p ps ih =>
    rw [List.foldl_cons, ih]
    unfold insert
    split <;> rfl

theorem foldl_insert_sigs (ps : List (FuncSig × ℕ)) (db : SigDb) :
    (ps.foldl insert db).sigs = db.sigs := by
  induction ps generalizing db with
  | nil => rfl
  | cons p ps ih =>
    rw [List.foldl_cons, ih]
    unfold insert
    split <;> rfl

@[simp] theorem toolchain_new (toolchain : String) (sigs : List FuncSig) :
    (new toolchain sigs).toolchain = toolchain :=
  foldl_insert_toolchain _ _

@[simp] theorem sigs_new (toolchain : String) (sigs : List FuncSig) :
    (new toolchain sigs).sigs = sigs :=
  foldl_insert_sigs _ _

theorem foldl_insert_byFirst (ps : List (FuncSig × ℕ)) (db : SigDb) (b : UInt8) :
    (ps.foldl insert db).byFirst b =
      db.byFirst b ++ (ps.filter fun p ↦ !p.1.wild 0 && p.1.first = b).map Prod.snd := by
  induction ps generalizing db with
  | nil => simp
  | cons p ps ih =>
    rw [List.foldl_cons, ih, insert]
    cases hwild : p.1.wild 0 with
    | true => simp [hwild]
    | false =>
      by_cases hb : p.1.first = b
      · subst hb
        simp [hwild]
      · simp [hwild, hb, Function.update_of_ne (Ne.symm hb)]

theorem foldl_insert_wildFirst (ps : List (FuncSig × ℕ)) (db : SigDb) :
    (ps.foldl insert db).wildFirst =
      db.wildFirst ++ (ps.filter (·.1.wild 0)).map Prod.snd := by
  induction ps generalizing db with
  | nil => simp
  | cons p ps ih =>
    rw [List.foldl_cons, ih, insert]
    cases hwild : p.1.wild 0 <;> simp [hwild]

/-- The signatures the code may have: those that start with its first byte, then those whose first
byte is left open. -/
def candidates (sigs : List FuncSig) (b : UInt8) : List FuncSig :=
  (sigs.filter fun s ↦ !s.wild 0 && s.first = b) ++ sigs.filter (·.wild 0)

/-- They are numbered in the index. -/
theorem exists_numbered (toolchain : String) (sigs : List FuncSig) (b : UInt8) :
    ∃ ps : List (FuncSig × ℕ),
      (new toolchain sigs).byFirst b ++ (new toolchain sigs).wildFirst = ps.map Prod.snd ∧
      candidates sigs b = ps.map Prod.fst ∧ ∀ p ∈ ps, sigs[p.2]? = some p.1 := by
  refine ⟨(sigs.zipIdx.filter fun p ↦ !p.1.wild 0 && p.1.first = b) ++
    sigs.zipIdx.filter (·.1.wild 0), ?_, ?_, fun p hp ↦ ?_⟩
  · rw [new, foldl_insert_byFirst, foldl_insert_wildFirst, List.map_append]
    rfl
  · have hfst (q : FuncSig → Bool) :
        sigs.filter q = (sigs.zipIdx.filter fun p ↦ q p.1).map Prod.fst := by
      have h := List.filter_map (f := Prod.fst) (p := q) (l := sigs.zipIdx)
      rwa [List.zipIdx_map_fst] at h
    rw [candidates, List.map_append, hfst, hfst]
  · have hmem : p ∈ sigs.zipIdx := by
      rcases List.mem_append.1 hp with hp | hp
      · exact List.mem_of_mem_filter hp
      · exact List.mem_of_mem_filter hp
    exact List.mem_zipIdx_iff_getElem?.1 hmem

end SigDb

/-! ### Matching -/

section Match

variable (code : List UInt8)

/-- The bytes of the pattern from `i` on, `n` of them, are those of the code or left open. -/
def patOk (s : FuncSig) : ℕ → ℕ → Checked Bool
  | 0, _ => .ok true
  | n + 1, i => do
    let b ← bit 32 i
    if s.mask &&& UInt32.ofNat b ≠ 0 then patOk s n (i + 1)
    else
      let c ← index code i
      let p ← index s.pat i
      if c ≠ p then return false else patOk s n (i + 1)

/-- The code is long enough for the signature. -/
def lengthOk (s : FuncSig) (need : ℕ) : Bool :=
  s.fullLen.toNat ≤ code.length % 2 ^ 32 || min need s.fullLen.toNat ≤ code.length

/-- The bytes behind the pattern have the checksum of the signature. -/
def crcOk (s : FuncSig) : Checked Bool := do
  if s.crcLen.toNat = 0 then return true
  else
    let stop ← add 64 patLen s.crcLen.toNat
    if code.length < stop then return false
    else
      let bs ← slice code patLen stop
      return crc16 bs = s.crc

/-- The code has the signature, `pat_crc_len_ok`. -/
def patCrcLenOk (s : FuncSig) : Checked Bool := do
  let need ← add 64 patLen s.crcLen.toNat
  if !lengthOk code s need then return false
  else if code.length < s.plen.toNat then return false
  else
    let ok ← patOk code s s.plen.toNat 0
    if ok then crcOk code s else return false

/-- The signatures that the code has. -/
def hitsOf (db : SigDb) : List ℕ → Checked (List ℕ)
  | [] => .ok []
  | i :: is => do
    let s ← index db.sigs i
    let ok ← patCrcLenOk code s
    let rest ← hitsOf db is
    return if ok then i :: rest else rest

variable (known : UInt16 → Option String)

/-- The number of references that are known to have the name they should, on top of `n`; none if
one is known to have another name. -/
def scoreFrom : List (UInt16 × String) → ℕ → Checked (Option ℕ)
  | [], n => .ok (some n)
  | (off, nm) :: refs, n =>
    match known off with
    | some k => if k = nm then add 31 n 1 >>= scoreFrom refs else .ok none
    | none => scoreFrom refs n

/-- Keep the signature if it beats the best one before it. -/
def tieBreak (db : SigDb) (best : ℤ × Option ℕ) (i : ℕ) : Checked (ℤ × Option ℕ) := do
  let s ← index db.sigs i
  if s.refs = [] then return best
  else
    match ← scoreFrom known s.refs 0 with
    | some score => return if best.1 < score then (score, some i) else best
    | none => return best

/-- The name of a signature. -/
def nameOf (db : SigDb) (i : ℕ) : Checked String := do
  let s ← index db.sigs i
  return s.name

/-- The name of one of the signatures the code has: with several, of the one whose references are
known best. -/
def chooseName (db : SigDb) : List ℕ → Checked (Option String)
  | [] => return none
  | [i] => return some (← nameOf db i)
  | hits => do
    let best ← hits.foldlM (tieBreak known db) (-1, none)
    match best.2 with
    | some i => return some (← nameOf db i)
    | none => return none

/-- The name of the function with the code, `match_fn`. -/
def matchFn (db : SigDb) : Checked (Option String) := do
  if code.length < 6 then return none
  else
    let first ← index code 0
    let hits ← hitsOf code db (db.byFirst first ++ db.wildFirst)
    chooseName known db hits

end Match

end Flirt

end Ldu
