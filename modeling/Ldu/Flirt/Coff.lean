import Ldu.Flirt.Lookup
import Mathlib.Data.List.Destutter

/-!
# Reading COFF objects

The functions of an object are cut from its code sections: each begins where a symbol stands and
ends where the next one begins. The bytes that a relocation of the section changes are left open,
and the external symbols that relocations name are the references of the function.

On no file does reading fault, and it returns what stands there (`functions_eq`): the functions of a
section are all of its bytes from the first symbol on, in order, and a byte is left open exactly
when a relocation that begins in the same function covers it. One that begins in the function before
and reaches into the next leaves no byte open there.
-/

namespace Ldu

namespace Flirt

open Checked Utf8

/-! ### Relocated code -/

/-- A relocation: where it is in its section, its symbol and its type. -/
structure Rel where
  va : ℕ
  sym : ℕ
  typ : ℕ
  deriving DecidableEq

section Relocate

variable (size : ℕ → ℕ) (external : ℕ → Option String) (start stop : ℕ)

/-- Leave a byte open, if it is one of the function. -/
def markByte (off : ℕ) (variant : List Bool) (b : ℕ) : Checked (List Bool) := do
  let i ← add 64 off b
  return if i < variant.length then variant.set i true else variant

/-- One relocation: the bytes that it leaves open and the symbol that it refers to. -/
def relocate (x : List Bool × List (UInt16 × String)) (r : Rel) :
    Checked (List Bool × List (UInt16 × String)) := do
  if r.va < start ∨ stop ≤ r.va then return x
  let off ← sub r.va start
  let variant ← (List.range (size r.typ)).foldlM (markByte off) x.1
  let refs := match external r.sym with
    | some name => if off ≤ 65535 then x.2 ++ [(UInt16.ofNat off, name)] else x.2
    | none => x.2
  return (variant, refs)

/-- The function between two offsets of a section. -/
def cutFunc (data : List UInt8) (rels : List Rel) (name : String) : Checked ObjFunc := do
  let code ← slice data start stop
  let (variant, refs) ← rels.foldlM (relocate size external start stop)
    (List.replicate code.length false, [])
  return { name, code, variant, refs }

/-- A relocation of the function covers the byte of the section. -/
def covers (j : ℕ) (r : Rel) : Bool :=
  start ≤ r.va && r.va < stop && r.va ≤ j && j < r.va + size r.typ

/-- The reference that a relocation of the function is. -/
def refOf (r : Rel) : Option (UInt16 × String) :=
  if start ≤ r.va ∧ r.va < stop ∧ r.va - start ≤ 65535 then
    (external r.sym).map fun name ↦ (UInt16.ofNat (r.va - start), name)
  else none

/-- What is cut. -/
def funcAt (data : List UInt8) (rels : List Rel) (name : String) : ObjFunc where
  name
  code := (data.drop start).take (stop - start)
  variant := (List.range (stop - start)).map fun j ↦ rels.any (covers size start stop (start + j))
  refs := rels.filterMap (refOf external start stop)

/-! ### The bytes that are left open -/

/-- The bytes left open before, and those with the property. -/
def openAt (v : List Bool) (p : ℕ → Bool) : List Bool :=
  v.mapIdx fun j b ↦ b || p j

theorem getElem?_openAt (v : List Bool) (p : ℕ → Bool) (j : ℕ) :
    (openAt v p)[j]? = v[j]?.map (· || p j) :=
  List.getElem?_mapIdx

theorem openAt_congr {v : List Bool} {p q : ℕ → Bool} (h : ∀ j < v.length, p j = q j) :
    openAt v p = openAt v q := by
  refine List.ext_getElem? fun j ↦ ?_
  rw [getElem?_openAt, getElem?_openAt]
  cases hv : v[j]? with
  | none => rfl
  | some b => rw [h j (List.getElem?_eq_some_iff.1 hv).1]

theorem openAt_false (v : List Bool) : openAt v (fun _ ↦ false) = v := by
  refine List.ext_getElem? fun j ↦ ?_
  rw [getElem?_openAt]
  cases v[j]? <;> simp

theorem openAt_openAt (v : List Bool) (p q : ℕ → Bool) :
    openAt (openAt v p) q = openAt v fun j ↦ p j || q j := by
  refine List.ext_getElem? fun j ↦ ?_
  rw [getElem?_openAt, getElem?_openAt, getElem?_openAt]
  cases v[j]? <;> simp [Bool.or_assoc]

theorem set_eq_openAt {v : List Bool} {i : ℕ} (hi : i < v.length) :
    v.set i true = openAt v fun j ↦ j = i := by
  refine List.ext_getElem? fun j ↦ ?_
  rw [getElem?_openAt, List.getElem?_set]
  split
  · next hij =>
    subst hij
    rw [List.getElem?_eq_getElem hi]
    simp
  · next hij => cases v[j]? <;> simp [Ne.symm hij]

theorem markByte_eq {off b : ℕ} (hb : off + b < 2 ^ 64) (v : List Bool) :
    markByte off v b = .ok (openAt v fun j ↦ j = off + b) := by
  rw [markByte, add_of_lt hb, ok_bind]
  split
  · next hlt => rw [set_eq_openAt hlt]; rfl
  · next hge =>
    have hnone : openAt v (fun j ↦ j = off + b) = openAt v fun _ ↦ false :=
      openAt_congr fun j hj ↦ decide_eq_false (by omega)
    rw [hnone, openAt_false]
    rfl

variable {size external start stop}

theorem foldlM_markByte {off k : ℕ} (hk : off + k < 2 ^ 64) (v : List Bool) :
    (List.range k).foldlM (markByte off) v =
      .ok (openAt v fun j ↦ off ≤ j && j < off + k) := by
  induction k with
  | zero =>
    have hnone : openAt v (fun j ↦ off ≤ j && j < off + 0) = openAt v fun _ ↦ false :=
      openAt_congr fun j _ ↦ by simp
    rw [hnone, openAt_false]
    rfl
  | succ k ih =>
    rw [List.range_succ, List.foldlM_append, ih (by omega), ok_bind, List.foldlM_cons,
      markByte_eq (by omega), ok_bind, openAt_openAt]
    refine congrArg Except.ok (openAt_congr fun j _ ↦ ?_)
    rw [Bool.eq_iff_iff]
    simp only [Bool.or_eq_true, Bool.and_eq_true, decide_eq_true_eq]
    omega

theorem relocate_eq (hsize : ∀ t, size t ≤ 8) (hstop : stop < 2 ^ 63) (r : Rel)
    (x : List Bool × List (UInt16 × String)) :
    relocate size external start stop x r =
      .ok (openAt x.1 fun j ↦ covers size start stop (start + j) r,
        x.2 ++ (refOf external start stop r).toList) := by
  have hsz := hsize r.typ
  unfold relocate
  split
  · next hout =>
    have hnone : (fun j ↦ covers size start stop (start + j) r) = fun _ ↦ false := by
      funext j
      rw [Bool.eq_false_iff]
      simp only [covers, ne_eq, Bool.and_eq_true, decide_eq_true_eq]
      omega
    have href : refOf external start stop r = none := if_neg (by omega)
    rw [hnone, openAt_false, href, Option.toList_none, List.append_nil]
    rfl
  · next hin =>
    have hcovers : (fun j ↦ covers size start stop (start + j) r) =
        fun j ↦ decide (r.va - start ≤ j) && decide (j < r.va - start + size r.typ) := by
      funext j
      rw [Bool.eq_iff_iff]
      simp only [covers, Bool.and_eq_true, decide_eq_true_eq]
      omega
    have hwithin : (start ≤ r.va ∧ r.va < stop ∧ r.va - start ≤ 65535) ↔ r.va - start ≤ 65535 := by
      omega
    have hrefs : (match external r.sym with
        | some name => if r.va - start ≤ 65535 then x.2 ++ [(UInt16.ofNat (r.va - start), name)]
          else x.2
        | none => x.2) = x.2 ++ (refOf external start stop r).toList := by
      rw [refOf, if_congr hwithin rfl rfl]
      cases external r.sym with
      | none => simp
      | some name =>
        dsimp only
        split_ifs <;> simp
    have hmarks := foldlM_markByte (show r.va - start + size r.typ < 2 ^ 64 by omega) x.1
    rw [hcovers, ← hrefs, sub_of_le (by omega), ok_bind, hmarks]
    rfl

theorem foldlM_relocate (hsize : ∀ t, size t ≤ 8) (hstop : stop < 2 ^ 63) (rels : List Rel)
    (x : List Bool × List (UInt16 × String)) :
    rels.foldlM (relocate size external start stop) x =
      .ok (openAt x.1 fun j ↦ rels.any (covers size start stop (start + j)),
        x.2 ++ rels.filterMap (refOf external start stop)) := by
  induction rels generalizing x with
  | nil =>
    simp only [List.any_nil, List.filterMap_nil, List.append_nil, openAt_false]
    rfl
  | cons r rels ih =>
    rw [List.foldlM_cons, relocate_eq hsize hstop, ok_bind, ih, openAt_openAt, List.append_assoc]
    simp only [List.any_cons, List.filterMap_cons]
    cases refOf external start stop r <;> rfl

variable (external) in
theorem cutFunc_eq (hsize : ∀ t, size t ≤ 8) (hstart : start ≤ stop) {data : List UInt8}
    (hstop : stop ≤ data.length) (hdata : data.length < 2 ^ 63) (rels : List Rel) (name : String) :
    cutFunc size external start stop data rels name =
      .ok (funcAt size external start stop data rels name) := by
  have hlength : ((data.drop start).take (stop - start)).length = stop - start := by
    rw [List.length_take, List.length_drop]
    omega
  rw [cutFunc, slice_of_le hstart hstop, ok_bind, foldlM_relocate hsize (by omega), ok_bind,
    hlength]
  have hvariant (p : ℕ → Bool) : openAt (List.replicate (stop - start) false) p =
      (List.range (stop - start)).map p := by
    refine List.ext_getElem? fun j ↦ ?_
    rw [getElem?_openAt, List.getElem?_map, List.getElem?_replicate]
    by_cases hj : j < stop - start
    · rw [if_pos hj, List.getElem?_range hj]
      rfl
    · rw [if_neg hj, List.getElem?_eq_none (by rw [List.length_range]; omega)]
      rfl
  rw [hvariant]
  rfl

end Relocate

/-! ### The tables of an object -/

namespace Coff

/-- The number of `w` bytes at an offset, zero behind the end. -/
def leAt (w : ℕ) (b : List UInt8) (o : ℕ) : ℕ :=
  if o + w ≤ b.length then ofLE ((b.drop o).take w) else 0

def rd (w : ℕ) (b : List UInt8) (o : ℕ) : Checked ℕ := do
  let stop ← add 64 o w
  if stop ≤ b.length then return ofLE (← slice b o stop) else return 0

def rdU16 : List UInt8 → ℕ → Checked ℕ := rd 2

def rdU32 : List UInt8 → ℕ → Checked ℕ := rd 4

/-- `section` is that of the source as a number of 16 bits. -/
structure Sym where
  name : String
  value : ℕ
  sectionNo : ℕ
  isFunc : Bool
  storage : UInt8

/-- Variant byte count for an AMD64 relocation type. -/
def relocSize : ℕ → ℕ
  | 0 => 0
  | 1 => 8
  | 2 | 3 => 4
  | 4 | 5 | 6 | 7 | 8 | 9 => 4
  | 0xA => 2
  | 0xB => 4
  | 0xC => 1
  | _ => 4

theorem relocSize_le (t : ℕ) : relocSize t ≤ 8 := by
  unfold relocSize
  split <;> decide

section Tables

variable (obj : List UInt8)

/-- The name of a symbol: in its field, or in the string table if the field begins with zeros. -/
def symName (base strtabOff : ℕ) : Checked String := do
  if (← rdU32 obj base) = 0 then
    let off ← rdU32 obj (← add 64 base 4)
    let p ← add 64 strtabOff off
    if p < obj.length then
      let rest ← slice obj p obj.length
      let stop ← match rest.findIdx? (· = 0) with
        | some e => add 64 p e
        | none => pure obj.length
      return fromUtf8Lossy (← slice obj p stop)
    else return ""
  else
    let s ← slice obj base (← add 64 base 8)
    let stop := (s.findIdx? (· = 0)).getD 8
    return fromUtf8Lossy (← slice s 0 stop)

/-- The symbols from slot `i` on; the auxiliary slots behind a symbol are empty. -/
def symsFrom (symPtr numSyms strtabOff : ℕ) : ℕ → ℕ → Checked (List (Option Sym))
  | 0, _ => .error .endless
  | fuel + 1, i => do
    if numSyms ≤ i then return []
    let base ← add 64 symPtr (← mul 64 i 18)
    if obj.length < (← add 64 base 18) then return []
    let name ← symName obj base strtabOff
    let value ← rdU32 obj (← add 64 base 8)
    let sectionNo ← rdU16 obj (← add 64 base 12)
    let typ ← rdU16 obj (← add 64 base 14)
    let storage ← index obj (← add 64 base 16)
    let naux := (← index obj (← add 64 base 17)).toNat
    let rest ← symsFrom symPtr numSyms strtabOff fuel (← add 64 i (1 + naux))
    return some { name, value, sectionNo, isFunc := typ / 256 = 0x20, storage } ::
      (List.replicate naux none ++ rest)

/-- The symbol table, as long as the header says at least. -/
def symbols (symPtr numSyms : ℕ) : Checked (List (Option Sym)) := do
  let strtabOff ← add 64 symPtr (← mul 64 numSyms 18)
  let syms ← symsFrom obj symPtr numSyms strtabOff (numSyms + 1) 0
  return syms ++ List.replicate (numSyms - syms.length) none

/-- `n` relocations from number `r` on, or those before the end of the file. -/
def relsFrom (relPtr : ℕ) : ℕ → ℕ → Checked (List Rel)
  | 0, _ => .ok []
  | n + 1, r => do
    let rb ← add 64 relPtr (← mul 64 r 10)
    if obj.length < (← add 64 rb 10) then return []
    let va ← rdU32 obj rb
    let sym ← rdU32 obj (← add 64 rb 4)
    let typ ← rdU16 obj (← add 64 rb 8)
    let rest ← relsFrom relPtr n (r + 1)
    return { va, sym, typ } :: rest

end Tables

/-- The name of a symbol that is defined elsewhere. -/
def external (syms : List (Option Sym)) (i : ℕ) : Option String :=
  match syms[i]? with
  | some (some t) => if t.sectionNo = 0 ∧ t.name ≠ "" then some t.name else none
  | _ => none

/-- Where functions begin in a section, in order; of the symbols at one offset the first counts. -/
def startsOf (syms : List (Option Sym)) (secNo rawSize : ℕ) : List (ℕ × String) :=
  (((syms.reduceOption.filter fun s ↦
      s.sectionNo = secNo && (s.isFunc || s.storage = 2) && s.value < rawSize).map
    fun s ↦ (s.value, s.name)).insertionSort fun a b ↦ a.1 ≤ b.1).destutter fun a b ↦ a.1 ≠ b.1

/-- The functions of a section. -/
def funcsFrom (syms : List (Option Sym)) (data : List UInt8) (rels : List Rel) (rawSize : ℕ) :
    List (ℕ × String) → Checked (List ObjFunc)
  | [] => .ok []
  | (start, name) :: starts => do
    let stop := (starts.head?.map Prod.fst).getD rawSize
    if stop ≤ start ∨ rawSize < stop then funcsFrom syms data rels rawSize starts
    else
      let f ← cutFunc relocSize (external syms) start stop data rels name
      let rest ← funcsFrom syms data rels rawSize starts
      return f :: rest

section Sections

variable (obj : List UInt8) (syms : List (Option Sym))

/-- The functions of the section with its header at `sh`. -/
def sectionAt (sh si : ℕ) : Checked (List ObjFunc) := do
  let chars ← rdU32 obj (← add 64 sh 36)
  if chars &&& 0x20000020 = 0 then return []
  let rawSize ← rdU32 obj (← add 64 sh 16)
  let rawPtr ← rdU32 obj (← add 64 sh 20)
  let relPtr ← rdU32 obj (← add 64 sh 24)
  let nrel ← rdU16 obj (← add 64 sh 32)
  let rawEnd ← add 64 rawPtr rawSize
  if rawPtr = 0 ∨ obj.length < rawEnd ∨ rawSize = 0 then return []
  let secNo := (si + 1) % 2 ^ 16
  let data ← slice obj rawPtr rawEnd
  let rels ← relsFrom obj relPtr nrel 0
  funcsFrom syms data rels rawSize (startsOf syms secNo rawSize)

/-- The functions of `n` sections from number `si` on. -/
def sectionsFrom (secBase : ℕ) : ℕ → ℕ → Checked (List ObjFunc)
  | 0, _ => .ok []
  | n + 1, si => do
    let sh ← add 64 secBase (← mul 64 si 40)
    if obj.length < (← add 64 sh 40) then return []
    let here ← sectionAt obj syms sh si
    let rest ← sectionsFrom secBase n (si + 1)
    return here ++ rest

/-- The functions of an object, `functions`; only those for x64 are read. -/
def functions : Checked (List ObjFunc) := do
  if obj.length < 20 then return []
  let machine ← rdU16 obj 0
  if machine ≠ 0x8664 then return []
  let numSections ← rdU16 obj 2
  let symPtr ← rdU32 obj 8
  let numSyms ← rdU32 obj 12
  let optHdr ← rdU16 obj 16
  let syms ← symbols obj symPtr numSyms
  let secBase ← add 64 20 optHdr
  sectionsFrom obj syms secBase numSections 0

end Sections

/-! ### Reading does not fault -/

section Safe

variable {obj : List UInt8}

theorem rd_eq {w o : ℕ} (ho : o + w < 2 ^ 64) (b : List UInt8) : rd w b o = .ok (leAt w b o) := by
  rw [rd, add_of_lt ho, ok_bind, leAt]
  split
  · next hle =>
    rw [slice_of_le (Nat.le_add_right o w) hle, ok_bind, Nat.add_sub_cancel_left]
    rfl
  · rfl

theorem leAt_lt (w : ℕ) (b : List UInt8) (o : ℕ) : leAt w b o < 256 ^ w := by
  rw [leAt]
  split
  · next hle =>
    have h := ofLE_lt ((b.drop o).take w)
    rwa [List.length_take, List.length_drop, min_eq_left (by omega)] at h
  · positivity

theorem findIdx?_le {s : List UInt8} {p : UInt8 → Bool} {i : ℕ} (h : s.findIdx? p = some i) :
    i < s.length := by
  rw [List.findIdx?_eq_some_iff_findIdx_eq] at h
  exact h.1

theorem safe_lossy {s : List UInt8} {a z : ℕ} (haz : a ≤ z) (hz : z ≤ s.length) :
    Safe (slice s a z >>= fun t ↦ pure (fromUtf8Lossy t)) := by
  rw [slice_of_le haz hz, ok_bind]
  exact safe_pure _

theorem safe_symName {base strtabOff : ℕ} (hobj : obj.length < 2 ^ 63)
    (hbase : base + 8 ≤ obj.length) (hstr : strtabOff < 2 ^ 63) :
    Safe (symName obj base strtabOff) := by
  have hoff := leAt_lt 4 obj (base + 4)
  unfold symName rdU32
  rw [rd_eq (by omega), ok_bind]
  split
  · rw [add_of_lt (by omega), ok_bind, rd_eq (by omega), ok_bind, add_of_lt (by omega), ok_bind]
    split
    · next hp =>
      rw [slice_of_le hp.le le_rfl, ok_bind]
      split
      · next e he =>
        have hlt := findIdx?_le he
        rw [List.length_take, List.length_drop] at hlt
        rw [add_of_lt (by omega), ok_bind]
        exact safe_lossy (by omega) (by omega)
      · exact safe_lossy hp.le le_rfl
    · exact safe_pure _
  · rw [add_of_lt (by omega), ok_bind, slice_of_le (by omega) hbase, ok_bind]
    have hlength : ((obj.drop base).take (base + 8 - base)).length = 8 := by
      rw [List.length_take, List.length_drop]
      omega
    have hstop : (((obj.drop base).take (base + 8 - base)).findIdx? (· = 0)).getD 8 ≤ 8 := by
      cases hfind : ((obj.drop base).take (base + 8 - base)).findIdx? (· = 0) with
      | none => exact le_rfl
      | some i =>
        have hlt := findIdx?_le hfind
        rw [hlength] at hlt
        exact hlt.le
    exact safe_lossy (Nat.zero_le _) (by rw [hlength]; exact hstop)

theorem safe_symsFrom {symPtr numSyms strtabOff : ℕ} (hobj : obj.length < 2 ^ 63)
    (hptr : symPtr < 2 ^ 32) (hnum : numSyms < 2 ^ 32) (hstr : strtabOff < 2 ^ 63) (fuel i : ℕ)
    (hi : i < 2 ^ 33) (hfuel : numSyms - i < fuel) :
    Safe (symsFrom obj symPtr numSyms strtabOff fuel i) := by
  induction fuel generalizing i with
  | zero => exact absurd hfuel (Nat.not_lt_zero _)
  | succ fuel ih =>
    unfold symsFrom
    split
    · exact safe_pure _
    · next hlt =>
      simp only
      rw [mul_of_lt (by omega), ok_bind, add_of_lt (by omega), ok_bind, add_of_lt (by omega),
        ok_bind]
      split
      · exact safe_pure _
      · next hle =>
        have hbase : symPtr + i * 18 + 8 ≤ obj.length := by omega
        obtain ⟨name, hname⟩ := safe_symName hobj hbase hstr
        have hread (w k : ℕ) (hw : w ≤ 4) (hk : k ≤ 16) : rd w obj (symPtr + i * 18 + k) =
            .ok (leAt w obj (symPtr + i * 18 + k)) := rd_eq (by omega) obj
        have hlt : symPtr + i * 18 + 17 < obj.length := by omega
        have haux := obj[symPtr + i * 18 + 17].toNat_lt
        obtain ⟨rest, hrest⟩ := ih (i + (1 + obj[symPtr + i * 18 + 17].toNat))
          (by omega) (by omega)
        simp only [rdU32, rdU16]
        rw [hname, ok_bind, add_of_lt (by omega), ok_bind, hread 4 8 (by omega) (by omega), ok_bind,
          add_of_lt (by omega), ok_bind, hread 2 12 (by omega) (by omega), ok_bind,
          add_of_lt (by omega), ok_bind, hread 2 14 (by omega) (by omega), ok_bind,
          add_of_lt (by omega), ok_bind, index_of_lt (by omega), ok_bind,
          add_of_lt (by omega), ok_bind, index_of_lt (by omega), ok_bind,
          add_of_lt (by omega), ok_bind, hrest, ok_bind]
        exact safe_pure _

theorem safe_symbols {symPtr numSyms : ℕ} (hobj : obj.length < 2 ^ 63) (hptr : symPtr < 2 ^ 32)
    (hnum : numSyms < 2 ^ 32) : Safe (symbols obj symPtr numSyms) := by
  rw [symbols, mul_of_lt (by omega), ok_bind, add_of_lt (by omega), ok_bind]
  have hstr : symPtr + numSyms * 18 < 2 ^ 63 := by omega
  obtain ⟨syms, hsyms⟩ := safe_symsFrom hobj hptr hnum hstr (numSyms + 1) 0 (by omega) (by omega)
  rw [hsyms, ok_bind]
  exact safe_pure _

theorem safe_relsFrom {relPtr n r : ℕ} (hobj : obj.length < 2 ^ 63) (hptr : relPtr < 2 ^ 32)
    (hn : n + r < 2 ^ 16) : Safe (relsFrom obj relPtr n r) := by
  induction n generalizing r with
  | zero => exact safe_ok _
  | succ n ih =>
    rw [relsFrom, mul_of_lt (by omega), ok_bind, add_of_lt (by omega), ok_bind,
      add_of_lt (by omega), ok_bind]
    split
    · exact safe_pure _
    · obtain ⟨rest, hrest⟩ := ih (r := r + 1) (by omega)
      simp only [rdU32, rdU16]
      rw [rd_eq (by omega), ok_bind, add_of_lt (by omega), ok_bind, rd_eq (by omega), ok_bind,
        add_of_lt (by omega), ok_bind, rd_eq (by omega), ok_bind, hrest, ok_bind]
      exact safe_pure _

end Safe

/-! ### Code sections -/

/-- What is read of a code section. The functions begin in order and within it. -/
structure CodeSection where
  data : List UInt8
  rels : List Rel
  external : ℕ → Option String
  starts : List (ℕ × String)
  sorted : starts.Pairwise (·.1 < ·.1)
  lt : ∀ s ∈ starts, s.1 < data.length

namespace CodeSection

variable (sec : CodeSection)

/-- Where a function ends before which these begin. -/
def stopBefore (starts : List (ℕ × String)) : ℕ :=
  (starts.head?.map Prod.fst).getD sec.data.length

/-- The functions that begin at the given places. -/
def cuts : List (ℕ × String) → List ObjFunc
  | [] => []
  | s :: starts =>
    funcAt relocSize sec.external s.1 (sec.stopBefore starts) sec.data sec.rels s.2 :: cuts starts

/-- The functions of the section. -/
def funcs : List ObjFunc :=
  sec.cuts sec.starts

/-- The offset is that of a byte that some relocation covers. -/
def Relocated (start stop j : ℕ) : Prop :=
  ∃ r ∈ sec.rels, covers relocSize start stop j r

/-- A function is cut from the section: its bytes are those from a start on, it leaves those open
that a relocation of its own covers, and it refers to the external symbols of its relocations. -/
structure Cut (start : ℕ) (f : ObjFunc) : Prop where
  mem : (start, f.name) ∈ sec.starts
  code : f.code <+: sec.data.drop start
  variant : f.variant.length = f.code.length
  covered : ∀ j, isVariant f.variant j ↔
    j < f.code.length ∧ sec.Relocated start (start + f.code.length) (start + j)
  refs : f.refs = sec.rels.filterMap (refOf sec.external start (start + f.code.length))

variable {sec} {starts : List (ℕ × String)}

theorem stopBefore_le (hlt : ∀ s ∈ starts, s.1 < sec.data.length) :
    sec.stopBefore starts ≤ sec.data.length := by
  cases starts with
  | nil => exact le_rfl
  | cons s starts => exact (hlt s List.mem_cons_self).le

theorem lt_stopBefore {s : ℕ × String} (hsorted : (s :: starts).Pairwise (·.1 < ·.1))
    (hlt : s.1 < sec.data.length) : s.1 < sec.stopBefore starts := by
  cases starts with
  | nil => exact hlt
  | cons t starts => exact (List.pairwise_cons.1 hsorted).1 t List.mem_cons_self

theorem funcsFrom_eq {syms : List (Option Sym)} (hdata : sec.data.length < 2 ^ 63)
    (hext : sec.external = Coff.external syms) (hsorted : starts.Pairwise (·.1 < ·.1))
    (hlt : ∀ s ∈ starts, s.1 < sec.data.length) :
    funcsFrom syms sec.data sec.rels sec.data.length starts = .ok (sec.cuts starts) := by
  induction starts with
  | nil => rfl
  | cons s starts ih =>
    rw [List.forall_mem_cons] at hlt
    have hstop := lt_stopBefore hsorted hlt.1
    have hle := stopBefore_le hlt.2
    have hcut := cutFunc_eq (Coff.external syms) relocSize_le hstop.le hle hdata sec.rels s.2
    have hin : ¬(sec.stopBefore starts ≤ s.1 ∨ sec.data.length < sec.stopBefore starts) := by omega
    rw [funcsFrom, ih (List.pairwise_cons.1 hsorted).2 hlt.2, cuts]
    refine (if_neg hin).trans ?_
    rw [← stopBefore, hcut, hext]
    rfl

/-- The functions are the bytes of the section from the first start on. -/
theorem flatMap_code_cuts (hsorted : starts.Pairwise (·.1 < ·.1))
    (hlt : ∀ s ∈ starts, s.1 < sec.data.length) :
    (sec.cuts starts).flatMap ObjFunc.code = sec.data.drop (sec.stopBefore starts) := by
  induction starts with
  | nil => exact List.drop_length.symm
  | cons s starts ih =>
    rw [List.forall_mem_cons] at hlt
    have hstop := lt_stopBefore hsorted hlt.1
    have hsum : s.1 + (sec.stopBefore starts - s.1) = sec.stopBefore starts := by omega
    rw [cuts, List.flatMap_cons, ih (List.pairwise_cons.1 hsorted).2 hlt.2, ← hsum,
      ← List.drop_drop, hsum]
    exact List.take_append_drop _ _

theorem cut_of_mem (hsub : starts ⊆ sec.starts) (hsorted : starts.Pairwise (·.1 < ·.1))
    {f : ObjFunc} (hf : f ∈ sec.cuts starts) : ∃ start, sec.Cut start f := by
  induction starts with
  | nil => cases hf
  | cons s starts ih =>
    have hlt : ∀ t ∈ s :: starts, t.1 < sec.data.length := fun t ht ↦ sec.lt t (hsub ht)
    rw [List.forall_mem_cons] at hlt
    rcases List.mem_cons.1 hf with rfl | hf
    · have hstop := lt_stopBefore hsorted hlt.1
      have hle := stopBefore_le hlt.2
      have hlength : ((sec.data.drop s.1).take (sec.stopBefore starts - s.1)).length =
          sec.stopBefore starts - s.1 := by
        rw [List.length_take, List.length_drop]
        omega
      have hsum : s.1 + (sec.stopBefore starts - s.1) = sec.stopBefore starts := by omega
      refine ⟨s.1, hsub List.mem_cons_self, List.take_prefix _ _, ?_, fun j ↦ ?_, ?_⟩
      · simp only [funcAt]
        rw [List.length_map, List.length_range, hlength]
      · simp only [funcAt]
        rw [hlength, hsum, isVariant, List.getElem?_map, Relocated, ← List.any_eq_true]
        by_cases hj : j < sec.stopBefore starts - s.1
        · rw [List.getElem?_range hj]
          exact (and_iff_right hj).symm
        · rw [List.getElem?_eq_none (by rw [List.length_range]; omega)]
          exact iff_of_false Bool.false_ne_true fun h ↦ hj h.1
      · simp only [funcAt]
        rw [hlength, hsum]
    · exact ih (List.Subset.trans (List.subset_cons_self s starts) hsub)
        (List.pairwise_cons.1 hsorted).2 hf

end CodeSection

section Starts

variable {syms : List (Option Sym)} {secNo rawSize : ℕ}

theorem lt_of_mem_startsOf {s : ℕ × String} (hs : s ∈ startsOf syms secNo rawSize) :
    s.1 < rawSize := by
  have hmem := (List.mem_insertionSort _).1 ((List.destutter_sublist _ _).subset hs)
  obtain ⟨sym, hsym, rfl⟩ := List.mem_map.1 hmem
  have hcond := (List.mem_filter.1 hsym).2
  rw [Bool.and_eq_true, decide_eq_true_eq] at hcond
  exact hcond.2

/-- Of entries in order, the first with each key is kept. -/
theorem pairwise_destutter {l : List (ℕ × String)} (hl : l.Pairwise (·.1 ≤ ·.1)) :
    (l.destutter fun a b ↦ a.1 ≠ b.1).Pairwise (·.1 < ·.1) := by
  have htrans : Trans (fun a b : ℕ × String ↦ a.1 < b.1) (fun a b : ℕ × String ↦ a.1 < b.1)
      (fun a b : ℕ × String ↦ a.1 < b.1) := ⟨Nat.lt_trans⟩
  have hle := (hl.sublist (List.destutter_sublist (fun a b ↦ a.1 ≠ b.1) l)).isChain
  have hne := List.isChain_destutter (fun a b : ℕ × String ↦ a.1 ≠ b.1) l
  rw [← List.isChain_iff_pairwise, List.isChain_iff_forall_rel_of_append_cons_cons]
  rw [List.isChain_iff_forall_rel_of_append_cons_cons] at hle hne
  exact fun {a b l₁ l₂} h ↦ lt_of_le_of_ne (hle h) (hne h)

theorem sorted_startsOf (syms : List (Option Sym)) (secNo rawSize : ℕ) :
    (startsOf syms secNo rawSize).Pairwise (·.1 < ·.1) := by
  have htotal : Std.Total fun a b : ℕ × String ↦ a.1 ≤ b.1 := ⟨fun a b ↦ le_total a.1 b.1⟩
  have htrans : IsTrans (ℕ × String) fun a b ↦ a.1 ≤ b.1 := ⟨fun _ _ _ h h' ↦ h.trans h'⟩
  exact pairwise_destutter (List.pairwise_insertionSort _ _)

end Starts

/-! ### The functions of an object -/

section Object

variable (obj : List UInt8)

/-- Where the header of section `si` is. -/
def headerAt (si : ℕ) : ℕ :=
  20 + leAt 2 obj 16 + si * 40

/-- The section has code, and all of it is in the file. -/
structure Readable (si : ℕ) : Prop where
  header : headerAt obj si + 40 ≤ obj.length
  code : leAt 4 obj (headerAt obj si + 36) &&& 0x20000020 ≠ 0
  ptr : leAt 4 obj (headerAt obj si + 20) ≠ 0
  size : leAt 4 obj (headerAt obj si + 16) ≠ 0
  fits : leAt 4 obj (headerAt obj si + 20) + leAt 4 obj (headerAt obj si + 16) ≤ obj.length

/-- What is read of section `si`. -/
structure CodeSection.ReadAt (syms : List (Option Sym)) (si : ℕ) (sec : CodeSection) : Prop where
  readable : Readable obj si
  data : sec.data = (obj.drop (leAt 4 obj (headerAt obj si + 20))).take
    (leAt 4 obj (headerAt obj si + 16))
  rels : relsFrom obj (leAt 4 obj (headerAt obj si + 24)) (leAt 2 obj (headerAt obj si + 32)) 0 =
    .ok sec.rels
  external : sec.external = Coff.external syms
  starts : sec.starts = startsOf syms (si + 1) (leAt 4 obj (headerAt obj si + 16))

variable {obj} {syms : List (Option Sym)}

variable (syms) in
theorem sectionAt_eq (hobj : obj.length < 2 ^ 63) {si : ℕ} (hsi : si < 65535)
    (hheader : headerAt obj si + 40 ≤ obj.length) :
    (¬Readable obj si ∧ sectionAt obj syms (headerAt obj si) si = .ok []) ∨
      ∃ sec : CodeSection, sec.ReadAt obj syms si ∧
        sectionAt obj syms (headerAt obj si) si = .ok sec.funcs := by
  have hread (w k : ℕ) (hw : w ≤ 4) (hk : k ≤ 36) :
      rd w obj (headerAt obj si + k) = .ok (leAt w obj (headerAt obj si + k)) :=
    rd_eq (by omega) obj
  have hadd (k : ℕ) (hk : k ≤ 36) : add 64 (headerAt obj si) k = .ok (headerAt obj si + k) :=
    add_of_lt (by omega)
  have hptr := leAt_lt 4 obj (headerAt obj si + 20)
  have hsize := leAt_lt 4 obj (headerAt obj si + 16)
  unfold sectionAt
  simp only [rdU32, rdU16]
  rw [hadd 36 (by omega), ok_bind, hread 4 36 (by omega) (by omega), ok_bind]
  split
  · next hcode => exact .inl ⟨fun h ↦ h.code hcode, rfl⟩
  · next hcode =>
    rw [hadd 16 (by omega), ok_bind, hread 4 16 (by omega) (by omega), ok_bind,
      hadd 20 (by omega), ok_bind, hread 4 20 (by omega) (by omega), ok_bind,
      hadd 24 (by omega), ok_bind, hread 4 24 (by omega) (by omega), ok_bind,
      hadd 32 (by omega), ok_bind, hread 2 32 (by omega) (by omega), ok_bind,
      add_of_lt (by omega), ok_bind]
    split
    · next hout =>
      refine .inl ⟨fun h ↦ ?_, rfl⟩
      have hfits := h.fits
      rcases hout with hout | hout | hout
      · exact h.ptr hout
      · omega
      · exact h.size hout
    · next hin =>
      right
      have hreadable : Readable obj si := ⟨hheader, hcode, by omega, by omega, by omega⟩
      have hlength : ((obj.drop (leAt 4 obj (headerAt obj si + 20))).take
          (leAt 4 obj (headerAt obj si + 16))).length = leAt 4 obj (headerAt obj si + 16) := by
        rw [List.length_take, List.length_drop]
        omega
      have hnrel : leAt 2 obj (headerAt obj si + 32) + 0 < 2 ^ 16 :=
        leAt_lt 2 obj (headerAt obj si + 32)
      obtain ⟨rels, hrels⟩ := safe_relsFrom hobj (leAt_lt 4 obj (headerAt obj si + 24)) hnrel
      let sec : CodeSection := {
        data := (obj.drop (leAt 4 obj (headerAt obj si + 20))).take
          (leAt 4 obj (headerAt obj si + 16))
        rels
        external := external syms
        starts := startsOf syms (si + 1) (leAt 4 obj (headerAt obj si + 16))
        sorted := sorted_startsOf _ _ _
        lt := fun s hs ↦ hlength.symm ▸ lt_of_mem_startsOf hs }
      refine ⟨sec, ⟨hreadable, rfl, hrels, rfl, rfl⟩, ?_⟩
      have hdata : sec.data.length < 2 ^ 63 := hlength.symm ▸ by omega
      have hfuncs := CodeSection.funcsFrom_eq hdata rfl sec.sorted sec.lt
      rw [slice_of_le (Nat.le_add_right _ _) (by omega), ok_bind, hrels, ok_bind,
        Nat.add_sub_cancel_left, Nat.mod_eq_of_lt (by omega)]
      rwa [show sec.data.length = _ from hlength] at hfuncs

variable (syms) in
/-- The functions are those of the code sections, in order. -/
theorem sectionsFrom_eq (hobj : obj.length < 2 ^ 63) {n si : ℕ} (hn : n + si ≤ 65535) :
    ∃ secs : List CodeSection,
      sectionsFrom obj syms (20 + leAt 2 obj 16) n si = .ok (secs.flatMap CodeSection.funcs) ∧
        (∀ sec ∈ secs, ∃ k, sec.ReadAt obj syms k) ∧
        ∀ k, si ≤ k → k < si + n → Readable obj k → ∃ sec ∈ secs, sec.ReadAt obj syms k := by
  induction n generalizing si with
  | zero => exact ⟨[], rfl, fun _ h ↦ absurd h List.not_mem_nil, fun k hk hk' _ ↦ by omega⟩
  | succ n ih =>
    have hbase := leAt_lt 2 obj 16
    rw [sectionsFrom, mul_of_lt (by omega), ok_bind, add_of_lt (by omega), ok_bind,
      add_of_lt (by omega), ok_bind, ← headerAt]
    split
    · next hout =>
      refine ⟨[], rfl, fun _ h ↦ absurd h List.not_mem_nil, fun k hk _ hreadable ↦ ?_⟩
      have hheader := hreadable.header
      simp only [headerAt] at hout hheader
      omega
    · next hin =>
      obtain ⟨secs, hsecs, hread, hall⟩ := ih (show n + (si + 1) ≤ 65535 by omega)
      rw [hsecs]
      have hheader : headerAt obj si + 40 ≤ obj.length := by omega
      rcases sectionAt_eq syms hobj (show si < 65535 by omega) hheader with
        ⟨hnot, heq⟩ | ⟨sec, hsec, heq⟩
      · rw [heq]
        refine ⟨secs, rfl, hread, fun k hk hk' hreadable ↦ ?_⟩
        rcases Nat.eq_or_lt_of_le hk with rfl | hlt
        · exact absurd hreadable hnot
        · exact hall k hlt (by omega) hreadable
      · rw [heq]
        refine ⟨sec :: secs, rfl, List.forall_mem_cons.2 ⟨⟨si, hsec⟩, hread⟩,
          fun k hk hk' hreadable ↦ ?_⟩
        rcases Nat.eq_or_lt_of_le hk with rfl | hlt
        · exact ⟨sec, List.mem_cons_self, hsec⟩
        · obtain ⟨sec', hmem, hsec'⟩ := hall k hlt (by omega) hreadable
          exact ⟨sec', List.mem_cons_of_mem sec hmem, hsec'⟩

variable (obj syms) in
/-- What reading an object returns: the functions of the sections `secs`. -/
structure ReadSections (secs : List CodeSection) : Prop where
  functions : functions obj = .ok (secs.flatMap CodeSection.funcs)
  all : 20 ≤ obj.length → leAt 2 obj 0 = 0x8664 →
    symbols obj (leAt 4 obj 8) (leAt 4 obj 12) = .ok syms ∧
      ∀ si < leAt 2 obj 2, Readable obj si → ∃ sec ∈ secs, sec.ReadAt obj syms si
  read : ∀ sec ∈ secs, ∃ si, sec.ReadAt obj syms si
  tile : ∀ sec ∈ secs,
    sec.funcs.flatMap ObjFunc.code = sec.data.drop (sec.stopBefore sec.starts)
  cut : ∀ sec ∈ secs, ∀ f ∈ sec.funcs, ∃ start, sec.Cut start f

theorem exists_readSections (hobj : obj.length < 2 ^ 63) :
    ∃ secs : List CodeSection, functions obj = .ok (secs.flatMap CodeSection.funcs) ∧ ∃ syms,
      (20 ≤ obj.length → leAt 2 obj 0 = 0x8664 →
        symbols obj (leAt 4 obj 8) (leAt 4 obj 12) = .ok syms ∧
          ∀ si < leAt 2 obj 2, Readable obj si → ∃ sec ∈ secs, sec.ReadAt obj syms si) ∧
        ∀ sec ∈ secs, ∃ si, sec.ReadAt obj syms si := by
  have hread (w k : ℕ) (hw : w ≤ 4) (hk : k ≤ 36) : rd w obj k = .ok (leAt w obj k) :=
    rd_eq (by omega) obj
  unfold functions
  simp only [rdU32, rdU16]
  split
  · exact ⟨[], rfl, [], fun h ↦ by omega, fun _ h ↦ absurd h List.not_mem_nil⟩
  · rw [hread 2 0 (by omega) (by omega), ok_bind]
    split
    · next hmachine =>
      exact ⟨[], rfl, [], fun _ h ↦ absurd h hmachine, fun _ h ↦ absurd h List.not_mem_nil⟩
    · next hmachine =>
      have hsections := leAt_lt 2 obj 2
      have hopt := leAt_lt 2 obj 16
      obtain ⟨syms, hsyms⟩ := safe_symbols hobj (leAt_lt 4 obj 8) (leAt_lt 4 obj 12)
      obtain ⟨secs, hsecs, hsec, hall⟩ :=
        sectionsFrom_eq syms hobj (show leAt 2 obj 2 + 0 ≤ 65535 by omega)
      rw [hread 2 2 (by omega) (by omega), ok_bind, hread 4 8 (by omega) (by omega), ok_bind,
        hread 4 12 (by omega) (by omega), ok_bind, hread 2 16 (by omega) (by omega), ok_bind, hsyms,
        ok_bind, add_of_lt (by omega), ok_bind]
      exact ⟨secs, hsecs, syms, fun _ _ ↦ ⟨rfl, fun si hsi ↦ hall si (Nat.zero_le si) (by omega)⟩,
        hsec⟩

/-- Reading an object faults on no file; every code section that is in the file is read, and its
functions are its bytes from the first start on, with what relocations of their own cover left
open. -/
theorem functions_exact (hobj : obj.length < 2 ^ 63) :
    ∃ syms secs, ReadSections obj syms secs := by
  obtain ⟨secs, hfunctions, syms, hall, hread⟩ := exists_readSections hobj
  exact ⟨syms, secs, hfunctions, hall, hread,
    fun sec _ ↦ CodeSection.flatMap_code_cuts sec.sorted sec.lt,
    fun sec _ _ hf ↦ CodeSection.cut_of_mem (List.Subset.refl _) sec.sorted hf⟩

end Object

/-- An object with `main`, which calls `exit`. -/
def callExit : List UInt8 :=
  -- The header, with the offset of the symbols.
  toLE 2 0x8664 ++ toLE 2 1 ++ toLE 4 0 ++ toLE 4 76 ++ toLE 4 2 ++ toLE 2 0 ++ toLE 2 0 ++
  -- The section: its size, and where its bytes and its relocation are.
  toLE 16 0 ++ toLE 4 6 ++ toLE 4 60 ++ toLE 4 66 ++ toLE 4 0 ++ toLE 2 1 ++ toLE 2 0 ++
    toLE 4 0x60000020 ++
  [0xE8, 0, 0, 0, 0, 0xC3] ++
  toLE 4 1 ++ toLE 4 1 ++ toLE 2 4 ++
  encode "main" ++ toLE 4 0 ++ toLE 4 0 ++ toLE 2 1 ++ toLE 2 0x20 ++ [2, 0] ++
  encode "exit" ++ toLE 4 0 ++ toLE 4 0 ++ toLE 2 0 ++ toLE 2 0x20 ++ [2, 0]

theorem functions_exact_callExit : ∃ syms secs, ReadSections callExit syms secs :=
  functions_exact (by decide)

/-- The four bytes of the offset are left open. -/
theorem functions_callExit : functions callExit = .ok [
    { name := "main"
      code := [0xE8, 0, 0, 0, 0, 0xC3]
      variant := [false, true, true, true, true, false]
      refs := [(1, "exit")] }] := by
  decide +kernel

end Coff

end Flirt

end Ldu
