import Ldu.Checked.Arith
import Ldu.Listing.Engine

/-!
# Function names of Go binaries

A Go binary carries a table of its functions, `pclntab`. `parseHeader` accepts a header at a
position of the image and `entryAt` reads one entry of its function table, both in 64-bit arithmetic
that wraps; a read outside the image is a fault.

The header bounds the table but not what the entries say. An entry of the wide table, that of
`go1.16`, holds the offset of its record as a 64-bit number; where the position of the record ends
up within the last bytes of the address space, the test against the size of the image wraps to a
small number and the read goes astray (`safe_entryAt_iff`).
-/

namespace Ldu

namespace Go

open Checked Listing

/-- An engine on an image that fits in memory, loaded at `base`. -/
structure Engine extends Listing.Engine where
  base : ℕ
  base_lt : base < 2 ^ 64
  length_image_lt : image.length < 2 ^ 63

/-- `Header`, where a function table starts and what it holds. -/
structure Header where
  rva : ℕ := 0
  magic : ℕ := 0
  ptrSize : ℕ := 8
  nfunc : ℕ := 0
  textStart : ℕ := 0
  funcnameOff : ℕ := 0
  pclnOff : ℕ := 0
  wideFunctab : Bool := false
  deriving DecidableEq

/-! ### Reading the image -/

section Read

variable (e : Engine)

/-- The byte at an offset. -/
def byteAt (off : ℕ) : OptionT Checked UInt8 :=
  OptionT.lift (index e.image off)

/-- A number of `n` bytes, `rd_u32` and `rd_u64`; none where the image ends before it does. -/
def rdInt (n rva : ℕ) : OptionT Checked ℕ := do
  guard (wrap64 (rva + n) ≤ e.image.length)
  let bs ← slice e.image rva (rva + n)
  return ofLE bs

def rdU32 (rva : ℕ) : OptionT Checked ℕ :=
  rdInt e 4 rva

def rdU64 (rva : ℕ) : OptionT Checked ℕ :=
  rdInt e 8 rva

/-- The rest of a name, behind the `i` characters `s`. -/
def rdNameFrom (rva : ℕ) : ℕ → ℕ → List UInt8 → Checked (List UInt8)
  | 0, _, _ => .ok []
  | fuel + 1, i, s =>
    if wrap64 (rva + i) < e.image.length then do
      let c ← index e.image (wrap64 (rva + i))
      if c = 0 then return s
      else if c < 0x21 ∨ 0x7e < c then return []
      else rdNameFrom rva fuel (i + 1) (s ++ [c])
    else return []

/-- A name of printable characters, `rd_name`; empty if there is none. -/
def rdName (rva : ℕ) : Checked (List UInt8) :=
  rdNameFrom e rva 1024 0 []

/-! ### The table -/

/-- The address of the function table. -/
def Header.functab (h : Header) : ℕ :=
  wrap64 (h.rva + h.pclnOff)

/-- The address of a function and the offset of its record. -/
def entryOf (h : Header) (i : ℕ) : OptionT Checked (ℕ × ℕ) :=
  if h.wideFunctab then do
    let entry ← rdU64 e (wrap64 (h.functab + i * 16))
    let funcoff ← rdU64 e (wrap64 (h.functab + i * 16 + 8))
    guard (e.base ≤ entry)
    return (entry - e.base, funcoff)
  else do
    let eo ← rdU32 e (wrap64 (h.functab + i * 8))
    let fo ← rdU32 e (wrap64 (h.functab + i * 8 + 4))
    guard (e.base ≤ wrap64 (h.textStart + eo))
    return (wrap64 (h.textStart + eo) - e.base, fo)

/-- One entry of the table, `entry_at`: the address of a function and its name. -/
def entryAt (h : Header) (i : ℕ) : OptionT Checked (ℕ × List UInt8) := do
  let (rva, funcoff) ← entryOf e h i
  let fn := wrap64 (h.functab + funcoff)
  let raw ← rdU32 e (wrap64 (fn + if h.wideFunctab then 8 else 4))
  guard (raw < 2 ^ 31)
  let name ← rdName e (wrap64 (h.rva + h.funcnameOff + raw))
  guard (name ≠ [])
  return (rva, name)

/-- The start of the code, which headers before `go1.18` do not have. -/
def textStartAt (hasTextStart : Bool) (rva : ℕ) : OptionT Checked ℕ :=
  if hasTextStart then rdU64 e (wrap64 (rva + 0x18)) else pure 0

/-- A header at a position, `parse_header`. -/
def parseHeader (rva : ℕ) : OptionT Checked Header := do
  let magic ← rdU32 e rva
  guard (magic = 0xfffffff1 ∨ magic = 0xfffffff0 ∨ magic = 0xfffffffa)
  guard (wrap64 (rva + 0x48) ≤ e.image.length)
  let pad ← byteAt e (wrap64 (rva + 4))
  let pad' ← byteAt e (wrap64 (rva + 5))
  guard (pad = 0 ∧ pad' = 0)
  let minLc ← byteAt e (wrap64 (rva + 6))
  let ptrSize ← byteAt e (wrap64 (rva + 7))
  guard (minLc = 1 ∨ minLc = 2 ∨ minLc = 4)
  guard (ptrSize = 8)
  let nfunc ← rdU64 e (wrap64 (rva + 0x08))
  guard (8 ≤ nfunc ∧ nfunc ≤ 4000000)
  let hasTextStart : Bool := magic = 0xfffffff1 ∨ magic = 0xfffffff0
  let textStart ← textStartAt e hasTextStart rva
  let p := if hasTextStart then rva + 0x20 else rva + 0x18
  let funcnameOff ← rdU64 e (wrap64 p)
  let cuOff ← rdU64 e (wrap64 (p + 0x08))
  let filetabOff ← rdU64 e (wrap64 (p + 0x10))
  let pctabOff ← rdU64 e (wrap64 (p + 0x18))
  let pclnOff ← rdU64 e (wrap64 (p + 0x20))
  -- Every table lies behind the header and inside the image.
  let lim := e.image.length - rva
  guard (funcnameOff < lim ∧ pclnOff < lim ∧ cuOff < lim ∧ filetabOff < lim ∧ pctabOff < lim)
  -- The function table has an entry for each function and one at its end.
  guard (wrap64 (pclnOff + (nfunc + 1) * if hasTextStart then 8 else 16) ≤ lim)
  guard (hasTextStart → e.base ≤ textStart)
  return {
    rva, magic, ptrSize := ptrSize.toNat, nfunc, textStart, funcnameOff, pclnOff
    wideFunctab := !hasTextStart }

/-- The entries that are tried before a header is believed, `validate_entries`. -/
def probe (h : Header) (k : ℕ) : ℕ :=
  h.nfunc * k / 16

end Read

/-! ### What the reads return -/

section Spec

variable {e : Engine}

theorem wrap64_of_lt {n : ℕ} (h : n < 2 ^ 64) : wrap64 n = n :=
  Nat.mod_eq_of_lt h

/-- The number of `n` bytes that the image holds at an offset. -/
def intAt (e : Engine) (n off : ℕ) : ℕ :=
  ofLE ((e.image.drop off).take n)

theorem run_rdInt (n rva : ℕ) :
    (rdInt e n rva).run =
      if wrap64 (rva + n) ≤ e.image.length then
        if rva + n ≤ e.image.length then .ok (some (intAt e n rva)) else .error .index
      else .ok none := by
  unfold rdInt
  rw [OptionT.run_bind, Option.elimM, run_guard]
  split
  · by_cases hle : rva + n ≤ e.image.length
    · rw [if_pos hle]
      simp [slice_of_le (Nat.le_add_right rva n) hle, intAt]
    · rw [if_neg hle]
      have hslice : slice e.image rva (rva + n) = .error .index := if_neg fun h ↦ hle h.2
      simp [hslice]
  · rfl

theorem run_rdInt_of_le {n rva : ℕ} (h : rva + n ≤ e.image.length) :
    (rdInt e n rva).run = .ok (some (intAt e n rva)) := by
  have hlt := e.length_image_lt
  rw [run_rdInt, wrap64_of_lt (by omega), if_pos h, if_pos h]

theorem of_run_rdInt {n rva v : ℕ} (h : (rdInt e n rva).run = .ok (some v)) :
    rva + n ≤ e.image.length ∧ v < 256 ^ n := by
  rw [run_rdInt] at h
  split at h
  · split at h
    · next hle =>
      obtain rfl := Option.some.inj (Except.ok.inj h)
      refine ⟨hle, (ofLE_lt _).trans_le (Nat.pow_le_pow_right (by decide) ?_)⟩
      exact List.length_take_le _ _
    · cases h
  · cases h

/-- A read of a few bytes goes astray exactly where its end wraps. -/
theorem safe_rdInt_iff {n rva : ℕ} (hrva : rva < 2 ^ 64) (hn : n ≤ e.image.length) :
    Safe (rdInt e n rva).run ↔ rva + n < 2 ^ 64 := by
  have hlt := e.length_image_lt
  rw [run_rdInt]
  by_cases hwrap : rva + n < 2 ^ 64
  · rw [wrap64_of_lt hwrap]
    refine iff_of_true ?_ hwrap
    split <;> exact safe_ok _
  · have hsmall : wrap64 (rva + n) ≤ e.image.length := by
      unfold wrap64
      omega
    rw [if_pos hsmall, if_neg (by omega)]
    exact iff_of_false (not_safe_error _) hwrap

theorem safe_rdNameFrom (rva fuel i : ℕ) (s : List UInt8) :
    Safe (rdNameFrom e rva fuel i s) := by
  induction fuel generalizing i s with
  | zero => exact safe_ok _
  | succ fuel ih =>
    rw [rdNameFrom]
    split
    · next h =>
      rw [index_of_lt h, ok_bind]
      split
      · exact safe_ok _
      · split
        · exact safe_ok _
        · exact ih _ _
    · exact safe_ok _

/-- What `parse_header` has made sure of. -/
structure Header.Inside (h : Header) (e : Engine) : Prop where
  nfunc_pos : 0 < h.nfunc
  header_le : h.rva + 0x48 ≤ e.image.length
  functab_le :
    h.rva + h.pclnOff + (h.nfunc + 1) * (if h.wideFunctab then 16 else 8) ≤ e.image.length

theorem inside_of_parseHeader {rva : ℕ} (hrva : rva < 2 ^ 64) (haligned : 8 ∣ rva) {h : Header}
    (hh : (parseHeader e rva).run = .ok (some h)) : h.rva = rva ∧ h.Inside e := by
  have hlt := e.length_image_lt
  unfold parseHeader at hh
  obtain ⟨magic, hmagic, hh⟩ := run_bind_eq_some.1 hh
  obtain ⟨-, hh⟩ := run_guard_bind_eq_some.1 hh
  obtain ⟨hsize, hh⟩ := run_guard_bind_eq_some.1 hh
  obtain ⟨_, -, hh⟩ := run_bind_eq_some.1 hh
  obtain ⟨_, -, hh⟩ := run_bind_eq_some.1 hh
  obtain ⟨-, hh⟩ := run_guard_bind_eq_some.1 hh
  obtain ⟨_, -, hh⟩ := run_bind_eq_some.1 hh
  obtain ⟨_, -, hh⟩ := run_bind_eq_some.1 hh
  obtain ⟨-, hh⟩ := run_guard_bind_eq_some.1 hh
  obtain ⟨-, hh⟩ := run_guard_bind_eq_some.1 hh
  obtain ⟨nfunc, -, hh⟩ := run_bind_eq_some.1 hh
  obtain ⟨hnfunc, hh⟩ := run_guard_bind_eq_some.1 hh
  obtain ⟨textStart, -, hh⟩ := run_bind_eq_some.1 hh
  obtain ⟨funcnameOff, -, hh⟩ := run_bind_eq_some.1 hh
  obtain ⟨_, -, hh⟩ := run_bind_eq_some.1 hh
  obtain ⟨_, -, hh⟩ := run_bind_eq_some.1 hh
  obtain ⟨_, -, hh⟩ := run_bind_eq_some.1 hh
  obtain ⟨pclnOff, -, hh⟩ := run_bind_eq_some.1 hh
  obtain ⟨hlim, hh⟩ := run_guard_bind_eq_some.1 hh
  obtain ⟨htable, hh⟩ := run_guard_bind_eq_some.1 hh
  obtain ⟨-, hh⟩ := run_guard_bind_eq_some.1 hh
  obtain rfl := Option.some.inj (Except.ok.inj hh)
  -- The magic word has been read, and an aligned word does not wrap.
  have hread := (of_run_rdInt hmagic).1
  rw [wrap64_of_lt (by omega)] at hsize
  refine ⟨rfl, by dsimp only; omega, hsize, ?_⟩
  generalize decide (magic = 0xfffffff1 ∨ magic = 0xfffffff0) = hasTextStart at htable ⊢
  cases hasTextStart with
  | true =>
    simp only [Bool.not_true, if_true, Bool.false_eq_true, if_false] at htable ⊢
    rw [wrap64_of_lt (by omega)] at htable
    omega
  | false =>
    simp only [Bool.not_false, if_true, Bool.false_eq_true, if_false] at htable ⊢
    rw [wrap64_of_lt (by omega)] at htable
    omega

end Spec

/-! ### Entries -/

section Entries

variable {e : Engine} {h : Header} {i : ℕ}

theorem functab_eq (hin : h.Inside e) : h.functab = h.rva + h.pclnOff := by
  have hlt := e.length_image_lt
  have hle := hin.functab_le
  exact wrap64_of_lt (by split at hle <;> omega)

theorem run_entryOf_wide (hin : h.Inside e) (hi : i < h.nfunc) (hwide : h.wideFunctab = true) :
    (entryOf e h i).run =
      .ok (if e.base ≤ intAt e 8 (h.functab + i * 16) then
        some (intAt e 8 (h.functab + i * 16) - e.base, intAt e 8 (h.functab + i * 16 + 8))
      else none) := by
  have hlt := e.length_image_lt
  have hle := hin.functab_le
  rw [if_pos hwide, ← functab_eq hin] at hle
  have hentry : h.functab + i * 16 + 8 ≤ e.image.length := by omega
  have hfuncoff : h.functab + i * 16 + 8 + 8 ≤ e.image.length := by omega
  unfold entryOf
  rw [if_pos hwide, wrap64_of_lt (by omega), wrap64_of_lt (by omega), OptionT.run_bind,
    Option.elimM, rdU64, run_rdInt_of_le hentry, ok_bind, Option.elim_some, OptionT.run_bind,
    Option.elimM, rdU64, run_rdInt_of_le hfuncoff, ok_bind, Option.elim_some, run_guard_bind]
  split <;> rfl

/-- An offset of the narrow table is a number of 32 bits. -/
theorem run_entryOf_narrow (hin : h.Inside e) (hi : i < h.nfunc) (hwide : h.wideFunctab = false) :
    ∃ o, (entryOf e h i).run = .ok o ∧ ∀ rva funcoff, o = some (rva, funcoff) →
      funcoff < 2 ^ 32 := by
  have hlt := e.length_image_lt
  have hle := hin.functab_le
  rw [if_neg (by simp [hwide]), ← functab_eq hin] at hle
  have heo : h.functab + i * 8 + 4 ≤ e.image.length := by omega
  have hfo : h.functab + i * 8 + 4 + 4 ≤ e.image.length := by omega
  unfold entryOf
  rw [if_neg (by simp [hwide]), wrap64_of_lt (by omega), wrap64_of_lt (by omega),
    OptionT.run_bind, Option.elimM, rdU32, run_rdInt_of_le heo, ok_bind, Option.elim_some,
    OptionT.run_bind, Option.elimM, rdU32, run_rdInt_of_le hfo, ok_bind, Option.elim_some,
    run_guard_bind]
  split
  · refine ⟨_, rfl, fun rva funcoff h ↦ ?_⟩
    obtain ⟨-, rfl⟩ := Prod.mk.inj (Option.some.inj h)
    exact (of_run_rdInt (run_rdInt_of_le hfo)).2
  · exact ⟨none, rfl, nofun⟩

/-- Once the record has been read, so can the name be. -/
theorem safe_record_iff {rva off : ℕ} {name : ℕ → ℕ} :
    Safe (do
      let raw ← rdU32 e off
      guard (raw < 2 ^ 31)
      let nm ← rdName e (name raw)
      guard (nm ≠ [])
      return (rva, nm) : OptionT Checked (ℕ × List UInt8)).run ↔ Safe (rdU32 e off).run := by
  rw [safe_run_bind]
  refine and_iff_left fun raw _ ↦ ?_
  rw [run_guard_bind]
  split
  · obtain ⟨nm, hnm⟩ := safe_rdNameFrom (e := e) (name raw) 1024 0 []
    rw [safe_run_bind]
    refine ⟨⟨some nm, ?_⟩, fun nm' _ ↦ ?_⟩
    · change (rdName e (name raw) >>= fun a ↦ pure (some a)) = _
      rw [rdName, hnm, ok_bind]
      rfl
    · rw [run_guard_bind]
      split <;> exact safe_ok _
  · exact safe_ok _

/-- The record of an entry is said to lie where the test of its bounds wraps. -/
def Header.Overruns (e : Engine) (h : Header) (i : ℕ) : Prop :=
  h.wideFunctab = true ∧ e.base ≤ intAt e 8 (h.functab + i * 16) ∧
    2 ^ 64 - 12 ≤ wrap64 (h.functab + intAt e 8 (h.functab + i * 16 + 8)) ∧
    wrap64 (h.functab + intAt e 8 (h.functab + i * 16 + 8)) < 2 ^ 64 - 8

instance : Decidable (h.Overruns e i) := by
  unfold Header.Overruns
  infer_instance

theorem safe_entryAt_of_inside (hin : h.Inside e) (hi : i < h.nfunc) :
    Safe (entryAt e h i).run ↔ ¬h.Overruns e i := by
  have hlt := e.length_image_lt
  have hheader := hin.header_le
  have hwrap : ∀ n, wrap64 n < 2 ^ 64 := fun n ↦ Nat.mod_lt _ (by decide)
  unfold entryAt Header.Overruns
  rw [safe_run_bind]
  cases hwide : h.wideFunctab with
  | true =>
    rw [run_entryOf_wide hin hi hwide]
    by_cases hbase : e.base ≤ intAt e 8 (h.functab + i * 16)
    · -- The record is read eight bytes behind its start.
      rw [if_pos hbase]
      simp only [safe_ok, true_and, Except.ok.injEq, Option.some.injEq, forall_eq', if_true,
        hbase]
      rw [safe_record_iff, rdU32, safe_rdInt_iff (hwrap _) (by omega)]
      have hfn := hwrap (h.functab + intAt e 8 (h.functab + i * 16 + 8))
      generalize wrap64 (h.functab + intAt e 8 (h.functab + i * 16 + 8)) = fn at hfn ⊢
      unfold wrap64
      omega
    · rw [if_neg hbase]
      simp [hbase]
  | false =>
    obtain ⟨o, ho, hoff⟩ := run_entryOf_narrow hin hi hwide
    rw [ho]
    refine iff_of_true ⟨safe_ok _, ?_⟩ (by simp)
    rintro ⟨rva, funcoff⟩ hsome
    have hsmall := hoff _ _ (Except.ok.inj hsome)
    have hle := hin.functab_le
    have hfunctab := functab_eq hin
    have hfn : wrap64 (h.functab + funcoff) = h.functab + funcoff := wrap64_of_lt (by omega)
    dsimp only
    rw [safe_record_iff, rdU32, safe_rdInt_iff (hwrap _) (by omega), hfn,
      if_neg Bool.false_ne_true, wrap64_of_lt (by omega)]
    omega

/-- An entry of an accepted table, or one that is tried first, is read inside the image unless it
says that its record lies where the test of the bounds wraps. -/
theorem safe_entryAt_iff (e : Engine) (rva : ℕ) (hrva : rva < 2 ^ 64) (haligned : 8 ∣ rva)
    (h : Header) (hh : (parseHeader e rva).run = .ok (some h)) (i : ℕ)
    (hi : i < h.nfunc ∨ ∃ k < 16, i = probe h k) :
    Safe (entryAt e h i).run ↔ ¬h.Overruns e i := by
  obtain ⟨-, hin⟩ := inside_of_parseHeader hrva haligned hh
  refine safe_entryAt_of_inside hin ?_
  rcases hi with hi | ⟨k, hk, rfl⟩
  · exact hi
  · have hpos : 0 < h.nfunc := hin.nfunc_pos
    unfold probe
    exact (Nat.div_lt_iff_lt_mul (by decide)).2 (Nat.mul_lt_mul_of_pos_left hk hpos)

/-- A binary with a table of `go1.16` whose first record is said to lie twelve bytes before the end
of the address space. -/
def wrappingTable : Engine where
  image := [0xfa, 0xff, 0xff, 0xff, 0, 0, 1, 8] ++ toLE 8 8 ++ toLE 8 0 ++
    [0x40, 0x40, 0x40, 0x40, 0x48].flatMap (toLE 8) ++ toLE 8 0 ++ toLE 8 0 ++
    toLE 8 (2 ^ 64 - 12 - 0x48) ++ List.replicate 3992 0
  segments := [{ name := ".text", rva := 0, size := 0x1000, exec := true }]
  base := 0
  base_lt := by decide
  length_image_lt := by simp only [List.length_append, List.length_replicate]; decide +kernel

/-- The header of that table. -/
def wrappingHeader : Header where
  magic := 0xfffffffa
  nfunc := 8
  funcnameOff := 0x40
  pclnOff := 0x48
  wideFunctab := true

theorem safe_entryAt_iff_wrapping :
    Safe (entryAt wrappingTable wrappingHeader 0).run ↔ ¬wrappingHeader.Overruns wrappingTable 0 :=
  safe_entryAt_iff wrappingTable 0 (by decide) (by decide) wrappingHeader (by decide +kernel) 0
    (.inl (by decide))

/-- The header is accepted, and its first entry is read outside the image. -/
theorem not_safe_entryAt :
    (parseHeader wrappingTable 0).run = .ok (some wrappingHeader) ∧ 0 < wrappingHeader.nfunc ∧
      ¬Safe (entryAt wrappingTable wrappingHeader 0).run := by
  decide +kernel

end Entries

end Go

end Ldu
