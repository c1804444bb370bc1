import Ldu.Text.Leb128
import Ldu.Binary.Forms

/-!
# The numbers that the cursor reads

`Cur::uleb` and `Cur::sleb` gather the groups of a number by shifts and disjunctions of 64 bits.
What they return is the value of the encoding modulo `2 ^ 64` (`toNat_lebValue`), and so the value
itself where that fits into 64 bits, however many bytes of padding it has, up to the cut-off.

The source shifts with `<<`, which does not let a number be shifted by its width; `ulebChecked` and
`slebChecked` have these checks.
-/

namespace Ldu

namespace Dwarf

open Checked Reader

/-! ### Checked shifts -/

/-- `v << n`, which faults where `n` is the width of the number or more. -/
def shl (v : UInt64) (n : ℕ) : Checked UInt64 :=
  if n < 64 then .ok (v <<< UInt64.ofNat n) else .error .shift

/-- The groups so far and the one of a byte. -/
def gather (v : UInt64) (b : UInt8) (shift : ℕ) : Checked UInt64 :=
  if shift < 64 then do
    let g ← shl (b &&& 0x7F).toUInt64 shift
    return v ||| g
  else return v

def signExtendChecked (b : UInt8) (v : UInt64) (shift : ℕ) : Checked UInt64 :=
  if shift < 64 ∧ b &&& 0x40 ≠ 0 then do
    let m ← shl (-1) shift
    return v ||| m
  else return v

def lebLoopChecked {α : Type} (value : UInt8 → UInt64 → ℕ → Checked α) :
    ℕ → UInt64 → ℕ → Read α
  | 0, _, _ => fault .endless
  | fuel + 1, v, shift => do
    let b ← u8
    let v ← lift (gather v b shift)
    let shift ← lift (add 32 shift 7)
    if b &&& 0x80 = 0 then lift (value b v shift)
    else if 128 < shift then failure
    else lebLoopChecked value fuel v shift

def ulebChecked : Read ℕ :=
  lebLoopChecked (fun _ v _ ↦ .ok v.toNat) 19 0 0

def slebChecked : Read ℤ :=
  lebLoopChecked (fun b v shift ↦ do
    let v ← signExtendChecked b v shift
    return v.toInt64.toInt) 19 0 0

theorem gather_eq (v : UInt64) (b : UInt8) (shift : ℕ) :
    gather v b shift = .ok (v ||| payload b shift) := by
  unfold gather payload
  split
  · next h => rw [shl, if_pos h]; rfl
  · rw [UInt64.or_zero]; rfl

theorem signExtendChecked_eq (b : UInt8) (v : UInt64) (shift : ℕ) :
    signExtendChecked b v shift = .ok (signExtend b v shift) := by
  unfold signExtendChecked signExtend
  split
  · next h => rw [shl, if_pos h.1]; rfl
  · rfl

theorem lift_ok {σ α : Type} (a : α) : (lift (.ok a) : Reader σ α) = pure a := rfl

/-- No shift is too wide. -/
theorem lebLoopChecked_eq {α : Type} {value' : UInt8 → UInt64 → ℕ → Checked α}
    {value : UInt8 → UInt64 → ℕ → α} (h : ∀ b v shift, value' b v shift = .ok (value b v shift))
    (fuel : ℕ) (v : UInt64) (shift : ℕ) :
    lebLoopChecked value' fuel v shift = lebLoop value fuel v shift := by
  induction fuel generalizing v shift with
  | zero => rfl
  | succ fuel ih =>
    simp only [lebLoopChecked, lebLoop, gather_eq, lift_ok, pure_bind, h, ih]

theorem ulebChecked_eq : ulebChecked = uleb :=
  lebLoopChecked_eq (fun _ _ _ ↦ rfl) 19 0 0

theorem slebChecked_eq : slebChecked = sleb :=
  lebLoopChecked_eq (fun b v shift ↦ by rw [signExtendChecked_eq]; rfl) 19 0 0

/-! ### What the groups make -/

theorem toNat_payload (b : UInt8) (shift : ℕ) :
    (payload b shift).toNat = Leb128.group b * 2 ^ shift % 2 ^ 64 := by
  have hgroup : (b &&& 0x7F).toNat = Leb128.group b := by
    rw [UInt8.toNat_and]
    exact Nat.and_two_pow_sub_one_eq_mod b.toNat 7
  unfold payload
  split
  · next h =>
    have hshift : (UInt64.ofNat shift).toNat % 64 = shift := by
      rw [UInt64.toNat_ofNat', Nat.mod_mod_of_dvd _ (by decide), Nat.mod_eq_of_lt h]
    rw [UInt64.toNat_shiftLeft, hshift, UInt8.toNat_toUInt64, hgroup, Nat.shiftLeft_eq]
  · next h =>
    obtain ⟨k, rfl⟩ := Nat.exists_eq_add_of_le (Nat.le_of_not_lt h)
    rw [pow_add, Nat.mul_left_comm, Nat.mul_mod_right]
    rfl

/-- The groups are disjoint, so that their disjunction is their sum. -/
theorem toNat_lebValue (shift : ℕ) (bs : List UInt8) :
    (lebValue shift bs).toNat = Leb128.value bs * 2 ^ shift % 2 ^ 64 := by
  induction bs generalizing shift with
  | nil => simp [lebValue]
  | cons b bs ih =>
    have hsum : Leb128.group b * 2 ^ shift ||| Leb128.value bs * 2 ^ (shift + 7) =
        Leb128.value (b :: bs) * 2 ^ shift := by
      have hor := Nat.two_pow_add_eq_or_of_lt (i := 7) (Leb128.group_lt b) (Leb128.value bs)
      rw [pow_add, Nat.mul_comm (2 ^ shift), ← Nat.mul_assoc, ← Nat.shiftLeft_eq,
        ← Nat.shiftLeft_eq, ← Nat.shiftLeft_or_distrib, Nat.or_comm, Nat.mul_comm _ (2 ^ 7), ← hor,
        Nat.shiftLeft_eq, Leb128.value_cons, Nat.add_comm]
    rw [lebValue, UInt64.toNat_or, toNat_payload, ih, ← Nat.or_mod_two_pow, hsum]

theorem toNat_lebValue_bytes (e : Leb128) :
    (lebValue 0 e.bytes).toNat = Leb128.value e.bytes % 2 ^ 64 := by
  rw [toNat_lebValue, pow_zero, Nat.mul_one]

/-- Filling up with ones subtracts the power of two behind the groups. -/
theorem toNat_or_shl {v : UInt64} {shift : ℕ} (hv : v.toNat < 2 ^ shift) (hshift : shift < 64) :
    (v ||| (-1) <<< UInt64.ofNat shift).toNat + 2 ^ shift = v.toNat + 2 ^ 64 := by
  have hle : 2 ^ shift ≤ 2 ^ 64 := Nat.pow_le_pow_right (by decide) hshift.le
  have hmod : (UInt64.ofNat shift).toNat % 64 = shift := by
    rw [UInt64.toNat_ofNat', Nat.mod_mod_of_dvd _ (by decide), Nat.mod_eq_of_lt hshift]
  have hpow : 2 ^ shift * 2 ^ (64 - shift) = 2 ^ 64 := by
    rw [← pow_add, Nat.add_sub_cancel' hshift.le]
  have hones : ((-1 : UInt64) <<< UInt64.ofNat shift).toNat =
      2 ^ shift * (2 ^ (64 - shift) - 1) := by
    have hneg : (-1 : UInt64).toNat = 2 ^ 64 - 1 := rfl
    have hpos : 0 < 2 ^ shift := Nat.two_pow_pos shift
    have hsplit : (2 ^ 64 - 1) * 2 ^ shift = 2 ^ 64 - 2 ^ shift + 2 ^ 64 * (2 ^ shift - 1) := by
      rw [Nat.sub_mul, Nat.mul_sub, Nat.one_mul, Nat.mul_one]
      have := Nat.le_mul_of_pos_right (2 ^ 64) hpos
      omega
    rw [UInt64.toNat_shiftLeft, hmod, hneg, Nat.shiftLeft_eq, hsplit, Nat.add_mul_mod_self_left,
      Nat.mod_eq_of_lt (by omega), Nat.mul_sub, hpow, Nat.mul_one]
  rw [UInt64.toNat_or, hones, Nat.or_comm, ← Nat.two_pow_add_eq_or_of_lt hv, Nat.mul_sub, hpow,
    Nat.mul_one]
  omega

/-- What `sleb` makes of the groups is congruent to the signed value. -/
theorem toNat_signExtend (e : Leb128) :
    ((signExtend e.last (lebValue 0 e.bytes) (7 * e.bytes.length)).toNat : ℤ) ≡ e.signed
      [ZMOD 2 ^ 64] := by
  have hvalue : ((lebValue 0 e.bytes).toNat : ℤ) ≡ Leb128.value e.bytes [ZMOD 2 ^ 64] := by
    rw [toNat_lebValue_bytes, Int.natCast_mod]
    exact Int.mod_modEq _ _
  have hpow : (128 : ℤ) ^ e.bytes.length = 2 ^ (7 * e.bytes.length) := by
    rw [pow_mul]
    rfl
  unfold signExtend Leb128.signed
  by_cases hsign : e.last &&& 0x40 = 0
  · -- The number is not negative.
    rw [if_neg fun h ↦ h.2 hsign, if_neg (not_not.2 hsign), sub_zero]
    exact hvalue
  rw [if_pos hsign, hpow]
  by_cases hshift : 7 * e.bytes.length < 64
  · have hlt : (lebValue 0 e.bytes).toNat < 2 ^ (7 * e.bytes.length) := by
      rw [toNat_lebValue_bytes]
      refine (Nat.mod_le _ _).trans_lt ((Leb128.value_lt _).trans_eq ?_)
      rw [pow_mul]
      rfl
    have hfill : ((lebValue 0 e.bytes ||| (-1) <<< UInt64.ofNat (7 * e.bytes.length)).toNat : ℤ) =
        (lebValue 0 e.bytes).toNat - 2 ^ (7 * e.bytes.length) + 2 ^ 64 := by
      have := toNat_or_shl hlt hshift
      push_cast [← @Nat.cast_inj ℤ] at this
      linarith
    rw [if_pos ⟨hshift, hsign⟩, hfill]
    exact Int.add_modEq_right.trans (hvalue.sub_right _)
  · -- The sign lies above the 64 bits.
    rw [if_neg fun h ↦ hshift h.1]
    have hdvd : (2 : ℤ) ^ 64 ∣ 2 ^ (7 * e.bytes.length) := pow_dvd_pow _ (by omega)
    refine hvalue.trans (Int.modEq_iff_dvd.2 ?_)
    rw [sub_sub_cancel_left]
    exact hdvd.neg_right

/-! ### What the cursor reads -/

theorem lebLength_bytes_append (e : Leb128) (tail : List UInt8) (hlen : e.bytes.length ≤ 19) :
    lebLength 19 (e.bytes ++ tail) = some e.bytes.length := by
  have hinit := e.takeWhile_bytes_append tail
  rw [e.length_bytes] at hlen ⊢
  rw [lebLength]
  simp only [hinit]
  rw [if_pos ⟨by rw [List.length_append, e.length_bytes]; omega, by omega⟩]

/-- A number in two's complement is known from its bits. -/
theorem toInt64_toInt_of_modEq {v : UInt64} {k : ℤ} (hv : (v.toNat : ℤ) ≡ k [ZMOD 2 ^ 64])
    (hlo : -2 ^ 63 ≤ k) (hhi : k < 2 ^ 63) : v.toInt64.toInt = k := by
  have hint : v.toInt64.toInt = (v.toNat : ℤ).bmod (2 ^ 64) :=
    BitVec.toInt_eq_toNat_bmod v.toBitVec
  have hmod : (v.toNat : ℤ) % (2 ^ 64 : ℕ) = k % (2 ^ 64 : ℕ) := by exact_mod_cast hv
  rw [hint, ← Int.emod_bmod, hmod, Int.emod_bmod]
  exact Int.bmod_eq_of_le_mul_two (by omega) (by omega)

section Read

variable {c : Cur} {e : Leb128} {tail : List UInt8}

/-- The cursor that stands before an encoding has bytes left. -/
theorem valid_of_rest (hlen : c.b.length < 2 ^ 63) (hrest : c.rest = e.bytes ++ tail) :
    c.Valid := by
  refine ⟨hlen, ?_⟩
  have hleft := c.length_rest
  rw [hrest, List.length_append, e.length_bytes, Cur.left] at hleft
  omega

theorem run_uleb_bytes (hlen : c.b.length < 2 ^ 63) (hrest : c.rest = e.bytes ++ tail)
    (hshort : e.bytes.length ≤ 18) :
    uleb.run c = .ok (some (e.unsigned % 2 ^ 64), c.move e.bytes.length) := by
  have hrun := run_uleb (valid_of_rest hlen hrest)
  rw [hrest, lebLength_bytes_append e tail (by omega)] at hrun
  dsimp only at hrun
  rwa [List.take_left, toNat_lebValue_bytes] at hrun

theorem run_sleb_bytes (hlen : c.b.length < 2 ^ 63) (hrest : c.rest = e.bytes ++ tail)
    (hshort : e.bytes.length ≤ 18) (hlo : -2 ^ 63 ≤ e.signed) (hhi : e.signed < 2 ^ 63) :
    sleb.run c = .ok (some e.signed, c.move e.bytes.length) := by
  have hrun := run_sleb_value (valid_of_rest hlen hrest)
  rw [hrest, lebLength_bytes_append e tail (by omega)] at hrun
  dsimp only at hrun
  rw [List.take_left] at hrun
  obtain ⟨b, hlast, hrun⟩ := hrun
  rw [Leb128.bytes, List.getLast?_concat, Option.some.injEq] at hlast
  rw [hrun, ← hlast, toInt64_toInt_of_modEq (toNat_signExtend e) hlo hhi]

end Read

/-- Where no byte is left, nothing is found. -/
theorem run_lebLoop_nil {α : Type} (value : UInt8 → UInt64 → ℕ → α) {c : Cur}
    (hrest : c.rest = []) : (lebLoop value 19 0 0).run c = .ok (none, c) := by
  rw [lebLoop, run_bind, run_u8_nil hrest]
  rfl

/-- Whatever stands behind the cursor, the readers end and leave it in the section. -/
theorem ends_leb (c : Cur) (hlen : c.b.length < 2 ^ 63) :
    (∃ o n, n ≤ c.left ∧ uleb.run c = .ok (o, c.move n)) ∧
      ∃ o n, n ≤ c.left ∧ sleb.run c = .ok (o, c.move n) := by
  by_cases hp : c.p ≤ c.b.length
  · have hc : c.Valid := ⟨hlen, by omega⟩
    have huleb := run_uleb hc
    have hsleb := run_sleb hc
    cases hn : lebLength 19 c.rest with
    | some n =>
      rw [hn] at huleb hsleb
      obtain ⟨a, hsleb⟩ := hsleb
      have hle : n ≤ c.left := (lebLength_le hn).2.trans c.length_rest.le
      exact ⟨⟨_, n, hle, huleb⟩, ⟨_, n, hle, hsleb⟩⟩
    | none =>
      rw [hn] at huleb hsleb
      obtain ⟨m, hm, huleb⟩ := huleb
      obtain ⟨n, hn, hsleb⟩ := hsleb
      exact ⟨⟨_, m, hm, huleb⟩, ⟨_, n, hn, hsleb⟩⟩
  · have hrest : c.rest = [] := List.drop_eq_nil_of_le (by omega)
    exact ⟨⟨none, 0, Nat.zero_le _, run_lebLoop_nil _ hrest⟩,
      ⟨none, 0, Nat.zero_le _, run_lebLoop_nil _ hrest⟩⟩

/-- Numbers of 64 bits are read exactly, from every encoding of at most 18 bytes and whatever stands
behind it; and on every section the readers end, with no shift too wide and the cursor not moved
over the end. -/
theorem leb_exact (c : Cur) (hlen : c.b.length < 2 ^ 63) :
    (∀ (e : Leb128) (tail : List UInt8), c.rest = e.bytes ++ tail → e.bytes.length ≤ 18 →
      (∀ v < 2 ^ 64, e.unsigned = v →
        ulebChecked.run c = .ok (some v, c.move e.bytes.length)) ∧
      ∀ v : ℤ, -2 ^ 63 ≤ v → v < 2 ^ 63 → e.signed = v →
        slebChecked.run c = .ok (some v, c.move e.bytes.length)) ∧
    (∃ o n, n ≤ c.left ∧ ulebChecked.run c = .ok (o, c.move n)) ∧
      ∃ o n, n ≤ c.left ∧ slebChecked.run c = .ok (o, c.move n) := by
  rw [ulebChecked_eq, slebChecked_eq]
  refine ⟨fun e tail hrest hshort ↦ ⟨?_, ?_⟩, ends_leb c hlen⟩
  · rintro _ hv rfl
    rw [run_uleb_bytes hlen hrest hshort, Nat.mod_eq_of_lt hv]
  · rintro _ hlo hhi rfl
    exact run_sleb_bytes hlen hrest hshort hlo hhi

/-- `-1`, padded to three bytes. -/
def paddedMinusOne : Leb128 where
  init := [0xFF, 0xFF]
  last := 0x7F
  continues := List.forall_mem_cons.2 ⟨by decide, List.forall_mem_singleton.2 (by decide)⟩
  ends := by decide

theorem leb_exact_paddedMinusOne :
    paddedMinusOne.signed = -1 ∧
      slebChecked.run ⟨paddedMinusOne.bytes ++ [0], 0⟩ =
        .ok (some (-1), Cur.move ⟨paddedMinusOne.bytes ++ [0], 0⟩ 3) := by
  have hsigned : paddedMinusOne.signed = -1 := by decide
  exact ⟨hsigned, ((leb_exact ⟨paddedMinusOne.bytes ++ [0], 0⟩ (by decide)).1 paddedMinusOne [0] rfl
    (by decide)).2 (-1) (by decide) (by decide) hsigned⟩

end Dwarf

end Ldu
