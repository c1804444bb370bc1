import Ldu.Binary.Dwarf

/-!
# Widths of forms

How many bytes the value of a form has, as the form itself says (`width`), and that skipping the
value moves the cursor by that many (`run_skipForm`).
-/

namespace Ldu

namespace Dwarf

open Checked Reader

/-! ### Runs of the readers -/

namespace Cur

def move (c : Cur) (n : ℕ) : Cur :=
  { c with p := c.p + n }

@[simp] theorem b_move (c : Cur) (n : ℕ) : (c.move n).b = c.b := rfl

@[simp] theorem p_move (c : Cur) (n : ℕ) : (c.move n).p = c.p + n := rfl

@[simp] theorem move_move (c : Cur) (n m : ℕ) : (c.move n).move m = c.move (n + m) := by
  simp [move, Nat.add_assoc]

theorem rest_move (c : Cur) (n : ℕ) : (c.move n).rest = c.rest.drop n := by
  simp [rest, move, List.drop_drop]

/-- The section fits into memory, and the position is at most one behind its end. -/
structure Valid (c : Cur) : Prop where
  length_lt : c.b.length < 2 ^ 63
  p_le : c.p ≤ c.b.length + 1

theorem length_rest (c : Cur) : c.rest.length = c.left :=
  List.length_drop

theorem left_move (c : Cur) (n : ℕ) : (c.move n).left = c.left - n := by
  rw [left, left, p_move, b_move]
  omega

/-- Where it has bytes left, the cursor may move over them. -/
theorem Valid.move {c : Cur} (hc : c.Valid) {n : ℕ} (hn : n ≤ c.left) : (c.move n).Valid := by
  refine ⟨hc.length_lt, ?_⟩
  have := hc.p_le
  rw [left] at hn
  rw [p_move, b_move]
  omega

theorem getElem?_p (c : Cur) : c.b[c.p]? = c.rest.head? := by
  rw [rest, List.head?_drop]

end Cur

section Readers

variable {c : Cur}

theorem run_advance {n : ℕ} (h : c.p + n < 2 ^ 64) :
    (advance n).run c = .ok (some (), c.move n) := by
  have hadd : add 64 c.p n = .ok (c.p + n) := add_of_lt h
  rw [advance, run_bind_get, run_bind_lift, hadd]
  rfl

theorem run_u8_nil (h : c.rest = []) : u8.run c = .ok (none, c) := by
  have hget : c.b[c.p]? = none := by rw [c.getElem?_p, h, List.head?_nil]
  rw [u8, run_bind_get, hget]
  rfl

theorem run_u8_cons (hc : c.Valid) {v : UInt8} {bs : List UInt8} (h : c.rest = v :: bs) :
    u8.run c = .ok (some v, c.move 1) := by
  have hget : c.b[c.p]? = some v := by rw [c.getElem?_p, h, List.head?_cons]
  have hlt : c.p < c.b.length := (List.getElem?_eq_some_iff.1 hget).1
  have hlen := hc.length_lt
  rw [u8, run_bind_get, hget]
  dsimp only
  rw [run_bind, run_advance (by omega)]
  rfl

theorem run_number (hc : c.Valid) (n : ℕ) (hn : n ≤ 8) (hpos : 0 < n) :
    (number n).run c =
      if n ≤ c.left then .ok (some (ofLE (c.rest.take n)), c.move n) else .ok (none, c) := by
  have hlen := hc.length_lt
  have hp := hc.p_le
  have hiff : (c.p + n < 2 ^ 64 ∧ c.p + n ≤ c.b.length) ↔ n ≤ c.left := by
    rw [Cur.left]
    omega
  rw [number, run_bind_get, run_bind_guard]
  simp only [hiff]
  split
  · rw [run_bind, run_advance (by omega)]
    rfl
  · rfl

theorem run_skip (hc : c.Valid) (n : ℕ) :
    (skip n).run c = if n ≤ c.left then .ok (some (), c.move n) else .ok (none, c) := by
  have hlen := hc.length_lt
  have hp := hc.p_le
  rw [skip, run_bind_get, run_bind_guard]
  split
  · next h =>
    rw [Cur.left] at h
    rw [run_advance (by omega)]
  · rfl

/-- The number of bytes of a number in LEB128, of at most `fuel`. -/
def lebLength (fuel : ℕ) (bs : List UInt8) : Option ℕ :=
  let n := (bs.takeWhile fun b ↦ b &&& 0x80 ≠ 0).length
  if n < bs.length ∧ n < fuel then some (n + 1) else none

/-- The payloads of the bytes of a number in LEB128. -/
def lebValue (shift : ℕ) : List UInt8 → UInt64
  | [] => 0
  | b :: bs => payload b shift ||| lebValue (shift + 7) bs

theorem lebLength_cons_stop {fuel : ℕ} {b : UInt8} {bs : List UInt8} (hb : b &&& 0x80 = 0) :
    lebLength (fuel + 1) (b :: bs) = some 1 := by
  simp [lebLength, hb]

theorem lebLength_cons_more {fuel : ℕ} {b : UInt8} {bs : List UInt8} (hb : b &&& 0x80 ≠ 0) :
    lebLength (fuel + 1) (b :: bs) = (lebLength fuel bs).map (· + 1) := by
  simp only [lebLength, List.takeWhile_cons, hb, ne_eq, not_false_eq_true, decide_true, if_true,
    List.length_cons, Nat.add_lt_add_iff_right]
  split <;> rfl

/-- A number in LEB128 is read to its end, or the cursor stays in the section. -/
theorem run_lebLoop {α : Type} (value : UInt8 → UInt64 → ℕ → α) (fuel : ℕ) (v : UInt64)
    (shift : ℕ) (hc : c.Valid) (hfuel : 0 < fuel) (hshift : shift + 7 * fuel = 133) :
    match lebLength fuel c.rest with
    | some n => ∃ b, (c.rest.take n).getLast? = some b ∧ (lebLoop value fuel v shift).run c =
        .ok (some (value b (v ||| lebValue shift (c.rest.take n)) (shift + 7 * n)), c.move n)
    | none => ∃ n ≤ c.left, (lebLoop value fuel v shift).run c = .ok (none, c.move n) := by
  induction fuel generalizing c v shift with
  | zero => omega
  | succ fuel ih =>
    rw [lebLoop]
    cases hrest : c.rest with
    | nil =>
      have hnone : lebLength (fuel + 1) [] = none := rfl
      rw [hnone]
      exact ⟨0, Nat.zero_le _, by rw [run_bind, run_u8_nil hrest]; rfl⟩
    | cons b bs =>
      have hleft : 1 ≤ c.left := by
        rw [← c.length_rest, hrest]
        exact Nat.succ_pos _
      have hadd : add 32 shift 7 = .ok (shift + 7) := add_of_lt (by omega)
      have hrun : ∀ f : UInt8 → Read α, (u8 >>= f).run c = (f b).run (c.move 1) := fun f ↦ by
        rw [run_bind, run_u8_cons hc hrest]
        rfl
      rw [hrun, run_bind_lift, hadd, ok_bind]
      by_cases hb : b &&& 0x80 = 0
      · rw [if_pos hb, lebLength_cons_stop hb]
        refine ⟨b, rfl, ?_⟩
        simp [lebValue]
      · rw [if_neg hb, lebLength_cons_more hb]
        have hrest' : (c.move 1).rest = bs := by rw [Cur.rest_move, hrest]; rfl
        split
        · next n hn =>
          obtain ⟨k, hk, rfl⟩ := Option.map_eq_some_iff.1 hn
          have hfuel' : 0 < fuel := by
            by_contra h
            obtain rfl : fuel = 0 := by omega
            simp [lebLength] at hk
          have h := ih (v ||| payload b shift) (shift + 7) (hc.move hleft) hfuel' (by omega)
          rw [hrest', hk] at h
          obtain ⟨b', hlast, hb'⟩ := h
          refine ⟨b', ?_, ?_⟩
          · rw [List.take_succ_cons, List.getLast?_cons, hlast]
            rfl
          rw [if_neg (by omega), hb', Cur.move_move, List.take_succ_cons, lebValue,
            ← UInt64.or_assoc, Nat.add_comm 1 k,
            show shift + 7 + 7 * k = shift + 7 * (k + 1) by omega]
        · next hn =>
          split
          · exact ⟨1, hleft, rfl⟩
          · next hshift' =>
            have h := ih (v ||| payload b shift) (shift + 7) (hc.move hleft) (by omega) (by omega)
            rw [hrest', Option.map_eq_none_iff.1 hn] at h
            obtain ⟨n, hn, h⟩ := h
            rw [Cur.left_move] at hn
            exact ⟨1 + n, by omega, by rw [h, Cur.move_move]⟩

theorem run_uleb (hc : c.Valid) :
    match lebLength 19 c.rest with
    | some n => uleb.run c = .ok (some (lebValue 0 (c.rest.take n)).toNat, c.move n)
    | none => ∃ n ≤ c.left, uleb.run c = .ok (none, c.move n) := by
  have h := run_lebLoop (fun _ v _ ↦ v.toNat) 19 0 0 hc (by decide) rfl
  split
  · next n hn =>
    rw [hn] at h
    obtain ⟨b, -, h⟩ := h
    rw [uleb, h, UInt64.zero_or]
  · next hn =>
    rw [hn] at h
    exact h

/-- The value is made of the groups and of the last byte. -/
theorem run_sleb_value (hc : c.Valid) :
    match lebLength 19 c.rest with
    | some n => ∃ b, (c.rest.take n).getLast? = some b ∧ sleb.run c =
        .ok (some (signExtend b (lebValue 0 (c.rest.take n)) (7 * n)).toInt64.toInt, c.move n)
    | none => ∃ n ≤ c.left, sleb.run c = .ok (none, c.move n) := by
  have h := run_lebLoop (fun b v shift ↦ (signExtend b v shift).toInt64.toInt) 19 0 0 hc
    (by decide) rfl
  split
  · next n hn =>
    rw [hn] at h
    obtain ⟨b, hlast, h⟩ := h
    refine ⟨b, hlast, ?_⟩
    rw [sleb, h, UInt64.zero_or, Nat.zero_add]
  · next hn =>
    rw [hn] at h
    exact h

theorem run_sleb (hc : c.Valid) :
    match lebLength 19 c.rest with
    | some n => ∃ a, sleb.run c = .ok (some a, c.move n)
    | none => ∃ n ≤ c.left, sleb.run c = .ok (none, c.move n) := by
  have h := run_sleb_value hc
  split
  · next n hn =>
    rw [hn] at h
    obtain ⟨b, -, h⟩ := h
    exact ⟨_, h⟩
  · next hn =>
    rw [hn] at h
    exact h

theorem lebLength_le {fuel n : ℕ} {bs : List UInt8} (h : lebLength fuel bs = some n) :
    0 < n ∧ n ≤ bs.length := by
  unfold lebLength at h
  dsimp only at h
  split_ifs at h with hlt
  obtain rfl := Option.some.inj h
  omega

theorem run_cstr (hc : c.Valid) :
    cstr.run c =
      if c.p ≤ c.b.length then
        .ok (some (Utf8.fromUtf8Lossy (c.rest.takeWhile (· ≠ 0))),
          c.move ((c.rest.takeWhile (· ≠ 0)).length + 1))
      else .ok (none, c) := by
  have hlen := hc.length_lt
  have hp := hc.p_le
  have htext : (c.rest.takeWhile (· ≠ 0)).length ≤ c.left :=
    (List.takeWhile_sublist _).length_le.trans c.length_rest.le
  rw [Cur.left] at htext
  rw [cstr, run_bind_get, run_bind_set, run_bind_guard]
  split
  · next h =>
    rw [run_bind_set, run_pure, if_pos (by omega)]
    have hmin : min (c.p + (c.rest.takeWhile (· ≠ 0)).length + 1) (2 ^ 64 - 1) =
        c.p + ((c.rest.takeWhile (· ≠ 0)).length + 1) := by omega
    rw [hmin]
    rfl
  · next h =>
    have hzero : (c.rest.takeWhile (· ≠ 0)).length = 0 := by omega
    rw [if_neg (by omega), hzero]
    rfl

theorem run_offset (hc : c.Valid) (z : Sizes) :
    ∃ v, (offset z).run c =
      if z.offSize ≤ c.left then .ok (some v, c.move z.offSize) else .ok (none, c) := by
  unfold offset Sizes.offSize
  cases z.dwarf64 with
  | true => exact ⟨_, run_number hc 8 (by decide) (by decide)⟩
  | false => exact ⟨_, run_number hc 4 (by decide) (by decide)⟩

end Readers

/-! ### Widths -/

namespace Cur

/-- The number, if so many bytes are left. -/
def fits (c : Cur) (n : ℕ) : Option ℕ :=
  if n ≤ c.left then some n else none

end Cur

/-- The number of bytes that the value of a form has at the cursor, if the form is known and the
section has that many. A string without a zero counts as if one followed. Of forms that are named
in front of values there may be at most `fuel`. -/
def width (z : Sizes) : ℕ → ℕ → Cur → Option ℕ
  | 0, _, _ => none
  | fuel + 1, form, c =>
    match layout form with
    | some .addr => c.fits z.addrSize
    | some (.fixed n) => c.fits n
    | some .block1 => c.rest.head?.bind fun n ↦ c.fits (1 + n.toNat)
    | some .block2 => (c.fits 2).bind fun _ ↦ c.fits (2 + ofLE (c.rest.take 2))
    | some .block4 => (c.fits 4).bind fun _ ↦ c.fits (4 + ofLE (c.rest.take 4))
    | some .block =>
      (lebLength 19 c.rest).bind fun n ↦ c.fits (n + (lebValue 0 (c.rest.take n)).toNat)
    | some .sleb => lebLength 19 c.rest
    | some .uleb => lebLength 19 c.rest
    | some .string =>
      if c.p ≤ c.b.length then some ((c.rest.takeWhile (· ≠ 0)).length + 1) else none
    | some .offset => c.fits z.offSize
    | some .absent => some 0
    | some .indirect =>
      (lebLength 19 c.rest).bind fun n ↦
        (width z fuel (lebValue 0 (c.rest.take n)).toNat (c.move n)).map (n + ·)
    | none => none

section Skip

variable {c : Cur}

/-- Reading a length and skipping as many bytes. -/
theorem run_skip_move (hc : c.Valid) {k : ℕ} (hk : k ≤ c.left) (n : ℕ) :
    (skip n).run (c.move k) =
      if k + n ≤ c.left then .ok (some (), c.move (k + n)) else .ok (none, c.move k) := by
  have hiff : n ≤ (c.move k).left ↔ k + n ≤ c.left := by
    rw [Cur.left_move]
    omega
  rw [run_skip (hc.move hk), Cur.move_move]
  simp only [hiff]

/-- What skipping does: it moves over the value, or finds nothing and stays in the section. -/
def Skips (x : Read Unit) (c : Cur) (w : Option ℕ) : Prop :=
  match w with
  | some n => x.run c = .ok (some (), c.move n) ∧ c.p + n ≤ c.b.length + 1
  | none => ∃ n ≤ c.left, x.run c = .ok (none, c.move n)

theorem skips_fits {x : Read Unit} (hc : c.Valid) {n k : ℕ} (hk : k ≤ c.left)
    (hx : x.run c = if n ≤ c.left then .ok (some (), c.move n) else .ok (none, c.move k)) :
    Skips x c (c.fits n) := by
  have hp := hc.p_le
  unfold Skips Cur.fits
  split_ifs at hx ⊢ with hn
  · refine ⟨hx, ?_⟩
    rw [Cur.left] at hn
    omega
  · exact ⟨k, hk, hx⟩

theorem skips_skip (hc : c.Valid) (n : ℕ) : Skips (skip n) c (c.fits n) :=
  skips_fits hc (Nat.zero_le _) (run_skip hc n)

/-- A length and a block. -/
theorem skips_block {x : Read ℕ} (hc : c.Valid) {k v : ℕ} (hk : k ≤ c.left)
    (hx : x.run c = .ok (some v, c.move k)) : Skips (x >>= skip) c (c.fits (k + v)) := by
  refine skips_fits hc hk ?_
  rw [run_bind, hx, ok_bind]
  exact run_skip_move hc hk v

theorem skips_number_block (hc : c.Valid) (n : ℕ) (hn : n ≤ 8) (hpos : 0 < n) :
    Skips (number n >>= skip) c ((c.fits n).bind fun _ ↦ c.fits (n + ofLE (c.rest.take n))) := by
  have hrun := run_number hc n hn hpos
  by_cases hle : n ≤ c.left
  · have hfits : c.fits n = some n := if_pos hle
    rw [if_pos hle] at hrun
    rw [hfits, Option.bind_some]
    exact skips_block hc hle hrun
  · have hfits : c.fits n = none := if_neg hle
    rw [if_neg hle] at hrun
    rw [hfits, Option.bind_none]
    exact ⟨0, Nat.zero_le _, by rw [run_bind, hrun]; rfl⟩

/-- A number of which only the length matters. -/
theorem skips_leb {α : Type} {x : Read α} (hc : c.Valid)
    (hx : match lebLength 19 c.rest with
      | some n => ∃ a, x.run c = .ok (some a, c.move n)
      | none => ∃ n ≤ c.left, x.run c = .ok (none, c.move n)) :
    Skips (x >>= fun _ ↦ pure ()) c (lebLength 19 c.rest) := by
  have hp := hc.p_le
  cases hn : lebLength 19 c.rest with
  | some n =>
    rw [hn] at hx
    obtain ⟨a, ha⟩ := hx
    have hle := (lebLength_le hn).2
    rw [c.length_rest, Cur.left] at hle
    exact ⟨by rw [run_bind, ha]; rfl, by omega⟩
  | none =>
    rw [hn] at hx
    obtain ⟨n, hle, hx⟩ := hx
    exact ⟨n, hle, by rw [run_bind, hx]; rfl⟩

theorem skips_uleb (hc : c.Valid) :
    Skips (uleb >>= fun _ ↦ pure ()) c (lebLength 19 c.rest) := by
  refine skips_leb hc ?_
  have hrun := run_uleb hc
  cases hn : lebLength 19 c.rest with
  | some n =>
    rw [hn] at hrun
    exact ⟨_, hrun⟩
  | none =>
    rw [hn] at hrun
    exact hrun

theorem skips_u8_block (hc : c.Valid) :
    Skips (u8 >>= fun n ↦ skip n.toNat) c (c.rest.head?.bind fun n ↦ c.fits (1 + n.toNat)) := by
  cases hrest : c.rest with
  | nil => exact ⟨0, Nat.zero_le _, by rw [run_bind, run_u8_nil hrest]; rfl⟩
  | cons v bs =>
    have hleft : 1 ≤ c.left := by
      rw [← c.length_rest, hrest]
      exact Nat.succ_pos _
    refine skips_fits hc hleft ?_
    rw [run_bind, run_u8_cons hc hrest, ok_bind]
    exact run_skip_move hc hleft v.toNat

theorem skips_cstr (hc : c.Valid) :
    Skips (cstr >>= fun _ ↦ pure ()) c
      (if c.p ≤ c.b.length then some ((c.rest.takeWhile (· ≠ 0)).length + 1) else none) := by
  have hp := hc.p_le
  have hrun := run_cstr hc
  split_ifs at hrun ⊢ with hle
  · have htext : (c.rest.takeWhile (· ≠ 0)).length ≤ c.left :=
      (List.takeWhile_sublist _).length_le.trans c.length_rest.le
    rw [Cur.left] at htext
    exact ⟨by rw [run_bind, hrun]; rfl, by omega⟩
  · exact ⟨0, Nat.zero_le _, by rw [run_bind, hrun]; rfl⟩

/-- A number, and what is skipped behind it because of its value. -/
theorem skips_behind_uleb (hc : c.Valid) {f : ℕ → Read Unit} {w : ℕ → Cur → Option ℕ}
    (hf : ∀ v n, 0 < n → n ≤ c.left → Skips (f v) (c.move n) (w v (c.move n))) :
    Skips (uleb >>= f) c ((lebLength 19 c.rest).bind fun n ↦
      (w (lebValue 0 (c.rest.take n)).toNat (c.move n)).map (n + ·)) := by
  have hrun := run_uleb hc
  cases hn : lebLength 19 c.rest with
  | none =>
    rw [hn] at hrun
    obtain ⟨n, hle, hrun⟩ := hrun
    exact ⟨n, hle, by rw [run_bind, hrun]; rfl⟩
  | some n =>
    rw [hn] at hrun
    have hle : n ≤ c.left := (lebLength_le hn).2.trans c.length_rest.le
    have hbehind := hf (lebValue 0 (c.rest.take n)).toNat n (lebLength_le hn).1 hle
    rw [Option.bind_some]
    cases hw : w (lebValue 0 (c.rest.take n)).toNat (c.move n) with
    | some k =>
      rw [hw] at hbehind
      obtain ⟨hskip, hend⟩ := hbehind
      rw [Cur.p_move, Cur.b_move, Nat.add_assoc] at hend
      refine ⟨?_, hend⟩
      rw [run_bind, hrun, ok_bind]
      exact hskip.trans (by rw [Cur.move_move])
    | none =>
      rw [hw] at hbehind
      obtain ⟨k, hk, hskip⟩ := hbehind
      rw [Cur.left_move] at hk
      refine ⟨n + k, by omega, ?_⟩
      rw [run_bind, hrun, ok_bind]
      exact hskip.trans (by rw [Cur.move_move])

theorem skips_uleb_block (hc : c.Valid) :
    Skips (uleb >>= skip) c ((lebLength 19 c.rest).bind fun n ↦
      c.fits (n + (lebValue 0 (c.rest.take n)).toNat)) := by
  have hrun := run_uleb hc
  cases hn : lebLength 19 c.rest with
  | some n =>
    rw [hn] at hrun
    exact skips_block hc ((lebLength_le hn).2.trans c.length_rest.le) hrun
  | none =>
    rw [hn] at hrun
    obtain ⟨n, hle, hrun⟩ := hrun
    exact ⟨n, hle, by rw [run_bind, hrun]; rfl⟩

/-- The value of a form is skipped. -/
theorem skips_skipLoop (z : Sizes) (fuel form : ℕ) (hc : c.Valid) (hfuel : c.left < fuel) :
    Skips (skipLoop z fuel form) c (width z fuel form c) := by
  induction fuel generalizing form c with
  | zero => omega
  | succ fuel ih =>
    rw [skipLoop, width]
    cases layout form with
    | none => exact ⟨0, Nat.zero_le _, rfl⟩
    | some l =>
      cases l with
      | addr => exact skips_skip hc _
      | fixed n => exact skips_skip hc n
      | offset => exact skips_skip hc _
      | absent => exact ⟨rfl, hc.p_le⟩
      | block1 => exact skips_u8_block hc
      | block2 => exact skips_number_block hc 2 (by decide) (by decide)
      | block4 => exact skips_number_block hc 4 (by decide) (by decide)
      | block => exact skips_uleb_block hc
      | sleb => exact skips_leb hc (run_sleb hc)
      | uleb => exact skips_uleb hc
      | string => exact skips_cstr hc
      | indirect =>
        -- The real form follows its name, in fewer bytes.
        refine skips_behind_uleb hc fun v n hpos hle ↦ ih v (hc.move hle) ?_
        rw [Cur.left_move]
        omega

end Skip

end Dwarf

end Ldu
