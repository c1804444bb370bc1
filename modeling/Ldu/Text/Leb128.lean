import Mathlib.Data.Nat.Digits.Lemmas

/-!
# Numbers in LEB128

An encoding (`Leb128`) has seven bits of the number in each byte, the lowest first; the top bit of a
byte says whether another byte follows. It has one value as a natural number (`unsigned`), and one
in two's complement (`signed`), where bit 6 of the last byte is the sign. A number has many
encodings: any number of bytes that add nothing may be put behind it.
-/

/-- The bytes of a number: all but the last have the top bit. -/
structure Leb128 where
  init : List UInt8
  last : UInt8
  continues : ∀ b ∈ init, b &&& 0x80 ≠ 0
  ends : last &&& 0x80 = 0

namespace Leb128

/-- The number of seven bits in a byte. -/
def group (b : UInt8) : ℕ :=
  b.toNat % 128

/-- The number that the groups of some bytes make, the lowest first. -/
def value (bs : List UInt8) : ℕ :=
  Nat.ofDigits 128 (bs.map group)

@[simp] theorem value_nil : value [] = 0 := rfl

theorem value_cons (b : UInt8) (bs : List UInt8) : value (b :: bs) = group b + 128 * value bs := by
  rw [value, List.map_cons, Nat.ofDigits_cons]
  rfl

theorem group_lt (b : UInt8) : group b < 128 :=
  Nat.mod_lt _ (by decide)

theorem value_lt (bs : List UInt8) : value bs < 128 ^ bs.length := by
  rw [← List.length_map group]
  refine Nat.ofDigits_lt_base_pow_length (by decide) fun d hd ↦ ?_
  obtain ⟨b, -, rfl⟩ := List.mem_map.1 hd
  exact group_lt b

def bytes (e : Leb128) : List UInt8 :=
  e.init ++ [e.last]

theorem length_bytes (e : Leb128) : e.bytes.length = e.init.length + 1 := by
  simp [bytes]

def unsigned (e : Leb128) : ℕ :=
  value e.bytes

/-- The value in two's complement. -/
def signed (e : Leb128) : ℤ :=
  value e.bytes - if e.last &&& 0x40 ≠ 0 then 128 ^ e.bytes.length else 0

/-- The bytes up to the first without the top bit are those of the encoding. -/
theorem takeWhile_bytes_append (e : Leb128) (tail : List UInt8) :
    (e.bytes ++ tail).takeWhile (fun b ↦ b &&& 0x80 ≠ 0) = e.init := by
  rw [bytes, List.append_assoc,
    List.takeWhile_append_of_pos fun b hb ↦ decide_eq_true (e.continues b hb),
    List.singleton_append, List.takeWhile_cons_of_neg (by simp [e.ends]), List.append_nil]

end Leb128
