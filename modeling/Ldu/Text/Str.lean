import Ldu.Text.Numerals
import Ldu.Text.Utf8
import Mathlib.Data.List.DropRight
import Mathlib.Tactic.IntervalCases

/-!
# Texts as numbers

The functions on texts that the readers of files use: white space is cut off and digits are read as
a number. The digits of a number are read back (`parseUsize_toDigits`), and there is nothing to cut
off them.
-/

namespace Ldu

namespace Str

open Utf8

/-- The text that bytes are, `str::from_utf8`. -/
def fromUtf8? (b : List UInt8) : Option String :=
  if encode (fromUtf8Lossy b) = b then some (fromUtf8Lossy b) else none

/-- `char::is_whitespace` -/
def isWhitespace (c : Char) : Bool :=
  (0x09 ≤ c.toNat && c.toNat ≤ 0x0D) || (0x2000 ≤ c.toNat && c.toNat ≤ 0x200A) ||
    [0x20, 0x85, 0xA0, 0x1680, 0x2028, 0x2029, 0x202F, 0x205F, 0x3000].contains c.toNat

/-- `str::trim` -/
def trim (s : List Char) : List Char :=
  (s.dropWhile isWhitespace).rdropWhile isWhitespace

/-- `str::parse`, for a number of 64 bits: digits, behind a plus or not. -/
def parseUsize (s : List Char) : Option ℕ :=
  let ds := if s.head? = some '+' then s.tail else s
  if ds ≠ [] ∧ ds.all Char.isDigit ∧ Nat.ofDigitChars 10 ds 0 < 2 ^ 64 then
    some (Nat.ofDigitChars 10 ds 0)
  else none

theorem mem_toDigits_range {n : ℕ} {c : Char} (hc : c ∈ Nat.toDigits 10 n) :
    0x30 ≤ c.toNat ∧ c.toNat ≤ 0x39 :=
  Char.isDigit_iff_toNat.1 (Nat.isDigit_of_mem_toDigits (by decide) (by decide) hc)

theorem parseUsize_toDigits {n : ℕ} (hn : n < 2 ^ 64) :
    parseUsize (Nat.toDigits 10 n) = some n := by
  have hplus : (Nat.toDigits 10 n).head? ≠ some '+' := fun h ↦ by
    have hrange := mem_toDigits_range (List.mem_of_mem_head? h)
    exact absurd hrange.1 (by decide)
  have hall : (Nat.toDigits 10 n).all Char.isDigit = true :=
    List.all_eq_true.2 fun c hc ↦ Nat.isDigit_of_mem_toDigits (by decide) (by decide) hc
  unfold parseUsize
  rw [if_neg hplus]
  dsimp only
  rw [Nat.ofDigitChars_ten_toDigits, if_pos ⟨Nat.toDigits_ne_nil, hall, hn⟩]

theorem fromUtf8?_encode (s : String) : fromUtf8? (encode s) = some s := by
  rw [fromUtf8?, fromUtf8Lossy_encode, if_pos rfl]

/-- There is no white space in a number. -/
theorem trim_toDigits (n : ℕ) : trim (Nat.toDigits 10 n) = Nat.toDigits 10 n := by
  have hnone : ∀ c ∈ Nat.toDigits 10 n, isWhitespace c = false := fun c hc ↦ by
    have hrange := mem_toDigits_range hc
    have hall : ∀ k : ℕ, 0x30 ≤ k → k ≤ 0x39 → isWhitespace (Char.ofNat k) = false := by
      intro k hlo hhi
      interval_cases k <;> decide
    have := hall c.toNat hrange.1 hrange.2
    rwa [Char.ofNat_toNat] at this
  have hdrop : (Nat.toDigits 10 n).dropWhile isWhitespace = Nat.toDigits 10 n := by
    cases hds : Nat.toDigits 10 n with
    | nil => rfl
    | cons c cs =>
      rw [hds] at hnone
      rw [List.dropWhile_cons_of_neg (by simp [hnone c (.head _)])]
  rw [trim, hdrop, List.rdropWhile_eq_self_iff]
  intro hne
  simp [hnone _ (List.getLast_mem hne)]

end Str

end Ldu
