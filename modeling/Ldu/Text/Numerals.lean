import Mathlib.Data.List.Basic
import Mathlib.Order.Basic

/-!
# Reading numerals

The number at the front of a text, in a base up to sixteen. What a numeral writes is read back
(`numeral_toDigits`), whatever follows it that is not a digit.
-/

namespace Ldu

/-- The value of a digit. -/
def digitValue? (c : Char) : Option ℕ :=
  if '0' ≤ c ∧ c ≤ '9' then some (c.toNat - '0'.toNat)
  else if 'a' ≤ c ∧ c ≤ 'f' then some (c.toNat - 'a'.toNat + 10)
  else if 'A' ≤ c ∧ c ≤ 'F' then some (c.toNat - 'A'.toNat + 10)
  else none

/-- A digit of the base. -/
def digitOf? (b : ℕ) (c : Char) : Option ℕ :=
  (digitValue? c).filter (· < b)

/-- The number read so far, continued with the digits at the front of the text. -/
def readDigits (b : ℕ) : ℕ → List Char → ℕ × List Char
  | n, [] => (n, [])
  | n, c :: s =>
    match digitOf? b c with
    | some d => readDigits b (b * n + d) s
    | none => (n, c :: s)

/-- The number at the front of the text, and what follows it. -/
def numeral (b : ℕ) (s : List Char) : Option (ℕ × List Char) :=
  (s.head?.bind (digitOf? b)).map fun _ ↦ readDigits b 0 s

theorem toList_toString (n : ℕ) : (toString n).toList = Nat.toDigits 10 n :=
  Nat.toList_repr

theorem toList_toString_negSucc (n : ℕ) :
    (toString (Int.negSucc n)).toList = '-' :: Nat.toDigits 10 (n + 1) := by
  show ("-" ++ Nat.repr (n + 1)).toList = _
  rw [String.toList_append, Nat.toList_repr]
  rfl

variable {b : ℕ}

theorem digitValue?_digitChar : ∀ d < 16, digitValue? (Nat.digitChar d) = some d := by
  decide

theorem digitOf?_digitChar (hb' : b ≤ 16) {d : ℕ} (hd : d < b) :
    digitOf? b (Nat.digitChar d) = some d := by
  rw [digitOf?, digitValue?_digitChar d (by omega), Option.filter_some, if_pos (by simpa)]

theorem readDigits_cons {n d : ℕ} {c : Char} {s : List Char} (h : digitOf? b c = some d) :
    readDigits b n (c :: s) = readDigits b (b * n + d) s := by
  rw [readDigits, h]

/-- What has no digit in front is not read on. -/
theorem readDigits_stop {n : ℕ} {r : List Char} (hr : ∀ c ∈ r.head?, digitOf? b c = none) :
    readDigits b n r = (n, r) := by
  cases r with
  | nil => rfl
  | cons c r => rw [readDigits, hr c rfl]

/-- Reading a numeral leaves the number and the text behind it. -/
theorem readDigits_toDigits (hb : 1 < b) (hb' : b ≤ 16) (n : ℕ) (r : List Char) :
    readDigits b 0 (Nat.toDigits b n ++ r) = readDigits b n r := by
  induction n using Nat.strongRecOn generalizing r with
  | ind n ih =>
    rw [Nat.toDigits_eq_if hb]
    split
    · next hn =>
      rw [List.singleton_append, readDigits_cons (digitOf?_digitChar hb' hn), Nat.mul_zero,
        Nat.zero_add]
    · rw [List.append_assoc, ih _ (Nat.div_lt_self (by omega) hb), List.singleton_append,
        readDigits_cons (digitOf?_digitChar hb' (Nat.mod_lt n (by omega))), Nat.div_add_mod]

theorem head?_toDigits (hb : 1 < b) (n : ℕ) :
    ∃ d < b, (Nat.toDigits b n).head? = some (Nat.digitChar d) ∧ (d = 0 → n = 0) := by
  induction n using Nat.strongRecOn with
  | ind n ih =>
    rw [Nat.toDigits_eq_if hb]
    split
    · next hn => exact ⟨n, hn, rfl, id⟩
    · obtain ⟨d, hd, hhead, hzero⟩ := ih _ (Nat.div_lt_self (by omega) hb)
      refine ⟨d, hd, ?_, fun h ↦ ?_⟩
      · rw [List.head?_append, hhead, Option.some_or]
      · have := Nat.div_pos (Nat.not_lt.1 ‹_›) (by omega)
        have := hzero h
        omega

/-- A numeral is read back. -/
theorem numeral_toDigits (hb : 1 < b) (hb' : b ≤ 16) (n : ℕ) {r : List Char}
    (hr : ∀ c ∈ r.head?, digitOf? b c = none) :
    numeral b (Nat.toDigits b n ++ r) = some (n, r) := by
  obtain ⟨d, hd, hhead, -⟩ := head?_toDigits hb n
  rw [numeral, List.head?_append, hhead, Option.some_or, Option.bind_some,
    digitOf?_digitChar hb' hd, Option.map_some, readDigits_toDigits hb hb', readDigits_stop hr]

/-- A numeral of a positive number does not begin with a zero. -/
theorem toDigits_eq_cons_of_pos (hb : 1 < b) (hb' : b ≤ 16) {n : ℕ} (hn : 0 < n) :
    ∃ c s, Nat.toDigits b n = c :: s ∧ c ≠ '0' ∧ (digitOf? b c).isSome = true := by
  obtain ⟨d, hd, hhead, hzero⟩ := head?_toDigits hb n
  cases hs : Nat.toDigits b n with
  | nil => simp [hs] at hhead
  | cons c s =>
    rw [hs, List.head?_cons, Option.some.injEq] at hhead
    refine ⟨c, s, rfl, fun hc ↦ ?_, ?_⟩
    · have hd0 : ∀ d < 16, Nat.digitChar d = '0' → d = 0 := by decide
      have := hzero (hd0 d (by omega) (hhead ▸ hc))
      omega
    · rw [hhead, digitOf?_digitChar hb' hd]
      rfl

end Ldu
