import Mathlib.Data.List.Basic
import Mathlib.Data.Nat.Notation

/-!
# Reading UTF-8

The bytes of a text, and the text that arbitrary bytes are read as: where they are no character, the
longest beginning of one is read as `U+FFFD`, or a single byte if there is none. The bytes of a text
are read as that text (`fromUtf8Lossy_encode`).
-/

namespace Utf8

/-- The bytes of a text. -/
def encode (s : String) : List UInt8 :=
  s.toList.flatMap String.utf8EncodeChar

/-- The character at the head of bytes. -/
def decodeChar? (bs : List UInt8) : Option Char :=
  bs.toByteArray.utf8DecodeChar? 0

/-- The byte may continue a character. -/
def isTail (b : UInt8) : Bool :=
  0x80 ≤ b && b ≤ 0xBF

/-- A character of three or four bytes may start with these two. -/
def secondFits (a b : UInt8) : Bool :=
  isTail b && (a != 0xE0 || 0xA0 ≤ b) && (a != 0xED || b ≤ 0x9F) && (a != 0xF0 || 0x90 ≤ b) &&
    (a != 0xF4 || b ≤ 0x8F)

/-- The length of the longest beginning of a character at the head of bytes that are none. -/
def invalidLength : List UInt8 → ℕ
  | a :: b :: rest =>
    if 0xE0 ≤ a ∧ a ≤ 0xEF ∧ secondFits a b then 2
    else if 0xF0 ≤ a ∧ a ≤ 0xF4 ∧ secondFits a b then
      if rest.head?.any isTail then 3 else 2
    else 1
  | _ => 1

/-- The characters that bytes are read as, at most `fuel` of them. -/
def lossyFrom : ℕ → List UInt8 → List Char
  | 0, _ => []
  | _ + 1, [] => []
  | fuel + 1, b :: bs =>
    match decodeChar? (b :: bs) with
    | some c => c :: lossyFrom fuel ((b :: bs).drop c.utf8Size)
    | none => '\uFFFD' :: lossyFrom fuel ((b :: bs).drop (invalidLength (b :: bs)))

/-- The text that bytes are read as, `String::from_utf8_lossy`. -/
def fromUtf8Lossy (bs : List UInt8) : String :=
  String.ofList (lossyFrom bs.length bs)

theorem decodeChar?_append (c : Char) (bs : List UInt8) :
    decodeChar? (String.utf8EncodeChar c ++ bs) = some c := by
  rw [decodeChar?, List.toByteArray_append]
  exact ByteArray.utf8DecodeChar?_utf8EncodeChar_append

theorem lossyFrom_encode (cs : List Char) (fuel : ℕ)
    (hfuel : (cs.flatMap String.utf8EncodeChar).length ≤ fuel) :
    lossyFrom fuel (cs.flatMap String.utf8EncodeChar) = cs := by
  induction cs generalizing fuel with
  | nil => cases fuel <;> rfl
  | cons c cs ih =>
    have hsize := String.length_utf8EncodeChar c
    have hpos := c.utf8Size_pos
    rw [List.flatMap_cons, List.length_append] at hfuel
    obtain ⟨fuel, rfl⟩ := Nat.exists_eq_succ_of_ne_zero (n := fuel) (by omega)
    have hdecode := decodeChar?_append c (cs.flatMap String.utf8EncodeChar)
    have hdrop : (String.utf8EncodeChar c ++ cs.flatMap String.utf8EncodeChar).drop c.utf8Size =
        cs.flatMap String.utf8EncodeChar := List.drop_left' hsize
    rw [List.flatMap_cons]
    cases hbytes : String.utf8EncodeChar c ++ cs.flatMap String.utf8EncodeChar with
    | nil =>
      have := congrArg List.length hbytes
      rw [List.length_append, List.length_nil] at this
      omega
    | cons b bs =>
      rw [hbytes] at hdecode hdrop
      rw [lossyFrom, hdecode]
      dsimp only
      rw [hdrop, ih fuel (by omega)]

/-- The bytes of a text are read as that text. -/
@[simp] theorem fromUtf8Lossy_encode (s : String) : fromUtf8Lossy (encode s) = s := by
  rw [fromUtf8Lossy, encode, lossyFrom_encode _ _ (Nat.le_refl _), String.ofList_toList]

/-- Only no bytes are read as the empty text. -/
theorem fromUtf8Lossy_eq_empty_iff {bs : List UInt8} : fromUtf8Lossy bs = "" ↔ bs = [] := by
  constructor
  · intro h
    cases bs with
    | nil => rfl
    | cons b bs =>
      have hnil : lossyFrom (b :: bs).length (b :: bs) = [] := by
        simpa [fromUtf8Lossy] using congrArg String.toList h
      rw [List.length_cons, lossyFrom] at hnil
      split at hnil <;> cases hnil
  · rintro rfl
    rfl

/-! ### ASCII -/

/-- The bytes of a character other than an ASCII one are not ASCII. -/
theorem encodeChar_eq_singleton {c : Char} {b : UInt8} (hb : b ∈ String.utf8EncodeChar c)
    (hascii : b < 0x80) : String.utf8EncodeChar c = [b] := by
  unfold String.utf8EncodeChar at hb ⊢
  have hlt : b.toNat < 128 := hascii
  dsimp only at hb ⊢
  split
  · next h =>
    rw [if_pos h, List.mem_singleton] at hb
    rw [hb]
  · -- The bytes of a longer character are at least `0x80`.
    exfalso
    split_ifs at hb
    all_goals
      simp only [List.mem_cons, List.not_mem_nil, or_false] at hb
      rcases hb with rfl | rfl | rfl | rfl <;>
        simp only [UInt8.toNat_ofNat'] at hlt <;> omega

/-- What stands before an ASCII byte of a text is a text. -/
theorem exists_encode_of_append {s : String} {b r : List UInt8} {c : UInt8}
    (h : encode s = b ++ c :: r) (hc : c < 0x80) : ∃ s', encode s' = b := by
  suffices hlist : ∀ (cs : List Char) (b : List UInt8),
      cs.flatMap String.utf8EncodeChar = b ++ c :: r →
        ∃ cs' : List Char, cs'.flatMap String.utf8EncodeChar = b by
    obtain ⟨cs', hcs'⟩ := hlist s.toList b h
    exact ⟨String.ofList cs', by rw [encode, String.toList_ofList, hcs']⟩
  intro cs
  induction cs with
  | nil =>
    intro b h
    exact absurd h.symm (by simp)
  | cons d cs ih =>
    intro b h
    rw [List.flatMap_cons, List.append_eq_append_iff] at h
    rcases h with ⟨b', rfl, hb'⟩ | ⟨a, hd, ha⟩
    · obtain ⟨cs', rfl⟩ := ih b' hb'
      exact ⟨d :: cs', List.flatMap_cons⟩
    · cases a with
      | nil => exact ⟨[d], by rw [List.append_nil] at hd; rw [List.flatMap_singleton, hd]⟩
      | cons c' a =>
        obtain ⟨rfl, -⟩ := List.cons.inj ha
        have hsingle := encodeChar_eq_singleton (by rw [hd]; simp) hc
        rw [hsingle] at hd
        cases b with
        | nil => exact ⟨[], rfl⟩
        | cons b₀ b => exact absurd (congrArg List.length hd) (by simp)

/-- A text cut off before one of its ASCII characters reads as another text. -/
theorem fromUtf8Lossy_ne_of_append {s : String} {b r : List UInt8} {c : UInt8}
    (h : encode s = b ++ c :: r) (hc : c < 0x80) : fromUtf8Lossy b ≠ s := by
  obtain ⟨s', rfl⟩ := exists_encode_of_append h hc
  rw [fromUtf8Lossy_encode]
  rintro rfl
  have hlength := congrArg List.length h
  rw [List.length_append, List.length_cons] at hlength
  omega

theorem encode_injective : Function.Injective encode := fun s s' h ↦ by
  rw [← fromUtf8Lossy_encode s, h, fromUtf8Lossy_encode]

theorem encode_eq_nil_iff {s : String} : encode s = [] ↔ s = "" :=
  ⟨fun h ↦ encode_injective (h.trans rfl), fun h ↦ h ▸ rfl⟩

/-- The bytes of a text of ASCII characters. -/
theorem encode_ofList_of_ascii {cs : List Char} (h : ∀ c ∈ cs, c.toNat < 128) :
    encode (String.ofList cs) = cs.map fun c ↦ UInt8.ofNat c.toNat := by
  rw [encode, String.toList_ofList]
  induction cs with
  | nil => rfl
  | cons c cs ih =>
    have hc : c.val.toNat < 128 := h c (.head _)
    have hsingle : String.utf8EncodeChar c = [UInt8.ofNat c.toNat] := if_pos (by omega)
    rw [List.flatMap_cons, ih fun d hd ↦ h d (.tail _ hd), hsingle]
    rfl

example : fromUtf8Lossy [0x61, 0xE2, 0x82, 0x41, 0xFF] = "a\uFFFDA\uFFFD" := by
  decide +kernel

end Utf8
