import Ldu.Arith.Words
import Ldu.Ir.Expr
import Ldu.Text.Numerals

/-!
# Integer literals

How an integer constant is printed: in decimal, in hex, as a character, with or without a suffix,
by its value, its width and the hints of the passes before. `readLiteral` reads such a text as C
does, which gives a constant the first type of a list that holds it, and `literalAt` converts what
was read to the type of the operation the literal stands in.

The text keeps the value except in two cases (`literalAt_renderConst_iff`). A negative mask of an
eight byte operation that fits in 32 bits is printed by its low 32 bits, which C reads as a number
without sign. And the smallest number is printed in decimal, where its absolute value fits in no
type.
-/

namespace Ldu

namespace Literal

/-! ### Integer constants of C -/

/-- The suffix of an integer constant. -/
inductive Suffix
  | none | ll | ull
  deriving DecidableEq, Repr

def Suffix.text : Suffix → List Char
  | none => []
  | ll => ['L', 'L']
  | ull => ['u', 'L', 'L']

def readSuffix : List Char → Option Suffix
  | [] => some .none
  | ['L', 'L'] => some .ll
  | ['u', 'L', 'L'] => some .ull
  | _ => none

def int : Ty := ⟨4, false, false⟩

def unsignedInt : Ty := ⟨4, true, false⟩

def longLong : Ty := ⟨8, false, false⟩

def unsignedLongLong : Ty := ⟨8, true, false⟩

/-- The type holds the number. -/
def holds (t : Ty) (n : ℕ) : Bool :=
  n < 2 ^ (8 * t.width - if t.isUnsigned then 0 else 1)

/-- The types a constant may have. `long` is as wide as one of its neighbours. -/
def literalTypes (decimal : Bool) : Suffix → List Ty
  | .none => if decimal then [int, longLong] else [int, unsignedInt, longLong, unsignedLongLong]
  | .ll => if decimal then [longLong] else [longLong, unsignedLongLong]
  | .ull => [unsignedLongLong]

/-- The type of a constant, the first that holds it. A constant that fits in none has no type. -/
def literalType (decimal : Bool) (x : Suffix) (n : ℕ) : Option Ty :=
  (literalTypes decimal x).find? (holds · n)

/-- The number of the base at the front of the text, its suffix and its type. -/
def readConstant (b : ℕ) (s : List Char) : Option (Ty × ℕ) := do
  let (n, r) ← numeral b s
  let x ← readSuffix r
  let t ← literalType (b == 10) x n
  return (t, n)

/-- An integer constant. -/
def readInteger : List Char → Option (Ty × ℕ)
  | '0' :: 'x' :: s => readConstant 16 s
  | '0' :: s => readConstant 8 ('0' :: s)
  | s => readConstant 10 s

/-- Unary minus, in the type of its operand. -/
def negate (t : Ty) (n : ℕ) : ℤ :=
  if t.isUnsigned then (-n) % 2 ^ (8 * t.width) else -n

/-- The character after a backslash. -/
def escaped : Char → Option Char
  | '\\' => some '\\'
  | '\'' => some '\''
  | '"' => some '"'
  | '?' => some '?'
  | 'n' => some '\n'
  | 't' => some '\t'
  | 'r' => some '\r'
  | _ => none

/-- A character constant behind its first quote. -/
def readCharacter : List Char → Option Char
  | ['\\', c, '\''] => escaped c
  | [c, '\''] => if c = '\'' ∨ c = '\\' ∨ c = '\n' then none else some c
  | _ => none

/-- A literal, perhaps with a minus before it: its type and its value. -/
def readLiteral : List Char → Option (Ty × ℤ)
  | '\'' :: s => (readCharacter s).map fun c ↦ (int, c.toNat)
  | '-' :: s => (readInteger s).map fun l ↦ (l.1, negate l.1 l.2)
  | s => (readInteger s).map fun l ↦ (l.1, (l.2 : ℤ))

/-- The literal in an operation on numbers of `w` bytes: converted to the type of the operation,
which is at least `int`, and of that the low `w` bytes. -/
def literalAt (w : ℕ) (text : String) : Option (BitVec (8 * w)) :=
  (readLiteral text.toList).map fun l ↦ (BitVec.ofInt (8 * max w 4) l.2).setWidth (8 * w)

end Literal

open Literal

/-! ### How a constant is printed -/

/-- The fields of a constant that decide how it is printed. -/
structure ConstNode where
  width : ℕ
  cval : BitVec 64
  isUnsigned : Bool := false
  isFloat : Bool := false
  nullHint : Bool := false
  addrHint : Bool := false
  charHint : Bool := false
  decHint : Bool := false
  hexHint : Bool := false

/-- The texts of constants that are more than a number: floats, the classes of type descriptors
(an empty text where there is none) and the names of static data. -/
structure NamedConsts where
  floatLit : BitVec 64 → Bool → String
  typeClass : BitVec 64 → String
  dataName : BitVec 64 → Option String

namespace ConstNode

def hex (n : ℕ) : String :=
  "0x" ++ String.ofList (Nat.toDigits 16 n)

/-- A character in quotes. -/
def quoted (c : Char) : String :=
  if c = '\\' ∨ c = '\'' then String.ofList ['\'', '\\', c, '\''] else String.ofList ['\'', c, '\'']

/-- The value does not fit in 32 bits. -/
def isWide (e : ConstNode) : Bool :=
  8 ≤ e.width && (0x7fffffff < e.cval.toInt || e.cval.toInt < -0x80000000)

/-- A constant that is a number. -/
def renderNumber (e : ConstNode) : String :=
  if e.charHint ∧ 0x20 ≤ e.cval.toInt ∧ e.cval.toInt ≤ 0x7e then quoted (Char.ofNat e.cval.toNat)
  else if e.decHint && !e.isFloat then
    if e.isUnsigned then toString e.cval.toNat else toString e.cval.toInt
  else if e.hexHint && !e.isFloat then
    if e.isWide then hex e.cval.toNat ++ "uLL" else hex (e.cval.setWidth 32).toNat
  else if e.isWide then
    if e.cval.toInt < 0 then toString e.cval.toInt ++ "LL" else hex e.cval.toNat ++ "LL"
  else if e.cval.toInt < 0 then
    -- the absolute value of the smallest `int` is no `int`
    if e.cval.toInt ≤ -0x80000000 then toString e.cval.toInt ++ "LL" else toString e.cval.toInt
  else if e.cval.toInt < 10 then toString e.cval.toInt
  else hex (e.cval.setWidth 32).toNat

/-- The name of static data at the address, if the constant is known to be one. -/
def addressName (N : NamedConsts) (e : ConstNode) : Option String :=
  if e.addrHint && !e.isFloat && 0x1000 < e.cval.toNat then N.dataName e.cval else none

/-- A constant. -/
def renderConst (N : NamedConsts) (e : ConstNode) : String :=
  if e.isFloat then N.floatLit e.cval (e.width < 8)
  else if e.nullHint then "NULL"
  else if 0x1000 < e.cval.toNat ∧ N.typeClass e.cval ≠ "" then
    "&" ++ N.typeClass e.cval ++ "__type_info"
  else (e.addressName N).getD e.renderNumber

/-- A negative operand of `&`, `|` or `^` is a mask, to be printed in hex. In an operation of four
bytes it is narrowed to its low 32 bits. -/
def maskOperand (w : ℕ) (e : ConstNode) : ConstNode :=
  if !e.isFloat && !e.hexHint && e.cval.toInt < 0 then
    if w = 4 then
      { e with hexHint := true, cval := (e.cval.setWidth 32).signExtend 64, width := 4 }
    else { e with hexHint := true }
  else e

/-- The constant is printed as a number. -/
structure IsNumber (N : NamedConsts) (e : ConstNode) : Prop where
  not_float : e.isFloat = false
  not_null : e.nullHint = false
  no_class : 0x1000 < e.cval.toNat → N.typeClass e.cval = ""
  no_name : e.addressName N = none

/-- The text keeps the value: in hex unless a negative mask of eight bytes fits in 32 bits, and in
decimal unless the absolute value is too large. -/
def Keeps (e : ConstNode) : Prop :=
  if e.charHint ∧ 0x20 ≤ e.cval.toInt ∧ e.cval.toInt ≤ 0x7e then True
  else if e.decHint then
    if e.isUnsigned then e.cval.toNat < 2 ^ 63 else e.cval.toInt ≠ -2 ^ 63
  else if e.hexHint then ¬(8 ≤ e.width ∧ -2 ^ 31 ≤ e.cval.toInt ∧ e.cval.toInt < 0)
  else e.cval.toInt ≠ -2 ^ 63

instance (e : ConstNode) : Decidable e.Keeps := by
  delta Keeps
  infer_instance

end ConstNode

/-! ### Reading what is printed -/

namespace Literal

variable {b n w : ℕ} {x : Suffix}

theorem readSuffix_text (x : Suffix) : readSuffix x.text = some x := by
  cases x <;> rfl

theorem digitOf?_suffix (b : ℕ) (x : Suffix) : ∀ c ∈ x.text.head?, digitOf? b c = none := by
  have hL : digitValue? 'L' = none := by decide
  have hu : digitValue? 'u' = none := by decide
  cases x <;> simp [Suffix.text, digitOf?, hL, hu]

theorem readConstant_toDigits (hb : 1 < b) (hb' : b ≤ 16) (n : ℕ) (x : Suffix) :
    readConstant b (Nat.toDigits b n ++ x.text) = (literalType (b == 10) x n).map (·, n) := by
  rw [readConstant, numeral_toDigits hb hb' n (digitOf?_suffix b x)]
  simp only [Option.bind_eq_bind, Option.bind_some, readSuffix_text]
  cases literalType (b == 10) x n <;> rfl

theorem readInteger_hex (n : ℕ) (x : Suffix) :
    readInteger ('0' :: 'x' :: (Nat.toDigits 16 n ++ x.text)) =
      (literalType false x n).map (·, n) :=
  readConstant_toDigits (by decide) (by decide) n x

/-- A zero is octal, and of the same type as a decimal one. -/
theorem literalType_zero (d : Bool) (x : Suffix) :
    literalType false x 0 = literalType d x 0 := by
  cases d <;> cases x <;> decide

theorem readInteger_decimal (n : ℕ) (x : Suffix) :
    readInteger (Nat.toDigits 10 n ++ x.text) = (literalType true x n).map (·, n) := by
  rcases Nat.eq_zero_or_pos n with rfl | hn
  · have hzero : readInteger (Nat.toDigits 10 0 ++ x.text) =
        readConstant 8 (Nat.toDigits 8 0 ++ x.text) := by
      cases x <;> rfl
    rw [hzero, readConstant_toDigits (by decide) (by decide), ← literalType_zero true]
    rfl
  · refine Eq.trans ?_ (readConstant_toDigits (b := 10) (by decide) (by decide) n x)
    obtain ⟨c, s, hs, hc, -⟩ := toDigits_eq_cons_of_pos (b := 10) (by decide) (by decide) hn
    rw [hs, List.cons_append]
    unfold readInteger
    split
    · next h => exact absurd (List.cons.inj h).1 hc
    · next h => exact absurd (List.cons.inj h).1 hc
    · rfl

/-- What begins with a digit is a constant without sign. -/
theorem readLiteral_of_digit {c : Char} {s : List Char} (hc : (digitOf? b c).isSome = true) :
    readLiteral (c :: s) = (readInteger (c :: s)).map fun l ↦ (l.1, (l.2 : ℤ)) := by
  have hquote : digitValue? '\'' = none := by decide
  have hminus : digitValue? '-' = none := by decide
  unfold readLiteral
  split
  · next h => simp [(List.cons.inj h).1, digitOf?, hquote] at hc
  · next h => simp [(List.cons.inj h).1, digitOf?, hminus] at hc
  · rfl

theorem literalType_decimal (hx : x ≠ .ull) (n : ℕ) :
    (literalType true x n).isSome = true ↔ n < 2 ^ 63 := by
  cases x with
  | none =>
    simp only [literalType, literalTypes, List.find?_isSome, holds, int, longLong]
    simp
    omega
  | ll => simp [literalType, literalTypes, holds, longLong]
  | ull => exact absurd rfl hx

theorem signed_of_literalType_decimal {t : Ty} (hx : x ≠ .ull) (h : literalType true x n = some t) :
    t.isUnsigned = false := by
  have hmem := List.mem_of_find?_eq_some h
  cases x with
  | none =>
    simp only [literalTypes, if_true, List.mem_cons, List.not_mem_nil, or_false] at hmem
    rcases hmem with rfl | rfl <;> rfl
  | ll =>
    simp only [literalTypes, if_true, List.mem_cons, List.not_mem_nil, or_false] at hmem
    rw [hmem]
    rfl
  | ull => exact absurd rfl hx

theorem exists_literalType_hex (hn : n < 2 ^ 64) (x : Suffix) :
    ∃ t, literalType false x n = some t := by
  rw [← Option.isSome_iff_exists]
  cases x <;>
    simp [literalType, literalTypes, List.find?_isSome, holds, unsignedLongLong] <;> omega

theorem readLiteral_decimal (hx : x ≠ .ull) (z : ℤ) :
    readLiteral ((toString z).toList ++ x.text) =
      (literalType true x z.natAbs).map (·, z) := by
  cases z with
  | ofNat n =>
    have hs : (toString (Int.ofNat n)).toList = Nat.toDigits 10 n := Nat.toList_repr
    obtain ⟨d, hd, hhead, -⟩ := head?_toDigits (b := 10) (by decide) n
    rw [hs]
    cases hdigits : Nat.toDigits 10 n with
    | nil => exact absurd hdigits Nat.toDigits_ne_nil
    | cons c s =>
      rw [hdigits, List.head?_cons, Option.some.injEq] at hhead
      have hc : (digitOf? 10 c).isSome = true := by
        rw [hhead, digitOf?_digitChar (by decide) hd]
        rfl
      rw [List.cons_append, readLiteral_of_digit hc, ← List.cons_append, ← hdigits,
        readInteger_decimal, Option.map_map]
      rfl
  | negSucc n =>
    rw [toList_toString_negSucc, List.cons_append]
    show (readInteger _).map _ = _
    rw [readInteger_decimal, Option.map_map]
    refine Option.map_congr fun t ht ↦ ?_
    simp only [Function.comp, negate, signed_of_literalType_decimal hx ht]
    rfl

/-- A decimal literal has its value, if it has a type. -/
theorem literalAt_decimal {text : String} {z : ℤ} (hx : x ≠ .ull)
    (ht : text.toList = (toString z).toList ++ x.text) :
    literalAt w text = if z.natAbs < 2 ^ 63 then some (BitVec.ofInt (8 * w) z) else none := by
  rw [literalAt, ht, readLiteral_decimal hx, Option.map_map]
  have hiff := literalType_decimal hx z.natAbs
  cases hl : literalType true x z.natAbs with
  | none =>
    rw [hl] at hiff
    rw [if_neg (mt hiff.2 (by simp))]
    rfl
  | some t =>
    rw [hl] at hiff
    rw [if_pos (hiff.1 rfl), Option.map_some, Function.comp, setWidth_ofInt (by omega)]

/-- A literal in hex has its value. -/
theorem literalAt_hex {text : String} (hn : n < 2 ^ 64)
    (ht : text.toList = '0' :: 'x' :: (Nat.toDigits 16 n ++ x.text)) :
    literalAt w text = some (BitVec.ofNat (8 * w) n) := by
  obtain ⟨t, hl⟩ := exists_literalType_hex hn x
  have hzero : (digitOf? 16 '0').isSome = true := by decide
  rw [literalAt, ht, readLiteral_of_digit hzero, readInteger_hex, hl]
  simp only [Option.map_some]
  rw [setWidth_ofInt (by omega), BitVec.ofInt_natCast]

end Literal

namespace ConstNode

variable {e : ConstNode} {text : String} {x : Suffix}

theorem hex_toList (n : ℕ) : (hex n).toList = '0' :: 'x' :: Nat.toDigits 16 n := by
  rw [hex, String.toList_append]
  exact congrArg (['0', 'x'] ++ ·) (String.toList_ofList)

theorem readLiteral_quoted {n : ℕ} (h : 0x20 ≤ n ∧ n ≤ 0x7e) :
    readLiteral (quoted (Char.ofNat n)).toList = some (int, (n : ℤ)) := by
  have hprintable : ∀ k < 0x5f, readLiteral (quoted (Char.ofNat (0x20 + k))).toList =
      some (int, ((0x20 + k : ℕ) : ℤ)) := by decide +kernel
  obtain ⟨k, rfl⟩ := Nat.exists_eq_add_of_le h.1
  exact hprintable k (by omega)

/-- In decimal, only the smallest number is out of reach. -/
theorem literalAt_decimal_iff (hw : e.width ≤ 8) (hx : x ≠ .ull)
    (ht : text.toList = (toString e.cval.toInt).toList ++ x.text) :
    literalAt e.width text = some (e.cval.setWidth (8 * e.width)) ↔ e.cval.toInt ≠ -2 ^ 63 := by
  have hlo := e.cval.le_toInt
  have hhi := e.cval.toInt_lt
  have hval : BitVec.ofInt (8 * e.width) e.cval.toInt = e.cval.setWidth (8 * e.width) := by
    rw [← setWidth_ofInt (N := 64) (by omega), BitVec.ofInt_toInt]
  rw [literalAt_decimal hx ht, hval]
  split
  · next h =>
    simp only [true_iff]
    omega
  · next h =>
    simp only [reduceCtorEq, false_iff, not_not]
    omega

theorem literalAt_unsigned_iff (ht : text.toList = (toString e.cval.toNat).toList) :
    literalAt e.width text = some (e.cval.setWidth (8 * e.width)) ↔ e.cval.toNat < 2 ^ 63 := by
  have htext : text.toList = (toString (Int.ofNat e.cval.toNat)).toList ++ Suffix.none.text := by
    rw [ht]
    exact (List.append_nil _).symm
  rw [literalAt_decimal (by decide) htext]
  simp only [Int.ofNat_eq_natCast, Int.natAbs_natCast, BitVec.ofInt_natCast, BitVec.ofNat_toNat]
  split
  · next h => exact iff_of_true rfl h
  · next h => exact iff_of_false nofun h

theorem literalAt_hex_eq
    (ht : text.toList = '0' :: 'x' :: (Nat.toDigits 16 e.cval.toNat ++ x.text)) :
    literalAt e.width text = some (e.cval.setWidth (8 * e.width)) := by
  rw [literalAt_hex e.cval.isLt ht, BitVec.ofNat_toNat]

/-- The low 32 bits in hex are the number, unless a negative number of eight bytes fits in them. -/
theorem literalAt_low_iff (hw : e.width ∈ [1, 2, 4, 8]) (hfit : e.isWide = false) :
    literalAt e.width (hex (e.cval.setWidth 32).toNat) = some (e.cval.setWidth (8 * e.width)) ↔
      ¬(8 ≤ e.width ∧ e.cval.toInt < 0) := by
  have ht : (hex (e.cval.setWidth 32).toNat).toList =
      '0' :: 'x' :: (Nat.toDigits 16 (e.cval.setWidth 32).toNat ++ Suffix.none.text) := by
    rw [hex_toList]
    exact congrArg _ (congrArg _ (List.append_nil _).symm)
  rw [literalAt_hex ((e.cval.setWidth 32).isLt.trans (by decide)) ht, BitVec.ofNat_toNat]
  rcases Nat.lt_or_ge e.width 8 with hlt | hge
  · have hnarrow : 8 * e.width ≤ 32 := by
      simp only [List.mem_cons, List.not_mem_nil, or_false] at hw
      omega
    rw [BitVec.setWidth_setWidth_of_le _ hnarrow]
    simp
    omega
  · have height : e.width = 8 := by
      simp only [List.mem_cons, List.not_mem_nil, or_false] at hw
      omega
    have hrange : -2 ^ 31 ≤ e.cval.toInt ∧ e.cval.toInt < 2 ^ 31 := by
      simp only [isWide, height, Bool.and_eq_false_iff, Bool.or_eq_false_iff,
        decide_eq_false_iff_not] at hfit
      omega
    have hv := BitVec.toInt_eq_toNat_cond e.cval
    have hlt := e.cval.isLt
    rw [Option.some_inj, ← BitVec.toNat_inj]
    simp only [BitVec.toNat_setWidth, height]
    split at hv <;> omega

theorem toList_append_ll (s : String) : (s ++ "LL").toList = s.toList ++ Suffix.ll.text := by
  rw [String.toList_append]
  rfl

theorem toList_append_ull (s : String) : (s ++ "uLL").toList = s.toList ++ Suffix.ull.text := by
  rw [String.toList_append]
  rfl

theorem toList_append_none (s : String) : s.toList = s.toList ++ Suffix.none.text :=
  (List.append_nil _).symm

/-- A number is printed with its value exactly if `Keeps` says so. -/
theorem literalAt_renderNumber_iff (hw : e.width ∈ [1, 2, 4, 8]) (hf : e.isFloat = false) :
    literalAt e.width e.renderNumber = some (e.cval.setWidth (8 * e.width)) ↔ e.Keeps := by
  have hw8 : e.width ≤ 8 := by
    simp only [List.mem_cons, List.not_mem_nil, or_false] at hw
    omega
  have hrange : ∀ b, e.isWide = b → (b = true ↔
      8 ≤ e.width ∧ (0x7fffffff < e.cval.toInt ∨ e.cval.toInt < -0x80000000)) := by
    rintro b rfl
    simp [isWide]
  unfold renderNumber Keeps
  simp only [hf, Bool.not_false, Bool.and_true]
  split
  · -- a character
    next hc =>
    have hnat : e.cval.toInt = e.cval.toNat := by
      have hcond := BitVec.toInt_eq_toNat_cond e.cval
      have hlt := e.cval.isLt
      split at hcond <;> omega
    rw [literalAt, readLiteral_quoted (by omega), Option.map_some, setWidth_ofInt (by omega),
      BitVec.ofInt_natCast, BitVec.ofNat_toNat]
    simp
  split
  · -- a divisor
    split
    · exact literalAt_unsigned_iff rfl
    · exact literalAt_decimal_iff hw8 (by decide) (toList_append_none _)
  split
  · -- a mask
    split
    · next hwide =>
      have hout := (hrange _ hwide).1 rfl
      refine iff_of_true (literalAt_hex_eq (x := .ull) ?_) (by omega)
      rw [toList_append_ull, hex_toList]
      rfl
    · next hwide =>
      rw [Bool.not_eq_true] at hwide
      have hin := hrange _ hwide
      rw [literalAt_low_iff hw hwide]
      simp only [Bool.false_eq_true, false_iff] at hin
      omega
  split
  · next hwide =>
    split
    · exact literalAt_decimal_iff hw8 (x := .ll) (by decide) (toList_append_ll _)
    · next hneg =>
      refine iff_of_true (literalAt_hex_eq (x := .ll) ?_) (by omega)
      rw [toList_append_ll, hex_toList]
      rfl
  next hwide =>
  rw [Bool.not_eq_true] at hwide
  split
  · split
    · exact literalAt_decimal_iff hw8 (x := .ll) (by decide) (toList_append_ll _)
    · exact literalAt_decimal_iff hw8 (by decide) (toList_append_none _)
  split
  · exact literalAt_decimal_iff hw8 (by decide) (toList_append_none _)
  · rw [literalAt_low_iff hw hwide]
    exact iff_of_true (by omega) (by omega)

theorem renderConst_of_isNumber {N : NamedConsts} (h : e.IsNumber N) :
    e.renderConst N = e.renderNumber := by
  have hclass : ¬(0x1000 < e.cval.toNat ∧ N.typeClass e.cval ≠ "") := fun hc ↦
    hc.2 (h.no_class hc.1)
  simp [renderConst, h.not_float, h.not_null, hclass, h.no_name]

/-- The literal of an integer constant, read as C reads it and converted to the type of its
operation, is the constant exactly if `Keeps` says so. -/
theorem literalAt_renderConst_iff (N : NamedConsts) (e : ConstNode) (hw : e.width ∈ [1, 2, 4, 8])
    (h : e.IsNumber N) :
    literalAt e.width (e.renderConst N) = some (e.cval.setWidth (8 * e.width)) ↔ e.Keeps := by
  rw [renderConst_of_isNumber h]
  exact literalAt_renderNumber_iff hw h.not_float

/-- Which masks keep their value: those of four byte operations, and of the others those that do
not fit in 32 bits or stand in fewer than eight bytes. -/
theorem keeps_maskOperand_iff (w : ℕ) (hneg : e.cval.toInt < 0) (hf : e.isFloat = false)
    (hd : e.decHint = false) (hh : e.hexHint = false) :
    (e.maskOperand w).Keeps ↔ w = 4 ∨ e.width < 8 ∨ e.cval.toInt < -2 ^ 31 := by
  have hif : (!e.isFloat && !e.hexHint && decide (e.cval.toInt < 0)) = true := by
    simp [hf, hh, hneg]
  have hchar : ¬(e.charHint = true ∧ 0x20 ≤ e.cval.toInt ∧ e.cval.toInt ≤ 0x7e) := by omega
  rw [maskOperand, if_pos hif]
  by_cases hw : w = 4
  · rw [if_pos hw, Keeps]
    refine iff_of_true ?_ (Or.inl hw)
    split
    · trivial
    · simp [hd]
  · rw [if_neg hw, Keeps, if_neg hchar]
    simp only [hd, Bool.false_eq_true, if_false, if_true]
    omega

/-- No constant is the address of anything. -/
def noNames : NamedConsts :=
  ⟨fun _ _ ↦ "", fun _ ↦ "", fun _ ↦ none⟩

/-- The mask that aligns an address to 16 bytes. -/
def alignMask : ConstNode :=
  maskOperand 8 { width := 8, cval := -16 }

theorem alignMask_isNumber : alignMask.IsNumber noNames :=
  ⟨rfl, rfl, fun _ ↦ rfl, rfl⟩

theorem literalAt_alignMask_iff :
    literalAt 8 (alignMask.renderConst noNames) = some (-16 : BitVec 64) ↔ alignMask.Keeps :=
  literalAt_renderConst_iff noNames alignMask (by decide) alignMask_isNumber

/-- The mask is printed as `0xfffffff0`, which clears the high half of the address. -/
theorem alignMask_loses :
    alignMask.width = 8 ∧ alignMask.IsNumber noNames ∧
      literalAt 8 (alignMask.renderConst noNames) = some (0xfffffff0 : BitVec 64) ∧
      literalAt 8 (alignMask.renderConst noNames) ≠ some (alignMask.cval.setWidth 64) :=
  ⟨rfl, alignMask_isNumber, by decide +kernel, by decide +kernel⟩

end ConstNode

end Ldu
