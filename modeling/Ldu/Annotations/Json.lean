import Ldu.Annotations.Store
import Mathlib.Data.Int.Log
import Mathlib.Data.Rat.Floor

/-!
# The JSON of a sidecar

A reader for JSON (`value`) that takes at most thirty-two levels of nesting, with the C functions
`strtod` and `strtoull` for its numbers, and the writers of strings and of hexadecimal numbers.

The reader folds an escape above `7F` to a question mark, does not look at what follows the value,
and takes the numbers that `strtod` takes.
-/

namespace Ldu

namespace Annotations

/-! ### Characters -/

/-- The byte of a character. -/
def ch (c : Char) : UInt8 :=
  UInt8.ofNat c.toNat

/-- The bytes of a text. -/
def lit (s : String) : Bytes :=
  s.toList.map ch

def isDigit (b : UInt8) : Bool :=
  ch '0' ≤ b && b ≤ ch '9'

/-- The value of a hexadecimal digit. -/
def hexVal (b : UInt8) : Option ℕ :=
  if isDigit b then some (b.toNat - (ch '0').toNat)
  else if ch 'a' ≤ b ∧ b ≤ ch 'f' then some (b.toNat - (ch 'a').toNat + 10)
  else if ch 'A' ≤ b ∧ b ≤ ch 'F' then some (b.toNat - (ch 'A').toNat + 10)
  else none

/-- The digits to the base `b` at the head of a text. -/
def digitsOf (b : ℕ) (l : Bytes) : List ℕ :=
  (l.takeWhile fun c ↦ (hexVal c).any (· < b)).filterMap hexVal

/-- The number that digits stand for. -/
def ofDigits (b : ℕ) (digits : List ℕ) : ℕ :=
  digits.foldl (fun n d ↦ b * n + d) 0

/-- A letter in lower case. -/
def toLower (b : UInt8) : UInt8 :=
  if ch 'A' ≤ b ∧ b ≤ ch 'Z' then b + 32 else b

/-- The text behind a head, if it has that head. -/
def dropHead (head l : Bytes) : Option Bytes :=
  if head.isPrefixOf l then some (l.drop head.length) else none

/-! ### Numbers -/

/-- The number of an unsigned long in the notation of C, `strtoull` with base 0: white space, a
sign, and digits whose base the head shows. A number that is too large is cut to the largest. -/
def strtoull (s : Bytes) : UInt64 :=
  let isSpace := fun b : UInt8 ↦ b = 32 || (9 ≤ b && b ≤ 13)
  let l := (cstr s).dropWhile isSpace
  let (negative, l) :=
    match l with
    | c :: rest =>
      if c = ch '-' then (true, rest) else if c = ch '+' then (false, rest) else (false, l)
    | [] => (false, [])
  let n :=
    match l with
    | z :: x :: d :: rest =>
      if z = ch '0' ∧ toLower x = ch 'x' ∧ (hexVal d).isSome then
        ofDigits 16 (digitsOf 16 (d :: rest))
      else if z = ch '0' then ofDigits 8 (digitsOf 8 l)
      else ofDigits 10 (digitsOf 10 l)
    | z :: _ => if z = ch '0' then ofDigits 8 (digitsOf 8 l) else ofDigits 10 (digitsOf 10 l)
    | [] => 0
  if 2 ^ 64 ≤ n then UInt64.ofNat (2 ^ 64 - 1)
  else if negative then 0 - UInt64.ofNat n
  else UInt64.ofNat n

/-- To the nearest integer, and to an even one from the middle. -/
def roundEven (q : ℚ) : ℤ :=
  let r := q - ⌊q⌋
  if r < 1 / 2 then ⌊q⌋
  else if 1 / 2 < r then ⌊q⌋ + 1
  else if ⌊q⌋ % 2 = 0 then ⌊q⌋
  else ⌊q⌋ + 1

/-- The double nearest to a number; there is none if the number is too large. -/
def toDouble (q : ℚ) : Option ℚ :=
  if q = 0 then some 0
  else
    let e := max (Int.log 2 |q| - 52) (-1074)
    let d := roundEven (q / 2 ^ e) * (2 : ℚ) ^ e
    if 2 ^ 1024 ≤ |d| then none else some d

/-- An exponent, if there is one: `mark`, a sign, and digits. -/
def exponent (mark : UInt8) (l : Bytes) : ℤ × Bytes :=
  match l with
  | c :: l' =>
    if toLower c = mark then
      let (negative, l'') :=
        match l' with
        | s :: rest =>
          if s = ch '-' then (true, rest) else if s = ch '+' then (false, rest) else (false, l')
        | [] => (false, [])
      let digits := digitsOf 10 l''
      if digits = [] then (0, l)
      else
        (if negative then -(ofDigits 10 digits : ℤ) else ofDigits 10 digits,
          l''.drop digits.length)
    else (0, l)
  | [] => (0, [])

/-- Digits to the base `b` with a point among them, and an exponent to the base `r`. -/
def mantissa (b r : ℕ) (mark : UInt8) (l : Bytes) : Option (ℚ × Bytes) :=
  let whole := digitsOf b l
  let l := l.drop whole.length
  let (part, l) :=
    match l with
    | c :: l' =>
      if c = ch '.' then
        let part := digitsOf b l'
        -- a point alone is not part of a number
        if whole = [] ∧ part = [] then ([], l) else (part, l'.drop part.length)
      else ([], l)
    | [] => ([], [])
  if whole = [] ∧ part = [] then none
  else
    let (e, l) := exponent mark l
    some ((ofDigits b (whole ++ part) : ℚ) / b ^ part.length * (r : ℚ) ^ e, l)

/-- Skip what may stand in brackets behind a `nan`. -/
def dropNanChars (l : Bytes) : Bytes :=
  let isWord := fun b ↦ isDigit b || (ch 'a' ≤ toLower b && toLower b ≤ ch 'z') || b = ch '_'
  match l with
  | c :: l' =>
    match l'.dropWhile isWord with
    | d :: rest => if c = ch '(' ∧ d = ch ')' then rest else l
    | [] => l
  | [] => []

/-- A floating-point number at the head of a text that starts with a sign or a digit, `strtod`, and
the text behind it. Infinities and what is not a number are `none`. -/
def strtod (l : Bytes) : Option (Option ℚ × Bytes) :=
  let (negative, l) :=
    match l with
    | c :: rest => if c = ch '-' then (true, rest) else (false, l)
    | [] => (false, [])
  let lower := l.map toLower
  let signed := fun q : ℚ ↦ toDouble (if negative then -q else q)
  match (dropHead (lit "0x") lower).bind fun _ ↦ mantissa 16 2 (ch 'p') (l.drop 2) with
  | some (q, rest) => some (signed q, rest)
  | none =>
    match mantissa 10 10 (ch 'e') l with
    | some (q, rest) => some (signed q, rest)
    | none =>
      if (lit "infinity").isPrefixOf lower then some (none, l.drop 8)
      else if (lit "inf").isPrefixOf lower then some (none, l.drop 3)
      else if (lit "nan").isPrefixOf lower then some (none, dropNanChars (l.drop 3))
      else none

/-! ### Reading -/

/-- A JSON value. The number is the double that is read. -/
inductive JVal where
  | null
  | bool (b : Bool)
  | num (n : Option ℚ)
  | str (s : Bytes)
  | arr (l : List JVal)
  | obj (l : List (Bytes × JVal))

def isWs (b : UInt8) : Bool :=
  b = ch ' ' || b = 9 || b = 10 || b = 13

/-- Skip white space. -/
def ws (l : Bytes) : Bytes :=
  l.dropWhile isWs

/-- Skip white space and a character, `eat`. -/
def eat (c : Char) (l : Bytes) : Option Bytes :=
  match ws l with
  | b :: l => if b = ch c then some l else none
  | [] => none

/-- The character that an escape of one letter stands for. -/
def unescape (b : UInt8) : Option UInt8 :=
  if b = ch '"' then some (ch '"')
  else if b = ch '\\' then some (ch '\\')
  else if b = ch '/' then some (ch '/')
  else if b = ch 'b' then some 8
  else if b = ch 'f' then some 12
  else if b = ch 'n' then some 10
  else if b = ch 'r' then some 13
  else if b = ch 't' then some 9
  else none

/-- The number of four hexadecimal digits, `hex4`. -/
def hex4 (a b c d : UInt8) : Option ℕ := do
  let a ← hexVal a
  let b ← hexVal b
  let c ← hexVal c
  let d ← hexVal d
  some (ofDigits 16 [a, b, c, d])

/-- A string behind its opening quote. -/
def strBody : Bytes → Option (Bytes × Bytes)
  | [] => none
  | c :: l =>
    if c = ch '"' then some ([], l)
    else if c ≠ ch '\\' then (strBody l).map fun r ↦ (c :: r.1, r.2)
    else
      match l with
      | [] => none
      | x :: l =>
        if x = ch 'u' then
          match l with
          | a :: b :: c :: d :: l =>
            (hex4 a b c d).bind fun n ↦
              (strBody l).map fun r ↦ ((if n < 0x80 then UInt8.ofNat n else ch '?') :: r.1, r.2)
          | _ => none
        else (unescape x).bind fun b ↦ (strBody l).map fun r ↦ (b :: r.1, r.2)

/-- A string. -/
def str (l : Bytes) : Option (Bytes × Bytes) :=
  (eat '"' l).bind strBody

section Collections

variable (p : Bytes → Option (JVal × Bytes))

/-- The members of an object whose values `p` reads, up to its end. Each one takes text away, so
that as many as the text has bytes are enough. -/
def members : ℕ → Bytes → Option (List (Bytes × JVal) × Bytes)
  | 0, _ => none
  | fuel + 1, l =>
    (str l).bind fun (k, l) ↦
      (eat ':' l).bind fun l ↦
        (p l).bind fun (v, l) ↦
          match eat ',' l with
          | some l => (members fuel l).map fun r ↦ ((k, v) :: r.1, r.2)
          | none => (eat '}' l).map fun l ↦ ([(k, v)], l)

/-- The elements of an array, likewise. -/
def elements : ℕ → Bytes → Option (List JVal × Bytes)
  | 0, _ => none
  | fuel + 1, l =>
    (p l).bind fun (v, l) ↦
      match eat ',' l with
      | some l => (elements fuel l).map fun r ↦ (v :: r.1, r.2)
      | none => (eat ']' l).map fun l ↦ ([v], l)

end Collections

/-- A value with at most `depth` levels of nesting. -/
def value : ℕ → Bytes → Option (JVal × Bytes)
  | 0, _ => none
  | depth + 1, l =>
    match ws l with
    | [] => none
    | c :: l =>
      if c = ch '"' then (strBody l).map fun r ↦ (.str r.1, r.2)
      else if c = ch '{' then
        match eat '}' l with
        | some l => some (.obj [], l)
        | none => (members (value depth) (l.length + 1) l).map fun r ↦ (.obj r.1, r.2)
      else if c = ch '[' then
        match eat ']' l with
        | some l => some (.arr [], l)
        | none => (elements (value depth) (l.length + 1) l).map fun r ↦ (.arr r.1, r.2)
      else if c = ch 't' then (dropHead (lit "true") (c :: l)).map fun l ↦ (.bool true, l)
      else if c = ch 'f' then (dropHead (lit "false") (c :: l)).map fun l ↦ (.bool false, l)
      else if c = ch 'n' then (dropHead (lit "null") (c :: l)).map fun l ↦ (.null, l)
      else if c = ch '-' || isDigit c then (strtod (c :: l)).map fun r ↦ (.num r.1, r.2)
      else none

namespace JVal

/-- The first member with a key. -/
def get (k : String) : JVal → Option JVal
  | .obj l => (l.find? (·.1 = lit k)).map (·.2)
  | _ => none

/-- A double as an unsigned number, cut to an integer. C leaves open what a number out of range
gives. -/
def truncate : Option ℚ → UInt64
  | some q => if -1 < q ∧ q < 2 ^ 64 then UInt64.ofNat ⌊q⌋.toNat else 0
  | none => 0

/-- A member that is a number, or a string that holds one, `u64`. -/
def u64 (v : JVal) (k : String) (dflt : UInt64 := 0) : UInt64 :=
  match v.get k with
  | some (.num n) => truncate n
  | some (.str s) => strtoull s
  | _ => dflt

/-- A member that is a string, and the empty one if there is none. -/
def getStr (v : JVal) (k : String) : Bytes :=
  match v.get k with
  | some (.str s) => s
  | _ => []

end JVal

/-! ### Writing -/

/-- A character of a string. -/
def escape (b : UInt8) : Bytes :=
  if b = ch '"' then lit "\\\""
  else if b = ch '\\' then lit "\\\\"
  else if b = 10 then lit "\\n"
  else if b = 13 then lit "\\r"
  else if b = 9 then lit "\\t"
  else if b < 0x20 then
    lit "\\u00" ++ [ch (Nat.digitChar (b.toNat / 16)), ch (Nat.digitChar (b.toNat % 16))]
  else [b]

/-- A string in quotes, `jstr`. -/
def jstr (s : Bytes) : Bytes :=
  ch '"' :: s.flatMap escape ++ [ch '"']

/-- A number in hexadecimal notation, in quotes, `jhex`. -/
def jhex (n : UInt64) : Bytes :=
  lit "\"0x" ++ (Nat.toDigits 16 n.toNat).map ch ++ lit "\""

end Annotations

end Ldu
