import Ldu.Semantics.Attempt
import Mathlib.Algebra.Group.Nat.Defs

/-!
# Demangling Rust symbols

`dsRustDemangle` takes the symbol as the list of its characters, one for each byte. Legacy symbols
are a sequence of components with decimal lengths (`legacyParts`); v0 symbols are read by a parser
of mutually recursive functions over a cursor, an error flag and a depth (`V0`). Lengths, positions
and back-references are unsigned 64-bit numbers and wrap around.

The parser is computed with fuel: `V0.call` gives its functions one unit for each call, and
`legacyLoop` one for each component. Besides running out of fuel a computation stops when a `Watch`
says so, which the source has not: at a component that moves the cursor back, and at a constant at
certain positions. With `Watch.none` nothing is watched and the computation is that of the source.
-/

namespace Ldu

namespace Rust

/-- Unsigned 64-bit arithmetic. -/
def wrap (n : ℕ) : ℕ :=
  n % 2 ^ 64

/-- Why a computation has stopped. -/
inductive Stop
  | fuel | back | cycle
  deriving DecidableEq

/-- What is watched for: components that move the cursor back, and constants at a position. -/
structure Watch where
  back : Bool
  cycle : ℕ → Bool

/-- The source watches for nothing. -/
def Watch.none : Watch :=
  ⟨false, fun _ ↦ false⟩

/-- The value of a decimal digit. -/
def digit (c : Char) : ℕ :=
  c.toNat - '0'.toNat

/-- The value of a decimal number. -/
def decimalValue (cs : List Char) : ℕ :=
  cs.foldl (fun v c ↦ wrap (v * 10 + digit c)) 0

/-- A hexadecimal digit. -/
def isXDigit (c : Char) : Bool :=
  c.isDigit || ('a' ≤ c && c ≤ 'f') || ('A' ≤ c && c ≤ 'F')

/-! ### Legacy symbols -/

/-- The trailing hash: `h` and sixteen hexadecimal digits. -/
def isHex16 (p : List Char) : Bool :=
  match p with
  | 'h' :: ds => ds.length == 16 && ds.all isXDigit
  | _ => false

/-- The value of a hexadecimal digit. -/
def xDigit (c : Char) : ℕ :=
  if c.isDigit then digit c
  else if 'a' ≤ c then c.toNat - 'a'.toNat + 10 else c.toNat - 'A'.toNat + 10

/-- `strtol` with base sixteen: white space, a sign, `0x`, then as many digits as there are. -/
def strtol16 (cs : List Char) : ℤ :=
  let cs := cs.dropWhile Char.isWhitespace
  let neg := cs.head? == some '-'
  let cs := if neg || cs.head? == some '+' then cs.tail else cs
  let cs := match cs with
    | '0' :: x :: d :: ds => if (x == 'x' || x == 'X') && isXDigit d then d :: ds else cs
    | _ => cs
  let v : ℤ := (cs.takeWhile isXDigit).foldl (fun v c ↦ v * 16 + xDigit c) 0
  if neg then -v else v

/-- The text of an escape `$code$`. -/
def legacyEscape (code : List Char) : List Char :=
  match String.ofList code with
  | "SP" => ['@']
  | "BP" => ['*']
  | "RF" => ['&']
  | "LT" => ['<']
  | "GT" => ['>']
  | "LP" => ['(']
  | "RP" => [')']
  | "C" => [',']
  | _ =>
    match code with
    | 'u' :: ds =>
      let cp := strtol16 ds
      if 0 < cp ∧ cp < 128 then [Char.ofNat cp.toNat] else ['?']
    | _ => '$' :: code ++ ['$']

/-- Decode the escapes and the dots of a component, from the character on; `fuel` bounds the number
of characters. -/
def legacyDecodeFrom : ℕ → List Char → List Char
  | 0, _ | _, [] => []
  | fuel + 1, '$' :: cs =>
    match cs.dropWhile (· != '$') with
    | [] => '$' :: legacyDecodeFrom fuel cs
    | _ :: rest => legacyEscape (cs.takeWhile (· != '$')) ++ legacyDecodeFrom fuel rest
  | fuel + 1, '.' :: '.' :: cs => ':' :: ':' :: legacyDecodeFrom fuel cs
  | fuel + 1, c :: cs => c :: legacyDecodeFrom fuel cs

/-- One component; a component that would start with an escape has an underscore in front. -/
def legacyDecode (p : List Char) : List Char :=
  match p with
  | '_' :: '$' :: cs => legacyDecodeFrom p.length ('$' :: cs)
  | _ => legacyDecodeFrom p.length p

/-- The components from the cursor `i` on: as long as there is a digit, a decimal length and as many
characters. A length that is zero or leads beyond the end fails. -/
def legacyLoop (w : Watch) (sym : List Char) : ℕ → ℕ → Except Stop (Option (List (List Char)))
  | 0, _ => .error .fuel
  | n + 1, i =>
    let digits := (sym.drop i).takeWhile Char.isDigit
    if digits = [] then .ok (some [])
    else
      let len := decimalValue digits
      let i' := i + digits.length
      let next := wrap (i' + len)
      if len = 0 ∨ sym.length < next then .ok none
      else if w.back ∧ next < i' then .error .back
      else (legacyLoop w sym n next).map fun parts ↦ parts.map (((sym.drop i').take len) :: ·)

/-- The name the components make; without the hash at the end it is no Rust symbol. -/
def legacyName (parts : List (List Char)) : List Char :=
  match parts.getLast? with
  | some p =>
    if isHex16 p then (parts.dropLast.map legacyDecode).intersperse [':', ':'] |>.flatten else []
  | none => []

def demangleLegacy (w : Watch) (fuel : ℕ) (sym : List Char) : Except Stop (List Char) :=
  if ['_', 'Z', 'N'].isPrefixOf sym then
    (legacyLoop w sym fuel 3).map fun parts ↦ (parts.map legacyName).getD []
  else if ['Z', 'N'].isPrefixOf sym then
    (legacyLoop w sym fuel 2).map fun parts ↦ (parts.map legacyName).getD []
  else .ok []

/-! ### The v0 parser -/

/-- The state of the parser. -/
structure V0 where
  pos : ℕ := 0
  err : Bool := false
  depth : ℕ := 0
  deriving DecidableEq

abbrev Parse (α : Type) := Attempt Stop V0 α

/-- The functions that call each other, and their loops: over generic arguments, over types, over
traits, and over the bindings of a trait. `first` holds until an element has been read. -/
inductive Call
  | path | type | constant | genericArg | fnSig | dynBounds
  | genericArgs (first : Bool) | types (first : Bool) | traits (first : Bool) | bindings
  deriving DecidableEq

open Attempt

def moveTo (pos : ℕ) : Parse Unit :=
  modify fun st ↦ { st with pos := pos }

def advance : Parse Unit :=
  modify fun st ↦ { st with pos := st.pos + 1 }

def fail : Parse Unit :=
  modify fun st ↦ { st with err := true }

section Parser

variable (w : Watch) (s : List Char)

/-- The character at a position, and the character zero at the end. -/
def charAt (k : ℕ) : Char :=
  (s[k]?).getD (Char.ofNat 0)

def peek : Parse Char := fun st ↦
  .ok (charAt s st.pos, st)

def take : Parse Char := fun st ↦
  match s[st.pos]? with
  | some c => .ok (c, { st with pos := st.pos + 1 })
  | none => .ok (Char.ofNat 0, { st with err := true })

/-- Take the characters that satisfy `p`. -/
def takeWhile (p : Char → Bool) : Parse (List Char) := fun st ↦
  let ds := (s.drop st.pos).takeWhile p
  .ok (ds, { st with pos := st.pos + ds.length })

def eat (c : Char) : Parse Bool := do
  let d ← peek s
  if d = c then
    advance
    pure true
  else pure false

/-- The value of a digit to base 62. -/
def base62Digit (c : Char) : Option ℕ :=
  if c.isDigit then some (digit c)
  else if 'a' ≤ c ∧ c ≤ 'z' then some (10 + (c.toNat - 'a'.toNat))
  else if 'A' ≤ c ∧ c ≤ 'Z' then some (36 + (c.toNat - 'A'.toNat))
  else none

/-- A number to base 62 that ends in an underscore; nothing stands for `0`. -/
def base62 : Parse ℕ := do
  if ← eat s '_' then pure 0
  else
    let ds ← takeWhile s (base62Digit · |>.isSome)
    if ← eat s '_' then
      pure (wrap (ds.foldl (fun v c ↦ wrap (v * 62 + (base62Digit c).getD 0)) 0 + 1))
    else
      fail
      pure 0

/-- A number to base 62 behind the character `c`, if it is there. -/
def tagged (c : Char) : Parse Unit := do
  if ← eat s c then
    let _ ← base62 s

def disambiguator : Parse Unit :=
  tagged s 's'

/-- A decimal length; a zero stands alone. -/
def decimal : Parse ℕ := do
  let c ← peek s
  if !c.isDigit then
    fail
    pure 0
  else if c = '0' then
    advance
    pure 0
  else
    let ds ← takeWhile s Char.isDigit
    pure (decimalValue ds)

def ident : Parse String := do
  let puny ← eat s 'u'
  let len ← decimal s
  let _ ← eat s '_'
  let st ← get
  let next := wrap (st.pos + len)
  if st.err ∨ s.length < next then
    fail
    pure ""
  else if w.back ∧ next < st.pos then stop .back
  else
    moveTo next
    let raw := String.ofList ((s.drop st.pos).take len)
    pure (if puny then raw ++ "\x7bpunycode\x7d" else raw)

def basicType : Char → Option String
  | 'a' => some "i8"
  | 'b' => some "bool"
  | 'c' => some "char"
  | 'd' => some "f64"
  | 'e' => some "str"
  | 'f' => some "f32"
  | 'h' => some "u8"
  | 'i' => some "isize"
  | 'j' => some "usize"
  | 'l' => some "i32"
  | 'm' => some "u32"
  | 'n' => some "i128"
  | 'o' => some "u128"
  | 's' => some "i16"
  | 't' => some "u16"
  | 'u' => some "()"
  | 'x' => some "i64"
  | 'y' => some "u64"
  | 'z' => some "!"
  | 'p' => some "_"
  | 'v' => some "..."
  | _ => none

/-- Read again what stands at an earlier position. -/
def backref (fn : Parse String) : Parse String := do
  let off ← base62 s
  let st ← get
  if st.err ∨ st.pos ≤ off then
    fail
    pure ""
  else
    moveTo off
    let out ← fn
    moveTo st.pos
    pure out

/-- A function that counts its depth, up to the limit of 200. -/
def counted (fn : Parse String) : Parse String := do
  let st ← get
  if st.err then pure ""
  else
    modify fun st ↦ { st with depth := st.depth + 1 }
    if 200 < st.depth + 1 then
      fail
      pure ""
    else
      let out ← fn
      modify fun st ↦ { st with depth := st.depth - 1 }
      pure out

section Functions

-- `rec` are the functions that are called.
variable (rec : Call → Parse String)

def path : Parse String := counted do
  match ← take s with
  | 'C' =>
    disambiguator s
    ident w s
  | 'N' =>
    let _ ← take s
    let base ← rec .path
    disambiguator s
    let id ← ident w s
    pure (if id = "" then base else base ++ "::" ++ id)
  | 'M' =>
    disambiguator s
    let _ ← rec .path
    let ty ← rec .type
    pure ("<" ++ ty ++ ">")
  | 'X' =>
    disambiguator s
    let _ ← rec .path
    let ty ← rec .type
    let tr ← rec .path
    pure ("<" ++ ty ++ " as " ++ tr ++ ">")
  | 'Y' =>
    let ty ← rec .type
    let tr ← rec .path
    pure ("<" ++ ty ++ " as " ++ tr ++ ">")
  | 'I' =>
    let base ← rec .path
    let args ← rec (.genericArgs true)
    let _ ← eat s 'E'
    pure (base ++ "::<" ++ args ++ ">")
  | 'B' => backref s (rec .path)
  | _ =>
    fail
    pure ""

def genericArg : Parse String := do
  if ← eat s 'L' then
    let _ ← base62 s
    pure "'_"
  else if ← eat s 'K' then rec .constant
  else rec .type

def constant : Parse String := do
  if ← eat s 'B' then backref s (rec .constant)
  else
    let _ ← rec .type
    if ← eat s 'p' then pure "_"
    else
      let neg ← eat s 'n'
      let val ← takeWhile s isXDigit
      let _ ← eat s '_'
      pure ((if neg then "-" else "") ++ if val = [] then "_" else String.ofList val)

/-- The type behind the character `c`, with the text `pre` in front. -/
def typeAfter (pre : String) : Parse String := do
  advance
  let e ← rec .type
  pure (pre ++ e)

/-- A reference, behind its character. -/
def refAfter (pre : String) : Parse String := do
  advance
  tagged s 'L'
  let e ← rec .type
  pure (pre ++ e)

/-- A type that is no basic one, by the character `c` it begins with. -/
def compoundType (c : Char) : Parse String :=
  match c with
  | 'A' => do
    advance
    let e ← rec .type
    let n ← rec .constant
    pure ("[" ++ e ++ "; " ++ n ++ "]")
  | 'S' => do
    advance
    let e ← rec .type
    pure ("[" ++ e ++ "]")
  | 'T' => do
    advance
    let es ← rec (.types true)
    let _ ← eat s 'E'
    pure ("(" ++ es ++ ")")
  | 'R' => refAfter s rec "&"
  | 'Q' => refAfter s rec "&mut "
  | 'P' => typeAfter rec "*const "
  | 'O' => typeAfter rec "*mut "
  | 'F' => do
    advance
    rec .fnSig
  | 'D' => do
    advance
    let out ← rec .dynBounds
    tagged s 'L'
    pure out
  | 'B' => do
    advance
    backref s (rec .type)
  | _ => rec .path

def type : Parse String := counted do
  let c ← peek s
  match basicType c with
  | some text =>
    advance
    pure text
  | none => compoundType s rec c

/-- The calling convention of a function, behind `K`. -/
def abi : Parse Unit := do
  if ← eat s 'K' then
    if ← eat s 'C' then pure ()
    else
      let _ ← ident w s

def fnSig : Parse String := do
  tagged s 'G'
  let _ ← eat s 'U'
  abi w s
  let args ← rec (.types true)
  let _ ← eat s 'E'
  let ret ← rec .type
  pure ("fn(" ++ args ++ ") -> " ++ ret)

def dynBounds : Parse String := do
  tagged s 'G'
  let traits ← rec (.traits true)
  let _ ← eat s 'E'
  pure ("dyn " ++ traits)

/-- The elements up to an `E`, each read by `elem`; `next` reads those behind the first. -/
def elements (first : Bool) (sep : String) (elem next : Parse String) : Parse String := do
  let c ← peek s
  let st ← get
  if c = 'E' ∨ st.err then pure ""
  else
    let e ← elem
    let es ← next
    pure ((if first then "" else sep) ++ e ++ es)

/-- A trait with its bindings. -/
def boundTrait : Parse String := do
  let tr ← rec .path
  let _ ← rec .bindings
  pure tr

def bindings : Parse String := do
  if ← eat s 'p' then
    let _ ← ident w s
    let _ ← rec .type
    rec .bindings
  else pure ""

def body : Call → Parse String
  | .path => path w s rec
  | .type => type s rec
  | .constant => constant s rec
  | .genericArg => genericArg s rec
  | .fnSig => fnSig w s rec
  | .dynBounds => dynBounds s rec
  | .genericArgs first => elements s first ", " (rec .genericArg) (rec (.genericArgs false))
  | .types first => elements s first ", " (rec .type) (rec (.types false))
  | .traits first => elements s first " + " (boundTrait rec) (rec (.traits false))
  | .bindings => bindings w s rec

end Functions

/-- The functions, with fuel for `n` calls inside each other. -/
def call : ℕ → Call → Parse String
  | 0, _ => stop .fuel
  | n + 1, c => fun st ↦
    if c = .constant ∧ st.err = false ∧ w.cycle st.pos then .error .cycle
    else body w s (call n) c st

end Parser

/-- The symbol without its prefix and without a vendor's suffix. -/
def v0Body (sym : List Char) : List Char :=
  (sym.drop 2).takeWhile (· != '.')

def demangleV0 (w : Watch) (fuel : ℕ) (sym : List Char) : Except Stop (List Char) :=
  (call w (v0Body sym) fuel .path {}).map fun (out, st) ↦ if st.err then [] else out.toList

def dsRustDemangle (w : Watch) (fuel : ℕ) (sym : List Char) : Except Stop (List Char) :=
  if sym.length < 3 then .ok []
  else if ['_', 'R'].isPrefixOf sym then demangleV0 w fuel sym
  else demangleLegacy w fuel sym

end Rust

end Ldu
