import Ldu.Shell.Segments
import Ldu.Text.MaxRuns
import Mathlib.Data.List.Destutter

/-!
# The strings of a program

The segments without code are scanned for texts, once for bytes and once for UTF-16 characters, with
the low byte first. A text is a run of printable characters that is not too short, ends in a zero or
with the segment, and has a letter or a digit in it.

The scan for bytes follows a run to its end and keeps the front of it. The scan for UTF-16
characters follows a run for as many characters only, and takes it up again where it left it.
-/

namespace Ldu

namespace Shell

open Listing (Segment)

inductive StringKind
  | ascii | utf16
  deriving DecidableEq

/-- A string, with its address. -/
structure StringEntry where
  rva : ℕ
  text : String
  kind : StringKind
  deriving DecidableEq

/-- `MIN` -/
def minLen : ℕ := 5

/-- `MAX_VAL` -/
def maxVal : ℕ := 480

/-- `CAP` -/
def maxStrings : ℕ := 500000

/-- There is more than punctuation in a text. -/
def looksLikeText (s : String) : Bool :=
  s.toList.any Char.isAlphanum

def printable (b : UInt8) : Bool :=
  (0x20 ≤ b && b ≤ 0x7E) || b = 0x09 || b = 0x0A || b = 0x0D

/-! ### The scans of a segment -/

/-- A scan of the bytes of a segment. -/
structure Pass where
  kind : StringKind
  /-- The bytes of a character. -/
  width : ℕ
  /-- The number of characters that a run is followed for. -/
  limit : ℕ
  isChar : ℕ → Bool
  /-- A run that ends at the position is a text. -/
  terminated : ℕ → Bool

section Passes

variable (bytes : List UInt8)

def printableAt (i : ℕ) : Bool :=
  bytes[i]?.any printable

def zeroAt (i : ℕ) : Bool :=
  bytes[i]? = some 0

def asciiPass : Pass where
  kind := .ascii
  width := 1
  limit := bytes.length
  isChar i := printableAt bytes i
  terminated j := bytes.length ≤ j || zeroAt bytes j

def widePass : Pass where
  kind := .utf16
  width := 2
  limit := maxVal
  isChar i := printableAt bytes i && zeroAt bytes (i + 1)
  terminated j := bytes.length ≤ j + 1 || (zeroAt bytes j && zeroAt bytes (j + 1))

/-- The text of `k` characters of `width` bytes. -/
def textAt (width i k : ℕ) : String :=
  String.ofList ((List.range k).map fun m ↦ Char.ofUInt8 (bytes[i + width * m]?.getD 0))

end Passes

/-- Take a string; the scan ends with as many as are taken at most. -/
def push (out : List StringEntry) (e : StringEntry) :
    Except (List StringEntry) (List StringEntry) :=
  let out := out ++ [e]
  if maxStrings ≤ out.length then .error out else .ok out

namespace Pass

variable (c : Pass) (rva : ℕ) (bytes : List UInt8)

/-- The string of a run of `len` characters. -/
def entry (i len : ℕ) : Option StringEntry :=
  let s := textAt bytes c.width i (min len maxVal)
  if minLen ≤ len ∧ c.terminated (i + c.width * len) ∧ looksLikeText s then
    some ⟨rva + i, s, c.kind⟩
  else none

/-- The scan from position `i` on. -/
def scanFrom : ℕ → ℕ → List StringEntry → Except (List StringEntry) (List StringEntry)
  | 0, _, out => .ok out
  | fuel + 1, i, out =>
    if i + c.width ≤ bytes.length then
      if c.isChar i then do
        let len := runLength c.isChar c.width c.limit i
        let out ←
          match c.entry rva bytes i len with
          | some e => push out e
          | none => .ok out
        scanFrom fuel (i + c.width * len) out
      else scanFrom fuel (i + 1) out
    else .ok out

end Pass

/-! ### All segments -/

section Scan

variable (image : List UInt8)

def scanSegment (out : List StringEntry) (seg : Segment) :
    Except (List StringEntry) (List StringEntry) :=
  if seg.size = 0 then .ok out
  else if seg.exec then .ok out
  else
    let bytes := readBytes image seg.rva seg.size
    if bytes.length = 0 then .ok out
    else do
      let out ← (asciiPass bytes).scanFrom seg.rva bytes bytes.length 0 out
      (widePass bytes).scanFrom seg.rva bytes bytes.length 0 out

/-- By address, and the longer string first. -/
def entryLe (a b : StringEntry) : Bool :=
  a.rva < b.rva || (a.rva = b.rva && b.text.utf8ByteSize ≤ a.text.utf8ByteSize)

/-- The strings that are taken, whether the scan ends early or not. -/
def taken : Except (List StringEntry) (List StringEntry) → List StringEntry
  | .ok out => out
  | .error out => out

/-- The strings of the segments, `scan_strings`. -/
def scanStrings (segs : List Segment) : List StringEntry :=
  ((taken (segs.foldlM (scanSegment image) [])).mergeSort entryLe).destutter (·.rva ≠ ·.rva)

end Scan

/-! ### What is to be listed -/

/-- A maximal run of at least five characters that is terminated; its first 480 characters are
listed if there is more than punctuation in them. -/
def Pass.Lists (c : Pass) (rva : ℕ) (bytes : List UInt8) (e : StringEntry) : Prop :=
  ∃ a k, MaxRun c.isChar c.width a k ∧ 5 ≤ k ∧ c.terminated (a + c.width * k) ∧
    looksLikeText (textAt bytes c.width a (min k 480)) ∧
    e = ⟨rva + a, textAt bytes c.width a (min k 480), c.kind⟩

/-- The strings of the segments without code. -/
def Listed (image : List UInt8) (segs : List Segment) (e : StringEntry) : Prop :=
  ∃ seg ∈ segs, seg.exec = false ∧
    ((asciiPass (readBytes image seg.rva seg.size)).Lists seg.rva
        (readBytes image seg.rva seg.size) e ∨
      (widePass (readBytes image seg.rva seg.size)).Lists seg.rva
        (readBytes image seg.rva seg.size) e)

end Shell

end Ldu
