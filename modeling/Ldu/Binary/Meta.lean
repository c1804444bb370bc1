import Ldu.Checked.Run
import Ldu.Text.Utf8

/-!
# What is known of a binary file

The parsers of the file formats all find the same of a file: its segments, and the symbols that it
imports and exports. Their text is read by `rdCstr`, which needs no zero behind it (`rdCstr_eq`).
-/

namespace Ldu

namespace BinParser

open Checked

inductive Arch
  | x86 | x64 | arm | arm64 | unknown
  deriving DecidableEq

inductive Format
  | pe32 | pe32Plus | elf32 | elf64 | machO32 | machO64
  deriving DecidableEq

/-- A name for an address of the image. The owner of an import is the library it comes from. -/
structure Symbol where
  rva : ℕ
  name : String
  owner : Option String := none
  deriving DecidableEq

def flagR : ℕ := 1

def flagW : ℕ := 2

def flagX : ℕ := 4

structure Segment where
  name : String
  rva : ℕ
  vsize : ℕ
  flags : ℕ
  fileOff : ℕ
  fileSize : ℕ
  deriving DecidableEq

structure BinaryMeta where
  format : Format
  arch : Arch
  base : ℕ
  entry : ℕ
  isDll : Bool
  imageSize : ℕ
  segments : List Segment
  exports : List Symbol
  imports : List Symbol
  tlsCallbacks : List ℕ
  deriving DecidableEq

/-! ### Readers -/

/-- A value, or what is wrong if there is none. -/
def okOr {α : Type} (e : String) : Option α → Except String α
  | some a => .ok a
  | none => .error e

theorem okOr_eq_ok {α : Type} {e : String} {o : Option α} {a : α} :
    okOr e o = .ok a ↔ o = some a := by
  cases o <;> simp [okOr]

/-- A number of `n` bytes, the lowest first. -/
def rdNumber (n : ℕ) (buf : List UInt8) (off : ℕ) : Option ℕ :=
  if off + n < 2 ^ 64 ∧ off + n ≤ buf.length then some (ofLE ((buf.drop off).take n)) else none

def rdU16 : List UInt8 → ℕ → Option ℕ := rdNumber 2

def rdU32 : List UInt8 → ℕ → Option ℕ := rdNumber 4

def rdU64 : List UInt8 → ℕ → Option ℕ := rdNumber 8

theorem rdNumber_lt {n off v : ℕ} {buf : List UInt8} (h : rdNumber n buf off = some v) :
    v < 256 ^ n := by
  unfold rdNumber at h
  split at h
  · next hfits =>
    cases h
    refine (ofLE_lt _).trans_le (Nat.pow_le_pow_right (by decide) ?_)
    rw [List.length_take]
    omega
  · cases h

theorem rdU32_lt {off v : ℕ} {buf : List UInt8} (h : rdU32 buf off = some v) : v < 2 ^ 32 :=
  (rdNumber_lt h).trans_le (by decide)

theorem getD_rdU32_lt (buf : List UInt8) (off : ℕ) : (rdU32 buf off).getD 0 < 2 ^ 32 := by
  cases h : rdU32 buf off with
  | none => decide
  | some v => exact rdU32_lt h

/-! ### Texts -/

/-- Move on to the next zero. -/
def cstrStep (buf : List UInt8) (hardEnd stop : ℕ) : Checked (Option ℕ) :=
  if stop < hardEnd then do
    let b ← index buf stop
    if b ≠ 0 then return some (← add 64 stop 1) else return none
  else return none

/-- The text at an offset, up to a zero or the end, at most `max` bytes. -/
def rdCstr (buf : List UInt8) (off max : ℕ) : Checked (Option String) :=
  if buf.length ≤ off then .ok none
  else do
    let hardEnd := min (satAdd off max) buf.length
    let stop ← iterate (cstrStep buf hardEnd) (hardEnd - off) off
    let text ← slice buf off stop
    return some (Utf8.fromUtf8Lossy text)

/-- The bytes of the text. -/
def cstrBytes (buf : List UInt8) (off max : ℕ) : List UInt8 :=
  ((buf.drop off).take max).takeWhile (· ≠ 0)

theorem iterate_cstrStep {buf : List UInt8} (hbuf : buf.length < 2 ^ 64) (n off : ℕ)
    (hend : off + n ≤ buf.length) :
    iterate (cstrStep buf (off + n)) n off = .ok (off + (cstrBytes buf off n).length) := by
  induction n generalizing off with
  | zero => simp [iterate, cstrBytes]
  | succ n ih =>
    have hlt : off < buf.length := by omega
    rw [iterate, cstrStep, if_pos (by omega), index_of_lt hlt, ok_bind]
    have hbytes : cstrBytes buf off (n + 1) =
        if buf[off] ≠ 0 then buf[off] :: cstrBytes buf (off + 1) n else [] := by
      rw [cstrBytes, List.drop_eq_getElem_cons hlt, List.take_succ_cons, List.takeWhile_cons]
      simp only [decide_eq_true_eq]
      rfl
    rw [hbytes]
    split
    · rw [add_of_lt (by omega), ok_bind]
      change iterate _ n (off + 1) = _
      rw [show off + (n + 1) = off + 1 + n by omega, ih (off + 1) (by omega), List.length_cons]
      congr 1
      omega
    · rfl

theorem cstrBytes_prefix (buf : List UInt8) (off max : ℕ) :
    cstrBytes buf off max <+: buf.drop off :=
  (List.takeWhile_prefix _).trans (List.take_prefix _ _)

theorem rdCstr_eq {buf : List UInt8} (hbuf : buf.length < 2 ^ 64) (off max : ℕ) :
    rdCstr buf off max =
      .ok (if buf.length ≤ off then none
        else some (Utf8.fromUtf8Lossy (cstrBytes buf off max))) := by
  unfold rdCstr
  split
  · rfl
  · next hoff =>
    obtain ⟨n, hn, hend⟩ : ∃ n, n = min max (buf.length - off) ∧
        min (satAdd off max) buf.length = off + n := by
      refine ⟨_, rfl, ?_⟩
      rw [satAdd]
      omega
    have hbytes : cstrBytes buf off n = cstrBytes buf off max := by
      unfold cstrBytes
      congr 1
      rw [List.take_eq_take_iff, List.length_drop]
      omega
    have hprefix := cstrBytes_prefix buf off max
    have hlen := hprefix.length_le
    rw [List.length_drop] at hlen
    dsimp only
    rw [hend, Nat.add_sub_cancel_left, iterate_cstrStep hbuf n off (by omega), hbytes, ok_bind,
      slice_of_le (by omega) (by omega), ok_bind, Nat.add_sub_cancel_left,
      ← List.prefix_iff_eq_take.1 hprefix]
    rfl

end BinParser

end Ldu
