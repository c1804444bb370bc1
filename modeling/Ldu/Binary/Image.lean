import Ldu.Binary.Meta
import Ldu.Table.Overlay

/-!
# The image of a binary file

The image has a byte for each address that a segment covers. It starts as zeros, the headers of a PE
file are put at its front, and then the bytes of the segments, each over those before. At an address
there is the byte of the last segment that has one there (`getElem?_buildImage_of_last`).
-/

namespace Ldu

namespace BinParser

open Checked

/-- Round up to a multiple of a power of two, as far as 64 bits go. -/
def roundUp (v align : ℕ) : ℕ :=
  if align = 0 then v
  else
    let mask := align - 1
    satAdd v mask &&& (2 ^ 64 - 1 - mask)

/-- A size that covers a segment too. -/
def cover (total : ℕ) (seg : Segment) : ℕ :=
  let stop := satAdd seg.rva seg.vsize
  if total < stop then stop else total

namespace BinaryMeta

variable (m : BinaryMeta) (bytes : List UInt8)

/-- The highest address that is covered. -/
def coveredEnd : ℕ :=
  m.segments.foldl cover m.imageSize

/-- The length of the image, with a limit for sizes that cannot be right. -/
def imageLength : ℕ :=
  min (roundUp m.coveredEnd 0x1000) ((2 ^ 32 - 1) * 4)

/-- Where the headers end: at the first segment. -/
def headerEnd : ℕ :=
  min (min (((m.segments.map (·.rva)).filter (0 < ·)).min?.getD 0) m.imageLength) bytes.length

/-- The number of bytes that are copied for a segment into an image of `n` bytes. -/
def copyLength (n : ℕ) (seg : Segment) : ℕ :=
  if bytes.length ≤ seg.fileOff then 0
  else
    let availFile := bytes.length - seg.fileOff
    let copy := min (min seg.fileSize availFile) seg.vsize
    if n ≤ seg.rva then 0 else min copy (n - seg.rva)

/-- The bytes that are copied for a segment. -/
def rawBytes (n : ℕ) (seg : Segment) : List UInt8 :=
  (bytes.drop seg.fileOff).take (copyLength bytes n seg)

def copySegment (image : List UInt8) (seg : Segment) : List UInt8 :=
  overwrite image seg.rva (rawBytes bytes image.length seg)

/-- The image before the segments are copied. -/
def blankImage : List UInt8 :=
  let image := List.replicate m.imageLength 0
  if m.format = .pe32 ∨ m.format = .pe32Plus then
    overwrite image 0 (bytes.take (m.headerEnd bytes))
  else image

def buildImage : List UInt8 :=
  m.segments.foldl (copySegment bytes) (m.blankImage bytes)

variable {m bytes} {n i : ℕ} {seg : Segment}

/-- The image has the byte at an address from the segment. -/
def CopiesAt (bytes : List UInt8) (n i : ℕ) (seg : Segment) : Prop :=
  seg.rva ≤ i ∧ i < seg.rva + copyLength bytes n seg

instance : Decidable (CopiesAt bytes n i seg) :=
  inferInstanceAs (Decidable (_ ∧ _))

theorem copyLength_le : copyLength bytes n seg ≤ bytes.length - seg.fileOff := by
  unfold copyLength
  dsimp only
  split_ifs <;> omega

/-- A byte is copied if it is in the file, in the segment and in the image. -/
theorem copiesAt_iff :
    CopiesAt bytes n i seg ↔
      seg.rva ≤ i ∧ i - seg.rva < seg.fileSize ∧ seg.fileOff + (i - seg.rva) < bytes.length ∧
        i - seg.rva < seg.vsize ∧ i < n := by
  unfold CopiesAt copyLength
  dsimp only
  split_ifs <;> omega

theorem length_rawBytes : (rawBytes bytes n seg).length = copyLength bytes n seg := by
  rw [rawBytes, List.length_take, List.length_drop]
  exact min_eq_left copyLength_le

theorem writesAt_iff :
    WritesAt Segment.rva (rawBytes bytes n) i seg ↔ CopiesAt bytes n i seg := by
  rw [WritesAt, length_rawBytes, CopiesAt]

theorem getElem?_rawBytes (h : CopiesAt bytes n i seg) :
    (rawBytes bytes n seg)[i - seg.rva]? = bytes[seg.fileOff + (i - seg.rva)]? := by
  rw [CopiesAt] at h
  rw [rawBytes, List.getElem?_take_of_lt (by omega), List.getElem?_drop]

theorem fits_rawBytes (segs : List Segment) : WritesFit Segment.rva (rawBytes bytes n) n segs := by
  intro seg _
  by_cases h : copyLength bytes n seg = 0
  · refine .inl (List.eq_nil_of_length_eq_zero ?_)
    rw [length_rawBytes, h]
  · refine .inr ?_
    rw [length_rawBytes]
    have hlast : CopiesAt bytes n (seg.rva + (copyLength bytes n seg - 1)) seg :=
      ⟨by omega, by omega⟩
    rw [copiesAt_iff] at hlast
    omega

theorem length_blankImage : (m.blankImage bytes).length = m.imageLength := by
  unfold blankImage
  dsimp only
  split
  · rw [length_overwrite, List.length_replicate]
    rw [List.length_replicate, List.length_take, headerEnd]
    omega
  · rw [List.length_replicate]

/-- The segments are written over the image one after the other. -/
theorem foldl_copySegment (image : List UInt8) (segs : List Segment) :
    segs.foldl (copySegment bytes) image =
      overlay Segment.rva (rawBytes bytes image.length) image segs := by
  induction segs generalizing image with
  | nil => rfl
  | cons seg segs ih =>
    have hlen : (copySegment bytes image seg).length = image.length :=
      (overwrite_eq_of_writesFit (fits_rawBytes [seg] seg (.head _))).1
    rw [List.foldl_cons, ih, hlen]
    rfl

theorem length_buildImage : (m.buildImage bytes).length = m.imageLength := by
  rw [buildImage, foldl_copySegment, length_overlay (fits_rawBytes _), length_blankImage]

/-- At an address there is the byte of the last segment that has one there. -/
theorem getElem?_buildImage_of_last {pre post : List Segment}
    (hsegs : m.segments = pre ++ seg :: post) (hseg : CopiesAt bytes m.imageLength i seg)
    (hpost : ∀ t ∈ post, ¬CopiesAt bytes m.imageLength i t) :
    (m.buildImage bytes)[i]? = bytes[seg.fileOff + (i - seg.rva)]? := by
  rw [buildImage, foldl_copySegment, hsegs, length_blankImage, getElem?_overlay_of_last,
    getElem?_rawBytes hseg]
  · rw [length_blankImage]
    exact fits_rawBytes _
  · exact writesAt_iff.2 hseg
  · exact fun t ht ↦ writesAt_iff.not.2 (hpost t ht)

/-! ### The length of the image -/

/-- Rounding up does not go below a number. -/
theorem le_roundUp {v : ℕ} (h : v < 2 ^ 63) : v ≤ roundUp v 0x1000 := by
  have hand : ∀ x < 2 ^ 64, x &&& (2 ^ 64 - 1 - 0xFFF) = x / 2 ^ 12 * 2 ^ 12 := fun x hx ↦ by
    refine Nat.eq_of_testBit_eq fun j ↦ ?_
    rw [show 2 ^ 64 - 1 - 0xFFF = (2 ^ 52 - 1) * 2 ^ 12 by decide, Nat.testBit_and,
      Nat.testBit_mul_two_pow, Nat.testBit_mul_two_pow, Nat.testBit_two_pow_sub_one,
      Nat.testBit_div_two_pow]
    by_cases hj : 12 ≤ j
    · rw [Nat.sub_add_cancel hj]
      by_cases hj' : j < 64
      · simp [hj, show j - 12 < 52 by omega]
      · simp [Nat.testBit_lt_two_pow (hx.trans_le (Nat.pow_le_pow_right (by decide)
          (Nat.le_of_not_lt hj')))]
    · simp [hj]
  have hsat : satAdd v 0xFFF = v + 0xFFF := min_eq_left (by omega)
  have hround : roundUp v 0x1000 = (v + 0xFFF) / 2 ^ 12 * 2 ^ 12 := by
    rw [roundUp, if_neg (by decide)]
    show satAdd v 0xFFF &&& _ = _
    rw [hsat]
    exact hand _ (by omega)
  rw [hround]
  omega

/-- A size covers the segments when it is at least where each of them ends. -/
theorem foldl_cover_le {segs : List Segment} {total b : ℕ} :
    segs.foldl cover total ≤ b ↔ total ≤ b ∧ ∀ seg ∈ segs, satAdd seg.rva seg.vsize ≤ b := by
  induction segs generalizing total with
  | nil => simp
  | cons seg segs ih =>
    have hcover : cover total seg ≤ b ↔ total ≤ b ∧ satAdd seg.rva seg.vsize ≤ b := by
      unfold cover
      dsimp only
      split <;> omega
    rw [List.foldl_cons, ih, hcover, List.forall_mem_cons, and_assoc]

/-- In an image of 32-bit addresses every address of a segment has a byte. -/
theorem lt_imageLength {seg : Segment} (hseg : seg ∈ m.segments)
    (hsize : m.imageSize < 2 ^ 33) (hbounds : ∀ t ∈ m.segments, t.rva < 2 ^ 32 ∧ t.vsize < 2 ^ 32)
    (hi : i < seg.rva + seg.vsize) : i < m.imageLength := by
  have hsat : ∀ t ∈ m.segments, satAdd t.rva t.vsize = t.rva + t.vsize := fun t ht ↦ by
    have := hbounds t ht
    exact min_eq_left (by omega)
  have hseg' : satAdd seg.rva seg.vsize ≤ m.coveredEnd := (foldl_cover_le.1 le_rfl).2 seg hseg
  have hend : m.coveredEnd ≤ 2 ^ 33 := foldl_cover_le.2 ⟨hsize.le, fun t ht ↦ by
    have := hbounds t ht
    rw [hsat t ht]
    omega⟩
  have hround := le_roundUp (v := m.coveredEnd) (by omega)
  rw [hsat seg hseg] at hseg'
  rw [imageLength, lt_min_iff]
  have := hbounds seg hseg
  omega

end BinaryMeta

end BinParser

end Ldu
