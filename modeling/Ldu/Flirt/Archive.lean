import Ldu.Checked.Arith
import Ldu.Text.Str

/-!
# Reading `ar` archives

An archive is a sequence of members, each behind a header of 60 bytes and padded to an even offset.
The name of a member stands in its header, or the header refers to a table of long names, which is a
member itself; the members that index symbols are for the linker. `members` returns the other ones,
with the bytes of each as a range of the archive.

Positions are numbers of 64 bits and every slice is checked. On an archive that fits in memory there
is no fault, and the ranges come in order without an overlap (`members_safe`).
-/

namespace Ldu

namespace Flirt

namespace Ar

open Checked Utf8 Str

/-- A member, with where its data starts and stops. -/
structure Member where
  name : String
  start : ℕ
  stop : ℕ
  deriving DecidableEq, Repr

def Member.data (buf : List UInt8) (m : Member) : List UInt8 :=
  (buf.drop m.start).take (m.stop - m.start)

/-! ### Fields -/

def space : UInt8 := 0x20

def slash : UInt8 := 0x2F

def newline : UInt8 := 0x0A

/-- Spaces and zeros at the end are padding. -/
def isPadding (c : UInt8) : Bool :=
  c = space || c = 0

def trimAscii (b : List UInt8) : List UInt8 :=
  b.rdropWhile isPadding

def asciiNum (b : List UInt8) : Option ℕ := do
  let s ← fromUtf8? (trimAscii b)
  parseUsize (trim s.toList)

def isAsciiDigit (c : UInt8) : Bool :=
  0x30 ≤ c && c ≤ 0x39

/-- The name without a slash at its end. -/
def stripSlash (n : List UInt8) : Checked (List UInt8) :=
  if n.getLast? = some slash then do
    slice n 0 (← sub n.length 1)
  else .ok n

def longnameAt (table : List UInt8) (off : ℕ) : Checked (Option String) :=
  if table.length ≤ off then .ok none
  else do
    let s ← slice table off table.length
    let stop := (s.findIdx? fun c ↦ c = newline || c = 0).getD s.length
    let n ← stripSlash (← slice s 0 stop)
    return some (fromUtf8Lossy n)

/-- The digits behind the slash of a name that refers to the table. -/
def refDigits (n : List UInt8) : Checked (Option (List UInt8)) :=
  if n.head? = some slash ∧ 1 < n.length then do
    let ds ← slice n 1 n.length
    return if ds.all isAsciiDigit then some ds else none
  else .ok none

/-- The offset that digits are. -/
def refOffset (ds : List UInt8) : ℕ :=
  ((fromUtf8? ds).bind fun s ↦ parseUsize s.toList).getD 0

/-- What the name field of a member says: the table of long names behind it, and the name of the
member if it is one to return. -/
def classify (longnames data n : List UInt8) : Checked (List UInt8 × Option String) :=
  if n = [slash] then .ok (longnames, none)
  else if n = [slash, slash] then .ok (data, none)
  else do
    match ← refDigits n with
    | some ds => return (longnames, ← longnameAt longnames (refOffset ds))
    | none =>
      let nm := fromUtf8Lossy (← stripSlash n)
      return (longnames, if nm = "" then none else some nm)

/-! ### Members -/

section Members

variable (buf : List UInt8)

/-- The members from position `p` on. -/
def membersFrom : ℕ → ℕ → List UInt8 → Checked (List Member)
  | 0, _, _ => .error .endless
  | fuel + 1, p, longnames => do
    let stop ← add 64 p 60
    if buf.length < stop then return []
    let hdr ← slice buf p stop
    let rawName ← slice hdr 0 16
    let size := (asciiNum (← slice hdr 48 58)).getD 0
    let dataStart ← add 64 p 60
    let dataEnd := satAdd dataStart size
    if buf.length < dataEnd then return []
    let data ← slice buf dataStart dataEnd
    let (longnames, name) ← classify longnames data (trimAscii rawName)
    let p ← add 64 dataEnd (dataEnd &&& 1)
    let rest ← membersFrom fuel p longnames
    return (name.map (⟨·, dataStart, dataEnd⟩)).toList ++ rest

/-- `b"!<arch>\n"` -/
def magic : List UInt8 :=
  [0x21, 0x3C, 0x61, 0x72, 0x63, 0x68, 0x3E, 0x0A]

def members : Checked (List Member) := do
  if buf.length < 8 then return []
  if (← slice buf 0 8) ≠ magic then return []
  membersFrom buf (buf.length + 1) 8 []

end Members

/-! ### What the fields say -/

section Fields

variable {table data n : List UInt8} {off : ℕ}

/-- The name without a slash at its end. -/
def stripped (n : List UInt8) : List UInt8 :=
  if n.getLast? = some slash then n.dropLast else n

theorem stripSlash_eq (n : List UInt8) : stripSlash n = .ok (stripped n) := by
  unfold stripSlash stripped
  split
  · next h =>
    have hpos : 1 ≤ n.length := List.length_pos_of_ne_nil (by rintro rfl; cases h)
    rw [sub_of_le hpos, ok_bind, slice_of_le (Nat.zero_le _) (Nat.sub_le _ _), List.drop_zero,
      Nat.sub_zero, List.dropLast_eq_take]
  · rfl

def isTerminator (c : UInt8) : Bool :=
  c = newline || c = 0

/-- The name at an offset of the table. -/
def entryAt (table : List UInt8) (off : ℕ) : Option String :=
  if table.length ≤ off then none
  else some (fromUtf8Lossy (stripped ((table.drop off).takeWhile (!isTerminator ·))))

theorem take_findIdx? (s : List UInt8) (p : UInt8 → Bool) :
    (s.findIdx? p).getD s.length ≤ s.length ∧
      s.take ((s.findIdx? p).getD s.length) = s.takeWhile (!p ·) := by
  induction s with
  | nil => exact ⟨le_rfl, rfl⟩
  | cons c s ih =>
    rw [List.findIdx?_cons, List.takeWhile_cons]
    by_cases hc : p c = true
    · simp [hc]
    · simp only [hc, Bool.false_eq_true, if_false, Bool.not_false, if_true]
      cases hfind : s.findIdx? p with
      | none => simpa [hfind] using ih
      | some i => simpa [hfind] using ih

theorem longnameAt_eq (table : List UInt8) (off : ℕ) :
    longnameAt table off = .ok (entryAt table off) := by
  unfold longnameAt entryAt
  split
  · rfl
  · next h =>
    have hdrop : (table.drop off).take (table.length - off) = table.drop off := by
      rw [← List.length_drop, List.take_length]
    obtain ⟨hle, htake⟩ := take_findIdx? (table.drop off) isTerminator
    rw [slice_of_le (by omega) le_rfl, ok_bind, hdrop]
    change (slice (table.drop off) 0 (((table.drop off).findIdx? isTerminator).getD _) >>= _) = _
    rw [slice_of_le (Nat.zero_le _) hle, ok_bind, List.drop_zero, Nat.sub_zero, htake,
      stripSlash_eq]
    rfl

/-- The digits by which a name refers to the table. -/
def ref? (n : List UInt8) : Option (List UInt8) :=
  if n.head? = some slash ∧ 1 < n.length ∧ n.tail.all isAsciiDigit then some n.tail else none

theorem refDigits_eq (n : List UInt8) : refDigits n = .ok (ref? n) := by
  unfold refDigits ref?
  by_cases h : n.head? = some slash ∧ 1 < n.length
  · have htail : (n.drop 1).take (n.length - 1) = n.tail := by
      rw [← List.length_drop, List.take_length, List.drop_one]
    rw [if_pos h, slice_of_le h.2.le le_rfl, ok_bind, htail]
    by_cases hds : n.tail.all isAsciiDigit = true
    · rw [if_pos hds, if_pos ⟨h.1, h.2, hds⟩]
      rfl
    · rw [if_neg hds, if_neg fun h' ↦ hds h'.2.2]
      rfl
  · rw [if_neg h, if_neg fun h' ↦ h ⟨h'.1, h'.2.1⟩]

/-- The table of long names behind a member. -/
def tableAfter (table data n : List UInt8) : List UInt8 :=
  if n = [slash, slash] then data else table

/-- The name of a member to return. -/
def nameOf (table n : List UInt8) : Option String :=
  if n = [slash] ∨ n = [slash, slash] then none
  else
    match ref? n with
    | some ds => entryAt table (refOffset ds)
    | none =>
      if fromUtf8Lossy (stripped n) = "" then none else some (fromUtf8Lossy (stripped n))

theorem classify_eq (table data n : List UInt8) :
    classify table data n = .ok (tableAfter table data n, nameOf table n) := by
  unfold classify tableAfter nameOf
  by_cases hindex : n = [slash]
  · rw [if_pos hindex, if_neg (show n ≠ [slash, slash] by rw [hindex]; decide),
      if_pos (.inl hindex)]
  · rw [if_neg hindex]
    by_cases htable : n = [slash, slash]
    · rw [if_pos htable, if_pos htable, if_pos (.inr htable)]
    · rw [if_neg htable, if_neg htable, if_neg (not_or.2 ⟨hindex, htable⟩), refDigits_eq, ok_bind]
      cases ref? n with
      | some ds =>
        dsimp only
        rw [longnameAt_eq]
        rfl
      | none =>
        dsimp only
        rw [stripSlash_eq]
        rfl

end Fields

/-! ### Any bytes -/

section Safe

variable {buf : List UInt8} {p : ℕ}

/-- The size that the header at a position gives. -/
def sizeAt (buf : List UInt8) (p : ℕ) : ℕ :=
  (asciiNum (((buf.drop p).drop 48).take 10)).getD 0

/-- The name field of the header at a position. -/
def nameFieldAt (buf : List UInt8) (p : ℕ) : List UInt8 :=
  trimAscii ((buf.drop p).take 16)

/-- A round of the loop: the member at a position if there is one, then those behind it. -/
theorem membersFrom_succ (hbuf : buf.length < 2 ^ 63) (fuel : ℕ) (hp : p ≤ buf.length + 1)
    (table : List UInt8) :
    membersFrom buf (fuel + 1) p table =
      if buf.length < p + 60 ∨ buf.length < p + 60 + sizeAt buf p then .ok []
      else do
        let data := (buf.drop (p + 60)).take (sizeAt buf p)
        let stop := p + 60 + sizeAt buf p
        let rest ← membersFrom buf fuel (stop + stop % 2)
          (tableAfter table data (nameFieldAt buf p))
        return ((nameOf table (nameFieldAt buf p)).map (⟨·, p + 60, stop⟩)).toList ++ rest := by
  rw [membersFrom, add_of_lt (by omega), ok_bind]
  by_cases hhead : buf.length < p + 60
  · rw [if_pos hhead, if_pos (.inl hhead)]
    rfl
  · have hlength : ((buf.drop p).take (p + 60 - p)).length = 60 := by
      rw [List.length_take, List.length_drop]
      omega
    have hname : (((buf.drop p).take (p + 60 - p)).drop 0).take (16 - 0) =
        (buf.drop p).take 16 := by
      rw [List.drop_zero, Nat.sub_zero, Nat.add_sub_cancel_left, List.take_take,
        Nat.min_eq_left (by decide)]
    have hsize : (asciiNum ((((buf.drop p).take (p + 60 - p)).drop 48).take (58 - 48))).getD 0 =
        sizeAt buf p := by
      rw [Nat.add_sub_cancel_left, List.drop_take, List.take_take, Nat.min_eq_left (by decide)]
      rfl
    rw [if_neg hhead, slice_of_le (by omega) (by omega), ok_bind, slice_of_le (by omega) (by omega),
      ok_bind, slice_of_le (by omega) (by omega), ok_bind, hname, hsize, ok_bind]
    dsimp only
    by_cases hdata : buf.length < p + 60 + sizeAt buf p
    · have hsat : buf.length < satAdd (p + 60) (sizeAt buf p) := by
        unfold satAdd
        omega
      rw [if_pos hsat, if_pos (.inr hdata)]
      rfl
    · have hsat : satAdd (p + 60) (sizeAt buf p) = p + 60 + sizeAt buf p := by
        unfold satAdd
        omega
      have hand : (p + 60 + sizeAt buf p) &&& 1 = (p + 60 + sizeAt buf p) % 2 :=
        Nat.and_two_pow_sub_one_eq_mod _ 1
      rw [hsat, if_neg hdata, if_neg (not_or.2 ⟨hhead, hdata⟩), slice_of_le (by omega) (by omega),
        ok_bind, Nat.add_sub_cancel_left, classify_eq, ok_bind]
      dsimp only
      rw [hand, add_of_lt (by omega), ok_bind]
      rfl

/-- Members come in order, within a range. -/
structure InOrder (lo hi : ℕ) (ms : List Member) : Prop where
  mem : ∀ m ∈ ms, lo ≤ m.start ∧ m.start ≤ m.stop ∧ m.stop ≤ hi
  pairwise : ms.Pairwise fun m m' ↦ m.stop < m'.start

theorem InOrder.cons {lo lo' hi : ℕ} {ms : List Member} (h : InOrder lo' hi ms) (o : Option Member)
    (ho : ∀ m ∈ o, lo ≤ m.start ∧ m.start ≤ m.stop ∧ m.stop ≤ hi ∧ m.stop < lo') (hlo : lo ≤ lo') :
    InOrder lo hi (o.toList ++ ms) := by
  have hms : ∀ m ∈ ms, lo ≤ m.start ∧ m.start ≤ m.stop ∧ m.stop ≤ hi := fun m hm ↦
    ⟨hlo.trans (h.mem m hm).1, (h.mem m hm).2⟩
  cases o with
  | none => exact ⟨hms, h.pairwise⟩
  | some m =>
    obtain ⟨hstart, hle, hstop, hlt⟩ := ho m rfl
    exact ⟨List.forall_mem_cons.2 ⟨⟨hstart, hle, hstop⟩, hms⟩, List.pairwise_cons.2
      ⟨fun m' hm' ↦ hlt.trans_le (h.mem m' hm').1, h.pairwise⟩⟩

theorem membersFrom_safe (hbuf : buf.length < 2 ^ 63) {fuel : ℕ} (hp : p ≤ buf.length + 1)
    (hfuel : buf.length + 1 - p < fuel) (table : List UInt8) :
    ∃ ms, membersFrom buf fuel p table = .ok ms ∧ InOrder (p + 60) buf.length ms := by
  induction fuel generalizing p table with
  | zero => omega
  | succ fuel ih =>
    rw [membersFrom_succ hbuf fuel hp]
    by_cases hend : buf.length < p + 60 ∨ buf.length < p + 60 + sizeAt buf p
    · exact ⟨[], if_pos hend, ⟨nofun, .nil⟩⟩
    · rw [if_neg hend]
      obtain ⟨ms, hms, horder⟩ := ih (p := p + 60 + sizeAt buf p + (p + 60 + sizeAt buf p) % 2)
        (by omega) (by omega) (tableAfter table ((buf.drop (p + 60)).take (sizeAt buf p))
          (nameFieldAt buf p))
      refine ⟨_, by dsimp only; rw [hms]; rfl, horder.cons _ (fun m hm ↦ ?_) (by omega)⟩
      obtain ⟨name, -, rfl⟩ := Option.map_eq_some_iff.1 hm
      exact ⟨le_rfl, Nat.le_add_right _ _, by dsimp only; omega, by dsimp only; omega⟩

/-- On any bytes that fit in memory the reader ends without a fault, and returns slices of them in
order that do not overlap. -/
theorem members_safe (hbuf : buf.length < 2 ^ 63) :
    ∃ ms, members buf = .ok ms ∧ InOrder 0 buf.length ms := by
  unfold members
  by_cases hlength : buf.length < 8
  · exact ⟨[], by rw [if_pos hlength]; rfl, ⟨nofun, .nil⟩⟩
  · rw [if_neg hlength, slice_of_le (by omega) (by omega), ok_bind]
    by_cases hmagic : (buf.drop 0).take (8 - 0) = magic
    · obtain ⟨ms, hms, horder⟩ := membersFrom_safe hbuf (show 8 ≤ buf.length + 1 by omega)
        (show buf.length + 1 - 8 < buf.length + 1 by omega) []
      exact ⟨ms, by rw [if_neg (not_not.2 hmagic), hms],
        ⟨fun m hm ↦ ⟨Nat.zero_le _, (horder.mem m hm).2⟩, horder.pairwise⟩⟩
    · exact ⟨[], by rw [if_pos hmagic]; rfl, ⟨nofun, .nil⟩⟩

end Safe

end Ar

end Flirt

end Ldu
