import Ldu.Shell.Strings
import Mathlib.Algebra.Order.BigOperators.Group.List
import Mathlib.Data.Set.Card

/-!
# Which strings are listed

What is to be listed is a text for each run of characters, at the start of the run, however long it
is (`Listed`). The scan for bytes finds all of that. The scan for UTF-16 leaves a run after 480
characters, where no terminator is, and goes on there as if another run started: the list is exact
unless there is a longer run with a text in its first 480 characters, which is lost, or in its last
piece, which is listed at an address inside of the run (`scanStrings_exact_iff`).

Strings have different addresses, so that sorting keeps all of them and the limit is on their
number. Of one segment, a text of bytes and one of UTF-16 differ in their second byte.
-/

namespace Ldu

namespace Shell

open Listing (Segment)

variable {image bytes : List UInt8} {segs : List Segment} {seg : Segment} {rva i j k : ℕ}
  {c : Pass} {e : StringEntry} {es out : List StringEntry}

/-! ### The passes -/

/-- The characters of a pass do not overlap, and a run does not go on where it is terminated. -/
structure Pass.Sound (c : Pass) (n : ℕ) : Prop where
  chars : Chars c.isChar c.width n
  limit_pos : 0 < n → 0 < c.limit
  not_terminated : ∀ {i}, c.isChar i → ¬c.terminated i

theorem lt_of_printableAt (h : printableAt bytes i) : i < bytes.length := by
  by_contra hle
  rw [printableAt, List.getElem?_eq_none (by omega)] at h
  cases h

theorem not_zeroAt_of_printableAt (h : printableAt bytes i) : zeroAt bytes i = false := by
  rw [zeroAt, decide_eq_false_iff_not]
  intro hzero
  rw [printableAt, hzero] at h
  exact absurd h (by decide)

theorem sound_asciiPass : (asciiPass bytes).Sound bytes.length where
  chars := ⟨Nat.one_pos, fun _ _ hlt ↦ hlt, fun h ↦ lt_of_printableAt h⟩
  limit_pos h := h
  not_terminated {i} h := by
    have := lt_of_printableAt h
    simp [asciiPass, not_zeroAt_of_printableAt h, this]

theorem sound_widePass : (widePass bytes).Sound bytes.length where
  chars := by
    refine ⟨Nat.two_pos, fun {i j} hi hj hlt ↦ ?_, fun {i} hi ↦ ?_⟩
    · obtain ⟨-, hzero⟩ := Bool.and_eq_true_iff.1 hi
      obtain ⟨hprint, -⟩ := Bool.and_eq_true_iff.1 hj
      have hne : i + 1 ≠ j := by
        rintro rfl
        rw [not_zeroAt_of_printableAt hprint] at hzero
        cases hzero
      show i + 2 ≤ j
      omega
    · obtain ⟨-, hzero⟩ := Bool.and_eq_true_iff.1 hi
      have := (List.getElem?_eq_some_iff.1 (of_decide_eq_true hzero)).1
      show i + 2 ≤ bytes.length
      omega
  limit_pos _ := (by decide : 0 < maxVal)
  not_terminated {i} h := by
    obtain ⟨hprint, hzero⟩ := Bool.and_eq_true_iff.1 h
    have := (List.getElem?_eq_some_iff.1 (of_decide_eq_true hzero)).1
    simp [widePass, not_zeroAt_of_printableAt hprint, this]

/-- The strings that a pass finds. -/
def Pass.found (c : Pass) (rva : ℕ) (bytes : List UInt8) (fuel i : ℕ) : List StringEntry :=
  (pieces c.isChar c.width c.limit bytes.length fuel i).filterMap fun x ↦
    c.entry rva bytes x.1 x.2

theorem Pass.entry_eq_some :
    c.entry rva bytes i k = some e ↔
      5 ≤ k ∧ c.terminated (i + c.width * k) ∧
        looksLikeText (textAt bytes c.width i (min k 480)) ∧
        e = ⟨rva + i, textAt bytes c.width i (min k 480), c.kind⟩ := by
  simp only [Pass.entry, Option.ite_none_right_eq_some, Option.some.injEq, and_assoc,
    eq_comm (a := e)]
  exact Iff.rfl

theorem Pass.scanFrom_eq (c : Pass) (rva : ℕ) (bytes : List UInt8) (fuel i : ℕ)
    (out : List StringEntry) :
    c.scanFrom rva bytes fuel i out = (c.found rva bytes fuel i).foldlM push out := by
  induction fuel generalizing i out with
  | zero => rfl
  | succ fuel ih =>
    rw [Pass.scanFrom, Pass.found, pieces]
    split
    · split
      · rw [List.filterMap_cons]
        dsimp only
        cases hentry : c.entry rva bytes i (runLength c.isChar c.width c.limit i) with
        | none => exact ih _ _
        | some e =>
          rw [List.foldlM_cons]
          dsimp only
          congr 1
          funext out'
          exact ih _ _
      · exact ih _ _
    · rfl

/-- The strings that are found in a segment. -/
def foundIn (image : List UInt8) (seg : Segment) : List StringEntry :=
  let bytes := readBytes image seg.rva seg.size
  if seg.exec then []
  else (asciiPass bytes).found seg.rva bytes bytes.length 0 ++
    (widePass bytes).found seg.rva bytes bytes.length 0

theorem scanSegment_eq (image : List UInt8) (seg : Segment) (out : List StringEntry) :
    scanSegment image out seg = (foundIn image seg).foldlM push out := by
  -- Without bytes there is nothing to be found.
  have hnone (h : (readBytes image seg.rva seg.size).length = 0) : foundIn image seg = [] := by
    unfold foundIn
    dsimp only
    rw [h]
    split <;> rfl
  unfold scanSegment
  dsimp only
  split
  · next hsize =>
    have := length_readBytes_le image seg.rva seg.size
    rw [hnone (by omega)]
    rfl
  · split
    · next hexec =>
      rw [foundIn, if_pos hexec]
      rfl
    · next hexec =>
      split
      · next hzero =>
        rw [hnone hzero]
        rfl
      · rw [foundIn, if_neg hexec, List.foldlM_append, Pass.scanFrom_eq]
        congr 1
        funext out'
        rw [Pass.scanFrom_eq]

/-- The strings that are found, in the order of the scans. -/
def foundStrings (image : List UInt8) (segs : List Segment) : List StringEntry :=
  segs.flatMap (foundIn image)

theorem foldlM_scanSegment (image : List UInt8) (segs : List Segment) (out : List StringEntry) :
    segs.foldlM (scanSegment image) out = (foundStrings image segs).foldlM push out := by
  induction segs generalizing out with
  | nil => rfl
  | cons seg segs ih =>
    rw [foundStrings, List.flatMap_cons, List.foldlM_append, List.foldlM_cons, scanSegment_eq]
    congr 1
    funext out'
    exact ih out'

/-- The scan ends with the first strings that are found, as many as are taken. -/
theorem foldlM_push (hout : out.length < maxStrings) (es : List StringEntry) :
    es.foldlM push out =
      if out.length + es.length < maxStrings then .ok (out ++ es)
      else .error ((out ++ es).take maxStrings) := by
  induction es generalizing out with
  | nil =>
    rw [List.append_nil, List.length_nil, Nat.add_zero, if_pos hout]
    rfl
  | cons e es ih =>
    rw [List.foldlM_cons, push, List.length_append, List.length_singleton, List.length_cons]
    split
    · next hfull =>
      have heq : maxStrings = (out ++ [e]).length := by
        rw [List.length_append, List.length_singleton]
        omega
      rw [if_neg (by omega), show out ++ e :: es = out ++ [e] ++ es by simp, heq,
        List.take_left]
      rfl
    · next hfull =>
      show List.foldlM push (out ++ [e]) es = _
      rw [ih (by rw [List.length_append, List.length_singleton]; omega), List.length_append,
        List.length_singleton, List.append_assoc, List.singleton_append]
      congr 1
      rw [Nat.add_assoc, Nat.add_comm 1]

/-! ### The pieces of a run -/

/-- In a run of `l` characters that is longer than it is followed, and that is terminated, there is
only punctuation: in what would be listed of it, and in what is left of it behind the last of `m`
whole pieces, unless that is short. -/
def Pass.Silent (c : Pass) (bytes : List UInt8) : Prop :=
  ∀ a l m, MaxRun c.isChar c.width a l → c.terminated (a + c.width * l) →
    0 < m → c.limit * m < l → l ≤ c.limit * (m + 1) →
    ¬(5 ≤ l ∧ looksLikeText (textAt bytes c.width a (min l 480))) ∧
      ¬(5 ≤ l - c.limit * m ∧
        looksLikeText (textAt bytes c.width (a + c.width * (c.limit * m))
          (min (l - c.limit * m) 480)))

namespace Pass.Sound

variable (hc : c.Sound bytes.length)
include hc

theorem limit_pos_of_char (hi : c.isChar i) : 0 < c.limit := by
  have := hc.chars.bound hi
  have := hc.chars.pos
  exact hc.limit_pos (by omega)

theorem mem_found :
    e ∈ c.found rva bytes bytes.length 0 ↔
      ∃ i k, Piece c.isChar c.width c.limit i k ∧ c.entry rva bytes i k = some e := by
  rw [Pass.found, List.mem_filterMap, Prod.exists]
  refine exists₂_congr fun i k ↦ and_congr_left fun _ ↦ ?_
  rcases Nat.eq_zero_or_pos bytes.length with hzero | hpos
  · -- Without bytes there is neither.
    refine iff_of_false ?_ fun h ↦ ?_
    · rw [hzero]
      exact List.not_mem_nil
    · have := hc.chars.bound h.holds
      have := hc.chars.pos
      omega
  · exact hc.chars.mem_pieces (hc.limit_pos hpos)

/-- A piece that is terminated is the last one of its run. -/
theorem eq_of_terminated {a l m : ℕ} (hrun : MaxRun c.isChar c.width a l)
    (hk : k = min c.limit (l - c.limit * m))
    (hterm : c.terminated (a + c.width * (c.limit * m) + c.width * k)) :
    k = l - c.limit * m := by
  by_contra hne
  refine hc.not_terminated (hrun.mem (c.limit * m + k) (by omega)) ?_
  rwa [Nat.mul_add, ← Nat.add_assoc]

/-- A run that is listed is found, unless it is too long and not silent. -/
theorem found_of_lists (hsilent : c.Silent bytes) (he : c.Lists rva bytes e) :
    e ∈ c.found rva bytes bytes.length 0 := by
  obtain ⟨a, l, hrun, hlen, hterm, htext, rfl⟩ := he
  have hlimit := hc.limit_pos_of_char (hrun.mem 0 hrun.pos)
  have hdiv := Nat.div_add_mod (l - 1) c.limit
  have hmod := Nat.mod_lt (l - 1) hlimit
  rcases Nat.eq_zero_or_pos ((l - 1) / c.limit) with hzero | hpos
  · rw [hzero, Nat.mul_zero] at hdiv
    refine hc.mem_found.2 ⟨a, l, ⟨a, l, 0, hrun, by omega, by simp, by omega⟩, ?_⟩
    exact Pass.entry_eq_some.2 ⟨hlen, hterm, htext, rfl⟩
  · refine absurd ⟨hlen, htext⟩ (hsilent a l _ hrun hterm hpos (by omega) ?_).1
    rw [Nat.mul_succ]
    omega

theorem lists_of_found (hsilent : c.Silent bytes) (he : e ∈ c.found rva bytes bytes.length 0) :
    c.Lists rva bytes e := by
  obtain ⟨i, k, ⟨a, l, m, hrun, hm, rfl, hk⟩, hentry⟩ := hc.mem_found.1 he
  obtain ⟨hlen, hterm, htext, rfl⟩ := Pass.entry_eq_some.1 hentry
  have hlast := hc.eq_of_terminated hrun hk hterm
  have hend : a + c.width * (c.limit * m) + c.width * k = a + c.width * l := by
    rw [Nat.add_assoc, ← Nat.mul_add, hlast, Nat.add_sub_of_le hm.le]
  rcases Nat.eq_zero_or_pos m with rfl | hpos
  · rw [Nat.mul_zero, Nat.sub_zero] at hlast
    rw [hlast] at hlen htext
    exact ⟨a, l, hrun, hlen, by rwa [hend] at hterm, by simpa using htext, by simp [hlast]⟩
  · rw [hend] at hterm
    rw [hlast] at hlen htext
    refine absurd ⟨hlen, htext⟩ (hsilent a l m hrun hterm hpos hm ?_).2
    rw [Nat.mul_succ]
    omega

/-- A pass finds what is to be listed only if the runs that are too long are silent. -/
theorem silent_of_iff (rva : ℕ)
    (hiff : ∀ e, e ∈ c.found rva bytes bytes.length 0 ↔ c.Lists rva bytes e) :
    c.Silent bytes := by
  intro a l m hrun hterm hpos hm hm'
  have hlimit := hc.limit_pos_of_char (hrun.mem 0 hrun.pos)
  have hmul := Nat.mul_pos hlimit hpos
  have hle := Nat.le_mul_of_pos_right c.limit hpos
  refine ⟨fun ⟨hlen, htext⟩ ↦ ?_, fun ⟨hlen, htext⟩ ↦ ?_⟩
  · -- The run is to be listed, but its first piece is not terminated.
    obtain ⟨i, k, ⟨a', l', m', hrun', hlt, rfl, hk⟩, hentry⟩ :=
      hc.mem_found.1 ((hiff _).2 ⟨a, l, hrun, hlen, hterm, htext, rfl⟩)
    obtain ⟨-, hterm', -, heq⟩ := Pass.entry_eq_some.1 hentry
    have hrva : rva + a = rva + (a' + c.width * (c.limit * m')) := congrArg StringEntry.rva heq
    obtain ⟨rfl, rfl⟩ := hrun'.unique hrun hlt hrun.pos (by omega)
    have hzero : c.limit * m' = 0 :=
      (Nat.mul_eq_zero.1 (by omega : c.width * (c.limit * m') = 0)).resolve_left hc.chars.pos.ne'
    have := hc.eq_of_terminated hrun hk hterm'
    omega
  · -- The last piece is found, but no run starts there.
    have hentry : c.entry rva bytes (a + c.width * (c.limit * m)) (l - c.limit * m) =
        some ⟨rva + (a + c.width * (c.limit * m)),
          textAt bytes c.width (a + c.width * (c.limit * m)) (min (l - c.limit * m) 480),
          c.kind⟩ := by
      refine Pass.entry_eq_some.2 ⟨hlen, ?_, htext, rfl⟩
      rwa [Nat.add_assoc, ← Nat.mul_add, Nat.add_sub_of_le hm.le]
    rw [Nat.mul_succ] at hm'
    obtain ⟨a', l', hrun', -, -, -, heq⟩ := (hiff _).1
      (hc.mem_found.2 ⟨_, _, ⟨a, l, m, hrun, hm, rfl, by omega⟩, hentry⟩)
    have hrva : rva + (a + c.width * (c.limit * m)) = rva + a' := congrArg StringEntry.rva heq
    refine hrun'.start (a + c.width * (c.limit * m - 1)) ?_ (hrun.mem _ (by omega))
    rw [Nat.add_assoc, ← Nat.mul_succ, Nat.succ_eq_add_one, Nat.sub_add_cancel hmul]
    omega

/-- No run is longer than the segment. -/
theorem silent_of_le (hle : bytes.length ≤ c.limit) : c.Silent bytes := by
  intro a l m hrun _ hpos hm _
  have hchar := hc.chars.bound (hrun.mem (l - 1) (Nat.sub_one_lt hrun.pos.ne'))
  have hwidth := hc.chars.pos
  have hmul := Nat.le_mul_of_pos_left (l - 1) hwidth
  have hlimit := Nat.le_mul_of_pos_right c.limit hpos
  omega

end Pass.Sound

theorem silent_asciiPass : (asciiPass bytes).Silent bytes :=
  sound_asciiPass.silent_of_le le_rfl

/-- A pass that follows a run to its end. -/
def Pass.toEnd (c : Pass) (n : ℕ) : Pass :=
  { c with limit := n }

theorem Pass.Sound.toEnd {n : ℕ} (hc : c.Sound n) : (c.toEnd n).Sound n where
  chars := hc.chars
  limit_pos h := h
  not_terminated h := hc.not_terminated h

/-! ### No address is found twice -/

theorem Pass.Sound.lt_of_char (hc : c.Sound bytes.length) (hi : c.isChar i) : i < bytes.length := by
  have := hc.chars.bound hi
  have := hc.chars.pos
  omega

/-- A string that a pass finds has a character of the pass at its address, and another one behind
it. -/
theorem Pass.Sound.char_of_found (hc : c.Sound bytes.length)
    (he : e ∈ c.found rva bytes bytes.length 0) :
    ∃ i < bytes.length, c.isChar i ∧ c.isChar (i + c.width) ∧ e.rva = rva + i ∧
      e.kind = c.kind := by
  obtain ⟨i, k, hpiece, hentry⟩ := hc.mem_found.1 he
  obtain ⟨hlen, -, -, rfl⟩ := Pass.entry_eq_some.1 hentry
  exact ⟨i, hc.lt_of_char hpiece.holds, hpiece.holds,
    by simpa using hpiece.mem (j := 1) (by omega), rfl, rfl⟩

theorem Pass.Sound.rva_of_lists (hc : c.Sound bytes.length) (he : c.Lists rva bytes e) :
    ∃ i < bytes.length, e.rva = rva + i ∧ e.kind = c.kind := by
  obtain ⟨a, l, hrun, -, -, -, rfl⟩ := he
  exact ⟨a, hc.lt_of_char (by simpa using hrun.mem 0 hrun.pos), rfl, rfl⟩

theorem Pass.Sound.pairwise_found (hc : c.Sound bytes.length) :
    (c.found rva bytes bytes.length 0).Pairwise (·.rva < ·.rva) := by
  rcases Nat.eq_zero_or_pos bytes.length with hzero | hpos
  · rw [Pass.found, hzero]
    exact List.Pairwise.nil
  · refine (pieces_pairwise hc.chars.pos (hc.limit_pos hpos) _ _).1.filterMap _ ?_
    intro x y hlt e he e' he'
    obtain ⟨-, -, -, rfl⟩ := Pass.entry_eq_some.1 he
    obtain ⟨-, -, -, rfl⟩ := Pass.entry_eq_some.1 he'
    exact Nat.add_lt_add_left hlt rva

/-- A string that is found in a segment is inside of it. -/
theorem within_of_foundIn (he : e ∈ foundIn image seg) : Within seg e.rva := by
  have hlen := length_readBytes_le image seg.rva seg.size
  unfold foundIn at he
  dsimp only at he
  unfold Within
  split at he
  · exact absurd he List.not_mem_nil
  · rcases List.mem_append.1 he with he | he
    · obtain ⟨i, hi, -, -, hrva, -⟩ := sound_asciiPass.char_of_found he
      omega
    · obtain ⟨i, hi, -, -, hrva, -⟩ := sound_widePass.char_of_found he
      omega

theorem pairwise_foundIn (image : List UInt8) (seg : Segment) :
    (foundIn image seg).Pairwise (·.rva ≠ ·.rva) := by
  unfold foundIn
  dsimp only
  split
  · exact List.Pairwise.nil
  · refine List.pairwise_append.2 ⟨sound_asciiPass.pairwise_found.imp ne_of_lt,
      sound_widePass.pairwise_found.imp ne_of_lt, fun e he e' he' heq ↦ ?_⟩
    -- A character of UTF-16 has a zero where the next byte of a text is.
    obtain ⟨i, -, -, hnext, hrva, -⟩ := sound_asciiPass.char_of_found he
    obtain ⟨i', -, hi', -, hrva', -⟩ := sound_widePass.char_of_found he'
    obtain rfl : i = i' := by omega
    have hzero := (Bool.and_eq_true_iff.1 hi').2
    exact absurd hzero (Bool.eq_false_iff.1 (not_zeroAt_of_printableAt hnext))

theorem pairwise_foundStrings (hapart : Apart segs) :
    (foundStrings image segs).Pairwise (·.rva ≠ ·.rva) := by
  refine List.pairwise_flatMap.2 ⟨fun seg _ ↦ pairwise_foundIn image seg,
    hapart.imp fun {s t} hst e he e' he' heq ↦ ?_⟩
  exact hst e.rva ⟨within_of_foundIn he, heq ▸ within_of_foundIn he'⟩

/-! ### The list -/

theorem taken_foldlM_push (es : List StringEntry) :
    taken (es.foldlM push []) = es.take maxStrings := by
  rw [foldlM_push (by decide), List.nil_append, List.length_nil, Nat.zero_add]
  split
  · next h => rw [taken, List.take_of_length_le h.le]
  · rfl

/-- Strings at different addresses are sorted strictly, and all of them stay. -/
theorem sorted_of_pairwise (hes : es.Pairwise (·.rva ≠ ·.rva)) :
    ((es.mergeSort entryLe).destutter (·.rva ≠ ·.rva)).Pairwise (·.rva < ·.rva) ∧
      ((es.mergeSort entryLe).destutter (·.rva ≠ ·.rva)).Perm es := by
  have hperm := List.mergeSort_perm es entryLe
  have hle : (es.mergeSort entryLe).Pairwise fun a b ↦ entryLe a b = true :=
    List.pairwise_mergeSort (fun a b c hab hbc ↦ by simp [entryLe] at *; omega)
      (fun a b ↦ by simp [entryLe]; omega) es
  have hne : (es.mergeSort entryLe).Pairwise (·.rva ≠ ·.rva) :=
    (hperm.pairwise_iff fun h ↦ h.symm).2 hes
  rw [(List.destutter_eq_self_iff _ _).2 hne.isChain]
  refine ⟨hle.imp₂ (fun a b hab hne ↦ ?_) hne, hperm⟩
  simp only [entryLe, Bool.or_eq_true, Bool.and_eq_true, decide_eq_true_eq] at hab
  omega

/-- The list has the strings that are found first, in the order of their addresses. -/
theorem scanStrings_perm (image : List UInt8) (hapart : Apart segs) :
    (scanStrings image segs).Pairwise (·.rva < ·.rva) ∧
      (scanStrings image segs).Perm ((foundStrings image segs).take maxStrings) := by
  rw [scanStrings, foldlM_scanSegment, taken_foldlM_push]
  exact sorted_of_pairwise ((pairwise_foundStrings hapart).sublist (List.take_sublist _ _))

/-! ### What is found and what is to be listed -/

/-- Runs of UTF-16 that are longer than they are followed are silent, in all segments without
code. -/
def LongRunsSilent (image : List UInt8) (segs : List Segment) : Prop :=
  ∀ seg ∈ segs, seg.exec = false →
    (widePass (readBytes image seg.rva seg.size)).Silent (readBytes image seg.rva seg.size)

/-- A text of UTF-16 in a segment is found by the scan of that segment for UTF-16. -/
theorem found_of_foundStrings (hapart : Apart segs) (hseg : seg ∈ segs)
    (hwithin : Within seg e.rva) (hkind : e.kind = .utf16)
    (he : e ∈ foundStrings image segs) :
    e ∈ (widePass (readBytes image seg.rva seg.size)).found seg.rva
      (readBytes image seg.rva seg.size) (readBytes image seg.rva seg.size).length 0 := by
  obtain ⟨seg', hseg', he⟩ := List.mem_flatMap.1 he
  obtain rfl := eq_of_within hapart hseg hseg' hwithin (within_of_foundIn he)
  unfold foundIn at he
  dsimp only at he
  split at he
  · exact absurd he List.not_mem_nil
  · refine (List.mem_append.1 he).resolve_left fun he ↦ ?_
    obtain ⟨-, -, -, -, -, hascii⟩ := sound_asciiPass.char_of_found he
    cases hascii.symm.trans hkind

theorem lists_of_listed (hapart : Apart segs) (hseg : seg ∈ segs)
    (hwithin : Within seg e.rva) (hkind : e.kind = .utf16)
    (he : Listed image segs e) :
    (widePass (readBytes image seg.rva seg.size)).Lists seg.rva
      (readBytes image seg.rva seg.size) e := by
  obtain ⟨seg', hseg', -, he⟩ := he
  have hlen := length_readBytes_le image seg'.rva seg'.size
  rcases he with he | he
  · obtain ⟨-, -, -, hascii⟩ := sound_asciiPass.rva_of_lists he
    cases hascii.symm.trans hkind
  · obtain ⟨i, hi, hrva, -⟩ := sound_widePass.rva_of_lists he
    obtain rfl := eq_of_within hapart hseg hseg' hwithin ⟨by omega, by omega⟩
    exact he

/-- The scans find what is to be listed exactly if no text is in runs that are too long. -/
theorem foundStrings_iff (hapart : Apart segs) :
    (∀ e, e ∈ foundStrings image segs ↔ Listed image segs e) ↔ LongRunsSilent image segs := by
  constructor
  · intro hiff seg hseg hexec
    have hlen := length_readBytes_le image seg.rva seg.size
    refine sound_widePass.silent_of_iff seg.rva fun e ↦ ⟨fun he ↦ ?_, fun he ↦ ?_⟩
    · obtain ⟨i, hi, -, -, hrva, hkind⟩ := sound_widePass.char_of_found he
      have hfound : e ∈ foundIn image seg := by
        rw [foundIn, if_neg (by simp [hexec])]
        exact List.mem_append_right _ he
      exact lists_of_listed hapart hseg ⟨by omega, by omega⟩ hkind
        ((hiff e).1 (List.mem_flatMap.2 ⟨seg, hseg, hfound⟩))
    · obtain ⟨i, hi, hrva, hkind⟩ := sound_widePass.rva_of_lists he
      exact found_of_foundStrings hapart hseg ⟨by omega, by omega⟩ hkind
        ((hiff e).2 ⟨seg, hseg, hexec, .inr he⟩)
  · intro hsilent e
    rw [foundStrings, List.mem_flatMap, Listed]
    refine exists_congr fun seg ↦ and_congr_right fun hseg ↦ ?_
    unfold foundIn
    dsimp only
    split
    · next hexec => simp [hexec]
    · next hexec =>
      have hexec := Bool.eq_false_iff.2 hexec
      rw [List.mem_append, and_iff_right hexec]
      have hwide := hsilent seg hseg hexec
      exact or_congr
        ⟨sound_asciiPass.lists_of_found silent_asciiPass,
          sound_asciiPass.found_of_lists silent_asciiPass⟩
        ⟨sound_widePass.lists_of_found hwide, sound_widePass.found_of_lists hwide⟩

theorem encard_listed (hes : es.Nodup) (hiff : ∀ e, e ∈ es ↔ Listed image segs e) :
    {e | Listed image segs e}.encard = es.length := by
  have heq : {e | Listed image segs e} = (es.toFinset : Set StringEntry) := by
    ext e
    simp [hiff]
  rw [heq, Set.encard_coe_eq_coe_finsetCard, List.toFinset_card_of_nodup hes]

/-- What is to be listed, found by passes that follow every run to its end. -/
def listing (image : List UInt8) (segs : List Segment) : List StringEntry :=
  segs.flatMap fun seg ↦
    let bytes := readBytes image seg.rva seg.size
    if seg.exec then []
    else (asciiPass bytes).found seg.rva bytes bytes.length 0 ++
      ((widePass bytes).toEnd bytes.length).found seg.rva bytes bytes.length 0

theorem mem_listing : e ∈ listing image segs ↔ Listed image segs e := by
  rw [listing, List.mem_flatMap, Listed]
  refine exists_congr fun seg ↦ and_congr_right fun hseg ↦ ?_
  dsimp only
  split
  · next hexec => simp [hexec]
  · next hexec =>
    rw [List.mem_append, and_iff_right (Bool.eq_false_iff.2 hexec)]
    have hwide : ((widePass (readBytes image seg.rva seg.size)).toEnd _).Sound _ :=
      sound_widePass.toEnd
    have hsilent := hwide.silent_of_le le_rfl
    exact or_congr
      ⟨sound_asciiPass.lists_of_found silent_asciiPass,
        sound_asciiPass.found_of_lists silent_asciiPass⟩
      ⟨hwide.lists_of_found hsilent, hwide.found_of_lists hsilent⟩

theorem length_found_le (c : Pass) (rva : ℕ) (bytes : List UInt8) (fuel i : ℕ) :
    (c.found rva bytes fuel i).length ≤ fuel :=
  (List.length_filterMap_le _ _).trans (length_pieces_le _ _)

/-- There are at most two strings for each byte. -/
theorem encard_listed_le (image : List UInt8) (segs : List Segment) :
    {e | Listed image segs e}.encard ≤ ((segs.map (2 * ·.size)).sum : ℕ) := by
  have heq : {e | Listed image segs e} = ((listing image segs).toFinset : Set StringEntry) := by
    ext e
    simp [mem_listing]
  have hlength : (listing image segs).length ≤ (segs.map (2 * ·.size)).sum := by
    rw [listing, List.length_flatMap]
    refine List.sum_le_sum fun seg _ ↦ ?_
    have hbytes := length_readBytes_le image seg.rva seg.size
    dsimp only
    split
    · exact Nat.zero_le _
    · rw [List.length_append, Nat.two_mul]
      exact Nat.add_le_add ((length_found_le _ _ _ _ _).trans hbytes)
        ((length_found_le _ _ _ _ _).trans hbytes)
  rw [heq, Set.encard_coe_eq_coe_finsetCard]
  exact_mod_cast (List.toFinset_card_le _).trans hlength

/-- Below the limit, the list is exact only if the runs that are too long are silent. -/
theorem longRunsSilent_of_exact (hapart : Apart segs)
    (hcap : {e | Listed image segs e}.encard < maxStrings)
    (hiff : ∀ e, e ∈ scanStrings image segs ↔ Listed image segs e) :
    LongRunsSilent image segs := by
  obtain ⟨hsorted, hperm⟩ := scanStrings_perm image hapart
  rw [encard_listed (hsorted.imp fun h heq ↦ h.ne (congrArg _ heq)) hiff, Nat.cast_lt,
    hperm.length_eq, List.length_take] at hcap
  rw [List.take_of_length_le (by omega)] at hperm
  exact (foundStrings_iff hapart).1 fun e ↦ hperm.mem_iff.symm.trans (hiff e)

/-- Below the limit, the list is exact if the runs that are too long are silent. -/
theorem exact_of_longRunsSilent (hapart : Apart segs)
    (hcap : {e | Listed image segs e}.encard < maxStrings)
    (hsilent : LongRunsSilent image segs) :
    ∀ e, e ∈ scanStrings image segs ↔ Listed image segs e := by
  have hiff := (foundStrings_iff hapart).2 hsilent
  have hnodup : (foundStrings image segs).Nodup :=
    (pairwise_foundStrings hapart).imp fun h heq ↦ h (congrArg _ heq)
  have hperm := (scanStrings_perm image hapart).2
  rw [encard_listed hnodup hiff, Nat.cast_lt] at hcap
  rw [List.take_of_length_le hcap.le] at hperm
  exact fun e ↦ hperm.mem_iff.trans (hiff e)

/-- The list of strings is what is to be listed, sorted by address, exactly if no run of UTF-16
that is longer than 480 characters has a text in its first 480 characters or in the last piece of
480. -/
theorem scanStrings_exact_iff (hapart : Apart segs)
    (hcap : {e | Listed image segs e}.encard < maxStrings) :
    ((scanStrings image segs).Pairwise (·.rva < ·.rva) ∧
      ∀ e, e ∈ scanStrings image segs ↔ Listed image segs e) ↔ LongRunsSilent image segs := by
  rw [and_iff_right (scanStrings_perm image hapart).1]
  exact ⟨longRunsSilent_of_exact hapart hcap, exact_of_longRunsSilent hapart hcap⟩

def dataSegment (size : ℕ) : Segment :=
  ⟨".data", 0, size, false⟩

/-- A text of `n` characters in UTF-16, with its terminator. -/
def repeatedText (n : ℕ) : List UInt8 :=
  (List.replicate n [0x41, 0]).flatten ++ [0, 0]

theorem scanStrings_exact_short :
    (scanStrings (repeatedText 6) [dataSegment 14]).Pairwise (·.rva < ·.rva) ∧
      ∀ e, e ∈ scanStrings (repeatedText 6) [dataSegment 14] ↔
        Listed (repeatedText 6) [dataSegment 14] e := by
  have hcap : {e | Listed (repeatedText 6) [dataSegment 14] e}.encard < maxStrings :=
    (encard_listed_le _ _).trans_lt (Nat.cast_lt.2 (by decide))
  refine (scanStrings_exact_iff (List.pairwise_singleton _ _) hcap).2 fun seg hseg _ ↦ ?_
  obtain rfl := List.mem_singleton.1 hseg
  exact sound_widePass.silent_of_le ((length_readBytes_le _ _ _).trans (by decide))

/-- Behind some characters there is the text of the others. -/
theorem getElem?_repeatedText {n : ℕ} (hj : j ≤ n) (k : ℕ) :
    (repeatedText n)[2 * j + k]? = (repeatedText (n - j))[k]? := by
  induction n generalizing j with
  | zero =>
    obtain rfl := Nat.le_zero.1 hj
    rw [Nat.mul_zero, Nat.zero_add]
  | succ n ih =>
    have hcons : repeatedText (n + 1) = 0x41 :: 0 :: repeatedText n := rfl
    cases j with
    | zero => rw [Nat.mul_zero, Nat.zero_add, Nat.sub_zero]
    | succ j =>
      rw [Nat.add_sub_add_right, ← ih (Nat.le_of_succ_le_succ hj), hcons, Nat.mul_succ,
        Nat.add_right_comm]
      rfl

theorem maxRun_repeatedText {n : ℕ} (hn : 0 < n) :
    MaxRun (widePass (repeatedText n)).isChar 2 0 n where
  pos := hn
  mem j hj := by
    obtain ⟨m, rfl⟩ := Nat.exists_eq_add_of_lt hj
    show (printableAt _ (0 + 2 * j) && zeroAt _ (0 + 2 * j + 1)) = true
    rw [Nat.zero_add, printableAt, zeroAt, getElem?_repeatedText hj.le, ← Nat.add_zero (2 * j),
      getElem?_repeatedText hj.le, show j + m + 1 - j = m + 1 by omega]
    rfl
  start b hb := absurd hb (by omega)
  stop := by
    rw [Bool.not_eq_true, Nat.zero_add]
    show (printableAt _ (2 * n + 0) && zeroAt _ _) = false
    rw [printableAt, getElem?_repeatedText le_rfl, Nat.sub_self]
    rfl

theorem terminated_repeatedText (n : ℕ) :
    (widePass (repeatedText n)).terminated (0 + 2 * n) := by
  have hzero (k : ℕ) (hk : [0, 0][k]? = some (0 : UInt8)) :
      zeroAt (repeatedText n) (2 * n + k) = true := by
    rw [zeroAt, getElem?_repeatedText le_rfl, Nat.sub_self]
    exact decide_eq_true hk
  have hlow := hzero 0 rfl
  have hhigh := hzero 1 rfl
  rw [Nat.add_zero] at hlow
  simp [widePass, hlow, hhigh]

/-- A long text in UTF-16 is not in the list of strings. -/
theorem scanStrings_repeatedText :
    ¬∀ image segs, Apart segs → (∀ seg ∈ segs, seg.exec = false) →
      {e | Listed image segs e}.encard < maxStrings →
      (scanStrings image segs).Pairwise (·.rva < ·.rva) ∧
        ∀ e, e ∈ scanStrings image segs ↔ Listed image segs e := by
  intro h
  have hcap : {e | Listed (repeatedText 481) [dataSegment 964] e}.encard < maxStrings :=
    (encard_listed_le _ _).trans_lt (Nat.cast_lt.2 (by decide))
  have hapart : Apart [dataSegment 964] := List.pairwise_singleton _ _
  obtain ⟨-, hexact⟩ := h (repeatedText 481) _ hapart (by simp [dataSegment]) hcap
  have hsilent := longRunsSilent_of_exact hapart hcap hexact (dataSegment 964) (.head _) rfl
  have hbytes : readBytes (repeatedText 481) 0 964 = repeatedText 481 := by decide +kernel
  rw [dataSegment, hbytes] at hsilent
  have hterm := terminated_repeatedText 481
  have hlong : 480 * 1 < 481 ∧ 481 ≤ 480 * (1 + 1) := by decide
  refine (hsilent 0 481 1 (maxRun_repeatedText (by omega)) hterm Nat.one_pos hlong.1 hlong.2).1
    ⟨by omega, ?_⟩
  rw [looksLikeText, textAt, String.toList_ofList, List.any_eq_true]
  exact ⟨'A', List.mem_map.2 ⟨0, by decide, by decide⟩, by decide⟩

end Shell

end Ldu
