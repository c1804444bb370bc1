import Ldu.Binary.Image
import Ldu.Text.Str

/-!
# PE files

The headers of a PE file give its section table, and the directories that lead to its exports, its
imports and its callbacks. What is behind a directory is read through the section table: `rvaToOff`
looks for the first section around an address. The program is analysed through the image, where the
last section that has a byte at an address puts it.

The two mappings agree at the address unless a later section has a byte there, or the section that
is found has raw data behind its virtual end (`image_eq_of_rvaToOff`); and what a section puts in
the image is found unless an earlier section is around the address (`rvaToOff_of_copiesAt`).

Positions in the headers are sums of a few 32-bit numbers and do not overflow.
-/

namespace Ldu

namespace Pe

open BinParser BinaryMeta Checked Utf8 Str

/-- A directory of the optional header. -/
structure DataDir where
  rva : ℕ := 0
  size : ℕ := 0
  deriving DecidableEq

/-- What the headers say. -/
structure PeCtx where
  format : Format
  arch : Arch
  base : ℕ
  entry : ℕ
  isDll : Bool
  imageSize : ℕ
  ptrSize : ℕ
  dirs : List DataDir
  segments : List Segment
  deriving DecidableEq

/-! ### The headers -/

/-- The COFF header. -/
structure Coff where
  machine : ℕ
  numSections : ℕ
  sizeOptHdr : ℕ
  characteristics : ℕ
  strtabOff : ℕ

def imageFileDll : ℕ := 0x2000

def coffHeader (bytes : List UInt8) (coff : ℕ) : Except String Coff := do
  let machine ← okOr "truncated COFF header" (rdU16 bytes coff)
  let numSections ← okOr "truncated COFF header" (rdU16 bytes (coff + 2))
  let sizeOptHdr ← okOr "truncated COFF header" (rdU16 bytes (coff + 16))
  let characteristics ← okOr "truncated COFF header" (rdU16 bytes (coff + 18))
  let ptrSymtab := (rdU32 bytes (coff + 8)).getD 0
  let numSymbols := (rdU32 bytes (coff + 12)).getD 0
  -- Behind the table of symbols; there are no long names without one.
  let strtabOff := if ptrSymtab ≠ 0 then satAdd ptrSymtab (numSymbols * 18) else 0
  return { machine, numSections, sizeOptHdr, characteristics, strtabOff }

def arch (machine : ℕ) : Arch :=
  match machine with
  | 0x014C => .x86
  | 0x8664 => .x64
  | 0x01C0 | 0x01C4 => .arm
  | 0xAA64 => .arm64
  | _ => .unknown

/-- The optional header, with where its directories are. -/
structure OptHeader where
  format : Format
  ptrSize : ℕ
  base : ℕ
  entry : ℕ
  imageSize : ℕ
  numDirs : ℕ
  dirTableOff : ℕ

/-- A number with four hexadecimal digits at least. -/
def hex4 (n : ℕ) : String :=
  "0x" ++ String.ofList ((Nat.toDigits 16 n).leftpad 4 '0')

def optHeader (bytes : List UInt8) (opt : ℕ) : Except String OptHeader := do
  let truncated := "truncated optional header"
  let magic ← okOr truncated (rdU16 bytes opt)
  match magic with
  | 0x010B => do
    let entry ← okOr truncated (rdU32 bytes (opt + 16))
    let base ← okOr truncated (rdU32 bytes (opt + 28))
    let imageSize ← okOr truncated (rdU32 bytes (opt + 56))
    let numDirs ← okOr truncated (rdU32 bytes (opt + 92))
    return { format := .pe32, ptrSize := 4, base, entry, imageSize, numDirs,
             dirTableOff := opt + 96 }
  | 0x020B => do
    let entry ← okOr truncated (rdU32 bytes (opt + 16))
    let base ← okOr truncated (rdU64 bytes (opt + 24))
    let imageSize ← okOr truncated (rdU32 bytes (opt + 56))
    let numDirs ← okOr truncated (rdU32 bytes (opt + 108))
    return { format := .pe32Plus, ptrSize := 8, base, entry, imageSize, numDirs,
             dirTableOff := opt + 112 }
  | magic => .error s!"unsupported optional header magic {hex4 magic}"

/-- The sixteen directories; those behind the number in the header are zero. -/
def dataDirs (bytes : List UInt8) (o : OptHeader) : List DataDir :=
  (List.range 16).map fun i ↦
    if i < min o.numDirs 16 then
      let off := o.dirTableOff + i * 8
      { rva := (rdU32 bytes off).getD 0, size := (rdU32 bytes (off + 4)).getD 0 }
    else {}

/-! ### The section table -/

/-- The bytes up to a zero. -/
def untilZero (b : List UInt8) : List UInt8 :=
  b.takeWhile (· ≠ 0)

/-- The name in the table of strings that a number refers to, if it can be the name of a section. -/
def longName (bytes : List UInt8) (strtabOff : ℕ) (num : List Char) : Option String := do
  let off ← parseUsize (trim num)
  let start := satAdd strtabOff off
  guard (start ≤ bytes.length)
  let resolved := fromUtf8Lossy (untilZero (bytes.drop start))
  guard (resolved ≠ "" ∧ (encode resolved).all fun b ↦ 0x20 ≤ b && b < 0x7F)
  return resolved

/-- The name of a section. A name that starts with a slash may refer to the table of strings. -/
def decodeSectionName (raw bytes : List UInt8) (strtabOff : ℕ) : String :=
  let s := fromUtf8Lossy (untilZero raw)
  match s.toList with
  | '/' :: num =>
    if strtabOff ≠ 0 then (longName bytes strtabOff num).getD s else s
  | _ => s

/-- The permissions of a section; readable if it has none. -/
def sectionFlags (chars : ℕ) : ℕ :=
  let flags :=
    (if chars &&& 0x40000000 ≠ 0 then flagR else 0) |||
      (if chars &&& 0x80000000 ≠ 0 then flagW else 0) |||
      (if chars &&& 0x20000000 ≠ 0 then flagX else 0)
  if flags = 0 then flagR else flags

/-- The section whose header is at a position. -/
def sectionAt (bytes : List UInt8) (strtabOff s : ℕ) : Segment :=
  let vsize := (rdU32 bytes (s + 8)).getD 0
  let rawSize := (rdU32 bytes (s + 16)).getD 0
  { name := decodeSectionName ((bytes.drop s).take 8) bytes strtabOff
    rva := (rdU32 bytes (s + 12)).getD 0
    -- Without a virtual size a section is as large as its raw data.
    vsize := if vsize = 0 then rawSize else vsize
    flags := sectionFlags ((rdU32 bytes (s + 36)).getD 0)
    fileOff := (rdU32 bytes (s + 20)).getD 0
    fileSize := rawSize }

/-- At most `n` sections, up to the first whose name is not in the file. -/
def sectionsFrom (bytes : List UInt8) (strtabOff : ℕ) : ℕ → ℕ → List Segment
  | 0, _ => []
  | n + 1, s =>
    if s + 8 ≤ bytes.length then
      sectionAt bytes strtabOff s :: sectionsFrom bytes strtabOff n (s + 40)
    else []

/-- Go on only if it holds. -/
def require (e : String) (p : Prop) [Decidable p] : Except String Unit :=
  if p then .ok () else .error e

/-- The headers of a PE file. -/
def parseHeaders (bytes : List UInt8) : Except String PeCtx := do
  let mz ← okOr "truncated DOS header" (rdU16 bytes 0)
  require "missing MZ signature" (mz = 0x5A4D)
  let eLfanew ← okOr "truncated DOS header (e_lfanew)" (rdU32 bytes 0x3C)
  let sig ← okOr "PE header offset out of range" (rdU32 bytes eLfanew)
  require "missing PE\\0\\0 signature" (sig = 0x00004550)
  let coff := eLfanew + 4
  let c ← coffHeader bytes coff
  let opt := coff + 20
  let o ← optHeader bytes opt
  let segments := sectionsFrom bytes c.strtabOff (min c.numSections 96) (opt + c.sizeOptHdr)
  return {
    format := o.format
    arch := arch c.machine
    base := o.base
    entry := o.entry
    isDll := c.characteristics &&& imageFileDll ≠ 0
    -- A size of zero is wrong: the sections give another.
    imageSize := if o.imageSize = 0 then segments.foldl cover 0 else o.imageSize
    ptrSize := o.ptrSize
    dirs := dataDirs bytes o
    segments }

/-- What is known of the file, once its directories are read too. -/
def PeCtx.toMeta (ctx : PeCtx) (exports imports : List Symbol) (tlsCallbacks : List ℕ) :
    BinaryMeta where
  format := ctx.format
  arch := ctx.arch
  base := ctx.base
  entry := ctx.entry
  isDll := ctx.isDll
  imageSize := ctx.imageSize
  segments := ctx.segments
  exports
  imports
  tlsCallbacks

/-! ### Addresses in the file -/

/-- The section is around an address, with its virtual or with its raw size. -/
def Around (rva : ℕ) (seg : Segment) : Prop :=
  seg.rva ≤ rva ∧ rva < satAdd seg.rva (max seg.vsize seg.fileSize)

instance (rva : ℕ) (seg : Segment) : Decidable (Around rva seg) :=
  inferInstanceAs (Decidable (_ ∧ _))

/-- The offset in the file for an address. -/
def rvaToOff (segments : List Segment) (rva : ℕ) : Option ℕ :=
  match segments with
  | [] => none
  | seg :: rest =>
    if Around rva seg then
      let delta := rva - seg.rva
      if delta < seg.fileSize then some (satAdd seg.fileOff delta) else none
    else rvaToOff rest rva

variable {bytes : List UInt8} {ctx : PeCtx} {seg : Segment} {pre post : List Segment} {rva o : ℕ}

/-! ### The sizes of the fields -/

/-- The fields of a section header have 32 bits. -/
def SmallSection (seg : Segment) : Prop :=
  seg.rva < 2 ^ 32 ∧ seg.vsize < 2 ^ 32 ∧ seg.fileOff < 2 ^ 32 ∧ seg.fileSize < 2 ^ 32

theorem smallSection_sectionAt (bytes : List UInt8) (strtabOff s : ℕ) :
    SmallSection (sectionAt bytes strtabOff s) := by
  have h := getD_rdU32_lt bytes
  refine ⟨h _, ?_, h _, h _⟩
  unfold sectionAt
  dsimp only
  split
  · exact h _
  · exact h _

theorem smallSection_of_mem_sectionsFrom {strtabOff n s : ℕ}
    (hseg : seg ∈ sectionsFrom bytes strtabOff n s) : SmallSection seg := by
  induction n generalizing s with
  | zero => exact absurd hseg (List.not_mem_nil)
  | succ n ih =>
    rw [sectionsFrom] at hseg
    split at hseg
    · obtain rfl | hseg := List.mem_cons.1 hseg
      · exact smallSection_sectionAt _ _ _
      · exact ih hseg
    · exact absurd hseg (List.not_mem_nil)

theorem imageSize_optHeader {opt : ℕ} {h : OptHeader} (hopt : optHeader bytes opt = .ok h) :
    h.imageSize < 2 ^ 32 := by
  unfold optHeader at hopt
  obtain ⟨magic, -, hopt⟩ := bind_eq_ok.1 hopt
  split at hopt
  · obtain ⟨entry, -, hopt⟩ := bind_eq_ok.1 hopt
    obtain ⟨base, -, hopt⟩ := bind_eq_ok.1 hopt
    obtain ⟨size, hsize, hopt⟩ := bind_eq_ok.1 hopt
    obtain ⟨n, -, hopt⟩ := bind_eq_ok.1 hopt
    cases hopt
    exact rdU32_lt (okOr_eq_ok.1 hsize)
  · obtain ⟨entry, -, hopt⟩ := bind_eq_ok.1 hopt
    obtain ⟨base, -, hopt⟩ := bind_eq_ok.1 hopt
    obtain ⟨size, hsize, hopt⟩ := bind_eq_ok.1 hopt
    obtain ⟨n, -, hopt⟩ := bind_eq_ok.1 hopt
    cases hopt
    exact rdU32_lt (okOr_eq_ok.1 hsize)
  · cases hopt

/-- The image that the headers ask for has few enough addresses. -/
structure PeCtx.Small (ctx : PeCtx) : Prop where
  segments : ∀ seg ∈ ctx.segments, SmallSection seg
  imageSize_lt : ctx.imageSize < 2 ^ 33

theorem small_of_parseHeaders (h : parseHeaders bytes = .ok ctx) : ctx.Small := by
  unfold parseHeaders at h
  obtain ⟨mz, -, h⟩ := bind_eq_ok.1 h
  obtain ⟨-, -, h⟩ := bind_eq_ok.1 h
  obtain ⟨eLfanew, -, h⟩ := bind_eq_ok.1 h
  obtain ⟨sig, -, h⟩ := bind_eq_ok.1 h
  obtain ⟨-, -, h⟩ := bind_eq_ok.1 h
  obtain ⟨c, -, h⟩ := bind_eq_ok.1 h
  obtain ⟨o, ho, h⟩ := bind_eq_ok.1 h
  cases h
  have hsegments : ∀ seg ∈ sectionsFrom bytes c.strtabOff (min c.numSections 96)
      (eLfanew + 4 + 20 + c.sizeOptHdr), SmallSection seg :=
    fun seg hseg ↦ smallSection_of_mem_sectionsFrom hseg
  refine ⟨hsegments, ?_⟩
  dsimp only
  split
  · refine (foldl_cover_le (b := 2 ^ 33 - 1).2 ⟨by omega, fun seg hseg ↦ ?_⟩).trans_lt (by omega)
    obtain ⟨hrva, hvsize, -⟩ := hsegments seg hseg
    rw [satAdd]
    omega
  · have := imageSize_optHeader ho
    omega

/-! ### The two mappings -/

theorem rvaToOff_eq (h : SmallSection seg) (hpre : ∀ t ∈ pre, ¬Around rva t) :
    rvaToOff (pre ++ seg :: post) rva =
      if Around rva seg then
        if rva - seg.rva < seg.fileSize then some (seg.fileOff + (rva - seg.rva)) else none
      else rvaToOff post rva := by
  induction pre with
  | nil =>
    rw [List.nil_append, rvaToOff]
    dsimp only
    congr 1
    split
    · obtain ⟨-, -, hoff, hsize⟩ := h
      rw [show satAdd seg.fileOff (rva - seg.rva) = _ from min_eq_left (by omega)]
    · rfl
  | cons t pre ih =>
    rw [List.cons_append, rvaToOff, if_neg (hpre t (.head _)),
      ih fun t' ht' ↦ hpre t' (.tail _ ht')]

theorem around_iff (h : SmallSection seg) :
    Around rva seg ↔ seg.rva ≤ rva ∧ rva < seg.rva + max seg.vsize seg.fileSize := by
  obtain ⟨hrva, hvsize, -, hsize⟩ := h
  rw [Around, satAdd, min_eq_left (by omega)]

section Mappings

variable {exports imports : List Symbol} {tlsCallbacks : List ℕ} {image : List UInt8}

/-- What a section has for the image at an address is in the file where the section says, if the
address is in the file and in the section. -/
theorem copiesAt_of_small (h : ctx.Small) (hseg : seg ∈ ctx.segments) (hlo : seg.rva ≤ rva)
    (hsize : rva - seg.rva < seg.fileSize) (hlen : seg.fileOff + (rva - seg.rva) < bytes.length)
    (hvsize : rva < seg.rva + seg.vsize) :
    CopiesAt bytes (ctx.toMeta exports imports tlsCallbacks).imageLength rva seg := by
  refine copiesAt_iff.2 ⟨hlo, hsize, hlen, by omega, ?_⟩
  refine lt_imageLength hseg h.imageSize_lt (fun t ht ↦ ?_) hvsize
  obtain ⟨hrva, hvsize, -⟩ := h.segments t ht
  exact ⟨hrva, hvsize⟩

/-- What is found through the section table is in the image. -/
theorem image_eq_of_rvaToOff (h : ctx.Small)
    (himage : image = (ctx.toMeta exports imports tlsCallbacks).buildImage bytes)
    (hsegs : ctx.segments = pre ++ seg :: post) (hpre : ∀ t ∈ pre, ¬Around rva t)
    (hseg : Around rva seg) (ho : rvaToOff ctx.segments rva = some o) (hlen : o < bytes.length)
    (hvsize : rva < seg.rva + seg.vsize) (hpost : ∀ t ∈ post, ¬CopiesAt bytes image.length rva t) :
    image[rva]? = some bytes[o] := by
  have hmem : seg ∈ ctx.segments := by rw [hsegs]; simp
  rw [hsegs, rvaToOff_eq (h.segments seg hmem) hpre, if_pos hseg] at ho
  split at ho
  · next hsize =>
    cases ho
    rw [himage, length_buildImage] at hpost
    rw [himage, getElem?_buildImage_of_last hsegs
      (copiesAt_of_small h hmem hseg.1 hsize hlen hvsize) hpost, List.getElem?_eq_getElem hlen]
  · cases ho

/-- What a section puts in the image is found through the section table. -/
theorem rvaToOff_of_copiesAt (h : ctx.Small)
    (himage : image = (ctx.toMeta exports imports tlsCallbacks).buildImage bytes)
    (hsegs : ctx.segments = pre ++ seg :: post) (hseg : CopiesAt bytes image.length rva seg)
    (hpost : ∀ t ∈ post, ¬CopiesAt bytes image.length rva t) (hpre : ∀ t ∈ pre, ¬Around rva t) :
    ∃ o, ∃ hlen : o < bytes.length,
      rvaToOff ctx.segments rva = some o ∧ image[rva]? = some bytes[o] := by
  have hmem : seg ∈ ctx.segments := by rw [hsegs]; simp
  rw [himage, length_buildImage] at hseg hpost
  obtain ⟨hlo, hsize, hlen, -⟩ := copiesAt_iff.1 hseg
  refine ⟨_, hlen, ?_, ?_⟩
  · have haround : Around rva seg := (around_iff (h.segments seg hmem)).2 ⟨hlo, by omega⟩
    rw [hsegs, rvaToOff_eq (h.segments seg hmem) hpre, if_pos haround, if_pos hsize]
  · rw [himage, getElem?_buildImage_of_last hsegs hseg hpost, List.getElem?_eq_getElem hlen]

/-- The section table and the image agree: on what is found below the virtual end of its section and
not written over, and on what a section puts in the image behind no other section. -/
theorem parseHeaders_agrees (hparse : parseHeaders bytes = .ok ctx)
    (himage : image = (ctx.toMeta exports imports tlsCallbacks).buildImage bytes) :
    (∀ pre seg post rva o, ctx.segments = pre ++ seg :: post → (∀ t ∈ pre, ¬Around rva t) →
        Around rva seg → rvaToOff ctx.segments rva = some o → ∀ hlen : o < bytes.length,
        rva < seg.rva + seg.vsize → (∀ t ∈ post, ¬CopiesAt bytes image.length rva t) →
        image[rva]? = some bytes[o]) ∧
      ∀ pre seg post rva, ctx.segments = pre ++ seg :: post →
        CopiesAt bytes image.length rva seg → (∀ t ∈ post, ¬CopiesAt bytes image.length rva t) →
        (∀ t ∈ pre, ¬Around rva t) →
        ∃ o, ∃ hlen : o < bytes.length,
          rvaToOff ctx.segments rva = some o ∧ image[rva]? = some bytes[o] := by
  have hsmall := small_of_parseHeaders hparse
  constructor
  · intro pre seg post rva o hsegs hpre hseg ho hlen hvsize hpost
    exact image_eq_of_rvaToOff hsmall himage hsegs hpre hseg ho hlen hvsize hpost
  · intro pre seg post rva hsegs hseg hpost hpre
    exact rvaToOff_of_copiesAt hsmall himage hsegs hseg hpost hpre

end Mappings

/-- A file with one section, whose raw data is a byte longer than its virtual size. -/
def longRaw : List UInt8 :=
  [0x4D, 0x5A] ++ List.replicate 58 0 ++ toLE 4 0x40 ++
    -- the COFF header
    [0x50, 0x45, 0, 0] ++ toLE 2 0x014C ++ toLE 2 1 ++ List.replicate 12 0 ++ toLE 2 0x60 ++
    toLE 2 0 ++
    -- the optional header
    toLE 2 0x010B ++ List.replicate 54 0 ++ toLE 4 0x2000 ++ List.replicate 36 0 ++
    -- the section table and the data
    [0x2E, 0x74, 0x65, 0x78, 0x74, 0, 0, 0] ++ toLE 4 1 ++ toLE 4 0x1000 ++ toLE 4 2 ++
    toLE 4 0xE0 ++ List.replicate 12 0 ++ toLE 4 0x60000020 ++ [0xAA, 0xBB]

def longRawCtx : PeCtx where
  format := .pe32
  arch := .x86
  base := 0
  entry := 0
  isDll := false
  imageSize := 0x2000
  ptrSize := 4
  dirs := List.replicate 16 {}
  segments := [⟨".text", 0x1000, 1, 5, 0xE0, 2⟩]

theorem parseHeaders_agrees_longRaw :
    ((longRawCtx.toMeta [] [] []).buildImage longRaw)[0x1000]? = some 0xAA ∧
      ∃ o, ∃ _ : o < longRaw.length, rvaToOff longRawCtx.segments 0x1000 = some o := by
  have hparse : parseHeaders longRaw = .ok longRawCtx := by decide +kernel
  obtain ⟨hfound, hcopied⟩ := @parseHeaders_agrees longRaw longRawCtx [] [] [] _ hparse rfl
  constructor
  · exact hfound [] ⟨".text", 0x1000, 1, 5, 0xE0, 2⟩ [] 0x1000 0xE0 rfl (by simp)
      (by decide +kernel) (by decide +kernel) (by decide +kernel) (by decide) (by simp)
  · obtain ⟨o, hlen, ho, -⟩ := hcopied [] ⟨".text", 0x1000, 1, 5, 0xE0, 2⟩ [] 0x1000 rfl
      (by decide +kernel) (by simp) (by simp)
    exact ⟨o, hlen, ho⟩

/-- The second byte of the raw data is found, and is not in the image. -/
theorem longRaw_not_in_image :
    parseHeaders longRaw = .ok longRawCtx ∧ rvaToOff longRawCtx.segments 0x1001 = some 0xE1 ∧
      longRaw[0xE1]? = some 0xBB ∧
        ((longRawCtx.toMeta [] [] []).buildImage longRaw)[0x1001]? = some 0 := by
  decide +kernel

end Pe

end Ldu
