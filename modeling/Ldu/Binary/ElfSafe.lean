import Ldu.Binary.DwarfSafe
import Ldu.Binary.Elf

/-!
# When an ELF file is parsed without a fault

The parser adds to positions of a file without looking whether the sum fits. Most of them come after
a number was read at the position, which is then far below the largest one; that is how both tables
of headers are read (`iterate_scanStep`). What is left is said by `Fits`: the first section header,
the entries of tables of symbols, and the slots of string offsets (`safe_elf_iff`).
-/

namespace Ldu

namespace Elf

open BinParser Checked

/-! ### Readers -/

theorem number_fits {r : Rdr} {n off v : ℕ} (h : r.number n off = some v) :
    off + n ≤ r.b.bytes.length ∧ v < 256 ^ n := by
  unfold Rdr.number at h
  split at h
  · next hle =>
    have hlen : ((r.b.bytes.drop off).take n).length = n := by
      rw [List.length_take, List.length_drop]
      omega
    refine ⟨hle.2, ?_⟩
    obtain rfl := Option.some.inj h
    split
    · exact (ofLE_lt _).trans_eq (congrArg _ hlen)
    · exact (ofBE_lt _).trans_eq (congrArg _ hlen)
  · cases h

theorem safe_field_iff {r : Rdr} {n start k : ℕ} :
    Safe (r.field n start k) ↔ start + k < 2 ^ 64 := by
  rw [Rdr.field, safe_bind]
  constructor
  · rintro ⟨off, hoff, -⟩
    exact (add_eq_ok.1 hoff).1
  · intro hlt
    exact ⟨_, add_of_lt hlt, safe_pure _⟩

theorem field_of_lt {r : Rdr} {n start k : ℕ} (h : start + k < 2 ^ 64) :
    r.field n start k = .ok ((r.number n (start + k)).getD 0) := by
  rw [Rdr.field, add_of_lt h]
  rfl

/-! ### Tables of headers -/

section Scan

variable {α : Type} {r : Rdr} {t : Layout α}

/-- A table whose numbers fit, and whose headers are read safely where they are in the file. -/
structure Layout.Bounded (t : Layout α) : Prop where
  off_lt : t.off < 2 ^ 64
  size_lt : t.size < 2 ^ 16
  safe_read : ∀ kind start, start < 2 ^ 63 → Safe (t.read kind start)

/-- What a computation finds. -/
def value (x : Checked (Option α)) : Option α :=
  match x with
  | .ok o => o
  | .error _ => none

/-- The headers from a position on, at most `n` of them, up to the first that is not in the file. -/
def headers (r : Rdr) (t : Layout α) : ℕ → ℕ → List α
  | 0, _ => []
  | n + 1, start =>
    match r.u32 (start + t.tag) with
    | none => []
    | some kind => (value (t.read kind start)).toList ++ headers r t n (start + t.size)

theorem scanStep_eq (ht : t.Bounded) {s : Scan α} {start : ℕ} (hs : start = t.off + s.i * t.size)
    (hstart : start + t.tag < 2 ^ 64) :
    scanStep r t s = .ok ((r.u32 (start + t.tag)).map fun kind ↦
      ⟨s.i + 1, s.found ++ (value (t.read kind start)).toList⟩) := by
  rw [scanStep, mul_of_lt (by omega), ok_bind, add_of_lt (by omega), ← hs, ok_bind,
    add_of_lt hstart, ok_bind]
  cases hkind : r.u32 (start + t.tag) with
  | none => rfl
  | some kind =>
    have hlt := (number_fits hkind).1
    have hlen := r.b.length_lt
    obtain ⟨o, ho⟩ := ht.safe_read kind start (by omega)
    dsimp only
    rw [Option.map_some, ho]
    rfl

/-- The loop finds the headers, if it gets past the first one. -/
theorem iterate_scanStep (ht : t.Bounded) (n : ℕ) {s : Scan α} (start : ℕ)
    (hs : start = t.off + s.i * t.size) (hstart : n = 0 ∨ start + t.tag < 2 ^ 64) :
    ∃ i, iterate (scanStep r t) n s = .ok ⟨i, s.found ++ headers r t n start⟩ := by
  induction n generalizing s start with
  | zero => exact ⟨s.i, by rw [iterate, headers, List.append_nil]⟩
  | succ n ih =>
    have hfirst : start + t.tag < 2 ^ 64 := by omega
    rw [iterate, scanStep_eq ht hs hfirst, ok_bind, headers]
    cases hkind : r.u32 (start + t.tag) with
    | none => exact ⟨s.i, by rw [List.append_nil]; rfl⟩
    | some kind =>
      have hlt := (number_fits hkind).1
      have hlen := r.b.length_lt
      have hsize := ht.size_lt
      -- The next header starts within `2 ^ 16` bytes of a position in the file.
      obtain ⟨i, hi⟩ := ih (s := ⟨s.i + 1, s.found ++ (value (t.read kind start)).toList⟩)
        (start + t.size) (by rw [hs, Nat.succ_mul, Nat.add_assoc]) (by omega)
      exact ⟨i, hi.trans (by rw [List.append_assoc])⟩

theorem scan_eq (ht : t.Bounded) {n : ℕ} (hn : n = 0 ∨ t.off + t.tag < 2 ^ 64) :
    scan r t n = .ok (headers r t (min n 65536) t.off) := by
  obtain ⟨i, hi⟩ := iterate_scanStep (r := r) ht (min n 65536) (s := {}) t.off (by simp) (by omega)
  rw [scan, hi]
  rfl

/-- Only the first header of a table may be at a position that does not fit. -/
theorem safe_scan_iff (ht : t.Bounded) {n : ℕ} :
    Safe (scan r t n) ↔ n = 0 ∨ t.off + t.tag < 2 ^ 64 := by
  refine ⟨fun hsafe ↦ ?_, fun hn ↦ ⟨_, scan_eq ht hn⟩⟩
  -- Otherwise the very first step of the loop is a fault.
  by_contra! hlarge
  obtain ⟨m, hm⟩ := Nat.exists_eq_succ_of_ne_zero (n := min n 65536) (by omega)
  obtain ⟨s, hs, -⟩ := safe_bind.1 hsafe
  have hfirst : scanStep r t {} = .error .overflow := by
    have hoff := ht.off_lt
    have htag : add 64 t.off t.tag = .error .overflow := if_neg (by omega)
    rw [scanStep, mul_of_lt (by simp), ok_bind, add_of_lt (by simpa using hoff), ok_bind,
      Nat.zero_mul, Nat.add_zero, htag]
    rfl
  rw [hm, iterate, hfirst] at hs
  cases hs

end Scan

/-! ### The header of the file -/

theorem number_u16 {r : Rdr} {off v : ℕ} (h : r.u16 off = some v) : v < 2 ^ 16 :=
  (number_fits h).2

theorem number_u32 {r : Rdr} {off v : ℕ} (h : r.u32 off = some v) : v < 2 ^ 64 :=
  (number_fits h).2.trans (by decide)

theorem number_u64 {r : Rdr} {off v : ℕ} (h : r.u64 off = some v) : v < 2 ^ 64 :=
  (number_fits h).2

/-- The numbers of a header that say where the tables are. -/
structure Header.Bounded (h : Header) : Prop where
  phoff_lt : h.phoff < 2 ^ 64
  shoff_lt : h.shoff < 2 ^ 64
  phentsize_lt : h.phentsize < 2 ^ 16
  shentsize_lt : h.shentsize < 2 ^ 16

theorem fields_bounded {r : Rdr} {is64 : Bool} {eType eMachine phoff shoff half : ℕ}
    {truncated : String} {word : ℕ → Option ℕ} {h : Header}
    (hword : ∀ off v, word off = some v → v < 2 ^ 64)
    (hh : fields r is64 eType eMachine truncated word phoff shoff half = .ok h) : h.Bounded := by
  obtain ⟨entry, -, hh⟩ := bind_eq_ok.1 hh
  obtain ⟨phoff, hphoff, hh⟩ := bind_eq_ok.1 hh
  obtain ⟨shoff, hshoff, hh⟩ := bind_eq_ok.1 hh
  obtain ⟨phentsize, hphentsize, hh⟩ := bind_eq_ok.1 hh
  obtain ⟨phnum, -, hh⟩ := bind_eq_ok.1 hh
  obtain ⟨shentsize, hshentsize, hh⟩ := bind_eq_ok.1 hh
  obtain ⟨shnum, -, hh⟩ := bind_eq_ok.1 hh
  obtain ⟨shstrndx, -, hh⟩ := bind_eq_ok.1 hh
  obtain rfl := Except.ok.inj hh
  exact ⟨hword _ _ (okOr_eq_ok.1 hphoff), hword _ _ (okOr_eq_ok.1 hshoff),
    number_u16 (okOr_eq_ok.1 hphentsize), number_u16 (okOr_eq_ok.1 hshentsize)⟩

theorem header_bounded {b : Slice} {h : Header} (hh : header b = .ok h) : h.Bounded := by
  obtain ⟨⟨is64, r⟩, -, hh⟩ := bind_eq_ok.1 hh
  obtain ⟨eType, -, hh⟩ := bind_eq_ok.1 hh
  obtain ⟨eMachine, -, hh⟩ := bind_eq_ok.1 hh
  have hwide : ∀ off v, r.u64 off = some v → v < 2 ^ 64 := fun _ _ ↦ number_u64
  have hnarrow : ∀ off v, r.u32 off = some v → v < 2 ^ 64 := fun _ _ ↦ number_u32
  cases is64 with
  | true => exact fields_bounded hwide hh
  | false => exact fields_bounded hnarrow hh

theorem safe_loadAt {r : Rdr} {is64 : Bool} {pType ph : ℕ} (hph : ph < 2 ^ 63) :
    Safe (loadAt r is64 pType ph) := by
  unfold loadAt
  split_ifs
  · exact safe_pure _
  · simp (disch := omega) only [field_of_lt, ok_bind, safe_pure]
  · simp (disch := omega) only [field_of_lt, ok_bind, safe_pure]

theorem safe_sectionAt {r : Rdr} {is64 : Bool} {shType sh : ℕ} (hsh : sh < 2 ^ 63) :
    Safe (sectionAt r is64 shType sh) := by
  unfold sectionAt
  split_ifs
  · simp (disch := omega) only [field_of_lt, ok_bind, safe_pure]
  · simp (disch := omega) only [field_of_lt, ok_bind, safe_pure]

theorem Header.Bounded.programHeaders {h : Header} (hh : h.Bounded) : h.programHeaders.Bounded where
  off_lt := hh.phoff_lt
  size_lt := hh.phentsize_lt
  safe_read _ _ := safe_loadAt

theorem Header.Bounded.sectionHeaders {h : Header} (hh : h.Bounded) : h.sectionHeaders.Bounded where
  off_lt := hh.shoff_lt
  size_lt := hh.shentsize_lt
  safe_read _ _ := safe_sectionAt

/-! ### Symbols -/

theorem safe_rdCstr (b : Slice) (off max : ℕ) : Safe (rdCstr b.bytes off max) :=
  ⟨_, rdCstr_eq (b.length_lt.trans (by decide)) off max⟩

theorem safe_entryName (b : Slice) (strtab : Section) (stName : ℕ) :
    Safe (entryName b strtab stName) := by
  unfold entryName
  split
  · obtain ⟨name, hname⟩ := safe_rdCstr b (satAdd strtab.offset stName) 4096
    rw [hname]
    exact safe_pure _
  · exact safe_pure _

theorem safe_symbolEntry_iff {r : Rdr} {is64 : Bool} {so : ℕ} :
    Safe (entryAt r is64 so) ↔ so + lastField is64 < 2 ^ 64 := by
  cases is64 with
  | true =>
    constructor
    · intro hsafe
      obtain ⟨at4, -, hsafe⟩ := safe_bind.1 hsafe
      obtain ⟨shndx, -, hsafe⟩ := safe_bind.1 hsafe
      obtain ⟨value, hvalue, -⟩ := safe_bind.1 hsafe
      exact safe_field_iff.1 ⟨value, hvalue⟩
    · intro hlt
      change so + 8 < 2 ^ 64 at hlt
      simp (disch := omega) only [entryAt, if_true, add_of_lt, field_of_lt, ok_bind, safe_pure]
  | false =>
    constructor
    · intro hsafe
      obtain ⟨at12, -, hsafe⟩ := safe_bind.1 hsafe
      obtain ⟨shndx, hshndx, -⟩ := safe_bind.1 hsafe
      exact safe_field_iff.1 ⟨shndx, hshndx⟩
    · intro hlt
      change so + 14 < 2 ^ 64 at hlt
      simp (disch := omega) only [entryAt, Bool.false_eq_true, if_false, add_of_lt, field_of_lt,
        ok_bind, safe_pure]

/-- The fields of all entries of a table of symbols are at positions that fit. -/
def EntriesFit (is64 : Bool) (sections : List Section) (sec : Section) : Prop :=
  (sec.strtab sections).isSome → ∀ i < sec.entryCount is64,
    sec.offset + i * sec.entrySize is64 + lastField is64 < 2 ^ 64

theorem entryStep_of_fits {r : Rdr} {is64 : Bool} {base entsize : ℕ} {sec strtab : Section}
    (s : Entries) (hs : sec.offset + s.i * entsize + lastField is64 < 2 ^ 64) :
    ∃ s₁, entryStep r is64 base sec strtab entsize s = .ok (some s₁) ∧ s₁.i = s.i + 1 := by
  obtain ⟨e, he⟩ := safe_symbolEntry_iff (r := r).2 hs
  rw [entryStep, mul_of_lt (by omega), ok_bind, add_of_lt (by omega), ok_bind, he, ok_bind]
  split
  · exact ⟨_, rfl, rfl⟩
  · obtain ⟨name, hname⟩ := safe_entryName r.b strtab e.name
    rw [hname, ok_bind]
    split
    · exact ⟨_, rfl, rfl⟩
    · exact ⟨_, rfl, rfl⟩

theorem fits_of_safe_entryStep {r : Rdr} {is64 : Bool} {base entsize : ℕ} {sec strtab : Section}
    {s : Entries} (hsafe : Safe (entryStep r is64 base sec strtab entsize s)) :
    sec.offset + s.i * entsize + lastField is64 < 2 ^ 64 := by
  obtain ⟨m, hm, hsafe⟩ := safe_bind.1 hsafe
  obtain ⟨so, hso, hsafe⟩ := safe_bind.1 hsafe
  obtain ⟨e, he, -⟩ := safe_bind.1 hsafe
  obtain ⟨-, rfl⟩ := mul_eq_ok.1 hm
  obtain ⟨-, rfl⟩ := add_eq_ok.1 hso
  exact safe_symbolEntry_iff.1 ⟨e, he⟩

theorem safe_sectionSymbols_iff {r : Rdr} {is64 : Bool} {base : ℕ} {sections : List Section}
    {sec : Section} {t : Symbols} :
    Safe (sectionSymbols r is64 base sections sec t) ↔ EntriesFit is64 sections sec := by
  unfold sectionSymbols EntriesFit
  cases hstrtab : sec.strtab sections with
  | none => exact ⟨fun _ ↦ nofun, fun _ ↦ safe_ok _⟩
  | some strtab =>
    have hloop : Safe (iterate (entryStep r is64 base sec strtab (sec.entrySize is64))
        (sec.entryCount is64) { found := t }) ↔
        ∀ i < sec.entryCount is64,
          sec.offset + (0 + i) * sec.entrySize is64 + lastField is64 < 2 ^ 64 :=
      safe_iterate_count
        (p := fun i ↦ sec.offset + i * sec.entrySize is64 + lastField is64 < 2 ^ 64)
        entryStep_of_fits fun _ ↦ fits_of_safe_entryStep
    simp only [Nat.zero_add] at hloop
    constructor
    · intro hsafe _
      obtain ⟨s, hs, -⟩ := safe_bind.1 hsafe
      exact hloop.1 ⟨s, hs⟩
    · intro hall
      obtain ⟨s, hs⟩ := hloop.2 (hall rfl)
      exact safe_bind.2 ⟨s, hs, safe_pure _⟩

theorem safe_symbols_iff {r : Rdr} {is64 : Bool} {base : ℕ} {sections l : List Section}
    {t : Symbols} :
    Safe (symbols r is64 base sections l t) ↔ ∀ sec ∈ l, EntriesFit is64 sections sec := by
  induction l generalizing t with
  | nil => exact ⟨fun _ ↦ nofun, fun _ ↦ safe_ok _⟩
  | cons sec rest ih =>
    rw [symbols, safe_bind, List.forall_mem_cons]
    constructor
    · rintro ⟨t₁, ht₁, hrest⟩
      exact ⟨safe_sectionSymbols_iff.1 ⟨t₁, ht₁⟩, ih.1 hrest⟩
    · rintro ⟨hfits, hrest⟩
      obtain ⟨t₁, ht₁⟩ := safe_sectionSymbols_iff.2 hfits
      exact ⟨t₁, ht₁, ih.2 hrest⟩

/-! ### DWARF sections -/

/-- The text at an offset of the names, empty where there is none. -/
def nameAt (names : Slice) (off : ℕ) : String :=
  if names.bytes.length ≤ off then "" else Utf8.fromUtf8Lossy (cstrBytes names.bytes off 64)

/-- The bytes of the first section with a name. -/
def sectionNamed (b names : Slice) (sections : List Section) (want : String) : Slice :=
  ((sections.find? fun s ↦ nameAt names s.name = want).map (·.bytes b)).getD .nil

theorem secByName_eq (b names : Slice) (sections : List Section) (want : String) :
    secByName b names want sections = .ok (sectionNamed b names sections want) := by
  induction sections with
  | nil => rfl
  | cons s rest ih =>
    have hname : rdCstr names.bytes s.name 64 >>= (fun nm ↦ pure (nm.getD "")) =
        .ok (nameAt names s.name) := by
      rw [rdCstr_eq (names.length_lt.trans (by decide)), ok_bind, nameAt]
      split <;> rfl
    obtain ⟨nm, hnm, hget⟩ := bind_eq_ok.1 hname
    obtain hget := Except.ok.inj hget
    rw [secByName, hnm, ok_bind, hget, ih, sectionNamed, sectionNamed, List.find?_cons]
    by_cases hwant : nameAt names s.name = want
    · rw [if_pos hwant, decide_eq_true hwant]
      rfl
    · rw [if_neg hwant, decide_eq_false hwant]

/-- The sections that are walked for the names of functions. -/
def dwarfSections (b : Slice) (sections : List Section) (shstrndx : ℕ) : Dwarf.Sections :=
  let named := sectionNamed b (shstr b sections shstrndx) sections
  { info := named ".debug_info"
    abbrevs := named ".debug_abbrev"
    str := named ".debug_str"
    lineStr := named ".debug_line_str"
    strOffsets := named ".debug_str_offsets" }

theorem debugSections_eq (b : Slice) (sections : List Section) (shstrndx : ℕ) :
    debugSections b sections shstrndx = .ok (dwarfSections b sections shstrndx) := by
  simp only [debugSections, secByName_eq, ok_bind]
  rfl

/-- The slots of all string offsets that the walk looks up fit. -/
def SlotsFit (secs : Dwarf.Sections) (vaddrToRva : ℕ → Option ℕ) : Prop :=
  ∀ u ab d c, Dwarf.WalksEntry secs vaddrToRva u ab d c →
    ∀ d' c', (Dwarf.attrs secs u.sizes ab.attrs d).run c = .ok (some d', c') →
      Dwarf.SlotFits u.sizes ab.tag d'

theorem safe_debugFunctions_iff {base : ℕ} {secs : Dwarf.Sections} :
    Safe (debugFunctions base secs) ↔ SlotsFit secs (rebase base) := by
  unfold debugFunctions
  split
  · next hinfo =>
    refine ⟨fun _ u ab d c hwalks ↦ absurd hinfo hwalks.1.1, fun _ ↦ safe_ok _⟩
  · exact Dwarf.safe_functions_iff

/-! ### The file -/

namespace Header

variable (h : Header)

/-- The section headers of the file. -/
def sections : List Section :=
  headers h.r h.sectionHeaders (min h.shnum 65536) h.shoff

/-- The program headers of the segments that are loaded. -/
def loads : List Load :=
  headers h.r h.programHeaders (min h.phnum 65536) h.phoff

/-- The positions that are computed from the numbers of a file fit in 64 bits. -/
structure Fits (b : Slice) : Prop where
  table : h.shnum = 0 ∨ h.shoff + 4 < 2 ^ 64
  entries : ∀ sec ∈ h.sections, EntriesFit h.is64 h.sections sec
  slots : SlotsFit (dwarfSections b h.sections h.shstrndx) (rebase (baseOf h.loads))

end Header

/-- A file is parsed, or refused, without a fault if and only if its positions fit. -/
theorem safe_elf_iff (b : Slice) : Safe (parse b) ↔ ∀ h, header b = .ok h → h.Fits b := by
  unfold parse
  cases hh : header b with
  | error e => exact ⟨fun _ ↦ nofun, fun _ ↦ safe_ok _⟩
  | ok h =>
    have hbounded := header_bounded hh
    have hloads : scan h.r h.programHeaders h.phnum = .ok h.loads :=
      scan_eq hbounded.programHeaders (.inr hbounded.phoff_lt)
    dsimp only
    rw [hloads, ok_bind]
    constructor
    · rintro hsafe h' hh'
      obtain rfl := Except.ok.inj hh'
      obtain ⟨sections, hsections, hsafe⟩ := safe_bind.1 hsafe
      have htable := (safe_scan_iff hbounded.sectionHeaders).1 ⟨sections, hsections⟩
      obtain rfl : h.sections = sections :=
        Except.ok.inj ((scan_eq hbounded.sectionHeaders htable).symm.trans hsections)
      obtain ⟨t, ht, hsafe⟩ := safe_bind.1 hsafe
      rw [debugSections_eq, ok_bind] at hsafe
      obtain ⟨found, hfound, -⟩ := safe_bind.1 hsafe
      exact ⟨htable, safe_symbols_iff.1 ⟨t, ht⟩, safe_debugFunctions_iff.1 ⟨found, hfound⟩⟩
    · intro hall
      obtain ⟨htable, hentries, hslots⟩ := hall h rfl
      obtain ⟨t, ht⟩ := safe_symbols_iff.2 hentries
      obtain ⟨found, hfound⟩ := safe_debugFunctions_iff.2 hslots
      have hsections : scan h.r h.sectionHeaders h.shnum = .ok h.sections :=
        scan_eq hbounded.sectionHeaders htable
      rw [hsections, ok_bind, ht, ok_bind, debugSections_eq, ok_bind, hfound]
      exact safe_pure _

theorem parse_of_magic (pe macho : Slice → Checked (Except String BinaryMeta))
    (isMacho : Slice → Bool) {b : Slice} (hmagic : magic <+: b.bytes) :
    BinaryMeta.parse pe macho isMacho b = parse b := by
  obtain ⟨rest, hrest⟩ := hmagic
  unfold BinaryMeta.parse
  rw [← hrest]
  rfl

/-- A file that starts like an ELF file is parsed, or refused, without a fault if and only if its
positions fit. -/
theorem safe_parse_iff (pe macho : Slice → Checked (Except String BinaryMeta))
    (isMacho : Slice → Bool) (b : Slice) (hmagic : magic <+: b.bytes) :
    Safe (BinaryMeta.parse pe macho isMacho b) ↔ ∀ h, header b = .ok h → h.Fits b := by
  rw [parse_of_magic pe macho isMacho hmagic]
  exact safe_elf_iff b

/-- The header of a file for x64, with the position of its section headers and their number. -/
def headerOnly (shoff : List UInt8) (shnum : UInt8) : List UInt8 :=
  magic ++ [2, 1, 1] ++ List.replicate 9 0 ++ [2, 0, 0x3E, 0, 1, 0, 0, 0] ++ List.replicate 16 0 ++
    shoff ++ [0, 0, 0, 0, 64, 0, 56, 0, 0, 0, 64, 0, shnum, 0, 0, 0]

/-- A file of a header and nothing else is parsed. -/
theorem safe_parse_headerOnly :
    Safe (BinaryMeta.parse (fun _ ↦ .ok (.error "")) (fun _ ↦ .ok (.error "")) (fun _ ↦ false)
      ⟨headerOnly (List.replicate 8 0) 0, by decide⟩) := by
  refine (safe_parse_iff _ _ _ _ (by decide)).2 fun h hh ↦ ?_
  obtain rfl := Except.ok.inj hh
  refine ⟨.inl rfl, fun sec hsec ↦ ?_, fun u ab d c hwalks ↦ ?_⟩
  · cases hsec
  · exact absurd rfl hwalks.1.1

/-- The section headers start where a number four bytes behind does not fit. -/
theorem not_safe_parse_far : ¬∀ b : Slice, magic <+: b.bytes →
    Safe (BinaryMeta.parse (fun _ ↦ .ok (.error "")) (fun _ ↦ .ok (.error ""))
      (fun _ ↦ false) b) := by
  intro h
  have hsafe := h ⟨headerOnly (List.replicate 8 0xFF) 1, by decide⟩ (by decide)
  revert hsafe
  decide +kernel

end Elf

end Ldu
