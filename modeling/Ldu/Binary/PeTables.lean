import Ldu.Binary.ElfSafe
import Ldu.Binary.Macho
import Ldu.Binary.Pe

/-!
# The directories of PE files, and all formats

The directories of a PE file lead to the names it exports and imports and to the functions that are
called before its entry. They are tables that end with a zero, or with the file; what they refer to
is found through the section table. Each is read in a loop with a bound (`gather`), whose rounds may
stop it.

No position leaves the numbers of 64 bits, so a PE file is always parsed or refused
(`parse_eq_ok`); with what is known of the other formats, it is known exactly which files make the
parser fault (`safe_formats_iff`).
-/

namespace Checked

variable {α : Type}

/-- What `n` rounds from the `i`-th on find, up to the first that finds an end. -/
def gather (f : ℕ → Checked (Option (List α))) : ℕ → ℕ → Checked (List α)
  | 0, _ => return []
  | n + 1, i => do
    match ← f i with
    | some l => return l ++ (← gather f n (i + 1))
    | none => return []

/-- The same of rounds that do not fault. -/
def rounds (g : ℕ → Option (List α)) : ℕ → ℕ → List α
  | 0, _ => []
  | n + 1, i =>
    match g i with
    | some l => l ++ rounds g n (i + 1)
    | none => []

theorem gather_eq {f : ℕ → Checked (Option (List α))} {g : ℕ → Option (List α)} {n i : ℕ}
    (h : ∀ j, i ≤ j → j < i + n → f j = .ok (g j)) : gather f n i = .ok (rounds g n i) := by
  induction n generalizing i with
  | zero => rfl
  | succ n ih =>
    rw [gather, h i le_rfl (by omega), ok_bind, rounds]
    cases g i with
    | none => rfl
    | some l =>
      dsimp only
      rw [ih fun j hij hji ↦ h j (by omega) (by omega), ok_bind]
      rfl

/-- What is found is found in a round before the first that finds an end. -/
theorem mem_rounds {g : ℕ → Option (List α)} {n i : ℕ} {a : α} : a ∈ rounds g n i ↔
    ∃ j, i ≤ j ∧ j < i + n ∧ (∀ k, i ≤ k → k < j → (g k).isSome = true) ∧
      ∃ l, g j = some l ∧ a ∈ l := by
  induction n generalizing i with
  | zero =>
    refine iff_of_false List.not_mem_nil ?_
    rintro ⟨j, hij, hji, -⟩
    omega
  | succ n ih =>
    rw [rounds]
    cases hg : g i with
    | none =>
      refine iff_of_false List.not_mem_nil ?_
      rintro ⟨j, hij, -, hall, l, hl, -⟩
      rcases Nat.eq_or_lt_of_le hij with rfl | hlt
      · cases hg.symm.trans hl
      · simpa [hg] using hall i le_rfl hlt
    | some l =>
      dsimp only
      rw [List.mem_append, ih]
      constructor
      · rintro (ha | ⟨j, hij, hji, hall, l', hl', ha⟩)
        · exact ⟨i, le_rfl, by omega, fun k hk hki ↦ absurd hki (by omega), l, hg, ha⟩
        · refine ⟨j, by omega, by omega, fun k hk hkj ↦ ?_, l', hl', ha⟩
          rcases Nat.eq_or_lt_of_le hk with rfl | hlt
          · rw [hg, Option.isSome_some]
          · exact hall k hlt hkj
      · rintro ⟨j, hij, hji, hall, l', hl', ha⟩
        rcases Nat.eq_or_lt_of_le hij with rfl | hlt
        · obtain rfl := Option.some.inj (hg.symm.trans hl')
          exact .inl ha
        · exact .inr ⟨j, hlt, by omega, fun k hk hkj ↦ hall k (by omega) hkj, l', hl', ha⟩

end Checked

namespace Ldu

namespace Pe

open BinParser Checked

/-! ### Tables -/

def dirExport : ℕ := 0

def dirImport : ℕ := 1

def dirTls : ℕ := 9

/-- The number of `n` bytes at `k` bytes behind a position. -/
def rdAt (n : ℕ) (bytes : List UInt8) (off k : ℕ) : Checked (Option ℕ) := do
  let pos ← add 64 off k
  return rdNumber n bytes pos

/-- The text at an address. -/
def readStrRva (bytes : List UInt8) (segments : List Segment) (rva : ℕ) :
    Checked (Option String) :=
  match rvaToOff segments rva with
  | some off => rdCstr bytes off 4096
  | none => return none

/-! ### Exports -/

/-- What the export directory says: the number of functions, and where their addresses, the names
and their ordinals are. An address between `fwdLo` and `fwdHi` is the name of a function elsewhere.
-/
structure ExportTable where
  numFuncs : ℕ
  eatOff : Option ℕ
  namesOff : ℕ
  ordsOff : ℕ
  fwdLo : ℕ
  fwdHi : ℕ

/-- The address with an ordinal; zero if there is none. -/
def funcRva (bytes : List UInt8) (t : ExportTable) (ord : ℕ) : Checked ℕ :=
  match t.eatOff with
  | some eat => do return (← rdAt 4 bytes eat (ord * 4)).getD 0
  | none => return 0

/-- The `i`-th name, if its function is in this file. -/
def exportAt (bytes : List UInt8) (segments : List Segment) (t : ExportTable) (i : ℕ) :
    Checked (Option (List Symbol)) := do
  match ← rdAt 4 bytes t.namesOff (i * 4) with
  | none => return none
  | some namePtr =>
    match ← rdAt 2 bytes t.ordsOff (i * 2) with
    | none => return none
    | some ord =>
      if t.numFuncs ≤ ord then return some []
      else
        let rva ← funcRva bytes t ord
        if rva = 0 ∨ t.fwdLo ≤ rva ∧ rva < t.fwdHi then return some []
        else
          match ← readStrRva bytes segments namePtr with
          | some name => return some (if name = "" then [] else [{ rva, name }])
          | none => return some []

def parseExports (bytes : List UInt8) (ctx : PeCtx) : Checked (List Symbol) := do
  let dir ← index ctx.dirs dirExport
  if dir.rva = 0 ∨ dir.size = 0 then return []
  else
    match rvaToOff ctx.segments dir.rva with
    | none => return []
    | some base => do
      match ← rdAt 4 bytes base 0x14 with
      | none => return []
      | some numFuncs => do
        let numNames := (← rdAt 4 bytes base 0x18).getD 0
        let eatRva := (← rdAt 4 bytes base 0x1C).getD 0
        let namesRva := (← rdAt 4 bytes base 0x20).getD 0
        let ordsRva := (← rdAt 4 bytes base 0x24).getD 0
        match rvaToOff ctx.segments namesRva, rvaToOff ctx.segments ordsRva with
        | some namesOff, some ordsOff =>
          let t : ExportTable := {
            numFuncs := min numFuncs 1000000
            eatOff := rvaToOff ctx.segments eatRva
            namesOff
            ordsOff
            fwdLo := dir.rva
            fwdHi := satAdd dir.rva dir.size }
          gather (exportAt bytes ctx.segments t) (min numNames 1000000) 0
        | _, _ => return []

/-! ### Imports -/

/-- A descriptor of the import directory: the table of names, the name of the library, and the
table of addresses. -/
structure ImportDesc where
  ilt : ℕ
  name : ℕ
  iat : ℕ

/-- The last descriptor has no tables. -/
def ImportDesc.IsNull (d : ImportDesc) : Prop :=
  d.ilt = 0 ∧ d.iat = 0

instance (d : ImportDesc) : Decidable d.IsNull :=
  inferInstanceAs (Decidable (_ ∧ _))

/-- The table of the names. The table of addresses has them too, before the file is loaded. -/
def ImportDesc.thunks (d : ImportDesc) : ℕ :=
  if d.ilt ≠ 0 then d.ilt else d.iat

/-- The bit that says that an import has a number instead of a name. -/
def highBit (ptr : ℕ) : ℕ :=
  if ptr = 8 then 2 ^ 63 else 2 ^ 31

/-- The `i`-th import of a descriptor. -/
def thunkAt (bytes : List UInt8) (segments : List Segment) (ptr iat off : ℕ)
    (dll : Option String) (i : ℕ) : Checked (Option (List Symbol)) := do
  match ← rdAt ptr bytes off (← mul 64 i ptr) with
  | none => return none
  | some thunk =>
    if thunk = 0 then return none
    else
      let rva := satAdd iat (← mul 64 i ptr)
      if thunk &&& highBit ptr ≠ 0 then
        return some [{ rva, name := s!"Ordinal_{thunk &&& 0xFFFF}", owner := dll }]
      else
        -- The name is behind a hint of two bytes.
        match rvaToOff segments thunk with
        | none => return some []
        | some hint => do
          match ← rdCstr bytes (← add 64 hint 2) 4096 with
          | some name => return some (if name = "" then [] else [{ rva, name, owner := dll }])
          | none => return some []

/-- The imports of the descriptor at a position. -/
def descriptorAt (bytes : List UInt8) (segments : List Segment) (ptr start d : ℕ) :
    Checked (Option (List Symbol)) := do
  let off ← add 64 start (20 * d)
  let desc : ImportDesc := {
    ilt := (← rdAt 4 bytes off 0).getD 0
    name := (← rdAt 4 bytes off 0x0C).getD 0
    iat := (← rdAt 4 bytes off 0x10).getD 0 }
  if desc.IsNull then return none
  else
    let dll := (← readStrRva bytes segments desc.name).filter (· ≠ "")
    match rvaToOff segments desc.thunks with
    | none => return some []
    | some table => return some (← gather (thunkAt bytes segments ptr desc.iat table dll) 200000 0)

def parseImports (bytes : List UInt8) (ctx : PeCtx) : Checked (List Symbol) := do
  let dir ← index ctx.dirs dirImport
  if dir.rva = 0 then return []
  else
    match rvaToOff ctx.segments dir.rva with
    | none => return []
    | some start => gather (descriptorAt bytes ctx.segments ctx.ptrSize start) 4096 0

/-! ### Callbacks -/

/-- An address, from the start of the image where it is behind it. -/
def toRva (base va : ℕ) : ℕ :=
  if base ≤ va then va - base else va

/-- The `i`-th function in a table. -/
def callbackAt (bytes : List UInt8) (base ptr off i : ℕ) : Checked (Option (List ℕ)) := do
  match ← rdAt ptr bytes off (← mul 64 i ptr) with
  | none => return none
  | some va => return if va = 0 then none else some [toRva base va]

def parseTls (bytes : List UInt8) (ctx : PeCtx) : Checked (List ℕ) := do
  let dir ← index ctx.dirs dirTls
  if dir.rva = 0 ∨ dir.size = 0 then return []
  else
    match rvaToOff ctx.segments dir.rva with
    | none => return []
    | some off => do
      let va := (← rdAt ctx.ptrSize bytes off (if ctx.ptrSize = 8 then 0x18 else 0x0C)).getD 0
      if va = 0 then return []
      else
        match rvaToOff ctx.segments (toRva ctx.base va) with
        | none => return []
        | some table => gather (callbackAt bytes ctx.base ctx.ptrSize table) 4096 0

/-! ### The file -/

def parse (b : Slice) : Checked (Except String BinaryMeta) :=
  match parseHeaders b.bytes with
  | .error e => return .error e
  | .ok ctx => do
    let exports ← parseExports b.bytes ctx
    let imports ← parseImports b.bytes ctx
    let tlsCallbacks ← parseTls b.bytes ctx
    return .ok (ctx.toMeta exports imports tlsCallbacks)

/-! ### What the tables say -/

variable {bytes : List UInt8} {segments : List Segment} {ctx : PeCtx} {off k n i d ptr iat : ℕ}

/-- The text at an offset. -/
def strAt (bytes : List UInt8) (off max : ℕ) : Option String :=
  if bytes.length ≤ off then none
  else some (Utf8.fromUtf8Lossy (cstrBytes bytes off max))

def strAtRva (bytes : List UInt8) (segments : List Segment) (rva : ℕ) : Option String :=
  (rvaToOff segments rva).bind fun off ↦ strAt bytes off 4096

/-- The `i`-th number in a table that ends with a zero. -/
def thunk? (bytes : List UInt8) (ptr off i : ℕ) : Option ℕ :=
  (rdNumber ptr bytes (off + i * ptr)).filter (· ≠ 0)

/-- The name that a number in a table of imports stands for. -/
def importName (bytes : List UInt8) (segments : List Segment) (ptr thunk : ℕ) : Option String :=
  if thunk &&& highBit ptr ≠ 0 then some s!"Ordinal_{thunk &&& 0xFFFF}"
  else (rvaToOff segments thunk).bind fun hint ↦ (strAt bytes (hint + 2) 4096).filter (· ≠ "")

def importsAt (bytes : List UInt8) (segments : List Segment) (ptr iat off : ℕ)
    (dll : Option String) (i : ℕ) : Option (List Symbol) :=
  (thunk? bytes ptr off i).map fun t ↦ ((importName bytes segments ptr t).map fun name ↦
    { rva := satAdd iat (i * ptr), name, owner := dll }).toList

def descAt (bytes : List UInt8) (off : ℕ) : ImportDesc where
  ilt := (rdNumber 4 bytes off).getD 0
  name := (rdNumber 4 bytes (off + 0x0C)).getD 0
  iat := (rdNumber 4 bytes (off + 0x10)).getD 0

def dllName (bytes : List UInt8) (segments : List Segment) (desc : ImportDesc) : Option String :=
  (strAtRva bytes segments desc.name).filter (· ≠ "")

def importsOf (bytes : List UInt8) (segments : List Segment) (ptr start d : ℕ) :
    Option (List Symbol) :=
  let desc := descAt bytes (start + 20 * d)
  if desc.IsNull then none
  else
    match rvaToOff segments desc.thunks with
    | none => some []
    | some table =>
      some (rounds (importsAt bytes segments ptr desc.iat table (dllName bytes segments desc))
        200000 0)

theorem rdAt_eq (h : off + k < 2 ^ 64) : rdAt n bytes off k = .ok (rdNumber n bytes (off + k)) := by
  rw [rdAt, add_of_lt h]
  rfl

theorem rvaToOff_lt {rva o : ℕ} (hsmall : ∀ seg ∈ segments, SmallSection seg)
    (h : rvaToOff segments rva = some o) : o < 2 ^ 33 := by
  induction segments with
  | nil => cases h
  | cons seg rest ih =>
    rw [rvaToOff] at h
    dsimp only at h
    split_ifs at h with haround hdelta
    · obtain rfl := Option.some.inj h
      obtain ⟨-, -, hoff, hsize⟩ := hsmall seg List.mem_cons_self
      rw [satAdd]
      omega
    · exact ih (fun t ht ↦ hsmall t (List.mem_cons_of_mem _ ht)) h

theorem rdCstr_eq_strAt (hbytes : bytes.length < 2 ^ 64) (off max : ℕ) :
    rdCstr bytes off max = .ok (strAt bytes off max) :=
  rdCstr_eq hbytes off max

theorem readStrRva_eq (hbytes : bytes.length < 2 ^ 64) (rva : ℕ) :
    readStrRva bytes segments rva = .ok (strAtRva bytes segments rva) := by
  unfold readStrRva strAtRva
  cases rvaToOff segments rva with
  | none => rfl
  | some off => exact rdCstr_eq hbytes off 4096

theorem thunkAt_eq {dll : Option String} (hbytes : bytes.length < 2 ^ 64)
    (hsmall : ∀ seg ∈ segments, SmallSection seg) (hoff : off < 2 ^ 33) (hi : i < 200000)
    (hptr : ptr ≤ 8) : thunkAt bytes segments ptr iat off dll i =
      .ok (importsAt bytes segments ptr iat off dll i) := by
  have hmul : i * ptr ≤ 200000 * 8 := Nat.mul_le_mul hi.le hptr
  rw [thunkAt, mul_of_lt (by omega), ok_bind, rdAt_eq (by omega), ok_bind, importsAt, thunk?]
  cases rdNumber ptr bytes (off + i * ptr) with
  | none => rfl
  | some thunk =>
    dsimp only
    by_cases hzero : thunk = 0
    · rw [if_pos hzero]
      simp [hzero]
      rfl
    · rw [if_neg hzero, Option.filter_some, if_pos (by simpa using hzero), Option.map_some,
        ok_bind, importName]
      split_ifs
      · rfl
      · cases hhint : rvaToOff segments thunk with
        | none => rfl
        | some hint =>
          have := rvaToOff_lt hsmall hhint
          dsimp only
          rw [add_of_lt (by omega), ok_bind, rdCstr_eq_strAt hbytes, ok_bind, Option.bind_some]
          cases strAt bytes (hint + 2) 4096 with
          | none => rfl
          | some name =>
            dsimp only
            rw [Option.filter_some]
            by_cases hname : name = ""
            · rw [if_pos hname, if_neg (by simpa using hname)]
              rfl
            · rw [if_neg hname, if_pos (by simpa using hname)]
              rfl

theorem descriptorAt_eq {start : ℕ} (hbytes : bytes.length < 2 ^ 64)
    (hsmall : ∀ seg ∈ segments, SmallSection seg) (hstart : start < 2 ^ 33) (hd : d < 4096)
    (hptr : ptr ≤ 8) : descriptorAt bytes segments ptr start d =
      .ok (importsOf bytes segments ptr start d) := by
  have hdesc : ({
      ilt := (rdNumber 4 bytes (start + 20 * d + 0)).getD 0
      name := (rdNumber 4 bytes (start + 20 * d + 0x0C)).getD 0
      iat := (rdNumber 4 bytes (start + 20 * d + 0x10)).getD 0 } : ImportDesc) =
        descAt bytes (start + 20 * d) := rfl
  rw [descriptorAt, add_of_lt (by omega), ok_bind, rdAt_eq (by omega), ok_bind,
    rdAt_eq (by omega), ok_bind, rdAt_eq (by omega), ok_bind, importsOf]
  dsimp only
  rw [hdesc]
  split_ifs
  · rfl
  · rw [readStrRva_eq hbytes, ok_bind]
    cases htable : rvaToOff segments (descAt bytes (start + 20 * d)).thunks with
    | none => rfl
    | some table =>
      have htable := rvaToOff_lt hsmall htable
      dsimp only
      rw [gather_eq fun i _ hi ↦ thunkAt_eq hbytes hsmall htable (by omega) hptr, ok_bind]
      rfl

/-- Where the descriptors of imports are. -/
def importStart (ctx : PeCtx) : Option ℕ :=
  let dir := ctx.dirs[dirImport]?.getD {}
  if dir.rva = 0 then none else rvaToOff ctx.segments dir.rva

/-- The address with an ordinal. -/
def funcRvaAt (bytes : List UInt8) (t : ExportTable) (ord : ℕ) : ℕ :=
  (t.eatOff.bind fun eat ↦ rdNumber 4 bytes (eat + ord * 4)).getD 0

/-- The export directory, and the number of names that are looked at. -/
def exportTable (bytes : List UInt8) (ctx : PeCtx) : Option (ExportTable × ℕ) := do
  let dir := ctx.dirs[dirExport]?.getD {}
  let base ← if dir.rva = 0 ∨ dir.size = 0 then none else rvaToOff ctx.segments dir.rva
  let numFuncs ← rdNumber 4 bytes (base + 0x14)
  let namesOff ← rvaToOff ctx.segments ((rdNumber 4 bytes (base + 0x20)).getD 0)
  let ordsOff ← rvaToOff ctx.segments ((rdNumber 4 bytes (base + 0x24)).getD 0)
  return ({
    numFuncs := min numFuncs 1000000
    eatOff := rvaToOff ctx.segments ((rdNumber 4 bytes (base + 0x1C)).getD 0)
    namesOff
    ordsOff
    fwdLo := dir.rva
    fwdHi := satAdd dir.rva dir.size }, min ((rdNumber 4 bytes (base + 0x18)).getD 0) 1000000)

def exportsOf (bytes : List UInt8) (segments : List Segment) (t : ExportTable) (i : ℕ) :
    Option (List Symbol) :=
  (rdNumber 4 bytes (t.namesOff + i * 4)).bind fun namePtr ↦
    (rdNumber 2 bytes (t.ordsOff + i * 2)).map fun ord ↦
      let rva := funcRvaAt bytes t ord
      if t.numFuncs ≤ ord ∨ rva = 0 ∨ t.fwdLo ≤ rva ∧ rva < t.fwdHi then []
      else (((strAtRva bytes segments namePtr).filter (· ≠ "")).map fun name ↦
        ({ rva, name } : Symbol)).toList

/-- Where the functions are that are called before the entry. -/
def callbackTable (bytes : List UInt8) (ctx : PeCtx) : Option ℕ := do
  let dir := ctx.dirs[dirTls]?.getD {}
  let off ← if dir.rva = 0 ∨ dir.size = 0 then none else rvaToOff ctx.segments dir.rva
  let va ← ((rdNumber ctx.ptrSize bytes (off + if ctx.ptrSize = 8 then 0x18 else 0x0C))).filter
    (· ≠ 0)
  rvaToOff ctx.segments (toRva ctx.base va)

theorem funcRva_eq {t : ExportTable} {ord : ℕ} (ht : ∀ eat, t.eatOff = some eat → eat < 2 ^ 33)
    (hord : ord < 2 ^ 32) : funcRva bytes t ord = .ok (funcRvaAt bytes t ord) := by
  unfold funcRva funcRvaAt
  cases heat : t.eatOff with
  | none => rfl
  | some eat =>
    have := ht eat heat
    dsimp only
    rw [rdAt_eq (by omega), ok_bind]
    rfl

theorem exportAt_eq {t : ExportTable} (hbytes : bytes.length < 2 ^ 64)
    (hnames : t.namesOff < 2 ^ 33) (hords : t.ordsOff < 2 ^ 33)
    (heat : ∀ eat, t.eatOff = some eat → eat < 2 ^ 33) (hfuncs : t.numFuncs ≤ 1000000)
    (hi : i < 1000000) : exportAt bytes segments t i = .ok (exportsOf bytes segments t i) := by
  rw [exportAt, rdAt_eq (by omega), ok_bind, exportsOf]
  cases rdNumber 4 bytes (t.namesOff + i * 4) with
  | none => rfl
  | some namePtr =>
    dsimp only
    rw [rdAt_eq (by omega), ok_bind, Option.bind_some]
    cases rdNumber 2 bytes (t.ordsOff + i * 2) with
    | none => rfl
    | some ord =>
      dsimp only
      rw [Option.map_some]
      by_cases hord : t.numFuncs ≤ ord
      · rw [if_pos hord, if_pos (.inl hord)]
        rfl
      · rw [if_neg hord, funcRva_eq heat (by omega), ok_bind]
        by_cases hrva : funcRvaAt bytes t ord = 0 ∨
            t.fwdLo ≤ funcRvaAt bytes t ord ∧ funcRvaAt bytes t ord < t.fwdHi
        · rw [if_pos hrva, if_pos (.inr hrva)]
          rfl
        · rw [if_neg hrva, if_neg (not_or.2 ⟨hord, hrva⟩), readStrRva_eq hbytes, ok_bind]
          cases strAtRva bytes segments namePtr with
          | none => rfl
          | some name =>
            dsimp only
            rw [Option.filter_some]
            by_cases hname : name = ""
            · rw [if_pos hname, if_neg (by simpa using hname)]
              rfl
            · rw [if_neg hname, if_pos (by simpa using hname)]
              rfl

/-- What the tables need of the headers. -/
structure PeCtx.Read (ctx : PeCtx) : Prop where
  small : ∀ seg ∈ ctx.segments, SmallSection seg
  dirs : ctx.dirs.length = 16
  ptr : ctx.ptrSize ≤ 8

theorem ptrSize_optHeader {opt : ℕ} {h : OptHeader} (hopt : optHeader bytes opt = .ok h) :
    h.ptrSize ≤ 8 := by
  unfold optHeader at hopt
  obtain ⟨magic, -, hopt⟩ := bind_eq_ok.1 hopt
  split at hopt
  · obtain ⟨_, -, hopt⟩ := bind_eq_ok.1 hopt
    obtain ⟨_, -, hopt⟩ := bind_eq_ok.1 hopt
    obtain ⟨_, -, hopt⟩ := bind_eq_ok.1 hopt
    obtain ⟨_, -, hopt⟩ := bind_eq_ok.1 hopt
    cases hopt
    show 4 ≤ 8
    decide
  · obtain ⟨_, -, hopt⟩ := bind_eq_ok.1 hopt
    obtain ⟨_, -, hopt⟩ := bind_eq_ok.1 hopt
    obtain ⟨_, -, hopt⟩ := bind_eq_ok.1 hopt
    obtain ⟨_, -, hopt⟩ := bind_eq_ok.1 hopt
    cases hopt
    show 8 ≤ 8
    decide
  · cases hopt

theorem read_of_parseHeaders (h : parseHeaders bytes = .ok ctx) : ctx.Read := by
  refine ⟨(small_of_parseHeaders h).segments, ?_, ?_⟩
  all_goals
    unfold parseHeaders at h
    obtain ⟨mz, -, h⟩ := bind_eq_ok.1 h
    obtain ⟨-, -, h⟩ := bind_eq_ok.1 h
    obtain ⟨eLfanew, -, h⟩ := bind_eq_ok.1 h
    obtain ⟨sig, -, h⟩ := bind_eq_ok.1 h
    obtain ⟨-, -, h⟩ := bind_eq_ok.1 h
    obtain ⟨c, -, h⟩ := bind_eq_ok.1 h
    obtain ⟨o, ho, h⟩ := bind_eq_ok.1 h
    cases h
  · simp [dataDirs]
  · exact ptrSize_optHeader ho

theorem index_dirs (hctx : ctx.Read) (hi : i < 16) :
    index ctx.dirs i = .ok (ctx.dirs[i]?.getD {}) := by
  have hlt : i < ctx.dirs.length := hctx.dirs.symm ▸ hi
  rw [index_of_lt hlt, List.getElem?_eq_getElem hlt, Option.getD_some]

theorem parseImports_eq (hbytes : bytes.length < 2 ^ 64) (hctx : ctx.Read) :
    parseImports bytes ctx = .ok ((importStart ctx).elim [] fun start ↦
      rounds (importsOf bytes ctx.segments ctx.ptrSize start) 4096 0) := by
  rw [parseImports, index_dirs hctx (by decide), ok_bind, importStart]
  split_ifs
  · rfl
  · cases hstart : rvaToOff ctx.segments (ctx.dirs[dirImport]?.getD {}).rva with
    | none => rfl
    | some start =>
      have hstart := rvaToOff_lt hctx.small hstart
      exact gather_eq fun d _ hd ↦
        descriptorAt_eq hbytes hctx.small hstart (by omega) hctx.ptr

theorem parseExports_eq (hbytes : bytes.length < 2 ^ 64) (hctx : ctx.Read) :
    parseExports bytes ctx = .ok ((exportTable bytes ctx).elim [] fun t ↦
      rounds (exportsOf bytes ctx.segments t.1) t.2 0) := by
  rw [parseExports, index_dirs hctx (by decide), ok_bind, exportTable]
  dsimp only
  split_ifs
  · rfl
  · cases hbase : rvaToOff ctx.segments (ctx.dirs[dirExport]?.getD {}).rva with
    | none => rfl
    | some base =>
      have hbase := rvaToOff_lt hctx.small hbase
      dsimp only
      rw [rdAt_eq (by omega), ok_bind]
      cases hfuncs : rdNumber 4 bytes (base + 0x14) with
      | none =>
        simp only [hfuncs, Option.bind_eq_bind, Option.bind_some, Option.bind_none]
        rfl
      | some numFuncs =>
        dsimp only
        rw [rdAt_eq (by omega), ok_bind, rdAt_eq (by omega), ok_bind, rdAt_eq (by omega), ok_bind,
          rdAt_eq (by omega), ok_bind]
        simp only [hfuncs, Option.bind_eq_bind, Option.bind_some]
        cases hnames : rvaToOff ctx.segments ((rdNumber 4 bytes (base + 0x20)).getD 0) with
        | none => rfl
        | some namesOff =>
          cases hords : rvaToOff ctx.segments ((rdNumber 4 bytes (base + 0x24)).getD 0) with
          | none => rfl
          | some ordsOff =>
            refine gather_eq fun i _ hi ↦ exportAt_eq hbytes (rvaToOff_lt hctx.small hnames)
              (rvaToOff_lt hctx.small hords) (fun eat heat ↦ rvaToOff_lt hctx.small heat)
              (Nat.min_le_right _ _) ?_
            omega

theorem parseTls_eq (hctx : ctx.Read) :
    parseTls bytes ctx = .ok ((callbackTable bytes ctx).elim [] fun table ↦
      rounds (fun i ↦ (thunk? bytes ctx.ptrSize table i).map fun va ↦ [toRva ctx.base va])
        4096 0) := by
  rw [parseTls, index_dirs hctx (by decide), ok_bind, callbackTable]
  dsimp only
  generalize ctx.dirs[dirTls]?.getD {} = dir
  by_cases hdir : dir.rva = 0 ∨ dir.size = 0
  · rw [if_pos hdir, if_pos hdir]
    rfl
  · rw [if_neg hdir, if_neg hdir]
    cases hoff : rvaToOff ctx.segments dir.rva with
    | none => rfl
    | some off =>
      have hlt := rvaToOff_lt hctx.small hoff
      have hfield : (if ctx.ptrSize = 8 then 0x18 else 0x0C) ≤ 0x18 := by
        split_ifs <;> omega
      dsimp only
      rw [rdAt_eq (by omega), ok_bind]
      simp only [Option.bind_eq_bind, Option.bind_some]
      cases rdNumber ctx.ptrSize bytes (off + if ctx.ptrSize = 8 then 0x18 else 0x0C) with
      | none => rfl
      | some va =>
        rw [Option.getD_some, Option.filter_some]
        by_cases hva : va = 0
        · rw [if_pos hva, if_neg (by simpa using hva)]
          rfl
        · rw [if_neg hva, if_pos (by simpa using hva), Option.bind_some]
          cases htable : rvaToOff ctx.segments (toRva ctx.base va) with
          | none => rfl
          | some table =>
            have htable := rvaToOff_lt hctx.small htable
            dsimp only [Option.elim_some]
            refine gather_eq fun i _ hi ↦ ?_
            have hmul : i * ctx.ptrSize ≤ 4096 * 8 := Nat.mul_le_mul (by omega) hctx.ptr
            rw [callbackAt, mul_of_lt (by omega), ok_bind, rdAt_eq (by omega), ok_bind, thunk?]
            cases rdNumber ctx.ptrSize bytes (table + i * ctx.ptrSize) with
            | none => rfl
            | some va =>
              dsimp only
              rw [Option.filter_some]
              by_cases hva : va = 0
              · rw [if_pos hva, if_neg (by simpa using hva)]
                rfl
              · rw [if_neg hva, if_pos (by simpa using hva)]
                rfl

/-! ### What is found -/

/-- The symbol is an import: in a table of a descriptor before the empty one, there is a number for
it before the zero. -/
def Imported (bytes : List UInt8) (ctx : PeCtx) (s : Symbol) : Prop :=
  ∃ start, importStart ctx = some start ∧ ∃ d < 4096,
    (∀ e ≤ d, ¬(descAt bytes (start + 20 * e)).IsNull) ∧
      ∃ table, rvaToOff ctx.segments (descAt bytes (start + 20 * d)).thunks = some table ∧
        ∃ i < 200000, (∀ j < i, (thunk? bytes ctx.ptrSize table j).isSome = true) ∧
          ∃ t, thunk? bytes ctx.ptrSize table i = some t ∧
            importName bytes ctx.segments ctx.ptrSize t = some s.name ∧
              s.rva = satAdd (descAt bytes (start + 20 * d)).iat (i * ctx.ptrSize) ∧
                s.owner = dllName bytes ctx.segments (descAt bytes (start + 20 * d))

/-- The symbol is an export: there is a name with an ordinal for it, and the address with this
ordinal is in the file. -/
def Exported (bytes : List UInt8) (ctx : PeCtx) (s : Symbol) : Prop :=
  ∃ t n, exportTable bytes ctx = some (t, n) ∧ ∃ i < n,
    (∀ j < i, (rdNumber 4 bytes (t.namesOff + j * 4)).isSome = true ∧
      (rdNumber 2 bytes (t.ordsOff + j * 2)).isSome = true) ∧
      ∃ namePtr ord, rdNumber 4 bytes (t.namesOff + i * 4) = some namePtr ∧
        rdNumber 2 bytes (t.ordsOff + i * 2) = some ord ∧ ord < t.numFuncs ∧
          strAtRva bytes ctx.segments namePtr = some s.name ∧ s.name ≠ "" ∧
            s.rva = funcRvaAt bytes t ord ∧ s.rva ≠ 0 ∧ ¬(t.fwdLo ≤ s.rva ∧ s.rva < t.fwdHi) ∧
              s.owner = none

/-- A function that is called before the entry. -/
def Callback (bytes : List UInt8) (ctx : PeCtx) (rva : ℕ) : Prop :=
  ∃ table, callbackTable bytes ctx = some table ∧ ∃ i < 4096,
    (∀ j < i, (thunk? bytes ctx.ptrSize table j).isSome = true) ∧
      ∃ va, thunk? bytes ctx.ptrSize table i = some va ∧ rva = toRva ctx.base va

theorem isSome_importsOf {start : ℕ} : (importsOf bytes segments ptr start d).isSome = true ↔
    ¬(descAt bytes (start + 20 * d)).IsNull := by
  rw [importsOf]
  split_ifs with hnull
  · exact iff_of_false Bool.false_ne_true (not_not.2 hnull)
  · refine iff_of_true ?_ hnull
    split <;> rfl

theorem isSome_importsAt {dll : Option String} :
    (importsAt bytes segments ptr iat off dll i).isSome = (thunk? bytes ptr off i).isSome :=
  Option.isSome_map

theorem mem_importsAt {dll : Option String} {s : Symbol} :
    (∃ l, importsAt bytes segments ptr iat off dll i = some l ∧ s ∈ l) ↔
      ∃ t, thunk? bytes ptr off i = some t ∧ importName bytes segments ptr t = some s.name ∧
        s.rva = satAdd iat (i * ptr) ∧ s.owner = dll := by
  rw [importsAt]
  cases thunk? bytes ptr off i with
  | none => simp
  | some t =>
    simp only [Option.map_some, Option.some.injEq, exists_eq_left', Option.mem_toList,
      Option.map_eq_some_iff]
    constructor
    · rintro ⟨name, hname, rfl⟩
      exact ⟨hname, rfl, rfl⟩
    · rintro ⟨hname, hrva, howner⟩
      refine ⟨s.name, hname, ?_⟩
      rw [← hrva, ← howner]

theorem mem_imports {s : Symbol} : s ∈ ((importStart ctx).elim [] fun start ↦
    rounds (importsOf bytes ctx.segments ctx.ptrSize start) 4096 0) ↔ Imported bytes ctx s := by
  unfold Imported
  cases importStart ctx with
  | none => simp
  | some start =>
    simp only [Option.elim_some, Option.some.injEq, exists_eq_left', mem_rounds, Nat.zero_le,
      true_and, Nat.zero_add, forall_const, isSome_importsOf]
    refine exists_congr fun d ↦ and_congr_right fun hd ↦ ?_
    constructor
    · rintro ⟨hall, l, hl, hs⟩
      rw [importsOf] at hl
      split_ifs at hl with hnull
      have hnulls : ∀ e ≤ d, ¬(descAt bytes (start + 20 * e)).IsNull := fun e he ↦ by
        rcases Nat.lt_or_eq_of_le he with he | rfl
        · exact hall e he
        · exact hnull
      refine ⟨hnulls, ?_⟩
      cases htable : rvaToOff ctx.segments (descAt bytes (start + 20 * d)).thunks with
      | none =>
        rw [htable] at hl
        obtain rfl := Option.some.inj hl
        exact absurd hs List.not_mem_nil
      | some table =>
        rw [htable] at hl
        obtain rfl := Option.some.inj hl
        obtain ⟨i, -, hi, hlive, hs⟩ := mem_rounds.1 hs
        simp only [isSome_importsAt] at hlive
        exact ⟨table, rfl, i, by omega, fun j hj ↦ hlive j (Nat.zero_le j) hj,
          mem_importsAt.1 hs⟩
    · rintro ⟨hnulls, table, htable, i, hi, hlive, hs⟩
      let desc := descAt bytes (start + 20 * d)
      have hmem : s ∈ rounds (importsAt bytes ctx.segments ctx.ptrSize desc.iat table
          (dllName bytes ctx.segments desc)) 200000 0 :=
        mem_rounds.2 ⟨i, Nat.zero_le i, by omega, fun j _ hj ↦
          isSome_importsAt.trans (hlive j hj), mem_importsAt.2 hs⟩
      refine ⟨fun e he ↦ hnulls e he.le, _, ?_, hmem⟩
      rw [importsOf, if_neg (hnulls d le_rfl), htable]

theorem mem_exports {s : Symbol} : s ∈ ((exportTable bytes ctx).elim [] fun t ↦
    rounds (exportsOf bytes ctx.segments t.1) t.2 0) ↔ Exported bytes ctx s := by
  unfold Exported
  cases exportTable bytes ctx with
  | none => simp
  | some p =>
    obtain ⟨t, n⟩ := p
    have hsome (j : ℕ) : (exportsOf bytes ctx.segments t j).isSome = true ↔
        (rdNumber 4 bytes (t.namesOff + j * 4)).isSome = true ∧
          (rdNumber 2 bytes (t.ordsOff + j * 2)).isSome = true := by
      rw [exportsOf]
      cases rdNumber 4 bytes (t.namesOff + j * 4) <;> simp
    simp only [Option.elim_some, Option.some.injEq, Prod.mk.injEq, mem_rounds, Nat.zero_le,
      true_and, Nat.zero_add, forall_const, hsome]
    constructor
    · rintro ⟨i, hi, hall, l, hl, hs⟩
      refine ⟨t, n, ⟨rfl, rfl⟩, i, hi, hall, ?_⟩
      rw [exportsOf] at hl
      obtain ⟨namePtr, hname, hl⟩ := Option.bind_eq_some_iff.1 hl
      obtain ⟨ord, hord, rfl⟩ := Option.map_eq_some_iff.1 hl
      dsimp only at hs
      split_ifs at hs with hskip
      · exact absurd hs List.not_mem_nil
      · rw [not_or, not_or] at hskip
        obtain ⟨name, hstr, rfl⟩ := Option.map_eq_some_iff.1 (Option.mem_toList.1 hs)
        obtain ⟨hstr, hne⟩ := Option.filter_eq_some_iff.1 hstr
        exact ⟨namePtr, ord, hname, hord, not_le.1 hskip.1, hstr, of_decide_eq_true hne, rfl,
          hskip.2.1, hskip.2.2, rfl⟩
    · rintro ⟨t', n', ⟨rfl, rfl⟩, i, hi, hall, namePtr, ord, hname, hord, hlt, hstr, hne, hrva,
        hzero, hfwd, howner⟩
      refine ⟨i, hi, hall, [s], ?_, List.mem_singleton_self s⟩
      have hfilter : (strAtRva bytes ctx.segments namePtr).filter (· ≠ "") = some s.name :=
        Option.filter_eq_some_iff.2 ⟨hstr, decide_eq_true hne⟩
      rw [exportsOf, hname, Option.bind_some, hord, Option.map_some]
      dsimp only
      rw [← hrva, if_neg (not_or.2 ⟨not_le.2 hlt, not_or.2 ⟨hzero, hfwd⟩⟩), hfilter,
        Option.map_some, ← howner]
      rfl

theorem mem_callbacks {rva : ℕ} : rva ∈ ((callbackTable bytes ctx).elim [] fun table ↦
    rounds (fun i ↦ (thunk? bytes ctx.ptrSize table i).map fun va ↦ [toRva ctx.base va])
      4096 0) ↔ Callback bytes ctx rva := by
  unfold Callback
  cases callbackTable bytes ctx with
  | none => simp
  | some table =>
    simp only [Option.elim_some, Option.some.injEq, exists_eq_left', mem_rounds, Nat.zero_le,
      true_and, Nat.zero_add, forall_const, Option.isSome_map, Option.map_eq_some_iff]
    refine exists_congr fun i ↦ and_congr_right fun _ ↦ and_congr_right fun _ ↦ ?_
    constructor
    · rintro ⟨l, ⟨va, hva, rfl⟩, hrva⟩
      exact ⟨va, hva, List.mem_singleton.1 hrva⟩
    · rintro ⟨va, hva, rfl⟩
      exact ⟨_, ⟨va, hva, rfl⟩, List.mem_singleton_self _⟩

theorem parse_of_parseHeaders {b : Slice} (h : parseHeaders b.bytes = .ok ctx) :
    parse b = .ok (.ok (ctx.toMeta
      ((exportTable b.bytes ctx).elim [] fun t ↦ rounds (exportsOf b.bytes ctx.segments t.1) t.2 0)
      ((importStart ctx).elim [] fun start ↦
        rounds (importsOf b.bytes ctx.segments ctx.ptrSize start) 4096 0)
      ((callbackTable b.bytes ctx).elim [] fun table ↦ rounds (fun i ↦
        (thunk? b.bytes ctx.ptrSize table i).map fun va ↦ [toRva ctx.base va]) 4096 0))) := by
  have hbytes : b.bytes.length < 2 ^ 64 := b.length_lt.trans (by decide)
  have hread := read_of_parseHeaders h
  unfold parse
  rw [h]
  dsimp only
  rw [parseExports_eq hbytes hread, ok_bind, parseImports_eq hbytes hread, ok_bind,
    parseTls_eq hread, ok_bind]
  rfl

theorem parse_of_error {b : Slice} {e : String} (h : parseHeaders b.bytes = .error e) :
    parse b = .ok (.error e) := by
  unfold parse
  rw [h]
  rfl

theorem safe_parse (b : Slice) : Safe (parse b) := by
  cases h : parseHeaders b.bytes with
  | error e => exact ⟨_, parse_of_error h⟩
  | ok ctx => exact ⟨_, parse_of_parseHeaders h⟩

/-- A PE file is parsed or refused, as its headers are, and never faults. What is found are the
imports, the exports and the functions that are called before the entry. -/
theorem parse_tables (b : Slice) :
    match parseHeaders b.bytes with
    | .error e => parse b = .ok (.error e)
    | .ok ctx => ∃ m, parse b = .ok (.ok m) ∧ m.segments = ctx.segments ∧
        (∀ s, s ∈ m.imports ↔ Imported b.bytes ctx s) ∧
          (∀ s, s ∈ m.exports ↔ Exported b.bytes ctx s) ∧
            ∀ rva, rva ∈ m.tlsCallbacks ↔ Callback b.bytes ctx rva := by
  cases h : parseHeaders b.bytes with
  | error e => exact parse_of_error h
  | ok ctx =>
    exact ⟨_, parse_of_parseHeaders h, rfl, fun _ ↦ mem_imports, fun _ ↦ mem_exports,
      fun _ ↦ mem_callbacks⟩

end Pe

/-! ### All formats -/

namespace Macho

open Checked

/-- A Mach-O does not start like a file of another format. -/
theorem head_of_isMacho {b : Slice} (h : isMacho b = true) : ∃ x rest, b.bytes = x :: rest ∧
    x.toNat ≠ 0x4D ∧ x.toNat ≠ 0x7F := by
  unfold isMacho Slice.get at h
  split at h
  · next s hs =>
    split_ifs at hs with hlen
    obtain rfl := Option.some.inj hs
    rcases hb : b.bytes with _ | ⟨x0, _ | ⟨x1, _ | ⟨x2, _ | ⟨x3, rest⟩⟩⟩⟩ <;>
      rw [hb] at hlen <;> simp only [List.length_nil, List.length_cons] at hlen
    all_goals try omega
    refine ⟨x0, _, rfl, ?_⟩
    have := x0.toNat_lt
    have := x1.toNat_lt
    have := x2.toNat_lt
    have := x3.toNat_lt
    simp only [hb, ofBE, ofLE, List.drop_zero, List.take_succ_cons, List.take_zero,
      List.reverse_cons, List.reverse_nil, List.nil_append, List.cons_append, List.map_cons,
      List.map_nil, Nat.ofDigits_cons, Nat.ofDigits_nil, Nat.sub_zero, List.mem_cons,
      List.not_mem_nil, or_false, Bool.or_eq_true, decide_eq_true_eq, fatMagic, fatCigam,
      mhMagic64, mhCigam64, mhMagic32, mhCigam32] at h
    omega
  · cases h

end Macho

namespace BinParser

open Checked

/-- A file faults the parser if and only if it is an ELF file whose positions do not fit, or a
Mach-O whose entry is mapped to no address. -/
theorem safe_formats_iff (b : Slice) :
    Safe (BinaryMeta.parse Pe.parse (fun b ↦ (Macho.parse b).run) Macho.isMacho b) ↔
      (Elf.magic <+: b.bytes → ∀ h, Elf.header b = .ok h → h.Fits b) ∧
        (Macho.isMacho b = true →
          ∀ l, (Macho.load b).run = .ok (.ok l) → l.EntryFits) := by
  have hmz (h : [0x4D, 0x5A].isPrefixOf b.bytes = true) : ∃ rest, b.bytes = 0x4D :: rest := by
    obtain ⟨rest, hrest⟩ := List.isPrefixOf_iff_prefix.1 h
    exact ⟨_, hrest.symm⟩
  have helf (h : Elf.magic <+: b.bytes) : ∃ rest, b.bytes = 0x7F :: rest := by
    obtain ⟨rest, hrest⟩ := h
    exact ⟨_, hrest.symm⟩
  unfold BinaryMeta.parse
  split_ifs with h1 h2 h3
  · obtain ⟨rest, hrest⟩ := hmz h1
    refine iff_of_true (Pe.safe_parse b) ⟨fun h ↦ ?_, fun h ↦ ?_⟩
    · obtain ⟨rest', hrest'⟩ := helf h
      rw [hrest] at hrest'
      cases hrest'
    · obtain ⟨x, rest', hrest', hx, -⟩ := Macho.head_of_isMacho h
      obtain ⟨rfl, -⟩ := List.cons.inj (hrest.symm.trans hrest')
      exact absurd rfl hx
  · have h2 := List.isPrefixOf_iff_prefix.1 h2
    obtain ⟨rest, hrest⟩ := helf h2
    rw [Elf.safe_elf_iff]
    refine ⟨fun h ↦ ⟨fun _ ↦ h, fun hmacho ↦ ?_⟩, fun h ↦ h.1 h2⟩
    obtain ⟨x, rest', hrest', -, hx⟩ := Macho.head_of_isMacho hmacho
    obtain ⟨rfl, -⟩ := List.cons.inj (hrest.symm.trans hrest')
    exact absurd rfl hx
  · rw [Macho.safe_macho_iff]
    exact ⟨fun h ↦ ⟨fun helf ↦ absurd (List.isPrefixOf_iff_prefix.2 helf) h2, fun _ ↦ h⟩,
      fun h ↦ h.2 h3⟩
  · exact iff_of_true (safe_ok _) ⟨fun helf ↦ absurd (List.isPrefixOf_iff_prefix.2 helf) h2,
      fun hmacho ↦ absurd hmacho h3⟩

end BinParser

end Ldu
