import Ldu.Arith.Tiling
import Ldu.Listing.Engine
import Mathlib.Data.List.Induction

/-!
# The rows of the listing

The window shows an image as rows: a banner for each segment, a row for each instruction, with a
banner before it where a function starts, and rows of at most 16 bytes where no instruction starts.
`buildListing` walks through each segment: from an instruction to the first byte behind it, and from
a byte at which no instruction starts to the next one where one does.

The ordered maps of the source are lists of entries here, the latest first.
-/

namespace Ldu

namespace Shell

open Listing (Insn Segment Func)

/-- A row: the number of a segment, of a function or of an instruction, or a run of bytes. -/
inductive Row
  | seg (i : ℕ)
  | func (i : ℕ)
  | insn (i : ℕ)
  | data (rva len : ℕ)
  deriving DecidableEq, Repr

/-- `u64::saturating_add` -/
def satAdd (a b : ℕ) : ℕ :=
  min (a + b) (2 ^ 64 - 1)

theorem satAdd_of_lt {a b : ℕ} (h : a + b < 2 ^ 64) : satAdd a b = a + b :=
  min_eq_left (by omega)

/-! ### Where instructions start -/

/-- The number of bytes of an instruction, as the engine hands it over, and at least one. -/
def insnLen (i : Insn) : ℕ :=
  max (min i.size 16) 1

/-- For an address the number and the length of the instruction there. -/
abbrev InsnMap := List (ℕ × ℕ × ℕ)

/-- The instructions from number `start` on, at most `count`, `disasm_range`. -/
def disasmRange (insns : List Insn) (start count : ℕ) : List Insn :=
  (insns.drop start).take count

/-- Enter a window of instructions, the first of which has number `idx`. -/
def insertBatch (batch : List Insn) (idx : ℕ) (m : InsnMap) : InsnMap :=
  (batch.zipIdx idx).foldl (fun m p ↦ (p.1.rva, p.2, insnLen p.1) :: m) m

/-- Enter the instructions from number `idx` on, in windows of 4096. -/
def loadInsns (insns : List Insn) : ℕ → ℕ → InsnMap → InsnMap
  | 0, _, m => m
  | fuel + 1, idx, m =>
    if insns.length ≤ idx then m
    else
      let take := min 4096 (insns.length - idx)
      let batch := disasmRange insns idx take
      if batch = [] then m
      else
        let m := insertBatch batch idx m
        if batch.length < take then m else loadInsns insns fuel (idx + batch.length) m

/-- The first address in the map from `lo` to before `hi`. -/
def firstIn (m : InsnMap) (lo hi : ℕ) : Option ℕ :=
  ((m.map Prod.fst).filter fun r ↦ lo ≤ r && r < hi).min?

/-! ### The walk -/

section Walk

variable (insnAt : InsnMap) (funcByRva : List (ℕ × ℕ)) (segEnd : ℕ)

/-- Rows of at most 16 bytes from `d` to `gapEnd`, each with its address. -/
def dataRows (gapEnd : ℕ) : ℕ → ℕ → List (Row × ℕ)
  | 0, _ => []
  | fuel + 1, d =>
    if gapEnd ≤ d then []
    else
      let len := min 16 (gapEnd - d)
      (.data d len, d) :: dataRows gapEnd fuel (satAdd d len)

/-- The banner of a function that starts at the address. -/
def funcRow (rva : ℕ) : List (Row × ℕ) :=
  match funcByRva.lookup rva with
  | some fi => [(.func fi, rva)]
  | none => []

/-- The rows of a segment from the cursor on, each with its address. -/
def walk : ℕ → ℕ → List (Row × ℕ)
  | 0, _ => []
  | fuel + 1, cursor =>
    if segEnd ≤ cursor then []
    else
      match insnAt.lookup cursor with
      | some (ii, len) =>
        let next := satAdd cursor (max len 1)
        funcRow funcByRva cursor ++
          (.insn ii, cursor) :: walk fuel (max (min next segEnd) (satAdd cursor 1))
      | none =>
        let nextInsn := (firstIn insnAt (satAdd cursor 1) segEnd).getD segEnd
        let gapEnd := min nextInsn segEnd
        dataRows gapEnd (gapEnd - cursor) cursor ++ walk fuel (max gapEnd (satAdd cursor 1))

end Walk

/-! ### The listing -/

/-- The rows so far, and for an address the number of the first row there. -/
structure View where
  rows : List Row := []
  rvaIndex : List (ℕ × ℕ) := []

/-- `push_row` -/
def View.pushRow (v : View) (p : Row × ℕ) : View where
  rows := v.rows ++ [p.1]
  rvaIndex :=
    if (v.rvaIndex.lookup p.2).isSome then v.rvaIndex else (p.2, v.rows.length) :: v.rvaIndex

section Build

variable (insns : List Insn) (segs : List Segment) (funcs : List Func)

/-- The instructions by address; of several at an address the last one counts. -/
def insnMap : InsnMap :=
  loadInsns insns insns.length 0 []

/-- The functions by address; of several at an address the last one counts. -/
def funcMap : List (ℕ × ℕ) :=
  funcs.zipIdx.foldl (fun m p ↦ (p.1.rva, p.2) :: m) []

/-- The segments with their numbers, by address. -/
def segOrder : List (Segment × ℕ) :=
  segs.zipIdx.mergeSort fun p q ↦ p.1.rva ≤ q.1.rva

/-- Where the image ends. -/
def imageLen : ℕ :=
  (segs.map fun s ↦ satAdd s.rva s.size).max?.getD 0

/-- The rows of a segment, each with its address. -/
def segmentRows (p : Segment × ℕ) : List (Row × ℕ) :=
  let segRva := p.1.rva
  let segEnd := min (satAdd segRva p.1.size) (max (imageLen segs) segRva)
  (.seg p.2, segRva) ::
    if segEnd ≤ segRva then []
    else walk (insnMap insns) (funcMap funcs) segEnd (segEnd - segRva) segRva

/-- The rows of the image, `build_listing`. -/
def buildListing : View :=
  ((segOrder segs).flatMap (segmentRows insns segs funcs)).foldl View.pushRow {}

end Build

/-! ### The maps -/

section Maps

variable {insns : List Insn} {m : InsnMap}

theorem foldl_cons_eq {α β : Type*} (f : β → α) (l : List β) (m : List α) :
    l.foldl (fun m b ↦ f b :: m) m = (l.map f).reverse ++ m := by
  induction l generalizing m with
  | nil => rfl
  | cons b l ih =>
    rw [List.foldl_cons, ih, List.map_cons, List.reverse_cons, List.append_assoc]
    rfl

/-- The entries of the instructions that follow, with numbers from `idx` on. -/
def entries (insns : List Insn) (idx : ℕ) : InsnMap :=
  ((insns.zipIdx idx).map fun p ↦ (p.1.rva, p.2, insnLen p.1)).reverse

theorem insertBatch_eq (batch : List Insn) (idx : ℕ) (m : InsnMap) :
    insertBatch batch idx m = entries batch idx ++ m :=
  foldl_cons_eq _ _ _

theorem entries_append (l l' : List Insn) (idx : ℕ) :
    entries (l ++ l') idx = entries l' (idx + l.length) ++ entries l idx := by
  rw [entries, List.zipIdx_append, List.map_append, List.reverse_append]
  rfl

/-- The windows enter every instruction. -/
theorem loadInsns_eq {fuel idx : ℕ} (hfuel : insns.length ≤ idx + fuel) :
    loadInsns insns fuel idx m = entries (insns.drop idx) idx ++ m := by
  induction fuel generalizing idx m with
  | zero =>
    rw [List.drop_of_length_le (by omega)]
    rfl
  | succ fuel ih =>
    rw [loadInsns]
    split
    · next hle =>
      rw [List.drop_of_length_le hle]
      rfl
    next hlt =>
    have htake : (disasmRange insns idx (min 4096 (insns.length - idx))).length =
        min 4096 (insns.length - idx) := by
      rw [disasmRange, List.length_take, List.length_drop]
      omega
    have hne : disasmRange insns idx (min 4096 (insns.length - idx)) ≠ [] := by
      intro h
      rw [h, List.length_nil] at htake
      omega
    rw [if_neg hne, if_neg (by omega), insertBatch_eq, ih (by omega), ← List.append_assoc, htake]
    congr 1
    rw [disasmRange] at htake ⊢
    conv_rhs => rw [← List.take_append_drop (min 4096 (insns.length - idx)) (insns.drop idx)]
    rw [entries_append, htake, List.drop_drop]

theorem insnMap_eq (insns : List Insn) : insnMap insns = entries insns 0 := by
  rw [insnMap, loadInsns_eq (by omega), List.append_nil, List.drop_zero]

theorem mem_insnMap {rva ii len : ℕ} :
    (rva, ii, len) ∈ insnMap insns ↔ ∃ i, insns[ii]? = some i ∧ i.rva = rva ∧ insnLen i = len := by
  rw [insnMap_eq, entries, List.mem_reverse, List.mem_map]
  constructor
  · rintro ⟨⟨i, k⟩, hi, h⟩
    obtain ⟨rfl, rfl, rfl⟩ := by simpa using h
    exact ⟨i, List.mk_mem_zipIdx_iff_getElem?.1 hi, rfl, rfl⟩
  · rintro ⟨i, hi, rfl, rfl⟩
    exact ⟨(i, ii), List.mk_mem_zipIdx_iff_getElem?.2 hi, rfl⟩

/-- An instruction starts at the address. -/
def Starts (insns : List Insn) (rva : ℕ) : Prop :=
  ∃ i ∈ insns, i.rva = rva

theorem mem_keys_insnMap {rva : ℕ} : rva ∈ (insnMap insns).map Prod.fst ↔ Starts insns rva := by
  rw [List.mem_map]
  constructor
  · rintro ⟨⟨r, ii, len⟩, h, rfl⟩
    obtain ⟨i, hi, hr, -⟩ := mem_insnMap.1 h
    exact ⟨i, List.mem_of_getElem? hi, hr⟩
  · rintro ⟨i, hi, rfl⟩
    obtain ⟨ii, hii⟩ := List.mem_iff_getElem?.1 hi
    exact ⟨_, mem_insnMap.2 ⟨i, hii, rfl, rfl⟩, rfl⟩

theorem of_lookup_insnMap {rva ii len : ℕ} (h : (insnMap insns).lookup rva = some (ii, len)) :
    ∃ i, insns[ii]? = some i ∧ i.rva = rva ∧ insnLen i = len := by
  obtain ⟨l₁, l₂, h, -⟩ := List.lookup_eq_some_iff.1 h
  exact mem_insnMap.1 (h ▸ List.mem_append_right _ (List.mem_cons_self ..))

theorem not_starts_of_lookup {rva : ℕ} (h : (insnMap insns).lookup rva = none) :
    ¬Starts insns rva := by
  rw [← mem_keys_insnMap, List.mem_map]
  rintro ⟨p, hp, rfl⟩
  simpa using List.lookup_eq_none_iff.1 h p hp

/-- Where the gap ends that begins before `lo`: at the first start of an instruction from `lo` to
before `hi`, if there is one. -/
def gapStop (insns : List Insn) (lo hi : ℕ) : ℕ :=
  min ((firstIn (insnMap insns) lo hi).getD hi) hi

theorem gapStop_spec (insns : List Insn) (lo hi : ℕ) (hle : lo ≤ hi) :
    lo ≤ gapStop insns lo hi ∧ gapStop insns lo hi ≤ hi ∧
      (gapStop insns lo hi < hi → Starts insns (gapStop insns lo hi)) ∧
      ∀ r, lo ≤ r → r < gapStop insns lo hi → ¬Starts insns r := by
  have hmem (r : ℕ) : r ∈ ((insnMap insns).map Prod.fst).filter (fun r ↦ lo ≤ r && r < hi) ↔
      Starts insns r ∧ lo ≤ r ∧ r < hi := by
    rw [List.mem_filter, mem_keys_insnMap]
    simp
  unfold gapStop firstIn
  cases h : (((insnMap insns).map Prod.fst).filter fun r ↦ lo ≤ r && r < hi).min? with
  | none =>
    rw [List.min?_eq_none_iff] at h
    refine ⟨by simpa using hle, by simp, by simp, fun r hlo hlt hr ↦ ?_⟩
    have hin := (hmem r).2 ⟨hr, hlo, by simpa using hlt⟩
    rw [h] at hin
    cases hin
  | some n =>
    obtain ⟨hn, hmin⟩ := List.min?_eq_some_iff.1 h
    obtain ⟨hstarts, hlo, hlt⟩ := (hmem n).1 hn
    rw [Option.getD_some, min_eq_left hlt.le]
    refine ⟨hlo, hlt.le, fun _ ↦ hstarts, fun r hlo' hlt' hr ↦ ?_⟩
    exact absurd (hmin r ((hmem r).2 ⟨hr, hlo', hlt'.trans hlt⟩)) (not_le.2 hlt')

end Maps

/-! ### The rows tile each segment -/

/-- The addresses that a row shows, in a segment that ends at `stop`; a banner shows none. -/
def Row.extent (insns : List Insn) (stop : ℕ) : Row → Option (ℕ × ℕ)
  | .insn k => insns[k]?.map fun i ↦ (i.rva, min (i.rva + insnLen i) stop)
  | .data rva len => some (rva, rva + len)
  | _ => none

/-- A run of at most 16 bytes in which no instruction starts. -/
def Row.Plain (insns : List Insn) : Row → Prop
  | .data rva len => 1 ≤ len ∧ len ≤ 16 ∧ ∀ a, rva ≤ a → a < rva + len → ¬Starts insns a
  | _ => True

section Tile

variable {insns : List Insn} {funcByRva : List (ℕ × ℕ)} {stop : ℕ}

theorem dataRows_succ {gapEnd fuel d : ℕ} (h64 : gapEnd < 2 ^ 64) (hd : d < gapEnd) :
    dataRows gapEnd (fuel + 1) d = (.data d (min 16 (gapEnd - d)), d) ::
      dataRows gapEnd fuel (d + min 16 (gapEnd - d)) := by
  rw [dataRows, if_neg (not_le.2 hd)]
  simp only
  rw [satAdd_of_lt (by omega)]

theorem mem_dataRows {gapEnd fuel d : ℕ} {p : Row × ℕ} (h64 : gapEnd < 2 ^ 64)
    (hp : p ∈ dataRows gapEnd fuel d) :
    ∃ rva len, p = (.data rva len, rva) ∧ 1 ≤ len ∧ len ≤ 16 ∧ d ≤ rva ∧ rva + len ≤ gapEnd := by
  induction fuel generalizing d with
  | zero => cases hp
  | succ fuel ih =>
    rcases le_or_gt gapEnd d with hle | hlt
    · rw [dataRows, if_pos hle] at hp
      cases hp
    rw [dataRows_succ h64 hlt, List.mem_cons] at hp
    rcases hp with rfl | hp
    · exact ⟨_, _, rfl, by omega, by omega, le_rfl, by omega⟩
    · obtain ⟨rva, len, rfl, hpos, hle, hd, hstop⟩ := ih hp
      exact ⟨rva, len, rfl, hpos, hle, by omega, hstop⟩

theorem tiles_dataRows {gapEnd fuel d : ℕ} (h64 : gapEnd < 2 ^ 64) (hd : d ≤ gapEnd)
    (hfuel : gapEnd ≤ d + fuel) :
    Tiles d gapEnd ((dataRows gapEnd fuel d).filterMap fun p ↦ p.1.extent insns stop) := by
  induction fuel generalizing d with
  | zero => exact (by omega : d = gapEnd)
  | succ fuel ih =>
    rcases hd.eq_or_lt with rfl | hlt
    · rw [dataRows, if_pos le_rfl]
      exact rfl
    · rw [dataRows_succ h64 hlt]
      exact ⟨rfl, by simp only; omega, ih (by omega) (by omega)⟩

theorem funcRow_eq (funcByRva : List (ℕ × ℕ)) (rva : ℕ) :
    funcRow funcByRva rva = [] ∨ ∃ fi, funcRow funcByRva rva = [(.func fi, rva)] := by
  unfold funcRow
  split
  · exact .inr ⟨_, rfl⟩
  · exact .inl rfl

/-- One step of the walk: from an instruction to the first byte behind it, or over a gap. -/
theorem walk_succ (insns : List Insn) (funcByRva : List (ℕ × ℕ)) (fuel : ℕ) {cursor : ℕ}
    (h64 : stop < 2 ^ 64) (hcursor : cursor < stop) :
    (∃ ii i, (insnMap insns).lookup cursor = some (ii, insnLen i) ∧ insns[ii]? = some i ∧
      i.rva = cursor ∧ walk (insnMap insns) funcByRva stop (fuel + 1) cursor =
        funcRow funcByRva cursor ++ (.insn ii, cursor) ::
          walk (insnMap insns) funcByRva stop fuel (min (cursor + insnLen i) stop)) ∨
    ¬Starts insns cursor ∧ ∃ gapEnd, cursor < gapEnd ∧ gapEnd ≤ stop ∧
      (gapEnd < stop → Starts insns gapEnd) ∧
      (∀ r, cursor ≤ r → r < gapEnd → ¬Starts insns r) ∧
      walk (insnMap insns) funcByRva stop (fuel + 1) cursor =
        dataRows gapEnd (gapEnd - cursor) cursor ++
          walk (insnMap insns) funcByRva stop fuel gapEnd := by
  rw [walk, if_neg (not_le.2 hcursor)]
  have hsucc : satAdd cursor 1 = cursor + 1 := satAdd_of_lt (by omega)
  cases hget : (insnMap insns).lookup cursor with
  | some p =>
    obtain ⟨ii, len⟩ := p
    obtain ⟨i, hi, hrva, rfl⟩ := of_lookup_insnMap hget
    refine .inl ⟨ii, i, rfl, hi, hrva, ?_⟩
    have hpos : 1 ≤ insnLen i := le_max_right _ _
    have hlen : insnLen i ≤ 16 := by unfold insnLen; omega
    have hnext : max (min (satAdd cursor (max (insnLen i) 1)) stop) (satAdd cursor 1) =
        min (cursor + insnLen i) stop := by
      rw [hsucc, max_eq_left hpos, satAdd]
      omega
    simp only [hnext]
  | none =>
    obtain ⟨hlo, hhi, hstarts, hnone⟩ := gapStop_spec insns (cursor + 1) stop hcursor
    refine .inr ⟨not_starts_of_lookup hget, gapStop insns (cursor + 1) stop, hlo, hhi, hstarts,
      fun r hle hlt ↦ ?_, ?_⟩
    · rcases hle.eq_or_lt with rfl | hlt'
      · exact not_starts_of_lookup hget
      · exact hnone r hlt' hlt
    · simp only [hsucc]
      change _ ++ walk _ _ _ _ (max (gapStop insns (cursor + 1) stop) (cursor + 1)) = _
      rw [max_eq_left hlo]
      rfl

/-- The rows from the cursor on tile the rest of the segment. -/
theorem tiles_walk (insns : List Insn) (funcByRva : List (ℕ × ℕ)) {fuel cursor : ℕ}
    (h64 : stop < 2 ^ 64) (hcursor : cursor ≤ stop)
    (hfuel : stop ≤ cursor + fuel) :
    Tiles cursor stop ((walk (insnMap insns) funcByRva stop fuel cursor).filterMap
      fun p ↦ p.1.extent insns stop) := by
  induction fuel generalizing cursor with
  | zero => exact (by omega : cursor = stop)
  | succ fuel ih =>
    rcases hcursor.eq_or_lt with rfl | hlt
    · rw [walk, if_pos le_rfl]
      exact rfl
    rcases walk_succ insns funcByRva fuel h64 hlt with
      ⟨ii, i, -, hi, hrva, heq⟩ | ⟨-, gapEnd, hlt', hle, -, -, heq⟩
    · have hpos : 1 ≤ insnLen i := le_max_right _ _
      have hbanner : (funcRow funcByRva cursor).filterMap (fun p ↦ p.1.extent insns stop) = [] := by
        rcases funcRow_eq funcByRva cursor with h | ⟨fi, h⟩
        · rw [h]; rfl
        · rw [h]; rfl
      have hextent : Row.extent insns stop (.insn ii) =
          some (cursor, min (cursor + insnLen i) stop) := by
        rw [Row.extent, hi, Option.map_some, hrva]
      rw [heq, List.filterMap_append, hbanner, List.nil_append, List.filterMap_cons]
      simp only [hextent]
      exact ⟨rfl, by simp only; omega, ih (by omega) (by omega)⟩
    · rw [heq, List.filterMap_append]
      exact (tiles_dataRows (by omega) hlt'.le (by omega)).append (ih hle (by omega))

/-- The runs of bytes among the rows have no start of an instruction in them. -/
theorem plain_walk {fuel cursor : ℕ} (h64 : stop < 2 ^ 64) {p : Row × ℕ}
    (hp : p ∈ walk (insnMap insns) funcByRva stop fuel cursor) : p.1.Plain insns := by
  induction fuel generalizing cursor with
  | zero => cases hp
  | succ fuel ih =>
    rcases le_or_gt stop cursor with hle | hlt
    · rw [walk, if_pos hle] at hp
      cases hp
    rcases walk_succ insns funcByRva fuel h64 hlt with
      ⟨ii, i, -, hi, hrva, heq⟩ | ⟨-, gapEnd, hlt', hle, -, hnone, heq⟩
    · rw [heq, List.mem_append, List.mem_cons] at hp
      rcases hp with hp | rfl | hp
      · rcases funcRow_eq funcByRva cursor with h | ⟨fi, h⟩
        · rw [h] at hp
          cases hp
        · rw [h, List.mem_singleton] at hp
          subst hp
          trivial
      · trivial
      · exact ih hp
    · rw [heq, List.mem_append] at hp
      rcases hp with hp | hp
      · obtain ⟨rva, len, rfl, hpos, hlen, hd, hstop⟩ := mem_dataRows (by omega) hp
        exact ⟨hpos, hlen, fun a ha ha' ↦ hnone a (by omega) (by omega)⟩
      · exact ih hp

/-- The walk leaves no banner of a segment. -/
theorem ne_seg_of_mem_walk {fuel cursor k : ℕ} (h64 : stop < 2 ^ 64) {p : Row × ℕ}
    (hp : p ∈ walk (insnMap insns) funcByRva stop fuel cursor) : p.1 ≠ .seg k := by
  induction fuel generalizing cursor with
  | zero => cases hp
  | succ fuel ih =>
    rcases le_or_gt stop cursor with hle | hlt
    · rw [walk, if_pos hle] at hp
      cases hp
    rcases walk_succ insns funcByRva fuel h64 hlt with
      ⟨ii, i, -, hi, hrva, heq⟩ | ⟨-, gapEnd, hlt', hle, -, hnone, heq⟩
    · rw [heq, List.mem_append, List.mem_cons] at hp
      rcases hp with hp | rfl | hp
      · rcases funcRow_eq funcByRva cursor with h | ⟨fi, h⟩
        · rw [h] at hp
          cases hp
        · rw [h, List.mem_singleton] at hp
          subst hp
          simp
      · simp
      · exact ih hp
    · rw [heq, List.mem_append] at hp
      rcases hp with hp | hp
      · obtain ⟨rva, len, rfl, -⟩ := mem_dataRows (by omega) hp
        simp
      · exact ih hp

end Tile

section Segments

variable {insns : List Insn} {segs : List Segment} {funcs : List Func}

theorem rows_foldl_pushRow (ps : List (Row × ℕ)) (v : View) :
    (ps.foldl View.pushRow v).rows = v.rows ++ ps.map Prod.fst := by
  induction ps generalizing v with
  | nil => simp
  | cons p ps ih => rw [List.foldl_cons, ih, View.pushRow, List.append_assoc]; rfl

theorem rows_buildListing (insns : List Insn) (segs : List Segment) (funcs : List Func) :
    (buildListing insns segs funcs).rows =
      (segOrder segs).flatMap fun p ↦ (segmentRows insns segs funcs p).map Prod.fst := by
  rw [buildListing, rows_foldl_pushRow, List.map_flatMap]
  rfl

theorem perm_segOrder (segs : List Segment) : (segOrder segs).Perm segs.zipIdx :=
  List.mergeSort_perm _ _

theorem mem_segOrder {s : Segment} {k : ℕ} : (s, k) ∈ segOrder segs ↔ segs[k]? = some s := by
  rw [(perm_segOrder segs).mem_iff, List.mk_mem_zipIdx_iff_getElem?]

/-- The numbers in the order are different. -/
theorem nodup_segOrder (segs : List Segment) : ((segOrder segs).map Prod.snd).Nodup := by
  rw [((perm_segOrder segs).map Prod.snd).nodup_iff, List.zipIdx_map_snd]
  exact List.nodup_range'

theorem le_imageLen {s : Segment} (hs : s ∈ segs) : satAdd s.rva s.size ≤ imageLen segs := by
  rw [imageLen]
  cases hmax : (segs.map fun s ↦ satAdd s.rva s.size).max? with
  | none =>
    rw [List.max?_eq_none_iff, List.map_eq_nil_iff] at hmax
    rw [hmax] at hs
    cases hs
  | some m => exact (List.max?_eq_some_iff.1 hmax).2 _ (List.mem_map_of_mem hs)

/-- One past the last address of a segment that the listing goes to. -/
def segStop (s : Segment) : ℕ :=
  satAdd s.rva s.size

theorem segStop_lt (s : Segment) : segStop s < 2 ^ 64 := by
  unfold segStop satAdd
  omega

/-- The walk through a segment. -/
def segWalk (insns : List Insn) (funcs : List Func) (s : Segment) : List (Row × ℕ) :=
  walk (insnMap insns) (funcMap funcs) (segStop s) (segStop s - s.rva) s.rva

/-- The rows of a segment are its banner and those of the walk through it. -/
theorem segmentRows_eq {p : Segment × ℕ} (hp : p ∈ segOrder segs) :
    segmentRows insns segs funcs p = (.seg p.2, p.1.rva) :: segWalk insns funcs p.1 := by
  have hle := le_imageLen (List.mem_of_getElem? (mem_segOrder.1 hp))
  rw [segmentRows, min_eq_left (hle.trans (le_max_left _ _))]
  split
  · next hempty =>
    rw [segWalk, segStop, Nat.sub_eq_zero_of_le hempty]
    rfl
  · rfl

/-- The row is the banner of a segment. -/
def Row.isSeg : Row → Bool
  | .seg _ => true
  | _ => false

/-- The rows of segment `k`: those behind its banner, up to the next banner of a segment. -/
def rowsOf (rows : List Row) (k : ℕ) : List Row :=
  ((rows.dropWhile (· ≠ .seg k)).tail).takeWhile (!·.isSeg)

theorem rowsOf_buildListing {s : Segment} {k : ℕ} (hs : segs[k]? = some s) :
    rowsOf (buildListing insns segs funcs).rows k = (segWalk insns funcs s).map Prod.fst := by
  have heq {p : Segment × ℕ} (hp : p ∈ segOrder segs) :
      (segmentRows insns segs funcs p).map Prod.fst =
        .seg p.2 :: (segWalk insns funcs p.1).map Prod.fst := by
    rw [segmentRows_eq hp, List.map_cons]
  obtain ⟨pre, post, horder⟩ := List.append_of_mem (mem_segOrder.2 hs)
  have hnodup := nodup_segOrder segs
  rw [horder, List.map_append, List.map_cons, List.nodup_append, List.nodup_cons] at hnodup
  -- The segments before this one have other numbers, and only banners are rows of a segment.
  have hpre : ∀ r ∈ pre.flatMap fun p ↦ (segmentRows insns segs funcs p).map Prod.fst,
      decide (r ≠ .seg k) = true := by
    intro r hr
    obtain ⟨p, hp, hr⟩ := List.mem_flatMap.1 hr
    rw [heq (horder ▸ List.mem_append_left _ hp), List.mem_cons, List.mem_map] at hr
    rcases hr with rfl | ⟨q, hq, rfl⟩
    · have hne : p.2 ≠ k :=
        hnodup.2.2 p.2 (List.mem_map_of_mem hp) k (List.mem_cons_self ..)
      simpa using hne
    · exact decide_eq_true (ne_seg_of_mem_walk (segStop_lt p.1) hq)
  have hbody : ∀ r ∈ (segWalk insns funcs s).map Prod.fst, (!r.isSeg) = true := by
    intro r hr
    obtain ⟨p, hp, rfl⟩ := List.mem_map.1 hr
    cases hrow : p.1 with
    | seg j => exact absurd hrow (ne_seg_of_mem_walk (segStop_lt s) hp)
    | _ => rfl
  rw [rows_buildListing, horder, List.flatMap_append, List.flatMap_cons, rowsOf,
    List.dropWhile_append_of_pos hpre, heq (mem_segOrder.2 hs), List.cons_append,
    List.dropWhile_cons_of_neg (by simp), List.tail_cons, List.takeWhile_append_of_pos hbody]
  cases post with
  | nil => rw [List.flatMap_nil, List.takeWhile_nil, List.append_nil]
  | cons q post =>
    have hq : q ∈ segOrder segs := by rw [horder]; simp
    rw [List.flatMap_cons, heq hq, List.cons_append,
      List.takeWhile_cons_of_neg (by simp [Row.isSeg]), List.append_nil]

/-- **The rows tile each segment.** The instructions and the runs of bytes that the listing shows
for a segment follow each other from its start to its end, without a gap, so that each of its bytes
is shown exactly once; an instruction is cut off at the end of the segment. A run has between 1 and
16 bytes, and no instruction starts in it. -/
theorem buildListing_tiles (insns : List Insn) (segs : List Segment) (funcs : List Func)
    (hwrap : ∀ s ∈ segs, s.rva + s.size < 2 ^ 64) {s : Segment} {k : ℕ} (hs : segs[k]? = some s) :
    let rows := rowsOf (buildListing insns segs funcs).rows k
    let extents := rows.filterMap (Row.extent insns (s.rva + s.size))
    Tiles s.rva (s.rva + s.size) extents ∧
      (∀ a, s.rva ≤ a → a < s.rva + s.size →
        ∃! n : ℕ, ∃ p : ℕ × ℕ, extents[n]? = some p ∧ p.1 ≤ a ∧ a < p.2) ∧
      ∀ r ∈ rows, r.Plain insns := by
  have hstop : segStop s = s.rva + s.size := satAdd_of_lt (hwrap s (List.mem_of_getElem? hs))
  intro rows extents
  have hrows : rows = (segWalk insns funcs s).map Prod.fst := rowsOf_buildListing hs
  have htiles : Tiles s.rva (s.rva + s.size) extents := by
    have h := tiles_walk insns (funcMap funcs) (segStop_lt s) (by omega : s.rva ≤ segStop s)
      (by omega : segStop s ≤ s.rva + (segStop s - s.rva))
    have heq : extents =
        (segWalk insns funcs s).filterMap fun p ↦ p.1.extent insns (s.rva + s.size) := by
      simp only [extents, hrows, List.filterMap_map]
      rfl
    rwa [← segWalk, hstop, ← heq] at h
  refine ⟨htiles, fun a hlo hhi ↦ htiles.existsUnique hlo hhi, fun r hr ↦ ?_⟩
  rw [hrows, List.mem_map] at hr
  obtain ⟨p, hp, rfl⟩ := hr
  exact plain_walk (segStop_lt s) hp

/-- Two instructions that overlap, in a segment that ends within the second. -/
def overlapping : List Insn :=
  [{ rva := 4096, size := 5 }, { rva := 4098, size := 1 }, { rva := 4121, size := 4 }]

/-- A segment of 28 bytes. -/
def shortText : List Segment :=
  [{ name := ".text", rva := 4096, size := 28, exec := true }]

theorem buildListing_tiles_overlapping :
    Tiles 4096 4124 ((rowsOf (buildListing overlapping shortText []).rows 0).filterMap
      (Row.extent overlapping 4124)) :=
  (buildListing_tiles overlapping shortText [] (by decide) (rfl : shortText[0]? = some _)).1

/-- An address leads to the first row there. -/
theorem lookup_rvaIndex (ps : List (Row × ℕ)) (rva : ℕ) :
    (ps.foldl View.pushRow {}).rvaIndex.lookup rva = ps.findIdx? (·.2 = rva) := by
  induction ps using List.reverseRecOn with
  | nil => rfl
  | append_singleton ps p ih =>
    have hlen : (ps.foldl View.pushRow {}).rows.length = ps.length := by
      rw [rows_foldl_pushRow]
      simp
    rw [List.foldl_append, List.findIdx?_append, ← ih, List.foldl_cons, List.foldl_nil,
      View.pushRow]
    by_cases hrva : p.2 = rva
    · subst hrva
      cases hlookup : (ps.foldl View.pushRow {}).rvaIndex.lookup p.2 with
      | some n => simp [hlookup]
      | none => simp [hlen]
    · have hne : (rva == p.2) = false := beq_eq_false_iff_ne.2 (Ne.symm hrva)
      cases (ps.foldl View.pushRow {}).rvaIndex.lookup p.2 with
      | some n => simp [hrva]
      | none => simp [hrva, List.lookup_cons, hne]

end Segments

end Shell

end Ldu
