import Ldu.Text.Binary
import Mathlib.Logic.Function.Basic

/-!
# The file of decompiled functions

A session writes the texts of all functions it has decompiled to a file, behind the stamps of the
engine and of the binary, and loads them again when the same binary is opened. The file is written
in place, so it may be found cut off anywhere.

What is loaded is what a reader of the format finds (`loadDecompCache_eq`), so that loading never
reads outside the file. Such a reader gives back what was written and nothing for a beginning of it
(`loadDecompCache_all_or_nothing`).
-/

namespace Ldu

namespace Shell

open Checked Utf8 Binary

/-- What the file was made for: the time of the engine, the size and the time of the binary. -/
@[ext]
structure Stamp where
  engineVer : UInt64
  size : UInt64
  mtime : UInt64
  deriving DecidableEq, Repr

/-- The text of a function, by its address. -/
abbrev DecompCache := UInt64 → Option String

/-! ### Writing -/

/-- `b"DSAC"` -/
def cacheMagic : List UInt8 :=
  [0x44, 0x53, 0x41, 0x43]

def putRecord (r : UInt64 × String) : List UInt8 :=
  toLE 8 r.1.toNat ++ putText 4 r.2

/-- The file that `save_decomp_cache` writes; the functions come in some order. -/
def saveDecompCache (stamp : Stamp) (cache : List (UInt64 × String)) : List UInt8 :=
  cacheMagic ++ ([2] ++ (toLE 8 stamp.engineVer.toNat ++ (toLE 8 stamp.size.toNat ++
    (toLE 8 stamp.mtime.toNat ++ (toLE 4 cache.length ++ cache.flatMap putRecord)))))

/-! ### Loading -/

namespace DecompCache

def empty : DecompCache := fun _ ↦ none

def insert (map : DecompCache) (r : UInt64 × String) : DecompCache :=
  Function.update map r.1 (some r.2)

end DecompCache

section Load

variable (buf : List UInt8)

/-- The records from an offset on. -/
def loadRecords : ℕ → ℕ → DecompCache → Checked (Option DecompCache)
  | 0, _, map => .ok (some map)
  | count + 1, off, map => do
    if buf.length < (← add 64 off 12) then return none
    let rva ← slice buf off (← add 64 off 8)
    let off ← add 64 off 8
    let len ← slice buf off (← add 64 off 4)
    let off ← add 64 off 4
    if buf.length < (← add 64 off (ofLE len)) then return none
    let text ← slice buf off (← add 64 off (ofLE len))
    let off ← add 64 off (ofLE len)
    loadRecords count off (map.insert (UInt64.ofNat (ofLE rva), fromUtf8Lossy text))

/-- `load_decomp_cache`, from the bytes of the file and the stamps of now. -/
def loadDecompCache (stamp : Stamp) : Checked (Option DecompCache) := do
  if buf.length < 33 then return none
  if (← slice buf 0 4) ≠ cacheMagic then return none
  if (← index buf 4) ≠ 2 then return none
  let fever ← slice buf 5 13
  if ofLE fever ≠ stamp.engineVer.toNat then return none
  let fsize ← slice buf 13 21
  let fmtime ← slice buf 21 29
  if ofLE fsize ≠ stamp.size.toNat ∨ ofLE fmtime ≠ stamp.mtime.toNat then return none
  let count ← slice buf 29 33
  loadRecords buf (ofLE count) 33 .empty

end Load

/-! ### The format -/

def getRecord : Get (UInt64 × String) := do
  let rva ← getInt 8
  let text ← getText 4
  return (UInt64.ofNat rva, text)

/-- The records of a file with the stamps. -/
def getCache (stamp : Stamp) : Get (List (UInt64 × String)) := do
  let magic ← getBytes 4
  guard (magic.1 = cacheMagic)
  let ver ← getByte
  guard (ver = 2)
  let fever ← getInt 8
  guard (fever = stamp.engineVer.toNat)
  let fsize ← getInt 8
  guard (fsize = stamp.size.toNat)
  let fmtime ← getInt 8
  guard (fmtime = stamp.mtime.toNat)
  let count ← getInt 4
  getTimes getRecord count

/-- What records leave in a map. -/
def DecompCache.ofRecords (map : DecompCache) (rs : List (UInt64 × String)) : DecompCache :=
  rs.foldl DecompCache.insert map

section Format

variable {buf : List UInt8} {stamp : Stamp}

theorem getText_apply (width : ℕ) (buf : List UInt8) (p : ℕ) :
    getText width buf p = (getInt width buf p).bind fun n ↦
      if n.2 + n.1 ≤ buf.length then
        some (fromUtf8Lossy ((buf.drop n.2).take n.1), n.2 + n.1) else none := by
  rw [getText, bind_apply]
  refine congrArg _ (funext fun n ↦ ?_)
  rw [bind_apply, getBytes]
  split <;> rfl

theorem getRecord_apply (buf : List UInt8) (p : ℕ) :
    getRecord buf p =
      if p + 8 + 4 ≤ buf.length ∧
          p + 8 + 4 + ofLE ((buf.drop (p + 8)).take 4) ≤ buf.length then
        some ((UInt64.ofNat (ofLE ((buf.drop p).take 8)),
          fromUtf8Lossy ((buf.drop (p + 8 + 4)).take (ofLE ((buf.drop (p + 8)).take 4)))),
          p + 8 + 4 + ofLE ((buf.drop (p + 8)).take 4))
      else none := by
  rw [getRecord, bind_apply, getInt_apply]
  by_cases hhead : p + 8 + 4 ≤ buf.length
  · rw [if_pos (by omega), Option.bind_some, bind_apply, getText_apply, getInt_apply,
      if_pos hhead, Option.bind_some]
    by_cases htext : p + 8 + 4 + ofLE ((buf.drop (p + 8)).take 4) ≤ buf.length
    · rw [if_pos htext, if_pos ⟨hhead, htext⟩]
      rfl
    · rw [if_neg htext, if_neg fun h ↦ htext h.2]
      rfl
  · rw [if_neg fun h : _ ∧ _ ↦ hhead h.1]
    by_cases hrva : p + 8 ≤ buf.length
    · rw [if_pos hrva, Option.bind_some, bind_apply, getText_apply, getInt_apply, if_neg hhead]
      rfl
    · rw [if_neg hrva]
      rfl

/-- Loading records reads what the format has at the offset. -/
theorem loadRecords_eq (hbuf : buf.length < 2 ^ 63) (count : ℕ) {off : ℕ} (hoff : off ≤ buf.length)
    (map : DecompCache) :
    loadRecords buf count off map =
      .ok ((getTimes getRecord count buf off).map fun r ↦ map.ofRecords r.1) := by
  induction count generalizing off map with
  | zero => rfl
  | succ count ih =>
    rw [loadRecords, getTimes, bind_apply, getRecord_apply, add_of_lt (by omega), ok_bind]
    by_cases hhead : off + 8 + 4 ≤ buf.length
    · have hlen : ofLE ((buf.drop (off + 8)).take 4) < 2 ^ 32 := by
        refine (ofLE_lt _).trans_le ((Nat.pow_le_pow_right (by omega) ?_ : _ ≤ 256 ^ 4).trans ?_)
        · exact List.length_take_le _ _
        · decide
      rw [if_neg (by omega), add_of_lt (by omega), ok_bind, slice_of_le (by omega) (by omega),
        ok_bind, ok_bind, add_of_lt (by omega), ok_bind, slice_of_le (by omega) hhead, ok_bind,
        ok_bind, Nat.add_sub_cancel_left, Nat.add_sub_cancel_left, add_of_lt (by omega), ok_bind]
      by_cases htext : off + 8 + 4 + ofLE ((buf.drop (off + 8)).take 4) ≤ buf.length
      · rw [if_neg (by omega), if_pos ⟨hhead, htext⟩, Option.bind_some, ok_bind,
          slice_of_le (by omega) htext, ok_bind, ok_bind, Nat.add_sub_cancel_left, ih htext,
          bind_apply]
        cases getTimes getRecord count buf
          (off + 8 + 4 + ofLE ((buf.drop (off + 8)).take 4)) <;> rfl
      · rw [if_pos (by omega), if_neg fun h ↦ htext h.2]
        rfl
    · rw [if_pos (by omega), if_neg fun h ↦ hhead h.1]
      rfl

/-- Loading reads what the format has. -/
theorem loadDecompCache_eq (hbuf : buf.length < 2 ^ 63) :
    loadDecompCache buf stamp =
      .ok ((getCache stamp buf 0).map fun r ↦ DecompCache.empty.ofRecords r.1) := by
  rw [loadDecompCache, getCache]
  by_cases hlength : buf.length < 33
  · rw [if_pos hlength, bind_apply, getBytes]
    split
    · simp only [Option.bind_some, guard_bind_apply, getByte_bind_apply, getInt_bind_apply]
      split_ifs <;> first | rfl | omega
    · rfl
  · have hle : 33 ≤ buf.length := Nat.le_of_not_lt hlength
    rw [if_neg hlength, slice_of_le (by omega) (by omega), ok_bind,
      getBytes_bind_apply _ (by omega), guard_bind_apply]
    by_cases hmagic : (buf.drop 0).take 4 = cacheMagic
    swap
    · rw [if_pos hmagic, if_neg hmagic]
      rfl
    rw [if_neg (not_not.2 hmagic), if_pos hmagic, index_of_lt (by omega), ok_bind,
      getByte_bind_apply, dif_pos (by omega), guard_bind_apply]
    by_cases hver : buf[4] = 2
    swap
    · rw [if_pos hver, if_neg hver]
      rfl
    rw [if_neg (not_not.2 hver), if_pos hver, slice_of_le (by omega) (by omega), ok_bind,
      getInt_bind_apply, if_pos (show 0 + 4 + 1 + 8 ≤ buf.length by omega), guard_bind_apply]
    by_cases hfever : ofLE ((buf.drop 5).take 8) = stamp.engineVer.toNat
    swap
    · rw [if_pos hfever, if_neg hfever]
      rfl
    rw [if_neg (not_not.2 hfever), if_pos hfever, slice_of_le (by omega) (by omega), ok_bind,
      slice_of_le (by omega) (by omega), ok_bind, getInt_bind_apply,
      if_pos (show 0 + 4 + 1 + 8 + 8 ≤ buf.length by omega), guard_bind_apply]
    by_cases hsize : ofLE ((buf.drop 13).take 8) = stamp.size.toNat
    swap
    · rw [if_pos (.inl hsize), if_neg hsize]
      rfl
    rw [if_pos hsize, getInt_bind_apply,
      if_pos (show 0 + 4 + 1 + 8 + 8 + 8 ≤ buf.length by omega), guard_bind_apply]
    by_cases hmtime : ofLE ((buf.drop 21).take 8) = stamp.mtime.toNat
    swap
    · rw [if_pos (.inr hmtime), if_neg hmtime]
      rfl
    rw [if_neg (not_or.2 ⟨not_not.2 hsize, not_not.2 hmtime⟩), if_pos hmtime,
      slice_of_le (by omega) (by omega), ok_bind, getInt_bind_apply, if_pos (by omega)]
    exact loadRecords_eq hbuf _ hle _

theorem reads_getRecord {r : UInt64 × String} (h : (encode r.2).length < 2 ^ 32) :
    Reads getRecord (putRecord r) r := by
  have hr := (reads_getInt (n := 8) r.1.toNat_lt).bind (f := fun rva ↦ do
      let text ← getText 4
      return (UInt64.ofNat rva, text))
    ((reads_getText 4 h).map fun text ↦ (UInt64.ofNat r.1.toNat, text))
  rwa [UInt64.ofNat_toNat] at hr

/-- What is written is read back. -/
theorem reads_getCache {cache : List (UInt64 × String)} (hlength : cache.length < 2 ^ 32)
    (htexts : ∀ r ∈ cache, (encode r.2).length < 2 ^ 32) :
    Reads (getCache stamp) (saveDecompCache stamp cache) cache := by
  refine (reads_getBytes cacheMagic rfl).bind (reads_guard_bind rfl ?_)
  refine (reads_getByte 2).bind (reads_guard_bind rfl ?_)
  refine (reads_getInt stamp.engineVer.toNat_lt).bind (reads_guard_bind rfl ?_)
  refine (reads_getInt stamp.size.toNat_lt).bind (reads_guard_bind rfl ?_)
  refine (reads_getInt stamp.mtime.toNat_lt).bind (reads_guard_bind rfl ?_)
  exact (reads_getInt hlength).bind (reads_getTimes cache fun r hr ↦ reads_getRecord (htexts r hr))

theorem local_getRecord : Local getRecord :=
  (local_getInt 8).bind fun _ ↦ (local_getText 4).bind fun _ ↦ local_pure _

theorem local_getCache (stamp : Stamp) : Local (getCache stamp) :=
  (local_getBytes 4).bind fun _ ↦ (local_guard _).bind fun _ ↦ local_getByte.bind fun _ ↦
    (local_guard _).bind fun _ ↦ (local_getInt 8).bind fun _ ↦ (local_guard _).bind fun _ ↦
      (local_getInt 8).bind fun _ ↦ (local_guard _).bind fun _ ↦ (local_getInt 8).bind fun _ ↦
        (local_guard _).bind fun _ ↦ (local_getInt 4).bind fun _ ↦ local_getRecord.getTimes _

/-- A file with records has the stamps that it was read with. -/
theorem stamp_of_getCache {r : List (UInt64 × String) × ℕ} (h : getCache stamp buf 0 = some r) :
    ofLE ((buf.drop 5).take 8) = stamp.engineVer.toNat ∧
      ofLE ((buf.drop 13).take 8) = stamp.size.toNat ∧
        ofLE ((buf.drop 21).take 8) = stamp.mtime.toNat := by
  rw [getCache, bind_apply, getBytes] at h
  split at h
  · simp only [Option.bind_some, guard_bind_apply, getByte_bind_apply, getInt_bind_apply] at h
    split_ifs at h with _ _ _ _ hfever _ hsize _ hmtime _
    exact ⟨hfever, hsize, hmtime⟩
  · cases h

theorem ofRecords_of_notMem {cache : List (UInt64 × String)} {rva : UInt64} (map : DecompCache)
    (h : rva ∉ cache.map Prod.fst) : map.ofRecords cache rva = map rva := by
  induction cache generalizing map with
  | nil => rfl
  | cons r cache ih =>
    rw [List.map_cons, List.mem_cons, not_or] at h
    exact (ih (map.insert r) h.2).trans (Function.update_of_ne h.1 _ _)

theorem ofRecords_of_mem {cache : List (UInt64 × String)} {r : UInt64 × String} (map : DecompCache)
    (hnodup : (cache.map Prod.fst).Nodup) (h : r ∈ cache) :
    map.ofRecords cache r.1 = some r.2 := by
  induction cache generalizing map with
  | nil => exact absurd h List.not_mem_nil
  | cons r' cache ih =>
    rw [List.map_cons, List.nodup_cons] at hnodup
    rcases List.mem_cons.1 h with rfl | h
    · exact (ofRecords_of_notMem (map.insert r) hnodup.1).trans (Function.update_self _ _ _)
    · exact ih (map.insert r') hnodup.2 h

/-- The map with given texts, whatever the order they come in. -/
theorem ofRecords_eq {cache : List (UInt64 × String)} {map : DecompCache}
    (hnodup : (cache.map Prod.fst).Nodup)
    (hmap : ∀ rva text, map rva = some text ↔ (rva, text) ∈ cache) :
    DecompCache.empty.ofRecords cache = map := by
  funext rva
  cases hrva : map rva with
  | some text => exact ofRecords_of_mem _ hnodup ((hmap rva text).1 hrva)
  | none =>
    refine ofRecords_of_notMem _ fun hmem ↦ ?_
    obtain ⟨⟨_, text⟩, hr, rfl⟩ := List.mem_map.1 hmem
    exact absurd (hrva.symm.trans ((hmap _ text).2 hr)) nofun

end Format

/-- A file gives back the map it was written from. No beginning of it is read as a map, nor is it
with other stamps, and loading never reads outside a file. -/
theorem loadDecompCache_all_or_nothing (stamp : Stamp) {cache : List (UInt64 × String)}
    {map : DecompCache} (hnodup : (cache.map Prod.fst).Nodup)
    (hmap : ∀ rva text, map rva = some text ↔ (rva, text) ∈ cache)
    (hlength : cache.length < 2 ^ 32) (htexts : ∀ r ∈ cache, (encode r.2).length < 2 ^ 32)
    (hfits : (saveDecompCache stamp cache).length < 2 ^ 63) :
    loadDecompCache (saveDecompCache stamp cache) stamp = .ok (some map) ∧
      (∀ buf, buf <+: saveDecompCache stamp cache → buf ≠ saveDecompCache stamp cache →
        loadDecompCache buf stamp = .ok none) ∧
      (∀ stamp', stamp' ≠ stamp →
        loadDecompCache (saveDecompCache stamp cache) stamp' = .ok none) ∧
      ∀ buf stamp', buf.length < 2 ^ 63 → Safe (loadDecompCache buf stamp') := by
  have hreads : Reads (getCache stamp) (saveDecompCache stamp cache) cache :=
    reads_getCache hlength htexts
  have hread := hreads [] []
  rw [List.nil_append, List.append_nil, List.length_nil, Nat.zero_add] at hread
  refine ⟨?_, fun buf hbuf hne ↦ ?_, fun stamp' hstamp ↦ ?_, fun buf stamp' hbuf ↦ ?_⟩
  · rw [loadDecompCache_eq hfits, hread]
    exact congrArg (Except.ok ∘ some) (ofRecords_eq hnodup hmap)
  · rw [loadDecompCache_eq (hbuf.length_le.trans_lt hfits)]
    cases hcut : getCache stamp buf 0 with
    | none => rfl
    | some r => exact absurd (hreads.eq_of_prefix (local_getCache stamp) hbuf hcut) hne
  · rw [loadDecompCache_eq hfits]
    cases hother : getCache stamp' (saveDecompCache stamp cache) 0 with
    | none => rfl
    | some r =>
      obtain ⟨hfever, hsize, hmtime⟩ := stamp_of_getCache hread
      obtain ⟨hfever', hsize', hmtime'⟩ := stamp_of_getCache hother
      have hver := UInt64.toNat_inj.1 (hfever'.symm.trans hfever)
      have hs := UInt64.toNat_inj.1 (hsize'.symm.trans hsize)
      have hm := UInt64.toNat_inj.1 (hmtime'.symm.trans hmtime)
      exact absurd (Stamp.ext hver hs hm) hstamp
  · rw [loadDecompCache_eq hbuf]
    exact safe_ok _

/-- Two functions, the second one without a text. -/
theorem loadDecompCache_two : ∃ map : DecompCache, map 0x1000 = some "int f(void)" ∧
    loadDecompCache (saveDecompCache ⟨7, 4096, 9⟩ [(0x1000, "int f(void)"), (0x1040, "")])
      ⟨7, 4096, 9⟩ = .ok (some map) := by
  let map : DecompCache := fun rva ↦
    if rva = 0x1000 then some "int f(void)" else if rva = 0x1040 then some "" else none
  have hmap : ∀ rva text, map rva = some text ↔
      (rva, text) ∈ [((0x1000 : UInt64), "int f(void)"), (0x1040, "")] := fun rva text ↦ by
    simp only [map, List.mem_cons, Prod.mk.injEq, List.not_mem_nil, or_false]
    split
    · next h => subst h; simp [eq_comm]
    · split
      · next h => subst h; simp [eq_comm]
      · next h h' => simp [h, h']
  exact ⟨map, rfl, (loadDecompCache_all_or_nothing ⟨7, 4096, 9⟩ (by decide) hmap (by decide)
    (by decide +kernel) (by decide +kernel)).1⟩

end Shell

end Ldu
