import Ldu.Listing.PeTables

/-!
# When the directory and the relocations are read inside the image

A read adds to an address before it compares, and the sum wraps for the last four addresses of 64
bits (`Overruns`). What comes behind something that was read is not far behind the end of the image,
so that only the first read of a table whose segment starts up there can go wrong. For the same
reason the walk over the relocations comes to an end (`safe_relocBlocks`).

The sweep compares the address of the unwind data in 32 bits, and the sum wraps for the last of
those (`safe_isChained_iff`).
-/

namespace Ldu

namespace Listing

open Checked Exits

namespace Loaded

variable (e : Loaded)

/-! ### What the image holds -/

/-- The number of four bytes at an address. -/
def u32At (rva : ℕ) : Option UInt32 :=
  if rva + 4 ≤ e.image.length then some (UInt32.ofNat (ofLE ((e.image.drop rva).take 4))) else none

/-- The record at an address. -/
def recordAt (base : ℕ) : Option RuntimeFunction := do
  let begin ← e.u32At base
  let stop ← e.u32At (base + 4)
  let unwind ← e.u32At (base + 8)
  return { begin, stop, unwind }

/-- The four bytes at an address end behind the last address of 64 bits, and from there not behind
the end of the image. -/
def Overruns (rva : ℕ) : Prop :=
  2 ^ 64 ≤ rva + 4 ∧ rva + 4 - 2 ^ 64 ≤ e.image.length

/-- There is a record at an address, and it is not the one that ends the directory. -/
def IsRecord (base : ℕ) : Prop :=
  ∃ rf, e.recordAt base = some rf ∧ rf.isZero = false

/-- The unwind data of a function that may be seeded is not at the last address of 32 bits, or that
is in the image. -/
def UnwindFits (rf : RuntimeFunction) : Prop :=
  rf.begin < rf.stop → e.rvaIsExec rf.begin.toNat = true → rf.unwind = 0xFFFFFFFF →
    2 ^ 32 ≤ e.image.length

variable {e} {n rva : ℕ}

theorem wrap64_of_lt {n : ℕ} (h : n < 2 ^ 64) : wrap64 n = n :=
  Nat.mod_eq_of_lt h

/-! ### Reading the image -/

theorem mapM_index {l : List UInt8} (hn : rva + n ≤ l.length) (h : rva + n < 2 ^ 64) :
    (List.range n).mapM (fun i ↦ index l (wrap64 (rva + i))) = .ok ((l.drop rva).take n) := by
  induction n with
  | zero => rfl
  | succ n ih =>
    have hlt : rva + n < l.length := by omega
    rw [List.range_succ, List.mapM_append, ih (by omega) (by omega), ok_bind, List.mapM_cons,
      wrap64_of_lt (by omega), index_of_lt hlt, List.take_add_one, List.getElem?_drop,
      List.getElem?_eq_getElem hlt]
    rfl

theorem rdBytes_eq (h : rva + n < 2 ^ 64) : (e.rdBytes n rva).run =
    .ok (if rva + n ≤ e.image.length then some ((e.image.drop rva).take n) else none) := by
  rw [rdBytes, run_guard_bind, wrap64_of_lt h]
  split
  · next hn =>
    rw [run_liftM, mapM_index hn h]
    rfl
  · rfl

theorem found_rdBytes (h : rva + n < 2 ^ 64) :
    Found (e.rdBytes n rva) fun _ ↦ rva + n ≤ e.image.length := by
  refine ⟨_, rdBytes_eq h, fun bs hbs ↦ ?_⟩
  split at hbs
  · assumption
  · cases hbs

theorem found_peRdU8 (h : rva + 1 < 2 ^ 64) :
    Found (e.peRdU8 rva) fun _ ↦ rva + 1 ≤ e.image.length :=
  found_bind (found_rdBytes h) fun _ hend ↦ found_pure hend

theorem found_peRdU16 (h : rva + 2 < 2 ^ 64) :
    Found (e.peRdU16 rva) fun _ ↦ rva + 2 ≤ e.image.length :=
  found_bind (found_rdBytes h) fun _ hend ↦ found_pure hend

theorem found_peRdU32 (h : rva + 4 < 2 ^ 64) :
    Found (e.peRdU32 rva) fun _ ↦ rva + 4 ≤ e.image.length :=
  found_bind (found_rdBytes h) fun _ hend ↦ found_pure hend

theorem found_rdU24 (h : rva + 3 < 2 ^ 64) :
    Found (e.rdU24 rva) fun _ ↦ rva + 3 ≤ e.image.length :=
  found_bind (found_peRdU8 (by omega)) fun _ _ ↦
    found_bind (found_peRdU8 (by omega)) fun _ _ ↦
      found_bind (found_peRdU8 (by omega)) fun _ hend ↦ found_pure hend

/-- The address behind a number is not behind the end of the image. -/
theorem found_peRdFh4uint (h : rva + 4 < 2 ^ 64) :
    Found (e.peRdFh4uint rva) fun r ↦ r.2 ≤ e.image.length := by
  refine found_bind (found_peRdU8 (by omega)) fun b hb ↦ ?_
  split_ifs
  · exact found_pure hb
  · exact found_bind (found_peRdU16 (by omega)) fun _ hw ↦ found_pure hw
  · exact found_bind (found_rdU24 (by omega)) fun _ hw ↦ found_pure hw
  · exact found_bind (found_peRdU32 h) fun _ hw ↦ found_pure hw
  · exact found_failure

/-! ### The last addresses of 64 bits -/

theorem u32At_fits {v : UInt32} (h : e.u32At rva = some v) : rva + 4 ≤ e.image.length := by
  unfold u32At at h
  split at h
  · assumption
  · cases h

/-- What is read where the sum may wrap: nothing if it does, unless the wrapped end is in the
image. -/
theorem peRdU32_eq (hrva : rva < 2 ^ 64) (h : ¬e.Overruns rva) :
    (e.peRdU32 rva).run = .ok (e.u32At rva) := by
  unfold Overruns at h
  have hlen := e.length_lt
  by_cases hlt : rva + 4 < 2 ^ 64
  · unfold u32At
    refine (run_bind_eq_ok (rdBytes_eq hlt) fun _ _ ↦ rfl).trans (congrArg _ ?_)
    split <;> rfl
  · have hwrap : wrap64 (rva + 4) = rva + 4 - 2 ^ 64 := by
      unfold wrap64
      omega
    have hnone : (e.rdBytes 4 rva).run = .ok none := by
      rw [rdBytes, run_guard_bind, hwrap, if_neg (by omega)]
    rw [u32At, if_neg (by omega)]
    exact run_bind_eq_ok hnone fun _ _ ↦ rfl

theorem peRdU32_overruns (hrva : rva < 2 ^ 64) (h : e.Overruns rva) :
    (e.peRdU32 rva).run = .error .index := by
  unfold Overruns at h
  have hlen := e.length_lt
  have hwrap : wrap64 (rva + 4) = rva + 4 - 2 ^ 64 := by
    unfold wrap64
    omega
  have hfirst : index e.image (wrap64 (rva + 0)) = .error .index := by
    unfold index
    rw [Nat.add_zero, wrap64_of_lt hrva, List.getElem?_eq_none (by omega)]
  refine run_bind_eq_error ?_
  rw [rdBytes, run_guard_bind, hwrap, if_pos h.2, run_liftM, List.range_succ_eq_map,
    List.mapM_cons, hfirst]
  rfl

theorem not_overruns_of_lt (h : rva + 4 < 2 ^ 64) : ¬e.Overruns rva := by
  unfold Overruns
  omega

/-! ### The exception directory -/

theorem recordAt_fits {rf : RuntimeFunction} (h : e.recordAt rva = some rf) :
    rva + 12 ≤ e.image.length := by
  obtain ⟨begin, -, h⟩ := Option.bind_eq_some_iff.1 h
  obtain ⟨stop, -, h⟩ := Option.bind_eq_some_iff.1 h
  obtain ⟨unwind, hunwind, -⟩ := Option.bind_eq_some_iff.1 h
  exact u32At_fits hunwind

/-- Only the first of the three numbers may be where the sum wraps. -/
theorem runtimeFunction_eq (hrva : rva < 2 ^ 64) (h : ¬e.Overruns rva) :
    (runtimeFunction e.peRdU32 rva).run = .ok (e.recordAt rva) := by
  have hlen := e.length_lt
  refine run_bind_eq_ok (peRdU32_eq hrva h) fun begin hbegin ↦ ?_
  have hfits := u32At_fits hbegin
  have hnext : ∀ k, k ≤ 8 → (e.peRdU32 (rva + k)).run = .ok (e.u32At (rva + k)) := fun k hk ↦
    peRdU32_eq (by omega) (not_overruns_of_lt (by omega))
  exact run_bind_eq_ok (hnext 4 (by omega)) fun stop _ ↦
    run_bind_eq_ok (hnext 8 le_rfl) fun unwind _ ↦ rfl

theorem runtimeFunction_overruns (hrva : rva < 2 ^ 64) (h : e.Overruns rva) :
    (runtimeFunction e.peRdU32 rva).run = .error .index :=
  run_bind_eq_error (peRdU32_overruns hrva h)

/-- A record that is read safely. -/
def Reachable (e : Loaded) (pr i : ℕ) : Prop :=
  pr + i * 12 < 2 ^ 64 ∧ ¬e.Overruns (pr + i * 12)

theorem Reachable.succ {pr i : ℕ} (hmore : e.IsRecord (pr + i * 12)) : e.Reachable pr (i + 1) := by
  obtain ⟨rf, hrf, -⟩ := hmore
  have hfits := recordAt_fits hrf
  have hlen := e.length_lt
  have hnext : pr + (i + 1) * 12 + 4 < 2 ^ 64 := by omega
  exact ⟨by omega, not_overruns_of_lt hnext⟩

theorem safe_isChained_iff {unwind : UInt32} :
    Safe (e.isChained unwind) ↔ (unwind = 0xFFFFFFFF → 2 ^ 32 ≤ e.image.length) := by
  have hlt := unwind.toNat_lt
  have hsum : (unwind + 1).toNat = (unwind.toNat + 1) % 2 ^ 32 := UInt32.toNat_add _ _
  have hmax : unwind = 0xFFFFFFFF ↔ unwind.toNat = 2 ^ 32 - 1 := UInt32.toNat_inj.symm
  rw [isChained, hmax]
  split
  · next hle =>
    rw [safe_bind]
    constructor
    · rintro ⟨vf, hvf, -⟩ hu
      by_contra hsmall
      have herror : index e.image unwind.toNat = .error .index := by
        unfold index
        rw [List.getElem?_eq_none (by omega)]
      rw [herror] at hvf
      cases hvf
    · intro h
      exact ⟨_, index_of_lt (by omega), safe_pure _⟩
  · next hle => exact ⟨fun _ hu ↦ by omega, fun _ ↦ safe_pure _⟩

theorem reachable_zero {pr : ℕ} (hpr : pr < 2 ^ 64) (h : ¬e.Overruns pr) : e.Reachable pr 0 := by
  unfold Reachable
  rw [Nat.zero_mul, Nat.add_zero]
  exact ⟨hpr, h⟩

section Directory

variable {α : Type} {take : RuntimeFunction → List α → Checked (List α)} {pr : ℕ}

theorem directoryStep_of_record {s : Directory α} {rf : RuntimeFunction}
    (h : e.Reachable pr s.i) (hrf : e.recordAt (pr + s.i * 12) = some rf)
    (hzero : rf.isZero = false) :
    directoryStep e.peRdU32 pr take s =
      take rf s.found >>= fun found ↦ .ok (some { i := s.i + 1, found }) := by
  rw [directoryStep, runtimeFunction_eq h.1 h.2, ok_bind, hrf]
  exact if_neg (Bool.eq_false_iff.1 hzero)

theorem directoryStep_of_not_isRecord {s : Directory α} (h : e.Reachable pr s.i)
    (hmore : ¬e.IsRecord (pr + s.i * 12)) :
    directoryStep e.peRdU32 pr take s = .ok none := by
  rw [directoryStep, runtimeFunction_eq h.1 h.2, ok_bind]
  cases hrf : e.recordAt (pr + s.i * 12) with
  | none => rfl
  | some rf =>
    have hzero : rf.isZero = true := by
      by_contra hne
      exact hmore ⟨rf, hrf, Bool.eq_false_iff.2 hne⟩
    exact if_pos hzero

/-- The loop over a directory is safe if its first record is not where the sum wraps, and what is
done with the records up to the last one is. -/
theorem safe_directory_iff {P : RuntimeFunction → Prop}
    (htake : ∀ rf found, Safe (take rf found) ↔ P rf) {n : ℕ} {found : List α}
    (hpr : pr < 2 ^ 64) :
    Safe (directory e.peRdU32 pr n take found) ↔ (0 < n → ¬e.Overruns pr) ∧
      ∀ i < n, (∀ j ≤ i, e.IsRecord (pr + j * 12)) →
        ∀ rf, e.recordAt (pr + i * 12) = some rf → P rf := by
  have hloop : Safe (directory e.peRdU32 pr n take found) ↔
      Safe (iterate (directoryStep e.peRdU32 pr take) n { found }) := by
    rw [directory, safe_bind]
    exact ⟨fun ⟨t, ht, _⟩ ↦ ⟨t, ht⟩, fun ⟨t, ht⟩ ↦ ⟨t, ht, safe_pure _⟩⟩
  rw [hloop]
  cases n with
  | zero => exact ⟨fun _ ↦ ⟨nofun, nofun⟩, fun _ ↦ safe_ok _⟩
  | succ n =>
    by_cases hover : e.Overruns pr
    · refine ⟨fun hsafe ↦ ?_, fun h ↦ absurd hover (h.1 (by omega))⟩
      have hfirst : directoryStep e.peRdU32 pr take { found } = .error .index := by
        rw [directoryStep, Nat.zero_mul, Nat.add_zero, runtimeFunction_overruns hpr hover]
        rfl
      rw [iterate, hfirst] at hsafe
      exact absurd hsafe (not_safe_error _)
    · rw [safe_iterate_while Directory.i (e.Reachable pr) (fun i ↦ e.IsRecord (pr + i * 12))
        (p := fun i ↦ ∀ rf, e.recordAt (pr + i * 12) = some rf → P rf)
        (s := { found }) (fun i _ ↦ Reachable.succ)
        (fun s ↦ directoryStep_of_not_isRecord) ?_ ?_ (reachable_zero hpr hover)]
      · simp only [Nat.zero_add, hover, not_false_eq_true, implies_true, true_and]
      · rintro s hs ⟨rf, hrf, hzero⟩ hP
        obtain ⟨found', hfound'⟩ := (htake rf s.found).2 (hP rf hrf)
        rw [directoryStep_of_record hs hrf hzero, hfound']
        exact ⟨_, rfl, rfl⟩
      · rintro s hs ⟨rf, hrf, hzero⟩ hsafe rf' hrf'
        obtain rfl := Option.some.inj (hrf.symm.trans hrf')
        rw [directoryStep_of_record hs hrf hzero] at hsafe
        obtain ⟨found', hfound', -⟩ := safe_bind.1 hsafe
        exact (htake rf s.found).1 ⟨found', hfound'⟩

end Directory

theorem safe_seedRecord_iff (rf : RuntimeFunction) (found : List ℕ) :
    Safe (e.seedRecord rf found) ↔ e.UnwindFits rf := by
  unfold seedRecord UnwindFits
  split_ifs with hempty hexec
  · exact ⟨fun _ hlt ↦ absurd hlt (UInt32.not_lt.2 hempty), fun _ ↦ safe_pure _⟩
  · exact ⟨fun _ _ hyes ↦ by simp [hyes] at hexec, fun _ ↦ safe_pure _⟩
  · have hyes : e.rvaIsExec rf.begin.toNat = true := by simpa using hexec
    simp only [UInt32.not_le.1 hempty, hyes, forall_const]
    rw [safe_bind, ← safe_isChained_iff]
    refine ⟨fun ⟨chained, hchained, _⟩ ↦ ⟨chained, hchained⟩, fun ⟨chained, hchained⟩ ↦ ?_⟩
    exact ⟨chained, hchained, by cases chained <;> exact safe_pure _⟩

theorem safe_seedPdataEntries_iff {o : PeOptions} :
    Safe (e.seedPdataEntries o) ↔
      (o.noPdataSeed = false → e.arch = .x64 → ∀ s, e.segNamed ".pdata" = some s → s.rva ≠ 0 →
        (0 < s.size / 12 → ¬e.Overruns s.rva) ∧
        ∀ i < s.size / 12, (∀ j ≤ i, e.IsRecord (s.rva + j * 12)) →
          ∀ rf, e.recordAt (s.rva + i * 12) = some rf → e.UnwindFits rf) := by
  unfold seedPdataEntries
  by_cases hoff : (o.noPdataSeed || e.arch ≠ .x64) = true
  · rw [if_pos hoff]
    refine ⟨fun _ hno harch ↦ ?_, fun _ ↦ safe_pure _⟩
    simp [hno, harch] at hoff
  · have hon : o.noPdataSeed = false ∧ e.arch = .x64 := by simpa using hoff
    rw [if_neg hoff]
    cases hseg : e.segNamed ".pdata" with
    | none => exact ⟨fun _ _ _ _ ↦ nofun, fun _ ↦ safe_pure _⟩
    | some s =>
      have hpr := (e.segments_lt s (List.mem_of_find?_eq_some hseg)).1
      simp only [hon, forall_const, Option.some.injEq, forall_eq']
      by_cases hempty : s.rva = 0 ∨ s.size = 0
      · rw [if_pos hempty]
        refine ⟨fun _ hrva ↦ ?_, fun _ ↦ safe_pure _⟩
        have hsize : s.size = 0 := hempty.resolve_left hrva
        exact ⟨fun h ↦ by omega, fun i hi ↦ by omega⟩
      · rw [if_neg hempty]
        have hrva : s.rva ≠ 0 := fun h ↦ hempty (.inl h)
        simp only [hrva, ne_eq, not_false_eq_true, forall_const]
        exact safe_directory_iff safe_seedRecord_iff hpr

/-! ### The tables of the decompiler -/

theorem found_peDataDir {idx : ℕ} (hidx : idx < 2 ^ 32) :
    Found (e.peDataDir idx) fun _ ↦ True := by
  refine found_bind (found_peRdU16 (by omega)) fun mz _ ↦ ?_
  refine found_bind found_guard fun _ _ ↦ ?_
  refine found_bind (found_peRdU32 (by omega)) fun lfanew _ ↦ ?_
  have hlfanew := lfanew.toNat_lt
  refine found_bind (found_peRdU32 (by omega)) fun sig _ ↦ ?_
  refine found_bind found_guard fun _ _ ↦ ?_
  refine found_bind (found_peRdU16 (by omega)) fun magic _ ↦ ?_
  refine found_bind found_guard fun _ _ ↦ ?_
  have hdirs : (if magic = 0x20B then lfanew.toNat + 4 + 20 + 112
      else lfanew.toNat + 4 + 20 + 96) ≤ 2 ^ 32 + 136 := by
    split <;> omega
  refine found_bind (found_peRdU32 (by omega)) fun rva _ ↦ ?_
  exact found_bind (found_peRdU32 (by omega)) fun sz _ ↦ found_pure trivial

theorem peTable_of_segNamed {nm : String} {idx : ℕ} {s : Segment} (h : e.segNamed nm = some s) :
    e.peTable nm idx = .ok (s.rva, s.size) := by
  rw [peTable, h]
  rfl

/-- A table that is found through a directory has an address of 32 bits. -/
theorem peTable_of_directory {nm : String} {idx : ℕ} (hidx : idx < 2 ^ 32)
    (h : e.segNamed nm = none) : ∃ pr psz, e.peTable nm idx = .ok (pr, psz) ∧ pr < 2 ^ 32 := by
  obtain ⟨o, ho, -⟩ := found_peDataDir (e := e) hidx
  rw [peTable, h]
  dsimp only
  rw [ho, ok_bind]
  match o with
  | none => exact ⟨0, 0, rfl, by decide⟩
  | some (a, z) =>
    by_cases ha : a = 0
    · exact ⟨0, 0, congrArg Except.ok (if_pos ha), by decide⟩
    · exact ⟨_, _, congrArg Except.ok (if_neg ha), a.toNat_lt⟩

theorem safe_peTable_iff {α : Type} {nm : String} {idx : ℕ} {f : ℕ × ℕ → Checked α}
    (hidx : idx < 2 ^ 32) (hlow : ∀ pr psz, pr < 2 ^ 32 → Safe (f (pr, psz))) :
    Safe (e.peTable nm idx >>= f) ↔ ∀ s, e.segNamed nm = some s → Safe (f (s.rva, s.size)) := by
  cases hseg : e.segNamed nm with
  | none =>
    obtain ⟨pr, psz, htable, hpr⟩ := peTable_of_directory hidx hseg
    rw [htable, ok_bind]
    exact ⟨fun _ ↦ nofun, fun _ ↦ hlow pr psz hpr⟩
  | some s =>
    rw [peTable_of_segNamed hseg, ok_bind]
    exact ⟨fun h _ hs ↦ Option.some.inj hs ▸ h, fun h ↦ h s rfl⟩

theorem ne_zero_of_overruns (h : e.Overruns rva) : rva ≠ 0 := by
  rintro rfl
  exact absurd h.1 (by decide)

theorem safe_pdataAt_iff {pr psz : ℕ} (hpr : pr < 2 ^ 64) :
    Safe (e.pdataAt pr psz) ↔ (12 ≤ psz → ¬e.Overruns pr) := by
  unfold pdataAt
  split_ifs with hempty
  · refine ⟨fun _ hsize hover ↦ ?_, fun _ ↦ safe_pure _⟩
    exact hempty.elim (ne_zero_of_overruns hover) fun h ↦ by omega
  · have hpos : 0 < psz / 12 ↔ 12 ≤ psz := by omega
    have hrecord : ∀ rf found, Safe (pdataRecord rf found) ↔ True := fun _ _ ↦
      iff_true_intro (safe_pure _)
    have hloop : Safe (directory e.peRdU32 pr (psz / 12) pdataRecord []) ↔
        (12 ≤ psz → ¬e.Overruns pr) := by
      rw [safe_directory_iff hrecord hpr, hpos]
      simp only [implies_true, and_true]
    rw [← hloop, safe_bind]
    exact ⟨fun ⟨found, hfound, _⟩ ↦ ⟨found, hfound⟩, fun ⟨found, hfound⟩ ↦
      ⟨found, hfound, safe_pure _⟩⟩

theorem safe_pdata_iff :
    Safe e.pdata ↔ ∀ s, e.segNamed ".pdata" = some s → 12 ≤ s.size → ¬e.Overruns s.rva := by
  have hlow : ∀ pr psz, pr < 2 ^ 32 → Safe (e.pdataAt pr psz) := fun pr psz hpr ↦
    (safe_pdataAt_iff (by omega)).2 fun _ ↦ not_overruns_of_lt (by omega)
  refine (safe_peTable_iff (by decide) hlow).trans (forall₂_congr fun s hs ↦ ?_)
  exact safe_pdataAt_iff (e.segments_lt s (List.mem_of_find?_eq_some hs)).1

/-! ### The base relocations -/

theorem relocHeader_eq (hrva : rva < 2 ^ 64) (h : ¬e.Overruns rva) :
    (e.relocHeader rva).run =
      .ok ((e.u32At rva).bind fun page ↦ (e.u32At (rva + 4)).map (page, ·)) := by
  have hlen := e.length_lt
  refine run_bind_eq_ok (peRdU32_eq hrva h) fun page hpage ↦ ?_
  have hfits := u32At_fits hpage
  refine (run_bind_eq_ok (peRdU32_eq (by omega) (not_overruns_of_lt (by omega)))
    fun bsz _ ↦ rfl).trans ?_
  rw [Option.map_eq_bind]
  rfl

theorem relocEntry_ends (e : Loaded) (page : UInt32) {s : Relocs} (h : s.p + 2 < 2 ^ 64) :
    ∃ o, e.relocEntry page s = .ok o ∧ ∀ s₁, o = some s₁ → s₁.p ≤ e.image.length := by
  obtain ⟨o, ho, hend⟩ := found_peRdU16 h
  rw [relocEntry, ho, ok_bind]
  cases o with
  | none => exact ⟨none, rfl, nofun⟩
  | some ent =>
    have hend := hend ent rfl
    dsimp only
    split
    · exact ⟨_, rfl, fun s₁ hs₁ ↦ Option.some.inj hs₁ ▸ hend⟩
    · exact ⟨_, rfl, fun s₁ hs₁ ↦ Option.some.inj hs₁ ▸ hend⟩

theorem safe_relocEntries {page : UInt32} {n : ℕ} {s : Relocs} (h : s.p + 2 < 2 ^ 64) :
    Safe (iterate (e.relocEntry page) n s) := by
  have hlen := e.length_lt
  refine safe_iterate.2 fun s' hs' ↦ ?_
  have hkeep : ∀ s s₁ : Relocs, s.p + 2 < 2 ^ 64 → e.relocEntry page s = .ok (some s₁) →
      s₁.p + 2 < 2 ^ 64 := fun s s₁ h hs₁ ↦ by
    obtain ⟨o, ho, hend⟩ := relocEntry_ends e page h
    have := hend s₁ (Except.ok.inj (ho.symm.trans hs₁))
    omega
  obtain ⟨o, ho, -⟩ := relocEntry_ends e page (hs'.induction hkeep h)
  exact ⟨o, ho⟩

/-- The walk ends, if there is a round for each address up to the end of the image. -/
theorem safe_relocBlocks {stop n : ℕ} {s : Relocs} (hp : s.p < 2 ^ 64)
    (hover : wrap64 (s.p + 8) ≤ stop → ¬e.Overruns s.p) (hn : e.image.length < s.p + n)
    (hpos : 0 < n) :
    Safe (e.relocBlocks stop n s) := by
  have hlen := e.length_lt
  induction n generalizing s with
  | zero => omega
  | succ n ih =>
    unfold relocBlocks
    split_ifs with hstop
    · rw [relocHeader_eq hp (hover hstop), ok_bind]
      cases hpage : e.u32At s.p with
      | none => exact safe_pure _
      | some page =>
        cases hbsz : e.u32At (s.p + 4) with
        | none => exact safe_pure _
        | some bsz =>
          have hfits := u32At_fits hbsz
          have hlt := bsz.toNat_lt
          rw [Option.bind_some, Option.map_some]
          dsimp only
          split_ifs with hbad
          · exact safe_pure _
          · have hsize : 8 ≤ bsz.toNat :=
              UInt32.le_iff_toNat_le.1 (UInt32.not_lt.1 fun h ↦ hbad (.inl h))
            have hentries : Safe (iterate (e.relocEntry page) ((bsz.toNat - 8) / 2)
                ⟨s.p + 8, s.reloc64⟩) :=
              safe_relocEntries (show s.p + 8 + 2 < 2 ^ 64 by omega)
            obtain ⟨t, ht⟩ := hentries
            rw [ht, ok_bind]
            have hwrap : wrap64 (s.p + bsz.toNat) = s.p + bsz.toNat := wrap64_of_lt (by omega)
            rw [hwrap]
            exact ih (show s.p + bsz.toNat < 2 ^ 64 by omega)
              (fun _ ↦ not_overruns_of_lt (show s.p + bsz.toNat + 4 < 2 ^ 64 by omega))
              (show e.image.length < s.p + bsz.toNat + n by omega) (by omega)
    · exact safe_pure _

theorem safe_relocsAt_iff {rr rsz : ℕ} (hrr : rr < 2 ^ 64) :
    Safe (e.relocsAt rr rsz) ↔
      (rsz ≠ 0 → wrap64 (rr + 8) ≤ wrap64 (rr + rsz) → ¬e.Overruns rr) := by
  unfold relocsAt
  split_ifs with hempty
  · refine ⟨fun _ hsize _ hover ↦ ?_, fun _ ↦ safe_pure _⟩
    exact hempty.elim (ne_zero_of_overruns hover) hsize
  · refine ⟨fun hsafe _ hstop hover ↦ ?_, fun h ↦ ?_⟩
    · have hheader : (e.relocHeader rr).run = .error .index :=
        run_bind_eq_error (peRdU32_overruns hrr hover)
      rw [relocBlocks, if_pos hstop, hheader] at hsafe
      exact not_safe_error _ hsafe
    · exact safe_relocBlocks hrr (h fun hsize ↦ hempty (.inr hsize))
        (show e.image.length < rr + (e.image.length + 1) by omega) (by omega)

theorem safe_reloc64_iff :
    Safe e.reloc64 ↔ ∀ s, e.segNamed ".reloc" = some s → s.size ≠ 0 →
      wrap64 (s.rva + 8) ≤ wrap64 (s.rva + s.size) → ¬e.Overruns s.rva := by
  have hlow : ∀ rr rsz, rr < 2 ^ 32 → Safe (e.relocsAt rr rsz) := fun rr rsz hrr ↦
    (safe_relocsAt_iff (by omega)).2 fun _ _ ↦ not_overruns_of_lt (by omega)
  refine (safe_peTable_iff (by decide) hlow).trans (forall₂_congr fun s hs ↦ ?_)
  exact safe_relocsAt_iff (e.segments_lt s (List.mem_of_find?_eq_some hs)).1

end Loaded

end Listing

end Ldu
