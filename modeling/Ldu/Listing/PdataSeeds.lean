import Ldu.Listing.PeTablesSafe
import Ldu.Listing.Sweep

/-!
# The entries that the exception directory gives to the sweep

The sweep takes its entries from the directory as if each number that can be read was in the image.
Where the directory is read inside the image, that is what the reader finds
(`entries_of_seedPdataEntries`).
-/

namespace Ldu

namespace Listing

open Checked

namespace Loaded

variable {e : Loaded} {n rva : ℕ}

theorem readU32_eq (hrva : rva < 2 ^ 64) :
    readU32 e.image rva = (e.u32At rva).map UInt32.toNat := by
  have hlen := e.length_lt
  have hdrop := e.image.length_drop (i := rva)
  unfold readU32 u32At
  by_cases hfits : rva + 4 ≤ e.image.length
  · rw [wrap64_of_lt (by omega), if_neg (by omega), if_pos hfits]
    match e.image.drop rva, hdrop with
    | a :: b :: c :: d :: rest, _ =>
      have hlt : ofLE [a, b, c, d] < 2 ^ 32 := (ofLE_lt [a, b, c, d]).trans_eq (by norm_num)
      change some _ = some (UInt32.ofNat (ofLE [a, b, c, d])).toNat
      rw [UInt32.toNat_ofNat_of_lt' hlt]
      simp only [ofLE_cons, show ofLE [] = 0 from rfl]
      congr 1
      omega
    | [], h | [_], h | [_, _], h | [_, _, _], h =>
      simp only [List.length_nil, List.length_cons] at h
      omega
  · rw [if_neg hfits]
    split_ifs with hwrap
    · rfl
    · unfold wrap64 at hwrap
      rw [List.drop_eq_nil_of_le (by omega)]
      rfl

theorem isChained_eq {unwind : UInt32} {chained : Bool} (h : e.isChained unwind = .ok chained) :
    e.toEngine.isChained unwind.toNat = chained := by
  have hbits : ∀ n < 256, decide (n / 32 % 2 = 1) = decide (UInt8.ofNat n >>> 3 &&& 4 ≠ 0) := by
    decide +kernel
  have hbit : ∀ vf : UInt8, decide (vf.toNat / 32 % 2 = 1) = decide (vf >>> 3 &&& 4 ≠ 0) :=
    fun vf ↦ by simpa only [UInt8.ofNat_toNat] using hbits vf.toNat vf.toNat_lt
  have hlt := unwind.toNat_lt
  have hsum : (unwind + 1).toNat = (unwind.toNat + 1) % 2 ^ 32 := UInt32.toNat_add _ _
  unfold isChained at h
  unfold Engine.isChained
  split_ifs at h with hle
  · obtain ⟨vf, hvf, h⟩ := bind_eq_ok.1 h
    unfold index at hvf
    cases hget : e.image[unwind.toNat]? with
    | none =>
      rw [hget] at hvf
      cases hvf
    | some vf' =>
      rw [hget] at hvf
      rw [Option.any_some, Except.ok.inj hvf, hbit]
      exact Except.ok.inj h
  · rw [List.getElem?_eq_none (by omega)]
    exact Except.ok.inj h

theorem seedRecord_eq {rf : RuntimeFunction} {found found' : List ℕ}
    (h : e.seedRecord rf found = .ok found') :
    found' = if rf.stop.toNat ≤ rf.begin.toNat || !e.rvaIsExec rf.begin.toNat ||
      e.toEngine.isChained rf.unwind.toNat then found else addEntry found rf.begin.toNat := by
  unfold seedRecord at h
  by_cases hempty : rf.stop ≤ rf.begin
  · rw [if_pos hempty] at h
    rw [decide_eq_true (UInt32.le_iff_toNat_le.1 hempty)]
    exact (Except.ok.inj h).symm
  · rw [if_neg hempty] at h
    rw [decide_eq_false fun hle ↦ hempty (UInt32.le_iff_toNat_le.2 hle)]
    cases hexec : e.rvaIsExec rf.begin.toNat with
    | false =>
      rw [hexec] at h
      exact (Except.ok.inj h).symm
    | true =>
      rw [hexec] at h
      obtain ⟨chained, hchained, h⟩ := bind_eq_ok.1 h
      rw [isChained_eq hchained]
      cases chained <;> exact (Except.ok.inj h).symm

theorem engine_addEntry (e : Engine) (entries : List ℕ) (rva : ℕ) :
    Engine.addEntry { e with entries } rva = { e with entries := addEntry entries rva } := by
  unfold Engine.addEntry addEntry
  split_ifs <;> rfl

theorem seedPdataFrom_succ {base n : ℕ} {entries : List ℕ} (hbase : base < 2 ^ 64) :
    Engine.seedPdataFrom (n + 1) base { e.toEngine with entries } =
      match e.recordAt base with
      | none => { e.toEngine with entries }
      | some rf =>
        if rf.isZero then { e.toEngine with entries }
        else Engine.seedPdataFrom n (wrap64 (base + 12)) { e.toEngine with
          entries := if rf.stop.toNat ≤ rf.begin.toNat || !e.rvaIsExec rf.begin.toNat ||
            e.toEngine.isChained rf.unwind.toNat then entries
            else addEntry entries rf.begin.toNat } := by
  have hlen := e.length_lt
  unfold recordAt
  rw [Engine.seedPdataFrom, readU32_eq hbase]
  cases hbegin : e.u32At base with
  | none => rfl
  | some begin =>
    have hfits := u32At_fits hbegin
    rw [wrap64_of_lt (by omega), wrap64_of_lt (by omega), readU32_eq (by omega),
      readU32_eq (by omega)]
    cases e.u32At (base + 4) with
    | none => rfl
    | some stop =>
      cases e.u32At (base + 8) with
      | none => rfl
      | some unwind =>
        have hzero : (begin.toNat = 0 ∧ stop.toNat = 0 ∧ unwind.toNat = 0) ↔
            RuntimeFunction.isZero ⟨begin, stop, unwind⟩ = true := by
          simp only [RuntimeFunction.isZero, Bool.and_eq_true, decide_eq_true_eq, and_assoc,
            ← UInt32.toNat_inj]
          rfl
        simp only [Option.map_some, hzero]
        by_cases hz : RuntimeFunction.isZero ⟨begin, stop, unwind⟩ = true
        · exact (if_pos hz).trans (if_pos hz).symm
        · refine (if_neg hz).trans (Eq.trans ?_ (if_neg hz).symm)
          by_cases hskip : (stop.toNat ≤ begin.toNat || !e.rvaIsExec begin.toNat ||
              e.toEngine.isChained unwind.toNat) = true
          · rw [if_pos hskip]
            exact if_pos hskip
          · rw [if_neg hskip, ← engine_addEntry]
            exact if_neg hskip

theorem seedPdataFrom_eq {pr n : ℕ} {s t : Directory ℕ} (h : e.Reachable pr s.i)
    (ht : iterate (directoryStep e.peRdU32 pr e.seedRecord) n s = .ok t) :
    (Engine.seedPdataFrom n (pr + s.i * 12) { e.toEngine with entries := s.found }).entries =
      t.found := by
  induction n generalizing s with
  | zero => exact Except.ok.inj ht ▸ rfl
  | succ n ih =>
    rw [iterate] at ht
    rw [seedPdataFrom_succ h.1]
    by_cases hmore : e.IsRecord (pr + s.i * 12)
    · have hnext := Reachable.succ hmore
      obtain ⟨rf, hrf, hzero⟩ := hmore
      rw [directoryStep_of_record h hrf hzero] at ht
      obtain ⟨o, ho, ht⟩ := bind_eq_ok.1 ht
      obtain ⟨found', hfound', ho⟩ := bind_eq_ok.1 ho
      obtain rfl := Except.ok.inj ho
      have hbase : wrap64 (pr + s.i * 12 + 12) = pr + (s.i + 1) * 12 := by
        rw [wrap64_of_lt (by have := hnext.1; omega)]
        omega
      obtain rfl := seedRecord_eq hfound'
      rw [hrf, hbase]
      dsimp only
      rw [if_neg (Bool.eq_false_iff.1 hzero)]
      exact ih (s := ⟨s.i + 1, _⟩) hnext ht
    · rw [directoryStep_of_not_isRecord h hmore] at ht
      obtain rfl : s = t := Except.ok.inj ht
      cases hrf : e.recordAt (pr + s.i * 12) with
      | none => rfl
      | some rf =>
        have hzero : rf.isZero = true := by
          by_contra hne
          exact hmore ⟨rf, hrf, Bool.eq_false_iff.2 hne⟩
        dsimp only
        rw [if_pos hzero]

theorem seedPdataFrom_of_empty (h : e.image = []) (hrva : rva < 2 ^ 64) :
    Engine.seedPdataFrom n rva e.toEngine = e.toEngine := by
  cases n with
  | zero => rfl
  | succ n =>
    have hnone : e.recordAt rva = none := by
      by_contra hne
      obtain ⟨rf, hrf⟩ := Option.ne_none_iff_exists'.1 hne
      have hfits := recordAt_fits hrf
      rw [h] at hfits
      cases hfits
    exact (seedPdataFrom_succ hrva).trans (by rw [hnone])

theorem entries_of_directory {pr : ℕ} {entries : List ℕ} (hpr : pr < 2 ^ 64)
    (h : directory e.peRdU32 pr n e.seedRecord e.entries = .ok entries) :
    (Engine.seedPdataFrom n pr e.toEngine).entries = entries := by
  have hfirst := ((safe_directory_iff safe_seedRecord_iff hpr).1 ⟨entries, h⟩).1
  obtain ⟨t, ht, h⟩ := bind_eq_ok.1 h
  obtain rfl := Except.ok.inj h
  cases n with
  | zero =>
    obtain rfl := Except.ok.inj ht
    rfl
  | succ n =>
    have hreach := reachable_zero hpr (hfirst (by omega))
    have heq := seedPdataFrom_eq (s := { found := e.entries }) hreach ht
    rwa [Nat.zero_mul, Nat.add_zero] at heq

/-- Where the entries of the exception directory are read inside the image, they are those that the
sweep starts with. -/
theorem entries_of_seedPdataEntries {o : PeOptions} {entries : List ℕ}
    (h : e.seedPdataEntries o = .ok entries) :
    (e.toEngine.seedPdataEntries o.noPdataSeed).entries = entries := by
  unfold seedPdataEntries at h
  unfold Engine.seedPdataEntries
  by_cases hoff : (o.noPdataSeed || e.arch ≠ .x64) = true
  · rw [if_pos hoff] at h
    rw [if_pos (.inr (by simpa using hoff))]
    exact Except.ok.inj h
  · rw [if_neg hoff] at h
    have hon : ¬(o.noPdataSeed = true ∨ e.arch ≠ .x64) := by simpa using hoff
    cases hseg : e.segNamed ".pdata" with
    | none =>
      have hfind : e.segments.find? (·.name = ".pdata") = none := hseg
      rw [hseg] at h
      rw [hfind, ite_self]
      exact Except.ok.inj h
    | some s =>
      have hpr := (e.segments_lt s (List.mem_of_find?_eq_some hseg)).1
      have hfind : e.segments.find? (·.name = ".pdata") = some s := hseg
      rw [hseg] at h
      rw [hfind]
      dsimp only at h ⊢
      by_cases hempty : s.rva = 0 ∨ s.size = 0
      · rw [if_pos hempty] at h
        rw [if_pos hempty, ite_self]
        exact Except.ok.inj h
      · rw [if_neg hempty] at h
        rw [if_neg hempty]
        have hentries := entries_of_directory hpr h
        split_ifs with himage
        · rwa [seedPdataFrom_of_empty (himage.resolve_right hon) hpr] at hentries
        · exact hentries

end Loaded

end Listing

end Ldu
