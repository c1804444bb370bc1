import Ldu.Listing.SweepSound
import Mathlib.Data.Finset.Card
import Mathlib.Data.Finset.Range

/-!
# When a sweep is not cut short

The sweep may find no more instructions than its cap, and takes no more addresses from the worklist.
No address is decoded twice, so that there are no more instructions than bytes; and what is found
puts at most one address on the worklist. So neither cap is reached where the image and the seeds
together are smaller than it (`capsNotReached_of_small`), in whatever order segments overlap and
code refers to code.
-/

namespace Ldu

namespace Listing

variable {dec : Decoder} {e : Engine} {st st' st'' : Sweep}

/-- Instructions at different addresses of the image. -/
theorem Sweep.Inv.length_le {owed : ℕ → Prop} (h : st.Inv dec e owed) :
    st.insns.length ≤ e.image.length := by
  have hsub : (st.insns.map (·.rva)).toFinset ⊆ Finset.range e.image.length := by
    intro a ha
    obtain ⟨i, hi, rfl⟩ := List.mem_map.1 (List.mem_toFinset.1 ha)
    obtain ⟨hpos, hle⟩ := (h.decoded i hi).sized
    exact Finset.mem_range.2 (by omega)
  have hcard := Finset.card_le_card hsub
  rwa [List.toFinset_card_of_nodup h.nodup, Finset.card_range, List.length_map] at hcard

/-! ### What goes on the worklist -/

/-- No more addresses have gone on the worklist than instructions have been found. -/
structure Sweep.Grows (st st' : Sweep) : Prop where
  insns_le : st.insns.length ≤ st'.insns.length
  work_le : st'.work.length + st.insns.length ≤ st.work.length + st'.insns.length

namespace Sweep.Grows

theorem refl (st : Sweep) : st.Grows st :=
  ⟨le_rfl, le_rfl⟩

theorem trans (h : st.Grows st') (h' : st'.Grows st'') : st.Grows st'' := by
  obtain ⟨hinsns, hwork⟩ := h
  obtain ⟨hinsns', hwork'⟩ := h'
  exact ⟨hinsns.trans hinsns', by omega⟩

end Sweep.Grows

theorem grows_queueLinear (e : Engine) (i : Insn) (st : Sweep) :
    st.Grows (queueLinear e i (st.record i)) := by
  unfold queueLinear
  split
  · split
    · exact ⟨by simp [Sweep.record, Sweep.push], by simp [Sweep.record, Sweep.push]; omega⟩
    · exact ⟨by simp [Sweep.record], by simp [Sweep.record]⟩
  · constructor <;> simp [Sweep.record]

theorem grows_queueRun (e : Engine) (i : Insn) (st : Sweep) :
    st.Grows (queueRun e i (st.record i)) := by
  unfold queueRun
  split
  · split
    · exact ⟨by simp [Sweep.record, Sweep.push], by simp [Sweep.record, Sweep.push]; omega⟩
    · exact ⟨by simp [Sweep.record], by simp [Sweep.record]⟩
  · constructor <;> simp [Sweep.record]

theorem grows_linearFrom (stop fuel rva : ℕ) (st : Sweep) :
    st.Grows (linearFrom dec e stop fuel rva st) := by
  induction fuel generalizing rva st with
  | zero => exact .refl st
  | succ fuel ih =>
    rw [linearFrom]
    split
    · exact .refl st
    · split
      · exact ih _ st
      · split
        · exact .refl st
        · have hstep := grows_queueLinear e (decodeAt dec e rva (linearAvail e rva stop)) st
          dsimp only
          split
          · exact hstep
          · exact hstep.trans (ih _ _)

theorem grows_linear (segments : List Segment) (st : Sweep) :
    st.Grows (segments.foldl (linearSegment dec e) st) := by
  induction segments generalizing st with
  | nil => exact .refl st
  | cons s segments ih =>
    refine Sweep.Grows.trans ?_ (ih _)
    unfold linearSegment
    split
    · exact .refl st
    · exact grows_linearFrom _ _ _ st

theorem grows_sweepRun (fuel rva : ℕ) (st : Sweep) : st.Grows (sweepRun dec e fuel rva st) := by
  induction fuel generalizing rva st with
  | zero => exact .refl st
  | succ fuel ih =>
    rw [sweepRun]
    split
    · exact .refl st
    · have hstep :=
        grows_queueRun e (decodeAt dec e rva (min (e.image.length - rva) 15)) st
      dsimp only
      split
      · exact hstep
      · exact hstep.trans (ih _ _)

/-! ### The worklist is emptied -/

/-- Each address taken from the worklist is one less, and only instructions that are still to be
found put others there. -/
theorem descend_work {guard n : ℕ} (hn : (descend dec e guard st).insns.length ≤ n)
    (hcap : n < maxInsns) (hguard : st.work.length + (n - st.insns.length) ≤ guard) :
    (descend dec e guard st).work = [] := by
  induction guard generalizing st with
  | zero =>
    rw [descend]
    exact List.eq_nil_of_length_eq_zero (by omega)
  | succ guard ih =>
    have hlength : st.insns.length ≤ (descend dec e (guard + 1) st).insns.length :=
      (insns_isPrefix_descend (guard + 1) st).length_le
    have hinsns : ¬maxInsns ≤ st.insns.length := by omega
    rw [descend, if_neg hinsns] at hn ⊢
    split at hn
    · next hwork => exact hwork
    · next target work hwork =>
      rw [hwork, List.length_cons] at hguard
      dsimp only at hn ⊢
      split at hn
      · next hskip =>
        rw [if_pos hskip]
        exact ih hn (by dsimp only; omega)
      · next hgo =>
        rw [if_neg hgo]
        have hgrows : Sweep.Grows { st with work := work }
            (sweepRun dec e e.image.length target { st with work := work }) :=
          grows_sweepRun e.image.length target _
        obtain ⟨hle, hpushed⟩ := hgrows
        have hafter : (sweepRun dec e e.image.length target { st with work := work }).insns.length ≤
            (descend dec e guard
              (sweepRun dec e e.image.length target { st with work := work })).insns.length :=
          (insns_isPrefix_descend guard _).length_le
        dsimp only at hle hpushed
        exact ih hn (by omega)

/-- **A sweep of a small image is not cut short.** -/
theorem capsNotReached_of_small (dec : Decoder) (noPdataSeed : Bool) (e : Engine)
    (hsmall : (e.seedPdataEntries noPdataSeed).seeds.length + e.image.length < maxInsns) :
    CapsNotReached dec noPdataSeed e := by
  obtain ⟨entries, hentries⟩ := seedPdataEntries_eq noPdataSeed e
  have himage : (e.seedPdataEntries noPdataSeed).image = e.image := by rw [hentries]
  have hlength := (inv_sweep dec (e.seedPdataEntries noPdataSeed)).length_le
  rw [himage] at hlength
  have hgrows : Sweep.Grows ⟨[], ∅, (e.seedPdataEntries noPdataSeed).seeds.reverse⟩
      ((e.seedPdataEntries noPdataSeed).segments.foldl
        (linearSegment dec (e.seedPdataEntries noPdataSeed))
        ⟨[], ∅, (e.seedPdataEntries noPdataSeed).seeds.reverse⟩) :=
    grows_linear _ _
  obtain ⟨-, hwork⟩ := hgrows
  rw [List.length_reverse, List.length_nil] at hwork
  have hgrown : ((e.seedPdataEntries noPdataSeed).segments.foldl
        (linearSegment dec (e.seedPdataEntries noPdataSeed))
        ⟨[], ∅, (e.seedPdataEntries noPdataSeed).seeds.reverse⟩).insns.length ≤
      (descend dec (e.seedPdataEntries noPdataSeed) maxInsns _).insns.length :=
    (insns_isPrefix_descend maxInsns _).length_le
  refine ⟨by omega, descend_work (n := (sweep dec (e.seedPdataEntries noPdataSeed)).insns.length)
    le_rfl (by omega) ?_⟩
  unfold sweep at hlength ⊢
  dsimp only at hlength ⊢
  omega

theorem capsNotReached_callNext : CapsNotReached builtin true callNext :=
  capsNotReached_of_small builtin true callNext (by decide)

end Listing

end Ldu
