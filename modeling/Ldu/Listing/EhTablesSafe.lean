import Ldu.Listing.EhTables
import Ldu.Listing.PeTablesSafe

/-!
# When the exception and relocation tables are read inside the image

The handlers of the functions are found at addresses of 32 bits that the tables give, or behind what
was read, and are read inside the image whatever the tables hold (`gives_ehTables`). So the two
readers of the tables end, and read nothing outside the image, exactly when the directory and the
relocations are not where a sum wraps (`safe_tables_iff`).
-/

namespace Ldu

namespace Listing

open Checked Exits

namespace Loaded

/-- The tables are where they can be read inside the image. -/
structure ReadsFit (e : Loaded) (o : PeOptions) : Prop where
  reloc : ∀ s, e.segNamed ".reloc" = some s → s.size ≠ 0 →
    wrap64 (s.rva + 8) ≤ wrap64 (s.rva + s.size) → ¬e.Overruns s.rva
  pdata : ∀ s, e.segNamed ".pdata" = some s → 12 ≤ s.size → ¬e.Overruns s.rva
  unwind : o.noPdataSeed = false → e.arch = .x64 → ∀ s, e.segNamed ".pdata" = some s → s.rva ≠ 0 →
    ∀ i < s.size / 12, (∀ j ≤ i, e.IsRecord (s.rva + j * 12)) →
      ∀ rf, e.recordAt (s.rva + i * 12) = some rf → e.UnwindFits rf

variable {e : Loaded}

/-! ### Exception handlers -/

section Handlers

variable {rf : RuntimeFunction} {data p : ℕ}

theorem gives_peDemangleType (raw : List UInt8) : Gives (peDemangleType raw) fun _ ↦ True := by
  unfold peDemangleType
  split_ifs
  · exact gives_throw _
  · exact gives_pure trivial
  · exact gives_pure trivial

theorem gives_typeName (descriptor : UInt32) : Gives (e.typeName descriptor) fun _ ↦ True := by
  have hlt := descriptor.toNat_lt
  refine gives_collect fun j _ hj ↦ ?_
  refine gives_bind (gives_lift (found_peRdU8 (by omega))) fun b _ ↦ ?_
  split_ifs
  · exact gives_throw _
  · exact gives_pure trivial

theorem gives_sehScope (h : p + 16 < 2 ^ 64) :
    Gives (e.sehScope rf p) fun r ↦ r.2 ≤ e.image.length := by
  refine gives_bind (gives_lift (found_peRdU32 (by omega))) fun begin _ ↦ ?_
  refine gives_bind (gives_lift (found_peRdU32 (by omega))) fun stop _ ↦ ?_
  refine gives_bind (gives_lift (found_peRdU32 (by omega))) fun filter _ ↦ ?_
  refine gives_bind (gives_lift (found_peRdU32 (by omega))) fun target hend ↦ ?_
  split_ifs
  · exact gives_pure hend
  · exact gives_throw _

theorem gives_sehScopes (h : data < 2 ^ 63) : Gives (e.sehScopes rf data) fun _ ↦ True := by
  have hlen := e.length_lt
  refine gives_bind (gives_lift (found_peRdU32 (by omega))) fun scount hend ↦ ?_
  split_ifs
  · refine gives_bind (gives_times (· < 2 ^ 63 + 4) (fun p hp ↦ ?_) (by omega)) fun r _ ↦
      gives_pure trivial
    exact (gives_sehScope (by omega)).mono fun r hr ↦ by omega
  · exact gives_throw _

theorem gives_cppCatch3 (h : p < 2 ^ 63) : Gives (e.cppCatch3 p) fun _ ↦ True := by
  refine gives_bind (gives_lift (found_peRdU32 (by omega))) fun adj _ ↦ ?_
  refine gives_bind (gives_lift (found_peRdU32 (by omega))) fun pType _ ↦ ?_
  refine gives_bind (gives_lift (found_peRdU32 (by omega))) fun handler _ ↦ ?_
  split_ifs
  · exact gives_pure trivial
  · refine gives_bind (gives_typeName pType) fun nm _ ↦ ?_
    exact gives_bind (gives_peDemangleType nm) fun type _ ↦ gives_pure trivial

theorem gives_cppTry3 (h : p < 2 ^ 63) : Gives (e.cppTry3 p) fun _ ↦ True := by
  refine gives_bind (gives_lift (found_peRdU32 (by omega))) fun tl _ ↦ ?_
  refine gives_bind (gives_lift (found_peRdU32 (by omega))) fun th _ ↦ ?_
  refine gives_bind (gives_lift (found_peRdU32 (by omega))) fun ch _ ↦ ?_
  refine gives_bind (gives_lift (found_peRdU32 (by omega))) fun nc _ ↦ ?_
  refine gives_bind (gives_lift (found_peRdU32 (by omega))) fun pha _ ↦ ?_
  have hpha := pha.toNat_lt
  split_ifs
  · exact gives_pure trivial
  · refine gives_bind (gives_collect fun ci _ hci ↦ gives_cppCatch3 (by omega)) fun catches _ ↦ ?_
    exact gives_pure trivial

theorem gives_cppTries3 (h : data < 2 ^ 63) : Gives (e.cppTries3 data) fun _ ↦ True := by
  refine gives_bind (gives_lift (found_peRdU32 (by omega))) fun fi _ ↦ ?_
  have hlow : ∀ v : UInt32, Gives (liftM (e.peRdU32 v.toNat) : Exits UInt32) fun _ ↦ True :=
    fun v ↦ by
      have hlt := v.toNat_lt
      exact (gives_lift (found_peRdU32 (by omega))).mono fun _ _ ↦ trivial
  split_ifs
  · exact gives_pure trivial
  · refine gives_bind (hlow fi) fun magic _ ↦ ?_
    split_ifs
    · refine gives_bind (gives_attempt (hlow _)) fun nTry _ ↦ ?_
      refine gives_bind (gives_attempt (hlow _)) fun pTry _ ↦ ?_
      have hlt := (pTry.getD 0).toNat_lt
      dsimp only
      split_ifs
      · exact gives_pure trivial
      · exact gives_collect fun ti _ hti ↦ gives_cppTry3 (by omega)
    · exact gives_pure trivial

theorem found_rdDisp (h : p + 4 < 2 ^ 64) :
    Found (e.rdDisp p) fun r ↦ r.2 ≤ e.image.length :=
  found_bind (found_peRdU32 h) fun _ hend ↦ found_pure hend

/-- The address behind a field, given how far its reader gets. -/
theorem found_field {present : Bool} {rd : ℕ → OptionT Checked (UInt32 × ℕ)} {b : ℕ}
    (hrd : Found (rd p) fun r ↦ r.2 ≤ b) (hp : p ≤ b) :
    Found (field present rd p) fun r ↦ r.2 ≤ b := by
  unfold field
  split
  · exact hrd
  · exact found_pure hp

theorem gives_fh4uint (h : p ≤ e.image.length) (present : Bool) :
    Gives (liftM (field present e.peRdFh4uint p) : Exits (UInt32 × ℕ))
      fun r ↦ r.2 ≤ e.image.length := by
  have hlen := e.length_lt
  exact gives_lift (found_field (found_peRdFh4uint (by omega)) h)

theorem gives_cppCatch4 (h : p < 2 ^ 63) : Gives (e.cppCatch4 p) fun r ↦ r.2 ≤ e.image.length := by
  have hlen := e.length_lt
  refine gives_bind (gives_lift (found_peRdU8 (by omega))) fun hdr hp ↦ ?_
  refine gives_bind (gives_fh4uint hp _) fun adj hp ↦ ?_
  refine gives_bind (gives_lift (found_field (found_rdDisp (by omega)) hp)) fun dispType hp ↦ ?_
  refine gives_bind (gives_fh4uint hp _) fun dc hp ↦ ?_
  refine gives_bind (gives_lift (found_rdDisp (by omega))) fun handler hp ↦ ?_
  refine gives_bind (gives_fh4uint hp _) fun cont₀ hp ↦ ?_
  refine gives_bind (gives_fh4uint hp _) fun cont₁ hp ↦ ?_
  refine gives_bind (gives_fh4uint hp _) fun state hp ↦ ?_
  dsimp only
  split_ifs
  · exact gives_pure hp
  · refine gives_bind (gives_typeName dispType.1) fun nm _ ↦ ?_
    split_ifs
    · exact gives_bind (gives_peDemangleType nm) fun type _ ↦ gives_pure hp
    · exact gives_throw _
  · exact gives_throw _

theorem gives_cppTry4 (h : p < 2 ^ 63) : Gives (e.cppTry4 p) fun r ↦ r.2 ≤ e.image.length := by
  have hlen := e.length_lt
  refine gives_bind (gives_lift (found_peRdFh4uint (by omega))) fun tl hp ↦ ?_
  refine gives_bind (gives_lift (found_peRdFh4uint (by omega))) fun th hp ↦ ?_
  refine gives_bind (gives_lift (found_peRdFh4uint (by omega))) fun ch hp ↦ ?_
  refine gives_bind (gives_lift (found_rdDisp (by omega))) fun dha hp ↦ ?_
  have hdha := dha.1.toNat_lt
  dsimp only
  split_ifs
  · refine gives_bind (gives_lift (found_peRdFh4uint (by omega))) fun nC hnC ↦ ?_
    split_ifs
    · refine gives_bind (gives_times (· < 2 ^ 63) (fun q hq ↦ ?_) (by omega)) fun r _ ↦
        gives_pure hp
      exact (gives_cppCatch4 hq).mono fun r hr ↦ by omega
    · exact gives_throw _
  · exact gives_throw _

theorem found_dispTryMap (fi : UInt32) : Found (e.dispTryMap fi) fun _ ↦ True := by
  have hlen := e.length_lt
  have hfi := fi.toNat_lt
  have hnext := (fi + 1).toNat_lt
  refine found_bind (found_peRdU8 (by omega)) fun hdr _ ↦ ?_
  refine found_bind found_guard fun _ _ ↦ ?_
  -- What is skipped or read starts within 32 bits or the image.
  have hbbt : Found (field (hdr &&& 0x04 ≠ 0) e.peRdFh4uint (fi + 1).toNat)
      fun r ↦ r.2 ≤ max e.image.length (2 ^ 32) :=
    found_field ((found_peRdFh4uint (by omega)).mono fun r hr ↦ by omega) (by omega)
  refine found_bind hbbt fun bbt hp ↦ ?_
  have hskip : (if hdr &&& 0x08 ≠ 0 then bbt.2 + 4 else bbt.2) ≤ 2 ^ 63 + 4 := by
    split <;> omega
  have htry : Found (field (hdr &&& 0x10 ≠ 0) e.rdDisp
      (if hdr &&& 0x08 ≠ 0 then bbt.2 + 4 else bbt.2)) fun r ↦ r.2 ≤ 2 ^ 63 + 4 :=
    found_field ((found_rdDisp (by omega)).mono fun r hr ↦ by omega) hskip
  refine found_bind htry fun dispTry hp ↦ ?_
  exact found_bind (found_rdDisp (by omega)) fun dispIP _ ↦ found_pure trivial

theorem gives_cppTries4 (h : data < 2 ^ 63) : Gives (e.cppTries4 data) fun _ ↦ True := by
  have hlen := e.length_lt
  refine gives_bind (gives_lift (found_peRdU32 (by omega))) fun fi _ ↦ ?_
  split_ifs
  · refine gives_bind (gives_lift (found_dispTryMap fi)) fun dispTry _ ↦ ?_
    have hlt := dispTry.toNat_lt
    split_ifs
    · refine gives_bind (gives_lift (found_peRdFh4uint (by omega))) fun nTry hnTry ↦ ?_
      dsimp only
      split_ifs
      · refine gives_bind (gives_times (· < 2 ^ 63) (fun q hq ↦ ?_) (by omega)) fun r _ ↦
          gives_pure trivial
        exact (gives_cppTry4 hq).mono fun r hr ↦ by omega
      · exact gives_throw _
    · exact gives_throw _
  · exact gives_throw _

theorem found_handlerData : Found (e.handlerData rf) (· < 2 ^ 63) := by
  have hvf := rf.unwind.toNat_lt
  have hcnt := (rf.unwind + 2).toNat_lt
  have hhs := (rf.unwind + 4).toNat_lt
  refine found_bind (found_peRdU8 (by omega)) fun vf _ ↦ ?_
  refine found_bind (found_peRdU8 (by omega)) fun cnt _ ↦ ?_
  have hsmall := cnt.toNat_lt
  refine found_bind found_guard fun _ _ ↦ found_pure ?_
  omega

theorem gives_ehInfo (o : PeOptions) : Gives (e.ehInfo o rf) fun _ ↦ True := by
  refine gives_bind (gives_lift found_handlerData) fun data hdata ↦ ?_
  refine gives_bind (gives_attempt (gives_sehScopes hdata)) fun seh _ ↦ ?_
  cases seh with
  | some seh => exact gives_pure trivial
  | none =>
    refine gives_bind (gives_attempt (gives_cppTries3 hdata)) fun cpp _ ↦ ?_
    dsimp only
    split_ifs
    · exact gives_bind (gives_attempt (gives_cppTries4 hdata)) fun cpp _ ↦ gives_pure trivial
    · exact gives_pure trivial

/-- The handlers of any records are read inside the image. -/
theorem gives_ehTables (o : PeOptions) (l : List RuntimeFunction) (eh : List (UInt32 × EHInfo)) :
    Gives (e.ehTables o l eh) fun _ ↦ True := by
  induction l generalizing eh with
  | nil => exact gives_pure trivial
  | cons rf rest ih =>
    refine gives_bind (gives_attempt (gives_ehInfo o)) fun info _ ↦ ?_
    cases info with
    | none => exact ih eh
    | some info => exact ih _

end Handlers

/-! ### All tables -/

theorem safe_computePeTables_iff {o : PeOptions} :
    Safe (e.computePeTables o).run ↔ Safe e.reloc64 ∧ Safe e.pdata := by
  rw [computePeTables, run_bind_lift, safe_bind]
  constructor
  · rintro ⟨reloc64, hreloc64, h⟩
    rw [run_bind_lift, safe_bind] at h
    obtain ⟨pdata, hpdata, -⟩ := h
    exact ⟨⟨reloc64, hreloc64⟩, ⟨pdata, hpdata⟩⟩
  · rintro ⟨⟨reloc64, hreloc64⟩, ⟨pdata, hpdata⟩⟩
    refine ⟨reloc64, hreloc64, ?_⟩
    rw [run_bind_lift, safe_bind]
    refine ⟨pdata, hpdata, ?_⟩
    have hgives : Gives (e.ehTables o pdata [] >>= fun eh ↦ pure ⟨reloc64, pdata, eh⟩)
        fun _ : PeTables ↦ True :=
      gives_bind (gives_ehTables o pdata []) fun eh _ ↦ gives_pure trivial
    exact hgives.safe

/-- The two readers end, and read bytes of the image only, if and only if the tables are where they
can be read inside the image. -/
theorem safe_tables_iff (e : Loaded) (o : PeOptions) :
    Safe (e.seedPdataEntries o) ∧ Safe (e.computePeTables o).run ↔ e.ReadsFit o := by
  have hpos : ∀ n, 0 < n / 12 ↔ 12 ≤ n := fun n ↦ by omega
  rw [safe_computePeTables_iff, safe_reloc64_iff, safe_pdata_iff, safe_seedPdataEntries_iff]
  constructor
  · rintro ⟨hseed, hreloc, hpdata⟩
    exact ⟨hreloc, hpdata, fun hno harch s hs hrva ↦ (hseed hno harch s hs hrva).2⟩
  · rintro ⟨hreloc, hpdata, hunwind⟩
    refine ⟨fun hno harch s hs hrva ↦ ⟨fun hsize ↦ ?_, hunwind hno harch s hs hrva⟩, hreloc, hpdata⟩
    exact hpdata s hs ((hpos _).1 hsize)

/-- An image of one function and its record, with the unwind data at the last address of 32 bits. -/
def unwindAtEnd : Loaded where
  image := List.replicate 8 0x90 ++ [4, 0, 0, 0, 8, 0, 0, 0, 0xFF, 0xFF, 0xFF, 0xFF]
  segments := [⟨".text", 4, 4, true⟩, ⟨".pdata", 8, 12, false⟩]
  length_lt := by decide
  segments_lt := by decide

theorem not_safe_unwindAtEnd : ¬∀ (e : Loaded) (o : PeOptions),
    Safe (e.seedPdataEntries o) ∧ Safe (e.computePeTables o).run := by
  intro h
  have hsafe := (h unwindAtEnd {}).1
  revert hsafe
  decide +kernel

end Loaded

end Listing

end Ldu
