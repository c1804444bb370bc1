import Ldu.Listing.Decoder
import Mathlib.Data.List.Sort

/-!
# What a sweep finds

The listing is closed under direct control flow: code starts at every seed and at every target of a
call, a jump or a branch, as long as the address is executable and inside the image
(`disassemble_closed`). And it has no hole: every byte of an executable segment inside the image
belongs to an instruction (`disassemble_covers`).
-/

namespace Ldu

namespace Listing

/-! ### Sorting -/

section Sorting

variable {insns : List Insn}

/-- Instructions at different addresses are sorted strictly, and all of them stay. -/
theorem sortListing_eq (hnodup : (insns.map (·.rva)).Nodup) :
    sortListing insns = insns.mergeSort (fun a b ↦ a.rva ≤ b.rva) ∧
      (sortListing insns).Pairwise (·.rva < ·.rva) := by
  have hperm := List.mergeSort_perm insns fun a b ↦ decide (a.rva ≤ b.rva)
  have hle : (insns.mergeSort fun a b ↦ a.rva ≤ b.rva).Pairwise fun a b ↦
      decide (a.rva ≤ b.rva) = true :=
    List.pairwise_mergeSort (fun a b c hab hbc ↦ by simp at *; omega)
      (fun a b ↦ by simp; omega) insns
  have hne : (insns.mergeSort fun a b ↦ a.rva ≤ b.rva).Pairwise (·.rva ≠ ·.rva) :=
    List.pairwise_map.1 ((hperm.map Insn.rva).nodup_iff.2 hnodup)
  have hlt : (insns.mergeSort fun a b ↦ a.rva ≤ b.rva).Pairwise (·.rva < ·.rva) :=
    hle.imp₂ (fun a b hab hne ↦ lt_of_le_of_ne (of_decide_eq_true hab) hne) hne
  have heq : sortListing insns = insns.mergeSort fun a b ↦ a.rva ≤ b.rva :=
    List.destutter_eq_self_iff _ _ |>.2 hne.isChain
  exact ⟨heq, heq ▸ hlt⟩

/-- Sorting finds the sorted list with the same instructions. -/
theorem sortListing_eq_of_perm {insns' : List Insn} (hperm : insns.Perm insns')
    (hsorted : insns'.Pairwise (·.rva < ·.rva)) : sortListing insns = insns' := by
  have hnodup : (insns.map (·.rva)).Nodup :=
    ((hperm.map _).nodup_iff).2 (List.pairwise_map.2 (hsorted.imp fun h ↦ h.ne))
  obtain ⟨heq, hlt⟩ := sortListing_eq hnodup
  have hperm' : (sortListing insns).Perm insns' := heq ▸ (List.mergeSort_perm _ _).trans hperm
  exact hperm'.eq_of_pairwise (fun a b _ _ hab hba ↦ absurd hab (Nat.lt_asymm hba)) hlt hsorted

theorem mem_sortListing (hnodup : (insns.map (·.rva)).Nodup) {i : Insn} :
    i ∈ sortListing insns ↔ i ∈ insns := by
  rw [(sortListing_eq hnodup).1]
  exact (List.mergeSort_perm _ _).mem_iff

end Sorting

/-! ### Decoding -/

section Decoding

variable {dec : Decoder} {e : Engine}

theorem decodeAt_rva (rva avail : ℕ) : (decodeAt dec e rva avail).rva = rva :=
  dec.rva_decode _ _ _

theorem linearAvail_pos {rva stop : ℕ} (hstop : rva < stop) (himage : rva < e.image.length) :
    0 < linearAvail e rva stop := by
  unfold linearAvail
  dsimp only
  split <;> omega

/-- The instruction has been decoded from bytes of the image. -/
def Decoded (dec : Decoder) (e : Engine) (i : Insn) : Prop :=
  ∃ rva avail, rva < e.image.length ∧ 0 < avail ∧ i = decodeAt dec e rva avail

theorem decoded_decodeAt {rva avail : ℕ} (himage : rva < e.image.length) (havail : 0 < avail) :
    Decoded dec e (decodeAt dec e rva avail) :=
  ⟨rva, avail, himage, havail, rfl⟩

/-- The instruction has at least one byte and lies in the image. -/
theorem Decoded.sized {i : Insn} (h : Decoded dec e i) :
    0 < i.size ∧ i.rva + i.size ≤ e.image.length := by
  obtain ⟨rva, avail, himage, havail, rfl⟩ := h
  have hlength : ((e.imageFrom rva).take avail).length = min avail (e.image.length - rva) := by
    rw [List.length_take, Engine.imageFrom, List.length_drop]
  have hne : (e.imageFrom rva).take avail ≠ [] := List.ne_nil_of_length_pos (by omega)
  refine ⟨dec.size_pos _ _ _ hne, ?_⟩
  have hle := dec.size_le (e.arch = .x64) _ rva hne
  rw [hlength] at hle
  rw [decodeAt_rva, decodeAt]
  omega

end Decoding

namespace Sweep

/-! ### Closure -/

/-- Code that may stand at `t` has been decoded, or is still on the worklist, or is owed. -/
def Pending (e : Engine) (owed : ℕ → Prop) (st : Sweep) (t : ℕ) : Prop :=
  e.rvaIsExec t = true → t < e.image.length → t ∈ st.visited ∨ t ∈ st.work ∨ owed t

/-- Instructions are found once, and what they lead to is taken care of. -/
structure Inv (dec : Decoder) (e : Engine) (owed : ℕ → Prop) (st : Sweep) : Prop where
  visited : ∀ t, t ∈ st.visited ↔ ∃ i ∈ st.insns, i.rva = t
  nodup : (st.insns.map (·.rva)).Nodup
  decoded : ∀ i ∈ st.insns, Decoded dec e i
  closed : ∀ i ∈ st.insns, ∀ t, i.target? = some t → st.Pending e owed t
  seeds : ∀ t ∈ e.seeds, st.Pending e owed t

variable {dec : Decoder} {e : Engine} {owed owed' : ℕ → Prop} {st st' : Sweep}

theorem Inv.mono (h : st.Inv dec e owed)
    (howed : ∀ t, st.Pending e owed t → st.Pending e owed' t) : st.Inv dec e owed' :=
  ⟨h.visited, h.nodup, h.decoded, fun i hi t ht ↦ howed t (h.closed i hi t ht),
    fun t ht ↦ howed t (h.seeds t ht)⟩

/-- What is owed has been decoded, or no code may stand there. -/
theorem Inv.paid (h : st.Inv dec e owed) (hpaid : ∀ t, owed t → e.rvaIsExec t = true →
    t < e.image.length → t ∈ st.visited) : st.Inv dec e fun _ ↦ False := by
  refine h.mono fun t ht hexec hlt ↦ ?_
  rcases ht hexec hlt with ht | ht | ht
  · exact .inl ht
  · exact .inr (.inl ht)
  · exact .inl (hpaid t ht hexec hlt)

/-- `st'` is `st` with the instruction `i`, and its target is taken care of. -/
structure Found (e : Engine) (i : Insn) (st st' : Sweep) : Prop where
  insns : st'.insns = st.insns ++ [i]
  visited : st'.visited = insert i.rva st.visited
  work : ∀ t ∈ st.work, t ∈ st'.work
  target : ∀ t, i.target? = some t → st'.Pending e (fun _ ↦ False) t

theorem found_queueLinear (e : Engine) (i : Insn) (st : Sweep) :
    Found e i st (queueLinear e i (st.record i)) := by
  unfold queueLinear
  split
  · next t ht =>
    split
    · refine ⟨rfl, rfl, fun u hu ↦ List.mem_cons_of_mem _ hu, fun u hu _ _ ↦ ?_⟩
      obtain rfl := Option.some.inj (ht.symm.trans hu)
      exact .inr (.inl List.mem_cons_self)
    · next hexec =>
      refine ⟨rfl, rfl, fun u hu ↦ hu, fun u hu hexec' _ ↦ absurd ?_ hexec⟩
      rwa [Option.some.inj (ht.symm.trans hu)]
  · next ht => exact ⟨rfl, rfl, fun u hu ↦ hu, fun u hu ↦ by rw [ht] at hu; cases hu⟩

theorem found_queueRun (e : Engine) (i : Insn) (st : Sweep) :
    Found e i st (queueRun e i (st.record i)) := by
  unfold queueRun
  split
  · next t ht =>
    split
    · refine ⟨rfl, rfl, fun u hu ↦ List.mem_cons_of_mem _ hu, fun u hu _ _ ↦ ?_⟩
      obtain rfl := Option.some.inj (ht.symm.trans hu)
      exact .inr (.inl List.mem_cons_self)
    · next hskip =>
      refine ⟨rfl, rfl, fun u hu ↦ hu, fun u hu hexec _ ↦ .inl ?_⟩
      obtain rfl := Option.some.inj (ht.symm.trans hu)
      simpa [hexec] using hskip
  · next ht => exact ⟨rfl, rfl, fun u hu ↦ hu, fun u hu ↦ by rw [ht] at hu; cases hu⟩

/-- Decoding the address that is owed, or another one that has not been visited. -/
theorem Inv.found {i : Insn} (h : st.Inv dec e owed) (howed : ∀ t, owed t → t = i.rva)
    (hi : i.rva ∉ st.visited) (hdecoded : Decoded dec e i) (hst' : Found e i st st') :
    st'.Inv dec e fun _ ↦ False := by
  have hpending : ∀ t, st.Pending e owed t → st'.Pending e (fun _ ↦ False) t := by
    intro t ht hexec hlt
    rcases ht hexec hlt with ht | ht | ht
    · exact .inl (hst'.visited ▸ Finset.mem_insert_of_mem ht)
    · exact .inr (.inl (hst'.work t ht))
    · exact .inl (hst'.visited ▸ howed t ht ▸ Finset.mem_insert_self _ _)
  refine ⟨fun t ↦ ?_, ?_, fun j hj ↦ ?_, fun j hj t ht ↦ ?_,
    fun t ht ↦ hpending t (h.seeds t ht)⟩
  · -- The visited addresses are those of the instructions, of the new one too.
    rw [hst'.visited, hst'.insns, Finset.mem_insert, h.visited]
    constructor
    · rintro (rfl | ⟨j, hj, rfl⟩)
      · exact ⟨i, by simp, rfl⟩
      · exact ⟨j, by simp [hj], rfl⟩
    · rintro ⟨j, hj, rfl⟩
      rcases List.mem_append.1 hj with hj | hj
      · exact .inr ⟨j, hj, rfl⟩
      · exact .inl (by rw [List.mem_singleton.1 hj])
  · rw [hst'.insns, List.map_append, List.nodup_append]
    refine ⟨h.nodup, by simp, fun a ha b hb ↦ ?_⟩
    rintro rfl
    obtain ⟨j, hj, rfl⟩ := List.mem_map.1 ha
    rw [List.map_singleton, List.mem_singleton] at hb
    exact hi ((h.visited _).2 ⟨j, hj, hb⟩)
  · rw [hst'.insns, List.mem_append, List.mem_singleton] at hj
    exact hj.elim (h.decoded j) fun hj ↦ hj ▸ hdecoded
  · -- What the new instruction leads to has just been queued.
    rw [hst'.insns, List.mem_append, List.mem_singleton] at hj
    rcases hj with hj | rfl
    · exact hpending t (h.closed j hj t ht)
    · exact hst'.target t ht

end Sweep

section Closure

variable {dec : Decoder} {e : Engine} {st : Sweep}

/-- Decoding an address in the linear sweep. -/
theorem inv_decodeLinear {stop rva : ℕ} (h : st.Inv dec e fun _ ↦ False)
    (hvisited : rva ∉ st.visited)
    (hstop : rva < stop) (himage : rva < e.image.length) :
    (queueLinear e (decodeAt dec e rva (linearAvail e rva stop))
      (st.record (decodeAt dec e rva (linearAvail e rva stop)))).Inv dec e fun _ ↦ False :=
  h.found (fun _ h ↦ h.elim) (by rwa [decodeAt_rva])
    (decoded_decodeAt himage (linearAvail_pos hstop himage)) (Sweep.found_queueLinear _ _ _)

theorem inv_linearFrom {stop fuel rva : ℕ} (h : st.Inv dec e fun _ ↦ False) :
    (linearFrom dec e stop fuel rva st).Inv dec e fun _ ↦ False := by
  induction fuel generalizing rva st with
  | zero => exact h
  | succ fuel ih =>
    rw [linearFrom]
    split
    · exact h
    · next hend =>
      split
      · exact ih h
      · next hvisited =>
        split
        · exact h
        · next himage =>
          have hdecode := inv_decodeLinear h hvisited (not_le.1 (not_or.1 hend).1)
            (not_le.1 himage)
          dsimp only
          split
          · exact hdecode
          · exact ih hdecode

theorem inv_linear (h : st.Inv dec e fun _ ↦ False) (segments : List Segment) :
    (segments.foldl (linearSegment dec e) st).Inv dec e fun _ ↦ False := by
  refine List.foldlRecOn (motive := fun st : Sweep ↦ st.Inv dec e fun _ ↦ False) segments _ h
    fun st h s _ ↦ ?_
  unfold linearSegment
  split
  · exact h
  · exact inv_linearFrom h

/-- A run decodes the address it starts at, if that is owed. -/
theorem inv_sweepRun {fuel rva : ℕ} {owed : ℕ → Prop} (h : st.Inv dec e owed)
    (howed : ∀ t, owed t → t = rva ∧ (rva < e.image.length → 0 < fuel ∧
      st.insns.length < maxInsns)) : (sweepRun dec e fuel rva st).Inv dec e fun _ ↦ False := by
  induction fuel generalizing rva st owed with
  | zero =>
    refine h.paid fun t ht _ hlt ↦ ?_
    obtain ⟨rfl, hfirst⟩ := howed t ht
    exact absurd (hfirst hlt).1 (lt_irrefl 0)
  | succ fuel ih =>
    rw [sweepRun]
    split
    · next hskip =>
      refine h.paid fun t ht hexec hlt ↦ ?_
      obtain ⟨rfl, hfirst⟩ := howed t ht
      simp only [Bool.or_eq_true, decide_eq_true_eq, Bool.not_eq_true', hexec] at hskip
      have := (hfirst hlt).2
      rcases hskip with ((hskip | hskip) | hskip) | hskip
      · omega
      · cases hskip
      · exact hskip
      · omega
    · next hgo =>
      simp only [Bool.or_eq_true, decide_eq_true_eq, not_or] at hgo
      have hfound := h.found (i := decodeAt dec e rva (min (e.image.length - rva) 15))
        (fun t ht ↦ ((howed t ht).1).trans (decodeAt_rva _ _).symm)
        (by rw [decodeAt_rva]; exact hgo.1.2) (decoded_decodeAt (not_le.1 hgo.2) (by omega))
        (Sweep.found_queueRun _ _ _)
      dsimp only
      split
      · exact hfound
      · exact ih hfound fun _ h ↦ h.elim

theorem inv_descend {guard : ℕ} (h : st.Inv dec e fun _ ↦ False) :
    (descend dec e guard st).Inv dec e fun _ ↦ False := by
  induction guard generalizing st with
  | zero => exact h
  | succ guard ih =>
    rw [descend]
    split
    · exact h
    · next hcap =>
      split
      · exact h
      · next target work hwork =>
        -- The address taken from the worklist is owed until it is decoded.
        have hpop : Sweep.Inv dec e (· = target) { st with work := work } := by
          have hpending : ∀ t, st.Pending e (fun _ ↦ False) t →
              Sweep.Pending e (· = target) { st with work := work } t := by
            intro t ht hexec hlt
            rcases ht hexec hlt with ht | ht | ht
            · exact .inl ht
            · rw [hwork] at ht
              exact .inr ((List.mem_cons.1 ht).symm)
            · exact ht.elim
          exact ⟨h.visited, h.nodup, h.decoded, fun i hi t ht ↦ hpending t (h.closed i hi t ht),
            fun t ht ↦ hpending t (h.seeds t ht)⟩
        dsimp only
        split
        · next hskip =>
          refine ih (hpop.paid ?_)
          rintro t rfl hexec -
          simpa [hexec] using hskip
        · exact ih (inv_sweepRun hpop fun t ht ↦ ⟨ht, fun hlt ↦ ⟨by omega, not_le.1 hcap⟩⟩)

/-- The seeds are on the worklist at the start. -/
theorem inv_init : Sweep.Inv dec e (fun _ ↦ False) ⟨[], ∅, e.seeds.reverse⟩ := by
  refine ⟨fun t ↦ ?_, List.nodup_nil, fun i hi ↦ absurd hi List.not_mem_nil,
    fun i hi ↦ absurd hi List.not_mem_nil, fun t ht _ _ ↦ ?_⟩
  · simp
  · exact .inr (.inl (List.mem_reverse.2 ht))

theorem inv_sweep (dec : Decoder) (e : Engine) : (sweep dec e).Inv dec e fun _ ↦ False :=
  inv_descend (inv_linear inv_init _)

end Closure

/-! ### Coverage -/

section Coverage

variable {dec : Decoder} {e : Engine} {st : Sweep}

/-- Some instruction found has a byte at `a`. -/
def Covers (insns : List Insn) (a : ℕ) : Prop :=
  ∃ i ∈ insns, i.rva ≤ a ∧ a < i.rva + i.size

theorem Covers.mono {insns insns' : List Insn} {a : ℕ} (h : Covers insns a)
    (hsub : insns <+: insns') : Covers insns' a := by
  obtain ⟨i, hi, ha⟩ := h
  exact ⟨i, hsub.subset hi, ha⟩

theorem Sweep.Found.insns_isPrefix {i : Insn} {st st' : Sweep} (h : Sweep.Found e i st st') :
    st.insns <+: st'.insns :=
  h.insns ▸ List.prefix_append _ _

theorem insns_isPrefix_linearFrom (stop fuel rva : ℕ) (st : Sweep) :
    st.insns <+: (linearFrom dec e stop fuel rva st).insns := by
  induction fuel generalizing rva st with
  | zero => exact List.prefix_rfl
  | succ fuel ih =>
    rw [linearFrom]
    split
    · exact List.prefix_rfl
    · split
      · exact ih _ _
      · split
        · exact List.prefix_rfl
        · have hfound := (Sweep.found_queueLinear e
            (decodeAt dec e rva (linearAvail e rva stop)) st).insns_isPrefix
          dsimp only
          split
          · exact hfound
          · exact hfound.trans (ih _ _)

theorem insns_isPrefix_linearSegment (st : Sweep) (s : Segment) :
    st.insns <+: (linearSegment dec e st s).insns := by
  unfold linearSegment
  split
  · exact List.prefix_rfl
  · exact insns_isPrefix_linearFrom _ _ _ _

theorem insns_isPrefix_linear (segments : List Segment) (st : Sweep) :
    st.insns <+: (segments.foldl (linearSegment dec e) st).insns := by
  induction segments generalizing st with
  | nil => exact List.prefix_rfl
  | cons s segments ih => exact (insns_isPrefix_linearSegment st s).trans (ih _)

theorem insns_isPrefix_sweepRun (fuel rva : ℕ) (st : Sweep) :
    st.insns <+: (sweepRun dec e fuel rva st).insns := by
  induction fuel generalizing rva st with
  | zero => exact List.prefix_rfl
  | succ fuel ih =>
    rw [sweepRun]
    split
    · exact List.prefix_rfl
    · have hfound := (Sweep.found_queueRun e
        (decodeAt dec e rva (min (e.image.length - rva) 15)) st).insns_isPrefix
      dsimp only
      split
      · exact hfound
      · exact hfound.trans (ih _ _)

theorem insns_isPrefix_descend (guard : ℕ) (st : Sweep) :
    st.insns <+: (descend dec e guard st).insns := by
  induction guard generalizing st with
  | zero => exact List.prefix_rfl
  | succ guard ih =>
    rw [descend]
    split
    · exact List.prefix_rfl
    · split
      · exact List.prefix_rfl
      · next target work _ =>
        dsimp only
        split
        · exact ih { st with work := work }
        · exact (insns_isPrefix_sweepRun _ _ { st with work := work }).trans (ih _)

theorem step_eq {i : Insn} (h : 0 < i.size) : i.step = i.size :=
  if_neg h.ne'

/-- The sweep steps over an address it has visited by no more than an instruction that lies
there. -/
theorem exists_visited_step (hinv : st.Inv dec e fun _ ↦ False) {rva : ℕ} (h : rva ∈ st.visited) :
    0 < ((insnAt st.insns rva).map (·.step)).getD 1 ∧
      ∃ i ∈ st.insns, i.rva = rva ∧ ((insnAt st.insns rva).map (·.step)).getD 1 ≤ i.size := by
  cases hat : insnAt st.insns rva with
  | none =>
    obtain ⟨i, hi, hirva⟩ := (hinv.visited rva).1 h
    exact ⟨Nat.one_pos, i, hi, hirva, (hinv.decoded i hi).sized.1⟩
  | some i =>
    obtain ⟨hi, hirva⟩ := of_insnAt hat
    have hsize := (hinv.decoded i hi).sized.1
    rw [Option.map_some, Option.getD_some, step_eq hsize]
    exact ⟨hsize, i, hi, hirva, le_rfl⟩

/-- The linear sweep of a segment covers it. -/
theorem linearFrom_covers {stop fuel rva : ℕ} (hinv : st.Inv dec e fun _ ↦ False)
    (hstop : stop < 2 ^ 64) (hfuel : stop - rva ≤ fuel)
    (hcap : (linearFrom dec e stop fuel rva st).insns.length < maxInsns) {a : ℕ} (hle : rva ≤ a)
    (hlt : a < stop) (himage : a < e.image.length) :
    Covers (linearFrom dec e stop fuel rva st).insns a := by
  induction fuel generalizing rva st with
  | zero => omega
  | succ fuel ih =>
    rw [linearFrom] at hcap ⊢
    split
    · next hend =>
      rw [if_pos hend] at hcap
      omega
    · next hend =>
      rw [if_neg hend] at hcap
      -- From the next address on, or because the sum has wrapped.
      have hgo : ∀ (st' : Sweep) (n : ℕ), st'.Inv dec e (fun _ ↦ False) → 0 < n → rva + n ≤ a →
          (linearFrom dec e stop fuel (wrap64 (rva + n)) st').insns.length < maxInsns →
          Covers (linearFrom dec e stop fuel (wrap64 (rva + n)) st').insns a := by
        intro st' n hinv' hn hna hcap'
        have hsum : wrap64 (rva + n) = rva + n := Nat.mod_eq_of_lt (by omega)
        exact ih hinv' (by omega) hcap' (by omega)
      split
      · next hvisited =>
        rw [if_pos hvisited] at hcap
        obtain ⟨hpos, i, hi, hirva, hsize⟩ := exists_visited_step hinv hvisited
        by_cases hstep : rva + ((insnAt st.insns rva).map (·.step)).getD 1 ≤ a
        · exact hgo st _ hinv hpos hstep hcap
        · -- The address lies in the instruction that is stepped over.
          exact Covers.mono ⟨i, hi, by omega, by omega⟩ (insns_isPrefix_linearFrom _ _ _ _)
      · next hvisited =>
        rw [if_neg hvisited] at hcap
        split
        · next hout => omega
        · next hin =>
          -- Something is decoded here, and either reaches the address or leaves it to the rest.
          rw [if_neg hin] at hcap
          have hrva := not_le.1 (not_or.1 hend).1
          have hdecode := inv_decodeLinear hinv hvisited hrva (not_le.1 hin)
          have hmem : decodeAt dec e rva (linearAvail e rva stop) ∈
              (queueLinear e (decodeAt dec e rva (linearAvail e rva stop))
                (st.record (decodeAt dec e rva (linearAvail e rva stop)))).insns := by
            rw [(Sweep.found_queueLinear _ _ _).insns]
            simp
          have hsize := (hdecode.decoded _ hmem).sized.1
          have hirva : (decodeAt dec e rva (linearAvail e rva stop)).rva = rva := decodeAt_rva _ _
          dsimp only at hcap ⊢
          rw [step_eq hsize] at hcap ⊢
          by_cases hnext : rva + (decodeAt dec e rva (linearAvail e rva stop)).size ≤ a
          · have hsum : wrap64 (rva + (decodeAt dec e rva (linearAvail e rva stop)).size) =
                rva + (decodeAt dec e rva (linearAvail e rva stop)).size :=
              Nat.mod_eq_of_lt (by omega)
            rw [if_neg (by omega)] at hcap ⊢
            exact hgo _ _ hdecode hsize hnext hcap
          · have hcovers : Covers (queueLinear e (decodeAt dec e rva (linearAvail e rva stop))
                (st.record (decodeAt dec e rva (linearAvail e rva stop)))).insns a :=
              ⟨_, hmem, by omega, by omega⟩
            split
            · exact hcovers
            · exact hcovers.mono (insns_isPrefix_linearFrom _ _ _ _)

theorem linearSegment_eq {s : Segment} (hexec : s.exec = true) (hstop : s.rva ≤ s.stop)
    (hcap : st.insns.length < maxInsns) :
    linearSegment dec e st s = linearFrom dec e s.stop s.size s.rva st := by
  refine if_neg ?_
  rw [hexec]
  simp only [Bool.not_true, Bool.false_eq_true, false_or]
  omega

/-- The sweep covers every executable segment. -/
theorem sweep_covers (hcap : (sweep dec e).insns.length < maxInsns) {s : Segment}
    (hs : s ∈ e.segments) (hexec : s.exec = true) (hwrap : s.rva + s.size < 2 ^ 64) {a : ℕ}
    (hle : s.rva ≤ a) (hlt : a < s.rva + s.size) (himage : a < e.image.length) :
    Covers (sweep dec e).insns a := by
  obtain ⟨before, after, hsplit⟩ := List.append_of_mem hs
  have hstop : s.stop = s.rva + s.size := Nat.mod_eq_of_lt hwrap
  have hinit : Sweep.Inv dec e (fun _ ↦ False) ⟨[], ∅, e.seeds.reverse⟩ := inv_init
  have hinv := inv_linear hinit before
  -- What the segment leaves is still there at the end.
  have hprefix : (linearSegment dec e (before.foldl (linearSegment dec e)
      ⟨[], ∅, e.seeds.reverse⟩) s).insns <+: (sweep dec e).insns := by
    unfold sweep
    dsimp only
    rw [hsplit, List.foldl_append, List.foldl_cons]
    exact (insns_isPrefix_linear _ _).trans (insns_isPrefix_descend _ _)
  have hlength := hprefix.length_le
  have hbefore : (before.foldl (linearSegment dec e) ⟨[], ∅, e.seeds.reverse⟩).insns.length ≤
      (linearSegment dec e (before.foldl (linearSegment dec e)
        ⟨[], ∅, e.seeds.reverse⟩) s).insns.length := (insns_isPrefix_linearSegment _ s).length_le
  have hsegment : linearSegment dec e (before.foldl (linearSegment dec e)
      ⟨[], ∅, e.seeds.reverse⟩) s = linearFrom dec e s.stop s.size s.rva
        (before.foldl (linearSegment dec e) ⟨[], ∅, e.seeds.reverse⟩) :=
    linearSegment_eq hexec (by omega) (by omega)
  refine Covers.mono ?_ hprefix
  rw [hsegment] at hlength ⊢
  exact linearFrom_covers hinv (hstop ▸ hwrap) (by omega) (by omega) hle (by omega) himage

end Coverage

/-! ### The listing -/

/-- An instruction starts at `t`. -/
def StartsAt (insns : List Insn) (t : ℕ) : Prop :=
  ∃ i ∈ insns, i.rva = t

/-- Code may stand at `t`, and the image has it. -/
def Engine.CodeAt (e : Engine) (t : ℕ) : Prop :=
  e.rvaIsExec t = true ∧ t < e.image.length

/-- Some executable segment has `t`, be it the first one that does or not, and the image has it. -/
def Engine.InCode (e : Engine) (t : ℕ) : Prop :=
  (∃ s ∈ e.segments, s.exec = true ∧ s.contains t = true) ∧ t < e.image.length

theorem Engine.rvaIsExec_iff {e : Engine} {t : ℕ} :
    e.rvaIsExec t = true ↔ ∃ s, e.segForRva t = some s ∧ s.exec = true := by
  cases h : e.segForRva t <;> simp [Engine.rvaIsExec, h]

/-- Where the segments with `t` are all executable or all not, it does not matter which one comes
first. -/
theorem Engine.codeAt_iff_inCode {e : Engine} {t : ℕ}
    (hagree : ∀ s ∈ e.segments, ∀ s' ∈ e.segments, s.contains t = true → s'.contains t = true →
      s.exec = s'.exec) : e.CodeAt t ↔ e.InCode t := by
  have hcontains : ∀ {s}, e.segForRva t = some s → s.contains t = true := fun hfind ↦
    List.find?_some (p := fun s : Segment ↦ s.contains t) hfind
  refine and_congr_left fun _ ↦ ⟨fun h ↦ ?_, fun ⟨s, hs, hexec, hs'⟩ ↦ ?_⟩
  · obtain ⟨s, hfind, hexec⟩ := Engine.rvaIsExec_iff.1 h
    exact ⟨s, List.mem_of_find?_eq_some hfind, hexec, hcontains hfind⟩
  · obtain ⟨s', hfind⟩ : ∃ s', e.segForRva t = some s' :=
      Option.isSome_iff_exists.1 (List.find?_isSome.2 ⟨s, hs, hs'⟩)
    have hsame := hagree s' (List.mem_of_find?_eq_some hfind) s hs (hcontains hfind) hs'
    exact Engine.rvaIsExec_iff.2 ⟨s', hfind, hsame.trans hexec⟩

section Disassemble

variable {dec : Decoder} {e : Engine} {noPdataSeed : Bool}

/-- Seeding adds entries and nothing else. -/
theorem seedPdataFrom_eq (n base : ℕ) (e : Engine) :
    ∃ entries, e.seedPdataFrom n base = { e with entries := entries } := by
  induction n generalizing base e with
  | zero => exact ⟨e.entries, rfl⟩
  | succ n ih =>
    rw [Engine.seedPdataFrom]
    split
    · split
      · exact ⟨e.entries, rfl⟩
      · split
        · exact ih _ e
        · unfold Engine.addEntry
          split
          · exact ih _ e
          · exact ih _ _
    · exact ⟨e.entries, rfl⟩

theorem seedPdataEntries_eq (noPdataSeed : Bool) (e : Engine) :
    ∃ entries, e.seedPdataEntries noPdataSeed = { e with entries := entries } := by
  unfold Engine.seedPdataEntries
  split
  · exact ⟨e.entries, rfl⟩
  · split
    · split
      · exact ⟨e.entries, rfl⟩
      · exact seedPdataFrom_eq _ _ e
    · exact ⟨e.entries, rfl⟩

theorem disassemble_eq (himage : e.image ≠ []) (harch : e.arch = .x86 ∨ e.arch = .x64) :
    disassemble dec noPdataSeed e =
      { e.seedPdataEntries noPdataSeed with
        insns := sortListing (sweep dec (e.seedPdataEntries noPdataSeed)).insns
        refs := (e.seedPdataEntries noPdataSeed).refs ++
          (sortListing (sweep dec (e.seedPdataEntries noPdataSeed)).insns).filterMap (·.ref?)} := by
  obtain ⟨entries, hentries⟩ := seedPdataEntries_eq noPdataSeed e
  rw [disassemble, if_neg himage]
  dsimp only
  rw [hentries, if_neg]
  rcases harch with harch | harch <;> rw [harch] <;> decide

/-- The listing is the sorted list with the instructions that the sweep finds. -/
theorem disassemble_insns_eq {insns : List Insn} (himage : e.image ≠ [])
    (harch : e.arch = .x86 ∨ e.arch = .x64)
    (hperm : (sweep dec (e.seedPdataEntries noPdataSeed)).insns.Perm insns)
    (hsorted : insns.Pairwise (·.rva < ·.rva)) : (disassemble dec noPdataSeed e).insns = insns := by
  rw [disassemble_eq himage harch]
  exact sortListing_eq_of_perm hperm hsorted

/-- Disassembling a fresh engine sorts and decodes. -/
theorem disassemble_fresh (dec : Decoder) (noPdataSeed : Bool) (e : Engine)
    (hfresh : e.insns = []) : (disassemble dec noPdataSeed e).insns.Pairwise (·.rva < ·.rva) ∧
      ∀ i ∈ (disassemble dec noPdataSeed e).insns, Decoded dec e i := by
  obtain ⟨entries, hentries⟩ := seedPdataEntries_eq noPdataSeed e
  have hnil : ([] : List Insn).Pairwise (·.rva < ·.rva) ∧ ∀ i ∈ [], Decoded dec e i :=
    ⟨.nil, fun i hi ↦ absurd hi List.not_mem_nil⟩
  by_cases hempty : e.image = []
  · rw [disassemble, if_pos hempty, hfresh]
    exact hnil
  by_cases harch : e.arch = .x86 ∨ e.arch = .x64
  · rw [disassemble_eq hempty harch]
    have hinv := inv_sweep dec (e.seedPdataEntries noPdataSeed)
    refine ⟨(sortListing_eq hinv.nodup).2, fun i hi ↦ ?_⟩
    have hdecoded := hinv.decoded i ((mem_sortListing hinv.nodup).1 hi)
    rw [hentries] at hdecoded
    exact hdecoded
  · rw [disassemble, if_neg hempty]
    dsimp only
    rw [hentries, if_pos]
    · rw [hfresh]
      exact hnil
    · rcases harch' : e.arch with - | - | - | - <;> simp [harch'] at harch ⊢

/-- A listing: sorted by address, with instructions of at least one byte that end below `2 ^ 64`. -/
structure WellFormed (insns : List Insn) : Prop where
  sorted : insns.Pairwise (·.rva < ·.rva)
  size_pos : ∀ i ∈ insns, 0 < i.size
  stop_lt : ∀ i ∈ insns, i.rva + i.size < 2 ^ 64

/-- Disassembling leaves a listing. -/
theorem wellFormed_disassemble (dec : Decoder) (noPdataSeed : Bool) (e : Engine)
    (hfresh : e.insns = []) (himage : e.image.length < 2 ^ 64) :
    WellFormed (disassemble dec noPdataSeed e).insns := by
  obtain ⟨hsorted, hdecoded⟩ := disassemble_fresh dec noPdataSeed e hfresh
  exact ⟨hsorted, fun i hi ↦ (hdecoded i hi).sized.1,
    fun i hi ↦ (hdecoded i hi).sized.2.trans_lt himage⟩

/-- **The listing is closed under direct control flow**: instructions start at the seeds and at the
targets of calls, jumps and branches, where code may stand. -/
theorem disassemble_closed (dec : Decoder) (noPdataSeed : Bool) (e : Engine)
    (harch : e.arch = .x86 ∨ e.arch = .x64) (hfresh : e.insns = [])
    (hcaps : CapsNotReached dec noPdataSeed e) :
    (disassemble dec noPdataSeed e).insns.Pairwise (·.rva < ·.rva) ∧
      (∀ t ∈ (disassemble dec noPdataSeed e).seeds, (disassemble dec noPdataSeed e).CodeAt t →
        StartsAt (disassemble dec noPdataSeed e).insns t) ∧
      ∀ i ∈ (disassemble dec noPdataSeed e).insns, ∀ t, i.target? = some t →
        (disassemble dec noPdataSeed e).CodeAt t →
          StartsAt (disassemble dec noPdataSeed e).insns t := by
  by_cases himage : e.image = []
  · rw [disassemble, if_pos himage, hfresh]
    refine ⟨.nil, fun t _ ht ↦ ?_, fun i hi ↦ absurd hi List.not_mem_nil⟩
    exact absurd ht.2 (by rw [himage]; exact Nat.not_lt_zero t)
  · rw [disassemble_eq himage harch]
    have hinv := inv_sweep dec (e.seedPdataEntries noPdataSeed)
    -- The worklist is empty, so nothing is pending.
    have hstarts : ∀ t, (sweep dec (e.seedPdataEntries noPdataSeed)).Pending
        (e.seedPdataEntries noPdataSeed) (fun _ ↦ False) t →
        (e.seedPdataEntries noPdataSeed).CodeAt t →
          StartsAt (sortListing (sweep dec (e.seedPdataEntries noPdataSeed)).insns) t := by
      intro t ht hcode
      rcases ht hcode.1 hcode.2 with ht | ht | ht
      · obtain ⟨i, hi, hrva⟩ := (hinv.visited t).1 ht
        exact ⟨i, (mem_sortListing hinv.nodup).2 hi, hrva⟩
      · rw [hcaps.2] at ht
        exact absurd ht List.not_mem_nil
      · exact ht.elim
    exact ⟨(sortListing_eq hinv.nodup).2, fun t ht ↦ hstarts t (hinv.seeds t ht), fun i hi t ht ↦
      hstarts t (hinv.closed i ((mem_sortListing hinv.nodup).1 hi) t ht)⟩

/-- A call of the next instruction, which returns. -/
def callNext : Engine where
  image := [0xE8, 0, 0, 0, 0, 0xC3]
  entry := some 0
  segments := [⟨".text", 0, 6, true⟩]

theorem callNext_closed :
    (disassemble builtin true callNext).insns.Pairwise (·.rva < ·.rva) ∧
      (∀ t ∈ (disassemble builtin true callNext).seeds,
        (disassemble builtin true callNext).CodeAt t →
          StartsAt (disassemble builtin true callNext).insns t) ∧
      ∀ i ∈ (disassemble builtin true callNext).insns, ∀ t, i.target? = some t →
        (disassemble builtin true callNext).CodeAt t →
          StartsAt (disassemble builtin true callNext).insns t :=
  disassemble_closed builtin true callNext (.inr rfl) rfl ⟨by decide, by decide⟩

/-- The first segment, which is not executable, hides that the entry is in the second one. The bytes
at the entry stay part of the instruction before. -/
def shadowedEntry : Engine where
  image := [0xB0, 0xC3, 0xC3]
  entry := some 1
  segments := [⟨".rdata", 0, 3, false⟩, ⟨".text", 0, 3, true⟩]

theorem shadowedEntry_not_closed :
    ¬∀ (dec : Decoder) (noPdataSeed : Bool) (e : Engine), (e.arch = .x86 ∨ e.arch = .x64) →
      e.insns = [] → CapsNotReached dec noPdataSeed e →
      (disassemble dec noPdataSeed e).insns.Pairwise (·.rva < ·.rva) ∧
        (∀ t ∈ (disassemble dec noPdataSeed e).seeds, (disassemble dec noPdataSeed e).InCode t →
          StartsAt (disassemble dec noPdataSeed e).insns t) ∧
        ∀ i ∈ (disassemble dec noPdataSeed e).insns, ∀ t, i.target? = some t →
          (disassemble dec noPdataSeed e).InCode t →
            StartsAt (disassemble dec noPdataSeed e).insns t := by
  intro h
  have hcode : (disassemble builtin true shadowedEntry).InCode 1 :=
    ⟨⟨⟨".text", 0, 3, true⟩, by decide, rfl, rfl⟩, by decide⟩
  obtain ⟨i, hi, hrva⟩ :=
    (h builtin true shadowedEntry (.inr rfl) rfl ⟨by decide, by decide⟩).2.1 1 (by decide) hcode
  rw [disassemble_eq (by decide) (.inr rfl)] at hi
  have hi := List.mem_map_of_mem (f := Insn.rva)
    ((mem_sortListing (by decide : ((sweep builtin shadowedEntry).insns.map (·.rva)).Nodup)).1 hi)
  rw [hrva] at hi
  exact absurd hi (by decide)

end Disassemble

end Listing

end Ldu
