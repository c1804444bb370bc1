import Ldu.Listing.Extents
import Mathlib.Data.List.Destutter

/-!
# Cross references

`buildXrefs` sorts the references that disassembling has recorded, drops repeated ones, and counts
the calls of each function anew. So the references to an address are those of the instructions of
the listing that refer to it, once each and by address, and a function has as many calls as there
are calling instructions from its start up to its end and before the next function
(`buildXrefs_exact`). Recovered functions may overlap; a call in the overlap counts for the second.

Naming the functions, which comes before, does not touch what is used here.
-/

namespace Ldu

namespace Listing

/-! ### References -/

/-- The number of a kind. -/
def XrefKind.num : XrefKind → ℕ
  | .call => 1
  | .jmp => 2
  | .data => 3

/-- References are sorted by target, then by source, then by kind. -/
def Ref.lt (a b : Ref) : Bool :=
  if a.dst ≠ b.dst then a.dst < b.dst
  else if a.src ≠ b.src then a.src < b.src
  else a.kind.num < b.kind.num

/-- Sorted, with one reference of each kind from one address to another. -/
def sortRefs (refs : List Ref) : List Ref :=
  (refs.mergeSort fun a b ↦ !b.lt a).destutter (· ≠ ·)

/-- The function that an address belongs to, `func_index_for_rva`. The search is for the first
function that starts behind the address. -/
def funcIndexForRva (funcs : List Func) (rva : ℕ) : Option ℕ :=
  let lo := BinarySearch.lowerBound Func.rva funcs (rva + 1) funcs.length 0 funcs.length
  if lo = 0 then none
  else
    match funcs[lo - 1]? with
    | none => none
    | some f =>
      if f.rva ≤ rva ∧ (f.size = 0 ∨ rva < wrap64 (f.rva + f.size)) then some (lo - 1)
      else if f.size = 0 then
        if f.rva ≤ rva ∧ rva < (funcs[lo]?.map (·.rva)).getD (2 ^ 64 - 1) then some (lo - 1)
        else none
      else none

/-- The calls of each function are counted anew. -/
def countCalls (refs : List Ref) (funcs : List Func) : List Func :=
  refs.foldl (fun fs r ↦
    if r.kind ≠ .call then fs
    else
      match funcIndexForRva funcs r.src with
      | some k => fs.modify k fun f ↦ { f with callCount := f.callCount + 1 }
      | none => fs) (funcs.map fun f ↦ { f with callCount := 0 })

namespace Engine

/-- `ds_engine_build_xrefs` -/
def buildXrefs (e : Engine) : Engine :=
  { e with
    refs := sortRefs e.refs
    funcs := countCalls (sortRefs e.refs) e.funcs }

/-- The references to an address, `ds_get_xrefs_to` with room for all of them. -/
def xrefsTo (e : Engine) (rva : ℕ) : List Ref :=
  e.refs.filter (·.dst = rva)

end Engine

/-! ### Sorting -/

theorem XrefKind.num_injective : Function.Injective XrefKind.num := by
  intro a b h
  cases a <;> cases b <;> first | rfl | cases h

theorem Ref.lt_iff {a b : Ref} : a.lt b = true ↔ a.dst < b.dst ∨
    a.dst = b.dst ∧ (a.src < b.src ∨ a.src = b.src ∧ a.kind.num < b.kind.num) := by
  unfold Ref.lt
  split
  · simp only [decide_eq_true_eq]
    omega
  · split <;> simp only [decide_eq_true_eq] <;> omega

theorem Ref.lt_irrefl (a : Ref) : a.lt a = false := by
  simp [Ref.lt]

theorem Ref.eq_of_not_lt {a b : Ref} (h : a.lt b = false) (h' : b.lt a = false) : a = b := by
  rw [← Bool.not_eq_true, Ref.lt_iff] at h h'
  obtain ⟨src, dst, kind⟩ := a
  obtain ⟨src', dst', kind'⟩ := b
  dsimp only at h h'
  obtain rfl : dst = dst' := by omega
  obtain rfl : src = src' := by omega
  obtain rfl : kind = kind' := XrefKind.num_injective (by omega)
  rfl

/-- References in order that differ are in strict order. -/
theorem Ref.lt_of_ne {a b : Ref} (h : b.lt a = false) (hne : a ≠ b) : a.lt b = true := by
  by_contra hlt
  exact hne (Ref.eq_of_not_lt (Bool.eq_false_of_not_eq_true hlt) h)

theorem sortRefs_spec (refs : List Ref) :
    (sortRefs refs).Pairwise (·.lt · = true) ∧ ∀ r, r ∈ sortRefs refs ↔ r ∈ refs := by
  have hsorted : (refs.mergeSort fun a b ↦ !b.lt a).Pairwise fun a b ↦ b.lt a = false := by
    refine (List.pairwise_mergeSort (fun a b c hab hbc ↦ ?_) (fun a b ↦ ?_) refs).imp
      fun h ↦ by simpa using h
    · rw [Bool.not_eq_true', ← Bool.not_eq_true, Ref.lt_iff] at hab hbc ⊢
      omega
    · rw [Bool.or_eq_true, Bool.not_eq_true', Bool.not_eq_true', ← Bool.not_eq_true,
        ← Bool.not_eq_true, Ref.lt_iff, Ref.lt_iff]
      omega
  have : Std.Antisymm fun a b : Ref ↦ b.lt a = false := ⟨fun a b h h' ↦ Ref.eq_of_not_lt h' h⟩
  have heq : sortRefs refs = (refs.mergeSort fun a b ↦ !b.lt a).dedup :=
    hsorted.destutter_eq_dedup
  refine ⟨?_, fun r ↦ ?_⟩
  · rw [heq]
    exact (hsorted.sublist (List.dedup_sublist _)).imp₂ (fun a b h hne ↦ Ref.lt_of_ne h hne)
      (List.nodup_dedup _)
  · rw [heq, List.mem_dedup]
    exact (List.mergeSort_perm _ _).mem_iff

/-- Two lists in strict order with the same references are the same. -/
theorem eq_of_pairwise_lt {refs refs' : List Ref} (h : refs.Pairwise (·.lt · = true))
    (h' : refs'.Pairwise (·.lt · = true)) (hmem : ∀ r, r ∈ refs ↔ r ∈ refs') : refs = refs' := by
  have hnodup {l : List Ref} (hl : l.Pairwise (·.lt · = true)) : l.Nodup :=
    hl.imp fun {a b} hab heq ↦ by
      rw [heq, Ref.lt_irrefl] at hab
      cases hab
  refine ((List.perm_ext_iff_of_nodup (hnodup h) (hnodup h')).2 hmem).eq_of_pairwise
    (fun a b _ _ hab hba ↦ ?_) h h'
  rw [Ref.lt_iff] at hab hba
  omega

/-! ### The function of an address -/

/-- The address lies in the function; one without a size goes on without end. -/
def Func.Has (f : Func) (a : ℕ) : Prop :=
  f.rva ≤ a ∧ (f.size = 0 ∨ a < wrap64 (f.rva + f.size))

instance (f : Func) (a : ℕ) : Decidable (f.Has a) :=
  inferInstanceAs (Decidable (_ ∧ _))

/-- The address belongs to the function at position `k`: it lies in it, and before the next one. -/
def Owns (funcs : List Func) (k a : ℕ) : Prop :=
  (funcs[k]?.any fun f ↦ f.Has a) = true ∧ (funcs[k + 1]?.all fun g ↦ a < g.rva) = true

instance (funcs : List Func) (k a : ℕ) : Decidable (Owns funcs k a) :=
  inferInstanceAs (Decidable (_ ∧ _))

theorem funcIndexForRva_eq_some_iff {funcs : List Func}
    (hsorted : funcs.Pairwise (·.rva < ·.rva)) {a k : ℕ} :
    funcIndexForRva funcs a = some k ↔ Owns funcs k a := by
  obtain ⟨hlow, hhigh⟩ := BinarySearch.lowerBound_spec (k := a + 1) hsorted funcs.length 0
    funcs.length (by omega) (by omega) le_rfl (fun j _ hj ↦ absurd hj (by omega))
    fun j b hj hb ↦ absurd (List.getElem?_eq_some_iff.1 hb).choose (by omega)
  have hlen : BinarySearch.lowerBound Func.rva funcs (a + 1) funcs.length 0 funcs.length ≤
      funcs.length :=
    BinarySearch.lowerBound_le funcs.length 0 funcs.length (Nat.zero_le _)
  unfold funcIndexForRva
  dsimp only
  generalize BinarySearch.lowerBound Func.rva funcs (a + 1) funcs.length 0 funcs.length = lo at *
  -- An address belongs to the last function that does not start behind it.
  have hlast : Owns funcs k a → lo = k + 1 := by
    rintro ⟨hk, hnext⟩
    obtain ⟨f, hf, hhas⟩ := (Option.any_eq_true _ _).1 hk
    have hle : f.rva ≤ a := (of_decide_eq_true hhas).1
    have hlt : k < lo := by
      by_contra hge
      have := hhigh k f (by omega) hf
      omega
    by_contra hne
    obtain ⟨g, hg⟩ : ∃ g, funcs[k + 1]? = some g := ⟨_, List.getElem?_eq_getElem (by omega)⟩
    rw [hg, Option.all_some] at hnext
    have := of_decide_eq_true hnext
    have := hlow (k + 1) g (by omega) hg
    omega
  cases lo with
  | zero =>
    rw [if_pos rfl]
    exact iff_of_false (by simp) fun h ↦ absurd (hlast h) (by omega)
  | succ j =>
    obtain ⟨f, hf⟩ : ∃ f, funcs[j]? = some f := ⟨_, List.getElem?_eq_getElem (by omega)⟩
    have hnext : (funcs[j + 1]?.all fun g ↦ a < g.rva) = true := by
      rw [Option.all_eq_true]
      intro g hg
      exact decide_eq_true (hhigh (j + 1) g le_rfl hg)
    rw [if_neg (Nat.succ_ne_zero j), Nat.add_sub_cancel, hf]
    dsimp only
    by_cases hhas : f.rva ≤ a ∧ (f.size = 0 ∨ a < wrap64 (f.rva + f.size))
    · rw [if_pos hhas, Option.some.injEq]
      refine ⟨?_, fun h ↦ by have := hlast h; omega⟩
      rintro rfl
      exact ⟨by rw [hf]; exact decide_eq_true hhas, hnext⟩
    · have hsize : f.size ≠ 0 := fun h0 ↦
        hhas ⟨by have := hlow j f (by omega) hf; omega, .inl h0⟩
      rw [if_neg hhas, if_neg hsize]
      refine iff_of_false (by simp) fun h ↦ hhas ?_
      obtain rfl : j = k := by have := hlast h; omega
      obtain ⟨hk, -⟩ := h
      rw [hf] at hk
      exact of_decide_eq_true hk

/-! ### Counting calls -/

theorem getElem?_countCalls (refs : List Ref) (funcs : List Func) (k : ℕ) :
    (countCalls refs funcs)[k]? = funcs[k]?.map fun f ↦ { f with
      callCount := refs.countP fun r ↦ r.kind = .call ∧ funcIndexForRva funcs r.src = some k } := by
  induction refs using List.reverseRecOn with
  | nil => simp [countCalls]
  | append_singleton refs r ih =>
    have hstep : countCalls (refs ++ [r]) funcs =
        if r.kind ≠ .call then countCalls refs funcs
        else
          match funcIndexForRva funcs r.src with
          | some k =>
            (countCalls refs funcs).modify k fun f ↦ { f with callCount := f.callCount + 1 }
          | none => countCalls refs funcs := by
      rw [countCalls, List.foldl_append]
      rfl
    rw [hstep, List.countP_append]
    by_cases hkind : r.kind = .call
    · rw [if_neg (not_not_intro hkind)]
      cases hindex : funcIndexForRva funcs r.src with
      | none => simp [ih, hkind, hindex]
      | some j =>
        dsimp only
        rw [List.getElem?_modify, ih]
        by_cases hjk : j = k <;> cases funcs[k]? <;> simp [hkind, hindex, hjk]
    · rw [if_pos hkind, ih]
      simp [hkind]

/-! ### What disassembling records -/

/-- The instruction is a call with a known target. -/
def Insn.calls (i : Insn) : Bool :=
  i.refType = .call && i.refTarget ≠ 0

theorem Insn.of_ref? {i : Insn} {r : Ref} (h : i.ref? = some r) :
    r.src = i.rva ∧ (r.kind = .call ↔ i.calls = true) := by
  unfold Insn.ref? at h
  split at h
  · cases h
  · next htarget =>
    split at h
    · cases h
    all_goals
      next htype =>
      obtain rfl := Option.some.inj h
      simp [Insn.calls, htype, htarget]

theorem Insn.calls_of_ref?_eq_none {i : Insn} (h : i.ref? = none) : i.calls = false := by
  unfold Insn.ref? at h
  split at h
  · next htarget => simp [Insn.calls, htarget]
  · split at h
    · next htype => simp [Insn.calls, htype]
    all_goals cases h

/-- What is recorded of a listing is recorded once, by address. -/
theorem pairwise_filterMap_ref? {insns : List Insn} (hsorted : insns.Pairwise (·.rva < ·.rva)) :
    (insns.filterMap (·.ref?)).Pairwise (·.src < ·.src) := by
  rw [List.pairwise_filterMap]
  refine hsorted.imp fun {i j} hij r hr s hs ↦ ?_
  rw [(Insn.of_ref? hr).1, (Insn.of_ref? hs).1]
  exact hij

theorem filter_sortRefs {insns : List Insn} (hsorted : insns.Pairwise (·.rva < ·.rva)) (t : ℕ) :
    (sortRefs (insns.filterMap (·.ref?))).filter (·.dst = t) =
      (insns.filterMap (·.ref?)).filter (·.dst = t) := by
  obtain ⟨hlt, hmem⟩ := sortRefs_spec (insns.filterMap (·.ref?))
  refine eq_of_pairwise_lt (hlt.filter _) ?_ fun r ↦ by simp only [List.mem_filter, hmem]
  refine List.pairwise_filter.2 ((pairwise_filterMap_ref? hsorted).imp ?_)
  intro a b hab ha hb
  rw [Ref.lt_iff, of_decide_eq_true ha, of_decide_eq_true hb]
  exact .inr ⟨rfl, .inl hab⟩

theorem perm_sortRefs {insns : List Insn} (hsorted : insns.Pairwise (·.rva < ·.rva)) :
    (sortRefs (insns.filterMap (·.ref?))).Perm (insns.filterMap (·.ref?)) := by
  obtain ⟨hlt, hmem⟩ := sortRefs_spec (insns.filterMap (·.ref?))
  refine (List.perm_ext_iff_of_nodup (hlt.imp fun {a b} hab heq ↦ ?_)
    ((pairwise_filterMap_ref? hsorted).imp fun {a b} hab heq ↦ ?_)).2 hmem
  · rw [heq, Ref.lt_irrefl] at hab
    cases hab
  · rw [heq] at hab
    exact Nat.lt_irrefl _ hab

theorem refs_disassemble (dec : Decoder) (noPdataSeed : Bool) {e : Engine} (hinsns : e.insns = [])
    (hrefs : e.refs = []) : (disassemble dec noPdataSeed e).refs =
      (disassemble dec noPdataSeed e).insns.filterMap (·.ref?) := by
  obtain ⟨entries, hentries⟩ := seedPdataEntries_eq noPdataSeed e
  rw [disassemble, hentries]
  split
  · rw [hinsns, hrefs, List.filterMap_nil]
  · dsimp only
    split
    · rw [hinsns, hrefs, List.filterMap_nil]
    · rw [hrefs, List.nil_append]

/-! ### The analysis -/

/-- Counting calls leaves the functions where they are. -/
theorem owns_countCalls (refs : List Ref) (funcs : List Func) (k a : ℕ) :
    Owns (countCalls refs funcs) k a ↔ Owns funcs k a := by
  unfold Owns
  rw [getElem?_countCalls, getElem?_countCalls]
  cases funcs[k]? <;> cases funcs[k + 1]? <;> rfl

theorem pairwise_buildCfg_funcs {e : Engine} (hsorted : e.insns.Pairwise (·.rva < ·.rva)) :
    e.buildCfg.funcs.Pairwise (·.rva < ·.rva) := by
  rw [buildCfg_funcs hsorted, ← List.pairwise_map,
    (funcsAt_spec hsorted (funcStarts_sorted e) fun f hf ↦ mem_funcStarts hf).1]
  exact funcStarts_sorted e

/-- The calls of a function are those of the instructions that belong to it. -/
theorem callCount_buildXrefs {e : Engine} (hsorted : e.insns.Pairwise (·.rva < ·.rva))
    (hfuncs : e.funcs.Pairwise (·.rva < ·.rva)) (hrefs : e.refs = e.insns.filterMap (·.ref?))
    {k : ℕ} {F : Func} (hF : e.buildXrefs.funcs[k]? = some F) :
    F.callCount = e.insns.countP fun i ↦ i.calls && Owns e.funcs k i.rva := by
  rw [Engine.buildXrefs, getElem?_countCalls] at hF
  obtain ⟨f, -, rfl⟩ := Option.map_eq_some_iff.1 hF
  dsimp only
  rw [hrefs, (perm_sortRefs hsorted).countP_eq, List.countP_filterMap]
  refine List.countP_congr fun i _ ↦ ?_
  cases hi : i.ref? with
  | none => simp [Insn.calls_of_ref?_eq_none hi]
  | some r =>
    obtain ⟨hsrc, hkind⟩ := Insn.of_ref? hi
    simp [hsrc, hkind, funcIndexForRva_eq_some_iff hfuncs]

/-- **The cross references are exact.** After an engine has been disassembled and its functions have
been found, there is one reference for each instruction that refers to something, the references to
an address come by address, and a function has as many calls as instructions that belong to it and
call. -/
theorem buildXrefs_exact (dec : Decoder) (noPdataSeed : Bool) (e : Engine) (hinsns : e.insns = [])
    (hrefs : e.refs = []) :
    let e' := (disassemble dec noPdataSeed e).buildCfg.buildXrefs
    e'.refs.Pairwise (·.lt · = true) ∧
      (∀ t, e'.xrefsTo t = (e'.insns.filterMap (·.ref?)).filter (·.dst = t)) ∧
      ∀ k F, e'.funcs[k]? = some F →
        F.callCount = e'.insns.countP fun i ↦ i.calls && Owns e'.funcs k i.rva := by
  have hsorted := (disassemble_fresh dec noPdataSeed e hinsns).1
  have hdis := refs_disassemble dec noPdataSeed hinsns hrefs
  generalize disassemble dec noPdataSeed e = e₁ at hsorted hdis
  refine ⟨(sortRefs_spec _).1, fun t ↦ ?_, fun k F hF ↦ ?_⟩
  · show (sortRefs e₁.refs).filter (·.dst = t) = _
    rw [hdis]
    exact filter_sortRefs hsorted t
  · rw [callCount_buildXrefs (e := e₁.buildCfg) hsorted (pairwise_buildCfg_funcs hsorted) hdis hF]
    simp only [Engine.buildXrefs, owns_countCalls]

theorem buildXrefs_exact_callNext :
    let e' := (disassemble builtin true callNext).buildCfg.buildXrefs
    e'.refs.Pairwise (·.lt · = true) ∧
      (∀ t, e'.xrefsTo t = (e'.insns.filterMap (·.ref?)).filter (·.dst = t)) ∧
      ∀ k F, e'.funcs[k]? = some F →
        F.callCount = e'.insns.countP fun i ↦ i.calls && Owns e'.funcs k i.rva :=
  buildXrefs_exact builtin true callNext rfl rfl

end Listing

end Ldu
