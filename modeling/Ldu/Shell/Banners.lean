import Ldu.Listing.Decoder
import Ldu.Listing.SweepSound
import Ldu.Shell.Rows
import Ldu.Shell.Segments

/-!
# The banners of functions

The walk through a segment goes from an instruction to the first byte behind it, so that an
instruction that starts within the bytes of one that is shown is not shown itself, and neither is
the banner of a function that starts there. Which instructions are shown depends on the starts and
lengths alone (`Shown`): the first one is, and so is each that starts behind those shown before.
-/

namespace Ldu

namespace Shell

open Listing (Insn Segment Func WellFormed)

/-! ### The instructions that are shown -/

section Shown

variable {insns : List Insn} {lo x c : ℕ}

/-- An instruction that starts at `x` is shown, in a segment that starts at `lo`: those shown before
it end at `x` or before. -/
def Shown (insns : List Insn) (lo x : ℕ) : Prop :=
  ∀ i ∈ insns, lo ≤ i.rva → (_ : i.rva < x) → Shown insns lo i.rva → i.rva + insnLen i ≤ x
termination_by x

theorem shown_iff : Shown insns lo x ↔
    ∀ i ∈ insns, lo ≤ i.rva → i.rva < x → Shown insns lo i.rva → i.rva + insnLen i ≤ x := by
  rw [Shown]

theorem shown_self : Shown insns lo lo :=
  shown_iff.2 fun _ _ hle hlt ↦ absurd hle (not_le.2 hlt)

/-- Behind an instruction that is shown the next one is. -/
theorem Shown.behind (hnodup : (insns.map (·.rva)).Nodup) {i : Insn} (hi : i ∈ insns)
    (hlo : lo ≤ i.rva) (h : Shown insns lo i.rva) : Shown insns lo (i.rva + insnLen i) := by
  refine shown_iff.2 fun j hj hloj hlt hshown ↦ ?_
  rcases lt_trichotomy j.rva i.rva with hji | hji | hji
  · exact (shown_iff.1 h j hj hloj hji hshown).trans (Nat.le_add_right _ _)
  · rw [List.inj_on_of_nodup_map hnodup hj hi hji]
  · have := shown_iff.1 hshown i hi hlo hji h
    omega

/-- What is shown stays so over a gap. -/
theorem Shown.over (h : Shown insns lo c) (hcx : c ≤ x)
    (hgap : ∀ r, c ≤ r → r < x → ¬Starts insns r) : Shown insns lo x := by
  refine shown_iff.2 fun j hj hloj hlt hshown ↦ ?_
  rcases lt_or_ge j.rva c with hjc | hjc
  · exact (shown_iff.1 h j hj hloj hjc hshown).trans hcx
  · exact absurd ⟨j, hj, rfl⟩ (hgap j.rva hjc hlt)

end Shown

/-! ### The functions by address -/

theorem funcMap_append (fs : List Func) (f : Func) :
    funcMap (fs ++ [f]) = (f.rva, fs.length) :: funcMap fs := by
  rw [funcMap, foldl_cons_eq, funcMap, foldl_cons_eq, List.zipIdx_append, List.map_append,
    List.reverse_append]
  simp

/-- The last function at an address. -/
theorem lookup_funcMap {fs : List Func} {rva fi : ℕ} :
    (funcMap fs).lookup rva = some fi ↔ (∃ f, fs[fi]? = some f ∧ f.rva = rva) ∧
      ∀ j g, fi < j → fs[j]? = some g → g.rva ≠ rva := by
  induction fs using List.reverseRecOn with
  | nil => simp [funcMap]
  | append_singleton fs f ih =>
    rw [funcMap_append, List.lookup_cons]
    by_cases hrva : rva = f.rva
    · subst hrva
      simp only [BEq.rfl, Option.some.injEq]
      constructor
      · rintro rfl
        refine ⟨⟨f, by simp, rfl⟩, fun j g hj hg ↦ ?_⟩
        rw [List.getElem?_eq_none (by simpa using Nat.succ_le_of_lt hj)] at hg
        cases hg
      · rintro ⟨⟨g, hg, -⟩, hlast⟩
        have hlt := (List.getElem?_eq_some_iff.1 hg).1
        rw [List.length_append, List.length_singleton] at hlt
        by_contra hne
        exact hlast fs.length f (by omega) (by simp) rfl
    · rw [beq_eq_false_iff_ne.2 hrva]
      simp only [ih]
      constructor
      · rintro ⟨⟨g, hg, hgr⟩, hlast⟩
        refine ⟨⟨g, by grind, hgr⟩, fun j h hj hh ↦ ?_⟩
        rw [List.getElem?_append] at hh
        grind
      · rintro ⟨⟨g, hg, hgr⟩, hlast⟩
        refine ⟨⟨g, ?_, hgr⟩, fun j h hj hh ↦ hlast j h hj ?_⟩
        · grind
        · grind

/-! ### The walk -/

section Walk

variable {insns : List Insn} {funcs : List Func} {stop lo : ℕ}

/-- A banner in the walk is that of the last function at an address where an instruction is
shown. -/
theorem of_func_mem_walk (hnodup : (insns.map (·.rva)).Nodup) {fuel cursor fi : ℕ}
    (h64 : stop < 2 ^ 64) (hlo : lo ≤ cursor) (hshown : cursor < stop → Shown insns lo cursor)
    {p : Row × ℕ} (hp : p ∈ walk (insnMap insns) (funcMap funcs) stop fuel cursor)
    (hrow : p.1 = .func fi) :
    (funcMap funcs).lookup p.2 = some fi ∧ cursor ≤ p.2 ∧ p.2 < stop ∧ Shown insns lo p.2 := by
  induction fuel generalizing cursor with
  | zero => cases hp
  | succ fuel ih =>
    rcases le_or_gt stop cursor with hle | hlt
    · rw [walk, if_pos hle] at hp
      cases hp
    have hpos (i : Insn) : 1 ≤ insnLen i := le_max_right _ _
    rcases walk_succ insns (funcMap funcs) fuel h64 hlt with
      ⟨ii, i, -, hi, rfl, heq⟩ | ⟨-, gapEnd, hlt', hle, -, hnone, heq⟩
    · rw [heq, List.mem_append, List.mem_cons] at hp
      rcases hp with hp | rfl | hp
      · rw [funcRow] at hp
        split at hp
        · next fj hlookup =>
          rw [List.mem_singleton] at hp
          subst hp
          obtain rfl := Row.func.inj hrow
          exact ⟨hlookup, le_rfl, hlt, hshown hlt⟩
        · cases hp
      · cases hrow
      · have hnext : min (i.rva + insnLen i) stop < stop →
            Shown insns lo (min (i.rva + insnLen i) stop) := by
          intro hlt'
          rw [min_eq_left (by omega)]
          exact (hshown hlt).behind hnodup (List.mem_of_getElem? hi) hlo
        obtain ⟨hlookup, hle, hrest⟩ := ih (by omega) hnext hp
        exact ⟨hlookup, by have := hpos i; omega, hrest⟩
    · rw [heq, List.mem_append] at hp
      rcases hp with hp | hp
      · obtain ⟨rva, len, rfl, -⟩ := mem_dataRows (by omega) hp
        cases hrow
      · obtain ⟨hlookup, hle', hrest⟩ :=
          ih (by omega) (fun _ ↦ (hshown hlt).over hlt'.le hnone) hp
        exact ⟨hlookup, by omega, hrest⟩

/-- Where an instruction is shown, the banner of the last function that starts there stands right
before it, and nowhere else in the walk. -/
theorem walk_eq_of_shown (hnodup : (insns.map (·.rva)).Nodup) {fuel cursor fi : ℕ} {f : Func}
    (h64 : stop < 2 ^ 64) (hlo : lo ≤ cursor) (hshown : cursor < stop → Shown insns lo cursor)
    (hfuel : stop ≤ cursor + fuel) (hf : funcs[fi]? = some f)
    (hlast : (funcMap funcs).lookup f.rva = some fi) (hstarts : Starts insns f.rva)
    (hle : cursor ≤ f.rva) (hlt : f.rva < stop) (hx : Shown insns lo f.rva) :
    ∃ pre post ii i, insns[ii]? = some i ∧ i.rva = f.rva ∧
      walk (insnMap insns) (funcMap funcs) stop fuel cursor =
        pre ++ [(.func fi, f.rva), (.insn ii, f.rva)] ++ post ∧
      (∀ p ∈ pre, p.1 ≠ .func fi) ∧ ∀ p ∈ post, p.1 ≠ .func fi := by
  have huniq {rva : ℕ} (h : (funcMap funcs).lookup rva = some fi) : rva = f.rva := by
    obtain ⟨⟨g, hg, rfl⟩, -⟩ := lookup_funcMap.1 h
    rw [hf] at hg
    exact congrArg Func.rva (Option.some.inj hg).symm
  induction fuel generalizing cursor with
  | zero => omega
  | succ fuel ih =>
    have hcursor : cursor < stop := hle.trans_lt hlt
    rcases walk_succ insns (funcMap funcs) fuel h64 hcursor with
      ⟨ii, i, -, hi, rfl, heq⟩ | ⟨hnot, gapEnd, hlt', hgap, -, hnone, heq⟩
    · have hpos : 1 ≤ insnLen i := le_max_right _ _
      have hmem := List.mem_of_getElem? hi
      have hnext : min (i.rva + insnLen i) stop < stop →
          Shown insns lo (min (i.rva + insnLen i) stop) := by
        intro hlt'
        rw [min_eq_left (by omega)]
        exact (hshown hcursor).behind hnodup hmem hlo
      rcases hle.eq_or_lt with hhere | hlater
      · refine ⟨[], walk (insnMap insns) (funcMap funcs) stop fuel
          (min (i.rva + insnLen i) stop), ii, i, hi, hhere, ?_, by simp, fun p hp hrow ↦ ?_⟩
        · rw [heq, funcRow, hhere, hlast]
          rfl
        · obtain ⟨hlookup, hle', -⟩ :=
            of_func_mem_walk hnodup h64 (by omega) hnext hp hrow
          rw [huniq hlookup] at hle'
          omega
      · have hbehind : i.rva + insnLen i ≤ f.rva :=
          shown_iff.1 hx i hmem hlo hlater (hshown hcursor)
        obtain ⟨pre, post, jj, j, hj, hjr, hwalk, hpre, hpost⟩ :=
          ih (by omega) hnext (by omega) (by omega)
        refine ⟨funcRow (funcMap funcs) i.rva ++ (.insn ii, i.rva) :: pre, post, jj, j, hj, hjr, ?_,
          fun p hp ↦ ?_, hpost⟩
        · rw [heq, hwalk]
          simp
        · rw [List.mem_append, List.mem_cons] at hp
          rcases hp with hp | rfl | hp
          · rw [funcRow] at hp
            split at hp
            · next fj hlookup =>
              rw [List.mem_singleton] at hp
              subst hp
              rintro ⟨⟩
              exact hlater.ne (huniq hlookup)
            · cases hp
          · simp
          · exact hpre p hp
    · have hge : gapEnd ≤ f.rva := by
        by_contra h
        exact hnone f.rva hle (not_le.1 h) hstarts
      obtain ⟨pre, post, jj, j, hj, hjr, hwalk, hpre, hpost⟩ :=
        ih (by omega) (fun _ ↦ (hshown hcursor).over hlt'.le hnone) (by omega) hge
      refine ⟨dataRows gapEnd (gapEnd - cursor) cursor ++ pre, post, jj, j, hj, hjr, ?_,
        fun p hp ↦ ?_, hpost⟩
      · rw [heq, hwalk]
        simp
      · rcases List.mem_append.1 hp with hp | hp
        · obtain ⟨rva, len, rfl, -⟩ := mem_dataRows (by omega) hp
          simp
        · exact hpre p hp

end Walk

/-! ### The banners -/

section Banners

variable {insns : List Insn} {segs : List Segment} {funcs : List Func}

/-- Function `fi` has exactly one banner, and the next row is that of the instruction at its
start. -/
def HasBanner (insns : List Insn) (rows : List Row) (fi : ℕ) (f : Func) : Prop :=
  rows.count (.func fi) = 1 ∧
    ∃ ii i, insns[ii]? = some i ∧ i.rva = f.rva ∧ [.func fi, .insn ii] <:+: rows

theorem nodup_rvas (hwf : WellFormed insns) : (insns.map (·.rva)).Nodup := by
  rw [List.Nodup, List.pairwise_map]
  exact hwf.sorted.imp fun h ↦ h.ne

/-- In the rows of the walk through a segment there are no banners of functions elsewhere. -/
theorem of_func_mem_segWalk (hwf : WellFormed insns) {s : Segment} {fi : ℕ} {p : Row × ℕ}
    (hp : p ∈ segWalk insns funcs s) (hrow : p.1 = .func fi) :
    (funcMap funcs).lookup p.2 = some fi ∧ Within s p.2 ∧ Shown insns s.rva p.2 := by
  obtain ⟨hlookup, hle, hlt, hshown⟩ := of_func_mem_walk (nodup_rvas hwf) (segStop_lt s) le_rfl
    (fun _ ↦ shown_self) hp hrow
  have hstop : segStop s ≤ s.rva + s.size := min_le_left _ _
  exact ⟨hlookup, ⟨hle, by omega⟩, hshown⟩

theorem of_func_mem_rows (hwf : WellFormed insns) {fi : ℕ}
    (h : .func fi ∈ (buildListing insns segs funcs).rows) :
    ∃ s ∈ segs, ∃ rva, (funcMap funcs).lookup rva = some fi ∧ Within s rva ∧
      Shown insns s.rva rva := by
  rw [rows_buildListing, List.mem_flatMap] at h
  obtain ⟨q, hq, h⟩ := h
  rw [segmentRows_eq hq, List.map_cons, List.mem_cons, List.mem_map] at h
  rcases h with h | ⟨p, hp, hrow⟩
  · cases h
  · exact ⟨q.1, List.mem_of_getElem? (mem_segOrder.1 hq), p.2, of_func_mem_segWalk hwf hp hrow⟩

/-- The segments before and after one in the order are apart from it. -/
theorem apart_of_segOrder (hapart : Apart segs) {s : Segment} {k : ℕ}
    {pre post : List (Segment × ℕ)} (horder : segOrder segs = pre ++ (s, k) :: post)
    {q : Segment × ℕ} (hq : q ∈ pre ∨ q ∈ post) {rva : ℕ} (hs : Within s rva) :
    ¬Within q.1 rva := by
  have hpairs : (segOrder segs).Pairwise fun p q ↦ ∀ rva, ¬(Within p.1 rva ∧ Within q.1 rva) := by
    refine ((perm_segOrder segs).pairwise_iff ?_).2 ?_
    · exact fun h rva ⟨hq, hp⟩ ↦ h rva ⟨hp, hq⟩
    · have h : (segs.zipIdx.map Prod.fst).Pairwise fun s t ↦
          ∀ rva, ¬(Within s rva ∧ Within t rva) := by
        rw [List.zipIdx_map_fst]
        exact hapart
      exact List.pairwise_map.1 h
  rw [horder, List.pairwise_append, List.pairwise_cons] at hpairs
  rcases hq with hq | hq
  · exact fun hw ↦ hpairs.2.2 q hq (s, k) (List.mem_cons_self ..) rva ⟨hw, hs⟩
  · exact fun hw ↦ hpairs.2.1.1 q hq rva ⟨hs, hw⟩

/-- A function with the last word at its start has a banner if the instruction there is shown. -/
theorem hasBanner_of_shown (hwf : WellFormed insns) (hapart : Apart segs) {s : Segment} {fi : ℕ}
    {f : Func} (hf : funcs[fi]? = some f) (hlast : (funcMap funcs).lookup f.rva = some fi)
    (hstarts : Starts insns f.rva) (hs : s ∈ segs) (hwithin : Within s f.rva)
    (hshown : Shown insns s.rva f.rva) :
    HasBanner insns (buildListing insns segs funcs).rows fi f := by
  obtain ⟨k, hk⟩ := List.mem_iff_getElem?.1 hs
  obtain ⟨pre, post, horder⟩ := List.append_of_mem (mem_segOrder.2 hk)
  have hstop : f.rva < segStop s := by
    obtain ⟨i, hi, hrva⟩ := hstarts
    have := hwf.stop_lt i hi
    have := hwf.size_pos i hi
    have := hwithin.2
    unfold segStop satAdd
    omega
  obtain ⟨wpre, wpost, ii, i, hi, hrva, hwalk, hwpre, hwpost⟩ :=
    walk_eq_of_shown (nodup_rvas hwf) (segStop_lt s) le_rfl (fun _ ↦ shown_self)
      (by omega : segStop s ≤ s.rva + (segStop s - s.rva)) hf hlast hstarts hwithin.1 hstop hshown
  -- The other segments have no banner of this function.
  have hother {q : Segment × ℕ} (hq : q ∈ pre ∨ q ∈ post) :
      .func fi ∉ (segmentRows insns segs funcs q).map Prod.fst := by
    intro h
    have hmem : q ∈ segOrder segs := by
      rw [horder]
      rcases hq with hq | hq
      · exact List.mem_append_left _ hq
      · exact List.mem_append_right _ (List.mem_cons_of_mem _ hq)
    rw [segmentRows_eq hmem, List.map_cons, List.mem_cons, List.mem_map] at h
    rcases h with h | ⟨p, hp, hrow⟩
    · cases h
    · obtain ⟨hlookup, hw, -⟩ := of_func_mem_segWalk hwf hp hrow
      obtain ⟨⟨g, hg, hgr⟩, -⟩ := lookup_funcMap.1 hlookup
      rw [hf] at hg
      obtain rfl := Option.some.inj hg
      exact apart_of_segOrder hapart horder hq hwithin (hgr ▸ hw)
  have hrows : (buildListing insns segs funcs).rows =
      (pre.flatMap fun q ↦ (segmentRows insns segs funcs q).map Prod.fst) ++
        (.seg k :: wpre.map Prod.fst) ++ [.func fi, .insn ii] ++ (wpost.map Prod.fst ++
          post.flatMap fun q ↦ (segmentRows insns segs funcs q).map Prod.fst) := by
    rw [rows_buildListing, horder, List.flatMap_append, List.flatMap_cons,
      segmentRows_eq (mem_segOrder.2 hk), segWalk, hwalk]
    simp
  have hbefore : .func fi ∉ (pre.flatMap fun q ↦
      (segmentRows insns segs funcs q).map Prod.fst) ++ .seg k :: wpre.map Prod.fst := by
    rw [List.mem_append, List.mem_flatMap, List.mem_cons, List.mem_map]
    rintro (⟨q, hq, h⟩ | h | ⟨p, hp, h⟩)
    · exact hother (.inl hq) h
    · cases h
    · exact hwpre p hp h
  have hafter : .func fi ∉ wpost.map Prod.fst ++ post.flatMap fun q ↦
      (segmentRows insns segs funcs q).map Prod.fst := by
    rw [List.mem_append, List.mem_flatMap, List.mem_map]
    rintro (⟨p, hp, h⟩ | ⟨q, hq, h⟩)
    · exact hwpost p hp h
    · exact hother (.inr hq) h
  refine ⟨?_, ii, i, hi, hrva, _, _, hrows.symm⟩
  rw [hrows, List.count_append, List.count_append, List.count_eq_zero.2 hbefore,
    List.count_eq_zero.2 hafter]
  simp

/-- Every function has its banner exactly if no two start at one address and each starts at an
instruction that is shown. -/
theorem hasBanner_iff (hwf : WellFormed insns) (hapart : Apart segs)
    (hfuncs : ∀ f ∈ funcs, Starts insns f.rva ∧ ∃ s ∈ segs, Within s f.rva) :
    (∀ fi f, funcs[fi]? = some f → HasBanner insns (buildListing insns segs funcs).rows fi f) ↔
      (funcs.map (·.rva)).Nodup ∧
        ∀ s ∈ segs, ∀ f ∈ funcs, Within s f.rva → Shown insns s.rva f.rva := by
  constructor
  · intro h
    have hrow {fi : ℕ} {f : Func} (hf : funcs[fi]? = some f) :
        ∃ s ∈ segs, Within s f.rva ∧ Shown insns s.rva f.rva ∧
          (funcMap funcs).lookup f.rva = some fi := by
      have hmem : .func fi ∈ (buildListing insns segs funcs).rows :=
        List.count_pos_iff.1 (by rw [(h fi f hf).1]; exact Nat.one_pos)
      obtain ⟨s, hs, rva, hlookup, hw, hshown⟩ := of_func_mem_rows hwf hmem
      obtain ⟨⟨g, hg, rfl⟩, -⟩ := lookup_funcMap.1 hlookup
      rw [hf] at hg
      obtain rfl := Option.some.inj hg
      exact ⟨s, hs, hw, hshown, hlookup⟩
    constructor
    · refine List.nodup_iff_getElem?_ne_getElem?.2 fun i j hij hj heq ↦ ?_
      rw [List.length_map] at hj
      rw [List.getElem?_map, List.getElem?_map, List.getElem?_eq_getElem hj,
        List.getElem?_eq_getElem (hij.trans hj)] at heq
      obtain ⟨_, _, _, _, hlookup⟩ := hrow (List.getElem?_eq_getElem (hij.trans hj))
      exact (lookup_funcMap.1 hlookup).2 j _ hij (List.getElem?_eq_getElem hj)
        (Option.some.inj heq).symm
    · intro s hs f hf hw
      obtain ⟨fi, hfi⟩ := List.mem_iff_getElem?.1 hf
      obtain ⟨t, ht, hw', hshown, -⟩ := hrow hfi
      rwa [eq_of_within hapart hs ht hw hw']
  · rintro ⟨hdistinct, hshown⟩ fi f hf
    have hmem := List.mem_of_getElem? hf
    obtain ⟨hstarts, s, hs, hw⟩ := hfuncs f hmem
    refine hasBanner_of_shown hwf hapart hf (lookup_funcMap.2 ⟨⟨f, hf, rfl⟩, ?_⟩) hstarts hs hw
      (hshown s hs f hmem hw)
    intro j g hj hg heq
    refine List.nodup_iff_getElem?_ne_getElem?.1 hdistinct fi j hj ?_ ?_
    · rw [List.length_map]
      exact (List.getElem?_eq_some_iff.1 hg).1
    · rw [List.getElem?_map, List.getElem?_map, hf, hg, Option.map_some, Option.map_some, heq]

end Banners

/-! ### Listings of the sweep -/

section Swept

open Listing (Decoder Engine disassemble builtin)

/-- **Which functions the listing shows.** After a sweep, with segments that have no address in
common and functions that start at instructions in them, every function has exactly one banner,
right before the row of the instruction at its start, exactly if no two functions start at one
address and no function starts within an instruction that is shown. -/
theorem buildListing_shows_iff (dec : Decoder) (noPdataSeed : Bool) (e : Engine)
    (hfresh : e.insns = []) (himage : e.image.length < 2 ^ 64) (segs : List Segment)
    (funcs : List Func) (hapart : Apart segs)
    (hfuncs : ∀ f ∈ funcs, Starts (disassemble dec noPdataSeed e).insns f.rva ∧
      ∃ s ∈ segs, Within s f.rva) :
    (∀ fi f, funcs[fi]? = some f → HasBanner (disassemble dec noPdataSeed e).insns
        (buildListing (disassemble dec noPdataSeed e).insns segs funcs).rows fi f) ↔
      (funcs.map (·.rva)).Nodup ∧ ∀ s ∈ segs, ∀ f ∈ funcs, Within s f.rva →
        Shown (disassemble dec noPdataSeed e).insns s.rva f.rva :=
  hasBanner_iff (Listing.wellFormed_disassemble dec noPdataSeed e hfresh himage) hapart hfuncs

/-- A call over one byte; that byte decodes as an instruction that swallows the called function. -/
def callOver : Engine where
  image := [0xE8, 1, 0, 0, 0, 0xB8, 0xC3, 0x90, 0x90, 0x90]
  entry := some 0
  segments := [⟨".text", 0, 10, true⟩]

/-- The segment and the functions of `callOver`. -/
def callOverSegs : List Segment :=
  [⟨".text", 0, 10, true⟩]

def callOverFuncs : List Func :=
  [⟨0, 5, 1, 1⟩, ⟨6, 1, 1, 0⟩]

/-- The listing of `callOver`. -/
def callOverInsns : List Insn :=
  [Listing.dsDecode true [0xE8, 1, 0, 0, 0] 0,
    Listing.dsDecode true [0xB8, 0xC3, 0x90, 0x90, 0x90] 5, Listing.dsDecode true [0xC3] 6]

theorem callOverInsns_eq : (disassemble builtin true callOver).insns = callOverInsns :=
  Listing.disassemble_insns_eq (by decide) (.inr rfl) (by decide) (by decide)

theorem callOver_starts :
    ∀ f ∈ callOverFuncs, Starts (disassemble builtin true callOver).insns f.rva ∧
      ∃ s ∈ callOverSegs, Within s f.rva := by
  rw [callOverInsns_eq]
  intro f hf
  have hrva : f.rva = 0 ∨ f.rva = 6 := by
    rcases List.mem_cons.1 hf with rfl | hf
    · exact .inl rfl
    · rw [List.mem_singleton.1 hf]
      exact .inr rfl
  refine ⟨?_, ⟨".text", 0, 10, true⟩, List.mem_singleton.2 rfl, ?_⟩
  · rcases hrva with h | h <;> rw [h, Starts] <;> decide
  · rcases hrva with h | h <;> rw [h, Within] <;> decide

theorem buildListing_shows_iff_callOver :
    (∀ fi f, callOverFuncs[fi]? = some f → HasBanner (disassemble builtin true callOver).insns
        (buildListing (disassemble builtin true callOver).insns callOverSegs callOverFuncs).rows
        fi f) ↔
      (callOverFuncs.map (·.rva)).Nodup ∧ ∀ s ∈ callOverSegs, ∀ f ∈ callOverFuncs, Within s f.rva →
        Shown (disassemble builtin true callOver).insns s.rva f.rva :=
  buildListing_shows_iff builtin true callOver rfl (by decide) callOverSegs callOverFuncs
    (List.pairwise_singleton _ _) callOver_starts

/-- The function that the call goes to has no banner. -/
theorem callOver_hidden :
    ¬∀ (dec : Decoder) (noPdataSeed : Bool) (e : Engine) (segs : List Segment) (funcs : List Func),
      e.insns = [] → e.image.length < 2 ^ 64 → Apart segs →
      (∀ f ∈ funcs, Starts (disassemble dec noPdataSeed e).insns f.rva ∧
        ∃ s ∈ segs, Within s f.rva) →
      ∀ fi f, funcs[fi]? = some f → HasBanner (disassemble dec noPdataSeed e).insns
        (buildListing (disassemble dec noPdataSeed e).insns segs funcs).rows fi f := by
  intro h
  have hwf := Listing.wellFormed_disassemble builtin true callOver rfl (by decide)
  have hshown := ((hasBanner_iff hwf (List.pairwise_singleton _ _) callOver_starts).1
    (h builtin true callOver callOverSegs callOverFuncs rfl (by decide)
      (List.pairwise_singleton _ _) callOver_starts)).2 ⟨".text", 0, 10, true⟩
        (List.mem_singleton.2 rfl) ⟨6, 1, 1, 0⟩ (by decide) ⟨by decide, by decide⟩
  rw [callOverInsns_eq] at hshown
  -- The byte behind the call is shown as an instruction of five bytes.
  have hmov : Shown callOverInsns 0 5 := by
    refine shown_iff.2 fun i hi _ hlt _ ↦ ?_
    have hall : ∀ i ∈ callOverInsns, i.rva < 5 → i.rva + insnLen i ≤ 5 := by decide
    exact hall i hi hlt
  have hle := shown_iff.1 hshown (Listing.dsDecode true [0xB8, 0xC3, 0x90, 0x90, 0x90] 5)
    (by decide) (by decide) (by decide) hmov
  exact absurd hle (by decide)

end Swept

end Shell

end Ldu
