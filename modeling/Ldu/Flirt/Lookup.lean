import Ldu.Flirt.Generate

/-!
# A lookup finds every function that is listed

The index of a database is by the first byte, and a signature that a function was given accepts no
code with another first byte, unless it leaves that byte open. So a lookup considers as hits what a
scan of the whole list accepts, each once, and the signature of a listed body is among them for all
code that is as long and has the same fixed bytes (`matchFn_complete`).
-/

namespace Ldu

namespace Flirt

open Checked

variable {code : List UInt8} {sigs : List FuncSig} {toolchain : String} {i : ℕ} {f : ObjFunc}
  {s : FuncSig}

/-! ### The index -/

namespace SigDb

/-- The numbers of the signatures that a first byte leads to. -/
def indexed (db : SigDb) (b : UInt8) : List ℕ :=
  db.byFirst b ++ db.wildFirst

theorem indexed_new (toolchain : String) (sigs : List FuncSig) (b : UInt8) :
    (new toolchain sigs).indexed b =
      (sigs.zipIdx.filter fun p ↦ !p.1.wild 0 && p.1.first = b).map Prod.snd ++
        (sigs.zipIdx.filter (·.1.wild 0)).map Prod.snd := by
  rw [indexed, new, foldl_insert_byFirst, foldl_insert_wildFirst]
  rfl

theorem mem_indexed {b : UInt8} :
    i ∈ (new toolchain sigs).indexed b ↔
      ∃ s, sigs[i]? = some s ∧ (s.wild 0 ∨ s.first = b) := by
  simp only [indexed_new, List.mem_append, List.mem_map, List.mem_filter, Prod.exists,
    List.mem_zipIdx_iff_getElem?, exists_eq_right]
  constructor
  · rintro (⟨s, hs, hfirst⟩ | ⟨s, hs, hwild⟩)
    · exact ⟨s, hs, .inr (of_decide_eq_true (Bool.and_eq_true_iff.1 hfirst).2)⟩
    · exact ⟨s, hs, .inl hwild⟩
  · rintro ⟨s, hs, h⟩
    cases hwild : s.wild 0 with
    | true => exact .inr ⟨s, hs, hwild⟩
    | false => exact .inl ⟨s, hs, by simpa [hwild] using h⟩

theorem nodup_indexed (toolchain : String) (sigs : List FuncSig) (b : UInt8) :
    ((new toolchain sigs).indexed b).Nodup := by
  have hnodup (q : FuncSig × ℕ → Bool) : ((sigs.zipIdx.filter q).map Prod.snd).Nodup := by
    refine List.Nodup.sublist (List.filter_sublist.map Prod.snd) ?_
    rw [List.zipIdx_map_snd]
    exact List.nodup_range'
  rw [indexed_new, List.nodup_append]
  refine ⟨hnodup _, hnodup _, ?_⟩
  rintro i hi _ hj rfl
  simp only [List.mem_map, List.mem_filter, Prod.exists, List.mem_zipIdx_iff_getElem?,
    exists_eq_right] at hi hj
  obtain ⟨s, hs, hfirst⟩ := hi
  obtain ⟨t, ht, hwild⟩ := hj
  obtain rfl := Option.some.inj (hs.symm.trans ht)
  simp [hwild] at hfirst

end SigDb

/-! ### The hits -/

/-- The hits that a lookup considers; code of less than six bytes has none. -/
def consider (code : List UInt8) (db : SigDb) : Checked (List ℕ) :=
  if code.length < 6 then return []
  else do
    let first ← index code 0
    hitsOf code db (db.indexed first)

/-- A lookup chooses among the hits that it considers. -/
theorem matchFn_eq (code : List UInt8) (known : UInt16 → Option String) (db : SigDb) :
    matchFn code known db = consider code db >>= chooseName known db := by
  unfold matchFn consider
  split
  · rfl
  · cases index code 0 <;> rfl

theorem hit_iff : hit code s ↔ patCrcLenOk code s = .ok true := by
  unfold hit
  split
  · next b h => rw [h, Except.ok.injEq]
  · next h => simp [h]

theorem hitsOf_eq_filter {db : SigDb} {is : List ℕ}
    (his : ∀ i ∈ is, ∃ s, db.sigs[i]? = some s ∧ Safe (patCrcLenOk code s)) :
    hitsOf code db is = .ok (is.filter fun i ↦ db.sigs[i]?.any (hit code)) := by
  induction is with
  | nil => rfl
  | cons i is ih =>
    obtain ⟨⟨s, hs, b, hb⟩, his⟩ := List.forall_mem_cons.1 his
    have hhit : hit code s = b := by rw [hit, hb]
    rw [hitsOf, index_of_getElem? hs, ok_bind, hb, ok_bind, ih his, ok_bind, List.filter_cons, hs,
      Option.any_some, hhit]
    rfl

/-- The checksum covers fixed bytes only. -/
theorem isVariant_of_lt_sigCrcLen {variant : List Bool} {k : ℕ} (hk : k < sigCrcLen code variant) :
    isVariant variant (patLen + k) = false := by
  have hget := (List.takeWhile_prefix _).getElem hk
  rw [List.getElem_range] at hget
  have hmem := List.mem_takeWhile_imp (List.getElem_mem hk)
  rw [hget] at hmem
  simpa using (Bool.and_eq_true_iff.1 hmem).2

/-- The signature was made from the body of a function. -/
def Signs (f : ObjFunc) (s : FuncSig) : Prop :=
  makeSig f.code f.variant f.name f.refs = some s

namespace Signs

variable (h : Signs f s)
include h

theorem six_le : 6 ≤ f.code.length := by
  rw [Signs, makeSig] at h
  split at h
  · cases h
  · omega

theorem safe (code : List UInt8) : Safe (patCrcLenOk code s) := by
  refine safe_patCrcLenOk_iff.2 fun _ ↦ ?_
  rw [(signedAs_of_makeSig h).plen]
  exact min_le_right _ _

/-- Code that is as long and has the fixed bytes of the body is accepted. -/
theorem accepts (hlen : f.code.length ≤ code.length)
    (hcode : ∀ j < f.code.length, isVariant f.variant j = false → f.code[j]? = code[j]?) :
    patCrcLenOk code s = .ok true := by
  refine (signedAs_of_makeSig h).patCrcLenOk_iff.2 ?_
  have hle := (sigCrcLen_le f.code f.variant).1
  refine ⟨(min_le_left _ _).trans hlen, fun j hj ↦ hcode j (hj.trans_le (min_le_left _ _)),
    fun hpos ↦ ⟨by omega, ?_⟩⟩
  rw [ObjFunc.crcOf, ObjFunc.crcOf, if_pos hpos, if_pos hpos]
  congr 1
  refine List.ext_getElem? fun k ↦ ?_
  rw [List.getElem?_take, List.getElem?_take, List.getElem?_drop, List.getElem?_drop]
  split
  · next hk => exact hcode _ (by omega) (isVariant_of_lt_sigCrcLen hk)
  · rfl

/-- What is accepted starts with the first byte of the signature, if that is fixed. -/
theorem first_of_accepts {b : UInt8} (hb : code[0]? = some b)
    (hok : patCrcLenOk code s = .ok true) : s.wild 0 ∨ s.first = b := by
  have hsigned := signedAs_of_makeSig h
  have hpos : 0 < min f.code.length patLen := lt_min (by have := h.six_le; omega) (by decide)
  have hagrees := (hsigned.agrees_iff hpos).2 ((hsigned.patCrcLenOk_iff.1 hok).pat 0 hpos)
  rw [agrees, Bool.or_eq_true, hb] at hagrees
  refine hagrees.imp_right fun hpat ↦ ?_
  rw [FuncSig.first, ← Option.some_inj, ← List.head?_eq_some_head, List.head?_eq_getElem?]
  exact (eq_of_beq hpat).symm

end Signs

/-! ### Completeness -/

/-- Of signatures that were made from bodies, a lookup considers as hits those that a scan of the
whole list accepts, each once. -/
theorem consider_eq (hsigs : ∀ s ∈ sigs, ∃ f, Signs f s) (code : List UInt8)
    (toolchain : String) :
    ∃ hits, consider code (SigDb.new toolchain sigs) = .ok hits ∧ hits.Nodup ∧
      ∀ i, i ∈ hits ↔ ∃ s, sigs[i]? = some s ∧ patCrcLenOk code s = .ok true := by
  unfold consider
  by_cases hlen : code.length < 6
  · refine ⟨[], if_pos hlen, List.nodup_nil, fun i ↦ iff_of_false List.not_mem_nil ?_⟩
    rintro ⟨s, hs, hok⟩
    obtain ⟨f, hf⟩ := hsigs s (List.mem_of_getElem? hs)
    have hle := ((signedAs_of_makeSig hf).patCrcLenOk_iff.1 hok).length_le
    have := hf.six_le
    simp only [patLen] at hle
    omega
  · obtain ⟨b, rest, rfl⟩ := List.exists_cons_of_length_pos (by omega : 0 < code.length)
    have hsafe : ∀ i ∈ (SigDb.new toolchain sigs).indexed b, ∃ s,
        (SigDb.new toolchain sigs).sigs[i]? = some s ∧ Safe (patCrcLenOk (b :: rest) s) := by
      intro i hi
      obtain ⟨s, hs, -⟩ := SigDb.mem_indexed.1 hi
      obtain ⟨f, hf⟩ := hsigs s (List.mem_of_getElem? hs)
      exact ⟨s, by rw [SigDb.sigs_new, hs], hf.safe _⟩
    refine ⟨((SigDb.new toolchain sigs).indexed b).filter fun i ↦
        (SigDb.new toolchain sigs).sigs[i]?.any (hit (b :: rest)), ?_,
      (SigDb.nodup_indexed toolchain sigs b).filter _, fun i ↦ ?_⟩
    · rw [if_neg hlen, index_of_getElem? (a := b) rfl, ok_bind, hitsOf_eq_filter hsafe]
    · rw [List.mem_filter, SigDb.mem_indexed, SigDb.sigs_new]
      constructor
      · rintro ⟨⟨s, hs, -⟩, hhit⟩
        rw [hs, Option.any_some] at hhit
        exact ⟨s, hs, hit_iff.1 hhit⟩
      · rintro ⟨s, hs, hok⟩
        obtain ⟨f, hf⟩ := hsigs s (List.mem_of_getElem? hs)
        rw [hs, Option.any_some]
        exact ⟨⟨s, rfl, hf.first_of_accepts rfl hok⟩, hit_iff.2 hok⟩

/-- The hits of a lookup are what a scan of the list accepts; the signature of a body is among them
for code that is as long and has its fixed bytes; and a single hit gives the name. -/
theorem matchFn_complete (hsigs : ∀ s ∈ sigs, ∃ f, Signs f s) (code : List UInt8)
    (known : UInt16 → Option String) (toolchain : String) :
    ∃ hits, consider code (SigDb.new toolchain sigs) = .ok hits ∧
      matchFn code known (SigDb.new toolchain sigs) =
        chooseName known (SigDb.new toolchain sigs) hits ∧
      (∀ i, i ∈ hits ↔ ∃ s, sigs[i]? = some s ∧ patCrcLenOk code s = .ok true) ∧
      (∀ i s f, sigs[i]? = some s → Signs f s → f.code.length ≤ code.length →
        (∀ j < f.code.length, isVariant f.variant j = false → f.code[j]? = code[j]?) → i ∈ hits) ∧
      ∀ i s, sigs[i]? = some s → (∀ j, j ∈ hits ↔ j = i) →
        matchFn code known (SigDb.new toolchain sigs) = .ok (some s.name) := by
  obtain ⟨hits, hhits, hnodup, hmem⟩ := consider_eq hsigs code toolchain
  have hmatch : matchFn code known (SigDb.new toolchain sigs) =
      chooseName known (SigDb.new toolchain sigs) hits := by
    rw [matchFn_eq, hhits, ok_bind]
  refine ⟨hits, hhits, hmatch, hmem, fun i s f hs hf hlen hcode ↦ ?_, fun i s hs hone ↦ ?_⟩
  · exact (hmem i).2 ⟨s, hs, hf.accepts hlen hcode⟩
  · have hsingle : hits = [i] := by
      refine List.perm_singleton.1 ((List.perm_ext_iff_of_nodup hnodup (List.nodup_singleton i)).2
        fun j ↦ ?_)
      rw [hone, List.mem_singleton]
    have hs' : (SigDb.new toolchain sigs).sigs[i]? = some s := by rw [SigDb.sigs_new, hs]
    rw [hmatch, hsingle]
    show (nameOf _ i >>= fun name ↦ pure (some name)) = _
    rw [nameOf_eq (p := (s, i)) hs']
    rfl

/-- The first function of `twoEncodings`, with its second byte left open. -/
def openSecond : ObjFunc where
  name := "zero"
  code := [0x31, 0xC0, 0xC3, 0x90, 0x90, 0x90]
  variant := [false, true]
  refs := []

theorem matchFn_complete_openSecond :
    ∃ s, Signs openSecond s ∧
      matchFn [0x31, 0xDB, 0xC3, 0x90, 0x90, 0x90, 0x90] (fun _ ↦ none) (SigDb.new "gcc" [s]) =
        .ok (some "zero") := by
  obtain ⟨s, hs⟩ : ∃ s, Signs openSecond s := exists_makeSig (by decide)
  have hsigs : ∀ t ∈ [s], ∃ f, Signs f t := fun t ht ↦
    ⟨openSecond, List.mem_singleton.1 ht ▸ hs⟩
  obtain ⟨hits, -, -, hmem, hfound, hname⟩ := matchFn_complete hsigs
    [0x31, 0xDB, 0xC3, 0x90, 0x90, 0x90, 0x90] (fun _ ↦ none) "gcc"
  have hzero : 0 ∈ hits := hfound 0 s openSecond rfl hs (by decide) (by decide)
  refine ⟨s, hs, (hname 0 s rfl fun j ↦ ⟨fun hj ↦ ?_, fun hj ↦ hj ▸ hzero⟩).trans ?_⟩
  · obtain ⟨t, ht, -⟩ := (hmem j).1 hj
    have := (List.getElem?_eq_some_iff.1 ht).1
    rw [List.length_singleton] at this
    omega
  · rw [(signedAs_of_makeSig hs).name]
    rfl

end Flirt

end Ldu
