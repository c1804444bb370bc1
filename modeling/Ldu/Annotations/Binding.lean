import Ldu.Annotations.Store
import Mathlib.Data.List.Find

/-!
# What records are bound to

A record is bound through its hash wherever the function with that hash has moved to. A function has
one record at most (`resolve_pairwise`). The record that is reported for a function is the first one
that its identity leads to the function (`annoForFunc_resolve`), which need not be the one recorded
last.
-/

namespace Ldu

namespace Annotations

open Listing

/-! ### Hashes -/

section Hash

/-- The instructions look the same to the hash: what moves on a rebuild may differ. -/
structure SameShape (i i' : Insn) : Prop where
  mnemonic : i.mnemonic = i'.mnemonic
  size : i.size = i'.size
  refType : i.refType = i'.refType
  bytes : i.refType = .none → i.bytes = i'.bytes

variable {e e' : Engine} {f f' : Func}

theorem maskedBytes_eq {i i' : Insn} (h : SameShape i i') : maskedBytes i = maskedBytes i' := by
  unfold maskedBytes
  rw [h.mnemonic, h.size, h.refType]
  split
  · rfl
  · next hnone => rw [h.bytes (h.refType.trans (not_not.1 hnone))]

theorem hashInsns_eq {insns insns' : List Insn} (h : List.Forall₂ SameShape insns insns') :
    hashInsns insns = hashInsns insns' := by
  have hmasked : insns.flatMap maskedBytes = insns'.flatMap maskedBytes := by
    induction h with
    | nil => rfl
    | cons hi _ ih => rw [List.flatMap_cons, List.flatMap_cons, maskedBytes_eq hi, ih]
  rw [hashInsns, hashInsns, hmasked]

theorem hashInsns_ne_zero (insns : List Insn) : hashInsns insns ≠ 0 := by
  unfold hashInsns
  dsimp only
  split
  · decide
  · assumption

/-- A function without bytes has no instructions. -/
theorem funcInsns_of_size_eq_zero (h : f.size = 0) : funcInsns e f = [] := by
  unfold funcInsns
  split
  · next k _ =>
    split
    · next hany =>
      obtain ⟨i, hi, hrva⟩ := (Option.any_eq_true _ _).1 hany
      have hle : wrap64 (f.rva + f.size) ≤ i.rva := by
        rw [of_decide_eq_true hrva, h]
        exact Nat.mod_le _ _
      cases hdrop : e.insns.drop k with
      | nil => rfl
      | cons j rest =>
        obtain rfl : j = i := by
          rw [← List.head?_drop, hdrop] at hi
          exact Option.some.inj hi
        rw [List.takeWhile_cons_of_neg (by simpa using hle)]
    · rfl
  · rfl

theorem hashFunc_eq :
    hashFunc e f = if funcInsns e f = [] then 0 else hashInsns (funcInsns e f) := by
  unfold hashFunc
  split
  · next h => rw [if_pos (funcInsns_of_size_eq_zero h)]
  · rfl

/-- The hash of a function does not change when the function moves. -/
theorem hashFunc_eq_of_sameShape (h : List.Forall₂ SameShape (funcInsns e f) (funcInsns e' f')) :
    hashFunc e f = hashFunc e' f' := by
  rw [hashFunc_eq, hashFunc_eq]
  cases hinsns : funcInsns e f with
  | nil =>
    rw [hinsns] at h
    rw [if_pos rfl, if_pos (List.forall₂_nil_left_iff.1 h)]
  | cons i insns =>
    rw [hinsns] at h
    have hne : funcInsns e' f' ≠ [] := fun hnil ↦ by
      rw [hnil] at h
      cases h
    rw [if_neg (List.cons_ne_nil _ _), if_neg hne, hashInsns_eq h]

end Hash

/-! ### Binding one record -/

section Bind

variable {e : Engine} {hash rva : UInt64} {r : ℕ}

/-- The hash picks out the function at an address, and no other one. -/
def picksOut (e : Engine) (hash : UInt64) (r : ℕ) : Bool :=
  hash ≠ 0 && (e.funcs.filter (hashFunc e · = hash)).map (·.rva) = [r]

theorem filter_hash_eq (hash : UInt64) :
    (e.funcs.filter fun f ↦ hash ≠ 0 && hashFunc e f = hash) =
      if hash = 0 then [] else e.funcs.filter (hashFunc e · = hash) := by
  split
  · next h => simp [h]
  · next h => simp [h]

/-- The hash binds wherever the function lies. -/
theorem bind_of_picksOut (h : picksOut e hash r = true) : bind e hash rva = some r := by
  rw [picksOut, Bool.and_eq_true, decide_eq_true_eq, decide_eq_true_eq] at h
  obtain ⟨f, hf, hfr⟩ := List.map_eq_singleton_iff.1 h.2
  unfold bind
  rw [filter_hash_eq, if_neg h.1, hf]
  exact congrArg some hfr

theorem bind_fallback (h : picksOut e hash r = false) (hbind : bind e hash rva = some r) :
    rva.toNat = r := by
  unfold bind at hbind
  split at hbind
  · next f hf =>
    rw [filter_hash_eq] at hf
    split at hf
    · cases hf
    · next hne =>
      rw [picksOut, hf, Bool.and_eq_false_iff] at h
      cases hbind
      simp [hne] at h
  · obtain ⟨f, -, hf⟩ := Option.bind_eq_some_iff.1 hbind
    split at hf
    · cases hf
    · exact Option.some.inj hf

/-- A record made of the function at its address is bound to it. -/
theorem bind_self {f : Func} (hf : funcAt e rva = some f) :
    bind e (hashFunc e f) rva = some rva.toNat := by
  have hrva : f.rva = rva.toNat := of_decide_eq_true (List.find?_some (p := fun f : Func ↦
    decide (f.rva = rva.toNat)) hf)
  unfold bind
  split
  · next g hg =>
    have hmem : ∀ f', f' ∈ [g] ↔ _ := fun f' ↦ hg ▸ List.mem_filter
    have hg' := (hmem g).1 (List.mem_singleton_self g)
    have hfg : f ∈ [g] := (hmem f).2 ⟨List.mem_of_find?_eq_some hf, by
      have := hg'.2
      simp only [Bool.and_eq_true, decide_eq_true_eq] at this ⊢
      exact ⟨this.1, trivial⟩⟩
    rw [List.mem_singleton.1 hfg] at hrva
    rw [hrva]
  · rw [hf, Option.bind_some, if_neg]
    exact fun h ↦ h.2.2 rfl

end Bind

/-! ### Binding all records -/

section Resolve

variable {e : Engine}

/-- The records bound to different functions, none of which is owned. -/
theorem bindAnnos_spec (owned : List ℕ) (annos : List Anno) :
    (bindAnnos e owned annos).Pairwise (fun a a' ↦ a.bound ≠ none → a.bound ≠ a'.bound) ∧
      ∀ a ∈ bindAnnos e owned annos, ∀ b ∈ a.bound, b ∉ owned := by
  induction annos generalizing owned with
  | nil => exact ⟨.nil, fun a ha ↦ absurd ha List.not_mem_nil⟩
  | cons a annos ih =>
    rw [bindAnnos]
    split
    · next b hb =>
      split
      · refine ⟨List.pairwise_cons.2 ⟨fun a' _ h ↦ absurd rfl h, (ih owned).1⟩, ?_⟩
        rintro a' (- | ⟨-, ha'⟩) c hc
        · cases hc
        · exact (ih owned).2 a' ‹_› c hc
      · next hb' =>
        obtain ⟨hpairwise, hnew⟩ := ih (b :: owned)
        refine ⟨List.pairwise_cons.2 ⟨fun a' ha' _ heq ↦ ?_, hpairwise⟩, ?_⟩
        · exact hnew a' ha' b heq.symm List.mem_cons_self
        · rintro a' (- | ⟨-, ha'⟩) c hc
          · cases hc
            exact hb'
          · exact fun hmem ↦ hnew a' ‹_› c hc (List.mem_cons_of_mem _ hmem)
    · refine ⟨List.pairwise_cons.2 ⟨fun a' _ h ↦ absurd rfl h, (ih owned).1⟩, ?_⟩
      rintro a' (- | ⟨-, ha'⟩) c hc
      · cases hc
      · exact (ih owned).2 a' ‹_› c hc

/-- No two records are bound to the same function. -/
theorem resolve_pairwise (e : Engine) (st : Store) :
    (resolve e st).annos.Pairwise fun a a' ↦ a.bound ≠ none → a.bound ≠ a'.bound :=
  (bindAnnos_spec [] st.annos).1

/-- A record stays where it is, and is bound to what its identity leads to unless a record before
owns that. -/
theorem getElem?_bindAnnos {owned : List ℕ} {annos : List Anno} {k b : ℕ} {a : Anno}
    (ha : annos[k]? = some a) (hbind : bind e a.hash a.rva = some b) (hb : b ∉ owned) :
    (bindAnnos e owned annos)[k]? = some { a with bound := some b } ∨
      ∃ j a', j < k ∧ (bindAnnos e owned annos)[j]? = some a' ∧ a'.bound = some b := by
  induction annos generalizing owned k with
  | nil => cases ha
  | cons c annos ih =>
    rw [bindAnnos]
    have hlater : ∀ {d : Anno} {owned'} {k}, annos[k]? = some a → b ∉ owned' →
        (d :: bindAnnos e owned' annos)[k + 1]? = some { a with bound := some b } ∨
          ∃ j a', j < k + 1 ∧ (d :: bindAnnos e owned' annos)[j]? = some a' ∧
            a'.bound = some b := by
      intro d owned' k ha hb
      rcases ih ha hb with h | ⟨j, a', hj, ha', hbound⟩
      · exact .inl h
      · exact .inr ⟨j + 1, a', by omega, ha', hbound⟩
    cases k with
    | zero =>
      obtain rfl := Option.some.inj ha
      rw [hbind]
      dsimp only
      rw [if_neg hb]
      exact .inl rfl
    | succ k =>
      rw [List.getElem?_cons_succ] at ha
      split
      · next c' _ =>
        split
        · exact hlater ha hb
        · -- The record in front takes a function: either this one or another.
          by_cases hcb : c' = b
          · exact .inr ⟨0, _, by omega, rfl, congrArg some hcb⟩
          · exact hlater ha fun h ↦ (List.mem_cons.1 h).elim (fun h ↦ hcb h.symm) hb
      · exact hlater ha hb

/-- The record reported for a function is the first one whose identity leads there. -/
theorem find?_bindAnnos {owned : List ℕ} {r : ℕ} (hr : r ∉ owned) (annos : List Anno) :
    (bindAnnos e owned annos).find? (·.bound = some r) =
      (annos.find? fun a ↦ bind e a.hash a.rva = some r).map fun a ↦
        { a with bound := some r } := by
  induction annos generalizing owned with
  | nil => rfl
  | cons a annos ih =>
    rw [bindAnnos]
    split
    · next b hb =>
      by_cases hbr : b = r
      · rw [if_neg (hbr ▸ hr), List.find?_cons_of_pos (by simpa using hbr),
          List.find?_cons_of_pos (by simpa [hb] using hbr), hbr]
        rfl
      · rw [List.find?_cons_of_neg (a := a) (by simpa [hb] using hbr)]
        split
        · rw [List.find?_cons_of_neg (by simp)]
          exact ih hr
        · rw [List.find?_cons_of_neg (by simpa using hbr)]
          exact ih fun h ↦ (List.mem_cons.1 h).elim (fun h ↦ hbr h.symm) hr
    · next hb =>
      rw [List.find?_cons_of_neg (a := a) (by simp [hb]), List.find?_cons_of_neg (by simp)]
      exact ih hr

theorem annoForFunc_resolve (st : Store) (r : ℕ) :
    annoForFunc (resolve e st) r =
      (st.annos.find? fun a ↦ bind e a.hash a.rva = some r).map fun a ↦
        { a with bound := some r } :=
  find?_bindAnnos List.not_mem_nil st.annos

end Resolve

/-! ### The name recorded last -/

section Rename

variable {e : Engine} {rva : UInt64}

/-- The record for an address is the first one, or a new one at the end. -/
theorem annoUpsert_eq (rva : UInt64) (change : Anno → Anno) (annos : List Anno) :
    ∃ a rest, a.rva = rva ∧
      annoUpsert rva change annos = annos.takeWhile (·.rva ≠ rva) ++ change a :: rest := by
  induction annos with
  | nil => exact ⟨{ rva := rva }, [], rfl, rfl⟩
  | cons a annos ih =>
    rw [annoUpsert]
    split
    · next h =>
      exact ⟨a, annos, h, by rw [List.takeWhile_cons_of_neg (by simpa using h)]; rfl⟩
    · next h =>
      obtain ⟨a', rest, ha', heq⟩ := ih
      exact ⟨a', rest, ha', by rw [List.takeWhile_cons_of_pos (by simpa using h), heq]; rfl⟩

/-- The record that is reported for a function right after it has been named, with everything bound
anew: one before that picks out the function by its hash, or else the one that the name went
into. -/
theorem annoForFunc_setFuncAnno {f : Func} (hf : funcAt e rva = some f) {name : Bytes}
    (hname : cstr name ≠ []) (comment : Bytes) (st : Store) :
    ∃ a, annoForFunc (resolve e (setFuncAnno e rva name comment st)) rva.toNat = some a ∧
      a.name = (((st.annos.takeWhile (·.rva ≠ rva)).find? fun a ↦
        picksOut e a.hash rva.toNat).map (·.name)).getD (strlcpy 95 name) := by
  obtain ⟨a, rest, harva, hupsert⟩ :=
    annoUpsert_eq rva (fun a ↦ a.edit e name comment) st.annos
  have hbefore : (st.annos.takeWhile (·.rva ≠ rva)).find? (fun a ↦
      bind e a.hash a.rva = some rva.toNat) =
        (st.annos.takeWhile (·.rva ≠ rva)).find? fun a ↦ picksOut e a.hash rva.toNat := by
    -- No record before is bound by its address, which is another one.
    refine List.find?_congr fun b hb ↦ Bool.eq_iff_iff.2 ?_
    have hne : b.rva ≠ rva := by simpa using List.mem_takeWhile_imp hb
    rw [decide_eq_true_eq]
    refine ⟨fun hbind ↦ ?_, bind_of_picksOut⟩
    by_contra hnot
    exact hne (UInt64.toNat_inj.1 (bind_fallback (Bool.eq_false_iff.2 hnot) hbind))
  rw [annoForFunc_resolve, setFuncAnno]
  dsimp only
  rw [hupsert, List.find?_append, hbefore]
  cases hfind : (st.annos.takeWhile (·.rva ≠ rva)).find? fun a ↦ picksOut e a.hash rva.toNat with
  | some b => exact ⟨_, rfl, rfl⟩
  | none =>
    rw [Option.none_or, List.find?_cons_of_pos]
    · exact ⟨_, rfl, if_neg hname⟩
    · -- The record that has been edited carries the hash of the function that lies there now.
      rw [Anno.edit, harva, hf]
      exact decide_eq_true (bind_self hf)

end Rename

/-! ### The types of variables -/

section Types

/-- The list without the last element that has a property. -/
def dropLastMatch {α : Type} (p : α → Bool) : List α → List α
  | [] => []
  | a :: l => if p a && !l.any p then l else a :: dropLastMatch p l

variable {e : Engine} {rva : UInt64}

/-- The record of a variable is the last one, or a new one at the end. -/
theorem varUpsert_perm (rva : UInt64) (var : Bytes) (change : AnnoVar → AnnoVar)
    (vars : List AnnoVar) :
    ∃ v, v.rva = rva ∧ v.fromName = strlcpy 63 var ∧
      (varUpsert rva var change vars).Perm
        (change v :: dropLastMatch (·.isFor rva var) vars) := by
  induction vars with
  | nil => exact ⟨{ rva := rva, fromName := strlcpy 63 var }, rfl, rfl, .refl _⟩
  | cons v vars ih =>
    rw [varUpsert, dropLastMatch]
    split
    · next h =>
      rw [Bool.and_eq_true, AnnoVar.isFor, Bool.and_eq_true, decide_eq_true_eq,
        decide_eq_true_eq] at h
      refine ⟨v, h.1.1, ?_, .refl _⟩
      have hle := v.fromName.length_le
      rw [h.1.2] at hle
      have hbytes : v.fromName.bytes = (strlcpy 63 var).bytes := by
        rw [h.1.2, bytes_strlcpy, List.take_of_length_le hle]
      exact Field.ext hbytes
    · obtain ⟨v', hrva, hname, hperm⟩ := ih
      exact ⟨v', hrva, hname, (hperm.cons v).trans (.swap _ _ _)⟩

/-- The records of the other variables, and the other records of this one. -/
def Store.others (st : Store) (rva : UInt64) (var : Bytes) : List AnnoVar :=
  dropLastMatch (·.isFor rva var) st.vars

/-- The types that are reported for a variable. -/
def typesOf (st : Store) (rva : ℕ) (var : Bytes) : List Bytes :=
  ((getVarTypes st rva).filter (·.1 = strlcpy 63 var)).map (·.2.bytes)

/-- The record gives a type to a variable of a function. -/
def AnnoVar.types (v : AnnoVar) (rva : ℕ) (var : Bytes) : Bool :=
  v.bound = some rva && !v.type.isEmpty && v.fromName = strlcpy 63 var

theorem typesOf_eq {var : Bytes} (hvar : cstr var ≠ []) (st : Store) (r : ℕ) :
    typesOf st r var = (st.vars.filter (·.types r var)).map (·.type.bytes) := by
  have hne : (strlcpy 63 var).isEmpty = false := by
    rw [Field.isEmpty, bytes_strlcpy, decide_eq_false_iff_not, List.take_eq_nil_iff]
    exact fun h ↦ h.elim (by decide) hvar
  rw [typesOf, getVarTypes, List.filter_map, List.map_map, List.filter_filter]
  refine congrArg _ (List.filter_congr fun v _ ↦ ?_)
  rw [AnnoVar.types]
  by_cases hv : v.fromName = strlcpy 63 var
  · simp [hv, hne]
  · simp [hv]

/-- The types that are reported for a variable right after it has been given one: that one and those
of the other records. -/
theorem typesOf_setVarType {f : Func} (hf : funcAt e rva = some f) {var : Bytes}
    (hvar : cstr var ≠ []) (type : Bytes) (st : Store) :
    (typesOf (setVarType e rva var type st) rva.toNat var).Perm
      ((if cstr type = [] then [] else [(strlcpy 63 type).bytes]) ++
        ((st.others rva var).filter (·.types rva.toNat var)).map (·.type.bytes)) := by
  rw [typesOf_eq hvar, setVarType, if_neg hvar, annoVarUpsert]
  obtain ⟨v, hrva, hname, hperm⟩ := varUpsert_perm rva var
    (fun v ↦ { v.identify e with type := strlcpy 63 type }) st.vars
  refine ((hperm.filter _).map _).trans ?_
  have hempty : (strlcpy 63 type).isEmpty = decide (cstr type = []) := by
    rw [Field.isEmpty, bytes_strlcpy]
    simp
  have htypes : AnnoVar.types { v.identify e with type := strlcpy 63 type } rva.toNat var =
      !decide (cstr type = []) := by
    simp [AnnoVar.types, AnnoVar.identify, hrva, hf, hname, hempty]
  rw [List.filter_cons, htypes]
  by_cases htype : cstr type = []
  · simp [htype, Store.others]
  · simp [htype, Store.others]

end Types

end Annotations

end Ldu
