import Ldu.Flirt.Format

/-!
# Matching code against a database

Which of the signatures the code has does not depend on the order of a database, but which of them
is asked first does, and of those with the most references known to be right the first one wins. So
the answer is the same for every order exactly where those that may come first have one name
(`matchFn_perm_iff`).

A pattern has 32 bytes, and a record that says it has more is asked for the next one as soon as the
code agrees with all of them (`safe_matchFn_iff`).
-/

namespace Ldu

namespace Flirt

open Checked

/-! ### One signature -/

section One

variable {code : List UInt8} {s : FuncSig}

/-- The byte of the code is that of the pattern, or the pattern leaves it open. -/
def agrees (code : List UInt8) (s : FuncSig) (i : ℕ) : Bool :=
  s.wild i || code[i]? == s.pat[i]?

/-- The bytes are compared until one differs, or until the pattern ends. -/
theorem patOk_eq {n i : ℕ} (hi : i ≤ 32) (hn : i + n ≤ code.length) :
    patOk code s n i =
      if ∀ j, i ≤ j → j < i + n → j < 32 → agrees code s j then
        if i + n ≤ 32 then .ok true else .error .shift
      else .ok false := by
  induction n generalizing i with
  | zero =>
    rw [if_pos fun j hj hj' _ ↦ by omega, if_pos (by omega)]
    rfl
  | succ n ih =>
    rcases hi.eq_or_lt with rfl | hlt
    · rw [patOk, bit_eq_error le_rfl, if_pos fun j hj _ hj' ↦ by omega, if_neg (by omega)]
      rfl
    · have hpat : i < s.pat.length := by rw [s.length_pat]; exact hlt
      -- What the rest of the loop does, once this byte agrees.
      have hrest (hagrees : agrees code s i) : patOk code s n (i + 1) =
          if ∀ j, i ≤ j → j < i + (n + 1) → j < 32 → agrees code s j then
            if i + (n + 1) ≤ 32 then .ok true else .error .shift
          else .ok false := by
        rw [ih (by omega) (by omega), Nat.add_right_comm, Nat.add_assoc]
        refine if_congr ⟨fun h j hj hj' hj'' ↦ ?_, fun h j hj ↦ h j (by omega)⟩ rfl rfl
        rcases hj.eq_or_lt with rfl | hj
        · exact hagrees
        · exact h j hj hj' hj''
      rw [patOk, bit_of_lt hlt, ok_bind]
      split
      · next hwild => exact hrest (by simp [agrees, FuncSig.wild, hwild])
      · next hwild =>
        rw [index_of_lt (by omega : i < code.length), ok_bind, index_of_lt hpat, ok_bind]
        have hiff : agrees code s i = true ↔ code[i] = s.pat[i] := by
          rw [agrees, List.getElem?_eq_getElem (by omega : i < code.length),
            List.getElem?_eq_getElem hpat]
          simp [FuncSig.wild, hwild]
        split
        · next hne =>
          rw [if_neg fun h ↦ hne (hiff.1 (h i le_rfl (by omega) hlt))]
          rfl
        · next heq => exact hrest (hiff.2 (not_not.1 heq))

theorem safe_crcOk : Safe (crcOk code s) := by
  have hlen := s.crcLen.toNat_lt
  unfold crcOk
  split
  · exact safe_ok _
  · rw [add_of_lt (by simp only [patLen]; omega), ok_bind]
    split
    · exact safe_ok _
    · rw [slice_of_le (Nat.le_add_right _ _) (by omega)]
      exact safe_ok _

/-- The code is as long as the signature asks for and agrees with all of its 32 bytes. -/
def Reaches (code : List UInt8) (s : FuncSig) : Prop :=
  lengthOk code s (patLen + s.crcLen.toNat) ∧ s.plen.toNat ≤ code.length ∧
    ∀ j < 32, agrees code s j

theorem safe_patCrcLenOk_iff :
    Safe (patCrcLenOk code s) ↔ (Reaches code s → s.plen.toNat ≤ 32) := by
  have hlen := s.crcLen.toNat_lt
  unfold patCrcLenOk Reaches
  rw [add_of_lt (by simp only [patLen]; omega), ok_bind]
  cases hlength : lengthOk code s (patLen + s.crcLen.toNat) with
  | false => exact iff_of_true (safe_ok _) (by simp)
  | true =>
    rw [if_neg (by simp)]
    by_cases hplen : code.length < s.plen.toNat
    · rw [if_pos hplen]
      exact iff_of_true (safe_ok _) fun h ↦ by omega
    · rw [if_neg hplen, patOk_eq (by omega) (by omega), Nat.zero_add]
      by_cases hagree : ∀ j, 0 ≤ j → j < s.plen.toNat → j < 32 → agrees code s j
      · rw [if_pos hagree]
        by_cases hshort : s.plen.toNat ≤ 32
        · rw [if_pos hshort, ok_bind]
          exact iff_of_true safe_crcOk fun _ ↦ hshort
        · rw [if_neg hshort]
          refine iff_of_false (not_safe_error _) fun h ↦ hshort (h ⟨rfl, by omega, fun j hj ↦ ?_⟩)
          exact hagree j (by omega) (by omega) hj
      · rw [if_neg hagree, ok_bind]
        refine iff_of_true (safe_ok _) fun h ↦ ?_
        by_contra hlong
        exact hagree fun j _ _ hj ↦ h.2.2 j hj

/-- The code has the signature. -/
def hit (code : List UInt8) (s : FuncSig) : Bool :=
  match patCrcLenOk code s with
  | .ok b => b
  | .error _ => false

end One

/-! ### The signatures that the code has -/

section Hits

variable {code : List UInt8} {db : SigDb} {ps : List (FuncSig × ℕ)}

theorem hitsOf_eq (code : List UInt8) (hps : ∀ p ∈ ps, db.sigs[p.2]? = some p.1)
    (hsafe : ∀ p ∈ ps, Safe (patCrcLenOk code p.1)) :
    hitsOf code db (ps.map Prod.snd) = .ok ((ps.filter (hit code ·.1)).map Prod.snd) := by
  induction ps with
  | nil => rfl
  | cons p ps ih =>
    obtain ⟨hp, hps⟩ := List.forall_mem_cons.1 hps
    obtain ⟨⟨b, hb⟩, hsafe⟩ := List.forall_mem_cons.1 hsafe
    have hhit : hit code p.1 = b := by rw [hit, hb]
    rw [List.map_cons, hitsOf, index_of_getElem? hp, ok_bind, hb, ok_bind, ih hps hsafe, ok_bind]
    cases b <;> simp [hhit] <;> rfl

theorem safe_of_hitsOf (hps : ∀ p ∈ ps, db.sigs[p.2]? = some p.1)
    (hsafe : Safe (hitsOf code db (ps.map Prod.snd))) : ∀ p ∈ ps, Safe (patCrcLenOk code p.1) := by
  induction ps with
  | nil => exact nofun
  | cons p ps ih =>
    obtain ⟨hp, hps⟩ := List.forall_mem_cons.1 hps
    rw [List.map_cons, hitsOf, index_of_getElem? hp, ok_bind, safe_bind] at hsafe
    obtain ⟨b, hb, hsafe⟩ := hsafe
    obtain ⟨rest, hrest, -⟩ := safe_bind.1 hsafe
    exact List.forall_mem_cons.2 ⟨⟨b, hb⟩, ih hps ⟨rest, hrest⟩⟩

end Hits

/-! ### Breaking ties -/

section Scores

variable {known : UInt16 → Option String} {db : SigDb}

/-- The score of a signature that takes part in the tie-break. -/
def scoreOf (known : UInt16 → Option String) (s : FuncSig) : Option ℕ :=
  if s.refs = [] then none
  else match scoreFrom known s.refs 0 with
    | .ok o => o
    | .error _ => none

theorem scoreFrom_eq_error {refs : List (UInt16 × String)} {n : ℕ} {err : Fault}
    (h : scoreFrom known refs n = .error err) : err = .overflow := by
  induction refs generalizing n with
  | nil => cases h
  | cons r refs ih =>
    rw [scoreFrom] at h
    split at h
    · split at h
      · unfold add at h
        split at h
        · exact ih h
        · cases h
          rfl
      · cases h
    · exact ih h

/-- A score is at most the number of references. -/
theorem safe_scoreFrom {refs : List (UInt16 × String)} {n : ℕ}
    (h : n + refs.length < 2 ^ 31) : Safe (scoreFrom known refs n) := by
  induction refs generalizing n with
  | nil => exact safe_ok _
  | cons r refs ih =>
    rw [List.length_cons] at h
    rw [scoreFrom]
    split
    · split
      · rw [add_of_lt (by omega), ok_bind]
        exact ih (by omega)
      · exact safe_ok _
    · exact ih (by omega)

/-- The better of the best one so far and the next one. -/
def better (known : UInt16 → Option String) (best : ℤ × Option ℕ) (p : FuncSig × ℕ) :
    ℤ × Option ℕ :=
  match scoreOf known p.1 with
  | some n => if best.1 < n then (n, some p.2) else best
  | none => best

theorem tieBreak_eq {p : FuncSig × ℕ} (hp : db.sigs[p.2]? = some p.1)
    (hsafe : Safe (scoreFrom known p.1.refs 0)) (best : ℤ × Option ℕ) :
    tieBreak known db best p.2 = .ok (better known best p) := by
  obtain ⟨o, ho⟩ := hsafe
  rw [tieBreak, index_of_getElem? hp, ok_bind, better, scoreOf]
  split
  · rfl
  · rw [ho]
    cases o with
    | none => rfl
    | some n =>
      rw [ok_bind]
      dsimp only
      split <;> rfl

theorem foldlM_tieBreak {ps : List (FuncSig × ℕ)} (hps : ∀ p ∈ ps, db.sigs[p.2]? = some p.1)
    (hsafe : ∀ p ∈ ps, Safe (scoreFrom known p.1.refs 0)) (best : ℤ × Option ℕ) :
    (ps.map Prod.snd).foldlM (tieBreak known db) best = .ok (ps.foldl (better known) best) := by
  induction ps generalizing best with
  | nil => rfl
  | cons p ps ih =>
    obtain ⟨hp, hps⟩ := List.forall_mem_cons.1 hps
    obtain ⟨hs, hsafe⟩ := List.forall_mem_cons.1 hsafe
    rw [List.map_cons, List.foldlM_cons, tieBreak_eq hp hs, ok_bind, ih hps hsafe, List.foldl_cons]

/-- A score that does not fit ends the tie-break, wherever it stands. -/
theorem foldlM_tieBreak_overflow {ps : List (FuncSig × ℕ)}
    (hps : ∀ p ∈ ps, db.sigs[p.2]? = some p.1)
    (hover : ∃ p ∈ ps, ¬Safe (scoreFrom known p.1.refs 0)) (best : ℤ × Option ℕ) :
    (ps.map Prod.snd).foldlM (tieBreak known db) best = .error .overflow := by
  induction ps generalizing best with
  | nil => exact absurd hover (by simp)
  | cons p ps ih =>
    obtain ⟨hp, hps⟩ := List.forall_mem_cons.1 hps
    rw [List.map_cons, List.foldlM_cons]
    by_cases hs : Safe (scoreFrom known p.1.refs 0)
    · rw [tieBreak_eq hp hs, ok_bind]
      obtain ⟨q, hq, hqs⟩ := hover
      rcases List.mem_cons.1 hq with rfl | hq
      · exact absurd hs hqs
      · exact ih hps ⟨q, hq, hqs⟩ _
    · cases hscore : scoreFrom known p.1.refs 0 with
      | ok o => exact absurd ⟨o, hscore⟩ hs
      | error err =>
        obtain rfl := scoreFrom_eq_error hscore
        have hrefs : p.1.refs ≠ [] := by
          intro h
          rw [h] at hscore
          cases hscore
        rw [tieBreak, index_of_getElem? hp, ok_bind, if_neg hrefs, hscore]
        rfl

/-- What is kept at the end is the first of the best ones. -/
theorem foldl_better (known : UInt16 → Option String) (ps : List (FuncSig × ℕ))
    (best : ℤ × Option ℕ) :
    (ps.foldl (better known) best = best ∧
      ∀ p ∈ ps, ∀ n, scoreOf known p.1 = some n → (n : ℤ) ≤ best.1) ∨
    ∃ l p l' n, ps = l ++ p :: l' ∧ scoreOf known p.1 = some n ∧ best.1 < n ∧
      ps.foldl (better known) best = ((n : ℤ), some p.2) ∧
      (∀ q ∈ l, ∀ m, scoreOf known q.1 = some m → m < n) ∧
      ∀ q ∈ l', ∀ m, scoreOf known q.1 = some m → m ≤ n := by
  induction ps generalizing best with
  | nil => exact .inl ⟨rfl, nofun⟩
  | cons p ps ih =>
    rw [List.foldl_cons]
    cases hscore : scoreOf known p.1 with
    | none =>
      have hbest : better known best p = best := by rw [better, hscore]
      rw [hbest]
      rcases ih best with ⟨hfold, hle⟩ | ⟨l, q, l', n, rfl, hn, hlt, hfold, hl, hl'⟩
      · exact .inl ⟨hfold, List.forall_mem_cons.2 ⟨fun n hn ↦ by simp [hscore] at hn, hle⟩⟩
      · refine .inr ⟨p :: l, q, l', n, rfl, hn, hlt, hfold, ?_, hl'⟩
        exact List.forall_mem_cons.2 ⟨fun m hm ↦ by simp [hscore] at hm, hl⟩
    | some k =>
      have hk (m : ℕ) (hm : scoreOf known p.1 = some m) : m = k :=
        Option.some.inj (hm.symm.trans hscore)
      by_cases hlt : best.1 < k
      · have hbest : better known best p = ((k : ℤ), some p.2) := by
          rw [better, hscore]
          exact if_pos hlt
        rw [hbest]
        rcases ih ((k : ℤ), some p.2) with
          ⟨hfold, hle⟩ | ⟨l, q, l', n, rfl, hn, hltn, hfold, hl, hl'⟩
        · refine .inr ⟨[], p, ps, k, rfl, hscore, hlt, hfold, nofun, fun q hq m hm ↦ ?_⟩
          exact Int.ofNat_le.1 (hle q hq m hm)
        · refine .inr ⟨p :: l, q, l', n, rfl, hn, hlt.trans hltn, hfold, ?_, hl'⟩
          exact List.forall_mem_cons.2 ⟨fun m hm ↦ by rw [hk m hm]; exact Int.ofNat_lt.1 hltn, hl⟩
      · have hbest : better known best p = best := by
          rw [better, hscore]
          exact if_neg hlt
        rw [hbest]
        rcases ih best with ⟨hfold, hle⟩ | ⟨l, q, l', n, rfl, hn, hltn, hfold, hl, hl'⟩
        · refine .inl ⟨hfold, List.forall_mem_cons.2 ⟨fun m hm ↦ ?_, hle⟩⟩
          rw [hk m hm]
          exact not_lt.1 hlt
        · refine .inr ⟨p :: l, q, l', n, rfl, hn, hltn, hfold, ?_, hl'⟩
          refine List.forall_mem_cons.2 ⟨fun m hm ↦ ?_, hl⟩
          rw [hk m hm]
          exact_mod_cast (not_lt.1 hlt).trans_lt hltn

theorem nameOf_eq {p : FuncSig × ℕ} (hp : db.sigs[p.2]? = some p.1) :
    nameOf db p.2 = .ok p.1.name := by
  rw [nameOf, index_of_getElem? hp]
  rfl

theorem chooseName_of_two_le_eq {ps : List (FuncSig × ℕ)} (htwo : 2 ≤ ps.length) :
    chooseName known db (ps.map Prod.snd) = do
      let best ← (ps.map Prod.snd).foldlM (tieBreak known db) (-1, none)
      match best.2 with
      | some i => return some (← nameOf db i)
      | none => return none := by
  match ps, htwo with
  | _ :: _ :: _, _ => rfl

/-- With several signatures there is no name unless one takes part in the tie-break; then the first
of the best ones gives it. -/
theorem chooseName_of_two_le {ps : List (FuncSig × ℕ)}
    (hps : ∀ p ∈ ps, db.sigs[p.2]? = some p.1)
    (hsafe : ∀ p ∈ ps, Safe (scoreFrom known p.1.refs 0)) (htwo : 2 ≤ ps.length) :
    (chooseName known db (ps.map Prod.snd) = .ok none ∧ ∀ p ∈ ps, scoreOf known p.1 = none) ∨
    ∃ l p l' n, ps = l ++ p :: l' ∧ scoreOf known p.1 = some n ∧
      chooseName known db (ps.map Prod.snd) = .ok (some p.1.name) ∧
      (∀ q ∈ l, ∀ m, scoreOf known q.1 = some m → m < n) ∧
      ∀ q ∈ l', ∀ m, scoreOf known q.1 = some m → m ≤ n := by
  rw [chooseName_of_two_le_eq htwo, foldlM_tieBreak hps hsafe (-1, none), ok_bind]
  rcases foldl_better known ps (-1, none) with
    ⟨hbest, hle⟩ | ⟨l, p, l', n, hl, hn, -, hbest, hbefore, hafter⟩
  · rw [hbest]
    refine .inl ⟨rfl, fun p hp ↦ Option.eq_none_iff_forall_ne_some.2 fun n hn ↦ ?_⟩
    have := hle p hp n hn
    omega
  · rw [hbest]
    refine .inr ⟨l, p, l', n, hl, hn, ?_, hbefore, hafter⟩
    dsimp only
    rw [nameOf_eq (hps p (hl ▸ List.mem_append_right l List.mem_cons_self))]
    rfl

end Scores

/-! ### The answer -/

section Answer

variable {code : List UInt8} {known : UInt16 → Option String} {sigs : List FuncSig}

/-- The signatures that the code has, in the order they are asked. -/
def hits (code : List UInt8) (sigs : List FuncSig) : List FuncSig :=
  match code with
  | [] => []
  | b :: _ => (SigDb.candidates sigs b).filter (hit code)

theorem matchFn_new (known : UInt16 → Option String) (toolchain : String)
    (hlen : 6 ≤ code.length)
    (hsafe : ∀ s ∈ sigs, Safe (patCrcLenOk code s)) :
    ∃ ps : List (FuncSig × ℕ), hits code sigs = ps.map Prod.fst ∧
      (∀ p ∈ ps, (SigDb.new toolchain sigs).sigs[p.2]? = some p.1) ∧
      matchFn code known (SigDb.new toolchain sigs) =
        chooseName known (SigDb.new toolchain sigs) (ps.map Prod.snd) := by
  obtain ⟨b, rest, rfl⟩ := List.exists_cons_of_length_pos (by omega : 0 < code.length)
  obtain ⟨ps, hids, hcandidates, hps⟩ := SigDb.exists_numbered toolchain sigs b
  rw [← SigDb.sigs_new toolchain sigs] at hps
  refine ⟨ps.filter (hit (b :: rest) ·.1), ?_, fun p hp ↦ hps p (List.mem_of_mem_filter hp), ?_⟩
  · rw [hits, hcandidates, List.filter_map]
    rfl
  · have hhits := hitsOf_eq (b :: rest) hps fun p hp ↦
      hsafe p.1 (List.mem_of_getElem? (SigDb.sigs_new toolchain sigs ▸ hps p hp))
    rw [matchFn, if_neg (by omega), index_of_getElem? (a := b) rfl, ok_bind, hids, hhits, ok_bind]

theorem chooseName_of_length_eq_one {ps : List (FuncSig × ℕ)} {db : SigDb}
    (hps : ∀ p ∈ ps, db.sigs[p.2]? = some p.1) (hone : ps.length ≤ 1) :
    chooseName known db (ps.map Prod.snd) = .ok (ps.head?.map fun p ↦ p.1.name) := by
  match ps, hone with
  | [], _ => rfl
  | [p], _ =>
    rw [List.map_singleton, chooseName, nameOf_eq (hps p List.mem_cons_self)]
    rfl

theorem mem_candidates {b : UInt8} {s : FuncSig} :
    s ∈ SigDb.candidates sigs b ↔ s ∈ sigs ∧ (s.wild 0 ∨ s.first = b) := by
  rw [SigDb.candidates, List.mem_append, List.mem_filter, List.mem_filter]
  cases s.wild 0 <;> simp

/-- A signature whose bytes the code has is asked. -/
theorem mem_candidates_of_reaches {b : UInt8} {rest : List UInt8} {s : FuncSig} (hs : s ∈ sigs)
    (hreaches : Reaches (b :: rest) s) : s ∈ SigDb.candidates sigs b := by
  have h := hreaches.2.2 0 (by decide)
  have hfirst : s.pat[0]? = some s.first := by
    rw [FuncSig.first, ← List.head?_eq_getElem?, List.head?_eq_some_head]
  rw [agrees, hfirst, List.getElem?_cons_zero, Bool.or_eq_true, beq_iff_eq] at h
  exact mem_candidates.2 ⟨hs, h.imp_right fun h ↦ (Option.some.inj h).symm⟩

theorem safe_matchFn_new_iff (code : List UInt8) (known : UInt16 → Option String)
    (toolchain : String) (hrefs : ∀ s ∈ sigs, s.refs.length < 2 ^ 31) :
    Safe (matchFn code known (SigDb.new toolchain sigs)) ↔
      ∀ s ∈ sigs, Reaches code s → s.plen.toNat ≤ 32 := by
  by_cases hlen : code.length < 6
  · refine iff_of_true ?_ fun s _ h ↦ ?_
    · rw [matchFn, if_pos hlen]
      exact safe_ok _
    · have := h.2.1
      omega
  constructor
  · intro h s hs hreaches
    obtain ⟨b, rest, rfl⟩ := List.exists_cons_of_length_pos (by omega : 0 < code.length)
    obtain ⟨ps, hids, hcandidates, hps⟩ := SigDb.exists_numbered toolchain sigs b
    rw [← SigDb.sigs_new toolchain sigs] at hps
    rw [matchFn, if_neg hlen, index_of_getElem? (a := b) rfl, ok_bind, hids, safe_bind] at h
    obtain ⟨ids, hhits, -⟩ := h
    have hmem := mem_candidates_of_reaches hs hreaches
    rw [hcandidates, List.mem_map] at hmem
    obtain ⟨p, hp, rfl⟩ := hmem
    exact safe_patCrcLenOk_iff.1 (safe_of_hitsOf hps ⟨ids, hhits⟩ p hp) hreaches
  · intro h
    obtain ⟨ps, -, hps, hmatch⟩ := matchFn_new known toolchain (not_lt.1 hlen)
      fun s hs ↦ safe_patCrcLenOk_iff.2 (h s hs)
    rw [hmatch]
    by_cases hone : ps.length ≤ 1
    · rw [chooseName_of_length_eq_one hps hone]
      exact safe_ok _
    · have hsafe (p) (hp : p ∈ ps) : Safe (scoreFrom known p.1.refs 0) := by
        have hmem := List.mem_of_getElem? (hps p hp)
        rw [SigDb.sigs_new] at hmem
        exact safe_scoreFrom (by have := hrefs p.1 hmem; omega)
      rcases chooseName_of_two_le hps hsafe (by omega) with ⟨h, -⟩ | ⟨_, _, _, _, _, _, h, -⟩
      · exact ⟨_, h⟩
      · exact ⟨_, h⟩

/-- A database that has been read is matched safely against code that no record with a pattern of
more than 32 bytes asks for the next byte of; and against all code if there is no such record. -/
theorem safe_matchFn_iff (buf : List UInt8) (db : SigDb) (h : deserialize buf = some db) :
    (∀ (code : List UInt8) (known : UInt16 → Option String),
      Safe (matchFn code known db) ↔ ∀ s ∈ db.sigs, Reaches code s → s.plen.toNat ≤ 32) ∧
    ((∀ (code : List UInt8) (known : UInt16 → Option String), Safe (matchFn code known db)) ↔
      ∀ s ∈ db.sigs, s.plen.toNat ≤ 32) := by
  obtain ⟨toolchain, sigs, rfl, hrefs⟩ := of_deserialize h
  rw [SigDb.sigs_new]
  have hiff (code known) := safe_matchFn_new_iff code known toolchain
    fun s hs ↦ (hrefs s hs).trans (by decide)
  refine ⟨hiff, fun hsafe s hs ↦ ?_, fun hplen code known ↦ (hiff _ _).2 fun s hs _ ↦ hplen s hs⟩
  -- Code that starts with the pattern and is long enough for any record asks for every byte.
  refine (hiff (s.pat ++ List.replicate 600 0) fun _ ↦ none).1 (hsafe _ _) s hs ⟨?_, ?_, ?_⟩
  · have hlen := s.crcLen.toNat_lt
    rw [lengthOk, List.length_append, s.length_pat, List.length_replicate]
    refine Bool.or_eq_true_iff.2 (.inr (decide_eq_true ((min_le_left _ _).trans ?_)))
    simp only [patLen]
    omega
  · have hlen := s.plen.toNat_lt
    rw [List.length_append, List.length_replicate]
    omega
  · intro j hj
    rw [agrees, List.getElem?_append_left (by rw [s.length_pat]; exact hj), beq_self_eq_true,
      Bool.or_true]

/-- A file with one record, whose pattern is said to have 33 bytes. -/
def overlongFile : List UInt8 :=
  serialize "msvc" [{
    pat := List.replicate 32 0x90, length_pat := by decide, mask := 0, plen := 33, crcLen := 0
    crc := 0, fullLen := 33, name := "memset", refs := [] }]

theorem isSome_deserialize_overlongFile : (deserialize overlongFile).isSome := by
  decide +kernel

/-- The database in that file. -/
def overlongDb : SigDb :=
  (deserialize overlongFile).get isSome_deserialize_overlongFile

theorem safe_matchFn_iff_overlong :
    (∀ (code : List UInt8) (known : UInt16 → Option String),
      Safe (matchFn code known overlongDb) ↔
        ∀ s ∈ overlongDb.sigs, Reaches code s → s.plen.toNat ≤ 32) ∧
    ((∀ (code : List UInt8) (known : UInt16 → Option String),
      Safe (matchFn code known overlongDb)) ↔ ∀ s ∈ overlongDb.sigs, s.plen.toNat ≤ 32) :=
  safe_matchFn_iff overlongFile overlongDb (Option.some_get _).symm

/-- The file is read, and 33 bytes of code that agree with its record are shifted too far. -/
theorem matchFn_overlong :
    deserialize overlongFile = some overlongDb ∧
      matchFn (List.replicate 33 0x90) (fun _ ↦ none) overlongDb = .error .shift :=
  ⟨(Option.some_get _).symm, by decide +kernel⟩

end Answer

/-! ### The order of a database -/

section Order

variable {code : List UInt8} {known : UInt16 → Option String} {sigs sigs' : List FuncSig}
  {s t : FuncSig}

theorem plen_of_makeSig {c : List UInt8} {variant : List Bool} {name : String}
    {refs : List (UInt16 × String)} (h : makeSig c variant name refs = some s) :
    s.plen.toNat ≤ 32 := by
  unfold makeSig at h
  split at h
  · cases h
  · obtain rfl := Option.some.inj h
    have hle : min c.length patLen ≤ 32 := min_le_right _ _
    rw [UInt8.toNat_ofNat', Nat.mod_eq_of_lt (by omega)]
    exact hle

theorem hits_perm (code : List UInt8) (h : sigs'.Perm sigs) :
    (hits code sigs').Perm (hits code sigs) := by
  cases code with
  | nil => exact .refl _
  | cons b rest => exact ((h.filter _).append (h.filter _)).filter _

/-- No signature that the code has scores higher. -/
def Best (code : List UInt8) (known : UInt16 → Option String) (sigs : List FuncSig)
    (s : FuncSig) : Prop :=
  s ∈ hits code sigs ∧ ∃ n, scoreOf known s = some n ∧
    ∀ t ∈ hits code sigs, ∀ m, scoreOf known t = some m → m ≤ n

/-- In some order of the database the signature is the first of the best ones: a signature whose
first byte is left open comes behind all others. -/
def Leads (code : List UInt8) (known : UInt16 → Option String) (sigs : List FuncSig)
    (s : FuncSig) : Prop :=
  Best code known sigs s ∧ (s.wild 0 → ∀ t, Best code known sigs t → t.wild 0)

theorem best_perm (h : sigs'.Perm sigs) : Best code known sigs' s ↔ Best code known sigs s := by
  simp only [Best, (hits_perm code h).mem_iff]

theorem leads_perm (h : sigs'.Perm sigs) : Leads code known sigs' s ↔ Leads code known sigs s := by
  simp only [Leads, best_perm h]

/-- The signatures with a known first byte come first. -/
theorem exists_hits_eq (code : List UInt8) (sigs : List FuncSig) :
    ∃ known open', hits code sigs = known ++ open' ∧ (∀ s ∈ known, s.wild 0 = false) ∧
      ∀ s ∈ open', s.wild 0 = true := by
  cases code with
  | nil => exact ⟨[], [], rfl, nofun, nofun⟩
  | cons b rest =>
    refine ⟨_, _, List.filter_append _ _, fun s hs ↦ ?_, fun s hs ↦ ?_⟩
    · simpa using (List.mem_filter.1 (List.mem_of_mem_filter hs)).2 |> fun h ↦
        (Bool.and_eq_true_iff.1 h).1
    · exact (List.mem_filter.1 (List.mem_of_mem_filter hs)).2

/-- The first of the best ones in the order they are asked leads. -/
theorem leads_of_split {l l' : List FuncSig} {n : ℕ} (hhits : hits code sigs = l ++ s :: l')
    (hn : scoreOf known s = some n) (hl : ∀ t ∈ l, ∀ m, scoreOf known t = some m → m < n)
    (hl' : ∀ t ∈ l', ∀ m, scoreOf known t = some m → m ≤ n) : Leads code known sigs s := by
  have hmax : ∀ t ∈ hits code sigs, ∀ m, scoreOf known t = some m → m ≤ n := by
    intro t ht m hm
    rw [hhits, List.mem_append, List.mem_cons] at ht
    rcases ht with ht | rfl | ht
    · exact (hl t ht m hm).le
    · exact (Option.some.inj (hm.symm.trans hn)).le
    · exact hl' t ht m hm
  have hmem : s ∈ hits code sigs := hhits ▸ List.mem_append_right l List.mem_cons_self
  refine ⟨⟨hmem, n, hn, hmax⟩, fun hwild t ht ↦ ?_⟩
  obtain ⟨htmem, m, hm, htmax⟩ := ht
  -- A best one with a known first byte would stand before `s`.
  by_contra hfixed
  obtain ⟨first, last, heq, hfirst, hlast⟩ := exists_hits_eq code sigs
  have htfirst : t ∈ first := by
    rw [heq, List.mem_append] at htmem
    exact htmem.resolve_right fun h ↦ hfixed (hlast t h)
  rw [hhits] at heq
  rcases List.append_eq_append_iff.1 heq with ⟨as, rfl, has⟩ | ⟨as, rfl, -⟩
  · cases as with
    | nil =>
      rw [List.append_nil] at htfirst
      exact absurd (hl t htfirst m hm) (not_lt.2 (htmax s hmem n hn))
    | cons a as =>
      obtain ⟨rfl, -⟩ := List.cons.inj has
      exact absurd hwild (by simp [hfirst s (by simp)])
  · exact absurd (hl t (List.mem_append_left as htfirst) m hm) (not_lt.2 (htmax s hmem n hn))

/-- One that leads and comes first in the database stands before every other best one. -/
theorem exists_hits_cons (hlead : Leads code known (s :: sigs) s) :
    ∃ l l', hits code (s :: sigs) = l ++ s :: l' ∧ ∀ t ∈ l, ¬Best code known (s :: sigs) t := by
  have hmem := hlead.1.1
  match code with
  | [] => cases hmem
  | b :: rest =>
    obtain ⟨hcandidate, hhit⟩ := List.mem_filter.1 hmem
    cases hwild : s.wild 0 with
    | false =>
      have hfirst : s.first = b := by
        simpa [hwild] using (mem_candidates.1 hcandidate).2
      refine ⟨[], ((sigs.filter fun s ↦ !s.wild 0 && s.first = b) ++
        (s :: sigs).filter (·.wild 0)).filter (hit (b :: rest)), ?_, by simp⟩
      rw [hits, SigDb.candidates, List.filter_cons_of_pos (by simp [hwild, hfirst]),
        List.cons_append, List.filter_cons_of_pos hhit, List.nil_append]
    | true =>
      refine ⟨(sigs.filter fun s ↦ !s.wild 0 && s.first = b).filter (hit (b :: rest)),
        (sigs.filter (·.wild 0)).filter (hit (b :: rest)), ?_, fun t ht hbest ↦ ?_⟩
      · rw [hits, SigDb.candidates, List.filter_cons_of_neg (by simp [hwild]),
          List.filter_cons_of_pos (p := fun s : FuncSig ↦ s.wild 0) hwild, List.filter_append,
          List.filter_cons_of_pos hhit]
      · have hfixed := (List.mem_filter.1 (List.mem_of_mem_filter ht)).2
        simp [hlead.2 hwild t hbest] at hfixed

theorem eq_of_leads_of_split {l l' : List FuncSig} {n : ℕ} (hlead : Leads code known (s :: sigs) s)
    (hhits : hits code (s :: sigs) = l ++ t :: l') (hn : scoreOf known t = some n)
    (hl : ∀ q ∈ l, ∀ m, scoreOf known q = some m → m < n)
    (hl' : ∀ q ∈ l', ∀ m, scoreOf known q = some m → m ≤ n) : t = s := by
  have hbest := (leads_of_split hhits hn hl hl').1
  have hsl : s ∉ l := by
    intro hs
    obtain ⟨-, m, hm, hmax⟩ := hlead.1
    exact absurd (hl s hs m hm) (not_lt.2 (hmax t hbest.1 n hn))
  obtain ⟨k, k', hk, hnot⟩ := exists_hits_cons hlead
  rw [hhits] at hk
  rcases List.append_eq_append_iff.1 hk with ⟨as, rfl, has⟩ | ⟨as, rfl, has⟩
  · cases as with
    | nil => exact (List.cons.inj has).1
    | cons a as =>
      obtain ⟨rfl, -⟩ := List.cons.inj has
      exact absurd hbest (hnot t (by simp))
  · cases as with
    | nil => exact (List.cons.inj has).1.symm
    | cons a as =>
      obtain ⟨rfl, -⟩ := List.cons.inj has
      exact absurd (List.mem_append_right k List.mem_cons_self) hsl

section Answers

variable (toolchain : String) (hsafe : ∀ s ∈ sigs, Safe (patCrcLenOk code s))
  (hlen : 6 ≤ code.length)

include hsafe hlen

/-- A single signature that the code has gives the name. -/
theorem matchFn_of_length_le_one (hone : (hits code sigs).length ≤ 1) :
    matchFn code known (SigDb.new toolchain sigs) =
      .ok ((hits code sigs).head?.map FuncSig.name) := by
  obtain ⟨ps, hhits, hps, hmatch⟩ := matchFn_new known toolchain hlen hsafe
  rw [hhits, List.length_map] at hone
  rw [hmatch, chooseName_of_length_eq_one hps hone, hhits, List.head?_map, Option.map_map]
  rfl

/-- With several of them a score that does not fit is a fault. -/
theorem matchFn_of_overflow (htwo : 2 ≤ (hits code sigs).length)
    (hover : ∃ s ∈ hits code sigs, ¬Safe (scoreFrom known s.refs 0)) :
    matchFn code known (SigDb.new toolchain sigs) = .error .overflow := by
  obtain ⟨ps, hhits, hps, hmatch⟩ := matchFn_new known toolchain hlen hsafe
  rw [hhits, List.length_map] at htwo
  have hover' : ∃ p ∈ ps, ¬Safe (scoreFrom known p.1.refs 0) := by
    simpa [hhits] using hover
  rw [hmatch, chooseName_of_two_le_eq htwo, foldlM_tieBreak_overflow hps hover']
  rfl

/-- With several of them the first of the best ones gives the name. -/
theorem matchFn_of_two_le (htwo : 2 ≤ (hits code sigs).length)
    (hscore : ∀ s ∈ hits code sigs, Safe (scoreFrom known s.refs 0)) :
    (matchFn code known (SigDb.new toolchain sigs) = .ok none ∧
      ∀ s ∈ hits code sigs, scoreOf known s = none) ∨
    ∃ l s l' n, hits code sigs = l ++ s :: l' ∧ scoreOf known s = some n ∧
      matchFn code known (SigDb.new toolchain sigs) = .ok (some s.name) ∧
      (∀ q ∈ l, ∀ m, scoreOf known q = some m → m < n) ∧
      ∀ q ∈ l', ∀ m, scoreOf known q = some m → m ≤ n := by
  obtain ⟨ps, hhits, hps, hmatch⟩ := matchFn_new known toolchain hlen hsafe
  rw [hhits, List.length_map] at htwo
  rw [hhits, List.forall_mem_map] at hscore
  rw [hmatch, hhits, List.forall_mem_map]
  rcases chooseName_of_two_le hps hscore htwo with h | ⟨l, p, l', n, rfl, hn, h, hl, hl'⟩
  · exact .inl h
  · refine .inr ⟨l.map Prod.fst, p.1, l'.map Prod.fst, n, by simp, hn, h, ?_, ?_⟩
    · exact List.forall_mem_map.2 hl
    · exact List.forall_mem_map.2 hl'

/-- With at most one of them the order of the database does not matter. -/
theorem matchFn_perm_of_length_le_one (hperm : sigs'.Perm sigs)
    (hone : (hits code sigs).length ≤ 1) :
    matchFn code known (SigDb.new toolchain sigs') =
      matchFn code known (SigDb.new toolchain sigs) := by
  have hsafe' : ∀ s ∈ sigs', Safe (patCrcLenOk code s) := fun s hs ↦ hsafe s (hperm.mem_iff.1 hs)
  have hhits := hits_perm code hperm
  rw [matchFn_of_length_le_one toolchain hsafe' hlen (hhits.length_eq ▸ hone),
    matchFn_of_length_le_one toolchain hsafe hlen hone]
  rcases heq : hits code sigs with _ | ⟨s, _ | ⟨t, rest⟩⟩
  · rw [heq] at hhits
    rw [hhits.eq_nil]
  · rw [heq] at hhits
    rw [List.perm_singleton.1 hhits]
  · rw [heq] at hone
    simp at hone

/-- Nor does it if there are several and a score does not fit. -/
theorem matchFn_perm_of_overflow (hperm : sigs'.Perm sigs) (htwo : 2 ≤ (hits code sigs).length)
    (hover : ∃ s ∈ hits code sigs, ¬Safe (scoreFrom known s.refs 0)) :
    matchFn code known (SigDb.new toolchain sigs') =
      matchFn code known (SigDb.new toolchain sigs) := by
  have hsafe' : ∀ s ∈ sigs', Safe (patCrcLenOk code s) := fun s hs ↦ hsafe s (hperm.mem_iff.1 hs)
  have hhits := hits_perm code hperm
  obtain ⟨s, hs, hlarge⟩ := hover
  rw [matchFn_of_overflow toolchain hsafe hlen htwo ⟨s, hs, hlarge⟩,
    matchFn_of_overflow toolchain hsafe' hlen (hhits.length_eq ▸ htwo)
      ⟨s, hhits.mem_iff.2 hs, hlarge⟩]

end Answers

/-- The code has several of the signatures, and all their scores fit. -/
structure Several (code : List UInt8) (known : UInt16 → Option String) (sigs : List FuncSig) :
    Prop where
  safe : ∀ s ∈ sigs, Safe (patCrcLenOk code s)
  length_code : 6 ≤ code.length
  two_le : 2 ≤ (hits code sigs).length
  score : ∀ s ∈ hits code sigs, Safe (scoreFrom known s.refs 0)

theorem Several.perm (h : Several code known sigs) (hperm : sigs'.Perm sigs) :
    Several code known sigs' where
  safe s hs := h.safe s (hperm.mem_iff.1 hs)
  length_code := h.length_code
  two_le := (hits_perm code hperm).length_eq ▸ h.two_le
  score s hs := h.score s ((hits_perm code hperm).mem_iff.1 hs)

/-- The name of one that leads is the answer, unless none does. -/
theorem Several.exists_leads (h : Several code known sigs) (toolchain : String) :
    (matchFn code known (SigDb.new toolchain sigs) = .ok none ∧ ∀ s, ¬Leads code known sigs s) ∨
      ∃ s, Leads code known sigs s ∧
        matchFn code known (SigDb.new toolchain sigs) = .ok (some s.name) := by
  rcases matchFn_of_two_le toolchain h.safe h.length_code h.two_le h.score with
    ⟨heq, hnone⟩ | ⟨l, s, l', n, hhits, hn, heq, hl, hl'⟩
  · refine .inl ⟨heq, fun s hs ↦ ?_⟩
    obtain ⟨hmem, n, hn, -⟩ := hs.1
    exact absurd (hnone s hmem) (by simp [hn])
  · exact .inr ⟨s, leads_of_split hhits hn hl hl', heq⟩

/-- In the order in which it comes first, one that leads gives its name. -/
theorem Several.exists_perm_of_leads (h : Several code known sigs) (toolchain : String)
    (hs : Leads code known sigs s) :
    ∃ sigs' : List FuncSig, sigs'.Perm sigs ∧
      matchFn code known (SigDb.new toolchain sigs') = .ok (some s.name) := by
  have hmem : s ∈ sigs := by
    have hhit := hs.1.1
    cases code with
    | nil => cases hhit
    | cons b rest => exact (mem_candidates.1 (List.mem_of_mem_filter hhit)).1
  have hperm : (s :: sigs.erase s).Perm sigs := (List.perm_cons_erase hmem).symm
  have hfirst := h.perm hperm
  have hlead := (leads_perm hperm).2 hs
  refine ⟨_, hperm, ?_⟩
  rcases matchFn_of_two_le toolchain hfirst.safe hfirst.length_code hfirst.two_le hfirst.score with
    ⟨-, hnone⟩ | ⟨l, p, l', n, hhits, hn, heq, hl, hl'⟩
  · obtain ⟨hhit, n, hn, -⟩ := hlead.1
    exact absurd (hnone s hhit) (by simp [hn])
  · rw [heq, eq_of_leads_of_split hlead hhits hn hl hl']

/-- The answer does not depend on the order: at most one signature is had by the code, a score does
not fit, or those that may come first have one name. -/
def Decided (code : List UInt8) (known : UInt16 → Option String) (sigs : List FuncSig) : Prop :=
  code.length < 6 ∨ (hits code sigs).length ≤ 1 ∨
    (∃ s ∈ hits code sigs, ¬Safe (scoreFrom known s.refs 0)) ∨
    ∀ s t, Leads code known sigs s → Leads code known sigs t → s.name = t.name

/-- Signatures that have been made give the same answer in every order exactly when those that may
come first have one name. -/
theorem matchFn_perm_iff (toolchain : String) (sigs : List FuncSig)
    (hsigs : ∀ s ∈ sigs, ∃ c variant name refs, makeSig c variant name refs = some s)
    (code : List UInt8) (known : UInt16 → Option String) :
    (∀ sigs', sigs'.Perm sigs →
      matchFn code known (SigDb.new toolchain sigs') =
        matchFn code known (SigDb.new toolchain sigs)) ↔ Decided code known sigs := by
  have hsafe : ∀ s ∈ sigs, Safe (patCrcLenOk code s) := by
    intro s hs
    obtain ⟨c, variant, name, refs, h⟩ := hsigs s hs
    exact safe_patCrcLenOk_iff.2 fun _ ↦ plen_of_makeSig h
  by_cases hlen : code.length < 6
  · refine iff_of_true (fun sigs' _ ↦ ?_) (.inl hlen)
    rw [matchFn, if_pos hlen, matchFn, if_pos hlen]
  by_cases hone : (hits code sigs).length ≤ 1
  · refine iff_of_true (fun sigs' hperm ↦ ?_) (.inr (.inl hone))
    exact matchFn_perm_of_length_le_one toolchain hsafe (not_lt.1 hlen) hperm hone
  by_cases hover : ∃ s ∈ hits code sigs, ¬Safe (scoreFrom known s.refs 0)
  · refine iff_of_true (fun sigs' hperm ↦ ?_) (.inr (.inr (.inl hover)))
    exact matchFn_perm_of_overflow toolchain hsafe (not_lt.1 hlen) hperm (not_le.1 hone) hover
  -- What is left are several signatures, in any order.
  have hmany : Several code known sigs :=
    ⟨hsafe, not_lt.1 hlen, not_le.1 hone, by simpa using hover⟩
  constructor
  · intro h
    refine .inr (.inr (.inr fun s t hs ht ↦ ?_))
    obtain ⟨first, hfirst, hname⟩ := hmany.exists_perm_of_leads toolchain hs
    obtain ⟨first', hfirst', hname'⟩ := hmany.exists_perm_of_leads toolchain ht
    rw [h _ hfirst] at hname
    rw [h _ hfirst'] at hname'
    exact Option.some.inj (Except.ok.inj (hname.symm.trans hname'))
  · rintro (h | h | h | h) sigs' hperm
    · exact absurd h hlen
    · exact absurd h hone
    · exact absurd h hover
    · rcases (hmany.perm hperm).exists_leads toolchain with ⟨heq, hnone⟩ | ⟨s, hs, heq⟩
      · rcases hmany.exists_leads toolchain with ⟨heq', -⟩ | ⟨t, ht, -⟩
        · rw [heq, heq']
        · exact absurd ((leads_perm hperm).2 ht) (hnone t)
      · have hs := (leads_perm hperm).1 hs
        rcases hmany.exists_leads toolchain with ⟨-, hnone⟩ | ⟨t, ht, heq'⟩
        · exact absurd hs (hnone s)
        · rw [heq, heq', h s t hs ht]

/-- The signature of six `nop`s that are said to refer to `exit`. -/
def nopSig (name : String) : FuncSig :=
  (makeSig (List.replicate 6 0x90) [] name [(1, "exit")]).get (by rfl)

theorem matchFn_perm_iff_nops :
    (∀ sigs', sigs'.Perm [nopSig "abort", nopSig "quit"] →
      matchFn (List.replicate 6 0x90) (fun _ ↦ none) (SigDb.new "msvc" sigs') =
        matchFn (List.replicate 6 0x90) (fun _ ↦ none)
          (SigDb.new "msvc" [nopSig "abort", nopSig "quit"])) ↔
    Decided (List.replicate 6 0x90) (fun _ ↦ none) [nopSig "abort", nopSig "quit"] :=
  matchFn_perm_iff "msvc" [nopSig "abort", nopSig "quit"]
    (by
      intro s hs
      rcases List.mem_pair.1 hs with rfl | rfl
      · exact ⟨List.replicate 6 0x90, [], "abort", [(1, "exit")], rfl⟩
      · exact ⟨List.replicate 6 0x90, [], "quit", [(1, "exit")], rfl⟩)
    (List.replicate 6 0x90) fun _ ↦ none

/-- Two functions with the same code and no reference known: the first one in the database wins. -/
theorem matchFn_nops :
    [nopSig "quit", nopSig "abort"].Perm [nopSig "abort", nopSig "quit"] ∧
      matchFn (List.replicate 6 0x90) (fun _ ↦ none)
        (SigDb.new "msvc" [nopSig "abort", nopSig "quit"]) = .ok (some "abort") ∧
      matchFn (List.replicate 6 0x90) (fun _ ↦ none)
        (SigDb.new "msvc" [nopSig "quit", nopSig "abort"]) = .ok (some "quit") :=
  ⟨.swap _ _ _, by decide +kernel, by decide +kernel⟩

end Order

end Flirt

end Ldu
