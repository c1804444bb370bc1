import Ldu.Listing.Functions
import Ldu.Listing.SweepSound

/-!
# Where functions end

The walk that looks for the end of a function follows the order of addresses. What it knows behind
an instruction can be read off the listing (`KnownTarget`, `KnownLeader`), and so can the
instruction that it ends at (`EndsAt`). Functions do not overlap exactly when no such instruction
goes beyond the next start (`funcs_disjoint_iff`), and the code of a function is closed under direct
control flow exactly when what overlaps such an instruction stays inside it (`extent_closed_iff`).
-/

namespace Ldu

namespace Listing

/-! ### What a walk knows -/

section Known

variable (e : Engine) (s : Span) (p : ℕ)

/-- The instruction at a position sends control to `t` inside the span, or through a table with the
largest target `t`. -/
def Aims (j t : ℕ) : Prop :=
  ∃ i, e.insns[j]? = some i ∧
    ((i.isRegJmp = true ∧ t = e.resolveJumptableMax j s.start s.segEnd) ∨
      ((i.refType = .branch ∨ i.refType = .jmp) ∧ s.contains i.refTarget = true ∧
        t = i.refTarget))

/-- A block starts at `a`, because of the instruction at a position. -/
def Leads (j a : ℕ) : Prop :=
  ∃ i, e.insns[j]? = some i ∧ (i.refType = .branch ∨ i.refType = .jmp) ∧
    ((∃ n, e.insns[j + 1]? = some n ∧ n.rva < s.next ∧ a = n.rva) ∨
      (s.contains i.refTarget = true ∧ a = i.refTarget))

/-- The targets known before position `k`, in a walk from position `p` on. -/
def KnownTarget (k t : ℕ) : Prop :=
  t = s.start ∨ ∃ j, p ≤ j ∧ j < k ∧ Aims e s j t

/-- The starts of blocks known before position `k`. -/
def KnownLeader (k a : ℕ) : Prop :=
  a = s.start ∨ ∃ j, p ≤ j ∧ j < k ∧ Leads e s j a

/-- The instruction at a position lies in the span, as far as its start goes. -/
def InSpan (k : ℕ) : Prop :=
  ∃ i, e.insns[k]? = some i ∧ i.rva < s.next ∧ i.rva < s.segEnd

/-- Control does not continue behind the instruction at a position, no target known lies behind it,
and what comes next is not the start of a block that does not lie behind the targets known. -/
def Closes (k : ℕ) : Prop :=
  ∃ i, e.insns[k]? = some i ∧ i.isTerminator = true ∧
    (∀ t, KnownTarget e s p (k + 1) t → t < i.stop) ∧
    ¬∃ n, e.insns[k + 1]? = some n ∧ KnownLeader e s p (k + 1) n.rva ∧
      ∃ t, KnownTarget e s p (k + 1) t ∧ n.rva ≤ t

/-- The walk from position `p` on ends at position `l`. -/
structure EndsAt (l : ℕ) : Prop where
  le : p ≤ l
  inSpan : ∀ j, p ≤ j → j ≤ l → InSpan e s j
  goes : ∀ j, p ≤ j → j < l → ¬Closes e s p j
  ends : Closes e s p l ∨ ¬InSpan e s (l + 1)

/-- What a walk has gathered before position `k`. -/
structure Walk.Gathers (k : ℕ) (w : Walk) : Prop where
  leaders : ∀ a, a ∈ w.leaders ↔ KnownLeader e s p k a
  known : KnownTarget e s p k w.maxTarget
  le : ∀ t, KnownTarget e s p k t → t ≤ w.maxTarget

end Known

section Walk

variable {e : Engine} {s : Span} {p k : ℕ} {i : Insn} {w : Walk}

theorem knownTarget_succ (hpk : p ≤ k) {t : ℕ} :
    KnownTarget e s p (k + 1) t ↔ KnownTarget e s p k t ∨ Aims e s k t := by
  constructor
  · rintro (rfl | ⟨j, hpj, hjk, haims⟩)
    · exact .inl (.inl rfl)
    · rcases Nat.lt_succ_iff_lt_or_eq.1 hjk with hjk | rfl
      · exact .inl (.inr ⟨j, hpj, hjk, haims⟩)
      · exact .inr haims
  · rintro ((rfl | ⟨j, hpj, hjk, haims⟩) | haims)
    · exact .inl rfl
    · exact .inr ⟨j, hpj, by omega, haims⟩
    · exact .inr ⟨k, hpk, by omega, haims⟩

theorem knownLeader_succ (hpk : p ≤ k) {a : ℕ} :
    KnownLeader e s p (k + 1) a ↔ KnownLeader e s p k a ∨ Leads e s k a := by
  constructor
  · rintro (rfl | ⟨j, hpj, hjk, hleads⟩)
    · exact .inl (.inl rfl)
    · rcases Nat.lt_succ_iff_lt_or_eq.1 hjk with hjk | rfl
      · exact .inl (.inr ⟨j, hpj, hjk, hleads⟩)
      · exact .inr hleads
  · rintro ((rfl | ⟨j, hpj, hjk, hleads⟩) | hleads)
    · exact .inl rfl
    · exact .inr ⟨j, hpj, by omega, hleads⟩
    · exact .inr ⟨k, hpk, by omega, hleads⟩

theorem aims_iff (hi : e.insns[k]? = some i) {t : ℕ} :
    Aims e s k t ↔ (i.isRegJmp = true ∧ t = e.resolveJumptableMax k s.start s.segEnd) ∨
      ((i.refType = .branch ∨ i.refType = .jmp) ∧ s.contains i.refTarget = true ∧
        t = i.refTarget) := by
  rw [Aims, hi]
  simp only [Option.some.injEq, exists_eq_left']

/-- A number that is raised to another one under a condition. -/
theorem raise_spec (c : Prop) [Decidable c] (m t : ℕ) :
    ((if c then max m t else m) = m ∨ c ∧ (if c then max m t else m) = t) ∧
      m ≤ (if c then max m t else m) ∧ (c → t ≤ if c then max m t else m) := by
  split
  · next hc =>
    exact ⟨(max_choice m t).imp_right fun h ↦ ⟨hc, h⟩, le_max_left _ _, fun _ ↦ le_max_right _ _⟩
  · next hc => exact ⟨.inl rfl, le_rfl, fun h ↦ absurd h hc⟩

/-- The reach after an instruction is the largest of the reach before and the targets of the
instruction. -/
theorem reach_spec (hi : e.insns[k]? = some i) (m : ℕ) :
    (Walk.reach e s k i m = m ∨ Aims e s k (Walk.reach e s k i m)) ∧
      m ≤ Walk.reach e s k i m ∧ ∀ t, Aims e s k t → t ≤ Walk.reach e s k i m := by
  simp only [aims_iff hi]
  obtain ⟨htable, hmtable, htablele⟩ :=
    raise_spec (i.isRegJmp = true) m (e.resolveJumptableMax k s.start s.segEnd)
  obtain ⟨hjump, hmjump, hjumple⟩ :=
    raise_spec ((i.refType = .branch ∨ i.refType = .jmp) ∧ s.contains i.refTarget = true)
      (if i.isRegJmp = true then max m (e.resolveJumptableMax k s.start s.segEnd) else m)
      i.refTarget
  refine ⟨?_, hmtable.trans hmjump, ?_⟩
  · rcases hjump with hjump | ⟨⟨htype, hin⟩, hjump⟩
    · rcases htable with htable | ⟨hreg, htable⟩
      · exact .inl (hjump.trans htable)
      · exact .inr (.inl ⟨hreg, hjump.trans htable⟩)
    · exact .inr (.inr ⟨htype, hin, hjump⟩)
  · rintro t (⟨hreg, rfl⟩ | ⟨htype, hin, rfl⟩)
    · exact (htablele hreg).trans hmjump
    · exact hjumple ⟨htype, hin⟩

theorem mem_lead (hi : e.insns[k]? = some i) (leaders : Finset ℕ) {a : ℕ} :
    a ∈ Walk.lead s i (e.insns.drop (k + 1)) leaders ↔ a ∈ leaders ∨ Leads e s k a := by
  have hnext : (e.insns.drop (k + 1)).head? = e.insns[k + 1]? := by
    rw [List.head?_drop]
  rw [Leads, hi, ← hnext]
  simp only [Option.some.injEq, exists_eq_left']
  unfold Walk.lead
  by_cases hjump : i.refType = .branch ∨ i.refType = .jmp
  · rw [if_pos hjump]
    dsimp only
    cases e.insns.drop (k + 1) with
    | nil => by_cases ht : s.contains i.refTarget = true <;> simp [ht, hjump, or_comm]
    | cons n rest =>
      by_cases ht : s.contains i.refTarget = true <;> by_cases hn : n.rva < s.next <;>
        simp only [ht, hn, hjump, if_true, if_false, Finset.mem_insert, List.head?_cons,
          Option.some.injEq, exists_eq_left', true_and, false_and, false_or, Bool.false_eq_true] <;>
        tauto
  · rw [if_neg hjump]
    simp [hjump]

/-- One step of a walk gathers what its instruction says. -/
theorem Walk.Gathers.visit (h : w.Gathers e s p k) (hpk : p ≤ k) (hi : e.insns[k]? = some i) :
    (w.visit e s k i (e.insns.drop (k + 1))).Gathers e s p (k + 1) := by
  obtain ⟨hmem, hle, haims⟩ := reach_spec (s := s) hi w.maxTarget
  refine ⟨fun a ↦ ?_, ?_, fun t ht ↦ ?_⟩
  · rw [knownLeader_succ hpk, ← h.leaders]
    exact mem_lead hi w.leaders
  · rw [knownTarget_succ hpk]
    rcases hmem with hmem | hmem
    · refine .inl ?_
      change KnownTarget e s p k (Walk.reach e s k i w.maxTarget)
      rw [hmem]
      exact h.known
    · exact .inr hmem
  · rcases (knownTarget_succ hpk).1 ht with ht | ht
    · exact (h.le t ht).trans hle
    · exact haims t ht

/-- The test that ends a walk, read off the listing. -/
theorem Walk.Gathers.ends_iff (h : w.Gathers e s p (k + 1)) (hi : e.insns[k]? = some i) :
    w.ends i (e.insns.drop (k + 1)) = true ↔ Closes e s p k := by
  have hlt : (∀ t, KnownTarget e s p (k + 1) t → t < i.stop) ↔ w.maxTarget < i.stop :=
    ⟨fun ht ↦ ht _ h.known, fun hmax t ht ↦ (h.le t ht).trans_lt hmax⟩
  have hle : ∀ a, (∃ t, KnownTarget e s p (k + 1) t ∧ a ≤ t) ↔ a ≤ w.maxTarget := fun a ↦
    ⟨fun ⟨t, ht, ha⟩ ↦ ha.trans (h.le t ht), fun ha ↦ ⟨_, h.known, ha⟩⟩
  rw [Closes, hi, Walk.ends, List.head?_drop]
  simp only [Option.some.injEq, exists_eq_left', hlt, hle, ← h.leaders]
  cases e.insns[k + 1]? <;> simp [and_assoc, imp_iff_not_or]

/-- A walk that has come to position `k` ends somewhere, unless `k` is outside the span. -/
theorem walkFrom_spec {insns : List Insn} (hdrop : e.insns.drop k = insns)
    (h : w.Gathers e s p k) (hpk : p ≤ k)
    (hbefore : ∀ j, p ≤ j → j < k → InSpan e s j ∧ ¬Closes e s p j) :
    (¬InSpan e s k ∧ walkFrom e s k insns w = w) ∨
      ∃ l i, EndsAt e s p l ∧ e.insns[l]? = some i ∧ (walkFrom e s k insns w).fend = i.stop := by
  induction insns generalizing k w with
  | nil =>
    refine .inl ⟨?_, rfl⟩
    rintro ⟨i, hi, -⟩
    rw [← List.head?_drop, hdrop] at hi
    cases hi
  | cons i rest ih =>
    have hi : e.insns[k]? = some i := by rw [← List.head?_drop, hdrop]; rfl
    have hrest : e.insns.drop (k + 1) = rest := by
      rw [← List.drop_drop, hdrop, List.drop_one, List.tail_cons]
    rw [walkFrom]
    split
    · next hout =>
      -- The walk stops here because the instruction is outside the span.
      refine .inl ⟨?_, rfl⟩
      rintro ⟨j, hj, hnext, hseg⟩
      obtain rfl := Option.some.inj (hi.symm.trans hj)
      omega
    · next hin =>
      have hspan : InSpan e s k := ⟨i, hi, by omega, by omega⟩
      have hvisit := h.visit hpk hi
      rw [hrest] at hvisit
      have hends := hvisit.ends_iff hi
      rw [hrest] at hends
      have hinSpan : ∀ j, p ≤ j → j ≤ k → InSpan e s j := fun j hpj hjk ↦
        (Nat.lt_or_eq_of_le hjk).elim (fun hjk ↦ (hbefore j hpj hjk).1) fun hjk ↦ hjk ▸ hspan
      dsimp only
      split
      · next hclose =>
        -- It stops here because nothing that has been seen lies behind.
        exact .inr ⟨k, i, ⟨hpk, hinSpan, fun j hpj hjk ↦ (hbefore j hpj hjk).2,
          .inl (hends.1 hclose)⟩, hi, rfl⟩
      · next hgo =>
        have hgoes : ∀ j, p ≤ j → j < k + 1 → ¬Closes e s p j := fun j hpj hjk ↦
          (Nat.lt_succ_iff_lt_or_eq.1 hjk).elim (fun hjk ↦ (hbefore j hpj hjk).2)
            fun hjk ↦ hjk ▸ fun hclose ↦ hgo (hends.2 hclose)
        rcases ih hrest hvisit (by omega) fun j hpj hjk ↦
            ⟨hinSpan j hpj (by omega), hgoes j hpj hjk⟩ with ⟨hout, heq⟩ | hl
        · -- The next instruction is outside the span, so that the end stays here.
          exact .inr ⟨k, i, ⟨hpk, hinSpan, fun j hpj hjk ↦ hgoes j hpj (by omega), .inr hout⟩, hi,
            by rw [heq]; rfl⟩
        · exact .inr hl

/-- A walk ends once. -/
theorem EndsAt.unique {l l' : ℕ} (h : EndsAt e s p l) (h' : EndsAt e s p l') : l = l' := by
  have key : ∀ {l l'}, EndsAt e s p l → EndsAt e s p l' → ¬l < l' := fun h h' hlt ↦
    h.ends.elim (h'.goes _ h.le hlt) fun hout ↦ hout (h'.inSpan _ (by have := h.le; omega) hlt)
  exact le_antisymm (not_lt.1 (key h' h)) (not_lt.1 (key h h'))

end Walk

/-! ### The starts of functions -/

section Starts

variable {e : Engine}

theorem mem_prologueStarts {prev : Option Insn} {insns : List Insn} {f : ℕ}
    (h : f ∈ e.prologueStarts prev insns) : ∃ i ∈ insns, i.rva = f := by
  induction insns generalizing prev with
  | nil => exact absurd h List.not_mem_nil
  | cons i rest ih =>
    have htail : f ∈ e.prologueStarts (some i) rest → ∃ j ∈ i :: rest, j.rva = f := fun h ↦
      (ih h).imp fun j hj ↦ ⟨List.mem_cons_of_mem _ hj.1, hj.2⟩
    rw [Engine.prologueStarts] at h
    split at h
    · rcases List.mem_cons.1 h with rfl | h
      · exact ⟨i, List.mem_cons_self, rfl⟩
      · exact htail h
    · exact htail h

/-- An instruction starts where a function does. -/
theorem mem_funcStarts {f : ℕ} (h : f ∈ e.funcStarts) : ∃ i ∈ e.insns, i.rva = f := by
  unfold Engine.funcStarts at h
  dsimp only at h
  rw [List.mem_insertionSort, List.mem_dedup] at h
  split at h
  · obtain ⟨s, -, hs⟩ := List.mem_filterMap.1 h
    obtain ⟨i, hi, rfl⟩ := Option.map_eq_some_iff.1 hs
    obtain ⟨k, -, hk⟩ := Option.bind_eq_some_iff.1 hi
    exact ⟨i, List.mem_of_getElem? hk, rfl⟩
  · rcases List.mem_append.1 h with h | h
    · have hstart := (List.mem_filter.1 h).2
      rw [Engine.isStart, Bool.and_eq_true] at hstart
      obtain ⟨k, hk⟩ := Option.isSome_iff_exists.1 hstart.1
      obtain ⟨i, hi, hrva⟩ := BinarySearch.of_searchFor hk
      exact ⟨i, List.mem_of_getElem? hi, hrva⟩
    · exact mem_prologueStarts h

/-- Sorted without repetitions. -/
theorem pairwise_lt_sort_dedup (l : List ℕ) :
    (l.dedup.insertionSort (· ≤ ·)).Pairwise (· < ·) := by
  have hnodup : (l.dedup.insertionSort (· ≤ ·)).Nodup :=
    (List.perm_insertionSort _ _).nodup_iff.2 (List.nodup_dedup l)
  exact (List.pairwise_insertionSort (· ≤ ·) l.dedup).imp₂
    (fun a b hab hne ↦ lt_of_le_of_ne hab hne) hnodup

theorem funcStarts_sorted (e : Engine) : e.funcStarts.Pairwise (· < ·) :=
  pairwise_lt_sort_dedup _

end Starts

/-! ### The functions -/

namespace Engine

variable (e : Engine)

/-- The extent of the span ends with the instruction `L`. -/
def ExtentEnd (s : Span) (L : Insn) : Prop :=
  ∃ p l i, e.insns[p]? = some i ∧ i.rva = s.start ∧ EndsAt e s p l ∧ e.insns[l]? = some L

/-- The start of the function behind the one at `f`. -/
def nextStart (f : ℕ) : ℕ :=
  (e.funcStarts.find? (f < ·)).getD (2 ^ 64 - 1)

end Engine

section Functions

variable {e : Engine}

theorem ExtentEnd.unique (hsorted : e.insns.Pairwise (·.rva < ·.rva)) {s : Span} {L L' : Insn}
    (h : e.ExtentEnd s L) (h' : e.ExtentEnd s L') : L = L' := by
  obtain ⟨p, l, i, hp, hi, hends, hl⟩ := h
  obtain ⟨p', l', i', hp', hi', hends', hl'⟩ := h'
  obtain rfl := BinarySearch.eq_of_key_eq hsorted hp hp' (hi.trans hi'.symm)
  rw [hends.unique hends'] at hl
  exact Option.some.inj (hl.symm.trans hl')

/-- What is gathered before a walk starts. -/
theorem gathers_init (s : Span) (p : ℕ) :
    Walk.Gathers e s p p { leaders := {s.start}, fend := s.start, maxTarget := s.start } := by
  have hnone : ∀ {q : ℕ → Prop}, ¬∃ j, p ≤ j ∧ j < p ∧ q j := by
    rintro q ⟨j, hpj, hjp, -⟩
    omega
  refine ⟨fun a ↦ ?_, .inl rfl, fun t ht ↦ ?_⟩
  · rw [KnownLeader, Finset.mem_singleton, or_iff_left hnone]
  · exact (ht.resolve_right hnone).le

/-- The function at a start ends where the walk does. -/
theorem funcAt_spec (hsorted : e.insns.Pairwise (·.rva < ·.rva)) (next : ℕ) {f p : ℕ} {i : Insn}
    (hp : e.insns[p]? = some i) (hi : i.rva = f) :
    ∃ F, e.funcAt f next = some F ∧ F.rva = f ∧
      ((¬InSpan e (e.spanOf f next) p ∧ F.size = 0) ∨
        ∃ L, e.ExtentEnd (e.spanOf f next) L ∧ F.rva + F.size = max f L.stop) := by
  have hindex : insnIndexExact e.insns f = some p :=
    (BinarySearch.searchFor_eq_some_iff hsorted).2 ⟨i, hp, hi⟩
  refine ⟨_, by rw [Engine.funcAt, hindex, Option.map_some], rfl, ?_⟩
  have hinit : Walk.Gathers e (e.spanOf f next) p p
      { leaders := {f}, fend := f, maxTarget := f } := gathers_init _ p
  rcases walkFrom_spec rfl hinit le_rfl
      fun j hpj hjp ↦ absurd hjp (not_lt.2 hpj) with ⟨hout, heq⟩ | ⟨l, L, hends, hl, hfend⟩
  · refine .inl ⟨hout, ?_⟩
    dsimp only
    rw [heq]
    exact if_neg (lt_irrefl f)
  · refine .inr ⟨L, ⟨p, l, i, hp, hi, hends, hl⟩, ?_⟩
    dsimp only
    rw [hfend]
    split <;> omega

variable (hsorted : e.insns.Pairwise (·.rva < ·.rva))

include hsorted

/-- Every start gets its function, and these overlap as little as the ends of their extents say. -/
theorem funcsAt_spec {starts : List ℕ} (hstarts : starts.Pairwise (· < ·))
    (hinsn : ∀ f ∈ starts, ∃ i ∈ e.insns, i.rva = f) :
    (e.funcsAt starts).map (·.rva) = starts ∧
      ((e.funcsAt starts).IsChain (fun f g ↦ f.rva + f.size ≤ g.rva) ↔
        starts.IsChain fun f n ↦ ∀ L, e.ExtentEnd (e.spanOf f n) L → L.stop ≤ n) := by
  induction starts with
  | nil => exact ⟨rfl, by simp [Engine.funcsAt]⟩
  | cons f starts ih =>
    obtain ⟨hmap, hchain⟩ := ih (List.pairwise_cons.1 hstarts).2
      fun g hg ↦ hinsn g (List.mem_cons_of_mem _ hg)
    obtain ⟨i, hi, hrva⟩ := hinsn f List.mem_cons_self
    obtain ⟨p, hp⟩ := List.getElem?_of_mem hi
    obtain ⟨F, hF, hFrva, hsize⟩ := funcAt_spec hsorted (starts.headD (2 ^ 64 - 1)) hp hrva
    have hfuncs : e.funcsAt (f :: starts) = F :: e.funcsAt starts := by
      rw [Engine.funcsAt, hF]
      rfl
    refine ⟨by rw [hfuncs, List.map_cons, hmap, hFrva], ?_⟩
    rw [hfuncs]
    cases starts with
    | nil => simp [Engine.funcsAt]
    | cons n starts =>
      -- Only the first link of the chain is new: between `f` and the start `n` behind it.
      obtain ⟨G, funcs, hG⟩ : ∃ G funcs, e.funcsAt (n :: starts) = G :: funcs :=
        List.exists_cons_of_ne_nil fun hnil ↦ by rw [hnil] at hmap; cases hmap
      rw [hG] at hmap hchain ⊢
      have hGrva : G.rva = n := (List.cons.inj hmap).1
      have hfn : f < n := (List.pairwise_cons.1 hstarts).1 n List.mem_cons_self
      rw [List.isChain_cons_cons, List.isChain_cons_cons, hchain, hGrva]
      refine and_congr_left fun _ ↦ ?_
      rw [List.headD_cons] at hsize
      rcases hsize with ⟨hout, hzero⟩ | ⟨L, hL, hstop⟩
      · -- A start outside its own span has an empty function, and no extent.
        refine iff_of_true (by omega) ?_
        rintro L ⟨q, l, j, hq, hj, hends, -⟩
        obtain rfl := BinarySearch.eq_of_key_eq hsorted hp hq (hrva.trans hj.symm)
        exact absurd (hends.inSpan p le_rfl hends.le) hout
      · rw [hstop]
        exact ⟨fun h L' hL' ↦ by rw [ExtentEnd.unique hsorted hL' hL]; omega,
          fun h ↦ max_le hfn.le (h L hL)⟩

theorem buildCfg_funcs : e.buildCfg.funcs = e.funcsAt e.funcStarts := by
  have hmap := (funcsAt_spec hsorted (funcStarts_sorted e) fun f hf ↦ mem_funcStarts hf).1
  have hlt : (e.funcsAt e.funcStarts).Pairwise (·.rva < ·.rva) := by
    rw [← List.pairwise_map, hmap]
    exact funcStarts_sorted e
  rw [Engine.buildCfg]
  dsimp only
  split
  · next hnil =>
    have hstarts : e.funcStarts = [] := List.eq_nil_iff_forall_not_mem.2 fun f hf ↦ by
      obtain ⟨i, hi, -⟩ := mem_funcStarts hf
      rw [hnil] at hi
      exact List.not_mem_nil hi
    rw [hstarts, Engine.funcsAt]
  · rw [List.Pairwise.insertionSort_eq (hlt.imp fun h ↦ h.le)]
    exact List.destutter_of_isChain _ _ (hlt.imp fun h ↦ h.ne).isChain

/-- **Functions overlap exactly where an extent ends behind the next start.** They are sorted in any
case. -/
theorem funcs_disjoint_iff :
    (e.buildCfg.funcs.Pairwise (·.rva < ·.rva) ∧
        e.buildCfg.funcs.IsChain fun f g ↦ f.rva + f.size ≤ g.rva) ↔
      e.funcStarts.IsChain fun f n ↦ ∀ L, e.ExtentEnd (e.spanOf f n) L → L.stop ≤ n := by
  obtain ⟨hmap, hchain⟩ :=
    funcsAt_spec hsorted (funcStarts_sorted e) fun f hf ↦ mem_funcStarts hf
  rw [buildCfg_funcs hsorted, hchain, and_iff_right]
  rw [← List.pairwise_map, hmap]
  exact funcStarts_sorted e

/-- A function of the engine is the one at its start. -/
theorem mem_buildCfg_funcs {F : Func} (hF : F ∈ e.buildCfg.funcs) :
    F.rva ∈ e.funcStarts ∧ e.funcAt F.rva (e.nextStart F.rva) = some F := by
  have key : ∀ starts : List ℕ, starts.Pairwise (· < ·) →
      (∀ f ∈ starts, ∃ i ∈ e.insns, i.rva = f) → F ∈ e.funcsAt starts → F.rva ∈ starts ∧
        e.funcAt F.rva ((starts.find? (F.rva < ·)).getD (2 ^ 64 - 1)) = some F := by
    intro starts hstarts hinsn hF
    induction starts with
    | nil => exact absurd hF List.not_mem_nil
    | cons f starts ih =>
      obtain ⟨hlt, hstarts⟩ := List.pairwise_cons.1 hstarts
      rw [Engine.funcsAt] at hF
      rcases List.mem_append.1 hF with hF | hF
      · obtain ⟨i, hi, hrva⟩ := hinsn f List.mem_cons_self
        obtain ⟨p, hp⟩ := List.getElem?_of_mem hi
        obtain ⟨F', hF', hFrva, -⟩ :=
          funcAt_spec hsorted (starts.headD (2 ^ 64 - 1)) hp hrva
        rw [hF', Option.toList_some, List.mem_singleton] at hF
        rw [hF, hFrva]
        refine ⟨List.mem_cons_self, ?_⟩
        rw [List.find?_cons_of_neg (by simp)]
        cases starts with
        | nil => exact hF'
        | cons n starts =>
          rw [List.find?_cons_of_pos (by simpa using hlt n List.mem_cons_self)]
          exact hF'
      · obtain ⟨hmem, hfunc⟩ :=
          ih hstarts (fun g hg ↦ hinsn g (List.mem_cons_of_mem _ hg)) hF
        have hf := hlt _ hmem
        refine ⟨List.mem_cons_of_mem _ hmem, ?_⟩
        rwa [List.find?_cons_of_neg (by simpa using hf.le)]
  rw [buildCfg_funcs hsorted] at hF
  exact key e.funcStarts (funcStarts_sorted e) (fun f hf ↦ mem_funcStarts hf) hF

end Functions

/-- The call goes into the middle of the instruction behind it. -/
def callInside : Engine where
  image := [0xE8, 1, 0, 0, 0, 0xB0, 0xC3, 0xC3]
  entry := some 0
  segments := [⟨".text", 0, 8, true⟩]
  insns :=
    [dsDecode true [0xE8, 1, 0, 0, 0] 0, dsDecode true [0xB0, 0xC3] 5, dsDecode true [0xC3] 6,
      dsDecode true [0xC3] 7]

example : (disassemble builtin true callInside).insns = callInside.insns :=
  disassemble_insns_eq (by decide) (.inr rfl) (by decide) (by decide)

theorem callInside_disjoint_iff :
    (callInside.buildCfg.funcs.Pairwise (·.rva < ·.rva) ∧
        callInside.buildCfg.funcs.IsChain fun f g ↦ f.rva + f.size ≤ g.rva) ↔
      callInside.funcStarts.IsChain fun f n ↦
        ∀ L, callInside.ExtentEnd (callInside.spanOf f n) L → L.stop ≤ n :=
  funcs_disjoint_iff (by decide)

theorem callInside_overlaps :
    ¬∀ e : Engine, e.insns.Pairwise (·.rva < ·.rva) →
      e.buildCfg.funcs.Pairwise (·.rva < ·.rva) ∧
        e.buildCfg.funcs.IsChain fun f g ↦ f.rva + f.size ≤ g.rva := fun h ↦
  absurd (h callInside (by decide)).2 (by decide)

/-! ### Closure -/

namespace Engine

variable (e : Engine)

/-- What control reaches from the start of a span without leaving it: behind an instruction that is
no terminator, and at the targets of direct jumps and branches. -/
inductive Reaches (s : Span) : Insn → Prop
  | start {i : Insn} : i ∈ e.insns → i.rva = s.start → Reaches s i
  | fall {i n : Insn} : Reaches s i → i.isTerminator = false → n ∈ e.insns → n.rva = i.stop →
      s.contains n.rva = true → Reaches s n
  | jump {i n : Insn} : Reaches s i → (i.refType = .branch ∨ i.refType = .jmp) → n ∈ e.insns →
      n.rva = i.refTarget → s.contains n.rva = true → Reaches s n

/-- The instruction `i`, which overlaps the instruction `L`, does not go beyond it: it ends no
later, control does not go on from it to what lies behind `L`, and if it starts inside `L` it does
not jump there. -/
structure Stays (s : Span) (L i : Insn) : Prop where
  stop_le : i.stop ≤ L.stop
  fall : i.isTerminator = false → i.stop = L.stop →
    ∀ n ∈ e.insns, s.contains n.rva = true → n.rva ≠ L.stop
  jump : L.rva < i.rva → (i.refType = .branch ∨ i.refType = .jmp) →
    ∀ n ∈ e.insns, s.contains n.rva = true → n.rva = i.refTarget → n.rva < L.stop

end Engine

section Closure

variable {e : Engine} {s : Span} {p l : ℕ} {L : Insn}

theorem Engine.Reaches.mem {i : Insn} (h : e.Reaches s i) : i ∈ e.insns := by
  cases h <;> assumption

theorem WellFormed.stop_eq (hwf : WellFormed e.insns) {i : Insn} (hi : i ∈ e.insns) :
    i.stop = i.rva + i.size :=
  Nat.mod_eq_of_lt (hwf.stop_lt i hi)

theorem WellFormed.rva_lt_stop (hwf : WellFormed e.insns) {i : Insn} (hi : i ∈ e.insns) :
    i.rva < i.stop := by
  have := hwf.size_pos i hi
  rw [hwf.stop_eq hi]
  omega

/-- Addresses go up with the positions. -/
theorem WellFormed.le_of_rva_le (hwf : WellFormed e.insns) {j k : ℕ} {i i' : Insn}
    (hi : e.insns[j]? = some i) (hi' : e.insns[k]? = some i') (hle : i.rva ≤ i'.rva) : j ≤ k := by
  obtain ⟨hj, rfl⟩ := List.getElem?_eq_some_iff.1 hi
  obtain ⟨hk, rfl⟩ := List.getElem?_eq_some_iff.1 hi'
  by_contra hlt
  exact absurd hle (not_le.2
    (List.pairwise_iff_getElem.1 hwf.sorted k j hk hj (not_le.1 hlt)))

theorem WellFormed.rva_le_of_le (hwf : WellFormed e.insns) {j k : ℕ} {i i' : Insn}
    (hi : e.insns[j]? = some i) (hi' : e.insns[k]? = some i') (hle : j ≤ k) : i.rva ≤ i'.rva := by
  obtain ⟨hj, rfl⟩ := List.getElem?_eq_some_iff.1 hi
  obtain ⟨hk, rfl⟩ := List.getElem?_eq_some_iff.1 hi'
  rcases hle.eq_or_lt with rfl | hlt
  · exact le_rfl
  · exact (List.pairwise_iff_getElem.1 hwf.sorted j k hj hk hlt).le

theorem Span.contains_iff {rva : ℕ} :
    s.contains rva = true ↔ s.start ≤ rva ∧ rva < s.next ∧ rva < s.segEnd := by
  simp [Span.contains, and_assoc]

/-- Where an extent ends because the span does, no instruction of the span is left. -/
theorem rva_le_of_not_inSpan (hwf : WellFormed e.insns) (hout : ¬InSpan e s (l + 1))
    (hl : e.insns[l]? = some L) {n : Insn} (hn : n ∈ e.insns) (hspan : s.contains n.rva = true) :
    n.rva ≤ L.rva := by
  obtain ⟨k, hk⟩ := List.getElem?_of_mem hn
  obtain ⟨-, hnext, hseg⟩ := Span.contains_iff.1 hspan
  rcases Nat.lt_or_ge l k with hlt | hle
  · obtain ⟨m, hm⟩ : ∃ m, e.insns[l + 1]? = some m := by
      obtain ⟨hk', -⟩ := List.getElem?_eq_some_iff.1 hk
      exact ⟨_, List.getElem?_eq_getElem (by omega)⟩
    have hle := hwf.rva_le_of_le hm hk hlt
    exact absurd ⟨m, hm, by omega, by omega⟩ hout
  · exact hwf.rva_le_of_le hk hl hle

/-- A jump from an instruction that the walk has seen does not lead behind the end. -/
theorem target_lt_stop (hwf : WellFormed e.insns) (hends : EndsAt e s p l)
    (hl : e.insns[l]? = some L) {j : ℕ} {i n : Insn} (hj : e.insns[j]? = some i) (hpj : p ≤ j)
    (hjl : j ≤ l) (htype : i.refType = .branch ∨ i.refType = .jmp) (hn : n ∈ e.insns)
    (hrva : n.rva = i.refTarget) (hspan : s.contains n.rva = true) : n.rva < L.stop := by
  rcases hends.ends with ⟨i', hi', -, hlt, -⟩ | hout
  · obtain rfl := Option.some.inj (hl.symm.trans hi')
    exact hlt _ (.inr ⟨j, hpj, by omega, i, hj, .inr ⟨htype, hrva ▸ hspan, hrva⟩⟩)
  · exact (rva_le_of_not_inSpan hwf hout hl hn hspan).trans_lt
      (hwf.rva_lt_stop (List.mem_of_getElem? hl))

/-- What overlaps the end of the extent stays inside it, so everything does. -/
theorem reaches_lt_stop (hwf : WellFormed e.insns) {i₀ : Insn} (hp : e.insns[p]? = some i₀)
    (hi₀ : i₀.rva = s.start) (hends : EndsAt e s p l) (hl : e.insns[l]? = some L)
    (hstays : ∀ i, e.Reaches s i → i ≠ L → i.rva < L.stop → L.rva < i.stop → e.Stays s L i)
    {i : Insn} (h : e.Reaches s i) : s.start ≤ i.rva ∧ i.rva < L.stop ∧ i.stop ≤ L.stop := by
  have hL := hwf.rva_lt_stop (List.mem_of_getElem? hl)
  -- The end of an instruction that starts before the end of the extent.
  have hstop : ∀ {i}, e.Reaches s i → i.rva < L.stop → i.stop ≤ L.stop := fun {i} hi hlt ↦ by
    by_cases heq : i = L
    · exact heq ▸ le_rfl
    · by_cases hover : L.rva < i.stop
      · exact (hstays i hi heq hlt hover).stop_le
      · omega
  suffices hlt : s.start ≤ i.rva ∧ i.rva < L.stop from ⟨hlt.1, hlt.2, hstop h hlt.2⟩
  induction h with
  | start hi hrva =>
    refine ⟨hrva.ge, ?_⟩
    rw [hrva, ← hi₀]
    exact (hwf.rva_le_of_le hp hl hends.le).trans_lt hL
  | @fall i n hi hterm hn hrva hspan ih =>
    -- Control could only leave by going on from an instruction that ends where the extent ends.
    refine ⟨(Span.contains_iff.1 hspan).1, lt_of_le_of_ne (hrva ▸ hstop hi ih.2) fun heq ↦ ?_⟩
    have hstopeq : i.stop = L.stop := hrva.symm.trans heq
    by_cases hiL : i = L
    · rcases hends.ends with ⟨i', hi', hterm', -⟩ | hout
      · obtain rfl := Option.some.inj (hl.symm.trans hi')
        rw [hiL, hterm'] at hterm
        cases hterm
      · have := rva_le_of_not_inSpan hwf hout hl hn hspan
        omega
    · exact (hstays i hi hiL ih.2 (hstopeq ▸ hL)).fall hterm hstopeq n hn hspan heq
  | @jump i n hi htype hn hrva hspan ih =>
    refine ⟨(Span.contains_iff.1 hspan).1, ?_⟩
    rcases Nat.lt_or_ge L.rva i.rva with hlt | hle
    · -- A jump from inside the last instruction, which the walk has not seen.
      have hover : L.rva < i.stop := hlt.trans (hwf.rva_lt_stop hi.mem)
      have hne : i ≠ L := fun heq ↦ absurd (heq ▸ hlt) (lt_irrefl _)
      exact (hstays i hi hne ih.2 hover).jump hlt htype n hn hspan hrva
    · -- A jump that the walk has seen: it would have gone on to its target.
      obtain ⟨j, hj⟩ := List.getElem?_of_mem hi.mem
      exact target_lt_stop hwf hends hl hj (hwf.le_of_rva_le hp hj (hi₀ ▸ ih.1))
        (hwf.le_of_rva_le hj hl hle) htype hn hrva hspan

/-- The start of a function lies in its span. -/
theorem contains_start (hwf : WellFormed e.insns) {f : ℕ} {i : Insn}
    (hi : i ∈ e.insns) (hrva : i.rva = f) :
    f < e.nextStart f ∧ f < (e.spanOf f (e.nextStart f)).segEnd := by
  have hlt : f < 2 ^ 64 - 1 := by
    have := hwf.size_pos i hi
    have := hwf.stop_lt i hi
    omega
  refine ⟨?_, ?_⟩
  · rw [Engine.nextStart]
    cases hfind : e.funcStarts.find? (f < ·) with
    | none => exact hlt
    | some n => simpa using List.find?_some hfind
  · rw [Engine.spanOf]
    dsimp only
    cases hseg : e.segForRva f with
    | none => exact hlt
    | some seg =>
      have hcontains : seg.contains f = true :=
        List.find?_some (p := fun s : Segment ↦ s.contains f) hseg
      rw [Segment.contains, Bool.and_eq_true] at hcontains
      exact of_decide_eq_true hcontains.2

/-- A function goes from its start to the end of the last instruction of its extent. -/
theorem extent_of_mem (hwf : WellFormed e.insns) {F : Func} (hF : F ∈ e.buildCfg.funcs) :
    ∃ p l i L, e.insns[p]? = some i ∧ i.rva = F.rva ∧
      EndsAt e (e.spanOf F.rva (e.nextStart F.rva)) p l ∧ e.insns[l]? = some L ∧
      F.rva + F.size = L.stop := by
  obtain ⟨hstart, hfunc⟩ := mem_buildCfg_funcs hwf.sorted hF
  obtain ⟨i, hi, hrva⟩ := mem_funcStarts hstart
  obtain ⟨p, hp⟩ := List.getElem?_of_mem hi
  obtain ⟨hnext, hseg⟩ := contains_start hwf hi hrva
  obtain ⟨F', hF', -, hsize⟩ := funcAt_spec hwf.sorted (e.nextStart F.rva) hp hrva
  obtain rfl := Option.some.inj (hF'.symm.trans hfunc)
  rcases hsize with ⟨hout, -⟩ | ⟨L, ⟨q, l, j, hq, hj, hends, hl⟩, hstop⟩
  · exact absurd ⟨i, hp, hrva ▸ hnext, hrva ▸ hseg⟩ hout
  · obtain rfl := BinarySearch.eq_of_key_eq hwf.sorted hp hq (hrva.trans hj.symm)
    refine ⟨p, l, i, L, hp, hrva, hends, hl, ?_⟩
    have := hwf.rva_le_of_le hp hl hends.le
    have := hwf.rva_lt_stop (List.mem_of_getElem? hl)
    omega

/-- **A function holds all that control reaches inside its span exactly when the instructions that
overlap the end of its extent stay inside.** -/
theorem extent_closed_iff (dec : Decoder) (noPdataSeed : Bool) (e₀ : Engine)
    (hfresh : e₀.insns = []) (himage : e₀.image.length < 2 ^ 64) (e : Engine)
    (hinsns : e.insns = (disassemble dec noPdataSeed e₀).insns) (F : Func)
    (hF : F ∈ e.buildCfg.funcs) :
    (∀ i, e.Reaches (e.spanOf F.rva (e.nextStart F.rva)) i →
        F.rva ≤ i.rva ∧ i.rva + i.size ≤ F.rva + F.size) ↔
      ∀ L, e.ExtentEnd (e.spanOf F.rva (e.nextStart F.rva)) L →
        ∀ i, e.Reaches (e.spanOf F.rva (e.nextStart F.rva)) i → i ≠ L → i.rva < L.stop →
          L.rva < i.stop → e.Stays (e.spanOf F.rva (e.nextStart F.rva)) L i := by
  have hwf : WellFormed e.insns := hinsns ▸ wellFormed_disassemble dec noPdataSeed e₀ hfresh himage
  obtain ⟨p, l, i₀, L, hp, hrva, hends, hl, hend⟩ := extent_of_mem hwf hF
  rw [hend]
  constructor
  · intro h L' hL' i hi _ _ _
    obtain rfl := ExtentEnd.unique hwf.sorted hL' ⟨p, l, i₀, hp, hrva, hends, hl⟩
    -- What control reaches next ends inside the extent, so it starts before the end.
    have hlt : ∀ n, e.Reaches _ n → n.rva < L'.stop := fun n hn ↦ by
      have := hwf.size_pos n hn.mem
      have := (h n hn).2
      omega
    exact ⟨hwf.stop_eq hi.mem ▸ (h i hi).2,
      fun hterm hstopeq n hn hspan heq ↦
        (hlt n (.fall hi hterm hn (heq.trans hstopeq.symm) hspan)).ne heq,
      fun _ htype n hn hspan hrva ↦ hlt n (.jump hi htype hn hrva hspan)⟩
  · intro h i hi
    obtain ⟨hle, -, hstopi⟩ := reaches_lt_stop hwf hp hrva hends hl
      (h L ⟨p, l, i₀, hp, hrva, hends, hl⟩) hi
    exact ⟨hle, hwf.stop_eq hi.mem ▸ hstopi⟩

end Closure

/-- A jump back into the first instruction finds a `ret` there, behind which the function goes
on. -/
def strayRet : Engine where
  image := [0xB0, 0xC3, 0x90, 0xC3, 0xEB, 0xFB]
  entry := some 0
  entries := [4]
  segments := [⟨".text", 0, 6, true⟩]

/-- The listing of `strayRet`. -/
def strayRetListed : Engine :=
  { strayRet with
    insns :=
      [dsDecode true [0xB0, 0xC3] 0, dsDecode true [0xC3] 1, dsDecode true [0x90] 2,
        dsDecode true [0xC3] 3, dsDecode true [0xEB, 0xFB] 4] }

theorem strayRetListed_insns :
    strayRetListed.insns = (disassemble builtin true strayRet).insns :=
  (disassemble_insns_eq (by decide) (.inr rfl) (by decide) (by decide)).symm

theorem strayRet_closed_iff :
    (∀ i, strayRetListed.Reaches (strayRetListed.spanOf 0 (strayRetListed.nextStart 0)) i →
        0 ≤ i.rva ∧ i.rva + i.size ≤ 0 + 2) ↔
      ∀ L, strayRetListed.ExtentEnd (strayRetListed.spanOf 0 (strayRetListed.nextStart 0)) L →
        ∀ i, strayRetListed.Reaches (strayRetListed.spanOf 0 (strayRetListed.nextStart 0)) i →
          i ≠ L → i.rva < L.stop → L.rva < i.stop →
            strayRetListed.Stays (strayRetListed.spanOf 0 (strayRetListed.nextStart 0)) L i :=
  extent_closed_iff builtin true strayRet rfl (by decide) strayRetListed strayRetListed_insns
    ⟨0, 2, 1, 0⟩ (by decide)

theorem strayRet_not_closed :
    ¬∀ (dec : Decoder) (noPdataSeed : Bool) (e₀ : Engine), e₀.insns = [] →
      e₀.image.length < 2 ^ 64 → ∀ e : Engine,
      e.insns = (disassemble dec noPdataSeed e₀).insns → ∀ F ∈ e.buildCfg.funcs,
      ∀ i, e.Reaches (e.spanOf F.rva (e.nextStart F.rva)) i →
        F.rva ≤ i.rva ∧ i.rva + i.size ≤ F.rva + F.size := by
  intro h
  have hnop : strayRetListed.Reaches (strayRetListed.spanOf 0 (strayRetListed.nextStart 0))
      (dsDecode true [0x90] 2) :=
    .fall (i := dsDecode true [0xB0, 0xC3] 0) (.start (by decide) rfl) (by decide) (by decide)
      (by decide) (by decide)
  have hin := (h builtin true strayRet rfl (by decide) strayRetListed strayRetListed_insns
    ⟨0, 2, 1, 0⟩ (by decide) _ hnop).2
  exact absurd hin (by decide)

end Listing

end Ldu
