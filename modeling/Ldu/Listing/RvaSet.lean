import Ldu.Listing.Engine
import Ldu.Table.Probing
import Mathlib.Data.Nat.Bitwise
import Mathlib.Data.UInt

/-!
# The set of visited addresses

The sweep remembers the addresses it has decoded in a table of a power of two many slots, in which a
key is looked for from its hash on. A slot that is zero is empty, and the key zero is kept in a flag
beside the table. When three quarters of the slots would be taken the table doubles, and its keys
are put in the new one.

`calloc n` says whether a table of `n` slots is allocated. When that fails on growing, the key
counts as one that was there. Loops have fuel, and a result is `none` when it runs out.

The invariant is `RvaSet.Inv s S`, the table stores the set `S`. Each call keeps it and answers what
the set says (`RvaSet.Inv.step`), and so does a run (`RvaSet.Inv.run`).
-/

namespace Ldu

namespace Listing

/-- `rvaset`. The capacity is a power of two. -/
structure RvaSet where
  slots : List UInt64
  cap : ℕ
  len : ℕ
  hasZero : Bool
  deriving DecidableEq, Repr

namespace RvaSet

/-- The capacity to begin with: it doubles until it holds two slots for every expected key. -/
def initCap (hint : ℕ) : Option ℕ :=
  firstStop (fun cap ↦ wrap64 (2 * cap)) (fun cap ↦ wrap64 (hint * 2) ≤ cap) 64 1024

def init (calloc : ℕ → Bool) (hint : ℕ) : Option RvaSet := do
  let cap ← initCap hint
  if calloc cap then
    some { slots := List.replicate cap 0, cap := cap, len := 0, hasZero := false }
  else none

/-- The slot at which the search for a key begins. -/
def hash (mask : ℕ) (v : UInt64) : ℕ :=
  ((v * 0x9E3779B97F4A7C15) >>> 24).toNat &&& mask

/-- The slot after a slot. -/
def next (mask h : ℕ) : ℕ :=
  (h + 1) &&& mask

/-- Put the keys in the slots of a new table. -/
def rehash (ncap : ℕ) : List UInt64 → List UInt64 → Option (List UInt64)
  | [], ns => some ns
  | v :: slots, ns =>
    if v = 0 then rehash ncap slots ns
    else do
      let h ← firstStop (next (ncap - 1)) (fun h ↦ ns.getD h 0 = 0) ncap (hash (ncap - 1) v)
      rehash ncap slots (ns.set h v)

variable (calloc : ℕ → Bool)

/-- `rvaset_grow`, with what it returns. -/
def grow (s : RvaSet) : Option (Bool × RvaSet) :=
  let ncap := wrap64 (2 * s.cap)
  if calloc ncap then do
    let ns ← rehash ncap s.slots (List.replicate ncap 0)
    some (true, { s with slots := ns, cap := ncap })
  else some (false, s)

/-- Where the search for a key ends, at the key or at an empty slot. -/
def probe (s : RvaSet) (v : UInt64) : Option ℕ :=
  firstStop (next (s.cap - 1)) (fun h ↦ s.slots.getD h 0 = 0 ∨ s.slots.getD h 0 = v) s.cap
    (hash (s.cap - 1) v)

/-- Put a key other than zero in the table, unless it is there. -/
def place (s : RvaSet) (v : UInt64) : Option (Bool × RvaSet) := do
  let h ← s.probe v
  if s.slots.getD h 0 = v then some (false, s)
  else some (true, { s with slots := s.slots.set h v, len := wrap64 (s.len + 1) })

/-- Another key would take three quarters of the slots. -/
def Full (s : RvaSet) : Prop :=
  wrap64 (s.cap * 3) ≤ wrap64 (wrap64 (s.len + 1) * 4)

instance (s : RvaSet) : Decidable s.Full :=
  inferInstanceAs (Decidable (_ ≤ _))

def add (s : RvaSet) (v : UInt64) : Option (Bool × RvaSet) :=
  if v = 0 then
    if s.hasZero then some (false, s)
    else some (true, { s with hasZero := true, len := wrap64 (s.len + 1) })
  else if s.Full then do
    let (grown, s') ← s.grow calloc
    if grown then s'.place v else some (false, s')
  else s.place v

def has (s : RvaSet) (v : UInt64) : Option Bool :=
  if v = 0 then some s.hasZero
  else do
    let h ← s.probe v
    some (s.slots.getD h 0 = v)

/-! ### Calls -/

inductive Call
  | add (v : UInt64)
  | has (v : UInt64)
  deriving DecidableEq, Repr

/-- What a call returns, and the set after it. -/
def step (s : RvaSet) : Call → Option (Bool × RvaSet)
  | .add v => s.add calloc v
  | .has v => (s.has v).map (·, s)

/-- What the calls return, in order, and the set after them. -/
def run : RvaSet → List Call → Option (List Bool × RvaSet)
  | s, [] => some ([], s)
  | s, c :: cs => do
    let (b, s') ← s.step calloc c
    let (bs, s'') ← run s' cs
    some (b :: bs, s'')

/-- The call has the table grow. -/
def asks (s : RvaSet) : Call → Bool
  | .add v => v ≠ 0 ∧ s.Full
  | .has _ => false

/-- Every table that the calls ask for is allocated. -/
def granted : RvaSet → List Call → Bool
  | _, [] => true
  | s, c :: cs =>
    (!s.asks c || calloc (wrap64 (2 * s.cap))) &&
      match s.step calloc c with
      | some (_, s') => granted s' cs
      | none => true

namespace Call

/-- The key that a call adds. -/
def key? : Call → Option UInt64
  | .add v => some v
  | .has _ => none

/-- What a call returns when the keys before it are `S`. -/
def answer (S : Finset UInt64) : Call → Bool
  | .add v => v ∉ S
  | .has v => v ∈ S

end Call

/-- The keys that calls have added. -/
def added (cs : List Call) : Finset UInt64 :=
  (cs.filterMap Call.key?).toFinset

/-! ### The slots -/

section Slots

variable {k : ℕ} {v : UInt64}

theorem hash_lt : hash (2 ^ k - 1) v < 2 ^ k := by
  rw [hash, Nat.and_two_pow_sub_one_eq_mod]
  exact Nat.mod_lt _ (Nat.two_pow_pos k)

theorem cycle_next : Probing.Cycle (2 ^ k) (next (2 ^ k - 1)) := by
  have hnext : next (2 ^ k - 1) = fun i ↦ (i + 1) % 2 ^ k :=
    funext fun i ↦ Nat.and_two_pow_sub_one_eq_mod _ _
  rw [hnext]
  exact Probing.cycle_succ_mod

/-- The keys that slots hold. -/
abbrev Holds (k : ℕ) (slots : List UInt64) (S : Finset UInt64) : Prop :=
  Probing.Stores 0 (hash (2 ^ k - 1)) (next (2 ^ k - 1)) (2 ^ k) (slots.getD · 0) S

theorem getD_set {slots : List UInt64} {j : ℕ} (hj : j < slots.length) :
    ((slots.set j v).getD · 0) = Function.update (slots.getD · 0) j v := by
  funext i
  by_cases hi : i = j
  · rw [hi, Function.update_self, List.getD_eq_getElem?_getD, List.getElem?_set_self hj]
    rfl
  · rw [Function.update_of_ne hi, List.getD_eq_getElem?_getD, List.getElem?_set_ne (Ne.symm hi),
      List.getD_eq_getElem?_getD]

theorem holds_replicate : Holds k (List.replicate (2 ^ k) 0) ∅ :=
  Probing.stores_empty fun i hi ↦ by
    rw [List.getD_eq_getElem?_getD, List.getElem?_replicate_of_lt hi]
    rfl

/-- A new key put in the slot where its search ended. -/
theorem Holds.set {slots : List UInt64} {S : Finset UInt64} {j : ℕ} (h : Holds k slots S)
    (hlength : slots.length = 2 ^ k) (hv : v ∉ S) (hne : v ≠ 0)
    (hj : Probing.Vacant 0 (hash (2 ^ k - 1)) (next (2 ^ k - 1)) (2 ^ k) (slots.getD · 0) v j) :
    Holds k (slots.set j v) (insert v S) := by
  have hlt : j < slots.length := by
    obtain ⟨d, -, rfl, -⟩ := hj
    rw [hlength]
    exact cycle_next.iterate_lt hash_lt d
  rw [Holds, getD_set hlt]
  exact Probing.Stores.insert h hv hne hj

/-- The keys of a list, put in a table that has room for them. -/
theorem Holds.rehash {slots ns : List UInt64} {S : Finset UInt64} (h : Holds k ns S)
    (hlength : ns.length = 2 ^ k) (hnodup : (slots.filter (· ≠ 0)).Nodup)
    (hnew : ∀ v ∈ slots, v ≠ 0 → v ∉ S) (hroom : S.card + slots.length < 2 ^ k) :
    ∃ ns', rehash (2 ^ k) slots ns = some ns' ∧ ns'.length = 2 ^ k ∧
      Holds k ns' (S ∪ (slots.filter (· ≠ 0)).toFinset) := by
  induction slots generalizing ns S with
  | nil => exact ⟨ns, rfl, hlength, by simpa using h⟩
  | cons v slots ih =>
    unfold RvaSet.rehash
    rw [List.length_cons] at hroom
    by_cases hv : v = 0
    · rw [if_pos hv, List.filter_cons_of_neg (by simpa using hv)]
      rw [List.filter_cons_of_neg (by simpa using hv)] at hnodup
      exact ih h hlength hnodup (fun w hw ↦ hnew w (.tail _ hw)) (by omega)
    · rw [List.filter_cons_of_pos (by simpa using hv)] at hnodup
      obtain ⟨hfresh, hnodup⟩ := List.nodup_cons.1 hnodup
      have hvS := hnew v (.head _) hv
      obtain ⟨j, hrun, hj⟩ := h.exists_vacant (v := v) cycle_next hash_lt (by omega)
        (fun h ↦ ns.getD h 0 = 0) (fun i _ ↦ decide_eq_true_iff)
      obtain ⟨ns', hns', hlength', hholds⟩ := ih (h.set hlength hvS hv hj)
        (by rw [List.length_set, hlength]) hnodup
        (fun w hw hw0 hwS ↦ by
          rcases Finset.mem_insert.1 hwS with rfl | hwS
          · exact hfresh (List.mem_filter.2 ⟨hw, by simpa using hw0⟩)
          · exact hnew w (.tail _ hw) hw0 hwS)
        (by rw [Finset.card_insert_of_notMem hvS]; omega)
      refine ⟨ns', ?_, hlength', ?_⟩
      · rw [if_neg hv, hrun]
        exact hns'
      · rw [List.filter_cons_of_pos (by simpa using hv), List.toFinset_cons,
          Finset.union_insert, ← Finset.insert_union]
        exact hholds

/-- The slots list the keys, once each. -/
theorem Holds.nodup_filter {slots : List UInt64} {S : Finset UInt64} (h : Holds k slots S)
    (hlength : slots.length = 2 ^ k) :
    (slots.filter (· ≠ 0)).Nodup ∧ (slots.filter (· ≠ 0)).toFinset = S := by
  have hgetD : ∀ {i} (hi : i < slots.length), slots.getD i 0 = slots[i] := fun hi ↦ by
    rw [List.getD_eq_getElem?_getD, List.getElem?_eq_getElem hi]
    rfl
  refine ⟨List.pairwise_filter.2 (List.pairwise_iff_getElem.2 fun i j hi hj hij hi0 _ heq ↦ ?_),
    Finset.ext fun v ↦ ?_⟩
  · have hsame := h.inj i (hlength ▸ hi) j (hlength ▸ hj)
    rw [hgetD hi, hgetD hj] at hsame
    exact absurd (hsame (by simpa using hi0) heq) (by omega)
  · rw [List.mem_toFinset, List.mem_filter]
    constructor
    · rintro ⟨hv, hv0⟩
      obtain ⟨i, hi, rfl⟩ := List.getElem_of_mem hv
      have := h.mem i (hlength ▸ hi)
      rw [hgetD hi] at this
      exact this (by simpa using hv0)
    · intro hv
      obtain ⟨d, -, hat, -⟩ := h.path v hv
      have hlt : (next (2 ^ k - 1))^[d] (hash (2 ^ k - 1) v) < slots.length := by
        rw [hlength]
        exact cycle_next.iterate_lt hash_lt d
      rw [hgetD hlt] at hat
      refine ⟨hat ▸ List.getElem_mem hlt, ?_⟩
      have hv0 : v ≠ 0 := fun h0 ↦ h.empty_notMem (h0 ▸ hv)
      simpa using hv0

end Slots

/-! ### The invariant -/

/-- The table of `2 ^ k` slots holds the keys of `S`. Fewer than three quarters of the slots are
taken. -/
structure Inv (k : ℕ) (s : RvaSet) (S : Finset UInt64) : Prop where
  ge : 10 ≤ k
  lt : k < 63
  cap : s.cap = 2 ^ k
  length : s.slots.length = 2 ^ k
  holds : Holds k s.slots (S.erase 0)
  hasZero : s.hasZero = true ↔ 0 ∈ S
  len : s.len = S.card
  room : 4 * (S.erase 0).card < 3 * 2 ^ k

variable {calloc : ℕ → Bool} {k : ℕ} {s : RvaSet} {S : Finset UInt64} {v : UInt64}

namespace Inv

theorem cap_le (h : Inv k s S) : 2 ^ k ≤ 2 ^ 62 :=
  Nat.pow_le_pow_right (by omega) (by have := h.lt; omega)

theorem le_cap (h : Inv k s S) : 2 ^ 10 ≤ 2 ^ k :=
  Nat.pow_le_pow_right (by omega) h.ge

theorem card_le (h : Inv k s S) : 4 * S.card < 3 * 2 ^ k + 4 := by
  have hcard := Finset.pred_card_le_card_erase (s := S) (a := 0)
  have hroom := h.room
  omega

/-- The numbers of slots and of keys are far from the end of the machine's numbers. -/
theorem full_iff (h : Inv k s S) : s.Full ↔ 3 * 2 ^ k ≤ 4 * (S.card + 1) := by
  have hcap := h.cap_le
  have hcard := h.card_le
  rw [Full, h.len, h.cap, wrap64, wrap64, wrap64, Nat.mod_eq_of_lt (by omega),
    Nat.mod_eq_of_lt (a := S.card + 1) (by omega), Nat.mod_eq_of_lt (by omega)]
  omega

theorem wrap64_len (h : Inv k s S) : wrap64 (s.len + 1) = S.card + 1 := by
  have hcap := h.cap_le
  have hcard := h.card_le
  rw [wrap64, h.len, Nat.mod_eq_of_lt (by omega)]

theorem mem_erase (hv : v ≠ 0) : v ∈ S.erase 0 ↔ v ∈ S :=
  Finset.mem_erase.trans (and_iff_right hv)

/-- The search for a key that is there ends at it. -/
theorem probe_of_mem (h : Inv k s S) (hv : v ≠ 0) (hS : v ∈ S) :
    ∃ j, s.probe v = some j ∧ s.slots.getD j 0 = v := by
  rw [probe, h.cap]
  exact h.holds.firstStop_of_mem ((mem_erase hv).2 hS)

/-- The search for a key that is not there ends at an empty slot. -/
theorem probe_of_notMem (h : Inv k s S) (hv : v ≠ 0) (hS : v ∉ S) :
    ∃ j, s.probe v = some j ∧ Probing.Vacant 0 (hash (2 ^ k - 1)) (next (2 ^ k - 1)) (2 ^ k)
      (s.slots.getD · 0) v j := by
  rw [probe, h.cap]
  have hroom := h.room
  exact h.holds.firstStop_of_notMem cycle_next hash_lt (by omega) fun h' ↦ hS ((mem_erase hv).1 h')

theorem has (h : Inv k s S) : s.has v = some (decide (v ∈ S)) := by
  unfold RvaSet.has
  by_cases hv : v = 0
  · rw [if_pos hv, hv, Option.some_inj, Bool.eq_iff_iff, h.hasZero, decide_eq_true_iff]
  · rw [if_neg hv]
    by_cases hS : v ∈ S
    · obtain ⟨j, hj, hat⟩ := h.probe_of_mem hv hS
      rw [hj, decide_eq_true hS]
      exact congrArg some (decide_eq_true hat)
    · obtain ⟨j, hj, d, -, -, hempty, -⟩ := h.probe_of_notMem hv hS
      rw [hj, decide_eq_false hS]
      exact congrArg some (decide_eq_false (hempty.trans_ne (Ne.symm hv)))

/-- A key other than zero takes a slot unless it is there. -/
theorem place (h : Inv k s S) (hv : v ≠ 0) (hroom : ¬3 * 2 ^ k ≤ 4 * (S.card + 1)) :
    ∃ s', s.place v = some (decide (v ∉ S), s') ∧ Inv k s' (insert v S) := by
  unfold RvaSet.place
  by_cases hS : v ∈ S
  · obtain ⟨j, hj, hat⟩ := h.probe_of_mem hv hS
    refine ⟨s, ?_, by rwa [Finset.insert_eq_of_mem hS]⟩
    rw [hj, decide_eq_false (not_not.2 hS)]
    exact if_pos hat
  · obtain ⟨j, hj, hvacant⟩ := h.probe_of_notMem hv hS
    have hne : s.slots.getD j 0 ≠ v := by
      obtain ⟨d, -, -, hempty, -⟩ := hvacant
      exact hempty.trans_ne (Ne.symm hv)
    have herase : (insert v S).erase 0 = insert v (S.erase 0) :=
      Finset.erase_insert_of_ne hv
    have hnew : v ∉ S.erase 0 := fun h' ↦ hS ((mem_erase hv).1 h')
    have hcard := Finset.card_erase_le (s := S) (a := 0)
    refine ⟨{ s with slots := s.slots.set j v, len := wrap64 (s.len + 1) }, ?_, ?_⟩
    · rw [hj, decide_eq_true hS]
      exact if_neg hne
    · exact
        { ge := h.ge
          lt := h.lt
          cap := h.cap
          length := (List.length_set ..).trans h.length
          holds := herase ▸ h.holds.set h.length hnew hv hvacant
          hasZero := by rw [h.hasZero, Finset.mem_insert, or_iff_right (Ne.symm hv)]
          len := by rw [Finset.card_insert_of_notMem hS]; exact h.wrap64_len
          room := by rw [herase, Finset.card_insert_of_notMem hnew]; omega }

/-- Growing keeps the keys, in twice as many slots. -/
theorem grow (h : Inv k s S) (hcalloc : ∀ n, calloc n = true → n < 2 ^ 63)
    (hgranted : calloc (wrap64 (2 * s.cap)) = true) :
    ∃ s', s.grow calloc = some (true, s') ∧ Inv (k + 1) s' S := by
  have hcap := h.cap_le
  have hwrap : wrap64 (2 * s.cap) = 2 ^ (k + 1) := by
    rw [h.cap, wrap64, Nat.mod_eq_of_lt (by omega), pow_succ, mul_comm]
  have hlt : k + 1 < 63 := by
    have hsize := hcalloc _ hgranted
    rw [hwrap] at hsize
    exact (Nat.pow_lt_pow_iff_right (by omega)).1 hsize
  obtain ⟨hnodup, hkeys⟩ := h.holds.nodup_filter h.length
  obtain ⟨ns, hns, hlength, hholds⟩ := (holds_replicate (k := k + 1)).rehash
    (List.length_replicate ..) hnodup (fun v _ _ ↦ Finset.notMem_empty v)
    (by rw [Finset.card_empty, h.length, pow_succ]; have := Nat.two_pow_pos k; omega)
  rw [hkeys, Finset.empty_union] at hholds
  refine ⟨{ s with slots := ns, cap := 2 ^ (k + 1) }, ?_, ?_⟩
  · unfold RvaSet.grow
    rw [if_pos hgranted, hwrap, hns]
    rfl
  · have hroom := h.room
    exact
      { ge := Nat.le_succ_of_le h.ge
        lt := hlt
        cap := rfl
        length := hlength
        holds := hholds
        hasZero := h.hasZero
        len := h.len
        room := by rw [pow_succ]; omega }

theorem add (h : Inv k s S) (hcalloc : ∀ n, calloc n = true → n < 2 ^ 63)
    (hgranted : v ≠ 0 → s.Full → calloc (wrap64 (2 * s.cap)) = true) :
    ∃ k' s', s.add calloc v = some (decide (v ∉ S), s') ∧ Inv k' s' (insert v S) := by
  unfold RvaSet.add
  by_cases hv : v = 0
  · subst hv
    rw [if_pos rfl]
    by_cases hzero : s.hasZero = true
    · have hS := h.hasZero.1 hzero
      refine ⟨k, s, ?_, by rwa [Finset.insert_eq_of_mem hS]⟩
      rw [if_pos hzero, decide_eq_false (not_not.2 hS)]
    · have hS : 0 ∉ S := fun hS ↦ hzero (h.hasZero.2 hS)
      have herase : (insert 0 S).erase 0 = S.erase 0 := by
        rw [Finset.erase_insert hS, Finset.erase_eq_of_notMem hS]
      refine ⟨k, { s with hasZero := true, len := wrap64 (s.len + 1) }, ?_, ?_⟩
      · rw [if_neg hzero, decide_eq_true hS]
      · exact
          { ge := h.ge
            lt := h.lt
            cap := h.cap
            length := h.length
            holds := herase ▸ h.holds
            hasZero := iff_of_true rfl (Finset.mem_insert_self _ _)
            len := by rw [Finset.card_insert_of_notMem hS]; exact h.wrap64_len
            room := herase ▸ h.room }
  · rw [if_neg hv]
    by_cases hfull : s.Full
    · obtain ⟨s', hgrow, h'⟩ := h.grow hcalloc (hgranted hv hfull)
      have hcard := h.card_le
      have hcap := h.le_cap
      obtain ⟨s'', hplace, h''⟩ := h'.place hv (by rw [pow_succ]; omega)
      refine ⟨k + 1, s'', ?_, h''⟩
      rw [if_pos hfull, hgrow]
      exact hplace
    · obtain ⟨s', hplace, h'⟩ := h.place hv fun hle ↦ hfull (h.full_iff.2 hle)
      exact ⟨k, s', by rw [if_neg hfull, hplace], h'⟩

/-- A call answers what the set says. -/
theorem step (h : Inv k s S) (hcalloc : ∀ n, calloc n = true → n < 2 ^ 63) (c : Call)
    (hgranted : s.asks c = true → calloc (wrap64 (2 * s.cap)) = true) :
    ∃ k' s', s.step calloc c = some (c.answer S, s') ∧ Inv k' s' (added [c] ∪ S) := by
  cases c with
  | add v =>
    obtain ⟨k', s', hadd, h'⟩ := h.add hcalloc (v := v)
      fun hv hfull ↦ hgranted (decide_eq_true ⟨hv, hfull⟩)
    exact ⟨k', s', hadd, by simpa [added, Call.key?] using h'⟩
  | has v =>
    refine ⟨k, s, ?_, (Finset.empty_union S).symm ▸ h⟩
    rw [RvaSet.step, h.has]
    rfl

theorem added_cons {c : Call} {cs : List Call} : added (c :: cs) = added [c] ∪ added cs := by
  unfold added
  rw [← List.singleton_append, List.filterMap_append, List.toFinset_append]

/-- A run answers what the set says before each call. -/
theorem run (h : Inv k s S) (hcalloc : ∀ n, calloc n = true → n < 2 ^ 63) (cs : List Call)
    (hgranted : s.granted calloc cs = true) :
    ∃ k' out s', s.run calloc cs = some (out, s') ∧ Inv k' s' (added cs ∪ S) ∧
      out.length = cs.length ∧ ∀ before c after, cs = before ++ c :: after →
        out[before.length]? = some (c.answer (added before ∪ S)) := by
  induction cs generalizing k s S with
  | nil =>
    refine ⟨k, [], s, rfl, by simpa [added] using h, rfl, fun before c after heq ↦ ?_⟩
    exact absurd heq.symm (by simp)
  | cons c cs ih =>
    rw [granted, Bool.and_eq_true, Bool.or_eq_true, Bool.not_eq_true'] at hgranted
    obtain ⟨hc, hcs⟩ := hgranted
    obtain ⟨k', s', hstep, h'⟩ := h.step hcalloc c fun hasks ↦
      hc.resolve_left (by rw [hasks]; simp)
    rw [hstep] at hcs
    obtain ⟨k'', out, s'', hrun, h'', hlength, hout⟩ := ih h' hcs
    have hadded : ∀ cs, added (c :: cs) ∪ S = added cs ∪ (added [c] ∪ S) := fun cs ↦ by
      rw [← Finset.union_assoc, Finset.union_comm (added cs)]
      exact congrArg (· ∪ S) added_cons
    refine ⟨k'', c.answer S :: out, s'', ?_, by rwa [hadded], by simp [hlength], ?_⟩
    · rw [RvaSet.run, hstep]
      simp [hrun]
    · rintro before c' after heq
      cases before with
      | nil =>
        cases heq
        simp [added]
      | cons b before =>
        obtain ⟨rfl, htail⟩ := List.cons.inj heq
        rw [hadded]
        exact hout before c' after htail

end Inv

/-! ### The beginning -/

theorem iterate_double (d : ℕ) : (fun cap ↦ wrap64 (2 * cap))^[d] 1024 = wrap64 (2 ^ (10 + d)) := by
  induction d with
  | zero => rfl
  | succ d ih =>
    rw [Function.iterate_succ_apply', ih, ← Nat.add_assoc, pow_succ, mul_comm (2 ^ _)]
    exact Nat.mul_mod_mod ..

/-- The capacity to begin with is a power of two. -/
theorem initCap_eq_some {hint cap : ℕ} (h : initCap hint = some cap) :
    ∃ k, 10 ≤ k ∧ k < 64 ∧ cap = 2 ^ k := by
  obtain ⟨d, -, rfl, hat, hbefore⟩ := firstStop_eq_some h
  rw [iterate_double] at hat ⊢
  rcases Nat.lt_or_ge (10 + d) 64 with hd | hd
  · exact ⟨10 + d, by omega, hd, Nat.mod_eq_of_lt (Nat.pow_lt_pow_right (by omega) hd)⟩
  · -- The capacity would be zero, which is enough only when any is.
    have hzero : wrap64 (2 ^ (10 + d)) = 0 := Nat.mod_eq_zero_of_dvd (Nat.pow_dvd_pow 2 hd)
    rw [hzero] at hat
    have hfirst := hbefore 0 (by omega)
    have hle := of_decide_eq_true hat
    exact absurd (decide_eq_true (hle.trans (Nat.zero_le _))) (Bool.eq_false_iff.1 hfirst)

/-- The table is empty to begin with. -/
theorem inv_init {hint : ℕ} (hcalloc : ∀ n, calloc n = true → n < 2 ^ 63)
    (h : init calloc hint = some s) : ∃ k, Inv k s ∅ := by
  unfold init at h
  obtain ⟨cap, hcap, h⟩ := Option.bind_eq_some_iff.1 h
  obtain ⟨k, hge, -, rfl⟩ := initCap_eq_some hcap
  split at h
  · next hgranted =>
    cases h
    exact ⟨k,
      { ge := hge
        lt := (Nat.pow_lt_pow_iff_right (by omega)).1 (hcalloc _ hgranted)
        cap := rfl
        length := List.length_replicate ..
        holds := holds_replicate
        hasZero := by simp
        len := rfl
        room := by simp [Nat.two_pow_pos] }⟩
  · exact absurd h (by simp)

/-- In every run in which the tables are allocated, each call answers whether its key was added
before, and the length is the number of keys. -/
theorem run_init {hint : ℕ} (hcalloc : ∀ n, calloc n = true → n < 2 ^ 63)
    (hinit : init calloc hint = some s) (cs : List Call) (hgranted : s.granted calloc cs = true) :
    ∃ out s', s.run calloc cs = some (out, s') ∧ s'.len = (added cs).card ∧
      out.length = cs.length ∧ ∀ before c after, cs = before ++ c :: after →
        out[before.length]? = some (c.answer (added before)) := by
  obtain ⟨k, h⟩ := inv_init hcalloc hinit
  obtain ⟨k', out, s', hrun, h', hlength, hout⟩ := h.run hcalloc cs hgranted
  rw [Finset.union_empty] at h'
  exact ⟨out, s', hrun, h'.len, hlength, fun before c after heq ↦ by
    rw [hout before c after heq, Finset.union_empty]⟩

/-- Zero and a key added twice. -/
theorem run_init_small : ∃ s, init (fun n ↦ n < 2 ^ 63) 0 = some s ∧ ∃ out s',
    s.run (fun n ↦ n < 2 ^ 63) [.add 5, .has 0, .add 0, .add 5, .has 0] = some (out, s') ∧
      s'.len = 2 ∧ out = [true, false, true, false, true] := by
  have hinit : init (fun n ↦ n < 2 ^ 63) 0 =
      some { slots := List.replicate 1024 0, cap := 1024, len := 0, hasZero := false } := by
    decide +kernel
  obtain ⟨out, s', hrun, hlen, hlength, hout⟩ := run_init (fun n hn ↦ of_decide_eq_true hn) hinit
    [.add 5, .has 0, .add 0, .add 5, .has 0] (by decide +kernel)
  refine ⟨_, hinit, out, s', hrun, hlen, List.ext_getElem? fun i ↦ ?_⟩
  match i with
  | 0 => exact hout [] _ _ rfl
  | 1 => exact hout [.add 5] _ _ rfl
  | 2 => exact hout [.add 5, .has 0] _ _ rfl
  | 3 => exact hout [.add 5, .has 0, .add 0] _ _ rfl
  | 4 => exact hout [.add 5, .has 0, .add 0, .add 5] _ _ rfl
  | i + 5 => exact List.getElem?_eq_none (by rw [hlength]; exact Nat.le_add_left 5 i)

end RvaSet

end Listing

end Ldu
