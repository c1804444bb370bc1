import Mathlib.Data.List.Nodup
import Mathlib.Order.Lattice

/-!
# Maps as sorted lists

A map from keys of a linear order to values is the list of its entries by increasing key
(`SortedMap`). Being sorted is part of the map, so that maps with the same entries are equal. What a
key is mapped to (`get?`) is read off the entries, and insertion is known by what it does to it
(`get?_insert`).
-/

/-- The entries of a map by increasing key. -/
structure SortedMap (κ α : Type*) [LinearOrder κ] where
  entries : List (κ × α)
  sorted : entries.Pairwise (·.1 < ·.1)

namespace SortedMap

variable {κ α : Type*} [LinearOrder κ] {m : SortedMap κ α} {j k : κ} {v w : α}

/-- The map without entries. -/
def empty : SortedMap κ α :=
  ⟨[], .nil⟩

instance : Inhabited (SortedMap κ α) :=
  ⟨empty⟩

/-- What the key is mapped to. -/
def get? (m : SortedMap κ α) (k : κ) : Option α :=
  (m.entries.find? (·.1 = k)).map (·.2)

/-- The map with `k` mapped to `v`. -/
def insert (m : SortedMap κ α) (k : κ) (v : α) : SortedMap κ α where
  entries := m.entries.filter (·.1 < k) ++ (k, v) :: m.entries.filter (k < ·.1)
  sorted := by
    refine List.pairwise_append.2 ⟨m.sorted.filter _, ?_, ?_⟩
    · refine List.pairwise_cons.2 ⟨fun e he ↦ ?_, m.sorted.filter _⟩
      simpa using (List.mem_filter.1 he).2
    · intro e he f hf
      have hek : e.1 < k := by simpa using (List.mem_filter.1 he).2
      rcases List.mem_cons.1 hf with rfl | hf
      · exact hek
      · exact hek.trans (by simpa using (List.mem_filter.1 hf).2)

/-- The map without `k`. -/
def erase (m : SortedMap κ α) (k : κ) : SortedMap κ α where
  entries := m.entries.filter (·.1 ≠ k)
  sorted := m.sorted.filter _

/-- A key has one entry. -/
theorem eq_of_mem (hv : (k, v) ∈ m.entries) (hw : (k, w) ∈ m.entries) : v = w := by
  have hnodup : (m.entries.map Prod.fst).Nodup :=
    List.pairwise_map.2 (m.sorted.imp fun h ↦ h.ne)
  exact (Prod.ext_iff.1 (List.inj_on_of_nodup_map hnodup hv hw rfl)).2

theorem get?_eq_some_iff : m.get? k = some v ↔ (k, v) ∈ m.entries := by
  unfold get?
  constructor
  · intro h
    obtain ⟨e, he, rfl⟩ := Option.map_eq_some_iff.1 h
    have hk : e.1 = k := by simpa using List.find?_some he
    exact hk ▸ List.mem_of_find?_eq_some he
  · intro h
    cases hfind : m.entries.find? (·.1 = k) with
    | none => simpa using List.find?_eq_none.1 hfind _ h
    | some e =>
      have hk : e.1 = k := by simpa using List.find?_some hfind
      have hmem : (k, e.2) ∈ m.entries := hk ▸ List.mem_of_find?_eq_some hfind
      rw [Option.map_some, eq_of_mem hmem h]

@[simp] theorem get?_empty : (empty : SortedMap κ α).get? k = none := rfl

theorem get?_insert : (m.insert k v).get? j = if j = k then some v else m.get? j := by
  refine Option.ext fun w ↦ ?_
  rw [get?_eq_some_iff]
  unfold insert
  simp only [List.mem_append, List.mem_filter, List.mem_cons, Prod.mk.injEq, decide_eq_true_eq]
  split
  · next h => simp [h, eq_comm]
  · next h =>
    rw [get?_eq_some_iff]
    simp only [h, false_and, false_or]
    constructor
    · rintro (hw | hw) <;> exact hw.1
    · exact fun hw ↦ (lt_or_gt_of_ne h).imp (⟨hw, ·⟩) (⟨hw, ·⟩)

/-- Maps with the same entries are equal. -/
theorem eq_of_get? {m m' : SortedMap κ α} (h : ∀ k, m.get? k = m'.get? k) : m = m' := by
  have hmem : ∀ e, e ∈ m.entries ↔ e ∈ m'.entries := fun e ↦ by
    rw [← get?_eq_some_iff (k := e.1), ← get?_eq_some_iff (k := e.1), h]
  have hnodup : ∀ m : SortedMap κ α, m.entries.Nodup := fun m ↦
    m.sorted.imp fun h heq ↦ h.ne (congrArg Prod.fst heq)
  have hperm := (List.perm_ext_iff_of_nodup (hnodup m) (hnodup m')).2 hmem
  have heq := hperm.eq_of_pairwise (fun _ _ _ _ h h' ↦ absurd (h.trans h') (lt_irrefl _))
    m.sorted m'.sorted
  cases m
  cases m'
  cases heq
  rfl

/-- A map is its entries, inserted one after the other. -/
theorem foldl_insert_entries (m : SortedMap κ α) :
    m.entries.foldl (fun m e ↦ m.insert e.1 e.2) empty = m := by
  have hget : ∀ (l : List (κ × α)) (m' : SortedMap κ α), l.Pairwise (·.1 < ·.1) → ∀ k,
      (l.foldl (fun m e ↦ m.insert e.1 e.2) m').get? k =
        ((l.find? (·.1 = k)).map (·.2)).or (m'.get? k) := by
    intro l
    induction l with
    | nil => exact fun _ _ _ ↦ rfl
    | cons e l ih =>
      intro m' hl k
      rw [List.pairwise_cons] at hl
      rw [List.foldl_cons, ih _ hl.2, get?_insert, List.find?_cons]
      by_cases hk : e.1 = k
      · have hnone : l.find? (·.1 = k) = none :=
          List.find?_eq_none.2 fun f hf ↦ by
            simpa using fun heq ↦ (hl.1 f hf).ne (hk.trans heq.symm)
        simp [hk, hnone]
      · simp [hk, Ne.symm hk]
  refine eq_of_get? fun k ↦ ?_
  rw [hget _ _ m.sorted, get?_empty, Option.or_none]
  rfl

end SortedMap
