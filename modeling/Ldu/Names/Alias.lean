import Mathlib.Data.List.Induction
import Mathlib.Data.List.Nodup
import Mathlib.Data.Set.Function

/-!
# Display names

An alias map gives some names another name to be shown under; the others are shown as they are.
Two ways to give names are described.

* `Naming.give` takes the first of a list of wanted names that is not in use, and does nothing
  when they all are.
* `number` goes through a list of names and counts up, passing over the numbers whose name is
  reserved.

Neither ever gives a name twice, nor one that is in use or reserved. Names shown without an alias
are then the only ones that can clash (`display_injOn`).
-/

/-- Names with the name each is shown under. -/
abbrev Alias (α : Type*) := List (α × α)

namespace Alias

variable {α : Type*}

/-- The names that have an alias. -/
def keys (m : Alias α) : List α := m.map Prod.fst

/-- The aliases. -/
def names (m : Alias α) : List α := m.map Prod.snd

@[simp] theorem keys_append (m m' : Alias α) : keys (m ++ m') = keys m ++ keys m' :=
  List.map_append

@[simp] theorem names_append (m m' : Alias α) : names (m ++ m') = names m ++ names m' :=
  List.map_append

@[simp] theorem keys_cons (p : α × α) (m : Alias α) : keys (p :: m) = p.1 :: keys m := rfl

@[simp] theorem names_cons (p : α × α) (m : Alias α) : names (p :: m) = p.2 :: names m := rfl

variable [DecidableEq α] {m : Alias α} {x y v : α}

/-- The name `x` is shown under. -/
def display (m : Alias α) (x : α) : α :=
  (m.lookup x).getD x

/-- A name without an alias is shown as it is. -/
theorem display_of_notMem (h : x ∉ keys m) : m.display x = x := by
  have hnone : m.lookup x = none :=
    List.lookup_eq_none_iff.2 fun p hp ↦
      bne_iff_ne.2 fun hx ↦ h (List.mem_map.2 ⟨p, hp, hx.symm⟩)
  rw [display, hnone, Option.getD_none]

/-- A name with an alias is shown under one that the map has for it. -/
theorem mem_of_mem_keys (h : x ∈ keys m) : (x, m.display x) ∈ m := by
  obtain ⟨p, hp, rfl⟩ := List.mem_map.1 h
  cases hlook : m.lookup p.1 with
  | none => exact absurd rfl (bne_iff_ne.1 (List.lookup_eq_none_iff.1 hlook p hp))
  | some v =>
    obtain ⟨l₁, l₂, rfl, -⟩ := List.lookup_eq_some_iff.1 hlook
    simp [display, hlook]

theorem display_mem_names (h : x ∈ keys m) : m.display x ∈ names m :=
  List.mem_map.2 ⟨_, mem_of_mem_keys h, rfl⟩

/-- Where no alias is given twice and none is the name of something shown as it is, different
names are shown differently. -/
theorem display_injOn {S : Set α} (hnodup : (names m).Nodup)
    (hkept : ∀ x ∈ S, x ∉ keys m → x ∉ names m) : Set.InjOn m.display S := by
  intro x hx y hy hxy
  by_cases hkx : x ∈ keys m <;> by_cases hky : y ∈ keys m
  · have heq := List.inj_on_of_nodup_map hnodup (mem_of_mem_keys hkx) (mem_of_mem_keys hky) hxy
    exact congrArg Prod.fst heq
  · rw [display_of_notMem hky] at hxy
    exact absurd (hxy ▸ display_mem_names hkx) (hkept y hy hky)
  · rw [display_of_notMem hkx] at hxy
    exact absurd (hxy ▸ display_mem_names hky) (hkept x hx hkx)
  · rwa [display_of_notMem hkx, display_of_notMem hky] at hxy

end Alias

/-! ### Giving wanted names -/

/-- The aliases given so far and the names in use. -/
structure Naming (α : Type*) where
  given : Alias α := []
  used : List α

namespace Naming

variable {α : Type*} [DecidableEq α] {st : Naming α} {base : List α} {x v : α}

/-- Name `x` by the first wanted name not in use, unless it has a name or they all are. -/
def give (st : Naming α) (r : α × List α) : Naming α :=
  if r.1 ∈ st.given.keys then st else
    match r.2.find? (· ∉ st.used) with
    | some v => ⟨st.given ++ [(r.1, v)], v :: st.used⟩
    | none => st

/-- The requests in turn. -/
def giveAll (st : Naming α) (rs : List (α × List α)) : Naming α :=
  rs.foldl give st

/-- All a request can do. Where it does nothing, `x` has a name or every wanted name is in use. -/
theorem give_cases (st : Naming α) (r : α × List α) :
    (st.give r = st ∧ (r.1 ∈ st.given.keys ∨ ∀ v ∈ r.2, v ∈ st.used)) ∨
      ∃ v ∈ r.2, v ∉ st.used ∧ st.give r = ⟨st.given ++ [(r.1, v)], v :: st.used⟩ := by
  by_cases hkey : r.1 ∈ st.given.keys
  · exact .inl ⟨if_pos hkey, .inl hkey⟩
  · cases hfind : r.2.find? (· ∉ st.used) with
    | none =>
      refine .inl ⟨by rw [give, if_neg hkey, hfind], .inr fun v hv ↦ ?_⟩
      simpa using List.find?_eq_none.1 hfind v hv
    | some v =>
      have hv : v ∉ st.used := by simpa using List.find?_some hfind
      exact .inr ⟨v, List.mem_of_find?_eq_some hfind, hv, by rw [give, if_neg hkey, hfind]⟩

/-- What holds after the requests `rs`, when at first only `base` was in use. -/
structure Served (base : List α) (rs : List (α × List α)) (st : Naming α) : Prop where
  nodup : st.given.names.Nodup
  fresh : ∀ v ∈ st.given.names, v ∉ base
  mem_used : ∀ v, v ∈ st.used ↔ v ∈ base ∨ v ∈ st.given.names
  asked : ∀ p ∈ st.given, ∃ ws, (p.1, ws) ∈ rs ∧ p.2 ∈ ws
  /-- A request leaves its name without alias only when all it wants is taken. -/
  done : ∀ r ∈ rs, r.1 ∈ st.given.keys ∨ ∀ v ∈ r.2, v ∈ st.used

omit [DecidableEq α] in
theorem served_nil (base : List α) : Served base [] ⟨[], base⟩ where
  nodup := List.nodup_nil
  fresh _ hv := absurd hv List.not_mem_nil
  mem_used v := by simp [Alias.names]
  asked _ hp := absurd hp List.not_mem_nil
  done _ hr := absurd hr List.not_mem_nil

/-- One more request. -/
theorem Served.give {rs : List (α × List α)} (h : Served base rs st) (r : α × List α) :
    Served base (rs ++ [r]) (st.give r) := by
  obtain ⟨hst, hr⟩ | ⟨v, hv, hused, hst⟩ := give_cases st r
  · rw [hst]
    refine { h with asked := fun p hp ↦ ?_, done := fun r' hr' ↦ ?_ }
    · obtain ⟨ws, hws, hmem⟩ := h.asked p hp
      exact ⟨ws, List.mem_append_left _ hws, hmem⟩
    · rcases List.mem_append.1 hr' with hr' | hr'
      · exact h.done r' hr'
      · rwa [List.mem_singleton.1 hr']
  · rw [h.mem_used, not_or] at hused
    rw [hst]
    refine ⟨?_, fun w hw ↦ ?_, fun w ↦ ?_, fun p hp ↦ ?_, fun r' hr' ↦ ?_⟩
    · rw [Alias.names_append]
      exact h.nodup.append (List.nodup_singleton _) (by simpa [Alias.names] using hused.2)
    · rcases List.mem_append.1 ((Alias.names_append _ _) ▸ hw) with hw | hw
      · exact h.fresh w hw
      · exact List.mem_singleton.1 hw ▸ hused.1
    · simp only [List.mem_cons, h.mem_used, Alias.names_append, List.mem_append, Alias.names_cons]
      have hnil : w ∉ Alias.names ([] : Alias α) := List.not_mem_nil
      tauto
    · rcases List.mem_append.1 hp with hp | hp
      · obtain ⟨ws, hws, hmem⟩ := h.asked p hp
        exact ⟨ws, List.mem_append_left _ hws, hmem⟩
      · rw [List.mem_singleton.1 hp]
        exact ⟨r.2, List.mem_append_right _ (List.mem_singleton_self _), hv⟩
    · rw [Alias.keys_append, List.mem_append]
      rcases List.mem_append.1 hr' with hr' | hr'
      · exact (h.done r' hr').imp Or.inl fun hall w hw ↦ List.mem_cons_of_mem _ (hall w hw)
      · rw [List.mem_singleton.1 hr']
        exact .inl (.inr (List.mem_singleton_self _))

theorem served_giveAll (base : List α) (rs : List (α × List α)) :
    Served base rs (giveAll ⟨[], base⟩ rs) := by
  induction rs using List.reverseRecOn with
  | nil => exact served_nil base
  | append_singleton rs r ih =>
    rw [giveAll, List.foldl_append]
    exact ih.give r

omit [DecidableEq α] in
/-- A name wanted for `x` and for nothing else, and not in use at first, is not what keeps `x`
without alias. -/
theorem Served.mem_keys {rs : List (α × List α)} (h : Served base rs st) {ws : List α}
    (hr : (x, ws) ∈ rs) (hv : v ∈ ws) (hbase : v ∉ base)
    (honly : ∀ y ws', (y, ws') ∈ rs → v ∈ ws' → y = x) : x ∈ st.given.keys := by
  refine (h.done _ hr).elim id fun hall ↦ ?_
  obtain ⟨p, hp, hpv⟩ := List.mem_map.1 (((h.mem_used v).1 (hall v hv)).resolve_left hbase)
  obtain ⟨ws', hws', hmem⟩ := h.asked p hp
  exact List.mem_map.2 ⟨p, hp, honly _ ws' hws' (hpv ▸ hmem)⟩

end Naming

/-! ### Counting up -/

namespace Alias

variable {α : Type*} [DecidableEq α] {f : ℕ → α} {reserved : List α} {k : ℕ} {xs : List α}

/-- The first number from `k` on whose name is not reserved, looking at `fuel` of them. -/
def nextFree (f : ℕ → α) (reserved : List α) : ℕ → ℕ → ℕ
  | 0, k => k
  | fuel + 1, k => if f k ∈ reserved then nextFree f reserved fuel (k + 1) else k

/-- The search only fails when everything it looked at is reserved. -/
theorem reserved_of_nextFree {fuel : ℕ} (h : f (nextFree f reserved fuel k) ∈ reserved) :
    ∀ j ≤ fuel, f (k + j) ∈ reserved := by
  induction fuel generalizing k with
  | zero =>
    intro j hj
    obtain rfl : j = 0 := Nat.le_zero.1 hj
    exact h
  | succ fuel ih =>
    rw [nextFree] at h
    split at h
    · next hk =>
      rintro (_ | j) hj
      · exact hk
      · have := ih h j (Nat.le_of_succ_le_succ hj)
        rwa [Nat.add_right_comm] at this
    · next hk => exact absurd h hk

/-- As many looks as there are reserved names are enough. -/
theorem nextFree_notMem (hf : Function.Injective f) :
    f (nextFree f reserved reserved.length k) ∉ reserved := by
  intro h
  have hsub : (List.range (reserved.length + 1)).map (fun j ↦ f (k + j)) ⊆ reserved := by
    intro v hv
    obtain ⟨j, hj, rfl⟩ := List.mem_map.1 hv
    exact reserved_of_nextFree h j (Nat.le_of_lt_succ (List.mem_range.1 hj))
  have hnodup : ((List.range (reserved.length + 1)).map fun j ↦ f (k + j)).Nodup :=
    List.nodup_range.map fun i j hij ↦ Nat.add_left_cancel (hf hij)
  have hle := hnodup.length_le_of_subset hsub
  rw [List.length_map, List.length_range] at hle
  omega

/-- Give the names `f k`, `f (k + 1)`, ... in turn, passing over the reserved ones. -/
def number (f : ℕ → α) (reserved : List α) (k : ℕ) : List α → Alias α
  | [] => []
  | x :: xs =>
    let n := nextFree f reserved reserved.length k
    (x, f n) :: number f (f n :: reserved) (n + 1) xs

@[simp] theorem keys_number : keys (number f reserved k xs) = xs := by
  induction xs generalizing reserved k with
  | nil => rfl
  | cons x xs ih => exact congrArg (x :: ·) ih

theorem exists_of_mem_names_number {v : α} (h : v ∈ names (number f reserved k xs)) :
    ∃ n, v = f n := by
  induction xs generalizing reserved k with
  | nil => exact absurd h List.not_mem_nil
  | cons x xs ih => exact (List.mem_cons.1 h).elim (fun hv ↦ ⟨_, hv⟩) fun hv ↦ ih hv

theorem notMem_of_mem_names_number (hf : Function.Injective f) {v : α}
    (h : v ∈ names (number f reserved k xs)) : v ∉ reserved := by
  induction xs generalizing reserved k with
  | nil => exact absurd h List.not_mem_nil
  | cons x xs ih =>
    rcases List.mem_cons.1 h with rfl | hv
    · exact nextFree_notMem hf
    · exact fun hr ↦ ih hv (List.mem_cons_of_mem _ hr)

theorem nodup_names_number (hf : Function.Injective f) :
    (names (number f reserved k xs)).Nodup := by
  induction xs generalizing reserved k with
  | nil => exact List.nodup_nil
  | cons x xs ih =>
    exact List.nodup_cons.2 ⟨fun h ↦ notMem_of_mem_names_number hf h List.mem_cons_self, ih⟩

end Alias
