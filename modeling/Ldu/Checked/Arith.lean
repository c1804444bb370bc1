import Mathlib.Data.Nat.Digits.Lemmas

/-!
# Checked arithmetic

A computation in checked arithmetic ends with a value or with a fault: a sum or a product that does
not fit, a shift as wide as the number, an index outside an array. A loop that is given a number of
rounds may also use them up. `Safe` says that there is a value; a sequence is safe when its first
part is and, with what that returns, its second part (`safe_bind`).

Numbers in memory are lists of bytes, with the lowest byte first (`ofLE`) or last (`ofBE`).
-/

/-- Why a computation ends without a value. -/
inductive Fault
  | overflow | shift | index | endless
  deriving DecidableEq, Repr

/-- A computation in checked arithmetic. -/
abbrev Checked := Except Fault

namespace Checked

variable {α β : Type}

/-! ### Computations that end with a value -/

def Safe (x : Checked α) : Prop :=
  ∃ a, x = .ok a

@[simp] theorem safe_ok (a : α) : Safe (.ok a : Checked α) := ⟨a, rfl⟩

@[simp] theorem safe_pure (a : α) : Safe (pure a : Checked α) := ⟨a, rfl⟩

@[simp] theorem not_safe_error (e : Fault) : ¬Safe (.error e : Checked α) := by
  rintro ⟨a, ha⟩
  cases ha

instance (x : Checked α) : Decidable (Safe x) :=
  match x with
  | .ok a => isTrue (safe_ok a)
  | .error e => isFalse (not_safe_error e)

section Bind

variable {ε : Type}

@[simp] theorem ok_bind (a : α) (f : α → Except ε β) : ((.ok a : Except ε α) >>= f) = f a := rfl

@[simp] theorem error_bind (e : ε) (f : α → Except ε β) :
    ((.error e : Except ε α) >>= f) = .error e := rfl

theorem bind_eq_ok {x : Except ε α} {f : α → Except ε β} {b : β} :
    (x >>= f) = .ok b ↔ ∃ a, x = .ok a ∧ f a = .ok b := by
  cases x with
  | ok a => simp
  | error e => simp

end Bind

theorem safe_bind {x : Checked α} {f : α → Checked β} :
    Safe (x >>= f) ↔ ∃ a, x = .ok a ∧ Safe (f a) := by
  cases x with
  | ok a => simp
  | error e => simp

/-! ### Computations that may also find nothing -/

section Find

variable {x : OptionT Checked α} {f : α → OptionT Checked β}

theorem safe_run_bind :
    Safe (x >>= f).run ↔ Safe x.run ∧ ∀ a, x.run = .ok (some a) → Safe (f a).run := by
  rw [OptionT.run_bind, Option.elimM, safe_bind]
  constructor
  · rintro ⟨o, ho, hf⟩
    refine ⟨⟨o, ho⟩, fun a ha ↦ ?_⟩
    obtain rfl := Except.ok.inj (ho.symm.trans ha)
    exact hf
  · rintro ⟨⟨o, ho⟩, hf⟩
    refine ⟨o, ho, ?_⟩
    cases o with
    | none => exact safe_pure _
    | some a => exact hf a ho

theorem run_bind_eq_some {b : β} :
    (x >>= f).run = .ok (some b) ↔ ∃ a, x.run = .ok (some a) ∧ (f a).run = .ok (some b) := by
  rw [OptionT.run_bind, Option.elimM, bind_eq_ok]
  constructor
  · rintro ⟨o, ho, hf⟩
    cases o with
    | none => cases Except.ok.inj hf
    | some a => exact ⟨a, ho, hf⟩
  · rintro ⟨a, ha, hf⟩
    exact ⟨some a, ha, hf⟩

theorem run_guard {p : Prop} [Decidable p] :
    (guard p : OptionT Checked Unit).run = .ok (if p then some () else none) := by
  unfold guard
  split <;> rfl

theorem run_guard_bind {p : Prop} [Decidable p] {f : Unit → OptionT Checked α} :
    (guard p >>= f).run = if p then (f ()).run else .ok none := by
  rw [OptionT.run_bind, Option.elimM, run_guard]
  split <;> rfl

theorem run_guard_bind_eq_some {p : Prop} [Decidable p] {f : Unit → OptionT Checked α} {a : α} :
    (guard p >>= f).run = .ok (some a) ↔ p ∧ (f ()).run = .ok (some a) := by
  rw [run_guard_bind]
  split
  · next hp => exact ⟨fun h ↦ ⟨hp, h⟩, And.right⟩
  · next hp => exact ⟨nofun, fun h ↦ absurd h.1 hp⟩

end Find

/-! ### Operations -/

/-- The sum of numbers of `w` bits. -/
def add (w a b : ℕ) : Checked ℕ :=
  if a + b < 2 ^ w then .ok (a + b) else .error .overflow

/-- The product of numbers of `w` bits. -/
def mul (w a b : ℕ) : Checked ℕ :=
  if a * b < 2 ^ w then .ok (a * b) else .error .overflow

def sub (a b : ℕ) : Checked ℕ :=
  if b ≤ a then .ok (a - b) else .error .overflow

/-- A sum of 64 bits, or the largest number where it does not fit. -/
def satAdd (a b : ℕ) : ℕ :=
  min (a + b) (2 ^ 64 - 1)

/-- The bit `i` of a number of `w` bits, `1 << i`. -/
def bit (w i : ℕ) : Checked ℕ :=
  if i < w then .ok (2 ^ i) else .error .shift

/-- `l[i]` -/
def index (l : List α) (i : ℕ) : Checked α :=
  match l[i]? with
  | some a => .ok a
  | none => .error .index

/-- `l[a..z]` -/
def slice (l : List α) (a z : ℕ) : Checked (List α) :=
  if a ≤ z ∧ z ≤ l.length then .ok ((l.drop a).take (z - a)) else .error .index

theorem add_of_lt {w a b : ℕ} (h : a + b < 2 ^ w) : add w a b = .ok (a + b) := if_pos h

theorem add_eq_ok {w a b c : ℕ} : add w a b = .ok c ↔ a + b < 2 ^ w ∧ a + b = c := by
  unfold add
  split
  · next h => simp [h]
  · next h => simp [h]

theorem mul_of_lt {w a b : ℕ} (h : a * b < 2 ^ w) : mul w a b = .ok (a * b) := if_pos h

theorem mul_eq_ok {w a b c : ℕ} : mul w a b = .ok c ↔ a * b < 2 ^ w ∧ a * b = c := by
  unfold mul
  split
  · next h => simp [h]
  · next h => simp [h]

theorem sub_of_le {a b : ℕ} (h : b ≤ a) : sub a b = .ok (a - b) := if_pos h

theorem bit_of_lt {w i : ℕ} (h : i < w) : bit w i = .ok (2 ^ i) := if_pos h

theorem bit_eq_error {w i : ℕ} (h : w ≤ i) : bit w i = .error .shift := if_neg (by omega)

theorem index_of_lt {l : List α} {i : ℕ} (h : i < l.length) : index l i = .ok l[i] := by
  unfold index
  rw [List.getElem?_eq_getElem h]

theorem index_of_getElem? {l : List α} {i : ℕ} {a : α} (h : l[i]? = some a) :
    index l i = .ok a := by
  unfold index
  rw [h]

theorem slice_of_le {l : List α} {a z : ℕ} (haz : a ≤ z) (hz : z ≤ l.length) :
    slice l a z = .ok ((l.drop a).take (z - a)) :=
  if_pos ⟨haz, hz⟩

/-! ### Numbers in memory -/

/-- The number whose bytes are given, the lowest first. -/
def ofLE (bs : List UInt8) : ℕ :=
  Nat.ofDigits 256 (bs.map UInt8.toNat)

/-- The number whose bytes are given, the highest first. -/
def ofBE (bs : List UInt8) : ℕ :=
  ofLE bs.reverse

theorem ofLE_lt (bs : List UInt8) : ofLE bs < 256 ^ bs.length := by
  have h := Nat.ofDigits_lt_base_pow_length (b := 256) (l := bs.map UInt8.toNat) (by decide)
    fun d hd ↦ by
      obtain ⟨b, -, rfl⟩ := List.mem_map.1 hd
      exact b.toNat_lt
  rwa [List.length_map] at h

theorem ofBE_lt (bs : List UInt8) : ofBE bs < 256 ^ bs.length := by
  have h := ofLE_lt bs.reverse
  rwa [List.length_reverse] at h

/-- The `n` bytes of a number, the lowest first. -/
def toLE (n v : ℕ) : List UInt8 :=
  (List.range n).map fun i ↦ UInt8.ofNat (v / 256 ^ i)

@[simp] theorem length_toLE (n v : ℕ) : (toLE n v).length = n := by
  simp [toLE]

theorem toLE_succ (n v : ℕ) : toLE (n + 1) v = UInt8.ofNat v :: toLE n (v / 256) := by
  simp only [toLE, List.range_succ_eq_map, List.map_cons, List.map_map, pow_zero, Nat.div_one]
  refine congrArg _ (List.map_congr_left fun i _ ↦ ?_)
  simp only [Function.comp_apply, Nat.succ_eq_add_one, pow_succ', Nat.div_div_eq_div_mul]

theorem ofLE_cons (b : UInt8) (bs : List UInt8) : ofLE (b :: bs) = b.toNat + 256 * ofLE bs := by
  simp [ofLE, Nat.ofDigits_cons]

/-- Reading back what was written gives the number without what did not fit. -/
theorem ofLE_toLE (n v : ℕ) : ofLE (toLE n v) = v % 256 ^ n := by
  induction n generalizing v with
  | zero => simp [toLE, ofLE, Nat.mod_one]
  | succ n ih =>
    rw [toLE_succ, ofLE_cons, ih, pow_succ', Nat.mod_mul, UInt8.toNat_ofNat']

/-- The bytes of a slice, at most as many as a signed number of 64 bits can count. -/
structure Slice where
  bytes : List UInt8
  length_lt : bytes.length < 2 ^ 63

namespace Slice

def nil : Slice := ⟨[], by decide⟩

/-- A slice of a slice, or none. -/
def get (s : Slice) (a z : ℕ) : Option Slice :=
  if a ≤ z ∧ z ≤ s.bytes.length then
    some ⟨(s.bytes.drop a).take (z - a), by
      have := s.length_lt
      rw [List.length_take, List.length_drop]
      omega⟩
  else none

end Slice

end Checked
