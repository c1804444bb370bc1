import Mathlib.Order.Nat

/-!
# Readings that depend on what they consume

A reading of an input may find nothing, and what it finds has a size: the number of elements of the
input that it takes. `Consumes` compares a reading of two inputs. What is found in the first one is
found in the second one too, if they agree as far as its size.

The rules follow a reading that looks how many elements there are and goes on with at least `lo` of
them.
-/

namespace Checked

variable {α β γ : Type}

/-- Both inputs have `n` elements, and the first `n` are the same. -/
structure Agree (n : ℕ) (p p' : List β) : Prop where
  le : n ≤ p.length
  le' : n ≤ p'.length
  eq : ∀ i < n, p'[i]? = p[i]?

namespace Agree

variable {n m : ℕ} {p p' : List β}

theorem mono (h : Agree n p p') (hm : m ≤ n) : Agree m p p' :=
  ⟨hm.trans h.le, hm.trans h.le', fun i hi ↦ h.eq i (hi.trans_le hm)⟩

theorem of_take (hle : n ≤ p.length) (hle' : n ≤ p'.length) (h : p'.take n = p.take n) :
    Agree n p p' := by
  refine ⟨hle, hle', fun i hi ↦ ?_⟩
  rw [← List.getElem?_take_of_lt hi, h, List.getElem?_take_of_lt hi]

theorem take_eq (h : Agree n p p') : p'.take n = p.take n := by
  refine List.ext_getElem? fun i ↦ ?_
  rw [List.getElem?_take, List.getElem?_take]
  split
  · next hi => exact h.eq i hi
  · rfl

theorem drop (h : Agree n p p') (m : ℕ) : Agree (n - m) (p.drop m) (p'.drop m) := by
  refine ⟨?_, ?_, fun i hi ↦ ?_⟩
  · rw [List.length_drop]
    exact Nat.sub_le_sub_right h.le m
  · rw [List.length_drop]
    exact Nat.sub_le_sub_right h.le' m
  · rw [List.getElem?_drop, List.getElem?_drop]
    exact h.eq _ (by omega)

end Agree

/-- What is found takes at least `lo` elements, and the same is found in an input with these
elements. -/
def Consumes (size : α → ℕ) (p p' : List β) (lo : ℕ) (o o' : Option α) : Prop :=
  ∀ a, o = some a → lo ≤ size a ∧ size a ≤ p.length ∧ (Agree (size a) p p' → o' = some a)

namespace Consumes

variable {size : α → ℕ} {p p' : List β} {lo k : ℕ} {o o' : Option α}

theorem none : Consumes size p p' lo .none o' := nofun

theorem done {a a' : α} (hsize : size a = lo) (hlo : lo ≤ p.length)
    (h : Agree lo p p' → a' = a) : Consumes size p p' lo (some a) (some a') := by
  intro b hb
  obtain rfl := Option.some.inj hb
  subst hsize
  exact ⟨le_rfl, hlo, fun hagree ↦ congrArg some (h hagree)⟩

theorem raise (hlo : lo ≤ k) (h : Consumes size p p' k o o') : Consumes size p p' lo o o' := by
  intro a ha
  obtain ⟨hk, hle, hsame⟩ := h a ha
  exact ⟨hlo.trans hk, hle, hsame⟩

theorem congr {o'' : Option α} (heq : Agree lo p p' → o' = o'') (h : Consumes size p p' lo o o'') :
    Consumes size p p' lo o o' := by
  intro a ha
  obtain ⟨hlo, hle, hsame⟩ := h a ha
  exact ⟨hlo, hle, fun hagree ↦ (heq (hagree.mono hlo)).trans (hsame hagree)⟩

/-- A choice that the elements so far decide. -/
theorem ite {q q' : Prop} [Decidable q] [Decidable q'] {b b' : Option α}
    (hq : Agree lo p p' → (q' ↔ q)) (h : q → Consumes size p p' lo o o')
    (hb : ¬q → Consumes size p p' lo b b') :
    Consumes size p p' lo (if q then o else b) (if q' then o' else b') := by
  by_cases hyes : q
  · rw [if_pos hyes]
    exact (h hyes).congr fun hagree ↦ if_pos ((hq hagree).2 hyes)
  · rw [if_neg hyes]
    exact (hb hyes).congr fun hagree ↦ if_neg fun hq' ↦ hyes ((hq hagree).1 hq')

/-- A choice that has nothing to do with the input. -/
theorem ite_const {q : Prop} [Decidable q] {b b' : Option α} (h : q → Consumes size p p' lo o o')
    (hb : ¬q → Consumes size p p' lo b b') :
    Consumes size p p' lo (if q then o else b) (if q then o' else b') :=
  ite (fun _ ↦ Iff.rfl) h hb

/-- A reading that is given up if there are fewer than `k` elements. -/
theorem bound {q q' : Prop} [Decidable q] [Decidable q'] (hlo : lo ≤ k)
    (hq : ¬q → k ≤ p.length) (hq' : k ≤ p'.length → ¬q')
    (h : k ≤ p.length → Consumes size p p' k o o') :
    Consumes size p p' lo (if q then .none else o) (if q' then .none else o') := by
  by_cases hyes : q
  · rw [if_pos hyes]
    exact none
  · rw [if_neg hyes]
    exact ((h (hq hyes)).congr fun hagree ↦ if_neg (hq' hagree.le')).raise hlo

theorem bind {size' : γ → ℕ} {f f' : α → Option γ} (h : Consumes size p p' lo o o')
    (hf : ∀ a, size a ≤ p.length → Consumes size' p p' (size a) (f a) (f' a)) :
    Consumes size' p p' lo (o.bind f) (o'.bind f') := by
  cases o with
  | none => exact none
  | some a =>
    obtain ⟨hlo, hle, hsame⟩ := h a rfl
    exact ((hf a hle).congr fun hagree ↦ by rw [hsame hagree]; rfl).raise hlo

end Consumes

end Checked
