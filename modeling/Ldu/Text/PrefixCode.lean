import Mathlib.Data.List.Basic
import Mathlib.Data.BitVec

/-!
# Texts that end by themselves

Texts that can be split off the front of a longer text in one way only: a text up to a terminator
it does not contain (`append_cons_inj`), and a text in brackets that closes at its end
(`Closes.append_inj`). Digits contain neither brackets nor separators.
-/

namespace Ldu

variable {α : Type} {c : α} {s s' r r' : List α}

/-- A text that ends before the first separator, or with the text itself. -/
theorem append_inj_of_stop {p : α → Prop} (hs : ∀ x ∈ s, ¬p x) (hs' : ∀ x ∈ s', ¬p x)
    (hr : ∀ x ∈ r.head?, p x) (hr' : ∀ x ∈ r'.head?, p x) (h : s ++ r = s' ++ r') :
    s = s' ∧ r = r' := by
  induction s generalizing s' with
  | nil =>
    cases s' with
    | nil => exact ⟨rfl, h⟩
    | cons d s' =>
      rw [List.nil_append] at h
      exact absurd (hr d (by simp [h])) (hs' d (by simp))
  | cons d s ih =>
    cases s' with
    | nil =>
      rw [List.nil_append] at h
      exact absurd (hr' d (by simp [← h])) (hs d (by simp))
    | cons d' s' =>
      obtain ⟨rfl, htail⟩ := List.cons.inj h
      obtain ⟨rfl, hrest⟩ := ih (fun x hx ↦ hs x (by simp [hx])) (fun x hx ↦ hs' x (by simp [hx]))
        htail
      exact ⟨rfl, hrest⟩

/-- A text without the terminator ends at the terminator. -/
theorem append_cons_inj (hs : c ∉ s) (hs' : c ∉ s') (h : s ++ c :: r = s' ++ c :: r') :
    s = s' ∧ r = r' := by
  obtain ⟨rfl, hr⟩ := append_inj_of_stop (p := (· = c)) (fun x hx hc ↦ hs (hc ▸ hx))
    (fun x hx hc ↦ hs' (hc ▸ hx)) (by simp) (by simp) h
  exact ⟨rfl, (List.cons.inj hr).2⟩

/-- In the text, no terminator stands before a separator. -/
def unbroken [DecidableEq α] (c : α) (p : α → Bool) : List α → Bool
  | d :: e :: s => !(d == c && p e) && unbroken c p (e :: s)
  | _ => true

theorem unbroken_tail [DecidableEq α] {p : α → Bool} {d : α} (h : unbroken c p (d :: s) = true) :
    unbroken c p s = true := by
  cases s with
  | nil => rfl
  | cons e s =>
    rw [unbroken, Bool.and_eq_true] at h
    exact h.2

/-- What follows a terminated text is not a longer text of this kind. -/
theorem not_unbroken_of_cons [DecidableEq α] {p : α → Bool} (hc : p c = false)
    (hs : unbroken c p (c :: s) = true) (hr : ∀ x ∈ (s ++ c :: r).head?, p x = true) : False := by
  cases s with
  | nil =>
    rw [hr c rfl] at hc
    cases hc
  | cons e s =>
    rw [unbroken, hr e rfl] at hs
    simp at hs

/-- A text may contain its terminator, if what follows the text begins with a separator and the
terminator stands before none in the text. -/
theorem unbroken_append_inj [DecidableEq α] {p : α → Bool} (hc : p c = false)
    (hs : unbroken c p s = true) (hs' : unbroken c p s' = true) (hr : ∀ x ∈ r.head?, p x = true)
    (hr' : ∀ x ∈ r'.head?, p x = true) (h : s ++ c :: r = s' ++ c :: r') : s = s' ∧ r = r' := by
  induction s generalizing s' with
  | nil =>
    cases s' with
    | nil => exact ⟨rfl, (List.cons.inj h).2⟩
    | cons d s' =>
      obtain ⟨rfl, rfl⟩ := List.cons.inj h
      exact (not_unbroken_of_cons hc hs' hr).elim
  | cons d s ih =>
    cases s' with
    | nil =>
      obtain ⟨rfl, htail⟩ := List.cons.inj h
      rw [← htail] at hr'
      exact (not_unbroken_of_cons hc hs hr').elim
    | cons d' s' =>
      obtain ⟨rfl, htail⟩ := List.cons.inj h
      obtain ⟨rfl, hrest⟩ := ih (unbroken_tail hs) (unbroken_tail hs') htail
      exact ⟨rfl, hrest⟩

/-! ### Brackets -/

/-- From inside `d` brackets, the text closes the last one at its end and not before. -/
def closes : ℕ → List Char → Bool
  | 0, s => s.isEmpty
  | _ + 1, [] => false
  | d + 1, c :: s => closes (if c = '(' then d + 2 else if c = ')' then d else d + 1) s

/-- A text in brackets. -/
def isGroup : List Char → Bool
  | '(' :: s => closes 1 s
  | _ => false

theorem closes_append_inj {d : ℕ} {s s' r r' : List Char} (hs : closes d s = true)
    (hs' : closes d s' = true) (h : s ++ r = s' ++ r') : s = s' ∧ r = r' := by
  induction s generalizing d s' with
  | nil =>
    cases d with
    | zero =>
      cases s' with
      | nil => exact ⟨rfl, h⟩
      | cons => cases hs'
    | succ d => cases hs
  | cons c s ih =>
    cases d with
    | zero => cases hs
    | succ d =>
      cases s' with
      | nil => cases hs'
      | cons c' s' =>
        obtain ⟨rfl, htail⟩ := List.cons.inj h
        obtain ⟨rfl, hr⟩ := ih hs hs' htail
        exact ⟨rfl, hr⟩

/-- A text in brackets ends by itself. -/
theorem isGroup_append_inj {s s' r r' : List Char} (hs : isGroup s = true)
    (hs' : isGroup s' = true) (h : s ++ r = s' ++ r') : s = s' ∧ r = r' := by
  unfold isGroup at hs hs'
  split at hs
  · split at hs'
    · obtain ⟨rfl, hr⟩ := closes_append_inj hs hs' (List.cons.inj h).2
      exact ⟨rfl, hr⟩
    · cases hs'
  · cases hs

/-! ### Digits -/

/-- What holds of all digits holds of the characters of a numeral. -/
theorem forall_mem_toDigits {p : Char → Prop} (h : ∀ d < 16, p (Nat.digitChar d)) {b : ℕ}
    (hb : 1 < b) (hb' : b ≤ 16) (n : ℕ) : ∀ c ∈ Nat.toDigits b n, p c := by
  intro c hc
  induction n using Nat.strongRecOn with
  | ind n ih =>
    rw [Nat.toDigits_eq_if hb] at hc
    split at hc
    · rw [List.mem_singleton.1 hc]
      exact h n (by omega)
    · rcases List.mem_append.1 hc with hc | hc
      · exact ih _ (Nat.div_lt_self (by omega) hb) hc
      · rw [List.mem_singleton.1 hc]
        exact h _ ((Nat.mod_lt n (by omega)).trans_le hb')

theorem digitChar_injOn : ∀ d < 16, ∀ d' < 16, Nat.digitChar d = Nat.digitChar d' → d = d' := by
  decide

/-- Different numbers have different numerals. -/
theorem toDigits_injective {b : ℕ} (hb : 1 < b) (hb' : b ≤ 16) :
    Function.Injective (Nat.toDigits b) := by
  intro m n h
  induction m using Nat.strongRecOn generalizing n with
  | ind m ih =>
    have hshort : ∀ k, b.toDigits k ≠ [] := fun k ↦ Nat.toDigits_ne_nil
    rw [Nat.toDigits_eq_if hb (n := m), Nat.toDigits_eq_if hb (n := n)] at h
    rcases lt_or_ge m b with hm | hm
    · rw [if_pos hm] at h
      rcases lt_or_ge n b with hn | hn
      · rw [if_pos hn] at h
        exact digitChar_injOn m (by omega) n (by omega) (List.cons.inj h).1
      · rw [if_neg (by omega)] at h
        exact absurd (List.append_inj' (List.nil_append _ |>.trans h) rfl).1.symm (hshort _)
    · rw [if_neg (by omega)] at h
      rcases lt_or_ge n b with hn | hn
      · rw [if_pos hn] at h
        exact absurd (List.append_inj' (h.trans (List.nil_append _).symm) rfl).1 (hshort _)
      · rw [if_neg (by omega)] at h
        obtain ⟨hq, hr⟩ := List.append_inj' h rfl
        have hdiv := ih _ (Nat.div_lt_self (by omega) hb) hq
        have hmod := digitChar_injOn _ ((Nat.mod_lt m (by omega)).trans_le hb') _
          ((Nat.mod_lt n (by omega)).trans_le hb') (List.cons.inj hr).1
        rw [← Nat.div_add_mod m b, ← Nat.div_add_mod n b, hdiv, hmod]

end Ldu
