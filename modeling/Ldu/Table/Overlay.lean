import Mathlib.Data.List.Basic
import Mathlib.Data.Nat.Notation

/-!
# Writing over a list

Data is written over a list from a position on; several writes are made one after the other. At each
position there is what the last write that covers it put there (`getElem?_overlay_of_last`), or what
was there before (`getElem?_overlay_of_forall`).
-/

namespace Ldu

variable {α β : Type}

/-- The list with `d` written over it from position `pos` on. -/
def overwrite (l : List α) (pos : ℕ) (d : List α) : List α :=
  l.take pos ++ d ++ l.drop (pos + d.length)

variable {l d : List α} {pos i : ℕ}

@[simp] theorem overwrite_nil : overwrite l pos [] = l := by
  simp [overwrite]

theorem length_overwrite (h : pos + d.length ≤ l.length) :
    (overwrite l pos d).length = l.length := by
  simp only [overwrite, List.length_append, List.length_take, List.length_drop]
  omega

theorem getElem?_overwrite_inside (h : pos + d.length ≤ l.length) (hi : pos ≤ i)
    (hi' : i < pos + d.length) : (overwrite l pos d)[i]? = d[i - pos]? := by
  have hlen : (l.take pos).length = pos := by
    rw [List.length_take]
    omega
  rw [overwrite, List.append_assoc, List.getElem?_append_right (by omega), hlen,
    List.getElem?_append_left (by omega)]

theorem getElem?_overwrite_outside (h : pos + d.length ≤ l.length)
    (hi : i < pos ∨ pos + d.length ≤ i) : (overwrite l pos d)[i]? = l[i]? := by
  have hlen : (l.take pos).length = pos := by
    rw [List.length_take]
    omega
  rw [overwrite, List.append_assoc]
  obtain hi | hi := hi
  · rw [List.getElem?_append_left (by omega), List.getElem?_take_of_lt hi]
  · rw [List.getElem?_append_right (by omega), hlen, List.getElem?_append_right (by omega),
      List.getElem?_drop]
    congr 1
    omega

/-! ### Several writes -/

section Overlay

variable {start : β → ℕ} {data : β → List α} {s : β} {pre post ws : List β}

/-- Write over the list, one after the other. -/
def overlay (start : β → ℕ) (data : β → List α) (l : List α) (ws : List β) : List α :=
  ws.foldl (fun l w ↦ overwrite l (start w) (data w)) l

/-- A write puts something at the position. -/
def WritesAt (start : β → ℕ) (data : β → List α) (i : ℕ) (w : β) : Prop :=
  start w ≤ i ∧ i < start w + (data w).length

instance (i : ℕ) (w : β) : Decidable (WritesAt start data i w) :=
  inferInstanceAs (Decidable (_ ∧ _))

/-- Every write that writes anything stays inside the list. -/
def WritesFit (start : β → ℕ) (data : β → List α) (n : ℕ) (ws : List β) : Prop :=
  ∀ w ∈ ws, data w = [] ∨ start w + (data w).length ≤ n

theorem overwrite_eq_of_writesFit {w : β} (h : data w = [] ∨ start w + (data w).length ≤ l.length) :
    (overwrite l (start w) (data w)).length = l.length ∧
      ∀ i, ¬WritesAt start data i w → (overwrite l (start w) (data w))[i]? = l[i]? := by
  obtain h | h := h
  · rw [h, overwrite_nil]
    exact ⟨rfl, fun _ _ ↦ rfl⟩
  · refine ⟨length_overwrite h, fun i hi ↦ getElem?_overwrite_outside h ?_⟩
    rw [WritesAt] at hi
    omega

theorem length_overlay (hfits : WritesFit start data l.length ws) :
    (overlay start data l ws).length = l.length := by
  induction ws generalizing l with
  | nil => rfl
  | cons w ws ih =>
    have hlen := (overwrite_eq_of_writesFit (hfits w (.head _))).1
    rw [overlay, List.foldl_cons, ← overlay, ih, hlen]
    rw [hlen]
    exact fun v hv ↦ hfits v (.tail _ hv)

/-- Where nothing is written, the list stays as it is. -/
theorem getElem?_overlay_of_forall (hfits : WritesFit start data l.length ws)
    (hws : ∀ w ∈ ws, ¬WritesAt start data i w) : (overlay start data l ws)[i]? = l[i]? := by
  induction ws generalizing l with
  | nil => rfl
  | cons w ws ih =>
    obtain ⟨hlen, hget⟩ := overwrite_eq_of_writesFit (hfits w (.head _))
    rw [overlay, List.foldl_cons, ← overlay, ih, hget i (hws w (.head _))]
    · rw [hlen]
      exact fun v hv ↦ hfits v (.tail _ hv)
    · exact fun v hv ↦ hws v (.tail _ hv)

/-- The last write at a position is the one that counts. -/
theorem getElem?_overlay_of_last (hfits : WritesFit start data l.length (pre ++ s :: post))
    (hs : WritesAt start data i s) (hpost : ∀ w ∈ post, ¬WritesAt start data i w) :
    (overlay start data l (pre ++ s :: post))[i]? = (data s)[i - start s]? := by
  have hpre : (overlay start data l pre).length = l.length :=
    length_overlay fun w hw ↦ hfits w (List.mem_append_left _ hw)
  have hfit : start s + (data s).length ≤ (overlay start data l pre).length := by
    rw [hpre]
    refine (hfits s (by simp)).resolve_left fun h ↦ ?_
    rw [WritesAt, h, List.length_nil] at hs
    omega
  have happend : overlay start data l (pre ++ s :: post) =
      overlay start data (overwrite (overlay start data l pre) (start s) (data s)) post := by
    rw [overlay, List.foldl_append, List.foldl_cons]
    rfl
  rw [happend, getElem?_overlay_of_forall _ hpost, getElem?_overwrite_inside hfit hs.1 hs.2]
  rw [length_overwrite hfit, hpre]
  exact fun w hw ↦ hfits w (by simp [hw])

end Overlay

end Ldu
