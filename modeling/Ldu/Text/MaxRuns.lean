import Mathlib.Data.List.Basic
import Mathlib.Order.Nat
import Mathlib.Tactic.Ring

/-!
# Maximal runs

Characters of `d` positions each start where `p` holds and do not overlap. A run is a sequence of
characters one behind the other, and a scan takes the runs from left to right, in pieces of at most
`limit` characters (`pieces`).

Every run is cut where it starts and then after every `limit` characters, and nowhere else
(`mem_pieces`); the pieces come in order (`pieces_pairwise`).
-/

namespace Ldu

/-- The number of characters one behind the other, at most `limit`. -/
def runLength (p : ℕ → Bool) (d : ℕ) : ℕ → ℕ → ℕ
  | 0, _ => 0
  | limit + 1, i => if p i then runLength p d limit (i + d) + 1 else 0

/-- A run of `k` characters from position `a` on that goes on neither before nor behind. -/
structure MaxRun (p : ℕ → Bool) (d a k : ℕ) : Prop where
  pos : 0 < k
  mem : ∀ j < k, p (a + d * j)
  start : ∀ b, b + d = a → ¬p b
  stop : ¬p (a + d * k)

/-- The pieces from position `i` on, each with its length. -/
def pieces (p : ℕ → Bool) (d limit n : ℕ) : ℕ → ℕ → List (ℕ × ℕ)
  | 0, _ => []
  | fuel + 1, i =>
    if i + d ≤ n then
      if p i then
        (i, runLength p d limit i) :: pieces p d limit n fuel (i + d * runLength p d limit i)
      else pieces p d limit n fuel (i + 1)
    else []

/-- Characters have some positions, do not overlap and lie below `n`. -/
structure Chars (p : ℕ → Bool) (d n : ℕ) : Prop where
  pos : 0 < d
  apart : ∀ {i j}, p i → p j → i < j → i + d ≤ j
  bound : ∀ {i}, p i → i + d ≤ n

section Runs

variable {p : ℕ → Bool} {d n limit a a' i j k l l' s s' : ℕ}

/-- A piece of a run starts behind a multiple of `limit` characters. -/
def Piece (p : ℕ → Bool) (d limit i k : ℕ) : Prop :=
  ∃ a l m, MaxRun p d a l ∧ limit * m < l ∧ i = a + d * (limit * m) ∧ k = min limit (l - limit * m)

/-! ### Lengths -/

theorem runLength_pos (d : ℕ) (hlimit : 0 < limit) (hi : p i) : 0 < runLength p d limit i := by
  obtain ⟨limit, rfl⟩ := Nat.exists_eq_add_of_lt hlimit
  rw [Nat.zero_add, runLength, if_pos hi]
  exact Nat.succ_pos _

theorem MaxRun.runLength_eq (h : MaxRun p d a l) (hs : s ≤ l) :
    runLength p d limit (a + d * s) = min limit (l - s) := by
  induction limit generalizing s with
  | zero => simp [runLength]
  | succ limit ih =>
    obtain rfl | hlt := hs.eq_or_lt
    · rw [runLength, if_neg h.stop, Nat.sub_self, Nat.min_zero]
    · rw [runLength, if_pos (h.mem s hlt), Nat.add_assoc, ← Nat.mul_succ, ih hlt]
      omega

/-! ### Runs -/

namespace MaxRun

/-- Two runs with a character in common are the same. -/
theorem unique (h : MaxRun p d a l) (h' : MaxRun p d a' l') (hs : s < l)
    (hs' : s' < l') (heq : a + d * s = a' + d * s') : a = a' ∧ l = l' := by
  -- A run that starts inside of another one does not start.
  have hstart {a a' l' s s' : ℕ} (hrun : ∀ b, b + d = a → ¬p b) (h' : MaxRun p d a' l')
      (hs' : s' < l') (heq : a + d * s = a' + d * s') : s' ≤ s := by
    by_contra hlt
    obtain ⟨r, rfl⟩ := Nat.exists_eq_add_of_lt (not_le.1 hlt)
    refine hrun (a' + d * r) ?_ (h'.mem r (by omega))
    rw [Nat.mul_add, Nat.mul_add] at heq
    omega
  have hle := hstart h.start h' hs' heq
  have hge := hstart h'.start h hs heq.symm
  obtain rfl := Nat.le_antisymm hle hge
  obtain rfl : a = a' := by omega
  refine ⟨rfl, ?_⟩
  rcases lt_trichotomy l l' with hlt | heq | hlt
  · exact absurd (h'.mem l hlt) h.stop
  · exact heq
  · exact absurd (h.mem l' hlt) h'.stop

end MaxRun

namespace Chars

variable (hp : Chars p d n)
include hp

/-- The characters between the ends of a run belong to it. -/
theorem exists_eq_of_between (h : MaxRun p d a l) (hi : p i) (hlo : a ≤ i) (hhi : i < a + d * l) :
    ∃ s < l, i = a + d * s := by
  have hdiv := Nat.div_add_mod (i - a) d
  have hmod := Nat.mod_lt (i - a) hp.pos
  have hlt : (i - a) / d < l := Nat.div_lt_of_lt_mul (by omega)
  refine ⟨(i - a) / d, hlt, ?_⟩
  by_contra hne
  have := hp.apart (h.mem _ hlt) hi (by omega)
  omega

/-- Every character belongs to a run. -/
theorem exists_maxRun (hi : p i) : ∃ a l s, MaxRun p d a l ∧ s < l ∧ i = a + d * s := by
  induction i using Nat.strong_induction_on with
  | _ i ih =>
    by_cases hbefore : ∃ b, b + d = i ∧ p b
    · obtain ⟨b, rfl, hb⟩ := hbefore
      obtain ⟨a, l, s, hrun, hs, rfl⟩ := ih b (Nat.lt_add_of_pos_right hp.pos) hb
      rw [Nat.add_assoc, ← Nat.mul_succ] at hi ⊢
      have hne : s + 1 ≠ l := fun heq ↦ hrun.stop (heq ▸ hi)
      exact ⟨a, l, s + 1, hrun, by omega, rfl⟩
    · have hstop : ∃ k, ¬p (i + d * k) := ⟨n, fun h ↦ by
        have := hp.bound h
        have := Nat.le_mul_of_pos_left n hp.pos
        have := hp.pos
        omega⟩
      refine ⟨i, Nat.find hstop, 0, ⟨?_, ?_, ?_, Nat.find_spec hstop⟩, ?_, by simp⟩
      · exact (Nat.find_pos hstop).2 (not_not.2 (by simpa using hi))
      · exact fun j hj ↦ not_not.1 (Nat.find_min hstop hj)
      · exact fun b hb hpb ↦ hbefore ⟨b, hb, hpb⟩
      · exact (Nat.find_pos hstop).2 (not_not.2 (by simpa using hi))

end Chars

/-! ### Pieces -/

theorem Piece.mem (h : Piece p d limit i k) (hj : j < k) : p (i + d * j) := by
  obtain ⟨a, l, m, hrun, hlt, rfl, rfl⟩ := h
  rw [Nat.add_assoc, ← Nat.mul_add]
  exact hrun.mem _ (by omega)

theorem Piece.holds (h : Piece p d limit i k) : p i := by
  obtain ⟨a, l, m, hrun, hlt, rfl, -⟩ := h
  exact hrun.mem _ hlt

/-- A run that is not over at a position is cut there. -/
def AtCut (p : ℕ → Bool) (d limit i : ℕ) : Prop :=
  ∀ a l, MaxRun p d a l → a < i → i < a + d * l → ∃ m, i = a + d * (limit * m)

theorem AtCut.succ (hcut : AtCut p d limit i) (hi : ¬p i) : AtCut p d limit (i + 1) := by
  intro a l hrun hlo hhi
  rcases (Nat.lt_succ_iff.1 hlo).eq_or_lt with rfl | hlt
  · exact absurd (hrun.mem 0 hrun.pos) (by simpa using hi)
  · obtain ⟨m, rfl⟩ := hcut a l hrun hlt (by omega)
    refine absurd (hrun.mem (limit * m) ?_) hi
    exact Nat.lt_of_mul_lt_mul_left (a := d) (by omega)

namespace Chars

variable (hp : Chars p d n)
include hp

/-- A scan starts a new piece where a character is at its cursor. -/
theorem piece_of_atCut (hcut : AtCut p d limit i) (hi : p i) :
    Piece p d limit i (runLength p d limit i) := by
  obtain ⟨a, l, s, hrun, hs, rfl⟩ := hp.exists_maxRun hi
  obtain ⟨m, hm⟩ : ∃ m, s = limit * m := by
    rcases Nat.eq_zero_or_pos s with rfl | hpos
    · exact ⟨0, rfl⟩
    · have hmul := Nat.mul_pos hp.pos hpos
      obtain ⟨m, hm⟩ := hcut a l hrun (by omega)
        (Nat.add_lt_add_left (Nat.mul_lt_mul_of_pos_left hs hp.pos) a)
      exact ⟨m, Nat.eq_of_mul_eq_mul_left hp.pos (by omega)⟩
  subst hm
  exact ⟨a, l, m, hrun, hs, rfl, hrun.runLength_eq hs.le⟩

/-- No other piece starts inside of a piece. -/
theorem eq_of_piece_of_lt (h : Piece p d limit i k) (h' : Piece p d limit j l) (hle : i ≤ j)
    (hlt : j < i + d * k) : j = i ∧ l = k := by
  have hj := h'.holds
  obtain ⟨a, l, m, hrun, hm, rfl, rfl⟩ := h
  obtain ⟨a', l', m', hrun', hm', rfl, rfl⟩ := h'
  have hmul : d * min limit (l - limit * m) ≤ d * (l - limit * m) :=
    Nat.mul_le_mul_left d (min_le_right _ _)
  have hmul' : d * min limit (l - limit * m) ≤ d * limit :=
    Nat.mul_le_mul_left d (min_le_left _ _)
  have hend : d * (limit * m) + d * (l - limit * m) = d * l := by
    rw [← Nat.mul_add, Nat.add_sub_of_le hm.le]
  obtain ⟨s, hs, heq⟩ := hp.exists_eq_of_between hrun hj (by omega) (by omega)
  obtain ⟨rfl, rfl⟩ := hrun.unique hrun' hs hm' heq.symm
  obtain rfl : m = m' := by
    have hge : limit * m ≤ limit * m' := Nat.le_of_mul_le_mul_left (by omega) hp.pos
    have hlt : limit * m' < limit * (m + 1) := by
      refine Nat.lt_of_mul_lt_mul_left (a := d) ?_
      rw [Nat.mul_succ, Nat.mul_add]
      omega
    have hlimit : 0 < limit := Nat.pos_of_mul_pos_right (Nat.zero_lt_of_lt hlt)
    exact Nat.le_antisymm (Nat.le_of_mul_le_mul_left hge hlimit)
      (Nat.lt_succ_iff.1 (Nat.lt_of_mul_lt_mul_left hlt))
  exact ⟨rfl, rfl⟩

/-- Where a piece ends, its run is over or cut, and no other one goes on. -/
theorem atCut_add (hlimit : 0 < limit) (h : Piece p d limit i k) :
    AtCut p d limit (i + d * k) := by
  obtain ⟨a, l, m, hrun, hm, rfl, rfl⟩ := h
  intro a' l' hrun' hlo hhi
  -- The last character of the piece belongs to the run that goes on.
  obtain ⟨t, ht⟩ : ∃ t, min limit (l - limit * m) = t + 1 :=
    ⟨min limit (l - limit * m) - 1, by omega⟩
  have hlast : limit * m + t < l := by omega
  have hpos : a + d * (limit * m) + d * (t + 1) = a + d * (limit * m + t) + d := by ring
  rw [ht, hpos] at hlo hhi ⊢
  have hq := hrun.mem _ hlast
  have hle : a' ≤ a + d * (limit * m + t) := by
    by_contra hlt
    have := hp.apart hq (hrun'.mem 0 hrun'.pos) (by simpa using hlt)
    rw [Nat.mul_zero] at this
    omega
  obtain ⟨s, hs, heq⟩ := hp.exists_eq_of_between hrun' hq hle (by omega)
  obtain ⟨rfl, rfl⟩ := hrun.unique hrun' hlast hs heq
  -- So the piece is as long as a piece can be.
  have hmore : limit * m + t + 1 < l := by
    refine Nat.lt_of_mul_lt_mul_left (a := d) ?_
    rw [Nat.mul_succ]
    omega
  refine ⟨m + 1, ?_⟩
  rw [show t = limit - 1 by omega, Nat.mul_succ limit m, ← Nat.add_sub_assoc hlimit,
    Nat.add_assoc, ← Nat.mul_succ, Nat.succ_eq_add_one, Nat.sub_add_cancel (by omega)]

/-- A scan that starts at a cut finds the pieces from there on. -/
theorem mem_pieces_of_atCut (hlimit : 0 < limit) (fuel : ℕ) (hcut : AtCut p d limit i)
    (hfuel : n ≤ i + fuel) :
    (j, k) ∈ pieces p d limit n fuel i ↔ i ≤ j ∧ Piece p d limit j k := by
  induction fuel generalizing i with
  | zero =>
    refine iff_of_false (List.not_mem_nil) fun ⟨hle, h⟩ ↦ ?_
    have := hp.bound h.holds
    have := hp.pos
    omega
  | succ fuel ih =>
    rw [pieces]
    split
    · next hin =>
      split
      · next hi =>
        have hpiece := hp.piece_of_atCut hcut hi
        have hlen := runLength_pos d hlimit hi
        have hmul := Nat.mul_pos hp.pos hlen
        rw [List.mem_cons, ih (hp.atCut_add hlimit hpiece) (by omega), Prod.mk.injEq]
        constructor
        · rintro (⟨rfl, rfl⟩ | ⟨hle, h⟩)
          · exact ⟨le_rfl, hpiece⟩
          · exact ⟨by omega, h⟩
        · rintro ⟨hle, h⟩
          rcases Nat.lt_or_ge j (i + d * runLength p d limit i) with hlt | hge
          · exact .inl (hp.eq_of_piece_of_lt hpiece h hle hlt)
          · exact .inr ⟨hge, h⟩
      · next hi =>
        rw [ih (hcut.succ hi) (by omega)]
        refine and_congr_left fun h ↦ ⟨fun hle ↦ by omega, fun hle ↦ ?_⟩
        rcases hle.eq_or_lt with rfl | hlt
        · exact absurd h.holds hi
        · exact hlt
    · next hout =>
      refine iff_of_false (List.not_mem_nil) fun ⟨hle, h⟩ ↦ ?_
      have := hp.bound h.holds
      omega

/-- A scan from the start finds the pieces of all runs. -/
theorem mem_pieces (hlimit : 0 < limit) :
    (j, k) ∈ pieces p d limit n n 0 ↔ Piece p d limit j k := by
  rw [hp.mem_pieces_of_atCut hlimit n (fun _ _ _ hlt ↦ absurd hlt (Nat.not_lt_zero _)) (by omega)]
  exact and_iff_right (Nat.zero_le _)

end Chars

/-- The pieces come from left to right. -/
theorem pieces_pairwise (hd : 0 < d) (hlimit : 0 < limit) (fuel i : ℕ) :
    (pieces p d limit n fuel i).Pairwise (·.1 < ·.1) ∧
      ∀ x ∈ pieces p d limit n fuel i, i ≤ x.1 := by
  induction fuel generalizing i with
  | zero => exact ⟨List.Pairwise.nil, fun _ h ↦ absurd h List.not_mem_nil⟩
  | succ fuel ih =>
    rw [pieces]
    split
    · split
      · next hi =>
        have hmul := Nat.mul_pos hd (runLength_pos d hlimit hi)
        obtain ⟨hpair, hle⟩ := ih (i + d * runLength p d limit i)
        refine ⟨List.pairwise_cons.2 ⟨fun x hx ↦ ?_, hpair⟩, ?_⟩
        · have := hle x hx
          dsimp only
          omega
        · refine List.forall_mem_cons.2 ⟨le_rfl, fun x hx ↦ ?_⟩
          have := hle x hx
          omega
      · obtain ⟨hpair, hle⟩ := ih (i + 1)
        exact ⟨hpair, fun x hx ↦ Nat.le_of_succ_le (hle x hx)⟩
    · exact ⟨List.Pairwise.nil, fun _ h ↦ absurd h List.not_mem_nil⟩

/-- There are at most as many pieces as steps. -/
theorem length_pieces_le (fuel i : ℕ) : (pieces p d limit n fuel i).length ≤ fuel := by
  induction fuel generalizing i with
  | zero => exact le_rfl
  | succ fuel ih =>
    rw [pieces]
    split
    · split
      · exact Nat.succ_le_succ (ih _)
      · exact (ih _).trans (Nat.le_succ _)
    · exact Nat.zero_le _

end Runs

end Ldu
