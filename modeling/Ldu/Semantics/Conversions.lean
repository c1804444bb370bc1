import Ldu.Semantics.Eval

/-!
# The conversions of C

What C does to the operands of an operator before it computes: numbers narrower than `int` are
promoted to it, and two operands are brought to a common type. A type is the width and the
signedness of a node; a width below four bytes, also an unknown one, is promoted.
-/

namespace Ldu

namespace Ty

/-- The type after integer promotion. -/
def promoted (t : Ty) : Ty :=
  if t.isFloat = true ∨ 4 ≤ t.width then t else ⟨4, false, false⟩

/-- The type two operands are converted to. -/
def usual (a b : Ty) : Ty :=
  if a.isFloat || b.isFloat then
    ⟨max (if a.isFloat then a.width else 0) (if b.isFloat then b.width else 0), false, true⟩
  else if a.promoted.width = b.promoted.width then
    { a.promoted with isUnsigned := a.promoted.isUnsigned || b.promoted.isUnsigned }
  else if a.promoted.width < b.promoted.width then b.promoted
  else a.promoted

theorem promoted_isFloat (t : Ty) : t.promoted.isFloat = t.isFloat := by
  unfold promoted
  split
  · rfl
  · next h => cases hf : t.isFloat <;> simp_all

theorem usual_isFloat (a b : Ty) : (usual a b).isFloat = (a.isFloat || b.isFloat) := by
  unfold usual
  split
  · next h => rw [h]
  · next h =>
    rw [Bool.not_eq_true] at h
    obtain ⟨ha, hb⟩ := Bool.or_eq_false_iff.1 h
    rw [h]
    split
    · exact (promoted_isFloat a).trans ha
    · split
      · exact (promoted_isFloat b).trans hb
      · exact (promoted_isFloat a).trans ha

end Ty

/-- A value of one type, converted to another one. -/
def World.convert {M E : Type} (W : World M E) (t from_ : Ty) (v : Val) : Val :=
  if from_ = t then v else W.castOp t from_ v

end Ldu
