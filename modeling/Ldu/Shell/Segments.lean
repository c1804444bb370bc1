import Ldu.Checked.Arith
import Ldu.Listing.Engine

/-!
# Segments and their bytes

An address belongs to a segment when it is inside of it, and segments are apart when no address
belongs to two of them. The bytes of a segment are read from the image.
-/

namespace Ldu

namespace Shell

open Listing (Segment)

/-- The address is in the segment. -/
def Within (s : Segment) (rva : ℕ) : Prop :=
  s.rva ≤ rva ∧ rva < s.rva + s.size

/-- No address is in two of the segments. -/
def Apart (segs : List Segment) : Prop :=
  segs.Pairwise fun s t ↦ ∀ rva, ¬(Within s rva ∧ Within t rva)

theorem eq_of_within (hapart : Apart segs) {s t : Segment} (hs : s ∈ segs) (ht : t ∈ segs)
    {rva : ℕ} (hsw : Within s rva) (htw : Within t rva) : s = t := by
  by_contra hne
  have hsymm : Std.Symm fun s t : Segment ↦ ∀ rva, ¬(Within s rva ∧ Within t rva) :=
    ⟨fun _ _ h rva ⟨ht, hs⟩ ↦ h rva ⟨hs, ht⟩⟩
  exact hapart.forall hs ht hne rva ⟨hsw, htw⟩

/-- The bytes at an address, as far as the image goes. -/
def readBytes (image : List UInt8) (rva len : ℕ) : List UInt8 :=
  if image.length ≤ rva then []
  else
    let stop := min (Checked.satAdd rva len) image.length
    (image.drop rva).take (stop - rva)

theorem length_readBytes_le (image : List UInt8) (rva len : ℕ) :
    (readBytes image rva len).length ≤ len := by
  unfold readBytes
  split
  · exact Nat.zero_le _
  · dsimp only
    rw [List.length_take, Checked.satAdd]
    omega

end Shell

end Ldu
