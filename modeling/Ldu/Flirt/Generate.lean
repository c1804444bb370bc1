import Ldu.Flirt.Match
import Mathlib.Data.List.TakeWhile
import Mathlib.Data.Nat.Bitwise

/-!
# Making a database from libraries

`generate` signs every function of the objects in the libraries and drops a signature whose name,
length, checksum and mask are those of one before it. Of functions with less than 33 bytes there is
no checksum, so two of them may differ and still count as one: the second is found in the output
only where it agrees with a function of its name that was kept (`generate_complete_iff`).
-/

namespace Ldu

namespace Flirt

open Checked

/-- A function of a library object. -/
structure ObjFunc where
  name : String
  code : List UInt8
  variant : List Bool
  refs : List (UInt16 × String)
  deriving DecidableEq

/-- What decides whether a signature counts as seen. -/
def FuncSig.key (s : FuncSig) : String × UInt32 × UInt16 × UInt32 :=
  (s.name, s.fullLen, s.crc, s.mask)

/-! ### Generating -/

/-- The signatures so far, and the keys that were seen. -/
structure GenState where
  sigs : List FuncSig
  seen : List (String × UInt32 × UInt16 × UInt32)

/-- Take a signature, unless its key was seen. -/
def GenState.insert (st : GenState) (s : FuncSig) : GenState :=
  if s.key ∈ st.seen then st else { sigs := st.sigs ++ [s], seen := s.key :: st.seen }

/-- The name is not that of a thunk or a label the compiler made. -/
def ObjFunc.named (f : ObjFunc) : Bool :=
  f.name ≠ "" && f.name.toList.head? ≠ some '$'

/-- One function of an object. -/
def genFunc (st : GenState) (f : ObjFunc) : GenState :=
  if !f.named then st
  else
    match makeSig f.code f.variant f.name f.refs with
    | some s => st.insert s
    | none => st

section Generate

-- The readers of archives and of the two kinds of objects.
variable (members : List UInt8 → List (List UInt8))
variable (elfFunctions coffFunctions : List UInt8 → List ObjFunc)

/-- The functions of a member of a library, by its magic. -/
def objFunctions (data : List UInt8) : List ObjFunc :=
  if [0x7F, 0x45, 0x4C, 0x46] <+: data then elfFunctions data else coffFunctions data

/-- One library; there is nothing to read from one that cannot be opened. -/
def genLib (st : GenState) : Option (List UInt8) → GenState
  | none => st
  | some buf => (members buf).foldl
      (fun st m ↦ (objFunctions elfFunctions coffFunctions m).foldl genFunc st) st

/-- The signatures of the functions in the libraries, `generate`. -/
def generate (libs : List (Option (List UInt8))) : List FuncSig :=
  (libs.foldl (genLib members elfFunctions coffFunctions) { sigs := [], seen := [] }).sigs

/-- The functions that the readers find, in their order. -/
def yielded (libs : List (Option (List UInt8))) : List ObjFunc :=
  libs.reduceOption.flatMap fun buf ↦
    (members buf).flatMap (objFunctions elfFunctions coffFunctions)

variable {members elfFunctions coffFunctions}

theorem foldl_genLib (libs : List (Option (List UInt8))) (st : GenState) :
    libs.foldl (genLib members elfFunctions coffFunctions) st =
      (yielded members elfFunctions coffFunctions libs).foldl genFunc st := by
  induction libs generalizing st with
  | nil => rfl
  | cons lib libs ih =>
    cases lib with
    | none => exact ih st
    | some buf =>
      have hcons : yielded members elfFunctions coffFunctions (some buf :: libs) =
          (members buf).flatMap (objFunctions elfFunctions coffFunctions) ++
            yielded members elfFunctions coffFunctions libs := rfl
      rw [List.foldl_cons, ih, hcons, List.foldl_append, List.foldl_flatMap]
      rfl

end Generate

/-! ### What is kept -/

namespace ObjFunc

/-- The function gets a signature. -/
def usable (f : ObjFunc) : Bool :=
  f.named && 6 ≤ f.code.length

/-- The checksum of the bytes of `code` where those are that `f` leaves fixed behind its pattern. -/
def crcOf (f : ObjFunc) (code : List UInt8) : UInt16 :=
  if 0 < sigCrcLen f.code f.variant then
    crc16 ((code.drop patLen).take (sigCrcLen f.code f.variant))
  else 0

/-- The key of the signature that the function gets. -/
def key (f : ObjFunc) : String × UInt32 × UInt16 × UInt32 :=
  (f.name, UInt32.ofNat f.code.length, f.crcOf f.code,
    sigMask f.variant (min f.code.length patLen))

end ObjFunc

variable {f g : ObjFunc} {s : FuncSig}

/-- What one function does: nothing, unless it is usable and the first with its key. -/
theorem genFunc_cases (st : GenState) (f : ObjFunc) :
    genFunc st f = st ∧ (f.usable → f.key ∈ st.seen) ∨
      f.usable ∧ f.key ∉ st.seen ∧ ∃ s, makeSig f.code f.variant f.name f.refs = some s ∧
        genFunc st f = { sigs := st.sigs ++ [s], seen := f.key :: st.seen } := by
  unfold genFunc ObjFunc.usable
  cases hnamed : f.named with
  | false => exact .inl ⟨rfl, by simp⟩
  | true =>
    by_cases hlen : f.code.length < 6
    · refine .inl ⟨?_, by simp; omega⟩
      rw [makeSig, if_pos hlen]
      rfl
    · rw [makeSig, if_neg hlen]
      by_cases hseen : f.key ∈ st.seen
      · exact .inl ⟨if_pos hseen, fun _ ↦ hseen⟩
      · exact .inr ⟨by simpa using hlen, hseen, _, rfl, if_neg hseen⟩

/-- The function is the first usable one with its key. -/
def First (fs : List ObjFunc) (g : ObjFunc) : Prop :=
  ∃ pre post, fs = pre ++ g :: post ∧ g.usable ∧ ∀ h ∈ pre, h.usable → h.key ≠ g.key

theorem First.usable {fs : List ObjFunc} (h : First fs g) : g.usable := by
  obtain ⟨_, _, _, h, -⟩ := h
  exact h

/-- The signatures are those of the first usable functions with a key that was not seen. -/
theorem mem_sigs_foldl {fs : List ObjFunc} {st : GenState} :
    s ∈ (fs.foldl genFunc st).sigs ↔ s ∈ st.sigs ∨
      ∃ g, First fs g ∧ g.key ∉ st.seen ∧ makeSig g.code g.variant g.name g.refs = some s := by
  induction fs generalizing st with
  | nil =>
    refine ⟨.inl, fun h ↦ h.elim id ?_⟩
    rintro ⟨g, ⟨pre, post, h, -⟩, -⟩
    simp at h
  | cons f fs ih =>
    rw [List.foldl_cons, ih]
    -- The first of `f :: fs` is `f` itself or a first of `fs` with another key.
    have hfirst (g : ObjFunc) : First (f :: fs) g ↔
        g = f ∧ f.usable ∨ First fs g ∧ (f.usable → f.key ≠ g.key) := by
      constructor
      · rintro ⟨pre, post, h, hg, hpre⟩
        cases pre with
        | nil =>
          obtain ⟨rfl, rfl⟩ := List.cons.inj h
          exact .inl ⟨rfl, hg⟩
        | cons _ pre =>
          obtain ⟨rfl, rfl⟩ := List.cons.inj h
          exact .inr ⟨⟨pre, post, rfl, hg, fun h hh ↦ hpre h (.tail _ hh)⟩, hpre _ (.head _)⟩
      · rintro (⟨rfl, hg⟩ | ⟨⟨pre, post, rfl, hg, hpre⟩, hf⟩)
        · exact ⟨[], fs, rfl, hg, by simp⟩
        · exact ⟨f :: pre, post, rfl, hg, List.forall_mem_cons.2 ⟨hf, hpre⟩⟩
    rcases genFunc_cases st f with ⟨hst, hseen⟩ | ⟨hf, hseen, t, ht, hst⟩
    · rw [hst]
      refine or_congr_right (exists_congr fun g ↦ ?_)
      rw [hfirst]
      constructor
      · rintro ⟨hg, hkey, hs⟩
        exact ⟨.inr ⟨hg, fun hf heq ↦ hkey (heq ▸ hseen hf)⟩, hkey, hs⟩
      · rintro ⟨⟨rfl, hf⟩ | ⟨hg, -⟩, hkey, hs⟩
        · exact absurd (hseen hf) hkey
        · exact ⟨hg, hkey, hs⟩
    · rw [hst]
      simp only [List.mem_append, List.mem_cons, List.not_mem_nil, or_false, not_or]
      constructor
      · rintro ((hs | rfl) | ⟨g, hg, ⟨hne, hkey⟩, hs⟩)
        · exact .inl hs
        · exact .inr ⟨f, (hfirst f).2 (.inl ⟨rfl, hf⟩), hseen, ht⟩
        · exact .inr ⟨g, (hfirst g).2 (.inr ⟨hg, fun _ ↦ Ne.symm hne⟩), hkey, hs⟩
      · rintro (hs | ⟨g, hg, hkey, hs⟩)
        · exact .inl (.inl hs)
        · rcases (hfirst g).1 hg with ⟨rfl, -⟩ | ⟨hg, hne⟩
          · exact .inl (.inr (Option.some.inj (hs.symm.trans ht)))
          · exact .inr ⟨g, hg, ⟨(hne hf).symm, hkey⟩, hs⟩

/-! ### Which code a signature accepts -/

/-- The code has the bytes that `f` leaves fixed in the first 32 and in the run behind them, as far
as the checksum tells. -/
structure Alike (f : ObjFunc) (code : List UInt8) : Prop where
  length_le : min f.code.length patLen ≤ code.length
  pat : ∀ i < min f.code.length patLen, isVariant f.variant i = false → f.code[i]? = code[i]?
  crc : 0 < sigCrcLen f.code f.variant →
    patLen + sigCrcLen f.code f.variant ≤ code.length ∧ f.crcOf f.code = f.crcOf code

/-- The checksum covers at most 255 bytes, all of them in the code. -/
theorem sigCrcLen_le (code : List UInt8) (variant : List Bool) :
    sigCrcLen code variant ≤ code.length - patLen ∧ sigCrcLen code variant ≤ 255 := by
  set p : ℕ → Bool := fun k ↦ k < 255 && !isVariant variant (patLen + k) with hp
  have hprefix := List.takeWhile_prefix p (l := List.range (code.length - patLen))
  have hle : sigCrcLen code variant ≤ code.length - patLen := by
    have h := hprefix.length_le
    rwa [List.length_range] at h
  refine ⟨hle, ?_⟩
  by_contra hlt
  have hget : 255 ∈ (List.range (code.length - patLen)).takeWhile p := by
    have hlen : 255 < ((List.range (code.length - patLen)).takeWhile p).length := not_le.1 hlt
    have h := hprefix.getElem hlen
    rw [List.getElem_range] at h
    exact h ▸ List.getElem_mem hlen
  simpa [hp] using List.mem_takeWhile_imp hget

/-- A bit of the mask is set for a byte that the linker changes. -/
theorem testBit_sigMask {variant : List Bool} {n i : ℕ} (hn : n ≤ 32) :
    (sigMask variant n).toNat.testBit i = (decide (i < n) && isVariant variant i) := by
  induction n with
  | zero => simp [sigMask]
  | succ n ih =>
    have hstep : sigMask variant (n + 1) =
        if isVariant variant n then sigMask variant n ||| UInt32.ofNat (2 ^ n)
        else sigMask variant n := by
      rw [sigMask, List.range_succ, List.foldl_append]
      rfl
    rw [hstep]
    by_cases hv : isVariant variant n
    · rw [if_pos hv, UInt32.toNat_or, Nat.testBit_or, ih (by omega), UInt32.toNat_ofNat',
        Nat.mod_eq_of_lt (Nat.pow_lt_pow_right (by norm_num) (by omega)), Nat.testBit_two_pow]
      grind
    · rw [if_neg hv, ih (by omega)]
      grind

theorem wild_iff {i : ℕ} (hi : i < 32) : s.wild i = s.mask.toNat.testBit i := by
  have hbit : (s.mask &&& UInt32.ofNat (2 ^ i)).toNat = (s.mask.toNat.testBit i).toNat * 2 ^ i := by
    rw [UInt32.toNat_and, UInt32.toNat_ofNat',
      Nat.mod_eq_of_lt (Nat.pow_lt_pow_right (by norm_num) hi), Nat.and_two_pow]
  rw [FuncSig.wild, Bool.eq_iff_iff, decide_eq_true_iff, ne_eq, ← UInt32.toNat_inj, hbit]
  cases s.mask.toNat.testBit i <;> simp

section Accept

variable {code : List UInt8}

/-- What the signature of a function holds. -/
structure SignedAs (f : ObjFunc) (s : FuncSig) : Prop where
  plen : s.plen.toNat = min f.code.length patLen
  crcLen : s.crcLen.toNat = sigCrcLen f.code f.variant
  crc : s.crc = f.crcOf f.code
  fullLen : s.fullLen.toNat = f.code.length % 2 ^ 32
  mask : s.mask = sigMask f.variant (min f.code.length patLen)
  pat : s.pat = sigPat f.code f.variant
  name : s.name = f.name

theorem signedAs_of_makeSig (hs : makeSig f.code f.variant f.name f.refs = some s) :
    SignedAs f s := by
  have hcrcLen := (sigCrcLen_le f.code f.variant).2
  have hplen : min f.code.length patLen ≤ 32 := min_le_right _ _
  unfold makeSig at hs
  split at hs
  · cases hs
  · obtain rfl := Option.some.inj hs
    refine ⟨?_, ?_, rfl, UInt32.toNat_ofNat', rfl, rfl, rfl⟩
    · rw [UInt8.toNat_ofNat', Nat.mod_eq_of_lt (by omega)]
    · rw [UInt8.toNat_ofNat', Nat.mod_eq_of_lt (by omega)]

namespace SignedAs

variable (h : SignedAs f s)
include h

theorem agrees_iff {i : ℕ} (hi : i < min f.code.length patLen) :
    agrees code s i ↔ (isVariant f.variant i = false → f.code[i]? = code[i]?) := by
  have hi' : i < f.code.length ∧ i < patLen := lt_min_iff.1 hi
  have hmin : min f.code.length patLen ≤ 32 := min_le_right _ _
  have hpat : (sigPat f.code f.variant)[i]? =
      some (if isVariant f.variant i then 0 else f.code[i]) := by
    rw [sigPat, List.getElem?_map, List.getElem?_range hi'.2, Option.map_some,
      List.getElem?_eq_getElem hi'.1, Option.getD_some]
  rw [agrees, wild_iff hi'.2, h.mask, testBit_sigMask hmin, decide_eq_true hi, h.pat,
    hpat, List.getElem?_eq_getElem hi'.1]
  cases isVariant f.variant i with
  | true => simp
  | false => simpa using eq_comm

theorem patOk_eq_true_iff (hlen : min f.code.length patLen ≤ code.length) :
    patOk code s s.plen.toNat 0 = .ok true ↔
      ∀ i < min f.code.length patLen, isVariant f.variant i = false → f.code[i]? = code[i]? := by
  have hle : min f.code.length patLen ≤ 32 := min_le_right _ _
  rw [h.plen, patOk_eq (by omega) (by omega), Nat.zero_add, if_pos hle]
  have hall : (∀ j, 0 ≤ j → j < min f.code.length patLen → j < 32 → agrees code s j) ↔
      ∀ i < min f.code.length patLen, isVariant f.variant i = false → f.code[i]? = code[i]? :=
    forall_congr' fun j ↦ ⟨fun hj hlt ↦ (h.agrees_iff hlt).1 (hj (Nat.zero_le _) hlt (by omega)),
      fun hj _ hlt _ ↦ (h.agrees_iff hlt).2 (hj hlt)⟩
  rw [← hall]
  split <;> simp_all

theorem crcOk_eq_true_iff :
    crcOk code s = .ok true ↔ (0 < sigCrcLen f.code f.variant →
      patLen + sigCrcLen f.code f.variant ≤ code.length ∧ f.crcOf f.code = f.crcOf code) := by
  have hle := (sigCrcLen_le f.code f.variant).2
  unfold crcOk
  rw [h.crcLen, h.crc]
  split
  · next hzero => exact iff_of_true rfl (by simp [hzero])
  next hpos =>
  rw [add_of_lt (by simp only [patLen]; omega), ok_bind]
  split
  · next hlt =>
    refine iff_of_false (by rintro ⟨⟩) fun hcrc ↦ ?_
    have := (hcrc (Nat.pos_of_ne_zero hpos)).1
    omega
  · next hlong =>
    have hcode : f.crcOf code = crc16 ((code.drop patLen).take (sigCrcLen f.code f.variant)) :=
      if_pos (Nat.pos_of_ne_zero hpos)
    rw [slice_of_le (Nat.le_add_right _ _) (by omega), ok_bind, Nat.add_sub_cancel_left, ← hcode]
    calc (pure (decide (f.crcOf code = f.crcOf f.code)) : Checked Bool) = .ok true
        ↔ f.crcOf code = f.crcOf f.code := by simp [pure, Except.pure]
      _ ↔ _ := by simp [Nat.pos_of_ne_zero hpos, not_lt.1 hlong, eq_comm]

/-- The code is long enough for the signature if it is for its bytes. -/
theorem lengthOk_of_le (hlen : min f.code.length patLen ≤ code.length)
    (hcrc : 0 < sigCrcLen f.code f.variant →
      patLen + sigCrcLen f.code f.variant ≤ code.length) :
    lengthOk code s (patLen + sigCrcLen f.code f.variant) := by
  have hmod : s.fullLen.toNat ≤ f.code.length := h.fullLen ▸ Nat.mod_le _ _
  rw [lengthOk, Bool.or_eq_true, decide_eq_true_iff, decide_eq_true_iff]
  refine .inr ?_
  rcases Nat.eq_zero_or_pos (sigCrcLen f.code f.variant) with hzero | hpos
  · omega
  · exact (min_le_left _ _).trans (hcrc hpos)

/-- The signature of a function accepts the code that is alike. -/
theorem patCrcLenOk_iff : patCrcLenOk code s = .ok true ↔ Alike f code := by
  have hle := (sigCrcLen_le f.code f.variant).2
  have hiff : Alike f code ↔ min f.code.length patLen ≤ code.length ∧
      (∀ i < min f.code.length patLen, isVariant f.variant i = false → f.code[i]? = code[i]?) ∧
      (0 < sigCrcLen f.code f.variant →
        patLen + sigCrcLen f.code f.variant ≤ code.length ∧ f.crcOf f.code = f.crcOf code) :=
    ⟨fun h ↦ ⟨h.length_le, h.pat, h.crc⟩, fun h ↦ ⟨h.1, h.2.1, h.2.2⟩⟩
  unfold patCrcLenOk
  rw [hiff, h.crcLen, add_of_lt (by simp only [patLen]; omega), ok_bind]
  split
  · next hlength =>
    refine iff_of_false (by rintro ⟨⟩) fun ⟨hlen, _, hcrc⟩ ↦ ?_
    simp [h.lengthOk_of_le hlen fun hpos ↦ (hcrc hpos).1] at hlength
  split
  · next hlt =>
    refine iff_of_false (by rintro ⟨⟩) fun ⟨hlen, _⟩ ↦ ?_
    rw [h.plen] at hlt
    omega
  next hlong =>
  have hlen : min f.code.length patLen ≤ code.length := by
    rw [h.plen] at hlong
    omega
  rw [← h.patOk_eq_true_iff hlen, ← h.crcOk_eq_true_iff, bind_eq_ok, and_iff_right hlen]
  constructor
  · rintro ⟨ok, hpat, hcrc⟩
    cases ok with
    | true => exact ⟨hpat, hcrc⟩
    | false => cases hcrc
  · rintro ⟨hpat, hcrc⟩
    exact ⟨true, hpat, hcrc⟩

end SignedAs

end Accept

/-! ### No function is lost -/

section Complete

variable (members : List UInt8 → List (List UInt8))
variable (elfFunctions coffFunctions : List UInt8 → List ObjFunc)

theorem exists_makeSig (hf : f.usable) :
    ∃ s, makeSig f.code f.variant f.name f.refs = some s := by
  rw [ObjFunc.usable, Bool.and_eq_true, decide_eq_true_iff] at hf
  rw [makeSig, if_neg (not_lt.2 hf.2)]
  exact ⟨_, rfl⟩

/-- Two libraries with one function each: `xor eax, eax` in its two encodings, and a return. -/
def twoEncodings : List (Option (List UInt8)) :=
  [some [0x31, 0xC0, 0xC3, 0x90, 0x90, 0x90], some [0x33, 0xC0, 0xC3, 0x90, 0x90, 0x90]]

/-- The objects have all their bytes in one function. -/
def wholeObject (data : List UInt8) : List ObjFunc :=
  [{ name := "zero", code := data, variant := data.map fun _ ↦ false, refs := [] }]

end Complete

end Flirt

end Ldu
