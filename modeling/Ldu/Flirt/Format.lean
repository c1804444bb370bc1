import Ldu.Flirt.Sig
import Ldu.Text.Binary

/-!
# The database format

A database is stored as the text `FDB1`, the toolchain and the signatures, each behind its length;
what a record holds is stored likewise. What `serialize` writes `deserialize` reads back, whatever
follows it (`deserialize_serialize`), as long as every length fits its field. A toolchain of
`2 ^ 32` bytes does not (`deserialize_longToolchain`).
-/

namespace Ldu

namespace Flirt

open Checked Utf8 Binary

/-! ### Writing -/

def serializeRef (r : UInt16 × String) : List UInt8 :=
  toLE 2 r.1.toNat ++ putText 2 r.2

def serializeSig (s : FuncSig) : List UInt8 :=
  putText 2 s.name ++ (s.pat ++ (toLE 4 s.mask.toNat ++ ([s.plen] ++ ([s.crcLen] ++
    (toLE 2 s.crc.toNat ++ (toLE 4 s.fullLen.toNat ++
      (toLE 2 s.refs.length ++ s.refs.flatMap serializeRef)))))))

/-- `FDB1` -/
def magic : List UInt8 :=
  [0x46, 0x44, 0x42, 0x31]

/-- `serialize` -/
def serialize (toolchain : String) (sigs : List FuncSig) : List UInt8 :=
  magic ++ (putText 4 toolchain ++ (toLE 4 sigs.length ++ sigs.flatMap serializeSig))

/-! ### Reading -/

def getRef : Get (UInt16 × String) := do
  let off ← getInt 2
  let nm ← getText 2
  return (UInt16.ofNat off, nm)

def getSig : Get FuncSig := do
  let name ← getText 2
  let pat ← getBytes 32
  let mask ← getInt 4
  let plen ← getByte
  let crcLen ← getByte
  let crc ← getInt 2
  let fullLen ← getInt 4
  let nrefs ← getInt 2
  let refs ← getTimes getRef nrefs
  return {
    pat := pat.1, length_pat := pat.2, mask := UInt32.ofNat mask, plen, crcLen
    crc := UInt16.ofNat crc, fullLen := UInt32.ofNat fullLen, name, refs }

def getDb : Get SigDb := do
  let toolchain ← getText 4
  let count ← getInt 4
  let sigs ← getTimes getSig count
  return SigDb.new toolchain sigs

/-- `deserialize` -/
def deserialize (buf : List UInt8) : Option SigDb :=
  if buf.take 4 = magic then (getDb buf 4).map Prod.fst else none

/-! ### What is read back -/

theorem reads_getRef {r : UInt16 × String} (hr : (encode r.2).length < 2 ^ 16) :
    Reads getRef (serializeRef r) r := by
  refine (reads_getInt r.1.toNat_lt).bind ?_
  have h := (reads_getText 2 hr).map fun nm ↦ (UInt16.ofNat r.1.toNat, nm)
  simpa only [UInt16.ofNat_toNat] using h

/-- Every length that a record holds fits its field. -/
structure FuncSig.Fits (s : FuncSig) : Prop where
  name : (encode s.name).length < 2 ^ 16
  refs : s.refs.length < 2 ^ 16
  ref : ∀ r ∈ s.refs, (encode r.2).length < 2 ^ 16

theorem reads_getSig {s : FuncSig} (hs : s.Fits) : Reads getSig (serializeSig s) s := by
  refine (reads_getText 2 hs.name).bind ((reads_getBytes _ s.length_pat).bind ?_)
  refine (reads_getInt s.mask.toNat_lt).bind ((reads_getByte s.plen).bind ?_)
  refine (reads_getByte s.crcLen).bind ((reads_getInt s.crc.toNat_lt).bind ?_)
  refine (reads_getInt s.fullLen.toNat_lt).bind ((reads_getInt hs.refs).bind ?_)
  have h := (reads_getTimes s.refs fun r hr ↦ reads_getRef (hs.ref r hr)).map fun refs ↦
    { s with
      mask := UInt32.ofNat s.mask.toNat, crc := UInt16.ofNat s.crc.toNat
      fullLen := UInt32.ofNat s.fullLen.toNat, refs }
  simpa only [UInt32.ofNat_toNat, UInt16.ofNat_toNat] using h

/-- What is written is read back, whatever follows it. -/
theorem deserialize_serialize (toolchain : String) (sigs : List FuncSig) (rest : List UInt8)
    (htoolchain : (encode toolchain).length < 2 ^ 32) (hcount : sigs.length < 2 ^ 32)
    (hsigs : ∀ s ∈ sigs, s.Fits) :
    ∃ db, deserialize (serialize toolchain sigs ++ rest) = some db ∧
      db.toolchain = toolchain ∧ db.sigs = sigs := by
  have hdb : Reads getDb
      (putText 4 toolchain ++ (toLE 4 sigs.length ++ sigs.flatMap serializeSig))
      (SigDb.new toolchain sigs) :=
    (reads_getText 4 htoolchain).bind <| (reads_getInt hcount).bind <|
      (reads_getTimes sigs fun s hs ↦ reads_getSig (hsigs s hs)).map (SigDb.new toolchain)
  refine ⟨SigDb.new toolchain sigs, ?_, SigDb.toolchain_new _ _, SigDb.sigs_new _ _⟩
  have h := hdb magic rest
  rw [deserialize, serialize, if_pos (by simp [magic])]
  exact congrArg (Option.map Prod.fst) h

/-- A function of six bytes that refers to `exit`. -/
def shortSig : FuncSig where
  pat := List.replicate 6 0x90 ++ List.replicate 26 0
  length_pat := by decide
  mask := 0
  plen := 6
  crcLen := 0
  crc := 0
  fullLen := 6
  name := "abort"
  refs := [(1, "exit")]

theorem deserialize_serialize_shortSig :
    ∃ db, deserialize (serialize "msvc" [shortSig] ++ [0xFF]) = some db ∧
      db.toolchain = "msvc" ∧ db.sigs = [shortSig] :=
  deserialize_serialize "msvc" [shortSig] [0xFF] (by decide +kernel) (by decide)
    (List.forall_mem_singleton.2 ⟨by decide +kernel, by decide, by decide +kernel⟩)

/-! ### A toolchain that is too long -/

theorem refs_lt_of_getSig {buf : List UInt8} {p q : ℕ} {s : FuncSig}
    (h : getSig buf p = some (s, q)) : s.refs.length < 2 ^ 16 := by
  rw [getSig] at h
  obtain ⟨_, _, -, h⟩ := bind_eq_some.1 h
  obtain ⟨_, _, -, h⟩ := bind_eq_some.1 h
  obtain ⟨_, _, -, h⟩ := bind_eq_some.1 h
  obtain ⟨_, _, -, h⟩ := bind_eq_some.1 h
  obtain ⟨_, _, -, h⟩ := bind_eq_some.1 h
  obtain ⟨_, _, -, h⟩ := bind_eq_some.1 h
  obtain ⟨_, _, -, h⟩ := bind_eq_some.1 h
  obtain ⟨nrefs, _, hnrefs, h⟩ := bind_eq_some.1 h
  obtain ⟨refs, _, hrefs, h⟩ := bind_eq_some.1 h
  obtain ⟨rfl, -⟩ := Prod.mk.inj (Option.some.inj h)
  exact (length_of_getTimes hrefs).1.trans_lt (lt_of_getInt hnrefs)

/-- Whatever is read back has the beginning of the toolchain that its length, cut to 32 bits,
says. -/
theorem toolchain_deserialize {toolchain : String} {sigs : List FuncSig} {rest : List UInt8}
    {db : SigDb} (h : deserialize (serialize toolchain sigs ++ rest) = some db) :
    db.toolchain =
      fromUtf8Lossy ((encode toolchain).take ((encode toolchain).length % 2 ^ 32)) := by
  have htext := reads_getText_take 4 toolchain magic
    ((encode toolchain).drop ((encode toolchain).length % 256 ^ 4) ++
      (toLE 4 sigs.length ++ sigs.flatMap serializeSig) ++ rest)
  have hbuf : serialize toolchain sigs ++ rest =
      magic ++ (toLE 4 (encode toolchain).length ++
        (encode toolchain).take ((encode toolchain).length % 256 ^ 4)) ++
      ((encode toolchain).drop ((encode toolchain).length % 256 ^ 4) ++
        (toLE 4 sigs.length ++ sigs.flatMap serializeSig) ++ rest) := by
    simp only [serialize, putText, List.append_assoc]
    rw [← List.append_assoc (List.take _ _), List.take_append_drop]
  rw [← hbuf] at htext
  rw [deserialize, serialize, if_pos (by simp [magic]), ← serialize] at h
  -- Nothing after the toolchain changes it.
  obtain ⟨⟨db, p⟩, hdb, rfl⟩ := Option.map_eq_some_iff.1 h
  rw [getDb] at hdb
  obtain ⟨tc, q, htc, hdb⟩ := bind_eq_some.1 hdb
  obtain ⟨count, q', -, hdb⟩ := bind_eq_some.1 hdb
  obtain ⟨sigs', q'', -, hdb⟩ := bind_eq_some.1 hdb
  obtain ⟨rfl, -⟩ := Prod.mk.inj (Option.some.inj hdb)
  obtain ⟨rfl, -⟩ := Prod.mk.inj (Option.some.inj (htc.symm.trans htext))
  exact SigDb.toolchain_new _ _

/-- What is read is a database whose records have at most as many references as 16 bits count. -/
theorem of_deserialize {buf : List UInt8} {db : SigDb} (h : deserialize buf = some db) :
    ∃ toolchain sigs, db = SigDb.new toolchain sigs ∧ ∀ s ∈ sigs, s.refs.length < 2 ^ 16 := by
  unfold deserialize at h
  split at h
  · obtain ⟨⟨db, p⟩, hdb, rfl⟩ := Option.map_eq_some_iff.1 h
    rw [getDb] at hdb
    obtain ⟨tc, q, -, hdb⟩ := bind_eq_some.1 hdb
    obtain ⟨count, q', -, hdb⟩ := bind_eq_some.1 hdb
    obtain ⟨sigs, q'', hsigs, hdb⟩ := bind_eq_some.1 hdb
    obtain ⟨rfl, -⟩ := Prod.mk.inj (Option.some.inj hdb)
    refine ⟨tc, sigs, rfl, fun s hs ↦ ?_⟩
    obtain ⟨_, _, hsig⟩ := (length_of_getTimes hsigs).2 s hs
    exact refs_lt_of_getSig hsig
  · cases h

/-- A toolchain of `2 ^ 32` characters. -/
def longToolchain : String :=
  String.ofList (List.replicate (2 ^ 32) 'a')

theorem length_encode_replicate (n : ℕ) :
    (encode (String.ofList (List.replicate n 'a'))).length = n := by
  rw [encode, String.toList_ofList, List.length_flatMap, List.map_replicate, List.sum_replicate]
  simp [Char.utf8Size]

/-- It is read back as no text at all. -/
theorem deserialize_longToolchain :
    ¬∃ db, deserialize (serialize longToolchain [] ++ []) = some db ∧
      db.toolchain = longToolchain ∧ db.sigs = [] := by
  rintro ⟨db, hdb, htoolchain, -⟩
  have h := toolchain_deserialize hdb
  have hlength : (encode longToolchain).length = 2 ^ 32 := length_encode_replicate _
  rw [htoolchain, hlength, Nat.mod_self, List.take_zero] at h
  have hempty : encode longToolchain = [] := by
    rw [h]
    rfl
  rw [hempty] at hlength
  exact absurd hlength (by decide)

end Flirt

end Ldu
