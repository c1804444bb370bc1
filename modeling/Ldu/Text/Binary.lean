import Ldu.Checked.Arith
import Ldu.Text.Utf8

/-!
# Reading binary formats

A reader takes what it reads from a buffer at a position, which moves on, and finds nothing where
the buffer ends. `Reads` says that a reader gives back what was written, wherever it stands; formats
are put together from numbers, texts and repetitions, and read back part by part (`Reads.bind`).

`Local` says that a reader sees only what lies before the position it leaves. A local reader finds
nothing in a beginning of what it reads (`Reads.eq_of_prefix`).
-/

namespace Binary

open Checked Utf8

/-- A text behind its length. -/
def putText (width : ℕ) (s : String) : List UInt8 :=
  toLE width (encode s).length ++ encode s

/-! ### Readers -/

/-- What is read from a buffer at a position, which moves on; none at the end of the buffer. The
position stays within the buffer, so that no sum of it and a length overflows. -/
abbrev Get := ReaderT (List UInt8) (StateT ℕ Option)

/-- The next `n` bytes, with their number. -/
def getBytes (n : ℕ) : Get { bs : List UInt8 // bs.length = n } := fun buf p ↦
  if h : p + n ≤ buf.length then
    some (⟨(buf.drop p).take n, by rw [List.length_take, List.length_drop]; omega⟩, p + n)
  else none

/-- A number of `n` bytes, `get_u16` and `get_u32`. -/
def getInt (n : ℕ) : Get ℕ := do
  let bs ← getBytes n
  return ofLE bs.1

/-- A text behind its length. -/
def getText (width : ℕ) : Get String := do
  let n ← getInt width
  let bs ← getBytes n
  return fromUtf8Lossy bs.1

/-- The same `n` times. -/
def getTimes {α : Type} (x : Get α) : ℕ → Get (List α)
  | 0 => return []
  | n + 1 => do
    let a ← x
    let as ← getTimes x n
    return a :: as

def getByte : Get UInt8 := do
  let bs ← getBytes 1
  return bs.1.head (List.ne_nil_of_length_pos (by rw [bs.2]; exact Nat.one_pos))

/-- A sequence that finds something has found something in both parts. -/
theorem bind_eq_some {α β : Type} {x : Get α} {f : α → Get β} {buf : List UInt8} {p : ℕ}
    {r : β × ℕ} :
    (x >>= f) buf p = some r ↔ ∃ a q, x buf p = some (a, q) ∧ f a buf q = some r := by
  change (x buf p >>= fun a ↦ f a.1 buf a.2) = some r ↔ _
  rw [Option.bind_eq_bind, Option.bind_eq_some_iff, Prod.exists]

theorem bind_apply {α β : Type} (x : Get α) (f : α → Get β) (buf : List UInt8) (p : ℕ) :
    (x >>= f) buf p = (x buf p).bind fun r ↦ f r.1 buf r.2 := rfl

theorem getInt_apply (n : ℕ) (buf : List UInt8) (p : ℕ) :
    getInt n buf p =
      if p + n ≤ buf.length then some (ofLE ((buf.drop p).take n), p + n) else none := by
  rw [getInt, bind_apply, getBytes]
  split <;> rfl

theorem getBytes_bind_apply {β : Type} {n : ℕ} (f : { bs : List UInt8 // bs.length = n } → Get β)
    {buf : List UInt8} {p : ℕ} (h : p + n ≤ buf.length) :
    (getBytes n >>= f) buf p =
      f ⟨(buf.drop p).take n, by rw [List.length_take, List.length_drop]; omega⟩ buf (p + n) := by
  rw [bind_apply, getBytes, dif_pos h]
  rfl

theorem getInt_bind_apply {β : Type} (n : ℕ) (f : ℕ → Get β) (buf : List UInt8) (p : ℕ) :
    (getInt n >>= f) buf p =
      if p + n ≤ buf.length then f (ofLE ((buf.drop p).take n)) buf (p + n) else none := by
  rw [bind_apply, getInt_apply]
  split <;> rfl

theorem getByte_bind_apply {β : Type} (f : UInt8 → Get β) (buf : List UInt8) (p : ℕ) :
    (getByte >>= f) buf p = if h : p < buf.length then f buf[p] buf (p + 1) else none := by
  rw [bind_apply, getByte, bind_apply, getBytes]
  by_cases h : p < buf.length
  · have hhead : ∀ hne, ((buf.drop p).take 1).head hne = buf[p] := fun hne ↦ by
      simp only [List.head_take, List.head_drop]
    rw [dif_pos (Nat.succ_le_of_lt h), dif_pos h]
    change f (((buf.drop p).take 1).head _) buf (p + 1) = _
    rw [hhead]
  · rw [dif_neg fun hle ↦ h (Nat.lt_of_succ_le hle), dif_neg h]
    rfl

theorem guard_bind_apply {β : Type} {c : Prop} [Decidable c] (f : Unit → Get β) (buf : List UInt8)
    (p : ℕ) : (guard c >>= f) buf p = if c then f () buf p else none := by
  unfold guard
  split <;> rfl

theorem length_of_getTimes {α : Type} {x : Get α} {n : ℕ} {buf : List UInt8} {p q : ℕ}
    {as : List α} (h : getTimes x n buf p = some (as, q)) :
    as.length = n ∧ ∀ a ∈ as, ∃ p' q', x buf p' = some (a, q') := by
  induction n generalizing p as with
  | zero =>
    obtain ⟨rfl, -⟩ := Prod.mk.inj (Option.some.inj h)
    exact ⟨rfl, nofun⟩
  | succ n ih =>
    rw [getTimes] at h
    obtain ⟨a, p', ha, h⟩ := bind_eq_some.1 h
    obtain ⟨as', q', has, h⟩ := bind_eq_some.1 h
    obtain ⟨rfl, rfl⟩ := Prod.mk.inj (Option.some.inj h)
    obtain ⟨hlength, hmem⟩ := ih has
    exact ⟨by rw [List.length_cons, hlength], List.forall_mem_cons.2 ⟨⟨p, p', ha⟩, hmem⟩⟩

theorem lt_of_getInt {n v : ℕ} {buf : List UInt8} {p q : ℕ} (h : getInt n buf p = some (v, q)) :
    v < 256 ^ n := by
  rw [getInt] at h
  obtain ⟨bs, _, -, h⟩ := bind_eq_some.1 h
  obtain ⟨rfl, -⟩ := Prod.mk.inj (Option.some.inj h)
  have hlt := ofLE_lt bs.1
  rwa [bs.2] at hlt

/-! ### What is read back -/

section Reads

variable {α β : Type} {x : Get α} {f : α → Get β} {bs bs' : List UInt8} {a : α} {b : β}

/-- Reading `bs` gives `a`, wherever they stand. -/
def Reads (x : Get α) (bs : List UInt8) (a : α) : Prop :=
  ∀ pre rest, x (pre ++ bs ++ rest) pre.length = some (a, pre.length + bs.length)

theorem Reads.bind (hx : Reads x bs a) (hf : Reads (f a) bs' b) :
    Reads (x >>= f) (bs ++ bs') b := by
  intro pre rest
  have hx := hx pre (bs' ++ rest)
  have hf := hf (pre ++ bs) rest
  rw [List.length_append] at hf
  rw [← List.append_assoc] at hx
  change (x _ _ >>= fun p ↦ f p.1 _ p.2) = _
  rw [← List.append_assoc, hx]
  change f a _ _ = _
  rw [hf, List.length_append, Nat.add_assoc]

theorem reads_pure (a : α) : Reads (pure a) [] a := fun _ _ ↦ rfl

theorem reads_guard_bind {c : Prop} [Decidable c] {g : Unit → Get β} (hc : c)
    (hg : Reads (g ()) bs b) :
    Reads (guard c >>= g) bs b := by
  intro pre rest
  rw [guard_bind_apply, if_pos hc]
  exact hg pre rest

theorem Reads.map (hx : Reads x bs a) (g : α → β) :
    Reads (x >>= fun a ↦ pure (g a)) bs (g a) := by
  have h := hx.bind (f := fun a ↦ pure (g a)) (reads_pure (g a))
  rwa [List.append_nil] at h

theorem reads_getBytes (bs : List UInt8) {n : ℕ} (h : bs.length = n) :
    Reads (getBytes n) bs ⟨bs, h⟩ := by
  intro pre rest
  have hle : pre.length + n ≤ (pre ++ bs ++ rest).length := by
    simp only [List.length_append]
    omega
  have htake : ((pre ++ bs ++ rest).drop pre.length).take n = bs := by
    rw [List.append_assoc, List.drop_left, List.take_left' h]
  simp only [getBytes, dif_pos hle, htake, h]

/-- What does not fit is lost. -/
theorem reads_getInt_mod (n v : ℕ) : Reads (getInt n) (toLE n v) (v % 256 ^ n) := by
  have h := (reads_getBytes _ (length_toLE n v)).map fun bs ↦ ofLE bs.1
  rwa [ofLE_toLE] at h

theorem reads_getInt {n v : ℕ} (hv : v < 256 ^ n) : Reads (getInt n) (toLE n v) v := by
  have h := reads_getInt_mod n v
  rwa [Nat.mod_eq_of_lt hv] at h

theorem reads_getText (width : ℕ) {s : String} (hs : (encode s).length < 256 ^ width) :
    Reads (getText width) (putText width s) s := by
  have h := (reads_getBytes (encode s) rfl).map fun bs ↦ fromUtf8Lossy bs.1
  rw [fromUtf8Lossy_encode] at h
  exact (reads_getInt hs).bind h

/-- Of a text that is too long for the field of its length only the beginning is read. -/
theorem reads_getText_take (width : ℕ) (s : String) :
    Reads (getText width)
      (toLE width (encode s).length ++ (encode s).take ((encode s).length % 256 ^ width))
      (fromUtf8Lossy ((encode s).take ((encode s).length % 256 ^ width))) := by
  have hlength : ((encode s).take ((encode s).length % 256 ^ width)).length =
      (encode s).length % 256 ^ width := by
    rw [List.length_take, Nat.min_eq_left (Nat.mod_le _ _)]
  exact (reads_getInt_mod width _).bind ((reads_getBytes _ hlength).map fun bs ↦ fromUtf8Lossy bs.1)

theorem reads_getTimes {ser : α → List UInt8} (as : List α) (h : ∀ a ∈ as, Reads x (ser a) a) :
    Reads (getTimes x as.length) (as.flatMap ser) as := by
  induction as with
  | nil => exact reads_pure _
  | cons a as ih =>
    rw [List.flatMap_cons]
    refine (h a List.mem_cons_self).bind ?_
    exact (ih fun b hb ↦ h b (List.mem_cons_of_mem _ hb)).map (a :: ·)

theorem reads_getByte (c : UInt8) : Reads getByte [c] c :=
  (reads_getBytes [c] rfl).map fun bs ↦
    bs.1.head (List.ne_nil_of_length_pos (by rw [bs.2]; exact Nat.one_pos))

end Reads

/-! ### What is seen -/

section Local

variable {α β : Type} {x : Get α} {f : α → Get β} {bs p : List UInt8} {a : α}

/-- The reader stays in the buffer, and ends the same way whatever follows what it has read. -/
def Local (x : Get α) : Prop :=
  ∀ buf p a q, p ≤ buf.length → x buf p = some (a, q) →
    q ≤ buf.length ∧ ∀ rest, x (buf ++ rest) p = some (a, q)

theorem local_pure (a : α) : Local (pure a) := by
  intro buf p b q hp h
  cases h
  exact ⟨hp, fun _ ↦ rfl⟩

theorem local_guard (c : Prop) [Decidable c] : Local (guard c) := by
  unfold guard
  split
  · exact local_pure ()
  · exact fun _ _ _ _ _ h ↦ nomatch h

theorem Local.bind (hx : Local x) (hf : ∀ a, Local (f a)) : Local (x >>= f) := by
  intro buf p b r hp h
  obtain ⟨a, q, ha, hb⟩ := bind_eq_some.1 h
  obtain ⟨hq, hxrest⟩ := hx buf p a q hp ha
  obtain ⟨hr, hfrest⟩ := hf a buf q b r hq hb
  exact ⟨hr, fun rest ↦ bind_eq_some.2 ⟨a, q, hxrest rest, hfrest rest⟩⟩

theorem local_getBytes (n : ℕ) : Local (getBytes n) := by
  intro buf p a q _ h
  rw [getBytes] at h
  split at h
  · next hle =>
    cases h
    refine ⟨hle, fun rest ↦ ?_⟩
    have htake : ((buf ++ rest).drop p).take n = (buf.drop p).take n := by
      rw [List.drop_append_of_le_length (by omega), List.take_append_of_le_length]
      rw [List.length_drop]
      omega
    rw [getBytes, dif_pos (by rw [List.length_append]; omega)]
    simp only [htake]
  · exact nomatch h

theorem local_getInt (n : ℕ) : Local (getInt n) :=
  (local_getBytes n).bind fun _ ↦ local_pure _

theorem local_getText (width : ℕ) : Local (getText width) :=
  (local_getInt width).bind fun n ↦ (local_getBytes n).bind fun _ ↦ local_pure _

theorem local_getByte : Local getByte :=
  (local_getBytes 1).bind fun _ ↦ local_pure _

theorem Local.getTimes (hx : Local x) : ∀ n, Local (getTimes x n)
  | 0 => local_pure _
  | n + 1 => hx.bind fun _ ↦ (Local.getTimes hx n).bind fun _ ↦ local_pure _

/-- Of what a local reader reads, no beginning is enough. -/
theorem Reads.eq_of_prefix (h : Reads x bs a) (hx : Local x) (hp : p <+: bs) {b : α} {q : ℕ}
    (hb : x p 0 = some (b, q)) : p = bs := by
  obtain ⟨rest, rfl⟩ := hp
  obtain ⟨hq, hrest⟩ := hx p 0 b q (Nat.zero_le _) hb
  have hall := h [] []
  rw [List.nil_append, List.append_nil, List.length_nil, hrest rest] at hall
  have hlength := (Prod.mk.inj (Option.some.inj hall)).2
  rw [List.length_append] at hlength
  have hnil := List.length_eq_zero_iff.1 (show rest.length = 0 by omega)
  rw [hnil, List.append_nil]

end Local

end Binary
