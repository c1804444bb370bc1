import Ldu.Flirt.Archive
import Mathlib.Data.FinEnum

/-!
# Reading back `ar` archives

An archive as GNU and Microsoft tools write it: index members in front, the table of long names,
then the objects, each with its name in the header or in the table. `members` returns the objects in
order, with their names and data, exactly when there is no index of 64-bit offsets, `/SYM64/`, which
it takes for an object, and every name can be read back from where it is written
(`members_archive_iff`): a name padded with spaces must not end in what is cut off, and a name in
the table must not hold what ends it there.
-/

namespace Ldu

namespace Flirt

namespace Ar

open Checked Utf8 Str

/-! ### Writing -/

/-- Fill a field with spaces. -/
def padTo (n : ℕ) (b : List UInt8) : List UInt8 :=
  b ++ List.replicate (n - b.length) space

def decimal (n : ℕ) : List UInt8 :=
  encode (toString n)

/-- A member as it is written: the name field, the times and modes, and the data. -/
structure Entry where
  field : List UInt8
  info : List UInt8
  data : List UInt8

def Entry.header (e : Entry) : List UInt8 :=
  padTo 16 e.field ++ (e.info ++ (padTo 10 (decimal e.data.length) ++ [0x60, newline]))

def Entry.bytes (e : Entry) : List UInt8 :=
  e.header ++ (e.data ++ List.replicate (e.data.length % 2) newline)

/-- What ends a name in the table. -/
inductive Terminator
  | slashNewline | newline | nul
  deriving DecidableEq, Repr

def Terminator.bytes : Terminator → List UInt8
  | .slashNewline => [slash, Ar.newline]
  | .newline => [Ar.newline]
  | .nul => [0]

/-- Where a name is written: in the header, padded or with a slash behind it, or in the table. -/
inductive Spelling
  | padded
  | slashed
  | entry (off : ℕ) (t : Terminator)
  deriving DecidableEq, Repr

structure Object where
  name : String
  spelling : Spelling
  info : List UInt8
  data : List UInt8

def Object.entry (o : Object) : Entry where
  field :=
    match o.spelling with
    | .padded => encode o.name
    | .slashed => encode o.name ++ [slash]
    | .entry off _ => slash :: decimal off
  info := o.info
  data := o.data

/-- The indexes of symbols, with offsets of 32 bits or of 64. -/
inductive IndexKind
  | short | sym64
  deriving DecidableEq, Repr

def IndexKind.field : IndexKind → List UInt8
  | .short => [slash]
  | .sym64 => encode "/SYM64/"

structure Index where
  kind : IndexKind
  info : List UInt8
  data : List UInt8

def Index.entry (i : Index) : Entry :=
  ⟨i.kind.field, i.info, i.data⟩

structure Archive where
  indexes : List Index
  table : Option (List UInt8 × List UInt8)
  objects : List Object

namespace Archive

variable (a : Archive)

/-- The table of long names, `//`. -/
def tableEntry : Option Entry :=
  a.table.map fun t ↦ ⟨[slash, slash], t.1, t.2⟩

def entries : List Entry :=
  a.indexes.map Index.entry ++ (a.tableEntry.toList ++ a.objects.map Object.entry)

def bytes : List UInt8 :=
  magic ++ a.entries.flatMap Entry.bytes

def names : List UInt8 :=
  (a.table.map Prod.snd).getD []

/-- The names and data of the objects. -/
def contents : List (String × List UInt8) :=
  a.objects.map fun o ↦ (o.name, o.data)

end Archive

/-- The fields have room for what stands in them. -/
structure Entry.Fits (e : Entry) : Prop where
  field : e.field.length ≤ 16
  info : e.info.length = 32
  data : e.data.length < 10 ^ 10

/-- The name is written where the spelling says. -/
def Object.Written (names : List UInt8) (o : Object) : Prop :=
  match o.spelling with
  | .padded => True
  | .slashed => True
  | .entry off t => encode o.name ++ t.bytes <+: names.drop off

instance decidableWritten (names : List UInt8) : (o : Object) → Decidable (o.Written names)
  | ⟨_, .padded, _, _⟩ => inferInstanceAs (Decidable True)
  | ⟨_, .slashed, _, _⟩ => inferInstanceAs (Decidable True)
  | ⟨name, .entry off t, _, _⟩ =>
    inferInstanceAs (Decidable (encode name ++ t.bytes <+: names.drop off))

/-- The archive is one that a tool writes: the fields fit, the names are not empty, and those that
are in the table are there. -/
structure Archive.WellFormed (a : Archive) : Prop where
  fits : ∀ e ∈ a.entries, e.Fits
  nonempty : ∀ o ∈ a.objects, o.name ≠ ""
  written : ∀ o ∈ a.objects, o.Written a.names

/-! ### What entries are read as -/

/-- The names and data that the entries give. -/
def outputs : List UInt8 → List Entry → List (String × List UInt8)
  | _, [] => []
  | table, e :: es =>
    ((nameOf table (trimAscii e.field)).map (·, e.data)).toList ++
      outputs (tableAfter table e.data (trimAscii e.field)) es

/-! ### Numbers in fields -/

theorem trimAscii_padTo (n : ℕ) (b : List UInt8) : trimAscii (padTo n b) = trimAscii b := by
  unfold trimAscii padTo
  induction n - b.length with
  | zero => rw [List.replicate_zero, List.append_nil]
  | succ k ih =>
    rw [List.replicate_succ', ← List.append_assoc, List.rdropWhile_concat_pos _ _ _ (by decide), ih]

theorem trimAscii_of_getLast? {b : List UInt8} (h : ∀ c ∈ b.getLast?, isPadding c = false) :
    trimAscii b = b := by
  rw [trimAscii, List.rdropWhile_eq_self_iff]
  intro hne
  simpa using h _ (List.getLast?_eq_some_getLast hne)

/-- The bytes of a number are its digits. -/
theorem decimal_eq (n : ℕ) :
    decimal n = (Nat.toDigits 10 n).map fun c ↦ UInt8.ofNat c.toNat := by
  have hstring : toString n = String.ofList (Nat.toDigits 10 n) := by
    rw [← toList_toString, String.ofList_toList]
  rw [decimal, hstring, encode_ofList_of_ascii]
  intro c hc
  have hrange := mem_toDigits_range hc
  omega

theorem isAsciiDigit_of_mem_decimal {n : ℕ} {b : UInt8} (hb : b ∈ decimal n) :
    isAsciiDigit b = true := by
  rw [decimal_eq, List.mem_map] at hb
  obtain ⟨c, hc, rfl⟩ := hb
  have hrange := mem_toDigits_range hc
  simp only [isAsciiDigit, Bool.and_eq_true, decide_eq_true_eq, UInt8.le_iff_toNat_le,
    UInt8.toNat_ofNat', UInt8.reduceToNat]
  omega

theorem decimal_ne_nil (n : ℕ) : decimal n ≠ [] := by
  rw [decimal_eq]
  simp

/-- Nothing is cut off a number. -/
theorem trimAscii_decimal (b : List UInt8) (n : ℕ) :
    trimAscii (b ++ decimal n) = b ++ decimal n := by
  refine trimAscii_of_getLast? fun c hc ↦ ?_
  rw [List.getLast?_append_of_ne_nil _ (decimal_ne_nil n)] at hc
  have hdigit := isAsciiDigit_of_mem_decimal (List.mem_of_getLast? hc)
  rw [Bool.eq_false_iff, isPadding, ne_eq, Bool.or_eq_true, decide_eq_true_eq, decide_eq_true_eq]
  rintro (rfl | rfl) <;> exact absurd hdigit (by decide)

/-- A number in a field is read back. -/
theorem asciiNum_padTo {n : ℕ} (hn : n < 2 ^ 64) (k : ℕ) :
    asciiNum (padTo k (decimal n)) = some n := by
  have htrim := trimAscii_decimal [] n
  rw [List.nil_append] at htrim
  unfold asciiNum
  rw [trimAscii_padTo, htrim, decimal, fromUtf8?_encode]
  show parseUsize (trim (toString n).toList) = some n
  rw [toList_toString, trim_toDigits, parseUsize_toDigits hn]

/-- The offset that digits are read as. -/
theorem refOffset_decimal {n : ℕ} (hn : n < 2 ^ 64) : refOffset (decimal n) = n := by
  rw [refOffset, decimal, fromUtf8?_encode, Option.bind_some, toList_toString,
    parseUsize_toDigits hn]
  rfl

/-! ### Reading what is written -/

theorem length_padTo {n : ℕ} {b : List UInt8} (h : b.length ≤ n) : (padTo n b).length = n := by
  rw [padTo, List.length_append, List.length_replicate]
  omega

theorem length_decimal_le {n k : ℕ} (hk : 0 < k) (hn : n < 10 ^ k) : (decimal n).length ≤ k := by
  rw [decimal_eq, List.length_map]
  exact (Nat.length_toDigits_le_iff (by decide) hk).2 hn

section Read

variable {buf pre rest : List UInt8} {e : Entry}

theorem Entry.Fits.length_header (h : e.Fits) : e.header.length = 60 := by
  have hsize := length_padTo (length_decimal_le (by decide) h.data)
  simp only [Entry.header, List.length_append, length_padTo h.field, h.info, hsize,
    List.length_cons, List.length_nil]

/-- The header of an entry gives its name field and its size. -/
theorem Entry.Fits.read (h : e.Fits) (hbuf : buf = pre ++ (e.bytes ++ rest)) :
    nameFieldAt buf pre.length = trimAscii e.field ∧ sizeAt buf pre.length = e.data.length ∧
      (buf.drop (pre.length + 60)).take e.data.length = e.data := by
  have hfield := length_padTo h.field
  have hdrop : buf.drop pre.length = e.header ++ (e.data ++
      (List.replicate (e.data.length % 2) newline ++ rest)) := by
    rw [hbuf, List.drop_left, Entry.bytes, List.append_assoc, List.append_assoc]
  refine ⟨?_, ?_, ?_⟩
  · rw [nameFieldAt, hdrop, Entry.header, List.append_assoc, List.take_left' hfield,
      trimAscii_padTo]
  · have hinfo : (padTo 16 e.field ++ e.info).length = 48 := by
      rw [List.length_append, hfield, h.info]
    have hsize := length_padTo (length_decimal_le (by decide) h.data)
    have hlt : e.data.length < 2 ^ 64 := h.data.trans (by decide)
    rw [sizeAt, hdrop, Entry.header, ← List.append_assoc (padTo 16 e.field), List.append_assoc,
      List.drop_left' hinfo, List.append_assoc, List.take_left' hsize, asciiNum_padTo hlt]
    rfl
  · rw [← List.drop_drop, hdrop, List.drop_left' h.length_header, List.take_left]

theorem Entry.length_bytes (h : e.Fits) :
    e.bytes.length = 60 + e.data.length + e.data.length % 2 := by
  rw [Entry.bytes, List.length_append, List.length_append, h.length_header, List.length_replicate]
  omega

/-- Reading entries from an even position gives their outputs. -/
theorem membersFrom_entries {es : List Entry} (hfits : ∀ e ∈ es, e.Fits)
    (hlength : buf.length < 2 ^ 63) (hbuf : buf = pre ++ es.flatMap Entry.bytes)
    (heven : pre.length % 2 = 0) {fuel : ℕ} (hfuel : buf.length + 1 - pre.length < fuel)
    (table : List UInt8) :
    ∃ ms, membersFrom buf fuel pre.length table = .ok ms ∧
      ms.map (fun m ↦ (m.name, m.data buf)) = outputs table es := by
  induction es generalizing pre fuel table with
  | nil =>
    obtain ⟨fuel, rfl⟩ := Nat.exists_eq_succ_of_ne_zero (n := fuel) (by omega)
    have hend : buf.length = pre.length := by rw [hbuf]; simp
    refine ⟨[], ?_, rfl⟩
    rw [Nat.succ_eq_add_one, membersFrom_succ hlength fuel (by omega), if_pos (.inl (by omega))]
  | cons e es ih =>
    obtain ⟨fuel, rfl⟩ := Nat.exists_eq_succ_of_ne_zero (n := fuel) (by omega)
    have he := hfits e (.head _)
    rw [List.flatMap_cons] at hbuf
    obtain ⟨hname, hsize, hdata⟩ := he.read hbuf
    have hbytes := Entry.length_bytes he
    have htotal : buf.length = pre.length + (e.bytes.length + (es.flatMap Entry.bytes).length) := by
      rw [hbuf, List.length_append, List.length_append]
    have hnext : (pre ++ e.bytes).length = pre.length + 60 + e.data.length +
        (pre.length + 60 + e.data.length) % 2 := by
      rw [List.length_append, hbytes]
      omega
    have hrest : buf = pre ++ e.bytes ++ es.flatMap Entry.bytes := by
      rw [hbuf, List.append_assoc]
    have hless : buf.length + 1 - (pre ++ e.bytes).length < fuel := by
      rw [List.length_append]
      omega
    obtain ⟨ms, hms, hout⟩ := ih (fun e' he' ↦ hfits e' (.tail _ he')) hrest
      (by rw [hnext]; omega) hless (tableAfter table e.data (trimAscii e.field))
    rw [hnext] at hms
    refine ⟨((nameOf table (trimAscii e.field)).map
      (⟨·, pre.length + 60, pre.length + 60 + e.data.length⟩)).toList ++ ms, ?_, ?_⟩
    · rw [Nat.succ_eq_add_one, membersFrom_succ hlength fuel (by omega), if_neg (by omega)]
      dsimp only
      rw [hname, hsize, hdata, hms]
      rfl
    · rw [List.map_append, hout, outputs]
      refine congrArg (· ++ _) ?_
      cases nameOf table (trimAscii e.field) with
      | none => rfl
      | some nm =>
        have hslice : (⟨nm, pre.length + 60, pre.length + 60 + e.data.length⟩ : Member).data buf =
            e.data := by
          rw [Member.data, Nat.add_sub_cancel_left, hdata]
        simp only [Option.map_some, Option.toList_some, List.map_cons, List.map_nil, hslice]

end Read

/-- Reading an archive gives the outputs of its entries. -/
theorem members_bytes {a : Archive} (hfits : ∀ e ∈ a.entries, e.Fits)
    (hlength : a.bytes.length < 2 ^ 63) :
    ∃ ms, members a.bytes = .ok ms ∧
      ms.map (fun m ↦ (m.name, m.data a.bytes)) = outputs [] a.entries := by
  have hmagic : (a.bytes.drop 0).take (8 - 0) = magic := List.take_left' rfl
  have h8 : 8 ≤ a.bytes.length := by
    rw [Archive.bytes, List.length_append]
    exact Nat.le_add_right _ _
  have hbytes : a.bytes = magic ++ a.entries.flatMap Entry.bytes := rfl
  obtain ⟨ms, hms, hout⟩ := membersFrom_entries hfits hlength hbytes rfl
    (show a.bytes.length + 1 - 8 < a.bytes.length + 1 by omega) []
  refine ⟨ms, ?_, hout⟩
  unfold members
  rw [if_neg (by omega), slice_of_le (by omega) h8, ok_bind, if_neg (not_not.2 hmagic)]
  exact hms

/-! ### Names -/

/-- The name can be read back from where it is written: what is cut off the end of a padded field is
no part of it, nor is what ends a name in the table. A padded name that looks like a reference to
the table may still stand at that place of it. -/
def Object.Legible (names : List UInt8) (o : Object) : Prop :=
  match o.spelling with
  | .padded =>
    match ref? (trimAscii (encode o.name)) with
    | some ds => entryAt names (refOffset ds) = some o.name
    | none => ∀ c ∈ (encode o.name).getLast?, isPadding c = false ∧ c ≠ slash
  | .slashed => o.name ≠ "/"
  | .entry _ t => (∀ c ∈ encode o.name, isTerminator c = false) ∧
      (t = .slashNewline ∨ (encode o.name).getLast? ≠ some slash)

instance decidableLegible (names : List UInt8) : (o : Object) → Decidable (o.Legible names)
  | ⟨name, .padded, _, _⟩ =>
    show Decidable (match ref? (trimAscii (encode name)) with
      | some ds => entryAt names (refOffset ds) = some name
      | none => ∀ c ∈ (encode name).getLast?, isPadding c = false ∧ c ≠ slash) from
    match ref? (trimAscii (encode name)) with
    | some _ => inferInstance
    | none => inferInstance
  | ⟨name, .slashed, _, _⟩ => inferInstanceAs (Decidable (name ≠ "/"))
  | ⟨name, .entry _ t, _, _⟩ =>
    inferInstanceAs (Decidable ((∀ c ∈ encode name, isTerminator c = false) ∧
      (t = .slashNewline ∨ (encode name).getLast? ≠ some slash)))

section Names

variable {table names n b : List UInt8} {s : String} {o : Object}

theorem nameOf_of_ref {ds : List UInt8} (h : ref? n = some ds) :
    nameOf table n = entryAt table (refOffset ds) := by
  have hindex : n ≠ [slash] := by
    rintro rfl
    exact nomatch (show ref? [slash] = none by decide) ▸ h
  have htable : n ≠ [slash, slash] := by
    rintro rfl
    exact nomatch (show ref? [slash, slash] = none by decide) ▸ h
  rw [nameOf, if_neg (not_or.2 ⟨hindex, htable⟩), h]

theorem nameOf_of_direct (href : ref? n = none) (hne : s ≠ "") :
    nameOf table n = some s ↔
      n ≠ [slash] ∧ n ≠ [slash, slash] ∧ fromUtf8Lossy (stripped n) = s := by
  rw [nameOf, href]
  by_cases hspecial : n = [slash] ∨ n = [slash, slash]
  · rw [if_pos hspecial]
    exact ⟨nofun, fun h ↦ absurd hspecial (not_or.2 ⟨h.1, h.2.1⟩)⟩
  · rw [if_neg hspecial]
    dsimp only
    split
    · next hempty =>
      exact ⟨nofun, fun h ↦ absurd (h.2.2.symm.trans hempty) hne⟩
    · rw [Option.some_inj]
      exact ⟨fun h ↦ ⟨fun h' ↦ hspecial (.inl h'), fun h' ↦ hspecial (.inr h'), h⟩, fun h ↦ h.2.2⟩

/-- What a slash is stripped from is the rest and the slash. -/
theorem stripped_append (b : List UInt8) : ∃ r, b = stripped b ++ r ∧ ∀ c ∈ r, c = slash := by
  unfold stripped
  split
  · next h =>
    refine ⟨[slash], ?_, by simp⟩
    exact (List.dropLast_append_getLast? _ h).symm
  · exact ⟨[], (List.append_nil b).symm, nofun⟩

theorem stripped_of_getLast? (h : b.getLast? ≠ some slash) : stripped b = b :=
  if_neg h

theorem stripped_concat (b : List UInt8) : stripped (b ++ [slash]) = b := by
  rw [stripped, if_pos (by simp), List.dropLast_concat]

/-- What is cut off the end of a field is padding and a slash. -/
theorem stripped_trimAscii_append (b : List UInt8) :
    ∃ r, b = stripped (trimAscii b) ++ r ∧ ∀ c ∈ r, c < 0x80 := by
  obtain ⟨r, hr, hslash⟩ := stripped_append (trimAscii b)
  have hsplit : b = trimAscii b ++ b.rtakeWhile isPadding :=
    (List.rdropWhile_append_rtakeWhile ..).symm
  refine ⟨r ++ b.rtakeWhile isPadding, by rw [← List.append_assoc, ← hr]; exact hsplit, ?_⟩
  intro c hc
  rcases List.mem_append.1 hc with hc | hc
  · rw [hslash c hc]
    decide
  · have hpad := List.mem_rtakeWhile_imp hc
    rw [isPadding, Bool.or_eq_true, decide_eq_true_eq, decide_eq_true_eq] at hpad
    rcases hpad with rfl | rfl <;> decide

/-- A text is what a field says when nothing is cut off it. -/
theorem fromUtf8Lossy_stripped_iff : fromUtf8Lossy (stripped (trimAscii (encode s))) = s ↔
    ∀ c ∈ (encode s).getLast?, isPadding c = false ∧ c ≠ slash := by
  constructor
  · intro h
    obtain ⟨r, hr, hascii⟩ := stripped_trimAscii_append (encode s)
    cases r with
    | cons c r => exact absurd h (fromUtf8Lossy_ne_of_append hr (hascii c (.head _)))
    | nil =>
      rw [List.append_nil] at hr
      have htrim : trimAscii (encode s) = encode s := by
        obtain ⟨r, hr', -⟩ := stripped_append (trimAscii (encode s))
        have hprefix : trimAscii (encode s) <+: encode s := List.rdropWhile_prefix _ _
        refine hprefix.eq_of_length_le ?_
        rw [hr', List.length_append, ← hr]
        exact Nat.le_add_right _ _
      rw [htrim] at hr
      refine fun c hc ↦ ⟨?_, ?_⟩
      · have hlast := List.rdropWhile_eq_self_iff.1 htrim
        have hne : encode s ≠ [] := fun hnil ↦ by rw [hnil] at hc; cases hc
        rw [List.getLast?_eq_some_getLast hne] at hc
        obtain rfl := Option.some.inj hc
        simpa using hlast hne
      · rintro rfl
        have hlength := congrArg List.length hr
        rw [stripped, if_pos (Option.mem_def.1 hc), List.length_dropLast] at hlength
        have hpos := List.length_pos_of_mem (List.mem_of_getLast? hc)
        omega
  · intro h
    rw [trimAscii_of_getLast? fun c hc ↦ (h c hc).1,
      stripped_of_getLast? fun hslash ↦ (h slash hslash).2 rfl, fromUtf8Lossy_encode]

/-- A name in the header, padded with spaces. -/
theorem nameOf_padded_iff (hne : s ≠ "") : nameOf table (trimAscii (encode s)) = some s ↔
    match ref? (trimAscii (encode s)) with
    | some ds => entryAt table (refOffset ds) = some s
    | none => ∀ c ∈ (encode s).getLast?, isPadding c = false ∧ c ≠ slash := by
  cases href : ref? (trimAscii (encode s)) with
  | some ds => rw [nameOf_of_ref href]
  | none =>
    rw [nameOf_of_direct href hne, fromUtf8Lossy_stripped_iff]
    refine ⟨fun h ↦ h.2.2, fun h ↦ ⟨?_, ?_, h⟩⟩ <;>
    · intro hspecial
      rw [trimAscii_of_getLast? fun c hc ↦ (h c hc).1] at hspecial
      exact (h slash (by rw [hspecial]; rfl)).2 rfl

/-- A name in the header with a slash behind it. -/
theorem nameOf_slashed_iff (hne : s ≠ "") :
    nameOf table (trimAscii (encode s ++ [slash])) = some s ↔ s ≠ "/" := by
  have hencode : encode s ≠ [] := mt encode_eq_nil_iff.1 hne
  have htrim : trimAscii (encode s ++ [slash]) = encode s ++ [slash] :=
    trimAscii_of_getLast? fun c hc ↦ by
      rw [List.getLast?_append_of_ne_nil _ (List.cons_ne_nil _ _)] at hc
      obtain rfl := Option.some.inj hc
      rfl
  have href : ref? (encode s ++ [slash]) = none := by
    refine if_neg fun h ↦ ?_
    rw [List.tail_append_of_ne_nil hencode, List.all_append, Bool.and_eq_true] at h
    exact absurd h.2.2.2 (by decide)
  rw [htrim, nameOf_of_direct href hne, stripped_concat, fromUtf8Lossy_encode]
  have hindex : encode s ++ [slash] ≠ [slash] := fun h ↦
    hencode (List.append_cancel_right (h.trans (List.nil_append [slash]).symm))
  have htable : encode s ++ [slash] = [slash, slash] ↔ s = "/" := by
    constructor
    · intro h
      exact encode_injective (List.append_cancel_right
        (h.trans (show [slash, slash] = encode "/" ++ [slash] by decide +kernel)))
    · rintro rfl
      decide +kernel
  rw [ne_eq (encode s ++ [slash]) [slash, slash], htable]
  exact ⟨fun h ↦ h.2.1, fun h ↦ ⟨hindex, h, rfl⟩⟩

/-- What stands before the first terminator of an entry. -/
theorem takeWhile_entry {t : Terminator} (r : List UInt8)
    (h : ∀ c ∈ b, isTerminator c = false) :
    (b ++ t.bytes ++ r).takeWhile (!isTerminator ·) =
      b ++ if t = .slashNewline then [slash] else [] := by
  have hall : ∀ c ∈ b, (!isTerminator c) = true := fun c hc ↦ by rw [h c hc]; rfl
  rw [List.append_assoc, List.takeWhile_append_of_pos hall]
  cases t <;> rfl

/-- A name in the table. -/
theorem entryAt_iff {off : ℕ} {t : Terminator} (hw : encode s ++ t.bytes <+: table.drop off) :
    entryAt table off = some s ↔ (∀ c ∈ encode s, isTerminator c = false) ∧
      (t = .slashNewline ∨ (encode s).getLast? ≠ some slash) := by
  obtain ⟨r, hr⟩ := hw
  have hlt : ¬table.length ≤ off := fun hle ↦ by
    rw [List.drop_eq_nil_of_le hle, List.append_assoc] at hr
    have hnil := (List.append_eq_nil_iff.1 (List.append_eq_nil_iff.1 hr).2).1
    cases t <;> cases hnil
  rw [entryAt, if_neg hlt, ← hr, Option.some_inj]
  by_cases hclean : ∀ c ∈ encode s, isTerminator c = false
  · rw [takeWhile_entry r hclean, and_iff_right hclean]
    by_cases ht : t = .slashNewline
    · rw [if_pos ht, stripped_concat, fromUtf8Lossy_encode]
      exact iff_of_true rfl (.inl ht)
    · rw [if_neg ht, List.append_nil, or_iff_right ht]
      by_cases hslash : (encode s).getLast? = some slash
      · have hcut : encode s = stripped (encode s) ++ slash :: [] := by
          rw [stripped, if_pos hslash]
          exact (List.dropLast_append_getLast? _ hslash).symm
        exact iff_of_false (fromUtf8Lossy_ne_of_append hcut (by decide)) (not_not.2 hslash)
      · rw [stripped_of_getLast? hslash, fromUtf8Lossy_encode]
        exact iff_of_true rfl hslash
  · -- The name is cut off at the first terminator in it.
    refine iff_of_false ?_ fun h ↦ hclean h.1
    have hsplit := List.takeWhile_append_dropWhile (p := (!isTerminator ·)) (l := encode s)
    cases hrest : (encode s).dropWhile (!isTerminator ·) with
    | nil =>
      refine absurd (fun c hc ↦ ?_) hclean
      rw [hrest, List.append_nil] at hsplit
      have hnot := List.mem_takeWhile_imp (hsplit.symm ▸ hc)
      rwa [Bool.not_eq_true'] at hnot
    | cons c rest =>
      rw [hrest] at hsplit
      have hc : isTerminator c = true := by
        have := List.head_dropWhile_not (p := (!isTerminator ·)) (l := encode s)
          (by rw [hrest]; exact List.cons_ne_nil _ _)
        simpa [hrest] using this
      have htake : (encode s ++ t.bytes ++ r).takeWhile (!isTerminator ·) =
          (encode s).takeWhile (!isTerminator ·) := by
        rw [List.append_assoc, List.takeWhile_append, if_neg]
        intro hlength
        have htotal := congrArg List.length hsplit
        rw [List.length_append, hlength, List.length_cons] at htotal
        omega
      rw [htake]
      obtain ⟨r', hr', hslash⟩ := stripped_append ((encode s).takeWhile (!isTerminator ·))
      rw [hr', List.append_assoc] at hsplit
      cases r' with
      | nil =>
        refine fromUtf8Lossy_ne_of_append hsplit.symm ?_
        rw [isTerminator, Bool.or_eq_true, decide_eq_true_eq, decide_eq_true_eq] at hc
        rcases hc with rfl | rfl <;> decide
      | cons d r' =>
        refine fromUtf8Lossy_ne_of_append hsplit.symm ?_
        rw [hslash d (.head _)]
        decide

/-- The header of an object gives its name when it is legible. -/
theorem nameOf_entry_iff (hne : o.name ≠ "") (hfits : o.entry.Fits) (hw : o.Written names) :
    nameOf names (trimAscii o.entry.field) = some o.name ↔ o.Legible names := by
  obtain ⟨name, spelling, info, data⟩ := o
  cases spelling with
  | padded => exact nameOf_padded_iff hne
  | slashed => exact nameOf_slashed_iff hne
  | entry off t =>
    have hlength : (slash :: decimal off).length ≤ 16 := hfits.field
    have hoff : off < 10 ^ 15 := by
      rw [List.length_cons, decimal_eq, List.length_map] at hlength
      exact (Nat.length_toDigits_le_iff (by decide) (by decide)).1 (by omega)
    have htrim : trimAscii (slash :: decimal off) = slash :: decimal off :=
      trimAscii_decimal [slash] off
    have href : ref? (slash :: decimal off) = some (decimal off) := by
      refine if_pos ⟨rfl, ?_, List.all_eq_true.2 fun c hc ↦ isAsciiDigit_of_mem_decimal hc⟩
      have hpos := List.length_pos_of_ne_nil (decimal_ne_nil off)
      rw [List.length_cons]
      omega
    show nameOf names (trimAscii (slash :: decimal off)) = some name ↔ _
    rw [htrim, nameOf_of_ref href, refOffset_decimal (hoff.trans (by decide)), entryAt_iff hw]
    rfl

/-- A member that is to be returned is not the table of names. -/
theorem tableAfter_of_nameOf {data : List UInt8} (h : nameOf table n = some s) :
    tableAfter table data n = table := by
  refine if_neg fun htable ↦ ?_
  rw [nameOf, if_pos (.inr htable)] at h
  cases h

end Names

/-! ### Archives -/

section Archive

variable {names : List UInt8} {os : List Object}

theorem length_outputs_le (table : List UInt8) (es : List Entry) :
    (outputs table es).length ≤ es.length := by
  induction es generalizing table with
  | nil => exact le_rfl
  | cons e es ih =>
    have htail := ih (tableAfter table e.data (trimAscii e.field))
    rw [outputs, List.length_append, List.length_cons]
    cases nameOf table (trimAscii e.field) with
    | none => exact (Nat.zero_add _).trans_le (htail.trans (Nat.le_succ _))
    | some nm =>
      rw [Option.map_some, Option.toList_some, List.length_singleton]
      omega

/-- What the name of an object has to say for the object to be read back. -/
def Object.ReadBack (names : List UInt8) (o : Object) : Prop :=
  nameOf names (trimAscii o.entry.field) = some o.name

theorem outputs_cons_of_readBack {o : Object} (h : o.ReadBack names) :
    outputs names ((o :: os).map Object.entry) =
      (o.name, o.data) :: outputs names (os.map Object.entry) := by
  rw [List.map_cons, outputs, h, tableAfter_of_nameOf h]
  rfl

/-- The objects are read back when each of them is. -/
theorem outputs_objects_iff :
    outputs names (os.map Object.entry) = os.map (fun o ↦ (o.name, o.data)) ↔
      ∀ o ∈ os, o.ReadBack names := by
  induction os with
  | nil => exact iff_of_true rfl nofun
  | cons o os ih =>
    rw [List.forall_mem_cons, ← ih]
    constructor
    · intro h
      cases hname : nameOf names (trimAscii o.entry.field) with
      | none =>
        -- An object is missing, and there is nothing to make up for it.
        have hle := length_outputs_le (tableAfter names o.entry.data (trimAscii o.entry.field))
          (os.map Object.entry)
        rw [List.map_cons, outputs, hname] at h
        have hlength := congrArg List.length h
        simp only [Option.map_none, Option.toList_none, List.nil_append, List.map_cons,
          List.length_cons, List.length_map] at hlength hle
        omega
      | some nm =>
        rw [List.map_cons, outputs, hname, tableAfter_of_nameOf hname] at h
        obtain ⟨hhead, htail⟩ := List.cons.inj h
        exact ⟨hname.trans (congrArg some (Prod.mk.inj hhead).1), htail⟩
    · rintro ⟨ho, hos⟩
      rw [outputs_cons_of_readBack ho, hos, List.map_cons]

theorem nameOf_sym64 (table : List UInt8) :
    nameOf table (trimAscii IndexKind.sym64.field) = some "/SYM64" := by
  have hfield : IndexKind.sym64.field = encode "/SYM64" ++ [slash] := by decide +kernel
  rw [hfield]
  exact (nameOf_slashed_iff (by decide)).2 (by decide)

/-- An object with the name of the index of 64-bit offsets is read back. -/
theorem legible_of_name {o : Object} (h : o.name = "/SYM64") : o.Legible names := by
  have hlast : (encode "/SYM64").getLast? = some 0x34 := by decide +kernel
  obtain ⟨name, spelling, info, data⟩ := o
  obtain rfl : name = "/SYM64" := h
  cases spelling with
  | padded =>
    have href : ref? (trimAscii (encode "/SYM64")) = none := by decide +kernel
    have hkept : ∀ c ∈ (encode "/SYM64").getLast?, isPadding c = false ∧ c ≠ slash := by
      intro c hc
      obtain rfl := Option.some.inj (hlast.symm.trans hc)
      decide
    simpa only [Object.Legible, href] using hkept
  | slashed => exact (by decide : "/SYM64" ≠ "/")
  | entry off t =>
    have hclean : ∀ c ∈ encode "/SYM64", isTerminator c = false := by decide +kernel
    refine ⟨hclean, .inr ?_⟩
    show (encode "/SYM64").getLast? ≠ some slash
    rw [hlast]
    decide

/-- Members that are called `/SYM64` in front are too many. -/
theorem outputs_ne_of_sym64 {extra : List (String × List UInt8)} (hextra : extra ≠ [])
    (hsym : ∀ x ∈ extra, x.1 = "/SYM64") (hwf : ∀ o ∈ os, o.Legible names ↔ o.ReadBack names) :
    extra ++ outputs names (os.map Object.entry) ≠ os.map fun o ↦ (o.name, o.data) := by
  induction os generalizing extra with
  | nil =>
    intro h
    exact hextra (List.append_eq_nil_iff.1 h).1
  | cons o os ih =>
    cases extra with
    | nil => exact absurd rfl hextra
    | cons x extra =>
      intro h
      obtain ⟨hhead, htail⟩ := List.cons.inj (h : x :: (extra ++ _) = (o.name, o.data) :: os.map _)
      have hname : o.name = "/SYM64" := by
        rw [← hsym x (.head _), hhead]
      have hread := (hwf o (.head _)).1 (legible_of_name hname)
      rw [outputs_cons_of_readBack hread] at htail
      change extra ++ (o.name, o.data) :: outputs names (os.map Object.entry) = _ at htail
      rw [List.append_cons] at htail
      refine ih (by simp) (fun y hy ↦ ?_) (fun o' ho' ↦ hwf o' (.tail _ ho')) htail
      rcases List.mem_append.1 hy with hy | hy
      · exact hsym y (.tail _ hy)
      · rw [List.mem_singleton.1 hy]
        exact hname

/-- The members that the indexes in front are taken for. -/
theorem outputs_indexes (is : List Index) (es : List Entry) :
    ∃ extra : List (String × List UInt8),
      outputs [] (is.map Index.entry ++ es) = extra ++ outputs [] es ∧
        (∀ x ∈ extra, x.1 = "/SYM64") ∧ (extra = [] ↔ ∀ i ∈ is, i.kind = .short) := by
  induction is with
  | nil => exact ⟨[], rfl, nofun, iff_of_true rfl nofun⟩
  | cons i is ih =>
    obtain ⟨extra, hout, hsym, hnil⟩ := ih
    obtain ⟨kind, info, data⟩ := i
    cases kind with
    | short =>
      refine ⟨extra, ?_, hsym, ?_⟩
      · rw [← hout]
        rfl
      · rw [List.forall_mem_cons, and_iff_right rfl, hnil]
    | sym64 =>
      refine ⟨("/SYM64", data) :: extra, ?_, List.forall_mem_cons.2 ⟨rfl, hsym⟩, ?_⟩
      · rw [List.map_cons, List.cons_append, outputs]
        show (Option.map _ (nameOf [] (trimAscii IndexKind.sym64.field))).toList ++
          outputs (tableAfter [] data (trimAscii IndexKind.sym64.field)) _ = _
        rw [tableAfter_of_nameOf (nameOf_sym64 []), nameOf_sym64, hout]
        rfl
      · exact iff_of_false (List.cons_ne_nil _ _) fun h ↦ nomatch h _ (.head _)

/-- What the table of names leaves to be read. -/
theorem outputs_table (a : Archive) (es : List Entry) :
    outputs [] (a.tableEntry.toList ++ es) = outputs a.names es := by
  cases h : a.table with
  | none => rw [Archive.tableEntry, Archive.names, h]; rfl
  | some t => rw [Archive.tableEntry, Archive.names, h]; rfl

theorem members_contents_iff {a : Archive} (hwf : a.WellFormed)
    (hlength : a.bytes.length < 2 ^ 63) :
    (∃ ms, members a.bytes = .ok ms ∧
      ms.map (fun m ↦ (m.name, m.data a.bytes)) = a.contents) ↔
        (∀ i ∈ a.indexes, i.kind = .short) ∧ ∀ o ∈ a.objects, o.Legible a.names := by
  obtain ⟨ms, hms, hout⟩ := members_bytes hwf.fits hlength
  obtain ⟨extra, hindexes, hsym, hnil⟩ := outputs_indexes a.indexes
    (a.tableEntry.toList ++ a.objects.map Object.entry)
  have hlegible : ∀ o ∈ a.objects, o.Legible a.names ↔ o.ReadBack a.names := fun o ho ↦ by
    refine (nameOf_entry_iff (hwf.nonempty o ho) (hwf.fits _ ?_) (hwf.written o ho)).symm
    exact List.mem_append_right _ (List.mem_append_right _ (List.mem_map_of_mem ho))
  rw [Archive.entries, hindexes, outputs_table] at hout
  rw [← hnil, forall₂_congr hlegible, ← outputs_objects_iff]
  constructor
  · rintro ⟨ms', hms', hcontents⟩
    obtain rfl := Except.ok.inj (hms.symm.trans hms')
    rw [hout] at hcontents
    by_cases hextra : extra = []
    · exact ⟨hextra, by rw [hextra] at hcontents; exact hcontents⟩
    · exact absurd hcontents (outputs_ne_of_sym64 hextra hsym hlegible)
  · rintro ⟨rfl, hobjects⟩
    exact ⟨ms, hms, hout.trans hobjects⟩

/-- An archive gives back its objects exactly when no index of 64-bit offsets is in front and the
names are legible. From any bytes come slices of them, in order and without an overlap. -/
theorem members_archive_iff {a : Archive} (hwf : a.WellFormed) (hlength : a.bytes.length < 2 ^ 63) :
    ((∃ ms, members a.bytes = .ok ms ∧
      ms.map (fun m ↦ (m.name, m.data a.bytes)) = a.contents) ↔
        (∀ i ∈ a.indexes, i.kind = .short) ∧ ∀ o ∈ a.objects, o.Legible a.names) ∧
      ∀ buf : List UInt8, buf.length < 2 ^ 63 →
        ∃ ms, members buf = .ok ms ∧ InOrder 0 buf.length ms :=
  ⟨members_contents_iff hwf hlength, fun _ hbuf ↦ members_safe hbuf⟩

end Archive

/-! ### Two archives -/

def blankInfo : List UInt8 :=
  List.replicate 32 space

/-- One object behind an index of 64-bit offsets. -/
def wideIndexed : Archive where
  indexes := [⟨.sym64, blankInfo, [0, 0, 0, 0, 0, 0, 0, 0]⟩]
  table := none
  objects := [⟨"a.o", .slashed, blankInfo, [0x4C, 0x01, 0x00]⟩]

instance (e : Entry) : Decidable e.Fits :=
  decidable_of_iff (e.field.length ≤ 16 ∧ e.info.length = 32 ∧ e.data.length < 10 ^ 10)
    ⟨fun h ↦ ⟨h.1, h.2.1, h.2.2⟩, fun h ↦ ⟨h.field, h.info, h.data⟩⟩

theorem wellFormed_wideIndexed : wideIndexed.WellFormed where
  fits := by decide +kernel
  nonempty := by decide
  written := by decide +kernel

/-- The index is taken for an object. -/
theorem wideIndexed_not_read : wideIndexed.WellFormed ∧
    members wideIndexed.bytes = .ok [⟨"/SYM64", 68, 76⟩, ⟨"a.o", 136, 139⟩] ∧
      ¬∃ ms, members wideIndexed.bytes = .ok ms ∧
        ms.map (fun m ↦ (m.name, m.data wideIndexed.bytes)) = wideIndexed.contents := by
  have hms : members wideIndexed.bytes = .ok [⟨"/SYM64", 68, 76⟩, ⟨"a.o", 136, 139⟩] := by
    decide +kernel
  refine ⟨wellFormed_wideIndexed, hms, fun ⟨ms, hms', hcontents⟩ ↦ ?_⟩
  obtain rfl := Except.ok.inj (hms.symm.trans hms')
  exact absurd (congrArg List.length hcontents) (by decide)

/-- Two objects behind the usual index, one of them with its name in the table. -/
def shortIndexed : Archive where
  indexes := [⟨.short, blankInfo, [0, 0, 0, 0]⟩]
  table := some (blankInfo, encode "a_long_object_name.o/\n")
  objects := [⟨"a.o", .padded, blankInfo, [0x4C, 0x01, 0x00]⟩,
    ⟨"a_long_object_name.o", .entry 0 .slashNewline, blankInfo, []⟩]

theorem shortIndexed_read : ∃ ms, members shortIndexed.bytes = .ok ms ∧
    ms.map (fun m ↦ (m.name, m.data shortIndexed.bytes)) = shortIndexed.contents := by
  have hwf : shortIndexed.WellFormed :=
    { fits := by decide +kernel
      nonempty := by decide
      written := by decide +kernel }
  exact (members_archive_iff hwf (by decide +kernel)).1.2 ⟨by decide, by decide +kernel⟩

end Ar

end Flirt

end Ldu
