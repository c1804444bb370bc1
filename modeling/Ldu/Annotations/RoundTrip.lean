import Ldu.Annotations.ReadBack
import Ldu.Annotations.Runs
import Mathlib.Data.List.Nodup

/-!
# Saving and loading

The text of a sidecar is read back as the entries that were saved (`readSidecar_saveText`). An entry
holds all that has been said under one identity, so that a load puts the records of functions back
in their order, and those of variables in their order for each identity (`load_saveText`).
-/

namespace Ldu

namespace Annotations

open Listing

/-! ### The text of a sidecar -/

section Text

/-- A member of an object: its text, and what it is read as. -/
def memberText (w k : String) (text : Bytes) (v : JVal) : Bytes × Bytes × JVal :=
  (lit w ++ (jstr (lit k) ++ lit ": " ++ text), lit k, v)

theorem reads_memberText {depth : ℕ} {w : String} (hw : (lit w).all isWs) (k : String)
    {text : Bytes} {v : JVal} (h : Reads (value depth) text v) :
    Reads (member (value depth)) (memberText w k text v).1 (memberText w k text v).2 :=
  (reads_member h).skip (skipsWs_member _) hw

theorem joinWith_cons (sep s : Bytes) (ss : List Bytes) :
    joinWith sep (s :: ss) = s ++ ss.flatMap (sep ++ ·) := by
  induction ss generalizing s with
  | nil => exact (List.append_nil s).symm
  | cons t ss ih => rw [joinWith, ih, List.flatMap_cons, List.append_assoc, List.append_assoc]

/-! #### Variables -/

/-- The members of the object of a variable. -/
def varMembers (v : AnnoVar) : List (Bytes × Bytes × JVal) :=
  memberText " " "from" (jstr v.fromName.bytes) (.str v.fromName.bytes) ::
    memberText " " "to" (jstr v.toName.bytes) (.str v.toName.bytes) ::
      if v.type.isEmpty then [] else [memberText " " "type" (jstr v.type.bytes) (.str v.type.bytes)]

def varVal (v : AnnoVar) : JVal :=
  .obj ((varMembers v).map (·.2))

theorem varText_eq (v : AnnoVar) :
    varText v =
      ch '{' :: (joinWith [ch ','] ((varMembers v).map (·.1)) ++ (lit " " ++ [ch '}'])) := by
  have hfrom : lit "\x7b \"from\": " = ch '{' :: (lit " " ++ (jstr (lit "from") ++ lit ": ")) := by
    decide
  have hto : lit ", \"to\": " = ch ',' :: (lit " " ++ (jstr (lit "to") ++ lit ": ")) := by decide
  have htype : lit ", \"type\": " = ch ',' :: (lit " " ++ (jstr (lit "type") ++ lit ": ")) := by
    decide
  have hend : lit " \x7d" = lit " " ++ [ch '}'] := by decide
  rw [varText, hfrom, hto, htype, hend, varMembers, List.map_cons, joinWith_cons]
  by_cases h : v.type.isEmpty
  · simp [h, memberText]
  · simp [h, memberText]

theorem reads_varText (depth : ℕ) (v : AnnoVar) :
    Reads (value (depth + 2)) (varText v) (varVal v) := by
  rw [varText_eq]
  refine reads_obj (by decide) (by decide) (List.cons_ne_nil _ _) ?_
  intro x hx
  rw [varMembers, List.mem_cons, List.mem_cons] at hx
  rcases hx with rfl | rfl | hx
  · exact reads_memberText (by decide) _ (reads_jstr _ _)
  · exact reads_memberText (by decide) _ (reads_jstr _ _)
  · split at hx
    · cases hx
    · rw [List.mem_singleton.1 hx]
      exact reads_memberText (by decide) _ (reads_jstr _ _)

/-! #### Entries -/

variable (st : Store)

/-- The members that say something of the function. -/
def annoMembers (a : Anno) : List (Bytes × Bytes × JVal) :=
  (if a.name.isEmpty then []
    else [memberText " " "name" (jstr a.name.bytes) (.str a.name.bytes)]) ++
    if a.comment.isEmpty then []
    else [memberText " " "comment" (jstr a.comment.bytes) (.str a.comment.bytes)]

/-- The member that holds the variables. -/
def varsMember (vs : List AnnoVar) : List (Bytes × Bytes × JVal) :=
  if vs = [] then []
  else
    [memberText "\n      " "vars"
      (ch '[' :: (lit " " ++ (joinWith (lit ", ") (vs.map varText) ++ (lit " " ++ [ch ']']))))
      (.arr (vs.map varVal))]

/-- The members of the entry for an identity. -/
def entryMembers (key : UInt64 × UInt64) : List (Bytes × Bytes × JVal) :=
  memberText " " "hash" (jhex key.1) (.str (hexText key.1)) ::
    memberText " " "rva" (jhex key.2) (.str (hexText key.2)) ::
      (((st.annoOf key).map annoMembers).getD [] ++ varsMember (st.varsOf key))

def entryVal (key : UInt64 × UInt64) : JVal :=
  .obj ((entryMembers st key).map (·.2))

theorem annoText_eq (a : Anno) :
    annoText a = ((annoMembers a).map (·.1)).flatMap ([ch ','] ++ ·) := by
  have hname : lit ", \"name\": " = ch ',' :: (lit " " ++ (jstr (lit "name") ++ lit ": ")) := by
    decide
  have hcomment : lit ", \"comment\": " =
      ch ',' :: (lit " " ++ (jstr (lit "comment") ++ lit ": ")) := by
    decide
  rw [annoText, annoMembers, hname, hcomment]
  by_cases h : a.name.isEmpty <;> by_cases h' : a.comment.isEmpty <;> simp [h, h', memberText]

theorem entryText_eq (key : UInt64 × UInt64) :
    ∃ w : Bytes, w.all isWs ∧ entryText st key =
      lit "    " ++
        (ch '{' :: (joinWith [ch ','] ((entryMembers st key).map (·.1)) ++ (w ++ [ch '}']))) := by
  have hhash : lit "    \x7b \"hash\": " =
      lit "    " ++ ch '{' :: (lit " " ++ (jstr (lit "hash") ++ lit ": ")) := by decide
  have hrva : lit ", \"rva\": " = ch ',' :: (lit " " ++ (jstr (lit "rva") ++ lit ": ")) := by decide
  have hvars : lit ",\n      \"vars\": [ " =
      ch ',' :: (lit "\n      " ++ (jstr (lit "vars") ++ lit ": ")) ++ ch '[' :: lit " " := by
    decide
  have hanno : ((st.annoOf key).map annoText).getD [] =
      ((((st.annoOf key).map annoMembers).getD []).map (·.1)).flatMap ([ch ','] ++ ·) := by
    cases st.annoOf key with
    | none => rfl
    | some a => exact annoText_eq a
  rw [entryText, hhash, hrva, hanno, entryMembers, List.map_cons, joinWith_cons]
  by_cases h : st.varsOf key = []
  · have hend : lit " \x7d" = lit " " ++ [ch '}'] := by decide
    refine ⟨lit " ", by decide, ?_⟩
    rw [if_pos h, hend]
    simp [varsMember, h, memberText]
  · -- The variables stand on a line of their own, and so does the end of the entry.
    have hend : lit " ]\n    \x7d" = lit " " ++ ch ']' :: (lit "\n    " ++ [ch '}']) := by decide
    refine ⟨lit "\n    ", by decide, ?_⟩
    rw [if_neg h, hvars, hend]
    simp [varsMember, h, memberText]

/-- All texts of a list are read as values, one after the other. -/
theorem map_fst_snd {α : Type} (xs : List α) (text : α → Bytes) (val : α → JVal) :
    (xs.map fun x ↦ (text x, val x)).map (·.1) = xs.map text ∧
      (xs.map fun x ↦ (text x, val x)).map (·.2) = xs.map val := by
  simp

theorem reads_annoMembers (depth : ℕ) (a : Anno) :
    ∀ x ∈ annoMembers a, Reads (member (value (depth + 1))) x.1 x.2 := by
  intro x hx
  rw [annoMembers, List.mem_append] at hx
  rcases hx with hx | hx
  all_goals
    split at hx
    · cases hx
    · rw [List.mem_singleton.1 hx]
      exact reads_memberText (by decide) _ (reads_jstr _ _)

theorem reads_varsMember (depth : ℕ) (vs : List AnnoVar) :
    ∀ x ∈ varsMember vs, Reads (member (value (depth + 3))) x.1 x.2 := by
  intro x hx
  rw [varsMember] at hx
  split at hx
  · cases hx
  · next hne =>
    rw [List.mem_singleton.1 hx]
    refine reads_memberText (by decide) _ ?_
    obtain ⟨htext, hval⟩ := map_fst_snd vs varText varVal
    rw [← htext, ← hval]
    refine reads_arr (w := lit " ") (by decide) (by decide) (by decide) (by simpa using hne) ?_
    intro y hy
    obtain ⟨v, -, rfl⟩ := List.mem_map.1 hy
    exact reads_varText depth v

theorem reads_entryText (depth : ℕ) (key : UInt64 × UInt64) :
    Reads (value (depth + 4)) (entryText st key) (entryVal st key) := by
  obtain ⟨w, hw, htext⟩ := entryText_eq st key
  rw [htext]
  refine Reads.skip (skipsWs_value _) ?_ (by decide)
  refine reads_obj (by decide) hw (List.cons_ne_nil _ _) ?_
  intro x hx
  rw [entryMembers, List.mem_cons, List.mem_cons, List.mem_append] at hx
  rcases hx with rfl | rfl | hx | hx
  · exact reads_memberText (by decide) _ (jhex_eq key.1 ▸ reads_jstr _ _)
  · exact reads_memberText (by decide) _ (jhex_eq key.2 ▸ reads_jstr _ _)
  · cases hanno : st.annoOf key with
    | none =>
      rw [hanno] at hx
      cases hx
    | some a =>
      rw [hanno] at hx
      exact reads_annoMembers _ a x hx
  · exact reads_varsMember depth _ x hx

/-! #### The file -/

/-- The array of the entries. -/
def functionsText : Bytes :=
  ch '[' :: lit "\n" ++ joinWith (lit ",\n") (st.keys.map (entryText st)) ++
    (if st.keys = [] then [] else lit "\n") ++ lit "  ]"

theorem reads_functionsText (depth : ℕ) :
    Reads (value (depth + 5)) (functionsText st) (.arr (st.keys.map (entryVal st))) := by
  rw [functionsText]
  by_cases h : st.keys = []
  · have hnil : ch '[' :: lit "\n" ++ joinWith (lit ",\n") (st.keys.map (entryText st)) ++
        (if st.keys = [] then [] else lit "\n") ++ lit "  ]" =
          ch '[' :: (lit "\n  " ++ [ch ']']) := by
      rw [h]
      rfl
    rw [hnil, h]
    exact reads_arr_nil (by decide)
  · have hcons : ch '[' :: lit "\n" ++ joinWith (lit ",\n") (st.keys.map (entryText st)) ++
        (if st.keys = [] then [] else lit "\n") ++ lit "  ]" =
          ch '[' :: (lit "\n" ++ (joinWith (ch ',' :: lit "\n") (st.keys.map (entryText st)) ++
            (lit "\n  " ++ [ch ']']))) := by
      have hend : lit "\n" ++ lit "  ]" = lit "\n  " ++ [ch ']'] := by decide
      have hsep : lit ",\n" = ch ',' :: lit "\n" := by decide
      rw [if_neg h, ← hend, hsep]
      simp only [List.append_assoc, List.cons_append]
    obtain ⟨htext, hval⟩ := map_fst_snd st.keys (entryText st) (entryVal st)
    rw [hcons, ← htext, ← hval]
    refine reads_arr (by decide) (by decide) (by decide) (by simpa using h) ?_
    intro y hy
    obtain ⟨key, -, rfl⟩ := List.mem_map.1 hy
    exact reads_entryText st depth key

/-- The members of the object that a file holds. -/
def fileMembers (imageSize : ℕ) : List (Bytes × Bytes × JVal) :=
  [memberText "\n  " "version" ((Nat.toDigits 10 1).map ch) (.num (toDouble (1 : ℕ))),
    memberText "\n  " "image_size" ((Nat.toDigits 10 imageSize).map ch) (.num (toDouble imageSize)),
    memberText "\n  " "functions" (functionsText st) (.arr (st.keys.map (entryVal st)))]

theorem saveText_eq (imageSize : ℕ) :
    saveText imageSize st =
      ch '{' :: (joinWith [ch ','] ((fileMembers st imageSize).map (·.1)) ++
        (lit "\n" ++ [ch '}'])) ++ lit "\n" := by
  have hversion : lit "\x7b\n  \"version\": 1,\n" ++ lit "  \"image_size\": " =
      ch '{' :: (lit "\n  " ++ (jstr (lit "version") ++ lit ": " ++ (Nat.toDigits 10 1).map ch)) ++
        ch ',' :: (lit "\n  " ++ (jstr (lit "image_size") ++ lit ": ")) := by decide
  have hfunctions : lit ",\n" ++ lit "  \"functions\": [\n" =
      ch ',' :: (lit "\n  " ++ (jstr (lit "functions") ++ lit ": ")) ++ ch '[' :: lit "\n" := by
    decide
  have hend : lit "  ]\n\x7d\n" = lit "  ]" ++ (lit "\n" ++ [ch '}']) ++ lit "\n" := by decide
  rw [saveText, hversion, hend, fileMembers, List.map_cons, joinWith_cons]
  rw [List.append_assoc _ (lit ",\n") _, hfunctions]
  simp [memberText, functionsText]

theorem truncate_one : JVal.truncate (some 1) = 1 := by
  rw [JVal.truncate, if_pos (by norm_num), Int.floor_one]
  rfl

/-- A sidecar that has been saved can be read, and has an entry for each identity. -/
theorem readSidecar_saveText (imageSize : ℕ) :
    readSidecar (saveText imageSize st) = some (st.keys.map (entryVal st)) := by
  have hread : value 32 (saveText imageSize st) =
      some (.obj ((fileMembers st imageSize).map (·.2)), lit "\n") := by
    rw [saveText_eq]
    refine reads_obj (by decide) (by decide) (List.cons_ne_nil _ _) ?_ (lit "\n") ?_
    · intro x hx
      simp only [List.mem_cons, List.not_mem_nil, or_false] at hx
      rcases hx with rfl | rfl | rfl
      · exact reads_memberText (by decide) _ (reads_num _ _)
      · exact reads_memberText (by decide) _ (reads_num _ _)
      · exact reads_memberText (by decide) _ (reads_functionsText st _)
    · rintro b ⟨⟩
      exact .inl rfl
  have hversion : (JVal.obj ((fileMembers st imageSize).map (·.2))).u64 "version" 1 = 1 := by
    have hget : (JVal.obj ((fileMembers st imageSize).map (·.2))).get "version" =
        some (.num (toDouble (1 : ℕ))) := rfl
    rw [JVal.u64, hget, Nat.cast_one, toDouble_one]
    exact truncate_one
  have hfunctions : (JVal.obj ((fileMembers st imageSize).map (·.2))).get "functions" =
      some (.arr (st.keys.map (entryVal st))) := rfl
  rw [readSidecar, hread]
  dsimp only
  rw [if_neg (not_not.2 hversion), hfunctions]

end Text

/-! ### What an entry holds -/

section Entry

variable (st : Store) (key : UInt64 × UInt64)

theorem bytes_eq_nil {n : ℕ} {f : Field n} (h : f.isEmpty) : f.bytes = [] :=
  of_decide_eq_true h

theorem getStr_varVal (v : AnnoVar) :
    (varVal v).getStr "from" = v.fromName.bytes ∧ (varVal v).getStr "to" = v.toName.bytes ∧
      (varVal v).getStr "type" = v.type.bytes := by
  refine ⟨rfl, rfl, ?_⟩
  by_cases h : v.type.isEmpty
  · rw [bytes_eq_nil h, JVal.getStr, varVal, varMembers, if_pos h]
    rfl
  · rw [JVal.getStr, varVal, varMembers, if_neg h]
    rfl

theorem u64_entryVal :
    (entryVal st key).u64 "hash" = key.1 ∧ (entryVal st key).u64 "rva" = key.2 :=
  ⟨strtoull_hexText key.1, strtoull_hexText key.2⟩

theorem getStr_entryVal_of_none (h : st.annoOf key = none) :
    (entryVal st key).getStr "name" = [] ∧ (entryVal st key).getStr "comment" = [] := by
  rw [entryVal, entryMembers, h, varsMember]
  split <;> exact ⟨rfl, rfl⟩

theorem getStr_entryVal {a : Anno} (h : st.annoOf key = some a) :
    (entryVal st key).getStr "name" = a.name.bytes ∧
      (entryVal st key).getStr "comment" = a.comment.bytes := by
  rw [entryVal, entryMembers, h, Option.map_some, Option.getD_some, annoMembers, varsMember]
  by_cases hname : a.name.isEmpty
  · rw [if_pos hname, bytes_eq_nil hname]
    by_cases hcomment : a.comment.isEmpty
    · rw [if_pos hcomment, bytes_eq_nil hcomment]
      split <;> exact ⟨rfl, rfl⟩
    · rw [if_neg hcomment]
      split <;> exact ⟨rfl, rfl⟩
  · rw [if_neg hname]
    by_cases hcomment : a.comment.isEmpty
    · rw [if_pos hcomment, bytes_eq_nil hcomment]
      split <;> exact ⟨rfl, rfl⟩
    · rw [if_neg hcomment]
      split <;> exact ⟨rfl, rfl⟩

theorem get_vars_entryVal :
    (entryVal st key).get "vars" =
      if st.varsOf key = [] then none else some (.arr ((st.varsOf key).map varVal)) := by
  rw [entryVal, entryMembers, varsMember]
  cases st.annoOf key with
  | none => split <;> rfl
  | some a =>
    rw [Option.map_some, Option.getD_some, annoMembers]
    split
    · split <;> split <;> rfl
    · split <;> split <;> rfl

/-- The entries that are saved are well formed. -/
theorem isEntry_entryVal : (entryVal st key).isEntry := by
  rw [JVal.isEntry, get_vars_entryVal]
  by_cases h : st.varsOf key = []
  · rw [if_pos h]
    rfl
  · have hobj : ((st.varsOf key).map varVal).all JVal.isObj := by
      rw [List.all_map]
      exact List.all_eq_true.2 fun _ _ ↦ rfl
    rw [if_neg h]
    exact hobj

end Entry

/-! ### What is loaded -/

section Records

theorem strlcpy_bytes {n : ℕ} (f : Field n) : strlcpy n f.bytes = f := by
  have hcstr : cstr f.bytes = f.bytes := by
    rw [cstr, List.takeWhile_eq_self_iff]
    exact fun b hb ↦ decide_eq_true (f.ne_zero b hb)
  refine Field.ext ?_
  rw [bytes_strlcpy, hcstr, List.take_of_length_le f.length_le]

/-- A record as a load leaves it, before everything is bound anew. -/
def Anno.unbound (a : Anno) : Anno :=
  { a with bound := none }

namespace AnnoVar

/-- The record gives the variable a name or a type. -/
def isKept (v : AnnoVar) : Bool :=
  !v.toName.isEmpty || !v.type.isEmpty

/-- A record as a load leaves it, before everything is bound anew. -/
def unbound (v : AnnoVar) : AnnoVar :=
  { v with bound := none }

end AnnoVar

theorem varRecord?_varVal {v : AnnoVar} (hfrom : v.fromName.isEmpty = false) :
    varRecord? v.hash v.rva (varVal v) = if v.isKept then some v.unbound else none := by
  obtain ⟨hfromName, htoName, htype⟩ := getStr_varVal v
  rw [varRecord?, hfromName, htoName, htype, strlcpy_bytes, strlcpy_bytes, strlcpy_bytes]
  rw [Field.isEmpty, decide_eq_false_iff_not] at hfrom
  simp only [hfrom, false_or, AnnoVar.isKept, Field.isEmpty, AnnoVar.unbound]
  by_cases hto : v.toName.bytes = [] <;> by_cases hty : v.type.bytes = [] <;> simp [hto, hty]

theorem varRecords_entryVal {st : Store} (hfrom : ∀ v ∈ st.vars, v.fromName.isEmpty = false)
    (key : UInt64 × UInt64) :
    (entryVal st key).varRecords =
      (st.vars.filter fun v ↦ v.isKept && v.key = key).map (·.unbound) := by
  have hall : ((st.varsOf key).map varVal).takeWhile (·.isObj) = (st.varsOf key).map varVal := by
    rw [List.takeWhile_eq_self_iff]
    intro x hx
    obtain ⟨v, -, rfl⟩ := List.mem_map.1 hx
    rfl
  have hfilter : ((st.varsOf key).map varVal).filterMap (varRecord? key.1 key.2) =
      (st.vars.filter fun v ↦ v.isKept && v.key = key).map (·.unbound) := by
    rw [List.filterMap_map, Store.varsOf, List.filterMap_filter, ← List.filterMap_eq_map,
      List.filterMap_filter]
    refine List.filterMap_congr fun v hv ↦ ?_
    -- The key of the entry is put back into the record.
    by_cases hkey : v.key = key
    · subst hkey
      have hrecord := varRecord?_varVal (hfrom v hv)
      simpa [AnnoVar.key] using hrecord
    · simp [hkey]
  rw [JVal.varRecords, get_vars_entryVal, (u64_entryVal st key).1, (u64_entryVal st key).2]
  by_cases h : st.varsOf key = []
  · rw [if_pos h]
    rw [h] at hfilter
    exact hfilter
  · rw [if_neg h]
    dsimp only
    rw [hall, hfilter]

/-- A record of a function is put back at the end, where the function has none yet. -/
theorem loadFunc_entryVal {st : Store} {a : Anno} (ha : st.annoOf a.key = some a)
    (hkept : a.isKept) {annos : List Anno} (hnew : a.rva ∉ annos.map (·.rva)) :
    loadFunc (entryVal st a.key) annos = annos ++ [a.unbound] := by
  have hupsert : ∀ change : Anno → Anno,
      annoUpsert a.rva change annos = annos ++ [change { rva := a.rva }] := by
    intro change
    induction annos with
    | nil => rfl
    | cons b annos ih =>
      rw [List.map_cons, List.mem_cons, not_or] at hnew
      rw [annoUpsert, if_neg (Ne.symm hnew.1), ih hnew.2]
      rfl
  obtain ⟨hname, hcomment⟩ := getStr_entryVal st a.key ha
  have hsaid : ¬(a.name.bytes = [] ∧ a.comment.bytes = []) := by
    rintro ⟨hname, hcomment⟩
    simp [Anno.isKept, Field.isEmpty, hname, hcomment] at hkept
  have hempty : ∀ {n} (f : Field n),
      (if f.bytes = [] then Field.empty else strlcpy n f.bytes) = f := by
    intro n f
    split
    · next h => exact Field.ext (List.take_nil.trans h.symm)
    · exact strlcpy_bytes f
  rw [loadFunc, hname, hcomment, (u64_entryVal st a.key).1, (u64_entryVal st a.key).2]
  rw [if_neg hsaid, Anno.key, hupsert, hempty, hempty]
  rfl

theorem loadFunc_entryVal_of_none {st : Store} {key : UInt64 × UInt64} (h : st.annoOf key = none)
    (annos : List Anno) : loadFunc (entryVal st key) annos = annos := by
  obtain ⟨hname, hcomment⟩ := getStr_entryVal_of_none st key h
  rw [loadFunc, hname, hcomment]
  exact if_pos ⟨rfl, rfl⟩

end Records

/-! ### Identities -/

section Keys

variable {keys : List (UInt64 × UInt64)}

theorem mem_foldl_addKey (ks : List (UInt64 × UInt64)) {k : UInt64 × UInt64} :
    k ∈ ks.foldl addKey keys ↔ k ∈ keys ∨ k ∈ ks := by
  induction ks generalizing keys with
  | nil => simp
  | cons k' ks ih =>
    rw [List.foldl_cons, ih, addKey]
    split
    · next h =>
      rw [List.mem_cons]
      exact ⟨fun hk ↦ hk.imp_right .inr,
        fun hk ↦ hk.elim .inl fun hk ↦ hk.elim (fun heq ↦ .inl (heq ▸ h)) .inr⟩
    · rw [List.mem_append, List.mem_singleton, List.mem_cons, or_assoc]

theorem nodup_foldl_addKey (ks : List (UInt64 × UInt64)) (h : keys.Nodup) :
    (ks.foldl addKey keys).Nodup := by
  induction ks generalizing keys with
  | nil => exact h
  | cons k ks ih =>
    rw [List.foldl_cons, addKey]
    split
    · exact ih h
    · next hk => exact ih (List.nodup_append_comm.2 (List.nodup_cons.2 ⟨hk, h⟩))

/-- New keys come behind. -/
theorem prefix_foldl_addKey (keys ks : List (UInt64 × UInt64)) : keys <+: ks.foldl addKey keys := by
  induction ks generalizing keys with
  | nil => exact List.prefix_rfl
  | cons k ks ih =>
    rw [List.foldl_cons, addKey]
    split
    · exact ih keys
    · exact (List.prefix_append _ _).trans (ih _)

theorem foldl_addKey_of_nodup {ks : List (UInt64 × UInt64)} (h : (keys ++ ks).Nodup) :
    ks.foldl addKey keys = keys ++ ks := by
  induction ks generalizing keys with
  | nil => exact (List.append_nil keys).symm
  | cons k ks ih =>
    have hk : k ∉ keys := fun hmem ↦ (List.nodup_append.1 h).2.2 k hmem k List.mem_cons_self rfl
    rw [List.append_cons] at h
    rw [List.foldl_cons, addKey, if_neg hk, ih h, ← List.append_cons]

end Keys

/-! ### What edits record -/

section Recorded

/-- No address has two records, and each variable that has a record has a name. -/
structure Recorded (st : Store) : Prop where
  nodup : (st.annos.map (·.rva)).Nodup
  fromName : ∀ v ∈ st.vars, v.fromName.isEmpty = false

theorem nodup_annoUpsert {rva : UInt64} {change : Anno → Anno}
    (hchange : ∀ a, (change a).rva = a.rva) {annos : List Anno}
    (h : (annos.map (·.rva)).Nodup) : ((annoUpsert rva change annos).map (·.rva)).Nodup := by
  have hrva : (annoUpsert rva change annos).map (·.rva) =
      if rva ∈ annos.map (·.rva) then annos.map (·.rva) else annos.map (·.rva) ++ [rva] := by
    induction annos with
    | nil => simp [annoUpsert, hchange]
    | cons a annos ih =>
      rw [annoUpsert, List.map_cons]
      by_cases ha : a.rva = rva
      · simp [ha, hchange]
      · rw [if_neg ha, List.map_cons, ih (List.nodup_cons.1 h).2]
        simp only [List.mem_cons, Ne.symm ha, false_or]
        split <;> rfl
  rw [hrva]
  split
  · exact h
  · next hnew => exact List.nodup_append_comm.2 (List.nodup_cons.2 ⟨hnew, h⟩)

theorem mem_varUpsert {rva : UInt64} {fromName : Bytes} {change : AnnoVar → AnnoVar}
    {vars : List AnnoVar} {v : AnnoVar} (hv : v ∈ varUpsert rva fromName change vars) :
    v ∈ vars ∨ (∃ u ∈ vars, v = change u) ∨
      v = change { rva := rva, fromName := strlcpy 63 fromName } := by
  induction vars with
  | nil => exact .inr (.inr (List.mem_singleton.1 hv))
  | cons u vars ih =>
    rw [varUpsert] at hv
    split at hv
    · rcases List.mem_cons.1 hv with rfl | hv
      · exact .inr (.inl ⟨u, List.mem_cons_self, rfl⟩)
      · exact .inl (List.mem_cons_of_mem _ hv)
    · rcases List.mem_cons.1 hv with rfl | hv
      · exact .inl List.mem_cons_self
      · rcases ih hv with hv | ⟨w, hw, rfl⟩ | hv
        · exact .inl (List.mem_cons_of_mem _ hv)
        · exact .inr (.inl ⟨w, List.mem_cons_of_mem _ hw, rfl⟩)
        · exact .inr (.inr hv)

theorem Recorded.annoVarUpsert {st : Store} (h : Recorded st) (e : Engine) (rva : UInt64)
    {fromName : Bytes} (hfrom : cstr fromName ≠ []) {change : AnnoVar → AnnoVar}
    (hchange : ∀ v, (change v).fromName = v.fromName) :
    Recorded (annoVarUpsert e rva fromName change st) where
  nodup := h.nodup
  fromName v hv := by
    have hname : ∀ v : AnnoVar, (change (v.identify e)).fromName = v.fromName :=
      fun v ↦ hchange _
    rcases mem_varUpsert hv with hv | ⟨u, hu, rfl⟩ | rfl
    · exact h.fromName v hv
    · rw [hname]
      exact h.fromName u hu
    · rw [hname, Field.isEmpty, bytes_strlcpy, decide_eq_false_iff_not, List.take_eq_nil_iff]
      exact fun hnil ↦ hnil.elim (by decide) hfrom

theorem Recorded.apply {st : Store} (h : Recorded st) (e : Engine) (d : Edit) :
    Recorded (d.apply e st) := by
  cases d with
  | func rva name comment =>
    have hrva : ∀ a : Anno, (a.edit e name comment).rva = a.rva := fun _ ↦ rfl
    exact ⟨nodup_annoUpsert hrva h.nodup, h.fromName⟩
  | var rva fromName toName =>
    rw [Edit.apply, setVarAnno]
    split
    · exact h
    · next hne => exact h.annoVarUpsert e rva (not_or.1 hne).1 fun _ ↦ rfl
  | type rva v t =>
    rw [Edit.apply, setVarType]
    split
    · exact h
    · next hne => exact h.annoVarUpsert e rva hne fun _ ↦ rfl

/-- The store after edits. -/
def edited (ds : List (Engine × Edit)) : Store :=
  run (ds.map fun d ↦ (d.1, .edit d.2))

theorem recorded_edited (ds : List (Engine × Edit)) : Recorded (edited ds) := by
  have hfold : ∀ (ds : List (Engine × Edit)) st, Recorded st →
      Recorded (ds.foldl (fun st d ↦ d.2.apply d.1 st) st) := by
    intro ds
    induction ds with
    | nil => exact fun _ h ↦ h
    | cons d ds ih => exact fun _ h ↦ ih _ (h.apply d.1 d.2)
  rw [edited, run, List.foldl_map]
  exact hfold ds {} ⟨List.nodup_nil, fun _ hv ↦ absurd hv List.not_mem_nil⟩

end Recorded

/-! ### Loading what was saved -/

section RoundTrip

variable {st : Store}

theorem readable_of_all {fns : List JVal} (h : fns.all (·.isEntry)) : readable fns = fns := by
  induction fns with
  | nil => rfl
  | cons fn fns ih =>
    rw [List.all_cons, Bool.and_eq_true] at h
    rw [readable, if_pos h.1, ih h.2]

theorem annoOf_key (h : Recorded st) {a : Anno} (ha : a ∈ st.annos) (hkept : a.isKept) :
    st.annoOf a.key = some a := by
  have hmem : a ∈ st.annos.filter fun b ↦ b.isKept && b.key = a.key :=
    List.mem_filter.2 ⟨ha, by rw [hkept, decide_eq_true rfl]; rfl⟩
  cases hlast : st.annoOf a.key with
  | none =>
    rw [Store.annoOf, List.getLast?_eq_none_iff] at hlast
    rw [hlast] at hmem
    cases hmem
  | some b =>
    have hb := List.mem_filter.1 (List.mem_of_getLast? hlast)
    have hkey := hb.2
    rw [Bool.and_eq_true, decide_eq_true_eq] at hkey
    rw [List.inj_on_of_nodup_map h.nodup hb.1 ha (congrArg Prod.snd hkey.2)]

theorem annoOf_eq_none {key : UInt64 × UInt64}
    (h : key ∉ (st.annos.filter (·.isKept)).map (·.key)) : st.annoOf key = none := by
  rw [Store.annoOf, List.getLast?_eq_none_iff, List.filter_eq_nil_iff]
  intro a ha hkept
  rw [Bool.and_eq_true, decide_eq_true_eq] at hkept
  exact h (hkept.2 ▸ List.mem_map_of_mem (List.mem_filter.2 ⟨ha, hkept.1⟩))

/-- The identities of functions are saved first, each one once. -/
theorem keys_eq (h : Recorded st) :
    ∃ extra, st.keys = (st.annos.filter (·.isKept)).map (·.key) ++ extra ∧ st.keys.Nodup := by
  have hnodup : ((st.annos.filter (·.isKept)).map (·.key)).Nodup := by
    have hrva : ((st.annos.filter (·.isKept)).map (·.rva)).Nodup :=
      h.nodup.sublist (List.filter_sublist.map _)
    exact List.Nodup.of_map Prod.snd (by rwa [List.map_map])
  have hkept : ((st.annos.filter (·.isKept)).map (·.key)).foldl addKey [] =
      (st.annos.filter (·.isKept)).map (·.key) := foldl_addKey_of_nodup hnodup
  obtain ⟨extra, hextra⟩ :=
    prefix_foldl_addKey ((st.annos.filter (·.isKept)).map (·.key)) (st.vars.map (·.key))
  refine ⟨extra, ?_, nodup_foldl_addKey _ List.nodup_nil⟩
  rw [Store.keys, List.foldl_append, hkept, hextra]

/-- Records with addresses of their own are put back one behind the other. -/
theorem foldl_loadFunc (h : Recorded st) {kept annos : List Anno}
    (hkept : ∀ a ∈ kept, a ∈ st.annos ∧ a.isKept)
    (hnodup : (annos.map (·.rva) ++ kept.map (·.rva)).Nodup) :
    (kept.map (·.key)).foldl (fun annos key ↦ loadFunc (entryVal st key) annos) annos =
      annos ++ kept.map (·.unbound) := by
  induction kept generalizing annos with
  | nil => exact (List.append_nil annos).symm
  | cons a kept ih =>
    obtain ⟨hmem, ha⟩ := hkept a List.mem_cons_self
    have hnew : a.rva ∉ annos.map (·.rva) := fun hold ↦
      (List.nodup_append.1 hnodup).2.2 a.rva hold a.rva List.mem_cons_self rfl
    have hnodup' : ((annos ++ [a.unbound]).map (·.rva) ++ kept.map (·.rva)).Nodup := by
      rw [List.map_append, List.append_assoc]
      exact hnodup
    rw [List.map_cons, List.foldl_cons, loadFunc_entryVal (annoOf_key h hmem ha) ha hnew,
      ih (fun b hb ↦ hkept b (List.mem_cons_of_mem _ hb)) hnodup', List.map_cons,
      ← List.append_cons]

theorem all_isEntry (st : Store) : (st.keys.map (entryVal st)).all (·.isEntry) := by
  rw [List.all_map]
  exact List.all_eq_true.2 fun key _ ↦ isEntry_entryVal st key

theorem annos_recordsOf (h : Recorded st) :
    (recordsOf (st.keys.map (entryVal st))).annos =
      (st.annos.filter (·.isKept)).map (·.unbound) := by
  obtain ⟨extra, hkeys, hnodup⟩ := keys_eq h
  have hnone : ∀ key ∈ extra, st.annoOf key = none := fun key hkey ↦
    annoOf_eq_none fun hold ↦ (List.nodup_append.1 (hkeys ▸ hnodup)).2.2 key hold key hkey rfl
  have hextra : ∀ annos : List Anno,
      extra.foldl (fun annos key ↦ loadFunc (entryVal st key) annos) annos = annos := by
    clear hkeys
    -- The other entries only hold variables.
    induction extra with
    | nil => exact fun _ ↦ rfl
    | cons key extra ih =>
      intro annos
      rw [List.foldl_cons, loadFunc_entryVal_of_none (hnone key List.mem_cons_self)]
      exact ih (fun k hk ↦ hnone k (List.mem_cons_of_mem _ hk)) annos
  rw [recordsOf, readable_of_all (all_isEntry st)]
  dsimp only
  rw [List.foldl_map, hkeys, List.foldl_append, foldl_loadFunc h, hextra, List.nil_append]
  · exact fun a ha ↦ List.mem_filter.1 ha
  · exact h.nodup.sublist (List.filter_sublist.map _)

/-- Of what is recorded under all keys, the part with one of them is what is recorded under that. -/
theorem filter_flatMap_key {keys : List (UInt64 × UInt64)} (hnodup : keys.Nodup)
    {f : UInt64 × UInt64 → List AnnoVar} (hf : ∀ k, ∀ v ∈ f k, v.key = k) (key : UInt64 × UInt64) :
    (keys.flatMap f).filter (·.key = key) = if key ∈ keys then f key else [] := by
  induction keys with
  | nil => rfl
  | cons k keys ih =>
    obtain ⟨hk, hkeys⟩ := List.nodup_cons.1 hnodup
    rw [List.flatMap_cons, List.filter_append, ih hkeys]
    by_cases heq : k = key
    · subst heq
      rw [if_neg hk, if_pos List.mem_cons_self, List.append_nil]
      exact List.filter_eq_self.2 fun v hv ↦ decide_eq_true (hf k v hv)
    · have hnone : (f k).filter (·.key = key) = [] :=
        List.filter_eq_nil_iff.2 fun v hv ↦ by simpa [hf k v hv] using heq
      rw [hnone, List.nil_append]
      simp [Ne.symm heq]

theorem vars_recordsOf (h : Recorded st) (key : UInt64 × UInt64) :
    (recordsOf (st.keys.map (entryVal st))).vars.filter (·.key = key) =
      (st.vars.filter fun v ↦ v.isKept && v.key = key).map (·.unbound) := by
  obtain ⟨-, -, hnodup⟩ := keys_eq h
  rw [recordsOf, readable_of_all (all_isEntry st)]
  dsimp only
  rw [List.flatMap_map]
  simp only [varRecords_entryVal h.fromName]
  rw [filter_flatMap_key hnodup]
  · split
    · rfl
    · next hkey =>
      rw [List.filter_eq_nil_iff.2, List.map_nil]
      intro v hv hkept
      rw [Bool.and_eq_true, decide_eq_true_eq] at hkept
      refine hkey ((mem_foldl_addKey _).2 (.inr (List.mem_append_right _ ?_)))
      exact hkept.2 ▸ List.mem_map_of_mem hv
  · intro k v hv
    obtain ⟨u, hu, rfl⟩ := List.mem_map.1 hv
    have hkept := (List.mem_filter.1 hu).2
    rw [Bool.and_eq_true, decide_eq_true_eq] at hkept
    exact hkept.2

/-- What a record says, without what it is bound to. -/
def Anno.content (a : Anno) : UInt64 × UInt64 × Field 95 × Field 255 :=
  (a.hash, a.rva, a.name, a.comment)

def AnnoVar.content (v : AnnoVar) : Field 63 × Field 63 × Field 63 :=
  (v.fromName, v.toName, v.type)

theorem content_bindAnnos (e : Engine) (owned : List ℕ) (annos : List Anno) :
    (bindAnnos e owned annos).map (·.content) = annos.map (·.content) := by
  induction annos generalizing owned with
  | nil => rfl
  | cons a annos ih =>
    rw [bindAnnos]
    split
    · split <;> exact congrArg (a.content :: ·) (ih _)
    · exact congrArg (a.content :: ·) (ih _)

/-- What edits have recorded comes back from the sidecar: the annotations of functions in their
order, and those of variables in their order under each identity. -/
theorem load_saveText (ds : List (Engine × Edit)) (imageSize : ℕ) (e : Engine) (st : Store) :
    let r := load e (some (saveText imageSize (edited ds))) st
    r.1 = 0 ∧
      r.2.annos.map (·.content) = ((edited ds).annos.filter (·.isKept)).map (·.content) ∧
      ∀ key, (r.2.vars.filter (·.key = key)).map (·.content) =
        ((edited ds).vars.filter fun v ↦ v.isKept && v.key = key).map (·.content) := by
  have hrec := recorded_edited ds
  dsimp only
  rw [load_of_readSidecar (readSidecar_saveText _ _), if_pos (all_isEntry _)]
  -- What `resolve` changes is what the records are bound to.
  refine ⟨rfl, ?_, fun key ↦ ?_⟩
  · rw [resolve, content_bindAnnos, annos_recordsOf hrec, List.map_map]
    rfl
  · have hvars := congrArg (List.map AnnoVar.content) (vars_recordsOf hrec key)
    rw [resolve]
    dsimp only
    rw [List.filter_map, List.map_map]
    rw [List.map_map] at hvars
    exact hvars

end RoundTrip

end Annotations

end Ldu
