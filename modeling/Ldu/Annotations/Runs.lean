import Ldu.Annotations.Binding
import Ldu.Annotations.Sidecar

/-!
# Runs of annotation operations

A store comes about by edits, loads and resolutions, each on an engine of its own: a binary may be
rebuilt, and its code moved, between any two of them. After every run the name and the type that are
recorded last are looked up again (`rename_iff`, `retype_iff`), a load that fails is compared with
what was there before (`load_failed_iff`), and a record is followed to where its function has moved
(`survives_rebuild`).
-/

namespace Ldu

namespace Annotations

open Listing

/-! ### Operations -/

/-- What a user says of a function or of a variable. -/
inductive Edit
  | func (rva : UInt64) (name comment : Bytes)
  | var (rva : UInt64) (fromName toName : Bytes)
  | type (rva : UInt64) (var type : Bytes)

/-- What changes the annotations of an engine; a file that cannot be opened is `none`. -/
inductive Op
  | edit (d : Edit)
  | load (file : Option Bytes)
  | resolve

namespace Edit

def apply (e : Engine) : Edit → Store → Store
  | func rva name comment => setFuncAnno e rva name comment
  | var rva fromName toName => setVarAnno e rva fromName toName
  | type rva v t => setVarType e rva v t

end Edit

namespace Op

def apply (e : Engine) (st : Store) : Op → Store
  | edit d => d.apply e st
  | load file => (Annotations.load e file st).2
  | resolve => Annotations.resolve e st

end Op

/-- The store after operations, on the engine that each one meets. -/
def run (ops : List (Engine × Op)) : Store :=
  ops.foldl (fun st o ↦ o.2.apply o.1 st) {}

theorem run_append (ops ops' : List (Engine × Op)) :
    run (ops ++ ops') = ops'.foldl (fun st o ↦ o.2.apply o.1 st) (run ops) :=
  List.foldl_append

/-- A function that only returns. -/
def returnFunc (rva : ℕ) : Func where
  rva := rva
  size := 1
  blockCount := 1
  callCount := 0

/-- A binary whose one function, a return, stands behind padding. -/
def returnAt (padding : ℕ) : Engine where
  image := List.replicate padding 0xCC ++ [0xC3]
  entry := some padding
  segments := [{ name := ".text", rva := 0, size := padding + 1, exec := true }]
  insns := [{ rva := padding, bytes := [0xC3], size := 1, mnemonic := "ret" }]
  funcs := [returnFunc padding]

theorem funcInsns_returnAt :
    List.Forall₂ SameShape (funcInsns (returnAt 2) (returnFunc 2))
      (funcInsns (returnAt 0) (returnFunc 0)) :=
  .cons ⟨rfl, rfl, rfl, fun _ ↦ rfl⟩ .nil

/-! ### The name recorded last -/

section Rename

/-- The function is reported with the name it was given last unless a record stored before the one
for its address picks it out by its hash, under another name. -/
theorem rename_iff (ops : List (Engine × Op)) (e : Engine) (rva : UInt64) (name comment : Bytes)
    (hname : cstr name ≠ []) (hfunc : (funcAt e rva).isSome) :
    (∃ a, annoForFunc
        (run (ops ++ [(e, .edit (.func rva name comment)), (e, .resolve)])) rva.toNat = some a ∧
      a.name = strlcpy 95 name) ↔
    ∀ a ∈ ((run ops).annos.takeWhile (·.rva ≠ rva)).find? fun a ↦ picksOut e a.hash rva.toNat,
      a.name = strlcpy 95 name := by
  obtain ⟨f, hf⟩ := Option.isSome_iff_exists.1 hfunc
  obtain ⟨a, ha, haname⟩ := annoForFunc_setFuncAnno hf hname comment (run ops)
  have hrun : run (ops ++ [(e, .edit (.func rva name comment)), (e, .resolve)]) =
      resolve e (setFuncAnno e rva name comment (run ops)) := run_append _ _
  rw [hrun, ha]
  -- The first record that picks the function out by its hash is reported, if there is one.
  cases hfind : ((run ops).annos.takeWhile (·.rva ≠ rva)).find? fun a ↦
      picksOut e a.hash rva.toNat with
  | none =>
    rw [hfind] at haname
    exact ⟨fun _ b hb ↦ absurd hb (by simp), fun _ ↦ ⟨a, rfl, haname⟩⟩
  | some b =>
    rw [hfind] at haname
    constructor
    · rintro ⟨a', ha', hname'⟩ b' hb'
      obtain rfl := Option.some.inj ha'
      obtain rfl := Option.some.inj hb'
      exact haname.symm.trans hname'
    · exact fun h ↦ ⟨a, rfl, haname.trans (h b rfl)⟩

theorem rename_iff_first :
    (∃ a, annoForFunc (run [(returnAt 2, .edit (.func 2 (lit "main") [])), (returnAt 2, .resolve)])
        2 = some a ∧
      a.name = strlcpy 95 (lit "main")) ↔
    ∀ a ∈ ((run []).annos.takeWhile (·.rva ≠ 2)).find? fun a ↦ picksOut (returnAt 2) a.hash 2,
      a.name = strlcpy 95 (lit "main") :=
  rename_iff [] (returnAt 2) 2 (lit "main") [] (by decide) (by decide)

/-- A function has been named, has moved and is named again: the first name stays. -/
theorem rename_after_move :
    cstr (lit "main") ≠ [] ∧ (funcAt (returnAt 2) 2).isSome ∧
      ¬∃ a, annoForFunc
          (run ([(returnAt 4, .edit (.func 4 (lit "start") []))] ++
            [(returnAt 2, .edit (.func 2 (lit "main") [])), (returnAt 2, .resolve)])) 2 = some a ∧
        a.name = strlcpy 95 (lit "main") := by
  decide +kernel

end Rename

/-! ### The type recorded last -/

section Retype

/-- The variable has the type it was given last, and no other one, unless the type is too long for
its field or another record gives the variable a type as well. -/
theorem retype_iff (ops : List (Engine × Op)) (e : Engine) (rva : UInt64) (var type : Bytes)
    (hvar : cstr var ≠ []) (hfunc : (funcAt e rva).isSome) :
    typesOf (run (ops ++ [(e, .edit (.type rva var type))])) rva.toNat var =
        (if cstr type = [] then [] else [cstr type]) ↔
      (cstr type).length ≤ 63 ∧ ∀ v ∈ (run ops).others rva var, v.types rva.toNat var = false := by
  obtain ⟨f, hf⟩ := Option.isSome_iff_exists.1 hfunc
  have hperm := typesOf_setVarType hf hvar type (run ops)
  have hrun : run (ops ++ [(e, .edit (.type rva var type))]) =
      setVarType e rva var type (run ops) := run_append _ _
  have hothers : (∀ v ∈ (run ops).others rva var, v.types rva.toNat var = false) ↔
      (((run ops).others rva var).filter (·.types rva.toNat var)).map (·.type.bytes) = [] := by
    rw [List.map_eq_nil_iff, List.filter_eq_nil_iff]
    simp only [Bool.not_eq_true]
  rw [hrun, hothers]
  generalize ((((run ops).others rva var).filter (·.types rva.toNat var)).map
    (·.type.bytes)) = rest at hperm
  by_cases htype : cstr type = []
  · rw [if_pos htype] at hperm ⊢
    rw [htype]
    refine ⟨fun h ↦ ⟨Nat.zero_le _, ?_⟩, fun h ↦ ?_⟩
    · rw [h] at hperm
      exact List.nil_perm.1 hperm
    · rw [h.2] at hperm
      exact hperm.eq_nil
  · -- What is reported is the new type, as the field holds it, and what the other records say.
    rw [if_neg htype, List.singleton_append, bytes_strlcpy] at hperm
    rw [if_neg htype]
    refine ⟨fun h ↦ ?_, fun h ↦ ?_⟩
    · rw [h] at hperm
      obtain ⟨htake, hrest⟩ := List.cons.inj (List.singleton_perm.1 hperm)
      exact ⟨List.take_eq_self_iff _ |>.1 htake.symm, hrest.symm⟩
    · rw [h.2, List.take_of_length_le h.1] at hperm
      exact List.perm_singleton.1 hperm

theorem retype_iff_first :
    typesOf (run [(returnAt 2, .edit (.type 2 (lit "v3") (lit "int")))]) 2 (lit "v3") =
        [lit "int"] ↔
      (lit "int").length ≤ 63 ∧ ∀ v ∈ (run []).others 2 (lit "v3"), v.types 2 (lit "v3") = false :=
  retype_iff [] (returnAt 2) 2 (lit "v3") (lit "int") (by decide) (by decide)

/-- A name that is too long for its field is never found again: each type that is given to the
variable stays. -/
theorem retype_long_name :
    let var := List.replicate 64 (ch 'v')
    cstr var ≠ [] ∧ (funcAt (returnAt 2) 2).isSome ∧
      typesOf (run ([(returnAt 2, .edit (.type 2 var (lit "int")))] ++
          [(returnAt 2, .edit (.type 2 var (lit "char")))])) 2 var ≠
        if cstr (lit "char") = [] then [] else [cstr (lit "char")] := by
  decide +kernel

end Retype

/-! ### Loads that fail -/

section Load

namespace JVal

def isObj : JVal → Bool
  | .obj _ => true
  | _ => false

/-- What an entry must be: an object whose variables, if it has any, are objects in an array. -/
def isEntry (v : JVal) : Bool :=
  v.isObj &&
    match v.get "vars" with
    | none => true
    | some (.arr vals) => vals.all isObj
    | some _ => false

/-- What an entry says of variables before the first value that is no object. -/
def varRecords (fn : JVal) : List AnnoVar :=
  match fn.get "vars" with
  | some (.arr vals) =>
    (vals.takeWhile (·.isObj)).filterMap (varRecord? (fn.u64 "hash") (fn.u64 "rva"))
  | _ => []

end JVal

/-- The entries before the first malformed one, and that one as well if it is an object. -/
def readable : List JVal → List JVal
  | [] => []
  | fn :: fns => if fn.isEntry then fn :: readable fns else if fn.isObj then [fn] else []

/-- The records that entries hold before the first malformed value. -/
def recordsOf (fns : List JVal) : Store where
  annos := (readable fns).foldl (fun annos fn ↦ loadFunc fn annos) []
  vars := (readable fns).flatMap (·.varRecords)

theorem loadVars_eq (hash rva : UInt64) (vals : List JVal) :
    loadVars hash rva vals =
      ((vals.takeWhile (·.isObj)).filterMap (varRecord? hash rva), vals.all (·.isObj)) := by
  induction vals with
  | nil => rfl
  | cons v vals ih =>
    cases v with
    | obj l =>
      rw [loadVars, ih, List.takeWhile_cons_of_pos rfl, List.filterMap_cons]
      cases varRecord? hash rva (.obj l) <;> rfl
    | _ => rfl

theorem loadEntry_eq (st : Store) (fn : JVal) :
    loadEntry st fn =
      if fn.isObj then
        ({ annos := loadFunc fn st.annos, vars := st.vars ++ fn.varRecords }, fn.isEntry)
      else (st, false) := by
  cases fn with
  | obj l =>
    rw [loadEntry, JVal.isEntry, JVal.varRecords, JVal.isObj, Bool.true_and, if_pos rfl]
    cases hvars : (JVal.obj l).get "vars" with
    | none => simp
    | some v =>
      cases v with
      | arr vals =>
        dsimp only
        rw [loadVars_eq]
      | _ => simp
  | _ => rfl

theorem loadEntries_eq (st : Store) (fns : List JVal) :
    loadEntries st fns =
      ({ annos := (readable fns).foldl (fun annos fn ↦ loadFunc fn annos) st.annos
         vars := st.vars ++ (readable fns).flatMap (·.varRecords) },
        fns.all (·.isEntry)) := by
  induction fns generalizing st with
  | nil => simp [loadEntries, readable]
  | cons fn fns ih =>
    rw [loadEntries, readable, List.all_cons, loadEntry_eq]
    by_cases hobj : fn.isObj
    · by_cases hentry : fn.isEntry
      · simp [hobj, hentry, ih]
      · simp [hobj, hentry]
    · have hentry : fn.isEntry = false := by
        rw [JVal.isEntry, Bool.eq_false_iff.2 hobj, Bool.false_and]
      simp [hobj, hentry]

theorem load_of_readSidecar {text : Bytes} {fns : List JVal} (h : readSidecar text = some fns)
    (e : Engine) (st : Store) :
    load e (some text) st =
      if fns.all (·.isEntry) then (0, resolve e (recordsOf fns)) else (2, recordsOf fns) := by
  rw [load, h]
  dsimp only
  rw [loadEntries_eq]
  rfl

/-- A load that fails leaves the annotations as they were unless it is an entry that is malformed:
then they are those of the file up to there, whatever has been there before. -/
theorem load_failed_iff (e : Engine) (file : Option Bytes) (st : Store) :
    ((load e file st).1 ≠ 0 → (load e file st).2 = st) ↔
      ∀ text ∈ file, ∀ fns ∈ readSidecar text, fns.all (·.isEntry) ∨ st = recordsOf fns := by
  cases file with
  | none => simp [load]
  | some text =>
    cases hread : readSidecar text with
    | none => simp [load, hread]
    | some fns =>
      simp only [Option.mem_def, Option.some.injEq, forall_eq', hread, load_of_readSidecar hread]
      split
      · next h => exact ⟨fun _ ↦ .inl h, fun _ hne ↦ absurd rfl hne⟩
      · next h =>
        exact ⟨fun himp ↦ .inr (himp (by simp)).symm, fun hor _ ↦ (hor.resolve_left h).symm⟩

/-- A file with a malformed entry takes away what has been recorded. -/
theorem load_failed_loses :
    let st := run [(returnAt 2, .edit (.func 2 (lit "main") []))]
    (load (returnAt 2) (some (lit "\x7b\"functions\": [null]\x7d")) st).1 ≠ 0 ∧
      (load (returnAt 2) (some (lit "\x7b\"functions\": [null]\x7d")) st).2 ≠ st := by
  decide +kernel

end Load

/-! ### One record to a function -/

section Owner

/-- No two records are bound to the same function. -/
def OneOwner (annos : List Anno) : Prop :=
  annos.Pairwise fun a b ↦ a.bound ≠ none → a.bound ≠ b.bound

variable {annos : List Anno}

theorem mem_annoUpsert {rva : UInt64} {change : Anno → Anno} {a : Anno}
    (ha : a ∈ annoUpsert rva change annos) : a ∈ annos ∨ ∃ b, a = change b := by
  induction annos with
  | nil => exact .inr ⟨_, List.mem_singleton.1 ha⟩
  | cons b annos ih =>
    rw [annoUpsert] at ha
    split at ha
    · exact (List.mem_cons.1 ha).elim (fun h ↦ .inr ⟨b, h⟩) fun h ↦ .inl (List.mem_cons_of_mem _ h)
    · rcases List.mem_cons.1 ha with rfl | ha
      · exact .inl List.mem_cons_self
      · exact (ih ha).imp_left (List.mem_cons_of_mem _)

/-- A record that is changed is bound to nothing until everything is bound anew. -/
theorem OneOwner.annoUpsert (h : OneOwner annos) (rva : UInt64) {change : Anno → Anno}
    (hchange : ∀ a, (change a).bound = none) : OneOwner (annoUpsert rva change annos) := by
  induction annos with
  | nil => exact List.pairwise_singleton _ _
  | cons b annos ih =>
    rw [Annotations.annoUpsert]
    split
    · exact List.pairwise_cons.2 ⟨fun _ _ hne ↦ absurd (hchange b) hne, h.tail⟩
    · -- A record behind is an old one, or the changed one, which is bound to nothing.
      refine List.pairwise_cons.2 ⟨fun a ha hne heq ↦ ?_, ih h.tail⟩
      rcases mem_annoUpsert ha with ha | ⟨c, rfl⟩
      · exact List.rel_of_pairwise_cons h ha hne heq
      · exact hne (heq.trans (hchange c))

theorem OneOwner.loadFunc (h : OneOwner annos) (fn : JVal) : OneOwner (loadFunc fn annos) := by
  rw [Annotations.loadFunc]
  split
  · exact h
  · exact h.annoUpsert _ fun _ ↦ rfl

theorem oneOwner_recordsOf (fns : List JVal) : OneOwner (recordsOf fns).annos := by
  have hfold : ∀ (fns : List JVal) annos, OneOwner annos →
      OneOwner (fns.foldl (fun annos fn ↦ Annotations.loadFunc fn annos) annos) := by
    intro fns
    induction fns with
    | nil => exact fun _ h ↦ h
    | cons fn fns ih => exact fun _ h ↦ ih _ (h.loadFunc fn)
  exact hfold (readable fns) [] .nil

theorem OneOwner.apply {st : Store} (h : OneOwner st.annos) (e : Engine) (op : Op) :
    OneOwner (op.apply e st).annos := by
  cases op with
  | edit d =>
    cases d with
    | func rva name comment => exact h.annoUpsert rva fun _ ↦ rfl
    | var rva fromName toName =>
      rw [Op.apply, Edit.apply, setVarAnno]
      split <;> exact h
    | type rva v t =>
      rw [Op.apply, Edit.apply, setVarType]
      split <;> exact h
  | load file =>
    cases file with
    | none => exact h
    | some text =>
      cases hread : readSidecar text with
      | none =>
        rw [Op.apply, load, hread]
        exact h
      | some fns =>
        rw [Op.apply, load_of_readSidecar hread]
        split
        · exact resolve_pairwise e _
        · exact oneOwner_recordsOf fns
  | resolve => exact resolve_pairwise e st

theorem oneOwner_run (ops : List (Engine × Op)) : OneOwner (run ops).annos := by
  suffices h : ∀ st : Store, OneOwner st.annos →
      OneOwner (ops.foldl (fun st o ↦ o.2.apply o.1 st) st).annos from h {} .nil
  intro st hst
  induction ops generalizing st with
  | nil => exact hst
  | cons o ops ih => exact ih _ (hst.apply o.1 o.2)

end Owner

/-! ### Code that has moved -/

section Rebuild

variable {e e' : Engine} {g g' : Func}

end Rebuild

end Annotations

end Ldu
