import Ldu.Annotations.Json

/-!
# The sidecar of a binary

`load` replaces the annotations by those of a file, and `saveText` is what is written to one. An
entry of the file stands for a function, by the hash and the address that were recorded, and holds
its annotation and those of its variables.
-/

namespace Ldu

namespace Annotations

open Listing

/-! ### Loading -/

/-- The entries that a file has for functions, if the file can be read: it holds an object of
version 1. -/
def readSidecar (text : Bytes) : Option (List JVal) :=
  match value 32 text with
  | some (root, _) =>
    match root with
    | .obj _ =>
      if root.u64 "version" 1 ≠ 1 then none
      else
        match root.get "functions" with
        | some (.arr fns) => some fns
        | some _ => none
        | none => some []
    | _ => none
  | none => none

/-- The annotation of a variable, if the object has one. -/
def varRecord? (hash rva : UInt64) (v : JVal) : Option AnnoVar :=
  if v.getStr "from" = [] ∨ v.getStr "to" = [] ∧ v.getStr "type" = [] then none
  else
    some
      { hash := hash
        rva := rva
        fromName := strlcpy 63 (v.getStr "from")
        toName := strlcpy 63 (v.getStr "to")
        type := strlcpy 63 (v.getStr "type") }

/-- The annotations of variables up to the first value that is no object, and whether there is
none. -/
def loadVars (hash rva : UInt64) : List JVal → List AnnoVar × Bool
  | [] => ([], true)
  | .obj l :: vals =>
    let r := loadVars hash rva vals
    ((varRecord? hash rva (.obj l)).toList ++ r.1, r.2)
  | _ :: _ => ([], false)

/-- The annotation of a function, if the object has one. -/
def loadFunc (fn : JVal) (annos : List Anno) : List Anno :=
  let name := fn.getStr "name"
  let comment := fn.getStr "comment"
  if name = [] ∧ comment = [] then annos
  else
    annoUpsert (fn.u64 "rva")
      (fun a ↦
        { a with
          hash := fn.u64 "hash"
          bound := none
          name := if name = [] then a.name else strlcpy 95 name
          comment := if comment = [] then a.comment else strlcpy 255 comment })
      annos

/-- One entry, which must be an object; what of it has been recorded before it turns out to be
malformed stays. -/
def loadEntry (st : Store) : JVal → Store × Bool
  | .obj l =>
    let fn := JVal.obj l
    let st := { st with annos := loadFunc fn st.annos }
    match fn.get "vars" with
    | none => (st, true)
    | some (.arr vals) =>
      let r := loadVars (fn.u64 "hash") (fn.u64 "rva") vals
      ({ st with vars := st.vars ++ r.1 }, r.2)
    | some _ => (st, false)
  | _ => (st, false)

/-- The entries up to the first one that is malformed. -/
def loadEntries (st : Store) : List JVal → Store × Bool
  | [] => (st, true)
  | fn :: fns =>
    let r := loadEntry st fn
    if r.2 then loadEntries r.1 fns else (r.1, false)

/-- `ds_engine_load_annotations`, given what the file holds if it can be opened, with the value that
it returns. The store is emptied before the entries are read. -/
def load (e : Engine) (file : Option Bytes) (st : Store) : ℕ × Store :=
  match file with
  | none => (1, st)
  | some text =>
    match readSidecar text with
    | none => (2, st)
    | some fns =>
      let r := loadEntries {} fns
      if r.2 then (0, resolve e r.1) else (2, r.1)

/-! ### Saving -/

/-- A key, if it is new. -/
def addKey (keys : List (UInt64 × UInt64)) (key : UInt64 × UInt64) : List (UInt64 × UInt64) :=
  if key ∈ keys then keys else keys ++ [key]

namespace Anno

def key (a : Anno) : UInt64 × UInt64 :=
  (a.hash, a.rva)

/-- The record has a name or a comment, and is saved. -/
def isKept (a : Anno) : Bool :=
  !a.name.isEmpty || !a.comment.isEmpty

end Anno

def AnnoVar.key (v : AnnoVar) : UInt64 × UInt64 :=
  (v.hash, v.rva)

namespace Store

variable (st : Store)

/-- The identities that are saved, in the order they come up. -/
def keys : List (UInt64 × UInt64) :=
  ((st.annos.filter (·.isKept)).map (·.key) ++ st.vars.map (·.key)).foldl addKey []

/-- The annotation that is saved for an identity. -/
def annoOf (key : UInt64 × UInt64) : Option Anno :=
  (st.annos.filter fun a ↦ a.isKept && a.key = key).getLast?

/-- The annotations of variables that are saved for an identity. -/
def varsOf (key : UInt64 × UInt64) : List AnnoVar :=
  st.vars.filter (·.key = key)

end Store

/-- Pieces of text with a separator between them. -/
def joinWith (sep : Bytes) : List Bytes → Bytes
  | [] => []
  | [s] => s
  | s :: t :: ss => s ++ sep ++ joinWith sep (t :: ss)

/-- The object of a variable. -/
def varText (v : AnnoVar) : Bytes :=
  lit "\x7b \"from\": " ++ jstr v.fromName.bytes ++ lit ", \"to\": " ++ jstr v.toName.bytes ++
    (if v.type.isEmpty then [] else lit ", \"type\": " ++ jstr v.type.bytes) ++ lit " \x7d"

/-- The members of an entry that say something of the function. -/
def annoText (a : Anno) : Bytes :=
  (if a.name.isEmpty then [] else lit ", \"name\": " ++ jstr a.name.bytes) ++
    if a.comment.isEmpty then [] else lit ", \"comment\": " ++ jstr a.comment.bytes

/-- The entry for an identity. -/
def entryText (st : Store) (key : UInt64 × UInt64) : Bytes :=
  lit "    \x7b \"hash\": " ++ jhex key.1 ++ lit ", \"rva\": " ++ jhex key.2 ++
    ((st.annoOf key).map annoText).getD [] ++
    if st.varsOf key = [] then lit " \x7d"
    else
      lit ",\n      \"vars\": [ " ++ joinWith (lit ", ") ((st.varsOf key).map varText) ++
        lit " ]\n    \x7d"

/-- The text of `ds_engine_save_annotations`. -/
def saveText (imageSize : ℕ) (st : Store) : Bytes :=
  lit "\x7b\n  \"version\": 1,\n" ++
    lit "  \"image_size\": " ++ (Nat.toDigits 10 imageSize).map ch ++ lit ",\n" ++
    lit "  \"functions\": [\n" ++
    joinWith (lit ",\n") (st.keys.map (entryText st)) ++
    (if st.keys = [] then [] else lit "\n") ++ lit "  ]\n\x7d\n"

end Annotations

end Ldu
