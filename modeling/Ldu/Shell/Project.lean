import Ldu.Table.SortedMap
import Ldu.Text.Str
import Mathlib.Data.Finset.Sort

/-!
# Projects

A project lists binaries, each with comments and marks on its addresses. It is kept in memory and
written to its file after every edit; a file that is opened again is read from there.

What the shell asks of the rest of the world is part of a request: the format and the architecture
of a binary that is added, and whether writing the file fails. The file format is a parameter
(`ProjFormat`), of which only is used that what is written is read back.
-/

namespace Ldu

namespace Project

/-! ### The document -/

/-- A binary as the window of the project lists it. -/
structure Listed where
  id : ℕ
  name : String
  path : String
  format : String
  arch : String
deriving DecidableEq, Inhabited

/-- One binary tracked by a project, with its annotations. -/
structure DsBinary extends Listed where
  comments : SortedMap ℕ String
  marks : List ℕ

/-- The document of a project. -/
structure DsProj where
  name : String := ""
  nextId : ℕ := 0
  binaries : List DsBinary := []

def u64Max : ℕ := 2 ^ 64 - 1

/-- `Vec::dedup` -/
def dedup : List ℕ → List ℕ
  | a :: b :: l => if a = b then dedup (b :: l) else a :: dedup (b :: l)
  | l => l

def trimText (text : String) : String :=
  String.ofList (Str.trim text.toList)

namespace DsProj

variable (p : DsProj)

/-- The name of the binary is the last part of its path, `file_name_of`. -/
def addBinary (fileName : String → String) (path format arch : String) : ℕ × DsProj :=
  let id := max p.nextId 1
  (id, { p with
    nextId := min (id + 1) u64Max
    binaries := p.binaries ++ [⟨⟨id, fileName path, path, format, arch⟩, .empty, []⟩] })

def removeBinary (id : ℕ) : DsProj :=
  { p with binaries := p.binaries.filter (·.id != id) }

def binary (id : ℕ) : Option DsBinary :=
  p.binaries.find? (·.id == id)

/-- Change the first binary with this number, found by `binary_mut`. -/
def modifyBinary (id : ℕ) (f : DsBinary → DsBinary) : DsProj :=
  { p with binaries := p.binaries.modify (p.binaries.findIdx (·.id == id)) f }

/-- Set a comment, or delete it if the text is blank. -/
def setComment (id rva : ℕ) (text : String) : DsProj :=
  let trimmed := trimText text
  p.modifyBinary id fun b ↦ { b with
    comments := if trimmed.isEmpty then b.comments.erase rva else b.comments.insert rva trimmed }

/-- Toggle a mark; the answer is whether it is set now. -/
def toggleMark (id rva : ℕ) : Bool × DsProj :=
  match p.binary id with
  | some b =>
    if rva ∈ b.marks then
      (false, p.modifyBinary id fun b ↦ { b with marks := b.marks.erase rva })
    else
      (true, p.modifyBinary id fun b ↦
        { b with marks := (b.marks ++ [rva]).insertionSort (· ≤ ·) })
  | none => (false, p)

/-- `comments_json`: the comments by address. -/
def commentsJson (id : ℕ) : List (ℕ × String) :=
  ((p.binary id).map (·.comments.entries)).getD []

def marksVec (id : ℕ) : List ℕ :=
  ((p.binary id).map fun b ↦ dedup (b.marks.insertionSort (· ≤ ·))).getD []

def binariesJson : List Listed :=
  p.binaries.map (·.toListed)

/-- The document that is written, `save`. -/
def saved : DsProj :=
  { p with binaries := p.binaries.map fun b ↦
      { b with marks := dedup (b.marks.insertionSort (· ≤ ·)) } }

end DsProj

/-! ### The file -/

/-- A file format that reads back what it writes, and never writes a blank text. -/
structure ProjFormat where
  encode : DsProj → String
  decode : String → Option DsProj
  decode_encode : ∀ p, decode (encode p) = some p
  encode_not_blank : ∀ p, (trimText (encode p)).isEmpty = false

/-- Read a document; `stem` is the name in the path of the file. -/
def load (fmt : ProjFormat) (stem text : String) : Option DsProj :=
  let proj := if (trimText text).isEmpty then some {} else fmt.decode text
  proj.map fun proj ↦ { proj with
    nextId := if proj.nextId = 0 then 1 else proj.nextId
    name := if (trimText proj.name).isEmpty then stem else proj.name }

/-! ### Requests -/

inductive Edit
  | addBinary (path format arch : String)
  | removeBinary (id : ℕ)
  | setComment (id rva : ℕ) (text : String)
  | toggleMark (id rva : ℕ)

inductive Query
  | getProject
  | getComments (id : ℕ)
  | getMarks (id : ℕ)

/-- What happens to a project. -/
inductive Action
  /-- An edit. If the file cannot be written, it is left with some text. -/
  | edit (e : Edit) (failed : Option String)
  | ask (q : Query)
  /-- The project is closed and opened again. -/
  | reopen

/-- What a request is answered. -/
inductive Answer
  | binaries (list : List Listed)
  | ok
  | marked (b : Bool)
  | comments (entries : List (ℕ × String))
  | marks (rvas : List ℕ)
  | project (name : String) (list : List Listed)
  | saveFailed
  | none
deriving DecidableEq

/-- The project in memory, and the text of its file. -/
structure State where
  proj : DsProj
  text : String

section Step

variable (fmt : ProjFormat) (fileName : String → String) (stem : String)

/-- An edit of the project in memory, and its answer. -/
def Edit.apply (p : DsProj) : Edit → Answer × DsProj
  | addBinary path format arch =>
    let p' := (p.addBinary fileName path format arch).2
    (.binaries p'.binariesJson, p')
  | removeBinary id => (.binaries (p.removeBinary id).binariesJson, p.removeBinary id)
  | setComment id rva text => (.ok, p.setComment id rva text)
  | toggleMark id rva => (.marked (p.toggleMark id rva).1, (p.toggleMark id rva).2)

def Query.answer (p : DsProj) : Query → Answer
  | getProject => .project p.name p.binariesJson
  | getComments id => .comments (p.commentsJson id)
  | getMarks id => .marks (p.marksVec id)

/-- One request. A file that cannot be read is taken for an empty project. -/
def step (s : State) : Action → Answer × State
  | .edit e failed =>
    let (answer, p) := e.apply fileName s.proj
    match failed with
    | none => (answer, ⟨p, fmt.encode p.saved⟩)
    | some text => (.saveFailed, ⟨p, text⟩)
  | .ask q => (q.answer s.proj, s)
  | .reopen => (.none, { s with proj := (load fmt stem s.text).getD {} })

/-- The answers of a run. -/
def answers (s : State) : List Action → List Answer
  | [] => []
  | a :: as => (step fmt fileName stem s a).1 :: answers (step fmt fileName stem s a).2 as

/-- A new project, `create`. -/
def create (name : String) : State :=
  let p : DsProj := { name := name, nextId := 1 }
  ⟨p, fmt.encode p.saved⟩

end Step

end Project

end Ldu
