import Ldu.Emit.BodyText
import Ldu.Semantics.Machine

/-!
# The meaning of a body

A body runs line by line, with the meaning of the texts it holds left open (`Meaning`). A state is
the rows still to run and the blocks that are open around them (`Place`), each with the rows behind
the line that opened it. A jump out of blocks goes along the rows to where they close, and a jump to
a label, a case or a default goes to the row found by looking through the rows in order, with the
blocks open there (`find`).

A body that C does not accept ends in `none` where it has no meaning: at a label that is not
defined, at a `break` outside of a block that it leaves, or at a block that is not closed. Behind
the last row the function returns.
-/

namespace Ldu

namespace Body

/-- The meaning of the texts: of a statement, of a condition, of a selector and of what is
returned. -/
structure Meaning (σ E R : Type*) where
  exec : List Char → σ → List E × (σ ⊕ R)
  test : List Char → σ → List E × Bool × σ
  select : List Char → σ → List E × ℕ × σ
  leave : List Char → σ → List E × R

/-- An open block: the line that opened it, and the rows behind that line. -/
abbrev Frame := Opener × List Row

/-- Where a run stands: the rows to come, and the open blocks, the innermost first. -/
abbrev Place := List Row × List Frame

/-! ### Moving along the rows -/

/-- What a line does to the blocks around it. -/
inductive Edge
  | opens | arm | closes
  deriving DecidableEq

def Line.edge : Line → Option Edge
  | .opens _ => some .opens
  | .orElse => some .arm
  | .close | .closeWhile _ => some .closes
  | _ => none

/-- The rows from the one on that closes the block these rows stand in, or, if `arms`, the arm; `n`
counts the blocks opened on the way. -/
def skip (arms : Bool) : ℕ → List Row → List Row
  | _, [] => []
  | n, r :: rs =>
    match r.line.edge with
    | none => skip arms n rs
    | some .opens => skip arms (n + 1) rs
    | some .arm => if arms ∧ n = 0 then r :: rs else skip arms n rs
    | some .closes => if n = 0 then r :: rs else skip arms (n - 1) rs

/-- The blocks open behind a line, of those open before it; none when a block closes that is not
among them. -/
def openBehind (ln : Line) (rs : List Row) (fs : List Frame) : Option (List Frame) :=
  match ln with
  | .opens o => some ((o, rs) :: fs)
  | .close | .closeWhile _ =>
    match fs with
    | [] => none
    | _ :: fs => some fs
  | _ => some fs

/-- The first row that `p` accepts, given the blocks open there; `fs` are those open at the first of
the rows, and the search ends where one closes that is not among them. -/
def find (p : List Opener → Line → Bool) : List Frame → List Row → Option Place
  | _, [] => none
  | fs, r :: rs =>
    if p (fs.map Prod.fst) r.line then some (r :: rs, fs)
    else (openBehind r.line rs fs).bind fun fs ↦ find p fs rs

/-- The row that closes the innermost block of a kind, and the blocks from it on. -/
def closing (p : Opener → Bool) : List Row → List Frame → Option Place
  | _, [] => none
  | rs, f :: fs =>
    if p f.1 then some (skip false 0 rs, f :: fs) else closing p (skip false 0 rs).tail fs

def Opener.isLoop : Opener → Bool
  | .while _ | .for _ _ _ | .do => true
  | .cond _ | .switch _ => false

def Opener.isSwitch : Opener → Bool
  | .switch _ => true
  | _ => false

def Line.isLabel (l : Label) : Line → Bool
  | .label l' => l' = l
  | _ => false

def Line.isCase (n : ℕ) : Line → Bool
  | .case n' | .caseJump n' _ => n' = n
  | _ => false

def Line.isDefault : Line → Bool
  | .default => true
  | _ => false

/-- The place of a label. -/
def locate (l : Label) (rows : List Row) : Option Place :=
  find (fun _ ↦ Line.isLabel l) [] rows

/-- A line of the switch itself, not of one inside it. -/
def ofSwitch (p : Line → Bool) (os : List Opener) (ln : Line) : Bool :=
  p ln && os.all (!·.isSwitch)

/-- Where a switch with this selector goes in its rows. -/
def dispatch (n : ℕ) (rows : List Row) : Option Place :=
  (find (ofSwitch (Line.isCase n)) [] rows).or (find (ofSwitch Line.isDefault) [] rows)

/-! ### Steps -/

section Step

variable {σ E R : Type*} (I : Meaning σ E R) (rows : List Row)

/-- Go on at a place, if there is one. -/
def goOn (a : Option Place) (s : σ) : List E × ((Place × σ) ⊕ Option R) :=
  match a with
  | some a => ([], .inl (a, s))
  | none => ([], .inr none)

/-- Events before an outcome. -/
def before (es : List E) (x : List E × ((Place × σ) ⊕ Option R)) :
    List E × ((Place × σ) ⊕ Option R) :=
  (es ++ x.1, x.2)

/-- The rows behind the end of the block these rows stand in. -/
def behind (rs : List Row) (fs : List Frame) : Option Place :=
  match skip false 0 rs with
  | [] => none
  | _ :: rs => some (rs, fs)

def jump (j : Jump) (rs : List Row) (fs : List Frame) (s : σ) :
    List E × ((Place × σ) ⊕ Option R) :=
  match j with
  | .brk =>
    match closing (fun o ↦ o.isLoop || o.isSwitch) rs fs with
    | some (_ :: rs, _ :: fs) => goOn (some (rs, fs)) s
    | _ => goOn none s
  | .cont => goOn (closing Opener.isLoop rs fs) s
  | .goto l => goOn (locate l rows) s
  | .ret v => ((I.leave v.text s).1, .inr (some (I.leave v.text s).2))

/-- Test a condition. -/
def branch (c : Phrase) (yes no : Option Place) (s : σ) : List E × ((Place × σ) ⊕ Option R) :=
  before (I.test c.text s).1
    (goOn (if (I.test c.text s).2.1 then yes else no) (I.test c.text s).2.2)

/-- The other arm of an `if`, or the rows behind it. -/
def otherArm (o : Opener) (rs : List Row) (fs : List Frame) : Option Place :=
  match skip true 0 rs with
  | [] => none
  | r :: rs' =>
    match r.line with
    | .orElse => some (rs', (o, rs) :: fs)
    | _ => some (rs', fs)

/-- Execute a statement. -/
def perform (t : List Char) (s : σ) (next : σ → List E × ((Place × σ) ⊕ Option R)) :
    List E × ((Place × σ) ⊕ Option R) :=
  match I.exec t s with
  | (es, .inl s') => before es (next s')
  | (es, .inr r) => (es, .inr (some r))

def open' (o : Opener) (rs : List Row) (fs : List Frame) (s : σ) :
    List E × ((Place × σ) ⊕ Option R) :=
  let inside := some (rs, (o, rs) :: fs)
  match o with
  | .cond c => branch I c inside (otherArm o rs fs) s
  | .while c => branch I c inside (behind rs fs) s
  | .for i c _ => perform I i.text s (branch I c inside (behind rs fs))
  | .do => goOn inside s
  | .switch e =>
    before (I.select e.text s).1
      (match dispatch (I.select e.text s).2.1 rs with
      | some (rs', fs') => goOn (some (rs', fs' ++ (o, rs) :: fs)) (I.select e.text s).2.2
      | none => goOn (behind rs fs) (I.select e.text s).2.2)

def close' (rs : List Row) (fs : List Frame) (s : σ) : List E × ((Place × σ) ⊕ Option R) :=
  match fs with
  | (.cond _, _) :: fs | (.switch _, _) :: fs => goOn (some (rs, fs)) s
  | (.while c, start) :: fs =>
    branch I c (some (start, (.while c, start) :: fs)) (some (rs, fs)) s
  | (.for i c n, start) :: fs =>
    perform I n.text s (branch I c (some (start, (.for i c n, start) :: fs)) (some (rs, fs)))
  | (.do, _) :: _ | [] => goOn none s

def closeWhile' (c : Phrase) (rs : List Row) (fs : List Frame) (s : σ) :
    List E × ((Place × σ) ⊕ Option R) :=
  match fs with
  | (.do, start) :: fs => branch I c (some (start, (.do, start) :: fs)) (some (rs, fs)) s
  | _ => goOn none s

/-- The end of the arm of an `if` that has another arm. -/
def arm' (rs : List Row) (fs : List Frame) (s : σ) : List E × ((Place × σ) ⊕ Option R) :=
  match fs with
  | (.cond _, _) :: fs => goOn (behind rs fs) s
  | _ => goOn none s

def jumpIf' (c : Phrase) (j : Jump) (rs : List Row) (fs : List Frame) (s : σ) :
    List E × ((Place × σ) ⊕ Option R) :=
  before (I.test c.text s).1
    (if (I.test c.text s).2.1 then jump I rows j rs fs (I.test c.text s).2.2
    else goOn (some (rs, fs)) (I.test c.text s).2.2)

/-- One row. -/
def stepAt : Place → σ → List E × ((Place × σ) ⊕ Option R)
  | ([], _), s => ((I.leave [';'] s).1, .inr (some (I.leave [';'] s).2))
  | (r :: rs, fs), s =>
    match r.line with
    | .blank | .note _ | .label _ | .case _ | .default => goOn (some (rs, fs)) s
    | .stmt st => perform I st.text s (goOn (some (rs, fs)))
    | .jump j | .caseJump _ j => jump I rows j rs fs s
    | .jumpIf c j => jumpIf' I rows c j rs fs s
    | .opens o => open' I o rs fs s
    | .orElse => arm' rs fs s
    | .close => close' I rs fs s
    | .closeWhile c => closeWhile' I c rs fs s

/-- The machine that runs a body. -/
def machine : Machine (Place × σ) E (Option R) where
  step x := stepAt I rows x.1 x.2

end Step

/-- Where a body is entered: at its first row, or from outside at a label. -/
def entry (rows : List Row) : Option Label → Option Place
  | none => some (rows, [])
  | some l => locate l rows

/-! ### Where the moves lead -/

/-- The rows of a place are rows of the body. -/
def Within (rows : List Row) (a : Place) : Prop :=
  a.1 ⊆ rows ∧ ∀ f ∈ a.2, f.2 ⊆ rows

section Moves

variable {rows rs : List Row} {fs : List Frame} {a : Place}

/-- The search for the end of a block stops at a line that opens or closes an arm or a block. -/
theorem skip_eq_nil_or (arms : Bool) (n : ℕ) (rs : List Row) :
    skip arms n rs = [] ∨ ∃ r rs', skip arms n rs = r :: rs' ∧ r.line.edge.isSome = true := by
  fun_induction skip arms n rs with
  | case1 => exact .inl rfl
  | case2 n r rs hedge ih | case3 n r rs hedge ih => exact ih
  | case4 n r rs hedge => exact .inr ⟨r, rs, rfl, by rw [hedge]; rfl⟩
  | case5 n r rs hedge _ ih => exact ih
  | case6 r rs hedge => exact .inr ⟨r, rs, rfl, by rw [hedge]; rfl⟩
  | case7 n r rs hedge _ ih => exact ih

theorem skip_subset (arms : Bool) (n : ℕ) (rs : List Row) : skip arms n rs ⊆ rs := by
  fun_induction skip arms n rs with
  | case1 => exact List.Subset.refl _
  | case2 n r rs hedge ih | case3 n r rs hedge ih => exact List.subset_cons_of_subset r ih
  | case4 | case6 => exact List.Subset.refl _
  | case5 n r rs hedge _ ih | case7 n r rs hedge _ ih =>
    exact List.subset_cons_of_subset r ih

theorem Within.tail {r : Row} (h : Within rows (r :: rs, fs)) : Within rows (rs, fs) :=
  ⟨List.Subset.trans (List.subset_cons_self r rs) h.1, h.2⟩

theorem Within.skip (h : Within rows (rs, fs)) (arms : Bool) : Within rows (skip arms 0 rs, fs) :=
  ⟨List.Subset.trans (skip_subset arms 0 rs) h.1, h.2⟩

/-- A block is opened. -/
theorem Within.inside (h : Within rows (rs, fs)) (o : Opener) :
    Within rows (rs, (o, rs) :: fs) :=
  ⟨h.1, List.forall_mem_cons.2 ⟨h.1, h.2⟩⟩

/-- A block is left. -/
theorem Within.outside {f : Frame} (h : Within rows (rs, f :: fs)) : Within rows (rs, fs) :=
  ⟨h.1, fun _ hf ↦ h.2 _ (List.mem_cons_of_mem f hf)⟩

/-- The body of a loop begins again. -/
theorem Within.again {f : Frame} (h : Within rows (rs, f :: fs)) : Within rows (f.2, f :: fs) :=
  ⟨h.2 f List.mem_cons_self, h.2⟩

theorem within_behind (h : Within rows (rs, fs)) (ha : behind rs fs = some a) : Within rows a := by
  rw [behind] at ha
  split at ha
  · cases ha
  · next hskip =>
    cases ha
    exact (hskip ▸ h.skip false).tail

theorem within_otherArm {o : Opener} (h : Within rows (rs, fs)) (ha : otherArm o rs fs = some a) :
    Within rows a := by
  rw [otherArm] at ha
  split at ha
  · cases ha
  · next r rs' hskip =>
    have htail : Within rows (rs', fs) := (hskip ▸ h.skip true).tail
    split at ha <;> cases ha
    · exact ⟨htail.1, (h.inside o).2⟩
    · exact htail

theorem within_find {p : List Opener → Line → Bool} (h : Within rows (rs, fs))
    (ha : find p fs rs = some a) : Within rows a := by
  induction rs generalizing fs with
  | nil => cases ha
  | cons r rs ih =>
    rw [find] at ha
    split at ha
    · cases ha
      exact h
    · obtain ⟨fs', hopen, ha⟩ := Option.bind_eq_some_iff.1 ha
      refine ih ?_ ha
      unfold openBehind at hopen
      split at hopen
      · cases hopen
        exact h.tail.inside _
      · split at hopen <;> cases hopen
        exact h.tail.outside
      · split at hopen <;> cases hopen
        exact h.tail.outside
      · cases hopen
        exact h.tail

theorem within_closing {p : Opener → Bool} (h : Within rows (rs, fs))
    (ha : closing p rs fs = some a) : Within rows a := by
  induction fs generalizing rs with
  | nil => cases ha
  | cons f fs ih =>
    rw [closing] at ha
    split at ha
    · cases ha
      exact h.skip false
    · exact ih ⟨List.Subset.trans (List.tail_subset _) (h.skip false).1, h.outside.2⟩ ha

theorem within_locate {l : Label} (ha : locate l rows = some a) : Within rows a :=
  within_find ⟨List.Subset.refl _, fun _ h ↦ absurd h List.not_mem_nil⟩ ha

theorem within_entry {e : Option Label} (ha : entry rows e = some a) : Within rows a := by
  cases e with
  | none =>
    cases ha
    exact ⟨List.Subset.refl _, fun _ h ↦ absurd h List.not_mem_nil⟩
  | some l => exact within_locate ha

end Moves

section Steps

variable {σ E R : Type*} {I : Meaning σ E R} {rows rs : List Row} {fs : List Frame} {s : σ}

/-- If the run goes on, then in a place with this property. -/
def Leads (P : Place → Prop) (x : List E × ((Place × σ) ⊕ Option R)) : Prop :=
  ∀ b, x.2 = .inl b → P b.1

variable {P : Place → Prop}

theorem leads_goOn {a : Option Place} (h : ∀ b, a = some b → P b) :
    Leads (E := E) (R := R) P (goOn a s) := by
  intro b hb
  cases a with
  | none => cases hb
  | some a =>
    cases hb
    exact h a rfl

theorem leads_branch {c : Phrase} {yes no : Option Place} (hyes : ∀ b, yes = some b → P b)
    (hno : ∀ b, no = some b → P b) : Leads P (branch I c yes no s) := by
  refine leads_goOn fun b hb ↦ ?_
  split at hb
  · exact hyes b hb
  · exact hno b hb

theorem leads_perform {t : List Char} {next : σ → List E × ((Place × σ) ⊕ Option R)}
    (h : ∀ s, Leads P (next s)) : Leads P (perform I t s next) := by
  rw [perform]
  split
  · exact h _
  · intro b hb
    cases hb

theorem within_jump {j : Jump} (h : Within rows (rs, fs)) :
    Leads (Within rows) (jump I rows j rs fs s) := by
  cases j with
  | brk =>
    rw [jump]
    split
    · next hclosing =>
      refine leads_goOn fun b hb ↦ ?_
      cases hb
      exact (within_closing h hclosing).tail.outside
    · exact leads_goOn fun b hb ↦ absurd hb (by simp)
  | cont => exact leads_goOn fun b hb ↦ within_closing h hb
  | goto l => exact leads_goOn fun b hb ↦ within_locate hb
  | ret v =>
    intro b hb
    cases hb

theorem within_open {o : Opener} (h : Within rows (rs, fs)) :
    Leads (Within rows) (open' I o rs fs s) := by
  have hinside (b : Place) (hb : some (rs, (o, rs) :: fs) = some b) : Within rows b := by
    cases hb
    exact h.inside o
  cases o with
  | cond c => exact leads_branch hinside fun b hb ↦ within_otherArm h hb
  | «while» c => exact leads_branch hinside fun b hb ↦ within_behind h hb
  | «for» i c n =>
    exact leads_perform fun s ↦ leads_branch hinside fun b hb ↦ within_behind h hb
  | «do» => exact leads_goOn hinside
  | switch e =>
    intro b hb
    rw [open'] at hb
    simp only [before] at hb
    split at hb
    · next rs' fs' hdispatch =>
      have hfound : Within rows (rs', fs') := by
        have hrs : Within rows (rs, []) := ⟨h.1, fun _ hf ↦ absurd hf List.not_mem_nil⟩
        rcases Option.or_eq_some_iff.1 hdispatch with hfind | ⟨-, hfind⟩
        · exact within_find hrs hfind
        · exact within_find hrs hfind
      cases hb
      refine ⟨hfound.1, fun f hf ↦ ?_⟩
      rcases List.mem_append.1 hf with hf | hf
      · exact hfound.2 f hf
      · exact (h.inside _).2 f hf
    · exact leads_goOn (fun b hb ↦ within_behind h hb) b hb

theorem within_close (h : Within rows (rs, fs)) : Leads (Within rows) (close' I rs fs s) := by
  have hbehind {f : Frame} {fs : List Frame} (h : Within rows (rs, f :: fs)) (b : Place)
      (hb : some (rs, fs) = some b) : Within rows b := by
    cases hb
    exact h.outside
  have hagain {f : Frame} {fs : List Frame} (h : Within rows (rs, f :: fs)) (b : Place)
      (hb : some (f.2, f :: fs) = some b) : Within rows b := by
    cases hb
    exact h.again
  match fs, h with
  | [], _ | (.do, _) :: _, _ => exact leads_goOn fun b hb ↦ absurd hb (by simp)
  | (.cond _, _) :: fs, h | (.switch _, _) :: fs, h => exact leads_goOn (hbehind h)
  | (.while c, start) :: fs, h => exact leads_branch (hagain h) (hbehind h)
  | (.for i c n, start) :: fs, h =>
    exact leads_perform fun s ↦ leads_branch (hagain h) (hbehind h)

/-- A run stays within the rows of the body. -/
theorem within_stepAt {a : Place} (h : Within rows a) :
    Leads (Within rows) (stepAt I rows a s) := by
  obtain ⟨_ | ⟨r, rs⟩, fs⟩ := a
  · intro b hb
    cases hb
  have hnext (b : Place) (hb : some (rs, fs) = some b) : Within rows b := by
    cases hb
    exact h.tail
  rw [stepAt]
  split
  · exact leads_goOn hnext
  · exact leads_goOn hnext
  · exact leads_goOn hnext
  · exact leads_goOn hnext
  · exact leads_goOn hnext
  · exact leads_perform fun s ↦ leads_goOn hnext
  · exact within_jump h.tail
  · exact within_jump h.tail
  · intro b hb
    simp only [jumpIf', before] at hb
    split at hb
    · exact within_jump h.tail b hb
    · exact leads_goOn hnext b hb
  · exact within_open h.tail
  · unfold arm'
    split
    · exact leads_goOn fun b hb ↦ within_behind h.tail.outside hb
    · exact leads_goOn fun b hb ↦ absurd hb (by simp)
  · exact within_close h.tail
  · unfold closeWhile'
    split
    · refine leads_branch (fun b hb ↦ ?_) fun b hb ↦ ?_
      · cases hb
        exact h.tail.again
      · cases hb
        exact h.tail.outside
    · exact leads_goOn fun b hb ↦ absurd hb (by simp)

end Steps

end Body

end Ldu
