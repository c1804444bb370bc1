import Mathlib.Data.List.Basic
import Mathlib.Logic.Function.Basic
import Mathlib.Logic.Relation
import Mathlib.Order.Nat

/-!
# The session and its threads

A session holds the engine of the last analysis and a cache of decompiled functions. Its threads are
those that run an analysis, the workers that decompile every function once it has been committed,
and the requests of the window. They take turns in any order: a step of a thread is what it does
while it has the lock of the session, or one access to something else that is shared, and a
decompilation takes any time between the step that begins it and the one that ends it.

Engines and cancel flags are told apart by numbers. What the decompiler answers is not determined;
the step that ends a decompilation brings the answer along. Of each text is recorded where it comes
from: from an engine, with the number of types that had been set on the engine when the
decompilation began, or from the file that was loaded with the engine.
-/

namespace Ldu

namespace Shell

/-! ### State -/

/-- A type that is set for a variable of a function. -/
structure TypeEdit where
  rva : ℕ
  var : String
  type : String
  deriving DecidableEq

/-- Where a text comes from. -/
inductive Source
  | decompiled (engine seen : ℕ)
  | preloaded (engine : ℕ)
  deriving DecidableEq

def Source.engine : Source → ℕ
  | .decompiled e _ => e
  | .preloaded e => e

structure Text where
  code : String
  source : Source
  deriving DecidableEq

/-- What the threads share. A type is set on an engine, and the workers of an engine share the
number of the next function. -/
structure Shared where
  engine : Option ℕ := none
  cancel : ℕ := 0
  cache : ℕ → Option Text := fun _ ↦ none
  cancelled : ℕ → Bool := fun _ ↦ false
  flags : ℕ := 1
  engines : ℕ := 0
  types : ℕ → List TypeEdit := fun _ ↦ []
  next : ℕ → ℕ := fun _ ↦ 0
  guard : Bool := false

/-- Where a worker is: before it takes a number, before it looks at the number and the flag, before
it decompiles, while it does, with a full batch, behind the loop. -/
inductive WorkerPc
  | idle
  | claimed (i : ℕ)
  | polled (rva : ℕ)
  | decompiling (rva seen : ℕ)
  | full
  | leaving
  deriving DecidableEq

structure Worker where
  engine : ℕ
  flag : ℕ
  pc : WorkerPc := .idle
  batch : List (ℕ × Text) := []
  deriving DecidableEq

inductive ReanalyzePc
  | arrived | flagged | renewed
  deriving DecidableEq

/-- Where a request for a type is; `k` is the number of types that were set before it. -/
inductive RetypePc
  | arrived
  | loaded (e : ℕ)
  | stored (e k : ℕ)
  | removed (e k : ℕ)
  | locked (e k : ℕ)
  | decompiling (e k seen : ℕ)
  | inserting (e k : ℕ) (t : Text)
  deriving DecidableEq

inductive PseudoPc
  | arrived
  | missed
  | loaded (e : ℕ)
  | locked (e : ℕ)
  | decompiling (e seen : ℕ)
  | inserting (t : Text)
  deriving DecidableEq

inductive Thread
  | analysis (flag : ℕ)
  | spawning (engine flag : ℕ)
  | worker (w : Worker)
  | reanalyze (pc : ReanalyzePc)
  | retype (edit : TypeEdit) (pc : RetypePc)
  | pseudo (rva : ℕ) (sm : Bool) (pc : PseudoPc)
  | done
  deriving DecidableEq

structure State where
  shared : Shared := {}
  threads : List Thread := []

/-! ### Steps of a thread -/

/-- The text has a character that is no white space. -/
def hasText (code : String) : Bool :=
  code.toList.any fun c ↦
    !((0x09 ≤ c.toNat && c.toNat ≤ 0x0D) || (0x2000 ≤ c.toNat && c.toNat ≤ 0x200A) ||
      [0x20, 0x85, 0xA0, 0x1680, 0x2028, 0x2029, 0x202F, 0x205F, 0x3000].contains c.toNat)

namespace Shared

variable (sh : Shared)

def insert (rva : ℕ) (t : Text) : Shared :=
  { sh with cache := Function.update sh.cache rva (some t) }

def insertAll (batch : List (ℕ × Text)) : Shared :=
  batch.foldl (fun sh p ↦ sh.insert p.1 p.2) sh

/-- Set the flag of the session. -/
def cancelAnalysis : Shared :=
  { sh with cancelled := Function.update sh.cancelled sh.cancel true }

/-- The number of types set on an engine. -/
def seen (e : ℕ) : ℕ :=
  (sh.types e).length

end Shared

section Steps

variable (funcs : ℕ → List ℕ) (sh : Shared) (answer : Option String)

/-- A worker of `background_decompile`. -/
def workerStep (w : Worker) : Shared × Thread :=
  match w.pc with
  | .idle =>
    let i := sh.next w.engine
    ({ sh with next := Function.update sh.next w.engine (i + 1) },
      .worker { w with pc := .claimed i })
  | .claimed i =>
    match (funcs w.engine)[i]? with
    | none => (sh, .worker { w with pc := .leaving })
    | some rva =>
      if sh.cancelled w.flag then (sh, .worker { w with pc := .leaving })
      else (sh, .worker { w with pc := .polled rva })
  | .polled rva => (sh, .worker { w with pc := .decompiling rva (sh.seen w.engine) })
  | .decompiling rva seen =>
    let batch :=
      match answer with
      | some code => w.batch ++ [(rva, ⟨code, .decompiled w.engine seen⟩)]
      | none => w.batch
    (sh, .worker { w with batch, pc := if 32 ≤ batch.length then .full else .idle })
  | .full => (sh.insertAll w.batch, .worker { w with batch := [], pc := .idle })
  | .leaving => (sh.insertAll w.batch, .done)

/-- `reanalyze` -/
def reanalyzeStep : ReanalyzePc → Shared × Thread
  | .arrived => ({ sh.cancelAnalysis with cache := fun _ ↦ none }, .reanalyze .flagged)
  | .flagged => ({ sh with cancel := sh.flags, flags := sh.flags + 1 }, .reanalyze .renewed)
  | .renewed => (sh, .analysis sh.cancel)

/-- `set_var_type`; from the lock on in a thread of its own. -/
def retypeStep (edit : TypeEdit) : RetypePc → Option (Shared × Thread)
  | .arrived =>
    if edit.var = "" then some (sh, .done)
    else
      match sh.engine with
      | some e => some (sh, .retype edit (.loaded e))
      | none => some (sh, .done)
  | .loaded e =>
    some ({ sh with types := Function.update sh.types e (sh.types e ++ [edit]) },
      .retype edit (.stored e (sh.seen e)))
  | .stored e k =>
    some ({ sh with cache := Function.update sh.cache edit.rva none }, .retype edit (.removed e k))
  | .removed e k =>
    if sh.guard then none else some ({ sh with guard := true }, .retype edit (.locked e k))
  | .locked e k => some (sh, .retype edit (.decompiling e k (sh.seen e)))
  | .decompiling e k seen =>
    match answer.filter hasText with
    | some code => some (sh, .retype edit (.inserting e k ⟨code, .decompiled e seen⟩))
    | none => some ({ sh with guard := false }, .done)
  | .inserting _ _ t => some ({ sh.insert edit.rva t with guard := false }, .done)

/-- `get_pseudocode`; from the lock on in a thread of its own. -/
def pseudoStep (rva : ℕ) (sm : Bool) : PseudoPc → Option (Shared × Thread)
  | .arrived =>
    if !sm && (sh.cache rva).isSome then some (sh, .done) else some (sh, .pseudo rva sm .missed)
  | .missed =>
    match sh.engine with
    | some e => some (sh, .pseudo rva sm (.loaded e))
    | none => some (sh, .done)
  | .loaded e =>
    if sh.guard then none else some ({ sh with guard := true }, .pseudo rva sm (.locked e))
  | .locked e => some (sh, .pseudo rva sm (.decompiling e (sh.seen e)))
  | .decompiling e seen =>
    match answer.filter hasText with
    | some code =>
      if sm then some ({ sh with guard := false }, .done)
      else
        some ({ sh with guard := false },
          .pseudo rva sm (.inserting ⟨code, .decompiled e seen⟩))
    | none => some ({ sh with guard := false }, .done)
  | .inserting t => some (sh.insert rva t, .done)

/-- The next step of a thread, if it has one and is not blocked. -/
def threadStep : Thread → Option (Shared × Thread)
  | .worker w => some (workerStep funcs sh answer w)
  | .reanalyze pc => some (reanalyzeStep sh pc)
  | .retype edit pc => retypeStep sh answer edit pc
  | .pseudo rva sm pc => pseudoStep sh answer rva sm pc
  | .analysis _ => none
  | .spawning _ _ => none
  | .done => none

end Steps

/-! ### Steps of the session -/

/-- What may happen: an analysis is started, or cancelled; a request arrives; an analysis gives up,
or commits, with the texts of the file if there are any; the workers of an engine are started; some
other thread takes a step. -/
inductive Act
  | start
  | cancelAnalysis
  | reanalyze
  | setVarType (edit : TypeEdit)
  | getPseudocode (rva : ℕ) (sm : Bool)
  | quit (i : ℕ)
  | commit (i : ℕ) (preloaded : Option (ℕ → Option String))
  | spawn (i nthreads : ℕ)
  | next (i : ℕ) (answer : Option String)

namespace Shared

/-- The analysis with the flag is the one of the session and may commit. -/
def mayCommit (sh : Shared) (flag : ℕ) : Bool :=
  sh.cancel = flag && !sh.cancelled flag

/-- The commit of `run_analysis`. -/
def commit (sh : Shared) (preloaded : Option (ℕ → Option String)) : Shared :=
  { sh with
    engine := some sh.engines
    engines := sh.engines + 1
    cache := fun rva ↦ (preloaded.bind fun m ↦ m rva).map (⟨·, .preloaded sh.engines⟩) }

end Shared

namespace State

def spawnThread (s : State) (th : Thread) : State :=
  { s with threads := s.threads ++ [th] }

def setThread (s : State) (i : ℕ) (sh : Shared) (th : Thread) : State where
  shared := sh
  threads := s.threads.set i th

/-- The thread leaves its work to workers. -/
def spawnWorkers (s : State) (i nthreads : ℕ) (w : Worker) : State :=
  { s with threads := s.threads.set i .done ++ List.replicate nthreads (.worker w) }

end State

def step (funcs : ℕ → List ℕ) (s : State) : Act → Option State
  | .start => some (s.spawnThread (.analysis s.shared.cancel))
  | .cancelAnalysis => some { s with shared := s.shared.cancelAnalysis }
  | .reanalyze => some (s.spawnThread (.reanalyze .arrived))
  | .setVarType edit => some (s.spawnThread (.retype edit .arrived))
  | .getPseudocode rva sm => some (s.spawnThread (.pseudo rva sm .arrived))
  | .quit i =>
    match s.threads[i]? with
    | some (.analysis _) => some (s.setThread i s.shared .done)
    | _ => none
  | .commit i preloaded =>
    match s.threads[i]? with
    | some (.analysis flag) =>
      if !s.shared.mayCommit flag then some (s.setThread i s.shared .done)
      else
        some (s.setThread i (s.shared.commit preloaded)
          (if preloaded.isSome then .done else .spawning s.shared.engines flag))
    | _ => none
  | .spawn i nthreads =>
    match s.threads[i]? with
    | some (.spawning engine flag) =>
      some (s.spawnWorkers i nthreads { engine, flag })
    | _ => none
  | .next i answer => do
    let th ← s.threads[i]?
    let (sh, th) ← threadStep funcs s.shared answer th
    return s.setThread i sh th

/-- The state after a sequence of steps. -/
def run (funcs : ℕ → List ℕ) (s : State) (acts : List Act) : Option State :=
  acts.foldlM (step funcs) s

/-- One state is reached from another by steps that are allowed where they are taken. -/
def Reach (funcs : ℕ → List ℕ) (ok : State → Act → Prop) : State → State → Prop :=
  Relation.ReflTransGen fun s s' ↦ ∃ a, ok s a ∧ step funcs s a = some s'

/-! ### Texts that may still be published -/

/-- The source of a text that the engine has yet to begin. -/
def Later (sh : Shared) (e : ℕ) (src : Source) : Prop :=
  ∃ seen, sh.seen e ≤ seen ∧ src = .decompiled e seen

section Publish

variable (funcs : ℕ → List ℕ) (sh : Shared)

/-- Workers with the flag may still take the number of the function. -/
def Claimable (engine flag rva : ℕ) : Prop :=
  sh.cancelled flag = false ∧ ∃ j, sh.next engine ≤ j ∧ (funcs engine)[j]? = some rva

/-- The thread holds a text of the function with that source, or is about to: its decompilation has
begun. -/
def Thread.Begun (rva : ℕ) (src : Source) : Thread → Prop
  | .worker w =>
    (∃ t, (rva, t) ∈ w.batch ∧ t.source = src) ∨
      ∃ seen, w.pc = .decompiling rva seen ∧ src = .decompiled w.engine seen
  | .retype edit (.decompiling e _ seen) => edit.rva = rva ∧ src = .decompiled e seen
  | .retype edit (.inserting _ _ t) => edit.rva = rva ∧ src = t.source
  | .pseudo r sm (.decompiling e seen) => r = rva ∧ sm = false ∧ src = .decompiled e seen
  | .pseudo r _ (.inserting t) => r = rva ∧ src = t.source
  | _ => False

/-- The thread may still begin to decompile the function with the engine, to publish the text. -/
def Thread.Ahead (rva e : ℕ) : Thread → Prop
  | .spawning engine flag => engine = e ∧ Claimable funcs sh engine flag rva
  | .worker w =>
    w.engine = e ∧
      match w.pc with
      | .claimed i =>
        sh.cancelled w.flag = false ∧ (funcs w.engine)[i]? = some rva ∨
          Claimable funcs sh w.engine w.flag rva
      | .polled r => r = rva ∨ Claimable funcs sh w.engine w.flag rva
      | .leaving => False
      | _ => Claimable funcs sh w.engine w.flag rva
  | .retype edit (.loaded e') => edit.rva = rva ∧ e' = e
  | .retype edit (.stored e' _) => edit.rva = rva ∧ e' = e
  | .retype edit (.removed e' _) => edit.rva = rva ∧ e' = e
  | .retype edit (.locked e' _) => edit.rva = rva ∧ e' = e
  | .pseudo r sm (.loaded e') => r = rva ∧ sm = false ∧ e' = e
  | .pseudo r sm (.locked e') => r = rva ∧ sm = false ∧ e' = e
  | _ => False

/-- The thread may still publish a text of the function with that source. -/
def Thread.Publishes (th : Thread) (rva : ℕ) (src : Source) : Prop :=
  th.Begun rva src ∨ ∃ e, th.Ahead funcs sh rva e ∧ Later sh e src

end Publish

/-! ### What a step leaves of them -/

/-- Types are only added, numbers only taken, and flags only set. -/
structure Grows (sh sh' : Shared) : Prop where
  engine : sh'.engine = sh.engine
  seen : ∀ e, sh.seen e ≤ sh'.seen e
  next : ∀ e, sh.next e ≤ sh'.next e
  cancelled : ∀ flag, sh'.cancelled flag = false → sh.cancelled flag = false

section Grow

variable {funcs : ℕ → List ℕ} {sh sh' : Shared}

theorem Grows.refl (sh : Shared) : Grows sh sh :=
  ⟨rfl, fun _ ↦ le_rfl, fun _ ↦ le_rfl, fun _ ↦ id⟩

/-- The cache and the guard do not matter. -/
theorem Grows.of_eq (hengine : sh'.engine = sh.engine) (htypes : sh'.types = sh.types)
    (hnext : sh'.next = sh.next) (hcancelled : sh'.cancelled = sh.cancelled) : Grows sh sh' where
  engine := hengine
  seen e := by rw [Shared.seen, Shared.seen, htypes]
  next e := by rw [hnext]
  cancelled flag h := by rwa [hcancelled] at h

theorem Later.of_grows {e : ℕ} {src : Source} (hgrows : Grows sh sh') (h : Later sh' e src) :
    Later sh e src := by
  obtain ⟨seen, hseen, rfl⟩ := h
  exact ⟨seen, (hgrows.seen e).trans hseen, rfl⟩

theorem Claimable.of_grows {engine flag rva : ℕ} (hgrows : Grows sh sh')
    (h : Claimable funcs sh' engine flag rva) : Claimable funcs sh engine flag rva := by
  obtain ⟨hflag, j, hj, hrva⟩ := h
  exact ⟨hgrows.cancelled flag hflag, j, (hgrows.next engine).trans hj, hrva⟩

theorem Thread.Ahead.of_grows {th : Thread} {rva e : ℕ} (hgrows : Grows sh sh')
    (h : th.Ahead funcs sh' rva e) : th.Ahead funcs sh rva e := by
  cases th with
  | spawning engine flag => exact ⟨h.1, h.2.of_grows hgrows⟩
  | worker w =>
    refine ⟨h.1, ?_⟩
    have h := h.2
    cases hpc : w.pc with
    | claimed i =>
      rw [hpc] at h
      exact h.imp (fun h ↦ ⟨hgrows.cancelled _ h.1, h.2⟩) (·.of_grows hgrows)
    | polled r =>
      rw [hpc] at h
      exact h.imp id (·.of_grows hgrows)
    | leaving =>
      rw [hpc] at h
      exact h
    | idle | decompiling _ _ | full =>
      rw [hpc] at h
      exact h.of_grows hgrows
  | retype edit pc => cases pc <;> exact h
  | pseudo r sm pc => cases pc <;> exact h
  | analysis _ => exact h
  | reanalyze _ => exact h
  | done => exact h

theorem Thread.Publishes.of_grows {th : Thread} {rva : ℕ} {src : Source} (hgrows : Grows sh sh')
    (h : th.Publishes funcs sh' rva src) : th.Publishes funcs sh rva src := by
  rcases h with h | ⟨e, hahead, hlater⟩
  · exact .inl h
  · exact .inr ⟨e, hahead.of_grows hgrows, hlater.of_grows hgrows⟩

end Grow

/-- What a step of a thread does: the texts that it puts into the cache it had in hand, and those
that it has in hand then, or is still to begin, it could publish before, unless it has just taken
the engine of the session. -/
structure Advances (funcs : ℕ → List ℕ) (sh : Shared) (th : Thread) (sh' : Shared)
    (th' : Thread) : Prop where
  grows : Grows sh sh'
  begun : ∀ rva src, th'.Begun rva src → th.Publishes funcs sh rva src
  ahead : ∀ rva e, th'.Ahead funcs sh' rva e → th.Ahead funcs sh rva e ∨ sh.engine = some e
  cache : ∀ rva t, sh'.cache rva = some t → sh.cache rva = some t ∨ th.Begun rva t.source

section Advance

variable {funcs : ℕ → List ℕ} {sh sh' : Shared} {th th' : Thread} {answer : Option String}

theorem cache_of_insert {rva r : ℕ} {t u : Text} (h : (sh.insert r u).cache rva = some t) :
    sh.cache rva = some t ∨ rva = r ∧ t = u := by
  by_cases hr : rva = r
  · subst hr
    simp only [Shared.insert, Function.update_self, Option.some.injEq] at h
    exact .inr ⟨rfl, h.symm⟩
  · simp only [Shared.insert, Function.update_of_ne hr] at h
    exact .inl h

theorem grows_insert (r : ℕ) (t : Text) : Grows sh (sh.insert r t) :=
  .of_eq rfl rfl rfl rfl

theorem insertAll_cons (p : ℕ × Text) (batch : List (ℕ × Text)) :
    sh.insertAll (p :: batch) = (sh.insert p.1 p.2).insertAll batch := rfl

theorem Grows.trans {sh₁ sh₂ sh₃ : Shared} (h : Grows sh₁ sh₂) (h' : Grows sh₂ sh₃) :
    Grows sh₁ sh₃ where
  engine := h'.engine.trans h.engine
  seen e := (h.seen e).trans (h'.seen e)
  next e := (h.next e).trans (h'.next e)
  cancelled flag hflag := h.cancelled flag (h'.cancelled flag hflag)

theorem grows_insertAll (batch : List (ℕ × Text)) : Grows sh (sh.insertAll batch) := by
  induction batch generalizing sh with
  | nil => exact .refl sh
  | cons p batch ih => exact (grows_insert p.1 p.2).trans ih

theorem cache_of_insertAll {batch : List (ℕ × Text)} {rva : ℕ} {t : Text}
    (h : (sh.insertAll batch).cache rva = some t) :
    sh.cache rva = some t ∨ (rva, t) ∈ batch := by
  induction batch generalizing sh with
  | nil => exact .inl h
  | cons p batch ih =>
    rw [insertAll_cons] at h
    rcases ih h with h | h
    · rcases cache_of_insert h with h | ⟨rfl, rfl⟩
      · exact .inl h
      · exact .inr List.mem_cons_self
    · exact .inr (List.mem_cons_of_mem _ h)

/-- A text that is begun now could have been published before. -/
theorem publishes_of_ahead {rva e : ℕ} (h : th.Ahead funcs sh rva e) :
    th.Publishes funcs sh rva (.decompiled e (sh.seen e)) :=
  .inr ⟨e, h, sh.seen e, le_rfl, rfl⟩

theorem grows_claim (e : ℕ) :
    Grows sh { sh with next := Function.update sh.next e (sh.next e + 1) } where
  engine := rfl
  seen _ := le_rfl
  next e' := by
    by_cases he : e' = e
    · subst he
      simp
    · simp [Function.update_of_ne he]
  cancelled _ := id

/-- A worker that changes nothing but itself, and neither gets a text nor begins one. -/
theorem Advances.of_worker {engine flag : ℕ} {batch : List (ℕ × Text)} {pc pc' : WorkerPc}
    (hgrows : Grows sh sh') (hcache : sh'.cache = sh.cache)
    (hpc : ∀ rva seen, pc' ≠ .decompiling rva seen)
    (hahead : ∀ rva e, (Thread.worker ⟨engine, flag, pc', batch⟩).Ahead funcs sh' rva e →
      (Thread.worker ⟨engine, flag, pc, batch⟩).Ahead funcs sh rva e) :
    Advances funcs sh (.worker ⟨engine, flag, pc, batch⟩) sh'
      (.worker ⟨engine, flag, pc', batch⟩) where
  grows := hgrows
  begun rva src h := by
    rcases h with h | ⟨seen, heq, -⟩
    · exact .inl (.inl h)
    · exact absurd heq (hpc rva seen)
  ahead rva e h := .inl (hahead rva e h)
  cache rva t h := .inl (hcache ▸ h)

/-- A worker whose text is put into its batch, or dropped. -/
theorem Advances.of_batch {engine flag r seen : ℕ} {pc : WorkerPc} {batch batch' : List (ℕ × Text)}
    (hmem : ∀ p ∈ batch', p ∈ batch ∨ p.1 = r ∧ p.2.source = .decompiled engine seen)
    (hpc : pc = .full ∨ pc = .idle) :
    Advances funcs sh (.worker ⟨engine, flag, .decompiling r seen, batch⟩) sh
      (.worker ⟨engine, flag, pc, batch'⟩) where
  grows := .refl sh
  begun rva src h := by
    refine .inl ?_
    rcases h with ⟨t, ht, rfl⟩ | ⟨seen', heq, -⟩
    · rcases hmem _ ht with h | ⟨rfl, hsource⟩
      · exact .inl ⟨t, h, rfl⟩
      · exact .inr ⟨seen, rfl, hsource⟩
    · rcases hpc with rfl | rfl <;> cases heq
  ahead rva e h := by
    refine .inl ?_
    rcases hpc with rfl | rfl <;> exact h
  cache _ _ := .inl

theorem worker_advances (w : Worker) (h : workerStep funcs sh answer w = (sh', th')) :
    Advances funcs sh (.worker w) sh' th' := by
  obtain ⟨engine, flag, pc, batch⟩ := w
  cases pc with
  | idle =>
    cases h
    refine .of_worker (grows_claim engine) rfl (by simp) fun rva e h ↦ ?_
    rcases h with ⟨he, ⟨hflag, hrva⟩ | h⟩
    · exact ⟨he, hflag, _, le_rfl, hrva⟩
    · exact ⟨he, h.of_grows (grows_claim engine)⟩
  | claimed i =>
    simp only [workerStep] at h
    split at h
    · cases h
      exact .of_worker (.refl sh) rfl (by simp) fun rva e h ↦ absurd h.2 id
    · next r hr =>
      split at h
      · cases h
        exact .of_worker (.refl sh) rfl (by simp) fun rva e h ↦ absurd h.2 id
      · next hflag =>
        cases h
        refine .of_worker (.refl sh) rfl (by simp) fun rva e h ↦ ?_
        rcases h with ⟨he, rfl | h⟩
        · exact ⟨he, .inl ⟨by simpa using hflag, hr⟩⟩
        · exact ⟨he, .inr h⟩
  | polled r =>
    cases h
    refine ⟨.refl sh, fun rva src h ↦ ?_, fun rva e h ↦ .inl ⟨h.1, .inr h.2⟩, fun _ _ ↦ .inl⟩
    rcases h with h | ⟨seen, hpc, rfl⟩
    · exact .inl (.inl h)
    · cases hpc
      exact publishes_of_ahead ⟨rfl, .inl rfl⟩
  | decompiling r seen =>
    have hpc : ∀ n : ℕ, (if 32 ≤ n then WorkerPc.full else .idle) = .full ∨
        (if 32 ≤ n then WorkerPc.full else .idle) = .idle := fun n ↦ by
      split
      · exact .inl rfl
      · exact .inr rfl
    cases answer with
    | none =>
      cases h
      exact .of_batch (fun p hp ↦ .inl hp) (hpc _)
    | some code =>
      cases h
      refine .of_batch (fun p hp ↦ ?_) (hpc _)
      rcases List.mem_append.1 hp with hp | hp
      · exact .inl hp
      · obtain rfl := List.mem_singleton.1 hp
        exact .inr ⟨rfl, rfl⟩
  | full =>
    cases h
    refine ⟨grows_insertAll batch, fun rva src h ↦ ?_,
      fun rva e h ↦ .inl ⟨h.1, h.2.of_grows (grows_insertAll batch)⟩, fun rva t h ↦ ?_⟩
    · rcases h with ⟨t, ht, -⟩ | ⟨seen, hpc, -⟩
      · cases ht
      · cases hpc
    · exact (cache_of_insertAll h).imp id fun h ↦ .inl ⟨t, h, rfl⟩
  | leaving =>
    cases h
    refine ⟨grows_insertAll batch, fun rva src h ↦ h.elim, fun rva e h ↦ h.elim, fun rva t h ↦ ?_⟩
    exact (cache_of_insertAll h).imp id fun h ↦ .inl ⟨t, h, rfl⟩

theorem grows_cancelAnalysis : Grows sh sh.cancelAnalysis where
  engine := rfl
  seen _ := le_rfl
  next _ := le_rfl
  cancelled flag h := by
    by_cases hflag : flag = sh.cancel
    · subst hflag
      simp [Shared.cancelAnalysis] at h
    · simpa [Shared.cancelAnalysis, Function.update_of_ne hflag] using h

theorem reanalyze_advances (pc : ReanalyzePc) (h : reanalyzeStep sh pc = (sh', th')) :
    Advances funcs sh (.reanalyze pc) sh' th' := by
  cases pc with
  | arrived =>
    cases h
    refine ⟨?_, fun _ _ h ↦ h.elim, fun _ _ h ↦ h.elim, fun rva t h ↦ by cases h⟩
    have hgrows : Grows sh sh.cancelAnalysis := grows_cancelAnalysis
    exact hgrows.trans (.of_eq rfl rfl rfl rfl)
  | flagged =>
    cases h
    exact ⟨.of_eq rfl rfl rfl rfl, fun _ _ h ↦ h.elim, fun _ _ h ↦ h.elim, fun _ _ ↦ .inl⟩
  | renewed =>
    cases h
    exact ⟨.refl sh, fun _ _ h ↦ h.elim, fun _ _ h ↦ h.elim, fun _ _ ↦ .inl⟩

/-- A thread that ends without a text. -/
theorem Advances.of_done (hgrows : Grows sh sh')
    (hcache : ∀ rva t, sh'.cache rva = some t → sh.cache rva = some t ∨ th.Begun rva t.source) :
    Advances funcs sh th sh' .done :=
  ⟨hgrows, fun _ _ h ↦ h.elim, fun _ _ h ↦ h.elim, hcache⟩

theorem grows_store (e : ℕ) (edit : TypeEdit) :
    Grows sh { sh with types := Function.update sh.types e (sh.types e ++ [edit]) } where
  engine := rfl
  seen e' := by
    by_cases he : e' = e
    · subst he
      simp [Shared.seen]
    · simp [Shared.seen, Function.update_of_ne he]
  next _ := le_rfl
  cancelled _ := id

theorem retype_advances (edit : TypeEdit) (pc : RetypePc)
    (h : retypeStep sh answer edit pc = some (sh', th')) :
    Advances funcs sh (.retype edit pc) sh' th' := by
  cases pc with
  | arrived =>
    simp only [retypeStep] at h
    split at h
    · cases h
      exact .of_done (.refl sh) fun _ _ ↦ .inl
    · split at h
      · next e he =>
        cases h
        exact ⟨.refl sh, fun _ _ h ↦ h.elim, fun rva e' h ↦ .inr (h.2 ▸ he), fun _ _ ↦ .inl⟩
      · cases h
        exact .of_done (.refl sh) fun _ _ ↦ .inl
  | loaded e =>
    cases h
    exact ⟨grows_store e edit, fun _ _ h ↦ h.elim, fun _ _ ↦ .inl, fun _ _ ↦ .inl⟩
  | stored e k =>
    cases h
    refine ⟨.of_eq rfl rfl rfl rfl, fun _ _ h ↦ h.elim, fun _ _ ↦ .inl, fun rva t h ↦ .inl ?_⟩
    by_cases hr : rva = edit.rva
    · subst hr
      simp at h
    · simpa [Function.update_of_ne hr] using h
  | removed e k =>
    simp only [retypeStep] at h
    split at h
    · cases h
    · cases h
      exact ⟨.of_eq rfl rfl rfl rfl, fun _ _ h ↦ h.elim, fun _ _ ↦ .inl, fun _ _ ↦ .inl⟩
  | locked e k =>
    cases h
    refine ⟨.refl sh, fun rva src h ↦ ?_, fun _ _ h ↦ h.elim, fun _ _ ↦ .inl⟩
    obtain ⟨hr, rfl⟩ := h
    exact publishes_of_ahead ⟨hr, rfl⟩
  | decompiling e k seen =>
    simp only [retypeStep] at h
    split at h
    · cases h
      exact ⟨.refl sh, fun rva src h ↦ .inl h, fun _ _ h ↦ h.elim, fun _ _ ↦ .inl⟩
    · cases h
      exact .of_done (.of_eq rfl rfl rfl rfl) fun _ _ ↦ .inl
  | inserting e k t =>
    cases h
    refine .of_done (.of_eq rfl rfl rfl rfl) fun rva u h ↦ ?_
    rcases cache_of_insert h with h | ⟨rfl, rfl⟩
    · exact .inl h
    · exact .inr ⟨rfl, rfl⟩

theorem pseudo_advances (r : ℕ) (sm : Bool) (pc : PseudoPc)
    (h : pseudoStep sh answer r sm pc = some (sh', th')) :
    Advances funcs sh (.pseudo r sm pc) sh' th' := by
  cases pc with
  | arrived =>
    simp only [pseudoStep] at h
    split at h
    · cases h
      exact .of_done (.refl sh) fun _ _ ↦ .inl
    · cases h
      exact ⟨.refl sh, fun _ _ h ↦ h.elim, fun _ _ h ↦ h.elim, fun _ _ ↦ .inl⟩
  | missed =>
    simp only [pseudoStep] at h
    split at h
    · next e he =>
      cases h
      exact ⟨.refl sh, fun _ _ h ↦ h.elim, fun rva e' h ↦ .inr (h.2.2 ▸ he), fun _ _ ↦ .inl⟩
    · cases h
      exact .of_done (.refl sh) fun _ _ ↦ .inl
  | loaded e =>
    simp only [pseudoStep] at h
    split at h
    · cases h
    · cases h
      exact ⟨.of_eq rfl rfl rfl rfl, fun _ _ h ↦ h.elim, fun _ _ ↦ .inl, fun _ _ ↦ .inl⟩
  | locked e =>
    cases h
    refine ⟨.refl sh, fun rva src h ↦ ?_, fun _ _ h ↦ h.elim, fun _ _ ↦ .inl⟩
    obtain ⟨hr, hsm, rfl⟩ := h
    exact publishes_of_ahead ⟨hr, hsm, rfl⟩
  | decompiling e seen =>
    simp only [pseudoStep] at h
    split at h
    · split at h
      · cases h
        exact .of_done (.of_eq rfl rfl rfl rfl) fun _ _ ↦ .inl
      · next hsm =>
        cases h
        refine ⟨.of_eq rfl rfl rfl rfl, fun rva src h ↦ .inl ?_, fun _ _ h ↦ h.elim,
          fun _ _ ↦ .inl⟩
        exact ⟨h.1, by simpa using hsm, h.2⟩
    · cases h
      exact .of_done (.of_eq rfl rfl rfl rfl) fun _ _ ↦ .inl
  | inserting t =>
    cases h
    refine .of_done (grows_insert r t) fun rva u h ↦ ?_
    rcases cache_of_insert h with h | ⟨rfl, rfl⟩
    · exact .inl h
    · exact .inr ⟨rfl, rfl⟩

theorem advances_of_threadStep (h : threadStep funcs sh answer th = some (sh', th')) :
    Advances funcs sh th sh' th' := by
  cases th with
  | worker w => exact worker_advances w (Option.some.inj h)
  | reanalyze pc => exact reanalyze_advances pc (Option.some.inj h)
  | retype edit pc => exact retype_advances edit pc h
  | pseudo rva sm pc => exact pseudo_advances rva sm pc h
  | analysis _ => cases h
  | spawning _ _ => cases h
  | done => cases h

end Advance

/-! ### What a step of the session leaves of them -/

section Session

variable {funcs : ℕ → List ℕ} {s s' : State} {a : Act}

/-- Some thread may still publish a text of the function with that source, or a request that is yet
to come may. -/
def State.May (funcs : ℕ → List ℕ) (s : State) (rva : ℕ) (src : Source) : Prop :=
  (∃ th ∈ s.threads, th.Publishes funcs s.shared rva src) ∨
    ∃ e, s.shared.engine = some e ∧ Later s.shared e src

/-- The step replaces the engine of the session. -/
def Commits (s : State) : Act → Prop
  | .commit i _ => ∃ flag, s.threads[i]? = some (.analysis flag) ∧ s.shared.mayCommit flag = true
  | _ => False

/-- Threads that appear, or change, add nothing unless they could publish it before. -/
theorem State.May.of_threads {rva : ℕ} {src : Source} {ths : List Thread} {sh : Shared}
    (hgrows : Grows s.shared sh)
    (hths : ∀ th ∈ ths, th ∈ s.threads ∨ (th.Publishes funcs sh rva src → s.May funcs rva src))
    (h : State.May funcs ⟨sh, ths⟩ rva src) : s.May funcs rva src := by
  rcases h with ⟨th, hth, hpub⟩ | ⟨e, he, hlater⟩
  · rcases hths th hth with hmem | hmay
    · exact .inl ⟨th, hmem, hpub.of_grows hgrows⟩
    · exact hmay hpub
  · exact .inr ⟨e, hgrows.engine ▸ he, hlater.of_grows hgrows⟩

/-- What a step of the session does unless it replaces the engine. -/
structure Keeps (funcs : ℕ → List ℕ) (s s' : State) : Prop where
  grows : Grows s.shared s'.shared
  may : ∀ rva src, s'.May funcs rva src → s.May funcs rva src
  cache : ∀ rva t, s'.shared.cache rva = some t →
    s.shared.cache rva = some t ∨ s.May funcs rva t.source

theorem keeps_spawnThread {th : Thread} (hth : ∀ rva src, ¬th.Publishes funcs s.shared rva src) :
    Keeps funcs s (s.spawnThread th) := by
  refine ⟨.refl _, fun rva src ↦ .of_threads (.refl _) fun th' hth' ↦ ?_, fun _ _ ↦ .inl⟩
  rcases List.mem_append.1 hth' with hmem | hmem
  · exact .inl hmem
  · obtain rfl := List.mem_singleton.1 hmem
    exact .inr fun hpub ↦ absurd hpub (hth rva src)

theorem not_publishes {sh : Shared} {th : Thread} {rva : ℕ} {src : Source}
    (hbegun : ¬th.Begun rva src) (hahead : ∀ e, ¬th.Ahead funcs sh rva e) :
    ¬th.Publishes funcs sh rva src := by
  rintro (h | ⟨e, h, -⟩)
  · exact hbegun h
  · exact hahead e h

theorem keeps_setDone (i : ℕ) : Keeps funcs s (s.setThread i s.shared .done) := by
  refine ⟨.refl _, fun rva src ↦ .of_threads (.refl _) fun th hth ↦ ?_, fun _ _ ↦ .inl⟩
  rcases List.mem_or_eq_of_mem_set hth with hmem | rfl
  · exact .inl hmem
  · exact .inr fun hpub ↦ absurd hpub (not_publishes id fun _ ↦ id)

/-- The workers may publish what the thread that starts them could. -/
theorem keeps_spawn {i nthreads engine flag : ℕ}
    (hi : s.threads[i]? = some (.spawning engine flag)) :
    Keeps funcs s (s.spawnWorkers i nthreads { engine, flag }) := by
  refine ⟨.refl _, fun rva src ↦ .of_threads (.refl _) fun th hth ↦ ?_, fun _ _ ↦ .inl⟩
  rcases List.mem_append.1 hth with hth | hth
  · rcases List.mem_or_eq_of_mem_set hth with hmem | rfl
    · exact .inl hmem
    · exact .inr fun hpub ↦ absurd hpub (not_publishes id fun _ ↦ id)
  · obtain rfl := List.eq_of_mem_replicate hth
    refine .inr fun hpub ↦ .inl ⟨_, List.mem_of_getElem? hi, ?_⟩
    rcases hpub with (⟨t, ht, -⟩ | ⟨seen, hpc, -⟩) | hahead
    · cases ht
    · cases hpc
    · exact .inr hahead

theorem keeps_next {i : ℕ} {sh : Shared} {th th' : Thread} (hi : s.threads[i]? = some th)
    (hadvance : Advances funcs s.shared th sh th') : Keeps funcs s (s.setThread i sh th') := by
  have hmem : th ∈ s.threads := List.mem_of_getElem? hi
  refine ⟨hadvance.grows, fun rva src ↦ .of_threads hadvance.grows fun u hu ↦ ?_,
    fun rva t h ↦ (hadvance.cache rva t h).imp id fun h ↦ .inl ⟨th, hmem, .inl h⟩⟩
  rcases List.mem_or_eq_of_mem_set hu with hmem' | rfl
  · exact .inl hmem'
  · refine .inr fun hpub ↦ ?_
    rcases hpub with hbegun | ⟨e, hahead, hlater⟩
    · exact .inl ⟨th, hmem, hadvance.begun rva src hbegun⟩
    · have hlater := hlater.of_grows hadvance.grows
      rcases hadvance.ahead rva e hahead with hahead | hengine
      · exact .inl ⟨th, hmem, .inr ⟨e, hahead, hlater⟩⟩
      · exact .inr ⟨e, hengine, hlater⟩

theorem keeps_of_step (hstep : step funcs s a = some s') (hcommit : ¬Commits s a) :
    Keeps funcs s s' := by
  cases a with
  | start =>
    cases hstep
    exact keeps_spawnThread fun _ _ ↦ not_publishes id fun _ ↦ id
  | cancelAnalysis =>
    cases hstep
    exact ⟨grows_cancelAnalysis, fun rva src ↦ .of_threads grows_cancelAnalysis fun _ ↦ .inl,
      fun _ _ ↦ .inl⟩
  | reanalyze =>
    cases hstep
    exact keeps_spawnThread fun _ _ ↦ not_publishes id fun _ ↦ id
  | setVarType edit =>
    cases hstep
    exact keeps_spawnThread fun _ _ ↦ not_publishes id fun _ ↦ id
  | getPseudocode rva sm =>
    cases hstep
    exact keeps_spawnThread fun _ _ ↦ not_publishes id fun _ ↦ id
  | quit i =>
    simp only [step] at hstep
    split at hstep
    · cases hstep
      exact keeps_setDone i
    · cases hstep
  | commit i preloaded =>
    simp only [step] at hstep
    split at hstep
    · next flag hi =>
      split at hstep
      · cases hstep
        exact keeps_setDone i
      · next hmay => exact absurd ⟨flag, hi, by simpa using hmay⟩ hcommit
    · cases hstep
  | spawn i nthreads =>
    simp only [step] at hstep
    split at hstep
    · next engine flag hi =>
      cases hstep
      exact keeps_spawn hi
    · cases hstep
  | next i answer =>
    obtain ⟨th, hi, hstep⟩ := Option.bind_eq_some_iff.1 hstep
    obtain ⟨⟨sh, th'⟩, hth, hstep⟩ := Option.bind_eq_some_iff.1 hstep
    cases hstep
    exact keeps_next hi (advances_of_threadStep hth)

/-- The step of a commit. -/
theorem commit_of_step (hstep : step funcs s a = some s') (hcommit : Commits s a) :
    ∃ i preloaded th, s' = s.setThread i (s.shared.commit preloaded) th ∧
      (th = .done ∨ ∃ flag, th = .spawning s.shared.engines flag) := by
  cases a with
  | commit i preloaded =>
    obtain ⟨flag, hi, hmay⟩ := hcommit
    simp only [step, hi, hmay] at hstep
    cases hstep
    refine ⟨i, preloaded, _, rfl, ?_⟩
    cases preloaded with
    | none => exact .inr ⟨flag, rfl⟩
    | some m => exact .inl rfl
  | _ => exact hcommit.elim

end Session

end Shell

end Ldu
