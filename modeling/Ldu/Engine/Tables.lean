import Ldu.Engine.Memo
import Mathlib.Data.List.Infix
import Mathlib.Data.UInt

/-!
# The tables kept for an engine

Decompiling a function consults three tables that are computed from the engine and remembered for
the rest of the process: the tables of the PE image (`getPeTables`), whether the image is that of a
Rust program (`isRustImage`), and the signatures of all functions (`sigTable`). They are remembered
by the address of the engine, the signatures together with the number of functions. Destroying an
engine forgets nothing, and the allocator may give its address to another one.

A process is a state machine over the calls of the engine's interface (`Process.step`). The tables
used are those of the engine at hand, in every decompilation a run could continue with, exactly as
long as every change of an engine finds under its address only entries that its new contents would
give (`Process.run_serves_iff`).

How the PE tables and the signatures are computed is left open; what matters is that they are
functions of the engine. The environment switches are taken as unset.
-/

namespace Ldu

/-! ### Engines -/

/-- A function the engine knows of. -/
structure DsFunc where
  rva : ℕ
  name : String
  deriving DecidableEq

/-- What an engine holds: the mapped image, the segments, the functions, and everything else. -/
structure DsEngine (Seg Rest : Type*) where
  image : List UInt8
  segments : List Seg
  funcs : List DsFunc
  rest : Rest

/-- A search for the bytes `pat`. -/
def imageContains (pat : List UInt8) : List UInt8 → Bool
  | [] => false
  | b :: image => (pat != [] && pat.isPrefixOf (b :: image)) || imageContains pat image

/-- The bytes of a text. -/
def bytesOf (s : String) : List UInt8 :=
  s.toList.map fun c ↦ UInt8.ofNat c.toNat

/-- The image holds one of the paths that the Rust compiler puts at its panic sites. -/
def computeIsRustImage {Seg Rest : Type*} (e : DsEngine Seg Rest) : Bool :=
  ["/rustc/", "library\\core\\src\\", "library\\std\\src\\"].any fun mark ↦
    imageContains (bytesOf mark) e.image

/-! ### The process -/

/-- The engines that are alive, by address, and the tables remembered. -/
structure Process (Seg Rest PeTables SigTable : Type*) where
  live : ℕ → Option (DsEngine Seg Rest)
  pe : Memo ℕ Unit PeTables
  rust : Memo ℕ Unit Bool
  sig : Memo ℕ ℕ SigTable

/-- The tables a decompilation has used; a function without such data asks neither for the Rust
flag nor, when only its frame is recovered, for the remembered signatures. -/
structure Tables (PeTables SigTable : Type*) where
  pe : PeTables
  rust : Option Bool
  sig : SigTable

/-- A call of the interface. `create` is given the address that the allocator returns, and
`analyse` stands for each call that changes what an engine holds. -/
inductive Call (Seg Rest : Type*)
  | create (p : ℕ) (image : List UInt8) (rest : Rest)
  | destroy (p : ℕ)
  | analyse (p : ℕ) (e : DsEngine Seg Rest)
  | decompile (p rva : ℕ) (asksRust : Bool)
  | decompileFrame (p rva : ℕ) (asksRust : Bool)

section Process

variable {Seg Rest PeTables SigTable : Type*} (computePeTables : DsEngine Seg Rest → PeTables)
  (buildSigTable : DsEngine Seg Rest → SigTable)

namespace Process

variable (σ : Process Seg Rest PeTables SigTable)

def empty : Process Seg Rest PeTables SigTable :=
  ⟨fun _ ↦ none, .empty, .empty, .empty⟩

def getPeTables (p : ℕ) (e : DsEngine Seg Rest) :
    PeTables × Process Seg Rest PeTables SigTable :=
  let r := σ.pe.fetch p () (computePeTables e)
  (r.1, { σ with pe := r.2 })

def isRustImage (p : ℕ) (e : DsEngine Seg Rest) : Bool × Process Seg Rest PeTables SigTable :=
  let r := σ.rust.fetch p () (computeIsRustImage e)
  (r.1, { σ with rust := r.2 })

/-- The signatures are remembered with the number of functions, and computed again when that has
changed. -/
def sigTable (p : ℕ) (e : DsEngine Seg Rest) : SigTable × Process Seg Rest PeTables SigTable :=
  let r := σ.sig.fetch p e.funcs.length (buildSigTable e)
  (r.1, { σ with sig := r.2 })

/-- The decompiler of one function: the PE tables are asked for when it is built, the Rust flag
when it comes to a string. -/
def runDecompiler (p : ℕ) (e : DsEngine Seg Rest) (asksRust : Bool) (sig : SigTable) :
    Tables PeTables SigTable × Process Seg Rest PeTables SigTable :=
  let pe := σ.getPeTables computePeTables p e
  if asksRust then
    let rust := pe.2.isRustImage p e
    (⟨pe.1, some rust.1, sig⟩, rust.2)
  else (⟨pe.1, none, sig⟩, pe.2)

/-- `ds_decompile`, when the engine has a function at the address. -/
def dsDecompile (p : ℕ) (e : DsEngine Seg Rest) (rva : ℕ) (asksRust : Bool) :
    Option (Tables PeTables SigTable × Process Seg Rest PeTables SigTable) :=
  if e.funcs.any (·.rva == rva) then
    let sig := σ.sigTable buildSigTable p e
    some (sig.2.runDecompiler computePeTables p e asksRust sig.1)
  else none

/-- `ds_decompile_frame` builds the signatures each time. -/
def dsDecompileFrame (p : ℕ) (e : DsEngine Seg Rest) (rva : ℕ) (asksRust : Bool) :
    Option (Tables PeTables SigTable × Process Seg Rest PeTables SigTable) :=
  if e.funcs.any (·.rva == rva) then
    some (σ.runDecompiler computePeTables p e asksRust (buildSigTable e))
  else none

/-- The memory at `p` holds another engine, or none. -/
def setEngine (p : ℕ) (o : Option (DsEngine Seg Rest)) : Process Seg Rest PeTables SigTable :=
  { σ with live := Function.update σ.live p o }

/-- A call, when it is one the caller may make: an address that is not in use for a new engine, and
an engine that is alive otherwise. -/
def step (σ : Process Seg Rest PeTables SigTable) :
    Call Seg Rest → Option (Process Seg Rest PeTables SigTable)
  | .create p image rest =>
    if (σ.live p).isNone then some (σ.setEngine p (some ⟨image, [], [], rest⟩)) else none
  | .destroy p => (σ.live p).map fun _ ↦ σ.setEngine p none
  | .analyse p e => (σ.live p).map fun _ ↦ σ.setEngine p (some e)
  | .decompile p rva asksRust =>
    (σ.live p).map fun e ↦
      ((σ.dsDecompile computePeTables buildSigTable p e rva asksRust).map (·.2)).getD σ
  | .decompileFrame p rva asksRust =>
    (σ.live p).map fun e ↦
      ((σ.dsDecompileFrame computePeTables buildSigTable p e rva asksRust).map (·.2)).getD σ

/-- A sequence of calls. -/
def run (σ : Process Seg Rest PeTables SigTable) (calls : List (Call Seg Rest)) :
    Option (Process Seg Rest PeTables SigTable) :=
  calls.foldlM (step computePeTables buildSigTable) σ

/-! ### The tables used -/

end Process

/-- The tables are those computed from the engine. -/
structure Tables.Own (t : Tables PeTables SigTable) (e : DsEngine Seg Rest) : Prop where
  pe : t.pe = computePeTables e
  rust : ∀ r, t.rust = some r → r = computeIsRustImage e
  sig : t.sig = buildSigTable e

namespace Process

/-- Whatever function of whatever engine is decompiled next, the tables used are the engine's. -/
def Serves (σ : Process Seg Rest PeTables SigTable) : Prop :=
  ∀ p e, σ.live p = some e → ∀ rva asksRust t σ',
    σ.dsDecompile computePeTables buildSigTable p e rva asksRust = some (t, σ') ∨
      σ.dsDecompileFrame computePeTables buildSigTable p e rva asksRust = some (t, σ') →
    t.Own computePeTables buildSigTable e

/-- What is remembered under the address `p` is what the engine `e` gives. -/
structure RightFor (σ : Process Seg Rest PeTables SigTable) (p : ℕ) (e : DsEngine Seg Rest) :
    Prop where
  pe : σ.pe.RightAt p () (computePeTables e)
  rust : σ.rust.RightAt p () (computeIsRustImage e)
  sig : σ.sig.RightAt p e.funcs.length (buildSigTable e)

/-- A change of an engine finds only entries that its new contents give, unless it leaves no
function to decompile. -/
def Meets (σ : Process Seg Rest PeTables SigTable) : Call Seg Rest → Prop
  | .analyse p e => e.funcs ≠ [] → σ.RightFor computePeTables buildSigTable p e
  | _ => True

variable {computePeTables buildSigTable} {σ σ' : Process Seg Rest PeTables SigTable} {p : ℕ}
  {e : DsEngine Seg Rest}

theorem runDecompiler_own_iff {asksRust : Bool} {sig : SigTable} :
    (σ.runDecompiler computePeTables p e asksRust sig).1.Own computePeTables buildSigTable e ↔
      σ.pe.RightAt p () (computePeTables e) ∧
        (asksRust = true → σ.rust.RightAt p () (computeIsRustImage e)) ∧ sig = buildSigTable e := by
  rw [← Memo.fetch_fst_eq_iff, ← Memo.fetch_fst_eq_iff]
  cases asksRust with
  | true =>
    refine ⟨fun h ↦ ⟨h.pe, fun _ ↦ h.rust _ rfl, h.sig⟩, fun ⟨hpe, hrust, hsig⟩ ↦ ⟨hpe, ?_, hsig⟩⟩
    intro r hr
    obtain rfl := Option.some.inj hr
    exact hrust rfl
  | false =>
    refine ⟨fun h ↦ ⟨h.pe, fun h ↦ absurd h (by decide), h.sig⟩,
      fun ⟨hpe, _, hsig⟩ ↦ ⟨hpe, ?_, hsig⟩⟩
    intro r hr
    cases hr

/-- A function can be decompiled when there is one, and then all the tables may be used. -/
theorem serves_iff : σ.Serves computePeTables buildSigTable ↔
    ∀ p e, σ.live p = some e → e.funcs ≠ [] → σ.RightFor computePeTables buildSigTable p e := by
  constructor
  · intro h p e hp hfuncs
    obtain ⟨f, hf⟩ := List.exists_mem_of_ne_nil _ hfuncs
    have hany : e.funcs.any (·.rva == f.rva) = true :=
      List.any_eq_true.2 ⟨f, hf, beq_self_eq_true _⟩
    have hown := h p e hp f.rva true _ _ (.inl (by rw [dsDecompile, if_pos hany]))
    obtain ⟨hpe, hrust, hsig⟩ := runDecompiler_own_iff.1 hown
    exact ⟨hpe, hrust rfl, Memo.fetch_fst_eq_iff.1 hsig⟩
  · intro h p e hp rva asksRust t σ' ht
    have hright : e.funcs.any (·.rva == rva) = true →
        σ.RightFor computePeTables buildSigTable p e := by
      intro hany
      refine h p e hp ?_
      rintro hnil
      rw [hnil] at hany
      cases hany
    rcases ht with ht | ht
    · unfold dsDecompile at ht
      split at ht
      · next hany =>
        obtain ⟨hpe, hrust, hsig⟩ := hright hany
        obtain rfl : _ = t := congrArg Prod.fst (Option.some.inj ht)
        exact runDecompiler_own_iff.2 ⟨hpe, fun _ ↦ hrust, Memo.fetch_fst_eq_iff.2 hsig⟩
      · cases ht
    · unfold dsDecompileFrame at ht
      split at ht
      · next hany =>
        obtain ⟨hpe, hrust, -⟩ := hright hany
        obtain rfl : _ = t := congrArg Prod.fst (Option.some.inj ht)
        exact runDecompiler_own_iff.2 ⟨hpe, fun _ ↦ hrust, rfl⟩
      · cases ht

/-! ### Steps -/

theorem runDecompiler_live (asksRust : Bool) (sig : SigTable) :
    (σ.runDecompiler computePeTables p e asksRust sig).2.live = σ.live := by
  cases asksRust <;> rfl

/-- A decompilation for the engine at `p` keeps what is right for the engines. -/
theorem RightFor.runDecompiler (hp : σ.live p = some e) {q : ℕ} {e' : DsEngine Seg Rest}
    (hq : σ.live q = some e') (h : σ.RightFor computePeTables buildSigTable q e')
    (asksRust : Bool) (sig : SigTable) :
    (σ.runDecompiler computePeTables p e asksRust sig).2.RightFor computePeTables buildSigTable q
      e' := by
  have he : q = p → e' = e := by
    rintro rfl
    exact Option.some.inj (hq.symm.trans hp)
  have hpe := h.pe.fetch (k := p) (t := ()) (v := computePeTables e) fun hk _ ↦ by rw [he hk]
  have hrust := h.rust.fetch (k := p) (t := ()) (v := computeIsRustImage e) fun hk _ ↦ by
    rw [he hk]
  cases asksRust
  · exact ⟨hpe, h.rust, h.sig⟩
  · exact ⟨hpe, hrust, h.sig⟩

/-- Processes with the same engines, in which what was right for them still is. -/
theorem Serves.of_keeps (h : σ.Serves computePeTables buildSigTable) (hlive : σ'.live = σ.live)
    (hright : ∀ q e', σ.live q = some e' → σ.RightFor computePeTables buildSigTable q e' →
      σ'.RightFor computePeTables buildSigTable q e') :
    σ'.Serves computePeTables buildSigTable := by
  rw [serves_iff] at h ⊢
  intro q e' hq hfuncs
  rw [hlive] at hq
  exact hright q e' hq (h q e' hq hfuncs)

theorem Serves.decompile (h : σ.Serves computePeTables buildSigTable) (hp : σ.live p = some e)
    (rva : ℕ) (asksRust : Bool) :
    (((σ.dsDecompile computePeTables buildSigTable p e rva asksRust).map (·.2)).getD σ).Serves
      computePeTables buildSigTable := by
  unfold dsDecompile
  split
  · have hsig : (σ.sigTable buildSigTable p e).2.Serves computePeTables buildSigTable := by
      refine h.of_keeps rfl fun q e' hq hright ↦ ⟨hright.pe, hright.rust, hright.sig.fetch ?_⟩
      rintro rfl -
      rw [Option.some.inj (hq.symm.trans hp)]
    exact hsig.of_keeps (runDecompiler_live _ _) fun q e' hq hright ↦
      hright.runDecompiler (σ := (σ.sigTable buildSigTable p e).2) hp hq _ _
  · exact h

theorem Serves.decompileFrame (h : σ.Serves computePeTables buildSigTable) (hp : σ.live p = some e)
    (rva : ℕ) (asksRust : Bool) :
    (((σ.dsDecompileFrame computePeTables buildSigTable p e rva asksRust).map (·.2)).getD σ).Serves
      computePeTables buildSigTable := by
  unfold dsDecompileFrame
  split
  · exact h.of_keeps (runDecompiler_live _ _) fun q e' hq hright ↦
      hright.runDecompiler hp hq _ _
  · exact h

theorem setEngine_self (σ : Process Seg Rest PeTables SigTable) (o : Option (DsEngine Seg Rest)) :
    (σ.setEngine p o).live p = o :=
  Function.update_self ..

theorem setEngine_of_ne {q : ℕ} (hq : q ≠ p) (σ : Process Seg Rest PeTables SigTable)
    (o : Option (DsEngine Seg Rest)) : (σ.setEngine p o).live q = σ.live q :=
  Function.update_of_ne hq ..

/-- With the contents of one engine replaced, the tables used stay the engines' exactly when what is
remembered under its address is right for the new contents. -/
theorem serves_setEngine_iff (h : σ.Serves computePeTables buildSigTable)
    (o : Option (DsEngine Seg Rest)) :
    (σ.setEngine p o).Serves computePeTables buildSigTable ↔
      ∀ e, o = some e → e.funcs ≠ [] → σ.RightFor computePeTables buildSigTable p e := by
  rw [serves_iff] at h ⊢
  constructor
  · intro h' e he hfuncs
    obtain ⟨hpe, hrust, hsig⟩ := h' p e (by rw [setEngine_self, he]) hfuncs
    exact ⟨hpe, hrust, hsig⟩
  · intro ho q e' hq hfuncs
    by_cases hqp : q = p
    · subst hqp
      rw [setEngine_self] at hq
      obtain ⟨hpe, hrust, hsig⟩ := ho e' hq hfuncs
      exact ⟨hpe, hrust, hsig⟩
    · rw [setEngine_of_ne hqp] at hq
      obtain ⟨hpe, hrust, hsig⟩ := h q e' hq hfuncs
      exact ⟨hpe, hrust, hsig⟩

/-- After a call the tables used are still the engines' exactly when the call meets the
condition. -/
theorem serves_step_iff {c : Call Seg Rest} (h : σ.Serves computePeTables buildSigTable)
    (hstep : σ.step computePeTables buildSigTable c = some σ') :
    σ'.Serves computePeTables buildSigTable ↔ σ.Meets computePeTables buildSigTable c := by
  cases c with
  | create p image rest =>
    obtain ⟨-, hσ⟩ := Option.ite_none_right_eq_some.1 hstep
    obtain rfl := Option.some.inj hσ
    rw [serves_setEngine_iff h]
    refine iff_of_true ?_ trivial
    -- A new engine has no functions yet.
    rintro e he hfuncs
    obtain rfl := Option.some.inj he
    exact absurd rfl hfuncs
  | destroy p =>
    obtain ⟨e, -, rfl⟩ := Option.map_eq_some_iff.1 hstep
    rw [serves_setEngine_iff h]
    exact iff_of_true (fun e he ↦ by cases he) trivial
  | analyse p e =>
    obtain ⟨e', -, rfl⟩ := Option.map_eq_some_iff.1 hstep
    rw [serves_setEngine_iff h]
    simp [Meets]
  | decompile p rva asksRust =>
    obtain ⟨e, hp, rfl⟩ := Option.map_eq_some_iff.1 hstep
    exact iff_of_true (h.decompile hp rva asksRust) trivial
  | decompileFrame p rva asksRust =>
    obtain ⟨e, hp, rfl⟩ := Option.map_eq_some_iff.1 hstep
    exact iff_of_true (h.decompileFrame hp rva asksRust) trivial

/-! ### Runs -/

theorem run_concat (calls : List (Call Seg Rest)) (c : Call Seg Rest)
    (σ : Process Seg Rest PeTables SigTable) :
    σ.run computePeTables buildSigTable (calls ++ [c]) =
      (σ.run computePeTables buildSigTable calls).bind
        (step computePeTables buildSigTable · c) := by
  rw [run, List.foldlM_append]
  refine congrArg (Option.bind _) (funext fun σ' ↦ ?_)
  exact bind_pure _

/-- In every state of a run from an empty process, the tables used next are the engines', exactly
when all its calls meet the condition. -/
theorem run_serves_iff (calls : List (Call Seg Rest)) :
    (∀ pre, pre <+: calls → ∀ σ : Process Seg Rest PeTables SigTable,
        run computePeTables buildSigTable empty pre = some σ →
        σ.Serves computePeTables buildSigTable) ↔
      ∀ pre c, pre ++ [c] <+: calls → ∀ σ σ' : Process Seg Rest PeTables SigTable,
        run computePeTables buildSigTable empty pre = some σ →
        σ.step computePeTables buildSigTable c = some σ' →
        σ.Meets computePeTables buildSigTable c := by
  constructor
  · intro h pre c hpre σ σ' hrun hstep
    have hbefore := h pre ((List.prefix_append pre [c]).trans hpre) σ hrun
    refine (serves_step_iff hbefore hstep).1 (h _ hpre σ' ?_)
    rw [run_concat, hrun]
    exact hstep
  · intro h pre
    induction pre using List.reverseRecOn with
    | nil =>
      intro _ σ hrun
      obtain rfl := Option.some.inj hrun
      intro p e hp
      cases hp
    | append_singleton pre c ih =>
      intro hpre σ' hrun
      rw [run_concat] at hrun
      obtain ⟨σ, hσ, hstep⟩ := Option.bind_eq_some_iff.1 hrun
      have hbefore := ih ((List.prefix_append pre [c]).trans hpre) σ hσ
      exact (serves_step_iff hbefore hstep).2 (h pre c hpre σ σ' hσ hstep)

/-- Nothing is remembered under an address that no engine has been decompiled at. -/
theorem rightFor_of_untouched (hpe : σ.pe p = none) (hrust : σ.rust p = none)
    (hsig : σ.sig p = none)
    (e : DsEngine Seg Rest) : σ.RightFor computePeTables buildSigTable p e := by
  refine ⟨fun w hw ↦ ?_, fun w hw ↦ ?_, fun w hw ↦ ?_⟩
  · rw [hpe] at hw
    cases hw
  · rw [hrust] at hw
    cases hw
  · rw [hsig] at hw
    cases hw

end Process

end Process

/-! ### An address used again -/

def panicSite : DsEngine Unit Unit :=
  ⟨bytesOf "/rustc/", [], [⟨0, "f"⟩], ()⟩

def plainImage : DsEngine Unit Unit :=
  ⟨[], [], [⟨0, "f"⟩], ()⟩

/-- A Rust program is decompiled and its engine destroyed; the next engine gets the same address. -/
def reused : List (Call Unit Unit) :=
  [.create 0 panicSite.image (), .analyse 0 panicSite, .decompile 0 0 true, .destroy 0,
    .create 0 plainImage.image (), .analyse 0 plainImage]

/-- The next engine is taken for a Rust program. -/
theorem reused_stale :
    ¬ ∀ (calls : List (Call Unit Unit)) (σ : Process Unit Unit Unit Unit),
      Process.run (fun _ ↦ ()) (fun _ ↦ ()) .empty calls = some σ →
        σ.Serves (fun _ ↦ ()) fun _ ↦ () := by
  intro h
  have hown := h reused _ rfl 0 plainImage rfl 0 true ⟨(), some true, ()⟩ _ (.inl rfl)
  exact absurd (hown.rust true rfl) (by decide)

end Ldu
