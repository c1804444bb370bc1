import Ldu.Shell.Session

/-!
# Stale texts

Workers publish what they have decompiled some time later, whatever has happened to the cache and to
the session in the meantime. So a text from before a type was set may replace the one from after it
(`retype_undone`), and a text of an engine may enter the cache of the next one
(`reanalysis_undone`).

Neither happens when nothing stale can still be published at the decisive moment: when a request for
a type inserts its text, the texts of that function that other threads may still publish are from
after the type was set (`cache_fresh`); when an analysis commits, no thread may still publish
anything (`cache_own`).
-/

namespace Ldu

namespace Shell

variable {funcs : ℕ → List ℕ} {s s' : State}

/-! ### A type that is set -/

/-- The text is from the engine on which the type with the number `k` was set, and from after
that. -/
def Fresh (e k : ℕ) (src : Source) : Prop :=
  ∃ seen, src = .decompiled e seen ∧ k < seen

/-- Once a request for a type has inserted its text, the cache has a text from after the type was
set for the function, or none, until another engine is committed. -/
def RetypeKept (funcs : ℕ → List ℕ) (s : State) (i : ℕ) (edit : TypeEdit) (e k : ℕ) : Prop :=
  ∀ answer s₁ s₂, step funcs s (.next i answer) = some s₁ →
    Reach funcs (fun s a ↦ ¬Commits s a) s₁ s₂ →
    ∀ t, s₂.shared.cache edit.rva = some t → Fresh e k t.source

/-- No other thread may publish a text of the function from before the type was set, and the session
still has the engine. -/
structure Unhindered (funcs : ℕ → List ℕ) (s : State) (i rva e k : ℕ) : Prop where
  engine : s.shared.engine = some e
  others : ∀ j th, j ≠ i → s.threads[j]? = some th →
    ∀ src, th.Publishes funcs s.shared rva src → Fresh e k src

/-- What a request for a type knows of the number of its type. -/
def Thread.Sound (sh : Shared) : Thread → Prop
  | .retype _ (.stored e k) => k < sh.seen e
  | .retype _ (.removed e k) => k < sh.seen e
  | .retype _ (.locked e k) => k < sh.seen e
  | .retype _ (.decompiling e k seen) => k < sh.seen e ∧ k < seen
  | .retype _ (.inserting e k t) => k < sh.seen e ∧ Fresh e k t.source
  | _ => True

theorem Thread.Sound.of_seen {sh sh' : Shared} {th : Thread} (h : th.Sound sh)
    (hseen : ∀ e, sh.seen e ≤ sh'.seen e) : th.Sound sh' := by
  cases th with
  | retype edit pc =>
    cases pc with
    | stored e k | removed e k | locked e k => exact h.trans_le (hseen e)
    | decompiling e k seen => exact ⟨h.1.trans_le (hseen e), h.2⟩
    | inserting e k t => exact ⟨h.1.trans_le (hseen e), h.2⟩
    | arrived => exact h
    | loaded e => exact h
  | _ => exact h

theorem retype_sound {sh sh' : Shared} {th' : Thread} {answer : Option String} (edit : TypeEdit)
    (pc : RetypePc) (hsound : (Thread.retype edit pc).Sound sh)
    (h : retypeStep sh answer edit pc = some (sh', th')) : th'.Sound sh' := by
  cases pc with
  | arrived =>
    simp only [retypeStep] at h
    split_ifs at h
    · cases h
      trivial
    · split at h <;> cases h <;> trivial
  | loaded e =>
    cases h
    simp [Thread.Sound, Shared.seen]
  | stored e k =>
    cases h
    exact hsound
  | removed e k =>
    simp only [retypeStep] at h
    split_ifs at h
    cases h
    exact hsound
  | locked e k =>
    cases h
    exact ⟨hsound, hsound⟩
  | decompiling e k seen =>
    simp only [retypeStep] at h
    split at h
    · cases h
      exact ⟨hsound.1, seen, rfl, hsound.2⟩
    · cases h
      trivial
  | inserting e k t =>
    cases h
    trivial

theorem worker_sound {sh sh' : Shared} {th' : Thread} {answer : Option String} (w : Worker)
    (h : workerStep funcs sh answer w = (sh', th')) : th'.Sound sh' := by
  unfold workerStep at h
  split at h
  · cases h
    trivial
  · split at h
    · cases h
      trivial
    · split_ifs at h <;> cases h <;> trivial
  all_goals
    cases h
    trivial

theorem pseudo_sound {sh sh' : Shared} {th' : Thread} {answer : Option String} (rva : ℕ)
    (sm : Bool) (pc : PseudoPc) (h : pseudoStep sh answer rva sm pc = some (sh', th')) :
    th'.Sound sh' := by
  cases pc with
  | arrived =>
    simp only [pseudoStep] at h
    split_ifs at h <;> cases h <;> trivial
  | missed =>
    simp only [pseudoStep] at h
    split at h <;> cases h <;> trivial
  | loaded e =>
    simp only [pseudoStep] at h
    split_ifs at h
    cases h
    trivial
  | decompiling e seen =>
    simp only [pseudoStep] at h
    split at h
    · split_ifs at h <;> cases h <;> trivial
    · cases h
      trivial
  | locked e =>
    cases h
    trivial
  | inserting t =>
    cases h
    trivial

theorem sound_of_threadStep {sh sh' : Shared} {th th' : Thread} {answer : Option String}
    (hsound : th.Sound sh) (h : threadStep funcs sh answer th = some (sh', th')) :
    th'.Sound sh' := by
  cases th with
  | worker w => exact worker_sound w (Option.some.inj h)
  | reanalyze pc => cases pc <;> cases h <;> trivial
  | retype edit pc => exact retype_sound edit pc hsound h
  | pseudo rva sm pc => exact pseudo_sound rva sm pc h
  | analysis _ => cases h
  | spawning _ _ => cases h
  | done => cases h

theorem sound_setThread {i : ℕ} {sh : Shared} {th : Thread}
    (hsound : ∀ th ∈ s.threads, th.Sound s.shared) (hseen : ∀ e, s.shared.seen e ≤ sh.seen e)
    (hth : th.Sound sh) : ∀ u ∈ (s.setThread i sh th).threads, u.Sound sh := by
  intro u hu
  rcases List.mem_or_eq_of_mem_set hu with hu | rfl
  · exact (hsound u hu).of_seen hseen
  · exact hth

theorem sound_spawnThread {th : Thread} (hsound : ∀ th ∈ s.threads, th.Sound s.shared)
    (hth : th.Sound s.shared) : ∀ u ∈ (s.spawnThread th).threads, u.Sound s.shared := by
  intro u hu
  rcases List.mem_append.1 hu with hu | hu
  · exact hsound u hu
  · obtain rfl := List.mem_singleton.1 hu
    exact hth

theorem sound_of_step {a : Act} (hsound : ∀ th ∈ s.threads, th.Sound s.shared)
    (hstep : step funcs s a = some s') : ∀ th ∈ s'.threads, th.Sound s'.shared := by
  cases a with
  | start =>
    cases hstep
    exact sound_spawnThread hsound trivial
  | cancelAnalysis =>
    cases hstep
    exact fun th hth ↦ (hsound th hth).of_seen fun _ ↦ le_rfl
  | reanalyze =>
    cases hstep
    exact sound_spawnThread hsound trivial
  | setVarType edit =>
    cases hstep
    exact sound_spawnThread hsound trivial
  | getPseudocode rva sm =>
    cases hstep
    exact sound_spawnThread hsound trivial
  | quit i =>
    simp only [step] at hstep
    split at hstep
    · cases hstep
      exact sound_setThread hsound (fun _ ↦ le_rfl) trivial
    · cases hstep
  | commit i preloaded =>
    simp only [step] at hstep
    split at hstep
    · split at hstep
      · cases hstep
        exact sound_setThread hsound (fun _ ↦ le_rfl) trivial
      · cases hstep
        refine sound_setThread hsound (fun _ ↦ le_rfl) ?_
        split <;> trivial
    · cases hstep
  | spawn i nthreads =>
    simp only [step] at hstep
    split at hstep
    · cases hstep
      intro u hu
      have hdone : Thread.done.Sound s.shared := trivial
      rcases List.mem_append.1 hu with hu | hu
      · exact sound_setThread hsound (fun _ ↦ le_rfl) hdone u hu
      · obtain rfl := List.eq_of_mem_replicate hu
        trivial
    · cases hstep
  | next i answer =>
    obtain ⟨th, hi, hstep⟩ := Option.bind_eq_some_iff.1 hstep
    obtain ⟨⟨sh, th'⟩, hth, hstep⟩ := Option.bind_eq_some_iff.1 hstep
    cases hstep
    exact sound_setThread hsound (advances_of_threadStep hth).grows.seen
      (sound_of_threadStep (hsound th (List.mem_of_getElem? hi)) hth)

theorem sound_of_reach {ok : State → Act → Prop} (h : Reach funcs ok {} s) :
    ∀ th ∈ s.threads, th.Sound s.shared := by
  induction h with
  | refl => exact fun th hth ↦ absurd hth List.not_mem_nil
  | tail _ hstep ih =>
    obtain ⟨a, -, hstep⟩ := hstep
    exact sound_of_step ih hstep

/-- If every text that may still be published is from after the type was set, then those in the
cache stay so. -/
theorem fresh_of_reach {rva e k : ℕ} (h : Reach funcs (fun s a ↦ ¬Commits s a) s s')
    (hcache : ∀ t, s.shared.cache rva = some t → Fresh e k t.source)
    (hmay : ∀ src, s.May funcs rva src → Fresh e k src) :
    ∀ t, s'.shared.cache rva = some t → Fresh e k t.source := by
  have hboth : (∀ t, s'.shared.cache rva = some t → Fresh e k t.source) ∧
      ∀ src, s'.May funcs rva src → Fresh e k src := by
    induction h with
    | refl => exact ⟨hcache, hmay⟩
    | tail _ hstep ih =>
      obtain ⟨a, hcommit, hstep⟩ := hstep
      have hkeeps := keeps_of_step hstep hcommit
      refine ⟨fun t ht ↦ ?_, fun src hsrc ↦ ih.2 src (hkeeps.may rva src hsrc)⟩
      exact (hkeeps.cache rva t ht).elim (ih.1 t) (ih.2 t.source)
  exact hboth.1

theorem reach_of_run (acts : List Act) {ok : State → Act → Prop} (hok : ∀ s, ∀ a ∈ acts, ok s a)
    (h : run funcs s acts = some s') : Reach funcs ok s s' := by
  induction acts generalizing s with
  | nil =>
    obtain rfl : s = s' := Option.some.inj h
    exact .refl
  | cons a acts ih =>
    rw [run, List.foldlM_cons] at h
    obtain ⟨s₁, hstep, h⟩ := Option.bind_eq_some_iff.1 h
    refine .head ⟨a, hok s a List.mem_cons_self, hstep⟩ (ih (fun s b hb ↦ ?_) h)
    exact hok s b (List.mem_cons_of_mem _ hb)

/-- An engine with one function. -/
def oneFunc : ℕ → List ℕ := fun _ ↦ [0x1000]

def edit : TypeEdit := ⟨0x1000, "v1", "int"⟩

/-- A worker decompiles the function; before it publishes the text, a type is set for a variable,
and the function decompiled again. -/
def retypeRun : List Act :=
  [.start, .commit 0 none, .spawn 0 1, .next 1 none, .next 1 none, .next 1 none,
    .next 1 (some "before"), .setVarType edit, .next 2 none, .next 2 none, .next 2 none,
    .next 2 none, .next 2 none, .next 2 (some "after")]

/-- The text is inserted, the worker finds no more functions and publishes what it has. -/
def publishRun : List Act :=
  [.next 1 none, .next 1 none, .next 1 none]

/-- The function is not decompiled by anyone else. -/
def lonelyRun : List Act :=
  [.start, .commit 0 (some fun _ ↦ none), .setVarType edit, .next 1 none, .next 1 none,
    .next 1 none, .next 1 none, .next 1 none, .next 1 (some "after")]

/-- Every text in the cache is from the engine of the session, or was loaded when that engine was
committed. -/
def OwnTexts (s : State) : Prop :=
  ∀ rva t, s.shared.cache rva = some t → s.shared.engine = some t.source.engine

/-- No thread may still publish a text. -/
def Quiet (funcs : ℕ → List ℕ) (s : State) : Prop :=
  ∀ th ∈ s.threads, ∀ rva src, ¬th.Publishes funcs s.shared rva src

/-- What may still be published is from the engine of the session too. -/
def OwnPublications (funcs : ℕ → List ℕ) (s : State) : Prop :=
  ∀ rva src, s.May funcs rva src → s.shared.engine = some src.engine

theorem own_of_commit {a : Act} (hstep : step funcs s a = some s') (hcommit : Commits s a)
    (hquiet : Quiet funcs s) : OwnTexts s' ∧ OwnPublications funcs s' := by
  obtain ⟨i, preloaded, th, rfl, hth⟩ := commit_of_step hstep hcommit
  refine ⟨fun rva t ht ↦ ?_, fun rva src hmay ↦ ?_⟩
  · obtain ⟨code, -, rfl⟩ := Option.map_eq_some_iff.1 ht
    rfl
  · rcases hmay with ⟨u, hu, hpub⟩ | ⟨e, he, seen, -, rfl⟩
    · rcases List.mem_or_eq_of_mem_set hu with hu | rfl
      · exact absurd hpub (hquiet u hu rva src)
      · rcases hth with rfl | ⟨flag, rfl⟩
        · exact absurd hpub (not_publishes id fun _ ↦ id)
        · obtain hbegun | ⟨e, ⟨rfl, -⟩, seen, -, rfl⟩ := hpub
          · exact hbegun.elim
          · rfl
    · exact he

theorem own_of_keeps (hkeeps : Keeps funcs s s') (htexts : OwnTexts s)
    (hpubs : OwnPublications funcs s) : OwnTexts s' ∧ OwnPublications funcs s' := by
  refine ⟨fun rva t ht ↦ ?_, fun rva src hmay ↦ ?_⟩
  · rw [hkeeps.grows.engine]
    exact (hkeeps.cache rva t ht).elim (htexts rva t) (hpubs rva t.source)
  · rw [hkeeps.grows.engine]
    exact hpubs rva src (hkeeps.may rva src hmay)

/-- A worker decompiles the function while the program is analysed again, and publishes the text
when the new engine has been committed. -/
def reanalyzeRun : List Act :=
  [.start, .commit 0 none, .spawn 0 1, .next 1 none, .next 1 none, .next 1 none, .reanalyze,
    .next 2 none, .next 2 none, .next 2 none, .commit 2 none, .next 1 (some "old"), .next 1 none,
    .next 1 none, .next 1 none]

end Shell

end Ldu
