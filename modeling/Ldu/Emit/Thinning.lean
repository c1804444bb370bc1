import Ldu.Emit.Unreachable

/-!
# Silent rows are dropped or added

Blank lines, comments and labels do nothing when a run comes to them; a label only says where a
`goto` goes. A body from which such rows are taken runs as before, as long as the first definition
of every label that is gone to is among those that are left (`Thinned`). The machine of the longer
body takes a step at a row that is dropped while the other stays where it is.
-/

namespace Option.Rel

variable {α β γ δ : Type*} {Q Q' : α → β → Prop} {P : γ → δ → Prop} {x : Option α} {y : Option β}

theorem mono (h : Option.Rel Q x y) (hQ : ∀ a b, Q a b → Q' a b) : Option.Rel Q' x y := by
  cases h with
  | none => exact .none
  | some h => exact .some (hQ _ _ h)

theorem bind {f : α → Option γ} {g : β → Option δ} (h : Option.Rel Q x y)
    (hfg : ∀ a b, Q a b → Option.Rel P (f a) (g b)) : Option.Rel P (x.bind f) (y.bind g) := by
  cases h with
  | none => exact .none
  | some h => exact hfg _ _ h

theorem or {x' : Option α} {y' : Option β} (h : Option.Rel Q x y) (h' : Option.Rel Q x' y') :
    Option.Rel Q (x.or x') (y.or y') := by
  cases h with
  | none => exact h'
  | some h => exact .some h

end Option.Rel

namespace Ldu

namespace Body

/-- The line does nothing. -/
def Line.isSilent : Line → Bool
  | .blank | .note _ | .label _ => true
  | _ => false

def Line.label? : Line → Option Label
  | .label l => some l
  | _ => none

theorem Line.edge_of_isSilent {ln : Line} (h : ln.isSilent = true) : ln.edge = none := by
  cases ln <;> first | rfl | cases h

/-- Silent rows are dropped. -/
inductive Thinner : List Row → List Row → Prop
  | nil : Thinner [] []
  | keep (r : Row) {rs rs' : List Row} (h : Thinner rs rs') : Thinner (r :: rs) (r :: rs')
  | drop {r : Row} {rs rs' : List Row} (hr : r.line.isSilent = true) (h : Thinner rs rs') :
    Thinner (r :: rs) rs'

/-- Silent rows are dropped, but no label that is wanted and not among the `seen`, which are the
labels of the rows before that were kept. -/
inductive Thinned (wanted : Label → Prop) : List Label → List Row → List Row → Prop
  | nil {seen : List Label} : Thinned wanted seen [] []
  | keep {seen : List Label} (r : Row) {rs rs' : List Row}
    (h : Thinned wanted (r.line.label?.toList ++ seen) rs rs') :
    Thinned wanted seen (r :: rs) (r :: rs')
  | drop {seen : List Label} {r : Row} {rs rs' : List Row} (hr : r.line.isSilent = true)
    (hl : ∀ l, r.line = .label l → wanted l → l ∈ seen) (h : Thinned wanted seen rs rs') :
    Thinned wanted seen (r :: rs) rs'

theorem Thinned.thinner {wanted : Label → Prop} {seen : List Label} {rs rs' : List Row}
    (h : Thinned wanted seen rs rs') : Thinner rs rs' := by
  induction h with
  | nil => exact .nil
  | keep r _ ih => exact .keep r ih
  | drop hr _ _ ih => exact .drop hr ih

/-- The open blocks begin at the same lines. -/
def NearFrame (f f' : Frame) : Prop :=
  f.1 = f'.1 ∧ Thinner f.2 f'.2

def Near (a a' : Place) : Prop :=
  Thinner a.1 a'.1 ∧ List.Forall₂ NearFrame a.2 a'.2

/-! ### Moves -/

section Moves

variable {rs rs' : List Row} {fs fs' : List Frame}

/-- A place behind which rows are dropped, one row before. -/
inductive NearTail : List Row → List Row → Prop
  | nil : NearTail [] []
  | cons (r : Row) {rs rs' : List Row} (h : Thinner rs rs') : NearTail (r :: rs) (r :: rs')

theorem NearTail.thinner (h : NearTail rs rs') : Thinner rs rs' := by
  cases h with
  | nil => exact .nil
  | cons r h => exact .keep r h

theorem NearTail.eq_nil_or (h : NearTail rs rs') :
    (rs = [] ∧ rs' = []) ∨ ∃ r t t', rs = r :: t ∧ rs' = r :: t' ∧ Thinner t t' := by
  cases h with
  | nil => exact .inl ⟨rfl, rfl⟩
  | cons r h => exact .inr ⟨r, _, _, rfl, rfl, h⟩

theorem NearTail.tail (h : NearTail rs rs') : Thinner rs.tail rs'.tail := by
  cases h with
  | nil => exact .nil
  | cons r h => exact h

/-- The search for the end of a block comes to the same row. -/
theorem Thinner.skip (h : Thinner rs rs') (arms : Bool) (n : ℕ) :
    NearTail (skip arms n rs) (skip arms n rs') := by
  induction h generalizing n with
  | nil => exact .nil
  | drop hr h ih =>
    rw [Body.skip, Line.edge_of_isSilent hr]
    exact ih n
  | keep r h ih =>
    rw [Body.skip, Body.skip]
    cases r.line.edge with
    | none => exact ih n
    | some e =>
      cases e with
      | opens => exact ih (n + 1)
      | arm =>
        simp only
        split
        · exact .cons r h
        · exact ih n
      | closes =>
        simp only
        split
        · exact .cons r h
        · exact ih (n - 1)

theorem near_behind (h : Thinner rs rs') (hfs : List.Forall₂ NearFrame fs fs') :
    Option.Rel Near (behind rs fs) (behind rs' fs') := by
  rw [behind, behind]
  rcases (h.skip false 0).eq_nil_or with ⟨hs, hs'⟩ | ⟨r, t, t', hs, hs', ht⟩
  · rw [hs, hs']
    exact .none
  · rw [hs, hs']
    exact .some ⟨ht, hfs⟩

theorem near_otherArm (o : Opener) (h : Thinner rs rs') (hfs : List.Forall₂ NearFrame fs fs') :
    Option.Rel Near (otherArm o rs fs) (otherArm o rs' fs') := by
  rw [otherArm, otherArm]
  rcases (h.skip true 0).eq_nil_or with ⟨hs, hs'⟩ | ⟨r, t, t', hs, hs', ht⟩
  · rw [hs, hs']
    exact .none
  · rw [hs, hs']
    simp only
    split
    · exact .some ⟨ht, .cons ⟨rfl, h⟩ hfs⟩
    · exact .some ⟨ht, hfs⟩

/-- Where a jump out of blocks goes, both bodies have the same row. -/
theorem near_closing (p : Opener → Bool) (h : Thinner rs rs')
    (hfs : List.Forall₂ NearFrame fs fs') :
    Option.Rel (fun a a' ↦ NearTail a.1 a'.1 ∧ List.Forall₂ NearFrame a.2 a'.2)
      (closing p rs fs) (closing p rs' fs') := by
  induction hfs generalizing rs rs' with
  | nil => exact .none
  | cons hf hfs ih =>
    rw [closing, closing, hf.1]
    split
    · exact .some ⟨h.skip false 0, .cons hf hfs⟩
    · exact ih (h.skip false 0).tail

/-- Behind a row that is kept, the blocks open in the one body correspond to those in the other. -/
theorem near_openBehind (ln : Line) (h : Thinner rs rs') (hfs : List.Forall₂ NearFrame fs fs') :
    Option.Rel (List.Forall₂ NearFrame) (openBehind ln rs fs) (openBehind ln rs' fs') := by
  cases ln with
  | opens o => exact .some (.cons ⟨rfl, h⟩ hfs)
  | close | closeWhile =>
    cases hfs with
    | nil => exact .none
    | cons hf hfs => exact .some hfs
  | _ => exact .some hfs

theorem map_fst_of_near (hfs : List.Forall₂ NearFrame fs fs') :
    fs.map Prod.fst = fs'.map Prod.fst := by
  induction hfs with
  | nil => rfl
  | cons hf _ ih => rw [List.map_cons, List.map_cons, hf.1, ih]

/-- A row that is dropped is passed. -/
theorem find_cons_of_isSilent {p : List Opener → Line → Bool} {r : Row}
    (hr : r.line.isSilent = true) (hp : p (fs.map Prod.fst) r.line = false) (rs : List Row) :
    find p fs (r :: rs) = find p fs rs := by
  rw [find, hp, if_neg Bool.false_ne_true,
    openBehind_of_edge_eq_none (Line.edge_of_isSilent hr), Option.bind_some]

/-- A search for rows of which none is silent. -/
theorem Thinner.find {p : List Opener → Line → Bool}
    (hp : ∀ os ln, ln.isSilent = true → p os ln = false) (h : Thinner rs rs')
    (hfs : List.Forall₂ NearFrame fs fs') :
    Option.Rel Near (find p fs rs) (find p fs' rs') := by
  induction h generalizing fs fs' with
  | nil => exact .none
  | drop hr h ih =>
    rw [find_cons_of_isSilent hr (hp _ _ hr)]
    exact ih hfs
  | @keep r rs rs' h ih =>
    rw [Body.find, Body.find, map_fst_of_near hfs]
    split
    · exact .some ⟨.keep r h, hfs⟩
    · exact (near_openBehind r.line h hfs).bind fun _ _ hfs' ↦ ih hfs'

/-- A search for a label that is wanted. -/
theorem Thinned.find {wanted : Label → Prop} {seen : List Label} {l : Label} (hl : wanted l)
    (hseen : l ∉ seen) (h : Thinned wanted seen rs rs') (hfs : List.Forall₂ NearFrame fs fs') :
    Option.Rel Near (find (fun _ ↦ Line.isLabel l) fs rs)
      (find (fun _ ↦ Line.isLabel l) fs' rs') := by
  induction h generalizing fs fs' with
  | nil => exact .none
  | @drop seen r rs rs' hr hdrop h ih =>
    have hother : r.line.isLabel l = false := by
      refine Bool.eq_false_iff.2 fun heq ↦ hseen ?_
      exact hdrop l (Line.eq_label_of_isLabel heq) hl
    rw [find_cons_of_isSilent hr hother]
    exact ih hseen hfs
  | @keep seen r rs rs' h ih =>
    rw [Body.find, Body.find]
    cases heq : r.line.isLabel l with
    | true => exact .some ⟨.keep r h.thinner, hfs⟩
    | false =>
      rw [if_neg Bool.false_ne_true, if_neg Bool.false_ne_true]
      refine (near_openBehind r.line h.thinner hfs).bind fun _ _ hfs' ↦ ih (fun hmem ↦ ?_) hfs'
      rcases List.mem_append.1 hmem with hmem | hmem
      · -- The label of a row that is passed is another one.
        cases hline : r.line with
        | label l' =>
          rw [hline] at hmem heq
          rw [List.mem_singleton.1 hmem, Line.isLabel, decide_eq_false_iff_not] at heq
          exact heq rfl
        | _ =>
          rw [hline] at hmem
          cases hmem
      · exact hseen hmem

theorem near_dispatch (n : ℕ) (h : Thinner rs rs') :
    Option.Rel Near (dispatch n rs) (dispatch n rs') := by
  have harm {p : Line → Bool} (hp : ∀ ln, ln.isSilent = true → p ln = false) :
      Option.Rel Near (Body.find (ofSwitch p) [] rs) (Body.find (ofSwitch p) [] rs') :=
    h.find (fun os ln hln ↦ by rw [ofSwitch, hp ln hln, Bool.false_and]) .nil
  have hcase : ∀ ln : Line, ln.isSilent = true → ln.isCase n = false := by
    intro ln hln
    cases ln <;> first | rfl | cases hln
  have hdefault : ∀ ln : Line, ln.isSilent = true → ln.isDefault = false := by
    intro ln hln
    cases ln <;> first | rfl | cases hln
  exact (harm hcase).or (harm hdefault)

end Moves

/-! ### Steps -/

section Steps

variable {σ E R : Type*} (I : Meaning σ E R) {rows rows' rs rs' : List Row} {fs fs' : List Frame}

/-- The same events, and then the same outcome up to the rows that are dropped. -/
def Alike (x y : List E × ((Place × σ) ⊕ Option R)) : Prop :=
  x.1 = y.1 ∧ Sum.LiftRel (fun b b' ↦ Near b.1 b'.1 ∧ b.2 = b'.2) (· = ·) x.2 y.2

theorem alike_goOn {a a' : Option Place} (h : Option.Rel Near a a') (s : σ) :
    Alike (E := E) (R := R) (goOn a s) (goOn a' s) := by
  cases h with
  | none => exact ⟨rfl, .inr rfl⟩
  | some h => exact ⟨rfl, .inl ⟨h, rfl⟩⟩

theorem Alike.before {x y : List E × ((Place × σ) ⊕ Option R)} (h : Alike x y) (es : List E) :
    Alike (before es x) (before es y) :=
  ⟨congrArg (es ++ ·) h.1, h.2⟩

theorem alike_branch (c : Phrase) {yes yes' no no' : Option Place} (hyes : Option.Rel Near yes yes')
    (hno : Option.Rel Near no no') (s : σ) :
    Alike (branch I c yes no s) (branch I c yes' no' s) := by
  refine (alike_goOn ?_ _).before _
  split
  · exact hyes
  · exact hno

theorem alike_perform (t : List Char) {next next' : σ → List E × ((Place × σ) ⊕ Option R)}
    (h : ∀ s, Alike (next s) (next' s)) (s : σ) :
    Alike (perform I t s next) (perform I t s next') := by
  rw [perform, perform]
  split
  · exact (h _).before _
  · exact ⟨rfl, .inr rfl⟩

theorem alike_jump {j : Jump}
    (hgoto : ∀ l, j.target? = some l → Option.Rel Near (locate l rows) (locate l rows'))
    (h : Thinner rs rs') (hfs : List.Forall₂ NearFrame fs fs') (s : σ) :
    Alike (jump I rows j rs fs s) (jump I rows' j rs' fs' s) := by
  cases j with
  | goto l => exact alike_goOn (hgoto l rfl) s
  | ret v => exact ⟨rfl, .inr rfl⟩
  | cont =>
    exact alike_goOn ((near_closing Opener.isLoop h hfs).mono fun _ _ hnear ↦
      ⟨hnear.1.thinner, hnear.2⟩) s
  | brk =>
    rw [jump, jump]
    generalize hx : closing (fun o ↦ o.isLoop || o.isSwitch) rs fs = x
    generalize hy : closing (fun o ↦ o.isLoop || o.isSwitch) rs' fs' = y
    have hnear := near_closing (fun o ↦ o.isLoop || o.isSwitch) h hfs
    rw [hx, hy] at hnear
    cases hnear with
    | none => exact alike_goOn .none s
    | @some a a' hnear =>
      obtain ⟨rs, fs⟩ := a
      obtain ⟨rs', fs'⟩ := a'
      obtain ⟨hrs, hfs⟩ := hnear
      cases hrs with
      | nil => exact alike_goOn .none s
      | cons r hrs =>
        cases hfs with
        | nil => exact alike_goOn .none s
        | cons hf hfs => exact alike_goOn (.some ⟨hrs, hfs⟩) s

theorem alike_open (o : Opener) (h : Thinner rs rs') (hfs : List.Forall₂ NearFrame fs fs')
    (s : σ) : Alike (open' I o rs fs s) (open' I o rs' fs' s) := by
  have hinside : Option.Rel Near (some (rs, (o, rs) :: fs)) (some (rs', (o, rs') :: fs')) :=
    .some ⟨h, .cons ⟨rfl, h⟩ hfs⟩
  cases o with
  | cond c => exact alike_branch I c hinside (near_otherArm _ h hfs) s
  | «while» c => exact alike_branch I c hinside (near_behind h hfs) s
  | «for» i c n =>
    exact alike_perform I i.text (alike_branch I c hinside (near_behind h hfs)) s
  | «do» => exact alike_goOn hinside s
  | switch e =>
    refine Alike.before ?_ _
    have hdispatch := near_dispatch (I.select e.text s).2.1 h
    generalize dispatch (I.select e.text s).2.1 rs = x at hdispatch ⊢
    generalize dispatch (I.select e.text s).2.1 rs' = y at hdispatch ⊢
    cases hdispatch with
    | none => exact alike_goOn (near_behind h hfs) _
    | @some a a' hnear =>
      obtain ⟨rs₁, fs₁⟩ := a
      obtain ⟨rs₁', fs₁'⟩ := a'
      have hframe : NearFrame (.switch e, rs) (.switch e, rs') := ⟨rfl, h⟩
      have hinto : Option.Rel Near (some (rs₁, fs₁ ++ (.switch e, rs) :: fs))
          (some (rs₁', fs₁' ++ (.switch e, rs') :: fs')) :=
        .some ⟨hnear.1, List.rel_append hnear.2 (.cons hframe hfs)⟩
      exact alike_goOn hinto _

theorem alike_close (h : Thinner rs rs') (hfs : List.Forall₂ NearFrame fs fs') (s : σ) :
    Alike (close' I rs fs s) (close' I rs' fs' s) := by
  cases hfs with
  | nil => exact alike_goOn .none s
  | @cons f f' fs fs' hf hfs =>
    obtain ⟨o, start⟩ := f
    obtain ⟨o', start'⟩ := f'
    obtain ⟨rfl, hstart⟩ : o = o' ∧ Thinner start start' := hf
    have hagain : Option.Rel Near (some (start, (o, start) :: fs))
        (some (start', (o, start') :: fs')) := .some ⟨hstart, .cons ⟨rfl, hstart⟩ hfs⟩
    have hout : Option.Rel Near (some (rs, fs)) (some (rs', fs')) := .some ⟨h, hfs⟩
    cases o with
    | cond | switch => exact alike_goOn hout s
    | «do» => exact alike_goOn .none s
    | «while» c => exact alike_branch I c hagain hout s
    | «for» i c n => exact alike_perform I n.text (alike_branch I c hagain hout) s

theorem alike_closeWhile (c : Phrase) (h : Thinner rs rs') (hfs : List.Forall₂ NearFrame fs fs')
    (s : σ) : Alike (closeWhile' I c rs fs s) (closeWhile' I c rs' fs' s) := by
  cases hfs with
  | nil => exact alike_goOn .none s
  | @cons f f' fs fs' hf hfs =>
    obtain ⟨o, start⟩ := f
    obtain ⟨o', start'⟩ := f'
    obtain ⟨rfl, hstart⟩ : o = o' ∧ Thinner start start' := hf
    cases o with
    | «do» =>
      have hagain : Option.Rel Near (some (start, (.do, start) :: fs))
          (some (start', (.do, start') :: fs')) := .some ⟨hstart, .cons ⟨rfl, hstart⟩ hfs⟩
      exact alike_branch I c hagain (.some ⟨h, hfs⟩) s
    | _ => exact alike_goOn .none s

theorem alike_arm (h : Thinner rs rs') (hfs : List.Forall₂ NearFrame fs fs') (s : σ) :
    Alike (E := E) (R := R) (arm' rs fs s) (arm' rs' fs' s) := by
  cases hfs with
  | nil => exact alike_goOn .none s
  | @cons f f' fs fs' hf hfs =>
    obtain ⟨o, start⟩ := f
    obtain ⟨o', start'⟩ := f'
    obtain ⟨rfl, -⟩ : o = o' ∧ Thinner start start' := hf
    cases o with
    | cond => exact alike_goOn (near_behind h hfs) s
    | _ => exact alike_goOn .none s

/-- A row that both bodies have. -/
theorem alike_stepAt (r : Row)
    (hgoto : ∀ l, r.line.target? = some l → Option.Rel Near (locate l rows) (locate l rows'))
    (h : Thinner rs rs') (hfs : List.Forall₂ NearFrame fs fs') (s : σ) :
    Alike (stepAt I rows (r :: rs, fs) s) (stepAt I rows' (r :: rs', fs') s) := by
  have hnext : Option.Rel Near (some (rs, fs)) (some (rs', fs')) := .some ⟨h, hfs⟩
  rw [stepAt, stepAt]
  cases hline : r.line with
  | blank | note | label | case | default => exact alike_goOn hnext s
  | stmt st => exact alike_perform I st.text (alike_goOn hnext) s
  | jump j | caseJump n j =>
    rw [hline] at hgoto
    exact alike_jump I hgoto h hfs s
  | jumpIf c j =>
    rw [hline] at hgoto
    refine Alike.before ?_ _
    split
    · exact alike_jump I hgoto h hfs _
    · exact alike_goOn hnext _
  | opens o => exact alike_open I o h hfs s
  | orElse => exact alike_arm h hfs s
  | close => exact alike_close I h hfs s
  | closeWhile c => exact alike_closeWhile I c h hfs s

/-- A step that both take. -/
theorem matches_of_alike {x y : Place × σ} {P : Place → Prop}
    (h : Alike ((machine I rows).step x) ((machine I rows').step y))
    (hleads : Leads P ((machine I rows).step x)) :
    (machine I rows').Matches (fun b b' ↦ Near b.1 b'.1 ∧ b.2 = b'.2 ∧ P b.1) y
      ((machine I rows).step x) := by
  rcases hx : (machine I rows).step x with ⟨es, b | q⟩ <;>
    rcases hy : (machine I rows').step y with ⟨es', b' | q'⟩ <;>
    rw [hx, hy] at h <;> obtain ⟨hes, hout⟩ := h <;>
    obtain rfl : es = es' := hes <;> cases hout
  · next hb => exact .one hy ⟨hb.1, hb.2, hleads b (by rw [hx])⟩
  · next hq =>
    obtain rfl : q = q' := hq
    exact .halt hy

end Steps

/-! ### Runs -/

section Runs

variable {wanted : Label → Prop} {entries : List (List Char)} {rows rows' rows'' : List Row}

theorem Thinned.locate {l : Label} (h : Thinned wanted [] rows rows') (hl : wanted l) :
    Option.Rel Near (locate l rows) (Body.locate l rows') :=
  h.find hl List.not_mem_nil .nil

/-- The shorter body stays where it is when the longer comes to a row that is dropped, which does
not go on for ever: the rows to come get fewer. -/
theorem simulation_thinned {σ E R : Type} (I : Meaning σ E R) (h : Thinned wanted [] rows rows')
    (hwanted : ∀ r ∈ rows, ∀ l, r.line.target? = some l → wanted l) :
    (machine I rows).SimulationUpTo (machine I rows')
      (fun x y ↦ Near x.1 y.1 ∧ x.2 = y.2 ∧ Within rows x.1) (fun x ↦ x.1.1.length) := by
  rintro ⟨⟨rs, fs⟩, s⟩ ⟨⟨rs', fs'⟩, -⟩ ⟨⟨hrs, hfs⟩, rfl, hwithin⟩
  have hleads : Leads (Within rows) ((machine I rows).step ((rs, fs), s)) :=
    within_stepAt hwithin
  cases hrs with
  | nil => exact .inl (matches_of_alike I ⟨rfl, .inr rfl⟩ hleads)
  | keep r hrs =>
    refine .inl (matches_of_alike I (alike_stepAt I r (fun l hl ↦ ?_) hrs hfs s) hleads)
    exact h.locate (hwanted r (hwithin.1 List.mem_cons_self) l hl)
  | @drop r rs _ hr hrs =>
    refine .inr ⟨((rs, fs), s), ?_, ⟨⟨hrs, hfs⟩, rfl, hwithin.tail⟩, Nat.lt_succ_self _⟩
    change stepAt I rows (r :: rs, fs) s = _
    rw [stepAt]
    cases hline : r.line <;> rw [hline] at hr <;> first | rfl | cases hr

/-- Without the silent rows that no `goto` needs a body runs as with them. -/
theorem Thinned.sameRuns (h : Thinned wanted [] rows rows')
    (hwanted : ∀ r ∈ rows, ∀ l, r.line.target? = some l → wanted l)
    (hentries : ∀ l : Label, l.text ∈ entries → wanted l) : SameRuns entries rows rows' := by
  intro e he
  have hentry : Option.Rel Near (entry rows e) (entry rows' e) := by
    cases e with
    | none => exact .some ⟨h.thinner, .nil⟩
    | some l => exact h.locate (hentries l (he l rfl))
  generalize hx : entry rows e = x at hentry
  generalize entry rows' e = y at hentry
  cases hentry with
  | none => exact .none
  | some hnear =>
    exact .some fun σ E R I s ↦
      (simulation_thinned I h hwanted).sameBehaviour ⟨hnear, rfl, within_entry hx⟩

theorem SameRuns.symm (h : SameRuns entries rows rows') : SameRuns entries rows' rows := by
  intro e he
  have hrel := h e he
  generalize entry rows e = x at hrel ⊢
  generalize entry rows' e = y at hrel ⊢
  cases hrel with
  | none => exact .none
  | some hrun => exact .some fun σ E R I s ↦ (hrun σ E R I s).symm

theorem SameRuns.trans (h : SameRuns entries rows rows') (h' : SameRuns entries rows' rows'') :
    SameRuns entries rows rows'' := by
  intro e he
  have hrel := h e he
  have hrel' := h' e he
  generalize entry rows e = x at hrel ⊢
  generalize entry rows' e = y at hrel hrel'
  generalize entry rows'' e = z at hrel' ⊢
  cases hrel with
  | none =>
    cases hrel'
    exact .none
  | some hrun =>
    cases hrel' with
    | some hrun' => exact .some fun σ E R I s ↦ (hrun σ E R I s).trans (hrun' σ E R I s)

end Runs

end Body

end Ldu
