import Ldu.Emit.Thinning

/-!
# Label lines

The last passes over the text of a body see to its labels. `prune_dead_labels` takes the label lines
that no `goto` of the text names, `dedupe_label_defs` those of a label defined before, and between
the two a comment is put before the labels that the unwinder enters. `labels_consistent` decides
whether a structured body is used at all.

All read the text. A line is taken for a label when it is an identifier before `:;`, which no
statement is (`Line.NotLabel`); a label counts as defined wherever a word that begins with `L_`
stands before a colon, also in a string or a comment (`Line.OwnLabel` says that it does not).
-/

namespace Ldu

namespace Body

/-! ### The passes -/

/-- The words before a colon that begin with `L_`; `w` is what has been read of a word. An `L_`
inside a word is none. -/
def definedFrom : List Char → List Char → List (List Char)
  | _, [] => []
  | w, c :: s =>
    if isIdent c then definedFrom (w ++ [c]) s
    else if c = ':' ∧ "L_".toList <+: w then w :: definedFrom [] s
    else definedFrom [] s

/-- The labels that `scan_labels` finds defined, as often as they are. -/
def defined (body : List Char) : List (List Char) :=
  definedFrom [] body

def hasDuplicateLabelDefs (body : List Char) : Bool :=
  !decide (defined body).Nodup

def labelsConsistent (body : List Char) : Bool :=
  (referenced body).all (fun l ↦ !"L_".toList.isPrefixOf l || (defined body).contains l) &&
    !hasDuplicateLabelDefs body

/-- What stands before `:;` on a trimmed line, if anything does. -/
def beforeColon (t : List Char) : Option (List Char) :=
  if 2 < t.length ∧ ":;".toList <:+ t then some (t.take (t.length - 2)) else none

/-- The labels that are neither gone to nor entered from outside. -/
def deadLabels (entries : List (List Char)) (body : List Char) : List (List Char) :=
  (defined body).filter fun d ↦ !(referenced body).contains d && !entries.contains d

def isDeadLabel (dead : List (List Char)) (t : List Char) : Bool :=
  "L_".toList.isPrefixOf t && (beforeColon t).any dead.contains

/-- `entries` are the `extern_entry_labels`. -/
def pruneDeadLabels (entries : List (List Char)) (body : List Char) : List Char :=
  let dead := deadLabels entries body
  if dead.isEmpty then body
  else ((lines body).filter fun line ↦ !isDeadLabel dead (core line)).flatten

/-- The label of a bare label line. -/
def bareLabel? (t : List Char) : Option (List Char) :=
  (beforeColon t).filter fun l ↦ l.head?.any (fun c ↦ c.isAlpha || c == '_') && l.all isIdent

/-- The lines without those of a label seen before. -/
def dedupe {α : Type*} (trim : α → List Char) : List (List Char) → List α → List α
  | _, [] => []
  | seen, r :: rs =>
    match bareLabel? (trim r) with
    | some l => if l ∈ seen then dedupe trim seen rs else r :: dedupe trim (l :: seen) rs
    | none => r :: dedupe trim seen rs

def dedupeLabelDefs (body : List Char) : List Char :=
  if hasDuplicateLabelDefs body then (dedupe core [] (lines body)).flatten else body

/-- The comment before a label that the unwinder enters. -/
def funcletNote : Row :=
  ⟨4, .note ⟨"EH funclet entry (unwinder target, not reached ".toList ++
    "by this function's control flow):".toList, by decide⟩⟩

/-- The comment is put before the first line in which the label and `:;` stand. -/
def annotate {α : Type*} (read : α → List Char) (note : α) (l : Label) : List α → List α
  | [] => []
  | r :: rs =>
    if l.text ++ ":;".toList <:+: read r then note :: r :: rs else r :: annotate read note l rs

/-- A comment for each of the labels. -/
def annotateEntries (entries : List Label) (body : List Char) : List Char :=
  entries.foldl (fun body l ↦ (annotate id funcletNote.text l (lines body)).flatten) body

/-- What becomes of the labels of a body that has been accepted. -/
def finishLabels (entries : List Label) (body : List Char) : List Char :=
  dedupeLabelDefs (annotateEntries entries (pruneDeadLabels (entries.map Label.text) body))

/-! ### What the scan finds in a body -/

/-- A statement does not read like a label. -/
def Line.NotLabel : Line → Prop
  | .stmt st => ∀ w, (∀ c ∈ w, isIdent c = true) → st.text ≠ w ++ ":;".toList
  | _ => True

/-- In the text of the line the scan finds the label that it defines, and no other. -/
def Line.OwnLabel (ln : Line) : Prop :=
  definedFrom [] ln.text = (ln.label?.map Label.text).toList

section Scan

variable {w x s : List Char}

theorem definedFrom_append_newline (w x s : List Char) :
    definedFrom w (x ++ '\n' :: s) = definedFrom w x ++ definedFrom [] s := by
  induction x generalizing w with
  | nil => rfl
  | cons c x ih =>
    rw [List.cons_append, definedFrom, definedFrom]
    split_ifs
    · exact ih _
    · rw [ih, List.cons_append]
    · exact ih _

theorem definedFrom_indent (n : ℕ) (s : List Char) :
    definedFrom [] (List.replicate n ' ' ++ s) = definedFrom [] s := by
  induction n with
  | zero => rfl
  | succ n ih => exact ih

theorem definedFrom_word (hx : ∀ c ∈ x, isIdent c = true) (w s : List Char) :
    definedFrom w (x ++ s) = definedFrom (w ++ x) s := by
  induction x generalizing w with
  | nil => rw [List.nil_append, List.append_nil]
  | cons c x ih =>
    rw [List.forall_mem_cons] at hx
    rw [List.cons_append, definedFrom, if_pos hx.1, ih hx.2, List.append_assoc]
    rfl

theorem defined_text (rows : List Row) :
    defined (text rows) = rows.flatMap fun r ↦ definedFrom [] r.line.text := by
  induction rows with
  | nil => rfl
  | cons r rows ih =>
    rw [defined, text, List.flatMap_cons, ← text, Row.text, List.append_assoc, List.append_assoc,
      List.singleton_append, definedFrom_indent, definedFrom_append_newline, List.flatMap_cons,
      ← ih, defined]

theorem isPrefixOf_label (l : Label) : "L_".toList <+: l.text :=
  ⟨l.digits, rfl⟩

theorem ownLabel_label (l : Label) : (Line.label l).OwnLabel := by
  have hcolon : definedFrom l.text ":;".toList = [l.text] := by
    rw [show ":;".toList = [':', ';'] from rfl, definedFrom, if_neg (by decide),
      if_pos ⟨rfl, isPrefixOf_label l⟩]
    rfl
  exact (definedFrom_word (fun c hc ↦ Label.isIdent_of_mem hc) [] _).trans hcolon

/-- Only identifiers that begin with `L_` are found. -/
theorem isIdent_of_mem_definedFrom (hw : ∀ c ∈ w, isIdent c = true) (hx : x ∈ definedFrom w s) :
    ∀ c ∈ x, isIdent c = true := by
  induction s generalizing w with
  | nil => cases hx
  | cons d s ih =>
    have hnil : ∀ c ∈ ([] : List Char), isIdent c = true := fun _ hc ↦ absurd hc List.not_mem_nil
    rw [definedFrom] at hx
    split_ifs at hx with hd hcolon
    · refine ih (fun c hc ↦ ?_) hx
      rcases List.mem_append.1 hc with hc | hc
      · exact hw c hc
      · rwa [List.mem_singleton.1 hc]
    · rcases List.mem_cons.1 hx with rfl | hx
      · exact hw
      · exact ih hnil hx
    · exact ih hnil hx

/-- The label of a row is found. -/
theorem mem_defined_text {rows : List Row} {r : Row} {l : Label} (hr : r ∈ rows)
    (hl : r.line = .label l) : l.text ∈ defined (text rows) := by
  rw [defined_text, List.mem_flatMap]
  refine ⟨r, hr, ?_⟩
  rw [hl, ownLabel_label l]
  exact List.mem_singleton_self l.text

end Scan

section Row

variable {r : Row} {l : Label} {w : List Char}

theorem beforeColon_eq_some {t : List Char} (h : beforeColon t = some w) :
    t = w ++ ":;".toList := by
  rw [beforeColon] at h
  split at h
  · next hcond =>
    obtain ⟨-, s, rfl⟩ := hcond
    cases h
    simp
  · cases h

theorem core_label (h : r.line = .label l) : r.core = l.text ++ ":;".toList := by
  rw [Row.core, core_row (by rw [h]; exact Line.noConfusion), h]
  rfl

theorem beforeColon_label (h : r.line = .label l) : beforeColon r.core = some l.text := by
  rw [core_label h, beforeColon, if_pos ⟨by simp [Label.text], List.suffix_append _ _⟩]
  simp

theorem space_mem_opener (o : Opener) : ' ' ∈ o.text := by
  cases o with
  | «do» => decide
  | _ => exact List.mem_append_right _ (by decide)

/-- Only a label is an identifier before `:;`. -/
theorem label_of_text {ln : Line} (hr : ln.NotLabel) (hw : ∀ c ∈ w, isIdent c = true)
    (h : ln.text = w ++ ":;".toList) : ∃ l, ln = .label l ∧ w = l.text := by
  have hspace : ' ' ∉ ln.text := h ▸
    List.not_mem_append (fun hmem ↦ absurd (hw _ hmem) (by decide)) (by decide)
  have hend : ":;".toList <:+ ln.text := ⟨w, h.symm⟩
  cases ln with
  | label l => exact ⟨l, rfl, (List.append_cancel_right h).symm⟩
  | stmt st => exact absurd h (hr w hw)
  | blank | default | close => exact absurd hend (by decide)
  | orElse => exact absurd (by decide) hspace
  | opens o => exact absurd (space_mem_opener o) hspace
  | note | closeWhile | case =>
    exact absurd (List.mem_append_left _ (List.mem_append_left _ (by decide))) hspace
  | jumpIf | caseJump =>
    exact absurd (List.mem_append_left _ (List.mem_append_left _ (List.mem_append_left _
      (by decide)))) hspace
  | jump j =>
    cases j with
    | brk | cont => exact absurd hend (by decide)
    | goto l => exact absurd (List.mem_append_left _ (List.mem_append_left _ (by decide))) hspace
    | ret v =>
      -- Behind the word `return` a colon would have to follow.
      have hboundary (c : Char) (hc : v.text.head? = some c) : c = ' ' ∨ c = ';' := by
        rcases v.boundary with hv | hv <;> rw [hv] at hc <;> cases hc
        · exact .inl rfl
        · exact .inr rfl
      have hfirst : firstWord ("return".toList ++ v.text) = "return".toList :=
        firstWord_append (List.all_eq_true.1 rfl) fun c hc ↦ by
          rcases hboundary c hc with rfl | rfl <;> rfl
      have hword : firstWord (w ++ ":;".toList) = w :=
        firstWord_append hw fun c hc ↦ by cases hc; rfl
      have heq : "return".toList ++ v.text = w ++ ":;".toList := h
      rw [heq, hword] at hfirst
      rw [hfirst] at heq
      have hv := congrArg List.head? (List.append_cancel_left heq)
      exact absurd (hboundary ':' hv) (by decide)

/-- No row but a label is an identifier before `:;`. -/
theorem label_of_core (hr : r.line.NotLabel) (hw : ∀ c ∈ w, isIdent c = true)
    (h : r.core = w ++ ":;".toList) : ∃ l, r.line = .label l ∧ w = l.text := by
  by_cases hblank : r.line = .blank
  · rcases core_blank hblank with hcore | hcore
    · exact absurd (hcore.symm.trans h) (by simp)
    · have hlast := congrArg List.getLast? (hcore.symm.trans h)
      rw [List.getLast?_append] at hlast
      cases hlast
  rw [Row.core, core_row hblank] at h
  exact label_of_text hr hw h

end Row

/-! ### Dead labels -/

section Prune

variable {entries : List (List Char)} {rows : List Row} {r : Row} {l : Label}

theorem isIdent_of_mem_deadLabels {body d : List Char} (h : d ∈ deadLabels entries body) :
    ∀ c ∈ d, isIdent c = true :=
  isIdent_of_mem_definedFrom (fun _ hc ↦ absurd hc List.not_mem_nil) (List.mem_of_mem_filter h)

/-- The lines that go are those of the labels that are dead. -/
theorem isDeadLabel_core {body : List Char} (hr : r.line.NotLabel) :
    isDeadLabel (deadLabels entries body) r.core = true ↔
      ∃ l, r.line = .label l ∧ l.text ∈ deadLabels entries body := by
  rw [isDeadLabel, Bool.and_eq_true, List.isPrefixOf_iff_prefix, Option.any_eq_true]
  constructor
  · rintro ⟨-, w, hw, hdead⟩
    rw [List.contains_iff_mem] at hdead
    obtain ⟨l, hl, rfl⟩ := label_of_core hr (isIdent_of_mem_deadLabels hdead)
      (beforeColon_eq_some hw)
    exact ⟨l, hl, hdead⟩
  · rintro ⟨l, hl, hdead⟩
    refine ⟨?_, l.text, beforeColon_label hl, List.contains_iff_mem.2 hdead⟩
    rw [core_label hl]
    exact (isPrefixOf_label l).trans (List.prefix_append _ _)

/-- The pass on rows. -/
def pruneRows (entries : List (List Char)) (rows : List Row) : List Row :=
  rows.filter fun r ↦ !isDeadLabel (deadLabels entries (text rows)) r.core

theorem pruneDeadLabels_text (entries : List (List Char)) (rows : List Row) :
    pruneDeadLabels entries (text rows) = text (pruneRows entries rows) := by
  rw [pruneDeadLabels, lines_text, List.filter_map, pruneRows]
  split
  · next hempty =>
    rw [List.isEmpty_iff.1 hempty, List.filter_eq_self.2]
    intro r hr
    rw [isDeadLabel, Bool.not_and, Bool.or_eq_true]
    right
    cases beforeColon r.core <;> rfl
  · rw [text, List.flatMap_def]
    rfl

/-- The labels that matter. -/
def Wanted (entries : List (List Char)) (rows : List Row) (l : Label) : Prop :=
  l.text ∈ referenced (text rows) ∨ l.text ∈ entries

instance : DecidablePred (Wanted entries rows) := fun _ ↦ inferInstanceAs (Decidable (_ ∨ _))

theorem mem_deadLabels (hr : r ∈ rows) (hl : r.line = .label l) :
    l.text ∈ deadLabels entries (text rows) ↔ ¬Wanted entries rows l := by
  rw [deadLabels, List.mem_filter, Wanted, not_or]
  simp [mem_defined_text hr hl]

/-- A row goes exactly when it is a label that does not matter. -/
theorem isDeadLabel_iff (hr : r ∈ rows) (hlabel : r.line.NotLabel) :
    isDeadLabel (deadLabels entries (text rows)) r.core = true ↔
      ∃ l, r.line = .label l ∧ ¬Wanted entries rows l := by
  rw [isDeadLabel_core hlabel]
  exact exists_congr fun l ↦ and_congr_right fun hl ↦ mem_deadLabels hr hl

theorem thinned_filter {wanted : Label → Prop} {p : Row → Bool} {seen : List Label}
    (hp : ∀ r ∈ rows, p r = false → ∃ l, r.line = .label l ∧ ¬wanted l) :
    Thinned wanted seen rows (rows.filter p) := by
  induction rows generalizing seen with
  | nil => exact .nil
  | cons r rows ih =>
    rw [List.forall_mem_cons] at hp
    rw [List.filter_cons]
    split
    · exact .keep r (ih hp.2)
    · next hr =>
      obtain ⟨l, hl, hdead⟩ := hp.1 (Bool.not_eq_true _ ▸ hr)
      refine .drop (by rw [hl]; rfl) (fun l' hl' hwanted ↦ ?_) (ih hp.2)
      rw [hl] at hl'
      cases hl'
      exact absurd hwanted hdead

end Prune

/-! ### Labels defined before -/

section Dedupe

variable {rows : List Row} {r : Row} {l : Label}

theorem Label.text_injective : Function.Injective Label.text := by
  rintro ⟨d, hd⟩ ⟨d', hd'⟩ h
  have heq : "L_".toList ++ d = "L_".toList ++ d' := h
  obtain rfl := List.append_cancel_left heq
  rfl

theorem bareLabel?_core (hr : r.line.NotLabel) :
    bareLabel? r.core = r.line.label?.map Label.text := by
  cases hlabel : r.line.label? with
  | some l =>
    have hl : r.line = .label l := by
      cases hline : r.line <;> rw [hline] at hlabel <;> cases hlabel
      rfl
    have hident : l.text.all isIdent = true :=
      List.all_eq_true.2 fun c hc ↦ Label.isIdent_of_mem hc
    rw [bareLabel?, beforeColon_label hl, Option.filter_some, hident]
    rfl
  | none =>
    rw [Option.map_none, bareLabel?, Option.filter_eq_none_iff]
    intro w hw hcond
    have hident := List.all_eq_true.1 (Bool.and_eq_true_iff.1 hcond).2
    obtain ⟨l, hl, -⟩ := label_of_core hr hident (beforeColon_eq_some hw)
    rw [hl] at hlabel
    cases hlabel

theorem dedupe_map {α β : Type*} (trim : β → List Char) (f : α → β) (seen : List (List Char))
    (rs : List α) :
    dedupe trim seen (rs.map f) = (dedupe (trim ∘ f) seen rs).map f := by
  induction rs generalizing seen with
  | nil => rfl
  | cons r rs ih =>
    rw [List.map_cons, dedupe, dedupe, Function.comp_apply]
    cases bareLabel? (trim (f r)) with
    | none => rw [ih, List.map_cons]
    | some l =>
      simp only [ih]
      split_ifs <;> rfl

/-- The pass on rows. -/
def dedupeRows (rows : List Row) : List Row :=
  if hasDuplicateLabelDefs (text rows) then dedupe Row.core [] rows else rows

theorem dedupeLabelDefs_text (rows : List Row) :
    dedupeLabelDefs (text rows) = text (dedupeRows rows) := by
  rw [dedupeLabelDefs, dedupeRows]
  split
  · rw [lines_text, dedupe_map, text, List.flatMap_def]
    rfl
  · rfl

/-- A row is a label seen before, or it is kept. -/
theorem dedupe_cons (hr : r.line.NotLabel) (seen : List Label) (rs : List Row) :
    (∃ l ∈ seen, r.line = .label l ∧
      dedupe Row.core (seen.map Label.text) (r :: rs) =
        dedupe Row.core (seen.map Label.text) rs) ∨
    ((∀ l, r.line = .label l → l ∉ seen) ∧
      dedupe Row.core (seen.map Label.text) (r :: rs) =
        r :: dedupe Row.core ((r.line.label?.toList ++ seen).map Label.text) rs) := by
  rw [dedupe, bareLabel?_core hr]
  cases hline : r.line with
  | label l =>
    by_cases hl : l ∈ seen
    · exact .inl ⟨l, hl, rfl, if_pos (List.mem_map_of_mem hl)⟩
    · refine .inr ⟨fun l' hl' ↦ ?_, if_neg ?_⟩
      · cases hl'
        exact hl
      · rwa [List.mem_map_of_injective Label.text_injective]
  | _ => exact .inr ⟨fun _ hl ↦ Line.noConfusion hl, rfl⟩

theorem thinned_dedupe (hrows : ∀ r ∈ rows, r.line.NotLabel) (seen : List Label) :
    Thinned (fun _ ↦ True) seen rows (dedupe Row.core (seen.map Label.text) rows) := by
  induction rows generalizing seen with
  | nil => exact .nil
  | cons r rows ih =>
    rw [List.forall_mem_cons] at hrows
    rcases dedupe_cons hrows.1 seen rows with ⟨l, hmem, hl, heq⟩ | ⟨-, heq⟩
    · rw [heq]
      refine .drop (by rw [hl]; rfl) (fun l' hl' _ ↦ ?_) (ih hrows.2 seen)
      rw [hl] at hl'
      cases hl'
      exact hmem
    · rw [heq]
      exact .keep r (ih hrows.2 _)

theorem Thinned.refl (wanted : Label → Prop) (seen : List Label) (rows : List Row) :
    Thinned wanted seen rows rows := by
  induction rows generalizing seen with
  | nil => exact .nil
  | cons r rows ih => exact .keep r (ih _)

theorem thinned_dedupeRows (hrows : ∀ r ∈ rows, r.line.NotLabel) :
    Thinned (fun _ ↦ True) [] rows (dedupeRows rows) := by
  rw [dedupeRows]
  split
  · exact thinned_dedupe hrows []
  · exact .refl _ _ _

theorem definitions_cons (l : Label) (r : Row) (rows : List Row) :
    definitions l (r :: rows) = definitions l rows + if r.line = .label l then 1 else 0 := by
  have hlabel : r.line.isLabel l = true ↔ r.line = .label l :=
    ⟨Line.eq_label_of_isLabel, fun h ↦ by rw [h, Line.isLabel, decide_eq_true rfl]⟩
  rw [definitions, List.countP_cons, if_congr hlabel rfl rfl]
  rfl

theorem definitions_dedupe (hrows : ∀ r ∈ rows, r.line.NotLabel) (seen : List Label) (l : Label) :
    definitions l (dedupe Row.core (seen.map Label.text) rows) =
      if l ∈ seen then 0 else min 1 (definitions l rows) := by
  induction rows generalizing seen with
  | nil => simp [dedupe, definitions]
  | cons r rows ih =>
    rw [List.forall_mem_cons] at hrows
    rw [definitions_cons l r rows]
    rcases dedupe_cons hrows.1 seen rows with ⟨l', hmem, hl', heq⟩ | ⟨hseen, heq⟩
    · rw [heq, ih hrows.2]
      split
      · rfl
      · next hl =>
        have hne : r.line ≠ .label l := fun h ↦ hl (by rw [hl'] at h; cases h; exact hmem)
        rw [if_neg hne, Nat.add_zero]
    · rw [heq, definitions_cons, ih hrows.2]
      by_cases hl : r.line = .label l
      · have hhead : l ∈ r.line.label?.toList ++ seen := by
          rw [hl]
          exact List.mem_cons_self
        rw [if_pos hhead, if_neg (hseen l hl), if_pos hl]
        omega
      · have hmem : l ∈ r.line.label?.toList ++ seen ↔ l ∈ seen := by
          cases hline : r.line with
          | label l' =>
            have hne : l ≠ l' := fun heq ↦ hl (by rw [hline, heq])
            exact List.mem_cons.trans (or_iff_right hne)
          | _ => rfl
        rw [if_congr hmem rfl rfl, if_neg hl]
        rfl

theorem definitions_le_count (l : Label) (rows : List Row) :
    definitions l rows ≤ (defined (text rows)).count l.text := by
  rw [defined_text]
  induction rows with
  | nil => exact Nat.zero_le _
  | cons r rows ih =>
    rw [definitions_cons, List.flatMap_cons, List.count_append]
    split
    · next hl =>
      rw [hl, ownLabel_label l]
      have hone : ((Line.label l).label?.map Label.text).toList.count l.text = 1 := by
        simp [Line.label?]
      omega
    · omega

/-- Every label that is defined is defined once. -/
theorem definitions_dedupeRows (hrows : ∀ r ∈ rows, r.line.NotLabel) (l : Label) :
    definitions l (dedupeRows rows) = min 1 (definitions l rows) := by
  rw [dedupeRows]
  split
  · exact (definitions_dedupe hrows [] l).trans (if_neg List.not_mem_nil)
  · next hdup =>
    rw [hasDuplicateLabelDefs, Bool.not_eq_true, Bool.not_eq_false', decide_eq_true_eq] at hdup
    have hle := (definitions_le_count l rows).trans (List.nodup_iff_count_le_one.1 hdup _)
    omega

end Dedupe

/-! ### What the passes keep -/

section Kept

variable {entries : List (List Char)} {rows rows' rows'' : List Row} {l : Label}

/-- Some line goes to the label, or the unwinder does. -/
def Needed (entries : List (List Char)) (rows : List Row) (l : Label) : Prop :=
  (∃ g ∈ rows, g.line.target? = some l) ∨ l.text ∈ entries

theorem wanted_iff_needed (hplain : ∀ r ∈ rows, r.line.Plain) :
    Wanted entries rows l ↔ Needed entries rows l := by
  rw [Wanted, Needed, referenced_of_plain hplain, List.mem_flatMap]
  refine or_congr_left (exists_congr fun g ↦ and_congr_right fun _ ↦ ?_)
  cases g.line.target? with
  | none => simp
  | some l' =>
    simp [eq_comm, Label.text_injective.eq_iff]

theorem Thinner.subset (h : Thinner rows rows') : rows' ⊆ rows := by
  induction h with
  | nil => exact List.Subset.refl _
  | keep r _ ih => exact List.cons_subset_cons r ih
  | drop _ _ ih => exact List.subset_cons_of_subset _ ih

theorem Thinner.filter_eq (h : Thinner rows rows') :
    rows'.filter (!·.line.isSilent) = rows.filter (!·.line.isSilent) := by
  induction h with
  | nil => rfl
  | keep r _ ih => rw [List.filter_cons, List.filter_cons, ih]
  | drop hr _ ih => rw [ih, List.filter_cons, hr]; rfl

/-- Lines that go somewhere are kept. -/
theorem needed_congr (h : rows'.filter (!·.line.isSilent) = rows.filter (!·.line.isSilent)) :
    Needed entries rows' l ↔ Needed entries rows l := by
  have hmem (g : Row) (hg : g.line.target? = some l) : g ∈ rows' ↔ g ∈ rows := by
    have hsilent : (!g.line.isSilent) = true := by
      cases hline : g.line <;> rw [hline] at hg <;> first | rfl | cases hg
    have hiff : g ∈ rows'.filter (!·.line.isSilent) ↔ g ∈ rows.filter (!·.line.isSilent) := by
      rw [h]
    simpa [List.mem_filter, hsilent] using hiff
  refine or_congr_left (exists_congr fun g ↦ ⟨fun hg ↦ ⟨?_, hg.2⟩, fun hg ↦ ⟨?_, hg.2⟩⟩)
  · exact (hmem g hg.2).1 hg.1
  · exact (hmem g hg.2).2 hg.1

variable (entries) in
theorem thinned_pruneRows (hlabel : ∀ r ∈ rows, r.line.NotLabel) :
    Thinned (Wanted entries rows) [] rows (pruneRows entries rows) := by
  refine thinned_filter fun r hr hdead ↦ ?_
  rw [Bool.not_eq_false'] at hdead
  exact (isDeadLabel_iff hr (hlabel r hr)).1 hdead

variable (entries) in
theorem definitions_pruneRows (hlabel : ∀ r ∈ rows, r.line.NotLabel) (l : Label) :
    definitions l (pruneRows entries rows) =
      if Wanted entries rows l then definitions l rows else 0 := by
  rw [definitions, pruneRows, List.countP_filter]
  split
  · next hwanted =>
    refine List.countP_congr fun r hr ↦ ?_
    rw [Bool.and_eq_true, and_iff_left_iff_imp, Bool.not_eq_true', Bool.eq_false_iff, Ne,
      isDeadLabel_iff hr (hlabel r hr)]
    rintro hl ⟨l', hl', hdead⟩
    rw [Line.eq_label_of_isLabel hl] at hl'
    cases hl'
    exact hdead hwanted
  · next hwanted =>
    refine List.countP_eq_zero.2 fun r hr hcond ↦ ?_
    obtain ⟨hl, hkept⟩ := Bool.and_eq_true_iff.1 hcond
    rw [Bool.not_eq_true', Bool.eq_false_iff, Ne, isDeadLabel_iff hr (hlabel r hr)] at hkept
    exact hkept ⟨l, Line.eq_label_of_isLabel hl, hwanted⟩

/-- `prune_dead_labels` drops the labels that no line goes to, and those only. -/
structure Pruned (entries : List (List Char)) (rows rows' : List Row) : Prop where
  text : pruneDeadLabels entries (text rows) = Body.text rows'
  runs : SameRuns entries rows rows'
  others : rows'.filter (!·.line.isSilent) = rows.filter (!·.line.isSilent)
  kept : ∀ l, Needed entries rows l → definitions l rows' = definitions l rows
  gone : ∀ l, ¬Needed entries rows l → definitions l rows' = 0
  again : pruneDeadLabels entries (Body.text rows') = Body.text rows'

theorem Thinned.sameRuns_of_plain (h : Thinned (Wanted entries rows) [] rows rows')
    (hplain : ∀ r ∈ rows, r.line.Plain) : SameRuns entries rows rows' := by
  refine h.sameRuns (fun r hr l hl ↦ ?_) fun l hl ↦ .inr hl
  exact (wanted_iff_needed hplain).2 (.inl ⟨r, hr, hl⟩)

theorem pruneDeadLabels_sound (entries : List (List Char)) {rows : List Row}
    (hplain : ∀ r ∈ rows, r.line.Plain) (hlabel : ∀ r ∈ rows, r.line.NotLabel) :
    Pruned entries rows (pruneRows entries rows) := by
  have hthin := thinned_pruneRows entries hlabel
  have hsub : pruneRows entries rows ⊆ rows := fun _ hr ↦ List.mem_of_mem_filter hr
  have hplain' : ∀ r ∈ pruneRows entries rows, r.line.Plain := fun r hr ↦ hplain r (hsub hr)
  refine ⟨pruneDeadLabels_text entries rows, hthin.sameRuns_of_plain hplain,
    hthin.thinner.filter_eq, fun l hl ↦ ?_, fun l hl ↦ ?_, ?_⟩
  · rw [definitions_pruneRows entries hlabel, if_pos ((wanted_iff_needed hplain).2 hl)]
  · rw [definitions_pruneRows entries hlabel, if_neg (hl ∘ (wanted_iff_needed hplain).1)]
  · rw [pruneDeadLabels_text]
    refine congrArg Body.text (List.filter_eq_self.2 fun r hr ↦ ?_)
    rw [Bool.not_eq_true', Bool.eq_false_iff, Ne, isDeadLabel_iff hr (hlabel r (hsub hr))]
    rintro ⟨l, hl, hdead⟩
    -- The label of a row that is left still matters.
    rw [wanted_iff_needed hplain', needed_congr hthin.thinner.filter_eq] at hdead
    have hzero := definitions_pruneRows entries hlabel l
    rw [if_neg (hdead ∘ (wanted_iff_needed hplain).1)] at hzero
    exact List.countP_eq_zero.1 hzero r hr (by rw [hl, Line.isLabel, decide_eq_true rfl])

/-! ### Comments before entries -/

/-- The comments on rows. -/
def annotateRows (entries : List Label) (rows : List Row) : List Row :=
  entries.foldl (fun rows l ↦ annotate Row.text funcletNote l rows) rows

theorem annotate_map {α : Type*} (f : α → List Char) (note : α) (l : Label) (rs : List α) :
    annotate id (f note) l (rs.map f) = (annotate f note l rs).map f := by
  induction rs with
  | nil => rfl
  | cons r rs ih =>
    rw [List.map_cons, annotate, annotate, ih, id]
    split_ifs <;> rfl

theorem annotateEntries_text (entries : List Label) (rows : List Row) :
    annotateEntries entries (text rows) = text (annotateRows entries rows) := by
  induction entries generalizing rows with
  | nil => rfl
  | cons l entries ih =>
    have hone : (annotate id funcletNote.text l (lines (text rows))).flatten =
        text (annotate Row.text funcletNote l rows) := by
      rw [lines_text, annotate_map, text, List.flatMap_def]
    rw [annotateEntries, List.foldl_cons, hone, ← annotateEntries, ih, annotateRows, annotateRows,
      List.foldl_cons]

theorem thinned_annotate (l : Label) (seen : List Label) (rows : List Row) :
    Thinned (fun _ ↦ True) seen (annotate Row.text funcletNote l rows) rows := by
  induction rows generalizing seen with
  | nil => exact .nil
  | cons r rows ih =>
    rw [annotate]
    split
    · exact .drop rfl (fun _ h ↦ Line.noConfusion h) (.refl _ _ _)
    · exact .keep r (ih _)

theorem mem_annotate {r : Row} (h : r ∈ annotate Row.text funcletNote l rows) :
    r = funcletNote ∨ r ∈ rows := by
  induction rows with
  | nil => exact .inr h
  | cons r' rows ih =>
    rw [annotate] at h
    split at h
    · exact List.mem_cons.1 h
    · rcases List.mem_cons.1 h with rfl | h
      · exact .inr List.mem_cons_self
      · exact (ih h).imp_right (List.mem_cons_of_mem r')

theorem definitions_annotate (l' l : Label) (rows : List Row) :
    definitions l' (annotate Row.text funcletNote l rows) = definitions l' rows := by
  induction rows with
  | nil => rfl
  | cons r rows ih =>
    rw [annotate]
    split
    · rw [definitions_cons, if_neg fun h ↦ Line.noConfusion h, Nat.add_zero]
    · rw [definitions_cons, definitions_cons, ih]

/-- The comments change nothing. -/
structure Annotated (entries : List (List Char)) (rows rows' : List Row) : Prop where
  runs : SameRuns entries rows rows'
  others : rows'.filter (!·.line.isSilent) = rows.filter (!·.line.isSilent)
  defs : ∀ l, definitions l rows' = definitions l rows
  mem : ∀ r ∈ rows', r = funcletNote ∨ r ∈ rows

theorem SameRuns.refl (entries : List (List Char)) (rows : List Row) :
    SameRuns entries rows rows :=
  (Thinned.refl (fun _ ↦ True) [] rows).sameRuns (fun _ _ _ _ ↦ trivial) fun _ _ ↦ trivial

theorem annotated_annotateRows (entries : List (List Char)) (ls : List Label) (rows : List Row) :
    Annotated entries rows (annotateRows ls rows) := by
  induction ls generalizing rows with
  | nil => exact ⟨.refl _ _, rfl, fun _ ↦ rfl, fun _ hr ↦ .inr hr⟩
  | cons l ls ih =>
    have hthin := thinned_annotate l [] rows
    have hruns : SameRuns entries rows (annotate Row.text funcletNote l rows) :=
      (hthin.sameRuns (fun _ _ _ _ ↦ trivial) fun _ _ ↦ trivial).symm
    have hrest := ih (annotate Row.text funcletNote l rows)
    rw [annotateRows, List.foldl_cons, ← annotateRows]
    exact ⟨hruns.trans hrest.runs, hrest.others.trans hthin.thinner.filter_eq.symm,
      fun l' ↦ (hrest.defs l').trans (definitions_annotate l' l rows),
      fun r hr ↦ (hrest.mem r hr).elim .inl mem_annotate⟩

/-! ### The labels of a finished body -/

/-- The labels, each as often as it is defined. -/
def labelsOf (rows : List Row) : List Label :=
  rows.filterMap fun r ↦ r.line.label?

theorem count_labelsOf (l : Label) (rows : List Row) :
    (labelsOf rows).count l = definitions l rows := by
  induction rows with
  | nil => rfl
  | cons r rows ih =>
    rw [definitions_cons, ← ih, labelsOf, labelsOf, List.filterMap_cons]
    cases hline : r.line with
    | label l' =>
      simp only [Line.label?, List.count_cons, Line.label.injEq, beq_iff_eq]
    | _ => simp [Line.label?]

theorem defined_of_ownLabel (hown : ∀ r ∈ rows, r.line.OwnLabel) :
    defined (text rows) = (labelsOf rows).map Label.text := by
  rw [defined_text]
  induction rows with
  | nil => rfl
  | cons r rows ih =>
    rw [List.forall_mem_cons] at hown
    rw [List.flatMap_cons, ih hown.2, hown.1, labelsOf, labelsOf, List.filterMap_cons]
    cases r.line.label? <;> rfl

/-- A body is consistent when every label that is gone to is defined, and none twice. -/
theorem labelsConsistent_iff (hplain : ∀ r ∈ rows, r.line.Plain)
    (hown : ∀ r ∈ rows, r.line.OwnLabel) :
    labelsConsistent (text rows) = true ↔
      (∀ g ∈ rows, ∀ l, g.line.target? = some l → 0 < definitions l rows) ∧
        ∀ l, definitions l rows ≤ 1 := by
  have hmem (l : Label) : l.text ∈ defined (text rows) ↔ 0 < definitions l rows := by
    rw [defined_of_ownLabel hown, List.mem_map_of_injective Label.text_injective,
      ← count_labelsOf, List.count_pos_iff]
  have hnodup : (defined (text rows)).Nodup ↔ ∀ l, definitions l rows ≤ 1 := by
    rw [defined_of_ownLabel hown, List.nodup_map_iff Label.text_injective,
      List.nodup_iff_count_le_one]
    simp only [count_labelsOf]
  rw [labelsConsistent, Bool.and_eq_true, hasDuplicateLabelDefs, Bool.not_not, decide_eq_true_eq,
    hnodup, List.all_eq_true, referenced_of_plain hplain]
  refine and_congr_left fun _ ↦ ⟨fun h g hg l hl ↦ ?_, fun h t ht ↦ ?_⟩
  · have htext := h l.text (List.mem_flatMap.2 ⟨g, hg, by simp [hl]⟩)
    have hlabel : "L_".toList.isPrefixOf l.text = true :=
      List.isPrefixOf_iff_prefix.2 (isPrefixOf_label l)
    rw [hlabel, Bool.not_true, Bool.false_or, List.contains_iff_mem] at htext
    exact (hmem l).1 htext
  · obtain ⟨g, hg, ht⟩ := List.mem_flatMap.1 ht
    cases hl : g.line.target? with
    | none =>
      rw [hl] at ht
      cases ht
    | some l =>
      rw [hl] at ht
      obtain rfl : t = l.text := List.mem_singleton.1 ht
      rw [Bool.or_eq_true, List.contains_iff_mem]
      exact .inr ((hmem l).2 (h g hg l hl))

theorem plain_funcletNote : funcletNote.line.Plain := by
  intro pre post h
  have hinfix : "goto ".toList <:+: funcletNote.line.text := ⟨pre, post, h.symm⟩
  exact absurd hinfix (by decide +kernel)

/-- What becomes of a body. -/
structure Finished (entries : List Label) (rows rows' : List Row) : Prop where
  text : finishLabels entries (text rows) = Body.text rows'
  runs : SameRuns (entries.map Label.text) rows rows'
  others : rows'.filter (!·.line.isSilent) = rows.filter (!·.line.isSilent)
  once : ∀ l, Needed (entries.map Label.text) rows l →
    definitions l rows' = min 1 (definitions l rows)
  gone : ∀ l, ¬Needed (entries.map Label.text) rows l → definitions l rows' = 0
  consistent : labelsConsistent (Body.text rows) = true →
    labelsConsistent (Body.text rows') = true

end Kept

/-! ### A body with a label too many -/

theorem plain_goto (l : Label) : (Line.jump (.goto l)).Plain := by
  intro pre post h
  refine ⟨l, rfl, ?_⟩
  have htext : "goto ".toList ++ (l.text ++ [';']) = pre ++ "goto ".toList ++ post :=
    (List.append_assoc _ _ _).symm.trans h
  have hspace : ' ' ∉ l.text ++ [';'] :=
    List.not_mem_append (fun hmem ↦ absurd (Label.isIdent_of_mem hmem) (by decide)) (by decide)
  -- There is one blank, so none stands before the word.
  have hcount := congrArg (List.count ' ') htext
  simp only [List.count_append, List.count_eq_zero.2 hspace] at hcount
  have hpre : ' ' ∉ pre := List.count_eq_zero.1 (by omega)
  have hskip : ∀ c ∈ pre, (c != ' ') = true := fun c hc ↦ bne_iff_ne.2 fun heq ↦
    hpre (by rwa [heq] at hc)
  have hdrop := congrArg (List.dropWhile (· != ' ')) htext
  rw [List.append_assoc, List.dropWhile_append_of_pos hskip] at hdrop
  exact (List.cons.inj hdrop).2.symm

/-- A label that nothing goes to, and one that is defined twice. -/
def landings : List Row :=
  let one : Label := ⟨['1'], List.all_eq_true.1 rfl⟩
  [⟨4, .jump (.goto one)⟩,
    ⟨4, .label ⟨['3'], List.all_eq_true.1 rfl⟩⟩,
    ⟨4, .jump .brk⟩,
    ⟨4, .label one⟩,
    ⟨4, .label one⟩,
    ⟨4, .jump (.ret ⟨⟨" 3;".toList, by decide⟩, .inl rfl, ⟨';', rfl, rfl⟩⟩)⟩]

theorem plain_landings : ∀ r ∈ landings, r.line.Plain := by
  have hplain {ln : Line} (h : ¬"goto ".toList <:+: ln.text) : ln.Plain := fun pre post heq ↦
    absurd ⟨pre, post, heq.symm⟩ h
  simp only [landings, List.forall_mem_cons, List.not_mem_nil, false_imp_iff, implies_true,
    and_true]
  exact ⟨plain_goto _, hplain (by decide), hplain (by decide), hplain (by decide),
    hplain (by decide), hplain (by decide)⟩

theorem notLabel_landings : ∀ r ∈ landings, r.line.NotLabel := by
  simp [landings, Line.NotLabel]

theorem pruned_landings : Pruned [] landings (pruneRows [] landings) :=
  pruneDeadLabels_sound [] plain_landings notLabel_landings

end Body

end Ldu
