import Ldu.Emit.BodyRun

/-!
# Unreachable lines are dropped

`strip_unreachable_after_terminator` reads the text of a body once, with one bit: behind a line that
transfers control the run is dead, until a line with a brace, a case or a label comes that a `goto`
of the text or the unwinder may go to. Lines of a dead run are dropped.

The labels a `goto` may go to are found by a search of the text, which takes any `goto` with the
next semicolon for one: a `goto` in a string before a real one hides it, and the label of that one
may then be dropped. In a body whose only `goto`s are jumps (`Line.Plain`) the search finds what
lines go to.
-/

namespace Ldu

namespace Body

/-! ### The pass -/

def hasBrace (t : List Char) : Bool :=
  t.contains '{' || t.contains '}'

/-- The line transfers control whatever happens. -/
def isUncondTransferLine (t : List Char) : Bool :=
  t == "break;".toList || t == "continue;".toList || "goto ".toList.isPrefixOf t ||
    ("return".toList.isPrefixOf t &&
      (t.length == 6 || t[6]? == some ' ' || t[6]? == some ';'))

/-- The line may be jumped to: a case, or one of the labels. -/
def isReachableTarget (labels : List (List Char)) (t : List Char) : Bool :=
  if "case ".toList.isPrefixOf t || t == "default:".toList then true
  else if "L_".toList.isPrefixOf t && t.contains ':' then
    labels.contains (t.takeWhile (· != ':'))
  else false

section Strip

variable {α : Type*} (trim : α → List Char) (labels : List (List Char))

/-- A dead run ends at the line. -/
def stops (r : α) : Bool :=
  hasBrace (trim r) || isReachableTarget labels (trim r)

/-- The line begins a dead run. -/
def transfers (r : α) : Bool :=
  !hasBrace (trim r) && isUncondTransferLine (trim r)

/-- The lines that are kept; `dead` says whether the first stands in a dead run. Empty lines are
kept there. -/
def strip : Bool → List α → List α
  | _, [] => []
  | dead, r :: rs =>
    if dead && !stops trim labels r then
      if (trim r).isEmpty then r :: strip true rs else strip true rs
    else r :: strip (transfers trim r) rs

/-- The lines passed in dead runs. -/
def deadLines : Bool → List α → List α
  | _, [] => []
  | dead, r :: rs =>
    if dead && !stops trim labels r then r :: deadLines true rs
    else deadLines (transfers trim r) rs

theorem stops_of_mem_deadLines {dead : Bool} {r : α} {rs : List α}
    (h : r ∈ deadLines trim labels dead rs) : stops trim labels r = false := by
  induction rs generalizing dead with
  | nil => cases h
  | cons r' rs ih =>
    rw [deadLines] at h
    split at h
    · next hdead =>
      rcases List.mem_cons.1 h with rfl | h
      · simpa using (Bool.and_eq_true_iff.1 hdead).2
      · exact ih h
    · exact ih h

/-- Behind these lines the run is dead: a line among them begins a dead run, and none behind it ends
it. -/
def AfterTransfer (rs : List α) : Prop :=
  ∃ q t m, rs = q ++ t :: m ∧ transfers trim t = true ∧ ∀ x ∈ m, stops trim labels x = false

/-- The line stands in a dead run. -/
def InDeadRun (rs : List α) (r : α) : Prop :=
  ∃ p s, rs = p ++ r :: s ∧ AfterTransfer trim labels p ∧ stops trim labels r = false

/-- The line stands elsewhere. -/
def Live (rs : List α) (r : α) : Prop :=
  ∃ p s, rs = p ++ r :: s ∧ (stops trim labels r = true ∨ ¬AfterTransfer trim labels p)

section Runs

variable {trim labels} {r : α} {rs : List α}

theorem afterTransfer_concat :
    AfterTransfer trim labels (rs ++ [r]) ↔
      transfers trim r = true ∨ (AfterTransfer trim labels rs ∧ stops trim labels r = false) := by
  constructor
  · rintro ⟨q, t, m, heq, ht, hm⟩
    rcases List.eq_nil_or_concat m with rfl | ⟨m, x, rfl⟩
    · obtain ⟨rfl, hx⟩ := List.append_inj' heq rfl
      cases hx
      exact .inl ht
    · rw [List.concat_eq_append, ← List.cons_append, ← List.append_assoc] at heq
      obtain ⟨rfl, hx⟩ := List.append_inj' heq rfl
      cases hx
      exact .inr ⟨⟨q, t, m, rfl, ht, fun x hx ↦ hm x (by simp [hx])⟩, hm r (by simp)⟩
  · rintro (ht | ⟨⟨q, t, m, rfl, ht, hm⟩, hr⟩)
    · exact ⟨rs, r, [], rfl, ht, fun x hx ↦ absurd hx List.not_mem_nil⟩
    · refine ⟨q, t, m ++ [r], by simp, ht, fun x hx ↦ ?_⟩
      rcases List.mem_append.1 hx with hx | hx
      · exact hm x hx
      · rwa [List.mem_singleton.1 hx]

theorem not_afterTransfer_nil : ¬AfterTransfer trim labels ([] : List α) := by
  rintro ⟨q, t, m, heq, -⟩
  simp at heq

/-- No dead run is open before the first line. -/
theorem false_iff_afterTransfer_nil :
    false = true ↔ AfterTransfer trim labels ([] : List α) :=
  ⟨Bool.noConfusion, fun h ↦ absurd h not_afterTransfer_nil⟩

/-- The lines, each with the bit whether it stands in a dead run. -/
def marks (trim : α → List Char) (labels : List (List Char)) : Bool → List α → List (Bool × α)
  | _, [] => []
  | dead, r :: rs =>
    (dead && !stops trim labels r, r) ::
      marks trim labels (dead && !stops trim labels r || transfers trim r) rs

/-- The bit says what stands before the line, behind the lines `q` read already. -/
theorem mem_marks {d dead : Bool} {q : List α} (hdead : dead = true ↔ AfterTransfer trim labels q) :
    (d, r) ∈ marks trim labels dead rs ↔
      ∃ p s, rs = p ++ r :: s ∧
        (d = true ↔ AfterTransfer trim labels (q ++ p) ∧ stops trim labels r = false) := by
  induction rs generalizing q dead with
  | nil => simp [marks]
  | cons x rs ih =>
    have hnext : (dead && !stops trim labels x || transfers trim x) = true ↔
        AfterTransfer trim labels (q ++ [x]) := by
      rw [afterTransfer_concat, Bool.or_eq_true, Bool.and_eq_true, hdead, Bool.not_eq_true',
        or_comm]
    have hbit : (d = (dead && !stops trim labels x)) ↔
        (d = true ↔ AfterTransfer trim labels q ∧ stops trim labels x = false) := by
      rw [Bool.eq_iff_iff, Bool.and_eq_true, hdead, Bool.not_eq_true']
    rw [marks, List.mem_cons, Prod.mk.injEq, ih hnext]
    constructor
    · rintro (⟨hd, rfl⟩ | ⟨p, s, rfl, hd⟩)
      · exact ⟨[], rs, rfl, by rw [List.append_nil]; exact hbit.1 hd⟩
      · exact ⟨x :: p, s, rfl, by rwa [List.append_assoc] at hd⟩
    · rintro ⟨_ | ⟨y, p⟩, s, heq, hd⟩
      · obtain ⟨rfl, rfl⟩ := List.cons.inj heq
        rw [List.append_nil] at hd
        exact .inl ⟨hbit.2 hd, rfl⟩
      · obtain ⟨rfl, rfl⟩ := List.cons.inj heq
        exact .inr ⟨p, s, rfl, by rwa [List.append_assoc]⟩

theorem mem_deadLines_iff_marks {dead : Bool} :
    r ∈ deadLines trim labels dead rs ↔ (true, r) ∈ marks trim labels dead rs := by
  induction rs generalizing dead with
  | nil => simp [marks, deadLines]
  | cons x rs ih =>
    rw [deadLines, marks, List.mem_cons]
    cases dead && !stops trim labels x <;> simp [ih]

/-- A line that is not empty is kept when it stands in no dead run. -/
theorem mem_strip_iff_marks {dead : Bool} (hr : trim r ≠ []) :
    r ∈ strip trim labels dead rs ↔ (false, r) ∈ marks trim labels dead rs := by
  induction rs generalizing dead with
  | nil => simp [marks, strip]
  | cons x rs ih =>
    rw [strip, marks, List.mem_cons]
    cases dead && !stops trim labels x with
    | true =>
      simp only [if_true, Prod.mk.injEq, Bool.false_eq_true, false_and, false_or, Bool.true_or,
        ← ih]
      split
      · next hx =>
        rw [List.mem_cons]
        refine or_iff_right ?_
        rintro rfl
        exact hr (List.isEmpty_iff.1 hx)
      · rfl
    | false => simp [ih]

theorem mem_deadLines : r ∈ deadLines trim labels false rs ↔ InDeadRun trim labels rs r := by
  rw [mem_deadLines_iff_marks, mem_marks false_iff_afterTransfer_nil]
  simp [InDeadRun]

theorem mem_strip (hr : trim r ≠ []) :
    r ∈ strip trim labels false rs ↔ Live trim labels rs r := by
  rw [mem_strip_iff_marks hr, mem_marks false_iff_afterTransfer_nil]
  simp only [Live, Bool.false_eq_true, false_iff, not_and, List.nil_append, Bool.not_eq_false]
  refine exists₂_congr fun p s ↦ and_congr_right fun _ ↦ ?_
  rw [imp_iff_not_or, or_comm]

end Runs

end Strip

/-- The pass on a text; `entries` are the `extern_entry_labels`. -/
def stripUnreachableAfterTerminator (entries : List (List Char)) (body : List Char) : List Char :=
  (strip core (referenced body ++ entries) false (lines body)).flatten

theorem strip_map {α β : Type*} (trim : β → List Char) (labels : List (List Char)) (f : α → β)
    (dead : Bool) (rs : List α) :
    strip trim labels dead (rs.map f) = (strip (trim ∘ f) labels dead rs).map f := by
  induction rs generalizing dead with
  | nil => rfl
  | cons r rs ih =>
    have hstops : stops (trim ∘ f) labels r = stops trim labels (f r) := rfl
    have htrim : (trim ∘ f) r = trim (f r) := rfl
    rw [List.map_cons, strip, strip, ih, ih, hstops, htrim]
    split_ifs <;> rfl

/-- The text of a row, trimmed. -/
def Row.core (r : Row) : List Char :=
  Body.core r.text

/-- The pass on rows. -/
def stripRows (entries : List (List Char)) (rows : List Row) : List Row :=
  strip Row.core (referenced (text rows) ++ entries) false rows

/-- The text that is left is the text of the rows that are left. -/
theorem stripUnreachableAfterTerminator_text (entries : List (List Char)) (rows : List Row) :
    stripUnreachableAfterTerminator entries (text rows) = text (stripRows entries rows) := by
  rw [stripUnreachableAfterTerminator, lines_text, strip_map, text, List.flatMap_def]
  rfl

/-! ### What stops a dead run and what begins one -/

/-- The line is a case or a default. -/
def Line.isArm : Line → Bool
  | .case _ | .caseJump _ _ | .default => true
  | _ => false

/-! The texts of the lines are compared with literals: only their first words count. -/

theorem hasBrace_iff {t : List Char} : hasBrace t = true ↔ '{' ∈ t ∨ '}' ∈ t := by
  simp [hasBrace]

theorem hasBrace_of_edge {ln : Line} (h : ln.edge.isSome = true) : hasBrace ln.text = true := by
  rw [hasBrace_iff]
  cases ln with
  | opens o =>
    cases o with
    | «do» => exact .inl (by decide)
    | _ => exact .inl (List.mem_append_right _ (by decide))
  | orElse => exact .inl (by decide)
  | close => exact .inr (by decide)
  | closeWhile c => exact .inr (List.mem_append_left _ (List.mem_append_left _ (by decide)))
  | _ => cases h

theorem isReachableTarget_of_isArm {ln : Line} {labels : List (List Char)} (h : ln.isArm = true) :
    isReachableTarget labels ln.text = true := by
  refine if_pos (Bool.or_eq_true_iff.2 ?_)
  cases ln with
  | case n =>
    refine .inl (List.isPrefixOf_iff_prefix.2 ?_)
    exact (List.prefix_append _ _).trans (List.prefix_append _ _)
  | caseJump n j =>
    refine .inl (List.isPrefixOf_iff_prefix.2 ?_)
    exact ((List.prefix_append _ _).trans (List.prefix_append _ _)).trans (List.prefix_append _ _)
  | default => exact .inr (by decide)
  | _ => cases h

theorem firstWord_append {w s : List Char} (hw : ∀ c ∈ w, isIdent c = true)
    (hs : ∀ c, s.head? = some c → isIdent c = false) : firstWord (w ++ s) = w := by
  rw [firstWord, List.takeWhile_append_of_pos hw]
  cases s with
  | nil => exact List.append_nil w
  | cons c s => rw [List.takeWhile_cons_of_neg (by simp [hs c rfl]), List.append_nil]

/-- A line that transfers control begins with a keyword. -/
theorem firstWord_of_isUncondTransferLine {t : List Char} (h : isUncondTransferLine t = true) :
    firstWord t ∈ ["goto".toList, "return".toList, "break".toList, "continue".toList] := by
  simp only [isUncondTransferLine, Bool.or_eq_true, Bool.and_eq_true, beq_iff_eq,
    List.isPrefixOf_iff_prefix] at h
  rcases h with ((rfl | rfl) | ⟨s, rfl⟩) | ⟨⟨s, rfl⟩, hs⟩
  · decide
  · decide
  · have hgoto : firstWord ("goto".toList ++ ' ' :: s) = "goto".toList :=
      firstWord_append (List.all_eq_true.1 rfl) fun c hc ↦ by
        cases hc
        decide
    exact List.mem_of_mem_head? (congrArg some hgoto.symm)
  · have hreturn : firstWord ("return".toList ++ s) = "return".toList :=
      firstWord_append (List.all_eq_true.1 rfl) fun c hc ↦ by
        cases s with
        | nil => cases hc
        | cons d s =>
          cases hc
          rcases hs with (hs | hs) | hs
          · exact absurd hs (by simp)
          · cases hs
            decide
          · cases hs
            decide
    rw [hreturn]
    decide

section Row

variable {r : Row} {labels : List (List Char)}

theorem stops_of_edge (h : r.line.edge.isSome = true) : stops Row.core labels r = true := by
  have hne : r.line ≠ .blank := fun hblank ↦ by rw [hblank] at h; cases h
  rw [stops, Row.core, core_row hne, hasBrace_of_edge h, Bool.true_or]

theorem transfers_of_edge (h : r.line.edge.isSome = true) : transfers Row.core r = false := by
  have hne : r.line ≠ .blank := fun hblank ↦ by rw [hblank] at h; cases h
  rw [transfers, Row.core, core_row hne, hasBrace_of_edge h]
  rfl

theorem stops_of_isArm (h : r.line.isArm = true) : stops Row.core labels r = true := by
  have hne : r.line ≠ .blank := fun hblank ↦ by rw [hblank] at h; cases h
  rw [stops, Row.core, core_row hne, isReachableTarget_of_isArm h, Bool.or_true]

theorem Label.isIdent_of_mem {l : Label} {c : Char} (h : c ∈ l.text) : isIdent c = true := by
  rcases List.mem_cons.1 h with rfl | h
  · rfl
  rcases List.mem_cons.1 h with rfl | h
  · rfl
  · exact l.ident c h

/-- A label stops a dead run exactly when it is one of the labels. -/
theorem stops_label {l : Label} (h : r.line = .label l) :
    stops Row.core labels r = true ↔ l.text ∈ labels := by
  have hident (c : Char) (hc : isIdent c = false) : c ∉ l.text := fun hmem ↦ by
    rw [Label.isIdent_of_mem hmem] at hc
    cases hc
  have hcore : r.core = l.text ++ ":;".toList := by
    rw [Row.core, core_row (by rw [h]; exact Line.noConfusion), h]
    rfl
  have hbrace : hasBrace (l.text ++ ":;".toList) = false := by
    refine Bool.eq_false_iff.2 fun hb ↦ ?_
    rcases hasBrace_iff.1 hb with hb | hb <;> rcases List.mem_append.1 hb with hb | hb
    · exact hident _ (by decide) hb
    · exact absurd hb (by decide)
    · exact hident _ (by decide) hb
    · exact absurd hb (by decide)
  have hname : (l.text ++ ":;".toList).takeWhile (· != ':') = l.text := by
    have hne (c : Char) (hc : c ∈ l.text) : (c != ':') = true :=
      bne_iff_ne.2 fun heq ↦ hident ':' (by decide) (heq ▸ hc)
    rw [List.takeWhile_append_of_pos hne]
    exact List.append_nil _
  have harm : ("case ".toList.isPrefixOf (l.text ++ ":;".toList) ||
      l.text ++ ":;".toList == "default:".toList) = false := rfl
  have hlabel : ("L_".toList.isPrefixOf (l.text ++ ":;".toList) &&
      (l.text ++ ":;".toList).contains ':') = true := by
    refine Bool.and_eq_true_iff.2 ⟨rfl, ?_⟩
    rw [List.contains_iff_mem]
    exact List.mem_append_right _ (by decide)
  rw [stops, hcore, hbrace, Bool.false_or, isReachableTarget, harm, if_neg Bool.false_ne_true,
    hlabel, if_pos rfl, hname, List.contains_iff_mem]

theorem Line.eq_label_of_isLabel {ln : Line} {l : Label} (h : ln.isLabel l = true) :
    ln = .label l := by
  cases ln with
  | label l' =>
    rw [Line.isLabel, decide_eq_true_eq] at h
    rw [h]
  | _ => cases h

theorem not_isLabel_of_core_eq_nil (h : r.core = []) (l : Label) : r.line.isLabel l = false := by
  refine Bool.eq_false_iff.2 fun hl ↦ ?_
  have hline := Line.eq_label_of_isLabel hl
  rw [Row.core, core_row (by rw [hline]; exact Line.noConfusion), hline] at h
  cases h

/-- Only jumps begin a dead run. -/
theorem exists_jump_of_transfers (h : transfers Row.core r = true) : ∃ j, r.line = .jump j := by
  obtain ⟨hbrace, htransfer⟩ := Bool.and_eq_true_iff.1 h
  have hword := firstWord_of_isUncondTransferLine htransfer
  by_cases hblank : r.line = .blank
  · rw [Row.core] at hword
    rcases core_blank hblank with hcore | hcore <;> rw [hcore] at hword <;>
      exact absurd hword (by decide)
  rw [Row.core, core_row hblank] at hword hbrace
  cases hline : r.line with
  | jump j => exact ⟨j, rfl⟩
  | blank => exact absurd hline hblank
  | stmt st =>
    rw [hline] at hword
    exact absurd hword st.noJump
  | note p =>
    rw [hline] at hword
    have hfirst : firstWord (Line.note p).text = [] := rfl
    rw [hfirst] at hword
    exact absurd hword (by decide)
  | jumpIf c j =>
    rw [hline] at hword
    have hfirst : firstWord (Line.jumpIf c j).text = "if".toList := rfl
    rw [hfirst] at hword
    exact absurd hword (by decide)
  | label l =>
    rw [hline] at hword
    obtain ⟨w, hfirst⟩ : ∃ w, firstWord (Line.label l).text = 'L' :: w := ⟨_, rfl⟩
    rw [hfirst] at hword
    simp at hword
  | case n =>
    rw [hline] at hword
    have hfirst : firstWord (Line.case n).text = "case".toList := rfl
    rw [hfirst] at hword
    exact absurd hword (by decide)
  | caseJump n j =>
    rw [hline] at hword
    have hfirst : firstWord (Line.caseJump n j).text = "case".toList := rfl
    rw [hfirst] at hword
    exact absurd hword (by decide)
  | default =>
    rw [hline] at hword
    exact absurd hword (by decide)
  | opens | orElse | close | closeWhile =>
    rw [hline, hasBrace_of_edge rfl] at hbrace
    cases hbrace

end Row

/-! ### Moves and stripping -/

section Moves

variable (labels : List (List Char))

/-- The rows kept of a frame. -/
def stripFrame (f : Frame) : Frame :=
  (f.1, strip Row.core labels false f.2)

/-- The rows kept of a place that is not in a dead run. -/
def stripPlace (a : Place) : Place :=
  (strip Row.core labels false a.1, a.2.map (stripFrame labels))

variable {labels} {r : Row} {rs : List Row} {fs : List Frame}

theorem strip_edge (h : r.line.edge.isSome = true) (dead : Bool) (rs : List Row) :
    strip Row.core labels dead (r :: rs) = r :: strip Row.core labels false rs := by
  rw [strip, stops_of_edge h, transfers_of_edge h, Bool.not_true, Bool.and_false]
  rfl

theorem strip_false_cons (r : Row) (rs : List Row) :
    strip Row.core labels false (r :: rs) =
      r :: strip Row.core labels (transfers Row.core r) rs := by
  rw [strip]
  rfl

variable (labels) in
/-- A row is kept or dropped, and the others behind it are stripped. -/
theorem strip_cons_cases (dead : Bool) (r : Row) (rs : List Row) :
    ∃ dead', strip Row.core labels dead (r :: rs) = r :: strip Row.core labels dead' rs ∨
      strip Row.core labels dead (r :: rs) = strip Row.core labels dead' rs := by
  rw [strip]
  split
  · split
    · exact ⟨_, .inl rfl⟩
    · exact ⟨_, .inr rfl⟩
  · exact ⟨_, .inl rfl⟩

theorem skip_strip (arms : Bool) (n : ℕ) (dead : Bool) (rs : List Row) :
    skip arms n (strip Row.core labels dead rs) = strip Row.core labels false (skip arms n rs) := by
  induction rs generalizing n dead with
  | nil => rfl
  | cons r rs ih =>
    cases hedge : r.line.edge with
    | none =>
      have hpass (rs' : List Row) : skip arms n (r :: rs') = skip arms n rs' := by
        rw [skip, hedge]
      obtain ⟨dead', h | h⟩ := strip_cons_cases labels dead r rs
      · rw [h, hpass, hpass, ih]
      · rw [h, hpass, ih]
    | some e =>
      have hsome : r.line.edge.isSome = true := by rw [hedge]; rfl
      rw [strip_edge hsome, skip, skip, hedge]
      cases e with
      | opens => exact ih _ _
      | arm =>
        simp only
        split
        · rw [strip_edge hsome]
        · exact ih _ _
      | closes =>
        simp only
        split
        · rw [strip_edge hsome]
        · exact ih _ _

theorem openBehind_strip (r : Row) (rs : List Row) (fs : List Frame) :
    openBehind r.line (strip Row.core labels (transfers Row.core r) rs)
        (fs.map (stripFrame labels)) =
      (openBehind r.line rs fs).map (List.map (stripFrame labels)) := by
  cases hline : r.line with
  | opens o =>
    have hedge : r.line.edge.isSome = true := by rw [hline]; rfl
    rw [transfers_of_edge hedge]
    rfl
  | close | closeWhile => cases fs <;> rfl
  | _ => rfl

theorem openBehind_of_edge_eq_none (h : r.line.edge = none) (rs : List Row) (fs : List Frame) :
    openBehind r.line rs fs = some fs := by
  cases hline : r.line <;> rw [hline] at h <;> first | rfl | cases h

/-- What is found in no dead run is found again. -/
theorem find_strip {p : List Opener → Line → Bool} {dead : Bool} {rs : List Row} {fs : List Frame}
    (hp : ∀ r ∈ deadLines Row.core labels dead rs, ∀ os, p os r.line = false) :
    find p (fs.map (stripFrame labels)) (strip Row.core labels dead rs) =
      (find p fs rs).map (stripPlace labels) := by
  have hfst (fs : List Frame) : (fs.map (stripFrame labels)).map Prod.fst = fs.map Prod.fst := by
    rw [List.map_map]
    rfl
  induction rs generalizing fs dead with
  | nil => rfl
  | cons r rs ih =>
    rw [deadLines] at hp
    cases hdead : dead && !stops Row.core labels r with
    | true =>
      rw [hdead, if_pos rfl] at hp
      -- The row is none that opens or closes a block, and none that is looked for.
      have hedge : r.line.edge = none := by
        by_contra hne
        rw [stops_of_edge (Option.isSome_iff_ne_none.2 hne)] at hdead
        simp at hdead
      have hr := hp r List.mem_cons_self
      have hpass (rs' : List Row) (fs' : List Frame) : find p fs' (r :: rs') = find p fs' rs' := by
        rw [find, hr, if_neg Bool.false_ne_true, openBehind_of_edge_eq_none hedge, Option.bind_some]
      rw [strip, hdead, if_pos rfl, hpass, ← ih fun r' hr' ↦ hp r' (List.mem_cons_of_mem _ hr')]
      split
      · exact hpass _ _
      · rfl
    | false =>
      rw [hdead, if_neg Bool.false_ne_true] at hp
      rw [strip, hdead, if_neg Bool.false_ne_true, find, find, hfst]
      split
      · rw [Option.map_some, stripPlace, strip_false_cons]
      · rw [openBehind_strip]
        cases openBehind r.line rs fs with
        | none => rfl
        | some fs' => exact ih hp

theorem tail_strip_skip (rs : List Row) :
    (strip Row.core labels false (skip false 0 rs)).tail =
      strip Row.core labels false (skip false 0 rs).tail := by
  rcases skip_eq_nil_or false 0 rs with h | ⟨r, rs', h, hedge⟩
  · rw [h]
    rfl
  · rw [h, strip_edge hedge]
    rfl

theorem closing_strip (p : Opener → Bool) (dead : Bool) (rs : List Row) (fs : List Frame) :
    closing p (strip Row.core labels dead rs) (fs.map (stripFrame labels)) =
      (closing p rs fs).map (stripPlace labels) := by
  induction fs generalizing dead rs with
  | nil => rfl
  | cons f fs ih =>
    rw [List.map_cons, closing, closing, skip_strip, tail_strip_skip, stripFrame]
    simp only
    split
    · rfl
    · exact ih _ _

theorem behind_strip (dead : Bool) (rs : List Row) (fs : List Frame) :
    behind (strip Row.core labels dead rs) (fs.map (stripFrame labels)) =
      (behind rs fs).map (stripPlace labels) := by
  rw [behind, behind, skip_strip]
  rcases skip_eq_nil_or false 0 rs with h | ⟨r, rs', h, hedge⟩
  · rw [h]
    rfl
  · rw [h, strip_edge hedge]
    rfl

theorem otherArm_strip (o : Opener) (rs : List Row) (fs : List Frame) :
    otherArm o (strip Row.core labels false rs) (fs.map (stripFrame labels)) =
      (otherArm o rs fs).map (stripPlace labels) := by
  rw [otherArm, otherArm, skip_strip]
  rcases skip_eq_nil_or true 0 rs with h | ⟨r, rs', h, hedge⟩
  · rw [h]
    rfl
  · rw [h, strip_edge hedge]
    simp only
    split <;> rfl

/-- The cases of a switch stand in no dead run. -/
theorem dispatch_strip (n : ℕ) (rs : List Row) :
    dispatch n (strip Row.core labels false rs) = (dispatch n rs).map (stripPlace labels) := by
  have harm {p : Line → Bool} (hp : ∀ ln, p ln = true → ln.isArm = true) :
      find (ofSwitch p) [] (strip Row.core labels false rs) =
        (find (ofSwitch p) [] rs).map (stripPlace labels) := by
    refine @find_strip labels (ofSwitch p) false rs [] fun r hr os ↦ ?_
    rw [ofSwitch, Bool.and_eq_false_iff]
    refine .inl (Bool.eq_false_iff.2 fun h ↦ ?_)
    have hstops := stops_of_mem_deadLines Row.core labels hr
    rw [stops_of_isArm (hp _ h)] at hstops
    cases hstops
  rw [dispatch, dispatch, harm, harm, Option.map_or]
  all_goals
    intro ln h
    cases ln <;> first | rfl | cases h

end Moves

/-! ### A stripped body takes the same steps -/

def Jump.target? : Jump → Option Label
  | .goto l => some l
  | _ => none

/-- The label that the line may go to. -/
def Line.target? : Line → Option Label
  | .jump j | .jumpIf _ j | .caseJump _ j => j.target?
  | _ => none

section Steps

variable {σ E R : Type*} (I : Meaning σ E R) (labels : List (List Char)) {rows rows' : List Row}

/-- The state, of which dead runs are stripped. -/
def stripState (x : Place × σ) : Place × σ :=
  (stripPlace labels x.1, x.2)

theorem goOn_strip (a : Option Place) (s : σ) :
    goOn (E := E) (R := R) (a.map (stripPlace labels)) s =
      Machine.mapState (stripState labels) (goOn a s) := by
  cases a <;> rfl

theorem before_strip (es : List E) (x : List E × ((Place × σ) ⊕ Option R)) :
    before es (Machine.mapState (stripState labels) x) =
      Machine.mapState (stripState labels) (before es x) :=
  rfl

theorem branch_strip (c : Phrase) (yes no : Option Place) (s : σ) :
    branch I c (yes.map (stripPlace labels)) (no.map (stripPlace labels)) s =
      Machine.mapState (stripState labels) (branch I c yes no s) := by
  rw [branch, branch, ← before_strip, ← goOn_strip, apply_ite (Option.map (stripPlace labels))]

theorem perform_strip (t : List Char) (s : σ) {next next' : σ → List E × ((Place × σ) ⊕ Option R)}
    (h : ∀ s, next' s = Machine.mapState (stripState labels) (next s)) :
    perform I t s next' = Machine.mapState (stripState labels) (perform I t s next) := by
  rw [perform, perform]
  split
  · rw [h, before_strip]
  · rfl

variable {I labels}

theorem closing_eq_some {p : Opener → Bool} {rs : List Row} {fs : List Frame} {a : Place}
    (h : closing p rs fs = some a) : ∃ rs₀, a.1 = skip false 0 rs₀ := by
  induction fs generalizing rs with
  | nil => cases h
  | cons f fs ih =>
    rw [closing] at h
    split at h
    · cases h
      exact ⟨rs, rfl⟩
    · exact ih h

theorem jump_strip {j : Jump} (hgoto : ∀ l, j.target? = some l →
      locate l rows' = (locate l rows).map (stripPlace labels))
    (dead : Bool) (rs : List Row) (fs : List Frame) (s : σ) :
    jump I rows' j (strip Row.core labels dead rs) (fs.map (stripFrame labels)) s =
      Machine.mapState (stripState labels) (jump I rows j rs fs s) := by
  cases j with
  | brk =>
    rw [jump, jump, closing_strip]
    cases hclosing : closing (fun o ↦ o.isLoop || o.isSwitch) rs fs with
    | none => rfl
    | some a =>
      obtain ⟨rs', fs'⟩ := a
      obtain ⟨rs₀, rfl⟩ := closing_eq_some hclosing
      rw [Option.map_some, stripPlace]
      rcases skip_eq_nil_or false 0 rs₀ with h | ⟨r, rs', h, hedge⟩
      · simp only [h]
        rfl
      · simp only [h, strip_edge hedge]
        cases fs' with
        | nil => rfl
        | cons f fs' => exact goOn_strip labels (some (rs', fs')) s
  | cont => rw [jump, jump, closing_strip, goOn_strip]
  | goto l => rw [jump, jump, hgoto l rfl, goOn_strip]
  | ret v => rfl

theorem open_strip (o : Opener) (rs : List Row) (fs : List Frame) (s : σ) :
    open' I o (strip Row.core labels false rs) (fs.map (stripFrame labels)) s =
      Machine.mapState (stripState labels) (open' I o rs fs s) := by
  let inside : Option Place := some (rs, (o, rs) :: fs)
  cases o with
  | cond c =>
    rw [open', open']
    simp only [otherArm_strip]
    exact branch_strip I labels c inside _ s
  | «while» c =>
    rw [open', open']
    simp only [behind_strip]
    exact branch_strip I labels c inside _ s
  | «for» i c n =>
    rw [open', open']
    simp only [behind_strip]
    exact perform_strip I labels i.text s fun s ↦ branch_strip I labels c inside _ s
  | «do» => exact goOn_strip labels inside s
  | switch e =>
    rw [open', open']
    simp only [behind_strip, dispatch_strip]
    rw [← before_strip]
    cases hdispatch : dispatch (I.select e.text s).2.1 rs with
    | none => exact congrArg _ (goOn_strip labels (behind rs fs) _)
    | some a =>
      obtain ⟨rs', fs'⟩ := a
      refine congrArg _ (Eq.trans ?_ (goOn_strip labels
        (some (rs', fs' ++ (.switch e, rs) :: fs)) _))
      rw [Option.map_some, Option.map_some, stripPlace, stripPlace, List.map_append]
      rfl

theorem close_strip (rs : List Row) (fs : List Frame) (s : σ) :
    close' I (strip Row.core labels false rs) (fs.map (stripFrame labels)) s =
      Machine.mapState (stripState labels) (close' I rs fs s) := by
  match fs with
  | [] | (.do, _) :: _ => rfl
  | (.cond _, _) :: fs | (.switch _, _) :: fs => exact goOn_strip labels (some (rs, fs)) s
  | (.while c, start) :: fs =>
    exact branch_strip I labels c (some (start, (.while c, start) :: fs)) (some (rs, fs)) s
  | (.for i c n, start) :: fs =>
    exact perform_strip I labels n.text s fun s ↦
      branch_strip I labels c (some (start, (.for i c n, start) :: fs)) (some (rs, fs)) s

theorem closeWhile_strip (c : Phrase) (rs : List Row) (fs : List Frame) (s : σ) :
    closeWhile' I c (strip Row.core labels false rs) (fs.map (stripFrame labels)) s =
      Machine.mapState (stripState labels) (closeWhile' I c rs fs s) := by
  match fs with
  | [] | (.cond _, _) :: _ | (.while _, _) :: _ | (.for _ _ _, _) :: _ | (.switch _, _) :: _ => rfl
  | (.do, start) :: fs =>
    exact branch_strip I labels c (some (start, (.do, start) :: fs)) (some (rs, fs)) s

theorem arm_strip (rs : List Row) (fs : List Frame) (s : σ) :
    arm' (E := E) (R := R) (strip Row.core labels false rs) (fs.map (stripFrame labels)) s =
      Machine.mapState (stripState labels) (arm' rs fs s) := by
  match fs with
  | [] | (.while _, _) :: _ | (.for _ _ _, _) :: _ | (.switch _, _) :: _ | (.do, _) :: _ => rfl
  | (.cond _, _) :: fs =>
    exact (congrArg (goOn · s) (behind_strip false rs fs)).trans (goOn_strip labels _ s)

theorem jumpIf_strip {c : Phrase} {j : Jump} (hgoto : ∀ l, j.target? = some l →
      locate l rows' = (locate l rows).map (stripPlace labels))
    (rs : List Row) (fs : List Frame) (s : σ) :
    jumpIf' I rows' c j (strip Row.core labels false rs) (fs.map (stripFrame labels)) s =
      Machine.mapState (stripState labels) (jumpIf' I rows c j rs fs s) := by
  rw [jumpIf', jumpIf', ← before_strip]
  refine congrArg _ ?_
  split
  · exact jump_strip hgoto false rs fs _
  · exact goOn_strip labels (some (rs, fs)) _

/-- One row, in a place that is not in a dead run. -/
theorem stepAt_strip (a : Place) (s : σ)
    (hgoto : ∀ r ∈ a.1.head?, ∀ l, r.line.target? = some l →
      locate l rows' = (locate l rows).map (stripPlace labels)) :
    stepAt I rows' (stripPlace labels a) s =
      Machine.mapState (stripState labels) (stepAt I rows a s) := by
  obtain ⟨_ | ⟨r, rs⟩, fs⟩ := a
  · rfl
  have hgo := hgoto r rfl
  have hplain (hj : ∀ j, r.line ≠ .jump j) : transfers Row.core r = false := by
    refine Bool.eq_false_iff.2 fun h ↦ ?_
    obtain ⟨j, hline⟩ := exists_jump_of_transfers h
    exact hj j hline
  rw [stripPlace, strip_false_cons, stepAt, stepAt]
  cases hline : r.line with
  | jump j =>
    rw [hline] at hgo
    exact jump_strip hgo _ rs fs s
  | caseJump n j =>
    rw [hline] at hgo
    rw [hplain (by simp [hline])]
    exact jump_strip hgo _ rs fs s
  | jumpIf c j =>
    rw [hline] at hgo
    rw [hplain (by simp [hline])]
    exact jumpIf_strip hgo rs fs s
  | blank | note | label | case | default =>
    rw [hplain (by simp [hline])]
    exact goOn_strip labels (some (rs, fs)) s
  | stmt st =>
    rw [hplain (by simp [hline])]
    exact perform_strip I labels st.text s fun s ↦ goOn_strip labels (some (rs, fs)) s
  | opens o =>
    rw [hplain (by simp [hline])]
    exact open_strip o rs fs s
  | orElse =>
    rw [hplain (by simp [hline])]
    exact arm_strip rs fs s
  | close =>
    rw [hplain (by simp [hline])]
    exact close_strip rs fs s
  | closeWhile c =>
    rw [hplain (by simp [hline])]
    exact closeWhile_strip c rs fs s

end Steps

/-! ### What the pass keeps -/

/-- The runs of two bodies are the same from the first row and from each label entered from
outside. -/
def SameRuns (entries : List (List Char)) (rows rows' : List Row) : Prop :=
  ∀ e : Option Label, (∀ l, e = some l → l.text ∈ entries) →
    Option.Rel (fun a a' ↦ ∀ (σ E R : Type) (I : Meaning σ E R) (s : σ),
      (machine I rows).SameBehaviour (a, s) (machine I rows') (a', s))
      (entry rows e) (entry rows' e)

/-- How often a label is defined. -/
def definitions (l : Label) (rows : List Row) : ℕ :=
  rows.countP (·.line.isLabel l)

/-- A label that a line of the second body goes to is defined there if it is defined in the
first. -/
def LabelsKept (rows rows' : List Row) : Prop :=
  ∀ r ∈ rows', ∀ l, r.line.target? = some l → 0 < definitions l rows → 0 < definitions l rows'

/-- The pass drops dead code only. -/
structure Sound (entries : List (List Char)) (rows : List Row) : Prop where
  text : stripUnreachableAfterTerminator entries (text rows) = Body.text (stripRows entries rows)
  runs : SameRuns entries rows (stripRows entries rows)
  labels : LabelsKept rows (stripRows entries rows)

section Kept

variable {labels : List (List Char)} {rows : List Row}

variable (labels) in
theorem definitions_eq (l : Label) (dead : Bool) (rows : List Row) :
    definitions l rows = definitions l (strip Row.core labels dead rows) +
      definitions l (deadLines Row.core labels dead rows) := by
  induction rows generalizing dead with
  | nil => rfl
  | cons r rows ih =>
    simp only [definitions] at ih ⊢
    rw [strip, deadLines]
    cases dead && !stops Row.core labels r with
    | true =>
      rw [if_pos rfl, if_pos rfl]
      split
      · next hempty =>
        have hr := not_isLabel_of_core_eq_nil (List.isEmpty_iff.1 hempty) l
        simp only [List.countP_cons, hr, ih true, Bool.false_eq_true, if_false, Nat.add_zero]
      · rw [List.countP_cons, List.countP_cons, ih true, Nat.add_assoc]
    | false =>
      rw [if_neg Bool.false_ne_true, if_neg Bool.false_ne_true, List.countP_cons, List.countP_cons,
        ih (transfers Row.core r), Nat.add_right_comm]

/-- No row of a dead run defines a label that a row that is kept goes to. -/
def NoneLost (labels : List (List Char)) (rows : List Row) : Prop :=
  ∀ r ∈ strip Row.core labels false rows, ∀ l, r.line.target? = some l →
    ∀ d ∈ deadLines Row.core labels false rows, d.line.isLabel l = false

theorem labelsKept_of_noneLost (h : NoneLost labels rows) :
    LabelsKept rows (strip Row.core labels false rows) := by
  intro r hr l hl hdefined
  have hdead : definitions l (deadLines Row.core labels false rows) = 0 :=
    List.countP_eq_zero.2 fun d hd ↦ by simp [h r hr l hl d hd]
  rwa [definitions_eq labels l false rows, hdead] at hdefined

/-- Where no label is defined twice, a label that is lost is not defined any more. -/
theorem noneLost_of_labelsKept (hone : ∀ l, definitions l rows ≤ 1)
    (h : LabelsKept rows (strip Row.core labels false rows)) : NoneLost labels rows := by
  intro r hr l hl d hd
  by_contra hne
  have hdead : 0 < definitions l (deadLines Row.core labels false rows) :=
    List.countP_pos_iff.2 ⟨d, hd, by simpa using hne⟩
  have heq := definitions_eq labels l false rows
  have hkept := h r hr l hl (by omega)
  have hle := hone l
  omega

theorem locate_strip {l : Label}
    (h : ∀ d ∈ deadLines Row.core labels false rows, d.line.isLabel l = false) :
    locate l (strip Row.core labels false rows) = (locate l rows).map (stripPlace labels) :=
  @find_strip labels (fun _ ↦ Line.isLabel l) false rows [] fun r hr _ ↦ h r hr

/-- The bodies run in lockstep. -/
theorem simulation_strip {σ E R : Type} (I : Meaning σ E R) (h : NoneLost labels rows) :
    (machine I rows).Simulation (machine I (strip Row.core labels false rows))
      (fun x y ↦ y = stripState labels x ∧ Within (strip Row.core labels false rows) y.1) := by
  rintro x _ ⟨rfl, hwithin⟩
  have hstep : (machine I (strip Row.core labels false rows)).step (stripState labels x) =
      Machine.mapState (stripState labels) ((machine I rows).step x) := by
    refine stepAt_strip x.1 x.2 fun r hr l hl ↦ locate_strip fun d hd ↦ ?_
    refine h r (hwithin.1 ?_) l hl d hd
    obtain ⟨rs, hrs⟩ := List.head?_eq_some_iff.1 hr
    rw [stripState, stripPlace, hrs, strip_false_cons]
    exact List.mem_cons_self
  have hnext := within_stepAt (I := I) (s := (stripState labels x).2) hwithin
  rcases hs : (machine I rows).step x with ⟨es, x' | r⟩
  · rw [hs] at hstep
    exact .one hstep ⟨rfl, hnext _ (congrArg Prod.snd hstep)⟩
  · rw [hs] at hstep
    exact .halt hstep

theorem sameRuns_strip {entries : List (List Char)} (houter : ∀ l ∈ entries, l ∈ labels)
    (h : NoneLost labels rows) : SameRuns entries rows (strip Row.core labels false rows) := by
  intro e he
  have hentry : entry (strip Row.core labels false rows) e =
      (entry rows e).map (stripPlace labels) := by
    cases e with
    | none => rfl
    | some l =>
      refine locate_strip fun d hd ↦ Bool.eq_false_iff.2 fun hl ↦ ?_
      -- A label entered from outside stops every dead run.
      have hstops := stops_of_mem_deadLines Row.core labels hd
      rw [(stops_label (Line.eq_label_of_isLabel hl)).2 (houter _ (he l rfl))] at hstops
      cases hstops
  rw [hentry]
  cases hplace : entry rows e with
  | none => exact .none
  | some a =>
    rw [hplace] at hentry
    exact .some fun σ E R I s ↦
      (simulation_strip I h).sameBehaviour ⟨rfl, within_entry hentry⟩

/-- Whenever a line outside of dead runs goes to a label that is defined behind a line that
transfers control, with nothing between them that ends the dead run, the search finds the label
referenced or it is entered from outside. -/
def Found (entries : List (List Char)) (rows : List Row) : Prop :=
  let labels := referenced (text rows) ++ entries
  ∀ g l, Live Row.core labels rows g → g.line.target? = some l →
    ∀ p d s, rows = p ++ d :: s → d.line = .label l → AfterTransfer Row.core labels p →
      l.text ∈ labels

theorem core_ne_nil_of_target {r : Row} {l : Label} (h : r.line.target? = some l) :
    r.core ≠ [] := by
  have hblank : r.line ≠ .blank := fun hblank ↦ by rw [hblank] at h; cases h
  obtain ⟨c, hc, -⟩ := begins_line hblank
  rw [Row.core, core_row hblank]
  intro hnil
  rw [hnil] at hc
  cases hc

theorem noneLost_iff {entries : List (List Char)} :
    NoneLost (referenced (text rows) ++ entries) rows ↔ Found entries rows := by
  constructor
  · intro h g l hlive htarget p d s heq hd hafter
    by_contra hl
    have hdead : d ∈ deadLines Row.core (referenced (text rows) ++ entries) false rows :=
      mem_deadLines.2 ⟨p, s, heq, hafter, Bool.eq_false_iff.2 fun hs ↦ hl ((stops_label hd).1 hs)⟩
    have hlost := h g ((mem_strip (core_ne_nil_of_target htarget)).2 hlive) l htarget d hdead
    rw [hd, Line.isLabel, decide_eq_false_iff_not] at hlost
    exact hlost rfl
  · intro h g hg l htarget d hdead
    refine Bool.eq_false_iff.2 fun hl ↦ ?_
    have hd := Line.eq_label_of_isLabel hl
    obtain ⟨p, s, heq, hafter, hstops⟩ := mem_deadLines.1 hdead
    have hlive := (mem_strip (core_ne_nil_of_target htarget)).1 hg
    rw [(stops_label hd).2 (h g l hlive htarget p d s heq hd hafter)] at hstops
    cases hstops

/-- The pass drops dead code only when the search finds the labels that matter, and, where no label
is defined twice, only then. -/
theorem sound_iff_found (entries : List (List Char)) (rows : List Row) :
    (Found entries rows → Sound entries rows) ∧
      ((∀ l, definitions l rows ≤ 1) → Sound entries rows → Found entries rows) := by
  constructor
  · intro h
    have hnone := noneLost_iff.2 h
    exact ⟨stripUnreachableAfterTerminator_text entries rows,
      sameRuns_strip (fun l hl ↦ List.mem_append_right _ hl) hnone, labelsKept_of_noneLost hnone⟩
  · intro hone h
    exact noneLost_iff.1 (noneLost_of_labelsKept hone h.labels)

end Kept

/-- A label behind a `return`, gone to by a line that compares with the text `goto `. -/
def comparesGoto : List Row :=
  let behind : Label := ⟨['2'], List.all_eq_true.1 rfl⟩
  [⟨0, .jumpIf ⟨"lstrcmpA(a1, \"goto \") == 0".toList, by decide⟩ (.goto behind)⟩,
    ⟨0, .jump (.ret ⟨⟨" 0;".toList, by decide⟩, .inl rfl, ⟨';', rfl, rfl⟩⟩)⟩,
    ⟨0, .label behind⟩,
    ⟨0, .jump (.ret ⟨⟨" 1;".toList, by decide⟩, .inl rfl, ⟨';', rfl, rfl⟩⟩)⟩]

/-- The label is lost. -/
theorem not_sound_comparesGoto : ¬Sound [] comparesGoto := by
  intro h
  have hstrip : stripRows [] comparesGoto = comparesGoto.take 2 := by
    decide +kernel
  have hlabels := h.labels
  rw [hstrip] at hlabels
  exact absurd (hlabels _ List.mem_cons_self ⟨['2'], List.all_eq_true.1 rfl⟩ rfl (by decide))
    (by decide)

/-! ### Plain bodies -/

/-- Wherever `goto` and a blank stand in the text of the line, the jump of the line stands. -/
def Line.Plain (ln : Line) : Prop :=
  ∀ pre post, ln.text = pre ++ "goto ".toList ++ post →
    ∃ l, ln.target? = some l ∧ post = l.text ++ [';']

/-- A line break is never part of `goto`. -/
theorem targets_append_of_not_infix {x : List Char} (s : List Char)
    (h : ¬"goto ".toList <:+: x) (hend : x.getLast? = some '\n' ∨ x = []) :
    targets none (x ++ s) = targets none s := by
  induction x with
  | nil => rfl
  | cons c x ih =>
    have hprefix : "goto ".toList.isPrefixOf (c :: (x ++ s)) = false := by
      rw [Bool.eq_false_iff, Ne, List.isPrefixOf_iff_prefix]
      intro hp
      rcases List.prefix_or_prefix_of_prefix hp (List.prefix_append (c :: x) s) with hp | hp
      · exact h hp.isInfix
      · have hlast := hend.resolve_right (List.cons_ne_nil c x)
        exact absurd (hp.subset (List.mem_of_getLast? hlast)) (by decide)
    rw [List.cons_append, targets, hprefix, if_neg Bool.false_ne_true]
    refine ih (fun hi ↦ h (List.infix_cons hi)) ?_
    cases x with
    | nil => exact .inr rfl
    | cons d x => exact .inl ((List.getLast?_cons_cons).symm.trans (hend.resolve_right (by simp)))

/-- The search comes to the first `goto`. -/
theorem targets_append_goto {x : List Char} (s : List Char)
    (h : ¬"goto ".toList <:+: x ++ "goto".toList) :
    targets none (x ++ "goto ".toList ++ s) = targets (some []) ("oto ".toList ++ s) := by
  induction x with
  | nil => rfl
  | cons c x ih =>
    have hprefix : "goto ".toList.isPrefixOf (c :: (x ++ "goto ".toList ++ s)) = false := by
      rw [Bool.eq_false_iff, Ne, List.isPrefixOf_iff_prefix]
      intro hp
      have hx : c :: x ++ "goto".toList <+: c :: (x ++ "goto ".toList ++ s) :=
        ⟨' ' :: s, by simp⟩
      rcases List.prefix_or_prefix_of_prefix hp hx with hp | hp
      · exact h hp.isInfix
      · have hlen : (c :: x ++ "goto".toList).length = "goto ".toList.length :=
          le_antisymm hp.length_le (by simp)
        exact h (hp.eq_of_length hlen ▸ List.infix_refl _)
    rw [List.cons_append, List.cons_append, targets, hprefix, if_neg Bool.false_ne_true]
    exact ih fun hi ↦ h (List.infix_cons hi)

/-- The search takes all up to the semicolon. -/
theorem targets_gather {seen x : List Char} (s : List Char) (h : ';' ∉ x) :
    targets (some seen) (x ++ ';' :: s) =
      (((seen ++ x).drop 4).rdropWhile isBlank) :: targets none s := by
  induction x generalizing seen with
  | nil => rw [List.nil_append, targets, if_pos rfl, List.append_nil]
  | cons c x ih =>
    rw [List.mem_cons, not_or] at h
    rw [List.cons_append, targets, if_neg (Ne.symm h.1), ih h.2, List.append_assoc]
    rfl

theorem rdropWhile_label (l : Label) : l.text.rdropWhile isBlank = l.text := by
  refine List.rdropWhile_eq_self_iff.2 fun hne hblank ↦ ?_
  have hident := Label.isIdent_of_mem (List.getLast_mem hne)
  rcases Bool.or_eq_true_iff.1 hblank with h | h <;> rw [eq_of_beq h] at hident <;> cases hident

theorem targets_label {x : List Char} {l : Label} (s : List Char)
    (h : ¬"goto ".toList <:+: x ++ "goto".toList) :
    targets none (x ++ "goto ".toList ++ (l.text ++ ';' :: s)) = l.text :: targets none s := by
  have hsemi : ';' ∉ "oto ".toList ++ l.text :=
    List.not_mem_append (by decide) fun hmem ↦ absurd (Label.isIdent_of_mem hmem) (by decide)
  rw [targets_append_goto _ h, ← List.append_assoc, targets_gather s hsemi]
  exact congrArg (· :: _) (rdropWhile_label l)

theorem targets_indent (n : ℕ) (s : List Char) :
    targets none (List.replicate n ' ' ++ s) = targets none s := by
  induction n with
  | zero => rfl
  | succ n ih => exact ih

/-- The jump of a line is the end of its text. -/
theorem Line.text_of_target {ln : Line} {l : Label} (h : ln.target? = some l) :
    ∃ pre, ln.text = pre ++ "goto ".toList ++ (l.text ++ [';']) := by
  have hjump {j : Jump} (hj : j.target? = some l) :
      j.text = "goto ".toList ++ (l.text ++ [';']) := by
    cases j with
    | goto l' =>
      cases hj
      exact List.append_assoc _ _ _
    | _ => cases hj
  cases ln with
  | jump j => exact ⟨[], hjump h⟩
  | jumpIf c j => exact ⟨_, (congrArg _ (hjump h)).trans (List.append_assoc _ _ _).symm⟩
  | caseJump n j => exact ⟨_, (congrArg _ (hjump h)).trans (List.append_assoc _ _ _).symm⟩
  | _ => cases h

theorem targets_row {r : Row} (h : r.line.Plain) (s : List Char) :
    targets none (r.text ++ s) = (r.line.target?.map Label.text).toList ++ targets none s := by
  rw [Row.text, List.append_assoc, List.append_assoc, targets_indent]
  cases htarget : r.line.target? with
  | none =>
    have hline : ¬"goto ".toList <:+: r.line.text := by
      rintro ⟨pre, post, heq⟩
      obtain ⟨l, hl, -⟩ := h pre post heq.symm
      rw [htarget] at hl
      cases hl
    rw [← List.append_assoc]
    refine targets_append_of_not_infix s (fun hi ↦ ?_) (.inl List.getLast?_concat)
    rcases List.infix_concat_iff.1 hi with ⟨t, ht⟩ | hi
    · have hlast := congrArg List.getLast? ht
      rw [List.getLast?_concat, List.getLast?_append] at hlast
      cases hlast
    · exact hline hi
  | some l =>
    obtain ⟨pre, hpre⟩ := r.line.text_of_target htarget
    have hfirst : ¬"goto ".toList <:+: pre ++ "goto".toList := by
      rintro ⟨a, b, hab⟩
      have heq : r.line.text = a ++ "goto ".toList ++ (b ++ ' ' :: (l.text ++ [';'])) := by
        rw [hpre, ← List.append_assoc (a ++ _), hab, List.append_assoc, List.append_assoc]
        rfl
      obtain ⟨l', hl', hpost⟩ := h _ _ heq
      rw [htarget] at hl'
      cases hl'
      have hlen := congrArg List.length hpost
      simp only [List.length_append, List.length_cons] at hlen
      omega
    have hrest : targets none ('\n' :: s) = targets none s := rfl
    rw [hpre, ← hrest]
    simpa using targets_label (l := l) ('\n' :: s) hfirst

/-- In a plain body the labels that are found are those that lines go to. -/
theorem referenced_of_plain {rows : List Row} (h : ∀ r ∈ rows, r.line.Plain) :
    referenced (text rows) = rows.flatMap fun r ↦ (r.line.target?.map Label.text).toList := by
  induction rows with
  | nil => rfl
  | cons r rows ih =>
    rw [List.forall_mem_cons] at h
    rw [referenced, text, List.flatMap_cons, ← text, targets_row h.1, List.flatMap_cons, ← ih h.2,
      referenced]

/-- The pass is sound on plain bodies. -/
theorem found_of_plain {rows : List Row} (h : ∀ r ∈ rows, r.line.Plain)
    (entries : List (List Char)) : Found entries rows := by
  rintro g l ⟨p, s, rfl, -⟩ htarget - - - - - -
  refine List.mem_append_left _ ?_
  rw [referenced_of_plain h, List.mem_flatMap]
  exact ⟨g, by simp, by simp [htarget]⟩

end Body

end Ldu
