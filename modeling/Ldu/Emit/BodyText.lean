import Ldu.Text.PrefixCode
import Mathlib.Data.List.DropRight

/-!
# The text of a body

The structured emitter prints a body line by line: statements, jumps, labels, the lines that open
and close a block, each indented by spaces. A `Row` is such a line; the texts it holds (statements,
conditions, comments) are those of the expressions printed there, of which only what C says is
known: a line break never stands in one, and a statement does not begin with a keyword.

The passes behind the emitter read the text again: they cut it into lines (`lines`), trim these
(`core`), and look for the labels that a `goto` names (`referenced`).
-/

namespace Ldu

namespace Body

/-! ### Rows -/

/-- The characters of an identifier. -/
def isIdent (c : Char) : Bool :=
  c.isAlphanum || c == '_'

/-- A label, `L_` and an address. -/
structure Label where
  digits : List Char
  ident : ∀ c ∈ digits, isIdent c = true
  deriving DecidableEq

def Label.text (l : Label) : List Char :=
  'L' :: '_' :: l.digits

/-- The text of an expression or of a comment. -/
structure Phrase where
  text : List Char
  oneLine : '\n' ∉ text
  deriving DecidableEq

/-- A blank, to the indentation. -/
def isBlank (c : Char) : Bool :=
  c == ' ' || c == '\t'

def isSpace (c : Char) : Bool :=
  isBlank c || c == '\r' || c == '\n'

/-- The text begins with a character that is not trimmed. -/
def Begins (s : List Char) : Prop :=
  ∃ c, s.head? = some c ∧ isSpace c = false

/-- The text ends with a character that is not trimmed. -/
def Ends (s : List Char) : Prop :=
  ∃ c, s.getLast? = some c ∧ isSpace c = false

/-- The first word of a text. -/
def firstWord (s : List Char) : List Char :=
  s.takeWhile isIdent

/-- An assignment or a call, with all that is printed on its line. -/
structure Statement extends Phrase where
  begins : Begins text
  ends : Ends text
  noJump : firstWord text ∉
    ["goto".toList, "return".toList, "break".toList, "continue".toList]
  deriving DecidableEq

/-- What stands behind `return` on its line: a blank and the value, or the semicolon. -/
structure Returned extends Phrase where
  boundary : text.head? = some ' ' ∨ text.head? = some ';'
  ends : Ends text
  deriving DecidableEq

inductive Jump
  | brk
  | cont
  | goto (l : Label)
  | ret (v : Returned)
  deriving DecidableEq

def Jump.text : Jump → List Char
  | .brk => "break;".toList
  | .cont => "continue;".toList
  | .goto l => "goto ".toList ++ l.text ++ [';']
  | .ret v => "return".toList ++ v.text

/-- The line that opens a block. -/
inductive Opener
  | cond (c : Phrase)
  | while (c : Phrase)
  | for (init c incr : Phrase)
  | do
  | switch (e : Phrase)
  deriving DecidableEq

def Opener.text : Opener → List Char
  | .cond c => "if (".toList ++ c.text ++ ") \x7b".toList
  | .while c => "while (".toList ++ c.text ++ ") \x7b".toList
  | .for i c n => "for (".toList ++ i.text ++ "; ".toList ++ c.text ++ "; ".toList ++ n.text ++
      ") \x7b".toList
  | .do => "do \x7b".toList
  | .switch e => "switch (".toList ++ e.text ++ ") \x7b".toList

inductive Line
  | blank
  | note (p : Phrase)
  | stmt (st : Statement)
  | jump (j : Jump)
  /-- `if (c) j` -/
  | jumpIf (c : Phrase) (j : Jump)
  | label (l : Label)
  | case (n : ℕ)
  /-- `case n: j` -/
  | caseJump (n : ℕ) (j : Jump)
  | default
  | opens (o : Opener)
  /-- `} else {` -/
  | orElse
  | close
  /-- `} while (c);` -/
  | closeWhile (c : Phrase)
  deriving DecidableEq

def Line.text : Line → List Char
  | .blank => []
  | .note p => "/* ".toList ++ p.text ++ " */".toList
  | .stmt st => st.text
  | .jump j => j.text
  | .jumpIf c j => "if (".toList ++ c.text ++ ") ".toList ++ j.text
  | .label l => l.text ++ ":;".toList
  | .case n => "case ".toList ++ Nat.toDigits 10 n ++ [':']
  | .caseJump n j => "case ".toList ++ Nat.toDigits 10 n ++ ": ".toList ++ j.text
  | .default => "default:".toList
  | .opens o => o.text
  | .orElse => "\x7d else \x7b".toList
  | .close => ['}']
  | .closeWhile c => "\x7d while (".toList ++ c.text ++ ");".toList

/-- A line, indented. -/
structure Row where
  indent : ℕ
  line : Line
  deriving DecidableEq

def Row.text (r : Row) : List Char :=
  List.replicate r.indent ' ' ++ r.line.text ++ ['\n']

/-- The text of a body. -/
def text (rows : List Row) : List Char :=
  rows.flatMap Row.text

/-! ### Reading the text -/

/-- A character in front of lines. -/
def consLine (c : Char) : List (List Char) → List (List Char)
  | [] => [[c]]
  | l :: ls => if c = '\n' then [c] :: l :: ls else (c :: l) :: ls

/-- The lines of a text, each with its line break. -/
def lines : List Char → List (List Char)
  | [] => []
  | c :: s => consLine c (lines s)

/-- A line without the blanks before it and the white space behind it. The source computes the
length of a line of white space alone from `npos`: only the indentation of an indented one goes. -/
def core (line : List Char) : List Char :=
  let rest := line.dropWhile isBlank
  if rest.all isSpace then
    if rest.length = line.length then [] else rest
  else rest.rdropWhile isSpace

/-- The labels of the text that stand between `goto` and the next semicolon. Once `goto` has been
seen, what follows its first letter is gathered up to the semicolon. -/
def targets : Option (List Char) → List Char → List (List Char)
  | _, [] => []
  | none, c :: s => targets (if "goto ".toList.isPrefixOf (c :: s) then some [] else none) s
  | some seen, c :: s =>
    if c = ';' then ((seen.drop 4).rdropWhile isBlank) :: targets none s
    else targets (some (seen ++ [c])) s

/-- The labels that `scan_labels` finds referenced. -/
def referenced (body : List Char) : List (List Char) :=
  targets none body

/-! ### The lines of a body are its rows -/

theorem lines_append_cons {x : List Char} (hx : '\n' ∉ x) (s : List Char) :
    lines (x ++ '\n' :: s) = (x ++ ['\n']) :: lines s := by
  induction x with
  | nil =>
    rw [List.nil_append, lines]
    cases lines s <;> rfl
  | cons c x ih =>
    rw [List.mem_cons, not_or] at hx
    rw [List.cons_append, lines, ih hx.2, consLine, if_neg (Ne.symm hx.1), List.cons_append]

theorem newline_notMem_label (l : Label) : '\n' ∉ l.text := by
  intro h
  rcases List.mem_cons.1 h with h | h
  · cases h
  rcases List.mem_cons.1 h with h | h
  · cases h
  · exact absurd (l.ident _ h) (by decide)

theorem newline_notMem_toDigits (n : ℕ) : '\n' ∉ Nat.toDigits 10 n :=
  fun h ↦ forall_mem_toDigits (p := (· ≠ '\n')) (by decide) (by decide) (by decide) n _ h rfl

theorem newline_notMem_jump (j : Jump) : '\n' ∉ j.text := by
  cases j with
  | brk | cont => decide
  | goto l =>
    exact List.not_mem_append (List.not_mem_append (by decide) (newline_notMem_label l)) (by decide)
  | ret v => exact List.not_mem_append (by decide) v.oneLine

/-- A text between two others. -/
theorem newline_notMem_between {s t u : List Char} (hs : '\n' ∉ s) (ht : '\n' ∉ t)
    (hu : '\n' ∉ u) : '\n' ∉ s ++ t ++ u :=
  List.not_mem_append (List.not_mem_append hs ht) hu

theorem newline_notMem_opener (o : Opener) : '\n' ∉ o.text := by
  cases o with
  | cond c | «while» c | switch c =>
    exact newline_notMem_between (by decide) c.oneLine (by decide)
  | «for» i c n =>
    exact newline_notMem_between (newline_notMem_between
      (newline_notMem_between (by decide) i.oneLine (by decide)) c.oneLine (by decide)) n.oneLine
      (by decide)
  | «do» => decide

theorem newline_notMem_line (ln : Line) : '\n' ∉ ln.text := by
  cases ln with
  | stmt st => exact st.oneLine
  | opens o => exact newline_notMem_opener o
  | jump j => exact newline_notMem_jump j
  | blank | default | orElse | close => decide
  | note p | closeWhile p => exact newline_notMem_between (by decide) p.oneLine (by decide)
  | jumpIf c j =>
    exact List.not_mem_append (newline_notMem_between (by decide) c.oneLine (by decide))
      (newline_notMem_jump j)
  | label l => exact List.not_mem_append (newline_notMem_label l) (by decide)
  | case n => exact newline_notMem_between (by decide) (newline_notMem_toDigits n) (by decide)
  | caseJump n j =>
    exact List.not_mem_append
      (newline_notMem_between (by decide) (newline_notMem_toDigits n) (by decide))
      (newline_notMem_jump j)

theorem lines_text (rows : List Row) : lines (text rows) = rows.map Row.text := by
  induction rows with
  | nil => rfl
  | cons r rows ih =>
    have hr : '\n' ∉ List.replicate r.indent ' ' ++ r.line.text := by
      simp [newline_notMem_line]
    rw [text, List.flatMap_cons, Row.text, List.append_assoc, List.singleton_append,
      lines_append_cons hr, ← text, ih, List.map_cons, Row.text]

theorem Begins.append {s : List Char} (h : Begins s) (t : List Char) : Begins (s ++ t) := by
  obtain ⟨c, hc, hspace⟩ := h
  exact ⟨c, by rw [List.head?_append, hc, Option.some_or], hspace⟩

theorem Ends.append {t : List Char} (h : Ends t) (s : List Char) : Ends (s ++ t) := by
  obtain ⟨c, hc, hspace⟩ := h
  exact ⟨c, by rw [List.getLast?_append, hc, Option.some_or], hspace⟩

/-- Trimming takes the indentation and the line break. -/
theorem core_append_newline {t : List Char} (hb : Begins t) (he : Ends t) (n : ℕ) :
    core (List.replicate n ' ' ++ t ++ ['\n']) = t := by
  obtain ⟨c, hc, hspace⟩ := hb
  obtain ⟨r, rfl⟩ := List.head?_eq_some_iff.1 hc
  obtain ⟨c', hc', hspace'⟩ := he
  obtain ⟨r', hr'⟩ := List.getLast?_eq_some_iff.1 hc'
  have hblank : isBlank c = false := by
    simp only [isSpace, Bool.or_eq_false_iff] at hspace
    exact hspace.1.1
  have hdrop : (List.replicate n ' ' ++ c :: r ++ ['\n']).dropWhile isBlank =
      c :: r ++ ['\n'] := by
    rw [List.append_assoc]
    induction n with
    | zero => simp [hblank]
    | succ n ih => simpa [List.replicate_succ, isBlank] using ih
  have hall : (c :: r ++ ['\n']).all isSpace = false := by simp [hspace]
  rw [core, hdrop, hall, if_neg Bool.false_ne_true,
    List.rdropWhile_concat_pos _ _ _ (by decide), hr',
    List.rdropWhile_concat_neg _ _ _ (by simp [hspace'])]

theorem begins_jump (j : Jump) : Begins j.text := by
  cases j with
  | brk => exact ⟨'b', by decide, by decide⟩
  | cont => exact ⟨'c', by decide, by decide⟩
  | goto l => exact .append (.append ⟨'g', by decide, by decide⟩ _) _
  | ret v => exact .append ⟨'r', by decide, by decide⟩ _

theorem ends_jump (j : Jump) : Ends j.text := by
  cases j with
  | brk | cont => exact ⟨';', by decide, by decide⟩
  | goto l => exact .append ⟨';', by decide, by decide⟩ _
  | ret v => exact .append v.ends _

theorem begins_line {ln : Line} (h : ln ≠ .blank) : Begins ln.text := by
  cases ln with
  | blank => exact absurd rfl h
  | stmt st => exact st.begins
  | jump j => exact begins_jump j
  | note p => exact .append (.append ⟨'/', by decide, by decide⟩ _) _
  | jumpIf c j => exact .append (.append (.append ⟨'i', by decide, by decide⟩ _) _) _
  | label l => exact .append ⟨'L', rfl, by decide⟩ _
  | case n => exact .append (.append ⟨'c', by decide, by decide⟩ _) _
  | caseJump n j => exact .append (.append (.append ⟨'c', by decide, by decide⟩ _) _) _
  | default => exact ⟨'d', by decide, by decide⟩
  | orElse | close => exact ⟨'}', by decide, by decide⟩
  | closeWhile c => exact .append (.append ⟨'}', by decide, by decide⟩ _) _
  | opens o =>
    cases o with
    | cond c => exact .append (.append ⟨'i', by decide, by decide⟩ _) _
    | «while» c => exact .append (.append ⟨'w', by decide, by decide⟩ _) _
    | «for» i c n =>
      exact .append (.append (.append (.append (.append (.append ⟨'f', by decide, by decide⟩ _)
        _) _) _) _) _
    | «do» => exact ⟨'d', by decide, by decide⟩
    | switch e => exact .append (.append ⟨'s', by decide, by decide⟩ _) _

theorem ends_line {ln : Line} (h : ln ≠ .blank) : Ends ln.text := by
  cases ln with
  | blank => exact absurd rfl h
  | stmt st => exact st.ends
  | jump j => exact ends_jump j
  | note p => exact .append ⟨'/', by decide, by decide⟩ _
  | jumpIf c j => exact .append (ends_jump j) _
  | label l => exact .append ⟨';', by decide, by decide⟩ _
  | case n => exact .append ⟨':', by decide, by decide⟩ _
  | caseJump n j => exact .append (ends_jump j) _
  | default => exact ⟨':', by decide, by decide⟩
  | orElse => exact ⟨'{', by decide, by decide⟩
  | close => exact ⟨'}', by decide, by decide⟩
  | closeWhile c => exact .append ⟨';', by decide, by decide⟩ _
  | opens o =>
    cases o with
    | «do» => exact ⟨'{', by decide, by decide⟩
    | _ => exact .append ⟨'{', by decide, by decide⟩ _

/-- The text of a row that is not blank, trimmed, is that of its line. -/
theorem core_row {r : Row} (h : r.line ≠ .blank) : core r.text = r.line.text :=
  core_append_newline (begins_line h) (ends_line h) r.indent

/-- A blank row is trimmed to nothing or to its line break. -/
theorem core_blank {r : Row} (h : r.line = .blank) : core r.text = [] ∨ core r.text = ['\n'] := by
  have hblanks (n : ℕ) : (List.replicate n ' ' ++ ['\n']).dropWhile isBlank = ['\n'] := by
    induction n with
    | zero => rfl
    | succ n ih => simpa [List.replicate_succ, isBlank] using ih
  have hline : r.line.text = [] := congrArg Line.text h
  have hdrop : r.text.dropWhile isBlank = ['\n'] := by
    rw [Row.text, hline, List.append_nil, hblanks]
  rw [core, hdrop]
  split
  · split
    · exact .inl rfl
    · exact .inr rfl
  · next hspace => exact absurd rfl hspace

end Body

end Ldu
