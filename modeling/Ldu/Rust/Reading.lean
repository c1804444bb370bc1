import Ldu.Rust.Returns
import Ldu.Text.Numerals

/-!
# Reading phrases of v0 symbols

What the parser does where the text of a phrase stands at the cursor. The depth is the only limit:
within it a phrase is read and its text returned, and beyond it the parser fails (`Reads`).
Sequences and functions have one rule each (`Reads.bind`, `Reads.counted`, `Reads.call`,
`Reads.backref`). What follows a phrase that fails returns and does not forget the error (`Broken`).
-/

namespace Ldu

namespace Rust

open Attempt

/-! ### Numbers and identifiers -/

/-- A number to base 62: nothing stands for `0`, and the digits of `n` for `n + 1`. -/
structure Number where
  digits : List Char
  isDigit : ∀ c ∈ digits, (base62Digit c).isSome = true

namespace Number

def text (n : Number) : List Char :=
  n.digits ++ ['_']

def value (n : Number) : ℕ :=
  if n.digits = [] then 0
  else n.digits.foldl (fun v c ↦ v * 62 + (base62Digit c).getD 0) 0 + 1

end Number

/-- An identifier; an underscore stands between its length and a name that begins with a digit or
an underscore, and may stand there anyway. -/
structure Ident where
  puny : Bool
  sep : Bool
  name : List Char
  sep_of_head : ∀ c ∈ name.head?, c.isDigit = true ∨ c = '_' → sep = true

namespace Ident

def text (i : Ident) : List Char :=
  (if i.puny then ['u'] else []) ++
    (Nat.toDigits 10 i.name.length ++ ((if i.sep then ['_'] else []) ++ i.name))

def display (i : Ident) : String :=
  if i.puny then String.ofList i.name ++ "\x7bpunycode\x7d" else String.ofList i.name

end Ident

/-- A number behind the character `c`, if there is one. -/
def taggedText (c : Char) : Option Number → List Char
  | some n => c :: n.text
  | none => []

/-! ### Texts at positions -/

section Texts

variable {s : List Char} {p d : ℕ}

theorem cons_prefix_drop {c : Char} {cs : List Char} :
    c :: cs <+: s.drop p ↔ s[p]? = some c ∧ cs <+: s.drop (p + 1) := by
  rcases lt_or_ge p s.length with hlt | hle
  · rw [List.drop_eq_getElem_cons hlt, List.cons_prefix_cons, List.getElem?_eq_getElem hlt,
      Option.some.injEq, eq_comm]
  · rw [List.drop_eq_nil_of_le hle, List.getElem?_eq_none hle]
    simp

theorem append_prefix_drop {cs cs' : List Char} :
    cs ++ cs' <+: s.drop p ↔ cs <+: s.drop p ∧ cs' <+: s.drop (p + cs.length) := by
  constructor
  · intro h
    have hcs := (List.prefix_append cs cs').trans h
    refine ⟨hcs, ?_⟩
    obtain ⟨r, hr⟩ := h
    refine ⟨r, ?_⟩
    rw [← List.drop_drop, ← hr, List.append_assoc, List.drop_left]
  · rintro ⟨⟨r, hr⟩, ⟨r', hr'⟩⟩
    refine ⟨r', ?_⟩
    rw [← List.drop_drop, ← hr, List.drop_left] at hr'
    rw [List.append_assoc, hr', hr]

/-- The text stands in the input from `p` to `q`. -/
def Spans (s : List Char) (p : ℕ) (cs : List Char) (q : ℕ) : Prop :=
  cs <+: s.drop p ∧ q = p + cs.length

theorem spans_nil {q : ℕ} : Spans s p [] q ↔ q = p :=
  and_iff_right (List.nil_prefix)

theorem spans_cons {c : Char} {cs : List Char} {q : ℕ} :
    Spans s p (c :: cs) q ↔ s[p]? = some c ∧ Spans s (p + 1) cs q := by
  rw [Spans, Spans, cons_prefix_drop, List.length_cons, and_assoc, Nat.add_assoc, Nat.add_comm 1]

theorem spans_append {cs cs' : List Char} {q : ℕ} :
    Spans s p (cs ++ cs') q ↔ ∃ m, Spans s p cs m ∧ Spans s m cs' q := by
  rw [Spans, append_prefix_drop, List.length_append, ← Nat.add_assoc]
  refine ⟨fun h ↦ ⟨_, ⟨h.1.1, rfl⟩, h.1.2, h.2⟩, ?_⟩
  rintro ⟨_, ⟨h, rfl⟩, h', hq⟩
  exact ⟨⟨h, h'⟩, hq⟩

theorem charAt_of_some {c : Char} (h : s[p]? = some c) : charAt s p = c := by
  rw [charAt, h, Option.getD_some]

theorem lt_of_prefix_drop {cs : List Char} (hne : cs ≠ []) (h : cs <+: s.drop p) :
    p < s.length := by
  by_contra hle
  rw [List.drop_eq_nil_of_le (not_lt.1 hle), List.prefix_nil] at h
  exact hne h

/-- A text that stands in the input ends in it. -/
theorem length_le_of_prefix_drop {cs : List Char} (hne : cs ≠ []) (h : cs <+: s.drop p) :
    p + cs.length ≤ s.length := by
  have := lt_of_prefix_drop hne h
  have := h.length_le
  rw [List.length_drop] at this
  omega

/-- The characters of a text that satisfy `f` are taken, up to one that does not. -/
theorem takeWhile_drop_of_prefix {f : Char → Bool} {cs : List Char} (h : cs <+: s.drop p)
    (hcs : ∀ c ∈ cs, f c = true) (hend : ∀ c ∈ s[p + cs.length]?, f c = false) :
    (s.drop p).takeWhile f = cs := by
  obtain ⟨r, hr⟩ := h
  have hhead : s[p + cs.length]? = r.head? := by
    rw [← List.getElem?_drop, ← hr, List.getElem?_append_right le_rfl, Nat.sub_self,
      List.head?_eq_getElem?]
  rw [hhead] at hend
  rw [← hr, List.takeWhile_append_of_pos hcs]
  cases r with
  | nil => simp
  | cons c r => simp [hend c rfl]

end Texts

/-! ### Behind an error -/

section Broken

variable {w : Watch} {s : List Char} {α β : Type}

/-- The computation returns, and the error is not forgotten. -/
def Fails (x : ℕ → Parse α) (st : V0) : Prop :=
  ∃ a st', Settles x st (.ok (a, st')) ∧ st'.err = true

/-- Behind an error the computation returns, with the cursor where it was or further. -/
def Broken (x : ℕ → Parse α) : Prop :=
  ∀ st, st.err = true → ∃ a st', Settles x st (.ok (a, st')) ∧ st'.err = true ∧ st.pos ≤ st'.pos

theorem settles_of_eq {x : ℕ → Parse α} {st : V0} {r : Except Stop (α × V0)}
    (h : ∀ n, x n st = r) : Settles x st r :=
  ⟨0, fun n _ ↦ h n⟩

theorem settles_bind {x : ℕ → Parse α} {f : ℕ → α → Parse β} {st st' : V0} {a : α}
    {r : Except Stop (β × V0)} (hx : Settles x st (.ok (a, st')))
    (hf : Settles (fun n ↦ f n a) st' r) : Settles (fun n ↦ x n >>= f n) st r := by
  obtain ⟨n, hn⟩ := hx
  obtain ⟨m, hm⟩ := hf
  exact ⟨max n m, fun k hk ↦ (bind_of_ok (hn k (le_trans (le_max_left n m) hk)) _).trans
    (hm k (le_trans (le_max_right n m) hk))⟩

/-- The functions spend one unit of fuel. -/
theorem settles_of_succ {x : ℕ → Parse α} {st : V0} {r : Except Stop (α × V0)}
    (h : Settles (fun n ↦ x (n + 1)) st r) : Settles x st r := by
  obtain ⟨n, hn⟩ := h
  refine ⟨n + 1, fun m hm ↦ ?_⟩
  obtain ⟨k, rfl⟩ := Nat.exists_eq_add_of_le' hm
  exact hn (k + n) (by omega)

theorem Broken.bind {x : ℕ → Parse α} {f : ℕ → α → Parse β} (hx : Broken x)
    (hf : ∀ a, Broken fun n ↦ f n a) : Broken fun n ↦ x n >>= f n := by
  intro st herr
  obtain ⟨a, st₁, h₁, herr₁, hpos₁⟩ := hx st herr
  obtain ⟨b, st₂, h₂, herr₂, hpos₂⟩ := hf a st₁ herr₁
  exact ⟨b, st₂, settles_bind h₁ h₂, herr₂, hpos₁.trans hpos₂⟩

theorem Broken.ite {p : Prop} [Decidable p] {x y : ℕ → Parse α} (hx : Broken x) (hy : Broken y) :
    Broken fun n ↦ if p then x n else y n := by
  split
  · exact hx
  · exact hy

/-- A computation without fuel that does nothing worse than move the cursor on. -/
theorem broken_of_eq {x : Parse α} (h : ∀ st, st.err = true →
    ∃ a st', x st = .ok (a, st') ∧ st'.err = true ∧ st.pos ≤ st'.pos) : Broken fun _ ↦ x := by
  intro st herr
  obtain ⟨a, st', hx, herr', hpos⟩ := h st herr
  exact ⟨a, st', settles_of_eq fun _ ↦ hx, herr', hpos⟩

theorem broken_pure (a : α) : Broken fun _ ↦ (pure a : Parse α) :=
  broken_of_eq fun st herr ↦ ⟨a, st, rfl, herr, le_rfl⟩

theorem broken_fail : Broken fun _ ↦ fail :=
  broken_of_eq fun st _ ↦ ⟨(), { st with err := true }, rfl, rfl, le_rfl⟩

theorem broken_advance : Broken fun _ ↦ advance :=
  broken_of_eq fun st herr ↦ ⟨(), { st with pos := st.pos + 1 }, rfl, herr, Nat.le_succ _⟩

theorem broken_takeWhile (f : Char → Bool) : Broken fun _ ↦ takeWhile s f :=
  broken_of_eq fun _ herr ↦ ⟨_, _, rfl, herr, Nat.le_add_right _ _⟩

theorem broken_eat (c : Char) : Broken fun _ ↦ eat s c := by
  refine broken_of_eq fun st herr ↦ ?_
  by_cases h : charAt s st.pos = c
  · exact ⟨_, _, (eat_eq s c st).trans (if_pos h), herr, Nat.le_succ _⟩
  · exact ⟨_, _, (eat_eq s c st).trans (if_neg h), herr, le_rfl⟩

theorem broken_base62 : Broken fun _ ↦ base62 s :=
  (broken_eat _).bind fun _ ↦ (broken_pure _).ite <| (broken_takeWhile _).bind fun _ ↦
    (broken_eat _).bind fun _ ↦ (broken_pure _).ite <| broken_fail.bind fun _ ↦ broken_pure _

theorem broken_tagged (c : Char) : Broken fun _ ↦ tagged s c :=
  (broken_eat _).bind fun _ ↦ (broken_base62.bind fun _ ↦ broken_pure _).ite (broken_pure _)

theorem broken_decimal : Broken fun _ ↦ decimal s := by
  have hpeek : Broken fun _ ↦ peek s := broken_of_eq fun st herr ↦ ⟨_, st, rfl, herr, le_rfl⟩
  exact hpeek.bind fun _ ↦ (broken_fail.bind fun _ ↦ broken_pure _).ite <|
    (broken_advance.bind fun _ ↦ broken_pure _).ite <|
    (broken_takeWhile _).bind fun _ ↦ broken_pure _

theorem broken_ident : Broken fun _ ↦ ident w s := by
  refine (broken_eat _).bind fun puny ↦ broken_decimal.bind fun len ↦ (broken_eat _).bind fun _ ↦
    broken_of_eq fun st herr ↦ ⟨"", { st with err := true }, ?_, rfl, le_rfl⟩
  rw [bind_of_ok (rfl : get st = .ok (st, st))]
  exact congrFun (if_pos (.inl herr)) st

theorem broken_backref (x : ℕ → Parse String) : Broken fun n ↦ backref s (x n) := by
  refine broken_base62.bind fun off st herr ↦
    ⟨"", { st with err := true }, settles_of_eq fun n ↦ ?_, rfl, le_rfl⟩
  rw [bind_of_ok (rfl : get st = .ok (st, st))]
  exact congrFun (if_pos (.inl herr)) st

theorem broken_counted (x : ℕ → Parse String) : Broken fun n ↦ counted (x n) := fun st herr ↦
  ⟨"", st, settles_of_eq fun _ ↦ counted_of_err herr, herr, le_rfl⟩

/-- A call does what the body of the function does. -/
theorem settles_call {c : Call} {st : V0} {r : Except Stop (String × V0)}
    (hstop : ¬(c = .constant ∧ st.err = false ∧ w.cycle st.pos = true))
    (h : Settles (fun n ↦ body w s (call w s n) c) st r) : Settles (fun n ↦ call w s n c) st r := by
  refine settles_of_succ ?_
  obtain ⟨n, hn⟩ := h
  exact ⟨n, fun m hm ↦ (call_of_not_stops hstop).trans (hn m hm)⟩

theorem broken_call_of_body {c : Call} (h : Broken fun n ↦ body w s (call w s n) c) :
    Broken fun n ↦ call w s n c := by
  intro st herr
  obtain ⟨a, st', hx, herr', hpos⟩ := h st herr
  exact ⟨a, st', settles_call (by simp [herr]) hx, herr', hpos⟩

theorem broken_path : Broken fun n ↦ call w s n .path :=
  broken_call_of_body (broken_counted _)

theorem broken_type : Broken fun n ↦ call w s n .type :=
  broken_call_of_body (broken_counted _)

theorem broken_elements (first : Bool) (sep : String) (x y : ℕ → Parse String) :
    Broken fun n ↦ elements s first sep (x n) (y n) := fun st herr ↦
  ⟨"", st, settles_of_eq fun _ ↦ (elements_eq st).trans (if_pos (.inr herr)), herr, le_rfl⟩

theorem broken_constant : Broken fun n ↦ call w s n .constant :=
  broken_call_of_body <| (broken_eat _).bind fun _ ↦ (broken_backref _).ite <|
    broken_type.bind fun _ ↦ (broken_eat _).bind fun _ ↦ (broken_pure _).ite <|
    (broken_eat _).bind fun _ ↦ (broken_takeWhile _).bind fun _ ↦ (broken_eat _).bind fun _ ↦
    broken_pure _

theorem broken_list (first : Bool) : (Broken fun n ↦ call w s n (.genericArgs first)) ∧
    (Broken fun n ↦ call w s n (.types first)) ∧ Broken fun n ↦ call w s n (.traits first) :=
  ⟨broken_call_of_body (broken_elements _ _ _ _), broken_call_of_body (broken_elements _ _ _ _),
    broken_call_of_body (broken_elements _ _ _ _)⟩

/-- The only loop that goes on behind an error takes a character in every round. -/
theorem broken_bindings : Broken fun n ↦ call w s n .bindings := by
  intro st herr
  induction hk : s.length - st.pos using Nat.strongRecOn generalizing st with
  | ind k ih =>
    have hstop : ¬(Call.bindings = .constant ∧ st.err = false ∧ w.cycle st.pos = true) := by
      simp [herr]
    by_cases h : charAt s st.pos = 'p'
    · have hlt := lt_of_charAt h (by decide)
      obtain ⟨id, st₁, h₁, herr₁, hpos₁⟩ :=
        broken_ident (w := w) (s := s) { st with pos := st.pos + 1 } herr
      obtain ⟨t, st₂, h₂, herr₂, hpos₂⟩ := broken_type (w := w) (s := s) st₁ herr₁
      have hpos : st.pos + 1 ≤ st₂.pos := hpos₁.trans hpos₂
      obtain ⟨bs, st₃, h₃, herr₃, hpos₃⟩ := ih _ (by omega) st₂ herr₂ rfl
      refine ⟨bs, st₃, settles_call hstop ?_, herr₃, by omega⟩
      exact settles_bind (settles_of_eq fun _ ↦ (eat_eq s 'p' st).trans (if_pos h))
        (settles_bind h₁ (settles_bind h₂ h₃))
    · refine ⟨"", st, settles_call hstop ?_, herr, le_rfl⟩
      exact settles_of_eq fun _ ↦ bind_of_ok ((eat_eq s 'p' st).trans (if_neg h)) _

end Broken

/-! ### Reading up to the limit of the depth -/

section Reads

variable {s : List Char} {α β : Type} {p d h h' m q : ℕ}

/-- From `p` on the computation reads up to `q` and returns `a`, at the same depth, if that and `h`
more are within the limit; otherwise it fails. -/
def Reads (x : ℕ → Parse α) (p d h q : ℕ) (a : α) : Prop :=
  d ≤ 200 → if d + h ≤ 200 then Settles x ⟨p, false, d⟩ (.ok (a, ⟨q, false, d⟩))
    else Fails x ⟨p, false, d⟩

theorem reads_of_eq {x : Parse α} {a : α} (hx : x ⟨p, false, d⟩ = .ok (a, ⟨q, false, d⟩)) :
    Reads (fun _ ↦ x) p d 0 q a := by
  intro hd
  rw [if_pos (show d + 0 ≤ 200 from hd)]
  exact settles_of_eq fun _ ↦ hx

/-- A computation that goes as another one does. -/
theorem Reads.imp {x : ℕ → Parse α} {y : ℕ → Parse β} {a : α} {b : β} {p' q' : ℕ}
    (hx : Reads x p' d h q' a)
    (hok : Settles x ⟨p', false, d⟩ (.ok (a, ⟨q', false, d⟩)) →
      Settles y ⟨p, false, d⟩ (.ok (b, ⟨q, false, d⟩)))
    (hfail : Fails x ⟨p', false, d⟩ → Fails y ⟨p, false, d⟩) : Reads y p d h q b := by
  intro hd
  have hx := hx hd
  split at hx
  · next hle =>
    rw [if_pos hle]
    exact hok hx
  · next hle =>
    rw [if_neg hle]
    exact hfail hx

theorem Reads.of_run {x y : ℕ → Parse α} {a : α} (hx : Reads x p d h q a)
    (hxy : ∀ n, y n ⟨p, false, d⟩ = x n ⟨p, false, d⟩) : Reads y p d h q a := by
  refine hx.imp ?_ ?_
  · rintro ⟨n, hn⟩
    exact ⟨n, fun m hm ↦ (hxy m).trans (hn m hm)⟩
  · rintro ⟨a, st, ⟨n, hn⟩, herr⟩
    exact ⟨a, st, ⟨n, fun m hm ↦ (hxy m).trans (hn m hm)⟩, herr⟩

theorem reads_pure (a : α) (hq : q = p) : Reads (fun _ ↦ (pure a : Parse α)) p d 0 q a := by
  subst hq
  exact reads_of_eq rfl

/-- What follows a computation without fuel that has returned. -/
theorem Reads.after {x : Parse α} {f : ℕ → α → Parse β} {a : α} {b : β}
    (hx : x ⟨p, false, d⟩ = .ok (a, ⟨m, false, d⟩)) (hf : Reads (fun n ↦ f n a) m d h q b) :
    Reads (fun n ↦ x >>= f n) p d h q b := by
  refine hf.imp (settles_bind (settles_of_eq fun _ ↦ hx)) ?_
  rintro ⟨b, st, hset, herr⟩
  exact ⟨b, st, settles_bind (settles_of_eq fun _ ↦ hx) hset, herr⟩

theorem Reads.bind {x : ℕ → Parse α} {f : ℕ → α → Parse β} {a : α} {b : β}
    (hx : Reads x p d h m a) (hbroken : ∀ a, Broken fun n ↦ f n a)
    (hf : Reads (fun n ↦ f n a) m d h' q b) :
    Reads (fun n ↦ x n >>= f n) p d (max h h') q b := by
  intro hd
  have hx := hx hd
  have hf := hf hd
  split at hx
  · next hle =>
    split at hf
    · next hle' =>
      rw [if_pos (by omega)]
      exact settles_bind hx hf
    · next hle' =>
      rw [if_neg (by omega)]
      obtain ⟨b, st, hset, herr⟩ := hf
      exact ⟨b, st, settles_bind hx hset, herr⟩
  · next hle =>
    rw [if_neg (by omega)]
    obtain ⟨a', st, hset, herr⟩ := hx
    obtain ⟨b, st', hset', herr', -⟩ := hbroken a' st herr
    exact ⟨b, st', settles_bind hset hset', herr'⟩

/-- A sequence whose second part goes no deeper. -/
theorem Reads.bind_flat {x : ℕ → Parse α} {f : ℕ → α → Parse β} {a : α} {b : β}
    (hx : Reads x p d h m a) (hbroken : ∀ a, Broken fun n ↦ f n a)
    (hf : Reads (fun n ↦ f n a) m d 0 q b) : Reads (fun n ↦ x n >>= f n) p d h q b := by
  have hbind := hx.bind hbroken hf
  rwa [Nat.max_zero] at hbind

/-- A sequence that ends in a value. -/
theorem Reads.map {x : ℕ → Parse α} {f : α → β} {a : α} (hx : Reads x p d h q a) :
    Reads (fun n ↦ x n >>= fun a ↦ pure (f a)) p d h q (f a) :=
  hx.bind_flat (fun _ ↦ broken_pure _) (reads_pure _ rfl)

/-- A computation behind which the cursor is moved. -/
theorem Reads.moveTo {x : ℕ → Parse α} {a : α} (hx : Reads x p d h m a) :
    Reads (fun n ↦ do
      let a ← x n
      Rust.moveTo q
      pure a) p d h q a := by
  refine hx.imp (fun hx ↦ settles_bind hx (settles_of_eq fun _ ↦ rfl)) ?_
  rintro ⟨a, st, hset, herr⟩
  exact ⟨a, { st with pos := q }, settles_bind hset (settles_of_eq fun _ ↦ rfl), herr⟩

theorem Reads.counted {x : ℕ → Parse String} {a : String} (hx : Reads x p (d + 1) h q a) :
    Reads (fun n ↦ counted (x n)) p d (h + 1) q a := by
  intro hd
  rcases hd.lt_or_eq with hlt | rfl
  · have hx := hx hlt
    have hcounted (n : ℕ) : Rust.counted (x n) ⟨p, false, d⟩ = _ := counted_of_lt rfl hlt
    split at hx
    · next hle =>
      rw [if_pos (by omega)]
      obtain ⟨n, hn⟩ := hx
      exact ⟨n, fun m hm ↦ (hcounted m).trans (bind_of_ok (hn m hm) _)⟩
    · next hle =>
      rw [if_neg (by omega)]
      obtain ⟨a, st, ⟨n, hn⟩, herr⟩ := hx
      exact ⟨a, ⟨st.pos, st.err, st.depth - 1⟩,
        ⟨n, fun m hm ↦ (hcounted m).trans (bind_of_ok (hn m hm) _)⟩, herr⟩
  · rw [if_neg (by omega)]
    exact ⟨"", ⟨p, true, 200 + 1⟩, settles_of_eq fun n ↦ counted_of_le rfl le_rfl, rfl⟩

theorem Reads.call {c : Call} {a : String}
    (hx : Reads (fun n ↦ body .none s (Rust.call .none s n) c) p d h q a) :
    Reads (fun n ↦ Rust.call .none s n c) p d h q a := by
  have hstop : ¬(c = .constant ∧ false = false ∧ Watch.none.cycle p = true) := fun h ↦ by
    cases h.2.2
  refine hx.imp (settles_call hstop) ?_
  rintro ⟨a, st, hset, herr⟩
  exact ⟨a, st, settles_call hstop hset, herr⟩

end Reads

/-! ### Characters, numbers and identifiers -/

section Leaves

variable {s : List Char} {p d : ℕ}

theorem eat_of_eq {c : Char} (h : charAt s p = c) :
    eat s c ⟨p, false, d⟩ = .ok (true, ⟨p + 1, false, d⟩) :=
  (eat_eq s c _).trans (if_pos h)

theorem eat_of_ne {c : Char} (h : charAt s p ≠ c) :
    eat s c ⟨p, false, d⟩ = .ok (false, ⟨p, false, d⟩) :=
  (eat_eq s c _).trans (if_neg h)

theorem eat_optional {c : Char} {b : Bool} (h : (if b then [c] else []) <+: s.drop p)
    (hnot : b = false → charAt s p ≠ c) :
    eat s c ⟨p, false, d⟩ = .ok (b, ⟨p + (if b then [c] else []).length, false, d⟩) := by
  cases b with
  | false => exact eat_of_ne (hnot rfl)
  | true => exact eat_of_eq (charAt_of_some (cons_prefix_drop.1 h).1)

/-- Wrapping around at every digit is wrapping around in the end. -/
theorem foldl_wrap (b : ℕ) (f : Char → ℕ) (cs : List Char) (v : ℕ) :
    cs.foldl (fun v c ↦ wrap (v * b + f c)) (wrap v) =
      wrap (cs.foldl (fun v c ↦ v * b + f c) v) := by
  induction cs generalizing v with
  | nil => rfl
  | cons c cs ih =>
    have hstep : wrap (wrap v * b + f c) = wrap (v * b + f c) := by
      simp only [wrap, Nat.add_mod, Nat.mul_mod, Nat.mod_mod]
    rw [List.foldl_cons, List.foldl_cons, hstep, ih]

theorem base62_of_text {n : Number} (h : n.text <+: s.drop p) :
    base62 s ⟨p, false, d⟩ = .ok (wrap n.value, ⟨p + n.text.length, false, d⟩) := by
  obtain ⟨hdigits, hend⟩ := append_prefix_drop.1 h
  have hsep : charAt s (p + n.digits.length) = '_' := charAt_of_some (cons_prefix_drop.1 hend).1
  rw [base62_eq, base62At, Number.text, List.length_append, List.length_singleton, Number.value]
  rcases hn : n.digits with _ | ⟨c, cs⟩
  · rw [hn] at hsep
    rw [if_pos (by exact hsep), if_pos rfl]
    rfl
  · have hc : (base62Digit c).isSome = true := n.isDigit c (by simp [hn])
    have hne : charAt s p ≠ '_' := by
      rw [hn] at hdigits
      rw [charAt_of_some (cons_prefix_drop.1 hdigits).1]
      rintro rfl
      cases hc
    have htake : (s.drop p).takeWhile (base62Digit · |>.isSome) = c :: cs := by
      rw [← hn]
      refine takeWhile_drop_of_prefix hdigits n.isDigit ?_
      rw [(cons_prefix_drop.1 hend).1]
      intro c hc
      cases hc
      rfl
    have hzero : wrap 0 = 0 := rfl
    have hwrap (v : ℕ) : wrap (wrap v + 1) = wrap (v + 1) := by
      simp only [wrap, Nat.add_mod, Nat.mod_mod]
    rw [hn] at hsep
    simp only [if_neg hne, htake, if_pos hsep, if_neg (List.cons_ne_nil c cs)]
    rw [← hzero, foldl_wrap, hwrap, hzero]
    rfl

/-- A number behind a character is read where it stands, and no other character is taken. -/
theorem tagged_of_text {c : Char} {o : Option Number} (h : taggedText c o <+: s.drop p)
    (hnone : charAt s (p + (taggedText c o).length) ≠ c ∨ o.isSome = true) :
    tagged s c ⟨p, false, d⟩ = .ok ((), ⟨p + (taggedText c o).length, false, d⟩) := by
  cases o with
  | none =>
    have hne := hnone.resolve_right (by simp)
    exact bind_of_ok (eat_of_ne hne) _
  | some n =>
    obtain ⟨hc, hn⟩ := cons_prefix_drop.1 h
    refine (bind_of_ok (eat_of_eq (charAt_of_some hc)) _).trans ?_
    refine (bind_of_ok (base62_of_text hn) _).trans ?_
    simp only [taggedText, List.length_cons, Nat.add_assoc, Nat.add_comm 1]
    rfl

theorem peek_of_eq {c : Char} (h : charAt s p = c) :
    peek s ⟨p, false, d⟩ = .ok (c, ⟨p, false, d⟩) := by
  rw [← h]
  rfl

theorem decimalValue_toDigits {n : ℕ} (hn : n < 2 ^ 64) :
    decimalValue (Nat.toDigits 10 n) = n := by
  have h := foldl_wrap 10 digit (Nat.toDigits 10 n) 0
  have hdigits : (Nat.toDigits 10 n).foldl (fun v c ↦ v * 10 + digit c) 0 = n := by
    have hof : Nat.ofDigitChars 10 (Nat.toDigits 10 n) 0 = n := Nat.ofDigitChars_ten_toDigits
    rw [Nat.ofDigitChars_eq_foldl] at hof
    simpa only [Nat.mul_comm, digit] using hof
  rw [hdigits] at h
  exact h.trans (Nat.mod_eq_of_lt hn)

/-- A length is read up to a character that is no digit, or none if it is zero. -/
theorem decimal_of_text {n : ℕ} (hn : n < 2 ^ 64) (h : Nat.toDigits 10 n <+: s.drop p)
    (hend : 0 < n → ∀ c ∈ s[p + (Nat.toDigits 10 n).length]?, c.isDigit = false) :
    decimal s ⟨p, false, d⟩ = .ok (n, ⟨p + (Nat.toDigits 10 n).length, false, d⟩) := by
  rcases Nat.eq_zero_or_pos n with rfl | hpos
  · have hzero : charAt s p = '0' := charAt_of_some (cons_prefix_drop.1 h).1
    refine (bind_of_ok (peek_of_eq hzero) _).trans ?_
    rw [if_neg (by decide), if_pos rfl]
    rfl
  · obtain ⟨c, cs, hcs, hne, -⟩ :=
      toDigits_eq_cons_of_pos (b := 10) (by decide) (by decide) hpos
    have hdigits (c : Char) (hc : c ∈ Nat.toDigits 10 n) : c.isDigit = true :=
      Nat.isDigit_of_mem_toDigits (by decide) (by decide) hc
    have hat : charAt s p = c := by
      rw [hcs] at h
      exact charAt_of_some (cons_prefix_drop.1 h).1
    have htake := takeWhile_drop_of_prefix h hdigits (hend hpos)
    have hc : c.isDigit = true := hdigits c (by rw [hcs]; exact List.mem_cons_self)
    refine (bind_of_ok (peek_of_eq hat) _).trans ?_
    rw [if_neg (by simp [hc]), if_neg hne]
    refine (bind_of_ok (rfl : takeWhile s Char.isDigit ⟨p, false, d⟩ = _) _).trans ?_
    dsimp only
    rw [htake, decimalValue_toDigits hn]
    rfl

/-- The character behind the length of an identifier. -/
theorem Ident.behind_length {id : Ident} {q : ℕ}
    (h : (if id.sep then ['_'] else []) ++ id.name <+: s.drop q) (hpos : 0 < id.name.length) :
    ∀ c ∈ s[q]?, c.isDigit = false := by
  intro c hc
  rcases hsep : id.sep with - | -
  · rw [hsep, if_neg (by decide), List.nil_append] at h
    rcases hname : id.name with _ | ⟨c', cs⟩
    · rw [hname] at hpos
      cases hpos
    · rw [hname] at h
      have hmem : c' = c := Option.some.inj ((cons_prefix_drop.1 h).1.symm.trans hc)
      by_contra hdigit
      have hhead := id.sep_of_head c (by rw [hname, hmem]; rfl)
        (.inl (by simpa using hdigit))
      rw [hsep] at hhead
      cases hhead
  · rw [hsep, if_pos rfl] at h
    cases (cons_prefix_drop.1 h).1.symm.trans hc
    rfl

theorem Ident.isDigit_head {id : Ident} (h : id.text <+: s.drop p) (hpuny : id.puny = false) :
    (charAt s p).isDigit = true := by
  rw [Ident.text, hpuny, if_neg (by decide), List.nil_append] at h
  have hdigits := (append_prefix_drop.1 h).1
  cases hs : Nat.toDigits 10 id.name.length with
  | nil => exact absurd hs Nat.toDigits_ne_nil
  | cons c cs =>
    rw [hs] at hdigits
    rw [charAt_of_some (cons_prefix_drop.1 hdigits).1]
    exact Nat.isDigit_of_mem_toDigits (b := 10) (n := id.name.length) (by decide) (by decide)
      (by rw [hs]; exact List.mem_cons_self)

/-- An identifier begins with a digit or a `u`. -/
theorem Ident.head {id : Ident} (h : id.text <+: s.drop p) :
    (charAt s p).isDigit = true ∨ charAt s p = 'u' := by
  rcases hpuny : id.puny with - | -
  · exact .inl (Ident.isDigit_head h hpuny)
  · rw [Ident.text, hpuny, if_pos rfl] at h
    exact .inr (charAt_of_some (cons_prefix_drop.1 h).1)

theorem Ident.head_ne {id : Ident} {c : Char} (h : id.text <+: s.drop p) (hc : c.isDigit = false)
    (hu : c ≠ 'u') : charAt s p ≠ c := by
  rintro rfl
  rcases Ident.head h with hdigit | hu'
  · rw [hdigit] at hc
    cases hc
  · exact hu hu'

theorem Ident.behind_length_of_not_sep {id : Ident} {q : ℕ}
    (h : (if id.sep then ['_'] else []) ++ id.name <+: s.drop q)
    (hend : charAt s (q + ((if id.sep then ['_'] else []) ++ id.name).length) ≠ '_')
    (hsep : id.sep = false) : charAt s q ≠ '_' := by
  rw [hsep, if_neg (by decide), List.nil_append] at h hend
  rcases hname : id.name with _ | ⟨c, cs⟩
  · rw [hname] at hend
    exact hend
  · rw [hname] at h
    rw [charAt_of_some (cons_prefix_drop.1 h).1]
    intro hc
    have hhead := id.sep_of_head c (by rw [hname]; rfl) (.inr hc)
    rw [hsep] at hhead
    cases hhead

theorem ident_of_text {id : Ident} (hlen : s.length < 2 ^ 64) (h : id.text <+: s.drop p)
    (hend : charAt s (p + id.text.length) ≠ '_') :
    ident .none s ⟨p, false, d⟩ = .ok (id.display, ⟨p + id.text.length, false, d⟩) := by
  obtain ⟨hpuny, hrest⟩ := append_prefix_drop.1 h
  obtain ⟨hdigits, hsepname⟩ := append_prefix_drop.1 hrest
  obtain ⟨hsep, hname⟩ := append_prefix_drop.1 hsepname
  have hne : id.text ≠ [] := by
    rw [Ident.text, Ne, List.append_eq_nil_iff, List.append_eq_nil_iff]
    exact fun hnil ↦ Nat.toDigits_ne_nil hnil.2.1
  have hle := length_le_of_prefix_drop hne h
  have hbehind : id.sep = false → charAt s (p + (if id.puny then ['u'] else []).length +
      (Nat.toDigits 10 id.name.length).length) ≠ '_' :=
    Ident.behind_length_of_not_sep hsepname
      (by simpa only [Ident.text, List.length_append, Nat.add_assoc] using hend)
  have hpuny' (hfalse : id.puny = false) : charAt s p ≠ 'u' := fun hu ↦ by
    have hdigit := Ident.isDigit_head h hfalse
    rw [hu] at hdigit
    cases hdigit
  refine (bind_of_ok (eat_optional hpuny hpuny') _).trans ?_
  refine (bind_of_ok (decimal_of_text ?_ hdigits
    fun hpos ↦ Ident.behind_length hsepname hpos) _).trans ?_
  · rw [Ident.text] at hle
    simp only [List.length_append] at hle
    omega
  refine (bind_of_ok (eat_optional hsep hbehind) _).trans ?_
  refine (bind_of_ok (rfl : get _ = .ok (_, _)) _).trans ?_
  have hlength : p + id.text.length = p + (if id.puny then ['u'] else []).length +
      (Nat.toDigits 10 id.name.length).length + (if id.sep then ['_'] else []).length +
        id.name.length := by
    simp only [Ident.text, List.length_append, Nat.add_assoc]
  have hname' := (List.prefix_iff_eq_take.1 hname).symm
  have hwrap : wrap (p + id.text.length) = p + id.text.length := Nat.mod_eq_of_lt (by omega)
  dsimp only
  rw [← hlength, hwrap, if_neg (by simp only [Bool.false_eq_true, false_or]; omega),
    if_neg (fun hback ↦ absurd hback.1 (by decide)), hname']
  rfl

/-- Reading again what stands at an earlier position, from where it ends to where it is referred to
from. -/
theorem Reads.backref {off : Number} {x : ℕ → Parse String} {a : String} {h q : ℕ}
    (hlen : s.length < 2 ^ 64) (hp : p ≤ s.length) (hoff : off.text <+: s.drop p)
    (hlt : off.value < p) (hx : Reads x off.value d h q a) :
    Reads (fun n ↦ Rust.backref s (x n)) p d h (p + off.text.length) a := by
  have hsmall : off.value < 2 ^ 64 := by omega
  have hwrap : wrap off.value = off.value := Nat.mod_eq_of_lt hsmall
  have hnot : ¬(false = true ∨ p + off.text.length ≤ off.value) := by
    simp only [Bool.false_eq_true, false_or]
    omega
  refine Reads.after (base62_of_text hoff) ?_
  rw [hwrap]
  refine Reads.after (rfl : get _ = .ok (_, _)) ?_
  simp only [if_neg hnot]
  refine Reads.after (rfl : Rust.moveTo off.value _ = .ok (_, ⟨off.value, false, d⟩)) ?_
  exact hx.moveTo

end Leaves

end Rust

end Ldu
