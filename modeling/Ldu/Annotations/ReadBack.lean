import Ldu.Annotations.Sidecar
import Mathlib.Tactic.NormNum

/-!
# What is written is read back

`Reads q t a` says that the reader `q` takes the text `t` for `a`, whatever follows, as long as that
may follow a value. Strings and numbers are read back as what was written, and collections are when
their items are (`items_joinWith`).
-/

namespace Ldu

namespace Annotations

/-! ### White space -/

section White

variable {w : Bytes}

theorem ws_append (hw : w.all isWs) (l : Bytes) : ws (w ++ l) = ws l :=
  List.dropWhile_append_of_pos (List.all_eq_true.1 hw)

theorem eat_append (hw : w.all isWs) (c : Char) (l : Bytes) : eat c (w ++ l) = eat c l := by
  rw [eat, eat, ws_append hw]

theorem ws_cons {b : UInt8} (hb : isWs b = false) (l : Bytes) : ws (b :: l) = b :: l :=
  List.dropWhile_cons_of_neg (by simp [hb])

theorem eat_cons {b : UInt8} (hb : isWs b = false) (c : Char) (l : Bytes) :
    eat c (b :: l) = if b = ch c then some l else none := by
  rw [eat, ws_cons hb]

theorem str_append (hw : w.all isWs) (l : Bytes) : str (w ++ l) = str l := by
  rw [str, str, eat_append hw]

theorem value_append (hw : w.all isWs) (depth : ℕ) (l : Bytes) :
    value depth (w ++ l) = value depth l := by
  cases depth with
  | zero => rfl
  | succ depth => rw [value, value, ws_append hw]

end White

/-! ### Items -/

section Items

variable {α : Type}

/-- What may follow a value. -/
def Stop (rest : Bytes) : Prop :=
  ∀ b ∈ rest.head?, isWs b ∨ b = ch ',' ∨ b = ch ']' ∨ b = ch '}'

/-- The reader takes the text for `a`. -/
def Reads (q : Bytes → Option (α × Bytes)) (text : Bytes) (a : α) : Prop :=
  ∀ rest, Stop rest → q (text ++ rest) = some (a, rest)

/-- The reader skips white space. -/
def SkipsWs (q : Bytes → Option (α × Bytes)) : Prop :=
  ∀ w l : Bytes, w.all isWs → q (w ++ l) = q l

theorem Reads.skip {q : Bytes → Option (α × Bytes)} (hq : SkipsWs q) {text : Bytes} {a : α}
    (h : Reads q text a) {w : Bytes} (hw : w.all isWs) : Reads q (w ++ text) a := by
  intro rest hrest
  rw [List.append_assoc, hq w _ hw]
  exact h rest hrest

/-- A member of an object: a key and a value. -/
def member (p : Bytes → Option (JVal × Bytes)) (l : Bytes) : Option ((Bytes × JVal) × Bytes) :=
  (str l).bind fun (k, l) ↦
    (eat ':' l).bind fun l ↦ (p l).map fun (v, l) ↦ ((k, v), l)

/-- Items up to a closing bracket. -/
def items (q : Bytes → Option (α × Bytes)) (close : Char) : ℕ → Bytes → Option (List α × Bytes)
  | 0, _ => none
  | fuel + 1, l =>
    (q l).bind fun (a, l) ↦
      match eat ',' l with
      | some l => (items q close fuel l).map fun r ↦ (a :: r.1, r.2)
      | none => (eat close l).map fun l ↦ ([a], l)

theorem elements_eq (p : Bytes → Option (JVal × Bytes)) (fuel : ℕ) (l : Bytes) :
    elements p fuel l = items p ']' fuel l := by
  induction fuel generalizing l with
  | zero => rfl
  | succ fuel ih =>
    rw [elements, items]
    cases p l with
    | none => rfl
    | some r =>
      rw [Option.bind_some, Option.bind_some]
      dsimp only
      cases eat ',' r.2 with
      | none => rfl
      | some l => exact congrArg (Option.map _) (ih l)

theorem members_eq (p : Bytes → Option (JVal × Bytes)) (fuel : ℕ) (l : Bytes) :
    members p fuel l = items (member p) '}' fuel l := by
  induction fuel generalizing l with
  | zero => rfl
  | succ fuel ih =>
    rw [members, items, member]
    simp only [ih]
    cases str l with
    | none => rfl
    | some r =>
      rw [Option.bind_some, Option.bind_some]
      cases eat ':' r.2 with
      | none => rfl
      | some l =>
        rw [Option.bind_some, Option.bind_some]
        cases p l <;> rfl

theorem stop_comma (l : Bytes) : Stop (ch ',' :: l) := by
  rintro b ⟨⟩
  exact .inr (.inl rfl)

theorem stop_close {close : Char} (hclose : close = ']' ∨ close = '}') {w : Bytes}
    (hw : w.all isWs) (l : Bytes) : Stop (w ++ ch close :: l) := by
  cases w with
  | nil =>
    rintro b ⟨⟩
    exact .inr (.inr (hclose.imp (congrArg ch) (congrArg ch)))
  | cons c w =>
    rintro b ⟨⟩
    exact .inl (List.all_eq_true.1 hw c List.mem_cons_self)

/-- Items that are read one by one are read together, with commas between them. -/
theorem items_joinWith {q : Bytes → Option (α × Bytes)} (hq : SkipsWs q) {close : Char}
    (hclose : close = ']' ∨ close = '}') {w w' : Bytes} (hw : w.all isWs) (hw' : w'.all isWs)
    {xs : List (Bytes × α)} (hne : xs ≠ []) (hxs : ∀ x ∈ xs, Reads q x.1 x.2) (fuel : ℕ)
    (hfuel : xs.length ≤ fuel) (rest : Bytes) :
    items q close fuel (joinWith (ch ',' :: w) (xs.map (·.1)) ++ (w' ++ ch close :: rest)) =
      some (xs.map (·.2), rest) := by
  have hcloseWs : isWs (ch close) = false := by rcases hclose with rfl | rfl <;> rfl
  have hcomma : ch close ≠ ch ',' := by rcases hclose with rfl | rfl <;> decide
  have hskip : ∀ fuel l, items q close fuel (w ++ l) = items q close fuel l := by
    intro fuel l
    cases fuel with
    | zero => rfl
    | succ fuel => rw [items, items, hq w l hw]
  induction xs generalizing fuel with
  | nil => exact absurd rfl hne
  | cons x xs ih =>
    obtain ⟨fuel, rfl⟩ := Nat.exists_eq_add_one.2 (Nat.lt_of_lt_of_le (Nat.succ_pos _) hfuel)
    have hx := hxs x List.mem_cons_self
    cases xs with
    | nil =>
      -- No comma follows the last item, but the closing bracket.
      rw [List.map_cons, List.map_nil, joinWith, items, hx _ (stop_close hclose hw' rest),
        Option.bind_some]
      dsimp only
      rw [eat_append hw', eat_cons hcloseWs, if_neg hcomma]
      dsimp only
      rw [eat_append hw', eat_cons hcloseWs, if_pos rfl]
      rfl
    | cons y ys =>
      rw [List.map_cons, List.map_cons, joinWith, List.append_assoc, List.append_assoc,
        List.cons_append, items, hx _ (stop_comma _), Option.bind_some]
      dsimp only
      rw [eat_cons (by rfl), if_pos rfl]
      dsimp only
      rw [hskip, ← List.map_cons,
        ih (List.cons_ne_nil _ _) (fun z hz ↦ hxs z (List.mem_cons_of_mem _ hz))
          fuel (Nat.le_of_succ_le_succ hfuel)]
      rfl

end Items

/-! ### Strings -/

section Strings

theorem hex4_control :
    ∀ n < 32, hex4 (ch '0') (ch '0') (ch (Nat.digitChar (n / 16))) (ch (Nat.digitChar (n % 16))) =
      some n := by
  decide

theorem strBody_cons {b : UInt8} (hquote : b ≠ ch '"') (hslash : b ≠ ch '\\') (rest : Bytes) :
    strBody (b :: rest) = (strBody rest).map fun r ↦ (b :: r.1, r.2) := by
  rw [strBody.eq_def]
  dsimp only
  rw [if_neg hquote, if_pos hslash]

/-- An escape of one letter. -/
theorem strBody_unescape {x b : UInt8} (hx : x ≠ ch 'u') (hb : unescape x = some b) (rest : Bytes) :
    strBody (ch '\\' :: x :: rest) = (strBody rest).map fun r ↦ (b :: r.1, r.2) := by
  rw [strBody.eq_def]
  dsimp only
  rw [if_neg (by decide), if_neg (by decide), if_neg hx, hb, Option.bind_some]

theorem strBody_hex {a b c d : UInt8} {n : ℕ} (hn : hex4 a b c d = some n) (hlt : n < 0x80)
    (rest : Bytes) :
    strBody (ch '\\' :: ch 'u' :: a :: b :: c :: d :: rest) =
      (strBody rest).map fun r ↦ (UInt8.ofNat n :: r.1, r.2) := by
  rw [strBody.eq_def]
  dsimp only
  rw [if_neg (by decide), if_neg (by decide), if_pos rfl, hn, Option.bind_some, if_pos hlt]

theorem strBody_escape (b : UInt8) (rest : Bytes) :
    strBody (escape b ++ rest) = (strBody rest).map fun r ↦ (b :: r.1, r.2) := by
  unfold escape
  split
  · next h => exact h ▸ strBody_unescape (by decide) (by decide) rest
  split
  · next h => exact h ▸ strBody_unescape (by decide) (by decide) rest
  split
  · next h => exact h ▸ strBody_unescape (by decide) (by decide) rest
  split
  · next h => exact h ▸ strBody_unescape (by decide) (by decide) rest
  split
  · next h => exact h ▸ strBody_unescape (by decide) (by decide) rest
  split
  · next h =>
    have hb : b.toNat < 32 := UInt8.lt_iff_toNat_lt.1 h
    have hread := strBody_hex (hex4_control _ hb) (by omega) rest
    rwa [UInt8.ofNat_toNat] at hread
  · next hquote hslash _ _ _ _ => exact strBody_cons hquote hslash rest

theorem strBody_quote (rest : Bytes) : strBody (ch '"' :: rest) = some ([], rest) := by
  rw [strBody.eq_def]
  exact if_pos rfl

theorem strBody_flatMap_escape (s rest : Bytes) :
    strBody (s.flatMap escape ++ ch '"' :: rest) = some (s, rest) := by
  induction s with
  | nil => exact strBody_quote rest
  | cons b s ih =>
    rw [List.flatMap_cons, List.append_assoc, strBody_escape, ih]
    rfl

theorem str_jstr (s rest : Bytes) : str (jstr s ++ rest) = some (s, rest) := by
  rw [jstr, List.cons_append, List.cons_append, List.append_assoc, str, eat_cons (by rfl),
    if_pos rfl]
  exact strBody_flatMap_escape s rest

theorem reads_jstr (depth : ℕ) (s : Bytes) : Reads (value (depth + 1)) (jstr s) (.str s) := by
  intro rest _
  rw [jstr, List.cons_append, List.cons_append, List.append_assoc, value, ws_cons (by rfl)]
  dsimp only
  rw [if_pos rfl, List.singleton_append, strBody_flatMap_escape]
  rfl

end Strings

/-! ### Collections -/

section Collections

variable {depth : ℕ} {w w' : Bytes}

theorem skipsWs_value (depth : ℕ) : SkipsWs (value depth) :=
  fun _ l hw ↦ value_append hw depth l

theorem skipsWs_member (p : Bytes → Option (JVal × Bytes)) : SkipsWs (member p) := by
  intro w l hw
  rw [member, member, str_append hw]

theorem reads_member {k text : Bytes} {v : JVal} (h : Reads (value depth) text v) :
    Reads (member (value depth)) (jstr k ++ lit ": " ++ text) (k, v) := by
  intro rest hrest
  have hcolon : lit ": " ++ (text ++ rest) = ch ':' :: ([ch ' '] ++ (text ++ rest)) := rfl
  rw [List.append_assoc, List.append_assoc, member, str_jstr, Option.bind_some]
  dsimp only
  rw [hcolon, eat_cons (by rfl), if_pos rfl, Option.bind_some, value_append (by rfl), h rest hrest]
  rfl

/-- Where one character is eaten, another one is not. -/
theorem eat_eq_none {c c' : Char} {l : Bytes} (h : (eat c l).isSome) (hne : ch c ≠ ch c') :
    eat c' l = none := by
  unfold eat at h ⊢
  split at h
  · split at h
    · next hb => exact if_neg (hb ▸ hne)
    · cases h
  · cases h

theorem isSome_of_items {α : Type} {q : Bytes → Option (α × Bytes)} {close : Char} {fuel : ℕ}
    {l : Bytes} {r : List α × Bytes} (h : items q close fuel l = some r) : (q l).isSome := by
  cases fuel with
  | zero => cases h
  | succ fuel =>
    obtain ⟨x, hx, -⟩ := Option.bind_eq_some_iff.1 h
    rw [hx]
    rfl

/-- No value starts with a closing bracket. -/
theorem eat_eq_none_of_value {l : Bytes} (h : (value depth l).isSome) : eat ']' l = none := by
  cases depth with
  | zero => cases h
  | succ depth =>
    rw [value] at h
    rw [eat]
    cases hws : ws l with
    | nil => rfl
    | cons c l' =>
      rw [hws] at h
      refine if_neg ?_
      rintro rfl
      cases h

theorem length_le_joinWith (ts : List Bytes) (b : UInt8) (w : Bytes) :
    ts.length ≤ (joinWith (b :: w) ts).length + 1 := by
  induction ts with
  | nil => exact Nat.zero_le _
  | cons t ts ih =>
    cases ts with
    | nil => exact Nat.le_add_left 1 _
    | cons t' ts =>
      simp only [joinWith, List.length_append, List.length_cons] at ih ⊢
      omega

theorem eat_eq_none_of_member {p : Bytes → Option (JVal × Bytes)} {l : Bytes}
    (h : (member p l).isSome) : eat '}' l = none := by
  refine @eat_eq_none '"' _ _ ?_ (by decide)
  cases heat : eat '"' l with
  | none =>
    rw [member, str, heat] at h
    cases h
  | some l => rfl

/-- An object is read back when its members are. -/
theorem reads_obj {xs : List (Bytes × Bytes × JVal)} (hw : w.all isWs) (hw' : w'.all isWs)
    (hne : xs ≠ []) (hxs : ∀ x ∈ xs, Reads (member (value depth)) x.1 x.2) :
    Reads (value (depth + 1))
      (ch '{' :: (joinWith (ch ',' :: w) (xs.map (·.1)) ++ (w' ++ [ch '}'])))
      (.obj (xs.map (·.2))) := by
  intro rest _
  have hread := fun fuel hfuel ↦ items_joinWith (skipsWs_member (value depth)) (.inr rfl) hw hw' hne
    hxs fuel hfuel rest
  have hfuel := length_le_joinWith (xs.map (·.1)) (ch ',') w
  rw [List.length_map] at hfuel
  rw [List.cons_append, List.append_assoc, List.append_assoc, List.singleton_append, value,
    ws_cons (by rfl)]
  dsimp only
  rw [if_neg (by decide), if_pos rfl]
  rw [eat_eq_none_of_member (isSome_of_items (hread xs.length le_rfl))]
  dsimp only
  rw [members_eq, hread _ (by rw [List.length_append]; omega)]
  rfl

/-- An array is read back when its elements are. -/
theorem reads_arr {xs : List (Bytes × JVal)} {w₀ : Bytes} (hw₀ : w₀.all isWs) (hw : w.all isWs)
    (hw' : w'.all isWs) (hne : xs ≠ []) (hxs : ∀ x ∈ xs, Reads (value depth) x.1 x.2) :
    Reads (value (depth + 1))
      (ch '[' :: (w₀ ++ (joinWith (ch ',' :: w) (xs.map (·.1)) ++ (w' ++ [ch ']']))))
      (.arr (xs.map (·.2))) := by
  intro rest _
  have hread : ∀ fuel, xs.length ≤ fuel → items (value depth) ']' fuel
      (w₀ ++ (joinWith (ch ',' :: w) (xs.map (·.1)) ++ (w' ++ ch ']' :: rest))) =
        some (xs.map (·.2), rest) := by
    intro fuel hfuel
    rw [← items_joinWith (skipsWs_value depth) (.inl rfl) hw hw' hne hxs fuel hfuel rest]
    cases fuel with
    | zero => rfl
    | succ fuel => rw [items, items, value_append hw₀]
  have hfuel := length_le_joinWith (xs.map (·.1)) (ch ',') w
  rw [List.length_map] at hfuel
  rw [List.cons_append, List.append_assoc, List.append_assoc, List.append_assoc,
    List.singleton_append, value, ws_cons (by rfl)]
  dsimp only
  rw [if_neg (by decide), if_neg (by decide), if_pos rfl,
    eat_eq_none_of_value (isSome_of_items (hread xs.length le_rfl))]
  dsimp only
  rw [elements_eq, hread _ (by rw [List.length_append, List.length_append]; omega)]
  rfl

theorem reads_arr_nil (hw : w.all isWs) :
    Reads (value (depth + 1)) (ch '[' :: (w ++ [ch ']'])) (.arr []) := by
  intro rest _
  rw [List.cons_append, List.append_assoc, List.singleton_append, value, ws_cons (by rfl)]
  dsimp only
  rw [if_neg (by decide), if_neg (by decide), if_pos rfl, eat_append hw, eat_cons (by rfl),
    if_pos rfl]

end Collections

/-! ### Numbers -/

section Numbers

/-- A digit. -/
def digit (d : ℕ) : UInt8 :=
  ch (Nat.digitChar d)

theorem hexVal_digit : ∀ d < 16, hexVal (digit d) = some d := by
  decide

theorem escape_digit : ∀ d < 16, escape (digit d) = [digit d] := by
  decide

theorem digit_ne_zero : ∀ d < 16, digit d ≠ 0 := by
  decide

/-- The digits of a number stand for it. -/
theorem exists_digits {b : ℕ} (hb : 1 < b) (n : ℕ) :
    ∃ ds : List ℕ, ds ≠ [] ∧ (∀ d ∈ ds, d < b) ∧ ofDigits b ds = n ∧
      (Nat.toDigits b n).map ch = ds.map digit := by
  induction n using Nat.strong_induction_on with
  | _ n ih =>
    rcases Nat.lt_or_ge n b with hlt | hle
    · refine ⟨[n], List.cons_ne_nil _ _, by simpa using hlt, by simp [ofDigits], ?_⟩
      rw [Nat.toDigits_of_lt_base hlt]
      rfl
    · obtain ⟨ds, hne, hds, hn, htext⟩ := ih (n / b) (Nat.div_lt_self (by omega) hb)
      refine ⟨ds ++ [n % b], by simp, ?_, ?_, ?_⟩
      · intro d hd
        rcases List.mem_append.1 hd with hd | hd
        · exact hds d hd
        · rw [List.mem_singleton.1 hd]
          exact Nat.mod_lt n (by omega)
      · rw [ofDigits] at hn ⊢
        rw [List.foldl_append, hn]
        exact Nat.div_add_mod n b
      · rw [Nat.toDigits_of_base_le hb hle, List.map_append, List.map_append, htext]
        rfl

theorem digitsOf_digits {b : ℕ} (hb : b ≤ 16) {ds : List ℕ} (hds : ∀ d ∈ ds, d < b) (rest : Bytes)
    (hrest : ∀ c ∈ rest.head?, (hexVal c).any (· < b) = false) :
    digitsOf b (ds.map digit ++ rest) = ds := by
  have hval : ∀ d ∈ ds, hexVal (digit d) = some d := fun d hd ↦
    hexVal_digit d (Nat.lt_of_lt_of_le (hds d hd) hb)
  have htake : (ds.map digit ++ rest).takeWhile (fun c ↦ (hexVal c).any (· < b)) =
      ds.map digit := by
    rw [List.takeWhile_append_of_pos]
    · cases rest with
      | nil => rw [List.takeWhile_nil, List.append_nil]
      | cons c rest =>
        rw [List.takeWhile_cons_of_neg, List.append_nil]
        simpa using hrest c rfl
    · intro c hc
      obtain ⟨d, hd, rfl⟩ := List.mem_map.1 hc
      rw [hval d hd]
      exact decide_eq_true (hds d hd)
  rw [digitsOf, htake, List.filterMap_map]
  exact (List.filterMap_congr hval).trans List.filterMap_some

/-- A number in hexadecimal notation. -/
def hexText (n : UInt64) : Bytes :=
  lit "0x" ++ (Nat.toDigits 16 n.toNat).map ch

theorem jhex_eq (n : UInt64) : jhex n = jstr (hexText n) := by
  obtain ⟨ds, -, hds, -, htext⟩ := exists_digits (b := 16) (by decide) n.toNat
  have hescape : (ds.map digit).flatMap escape = ds.map digit := by
    rw [List.flatMap_map, List.flatMap_congr fun d hd ↦ escape_digit d (hds d hd),
      List.map_eq_flatMap]
  rw [jhex, jstr, hexText, htext, List.flatMap_append, hescape]
  rfl

theorem strtoull_hexText (n : UInt64) : strtoull (hexText n) = n := by
  obtain ⟨ds, hne, hds, hn, htext⟩ := exists_digits (b := 16) (by decide) n.toNat
  have hcstr : cstr (hexText n) = hexText n := by
    rw [cstr, List.takeWhile_eq_self_iff, hexText, htext]
    intro b hb
    rcases List.mem_append.1 hb with hb | hb
    · exact List.all_eq_true.1 (by decide : (lit "0x").all fun b ↦ decide (b ≠ 0)) b hb
    · obtain ⟨d, hd, rfl⟩ := List.mem_map.1 hb
      exact decide_eq_true (digit_ne_zero d (hds d hd))
  have hdigits := digitsOf_digits (b := 16) le_rfl hds [] (by rintro c ⟨⟩)
  rw [List.append_nil] at hdigits
  have hlt : ¬2 ^ 64 ≤ n.toNat := Nat.not_le.2 n.toNat_lt
  cases ds with
  | nil => exact absurd rfl hne
  | cons d ds =>
    have hd := hexVal_digit d (hds d List.mem_cons_self)
    have htext' : hexText n = ch '0' :: ch 'x' :: digit d :: ds.map digit := by
      rw [hexText, htext]
      rfl
    unfold strtoull
    dsimp only
    rw [hcstr, htext', List.dropWhile_cons_of_neg (by decide)]
    -- There is no sign, and the head `0x` shows the base.
    have hminus : ch '0' ≠ ch '-' := by decide
    have hplus : ch '0' ≠ ch '+' := by decide
    have hhex : True ∧ toLower (ch 'x') = ch 'x' ∧ (hexVal (digit d)).isSome :=
      ⟨trivial, by decide, by rw [hd]; rfl⟩
    simp only [if_neg hminus, if_neg hplus]
    rw [if_pos hhex, ← List.map_cons, hdigits, hn, if_neg hlt]
    exact UInt64.ofNat_toNat

/-- What may follow a value is no part of a number. -/
theorem not_number_of_stop {c : UInt8} (h : isWs c ∨ c = ch ',' ∨ c = ch ']' ∨ c = ch '}') :
    hexVal c = none ∧ c ≠ ch '.' ∧ toLower c ≠ ch 'e' ∧ toLower c ≠ ch 'x' := by
  have hws : ∀ c : UInt8, isWs c → c ∈ [ch ' ', 9, 10, 13] := by
    intro c hc
    simpa [isWs, or_assoc] using hc
  have hmem : c ∈ [ch ' ', 9, 10, 13, ch ',', ch ']', ch '}'] := by
    rcases h with h | h | h | h
    · exact List.mem_append_left [ch ',', ch ']', ch '}'] (hws c h)
    all_goals simp [h]
  have hall : [ch ' ', 9, 10, 13, ch ',', ch ']', ch '}'].all fun c ↦
      decide (hexVal c = none ∧ c ≠ ch '.' ∧ toLower c ≠ ch 'e' ∧ toLower c ≠ ch 'x') := by
    decide
  exact of_decide_eq_true (List.all_eq_true.1 hall c hmem)

theorem toLower_digit_ne : ∀ d < 10, toLower (digit d) ≠ ch 'x' ∧ digit d ≠ ch '-' := by
  decide

/-- Decimal digits are no head of a hexadecimal number. -/
theorem dropHead_digits {ds : List ℕ} (hne : ds ≠ []) (hds : ∀ d ∈ ds, d < 10) {rest : Bytes}
    (hrest : Stop rest) : dropHead (lit "0x") ((ds.map digit ++ rest).map toLower) = none := by
  have hlit : lit "0x" = [ch '0', ch 'x'] := rfl
  have hcons : ∀ b c l, c ≠ ch 'x' → dropHead (lit "0x") (b :: c :: l) = none := by
    intro b c l hc
    refine if_neg ?_
    rw [hlit, List.isPrefixOf_iff_prefix, List.cons_prefix_cons, List.cons_prefix_cons]
    exact fun h ↦ hc h.2.1.symm
  match ds, hne, hds with
  | d :: d' :: ds, _, hds => exact hcons _ _ _ (toLower_digit_ne d' (hds d' (by simp))).1
  | [d], _, _ =>
    cases rest with
    | nil =>
      rw [hlit]
      exact if_neg (by simp)
    | cons c rest => exact hcons _ _ _ (not_number_of_stop (hrest c rfl)).2.2.2

/-- Decimal digits are read as a number. -/
theorem strtod_digits {ds : List ℕ} (hne : ds ≠ []) (hds : ∀ d ∈ ds, d < 10) {rest : Bytes}
    (hrest : Stop rest) :
    strtod (ds.map digit ++ rest) = some (toDouble (ofDigits 10 ds), rest) := by
  have hdigits := digitsOf_digits (b := 10) (by decide) hds rest fun c hc ↦ by
    rw [(not_number_of_stop (hrest c hc)).1]
    rfl
  have hmantissa : mantissa 10 10 (ch 'e') (ds.map digit ++ rest) =
      some ((ofDigits 10 ds : ℚ), rest) := by
    have hdrop : (ds.map digit ++ rest).drop ds.length = rest := by
      rw [← List.length_map (f := digit), List.drop_left]
    have hexponent : exponent (ch 'e') rest = (0, rest) := by
      unfold exponent
      cases rest with
      | nil => rfl
      | cons c rest => exact if_neg (not_number_of_stop (hrest c rfl)).2.2.1
    unfold mantissa
    dsimp only
    rw [hdigits, hdrop]
    cases rest with
    | nil =>
      dsimp only
      rw [if_neg (fun h ↦ hne h.1), hexponent]
      simp
    | cons c rest =>
      simp only [if_neg (not_number_of_stop (hrest c rfl)).2.1]
      rw [if_neg (fun h ↦ hne h.1), hexponent]
      simp
  -- The decimal reading is taken only where the text is not hexadecimal.
  have hhex := dropHead_digits hne hds hrest
  cases ds with
  | nil => exact absurd rfl hne
  | cons d ds =>
    have hminus := (toLower_digit_ne d (hds d List.mem_cons_self)).2
    rw [List.map_cons, List.cons_append] at hhex hmantissa ⊢
    unfold strtod
    simp only [if_neg hminus]
    rw [hhex]
    simp [hmantissa]

theorem digit_first : ∀ d < 10, isWs (digit d) = false ∧ digit d ≠ ch '"' ∧ digit d ≠ ch '{' ∧
    digit d ≠ ch '[' ∧ digit d ≠ ch 't' ∧ digit d ≠ ch 'f' ∧ digit d ≠ ch 'n' ∧
    isDigit (digit d) := by
  decide

/-- A number in decimal notation is read back, as a double. -/
theorem reads_num (depth n : ℕ) :
    Reads (value (depth + 1)) ((Nat.toDigits 10 n).map ch) (.num (toDouble n)) := by
  intro rest hrest
  obtain ⟨ds, hne, hds, hn, htext⟩ := exists_digits (b := 10) (by decide) n
  have hread := strtod_digits hne hds hrest
  rw [htext, ← hn]
  cases ds with
  | nil => exact absurd rfl hne
  | cons d ds =>
    obtain ⟨hws, hquote, hbrace, hbracket, ht, hf, hn, hdigit⟩ :=
      digit_first d (hds d List.mem_cons_self)
    rw [List.map_cons, List.cons_append] at hread ⊢
    rw [value, ws_cons hws]
    dsimp only
    rw [if_neg hquote, if_neg hbrace, if_neg hbracket, if_neg ht, if_neg hf, if_neg hn, hdigit,
      Bool.or_true, if_pos rfl, hread]
    rfl

theorem toDouble_one : toDouble 1 = some 1 := by
  have hround : roundEven (1 / 2 ^ (-52 : ℤ)) = 2 ^ 52 := by
    have hq : (1 : ℚ) / 2 ^ (-52 : ℤ) = ((2 ^ 52 : ℤ) : ℚ) := by norm_num
    rw [roundEven, hq, Int.floor_intCast]
    norm_num
  have hexp : max (Int.log 2 |(1 : ℚ)| - 52) (-1074) = -52 := by
    rw [abs_one, Int.log_one_right]
    rfl
  have hone : ((2 ^ 52 : ℤ) : ℚ) * 2 ^ (-52 : ℤ) = 1 := by norm_num
  have hlt : ¬(2 : ℚ) ^ 1024 ≤ |1| := by
    rw [abs_one, not_le]
    exact one_lt_pow₀ one_lt_two (by decide)
  rw [toDouble, if_neg one_ne_zero]
  dsimp only
  rw [hexp, hround, hone, if_neg hlt]

end Numbers

end Annotations

end Ldu
