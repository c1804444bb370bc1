import Ldu.Binary.Forms

/-!
# What the DWARF reader gets to

Every reader ends, with or without a value, and leaves the cursor in its section (`Stays`), so that
the walk is safe but for one computation: the slot of a string offset (`safe_functions_iff`).
-/

namespace Ldu

namespace Dwarf

open Checked Reader

/-! ### Cursors stay in their section -/

/-- The cursor has moved on in its section. -/
structure After (c c' : Cur) : Prop where
  b : c'.b = c.b
  valid : c'.Valid
  p_le : c.p ≤ c'.p

theorem After.refl {c : Cur} (hc : c.Valid) : After c c := ⟨rfl, hc, le_rfl⟩

theorem After.trans {c₁ c₂ c₃ : Cur} (h : After c₁ c₂) (h' : After c₂ c₃) : After c₁ c₃ :=
  ⟨h'.b.trans h.b, h'.valid, h.p_le.trans h'.p_le⟩

theorem After.left_le {c c' : Cur} (h : After c c') : c'.left ≤ c.left := by
  have := h.p_le
  rw [Cur.left, Cur.left, h.b]
  omega

theorem after_move {c : Cur} (hc : c.Valid) {n : ℕ} (hn : n ≤ c.left) : After c (c.move n) :=
  ⟨rfl, hc.move hn, Nat.le_add_right _ _⟩

/-- The reader ends, and the cursor stays in the section. -/
def Stays {α : Type} (x : Read α) (c : Cur) : Prop :=
  EndsWith x c fun _ c' ↦ After c c'

/-- If the reader finds something, then it has read at least one byte. -/
def Takes {α : Type} (x : Read α) (c : Cur) : Prop :=
  EndsWith x c fun o c' ↦ After c c' ∧ (o.isSome → c'.left < c.left)

section Stay

variable {α β : Type} {x : Read α} {f : α → Read β} {c : Cur}

theorem Takes.stays (h : Takes x c) : Stays x c :=
  h.mono fun _ _ h ↦ h.1

theorem stays_pure (a : α) (hc : c.Valid) : Stays (pure a : Read α) c :=
  endsWith_pure.2 (.refl hc)

theorem stays_failure (hc : c.Valid) : Stays (failure : Read α) c :=
  endsWith_failure.2 (.refl hc)

theorem Stays.bind (hx : Stays x c) (hf : ∀ a c', After c c' → Stays (f a) c') :
    Stays (x >>= f) c := by
  refine endsWith_bind.2 (hx.mono fun o c' hafter ↦ ?_)
  cases o with
  | none => exact hafter
  | some a => exact (hf a c' hafter).mono fun _ _ h ↦ hafter.trans h

/-- After a reader that has read something fewer bytes are left. -/
theorem Takes.bind (hx : Takes x c)
    (hf : ∀ a c', After c c' → c'.left < c.left → Stays (f a) c') : Stays (x >>= f) c := by
  refine endsWith_bind.2 (hx.mono fun o c' h ↦ ?_)
  cases o with
  | none => exact h.1
  | some a => exact (hf a c' h.1 (h.2 rfl)).mono fun _ _ h' ↦ h.1.trans h'

theorem Stays.attempt (hx : Stays x c) : Stays (attempt x) c :=
  endsWith_attempt.2 hx

theorem stays_lift {y : Checked α} (hy : Safe y) (hc : c.Valid) : Stays (lift y) c := by
  obtain ⟨a, ha⟩ := hy
  exact endsWith_lift.2 ⟨a, ha, .refl hc⟩

theorem stays_guard {p : Prop} [Decidable p] (hc : c.Valid) : Stays (guard p : Read Unit) c := by
  refine endsWith_guard.2 ?_
  split
  · exact .refl hc
  · exact .refl hc

theorem takes_u8 (hc : c.Valid) : Takes u8 c := by
  cases hrest : c.rest with
  | nil => exact ⟨none, c, run_u8_nil hrest, .refl hc, nofun⟩
  | cons v bs =>
    have hleft : 1 ≤ c.left := by
      rw [← c.length_rest, hrest]
      exact Nat.succ_pos _
    refine ⟨some v, c.move 1, run_u8_cons hc hrest, after_move hc hleft, fun _ ↦ ?_⟩
    rw [Cur.left_move]
    omega

theorem stays_number (hc : c.Valid) (n : ℕ) (hn : n ≤ 8) (hpos : 0 < n) : Stays (number n) c := by
  have hrun := run_number hc n hn hpos
  split_ifs at hrun with hle
  · exact ⟨_, _, hrun, after_move hc hle⟩
  · exact ⟨_, _, hrun, .refl hc⟩

theorem stays_offset (hc : c.Valid) (z : Sizes) : Stays (offset z) c := by
  unfold offset
  split
  · exact stays_number hc 8 (by decide) (by decide)
  · exact stays_number hc 4 (by decide) (by decide)

theorem stays_address (hc : c.Valid) (z : Sizes) : Stays (address z) c := by
  unfold address
  split
  · exact stays_number hc 8 (by decide) (by decide)
  · exact stays_number hc 4 (by decide) (by decide)

theorem takes_uleb (hc : c.Valid) : Takes uleb c := by
  have hrun := run_uleb hc
  cases hn : lebLength 19 c.rest with
  | some n =>
    rw [hn] at hrun
    obtain ⟨hpos, hle⟩ := lebLength_le hn
    rw [c.length_rest] at hle
    refine ⟨_, _, hrun, after_move hc hle, fun _ ↦ ?_⟩
    rw [Cur.left_move]
    omega
  | none =>
    rw [hn] at hrun
    obtain ⟨n, hle, hrun⟩ := hrun
    exact ⟨_, _, hrun, after_move hc hle, nofun⟩

theorem stays_sleb (hc : c.Valid) : Stays sleb c := by
  have hrun := run_sleb hc
  cases hn : lebLength 19 c.rest with
  | some n =>
    rw [hn] at hrun
    obtain ⟨a, hrun⟩ := hrun
    exact ⟨_, _, hrun, after_move hc ((lebLength_le hn).2.trans c.length_rest.le)⟩
  | none =>
    rw [hn] at hrun
    obtain ⟨n, hle, hrun⟩ := hrun
    exact ⟨_, _, hrun, after_move hc hle⟩

theorem stays_cstr (hc : c.Valid) : Stays cstr c := by
  have hrun := run_cstr hc
  split_ifs at hrun with hle
  · have htext : (c.rest.takeWhile (· ≠ 0)).length ≤ c.left :=
      (List.takeWhile_sublist _).length_le.trans c.length_rest.le
    rw [Cur.left] at htext
    refine ⟨_, _, hrun, rfl, ⟨hc.length_lt, ?_⟩, Nat.le_add_right _ _⟩
    rw [Cur.p_move, Cur.b_move]
    omega
  · exact ⟨_, _, hrun, .refl hc⟩

theorem run_skipForm (hc : c.Valid) (z : Sizes) (form : ℕ) :
    Skips (skipForm z form) c (width z (c.left + 1) form c) := by
  have h := skips_skipLoop z (c.left + 1) form hc (Nat.lt_succ_self _)
  unfold Skips at h ⊢
  rw [skipForm, run_bind_get]
  exact h

theorem stays_skipForm (hc : c.Valid) (z : Sizes) (form : ℕ) : Stays (skipForm z form) c := by
  have h := run_skipForm hc z form
  unfold Skips at h
  split at h
  · obtain ⟨hrun, hend⟩ := h
    exact ⟨_, _, hrun, rfl, ⟨hc.length_lt, hend⟩, Nat.le_add_right _ _⟩
  · obtain ⟨n, hn, hrun⟩ := h
    exact ⟨_, _, hrun, after_move hc hn⟩

/-! ### Entries -/

theorem safe_strAt (sec : Slice) (off : ℕ) : Safe (strAt sec off) := by
  unfold strAt
  split
  · exact safe_ok _
  · next hoff =>
    have hn : ((sec.bytes.drop off).findIdx? (· = 0)).getD 0 ≤ sec.bytes.length - off := by
      rw [← List.length_drop]
      cases hfind : (sec.bytes.drop off).findIdx? (· = 0) with
      | none => exact Nat.zero_le _
      | some i => exact (List.findIdx?_eq_some_iff_getElem.1 hfind).1.le
    have hlen := sec.length_lt
    dsimp only
    rw [add_of_lt (by omega), ok_bind]
    split <;> exact safe_pure _

theorem safe_stringAt (sec : Slice) (o : Option ℕ) : Safe (stringAt sec o) := by
  cases o with
  | none => exact safe_ok _
  | some o => exact safe_strAt sec o

theorem stays_nameAttr (secs : Sections) (z : Sizes) (form : ℕ) (d : Die) (hc : c.Valid) :
    Stays (nameAttr secs z form d) c := by
  have hstring : ∀ sec : Slice, Stays (do
      let o ← attempt (offset z)
      let name ← lift (stringAt sec o)
      return { d with name }) c := fun sec ↦
    (stays_offset hc z).attempt.bind fun o _ h ↦
      (stays_lift (safe_stringAt sec o) h.valid).bind fun _ _ h' ↦ stays_pure _ h'.valid
  unfold nameAttr
  split
  · exact (stays_cstr hc).attempt.bind fun _ _ h ↦ stays_pure _ h.valid
  · exact hstring secs.str
  · exact hstring secs.lineStr
  · exact (takes_uleb hc).stays.attempt.bind fun _ _ h ↦ stays_pure _ h.valid
  · exact (takes_u8 hc).stays.attempt.bind fun _ _ h ↦ stays_pure _ h.valid
  · exact (stays_number hc 2 (by decide) (by decide)).attempt.bind fun _ _ h ↦ stays_pure _ h.valid
  · exact (stays_number hc 4 (by decide) (by decide)).attempt.bind fun _ _ h ↦ stays_pure _ h.valid
  · exact (stays_skipForm hc z _).bind fun _ _ h ↦ stays_pure _ h.valid

theorem stays_attr (secs : Sections) (z : Sizes) (a form : ℕ) (d : Die) (hc : c.Valid) :
    Stays (attr secs z a form d) c := by
  unfold attr
  split
  · exact stays_nameAttr secs z form d hc
  · split
    · exact (stays_address hc z).attempt.bind fun _ _ h ↦ stays_pure _ h.valid
    · split
      · exact (stays_offset hc z).attempt.bind fun _ _ h ↦ stays_pure _ h.valid
      · exact (stays_skipForm hc z _).bind fun _ _ h ↦ stays_pure _ h.valid

theorem stays_attrs (secs : Sections) (z : Sizes) (as : List Attr) (d : Die) (hc : c.Valid) :
    Stays (attrs secs z as d) c := by
  induction as generalizing d c with
  | nil => exact stays_pure d hc
  | cons a as ih =>
    exact (stays_attr secs z a.attr a.form d hc).bind fun d' _ h ↦ ih d' h.valid

/-! ### Abbreviations -/

theorem stays_implicitConst (form : ℕ) (hc : c.Valid) : Stays (implicitConst form) c := by
  unfold implicitConst
  split
  · exact stays_sleb hc
  · exact stays_pure 0 hc

theorem stays_attrsLoop (fuel : ℕ) (as : List Attr) (hc : c.Valid) (hfuel : c.left < fuel) :
    Stays (attrsLoop fuel as) c := by
  induction fuel generalizing as c with
  | zero => omega
  | succ fuel ih =>
    rw [attrsLoop]
    refine (takes_uleb hc).bind fun a c₁ h₁ hlt ↦ ?_
    refine (takes_uleb h₁.valid).stays.bind fun form c₂ h₂ ↦ ?_
    refine (stays_implicitConst form h₂.valid).bind fun implicit c₃ h₃ ↦ ?_
    split
    · exact stays_pure as h₃.valid
    · have := h₂.left_le
      have := h₃.left_le
      exact ih _ h₃.valid (by omega)

theorem stays_tableLoop (fuel : ℕ) (out : Table) (hc : c.Valid) (hfuel : c.left < fuel) :
    Stays (tableLoop fuel out) c := by
  induction fuel generalizing out c with
  | zero => omega
  | succ fuel ih =>
    rw [tableLoop]
    refine (takes_uleb hc).bind fun code c₁ h₁ hlt ↦ ?_
    split
    · exact stays_pure out h₁.valid
    · refine (takes_uleb h₁.valid).stays.bind fun tag c₂ h₂ ↦ ?_
      refine (takes_u8 h₂.valid).stays.bind fun children c₃ h₃ ↦ ?_
      refine endsWith_bind_get ?_
      refine (stays_attrsLoop _ [] h₃.valid (Nat.lt_succ_self _)).bind fun as c₄ h₄ ↦ ?_
      dsimp only
      split
      · exact stays_failure h₄.valid
      · have := h₂.left_le
        have := h₃.left_le
        have := h₄.left_le
        exact ih _ h₄.valid (by omega)

theorem safe_parseAbbrev (sec : Slice) (off : ℕ) : Safe (parseAbbrev sec off) := by
  unfold parseAbbrev
  split
  · exact safe_ok _
  · have hlen := sec.length_lt
    have hvalid : Cur.Valid ⟨sec.bytes.drop off, 0⟩ := by
      refine ⟨?_, Nat.zero_le _⟩
      rw [List.length_drop]
      omega
    have hstays := stays_tableLoop (sec.bytes.length + 1) [] hvalid (by
      rw [Cur.left, List.length_drop]
      omega)
    obtain ⟨r, hr⟩ := EndsWith.safe hstays
    rw [hr, ok_bind]
    exact safe_pure _

/-! ### Units -/

theorem stays_unitLength (hc : c.Valid) : Stays unitLength c := by
  refine (stays_number hc 4 (by decide) (by decide)).bind fun n c₁ h₁ ↦ ?_
  split
  · exact (stays_number h₁.valid 8 (by decide) (by decide)).bind fun _ _ h ↦ stays_pure _ h.valid
  · exact (stays_guard h₁.valid).bind fun _ _ h ↦ stays_pure _ h.valid

theorem stays_unitFields (version : ℕ) (dwarf64 : Bool) (hc : c.Valid) :
    Stays (unitFields version dwarf64) c := by
  unfold unitFields
  split
  · refine (takes_u8 hc).stays.attempt.bind fun _ _ h₁ ↦ ?_
    refine (takes_u8 h₁.valid).stays.attempt.bind fun _ _ h₂ ↦ ?_
    exact (stays_offset h₂.valid _).attempt.bind fun _ _ h ↦ stays_pure _ h.valid
  · refine (stays_offset hc _).attempt.bind fun _ _ h₁ ↦ ?_
    exact (takes_u8 h₁.valid).stays.attempt.bind fun _ _ h ↦ stays_pure _ h.valid

theorem Stays.bind_endsWith {post : Option β → Cur → Prop} (hx : Stays x c)
    (hnone : ∀ c', post none c') (hf : ∀ a c', After c c' → EndsWith (f a) c' post) :
    EndsWith (x >>= f) c post := by
  refine endsWith_bind.2 (hx.mono fun o c' hafter ↦ ?_)
  cases o with
  | none => exact hnone c'
  | some a => exact hf a c' hafter

/-- The header of a unit is read, and the cursor of the unit stays in the section. -/
theorem endsWith_unitHeader (secs : Sections) (start : ℕ) (hc : c.Valid) :
    EndsWith (unitHeader secs start) c fun o _ ↦
      ∀ next u, o = some (next, some u) → u.cur.Valid := by
  refine (stays_unitLength hc).bind_endsWith (fun _ _ _ ↦ nofun) fun r c₁ h₁ ↦ ?_
  obtain ⟨dwarf64, len⟩ := r
  refine endsWith_bind_get (endsWith_bind_guard (fun hnext ↦ ?_) fun _ _ _ ↦ nofun)
  refine Stays.bind_endsWith (stays_number h₁.valid 2 (by decide) (by decide)) (fun _ _ _ ↦ nofun)
    fun version c₂ h₂ ↦ ?_
  refine (stays_unitFields version dwarf64 h₂.valid).bind_endsWith (fun _ _ _ ↦ nofun)
    fun fields c₃ h₃ ↦ ?_
  dsimp only
  split
  · refine endsWith_pure.2 fun next u h ↦ ?_
    cases h
  · refine (stays_lift (safe_parseAbbrev secs.abbrevs fields.1) h₃.valid).bind_endsWith
      (fun _ _ _ ↦ nofun) fun table c₄ h₄ ↦ ?_
    cases table with
    | none =>
      refine endsWith_pure.2 fun next u h ↦ ?_
      cases h
    | some table =>
      refine endsWith_bind_get ?_
      refine (stays_lift ⟨_, sub_of_le hnext.2.1.le⟩ h₄.valid).bind_endsWith (fun _ _ _ ↦ nofun)
        fun stop c₅ h₅ ↦ endsWith_pure.2 fun next u h ↦ ?_
      cases h
      exact h₄.valid

end Stay

/-! ### Where the walk comes -/

section Walk

variable (secs : Sections) (vaddrToRva : ℕ → Option ℕ)

/-- The walk goes through the unit. -/
def WalksUnit (u : CompUnit) : Prop :=
  secs.info.bytes ≠ [] ∧ secs.abbrevs.bytes ≠ [] ∧
    ∃ s b c next, Within (unitStep secs vaddrToRva) 100000 {} s ∧
      satAdd s.start 11 ≤ secs.info.bytes.length ∧
      slice secs.info.bytes s.start secs.info.bytes.length = .ok b ∧
      (unitHeader secs s.start).run ⟨b, 0⟩ = .ok (some (next, some u), c)

end Walk

variable {secs : Sections} {vaddrToRva : ℕ → Option ℕ} {u : CompUnit}

theorem valid_of_slice {l b : List UInt8} {a z : ℕ} (hl : l.length < 2 ^ 63)
    (h : slice l a z = .ok b) : Cur.Valid ⟨b, 0⟩ := by
  unfold slice at h
  split_ifs at h
  obtain rfl := Except.ok.inj h
  refine ⟨?_, Nat.zero_le _⟩
  rw [List.length_take, List.length_drop]
  omega

theorem WalksUnit.valid (h : WalksUnit secs vaddrToRva u) : u.cur.Valid := by
  obtain ⟨-, -, s, b, c, next, -, -, hb, hu⟩ := h
  have hvalid := valid_of_slice secs.info.length_lt hb
  exact (endsWith_unitHeader secs s.start hvalid).of_run hu next u rfl

/-! ### One entry -/

/-- The entry of a unit at a point of the walk. -/
structure EntryAt (u : CompUnit) (w : Walk) (ab : Abbrev) (c : Cur) : Prop where
  p_lt : w.cur.p < u.stop
  uleb : ∃ code, uleb.run w.cur = .ok (some code, c) ∧ code ≠ 0 ∧ u.table.get code = some ab

theorem dieStep_of_entry {w : Walk} {ab : Abbrev} {c : Cur} (h : EntryAt u w ab c) :
    dieStep secs u w = (attrs secs u.sizes ab.attrs { base := w.base }).run c >>= fun r ↦
      match r with
      | (none, _) => .ok none
      | (some d, c) => subprogram secs u.sizes ab.tag d >>= fun found ↦
        .ok (some { cur := c, base := d.base, pending := w.pending ++ found.toList }) := by
  obtain ⟨hlt, code, hcode, hne, hget⟩ := h
  rw [dieStep, if_neg (by omega), hcode, ok_bind]
  dsimp only
  rw [if_neg hne, hget]
  rfl

/-- Where there is no entry, the walk leaves the unit or goes on behind a zero. -/
theorem dieStep_of_no_entry (secs : Sections) {w : Walk} (hw : w.cur.Valid)
    (h : ∀ ab c, ¬EntryAt u w ab c) :
    dieStep secs u w = .ok none ∨
      ∃ c, After w.cur c ∧ dieStep secs u w = .ok (some { w with cur := c }) := by
  rw [dieStep]
  split
  · exact .inl rfl
  · next hlt =>
    obtain ⟨o, c, hcode, hafter, -⟩ := takes_uleb hw
    rw [hcode, ok_bind]
    cases o with
    | none => exact .inl rfl
    | some code =>
      dsimp only
      split
      · exact .inr ⟨c, hafter, rfl⟩
      · next hne =>
        cases hget : u.table.get code with
        | none => exact .inl rfl
        | some ab => exact absurd ⟨by omega, code, hcode, hne, hget⟩ (h ab c)

/-- The cursor of the walk stays in its section. -/
theorem valid_of_dieStep {w w' : Walk} (hw : w.cur.Valid) (h : dieStep secs u w = .ok (some w')) :
    w'.cur.Valid := by
  by_cases hentry : ∃ ab c, EntryAt u w ab c
  · obtain ⟨ab, c, hentry⟩ := hentry
    obtain ⟨code, hcode, -⟩ := hentry.uleb
    have hc : c.Valid := ((takes_uleb hw).of_run hcode).1.valid
    rw [dieStep_of_entry hentry] at h
    obtain ⟨⟨o, c'⟩, hattrs, h⟩ := bind_eq_ok.1 h
    have hc' : c'.Valid := ((stays_attrs secs u.sizes ab.attrs _ hc).of_run hattrs).valid
    cases o with
    | none => cases h
    | some d =>
      obtain ⟨found, -, h⟩ := bind_eq_ok.1 h
      obtain rfl := Option.some.inj (Except.ok.inj h)
      exact hc'
  · push Not at hentry
    rcases dieStep_of_no_entry secs hw hentry with hnone | ⟨c, hafter, hsome⟩
    · rw [hnone] at h
      cases h
    · rw [hsome] at h
      obtain rfl := Option.some.inj (Except.ok.inj h)
      exact hafter.valid

/-- The slot of the string offset of an entry is a number of 64 bits, and so is its end. -/
def SlotFits (z : Sizes) (tag : ℕ) (d : Die) : Prop :=
  tag = 0x2E → d.lowPc.isSome → d.name = none → ∀ ix, d.strx = some ix →
    d.base + ix * z.offSize + z.offSize < 2 ^ 64

theorem safe_strOffset_iff (z : Sizes) (base ix : ℕ) :
    Safe (strOffset secs z base ix) ↔ base + ix * z.offSize + z.offSize < 2 ^ 64 := by
  unfold strOffset
  constructor
  · intro h
    obtain ⟨off, hoff, h⟩ := safe_bind.1 h
    obtain ⟨slot, hslot, h⟩ := safe_bind.1 h
    obtain ⟨stop, hstop, -⟩ := safe_bind.1 h
    obtain ⟨-, rfl⟩ := mul_eq_ok.1 hoff
    obtain ⟨-, rfl⟩ := add_eq_ok.1 hslot
    exact (add_eq_ok.1 hstop).1
  · intro h
    rw [mul_of_lt (by omega), ok_bind, add_of_lt (by omega), ok_bind, add_of_lt h, ok_bind]
    split <;> exact safe_pure _

theorem safe_subprogram_iff (secs : Sections) (z : Sizes) (tag : ℕ) (d : Die) :
    Safe (subprogram secs z tag d) ↔ SlotFits z tag d := by
  obtain ⟨name, lowPc, strx, base⟩ := d
  unfold subprogram SlotFits
  split
  · next htag => exact ⟨fun _ h ↦ absurd h htag, fun _ ↦ safe_ok _⟩
  · next htag =>
    have htag : tag = 0x2E := by simpa using htag
    cases lowPc with
    | none => exact ⟨fun _ _ ↦ nofun, fun _ ↦ safe_ok _⟩
    | some pc =>
      cases name with
      | some n => exact ⟨fun _ _ _ ↦ nofun, fun _ ↦ safe_ok _⟩
      | none =>
        cases strx with
        | none => exact ⟨fun _ _ _ _ _ ↦ nofun, fun _ ↦ safe_ok _⟩
        | some ix =>
          have hsafe : Safe (strOffset secs z base ix >>= fun o ↦
              stringAt secs.str o >>= fun name ↦
                pure ((name.filter (· ≠ "")).map (·, pc))) ↔ Safe (strOffset secs z base ix) := by
            rw [safe_bind]
            refine ⟨fun ⟨o, ho, _⟩ ↦ ⟨o, ho⟩, fun ⟨o, ho⟩ ↦ ⟨o, ho, ?_⟩⟩
            obtain ⟨name, hname⟩ := safe_stringAt secs.str o
            rw [hname, ok_bind]
            exact safe_pure _
          refine hsafe.trans ((safe_strOffset_iff z base ix).trans
            ⟨fun h _ _ _ i hi ↦ ?_, fun h ↦ ?_⟩)
          · obtain rfl := Option.some.inj hi
            exact h
          · exact h htag rfl rfl ix rfl

theorem safe_dieStep_iff {w : Walk} (hw : w.cur.Valid) :
    Safe (dieStep secs u w) ↔ ∀ ab c, EntryAt u w ab c → ∀ d c',
      (attrs secs u.sizes ab.attrs { base := w.base }).run c = .ok (some d, c') →
      SlotFits u.sizes ab.tag d := by
  constructor
  · intro hsafe ab c hentry d c' hattrs
    rw [dieStep_of_entry hentry, hattrs, ok_bind] at hsafe
    obtain ⟨found, hfound, -⟩ := safe_bind.1 hsafe
    exact (safe_subprogram_iff _ _ _ _).1 ⟨found, hfound⟩
  · intro hall
    by_cases hentry : ∃ ab c, EntryAt u w ab c
    · obtain ⟨ab, c, hentry⟩ := hentry
      obtain ⟨code, hcode, -⟩ := hentry.uleb
      have hc : c.Valid := ((takes_uleb hw).of_run hcode).1.valid
      obtain ⟨o, c', hattrs, -⟩ := stays_attrs secs u.sizes ab.attrs { base := w.base } hc
      rw [dieStep_of_entry hentry, hattrs, ok_bind]
      cases o with
      | none => exact safe_ok _
      | some d =>
        obtain ⟨found, hfound⟩ :=
          (safe_subprogram_iff secs _ _ _).2 (hall ab c hentry d c' hattrs)
        dsimp only
        rw [hfound, ok_bind]
        exact safe_ok _
    · push Not at hentry
      rcases dieStep_of_no_entry secs hw hentry with h | ⟨c, -, h⟩
      · rw [h]
        exact safe_ok _
      · rw [h]
        exact safe_ok _

/-! ### All entries -/

/-- The walk comes to an entry of the unit; the cursor stands before its attributes. -/
def WalksEntry (secs : Sections) (vaddrToRva : ℕ → Option ℕ) (u : CompUnit) (ab : Abbrev)
    (d : Die) (c : Cur) : Prop :=
  WalksUnit secs vaddrToRva u ∧
    ∃ w, Within (dieStep secs u) 2000000 u.walk w ∧ EntryAt u w ab c ∧ d = { base := w.base }

theorem valid_of_within {w : Walk} (hu : u.cur.Valid)
    (hw : Within (dieStep secs u) 2000000 u.walk w) : w.cur.Valid :=
  hw.induction (p := fun w ↦ w.cur.Valid) (fun _ _ ↦ valid_of_dieStep) hu

theorem WalksEntry.valid {ab : Abbrev} {d : Die} {c : Cur}
    (h : WalksEntry secs vaddrToRva u ab d c) : c.Valid := by
  obtain ⟨hu, w, hwithin, ⟨-, code, hcode, -⟩, -⟩ := h
  exact ((takes_uleb (valid_of_within hu.valid hwithin)).of_run hcode).1.valid

/-- The walk through a unit is safe when all its entries are. -/
theorem safe_walk_iff (hu : u.cur.Valid) :
    Safe (iterate (dieStep secs u) 2000000 u.walk) ↔
      ∀ w, Within (dieStep secs u) 2000000 u.walk w → ∀ ab c, EntryAt u w ab c → ∀ d c',
        (attrs secs u.sizes ab.attrs { base := w.base }).run c = .ok (some d, c') →
        SlotFits u.sizes ab.tag d := by
  rw [safe_iterate]
  exact forall₂_congr fun w hw ↦ safe_dieStep_iff (valid_of_within hu hw)

theorem safe_unitStep_iff (s : Units) :
    Safe (unitStep secs vaddrToRva s) ↔ ∀ b c next u,
      satAdd s.start 11 ≤ secs.info.bytes.length →
      slice secs.info.bytes s.start secs.info.bytes.length = .ok b →
      (unitHeader secs s.start).run ⟨b, 0⟩ = .ok (some (next, some u), c) →
      Safe (iterate (dieStep secs u) 2000000 u.walk) := by
  unfold unitStep
  split
  · next hend => exact ⟨fun _ b c next u h ↦ absurd h (by omega), fun _ ↦ safe_ok _⟩
  · next hend =>
    have hlen := secs.info.length_lt
    have hstart : s.start ≤ secs.info.bytes.length := by
      rw [satAdd] at hend
      omega
    have hslice := slice_of_le hstart (le_refl secs.info.bytes.length)
    obtain ⟨o, c, hrun, -⟩ := endsWith_unitHeader secs s.start
      (valid_of_slice secs.info.length_lt hslice)
    rw [hslice, ok_bind, hrun, ok_bind]
    constructor
    · intro hsafe b c' next u _ hb hu
      obtain rfl := Except.ok.inj hb
      obtain ⟨rfl, rfl⟩ := Prod.mk.inj (Except.ok.inj (hrun.symm.trans hu))
      obtain ⟨w, hw, -⟩ := safe_bind.1 hsafe
      exact ⟨w, hw⟩
    · intro hall
      rcases o with _ | ⟨next, _ | u⟩
      · exact safe_pure _
      · exact safe_pure _
      · obtain ⟨w, hw⟩ := hall _ c next u (by omega) rfl hrun
        dsimp only
        rw [hw, ok_bind]
        exact safe_pure _

/-- The walk is safe if and only if the slot of every string offset that it looks up fits. -/
theorem safe_functions_iff :
    Safe (functions secs vaddrToRva) ↔ ∀ u ab d c, WalksEntry secs vaddrToRva u ab d c →
      ∀ d' c', (attrs secs u.sizes ab.attrs d).run c = .ok (some d', c') →
        SlotFits u.sizes ab.tag d' := by
  unfold functions
  split
  · next hempty =>
    refine ⟨fun _ u ab d c h ↦ ?_, fun _ ↦ safe_ok _⟩
    obtain ⟨⟨hinfo, habbrev, -⟩, -⟩ := h
    exact absurd hempty (by simp [hinfo, habbrev])
  · next hempty =>
    have hne : secs.info.bytes ≠ [] ∧ secs.abbrevs.bytes ≠ [] := by
      simpa [not_or] using hempty
    have hsafe : Safe (iterate (unitStep secs vaddrToRva) 100000 {} >>= fun s ↦ pure s.out) ↔
        Safe (iterate (unitStep secs vaddrToRva) 100000 {}) := by
      rw [safe_bind]
      exact ⟨fun ⟨s, hs, _⟩ ↦ ⟨s, hs⟩, fun ⟨s, hs⟩ ↦ ⟨s, hs, safe_pure _⟩⟩
    rw [hsafe, safe_iterate]
    constructor
    · rintro hall u ab d c ⟨⟨-, -, s, b, cu, next, hs, hstart, hb, hu⟩, w, hw, hentry, rfl⟩
      have hunit := (safe_unitStep_iff s).1 (hall s hs) b cu next u hstart hb hu
      have hvalid : u.cur.Valid := (endsWith_unitHeader secs s.start
        (valid_of_slice secs.info.length_lt hb)).of_run hu next u rfl
      exact (safe_walk_iff hvalid).1 hunit w hw ab c hentry
    · intro hall s hs
      refine (safe_unitStep_iff s).2 fun b cu next u hstart hb hu ↦ ?_
      have hwalks : WalksUnit secs vaddrToRva u :=
        ⟨hne.1, hne.2, s, b, cu, next, hs, hstart, hb, hu⟩
      refine (safe_walk_iff hwalks.valid).2 fun w hw ab c hentry ↦ ?_
      exact hall u ab _ c ⟨hwalks, w, hw, hentry, rfl⟩

end Dwarf

end Ldu
