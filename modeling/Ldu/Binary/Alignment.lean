import Ldu.Binary.DwarfSafe

/-!
# Attributes are read as wide as they are

The walk decodes some attributes itself, by readers of its own, and must leave the cursor where
skipping their form would. It does if the value has the width of the reader (`aligned_iff`): a name
always, when the section has all of it; an address, when the unit says that addresses have four
bytes or eight; the base of the string offsets, when its form is as wide as an offset.
-/

namespace Ldu

namespace Dwarf

open Checked Reader

variable {secs : Sections} {vaddrToRva : ℕ → Option ℕ} {z : Sizes} {c : Cur}

/-- The width of the value of a form at the cursor. -/
def formWidth (z : Sizes) (form : ℕ) (c : Cur) : Option ℕ :=
  width z (c.left + 1) form c

/-- The attribute leaves the cursor where skipping its form does, unless the unit is left. -/
def Aligned (secs : Sections) (z : Sizes) (a form : ℕ) (d : Die) (c : Cur) : Prop :=
  ∀ d' c', (attr secs z a form d).run c = .ok (some d', c') →
    (skipForm z form).run c = .ok (some (), c')

/-- The number of bytes that a reader for `n` bytes takes. -/
def taken (n : ℕ) (c : Cur) : ℕ :=
  if n ≤ c.left then n else 0

/-- The number of bytes that an address is taken for. -/
def addressSize (z : Sizes) : ℕ :=
  if z.addrSize = 8 then 8 else 4

/-- The value has a width, and the reader of the attribute takes as much. -/
def WidthFits (z : Sizes) (a form : ℕ) (c : Cur) : Prop :=
  if a = atName then (formWidth z form c).isSome = true
  else if a = atLowPc then formWidth z form c = some (taken (addressSize z) c)
  else formWidth z form c = some (taken z.offSize c)

/-! ### Where the readers leave the cursor -/

/-- The reader moves over the value, or finds nothing. -/
def Reads {α : Type} (x : Read α) (c : Cur) (w : Option ℕ) : Prop :=
  match w with
  | some n => ∃ v, x.run c = .ok (some v, c.move n)
  | none => ∃ c', x.run c = .ok (none, c')

theorem reads_number (hc : c.Valid) (n : ℕ) (hn : n ≤ 8) (hpos : 0 < n) :
    Reads (number n) c (c.fits n) := by
  have hrun := run_number hc n hn hpos
  unfold Reads Cur.fits
  split_ifs at hrun ⊢
  · exact ⟨_, hrun⟩
  · exact ⟨_, hrun⟩

theorem reads_offset (hc : c.Valid) (z : Sizes) : Reads (offset z) c (c.fits z.offSize) := by
  obtain ⟨v, hrun⟩ := run_offset hc z
  unfold Reads Cur.fits
  split_ifs at hrun ⊢
  · exact ⟨_, hrun⟩
  · exact ⟨_, hrun⟩

theorem reads_u8 (hc : c.Valid) : Reads u8 c (c.fits 1) := by
  have hlen := c.length_rest
  cases hrest : c.rest with
  | nil =>
    rw [hrest, List.length_nil] at hlen
    rw [Cur.fits, if_neg (by omega)]
    exact ⟨c, run_u8_nil hrest⟩
  | cons v bs =>
    rw [hrest, List.length_cons] at hlen
    rw [Cur.fits, if_pos (by omega)]
    exact ⟨v, run_u8_cons hc hrest⟩

theorem reads_uleb (hc : c.Valid) : Reads uleb c (lebLength 19 c.rest) := by
  have hrun := run_uleb hc
  cases hn : lebLength 19 c.rest with
  | some n =>
    rw [hn] at hrun
    exact ⟨_, hrun⟩
  | none =>
    rw [hn] at hrun
    obtain ⟨n, -, hrun⟩ := hrun
    exact ⟨_, hrun⟩

theorem reads_cstr (hc : c.Valid) :
    Reads cstr c (if c.p ≤ c.b.length then some ((c.rest.takeWhile (· ≠ 0)).length + 1)
      else none) := by
  have hrun := run_cstr hc
  split_ifs at hrun ⊢
  · exact ⟨_, hrun⟩
  · exact ⟨_, hrun⟩

/-- The attribute is decoded, and the cursor behind the value if it has a width. -/
def Decodes (x : Read Die) (c : Cur) (w : Option ℕ) : Prop :=
  ∃ d c', x.run c = .ok (some d, c') ∧ ∀ n, w = some n → c' = c.move n

/-- What a reader finds is put into the entry. -/
theorem Reads.decodes {α : Type} {x : Read α} {w : Option ℕ} (h : Reads x c w)
    {f : Option α → Read Die} (hf : ∀ o c', ∃ d, (f o).run c' = .ok (some d, c')) :
    Decodes (attempt x >>= f) c w := by
  have hrun : ∀ o c', x.run c = .ok (o, c') →
      ∃ d, (attempt x >>= f).run c = .ok (some d, c') := by
    intro o c' ho
    obtain ⟨d, hd⟩ := hf o c'
    exact ⟨d, by rw [run_bind_attempt, ho, ok_bind, hd]⟩
  cases w with
  | some n =>
    obtain ⟨v, hv⟩ := h
    obtain ⟨d, hd⟩ := hrun _ _ hv
    refine ⟨d, _, hd, fun m hm ↦ ?_⟩
    obtain rfl := Option.some.inj hm
    rfl
  | none =>
    obtain ⟨c', hc'⟩ := h
    obtain ⟨d, hd⟩ := hrun _ _ hc'
    exact ⟨d, c', hd, nofun⟩

/-- A string of another section is put into the entry. -/
theorem string_found (sec : Slice) (d : Die) (o : Option ℕ) (c : Cur) :
    ∃ d', (lift (stringAt sec o) >>= fun name ↦ pure { d with name } : Read Die).run c =
      .ok (some d', c) := by
  obtain ⟨name, hname⟩ := safe_stringAt sec o
  exact ⟨{ d with name }, by rw [run_bind_lift, hname]; rfl⟩

theorem decodes_nameAttr (secs : Sections) (z : Sizes) (hc : c.Valid) {form : ℕ}
    (hform : decodes atName form = true) (d : Die) :
    Decodes (nameAttr secs z form d) c (formWidth z form c) := by
  have hmem : form ∈ [0x08, 0x0E, 0x1F, 0x1A, 0x25, 0x26, 0x28] := by
    simpa [decodes, atName, atLowPc, atStrOffsetsBase] using hform
  simp only [List.mem_cons, List.not_mem_nil, or_false] at hmem
  rcases hmem with rfl | rfl | rfl | rfl | rfl | rfl | rfl
  · exact (reads_cstr hc).decodes fun _ _ ↦ ⟨_, rfl⟩
  · exact (reads_offset hc z).decodes fun o c' ↦ string_found secs.str d o c'
  · exact (reads_offset hc z).decodes fun o c' ↦ string_found secs.lineStr d o c'
  · exact (reads_uleb hc).decodes fun _ _ ↦ ⟨_, rfl⟩
  · exact (reads_u8 hc).decodes fun _ _ ↦ ⟨_, rfl⟩
  · exact (reads_number hc 2 (by decide) (by decide)).decodes fun _ _ ↦ ⟨_, rfl⟩
  · exact (reads_number hc 4 (by decide) (by decide)).decodes fun _ _ ↦ ⟨_, rfl⟩

/-- A reader of `n` bytes, whatever becomes of what it finds, takes them or nothing. -/
theorem run_attempt_number (hc : c.Valid) (n : ℕ) (hn : n ≤ 8) (hpos : 0 < n)
    {f : Option ℕ → Read Die} (hf : ∀ o c', ∃ d, (f o).run c' = .ok (some d, c')) :
    ∃ d, (attempt (number n) >>= f).run c = .ok (some d, c.move (taken n c)) := by
  have hrun := run_number hc n hn hpos
  unfold taken
  split_ifs at hrun ⊢
  · obtain ⟨d, hd⟩ := hf (some (ofLE (c.rest.take n))) (c.move n)
    exact ⟨d, by rw [run_bind_attempt, hrun, ok_bind, hd]⟩
  · obtain ⟨d, hd⟩ := hf none c
    exact ⟨d, by rw [run_bind_attempt, hrun, ok_bind, hd]; rfl⟩

theorem run_lowPc (secs : Sections) (z : Sizes) (hc : c.Valid) (d : Die) :
    ∃ d', (attr secs z atLowPc 0x01 d).run c = .ok (some d', c.move (taken (addressSize z) c)) := by
  change ∃ d', (attempt (address z) >>= fun lowPc ↦ pure { d with lowPc }).run c = _
  unfold address addressSize
  split
  · exact run_attempt_number hc 8 (by decide) (by decide) fun _ _ ↦ ⟨_, rfl⟩
  · exact run_attempt_number hc 4 (by decide) (by decide) fun _ _ ↦ ⟨_, rfl⟩

theorem run_strOffsetsBase (secs : Sections) (z : Sizes) (hc : c.Valid) (form : ℕ) (d : Die) :
    ∃ d', (attr secs z atStrOffsetsBase form d).run c =
      .ok (some d', c.move (taken z.offSize c)) := by
  change ∃ d', (attempt (offset z) >>= fun o ↦ pure { d with base := o.getD d.base }).run c = _
  unfold offset Sizes.offSize
  cases z.dwarf64 with
  | true => exact run_attempt_number hc 8 (by decide) (by decide) fun _ _ ↦ ⟨_, rfl⟩
  | false => exact run_attempt_number hc 4 (by decide) (by decide) fun _ _ ↦ ⟨_, rfl⟩

/-! ### When that is behind the value -/

/-- Skipping the form moves the cursor by its width. -/
theorem run_skipForm_iff (hc : c.Valid) (form : ℕ) (c' : Cur) :
    (skipForm z form).run c = .ok (some (), c') ↔
      ∃ n, formWidth z form c = some n ∧ c' = c.move n := by
  have hskips := run_skipForm hc z form
  change Skips _ c (formWidth z form c) at hskips
  cases hw : formWidth z form c with
  | some n =>
    rw [hw] at hskips
    rw [hskips.1]
    constructor
    · intro h
      exact ⟨n, rfl, (Prod.mk.inj (Except.ok.inj h)).2.symm⟩
    · rintro ⟨m, hm, rfl⟩
      obtain rfl := Option.some.inj hm
      rfl
  | none =>
    rw [hw] at hskips
    obtain ⟨n, -, hrun⟩ := hskips
    rw [hrun]
    constructor
    · intro h
      cases (Prod.mk.inj (Except.ok.inj h)).1
    · rintro ⟨m, hm, -⟩
      cases hm

/-- A reader that takes `n` bytes in any case. -/
theorem aligned_of_run (hc : c.Valid) {a form n : ℕ} {d d' : Die}
    (hrun : (attr secs z a form d).run c = .ok (some d', c.move n)) :
    Aligned secs z a form d c ↔ formWidth z form c = some n := by
  constructor
  · intro haligned
    obtain ⟨m, hm, hmove⟩ := (run_skipForm_iff hc form _).1 (haligned _ _ hrun)
    obtain rfl : n = m := by
      have hp := congrArg Cur.p hmove
      rw [Cur.p_move, Cur.p_move] at hp
      omega
    exact hm
  · intro hwidth d'' c'' hrun'
    obtain ⟨-, rfl⟩ := Prod.mk.inj (Except.ok.inj (hrun.symm.trans hrun'))
    exact (run_skipForm_iff hc form _).2 ⟨n, hwidth, rfl⟩

/-- The attributes that the walk decodes itself leave the cursor behind their value if and only if
the value has the width of the reader. -/
theorem aligned_iff (hc : c.Valid) {a form : ℕ} (hdecodes : decodes a form = true) (d : Die) :
    Aligned secs z a form d c ↔ WidthFits z a form c := by
  unfold WidthFits
  by_cases hname : a = atName
  · subst hname
    rw [if_pos rfl]
    have hattr : attr secs z atName form d = nameAttr secs z form d := rfl
    obtain ⟨d', c', hrun, hbehind⟩ := decodes_nameAttr secs z hc hdecodes d
    constructor
    · intro haligned
      obtain ⟨n, hn, -⟩ := (run_skipForm_iff hc form c').1 (haligned d' c' (hattr ▸ hrun))
      rw [hn]
      rfl
    · intro hwidth d'' c'' hrun'
      obtain ⟨n, hn⟩ := Option.isSome_iff_exists.1 hwidth
      rw [hattr, hrun] at hrun'
      obtain ⟨-, rfl⟩ := Prod.mk.inj (Except.ok.inj hrun')
      exact (run_skipForm_iff hc form _).2 ⟨n, hn, hbehind n hn⟩
  · rw [if_neg hname]
    by_cases hpc : a = atLowPc
    · subst hpc
      obtain rfl : form = 0x01 := by
        simpa [decodes, atName, atLowPc, atStrOffsetsBase] using hdecodes
      obtain ⟨d', hrun⟩ := run_lowPc secs z hc d
      rw [if_pos rfl]
      exact aligned_of_run hc hrun
    · obtain rfl : a = atStrOffsetsBase := by
        simpa [decodes, hname, hpc] using hdecodes
      obtain ⟨d', hrun⟩ := run_strOffsetsBase secs z hc form d
      rw [if_neg hpc]
      exact aligned_of_run hc hrun

/-- An address is read as wide as it is if it has four bytes or eight, or none where four bytes are
not left. -/
theorem widthFits_lowPc : WidthFits z atLowPc 0x01 c ↔
    (z.addrSize = 4 ∧ 4 ≤ c.left) ∨ (z.addrSize = 8 ∧ 8 ≤ c.left) ∨
      (z.addrSize = 0 ∧ c.left < 4) := by
  change c.fits z.addrSize = some (taken (addressSize z) c) ↔ _
  unfold Cur.fits taken addressSize
  split_ifs with hfits h8 hle hle
  all_goals simp only [Option.some.injEq, false_iff]
  all_goals omega

/-! ### All attributes of all units -/

/-- The walk comes to an attribute of the unit, with the cursor before its value. -/
def WalksAttr (secs : Sections) (vaddrToRva : ℕ → Option ℕ) (u : CompUnit) (a form : ℕ) (d : Die)
    (c : Cur) : Prop :=
  ∃ ab d₀ c₀ before implicit behind, WalksEntry secs vaddrToRva u ab d₀ c₀ ∧
    ab.attrs = before ++ ⟨a, form, implicit⟩ :: behind ∧
    (attrs secs u.sizes before d₀).run c₀ = .ok (some d, c)

/-- All attributes that a walk decodes itself leave the cursor behind their value if and only if all
their values have the width of the reader. -/
theorem walk_aligned_iff (secs : Sections) (vaddrToRva : ℕ → Option ℕ) :
    (∀ u a form d c, WalksAttr secs vaddrToRva u a form d c → decodes a form = true →
        Aligned secs u.sizes a form d c) ↔
      ∀ u a form d c, WalksAttr secs vaddrToRva u a form d c → decodes a form = true →
        WidthFits u.sizes a form c := by
  have hiff : ∀ u a form d c, WalksAttr secs vaddrToRva u a form d c → decodes a form = true →
      (Aligned secs u.sizes a form d c ↔ WidthFits u.sizes a form c) := by
    rintro u a form d c ⟨ab, d₀, c₀, before, implicit, behind, hentry, -, hrun⟩ hdecodes
    exact aligned_iff ((stays_attrs secs u.sizes before d₀ hentry.valid).of_run hrun).valid
      hdecodes d
  constructor
  · intro h u a form d c hwalks hdecodes
    exact (hiff u a form d c hwalks hdecodes).1 (h u a form d c hwalks hdecodes)
  · intro h u a form d c hwalks hdecodes
    exact (hiff u a form d c hwalks hdecodes).2 (h u a form d c hwalks hdecodes)

/-- A unit whose addresses have two bytes, with one function. -/
def narrowSections : Sections where
  info := ⟨[0x0C, 0, 0, 0, 4, 0, 0, 0, 0, 0, 2, 1, 0, 0x10, 1, 0], by decide⟩
  abbrevs := ⟨[1, 0x2E, 0, 0x11, 0x01, 0, 0, 0], by decide⟩

def narrowUnit : CompUnit where
  sizes := ⟨2, false⟩
  table := [(1, ⟨0x2E, false, [⟨atLowPc, 0x01, 0⟩]⟩)]
  cur := ⟨narrowSections.info.bytes, 11⟩
  stop := 16

/-- Four bytes are taken for an address of two. -/
theorem not_walk_aligned_narrow :
    ¬∀ u a form d c, WalksAttr narrowSections some u a form d c → decodes a form = true →
      Aligned narrowSections u.sizes a form d c := by
  have hunit : WalksUnit narrowSections some narrowUnit :=
    ⟨by decide, by decide, {}, narrowSections.info.bytes, ⟨narrowSections.info.bytes, 11⟩, 16,
      .here _ _, by decide, rfl, rfl⟩
  have hentry : WalksEntry narrowSections some narrowUnit ⟨0x2E, false, [⟨atLowPc, 0x01, 0⟩]⟩
      { base := 8 } ⟨narrowSections.info.bytes, 12⟩ :=
    ⟨hunit, narrowUnit.walk, .here _ _, ⟨by decide, 1, rfl, by decide, rfl⟩, rfl⟩
  intro h
  have haligned := h narrowUnit atLowPc 0x01 { base := 8 } ⟨narrowSections.info.bytes, 12⟩
    ⟨_, _, _, [], 0, [], hentry, rfl, rfl⟩ rfl { base := 8, lowPc := some 0x11000 }
    ⟨narrowSections.info.bytes, 16⟩ rfl
  have hskip : (skipForm narrowUnit.sizes 0x01).run ⟨narrowSections.info.bytes, 12⟩ =
      .ok (some (), ⟨narrowSections.info.bytes, 14⟩) := rfl
  have hp := congrArg Cur.p (Prod.mk.inj (Except.ok.inj (haligned.symm.trans hskip))).2
  cases hp

end Dwarf

end Ldu
