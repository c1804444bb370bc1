import Ldu.Listing.Decoder

/-!
# The targets of the decoder's references

A reference of `dsDecode` is relative to the next instruction: its target lies the displacement
behind the address at which the instruction ends. Each opcode works that address out for itself,
with the immediate that may follow the displacement. `Ctx.refForm` says where the displacement of an
opcode lies and what follows it, and `decodeOpcode_refersAs` that every opcode goes by it.

Shifts by an immediate and `test` with one leave the immediate out of account
(`shift_target_differs`), and no instruction is longer than fifteen bytes.
-/

namespace Ldu

namespace Listing

/-- Where the displacement of a reference lies behind the prefixes, its bytes, the bytes of
immediate behind it, and whether the reference leaves these out of account. -/
structure RefForm where
  pos : ℕ
  bytes : ℕ
  imm : ℕ := 0
  immLeftOut : Bool := false

namespace RefForm

variable (f : RefForm)

/-- The bytes of the instruction behind its prefixes. -/
def len : ℕ :=
  f.pos + f.bytes + f.imm

/-- The bytes that the reference takes the instruction to have. -/
def counted : ℕ :=
  f.pos + f.bytes + if f.immLeftOut then 0 else f.imm

/-- An opcode behind `0F`. -/
def twoByte (op2 : ℕ) : RefForm :=
  if 0x80 ≤ op2 ∧ op2 ≤ 0x8F then { pos := 2, bytes := 4 }
  else { pos := 3, bytes := 4, imm := if op2 ∈ [0x70, 0xBA, 0xC6] then 1 else 0 }

end RefForm

namespace Ctx

variable (c : Ctx)

/-- The displacement. -/
def dispAt (f : RefForm) : ℤ :=
  signed f.bytes (readLE c.p f.pos f.bytes)

/-- The bytes of immediate behind the ModRM operand of an opcode. -/
def rmImmSize (op : ℕ) : ℕ :=
  match op with
  | 0xC6 | 0x80 | 0x83 | 0x6B | 0xC0 | 0xC1 => 1
  | 0xC7 | 0x81 | 0x69 => c.immSize
  | 0xF6 => if c.byte 1 / 8 % 8 ≤ 1 then 1 else 0
  | 0xF7 => if c.byte 1 / 8 % 8 ≤ 1 then c.immSize else 0
  | _ => 0

/-- An opcode of one byte: the relative calls, jumps and branches, else a ModRM operand that is
relative to the next instruction. -/
def oneByteForm (op : ℕ) : RefForm :=
  if op ∈ [0xE8, 0xE9] then { pos := 1, bytes := 4 }
  else if (0x70 ≤ op ∧ op ≤ 0x7F) ∨ op ∈ [0xE0, 0xE1, 0xE2, 0xE3, 0xEB] then
    { pos := 1, bytes := 1 }
  else
    { pos := 2, bytes := 4, imm := c.rmImmSize op
      immLeftOut := op ∈ [0xC0, 0xC1, 0xF6, 0xF7] }

def refForm : RefForm :=
  if c.byte 0 = 0x0F then RefForm.twoByte (c.byte 1) else c.oneByteForm (c.byte 0)

end Ctx

/-- The draft refers to where its form says. -/
def Draft.RefersAs (d : Draft) (c : Ctx) (f : RefForm) : Prop :=
  d.refType ≠ .none →
    d.refTarget = c.targetOf f.counted (c.dispAt f) ∧ d.len = f.len ∧ d.len ≤ c.avail

section

variable {c : Ctx} {d : Draft} {f : RefForm}

theorem Draft.refersAs_of_none (h : d.refType = .none) : d.RefersAs c f :=
  fun hd ↦ absurd h hd

/-! ### ModRM operands -/

theorem memForm_ripRel {off : ℕ} {g : MemForm} (h : memForm c off = some g)
    (hrip : g.ripRel = true) : g.used = 1 ∧ g.dispBytes = 4 := by
  unfold memForm at h
  dsimp only at h
  split at h
  · split at h <;> cases h
    cases hrip
  · split at h <;> cases h
    · exact ⟨rfl, rfl⟩
    · cases hrip

/-- An operand relative to the next instruction is a ModRM byte with a displacement of four. -/
theorem decodeModrm_rip {off opsize : ℕ} {xmm : Bool} {m : Modrm} {disp : ℤ}
    (h : decodeModrm c off opsize xmm = some m) (hrip : m.rip = some disp) :
    disp = signed 4 (readLE c.p (off + 1) 4) ∧ m.used = 5 ∧ off + 5 ≤ c.avail := by
  unfold decodeModrm at h
  split at h
  · cases h
  · dsimp only at h
    split at h
    · cases h
      cases hrip
    · split at h
      · cases h
      · rename_i g hg
        split at h
        · cases h
        · rename_i havail
          split at h
          · rename_i hripRel
            have ⟨hused, hdisp⟩ := memForm_ripRel hg hripRel
            cases h
            rw [hused, hdisp] at havail hrip ⊢
            cases hrip
            exact ⟨rfl, rfl, by omega⟩
          · cases h
            cases hrip

theorem decodeModrm_reg {off opsize : ℕ} {xmm : Bool} {m : Modrm}
    (h : decodeModrm c off opsize xmm = some m) : m.reg % 8 = c.byte off / 8 % 8 := by
  have hext : ∀ r : ℕ, Ctx.ext c.rexR (r % 8) % 8 = r % 8 := fun r ↦ by
    unfold Ctx.ext
    split <;> omega
  unfold decodeModrm at h
  dsimp only at h
  split at h
  · cases h
  · split at h
    · cases h
      exact hext _
    · split at h
      · cases h
      · split at h
        · cases h
        · split at h <;> cases h <;> exact hext _

theorem decodeModrm_le {off opsize : ℕ} {xmm : Bool} {m : Modrm}
    (h : decodeModrm c off opsize xmm = some m) : off + m.used ≤ c.avail := by
  unfold decodeModrm at h
  dsimp only at h
  split at h
  · cases h
  · split at h
    · cases h
      dsimp only
      omega
    · split at h
      · cases h
      · split at h
        · cases h
        · split at h <;> cases h <;> dsimp only <;> omega

/-! ### Kinds of instructions -/

/-- A reference to data that takes `n` bytes of immediate into account. -/
theorem dataRef_refersAs {off opsize n : ℕ} {xmm : Bool} {m : Modrm}
    (hm : decodeModrm c off opsize xmm = some m) (hlen : d.len = off + m.used + n)
    (havail : d.len ≤ c.avail) (hnone : d.refType = .none) :
    (c.dataRef m d).RefersAs c { pos := off + 1, bytes := 4, imm := n } := by
  unfold Ctx.dataRef
  split
  · rename_i disp hrip
    obtain ⟨rfl, hused, -⟩ := decodeModrm_rip hm hrip
    have hlen' : d.len = off + 1 + 4 + n := by omega
    intro _
    exact ⟨by rw [hlen']; rfl, hlen', havail⟩
  · exact Draft.refersAs_of_none hnone

theorem withRm_refersAs {off opsize : ℕ} {text : Modrm → String × String}
    (h : withRm c off opsize text = some d) :
    d.RefersAs c { pos := off + 1, bytes := 4 } := by
  obtain ⟨m, hm, rfl⟩ := Option.map_eq_some_iff.1 h
  exact dataRef_refersAs hm rfl (decodeModrm_le hm) rfl

theorem withRmImm_refersAs {off opsize n : ℕ} {text : Modrm → ℕ → String × String}
    (h : withRmImm c off opsize n text = some d) :
    d.RefersAs c { pos := off + 1, bytes := 4, imm := n } := by
  obtain ⟨m, hm, h⟩ := Option.bind_eq_some_iff.1 h
  split at h <;> cases h
  exact dataRef_refersAs hm rfl (by dsimp only; omega) rfl

theorem relative_refersAs {mnemonic : String} {refType : RefType} {off n : ℕ}
    (h : relative c mnemonic refType off n = some d) :
    d.RefersAs c { pos := off, bytes := n } := by
  unfold relative at h
  split at h <;> cases h
  exact fun _ ↦ ⟨rfl, rfl, by dsimp only; omega⟩

theorem withRmOnly_refersAs {off opsize : ℕ} {text : Modrm → String × String}
    (h : withRmOnly c off opsize text = some d) : d.RefersAs c f := by
  obtain ⟨m, -, rfl⟩ := Option.map_eq_some_iff.1 h
  exact Draft.refersAs_of_none rfl

theorem plain_refersAs {mnemonic operands : String} {len : ℕ}
    (h : plain mnemonic operands len = some d) : d.RefersAs c f := by
  cases h
  exact Draft.refersAs_of_none rfl

theorem withImm_refersAs {off n : ℕ} {mnemonic : String} {operands : ℕ → String}
    (h : withImm c off n mnemonic operands = some d) : d.RefersAs c f := by
  unfold withImm at h
  split at h <;> cases h
  exact Draft.refersAs_of_none rfl

/-! ### Opcodes behind `0F` -/

theorem sseForm_imm (op2 : ℕ) : (sseForm c op2).imm = decide (op2 ∈ [0x70, 0xC6]) := by
  unfold sseForm
  dsimp only
  split <;> first | rfl | skip
  · split <;> rfl
  · simp_all

theorem decodeSse_refersAs {op2 : ℕ} (h : decodeSse c op2 = some d) :
    d.RefersAs c { pos := 3, bytes := 4, imm := if op2 ∈ [0x70, 0xC6] then 1 else 0 } := by
  unfold decodeSse at h
  split at h
  · obtain ⟨m, -, h⟩ := Option.bind_eq_some_iff.1 h
    split at h <;> cases h
    exact Draft.refersAs_of_none rfl
  · obtain ⟨m, hm, h⟩ := Option.bind_eq_some_iff.1 h
    have himm := sseForm_imm (c := c) op2
    have hle := decodeModrm_le hm
    split at h <;> cases h
    rename_i havail
    simp only [himm, decide_eq_true_eq] at havail ⊢
    refine dataRef_refersAs hm rfl ?_ rfl
    dsimp only
    split
    · rename_i hop
      have : ¬c.avail ≤ 2 + m.used := fun hle ↦ havail ⟨hop, hle⟩
      omega
    · exact hle

/-- The ModRM operands behind `0F` that no immediate follows. -/
theorem RefForm.twoByte_rm {op2 : ℕ} (hjcc : ¬(0x80 ≤ op2 ∧ op2 ≤ 0x8F))
    (himm : op2 ∉ [0x70, 0xBA, 0xC6]) : RefForm.twoByte op2 = { pos := 3, bytes := 4 } := by
  rw [RefForm.twoByte, if_neg hjcc, if_neg himm]

theorem twoByteRegs_imm {rep : Bool} {op2 : ℕ} {r : String × Bool}
    (h : twoByteRegs rep op2 = some r) : op2 ∉ [0x70, 0xBA, 0xC6] := by
  unfold twoByteRegs at h
  split at h <;> first | decide | cases h

theorem decodeTwoByte_refersAs {op2 : ℕ} (h : decodeTwoByte c op2 = some d) :
    d.RefersAs c (RefForm.twoByte op2) := by
  unfold decodeTwoByte at h
  split at h
  · rename_i hjcc
    rw [RefForm.twoByte, if_pos hjcc]
    exact relative_refersAs h
  rename_i hjcc
  split at h
  · rw [RefForm.twoByte_rm hjcc (by simp; omega)]
    exact withRm_refersAs h
  split at h
  · rw [RefForm.twoByte_rm hjcc (by simp; omega)]
    exact withRm_refersAs h
  split at h
  · rename_i hop
    rw [RefForm.twoByte_rm hjcc (by simp at hop ⊢; omega)]
    exact withRm_refersAs h
  split at h
  · exact withRmOnly_refersAs h
  split at h
  · exact plain_refersAs h
  split at h
  · rename_i hsse
    have hop : op2 ≠ 0xBA := by
      rintro rfl
      exact absurd hsse (by decide)
    simpa [RefForm.twoByte, hjcc, hop] using decodeSse_refersAs h
  split at h
  · rename_i hop
    subst hop
    exact withRmImm_refersAs h
  split at h
  · rename_i hregs
    rw [RefForm.twoByte_rm hjcc (twoByteRegs_imm hregs)]
    exact withRm_refersAs h
  split at h
  · rename_i hop
    rw [RefForm.twoByte_rm hjcc (by simp at hop ⊢; omega)]
    exact withRm_refersAs h
  · exact withRmOnly_refersAs h

/-! ### Opcodes of one byte -/

/-- An immediate that is read after the reference. -/
theorem dataRef_refersAs_leftOut {off opsize n : ℕ} {xmm : Bool} {m : Modrm} {d' : Draft}
    (hm : decodeModrm c off opsize xmm = some m) (hlen : d.len = off + m.used)
    (hnone : d.refType = .none)
    (hd' : d' = { c.dataRef m d with operands := d'.operands, len := off + m.used + n })
    (havail : off + m.used + n ≤ c.avail) :
    d'.RefersAs c { pos := off + 1, bytes := 4, imm := n, immLeftOut := true } := by
  have hrefers : (c.dataRef m d).RefersAs c { pos := off + 1, bytes := 4 } :=
    dataRef_refersAs hm hlen (by omega) hnone
  rw [hd']
  intro hd
  obtain ⟨htarget, hlen', -⟩ := hrefers hd
  have hlen₀ : (c.dataRef m d).len = d.len := by
    unfold Ctx.dataRef
    split <;> rfl
  refine ⟨htarget, ?_, havail⟩
  simp only [RefForm.len] at hlen' ⊢
  omega

/-- Only a shift by an immediate has one. -/
theorem decodeShift_refersAs {op : ℕ} {b : Bool} (hb : decide (op ≤ 0xC1) = b)
    (h : decodeShift c op = some d) :
    d.RefersAs c { pos := 2, bytes := 4, imm := if b then 1 else 0, immLeftOut := b } := by
  obtain ⟨m, hm, h⟩ := Option.bind_eq_some_iff.1 h
  subst hb
  dsimp only at h
  split at h
  · rename_i hop
    split at h <;> cases h
    simp only [hop, decide_true, if_true]
    exact dataRef_refersAs_leftOut hm rfl rfl rfl (by omega)
  · rename_i hop
    cases h
    simp only [hop, decide_false]
    exact dataRef_refersAs hm rfl (decodeModrm_le hm) rfl

/-- Only `test` has an immediate. -/
theorem decodeUnary_refersAs {op n : ℕ} (hn : (if op = 0xF6 then 1 else c.immSize) = n)
    (h : decodeUnary c op = some d) :
    d.RefersAs c
      { pos := 2, bytes := 4, imm := if c.byte 1 / 8 % 8 ≤ 1 then n else 0
        immLeftOut := true } := by
  obtain ⟨m, hm, h⟩ := Option.bind_eq_some_iff.1 h
  dsimp only at h
  rw [decodeModrm_reg hm, hn] at h
  split at h
  · rename_i htest
    split at h <;> cases h
    rw [if_pos htest]
    exact dataRef_refersAs_leftOut hm rfl rfl rfl (by omega)
  · rename_i htest
    cases h
    rw [if_neg htest]
    exact dataRef_refersAs hm rfl (decodeModrm_le hm) rfl

theorem decodeFF_refersAs (h : decodeFF c = some d) :
    d.RefersAs c { pos := 2, bytes := 4 } := by
  obtain ⟨m, hm, rfl⟩ := Option.map_eq_some_iff.1 h
  dsimp only
  split
  · rename_i disp hrip
    obtain ⟨rfl, hused, havail⟩ := decodeModrm_rip hm hrip
    rw [hused]
    exact fun _ ↦ ⟨rfl, rfl, havail⟩
  · exact Draft.refersAs_of_none rfl

theorem decodeMovRmImm_refersAs {op n : ℕ} (hn : (if op = 0xC6 then 1 else c.immSize) = n)
    (h : decodeMovRmImm c op = some d) : d.RefersAs c { pos := 2, bytes := 4, imm := n } := by
  unfold decodeMovRmImm at h
  rw [hn] at h
  exact withRmImm_refersAs h

theorem decodeAluImm_refersAs {op n : ℕ} (hn : (if op = 0x81 then c.immSize else 1) = n)
    (h : decodeAluImm c op = some d) : d.RefersAs c { pos := 2, bytes := 4, imm := n } := by
  unfold decodeAluImm at h
  rw [hn] at h
  exact withRmImm_refersAs h

theorem decodeRm_refersAs {op : ℕ} (h : decodeRm c op = some d) :
    d.RefersAs c (c.oneByteForm op) := by
  unfold decodeRm at h
  dsimp only at h
  split at h
  case h_25 | h_26 => exact withRmOnly_refersAs h
  case h_37 => cases h
  all_goals
    simp only [Ctx.oneByteForm, Ctx.rmImmSize, List.mem_cons, List.not_mem_nil, or_self, or_false,
      or_true, and_false, and_true, Nat.reduceEqDiff, Nat.reduceLeDiff, Nat.succ_ne_self,
      if_false, decide_true, decide_false]
  case h_5 =>
    split at h
    · exact withRm_refersAs h
    · cases h
  case h_11 => exact decodeMovRmImm_refersAs rfl h
  case h_12 => exact decodeMovRmImm_refersAs rfl h
  case h_13 | h_14 | h_15 => exact decodeAluImm_refersAs rfl h
  case h_16 | h_17 => exact decodeShift_refersAs rfl h
  case h_18 | h_19 | h_20 | h_21 => exact decodeShift_refersAs rfl h
  case h_22 | h_23 => exact decodeUnary_refersAs rfl h
  case h_24 => exact decodeFF_refersAs h
  case h_27 | h_28 => exact withRmImm_refersAs h
  all_goals exact withRm_refersAs h

theorem decodeImm_refersAs {op : ℕ} (h : decodeImm c op = some d) :
    d.RefersAs c (c.oneByteForm op) := by
  unfold decodeImm at h
  split at h
  case h_1 | h_2 | h_3 | h_4 | h_5 | h_6 | h_7 | h_8 | h_9 | h_10 | h_11 =>
    exact withImm_refersAs h
  case h_12 | h_13 | h_14 | h_15 => exact plain_refersAs h
  case h_16 | h_17 | h_18 | h_19 | h_20 | h_21 | h_22 => exact relative_refersAs h
  case h_23 => cases h

theorem Ctx.oneByteForm_alu {op : ℕ} (hop : op < 0x40) :
    c.oneByteForm op = { pos := 2, bytes := 4 } := by
  have himm : c.rmImmSize op = 0 := by
    unfold Ctx.rmImmSize
    split <;> omega
  rw [Ctx.oneByteForm, if_neg (by simp; omega), if_neg (by simp; omega), himm]
  congr
  simp
  omega

theorem decodeAlu_refersAs {op : ℕ} (hop : op < 0x40) (h : decodeAlu c op = some d) :
    d.RefersAs c (c.oneByteForm op) := by
  rw [Ctx.oneByteForm_alu hop]
  unfold decodeAlu at h
  dsimp only at h
  split at h
  · exact withImm_refersAs h
  · split at h
    · exact withImm_refersAs h
    · exact withRm_refersAs h

theorem decodeMovImm_refersAs {op : ℕ} (h : decodeMovImm c op = some d) : d.RefersAs c f := by
  unfold decodeMovImm at h
  dsimp only at h
  split at h
  · exact withImm_refersAs h
  · split at h <;> exact withImm_refersAs h

theorem decodeOneByte_refersAs {op : ℕ} (h : decodeOneByte c op = some d) :
    d.RefersAs c (c.oneByteForm op) := by
  unfold decodeOneByte at h
  split at h
  · rename_i hop
    exact decodeAlu_refersAs hop.1 h
  split at h
  · split at h
    · cases h
    · exact plain_refersAs h
  split at h
  · exact plain_refersAs h
  split at h
  · rename_i hop
    rw [Ctx.oneByteForm, if_neg (by simp; omega), if_pos (.inl hop)]
    exact relative_refersAs h
  split at h
  · exact plain_refersAs h
  split at h
  · unfold decodeMoffs at h
    exact withImm_refersAs h
  split at h
  · exact decodeMovImm_refersAs h
  split at h
  · exact plain_refersAs h
  · rcases Option.or_eq_some_iff.1 h with h | ⟨-, h⟩
    · exact decodeRm_refersAs h
    · exact decodeImm_refersAs h

/-- Every opcode goes by its form. -/
theorem decodeOpcode_refersAs (h : decodeOpcode c = some d) : d.RefersAs c c.refForm := by
  unfold decodeOpcode at h
  split at h
  · cases h
  · rename_i op p hp
    have hbyte : c.byte 0 = op.toNat := by simp [Ctx.byte, readLE, hp]
    rw [Ctx.refForm, hbyte]
    split at h
    · rename_i hop
      rw [if_pos hop]
      split at h
      · cases h
      · exact decodeTwoByte_refersAs h
    · rename_i hop
      rw [if_neg hop]
      exact decodeOneByte_refersAs h

end

/-! ### Instructions -/

/-- The bytes behind the prefixes. -/
def Ctx.ofBytes (is64 : Bool) (bytes : List UInt8) (addr : ℕ) : Ctx :=
  (Ctx.readPrefixes bytes { p := bytes, addr := addr, is64 := is64 }).readRex

theorem Ctx.legacyPrefix_frame {c c' : Ctx} {b : ℕ} (h : c.legacyPrefix b = some c') :
    c'.addr = c.addr ∧ c'.prefixLen = c.prefixLen ∧ c'.p = c.p := by
  unfold Ctx.legacyPrefix at h
  split at h <;> cases h <;> exact ⟨rfl, rfl, rfl⟩

theorem Ctx.readPrefixes_frame (bytes : List UInt8) (c : Ctx) :
    (readPrefixes bytes c).addr = c.addr ∧
      (readPrefixes bytes c).prefixLen + (readPrefixes bytes c).p.length =
        c.prefixLen + bytes.length := by
  induction bytes generalizing c with
  | nil => exact ⟨rfl, rfl⟩
  | cons b bytes ih =>
    unfold Ctx.readPrefixes
    split
    · rename_i c' hc
      obtain ⟨haddr, hlen, -⟩ := Ctx.legacyPrefix_frame hc
      obtain ⟨haddr', hlen'⟩ := ih { c' with prefixLen := c'.prefixLen + 1 }
      refine ⟨haddr'.trans haddr, hlen'.trans ?_⟩
      rw [List.length_cons]
      dsimp only
      omega
    · exact ⟨rfl, rfl⟩

theorem Ctx.readRex_frame (c : Ctx) :
    c.readRex.addr = c.addr ∧ c.readRex.prefixLen + c.readRex.p.length =
      c.prefixLen + c.p.length := by
  unfold Ctx.readRex
  split
  · rename_i b p hp
    split
    · refine ⟨rfl, ?_⟩
      rw [hp, List.length_cons]
      dsimp only
      omega
    · exact ⟨rfl, rfl⟩
  · exact ⟨rfl, rfl⟩

theorem Ctx.ofBytes_frame (is64 : Bool) (bytes : List UInt8) (addr : ℕ) :
    (ofBytes is64 bytes addr).addr = addr ∧
      (ofBytes is64 bytes addr).prefixLen + (ofBytes is64 bytes addr).avail = bytes.length := by
  have hrex := readRex_frame (readPrefixes bytes { p := bytes, addr := addr, is64 := is64 })
  have hprefixes := readPrefixes_frame bytes { p := bytes, addr := addr, is64 := is64 }
  exact ⟨hrex.1.trans hprefixes.1, (hrex.2.trans hprefixes.2).trans (Nat.zero_add _)⟩

/-- The reference takes the instruction to have the bytes that it is said to have: those that fit in
fifteen, of which no immediate is left out of account unless it is cut off entirely. -/
def Ctx.RefExact (c : Ctx) : Prop :=
  if c.refForm.immLeftOut ∧ 0 < c.refForm.imm then
    c.prefixLen + c.refForm.pos + c.refForm.bytes = 15
  else c.prefixLen + c.refForm.len ≤ 15

theorem Ctx.refExact_iff (c : Ctx) :
    c.RefExact ↔ c.prefixLen + c.refForm.counted = min (c.prefixLen + c.refForm.len) 15 := by
  unfold RefExact RefForm.counted RefForm.len
  split
  · rename_i hleft
    rw [if_pos hleft.1]
    omega
  · rename_i hleft
    split
    · rename_i hout
      have : c.refForm.imm = 0 := Nat.eq_zero_of_not_pos fun himm ↦ hleft ⟨hout, himm⟩
      omega
    · omega

theorem Ctx.refForm_len_pos (c : Ctx) : 0 < c.refForm.len := by
  unfold refForm RefForm.twoByte oneByteForm RefForm.len
  split
  · split <;> dsimp only <;> omega
  · split
    · exact Nat.succ_pos _
    · split <;> dsimp only <;> omega

/-- Addresses that differ by less than the address space are told apart. -/
theorem wrapInt_add_inj {a x y : ℕ} {v : ℤ} (hx : x < 2 ^ 64) (hy : y < 2 ^ 64) :
    wrapInt ((a + x : ℕ) + v) = wrapInt ((a + y : ℕ) + v) ↔ x = y := by
  unfold wrapInt
  constructor <;> intro h <;> omega

/-- What reports a reference is an instruction that was read. -/
theorem exists_draft_of_ref {is64 : Bool} {bytes : List UInt8} {addr : ℕ}
    (href : (dsDecode is64 bytes addr).refType ≠ .none) :
    ∃ d, decodeOpcode (Ctx.ofBytes is64 bytes addr) = some d ∧ d.refType ≠ .none ∧
      (dsDecode is64 bytes addr).refTarget = d.refTarget ∧
      (dsDecode is64 bytes addr).size =
        min (min (max ((Ctx.ofBytes is64 bytes addr).prefixLen + d.len) 1) bytes.length) 15 := by
  unfold dsDecode at href ⊢
  unfold Ctx.ofBytes
  dsimp only at href ⊢
  split at href
  · exact absurd rfl href
  · rename_i d hd
    exact ⟨d, hd, href, rfl, rfl⟩

/-- The target of a reference is the address of the next instruction and the displacement, modulo
`2 ^ 64`, just when the reference counts all bytes that the instruction is said to have. -/
theorem refTarget_exact_iff (is64 : Bool) (bytes : List UInt8) (addr : ℕ)
    (hbytes : bytes.length < 2 ^ 64) (href : (dsDecode is64 bytes addr).refType ≠ .none) :
    (dsDecode is64 bytes addr).refTarget =
        wrapInt ((addr + (dsDecode is64 bytes addr).size : ℕ) +
          (Ctx.ofBytes is64 bytes addr).dispAt (Ctx.ofBytes is64 bytes addr).refForm) ↔
      (Ctx.ofBytes is64 bytes addr).RefExact := by
  obtain ⟨d, hd, hdref, htarget, hsize⟩ := exists_draft_of_ref href
  obtain ⟨haddr, havail⟩ := Ctx.ofBytes_frame is64 bytes addr
  rw [htarget, hsize]
  generalize Ctx.ofBytes is64 bytes addr = c at hd haddr havail ⊢
  obtain ⟨hd_target, hd_len, hd_le⟩ := decodeOpcode_refersAs hd hdref
  have hpos := c.refForm_len_pos
  have hcounted : c.refForm.counted ≤ c.refForm.len := by
    unfold RefForm.counted RefForm.len
    split <;> omega
  have hsize' : min (min (max (c.prefixLen + d.len) 1) bytes.length) 15 =
      min (c.prefixLen + c.refForm.len) 15 := by
    omega
  rw [hd_target, hsize', Ctx.targetOf, haddr, Nat.add_assoc, Ctx.refExact_iff]
  exact wrapInt_add_inj (by omega) (by omega)

/-- `mov eax, [rip+0x1000]` -/
theorem refTarget_exact_iff_mov :
    (dsDecode true [0x8B, 0x05, 0, 0x10, 0, 0] 0x1000).refTarget =
        wrapInt ((0x1000 + (dsDecode true [0x8B, 0x05, 0, 0x10, 0, 0] 0x1000).size : ℕ) +
          (Ctx.ofBytes true [0x8B, 0x05, 0, 0x10, 0, 0] 0x1000).dispAt
            (Ctx.ofBytes true [0x8B, 0x05, 0, 0x10, 0, 0] 0x1000).refForm) ↔
      (Ctx.ofBytes true [0x8B, 0x05, 0, 0x10, 0, 0] 0x1000).RefExact :=
  refTarget_exact_iff true [0x8B, 0x05, 0, 0x10, 0, 0] 0x1000 (by decide) (by decide +kernel)

/-- `shl dword ptr [rip+0x1000], 4` refers to the byte before the one that it shifts. -/
theorem shift_target_differs :
    (dsDecode true [0xC1, 0x25, 0, 0x10, 0, 0, 4] 0x1000).refType = .data ∧
      (dsDecode true [0xC1, 0x25, 0, 0x10, 0, 0, 4] 0x1000).size = 7 ∧
      (dsDecode true [0xC1, 0x25, 0, 0x10, 0, 0, 4] 0x1000).refTarget = 0x2006 ∧
      wrapInt ((0x1000 + 7 : ℕ) + (Ctx.ofBytes true [0xC1, 0x25, 0, 0x10, 0, 0, 4] 0x1000).dispAt
        (Ctx.ofBytes true [0xC1, 0x25, 0, 0x10, 0, 0, 4] 0x1000).refForm) = 0x2007 := by
  decide +kernel

end Listing

end Ldu
