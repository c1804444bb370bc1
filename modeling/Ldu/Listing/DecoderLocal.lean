import Ldu.Checked.Consumes
import Ldu.Listing.DecoderReads

/-!
# An instruction depends on its own bytes

What the built-in decoder reads as an instruction is decided by the bytes of that instruction:
prefixes, opcode, ModRM operand and immediates are all that it looks at, and each look at how many
bytes are left is for bytes that the instruction then has (`consumes_decodeOpcode`). So any input
with the same first bytes gives the same instruction (`dsDecode_of_agree`).
-/

namespace Ldu

namespace Listing

open Checked

/-! ### Operands -/

/-- The same prefixes in front of other bytes. -/
abbrev Ctx.over (c : Ctx) (p' : List UInt8) : Ctx :=
  { c with p := p' }

section Local

variable {c : Ctx} {p' : List UInt8} {lo off n : ℕ}

theorem readLE_of_agree {p : List UInt8} {k : ℕ} (h : Agree k p p') (hk : off + n ≤ k) :
    readLE p' off n = readLE p off n := by
  induction n generalizing off with
  | zero => rfl
  | succ n ih => rw [readLE, readLE, h.eq off (by omega), ih (by omega)]

theorem byte_of_agree {i k : ℕ} (h : Agree k c.p p') (hi : i < k) :
    (c.over p').byte i = c.byte i :=
  readLE_of_agree h hi

theorem consumes_memForm (p' : List UInt8) (hoff : off < c.avail) :
    Consumes (fun m ↦ off + m.used) c.p p' (off + 1) (memForm c off) (memForm (c.over p') off) := by
  have hmodrm : Agree (off + 1) c.p p' → (c.over p').byte off = c.byte off :=
    fun h ↦ byte_of_agree h (Nat.lt_succ_self off)
  refine .ite (fun h ↦ by rw [hmodrm h]) (fun _ ↦ ?_) fun _ ↦
    .ite (fun h ↦ by rw [hmodrm h]) (fun _ ↦ ?_) fun _ ↦ ?_
  · refine .bound (k := off + 2) (by omega) not_le.1 (fun h ↦ not_le.2 h) fun hle ↦ ?_
    refine .done rfl hle fun h ↦ ?_
    rw [hmodrm (h.mono (by omega)), byte_of_agree h (Nat.lt_succ_self (off + 1))]
  · exact .done rfl hoff fun _ ↦ rfl
  · exact .done rfl hoff fun h ↦ by rw [hmodrm h]

theorem consumes_decodeModrm {opsize : ℕ} {rmIsXmm : Bool} :
    Consumes (fun m ↦ off + m.used) c.p p' (off + 1) (decodeModrm c off opsize rmIsXmm)
      (decodeModrm (c.over p') off opsize rmIsXmm) := by
  refine .bound le_rfl not_le.1 (fun h ↦ not_le.2 h) fun hoff ↦ ?_
  have hmodrm : Agree (off + 1) c.p p' → (c.over p').byte off = c.byte off :=
    fun h ↦ byte_of_agree h (Nat.lt_succ_self off)
  refine .ite (fun h ↦ by rw [hmodrm h])
    (fun _ ↦ .done rfl hoff fun h ↦ by rw [hmodrm h]; rfl) fun _ ↦ ?_
  cases hm : memForm c off with
  | none => exact .none
  | some m =>
    obtain ⟨hlo, -, hsame⟩ := consumes_memForm p' hoff m hm
    refine .raise hlo (.congr (fun h ↦ by rw [hsame h]) ?_)
    refine .bound (Nat.le_add_right _ m.dispBytes) not_lt.1 (fun h ↦ not_lt.2 h) fun hle ↦ ?_
    have hdisp : Agree (off + m.used + m.dispBytes) c.p p' →
        readLE p' (off + m.used) m.dispBytes = readLE c.p (off + m.used) m.dispBytes :=
      fun h ↦ readLE_of_agree h le_rfl
    refine .ite_const (fun _ ↦ ?_) fun _ ↦ ?_
    · refine .done (Nat.add_assoc _ _ _).symm hle fun h ↦ ?_
      rw [hdisp h, hmodrm (h.mono (by omega))]
    · refine .done (Nat.add_assoc _ _ _).symm hle fun h ↦ ?_
      rw [hdisp h, hmodrm (h.mono (by omega))]
      rfl

/-! ### The ways to read an instruction -/

theorem Ctx.dataRef_len (c : Ctx) (m : Modrm) (d : Draft) : (c.dataRef m d).len = d.len := by
  unfold Ctx.dataRef
  split <;> rfl

theorem consumes_plain {mnemonic operands : String} (h : n ≤ c.avail) :
    Consumes Draft.len c.p p' n (plain mnemonic operands n) (plain mnemonic operands n) :=
  .done rfl h fun _ ↦ rfl

theorem consumes_relative {mnemonic : String} {refType : RefType} (hlo : lo ≤ off) :
    Consumes Draft.len c.p p' lo (relative c mnemonic refType off n)
      (relative (c.over p') mnemonic refType off n) := by
  refine .bound (Nat.le_add_right_of_le hlo) not_lt.1 (fun h ↦ not_lt.2 h) fun hle ↦ ?_
  exact .done rfl hle fun h ↦ by rw [readLE_of_agree h le_rfl]; rfl

theorem consumes_withImm {mnemonic : String} {operands : ℕ → String} (hlo : lo ≤ off) :
    Consumes Draft.len c.p p' lo (withImm c off n mnemonic operands)
      (withImm (c.over p') off n mnemonic operands) := by
  refine .bound (Nat.le_add_right_of_le hlo) not_lt.1 (fun h ↦ not_lt.2 h) fun hle ↦ ?_
  exact .done rfl hle fun h ↦ by rw [readLE_of_agree h le_rfl]

/-- What stands behind a ModRM operand. -/
theorem consumes_bind {opsize : ℕ} {rmIsXmm : Bool} {f f' : Modrm → Option Draft} (hlo : lo ≤ off)
    (h : ∀ m, off + m.used ≤ c.avail → Consumes Draft.len c.p p' (off + m.used) (f m) (f' m)) :
    Consumes Draft.len c.p p' lo ((decodeModrm c off opsize rmIsXmm).bind f)
      ((decodeModrm (c.over p') off opsize rmIsXmm).bind f') :=
  (consumes_decodeModrm.bind h).raise (Nat.le_succ_of_le hlo)

theorem consumes_withRmOnly {opsize : ℕ} {text : Modrm → String × String} (hlo : lo ≤ off) :
    Consumes Draft.len c.p p' lo (withRmOnly c off opsize text)
      (withRmOnly (c.over p') off opsize text) := by
  rw [withRmOnly, withRmOnly, Option.map_eq_bind, Option.map_eq_bind]
  exact consumes_bind hlo fun m hle ↦ .done rfl hle fun _ ↦ rfl

theorem consumes_withRm {opsize : ℕ} {text : Modrm → String × String} (hlo : lo ≤ off) :
    Consumes Draft.len c.p p' lo (withRm c off opsize text)
      (withRm (c.over p') off opsize text) := by
  rw [withRm, withRm, Option.map_eq_bind, Option.map_eq_bind]
  exact consumes_bind hlo fun m hle ↦ .done (c.dataRef_len _ _) hle fun _ ↦ rfl

theorem consumes_withRmImm {opsize : ℕ} {text : Modrm → ℕ → String × String} (hlo : lo ≤ off) :
    Consumes Draft.len c.p p' lo (withRmImm c off opsize n text)
      (withRmImm (c.over p') off opsize n text) := by
  refine consumes_bind hlo fun m _ ↦ ?_
  refine .bound (Nat.le_add_right _ n) not_lt.1 (fun h ↦ not_lt.2 h) fun hle ↦ ?_
  exact .done (c.dataRef_len _ _) hle fun h ↦ by rw [readLE_of_agree h le_rfl]; rfl

theorem consumes_decodeSse {op2 : ℕ} (hlo : lo ≤ 2) :
    Consumes Draft.len c.p p' lo (decodeSse c op2) (decodeSse (c.over p') op2) := by
  refine .ite_const (fun _ ↦ consumes_bind hlo fun m _ ↦ ?_) fun _ ↦
    consumes_bind hlo fun m hle ↦ ?_
  · refine .bound (Nat.le_succ _) not_le.1 (fun h ↦ not_le.2 h) fun hle ↦ ?_
    exact .done rfl hle fun h ↦ by rw [byte_of_agree h (Nat.lt_succ_self _)]
  · dsimp only
    rw [show sseForm (c.over p') op2 = sseForm c op2 from rfl]
    cases himm : (sseForm c op2).imm with
    | true =>
      refine .bound (k := 2 + m.used + 1) (Nat.le_succ _) (fun h ↦ ?_) (fun h ↦ ?_) fun hle ↦
        .done (c.dataRef_len _ _) hle fun h ↦ ?_
      · exact not_le.1 fun hle ↦ h ⟨rfl, hle⟩
      · exact fun h' ↦ absurd h (not_le.2 (Nat.lt_succ_of_le h'.2))
      · rw [byte_of_agree h (Nat.lt_succ_self _)]
        rfl
    | false =>
      refine .bound le_rfl (fun _ ↦ hle) (fun _ h ↦ Bool.false_ne_true h.1) fun hle ↦
        .done (c.dataRef_len _ _) hle fun _ ↦ ?_
      simp only [Bool.false_eq_true, false_and, if_false]
      rfl

theorem consumes_decodeShift {op : ℕ} :
    Consumes Draft.len c.p p' 1 (decodeShift c op) (decodeShift (c.over p') op) := by
  refine consumes_bind le_rfl fun m hle ↦ .ite_const (fun _ ↦ ?_) fun _ ↦
    .done (c.dataRef_len _ _) hle fun _ ↦ rfl
  refine .bound (Nat.le_succ _) not_le.1 (fun h ↦ not_le.2 h) fun hle ↦ ?_
  exact .done rfl hle fun h ↦ by rw [byte_of_agree h (Nat.lt_succ_self _)]; rfl

theorem consumes_decodeUnary {op : ℕ} :
    Consumes Draft.len c.p p' 1 (decodeUnary c op) (decodeUnary (c.over p') op) := by
  refine consumes_bind le_rfl fun m hle ↦ .ite_const (fun _ ↦ ?_) fun _ ↦
    .done (c.dataRef_len _ _) hle fun _ ↦ rfl
  refine .bound (Nat.le_add_right _ _) not_lt.1 (fun h ↦ not_lt.2 h) fun hle ↦ ?_
  refine .done rfl hle fun h ↦ ?_
  rw [show (c.over p').immSize = c.immSize from rfl, readLE_of_agree h le_rfl]
  rfl

theorem consumes_decodeFF :
    Consumes Draft.len c.p p' 1 (decodeFF c) (decodeFF (c.over p')) := by
  rw [decodeFF, decodeFF, Option.map_eq_bind, Option.map_eq_bind]
  refine consumes_bind le_rfl fun m hle ↦ .done ?_ hle fun _ ↦ rfl
  dsimp only
  split <;> rfl

/-! ### Opcodes -/

theorem consumes_decodeTwoByte {op2 : ℕ} (h : 2 ≤ c.avail) :
    Consumes Draft.len c.p p' 2 (decodeTwoByte c op2) (decodeTwoByte (c.over p') op2) := by
  refine .ite_const (fun _ ↦ consumes_relative le_rfl) fun _ ↦ ?_
  refine .ite_const (fun _ ↦ consumes_withRm le_rfl) fun _ ↦ ?_
  refine .ite_const (fun _ ↦ consumes_withRm le_rfl) fun _ ↦ ?_
  refine .ite_const (fun _ ↦ consumes_withRm le_rfl) fun _ ↦ ?_
  refine .ite_const (fun _ ↦ consumes_withRmOnly le_rfl) fun _ ↦ ?_
  cases twoBytePlain op2 with
  | some name => exact consumes_plain h
  | none =>
    refine .ite_const (fun _ ↦ consumes_decodeSse le_rfl) fun _ ↦ ?_
    refine .ite_const (fun _ ↦ consumes_withRmImm le_rfl) fun _ ↦ ?_
    rw [show (c.over p').rep = c.rep from rfl]
    cases twoByteRegs c.rep op2 with
    | some r => exact consumes_withRm le_rfl
    | none => exact .ite_const (fun _ ↦ consumes_withRm le_rfl) fun _ ↦ consumes_withRmOnly le_rfl

theorem consumes_decodeAlu {op : ℕ} :
    Consumes Draft.len c.p p' 1 (decodeAlu c op) (decodeAlu (c.over p') op) :=
  .ite_const (fun _ ↦ consumes_withImm le_rfl) fun _ ↦
    .ite_const (fun _ ↦ consumes_withImm le_rfl) fun _ ↦ consumes_withRm le_rfl

theorem consumes_decodeMovImm {op : ℕ} :
    Consumes Draft.len c.p p' 1 (decodeMovImm c op) (decodeMovImm (c.over p') op) :=
  .ite_const (fun _ ↦ consumes_withImm le_rfl) fun _ ↦
    .ite_const (fun _ ↦ consumes_withImm le_rfl) fun _ ↦ consumes_withImm le_rfl

theorem consumes_decodeMovRmImm {op : ℕ} :
    Consumes Draft.len c.p p' 1 (decodeMovRmImm c op) (decodeMovRmImm (c.over p') op) := by
  unfold decodeMovRmImm
  exact consumes_withRmImm le_rfl

theorem consumes_decodeAluImm {op : ℕ} :
    Consumes Draft.len c.p p' 1 (decodeAluImm c op) (decodeAluImm (c.over p') op) := by
  unfold decodeAluImm
  exact consumes_withRmImm le_rfl

theorem consumes_decodeMoffs {op : ℕ} :
    Consumes Draft.len c.p p' 1 (decodeMoffs c op) (decodeMoffs (c.over p') op) := by
  unfold decodeMoffs
  exact consumes_withImm le_rfl

theorem consumes_decodeRm {op : ℕ} :
    Consumes Draft.len c.p p' 1 (decodeRm c op) (decodeRm (c.over p') op) := by
  generalize hother : decodeRm (c.over p') op = other
  unfold decodeRm
  split
  case h_37 => exact .none
  all_goals subst hother
  case h_5 => exact .ite_const (fun _ ↦ consumes_withRm le_rfl) fun _ ↦ .none
  case h_11 | h_12 => exact consumes_decodeMovRmImm
  case h_13 | h_14 | h_15 => exact consumes_decodeAluImm
  case h_16 | h_17 | h_18 | h_19 | h_20 | h_21 => exact consumes_decodeShift
  case h_22 | h_23 => exact consumes_decodeUnary
  case h_24 => exact consumes_decodeFF
  case h_25 | h_26 => exact consumes_withRmOnly le_rfl
  case h_27 | h_28 => exact consumes_withRmImm le_rfl
  all_goals exact consumes_withRm le_rfl

theorem consumes_decodeImm {op : ℕ} (h : 1 ≤ c.avail) :
    Consumes Draft.len c.p p' 1 (decodeImm c op) (decodeImm (c.over p') op) := by
  generalize hother : decodeImm (c.over p') op = other
  unfold decodeImm
  split
  case h_23 => exact .none
  all_goals subst hother
  case h_12 | h_13 | h_14 | h_15 => exact consumes_plain h
  case h_16 | h_17 | h_18 | h_19 | h_20 | h_21 | h_22 => exact consumes_relative le_rfl
  all_goals exact consumes_withImm le_rfl

/-- No opcode has both a ModRM operand and an immediate alone. -/
theorem decodeImm_or_decodeRm_eq_none (op : ℕ) :
    (∀ c, decodeImm c op = none) ∨ ∀ c, decodeRm c op = none := by
  refine or_iff_not_imp_left.2 fun h ↦ ?_
  obtain ⟨c, hc⟩ := not_forall.1 h
  unfold decodeImm at hc
  split at hc
  case h_23 => exact absurd rfl hc
  all_goals exact fun _ ↦ rfl

theorem consumes_decodeOneByte {op : ℕ} (h : 1 ≤ c.avail) :
    Consumes Draft.len c.p p' 1 (decodeOneByte c op) (decodeOneByte (c.over p') op) := by
  refine .ite_const (fun _ ↦ consumes_decodeAlu) fun _ ↦ ?_
  refine .ite_const (fun _ ↦ .ite_const (fun _ ↦ .none) fun _ ↦ consumes_plain h) fun _ ↦ ?_
  refine .ite_const (fun _ ↦ consumes_plain h) fun _ ↦ ?_
  refine .ite_const (fun _ ↦ consumes_relative le_rfl) fun _ ↦ ?_
  refine .ite_const (fun _ ↦ consumes_plain h) fun _ ↦ ?_
  refine .ite_const (fun _ ↦ consumes_decodeMoffs) fun _ ↦ ?_
  refine .ite_const (fun _ ↦ consumes_decodeMovImm) fun _ ↦ ?_
  rw [show plainName (c.over p') op = plainName c op from rfl]
  cases plainName c op with
  | some name => exact consumes_plain h
  | none =>
    dsimp only
    rcases decodeImm_or_decodeRm_eq_none op with hnone | hnone
    · rw [hnone, hnone, Option.or_none, Option.or_none]
      exact consumes_decodeRm
    · rw [hnone, hnone, Option.none_or, Option.none_or]
      exact consumes_decodeImm h

theorem consumes_decodeOpcode (p' : List UInt8) :
    Consumes Draft.len c.p p' 1 (decodeOpcode c) (decodeOpcode (c.over p')) := by
  rw [decodeOpcode_eq, decodeOpcode_eq]
  refine .bound le_rfl Nat.pos_of_ne_zero (fun h ↦ (Nat.pos_iff_ne_zero.1 h)) fun hpos ↦ ?_
  have hop : Agree 1 c.p p' → (c.over p').byte 0 = c.byte 0 :=
    fun h ↦ byte_of_agree h Nat.one_pos
  refine .ite (fun h ↦ by rw [hop h]) (fun _ ↦ ?_) fun _ ↦
    .congr (fun h ↦ by rw [hop h]) (consumes_decodeOneByte hpos)
  refine .bound (Nat.le_succ 1) not_lt.1 (fun h ↦ not_lt.2 h) fun hle ↦ ?_
  exact .congr (fun h ↦ by rw [byte_of_agree h (Nat.lt_succ_self 1)]) (consumes_decodeTwoByte hle)

end Local

/-! ### Prefixes -/

section Prefixes

variable {c : Ctx} {p' : List UInt8} {n : ℕ}

theorem Ctx.legacyPrefix_over (c : Ctx) (p' : List UInt8) (b : ℕ) :
    (c.over p').legacyPrefix b = (c.legacyPrefix b).map (Ctx.over · p') := by
  unfold Ctx.legacyPrefix
  split <;> rfl

/-- The prefixes are decided by themselves and the byte behind them. -/
theorem Ctx.readPrefixes_of_agree (l : List UInt8) (c : Ctx) :
    ∃ k, (readPrefixes l c).prefixLen = c.prefixLen + k ∧
      ∀ l' p' n, k < n → Agree n l l' →
        readPrefixes l' (c.over p') = (readPrefixes l c).over (l'.drop k) := by
  induction l generalizing c with
  | nil => exact ⟨0, rfl, fun l' p' n hn h ↦ absurd h.le (Nat.not_le.2 hn)⟩
  | cons b l ih =>
    have hhead : ∀ {l' n}, 0 < n → Agree n (b :: l) l' → ∃ rest, l' = b :: rest := by
      intro l' n hn h
      cases l' with
      | nil => exact absurd h.le' (Nat.not_le.2 hn)
      | cons b' rest => exact ⟨rest, by rw [Option.some.inj (h.eq 0 hn)]⟩
    cases hc : c.legacyPrefix b.toNat with
    | none =>
      refine ⟨0, by rw [readPrefixes, hc]; rfl, fun l' p' n hn h ↦ ?_⟩
      obtain ⟨rest, rfl⟩ := hhead hn h
      rw [readPrefixes, readPrefixes, legacyPrefix_over, hc]
      rfl
    | some c' =>
      obtain ⟨k, hk, hsame⟩ := ih { c' with prefixLen := c'.prefixLen + 1 }
      have hlen := (legacyPrefix_frame hc).2.1
      refine ⟨k + 1, ?_, fun l' p' n hn h ↦ ?_⟩
      · rw [readPrefixes, hc]
        dsimp only at hk ⊢
        omega
      · obtain ⟨rest, rfl⟩ := hhead (Nat.zero_lt_of_lt hn) h
        rw [readPrefixes, readPrefixes, legacyPrefix_over, hc]
        exact hsame rest p' (n - 1) (by omega) (h.drop 1)

theorem Ctx.prefixLen_le_readRex (c : Ctx) : c.prefixLen ≤ c.readRex.prefixLen := by
  unfold readRex
  split
  · split
    · exact Nat.le_succ _
    · exact le_rfl
  · exact le_rfl

theorem Ctx.readRex_of_agree (h : Agree n c.p p') (hn : 0 < n) :
    ∃ k, c.readRex.prefixLen = c.prefixLen + k ∧
      (c.over p').readRex = c.readRex.over (p'.drop k) := by
  cases hp : c.p with
  | nil => exact absurd h.le (by rw [hp]; exact Nat.not_le.2 hn)
  | cons b rest =>
    cases p' with
    | nil => exact absurd h.le' (Nat.not_le.2 hn)
    | cons b' rest' =>
      obtain rfl : b' = b := Option.some.inj ((h.eq 0 hn).trans (by rw [hp]; rfl))
      unfold readRex
      rw [hp]
      dsimp only
      split
      · exact ⟨1, rfl, rfl⟩
      · exact ⟨0, rfl, rfl⟩

variable {is64 : Bool} {bytes bytes' : List UInt8} {addr : ℕ}

theorem Ctx.ofBytes_p :
    (ofBytes is64 bytes addr).p = bytes.drop (ofBytes is64 bytes addr).prefixLen := by
  obtain ⟨-, c₂, -, -, hc⟩ := Reads.readPrefixes_readRex is64 bytes addr
  rw [← hc]

theorem Ctx.ofBytes_of_agree (h : Agree n bytes bytes')
    (hn : (ofBytes is64 bytes addr).prefixLen < n) :
    ofBytes is64 bytes' addr =
      (ofBytes is64 bytes addr).over (bytes'.drop (ofBytes is64 bytes addr).prefixLen) := by
  let c : Ctx := readPrefixes bytes { p := bytes, addr := addr, is64 := is64 }
  obtain ⟨k, hk, hprefixes⟩ :=
    readPrefixes_of_agree bytes { p := bytes, addr := addr, is64 := is64 }
  replace hk : c.prefixLen = k := hk.trans (Nat.zero_add k)
  have hp : c.p = bytes.drop k := hk ▸ Reads.readPrefixes_p rfl
  have hkn : k < n := by
    have hle := c.prefixLen_le_readRex
    exact (hk ▸ hle).trans_lt hn
  obtain ⟨j, hj, hrex⟩ := readRex_of_agree (hp ▸ h.drop k) (Nat.sub_pos_of_lt hkn)
  have hlen : (ofBytes is64 bytes addr).prefixLen = k + j := hj.trans (congrArg (· + j) hk)
  rw [hlen, ← List.drop_drop]
  exact (congrArg readRex (hprefixes bytes' bytes' n hkn h)).trans hrex

end Prefixes

/-! ### Instructions -/

section Instruction

variable {is64 : Bool} {bytes bytes' : List UInt8} {addr : ℕ} {d : Draft}

/-- What is read at the head of at most fifteen bytes is not cut off. -/
theorem dsDecode_of_some (hle : bytes.length ≤ 15)
    (hd : decodeOpcode (Ctx.ofBytes is64 bytes addr) = some d) :
    dsDecode is64 bytes addr =
      { rva := addr
        bytes := bytes.take ((Ctx.ofBytes is64 bytes addr).prefixLen + d.len)
        size := (Ctx.ofBytes is64 bytes addr).prefixLen + d.len
        refType := d.refType
        refTarget := d.refTarget
        mnemonic := d.mnemonic
        operands := d.operands } := by
  obtain ⟨hpos, havail, -⟩ := consumes_decodeOpcode [] d hd
  have hlen := (Ctx.ofBytes_frame is64 bytes addr).2
  have hsize : min (min (max ((Ctx.ofBytes is64 bytes addr).prefixLen + d.len) 1) bytes.length) 15 =
      (Ctx.ofBytes is64 bytes addr).prefixLen + d.len := by
    have havail : d.len ≤ (Ctx.ofBytes is64 bytes addr).avail := havail
    omega
  unfold Ctx.ofBytes at hd
  unfold dsDecode
  dsimp only
  rw [hd]
  dsimp only
  rw [← hsize]
  rfl

theorem dsDecode_of_none (hd : decodeOpcode (Ctx.ofBytes is64 bytes addr) = none) :
    dsDecode is64 bytes addr = dataByte bytes addr := by
  unfold Ctx.ofBytes at hd
  unfold dsDecode
  dsimp only
  rw [hd]

/-- The same first bytes are read as the same instruction. -/
theorem dsDecode_of_agree (hle : bytes.length ≤ 15) (hle' : bytes'.length ≤ 15)
    (hdb : (dsDecode is64 bytes addr).mnemonic ≠ "db")
    (h : Agree (dsDecode is64 bytes addr).size bytes bytes') :
    dsDecode is64 bytes' addr = dsDecode is64 bytes addr := by
  let c := Ctx.ofBytes is64 bytes addr
  cases hd : decodeOpcode c with
  | none =>
    rw [dsDecode_of_none hd] at hdb
    exact absurd rfl hdb
  | some d =>
    rw [dsDecode_of_some hle hd] at h ⊢
    obtain ⟨hpos, -, hsame⟩ := consumes_decodeOpcode (bytes'.drop c.prefixLen) d hd
    have hc : Ctx.ofBytes is64 bytes' addr = c.over (bytes'.drop c.prefixLen) :=
      Ctx.ofBytes_of_agree h (Nat.lt_add_of_pos_right hpos)
    have hrest : Agree d.len c.p (bytes'.drop c.prefixLen) := by
      have hdrop := h.drop c.prefixLen
      rwa [Nat.add_sub_cancel_left, ← Ctx.ofBytes_p] at hdrop
    have hd' : decodeOpcode (Ctx.ofBytes is64 bytes' addr) = some d := hc ▸ hsame hrest
    rw [dsDecode_of_some hle' hd', hc]
    dsimp only
    rw [h.take_eq]

/-- Reading at most fifteen bytes, the decoder stays inside them and says how many of them, at least
one, the instruction has. If it is one, the same is read wherever these stand first. -/
theorem Reads.dsDecode_bounded (is64 : Bool) (bytes : List UInt8) (addr : ℕ) (hpos : bytes ≠ [])
    (hle : bytes.length ≤ 15) :
    ∃ insn, Reads.dsDecode is64 bytes addr = .ok insn ∧ 1 ≤ insn.size ∧
      insn.size ≤ bytes.length ∧
      (insn.mnemonic ≠ "db" → ∀ bytes' : List UInt8, insn.size ≤ bytes'.length →
        bytes'.length ≤ 15 → bytes'.take insn.size = bytes.take insn.size →
          Reads.dsDecode is64 bytes' addr = .ok insn) := by
  have hsize : (Listing.dsDecode is64 bytes addr).size ≤ bytes.length :=
    builtin.size_le is64 bytes addr hpos
  refine ⟨_, Reads.dsDecode_eq, builtin.size_pos is64 bytes addr hpos, hsize, ?_⟩
  intro hdb bytes' hlen hle' htake
  rw [Reads.dsDecode_eq]
  exact congrArg _ (dsDecode_of_agree hle hle' hdb (.of_take hsize hlen htake))

/-- `mov eax, [rip+0x1000]` in front of other bytes. -/
theorem Reads.dsDecode_bounded_mov :
    ∃ insn, Reads.dsDecode true [0x8B, 0x05, 0, 0x10, 0, 0, 0xC3] 0x1000 = .ok insn ∧
      1 ≤ insn.size ∧ insn.size ≤ 7 ∧
      (insn.mnemonic ≠ "db" → ∀ bytes' : List UInt8, insn.size ≤ bytes'.length →
        bytes'.length ≤ 15 → bytes'.take insn.size =
            ([0x8B, 0x05, 0, 0x10, 0, 0, 0xC3] : List UInt8).take insn.size →
          Reads.dsDecode true bytes' 0x1000 = .ok insn) :=
  Reads.dsDecode_bounded true [0x8B, 0x05, 0, 0x10, 0, 0, 0xC3] 0x1000 (by decide) (by decide)

end Instruction

end Listing

end Ldu
