import Ldu.Checked.Exits
import Ldu.Listing.RefTarget

/-!
# What the built-in decoder reads

The decoder once more, with every byte that it takes from its input. It compares positions with the
number of bytes that are left, and gives up where there are too few of them; a byte that it takes
without looking, and that is not there, is the fault `index`.

No input makes it fault, and it reads what `dsDecode` says (`Reads.dsDecode_eq`).
-/

namespace Ldu

namespace Listing

open Checked

/-- The opcode by the positions at which it is looked for. -/
theorem decodeOpcode_eq (c : Ctx) :
    decodeOpcode c =
      if c.avail = 0 then none
      else if c.byte 0 = 0x0F then
        if c.avail < 2 then none else decodeTwoByte c (c.byte 1)
      else decodeOneByte c (c.byte 0) := by
  unfold decodeOpcode
  cases hp : c.p with
  | nil => simp [Ctx.avail, hp]
  | cons op rest =>
    have hpos : c.avail ≠ 0 := by simp [Ctx.avail, hp]
    have hop : c.byte 0 = op.toNat := by simp [Ctx.byte, readLE, hp]
    rw [if_neg hpos, hop]

namespace Reads

/-! ### Bytes and numbers -/

section Decoder

variable (c : Ctx)

/-- `p[i]` -/
def byte (i : ℕ) : OptionT Checked ℕ := do
  let b ← liftM (index c.p i)
  return b.toNat

/-- The little-endian number of `n` bytes from `off` on, `rd16`, `rd32` and `rd64`. -/
def rd (off : ℕ) : ℕ → OptionT Checked ℕ
  | 0 => return 0
  | n + 1 => do
    let b ← byte c off
    let rest ← rd (off + 1) n
    return b + 256 * rest

/-! ### ModRM operands -/

/-- The form of a memory operand with the given ModRM byte at `off`. -/
def memForm (modrm off : ℕ) : OptionT Checked MemForm :=
  let md := modrm / 64
  let rmField := modrm % 8
  let dispOf := fun noBase : Bool ↦
    if md = 1 then 1 else if md = 2 then 4 else if md = 0 && noBase then 4 else 0
  if rmField = 4 then do
    guard (off + 1 < c.avail)
    let sib ← byte c (off + 1)
    let noBase := sib % 8 = 5 ∧ md = 0
    return {
      base := if noBase then none else some (Ctx.ext c.rexB (sib % 8))
      index := if sib / 8 % 8 = 4 ∧ !c.rexX then none else some (Ctx.ext c.rexX (sib / 8 % 8))
      scale := 2 ^ (sib / 64)
      used := 2
      dispBytes := dispOf noBase }
  else if rmField = 5 ∧ md = 0 then
    return { ripRel := c.is64, used := 1, dispBytes := 4 }
  else return { base := some (Ctx.ext c.rexB rmField), used := 1, dispBytes := dispOf false }

/-- The ModRM operand at `off`, `decode_modrm`. -/
def decodeModrm (off opsize : ℕ) (rmIsXmm : Bool) : OptionT Checked Modrm := do
  guard (off < c.avail)
  let modrm ← byte c off
  let reg := Ctx.ext c.rexR (modrm / 8 % 8)
  if modrm / 64 = 3 then
    let r := Ctx.ext c.rexB (modrm % 8)
    return ⟨if rmIsXmm then xmmname r else c.reg opsize r, reg, none, 1⟩
  else do
    let m ← memForm c modrm off
    guard (off + m.used + m.dispBytes ≤ c.avail)
    let v ← rd c (off + m.used) m.dispBytes
    let disp := if m.dispBytes = 0 then 0 else signed m.dispBytes v
    let seg := (c.seg.map (· ++ ":")).getD ""
    let used := m.used + m.dispBytes
    if m.ripRel then
      return ⟨sizeptr opsize ++ seg ++ "[rip" ++ fmtDisp disp ++ "]", reg, some disp, used⟩
    else return ⟨sizeptr opsize ++ seg ++ "[" ++ memInner c m disp ++ "]", reg, none, used⟩

/-! ### The ways to read an instruction -/

/-- An instruction whose operands are not read. -/
def known (d : Option Draft) : OptionT Checked Draft :=
  OptionT.mk (.ok d)

/-- A jump, branch or call relative to the next instruction. -/
def relative (mnemonic : String) (refType : RefType) (off n : ℕ) : OptionT Checked Draft := do
  guard (off + n ≤ c.avail)
  let rel ← rd c off n
  let target := c.targetOf (off + n) (signed n rel)
  return ⟨mnemonic, "0x" ++ hex target, off + n, refType, target⟩

/-- An instruction with `n` bytes of immediate behind `off` bytes. -/
def withImm (off n : ℕ) (mnemonic : String) (operands : ℕ → String) : OptionT Checked Draft := do
  guard (off + n ≤ c.avail)
  let imm ← rd c off n
  return { mnemonic := mnemonic, operands := operands imm, len := off + n }

/-- An instruction with a ModRM operand that refers to nothing. -/
def withRmOnly (off opsize : ℕ) (text : Modrm → String × String) : OptionT Checked Draft := do
  let m ← decodeModrm c off opsize false
  return { mnemonic := (text m).1, operands := (text m).2, len := off + m.used }

/-- An instruction with a ModRM operand. -/
def withRm (off opsize : ℕ) (text : Modrm → String × String) : OptionT Checked Draft := do
  let m ← decodeModrm c off opsize false
  return c.dataRef m { mnemonic := (text m).1, operands := (text m).2, len := off + m.used }

/-- The same, with `n` bytes of immediate. -/
def withRmImm (off opsize n : ℕ) (text : Modrm → ℕ → String × String) :
    OptionT Checked Draft := do
  let m ← decodeModrm c off opsize false
  guard (off + m.used + n ≤ c.avail)
  let imm ← rd c (off + m.used) n
  return c.dataRef m
    { mnemonic := (text m imm).1, operands := (text m imm).2, len := off + m.used + n }

/-- An SSE instruction. The immediate is looked for before the name is, and read behind it. -/
def decodeSse (op2 : ℕ) : OptionT Checked Draft :=
  if op2 = 0x71 ∨ op2 = 0x72 ∨ op2 = 0x73 then do
    let m ← decodeModrm c 2 16 true
    guard (2 + m.used < c.avail)
    let imm ← byte c (2 + m.used)
    return {
      mnemonic := sseShift op2 (m.reg % 8)
      operands := pair m.text ("0x" ++ hex imm)
      len := 2 + m.used + 1 }
  else do
    let f := sseForm c op2
    let m ← decodeModrm c 2 f.memSize f.rmXmm
    guard ¬(f.imm ∧ c.avail ≤ 2 + m.used)
    let regText := if f.regXmm then xmmname m.reg else c.reg (if c.rexW then 8 else 4) m.reg
    let operands ←
      if f.imm ∧ f.name.isSome then do
        let imm ← byte c (2 + m.used)
        pure (pair (pair regText m.text) ("0x" ++ hex imm))
      else pure (if f.toRm then pair m.text regText else pair regText m.text)
    return c.dataRef m
      { mnemonic := f.name.getD "(bad)"
        operands := operands
        len := 2 + m.used + if f.imm then 1 else 0 }

/-- Shifts by an immediate, by one, or by `cl`. -/
def decodeShift (op : ℕ) : OptionT Checked Draft := do
  let m ← decodeModrm c 1 (c.sizeOf op) false
  let d := c.dataRef m
    { mnemonic := nameAt shiftNames (m.reg % 8)
      operands := pair m.text (if op ≤ 0xD1 then "1" else "cl")
      len := 1 + m.used }
  if op ≤ 0xC1 then do
    guard (1 + m.used < c.avail)
    let imm ← byte c (1 + m.used)
    return { d with operands := pair m.text ("0x" ++ hex imm), len := 1 + m.used + 1 }
  else return d

/-- `test` with an immediate and the operations with one operand, `F6` and `F7`. -/
def decodeUnary (op : ℕ) : OptionT Checked Draft := do
  let m ← decodeModrm c 1 (c.sizeOf op) false
  let d := c.dataRef m
    { mnemonic := nameAt f7Names (m.reg % 8), operands := m.text, len := 1 + m.used }
  if m.reg % 8 ≤ 1 then do
    let n := if op = 0xF6 then 1 else c.immSize
    guard (1 + m.used + n ≤ c.avail)
    let imm ← rd c (1 + m.used) n
    return { d with operands := pair m.text ("0x" ++ hex imm), len := 1 + m.used + n }
  else return d

/-- Increments, indirect calls and jumps, and `push`. -/
def decodeFF : OptionT Checked Draft := do
  let m ← decodeModrm c 1 c.opSize false
  let g := m.reg % 8
  let d : Draft :=
    { mnemonic := nameAt ffNames g
      operands := c.resolved m (sizeptr (if c.is64 then 8 else 4)) (1 + m.used)
      len := 1 + m.used }
  match m.rip with
  | some disp =>
    return { d with
      refType := if g = 2 ∨ g = 3 then .call else if g = 4 ∨ g = 5 then .jmp else .data
      refTarget := c.targetOf (1 + m.used) disp }
  | none => return d

/-! ### Opcodes -/

/-- An opcode behind `0F`. -/
def decodeTwoByte (op2 : ℕ) : OptionT Checked Draft :=
  if 0x80 ≤ op2 ∧ op2 ≤ 0x8F then
    relative c ("j" ++ nameAt condNames (op2 - 0x80)) .branch 2 4
  else if 0x90 ≤ op2 ∧ op2 ≤ 0x9F then
    withRm c 2 1 fun m ↦ ("set" ++ nameAt condNames (op2 - 0x90), m.text)
  else if 0x40 ≤ op2 ∧ op2 ≤ 0x4F then
    withRm c 2 c.opSize (c.regPair ("cmov" ++ nameAt condNames (op2 - 0x40)) true c.opSize)
  else if op2 ∈ [0xB6, 0xB7, 0xBE, 0xBF] then
    withRm c 2 (if op2 % 2 = 0 then 1 else 2)
      (c.regPair (if op2 / 8 % 2 = 1 then "movsx" else "movzx") true c.opSize)
  else if op2 ∈ [0x1F, 0x0D, 0x18, 0x19] then
    withRmOnly c 2 c.opSize fun m ↦ ("nop", m.text)
  else if let some name := twoBytePlain op2 then
    known (plain name "" 2)
  else if isSseOpcode op2 then
    decodeSse c op2
  else if op2 = 0xBA then
    withRmImm c 2 c.opSize 1 fun m imm ↦ (nameAt btNames (m.reg % 8), pair m.text ("0x" ++ hex imm))
  else if let some (name, regFirst) := twoByteRegs c.rep op2 then
    withRm c 2 c.opSize (c.regPair name regFirst c.opSize)
  else if op2 ∈ [0xC0, 0xC1, 0xB0, 0xB1] then
    let sz := if op2 % 2 = 0 then 1 else c.opSize
    withRm c 2 sz (c.regPair (if op2 / 16 = 0xC then "xadd" else "cmpxchg") false sz)
  else
    withRmOnly c 2 c.opSize fun m ↦ ("(0f)", "0x" ++ hex2 op2 ++ " " ++ m.text)

/-- The arithmetic group, `00` to `3D`. -/
def decodeAlu (op : ℕ) : OptionT Checked Draft :=
  let name := nameAt aluNames (op / 8 % 8)
  if op % 8 = 4 then withImm c 1 1 name fun imm ↦ pair "al" ("0x" ++ hex imm)
  else if op % 8 = 5 then
    withImm c 1 c.immSize name fun imm ↦ pair (c.reg c.opSize 0) ("0x" ++ hex imm)
  else withRm c 1 (c.sizeOf op) (c.regPair name (2 ≤ op % 8) (c.sizeOf op))

/-- An immediate into a register, `B0` to `BF`. -/
def decodeMovImm (op : ℕ) : OptionT Checked Draft :=
  let r := Ctx.ext c.rexB (op % 8)
  if op < 0xB8 then withImm c 1 1 "mov" fun imm ↦ pair (c.reg 1 r) ("0x" ++ hex imm)
  else if c.rexW then withImm c 1 8 "movabs" fun imm ↦ pair (c.reg 8 r) ("0x" ++ hex imm)
  else withImm c 1 c.immSize "mov" fun imm ↦ pair (c.reg c.opSize r) ("0x" ++ hex imm)

/-- The accumulator and an absolute address, `A0` to `A3`. -/
def decodeMoffs (op : ℕ) : OptionT Checked Draft :=
  let size := if c.is64 then 8 else if c.adsz67 then 2 else 4
  withImm c 1 size "mov" fun off ↦
    let mem := "[0x" ++ hex off ++ "]"
    let acc := c.reg (c.sizeOf op) 0
    if op ≤ 0xA1 then pair acc mem else pair mem acc

/-- The other opcodes with a ModRM operand. -/
def decodeRm (op : ℕ) : OptionT Checked Draft :=
  let size := c.sizeOf op
  match op with
  | 0x88 | 0x89 => withRm c 1 size (c.regPair "mov" false size)
  | 0x8A | 0x8B => withRm c 1 size (c.regPair "mov" true size)
  | 0x63 =>
    if c.is64 then withRm c 1 4 (c.regPair "movsxd" true (if c.rexW then 8 else 4)) else failure
  | 0x8D =>
    withRm c 1 c.opSize fun m ↦
      ("lea", pair (c.reg c.opSize m.reg) (c.resolved m "" (1 + m.used)))
  | 0x84 | 0x85 => withRm c 1 size (c.regPair "test" false size)
  | 0x86 | 0x87 => withRm c 1 size (c.regPair "xchg" false size)
  | 0xC6 | 0xC7 =>
    let n := if op = 0xC6 then 1 else c.immSize
    withRmImm c 1 size n fun m imm ↦
      ("mov", pair (c.resolved m (sizeptr size) (1 + m.used + n)) ("0x" ++ hex imm))
  | 0x80 | 0x81 | 0x83 =>
    let n := if op = 0x81 then c.immSize else 1
    withRmImm c 1 size n fun m imm ↦
      (nameAt aluNames (m.reg % 8),
        pair m.text (if op = 0x80 then "0x" ++ hex imm else hexSigned n imm))
  | 0xC0 | 0xC1 | 0xD0 | 0xD1 | 0xD2 | 0xD3 => decodeShift c op
  | 0xF6 | 0xF7 => decodeUnary c op
  | 0xFF => decodeFF c
  | 0xFE => withRmOnly c 1 1 fun m ↦ (if m.reg % 8 = 0 then "inc" else "dec", m.text)
  | 0x8F => withRmOnly c 1 (if c.is64 then 8 else c.opSize) fun m ↦ ("pop", m.text)
  | 0x69 | 0x6B =>
    let n := if op = 0x6B then 1 else c.immSize
    withRmImm c 1 c.opSize n fun m imm ↦
      ("imul", pair (pair (c.reg c.opSize m.reg) m.text) (hexSigned n imm))
  | 0xD8 | 0xD9 | 0xDA | 0xDB | 0xDC | 0xDD | 0xDE | 0xDF =>
    withRm c 1 4 fun m ↦ ("fpu", m.text)
  | _ => failure

/-- The opcodes with an immediate or an address alone. -/
def decodeImm (op : ℕ) : OptionT Checked Draft :=
  match op with
  | 0xA8 => withImm c 1 1 "test" fun imm ↦ pair "al" ("0x" ++ hex imm)
  | 0xA9 => withImm c 1 c.immSize "test" fun imm ↦ pair (c.reg c.opSize 0) ("0x" ++ hex imm)
  | 0xC2 => withImm c 1 2 "ret" fun imm ↦ "0x" ++ hex imm
  | 0xCA => withImm c 1 2 "retf" fun imm ↦ "0x" ++ hex imm
  | 0xCD => withImm c 1 1 "int" fun imm ↦ "0x" ++ hex imm
  | 0x68 => withImm c 1 4 "push" fun imm ↦ "0x" ++ hex imm
  | 0x6A => withImm c 1 1 "push" (hexSigned 1)
  | 0xE4 | 0xE5 => withImm c 1 1 "in" fun imm ↦ "0x" ++ hex imm
  | 0xE6 | 0xE7 => withImm c 1 1 "out" fun imm ↦ "0x" ++ hex imm
  | 0xEC | 0xED => known (plain "in" "dx")
  | 0xEE | 0xEF => known (plain "out" "dx")
  | 0xE8 => relative c "call" .call 1 4
  | 0xE9 => relative c "jmp" .jmp 1 4
  | 0xEB => relative c "jmp" .jmp 1 1
  | 0xE0 => relative c "loopne" .branch 1 1
  | 0xE1 => relative c "loope" .branch 1 1
  | 0xE2 => relative c "loop" .branch 1 1
  | 0xE3 => relative c "jrcxz" .branch 1 1
  | _ => failure

/-- An opcode of one byte. -/
def decodeOneByte (op : ℕ) : OptionT Checked Draft :=
  if op < 0x40 ∧ op % 8 < 6 then decodeAlu c op
  else if 0x40 ≤ op ∧ op ≤ 0x4F then
    if c.is64 then failure
    else known (plain (if op < 0x48 then "inc" else "dec") (nameAt reg32 (op % 8)))
  else if 0x50 ≤ op ∧ op ≤ 0x5F then known (decodePushPop c op)
  else if 0x70 ≤ op ∧ op ≤ 0x7F then
    relative c ("j" ++ nameAt condNames (op - 0x70)) .branch 1 1
  else if 0x91 ≤ op ∧ op ≤ 0x97 then
    known (plain "xchg" (pair (c.reg c.opSize 0) (c.reg c.opSize (Ctx.ext c.rexB (op - 0x90)))))
  else if 0xA0 ≤ op ∧ op ≤ 0xA3 then decodeMoffs c op
  else if 0xB0 ≤ op ∧ op ≤ 0xBF then decodeMovImm c op
  else if let some name := plainName c op then known (plain name)
  else decodeRm c op <|> decodeImm c op

/-- An opcode. -/
def decodeOpcode : OptionT Checked Draft := do
  guard (c.avail ≠ 0)
  let op ← byte c 0
  if op = 0x0F then do
    guard (2 ≤ c.avail)
    let op2 ← byte c 1
    decodeTwoByte c op2
  else decodeOneByte c op

end Decoder

/-! ### The decoder -/

section Input

variable (is64 : Bool) (bytes : List UInt8) (addr : ℕ)

/-- The next byte, if there is one and it is a prefix. -/
def prefixStep (c : Ctx) : Checked (Option Ctx) :=
  if c.prefixLen < bytes.length then do
    let b ← index bytes c.prefixLen
    return (c.legacyPrefix b.toNat).map fun c ↦ { c with prefixLen := c.prefixLen + 1 }
  else return none

/-- The loop over the prefixes. -/
def readPrefixes (c : Ctx) : Checked Ctx :=
  iterate (prefixStep bytes) bytes.length c

/-- A REX prefix, in 64-bit mode. -/
def readRex (c : Ctx) : Checked Ctx :=
  if c.is64 && c.prefixLen < bytes.length then do
    let b ← index bytes c.prefixLen
    if b.toNat / 16 = 4 then
      return { c with
        rexW := b.toNat / 8 % 2 = 1
        rexR := b.toNat / 4 % 2 = 1
        rexX := b.toNat / 2 % 2 = 1
        rexB := b.toNat % 2 = 1
        haveRex := true
        prefixLen := c.prefixLen + 1 }
    else return c
  else return c

/-- The instruction at the head of the bytes, `ds_decode`. -/
def dsDecode : Checked Insn :=
  if bytes.length = 0 then
    return dataByte [] addr
  else do
    let c ← readPrefixes bytes { p := bytes, addr := addr, is64 := is64 }
    let c ← readRex bytes c
    let c := { c with p := bytes.drop c.prefixLen }
    match ← (decodeOpcode c).run with
    | none => do
      let b ← index bytes 0
      return dataByte [b] addr
    | some d => do
      let size := min (min (max (c.prefixLen + d.len) 1) bytes.length) 15
      let copied ← slice bytes 0 size
      return {
        rva := addr
        bytes := copied
        size := size
        refType := d.refType
        refTarget := d.refTarget
        mnemonic := d.mnemonic
        operands := d.operands }

end Input

/-! ### What is read is what the decoder says -/

section Decoder

variable {c : Ctx} {off n op : ℕ}

theorem run_byte {i : ℕ} (h : i < c.avail) : (byte c i).run = .ok (some (c.byte i)) := by
  have hlt : i < c.p.length := h
  rw [byte, index_of_lt hlt]
  simp [Ctx.byte, readLE, List.getElem?_eq_getElem hlt]

theorem run_rd (h : off + n ≤ c.avail) : (rd c off n).run = .ok (some (readLE c.p off n)) := by
  induction n generalizing off with
  | zero => rfl
  | succ n ih =>
    rw [rd, run_bind_of_some (run_byte (by omega)), run_bind_of_some (ih (by omega))]
    rfl

theorem run_memForm (h : off < c.avail) :
    (memForm c (c.byte off) off).run = .ok (Listing.memForm c off) := by
  refine run_ite (fun _ ↦ run_guard_bind_unless (by omega) fun hend ↦ ?_) fun _ ↦
    run_ite (fun _ ↦ rfl) fun _ ↦ rfl
  rw [run_bind_of_some (run_byte hend)]
  rfl

theorem run_decodeModrm {opsize : ℕ} {rmIsXmm : Bool} :
    (decodeModrm c off opsize rmIsXmm).run = .ok (Listing.decodeModrm c off opsize rmIsXmm) := by
  refine run_guard_bind_unless (by omega) fun hoff ↦ ?_
  rw [run_bind_of_some (run_byte hoff)]
  refine run_ite (fun _ ↦ rfl) fun _ ↦ ?_
  cases hm : Listing.memForm c off with
  | none => exact run_bind_of_none ((run_memForm hoff).trans (congrArg _ hm))
  | some m =>
    rw [run_bind_of_some ((run_memForm hoff).trans (congrArg _ hm))]
    refine run_guard_bind_unless (by omega) fun hend ↦ ?_
    rw [run_bind_of_some (run_rd hend)]
    exact run_ite (fun _ ↦ rfl) fun _ ↦ rfl

/-- What stands behind a ModRM operand is only read if there is one. -/
theorem run_decodeModrm_bind {opsize : ℕ} {rmIsXmm : Bool} {f : Modrm → OptionT Checked Draft}
    {g : Modrm → Option Draft} (h : ∀ m, (f m).run = .ok (g m)) :
    (decodeModrm c off opsize rmIsXmm >>= f).run =
      .ok ((Listing.decodeModrm c off opsize rmIsXmm).bind g) :=
  run_bind_eq_ok run_decodeModrm fun m _ ↦ h m

/-! ### The ways to read an instruction -/

theorem run_known (d : Option Draft) : (known d).run = .ok d := rfl

theorem run_relative {mnemonic : String} {refType : RefType} :
    (relative c mnemonic refType off n).run = .ok (Listing.relative c mnemonic refType off n) := by
  refine run_guard_bind_unless (by omega) fun hend ↦ ?_
  rw [run_bind_of_some (run_rd hend)]
  rfl

theorem run_withImm {mnemonic : String} {operands : ℕ → String} :
    (withImm c off n mnemonic operands).run = .ok (Listing.withImm c off n mnemonic operands) := by
  refine run_guard_bind_unless (by omega) fun hend ↦ ?_
  rw [run_bind_of_some (run_rd hend)]
  rfl

section Rm

variable {opsize : ℕ}

theorem run_withRmOnly {text : Modrm → String × String} :
    (withRmOnly c off opsize text).run = .ok (Listing.withRmOnly c off opsize text) := by
  rw [Listing.withRmOnly, Option.map_eq_bind]
  exact run_decodeModrm_bind fun m ↦ rfl

theorem run_withRm {text : Modrm → String × String} :
    (withRm c off opsize text).run = .ok (Listing.withRm c off opsize text) := by
  rw [Listing.withRm, Option.map_eq_bind]
  exact run_decodeModrm_bind fun m ↦ rfl

theorem run_withRmImm {text : Modrm → ℕ → String × String} :
    (withRmImm c off opsize n text).run = .ok (Listing.withRmImm c off opsize n text) := by
  refine run_decodeModrm_bind fun m ↦ run_guard_bind_unless (by omega) fun hend ↦ ?_
  rw [run_bind_of_some (run_rd hend)]
  rfl

end Rm

theorem run_decodeSse {op2 : ℕ} : (decodeSse c op2).run = .ok (Listing.decodeSse c op2) := by
  refine run_ite (fun _ ↦ run_decodeModrm_bind fun m ↦ ?_) fun _ ↦ run_decodeModrm_bind fun m ↦ ?_
  · refine run_guard_bind_unless (by omega) fun hend ↦ ?_
    rw [run_bind_of_some (run_byte hend)]
    rfl
  · refine run_guard_bind_unless Iff.rfl fun hend ↦ ?_
    by_cases himm : (sseForm c op2).imm ∧ (sseForm c op2).name.isSome
    · have hlt : 2 + m.used < c.avail := not_le.1 fun hle ↦ hend ⟨himm.1, hle⟩
      simp only [if_pos himm]
      rw [run_bind_of_some (run_byte hlt)]
      rfl
    · simp only [if_neg himm]
      rfl

theorem run_decodeShift : (decodeShift c op).run = .ok (Listing.decodeShift c op) := by
  refine run_decodeModrm_bind fun m ↦ run_ite (fun _ ↦ ?_) fun _ ↦ rfl
  refine run_guard_bind_unless (by omega) fun hend ↦ ?_
  rw [run_bind_of_some (run_byte hend)]
  rfl

theorem run_decodeUnary : (decodeUnary c op).run = .ok (Listing.decodeUnary c op) := by
  refine run_decodeModrm_bind fun m ↦ run_ite (fun _ ↦ ?_) fun _ ↦ rfl
  refine run_guard_bind_unless (by omega) fun hend ↦ ?_
  rw [run_bind_of_some (run_rd hend)]
  rfl

theorem run_decodeFF : (decodeFF c).run = .ok (Listing.decodeFF c) := by
  rw [Listing.decodeFF, Option.map_eq_bind]
  refine run_decodeModrm_bind fun m ↦ ?_
  dsimp only [Function.comp_apply]
  cases m.rip with
  | none => rfl
  | some disp => rfl

/-! ### Opcodes -/

theorem run_decodeTwoByte {op2 : ℕ} :
    (decodeTwoByte c op2).run = .ok (Listing.decodeTwoByte c op2) := by
  refine run_ite (fun _ ↦ run_relative) fun _ ↦ ?_
  refine run_ite (fun _ ↦ run_withRm) fun _ ↦ ?_
  refine run_ite (fun _ ↦ run_withRm) fun _ ↦ ?_
  refine run_ite (fun _ ↦ run_withRm) fun _ ↦ ?_
  refine run_ite (fun _ ↦ run_withRmOnly) fun _ ↦ ?_
  cases twoBytePlain op2 with
  | some name => exact run_known _
  | none =>
    refine run_ite (fun _ ↦ run_decodeSse) fun _ ↦ ?_
    refine run_ite (fun _ ↦ run_withRmImm) fun _ ↦ ?_
    cases twoByteRegs c.rep op2 with
    | some r => exact run_withRm
    | none => exact run_ite (fun _ ↦ run_withRm) fun _ ↦ run_withRmOnly

theorem run_decodeAlu : (decodeAlu c op).run = .ok (Listing.decodeAlu c op) :=
  run_ite (fun _ ↦ run_withImm) fun _ ↦ run_ite (fun _ ↦ run_withImm) fun _ ↦ run_withRm

theorem run_decodeMovImm : (decodeMovImm c op).run = .ok (Listing.decodeMovImm c op) :=
  run_ite (fun _ ↦ run_withImm) fun _ ↦ run_ite (fun _ ↦ run_withImm) fun _ ↦ run_withImm

theorem run_decodeRm : (decodeRm c op).run = .ok (Listing.decodeRm c op) := by
  unfold decodeRm
  split
  case h_37 =>
    unfold Listing.decodeRm
    split
    case h_37 => rfl
    all_goals contradiction
  case h_5 => exact run_ite (fun _ ↦ run_withRm) fun _ ↦ rfl
  all_goals
    simp only [run_withRm, run_withRmOnly, run_withRmImm, run_decodeShift, run_decodeUnary,
      run_decodeFF]
    rfl

theorem run_decodeImm : (decodeImm c op).run = .ok (Listing.decodeImm c op) := by
  unfold decodeImm
  split
  case h_23 =>
    unfold Listing.decodeImm
    split
    case h_23 => rfl
    all_goals contradiction
  all_goals first
    | exact run_withImm
    | exact run_relative
    | exact run_known _

theorem run_decodeOneByte : (decodeOneByte c op).run = .ok (Listing.decodeOneByte c op) := by
  refine run_ite (fun _ ↦ run_decodeAlu) fun _ ↦ ?_
  refine run_ite (fun _ ↦ run_ite (fun _ ↦ rfl) fun _ ↦ run_known _) fun _ ↦ ?_
  refine run_ite (fun _ ↦ run_known _) fun _ ↦ ?_
  refine run_ite (fun _ ↦ run_relative) fun _ ↦ ?_
  refine run_ite (fun _ ↦ run_known _) fun _ ↦ ?_
  refine run_ite (fun _ ↦ run_withImm) fun _ ↦ ?_
  refine run_ite (fun _ ↦ run_decodeMovImm) fun _ ↦ ?_
  cases plainName c op with
  | some name => exact run_known _
  | none => exact run_orElse run_decodeRm run_decodeImm

theorem run_decodeOpcode : (decodeOpcode c).run = .ok (Listing.decodeOpcode c) := by
  rw [decodeOpcode_eq]
  refine run_guard_bind_unless Iff.rfl fun hpos ↦ ?_
  rw [run_bind_of_some (run_byte (Nat.pos_of_ne_zero hpos))]
  refine run_ite (fun _ ↦ ?_) fun _ ↦ run_decodeOneByte
  refine run_guard_bind_unless (by omega) fun hend ↦ ?_
  rw [run_bind_of_some (run_byte hend)]
  exact run_decodeTwoByte

end Decoder

section Input

variable {is64 : Bool} {bytes : List UInt8} {addr : ℕ}

theorem prefixStep_of_lt {c : Ctx} (h : c.prefixLen < bytes.length) :
    prefixStep bytes c = .ok ((c.legacyPrefix bytes[c.prefixLen].toNat).map fun c ↦
      { c with prefixLen := c.prefixLen + 1 }) := by
  rw [prefixStep, if_pos h, index_of_lt h]
  rfl

theorem iterate_prefixStep {n : ℕ} {c : Ctx} (h : c.prefixLen + n = bytes.length) :
    iterate (prefixStep bytes) n c =
      .ok { Ctx.readPrefixes (bytes.drop c.prefixLen) c with p := c.p } := by
  induction n generalizing c with
  | zero =>
    rw [List.drop_eq_nil_of_le (by omega)]
    rfl
  | succ n ih =>
    have hlt : c.prefixLen < bytes.length := by omega
    rw [iterate, prefixStep_of_lt hlt, ok_bind, List.drop_eq_getElem_cons hlt, Ctx.readPrefixes]
    cases hc : c.legacyPrefix bytes[c.prefixLen].toNat with
    | none => rfl
    | some c' =>
      obtain ⟨-, hlen, hp⟩ := Ctx.legacyPrefix_frame hc
      have hrest := ih (c := { c' with prefixLen := c'.prefixLen + 1 }) (by dsimp only; omega)
      exact hrest.trans (by simp only [hp, hlen])

/-- The bytes behind the prefixes are those behind as many bytes as there are prefixes. -/
theorem readPrefixes_p {l : List UInt8} {c : Ctx} (h : l = bytes.drop c.prefixLen) :
    (Ctx.readPrefixes l c).p = bytes.drop (Ctx.readPrefixes l c).prefixLen := by
  induction l generalizing c with
  | nil => exact h
  | cons b l ih =>
    unfold Ctx.readPrefixes
    split
    · rename_i c' hc
      obtain ⟨-, hlen, -⟩ := Ctx.legacyPrefix_frame hc
      refine ih ?_
      rw [hlen, ← List.drop_drop, ← h]
      rfl
    · exact h

theorem readRex_eq (bytes : List UInt8) (c : Ctx) :
    (readRex bytes c >>= fun c ↦ .ok { c with p := bytes.drop c.prefixLen }) =
      .ok { c with p := bytes.drop c.prefixLen }.readRex := by
  unfold readRex Ctx.readRex
  cases hdrop : bytes.drop c.prefixLen with
  | nil =>
    have hle := List.drop_eq_nil_iff.1 hdrop
    simp [hle.not_gt, hdrop]
  | cons b rest =>
    have hlt : c.prefixLen < bytes.length := by
      by_contra hle
      rw [List.drop_eq_nil_of_le (not_lt.1 hle)] at hdrop
      cases hdrop
    obtain ⟨hb, hrest⟩ := List.cons.inj ((List.drop_eq_getElem_cons hlt).symm.trans hdrop)
    cases h64 : c.is64 with
    | false => simp [hdrop, h64]
    | true =>
      rw [index_of_lt hlt, hb]
      by_cases hrex : b.toNat / 16 = 4
      · simp [hlt, hrex, hrest]
      · simp [hlt, hrex, hdrop, h64]

/-- What the prefixes say and the bytes behind them. -/
theorem readPrefixes_readRex (is64 : Bool) (bytes : List UInt8) (addr : ℕ) : ∃ c₁ c₂,
    readPrefixes bytes { p := bytes, addr := addr, is64 := is64 } = .ok c₁ ∧
      readRex bytes c₁ = .ok c₂ ∧
      { c₂ with p := bytes.drop c₂.prefixLen } = Ctx.ofBytes is64 bytes addr := by
  let c₀ : Ctx := { p := bytes, addr := addr, is64 := is64 }
  have hp : (Ctx.readPrefixes bytes c₀).p = bytes.drop (Ctx.readPrefixes bytes c₀).prefixLen :=
    readPrefixes_p rfl
  obtain ⟨c₂, hrex, hc₂⟩ := bind_eq_ok.1
    (readRex_eq bytes { Ctx.readPrefixes bytes c₀ with p := bytes })
  refine ⟨_, c₂, iterate_prefixStep (Nat.zero_add _), hrex, ?_⟩
  rw [Except.ok.inj hc₂]
  dsimp only
  rw [← hp]
  rfl

/-- No input makes the decoder read what is not there, and it reads what `dsDecode` says. -/
theorem dsDecode_eq : dsDecode is64 bytes addr = .ok (Listing.dsDecode is64 bytes addr) := by
  obtain ⟨c₁, c₂, hprefixes, hrex, hc⟩ := readPrefixes_readRex is64 bytes addr
  unfold dsDecode
  split
  · next hnil =>
    obtain rfl := List.length_eq_zero_iff.1 hnil
    rfl
  · next hne =>
    have hlen : c₂.prefixLen = (Ctx.ofBytes is64 bytes addr).prefixLen := by rw [← hc]
    rw [hprefixes, ok_bind, hrex, ok_bind]
    dsimp only
    rw [hc, run_decodeOpcode, ok_bind, hlen]
    change _ = Except.ok (match Listing.decodeOpcode (Ctx.ofBytes is64 bytes addr) with
      | none => _
      | some d => _)
    cases Listing.decodeOpcode (Ctx.ofBytes is64 bytes addr) with
    | none =>
      obtain ⟨b, rest, rfl⟩ := List.exists_cons_of_length_pos (Nat.pos_of_ne_zero hne)
      rfl
    | some d =>
      dsimp only
      rw [slice_of_le (Nat.zero_le _) ((min_le_left _ _).trans (min_le_right _ _))]
      rfl

end Input

end Reads

end Listing

end Ldu
