import Ldu.Listing.Sweep

/-!
# The built-in decoder

`dsDecode` reads one instruction of 32- or 64-bit x86 code: prefixes, opcode, the ModRM operand and
immediates. It prints the mnemonic and the operands and says which address the instruction refers
to. What it cannot read is a single byte `db`.

The texts never fill their buffers, so that no text is cut.
-/

namespace Ldu

namespace Listing

/-! ### Numbers -/

/-- `%llx` -/
def hex (n : ℕ) : String :=
  String.ofList (Nat.toDigits 16 n)

/-- `%02x` -/
def hex2 (n : ℕ) : String :=
  if n < 16 then "0" ++ hex n else hex n

/-- A displacement with its sign. -/
def fmtDisp (v : ℤ) : String :=
  if v < 0 then "-0x" ++ hex v.natAbs else "+0x" ++ hex v.natAbs

/-- The little-endian number of `n` bytes from `off` on. -/
def readLE (p : List UInt8) (off : ℕ) : ℕ → ℕ
  | 0 => 0
  | n + 1 => (p[off]?.map (·.toNat)).getD 0 + 256 * readLE p (off + 1) n

/-- Two's complement of `n` bytes. -/
def signed (n v : ℕ) : ℤ :=
  if 2 ^ (8 * n - 1) ≤ v then (v : ℤ) - 2 ^ (8 * n) else v

/-- As an unsigned 64-bit number. -/
def wrapInt (v : ℤ) : ℕ :=
  (v % 2 ^ 64).toNat

/-! ### Registers -/

def reg8 : List String :=
  ["al", "cl", "dl", "bl", "spl", "bpl", "sil", "dil",
   "r8b", "r9b", "r10b", "r11b", "r12b", "r13b", "r14b", "r15b"]

/-- Without a REX prefix. -/
def reg8L : List String :=
  ["al", "cl", "dl", "bl", "ah", "ch", "dh", "bh"]

def reg16 : List String :=
  ["ax", "cx", "dx", "bx", "sp", "bp", "si", "di",
   "r8w", "r9w", "r10w", "r11w", "r12w", "r13w", "r14w", "r15w"]

def reg32 : List String :=
  ["eax", "ecx", "edx", "ebx", "esp", "ebp", "esi", "edi",
   "r8d", "r9d", "r10d", "r11d", "r12d", "r13d", "r14d", "r15d"]

def reg64 : List String :=
  ["rax", "rcx", "rdx", "rbx", "rsp", "rbp", "rsi", "rdi",
   "r8", "r9", "r10", "r11", "r12", "r13", "r14", "r15"]

def regname (opsize reg : ℕ) (haveRex : Bool) : String :=
  let reg := reg % 16
  let names :=
    match opsize with
    | 1 => if haveRex || 8 ≤ reg then reg8 else reg8L
    | 2 => reg16
    | 8 => reg64
    | _ => reg32
  names[reg]?.getD ""

def sizeptr : ℕ → String
  | 1 => "byte ptr "
  | 2 => "word ptr "
  | 8 => "qword ptr "
  | 16 => "xmmword ptr "
  | _ => "dword ptr "

def xmmname (reg : ℕ) : String :=
  "xmm" ++ toString (reg % 16)

/-! ### Prefixes -/

/-- The state of a decoding, `dctx`: the bytes from the opcode on and what the prefixes say. -/
structure Ctx where
  p : List UInt8
  addr : ℕ
  is64 : Bool
  rexW : Bool := false
  rexR : Bool := false
  rexX : Bool := false
  rexB : Bool := false
  haveRex : Bool := false
  opsz66 : Bool := false
  adsz67 : Bool := false
  rep : Bool := false
  repne : Bool := false
  seg : Option String := none
  prefixLen : ℕ := 0

namespace Ctx

/-- One legacy prefix. -/
def legacyPrefix (c : Ctx) (b : ℕ) : Option Ctx :=
  match b with
  | 0x66 => some { c with opsz66 := true }
  | 0x67 => some { c with adsz67 := true }
  | 0xF0 => some c
  | 0xF2 => some { c with repne := true }
  | 0xF3 => some { c with rep := true }
  | 0x2E => some { c with seg := some "cs" }
  | 0x36 => some { c with seg := some "ss" }
  | 0x3E => some { c with seg := some "ds" }
  | 0x26 => some { c with seg := some "es" }
  | 0x64 => some { c with seg := some "fs" }
  | 0x65 => some { c with seg := some "gs" }
  | _ => none

/-- All legacy prefixes. -/
def readPrefixes : List UInt8 → Ctx → Ctx
  | [], c => { c with p := [] }
  | b :: bytes, c =>
    match c.legacyPrefix b.toNat with
    | some c => readPrefixes bytes { c with prefixLen := c.prefixLen + 1 }
    | none => { c with p := b :: bytes }

/-- A REX prefix, in 64-bit mode. -/
def readRex (c : Ctx) : Ctx :=
  match c.p with
  | b :: p =>
    if c.is64 && b.toNat / 16 = 4 then
      { c with
        p := p
        rexW := b.toNat / 8 % 2 = 1
        rexR := b.toNat / 4 % 2 = 1
        rexX := b.toNat / 2 % 2 = 1
        rexB := b.toNat % 2 = 1
        haveRex := true
        prefixLen := c.prefixLen + 1 }
    else c
  | [] => c

variable (c : Ctx)

def avail : ℕ :=
  c.p.length

/-- The byte at a position behind the prefixes. -/
def byte (i : ℕ) : ℕ :=
  readLE c.p i 1

/-- The operand size. -/
def opSize : ℕ :=
  if c.rexW then 8 else if c.opsz66 then 2 else 4

def reg (opsize r : ℕ) : String :=
  regname opsize r c.haveRex

/-- The number of a register, with its REX bit. -/
def ext (rex : Bool) (r : ℕ) : ℕ :=
  if rex then r + 8 else r

/-- The registers of addresses. -/
def addrReg (r : ℕ) : String :=
  c.reg (if c.adsz67 then 4 else if c.is64 then 8 else 4) r

end Ctx

/-! ### ModRM operands -/

/-- A ModRM operand: its text, the register field, the displacement if it is relative to the next
instruction, and the number of bytes. -/
structure Modrm where
  text : String
  reg : ℕ
  rip : Option ℤ := none
  used : ℕ

/-- Where a memory operand points: base, index with scale, whether it is relative to the next
instruction, the bytes before the displacement and the size of that. -/
structure MemForm where
  base : Option ℕ := none
  index : Option ℕ := none
  scale : ℕ := 1
  ripRel : Bool := false
  used : ℕ
  dispBytes : ℕ

section Operand

variable (c : Ctx)

/-- The form of a memory operand with the ModRM byte at `off`. -/
def memForm (off : ℕ) : Option MemForm :=
  let modrm := c.byte off
  let md := modrm / 64
  let rmField := modrm % 8
  let dispOf := fun noBase : Bool ↦
    if md = 1 then 1 else if md = 2 then 4 else if md = 0 && noBase then 4 else 0
  if rmField = 4 then
    if c.avail ≤ off + 1 then none
    else
      let sib := c.byte (off + 1)
      let noBase := sib % 8 = 5 ∧ md = 0
      some
        { base := if noBase then none else some (Ctx.ext c.rexB (sib % 8))
          index := if sib / 8 % 8 = 4 ∧ !c.rexX then none else some (Ctx.ext c.rexX (sib / 8 % 8))
          scale := 2 ^ (sib / 64)
          used := 2
          dispBytes := dispOf noBase }
  else if rmField = 5 ∧ md = 0 then
    some { ripRel := c.is64, used := 1, dispBytes := 4 }
  else some { base := some (Ctx.ext c.rexB rmField), used := 1, dispBytes := dispOf false }

/-- What stands in the brackets of a memory operand. -/
def memInner (m : MemForm) (disp : ℤ) : String :=
  let base := (m.base.map c.addrReg).getD ""
  let index := (m.index.map fun r ↦
    (if m.base.isSome then "+" else "") ++ c.addrReg r ++
      if 1 < m.scale then "*" ++ toString m.scale else "").getD ""
  let wrote := m.base.isSome || m.index.isSome
  base ++ index ++
    if disp ≠ 0 ∨ !wrote then
      if wrote then fmtDisp disp else "0x" ++ hex (disp % 2 ^ 32).toNat
    else ""

/-- The ModRM operand at `off`, `decode_modrm`; `rmIsXmm` says that a register operand is an `xmm`
register. -/
def decodeModrm (off opsize : ℕ) (rmIsXmm : Bool) : Option Modrm :=
  if c.avail ≤ off then none
  else
    let modrm := c.byte off
    let reg := Ctx.ext c.rexR (modrm / 8 % 8)
    if modrm / 64 = 3 then
      let r := Ctx.ext c.rexB (modrm % 8)
      some ⟨if rmIsXmm then xmmname r else c.reg opsize r, reg, none, 1⟩
    else
      match memForm c off with
      | none => none
      | some m =>
        if c.avail < off + m.used + m.dispBytes then none
        else
          let disp := if m.dispBytes = 0 then 0
            else signed m.dispBytes (readLE c.p (off + m.used) m.dispBytes)
          let seg := (c.seg.map (· ++ ":")).getD ""
          let used := m.used + m.dispBytes
          if m.ripRel then
            some ⟨sizeptr opsize ++ seg ++ "[rip" ++ fmtDisp disp ++ "]", reg, some disp, used⟩
          else some ⟨sizeptr opsize ++ seg ++ "[" ++ memInner c m disp ++ "]", reg, none, used⟩

end Operand

/-! ### Opcodes -/

/-- What is known of an instruction: its texts, its bytes behind the prefixes and its reference. -/
structure Draft where
  mnemonic : String
  operands : String := ""
  len : ℕ
  refType : RefType := .none
  refTarget : ℕ := 0

def aluNames : List String :=
  ["add", "or", "adc", "sbb", "and", "sub", "xor", "cmp"]

def shiftNames : List String :=
  ["rol", "ror", "rcl", "rcr", "shl", "shr", "sal", "sar"]

def ffNames : List String :=
  ["inc", "dec", "call", "callf", "jmp", "jmpf", "push", "?"]

def f7Names : List String :=
  ["test", "test", "not", "neg", "mul", "imul", "div", "idiv"]

def btNames : List String :=
  ["?", "?", "?", "?", "bt", "bts", "btr", "btc"]

/-- The suffixes of conditional jumps, sets and moves. -/
def condNames : List String :=
  ["o", "no", "b", "ae", "e", "ne", "be", "a", "s", "ns", "p", "np", "l", "ge", "le", "g"]

def nameAt (names : List String) (i : ℕ) : String :=
  names[i]?.getD ""

section Opcodes

variable (c : Ctx)

/-- The address that lies `disp` behind an instruction of `len` bytes. -/
def Ctx.targetOf (len : ℕ) (disp : ℤ) : ℕ :=
  wrapInt ((c.addr + c.prefixLen + len : ℕ) + disp)

/-- The data that a ModRM operand refers to, in an instruction of `len` bytes. -/
def Ctx.dataRef (m : Modrm) (d : Draft) : Draft :=
  match m.rip with
  | some disp => { d with refType := .data, refTarget := c.targetOf d.len disp }
  | none => d

/-- A jump, branch or call relative to the next instruction, with `n` bytes of displacement at
`off`. -/
def relative (mnemonic : String) (refType : RefType) (off n : ℕ) : Option Draft :=
  if c.avail < off + n then none
  else
    let target := c.targetOf (off + n) (signed n (readLE c.p off n))
    some ⟨mnemonic, "0x" ++ hex target, off + n, refType, target⟩

/-- An instruction without operands to read. -/
def plain (mnemonic : String) (operands : String := "") (len : ℕ := 1) : Option Draft :=
  some { mnemonic := mnemonic, operands := operands, len := len }

/-- An instruction with `n` bytes of immediate behind `off` bytes. -/
def withImm (off n : ℕ) (mnemonic : String) (operands : ℕ → String) : Option Draft :=
  if c.avail < off + n then none
  else some { mnemonic := mnemonic, operands := operands (readLE c.p off n), len := off + n }

/-- An instruction with a ModRM operand behind `off` bytes of opcode that refers to nothing. -/
def withRmOnly (off opsize : ℕ) (text : Modrm → String × String) : Option Draft :=
  (decodeModrm c off opsize false).map fun m ↦
    { mnemonic := (text m).1, operands := (text m).2, len := off + m.used }

/-- An instruction with a ModRM operand. -/
def withRm (off opsize : ℕ) (text : Modrm → String × String) : Option Draft :=
  (decodeModrm c off opsize false).map fun m ↦
    c.dataRef m { mnemonic := (text m).1, operands := (text m).2, len := off + m.used }

/-- The same, with `n` bytes of immediate. -/
def withRmImm (off opsize n : ℕ) (text : Modrm → ℕ → String × String) : Option Draft :=
  (decodeModrm c off opsize false).bind fun m ↦
    if c.avail < off + m.used + n then none
    else
      let imm := readLE c.p (off + m.used) n
      some (c.dataRef m
        { mnemonic := (text m imm).1, operands := (text m imm).2, len := off + m.used + n })

/-- Two operands, the destination first. -/
def pair (a b : String) : String :=
  a ++ ", " ++ b

/-- The bytes of an immediate of the operand size. -/
def Ctx.immSize : ℕ :=
  if c.opSize = 2 then 2 else 4

/-- A sign-extended immediate. -/
def hexSigned (n imm : ℕ) : String :=
  "0x" ++ hex (wrapInt (signed n imm))

/-! ### SSE -/

/-- The opcodes behind `0F` that are read as SSE. -/
def isSseOpcode (op2 : ℕ) : Bool :=
  op2 ∈ [0x10, 0x11, 0x12, 0x13, 0x14, 0x15, 0x16, 0x17, 0x28, 0x29, 0x2A, 0x2C, 0x2D, 0x2E, 0x2F,
    0x51, 0x54, 0x55, 0x56, 0x57, 0x58, 0x59, 0x5A, 0x5B, 0x5C, 0x5D, 0x5E, 0x5F, 0x60, 0x61, 0x62,
    0x63, 0x64, 0x65, 0x66, 0x67, 0x68, 0x69, 0x6A, 0x6B, 0x6E, 0x6F, 0x70, 0x71, 0x72, 0x73, 0x74,
    0x75, 0x76, 0x7E, 0x7F, 0xC6, 0xD4, 0xD6, 0xDB, 0xDF, 0xEB, 0xEF, 0xF8, 0xF9, 0xFA, 0xFB, 0xFC,
    0xFD, 0xFE]

/-- The mandatory prefix: none, `66`, `F3` or `F2`. -/
inductive Sel
  | none | p66 | pF3 | pF2
  deriving DecidableEq

def Ctx.sel : Sel :=
  if c.opsz66 then .p66 else if c.rep then .pF3 else if c.repne then .pF2 else .none

/-- The name for each mandatory prefix. -/
def Sel.pick (s : Sel) (p66 pF3 pF2 other : String) : String :=
  match s with
  | .p66 => p66
  | .pF3 => pF3
  | .pF2 => pF2
  | .none => other

/-- How an SSE instruction is read: its name, whether the r/m operand is the destination, whether it
is an `xmm` register, its size in memory, whether the other operand is an `xmm` register, and
whether an immediate follows. -/
structure SseForm where
  name : Option String
  toRm : Bool := false
  rmXmm : Bool := true
  memSize : ℕ := 16
  regXmm : Bool := true
  imm : Bool := false

/-- The packed integer instructions. -/
def sseInteger (op2 : ℕ) : Option String :=
  match op2 with
  | 0xEF => "pxor" | 0xDB => "pand" | 0xDF => "pandn" | 0xEB => "por"
  | 0xFC => "paddb" | 0xFD => "paddw" | 0xFE => "paddd" | 0xD4 => "paddq"
  | 0xF8 => "psubb" | 0xF9 => "psubw" | 0xFA => "psubd" | 0xFB => "psubq"
  | 0x60 => "punpcklbw" | 0x61 => "punpcklwd" | 0x62 => "punpckldq" | 0x63 => "packsswb"
  | 0x64 => "pcmpgtb" | 0x65 => "pcmpgtw" | 0x66 => "pcmpgtd" | 0x67 => "packuswb"
  | 0x68 => "punpckhbw" | 0x69 => "punpckhwd" | 0x6A => "punpckhdq" | 0x6B => "packssdw"
  | 0x74 => "pcmpeqb" | 0x75 => "pcmpeqw" | 0x76 => "pcmpeqd"
  | _ => none

/-- The form of an SSE instruction. -/
def sseForm (op2 : ℕ) : SseForm :=
  let s := c.sel
  let gprSize := if c.rexW then 8 else 4
  match op2 with
  | 0x10 => { name := s.pick "movupd" "movss" "movsd" "movups" }
  | 0x11 => { name := s.pick "movupd" "movss" "movsd" "movups", toRm := true }
  | 0x28 => { name := s.pick "movapd" "movaps" "movaps" "movaps" }
  | 0x29 => { name := s.pick "movapd" "movaps" "movaps" "movaps", toRm := true }
  | 0x12 => { name := s.pick "movlpd" "movsldup" "movddup" "movlps" }
  | 0x13 => { name := s.pick "movlpd" "movlps" "movlps" "movlps", toRm := true }
  | 0x14 => { name := s.pick "unpcklpd" "unpcklps" "unpcklps" "unpcklps" }
  | 0x15 => { name := s.pick "unpckhpd" "unpckhps" "unpckhps" "unpckhps" }
  | 0x16 => { name := s.pick "movhpd" "movshdup" "movhps" "movhps" }
  | 0x17 => { name := s.pick "movhpd" "movhps" "movhps" "movhps", toRm := true }
  | 0x51 => { name := s.pick "sqrtpd" "sqrtss" "sqrtsd" "sqrtps" }
  | 0x54 => { name := s.pick "andpd" "andps" "andps" "andps" }
  | 0x55 => { name := s.pick "andnpd" "andnps" "andnps" "andnps" }
  | 0x56 => { name := s.pick "orpd" "orps" "orps" "orps" }
  | 0x57 => { name := s.pick "xorpd" "xorps" "xorps" "xorps" }
  | 0x58 => { name := s.pick "addpd" "addss" "addsd" "addps" }
  | 0x59 => { name := s.pick "mulpd" "mulss" "mulsd" "mulps" }
  | 0x5C => { name := s.pick "subpd" "subss" "subsd" "subps" }
  | 0x5D => { name := s.pick "minpd" "minss" "minsd" "minps" }
  | 0x5E => { name := s.pick "divpd" "divss" "divsd" "divps" }
  | 0x5F => { name := s.pick "maxpd" "maxss" "maxsd" "maxps" }
  | 0x5A => { name := s.pick "cvtpd2ps" "cvtss2sd" "cvtsd2ss" "cvtps2pd" }
  | 0x5B => { name := s.pick "cvtps2dq" "cvttps2dq" "cvtdq2ps" "cvtdq2ps" }
  | 0x2A =>
    { name := s.pick "cvtpi2ps" "cvtsi2ss" "cvtsi2sd" "cvtpi2ps", rmXmm := false
      memSize := gprSize }
  | 0x2C => { name := s.pick "cvttps2pi" "cvttss2si" "cvttsd2si" "cvttps2pi", regXmm := false }
  | 0x2D => { name := s.pick "cvtps2pi" "cvtss2si" "cvtsd2si" "cvtps2pi", regXmm := false }
  | 0x2E => { name := s.pick "ucomisd" "ucomiss" "ucomiss" "ucomiss" }
  | 0x2F => { name := s.pick "comisd" "comiss" "comiss" "comiss" }
  | 0x6E => { name := if c.rexW then "movq" else "movd", rmXmm := false, memSize := gprSize }
  | 0x7E =>
    if s = .pF3 then { name := "movq", memSize := 8 }
    else
      { name := if c.rexW then "movq" else "movd", toRm := true, rmXmm := false
        memSize := gprSize }
  | 0x6F => { name := s.pick "movdqa" "movdqu" "movdqa" "movdqa" }
  | 0x7F => { name := s.pick "movdqa" "movdqu" "movdqa" "movdqa", toRm := true }
  | 0xD6 => { name := "movq", toRm := true, memSize := 8 }
  | 0xC6 => { name := s.pick "shufpd" "shufps" "shufps" "shufps", imm := true }
  | 0x70 => { name := s.pick "pshufd" "pshufhw" "pshuflw" "pshufw", imm := true }
  | _ => { name := sseInteger op2 }

/-- The name of a shift by an immediate, `0F 71` to `0F 73`. -/
def sseShift (op2 sub : ℕ) : String :=
  match op2, sub with
  | 0x71, 2 => "psrlw" | 0x71, 4 => "psraw" | 0x71, 6 => "psllw"
  | 0x72, 2 => "psrld" | 0x72, 4 => "psrad" | 0x72, 6 => "pslld"
  | 0x73, 2 => "psrlq" | 0x73, 3 => "psrldq" | 0x73, 6 => "psllq" | 0x73, 7 => "pslldq"
  | _, _ => "(bad)"

/-- An SSE instruction. -/
def decodeSse (op2 : ℕ) : Option Draft :=
  if op2 = 0x71 ∨ op2 = 0x72 ∨ op2 = 0x73 then
    (decodeModrm c 2 16 true).bind fun m ↦
      if c.avail ≤ 2 + m.used then none
      else
        some
          { mnemonic := sseShift op2 (m.reg % 8)
            operands := pair m.text ("0x" ++ hex (c.byte (2 + m.used)))
            len := 2 + m.used + 1 }
  else
    let f := sseForm c op2
    (decodeModrm c 2 f.memSize f.rmXmm).bind fun m ↦
      if f.imm ∧ c.avail ≤ 2 + m.used then none
      else
        let regText := if f.regXmm then xmmname m.reg else c.reg (if c.rexW then 8 else 4) m.reg
        let operands := if f.toRm then pair m.text regText else pair regText m.text
        some (c.dataRef m
          { mnemonic := f.name.getD "(bad)"
            operands :=
              if f.imm ∧ f.name.isSome then
                pair (pair regText m.text) ("0x" ++ hex (c.byte (2 + m.used)))
              else operands
            len := 2 + m.used + if f.imm then 1 else 0 })

/-! ### Two-byte opcodes -/

/-- The instructions behind `0F` without operands. -/
def twoBytePlain (op2 : ℕ) : Option String :=
  match op2 with
  | 0x05 => "syscall"
  | 0x34 => "sysenter"
  | 0x0B => "ud2"
  | 0xA2 => "cpuid"
  | 0x31 => "rdtsc"
  | _ => none

/-- The instructions behind `0F` with a ModRM operand and a register, and the name of each when the
`rep` prefix is there or not. The flag says that the register comes first. -/
def twoByteRegs (rep : Bool) (op2 : ℕ) : Option (String × Bool) :=
  match op2 with
  | 0xAF => some ("imul", true)
  | 0xA3 => some ("bt", false)
  | 0xAB => some ("bts", false)
  | 0xB3 => some ("btr", false)
  | 0xBB => some ("btc", false)
  | 0xBC => some (if rep then "tzcnt" else "bsf", true)
  | 0xBD => some (if rep then "lzcnt" else "bsr", true)
  | 0xB8 => some ("popcnt", true)
  | _ => none

/-- The register operand of an instruction and its ModRM operand. -/
def Ctx.regPair (name : String) (regFirst : Bool) (opsize : ℕ) (m : Modrm) : String × String :=
  (name, if regFirst then pair (c.reg opsize m.reg) m.text else pair m.text (c.reg opsize m.reg))

/-- An opcode behind `0F`. -/
def decodeTwoByte (op2 : ℕ) : Option Draft :=
  if 0x80 ≤ op2 ∧ op2 ≤ 0x8F then
    relative c ("j" ++ nameAt condNames (op2 - 0x80)) .branch 2 4
  else if 0x90 ≤ op2 ∧ op2 ≤ 0x9F then
    withRm c 2 1 fun m ↦ ("set" ++ nameAt condNames (op2 - 0x90), m.text)
  else if 0x40 ≤ op2 ∧ op2 ≤ 0x4F then
    withRm c 2 c.opSize (c.regPair ("cmov" ++ nameAt condNames (op2 - 0x40)) true c.opSize)
  else if op2 ∈ [0xB6, 0xB7, 0xBE, 0xBF] then
    withRm c 2 (if op2 % 2 = 0 then 1 else 2)
      (c.regPair (if op2 / 8 % 2 = 1 then "movsx" else "movzx") true c.opSize)
  else if op2 ∈ [0x1F, 0x0D, 0x18, 0x19] then
    -- hints refer to nothing
    withRmOnly c 2 c.opSize fun m ↦ ("nop", m.text)
  else if let some name := twoBytePlain op2 then
    plain name "" 2
  else if isSseOpcode op2 then
    decodeSse c op2
  else if op2 = 0xBA then
    withRmImm c 2 c.opSize 1 fun m imm ↦ (nameAt btNames (m.reg % 8), pair m.text ("0x" ++ hex imm))
  else if let some (name, regFirst) := twoByteRegs c.rep op2 then
    withRm c 2 c.opSize (c.regPair name regFirst c.opSize)
  else if op2 ∈ [0xC0, 0xC1, 0xB0, 0xB1] then
    let sz := if op2 % 2 = 0 then 1 else c.opSize
    withRm c 2 sz (c.regPair (if op2 / 16 = 0xC then "xadd" else "cmpxchg") false sz)
  else
    withRmOnly c 2 c.opSize fun m ↦ ("(0f)", "0x" ++ hex2 op2 ++ " " ++ m.text)

/-! ### One-byte opcodes -/

/-- The size of the operands of an opcode: a byte if it is even. -/
def Ctx.sizeOf (op : ℕ) : ℕ :=
  if op % 2 = 1 then c.opSize else 1

/-- The arithmetic group, `00` to `3D`: eight operations in six forms. -/
def decodeAlu (op : ℕ) : Option Draft :=
  let name := nameAt aluNames (op / 8 % 8)
  if op % 8 = 4 then withImm c 1 1 name fun imm ↦ pair "al" ("0x" ++ hex imm)
  else if op % 8 = 5 then
    withImm c 1 c.immSize name fun imm ↦ pair (c.reg c.opSize 0) ("0x" ++ hex imm)
  else withRm c 1 (c.sizeOf op) (c.regPair name (2 ≤ op % 8) (c.sizeOf op))

/-- `push` and `pop` of a register. -/
def decodePushPop (op : ℕ) : Option Draft :=
  let size := if c.is64 then 8 else if c.opsz66 then 2 else 4
  plain (if op < 0x58 then "push" else "pop") (c.reg size (Ctx.ext c.rexB (op % 8)))

/-- An immediate into a register, `B0` to `BF`. -/
def decodeMovImm (op : ℕ) : Option Draft :=
  let r := Ctx.ext c.rexB (op % 8)
  if op < 0xB8 then withImm c 1 1 "mov" fun imm ↦ pair (c.reg 1 r) ("0x" ++ hex imm)
  else if c.rexW then withImm c 1 8 "movabs" fun imm ↦ pair (c.reg 8 r) ("0x" ++ hex imm)
  else withImm c 1 c.immSize "mov" fun imm ↦ pair (c.reg c.opSize r) ("0x" ++ hex imm)

/-- The accumulator and an absolute address, `A0` to `A3`. -/
def decodeMoffs (op : ℕ) : Option Draft :=
  let size := if c.is64 then 8 else if c.adsz67 then 2 else 4
  withImm c 1 size "mov" fun off ↦
    let mem := "[0x" ++ hex off ++ "]"
    let acc := c.reg (c.sizeOf op) 0
    if op ≤ 0xA1 then pair acc mem else pair mem acc

/-- Shifts by an immediate, by one, or by `cl`. The reference of a shift by an immediate leaves that
immediate out of account. -/
def decodeShift (op : ℕ) : Option Draft :=
  (decodeModrm c 1 (c.sizeOf op) false).bind fun m ↦
    let d := c.dataRef m
      { mnemonic := nameAt shiftNames (m.reg % 8)
        operands := pair m.text (if op ≤ 0xD1 then "1" else "cl")
        len := 1 + m.used }
    if op ≤ 0xC1 then
      if c.avail ≤ 1 + m.used then none
      else
        some { d with
          operands := pair m.text ("0x" ++ hex (c.byte (1 + m.used)))
          len := 1 + m.used + 1 }
    else some d

/-- `test` with an immediate and the operations with one operand, `F6` and `F7`. Here, too, the
reference leaves the immediate out of account. -/
def decodeUnary (op : ℕ) : Option Draft :=
  let size := c.sizeOf op
  (decodeModrm c 1 size false).bind fun m ↦
    let d := c.dataRef m
      { mnemonic := nameAt f7Names (m.reg % 8), operands := m.text, len := 1 + m.used }
    if m.reg % 8 ≤ 1 then
      let n := if op = 0xF6 then 1 else c.immSize
      if c.avail < 1 + m.used + n then none
      else
        some { d with
          operands := pair m.text ("0x" ++ hex (readLE c.p (1 + m.used) n))
          len := 1 + m.used + n }
    else some d

/-- The text of a ModRM operand where one relative to the next instruction is printed as the address
that it means. -/
def Ctx.resolved (m : Modrm) (size : String) (len : ℕ) : String :=
  match m.rip with
  | some disp => size ++ "[0x" ++ hex (c.targetOf len disp) ++ "]"
  | none => m.text

/-- Increments, indirect calls and jumps, and `push`. -/
def decodeFF : Option Draft :=
  (decodeModrm c 1 c.opSize false).map fun m ↦
    let g := m.reg % 8
    let d : Draft :=
      { mnemonic := nameAt ffNames g
        operands := c.resolved m (sizeptr (if c.is64 then 8 else 4)) (1 + m.used)
        len := 1 + m.used }
    match m.rip with
    | some disp =>
      { d with
        refType := if g = 2 ∨ g = 3 then .call else if g = 4 ∨ g = 5 then .jmp else .data
        refTarget := c.targetOf (1 + m.used) disp }
    | none => d

/-- A load of an address. -/
def decodeLea : Option Draft :=
  withRm c 1 c.opSize fun m ↦ ("lea", pair (c.reg c.opSize m.reg) (c.resolved m "" (1 + m.used)))

/-- An immediate into a ModRM operand. -/
def decodeMovRmImm (op : ℕ) : Option Draft :=
  let size := c.sizeOf op
  let n := if op = 0xC6 then 1 else c.immSize
  withRmImm c 1 size n fun m imm ↦
    ("mov", pair (c.resolved m (sizeptr size) (1 + m.used + n)) ("0x" ++ hex imm))

/-- The arithmetic group with an immediate. The immediate of `80` is not extended. -/
def decodeAluImm (op : ℕ) : Option Draft :=
  let n := if op = 0x81 then c.immSize else 1
  withRmImm c 1 (c.sizeOf op) n fun m imm ↦
    (nameAt aluNames (m.reg % 8),
      pair m.text (if op = 0x80 then "0x" ++ hex imm else hexSigned n imm))

/-- The opcodes with a ModRM operand that are not read yet. -/
def decodeRm (op : ℕ) : Option Draft :=
  let size := c.sizeOf op
  match op with
  | 0x88 | 0x89 => withRm c 1 size (c.regPair "mov" false size)
  | 0x8A | 0x8B => withRm c 1 size (c.regPair "mov" true size)
  | 0x63 =>
    if c.is64 then withRm c 1 4 (c.regPair "movsxd" true (if c.rexW then 8 else 4)) else none
  | 0x8D => decodeLea c
  | 0x84 | 0x85 => withRm c 1 size (c.regPair "test" false size)
  | 0x86 | 0x87 => withRm c 1 size (c.regPair "xchg" false size)
  | 0xC6 | 0xC7 => decodeMovRmImm c op
  | 0x80 | 0x81 | 0x83 => decodeAluImm c op
  | 0xC0 | 0xC1 | 0xD0 | 0xD1 | 0xD2 | 0xD3 => decodeShift c op
  | 0xF6 | 0xF7 => decodeUnary c op
  | 0xFF => decodeFF c
  | 0xFE => withRmOnly c 1 1 fun m ↦ (if m.reg % 8 = 0 then "inc" else "dec", m.text)
  | 0x8F => withRmOnly c 1 (if c.is64 then 8 else c.opSize) fun m ↦ ("pop", m.text)
  | 0x69 | 0x6B =>
    let n := if op = 0x6B then 1 else c.immSize
    withRmImm c 1 c.opSize n fun m imm ↦
      ("imul", pair (pair (c.reg c.opSize m.reg) m.text) (hexSigned n imm))
  | 0xD8 | 0xD9 | 0xDA | 0xDB | 0xDC | 0xDD | 0xDE | 0xDF =>
    withRm c 1 4 fun m ↦ ("fpu", m.text)
  | _ => none

/-- The opcodes without operands. -/
def plainName (op : ℕ) : Option String :=
  match op with
  | 0xC3 => "ret"
  | 0xCB => "retf"
  | 0xC9 => "leave"
  | 0x90 => if c.rep then "pause" else "nop"
  | 0xCC => "int3"
  | 0xF4 => "hlt"
  | 0x98 => if c.rexW then "cdqe" else if c.opsz66 then "cbw" else "cwde"
  | 0x99 => if c.rexW then "cqo" else if c.opsz66 then "cwd" else "cdq"
  | 0xF5 => "cmc"
  | 0xF8 => "clc"
  | 0xF9 => "stc"
  | 0xFC => "cld"
  | 0xFD => "std"
  | 0xA4 => "movsb"
  | 0xA5 => if c.rexW then "movsq" else if c.opsz66 then "movsw" else "movsd"
  | 0xA6 => "cmpsb"
  | 0xA7 => "cmpsd"
  | 0xAA => "stosb"
  | 0xAB => if c.rexW then "stosq" else if c.opsz66 then "stosw" else "stosd"
  | 0xAC => "lodsb"
  | 0xAD => if c.rexW then "lodsq" else "lodsd"
  | 0xAE => "scasb"
  | 0xAF => "scasd"
  | 0x9C => if c.is64 then "pushfq" else "pushfd"
  | 0x9D => if c.is64 then "popfq" else "popfd"
  | 0x9B => "wait"
  | 0x9E => "sahf"
  | 0x9F => "lahf"
  | _ => none

/-- The opcodes with an immediate or an address alone. -/
def decodeImm (op : ℕ) : Option Draft :=
  match op with
  | 0xA8 => withImm c 1 1 "test" fun imm ↦ pair "al" ("0x" ++ hex imm)
  | 0xA9 => withImm c 1 c.immSize "test" fun imm ↦ pair (c.reg c.opSize 0) ("0x" ++ hex imm)
  | 0xC2 => withImm c 1 2 "ret" fun imm ↦ "0x" ++ hex imm
  | 0xCA => withImm c 1 2 "retf" fun imm ↦ "0x" ++ hex imm
  | 0xCD => withImm c 1 1 "int" fun imm ↦ "0x" ++ hex imm
  | 0x68 => withImm c 1 4 "push" fun imm ↦ "0x" ++ hex imm
  | 0x6A => withImm c 1 1 "push" (hexSigned 1)
  | 0xE4 | 0xE5 => withImm c 1 1 "in" fun imm ↦ "0x" ++ hex imm
  | 0xE6 | 0xE7 => withImm c 1 1 "out" fun imm ↦ "0x" ++ hex imm
  | 0xEC | 0xED => plain "in" "dx"
  | 0xEE | 0xEF => plain "out" "dx"
  | 0xE8 => relative c "call" .call 1 4
  | 0xE9 => relative c "jmp" .jmp 1 4
  | 0xEB => relative c "jmp" .jmp 1 1
  | 0xE0 => relative c "loopne" .branch 1 1
  | 0xE1 => relative c "loope" .branch 1 1
  | 0xE2 => relative c "loop" .branch 1 1
  | 0xE3 => relative c "jrcxz" .branch 1 1
  | _ => none

/-- An opcode of one byte. The groups have no opcode in common. -/
def decodeOneByte (op : ℕ) : Option Draft :=
  if op < 0x40 ∧ op % 8 < 6 then decodeAlu c op
  else if 0x40 ≤ op ∧ op ≤ 0x4F then
    if c.is64 then none
    else plain (if op < 0x48 then "inc" else "dec") (nameAt reg32 (op % 8))
  else if 0x50 ≤ op ∧ op ≤ 0x5F then decodePushPop c op
  else if 0x70 ≤ op ∧ op ≤ 0x7F then
    relative c ("j" ++ nameAt condNames (op - 0x70)) .branch 1 1
  else if 0x91 ≤ op ∧ op ≤ 0x97 then
    plain "xchg" (pair (c.reg c.opSize 0) (c.reg c.opSize (Ctx.ext c.rexB (op - 0x90))))
  else if 0xA0 ≤ op ∧ op ≤ 0xA3 then decodeMoffs c op
  else if 0xB0 ≤ op ∧ op ≤ 0xBF then decodeMovImm c op
  else if let some name := plainName c op then plain name
  else (decodeRm c op).or (decodeImm c op)

/-- An opcode. -/
def decodeOpcode : Option Draft :=
  match c.p with
  | [] => none
  | op :: _ =>
    if op.toNat = 0x0F then
      if c.avail < 2 then none else decodeTwoByte c (c.byte 1)
    else decodeOneByte c op.toNat

end Opcodes

/-! ### The decoder -/

/-- The byte that stands where nothing can be read. -/
def dataByte (bytes : List UInt8) (addr : ℕ) : Insn :=
  { rva := addr
    bytes := [bytes.headD 0]
    size := 1
    mnemonic := "db"
    operands := "0x" ++ hex2 (bytes.headD 0).toNat }

/-- The instruction at the head of the bytes, `ds_decode`. It has at most fifteen bytes. -/
def dsDecode (is64 : Bool) (bytes : List UInt8) (addr : ℕ) : Insn :=
  let c := (Ctx.readPrefixes bytes { p := bytes, addr := addr, is64 := is64 }).readRex
  match decodeOpcode c with
  | none => dataByte bytes addr
  | some d =>
    let size := min (min (max (c.prefixLen + d.len) 1) bytes.length) 15
    { rva := addr
      bytes := bytes.take size
      size := size
      refType := d.refType
      refTarget := d.refTarget
      mnemonic := d.mnemonic
      operands := d.operands }

/-- The built-in decoder. -/
def builtin : Decoder where
  decode := dsDecode
  rva_decode is64 bytes rva := by
    dsimp only [dsDecode]
    split <;> rfl
  size_pos is64 bytes rva h := by
    have := List.length_pos_iff.2 h
    dsimp only [dsDecode]
    split
    · exact Nat.one_pos
    · dsimp only
      omega
  size_le is64 bytes rva h := by
    have := List.length_pos_iff.2 h
    dsimp only [dsDecode]
    split
    · exact this
    · dsimp only
      omega

end Listing

end Ldu
