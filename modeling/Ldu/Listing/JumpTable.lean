import Ldu.Text.PrefixCode
import Ldu.Listing.Extents

/-!
# Jump tables in a listing of the built-in decoder

`resolveJumptableMax` looks for an address relative to the next instruction in the text of a `lea`.
The decoder does not print it that way: it prints the address itself (`not_operandsHave_rip`). So in
a listing of this decoder no table is ever found (`resolveJumptableMax_eq_zero`).
-/

namespace Ldu

namespace Listing

/-! ### Texts without `rip` -/

/-- Nowhere in the text an `i` follows an `r`, nor does the text end with an `r`. -/
def NoRi (l : List Char) : Prop :=
  l.IsChain (fun a b ↦ ¬(a = 'r' ∧ b = 'i')) ∧ l.getLast? ≠ some 'r'

instance (l : List Char) : Decidable (NoRi l) :=
  inferInstanceAs (Decidable (_ ∧ _))

namespace NoRi

theorem append {l l' : List Char} (h : NoRi l) (h' : NoRi l') : NoRi (l ++ l') := by
  refine ⟨List.isChain_append.2 ⟨h.1, h'.1, fun a ha b _ hab ↦ h.2 (hab.1 ▸ ha)⟩, ?_⟩
  rw [List.getLast?_append]
  cases hlast : l'.getLast? with
  | none => simpa using h.2
  | some c => simpa [hlast] using h'.2

theorem of_ne {l : List Char} (h : ∀ c ∈ l, c ≠ 'r') : NoRi l := by
  refine ⟨?_, fun hlast ↦ h 'r' (List.mem_of_getLast? hlast) rfl⟩
  induction l with
  | nil => exact .nil
  | cons c l ih =>
    rw [List.isChain_cons]
    exact ⟨fun b _ hb ↦ h c List.mem_cons_self hb.1, ih fun b hb ↦ h b (List.mem_cons_of_mem _ hb)⟩

/-- There is no `rip` in the text. -/
theorem not_isInfix {l : List Char} (h : NoRi l) : ¬"rip".toList <:+: l := by
  rintro ⟨s, t, rfl⟩
  have hri := (List.isChain_append.1 (List.isChain_append.1 h.1).1).2.1
  exact absurd hri (by decide)

theorem mem_getD {names : List String} (h : ∀ s ∈ names, NoRi s.toList) (n : ℕ) :
    NoRi (names[n]?.getD "").toList := by
  cases hn : names[n]? with
  | none => decide
  | some s => exact h s (List.mem_of_getElem? hn)

theorem toDigits {b : ℕ} (hb : 1 < b) (hb' : b ≤ 16) (n : ℕ) : NoRi (Nat.toDigits b n) :=
  of_ne (forall_mem_toDigits (by decide : ∀ d < 16, Nat.digitChar d ≠ 'r') hb hb' n)

theorem hex (n : ℕ) : NoRi (hex n).toList := by
  rw [Listing.hex, String.toList_ofList]
  exact toDigits (by decide) le_rfl n

theorem fmtDisp (v : ℤ) : NoRi (fmtDisp v).toList := by
  unfold Listing.fmtDisp
  split <;> rw [String.toList_append] <;> exact .append (by decide) (hex _)

theorem regname (opsize r : ℕ) (haveRex : Bool) : NoRi (regname opsize r haveRex).toList := by
  unfold Listing.regname
  dsimp only
  split
  · split
    · exact mem_getD (by decide) _
    · exact mem_getD (by decide) _
  · exact mem_getD (by decide) _
  · exact mem_getD (by decide) _
  · exact mem_getD (by decide) _

theorem sizeptr (n : ℕ) : NoRi (sizeptr n).toList := by
  unfold Listing.sizeptr
  split <;> decide

end NoRi

/-! ### The text of a `lea` -/

section Lea

variable {c : Ctx}

theorem noRi_memInner (m : MemForm) (disp : ℤ) : NoRi (memInner c m disp).toList := by
  have hreg : ∀ r, NoRi (c.addrReg r).toList := fun r ↦ NoRi.regname _ _ _
  have hscale : NoRi (toString m.scale).toList := by
    rw [Nat.toString_eq_ofList_toDigits, String.toList_ofList]
    exact .toDigits (by decide) (by decide) _
  unfold memInner
  dsimp only
  rw [String.toList_append, String.toList_append]
  refine .append (.append ?_ ?_) ?_
  · cases m.base with
    | none => exact (by decide : NoRi "".toList)
    | some r => exact hreg r
  · cases m.index with
    | none => exact (by decide : NoRi "".toList)
    | some r =>
      rw [Option.map_some, Option.getD_some, String.toList_append, String.toList_append]
      refine .append (.append ?_ (hreg r)) ?_
      · split <;> decide
      · split
        · rw [String.toList_append]
          exact .append (by decide) hscale
        · decide
  · split
    · split
      · exact .fmtDisp _
      · rw [String.toList_append]
        exact .append (by decide) (.hex _)
    · decide

/-- The segment prefix read, if there is one. -/
def Ctx.SegNoRi (c : Ctx) : Prop :=
  ∀ s, c.seg = some s → NoRi s.toList

theorem segNoRi_readPrefixes {bytes : List UInt8} (h : c.SegNoRi) :
    (Ctx.readPrefixes bytes c).SegNoRi := by
  induction bytes generalizing c with
  | nil => exact h
  | cons b bytes ih =>
    rw [Ctx.readPrefixes]
    split
    · next c' hc' =>
      refine ih (c := { c' with prefixLen := c'.prefixLen + 1 }) fun s hs ↦ ?_
      unfold Ctx.legacyPrefix at hc'
      split at hc' <;> cases hc' <;> first | exact h s hs | (cases hs; decide)
    · exact h

theorem segNoRi_readRex (h : c.SegNoRi) : c.readRex.SegNoRi := by
  unfold Ctx.readRex
  split
  · split
    · exact h
    · exact h
  · exact h

/-- The text of a ModRM operand, printed as the address that it means. -/
theorem noRi_resolved (hseg : c.SegNoRi) {off opsize : ℕ} {m : Modrm}
    (h : decodeModrm c off opsize false = some m) (len : ℕ) :
    NoRi (c.resolved m "" len).toList := by
  unfold Ctx.resolved
  cases hrip : m.rip with
  | some disp =>
    -- Relative to the next instruction: the address itself is printed.
    dsimp only
    rw [String.toList_append, String.toList_append, String.toList_append]
    exact .append (.append (.append (by decide) (by decide)) (.hex _)) (by decide)
  | none =>
    dsimp only
    unfold decodeModrm at h
    split at h
    · cases h
    · dsimp only at h
      split at h
      · cases h
        exact .regname _ _ _
      · split at h
        · cases h
        · split at h
          · cases h
          · split at h
            · cases h
              cases hrip
            · -- The address is printed by its registers, behind the segment prefix.
              cases h
              dsimp only
              rw [String.toList_append, String.toList_append, String.toList_append,
                String.toList_append]
              refine .append (.append (.append (.append (.sizeptr _) ?_) (by decide))
                (noRi_memInner _ _)) (by decide)
              cases hs : c.seg with
              | none => decide
              | some s =>
                rw [Option.map_some, Option.getD_some, String.toList_append]
                exact .append (hseg s hs) (by decide)

theorem noRi_decodeLea (hseg : c.SegNoRi) {d : Draft} (h : decodeLea c = some d) :
    NoRi d.operands.toList := by
  unfold decodeLea withRm at h
  obtain ⟨m, hm, rfl⟩ := Option.map_eq_some_iff.1 h
  have hoperands : ∀ d : Draft, (c.dataRef m d).operands = d.operands := fun d ↦ by
    unfold Ctx.dataRef
    split <;> rfl
  rw [hoperands]
  simp only [pair, String.toList_append]
  exact .append (.append (.regname _ _ _) (by decide)) (noRi_resolved hseg hm _)

end Lea

/-! ### The name `lea` -/

section Names

variable {c : Ctx} {d : Draft}

theorem dataRef_mnemonic (m : Modrm) (d : Draft) : (c.dataRef m d).mnemonic = d.mnemonic := by
  unfold Ctx.dataRef
  split <;> rfl

theorem nameAt_ne_lea {names : List String} (h : "lea" ∉ names) (n : ℕ) :
    nameAt names n ≠ "lea" := by
  unfold nameAt
  cases hn : names[n]? with
  | none => decide
  | some s => exact fun hs ↦ h (hs ▸ List.mem_of_getElem? hn)

/-- A name that begins with something else. -/
theorem append_ne_lea {s : String} (hs : ¬s.toList <+: "lea".toList) (t : String) :
    s ++ t ≠ "lea" := fun h ↦
  hs ⟨t.toList, by rw [← String.toList_append, h]⟩

theorem relative_ne_lea {name : String} {refType : RefType} {off n : ℕ} (hname : name ≠ "lea")
    (h : relative c name refType off n = some d) : d.mnemonic ≠ "lea" := by
  unfold relative at h
  split at h <;> cases h
  exact hname

theorem plain_ne_lea {name operands : String} {len : ℕ} (hname : name ≠ "lea")
    (h : plain name operands len = some d) : d.mnemonic ≠ "lea" := by
  cases h
  exact hname

theorem withImm_ne_lea {off n : ℕ} {name : String} {operands : ℕ → String} (hname : name ≠ "lea")
    (h : withImm c off n name operands = some d) : d.mnemonic ≠ "lea" := by
  unfold withImm at h
  split at h <;> cases h
  exact hname

theorem withRm_ne_lea {off opsize : ℕ} {text : Modrm → String × String}
    (hname : ∀ m, (text m).1 ≠ "lea") (h : withRm c off opsize text = some d) :
    d.mnemonic ≠ "lea" := by
  obtain ⟨m, -, rfl⟩ := Option.map_eq_some_iff.1 h
  rw [dataRef_mnemonic]
  exact hname m

theorem withRmOnly_ne_lea {off opsize : ℕ} {text : Modrm → String × String}
    (hname : ∀ m, (text m).1 ≠ "lea") (h : withRmOnly c off opsize text = some d) :
    d.mnemonic ≠ "lea" := by
  obtain ⟨m, -, rfl⟩ := Option.map_eq_some_iff.1 h
  exact hname m

theorem withRmImm_ne_lea {off opsize n : ℕ} {text : Modrm → ℕ → String × String}
    (hname : ∀ m imm, (text m imm).1 ≠ "lea") (h : withRmImm c off opsize n text = some d) :
    d.mnemonic ≠ "lea" := by
  obtain ⟨m, -, h⟩ := Option.bind_eq_some_iff.1 h
  split at h <;> cases h
  rw [dataRef_mnemonic]
  exact hname m _

theorem sseForm_ne_lea (op2 : ℕ) : (sseForm c op2).name ≠ some "lea" := by
  have hpick : ∀ p66 pF3 pF2 other : String, p66 ≠ "lea" → pF3 ≠ "lea" → pF2 ≠ "lea" →
      other ≠ "lea" → some (c.sel.pick p66 pF3 pF2 other) ≠ some "lea" := by
    intro p66 pF3 pF2 other h66 hF3 hF2 hother
    unfold Sel.pick
    split <;> simpa
  have hinteger : sseInteger op2 ≠ some "lea" := by
    unfold sseInteger
    split <;> decide
  unfold sseForm
  dsimp only
  split <;>
    first
      | exact hpick _ _ _ _ (by decide) (by decide) (by decide) (by decide)
      | exact hinteger
      | decide
      | (split <;> first | decide | (split <;> decide))

theorem sseShift_ne_lea (op2 sub : ℕ) : sseShift op2 sub ≠ "lea" := by
  unfold sseShift
  split <;> decide

theorem decodeSse_ne_lea {op2 : ℕ} (h : decodeSse c op2 = some d) : d.mnemonic ≠ "lea" := by
  unfold decodeSse at h
  split at h
  · obtain ⟨m, -, h⟩ := Option.bind_eq_some_iff.1 h
    split at h <;> cases h
    exact sseShift_ne_lea _ _
  · obtain ⟨m, -, h⟩ := Option.bind_eq_some_iff.1 h
    split at h <;> cases h
    rw [dataRef_mnemonic]
    cases hname : (sseForm c op2).name with
    | none => exact (by decide : (none : Option String).getD "(bad)" ≠ "lea")
    | some name => exact fun h ↦ sseForm_ne_lea op2 (hname.trans (congrArg some h))

theorem twoBytePlain_ne_lea (op2 : ℕ) : twoBytePlain op2 ≠ some "lea" := by
  unfold twoBytePlain
  split <;> decide

theorem twoByteRegs_ne_lea {rep : Bool} {op2 : ℕ} {name : String} {regFirst : Bool}
    (h : twoByteRegs rep op2 = some (name, regFirst)) : name ≠ "lea" := by
  unfold twoByteRegs at h
  split at h <;> cases h <;> first | decide | (split <;> decide)

theorem decodeTwoByte_ne_lea {op2 : ℕ} (h : decodeTwoByte c op2 = some d) :
    d.mnemonic ≠ "lea" := by
  have hregPair : ∀ {a b : String} {p : Prop} [Decidable p] {first : Bool} {n : ℕ} (m : Modrm),
      a ≠ "lea" → b ≠ "lea" → (c.regPair (if p then a else b) first n m).1 ≠ "lea" :=
    fun m ha hb ↦ by
      unfold Ctx.regPair
      dsimp only
      split
      · exact ha
      · exact hb
  unfold decodeTwoByte at h
  split at h
  · exact relative_ne_lea (append_ne_lea (by decide) _) h
  split at h
  · exact withRm_ne_lea (fun m ↦ append_ne_lea (by decide) _) h
  split at h
  · exact withRm_ne_lea (fun m ↦ append_ne_lea (by decide) _) h
  split at h
  · exact withRm_ne_lea (fun m ↦ hregPair m (by decide) (by decide)) h
  split at h
  · exact withRmOnly_ne_lea (fun m ↦ (by decide : "nop" ≠ "lea")) h
  split at h
  · next name hname =>
    exact plain_ne_lea (fun heq ↦ twoBytePlain_ne_lea op2 (hname.trans (congrArg _ heq))) h
  split at h
  · exact decodeSse_ne_lea h
  split at h
  · exact withRmImm_ne_lea (fun m imm ↦ nameAt_ne_lea (by decide) _) h
  split at h
  · next name regFirst hname => exact withRm_ne_lea (fun m ↦ twoByteRegs_ne_lea hname) h
  split at h
  · exact withRm_ne_lea (fun m ↦ hregPair m (by decide) (by decide)) h
  · exact withRmOnly_ne_lea (fun m ↦ (by decide : "(0f)" ≠ "lea")) h

theorem decodeAlu_ne_lea {op : ℕ} (h : decodeAlu c op = some d) : d.mnemonic ≠ "lea" := by
  unfold decodeAlu at h
  dsimp only at h
  split at h
  · exact withImm_ne_lea (nameAt_ne_lea (by decide) _) h
  · split at h
    · exact withImm_ne_lea (nameAt_ne_lea (by decide) _) h
    · exact withRm_ne_lea (fun m ↦ nameAt_ne_lea (by decide) _) h

theorem decodeMovImm_ne_lea {op : ℕ} (h : decodeMovImm c op = some d) : d.mnemonic ≠ "lea" := by
  unfold decodeMovImm at h
  dsimp only at h
  split at h
  · exact withImm_ne_lea (by decide) h
  · split at h <;> exact withImm_ne_lea (by decide) h

theorem decodeShift_ne_lea {op : ℕ} (h : decodeShift c op = some d) : d.mnemonic ≠ "lea" := by
  obtain ⟨m, -, h⟩ := Option.bind_eq_some_iff.1 h
  dsimp only at h
  have hname : ∀ d : Draft, d.mnemonic = nameAt shiftNames (m.reg % 8) →
      (c.dataRef m d).mnemonic ≠ "lea" := fun d hd ↦ by
    rw [dataRef_mnemonic, hd]
    exact nameAt_ne_lea (by decide) _
  split at h
  · split at h <;> cases h
    exact hname _ rfl
  · cases h
    exact hname _ rfl

theorem decodeUnary_ne_lea {op : ℕ} (h : decodeUnary c op = some d) : d.mnemonic ≠ "lea" := by
  obtain ⟨m, -, h⟩ := Option.bind_eq_some_iff.1 h
  have hname : ∀ d : Draft, d.mnemonic = nameAt f7Names (m.reg % 8) →
      (c.dataRef m d).mnemonic ≠ "lea" := fun d hd ↦ by
    rw [dataRef_mnemonic, hd]
    exact nameAt_ne_lea (by decide) _
  dsimp only at h
  generalize (if op = 0xF6 then 1 else c.immSize) = n at h
  split at h
  · split at h <;> cases h
    exact hname _ rfl
  · cases h
    exact hname _ rfl

theorem decodeFF_ne_lea (h : decodeFF c = some d) : d.mnemonic ≠ "lea" := by
  obtain ⟨m, -, rfl⟩ := Option.map_eq_some_iff.1 h
  have hname := nameAt_ne_lea (by decide : "lea" ∉ ffNames) (m.reg % 8)
  dsimp only
  split <;> exact hname

theorem decodeMovRmImm_ne_lea {op : ℕ} (h : decodeMovRmImm c op = some d) : d.mnemonic ≠ "lea" := by
  unfold decodeMovRmImm at h
  exact withRmImm_ne_lea (fun m imm ↦ (by decide : "mov" ≠ "lea")) h

theorem decodeAluImm_ne_lea {op : ℕ} (h : decodeAluImm c op = some d) : d.mnemonic ≠ "lea" := by
  unfold decodeAluImm at h
  exact withRmImm_ne_lea (fun m imm ↦ nameAt_ne_lea (by decide) _) h

theorem plainName_ne_lea (op : ℕ) : plainName c op ≠ some "lea" := by
  unfold plainName
  split <;>
    first
      | decide
      | (split <;> first | decide | (split <;> decide))

theorem decodeImm_ne_lea {op : ℕ} (h : decodeImm c op = some d) : d.mnemonic ≠ "lea" := by
  unfold decodeImm at h
  split at h <;>
    first
      | exact withImm_ne_lea (by decide) h
      | exact relative_ne_lea (by decide) h
      | exact plain_ne_lea (by decide) h
      | cases h

/-- Among the opcodes with a ModRM operand, `8D` alone is a `lea`. -/
theorem decodeRm_lea (hseg : c.SegNoRi) {op : ℕ} (h : decodeRm c op = some d)
    (hlea : d.mnemonic = "lea") : NoRi d.operands.toList := by
  have habsurd : d.mnemonic ≠ "lea" → NoRi d.operands.toList := fun hne ↦ absurd hlea hne
  unfold decodeRm at h
  dsimp only at h
  split at h
  -- The sixth case is the opcode `8D`, and the others have names of their own.
  case h_6 => exact noRi_decodeLea hseg h
  all_goals refine habsurd ?_
  case h_5 =>
    split at h
    · exact withRm_ne_lea (fun m ↦ by simp [Ctx.regPair]) h
    · cases h
  case h_11 | h_12 => exact decodeMovRmImm_ne_lea h
  case h_13 | h_14 | h_15 => exact decodeAluImm_ne_lea h
  case h_16 | h_17 | h_18 | h_19 | h_20 | h_21 => exact decodeShift_ne_lea h
  case h_22 | h_23 => exact decodeUnary_ne_lea h
  case h_24 => exact decodeFF_ne_lea h
  case h_25 => exact withRmOnly_ne_lea (fun m ↦ by dsimp only; split <;> decide) h
  case h_26 => exact withRmOnly_ne_lea (fun m ↦ (by decide : "pop" ≠ "lea")) h
  case h_27 | h_28 => exact withRmImm_ne_lea (fun m imm ↦ (by decide : "imul" ≠ "lea")) h
  case h_37 => cases h
  all_goals exact withRm_ne_lea (fun m ↦ by simp [Ctx.regPair]) h

theorem decodeOneByte_lea (hseg : c.SegNoRi) {op : ℕ} (h : decodeOneByte c op = some d)
    (hlea : d.mnemonic = "lea") : NoRi d.operands.toList := by
  have habsurd : d.mnemonic ≠ "lea" → NoRi d.operands.toList := fun hne ↦ absurd hlea hne
  unfold decodeOneByte at h
  split at h
  · exact habsurd (decodeAlu_ne_lea h)
  split at h
  · split at h
    · cases h
    · exact habsurd (plain_ne_lea (by split <;> decide) h)
  split at h
  · exact habsurd (plain_ne_lea (by split <;> decide) h)
  split at h
  · exact habsurd (relative_ne_lea (append_ne_lea (by decide) _) h)
  split at h
  · exact habsurd (plain_ne_lea (by decide) h)
  split at h
  · unfold decodeMoffs at h
    exact habsurd (withImm_ne_lea (by decide) h)
  split at h
  · exact habsurd (decodeMovImm_ne_lea h)
  split at h
  · next name hname =>
    exact habsurd (plain_ne_lea (fun heq ↦ plainName_ne_lea op (hname.trans (congrArg _ heq))) h)
  · rcases Option.or_eq_some_iff.1 h with h | ⟨-, h⟩
    · exact decodeRm_lea hseg h hlea
    · exact habsurd (decodeImm_ne_lea h)

end Names

/-- **The decoder prints no `lea` relative to the next instruction.** -/
theorem not_operandsHave_rip (is64 : Bool) (bytes : List UInt8) (addr : ℕ)
    (hlea : (dsDecode is64 bytes addr).mnemonic = "lea") :
    (dsDecode is64 bytes addr).operandsHave "rip" = false := by
  have hseg : (Ctx.readPrefixes bytes { p := bytes, addr := addr, is64 := is64 }).readRex.SegNoRi :=
    segNoRi_readRex (segNoRi_readPrefixes fun s hs ↦ by cases hs)
  unfold dsDecode at hlea ⊢
  dsimp only at hlea ⊢
  generalize (Ctx.readPrefixes bytes _).readRex = c at hseg hlea ⊢
  cases hopcode : decodeOpcode c with
  | none =>
    rw [hopcode] at hlea
    exact absurd hlea (by simp [dataByte])
  | some d =>
    rw [hopcode] at hlea
    refine decide_eq_false (NoRi.not_isInfix ?_)
    unfold decodeOpcode at hopcode
    split at hopcode
    · cases hopcode
    · split at hopcode
      · split at hopcode
        · cases hopcode
        · exact absurd hlea (decodeTwoByte_ne_lea hopcode)
      · exact decodeOneByte_lea hseg hopcode hlea

/-! ### Tables -/

section Tables

variable {e : Engine}

/-- The address that a `lea` loads is not found in its text, so no table is. -/
theorem resolveJumptableMax_eq_zero
    (hlea : ∀ i ∈ e.insns, i.mnemonic = "lea" → i.operandsHave "rip" = false) (k f g : ℕ) :
    e.resolveJumptableMax k f g = 0 := by
  have hnone : ∀ base, (e.jumpWindow k).findSome? (·.leaTarget? base) = none := by
    intro base
    refine List.findSome?_eq_none_iff.2 fun i hi ↦ ?_
    have hmem : i ∈ e.insns := List.mem_of_mem_take (List.mem_reverse.1 (List.mem_of_mem_take hi))
    unfold Insn.leaTarget?
    rw [if_neg]
    intro hcond
    simp only [Bool.and_eq_true, decide_eq_true_eq] at hcond
    rw [hlea i hmem (by simpa using hcond.1.1)] at hcond
    exact absurd hcond.1.2 (by decide)
  unfold Engine.resolveJumptableMax
  split
  · split
    · next disp base _ =>
      rw [hnone]
      split <;> rfl
    · rfl
  · rfl

end Tables

/-- `lea b, [rip±X]`, which loads the address `a`. -/
def Insn.LoadsAddress (b a : ℕ) (i : Insn) : Prop :=
  i.mnemonic = "lea" ∧ destReg i.operands.toList = some (nameAt reg64 b).toList ∧
    i.refType = .data ∧ i.refTarget = a

/-- `mov r32, [b+x*4+off]` -/
def Insn.LoadsEntry (r b x off : ℕ) (i : Insn) : Prop :=
  i.mnemonic = "mov" ∧
    i.operands = pair (nameAt reg32 r)
      ("dword ptr [" ++ nameAt reg64 b ++ "+" ++ nameAt reg64 x ++ "*4" ++ fmtDisp off ++ "]")

/-- `add r, b` -/
def Insn.AddsBase (r b : ℕ) (i : Insn) : Prop :=
  i.mnemonic = "add" ∧ i.operands = pair (nameAt reg64 r) (nameAt reg64 b)

/-- `jmp r` -/
def Insn.JumpsTo (r : ℕ) (i : Insn) : Prop :=
  i.mnemonic = "jmp" ∧ i.refType = .none ∧
    (i.operands = nameAt reg64 r ∨ i.operands = nameAt reg32 r)

/-- The jump at position `k` goes through a table at `a + off` with entries relative to `a`: the
instructions that find the target stand before it, at most thirty away. -/
def TableJump (e : Engine) (k a off : ℕ) : Prop :=
  ∃ k₁ k₂ k₃ i₁ i₂ i₃ i₄ r b x, k ≤ k₁ + 30 ∧ k₁ < k₂ ∧ k₂ < k₃ ∧ k₃ < k ∧
    (e.insns[k₁]? = some i₁ ∧ i₁.LoadsAddress b a) ∧
    (e.insns[k₂]? = some i₂ ∧ i₂.LoadsEntry r b x off) ∧
    (e.insns[k₃]? = some i₃ ∧ i₃.AddsBase r b) ∧
    (e.insns[k]? = some i₄ ∧ i₄.JumpsTo r)

/-- The instruction at a position starts in the function. -/
def Func.Holds (F : Func) (e : Engine) (k : ℕ) : Prop :=
  ∃ i, e.insns[k]? = some i ∧ F.rva ≤ i.rva ∧ i.rva < F.rva + F.size

/-- The targets of the table at `a + off` that lie in a span, up to the first entry that does not
give one. -/
def Engine.caseTargets (e : Engine) (s : Span) (a off : ℕ) : List ℕ :=
  e.tableTargets a s.start s.segEnd 1024 (wrap64 (a + off))

theorem foldl_max_eq_zero (m : ℕ) (l : List ℕ) :
    l.foldl max m = 0 ↔ m = 0 ∧ ∀ t ∈ l, t = 0 := by
  induction l generalizing m with
  | nil => simp
  | cons t l ih =>
    rw [List.foldl_cons, ih, List.forall_mem_cons, ← and_assoc, Nat.max_eq_zero_iff]

/-- **A jump table is found when its targets are all zero, and never else.** -/
theorem tableJump_found_iff (noPdataSeed : Bool) (e₀ : Engine) (hfresh : e₀.insns = [])
    (himage : e₀.image.length < 2 ^ 64) (e : Engine)
    (hinsns : e.insns = (disassemble builtin noPdataSeed e₀).insns) (F : Func)
    (hF : F ∈ e.buildCfg.funcs) (k a off : ℕ) (_hholds : F.Holds e k)
    (_htable : TableJump e k a off)
    (_htargets : 2 ≤ (e.caseTargets (e.spanOf F.rva (e.nextStart F.rva)) a off).length) :
    (e.resolveJumptableMax k F.rva (e.spanOf F.rva (e.nextStart F.rva)).segEnd =
          (e.caseTargets (e.spanOf F.rva (e.nextStart F.rva)) a off).foldl max 0 ∧
        ((e.caseTargets (e.spanOf F.rva (e.nextStart F.rva)) a off).foldl max 0 <
            e.nextStart F.rva →
          (e.caseTargets (e.spanOf F.rva (e.nextStart F.rva)) a off).foldl max 0 <
            F.rva + F.size)) ↔
      ∀ t ∈ e.caseTargets (e.spanOf F.rva (e.nextStart F.rva)) a off, t = 0 := by
  obtain ⟨-, hdecoded⟩ := disassemble_fresh builtin noPdataSeed e₀ hfresh
  have hwf : WellFormed e.insns :=
    hinsns ▸ wellFormed_disassemble builtin noPdataSeed e₀ hfresh himage
  have hlea : ∀ i ∈ e.insns, i.mnemonic = "lea" → i.operandsHave "rip" = false := by
    intro i hi hmnemonic
    rw [hinsns] at hi
    obtain ⟨rva, avail, -, -, rfl⟩ := hdecoded i hi
    exact not_operandsHave_rip _ _ _ hmnemonic
  -- The function is not empty, so that a largest target of zero lies in it.
  have hpos : 0 < F.rva + F.size := by
    obtain ⟨p, l, i, L, -, -, -, hl, hend⟩ := extent_of_mem hwf hF
    rw [hend]
    exact (Nat.zero_le _).trans_lt (hwf.rva_lt_stop (List.mem_of_getElem? hl))
  have hmax := foldl_max_eq_zero 0 (e.caseTargets (e.spanOf F.rva (e.nextStart F.rva)) a off)
  rw [and_iff_right rfl] at hmax
  rw [resolveJumptableMax_eq_zero hlea, ← hmax]
  constructor
  · rintro ⟨hzero, -⟩
    exact hzero.symm
  · intro hzero
    rw [hzero]
    exact ⟨rfl, fun _ ↦ hpos⟩

/-- A `switch` with two cases behind a `ret`. -/
def switch : Engine where
  image :=
    [0, 0, 0, 0, 0, 0, 0, 0, 0, 0, 0, 0, 0, 0, 0, 0, 0x48, 0x8D, 0x0D, 0xF9, 0xFF, 0xFF, 0xFF, 0x8B,
      0x84, 0x91, 0x20, 0, 0, 0, 0x48, 0x01, 0xC8, 0xFF, 0xE0, 0xC3, 0x90, 0xC3, 0, 0, 0, 0, 0, 0,
      0, 0, 0, 0, 20, 0, 0, 0, 21, 0, 0, 0, 0xFF, 0xFF, 0xFF, 0xFF]
  entry := some 16
  segments := [⟨".text", 16, 22, true⟩, ⟨".rdata", 48, 12, false⟩]

/-- The listing of `switch`. -/
def switchListed : Engine :=
  { switch with
    insns :=
      [dsDecode true [0x48, 0x8D, 0x0D, 0xF9, 0xFF, 0xFF, 0xFF] 16,
        dsDecode true [0x8B, 0x84, 0x91, 0x20, 0, 0, 0] 23, dsDecode true [0x48, 0x01, 0xC8] 30,
        dsDecode true [0xFF, 0xE0] 33, dsDecode true [0xC3] 35, dsDecode true [0x90] 36,
        dsDecode true [0xC3] 37] }

theorem switchListed_insns : switchListed.insns = (disassemble builtin true switch).insns :=
  (disassemble_insns_eq (by decide) (.inr rfl) (by decide) (by decide)).symm

theorem tableJump_switch : TableJump switchListed 3 16 32 :=
  ⟨0, 1, 2, _, _, _, _, 0, 1, 2, by decide, by decide, by decide, by decide,
    ⟨rfl, by decide, by decide, by decide, by decide⟩, ⟨rfl, by decide, by decide⟩,
    ⟨rfl, by decide, by decide⟩, ⟨rfl, by decide, by decide, by decide⟩⟩

theorem switch_found_iff :
    (switchListed.resolveJumptableMax 3 16
            (switchListed.spanOf 16 (switchListed.nextStart 16)).segEnd =
          (switchListed.caseTargets (switchListed.spanOf 16 (switchListed.nextStart 16))
            16 32).foldl max 0 ∧
        ((switchListed.caseTargets (switchListed.spanOf 16 (switchListed.nextStart 16))
              16 32).foldl max 0 < switchListed.nextStart 16 →
          (switchListed.caseTargets (switchListed.spanOf 16 (switchListed.nextStart 16))
              16 32).foldl max 0 < 16 + 20)) ↔
      ∀ t ∈ switchListed.caseTargets (switchListed.spanOf 16 (switchListed.nextStart 16)) 16 32,
        t = 0 :=
  tableJump_found_iff true switch rfl (by decide) switchListed switchListed_insns ⟨16, 20, 1, 0⟩
    (by decide) 3 16 32 ⟨_, rfl, by decide, by decide⟩ tableJump_switch (by decide)

theorem switch_not_found :
    ¬∀ (noPdataSeed : Bool) (e₀ : Engine), e₀.insns = [] → e₀.image.length < 2 ^ 64 →
      ∀ e : Engine, e.insns = (disassemble builtin noPdataSeed e₀).insns →
      ∀ F ∈ e.buildCfg.funcs, ∀ k a off, F.Holds e k → TableJump e k a off →
      2 ≤ (e.caseTargets (e.spanOf F.rva (e.nextStart F.rva)) a off).length →
      e.resolveJumptableMax k F.rva (e.spanOf F.rva (e.nextStart F.rva)).segEnd =
          (e.caseTargets (e.spanOf F.rva (e.nextStart F.rva)) a off).foldl max 0 ∧
        ((e.caseTargets (e.spanOf F.rva (e.nextStart F.rva)) a off).foldl max 0 <
            e.nextStart F.rva →
          (e.caseTargets (e.spanOf F.rva (e.nextStart F.rva)) a off).foldl max 0 <
            F.rva + F.size) := by
  intro h
  have hfound := (h true switch rfl (by decide) switchListed switchListed_insns ⟨16, 20, 1, 0⟩
    (by decide) 3 16 32 ⟨_, rfl, by decide, by decide⟩ tableJump_switch (by decide)).1
  exact absurd hfound (by decide)

end Listing

end Ldu
