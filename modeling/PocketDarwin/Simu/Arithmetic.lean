/-
  Data processing with the S bit, against the architecture.

  * `Arm.addWithCarry` and `Arm.dataResult` say what an instruction computes, with
    its carry and its overflow.
  * The results of the simulator are right wherever the operand is
    (`alu_result_eq`), but the carry and the overflow that it computes beside them
    are never stored: C is what comes out of the shifter, and V stays as it is.
  * A register that is shifted left by another, with `r1` as the first operand, has
    the pattern of `CLZ`, and is executed as one.
  * `flag_setting_iff`: with that and with the shifts that are misread, this is all.
-/
import PocketDarwin.Simu.Board
import PocketDarwin.Simu.Shifter

namespace PocketDarwin.Simu

/-! ## The architecture -/

namespace Arm

/-- `AddWithCarry`: a sum, its carry, and whether it overflows as a sum of signed numbers. -/
def addWithCarry (x y : Word) (c : Bool) : Alu :=
  let result := x + y + (if c then 1 else 0)
  ⟨result, decide (2 ^ 32 ≤ x.toNat + y.toNat + c.toNat),
    decide (result.toInt ≠ x.toInt + y.toInt + c.toNat)⟩

/-- What an instruction makes of its operands: a logical operation takes its carry from the
    shifter and leaves the overflow. -/
def dataResult (opcode : BitVec 4) (cpu : Cpu) (rn : Word) (operand : Word × Bool) : Alu :=
  let logical (result : Word) : Alu := ⟨result, operand.2, bit cpu.cpsr 28⟩
  match opcode.toNat with
  | 0x0 => logical (rn &&& operand.1)
  | 0x1 => logical (rn ^^^ operand.1)
  | 0x2 => addWithCarry rn (~~~operand.1) true
  | 0x3 => addWithCarry (~~~rn) operand.1 true
  | 0x4 => addWithCarry rn operand.1 false
  | 0x5 => addWithCarry rn operand.1 cpu.carry
  | 0x6 => addWithCarry rn (~~~operand.1) cpu.carry
  | 0x7 => addWithCarry (~~~rn) operand.1 cpu.carry
  | 0xC => logical (rn ||| operand.1)
  | 0xD => logical operand.1
  | 0xE => logical (rn &&& ~~~operand.1)
  | 0xF => logical (~~~operand.1)
  | _ => logical 0

/-- What an instruction computes. -/
def data (cpu : Cpu) (insn : Word) : Alu :=
  dataResult (bits insn 21 4) cpu (cpu.regs (bits insn 16 4)) (operand cpu insn)

end Arm

/-- Data processing with the S bit that is no comparison, without `r15`; a register that is
    shifted by a register has bit 7 clear. -/
structure IsFlagSetting (insn : Word) : Prop where
  op0 : bits insn 25 3 = 0 ∨ bits insn 25 3 = 1
  opcode : ¬ isCompare (bits insn 21 4)
  sFlag : bit insn 20 = true
  form : bit insn 25 = true ∨ bit insn 4 = false ∨ bit insn 7 = false
  rd : bits insn 12 4 ≠ 15
  rn : bits insn 16 4 ≠ 15
  rm : bit insn 25 = false → bits insn 0 4 ≠ 15
  rs : bit insn 25 = false → bit insn 4 = true → bits insn 8 4 ≠ 15

/-- The operand as it is read. -/
def readOperand (cpu : Cpu) (insn : Word) : Word × Bool :=
  (misread cpu insn).getD (Arm.operand cpu insn)

/-- What an instruction computes with the operand that is read. -/
def readResult (cpu : Cpu) (insn : Word) : Word :=
  (Arm.dataResult (bits insn 21 4) cpu (cpu.regs (bits insn 16 4)) (readOperand cpu insn)).result

/-- The words that are taken for a `CLZ` are right where the count happens to be the result
    and the flags are already there. -/
structure ClzFaithful (cpu : Cpu) (insn : Word) : Prop where
  count : clz (cpu.regs (bits insn 0 4)) = (Arm.data cpu insn).result
  n : bit cpu.cpsr 31 = (Arm.data cpu insn).result.msb
  z : bit cpu.cpsr 30 = decide ((Arm.data cpu insn).result = 0)
  c : bit cpu.cpsr 29 = (Arm.data cpu insn).carry
  v : bit cpu.cpsr 28 = (Arm.data cpu insn).overflow

/-- The others are right where a shift that is misread does not change the result, the carry
    is that of the shifter, and the overflow is already there. -/
structure ShifterFaithful (cpu : Cpu) (insn : Word) : Prop where
  operand : (misread cpu insn).isSome → readResult cpu insn = (Arm.data cpu insn).result
  c : (readOperand cpu insn).2 = (Arm.data cpu insn).carry
  v : bit cpu.cpsr 28 = (Arm.data cpu insn).overflow

/-- The states in which an instruction is executed right. -/
def Faithful (cpu : Cpu) (insn : Word) : Prop :=
  if isClz insn then ClzFaithful cpu insn else ShifterFaithful cpu insn

/-- A CPU with the result of a data processing instruction, and else as before. -/
structure Computed (before : Cpu) (rd : Reg) (result : Alu) (after : Cpu) : Prop where
  value : after.regs rd = result.result
  others : ∀ r, r ≠ rd → after.regs r = before.regs r
  n : bit after.cpsr 31 = result.result.msb
  z : bit after.cpsr 30 = decide (result.result = 0)
  c : bit after.cpsr 29 = result.carry
  v : bit after.cpsr 28 = result.overflow
  low : ∀ i < 28, bit after.cpsr i = bit before.cpsr i

/-! ## Results -/

theorem add_carry_eq (a b : Word) (c : Bool) :
    (a.setWidth 64 + b.setWidth 64 + (if c then 1 else 0)).setWidth 32 =
      a + b + (if c then 1 else 0) := by
  cases c with
  | false =>
    rw [if_neg Bool.false_ne_true, if_neg Bool.false_ne_true]
    bv_omega
  | true =>
    rw [if_pos rfl, if_pos rfl]
    bv_omega

theorem sub_borrow_eq (a b : Word) (c : Bool) :
    (a.setWidth 64 - b.setWidth 64 - (if c then 0 else 1)).setWidth 32 =
      a + ~~~b + (if c then 1 else 0) := by
  cases c with
  | false =>
    rw [if_neg Bool.false_ne_true, if_neg Bool.false_ne_true]
    bv_omega
  | true =>
    rw [if_pos rfl, if_pos rfl]
    bv_omega

theorem sub_eq (a b : Word) : a - b = a + ~~~b + 1 := by bv_omega

/-- The results are right. -/
theorem alu_result_eq (opcode : BitVec 4) (cpu : Cpu) (rn : Word) (operand : Word × Bool) :
    (alu opcode cpu rn operand.1).result = (Arm.dataResult opcode cpu rn operand).result := by
  unfold alu Arm.dataResult
  generalize opcode.toNat = k
  match k with
  | 0 | 1 | 8 | 9 | 10 | 11 | 12 | 13 | 14 | 15 | k + 16 => rfl
  | 2 => exact sub_eq rn operand.1
  | 3 => exact (sub_eq operand.1 rn).trans (by rw [BitVec.add_comm operand.1]; rfl)
  | 4 => exact (BitVec.add_zero _).symm
  | 5 => exact add_carry_eq rn operand.1 cpu.carry
  | 6 => exact sub_borrow_eq rn operand.1 cpu.carry
  | 7 => exact (sub_borrow_eq operand.1 rn cpu.carry).trans (by rw [BitVec.add_comm operand.1]; rfl)

/-! ## The step -/

/-- The patterns that are tested before data processing take the shifts to the left by a
    register with `r1` as the first operand, for `CLZ`, and no other. -/
theorem IsFlagSetting.executeData_eq {insn : Word} (h : IsFlagSetting insn) (pc : Word) (cpu : Cpu) :
    executeData pc insn cpu =
      if isClz insn then cpu.setReg (bits insn 12 4) (clz (cpu.regs (bits insn 0 4)))
      else dataProcessing insn cpu := by
  have hnine : bit insn 25 = false → bits7to4 insn ≠ 9 := by
    intro h25 h9
    have h4 : bit insn 4 = true := bit_of_bits h9 (j := 0) (by decide)
    have h7 : bit insn 7 = true := bit_of_bits h9 (j := 3) (by decide)
    have hform := h.form
    rw [h25, h4, h7] at hform
    simp at hform
  have hmul : ¬ isMultiply insn ∧ ¬ isLongMultiply insn := by
    simp only [isMultiply, isLongMultiply, Bool.and_eq_true, decide_eq_true_eq]
    refine ⟨fun h' => ?_, fun h' => ?_⟩
    · exact hnine (bit_of_bits h'.1.1 (j := 0) (by decide)) h'.1.2
    · exact hnine (bit_of_bits h'.1.1 (j := 0) (by decide)) h'.1.2
  have hmrs : ¬ isMrs insn := by
    intro h'
    obtain ⟨-, -, h20, -⟩ := isMrs_fields h'
    rw [h.sFlag] at h20
    cases h20
  have hbx : ¬ isBx insn ∧ ¬ isBlx insn := by
    simp only [isBx, isBlx, Bool.and_eq_true, decide_eq_true_eq]
    exact ⟨fun h' => h.rd h'.2, fun h' => h.rd h'.2⟩
  rw [Simu.executeData_eq, if_neg hmul.1, if_neg hmul.2, if_neg hmrs, if_neg hbx.1, if_neg hbx.2]

section
variable {σ : Type} (bus : Bus σ) (m : Machine σ) {insn : Word}

/-- The operands do not depend on `r15`. -/
theorem IsFlagSetting.operand2_eq (h : IsFlagSetting insn) :
    operand2 (m.advanced bus).cpu insn = operand2 m.cpu insn := by
  have hcarry : (m.advanced bus).cpu.carry = m.cpu.carry := rfl
  unfold operand2
  split_ifs with h₁ h₂
  · rw [hcarry]
  · have hrm := advanced_regs_of_ne bus (m := m) (h.rm (Bool.eq_false_iff.2 h₁))
    have hrs := advanced_regs_of_ne bus (m := m) (h.rs (Bool.eq_false_iff.2 h₁) h₂)
    simp only [decodeRegShift, barrelShift, hrm, hrs, hcarry]
  · have hrm := advanced_regs_of_ne bus (m := m) (h.rm (Bool.eq_false_iff.2 h₁))
    simp only [decodeImmShift, barrelShift, hrm, hcarry]

/-- What data processing leaves: the result of the operand that was read, its carry, and the
    overflow that was there before. -/
theorem IsFlagSetting.dataProcessing_eq (h : IsFlagSetting insn) :
    dataProcessing insn (m.advanced bus).cpu =
      (((m.advanced bus).cpu.updateFlagsNz (readResult m.cpu insn)).setCarry
        (readOperand m.cpu insn).2).setReg
        (bits insn 12 4) (readResult m.cpu insn) := by
  have halu : ∀ op2, alu (bits insn 21 4) (m.advanced bus).cpu (m.cpu.regs (bits insn 16 4)) op2 =
      alu (bits insn 21 4) m.cpu (m.cpu.regs (bits insn 16 4)) op2 := fun _ => rfl
  rw [dataProcessing_write h.opcode, h.operand2_eq, advanced_regs_of_ne bus h.rn, halu,
    Simu.operand2_eq,
    ← readOperand, alu_result_eq, writeResult]
  simp only [h.sFlag, h.rd, if_true, if_false]
  rfl

end

section
variable {before : Cpu} {rd : Reg} {meant : Alu}

/-- An instruction that only writes a register. -/
theorem computed_setReg_iff {count : Word} :
    Computed before rd meant (before.setReg rd count) ↔
      count = meant.result ∧ bit before.cpsr 31 = meant.result.msb ∧
        bit before.cpsr 30 = decide (meant.result = 0) ∧ bit before.cpsr 29 = meant.carry ∧
        bit before.cpsr 28 = meant.overflow := by
  constructor
  · intro h
    have hvalue := h.value
    rw [Cpu.setReg_regs_self] at hvalue
    exact ⟨hvalue, h.n, h.z, h.c, h.v⟩
  · rintro ⟨hcount, hn, hz, hc, hv⟩
    refine ⟨?_, fun r hr => Cpu.setReg_regs_of_ne hr _, hn, hz, hc, hv, fun _ _ => rfl⟩
    rw [Cpu.setReg_regs_self, hcount]

/-- An instruction that also sets N, Z and C. -/
theorem computed_nzc_iff {result : Word} {c : Bool} :
    Computed before rd meant (((before.updateFlagsNz result).setCarry c).setReg rd result) ↔
      result = meant.result ∧ c = meant.carry ∧ bit before.cpsr 28 = meant.overflow := by
  have hbit : ∀ i < 32, bit (((before.updateFlagsNz result).setCarry c).setReg rd result).cpsr i =
      if i = 29 then c else if i = 31 then result.msb else if i = 30 then decide (result = 0)
      else bit before.cpsr i := by
    intro i hi
    rw [Cpu.setReg_cpsr, bit_setCarry _ _ hi, bit_updateFlagsNz _ _ hi]
  constructor
  · intro h
    have hvalue := h.value
    rw [Cpu.setReg_regs_self] at hvalue
    exact ⟨hvalue, (hbit 29 (by decide)).symm.trans h.c, (hbit 28 (by decide)).symm.trans h.v⟩
  · rintro ⟨rfl, rfl, hv⟩
    refine ⟨Cpu.setReg_regs_self _ _ _, fun r hr => Cpu.setReg_regs_of_ne hr _, hbit 31 (by decide),
      hbit 30 (by decide), hbit 29 (by decide), (hbit 28 (by decide)).trans hv, fun i hi => ?_⟩
    rw [hbit i (by omega), if_neg (by omega), if_neg (by omega), if_neg (by omega)]

end

theorem readResult_eq {cpu : Cpu} {insn : Word} (h : misread cpu insn = none) :
    readResult cpu insn = (Arm.data cpu insn).result := by
  rw [readResult, readOperand, h]
  rfl

theorem shifterFaithful_iff (cpu : Cpu) (insn : Word) :
    ShifterFaithful cpu insn ↔ readResult cpu insn = (Arm.data cpu insn).result ∧
      (readOperand cpu insn).2 = (Arm.data cpu insn).carry ∧
      bit cpu.cpsr 28 = (Arm.data cpu insn).overflow := by
  constructor
  · intro h
    refine ⟨?_, h.c, h.v⟩
    by_cases hread : (misread cpu insn).isSome
    · exact h.operand hread
    · exact readResult_eq (Option.not_isSome_iff_eq_none.1 hread)
  · rintro ⟨hresult, hc, hv⟩
    exact ⟨fun _ => hresult, hc, hv⟩

/-- **Flag-setting data processing** is what the architecture says exactly in the states in
    which the instruction is faithful. -/
theorem flag_setting_iff {σ : Type} (bus : Bus σ) {m : Machine σ} {insn : Word}
    (hexec : Executes bus m insn)
    (h : IsFlagSetting insn) :
    Computed (m.advanced bus).cpu (bits insn 12 4) (Arm.data m.cpu insn) (cpuStep bus m).2.cpu ↔
      Faithful m.cpu insn := by
  rw [hexec.step, execute_data bus _ _ h.op0, h.executeData_eq, Faithful]
  by_cases hclz : isClz insn
  · have h25 : bit insn 25 = false := by
      simp only [isClz, Bool.and_eq_true, Bool.not_eq_true'] at hclz
      exact hclz.1.1
    rw [if_pos hclz, if_pos hclz, advanced_regs_of_ne bus (h.rm h25), computed_setReg_iff]
    constructor
    · rintro ⟨hcount, hn, hz, hc, hv⟩
      exact ⟨hcount, hn, hz, hc, hv⟩
    · rintro ⟨hcount, hn, hz, hc, hv⟩
      exact ⟨hcount, hn, hz, hc, hv⟩
  · rw [if_neg hclz, if_neg hclz, h.dataProcessing_eq, computed_nzc_iff, shifterFaithful_iff]
    rfl

/-- `AND`, `EOR`, `ORR`, `MOV`, `BIC` and `MVN`. -/
def isLogical (opcode : BitVec 4) : Bool := opcode.toNat < 2 || 12 ≤ opcode.toNat

/-- A logical operation is right unless it is taken for a `CLZ` or its shift is misread. -/
theorem faithful_of_logical {cpu : Cpu} {insn : Word} (hop : isLogical (bits insn 21 4))
    (hclz : ¬ isClz insn)
    (hread : misread cpu insn = none) : Faithful cpu insn := by
  have hflags : ∀ (k : BitVec 4), isLogical k → ∀ rn operand,
      (Arm.dataResult k cpu rn operand).carry = operand.2 ∧
      (Arm.dataResult k cpu rn operand).overflow = bit cpu.cpsr 28 := by
    intro k hk rn operand
    simp only [isLogical, Bool.or_eq_true, decide_eq_true_eq] at hk
    unfold Arm.dataResult
    generalize k.toNat = j at hk
    match j with
    | 0 | 1 | 8 | 9 | 10 | 11 | 12 | 13 | 14 | 15 | j + 16 => exact ⟨rfl, rfl⟩
    | 2 | 3 | 4 | 5 | 6 | 7 => omega
  obtain ⟨hc, hv⟩ := hflags _ hop (cpu.regs (bits insn 16 4)) (Arm.operand cpu insn)
  rw [Faithful, if_neg hclz]
  refine ⟨fun _ => readResult_eq hread, ?_, hv.symm⟩
  rw [readOperand, hread]
  exact hc.symm

/-- A machine about to run one instruction, with `a` in `r1` and `b` in `r2`. -/
def dataMachine (insn a b : Word) : Machine Board :=
  startMachine [insn] fun r => if r = 1 then a else if r = 2 then b else 0

/-- `movs r0, r2` is right. -/
theorem movs_computed :
    Computed ((dataMachine 0xE1B00002 0 7).advanced Board.bus).cpu 0 ⟨7, false, false⟩
      (cpuStep Board.bus (dataMachine 0xE1B00002 0 7)).2.cpu :=
  have hexec : Executes Board.bus (dataMachine 0xE1B00002 0 7) 0xE1B00002 :=
    ⟨rfl, by decide +kernel, by decide⟩
  (flag_setting_iff Board.bus hexec
    ⟨.inl
      (by decide), by
        decide, by decide, .inr (.inl (by decide)), by decide, by decide, by decide, by decide⟩).2
    ⟨by decide, by decide, by decide⟩

/-- `subs r0, r1, r2` of equal operands leaves a carry that says that there was a borrow. -/
theorem subs_not_computed :
    Executes Board.bus (dataMachine 0xE0510002 7 7) 0xE0510002 ∧ IsFlagSetting 0xE0510002 ∧
      ¬ Computed ((dataMachine 0xE0510002 7 7).advanced Board.bus).cpu 0
        (Arm.data (dataMachine 0xE0510002 7 7).cpu 0xE0510002)
        (cpuStep Board.bus (dataMachine 0xE0510002 7 7)).2.cpu := by
  refine ⟨⟨rfl, by decide +kernel, by decide⟩,
    ⟨.inl
      (by decide), by
        decide, by decide, .inr (.inl (by decide)), by decide, by decide, by decide, by decide⟩, ?_⟩
  intro h
  exact absurd h.c (by decide +kernel)

end PocketDarwin.Simu
