/-
  How an instruction word is decoded: its bits and fields, the mask tests of
  `cpu_step`, and the class that an instruction is executed in.
-/
import Mathlib.Tactic.SplitIfs
import PocketDarwin.Simu.Cpu

namespace PocketDarwin.Simu

/-! ## Bits -/

theorem bit_and (x y : Word) (i : ℕ) : bit (x &&& y) i = (bit x i && bit y i) := BitVec.getLsbD_and

theorem bit_or (x y : Word) (i : ℕ) : bit (x ||| y) i = (bit x i || bit y i) := BitVec.getLsbD_or

theorem bit_not (x : Word) {i : ℕ} (hi : i < 32) : bit (~~~x) i = !bit x i := by
  simp [bit, hi]

theorem bit_zero (i : ℕ) : bit 0 i = false := BitVec.getLsbD_zero

theorem bit_ite (c : Prop) [Decidable c] (x : Word) (i : ℕ) :
    bit (if c then x else 0) i = (decide c && bit x i) := by
  split_ifs with h
  · simp [h]
  · simpa [h] using bit_zero i

theorem bit_twoPow (k : ℕ) (hk : k < 32) (i : ℕ) : bit (BitVec.twoPow 32 k) i = decide (i = k) := by
  rw [bit, BitVec.getLsbD_twoPow]
  grind

theorem bit_31 (i : ℕ) : bit 0x80000000 i = decide (i = 31) := bit_twoPow 31 (by decide) i

theorem bit_30 (i : ℕ) : bit 0x40000000 i = decide (i = 30) := bit_twoPow 30 (by decide) i

theorem bit_29 (i : ℕ) : bit 0x20000000 i = decide (i = 29) := bit_twoPow 29 (by decide) i

theorem bit_28 (i : ℕ) : bit 0x10000000 i = decide (i = 28) := bit_twoPow 28 (by decide) i

theorem msb_eq_bit (x : Word) : x.msb = bit x 31 := BitVec.msb_eq_getLsbD_last x

/-- A bit of a field. -/
theorem bit_of_bits {insn : Word} {lo len : ℕ} {v : BitVec len} (h : bits insn lo len = v) {j : ℕ}
    (hj : j < len) : bit insn (lo + j) = v.getLsbD j := by
  rw [← h, bits, BitVec.getLsbD_extractLsb']
  simp [hj, bit]

/-- A bit under the mask of a test. -/
theorem bit_of_mask {insn mask val : Word} (h : insn &&& mask = val) {i : ℕ} (hi : bit mask i) :
    bit insn i = bit val i := by
  rw [← h, bit_and, hi, Bool.and_true]

/-- A part of a field. -/
theorem bits_of_bits {insn : Word} {lo len : ℕ} {v : BitVec len} (h : bits insn lo len = v) (k len' : ℕ)
    (hk : k + len' ≤ len) : bits insn (lo + k) len' = v.extractLsb' k len' := by
  rw [← h, bits, bits]
  ext i hi
  simp only [BitVec.getElem_extractLsb', BitVec.getLsbD_extractLsb']
  rw [Nat.add_assoc, decide_eq_true (by omega : k + i < len), Bool.true_and]

/-- A field under the mask of a test. -/
theorem bits_of_mask {insn mask val : Word} (h : insn &&& mask = val) {lo len : ℕ}
    (hm : bits mask lo len = BitVec.allOnes len) : bits insn lo len = bits val lo len := by
  rw [← h, bits, bits, BitVec.extractLsb'_and]
  rw [bits] at hm
  rw [hm, BitVec.and_allOnes]

/-- A test for a bit that its mask leaves out. -/
theorem mask_ne {mask val : Word} {i : ℕ} (hmask : bit mask i = false) (hval : bit val i = true) (insn : Word) :
    insn &&& mask ≠ val := by
  intro h
  have := bit_and insn mask i
  rw [h, hmask, Bool.and_false, hval] at this
  cases this

theorem and_sign_ne_zero (x : Word) : x &&& 0x80000000 ≠ 0 ↔ x.msb := by
  rw [msb_eq_bit]
  constructor
  · intro h
    by_contra hx
    refine h (BitVec.eq_of_getLsbD_eq fun i hi => ?_)
    change bit (x &&& 0x80000000) i = bit 0 i
    rw [bit_and, bit_31, bit_zero]
    by_cases hi' : i = 31
    · subst hi'
      simpa using hx
    · simp [hi']
  · intro h h'
    have := bit_and x 0x80000000 31
    rw [h', h, bit_31] at this
    cases this

/-- `x >> 31`, as a condition. -/
theorem ushiftRight_31_ne_zero (x : Word) : x >>> 31 ≠ 0 ↔ x.msb := by
  have hx := x.isLt
  have hzero : (0 : Word).toNat = 0 := rfl
  rw [BitVec.msb_eq_decide, ne_eq, BitVec.toNat_eq, BitVec.toNat_ushiftRight,
    Nat.shiftRight_eq_div_pow, hzero,
    decide_eq_true_eq]
  omega

/-! ## Registers -/

namespace Cpu
variable (cpu : Cpu) (r : Reg) (val : Word)

@[simp] theorem setReg_regs_self : (cpu.setReg r val).regs r = val := by simp [setReg]

theorem setReg_regs_of_ne {cpu : Cpu} {r s : Reg} (h : s ≠ r) (val : Word) :
    (cpu.setReg r val).regs s = cpu.regs s := by
  simp [setReg, h]

@[simp] theorem setReg_cpsr : (cpu.setReg r val).cpsr = cpu.cpsr := rfl

@[simp] theorem setLr_cpsr : (cpu.setLr val).cpsr = cpu.cpsr := by
  unfold setLr
  split_ifs <;> rfl

end Cpu

/-! ## Flags -/

theorem bit_updateFlagsNz (cpu : Cpu) (result : Word) {i : ℕ} (hi : i < 32) :
    bit (cpu.updateFlagsNz result).cpsr i =
      if i = 31 then result.msb else if i = 30 then decide (result = 0) else bit cpu.cpsr i := by
  simp only [Cpu.updateFlagsNz, and_sign_ne_zero, bit_or, bit_and, bit_not _ hi, bit_ite, bit_31, bit_30]
  split_ifs with h₁ h₂
  · simp [h₁]
  · simp [h₂]
  · simp [h₁, h₂]

theorem bit_setCarry (cpu : Cpu) (c : Bool) {i : ℕ} (hi : i < 32) :
    bit (cpu.setCarry c).cpsr i = if i = 29 then c else bit cpu.cpsr i := by
  simp only [Cpu.setCarry, bit_or, bit_and, bit_not _ hi, bit_ite, bit_29]
  split_ifs with h
  · simp [h]
  · simp [h]

theorem bit_setOverflow (cpu : Cpu) (v : Bool) {i : ℕ} (hi : i < 32) :
    bit (cpu.setOverflow v).cpsr i = if i = 28 then v else bit cpu.cpsr i := by
  simp only [Cpu.setOverflow, bit_or, bit_and, bit_not _ hi, bit_ite, bit_28]
  split_ifs with h
  · simp [h]
  · simp [h]

/-! ## Steps -/

section
variable {σ : Type} (bus : Bus σ) {m : Machine σ}

/-- A step of an instruction whose condition holds. -/
theorem cpuStep_eq (hrun : m.cpu.halted = false) (hpass : passes m.cpu (m.fetched bus)) :
    (cpuStep bus m).2 = execute bus m.fetchAddress (m.fetched bus) (m.advanced bus) := by
  have hpass' : passes (m.advanced bus).cpu (m.fetched bus) := hpass
  simp only [cpuStep, hrun, Bool.false_eq_true, if_false, hpass', if_true]

/-- A machine that is about to execute `insn`. -/
structure Executes (m : Machine σ) (insn : Word) : Prop where
  running : m.cpu.halted = false
  fetched : m.fetched bus = insn
  passes : passes m.cpu insn

theorem Executes.step {bus : Bus σ} {m : Machine σ} {insn : Word} (h : Executes bus m insn) :
    (cpuStep bus m).2 = execute bus m.fetchAddress insn (m.advanced bus) := by
  obtain ⟨hrun, rfl, hpass⟩ := h
  exact cpuStep_eq bus hrun hpass

theorem advanced_regs_of_ne {r : Reg} (h : r ≠ 15) : (m.advanced bus).cpu.regs r = m.cpu.regs r :=
  Cpu.setReg_regs_of_ne h _

theorem advanced_regs_pc : (m.advanced bus).cpu.regs 15 = m.fetchAddress - 4 := by
  have h : (m.advanced bus).cpu.regs 15 = m.cpu.regs 15 + 4 := m.cpu.setReg_regs_self 15 _
  rw [h, Machine.fetchAddress]
  bv_omega

variable {insn : Word} (pc : Word) (m)

/-- The hints are words of the load/store space. -/
theorem not_isHint (h : bits insn 25 3 ≠ 2) : ¬ isHint insn := by
  intro hh
  simp only [isHint, Bool.and_eq_true, decide_eq_true_eq] at hh
  exact h hh.1.2

theorem execute_data (h : bits insn 25 3 = 0 ∨ bits insn 25 3 = 1) :
    execute bus pc insn m = { m with cpu := executeData pc insn m.cpu } := by
  have hop : bits insn 25 3 ≠ 2 := by
    rcases h with h | h
    · rw [h]
      decide
    · rw [h]
      decide
  rw [execute, if_neg (not_isHint hop), if_pos h]

theorem execute_multiple (h : bits insn 25 3 = 4) : execute bus pc insn m = executeMultiple bus insn m := by
  have hop : bits insn 25 3 ≠ 2 := by
    rw [h]
    decide
  rw [execute, if_neg (not_isHint hop), h]
  rfl

end

/-! ## Load/store multiple -/

section
variable {σ : Type} (bus : Bus σ)

theorem storeLoop_cpu (list : List Reg) (addr : Word) (m : Machine σ) :
    (storeLoop bus list addr m).cpu = m.cpu := by
  induction list generalizing addr m with
  | nil => rfl
  | cons r list ih => exact ih _ _

theorem loadLoop_regs_of_notMem {r : Reg} {list : List Reg} (h : r ∉ list) (addr : Word) (m : Machine σ) :
    (loadLoop bus list addr m).cpu.regs r = m.cpu.regs r := by
  induction list generalizing addr m with
  | nil => rfl
  | cons s list ih =>
    rw [List.mem_cons, not_or] at h
    rw [loadLoop, ih h.2]
    exact Cpu.setReg_regs_of_ne h.1 _

end

/-! ## The data processing space -/

/-- The tests for `MSR` ask for a bit that their mask leaves out. -/
theorem isMsrReg_false (insn : Word) : isMsrReg insn = false := by
  have h : insn &&& 0xF1FF0FF0 ≠ 0x0129F000 := mask_ne (i := 12) (by decide) (by decide) insn
  simp only [isMsrReg, decide_eq_false h, Bool.and_false]

theorem isMsrImm_false (insn : Word) : isMsrImm insn = false := by
  have h : insn &&& 0xF1FF0FF0 ≠ 0x0329F000 := mask_ne (i := 12) (by decide) (by decide) insn
  simp only [isMsrImm, decide_eq_false h, Bool.and_false]

/-- The data processing space, without the tests that fail. -/
theorem executeData_eq (pc insn : Word) (cpu : Cpu) :
    executeData pc insn cpu =
      if isMultiply insn then multiply insn cpu
      else if isLongMultiply insn then longMultiply insn cpu
      else if isMrs insn then mrs insn cpu
      else if isBx insn then cpu.setReg 15 (clearBit0 (cpu.regs (bits insn 0 4)) - 8)
      else if isBlx insn then (cpu.setLr (pc + 4)).setReg 15 (clearBit0 (cpu.regs (bits insn 0 4)) - 8)
      else if isClz insn then cpu.setReg (bits insn 12 4) (clz (cpu.regs (bits insn 0 4)))
      else dataProcessing insn cpu := by
  rw [executeData, isMsrReg_false, isMsrImm_false]
  rfl

/-- The words that a pattern of their own takes out of data processing. -/
def isMisc (insn : Word) : Bool :=
  isMultiply insn || isLongMultiply insn || isMrs insn || isBx insn || isBlx insn || isClz insn

theorem executeData_of_not_misc {insn : Word} (h : ¬ isMisc insn) (pc : Word) (cpu : Cpu) :
    executeData pc insn cpu = dataProcessing insn cpu := by
  simp only [isMisc, Bool.or_eq_true, not_or] at h
  obtain ⟨⟨⟨⟨⟨h₁, h₂⟩, h₃⟩, h₄⟩, h₅⟩, h₆⟩ := h
  rw [executeData_eq, if_neg h₁, if_neg h₂, if_neg h₃, if_neg h₄, if_neg h₅, if_neg h₆]

/-- Of the words with an immediate, or with a register that is shifted by an immediate,
    only the pattern of `MRS` takes any. -/
theorem isMrs_of_isMisc {insn : Word} (hform : bit insn 25 = true ∨ bit insn 4 = false) (h : isMisc insn) :
    isMrs insn := by
  have h25 : bits insn 25 3 = 0 → bit insn 25 = false := fun h' => bit_of_bits h' (j := 0) (by decide)
  have hodd : ∀ v : BitVec 4, v.getLsbD 0 = true → bit insn 25 = false → bits7to4 insn = v → False := by
    intro v hv h25' hbits
    have h4 : bit insn 4 = true := (bit_of_bits hbits (j := 0) (by decide)).trans hv
    rw [h25', h4] at hform
    simp at hform
  simp only [isMisc, isMultiply, isLongMultiply, isBx, isBlx, isClz, Bool.or_eq_true, Bool.and_eq_true,
    decide_eq_true_eq, Bool.not_eq_true'] at h
  rcases h with ((((⟨⟨h₁, h₂⟩, -⟩ | ⟨⟨h₁, h₂⟩, -⟩) | h) | ⟨⟨h₁, h₂⟩, -⟩) | ⟨⟨h₁, h₂⟩, -⟩)
    | ⟨⟨h₁, h₂⟩, -⟩
  · exact (hodd _ (by decide) (h25 h₁) h₂).elim
  · exact (hodd _ (by decide) (h25 h₁) h₂).elim
  · exact h
  · exact (hodd _ (by decide) h₁ h₂).elim
  · exact (hodd _ (by decide) h₁ h₂).elim
  · exact (hodd _ (by decide) h₁ h₂).elim

/-- What the pattern of `MRS` asks for. -/
theorem isMrs_fields {insn : Word} (h : isMrs insn) :
    bit insn 25 = false ∧ bits insn 28 4 = 0 ∧ bit insn 20 = false ∧ bit insn 21 = false := by
  simp only [isMrs, Bool.and_eq_true, Bool.not_eq_true', decide_eq_true_eq] at h
  exact ⟨h.1, bits_of_mask h.2 (by decide), bit_of_mask h.2 (by decide), bit_of_mask h.2 (by decide)⟩

theorem dataProcessing_compare {insn : Word} (h : isCompare (bits insn 21 4)) (cpu : Cpu) :
    dataProcessing insn cpu = compare (bits insn 21 4) cpu (cpu.regs (bits insn 16 4)) (operand2 cpu insn).1
      (operand2 cpu insn).2 := by
  simp only [dataProcessing, h, if_true]

theorem dataProcessing_write {insn : Word} (h : ¬ isCompare (bits insn 21 4)) (cpu : Cpu) :
    dataProcessing insn cpu = writeResult insn cpu
      (alu (bits insn 21 4) cpu (cpu.regs (bits insn 16 4)) (operand2 cpu insn).1).result
      (operand2 cpu insn).2 := by
  simp only [dataProcessing, h, Bool.false_eq_true, if_false]

end PocketDarwin.Simu
