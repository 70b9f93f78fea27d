/-
  `CMP` and `CMN`, and the conditions that read their flags.

  The overflow of `CMP` is computed as `((a ^ r) & (b ^ r)) >> 31` for the
  difference `r`, which is the formula of an addition; `SUB` has the right one.
  `signed_conditions_iff` says on which operands the two agree.  The carry and the
  zero flag are right, and with them all unsigned conditions
  (`unsigned_conditions`).
-/
import PocketDarwin.Simu.Board
import PocketDarwin.Simu.Shifter

namespace PocketDarwin.Simu

/-! ## The instruction -/

/-- `CMP` with an immediate, or with a register that is shifted by an immediate, and
    without `r15`. -/
structure IsCmp (insn : Word) : Prop where
  op0 : bits insn 25 3 = 0 ∨ bits insn 25 3 = 1
  opcode : bits insn 21 4 = 0xA
  sFlag : bit insn 20 = true
  form : bit insn 25 = true ∨ bit insn 4 = false
  rn : bits insn 16 4 ≠ 15
  rm : bit insn 25 = false → bits insn 0 4 ≠ 15

/-- No pattern takes a `CMP` for another instruction. -/
theorem IsCmp.not_misc {insn : Word} (h : IsCmp insn) : ¬ isMisc insn := by
  intro hmisc
  obtain ⟨-, -, h20, -⟩ := isMrs_fields (isMrs_of_isMisc h.form hmisc)
  rw [h.sFlag] at h20
  cases h20

/-- The operands do not depend on `r15`. -/
theorem IsCmp.operand2_eq {σ : Type} (bus : Bus σ) {m : Machine σ} {insn : Word} (h : IsCmp insn) :
    operand2 (m.advanced bus).cpu insn = operand2 m.cpu insn := by
  have hcarry : (m.advanced bus).cpu.carry = m.cpu.carry := rfl
  unfold operand2
  split_ifs with h₁ h₂
  · rw [hcarry]
  · rcases h.form with h' | h'
    · exact absurd h' h₁
    · rw [h'] at h₂
      cases h₂
  · have hrm := advanced_regs_of_ne bus (m := m) (h.rm (Bool.eq_false_iff.2 h₁))
    simp only [decodeImmShift, barrelShift, hrm, hcarry]

/-- The flags of a difference, as `CMP` computes them. -/
def cmpOverflow (a b : Word) : Bool := (a.msb != (a - b).msb) && (b.msb != (a - b).msb)

/-- The flags behind a `CMP`. -/
structure CmpFlags (a b : Word) (cpu : Cpu) : Prop where
  n : bit cpu.cpsr 31 = (a - b).msb
  z : bit cpu.cpsr 30 = decide (a = b)
  c : bit cpu.cpsr 29 = decide (b ≤ a)
  v : bit cpu.cpsr 28 = cmpOverflow a b

theorem sub_eq_zero_iff (a b : Word) : a - b = 0 ↔ a = b := by
  constructor
  · intro h
    bv_omega
  · intro h
    rw [h]
    exact BitVec.sub_self b

/-- **What a `CMP` does.** -/
theorem cpuStep_cmp {σ : Type} (bus : Bus σ) {m : Machine σ} (hrun : m.cpu.halted = false)
    (hpass : passes m.cpu (m.fetched bus)) (h : IsCmp (m.fetched bus)) :
    CmpFlags (m.cpu.regs (bits (m.fetched bus) 16 4)) (operand2 m.cpu (m.fetched bus)).1
      (cpuStep bus m).2.cpu := by
  rw [cpuStep_eq bus hrun hpass, execute_data bus _ _ h.op0, executeData_of_not_misc h.not_misc,
    dataProcessing_compare (by rw [h.opcode]; decide), h.opcode, h.operand2_eq bus,
    advanced_regs_of_ne bus h.rn]
  generalize m.cpu.regs (bits (m.fetched bus) 16 4) = a
  generalize (operand2 m.cpu (m.fetched bus)).1 = b
  change CmpFlags a b (((Cpu.updateFlagsNz _ (a - b)).setCarry (b ≤ a)).setOverflow
    (((a ^^^ (a - b)) &&& (b ^^^ (a - b))) >>> 31 ≠ 0))
  refine ⟨?_, ?_, ?_, ?_⟩
  · simp [bit_setOverflow, bit_setCarry, bit_updateFlagsNz]
  · rw [bit_setOverflow _ _ (by decide), bit_setCarry _ _ (by decide),
      bit_updateFlagsNz _ _ (by decide)]
    simp only [sub_eq_zero_iff]
    rfl
  · simp [bit_setOverflow, bit_setCarry]
  · rw [bit_setOverflow _ _ (by decide), if_pos rfl]
    simp only [ushiftRight_31_ne_zero, BitVec.msb_and, BitVec.msb_xor, Bool.decide_eq_true]
    rfl

/-! ## Signed conditions -/

/-- The conditions that a signed comparison is made for. -/
structure SignedConditions (a b : Word) (cpu : Cpu) : Prop where
  ge : cpu.conditionMet 0xA = decide (b.toInt ≤ a.toInt)
  lt : cpu.conditionMet 0xB = decide (a.toInt < b.toInt)
  gt : cpu.conditionMet 0xC = decide (b.toInt < a.toInt)
  le : cpu.conditionMet 0xD = decide (a.toInt ≤ b.toInt)
  mi : cpu.conditionMet 0x4 = (a - b).msb
  pl : cpu.conditionMet 0x5 = !(a - b).msb
  vs : cpu.conditionMet 0x6 = a.ssubOverflow b
  vc : cpu.conditionMet 0x7 = !a.ssubOverflow b

/-- `0 ≤ b ≤ a`, or `a < b < 0`, or operands of different signs whose difference does
    not overflow. -/
def SignedRange (a b : Word) : Prop :=
  (0 ≤ b.toInt ∧ b.toInt ≤ a.toInt) ∨ (a.toInt < b.toInt ∧ b.toInt < 0) ∨
    (a.msb ≠ b.msb ∧ a.ssubOverflow b = false)

theorem toInt_lt_iff (a b : Word) : a.toInt < b.toInt ↔ (a - b).msb ≠ a.ssubOverflow b := by
  have ha := a.isLt
  have hb := b.isLt
  rw [ne_eq, Bool.eq_iff_iff, BitVec.ssubOverflow, BitVec.msb_eq_decide, BitVec.toNat_sub,
    BitVec.toInt_eq_toNat_cond, BitVec.toInt_eq_toNat_cond]
  simp only [decide_eq_true_eq, Bool.or_eq_true]
  split_ifs <;> omega

/-- The overflow of `CMP` is right in the range, and only there. -/
theorem cmpOverflow_eq_iff (a b : Word) : cmpOverflow a b = a.ssubOverflow b ↔ SignedRange a b := by
  have hlt := toInt_lt_iff a b
  have hb : b.toInt < 0 ↔ b.msb = true := by rw [BitVec.msb_eq_toInt, decide_eq_true_eq]
  rw [SignedRange, ← Int.not_lt, ← Int.not_lt, hb, hlt, cmpOverflow, BitVec.ssubOverflow_eq]
  -- what is left is about the three signs
  generalize a.msb = sa
  generalize b.msb = sb
  generalize (a - b).msb = sr
  revert sa sb sr
  decide

theorem CmpFlags.vs {a b : Word} {cpu : Cpu} (h : CmpFlags a b cpu) : cpu.conditionMet 0x6 = cmpOverflow a b := h.v

/-- With the right overflow, all conditions are right. -/
theorem CmpFlags.signedConditions {a b : Word} {cpu : Cpu} (h : CmpFlags a b cpu)
    (hv : cmpOverflow a b = a.ssubOverflow b) : SignedConditions a b cpu := by
  have hlt := toInt_lt_iff a b
  have heq : a.toInt = b.toInt ↔ a = b := BitVec.toInt_inj
  have hge : ((a - b).msb == a.ssubOverflow b) = decide (b.toInt ≤ a.toInt) := by
    rw [Bool.eq_iff_iff, decide_eq_true_eq, beq_iff_eq, ← Int.not_lt, hlt, ne_eq, not_not]
  have hlt' : ((a - b).msb != a.ssubOverflow b) = decide (a.toInt < b.toInt) := by
    rw [Bool.eq_iff_iff, decide_eq_true_eq, bne_iff_ne, hlt]
  obtain ⟨hn, hz, -, hv'⟩ := h
  rw [hv] at hv'
  refine ⟨?_, ?_, ?_, ?_, hn, ?_, hv', ?_⟩
  · change (bit cpu.cpsr 31 == bit cpu.cpsr 28) = _
    rw [hn, hv', hge]
  · change (bit cpu.cpsr 31 != bit cpu.cpsr 28) = _
    rw [hn, hv', hlt']
  · change (!bit cpu.cpsr 30 && bit cpu.cpsr 31 == bit cpu.cpsr 28) = _
    rw [hn, hz, hv', hge, Bool.eq_iff_iff]
    simp only [Bool.and_eq_true, Bool.not_eq_true', decide_eq_false_iff_not, decide_eq_true_eq, ← heq]
    omega
  · change (bit cpu.cpsr 30 || bit cpu.cpsr 31 != bit cpu.cpsr 28) = _
    rw [hn, hz, hv', hlt', Bool.eq_iff_iff]
    simp only [Bool.or_eq_true, decide_eq_true_eq, ← heq]
    omega
  · change (!bit cpu.cpsr 31) = _
    rw [hn]
  · change (!bit cpu.cpsr 28) = _
    rw [hv']

/-- **Signed comparison.**  Behind a `CMP` of `a` with `b` the signed conditions are
    right if and only if `0 ≤ b ≤ a`, or `a < b < 0`, or `a` and `b` are of different
    signs and `a - b` does not overflow. -/
theorem signed_conditions_iff {σ : Type} (bus : Bus σ) {m : Machine σ} (hrun : m.cpu.halted = false)
    (hpass : passes m.cpu (m.fetched bus)) (h : IsCmp (m.fetched bus)) :
    SignedConditions (m.cpu.regs (bits (m.fetched bus) 16 4)) (operand2 m.cpu (m.fetched bus)).1
        (cpuStep bus m).2.cpu ↔
      SignedRange (m.cpu.regs (bits (m.fetched bus) 16 4)) (operand2 m.cpu (m.fetched bus)).1 := by
  have hflags := cpuStep_cmp bus hrun hpass h
  rw [← cmpOverflow_eq_iff]
  constructor
  · intro hs
    rw [← hflags.vs, hs.vs]
  · exact hflags.signedConditions

/-- A machine about to run `cmp r0, r1`. -/
def cmpMachine (a b : Word) : Machine Board :=
  startMachine [0xE1500001] fun r => if r = 0 then a else if r = 1 then b else 0

theorem isCmp_cmp_r0_r1 : IsCmp 0xE1500001 :=
  ⟨.inl (by decide), by decide, by decide, .inr (by decide), by decide, by decide⟩

/-- 2 and 1 are compared as they should be. -/
theorem signed_conditions_two_one : SignedConditions 2 1 (cpuStep Board.bus (cmpMachine 2 1)).2.cpu := by
  have hf : (cmpMachine 2 1).fetched Board.bus = 0xE1500001 := by decide +kernel
  have h := signed_conditions_iff Board.bus (m := cmpMachine 2 1) rfl (by decide +kernel)
    (hf ▸ isCmp_cmp_r0_r1)
  rw [hf] at h
  exact h.2 (.inl (by decide))

/-- 1 is found to be greater than 2. -/
theorem signed_conditions_one_two : ¬ SignedConditions 1 2 (cpuStep Board.bus (cmpMachine 1 2)).2.cpu := by
  intro h
  exact absurd h.gt (by decide +kernel)

/-! ## Unsigned conditions -/

/-- `CMP` or `CMN` with an immediate, or with a register that is not shifted, and without
    `r15`. -/
structure IsUnshifted (insn : Word) : Prop where
  op0 : bits insn 25 3 = 0 ∨ bits insn 25 3 = 1
  opcode : bits insn 21 4 = 0xA ∨ bits insn 21 4 = 0xB
  sFlag : bit insn 20 = true
  form : bit insn 25 = true ∨ bits insn 4 8 = 0
  rn : bits insn 16 4 ≠ 15
  rm : bit insn 25 = false → bits insn 0 4 ≠ 15

/-- The second operand of such an instruction. -/
def unshifted (cpu : Cpu) (insn : Word) : Word :=
  if bit insn 25 then Arm.immediate insn else cpu.regs (bits insn 0 4)

/-- The conditions that an unsigned comparison is made for, behind `CMP`. -/
structure UnsignedConditions (a b : ℕ) (cpu : Cpu) : Prop where
  eq : cpu.conditionMet 0x0 = decide (a = b)
  ne : cpu.conditionMet 0x1 = decide (a ≠ b)
  cs : cpu.conditionMet 0x2 = decide (b ≤ a)
  cc : cpu.conditionMet 0x3 = decide (a < b)
  hi : cpu.conditionMet 0x8 = decide (b < a)
  ls : cpu.conditionMet 0x9 = decide (a ≤ b)

/-- The same conditions behind `CMN`, for the sum of the operands. -/
structure SumConditions (sum : ℕ) (cpu : Cpu) : Prop where
  eq : cpu.conditionMet 0x0 = decide (sum % 2 ^ 32 = 0)
  ne : cpu.conditionMet 0x1 = decide (sum % 2 ^ 32 ≠ 0)
  cs : cpu.conditionMet 0x2 = decide (2 ^ 32 ≤ sum)
  cc : cpu.conditionMet 0x3 = decide (sum < 2 ^ 32)
  hi : cpu.conditionMet 0x8 = decide (2 ^ 32 ≤ sum ∧ sum % 2 ^ 32 ≠ 0)
  ls : cpu.conditionMet 0x9 = decide (sum < 2 ^ 32 ∨ sum % 2 ^ 32 = 0)

theorem IsUnshifted.bit4 {insn : Word} (h : IsUnshifted insn) : bit insn 25 = true ∨ bit insn 4 = false :=
  h.form.imp_right fun h' => bit_of_bits h' (j := 0) (by decide)

theorem IsUnshifted.not_misc {insn : Word} (h : IsUnshifted insn) : ¬ isMisc insn := by
  intro hmisc
  obtain ⟨-, -, h20, -⟩ := isMrs_fields (isMrs_of_isMisc h.bit4 hmisc)
  rw [h.sFlag] at h20
  cases h20

theorem IsUnshifted.operand2_eq {σ : Type} (bus : Bus σ) {m : Machine σ} {insn : Word} (h : IsUnshifted insn) :
    (operand2 (m.advanced bus).cpu insn).1 = unshifted m.cpu insn := by
  rw [operand2, unshifted]
  by_cases h25 : bit insn 25
  · rw [if_pos h25, if_pos h25, decodeImm_eq]
  · have hform : bits insn 4 8 = 0 := h.form.resolve_left h25
    have h4 : ¬ bit insn 4 := by
      rw [bit_of_bits hform (j := 0) (by decide)]
      decide
    have htype : bits insn 5 2 = 0 := bits_of_bits hform 1 2 (by decide)
    have hamount : bits insn 7 5 = 0 := bits_of_bits hform 3 5 (by decide)
    rw [if_neg h25, if_neg h25, if_neg h4, decodeImmShift, htype, hamount]
    exact advanced_regs_of_ne bus (h.rm (Bool.eq_false_iff.2 h25))

/-- What such an instruction does. -/
theorem cpuStep_unshifted {σ : Type} (bus : Bus σ) {m : Machine σ} (hrun : m.cpu.halted = false)
    (hpass : passes m.cpu (m.fetched bus)) (h : IsUnshifted (m.fetched bus)) :
    ∃ c, (cpuStep bus m).2.cpu = compare (bits (m.fetched bus) 21 4) (m.advanced bus).cpu
      (m.cpu.regs (bits (m.fetched bus) 16 4)) (unshifted m.cpu (m.fetched bus)) c := by
  have hcompare : isCompare (bits (m.fetched bus) 21 4) := by
    rcases h.opcode with hop | hop
    · rw [hop]
      decide
    · rw [hop]
      decide
  refine ⟨(operand2 (m.advanced bus).cpu (m.fetched bus)).2, ?_⟩
  rw [cpuStep_eq bus hrun hpass, execute_data bus _ _ h.op0, executeData_of_not_misc h.not_misc,
    dataProcessing_compare hcompare, h.operand2_eq bus, advanced_regs_of_ne bus h.rn]

section
variable (cpu : Cpu) (a b : Word)

/-- The conditions that look at the zero flag and the carry. -/
theorem conditions_of_flags {z c : Prop} [Decidable z] [Decidable c] (hz : bit cpu.cpsr 30 = decide z)
    (hc : bit cpu.cpsr 29 = decide c) :
    cpu.conditionMet 0x0 = decide z ∧ cpu.conditionMet 0x1 = decide (¬ z) ∧
      cpu.conditionMet 0x2 = decide c ∧ cpu.conditionMet 0x3 = decide (¬ c) ∧
      cpu.conditionMet 0x8 = decide (c ∧ ¬ z) ∧ cpu.conditionMet 0x9 = decide (¬ c ∨ z) := by
  rw [Bool.decide_and, Bool.decide_or, decide_not, decide_not, ← hz, ← hc]
  exact ⟨rfl, rfl, rfl, rfl, rfl, rfl⟩

/-- What a comparison does to the flags. -/
theorem compared_flags (result : Word) (c v : Bool) {i : ℕ} (hi : i < 32) :
    bit (((cpu.updateFlagsNz result).setCarry c).setOverflow v).cpsr i =
      if i = 28 then v else if i = 29 then c else if i = 31 then result.msb
      else if i = 30 then decide (result = 0) else bit cpu.cpsr i := by
  rw [bit_setOverflow _ _ hi, bit_setCarry _ _ hi, bit_updateFlagsNz _ _ hi]

theorem cmp_conditions (v : Bool) :
    UnsignedConditions a.toNat b.toNat
      (((cpu.updateFlagsNz (a - b)).setCarry (decide (b ≤ a))).setOverflow v) := by
  have heq : a - b = 0 ↔ a.toNat = b.toNat := (sub_eq_zero_iff a b).trans BitVec.toNat_eq
  obtain ⟨h₀, h₁, h₂, h₃, h₈, h₉⟩ := conditions_of_flags
    (((cpu.updateFlagsNz (a - b)).setCarry (decide (b ≤ a))).setOverflow v)
    (compared_flags cpu _ _ _ (by decide)) (compared_flags cpu _ _ _ (by decide))
  simp only [heq, BitVec.le_def] at h₀ h₁ h₂ h₃ h₈ h₉
  refine ⟨h₀, h₁, h₂, h₃.trans ?_, h₈.trans ?_, h₉.trans ?_⟩
  · exact decide_eq_decide.2 (by omega)
  · exact decide_eq_decide.2 (by omega)
  · exact decide_eq_decide.2 (by omega)

theorem cmn_conditions (v : Bool) :
    SumConditions (a.toNat + b.toNat)
      (((cpu.updateFlagsNz (a + b)).setCarry (decide (a.toNat + b.toNat > 0xFFFFFFFF))).setOverflow v) := by
  have heq : a + b = 0 ↔ (a.toNat + b.toNat) % 2 ^ 32 = 0 := by
    rw [BitVec.toNat_eq, BitVec.toNat_add]
    rfl
  obtain ⟨h₀, h₁, h₂, h₃, h₈, h₉⟩ := conditions_of_flags
    (((cpu.updateFlagsNz (a + b)).setCarry (decide (a.toNat + b.toNat > 0xFFFFFFFF))).setOverflow v)
    (compared_flags cpu _ _ _ (by decide)) (compared_flags cpu _ _ _ (by decide))
  simp only [heq] at h₀ h₁ h₂ h₃ h₈ h₉
  refine ⟨h₀, h₁, h₂.trans ?_, h₃.trans ?_, h₈.trans ?_, h₉.trans ?_⟩
  · exact decide_eq_decide.2 (by omega)
  · exact decide_eq_decide.2 (by omega)
  · exact decide_eq_decide.2 (by omega)
  · exact decide_eq_decide.2 (by omega)

end

/-- **Unsigned comparison.**  Behind a `CMP` of `a` with `b`, and behind a `CMN`, the unsigned
    conditions are those of the numbers; nothing else is changed. -/
theorem unsigned_conditions {σ : Type} (bus : Bus σ) {m : Machine σ} (hrun : m.cpu.halted = false)
    (hpass : passes m.cpu (m.fetched bus)) (h : IsUnshifted (m.fetched bus)) :
    let a := m.cpu.regs (bits (m.fetched bus) 16 4)
    let b := unshifted m.cpu (m.fetched bus)
    let after := (cpuStep bus m).2.cpu
    (bits (m.fetched bus) 21 4 = 0xA → UnsignedConditions a.toNat b.toNat after) ∧
      (bits (m.fetched bus) 21 4 = 0xB → SumConditions (a.toNat + b.toNat) after) ∧
      (∀ r, r ≠ 15 → after.regs r = m.cpu.regs r) ∧ ∀ i < 28, bit after.cpsr i = bit m.cpu.cpsr i := by
  intro a b after
  obtain ⟨c, hstep⟩ := cpuStep_unshifted bus hrun hpass h
  have hafter : ∃ result c v, after = (((m.advanced bus).cpu.updateFlagsNz result).setCarry c).setOverflow v := by
    rcases h.opcode with hop | hop
    · rw [hop] at hstep
      exact ⟨_, _, _, hstep⟩
    · rw [hop] at hstep
      exact ⟨_, _, _, hstep⟩
  refine ⟨fun hop => ?_, fun hop => ?_, fun r hr => ?_, fun i hi => ?_⟩
  · rw [hop] at hstep
    show UnsignedConditions a.toNat b.toNat (cpuStep bus m).2.cpu
    rw [hstep]
    exact cmp_conditions _ a b _
  · rw [hop] at hstep
    show SumConditions (a.toNat + b.toNat) (cpuStep bus m).2.cpu
    rw [hstep]
    exact cmn_conditions _ a b _
  · obtain ⟨result, c, v, hafter⟩ := hafter
    rw [hafter]
    exact advanced_regs_of_ne bus hr
  · obtain ⟨result, c, v, hafter⟩ := hafter
    rw [hafter, compared_flags _ _ _ _ (by omega), if_neg (by omega), if_neg (by omega), if_neg (by omega),
      if_neg (by omega)]
    rfl

/-- 1 is less than 2. -/
theorem unsigned_conditions_one_two : UnsignedConditions 1 2 (cpuStep Board.bus (cmpMachine 1 2)).2.cpu := by
  have hf : (cmpMachine 1 2).fetched Board.bus = 0xE1500001 := by decide +kernel
  have h := unsigned_conditions Board.bus (m := cmpMachine 1 2) rfl (by decide +kernel)
    (hf ▸ ⟨.inl (by decide), .inl (by decide), by decide, .inr (by decide), by decide, by decide⟩)
  rw [hf] at h
  exact h.1 (by decide)

end PocketDarwin.Simu
