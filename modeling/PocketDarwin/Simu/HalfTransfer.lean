/-
  Half-word and signed transfers.

  `cpu_step` has code for them where the loads and stores with a register offset are.
  Their encodings are in the data processing space, and are executed as data
  processing: no such store reaches the memory, and no load looks at it.  What does reach
  that code is a word or byte transfer whose offset is rotated by an odd number of bits.

  * `half_transfers_iff`: what is stored is read back, with the right base registers, exactly if
    nothing that is written back differs, and data processing happens to leave the value in the register.
-/
import PocketDarwin.Simu.ControlFlow
import PocketDarwin.Simu.Multiple
import PocketDarwin.Simu.Shifter

namespace PocketDarwin.Simu

namespace Arm
variable (cpu : Cpu) (insn : Word)

/-- The base register is written back: the transfer is post-indexed, or has the W bit. -/
def WritesBack : Prop := bit insn 24 = false ∨ bit insn 21 = true

instance : Decidable (WritesBack insn) := inferInstanceAs (Decidable (_ ∨ _))

/-- The base register with an offset. -/
def moved (offset : Word) : Word :=
  if bit insn 23 then cpu.regs (bits insn 16 4) + offset else cpu.regs (bits insn 16 4) - offset

/-- The offset of a half-word or signed transfer: an immediate in two parts, or a register. -/
def halfOffset : Word :=
  if bit insn 22 then (bits insn 8 4 ++ bits insn 0 4).setWidth 32 else cpu.regs (bits insn 0 4)

/-- What `LDRH`, `LDRSH` and `LDRSB` make of a value that was stored. -/
def extended (insn val : Word) : Word :=
  if bits7to4 insn = 0xB then (val.setWidth 16).setWidth 32
  else if bits7to4 insn = 0xF then (val.setWidth 16).signExtend 32
  else (val.setWidth 8).signExtend 32

end Arm

/-! ## Encodings -/

/-- A half-word or signed transfer without `r15`, whose write-back leaves `Rd`. -/
structure IsHalfForm (insn : Word) : Prop where
  form : bit insn 24 = true ∨ bit insn 21 = false
  high : bit insn 22 = true ∨ bits insn 8 4 = 0
  rn : bits insn 16 4 ≠ 15
  rd : bits insn 12 4 ≠ 15
  rm : bit insn 22 = true ∨ bits insn 0 4 ≠ 15
  apart : Arm.WritesBack insn → bits insn 16 4 ≠ bits insn 12 4

/-- `STRH` -/
structure IsHalfStore (insn : Word) : Prop extends IsHalfForm insn where
  encoded : insn &&& 0x0E1000F0 = 0x000000B0

/-- `LDRH` or `LDRSH` -/
structure IsHalfLoad (insn : Word) : Prop extends IsHalfForm insn where
  encoded : insn &&& 0x0E1000F0 = 0x001000B0 ∨ insn &&& 0x0E1000F0 = 0x001000F0

/-- `LDRSB` -/
structure IsByteLoad (insn : Word) : Prop extends IsHalfForm insn where
  encoded : insn &&& 0x0E1000F0 = 0x001000D0

/-- `STRB` without `r15`, whose write-back leaves `Rd`. -/
structure IsByteStore (insn : Word) : Prop where
  op0 : bits insn 25 3 = 2 ∨ bits insn 25 3 = 3 ∧ bit insn 4 = false
  byte : bit insn 22 = true
  store : bit insn 20 = false
  form : bit insn 24 = true ∨ bit insn 21 = false
  rn : bits insn 16 4 ≠ 15
  rd : bits insn 12 4 ≠ 15
  rm : bits insn 25 3 = 2 ∨ bits insn 0 4 ≠ 15
  apart : Arm.WritesBack insn → bits insn 16 4 ≠ bits insn 12 4

/-- A word or byte transfer with a register offset. -/
structure IsRegisterTransfer (insn : Word) : Prop where
  op0 : bits insn 25 3 = 3
  bit4 : bit insn 4 = false

/-! ## What they should do -/

/-- The CPU behind a fetch. -/
def Cpu.next (cpu : Cpu) : Cpu := { (cpu.setReg 15 (cpu.regs 15 + 4)) with cycleCount := cpu.cycleCount + 1 }

section
variable (cpu : Cpu) (insn : Word)

/-- What data processing makes of the registers of a half-word transfer. -/
def misreadResult : Word :=
  (alu (bits insn 21 4) cpu (cpu.regs (bits insn 16 4)) (decodeRegShift cpu insn).1).result

/-- What it leaves in `Rd`: a comparison leaves what was there. -/
def left : Word := if isCompare (bits insn 21 4) then cpu.regs (bits insn 12 4) else misreadResult cpu insn

/-- The CPU behind the data processing that a half-word store is taken for. -/
def behindHalf : Cpu :=
  if isCompare (bits insn 21 4) then
    compare (bits insn 21 4) cpu (cpu.regs (bits insn 16 4)) (decodeRegShift cpu insn).1
      (decodeRegShift cpu insn).2
  else cpu.setReg (bits insn 12 4) (misreadResult cpu insn)

/-- The offset that is taken for a byte store; one that is rotated by an odd number of bits is taken for
    the immediate of a half-word transfer. -/
def takenOffset : Word :=
  if bits insn 25 3 = 3 ∧ bits insn 5 2 = 3 ∧ bit insn 7 then halfOffset insn else wordOffset insn cpu

/-- The CPU behind a byte store. -/
def behindByte : Cpu :=
  if Arm.WritesBack insn then cpu.setReg (bits insn 16 4) (Arm.moved cpu insn (takenOffset cpu insn)) else cpu

variable (store load : Word)

end

/-! ## Data processing -/

section
variable {insn : Word}

/-- A word of the data processing space that is a half-word or signed transfer. -/
structure IsMisread (insn : Word) : Prop extends IsHalfForm insn where
  op0 : bits insn 25 3 = 0
  odd : bits7to4 insn = 0xB ∨ bits7to4 insn = 0xD ∨ bits7to4 insn = 0xF

theorem IsHalfStore.isMisread (h : IsHalfStore insn) : IsMisread insn where
  toIsHalfForm := h.toIsHalfForm
  op0 := bits_of_mask h.encoded (by decide)
  odd := .inl (bits_of_mask h.encoded (by decide))

theorem IsHalfLoad.isMisread (h : IsHalfLoad insn) : IsMisread insn := by
  rcases h.encoded with hload | hload
  · exact ⟨h.toIsHalfForm, bits_of_mask hload (by decide), .inl (bits_of_mask hload (by decide))⟩
  · exact ⟨h.toIsHalfForm, bits_of_mask hload (by decide), .inr (.inr (bits_of_mask hload (by decide)))⟩

theorem IsByteLoad.isMisread (h : IsByteLoad insn) : IsMisread insn where
  toIsHalfForm := h.toIsHalfForm
  op0 := bits_of_mask h.encoded (by decide)
  odd := .inr (.inl (bits_of_mask h.encoded (by decide)))

theorem IsMisread.bit4 (h : IsMisread insn) : bit insn 4 = true := by
  rcases h.odd with hbits | hbits | hbits
  · exact bit_of_bits hbits (j := 0) (by decide)
  · exact bit_of_bits hbits (j := 0) (by decide)
  · exact bit_of_bits hbits (j := 0) (by decide)

theorem IsMisread.bit25 (h : IsMisread insn) : bit insn 25 = false :=
  bit_of_bits h.op0 (j := 0) (by decide)

/-- No pattern of its own takes it out of data processing. -/
theorem IsMisread.not_misc (h : IsMisread insn) : ¬ isMisc insn := by
  have hne : bits7to4 insn ≠ 0x9 ∧ bits7to4 insn ≠ 0x1 ∧ bits7to4 insn ≠ 0x3 := by
    rcases h.odd with hbits | hbits | hbits <;> rw [hbits] <;> decide
  intro hmisc
  simp only [isMisc, isMultiply, isLongMultiply, isBx, isBlx, isClz, Bool.or_eq_true, Bool.and_eq_true,
    decide_eq_true_eq, hne.1, hne.2.1, hne.2.2, and_false, false_and, or_false, false_or] at hmisc
  simp only [isMrs, Bool.and_eq_true, decide_eq_true_eq] at hmisc
  exact h.rn (bits_of_mask hmisc.2 (by decide))

theorem IsMisread.operand2_eq (h : IsMisread insn) (cpu : Cpu) : operand2 cpu insn = decodeRegShift cpu insn := by
  rw [operand2, h.bit25, h.bit4]
  rfl

/-- It is executed as data processing. -/
theorem IsMisread.step (h : IsMisread insn) {σ : Type} {bus : Bus σ} {m : Machine σ} (hexec : Executes bus m insn) :
    (cpuStep bus m).2.cpu = dataProcessing insn m.cpu.next := by
  rw [hexec.step, execute_data bus _ _ (.inl h.op0)]
  exact executeData_of_not_misc h.not_misc _ _

/-- Data processing changes `Rd` and no other register. -/
theorem IsMisread.regs (h : IsMisread insn) (cpu : Cpu) (r : Reg) :
    (dataProcessing insn cpu).regs r = if r = bits insn 12 4 then left cpu insn else cpu.regs r := by
  rw [left]
  by_cases hcompare : isCompare (bits insn 21 4)
  · rw [dataProcessing_compare hcompare, compare_regs, if_pos hcompare]
    split_ifs with hr
    · rw [hr]
    · rfl
  · have hregs : ∀ c : Cpu, c.regs = cpu.regs →
        (c.setReg (bits insn 12 4) (misreadResult cpu insn)).regs r =
          if r = bits insn 12 4 then misreadResult cpu insn else cpu.regs r := by
      intro c hc
      split_ifs with hr
      · rw [hr]
        exact Cpu.setReg_regs_self _ _ _
      · rw [Cpu.setReg_regs_of_ne hr, hc]
    rw [dataProcessing_write hcompare, if_neg hcompare, h.operand2_eq]
    simp only [writeResult, h.rd, if_false]
    cases bit insn 20
    · exact hregs _ rfl
    · exact hregs _ rfl

theorem IsHalfStore.dataProcessing_eq (h : IsHalfStore insn) (cpu : Cpu) :
    dataProcessing insn cpu = behindHalf cpu insn := by
  have hs : bit insn 20 = false := bit_of_mask h.encoded (by decide)
  rw [behindHalf]
  split_ifs with hcompare
  · rw [dataProcessing_compare hcompare, h.isMisread.operand2_eq]
  · rw [dataProcessing_write hcompare, h.isMisread.operand2_eq]
    simp only [writeResult, h.rd, hs, if_false, Bool.false_eq_true]
    rfl

/-! ## Base registers -/

variable {m : Machine Board}

theorem indexed_cpu (insn : Word) (cpu : Cpu) (offset : Word) :
    (indexed insn cpu (cpu.regs (bits insn 16 4)) offset).2 =
      if Arm.WritesBack insn then cpu.setReg (bits insn 16 4) (Arm.moved cpu insn offset) else cpu := by
  rw [indexed, Arm.moved]
  cases h24 : bit insn 24 with
  | false =>
    rw [if_pos (show Arm.WritesBack insn from Or.inl h24)]
    rfl
  | true =>
    cases h21 : bit insn 21 with
    | false =>
      rw [if_neg fun hback : Arm.WritesBack insn => by simp [Arm.WritesBack, h24, h21] at hback]
      rfl
    | true =>
      rw [if_pos (show Arm.WritesBack insn from Or.inr h21)]
      rfl

/-- The transfers with a register offset that reach the code for half-words. -/
theorem classOf_half_iff (h : IsRegisterTransfer insn) :
    classOf insn = .half ↔ bits insn 5 2 = 3 ∧ bit insn 7 = true := by
  have hhint : ¬ isHint insn := not_isHint (by rw [h.op0]; decide)
  have hclass : classOf insn = .half ↔ isHalf insn := by
    simp only [classOf, if_neg hhint, h.op0]
    rw [if_neg (by decide), if_neg (by decide), if_pos trivial]
    split_ifs with hhalf hswap
    · exact iff_of_true rfl hhalf
    · exact iff_of_false (by decide) hhalf
    · exact iff_of_false (by decide) hhalf
  obtain ⟨v, hv⟩ : ∃ v, bits7to4 insn = v := ⟨_, rfl⟩
  have h4 : v.getLsbD 0 = false := (bit_of_bits hv (j := 0) (by decide)).symm.trans h.bit4
  have h5 : bits insn 5 2 = v.extractLsb' 1 2 := bits_of_bits hv 1 2 (by decide)
  have h7 : bit insn 7 = v.getLsbD 3 := bit_of_bits hv (j := 3) (by decide)
  rw [hclass, isHalf, hv, h5, h7]
  clear hv h5 h7
  revert v
  decide

/-- **A byte store** changes its base register, and nothing else of the CPU. -/
theorem IsByteStore.step (h : IsByteStore insn) (hexec : Executes Board.bus m insn) :
    (cpuStep Board.bus m).2.cpu = behindByte m.cpu.next insn := by
  have hword : ∀ offset : Word, (wordTransfer Board.bus insn offset (m.advanced Board.bus)).cpu =
      if Arm.WritesBack insn then m.cpu.next.setReg (bits insn 16 4) (Arm.moved m.cpu.next insn offset)
      else m.cpu.next := by
    intro offset
    rw [← indexed_cpu, wordTransfer]
    simp only [h.store, h.byte, Bool.false_eq_true, if_false, if_true]
    rfl
  have hhalf : (halfTransfer Board.bus insn (m.advanced Board.bus)).cpu =
      if Arm.WritesBack insn then
        m.cpu.next.setReg (bits insn 16 4) (Arm.moved m.cpu.next insn (halfOffset insn))
      else m.cpu.next := by
    rw [← indexed_cpu, halfTransfer]
    simp only [h.store, Bool.false_eq_true, if_false]
    rfl
  have hhint : ¬ isHint insn := by
    intro hh
    simp only [isHint, Bool.and_eq_true, Bool.or_eq_true, decide_eq_true_eq] at hh
    have h20 : bit insn 20 = true := by
      rcases hh.2 with (h7 | hmask) | hmask
      · exact bit_of_bits h7 (j := 0) (by decide)
      · exact bit_of_mask hmask (by decide)
      · exact bit_of_mask hmask (by decide)
    rw [h.store] at h20
    exact absurd h20 (by decide)
  rw [hexec.step, execute_eq]
  rcases h.op0 with hop | ⟨hop, h4⟩
  · have hclass : classOf insn = .word := by
      simp only [classOf, if_neg hhint, hop]
      rfl
    have htaken : takenOffset m.cpu.next insn = wordOffset insn m.cpu.next :=
      if_neg fun hboth => absurd (hop.symm.trans hboth.1) (by decide)
    rw [hclass, behindByte, htaken]
    exact hword _
  · have hiff := classOf_half_iff ⟨hop, h4⟩
    by_cases hodd : bits insn 5 2 = 3 ∧ bit insn 7 = true
    · have htaken : takenOffset m.cpu.next insn = halfOffset insn := if_pos ⟨hop, hodd⟩
      rw [hiff.2 hodd, behindByte, htaken]
      exact hhalf
    · have hswap : bits7to4 insn ≠ 0x9 := fun h9 =>
        absurd (h4.symm.trans (bit_of_bits h9 (j := 0) (by decide))) (by decide)
      have hclass : classOf insn = .word := by
        have hne := mt hiff.1 hodd
        simp only [classOf, if_neg hhint, hop, if_neg hswap] at hne ⊢
        rw [if_neg (by decide), if_neg (by decide), if_pos trivial] at hne ⊢
        split_ifs at hne ⊢
        · exact absurd rfl hne
        · rfl
      have htaken : takenOffset m.cpu.next insn = wordOffset insn m.cpu.next :=
        if_neg fun hboth => hodd hboth.2
      rw [hclass, behindByte, htaken]
      exact hword _

end

end PocketDarwin.Simu
