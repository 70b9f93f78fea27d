/-
  Where the simulated program continues.

  `regs[15]` is kept 8 below the address of the next fetch, and it has already been
  advanced by 4 when an instruction reads it.  Every path of `cpu_step` corrects for
  this on its own: data processing, `BX` and `BLX` when they write `r15`, the stores
  when they read it.  No other path does, and a branch corrects twice.
-/
import PocketDarwin.Simu.Board
import PocketDarwin.Simu.Decode

namespace PocketDarwin.Simu

/-! ## Classes -/

/-- What `cpu_step` takes an instruction for. -/
inductive Class
  | hint | multiply | longMultiply | mrs | bx | blx | clz | data | word | half | swap | multiple | branch
  | coprocessor
  deriving DecidableEq

def classOf (insn : Word) : Class :=
  if isHint insn then .hint
  else if bits insn 25 3 = 0 ∨ bits insn 25 3 = 1 then
    if isMultiply insn then .multiply
    else if isLongMultiply insn then .longMultiply
    else if isMrs insn then .mrs
    else if isBx insn then .bx
    else if isBlx insn then .blx
    else if isClz insn then .clz
    else .data
  else if bits insn 25 3 = 2 then .word
  else if bits insn 25 3 = 3 then
    if isHalf insn then .half
    else if bits7to4 insn = 0x9 then .swap
    else .word
  else if bits insn 25 3 = 4 then .multiple
  else if bits insn 25 3 = 5 then .branch
  else .coprocessor

section
variable {σ : Type} (bus : Bus σ)

/-- How an instruction of a class is executed. -/
def executeAs (pc insn : Word) (m : Machine σ) : Class → Machine σ
  | .hint => m
  | .multiply => { m with cpu := multiply insn m.cpu }
  | .longMultiply => { m with cpu := longMultiply insn m.cpu }
  | .mrs => { m with cpu := mrs insn m.cpu }
  | .bx => { m with cpu := m.cpu.setReg 15 (clearBit0 (m.cpu.regs (bits insn 0 4)) - 8) }
  | .blx => { m with cpu := (m.cpu.setLr (pc + 4)).setReg 15 (clearBit0 (m.cpu.regs (bits insn 0 4)) - 8) }
  | .clz => { m with cpu := m.cpu.setReg (bits insn 12 4) (clz (m.cpu.regs (bits insn 0 4))) }
  | .data => { m with cpu := dataProcessing insn m.cpu }
  | .word => wordTransfer bus insn (wordOffset insn m.cpu) m
  | .half => halfTransfer bus insn m
  | .swap => swap bus insn m
  | .multiple => executeMultiple bus insn m
  | .branch => { m with cpu := executeBranch pc insn m.cpu }
  | .coprocessor => { m with cpu := executeCoprocessor insn m.cpu }

theorem op0_cases (v : BitVec 3) : v = 0 ∨ v = 1 ∨ v = 2 ∨ v = 3 ∨ v = 4 ∨ v = 5 ∨ v = 6 ∨ v = 7 := by
  revert v
  decide

theorem execute_eq (pc insn : Word) (m : Machine σ) :
    execute bus pc insn m = executeAs bus pc insn m (classOf insn) := by
  unfold execute classOf
  by_cases hhint : isHint insn
  · simp only [hhint, if_true, executeAs]
  simp only [hhint, Bool.false_eq_true, if_false]
  -- the tests on both sides are the same, in the same order
  rcases op0_cases (bits insn 25 3) with h | h | h | h | h | h | h | h
  · rw [if_pos (.inl h), if_pos (.inl h), executeData_eq]
    simp only [apply_ite (executeAs bus pc insn m),
      apply_ite (fun cpu => (Machine.mk cpu m.mem : Machine σ))]
    rfl
  · rw [if_pos (.inr h), if_pos (.inr h), executeData_eq]
    simp only [apply_ite (executeAs bus pc insn m),
      apply_ite (fun cpu => (Machine.mk cpu m.mem : Machine σ))]
    rfl
  · rw [h]
    simp [executeAs, executeTransfer, h]
  · rw [h, executeTransfer, h]
    simp only [apply_ite (executeAs bus pc insn m)]
    rfl
  · rw [h]
    rfl
  · rw [h]
    rfl
  · rw [h]
    rfl
  · rw [h]
    rfl

/-! ## What an instruction reads and writes -/

/-- The registers of a shifted operand. -/
def shiftedRegs (insn : Word) : List Reg := bits insn 0 4 :: if bit insn 4 then [bits insn 8 4] else []

/-- The registers whose values an instruction uses as they are in `regs`. -/
def rawOperands (insn : Word) : List Reg :=
  match classOf insn with
  | .multiply => [bits insn 0 4, bits insn 8 4] ++ if bit insn 21 then [bits insn 12 4] else []
  | .longMultiply =>
    [bits insn 0 4, bits insn 8 4] ++ if bit insn 21 then [bits insn 16 4, bits insn 12 4] else []
  | .bx | .blx | .clz => [bits insn 0 4]
  | .data =>
    -- `MOV` and `MVN` have no first operand
    (if bits insn 21 4 = 0xD ∨ bits insn 21 4 = 0xF then [] else [bits insn 16 4]) ++
      if bit insn 25 then [] else shiftedRegs insn
  | .word => bits insn 16 4 :: if bits insn 25 3 = 2 then [] else shiftedRegs insn
  | .half | .multiple => [bits insn 16 4]
  | .swap => [bits insn 16 4, bits insn 0 4]
  | _ => []

/-- The registers that an instruction stores. -/
def storedRegs (insn : Word) : List Reg :=
  match classOf insn with
  | .word | .half => if bit insn 20 then [] else [bits insn 12 4]
  | .multiple => if bit insn 20 then [] else regList insn
  | _ => []

/-- An instruction reads `v` from the register `r`. -/
def Obtains (cpu : Cpu) (insn : Word) (r : Reg) (v : Word) : Prop :=
  (r ∈ rawOperands insn ∧ v = cpu.regs r) ∨ (r ∈ storedRegs insn ∧ v = storeVal cpu r)

/-- The registers that an instruction outside data processing writes a result to. -/
def rawResults (insn : Word) : List Reg :=
  match classOf insn with
  | .multiply => [bits insn 16 4]
  | .longMultiply => [bits insn 16 4, bits insn 12 4]
  | .mrs | .clz | .swap => [bits insn 12 4]
  | .word | .half => if bit insn 20 then [bits insn 12 4] else []
  | .multiple => if bit insn 20 then regList insn else []
  | _ => []

/-- The value that an instruction computes or loads for `r15`. -/
def pcResult (insn : Word) (m : Machine σ) : Option Word :=
  match classOf insn with
  | .multiply => if bits insn 16 4 = 15 then some (product insn m.cpu) else none
  | .longMultiply =>
    if bits insn 16 4 = 15 then some ((longProduct insn m.cpu >>> 32).setWidth 32)
    else if bits insn 12 4 = 15 then some ((longProduct insn m.cpu).setWidth 32)
    else none
  | .mrs => if bits insn 12 4 = 15 then some (psr insn m.cpu) else none
  | .clz => if bits insn 12 4 = 15 then some (clz (m.cpu.regs (bits insn 0 4))) else none
  | .data =>
    if isCompare (bits insn 21 4) = false ∧ bits insn 12 4 = 15 then
      some (alu (bits insn 21 4) m.cpu (m.cpu.regs (bits insn 16 4)) (operand2 m.cpu insn).1).result
    else none
  | .word =>
    if bit insn 20 ∧ bits insn 12 4 = 15 then
      let rnVal := m.cpu.regs (bits insn 16 4)
      some (loadWord bus insn (indexed insn m.cpu rnVal (wordOffset insn m.cpu)).1 m.mem).1
    else none
  | .half =>
    if bit insn 20 ∧ bits insn 12 4 = 15 then
      let rnVal := m.cpu.regs (bits insn 16 4)
      some (loadHalf bus insn (indexed insn m.cpu rnVal (halfOffset insn)).1 m.mem).1
    else none
  | .swap => if bits insn 12 4 = 15 then some (swapVal bus insn m).1 else none
  | .multiple => if bit insn 20 ∧ 15 ∈ regList insn then some ((moveMultiple bus insn m).cpu.regs 15) else none
  | _ => none

/-! ## Control flow -/

/-- `B` and `BL` with an offset, and the instructions that leave a return address. -/
def isLink (insn : Word) : Prop := classOf insn = .blx ∨ (classOf insn = .branch ∧ bit insn 24)

/-- The address that the program continues at behind an instruction: the offset of a
    branch is relative to its own address plus 8, and `r15` reads as that, too. -/
def target (m : Machine σ) (insn : Word) : Word :=
  match classOf insn with
  | .branch => m.fetchAddress + 8 + 4 * (bits insn 0 24).signExtend 32
  | .bx | .blx =>
    let rm := bits insn 0 4
    (if rm = 15 then m.fetchAddress + 8 else m.cpu.regs rm) &&& ~~~1
  | _ => (pcResult bus insn (m.advanced bus)).getD (m.fetchAddress + 4)

/-- The control flow of the architecture at one step. -/
structure ControlFlow (m : Machine σ) (insn : Word) : Prop where
  next : (cpuStep bus m).2.fetchAddress = target bus m insn
  -- in the bank of the mode, and where an operand is read from
  link : isLink insn → (cpuStep bus m).2.cpu.getLr = m.fetchAddress + 4 ∧
    (cpuStep bus m).2.cpu.regs 14 = m.fetchAddress + 4
  operand : ∀ v, Obtains (m.advanced bus).cpu insn 15 v → v = m.fetchAddress + 8

/-- The modes with a link register of their own. -/
def Cpu.banksLr (cpu : Cpu) : Bool :=
  cpu.mode = 0x12 || cpu.mode = 0x13 || cpu.mode = 0x17 || cpu.mode = 0x1B || cpu.mode = 0x11

/-- Where the corrections for the offset of `regs[15]` cover an instruction. -/
structure Corrected (m : Machine σ) (insn : Word) : Prop where
  branch : bits insn 25 3 ≠ 5
  result : 15 ∉ rawResults insn
  operand : 15 ∉ rawOperands insn
  link : classOf insn = .blx → m.cpu.banksLr = false ∨ m.cpu.regs 14 = m.fetchAddress + 4

/-! ## What becomes of `r15` -/

theorem setReg_pc (cpu : Cpu) (r : Reg) (val : Word) :
    (cpu.setReg r val).regs 15 = if r = 15 then val else cpu.regs 15 := by
  split_ifs with h
  · rw [h, Cpu.setReg_regs_self]
  · exact Cpu.setReg_regs_of_ne (Ne.symm h) val

theorem indexed_pc {insn : Word} (hrn : bits insn 16 4 ≠ 15) (cpu : Cpu) (rnVal offset : Word) :
    (indexed insn cpu rnVal offset).2.regs 15 = cpu.regs 15 := by
  simp only [indexed]
  generalize (if bit insn 23 then rnVal + offset else rnVal - offset) = moved
  split_ifs
  · exact (setReg_pc _ _ _).trans (if_neg hrn)
  · rfl
  · exact (setReg_pc _ _ _).trans (if_neg hrn)

theorem multiply_pc (insn : Word) (cpu : Cpu) :
    (multiply insn cpu).regs 15 = if bits insn 16 4 = 15 then product insn cpu else cpu.regs 15 := by
  rw [← setReg_pc, multiply]
  split_ifs <;> rfl

theorem longMultiply_pc (insn : Word) (cpu : Cpu) :
    (longMultiply insn cpu).regs 15 =
      if bits insn 16 4 = 15 then (longProduct insn cpu >>> 32).setWidth 32
      else if bits insn 12 4 = 15 then (longProduct insn cpu).setWidth 32
      else cpu.regs 15 := by
  rw [← setReg_pc cpu, ← setReg_pc, longMultiply]
  split_ifs <;> rfl

theorem compare_regs (opcode : BitVec 4) (cpu : Cpu) (rnVal op2 : Word) (c : Bool) :
    (compare opcode cpu rnVal op2 c).regs = cpu.regs := by
  unfold compare
  split <;> rfl

/-- Data processing corrects what it writes to `r15`. -/
theorem writeResult_pc (insn : Word) (cpu : Cpu) (result : Word) (c : Bool) :
    (writeResult insn cpu result c).regs 15 = if bits insn 12 4 = 15 then result - 8 else cpu.regs 15 := by
  unfold writeResult
  by_cases h : bits insn 12 4 = 15
  · simp only [h, if_true, Cpu.setReg_regs_self]
  · simp only [h, if_false, setReg_pc]
    split_ifs <;> rfl

theorem wordTransfer_pc {insn : Word} (hrn : bits insn 16 4 ≠ 15) (offset : Word) (m : Machine σ) :
    (wordTransfer bus insn offset m).cpu.regs 15 =
      if bit insn 20 ∧ bits insn 12 4 = 15 then
        (loadWord bus insn (indexed insn m.cpu (m.cpu.regs (bits insn 16 4)) offset).1 m.mem).1
      else m.cpu.regs 15 := by
  rw [← indexed_pc hrn m.cpu (m.cpu.regs (bits insn 16 4)) offset, wordTransfer]
  by_cases hl : bit insn 20
  · simp only [hl, if_true, true_and]
    exact setReg_pc _ _ _
  · simp only [hl, Bool.false_eq_true, if_false, false_and]
    split_ifs <;> rfl

theorem halfTransfer_pc {insn : Word} (hrn : bits insn 16 4 ≠ 15) (m : Machine σ) :
    (halfTransfer bus insn m).cpu.regs 15 =
      if bit insn 20 ∧ bits insn 12 4 = 15 then
        (loadHalf bus insn (indexed insn m.cpu (m.cpu.regs (bits insn 16 4)) (halfOffset insn)).1 m.mem).1
      else m.cpu.regs 15 := by
  rw [← indexed_pc hrn m.cpu (m.cpu.regs (bits insn 16 4)) (halfOffset insn), halfTransfer]
  by_cases hl : bit insn 20
  · simp only [hl, if_true, true_and]
    exact setReg_pc _ _ _
  · simp only [hl, Bool.false_eq_true, if_false, false_and]

theorem executeMultiple_pc {insn : Word} (hrn : bits insn 16 4 ≠ 15) (m : Machine σ) :
    (executeMultiple bus insn m).cpu.regs 15 =
      if bit insn 20 ∧ 15 ∈ regList insn then (moveMultiple bus insn m).cpu.regs 15 else m.cpu.regs 15 := by
  have hmoved : (executeMultiple bus insn m).cpu.regs 15 = (moveMultiple bus insn m).cpu.regs 15 := by
    unfold executeMultiple
    split_ifs
    · exact (setReg_pc _ _ _).trans (if_neg hrn)
    · rfl
  rw [hmoved]
  split_ifs with h
  · rfl
  · unfold moveMultiple
    split_ifs with hl
    · exact loadLoop_regs_of_notMem bus (fun hmem => h ⟨hl, hmem⟩) _ _
    · rw [storeLoop_cpu]

/-- The coprocessor is none: its number has four bits. -/
theorem executeCoprocessor_eq (insn : Word) (cpu : Cpu) : executeCoprocessor insn cpu = cpu := by
  have h : ∀ cp : BitVec 4, cp.setWidth 32 ≠ (0x15 : Word) := by decide
  rw [executeCoprocessor, if_neg (h _)]

theorem ite_getD {α : Type} (c : Prop) [Decidable c] (v d : α) :
    (if c then some v else none).getD d = if c then v else d := by
  split_ifs <;> rfl

/-- Outside data processing and the branches, an instruction that does not read `r15` raw
    leaves there what it computed or loaded for it. -/
theorem execute_pc {insn : Word} (hraw : 15 ∉ rawOperands insn) (hdata : classOf insn ≠ .data)
    (hbranch : classOf insn ≠ .branch) (hbx : classOf insn ≠ .bx) (hblx : classOf insn ≠ .blx) (pc : Word)
    (m : Machine σ) : (execute bus pc insn m).cpu.regs 15 = (pcResult bus insn m).getD (m.cpu.regs 15) := by
  rw [execute_eq, pcResult]
  have hrn : classOf insn = .word ∨ classOf insn = .half ∨ classOf insn = .multiple →
      bits insn 16 4 ≠ 15 := by
    rintro h hrn
    apply hraw
    rcases h with h | h | h <;> simp [rawOperands, h, hrn]
  cases h : classOf insn with
  | hint => rfl
  | multiply => exact (multiply_pc insn m.cpu).trans (ite_getD _ _ _).symm
  | longMultiply =>
    refine (longMultiply_pc insn m.cpu).trans ?_
    split_ifs <;> rfl
  | mrs => exact (setReg_pc m.cpu _ _).trans (ite_getD _ _ _).symm
  | bx => exact absurd h hbx
  | blx => exact absurd h hblx
  | clz => exact (setReg_pc m.cpu _ _).trans (ite_getD _ _ _).symm
  | data => exact absurd h hdata
  | word => exact (wordTransfer_pc bus (hrn (.inl h)) _ m).trans (ite_getD _ _ _).symm
  | half => exact (halfTransfer_pc bus (hrn (.inr (.inl h))) m).trans (ite_getD _ _ _).symm
  | swap => exact (setReg_pc m.cpu _ _).trans (ite_getD _ _ _).symm
  | multiple => exact (executeMultiple_pc bus (hrn (.inr (.inr h))) m).trans (ite_getD _ _ _).symm
  | branch => exact absurd h hbranch
  | coprocessor => exact congrArg (fun cpu : Cpu => cpu.regs 15) (executeCoprocessor_eq insn m.cpu)

/-- Data processing leaves it 8 below. -/
theorem execute_data_pc {insn : Word} (h : classOf insn = .data) (pc : Word) (m : Machine σ) :
    (execute bus pc insn m).cpu.regs 15 = (pcResult bus insn m).elim (m.cpu.regs 15) fun v => v - 8 := by
  rw [execute_eq, pcResult, h]
  by_cases hcmp : isCompare (bits insn 21 4)
  · simp [executeAs, dataProcessing_compare hcmp, compare_regs, hcmp]
  · simp only [executeAs, dataProcessing_write hcmp, writeResult_pc, hcmp, true_and]
    split_ifs <;> rfl

theorem ite_isSome {α : Type} (c : Prop) [Decidable c] (v : α) : (if c then some v else none).isSome ↔ c := by
  split_ifs with h <;> simp [h]

/-- Outside data processing a result for `r15` is written as it is. -/
theorem pcResult_isSome {insn : Word} (h : classOf insn ≠ .data) (m : Machine σ) :
    (pcResult bus insn m).isSome ↔ 15 ∈ rawResults insn := by
  have hmem : ∀ r : Reg, r = 15 ↔ 15 ∈ [r] := fun r => eq_comm.trans List.mem_singleton.symm
  have hload : ∀ (l : Bool) (r : Reg), (l = true ∧ r = 15) ↔ 15 ∈ if l then [r] else [] := by
    intro l r
    cases l with
    | false => simp
    | true => simpa using hmem r
  rw [pcResult, rawResults]
  cases hc : classOf insn with
  | hint => simp
  | multiply => exact (ite_isSome _ _).trans (hmem _)
  | longMultiply =>
    have hpair : bits insn 16 4 = 15 ∨ bits insn 12 4 = 15 ↔ 15 ∈ [bits insn 16 4, bits insn 12 4] :=
      (or_congr (hmem _) (hmem _)).trans List.mem_append.symm
    refine Iff.trans ?_ hpair
    by_cases hhi : bits insn 16 4 = 15
    · simp only [hhi, if_true, Option.isSome_some, true_or]
    · simp only [hhi, if_false, false_or, ite_isSome]
  | mrs => exact (ite_isSome _ _).trans (hmem _)
  | bx => simp
  | blx => simp
  | clz => exact (ite_isSome _ _).trans (hmem _)
  | data => exact absurd hc h
  | word => exact (ite_isSome _ _).trans (hload _ _)
  | half => exact (ite_isSome _ _).trans (hload _ _)
  | swap => exact (ite_isSome _ _).trans (hmem _)
  | multiple =>
    refine (ite_isSome _ _).trans ?_
    cases bit insn 20 <;> simp
  | branch => simp
  | coprocessor => simp

/-! ## Branches and links -/

/-- The offset of a branch is never 16 more than four times its field: not in the lowest
    five bits. -/
theorem branchOffset_ne (insn : Word) : branchOffset insn + 8 ≠ 4 * (bits insn 0 24).signExtend 32 + 16 := by
  intro h
  have hlow : ((bits insn 0 24).signExtend 32).setWidth 5 = insn.setWidth 5 := by
    ext i hi
    simp only [bits, BitVec.getElem_setWidth, BitVec.getLsbD_signExtend, BitVec.getLsbD_extractLsb',
      Nat.zero_add]
    simp [show i < 32 by omega, show i < 24 by omega]
  have hmask : ∀ x : Word, (if x &&& 0x02000000 ≠ 0 then x ||| 0xFD000000 else x).setWidth 5 =
      x.setWidth 5 := by
    intro x
    split_ifs
    · rw [BitVec.setWidth_or]
      exact BitVec.or_zero
    · rfl
  have hand : (insn &&& 0x00FFFFFF).setWidth 5 = insn.setWidth 5 := by
    rw [BitVec.setWidth_and]
    exact BitVec.and_allOnes
  have h5 : ∀ x : BitVec 5, x <<< 2 ≠ 4 * x + 16 := by decide
  apply h5 (insn.setWidth 5)
  have h' := congrArg (BitVec.setWidth 5) h
  rw [branchOffset, BitVec.sub_add_cancel, hmask, BitVec.setWidth_shiftLeft_of_le (by decide), hand,
    BitVec.setWidth_add _ _ (by decide), BitVec.setWidth_mul _ _ (by decide), hlow] at h'
  exact h'

theorem classOf_branch (insn : Word) : classOf insn = .branch ↔ bits insn 25 3 = 5 := by
  constructor
  · intro h
    unfold classOf at h
    repeat' split at h
    all_goals first | assumption | cases h
  · intro h
    have hop : bits insn 25 3 ≠ 2 := by
      rw [h]
      decide
    rw [classOf, if_neg (not_isHint hop), h]
    rfl

theorem clearBit0_eq (addr : Word) : clearBit0 addr = addr &&& ~~~1 := by
  have hone : ∀ i, bit 1 i = decide (i = 0) := bit_twoPow 0 (by decide)
  unfold clearBit0
  split_ifs with h
  · rfl
  · refine BitVec.eq_of_getLsbD_eq fun i hi => ?_
    change bit addr i = bit (addr &&& ~~~1) i
    have h0 : bit (addr &&& 1) i = bit 0 i := congrArg (fun x : Word => bit x i) (not_not.1 h)
    rw [bit_and, bit_zero, hone] at h0
    rw [bit_and, bit_not _ hi, hone]
    cases hbit : bit addr i <;> simp_all

theorem Cpu.getLr_setLr (cpu : Cpu) (val : Word) : (cpu.setLr val).getLr = val := by
  have hmode : ∀ v : Word, (cpu.setLr v).mode = cpu.mode := fun v => by rw [mode, setLr_cpsr, mode]
  rw [getLr, hmode]
  unfold setLr
  split_ifs
  · rfl
  · rfl
  · rfl
  · rfl
  · rfl
  · exact setReg_regs_self _ _ _

theorem Cpu.setLr_regs_lr (cpu : Cpu) (val : Word) :
    (cpu.setLr val).regs 14 = if cpu.banksLr then cpu.regs 14 else val := by
  unfold setLr banksLr
  split_ifs with h₁ h₂ h₃ h₄ h₅ h <;> simp_all

theorem Cpu.setReg_getLr {r : Reg} (h : r ≠ 14) (cpu : Cpu) (val : Word) : (cpu.setReg r val).getLr = cpu.getLr := by
  have hregs : (cpu.setReg r val).regs 14 = cpu.regs 14 := setReg_regs_of_ne (Ne.symm h) val
  rw [getLr, hregs]
  rfl

/-! ## The theorem -/

variable {bus} {m : Machine σ} {insn : Word}

/-- What the step of a branch, of a `BX` and of a `BLX` makes of `regs[15]`. -/
theorem step_branch (h : Executes bus m insn) (hc : classOf insn = .branch) :
    (cpuStep bus m).2.fetchAddress = m.fetchAddress + branchOffset insn := by
  have h15 : (cpuStep bus m).2.cpu.regs 15 = m.fetchAddress + branchOffset insn - 8 := by
    rw [h.step, execute_eq, hc]
    exact Cpu.setReg_regs_self _ _ _
  rw [Machine.fetchAddress, h15, BitVec.sub_add_cancel]

theorem step_exchange (h : Executes bus m insn) (hc : classOf insn = .bx ∨ classOf insn = .blx)
    (hrm : bits insn 0 4 ≠ 15) : (cpuStep bus m).2.fetchAddress = m.cpu.regs (bits insn 0 4) &&& ~~~1 := by
  have h15 : (cpuStep bus m).2.cpu.regs 15 = clearBit0 ((m.advanced bus).cpu.regs (bits insn 0 4))
      - 8 := by
    rw [h.step, execute_eq]
    rcases hc with hc | hc
    · rw [hc]
      exact Cpu.setReg_regs_self _ _ _
    · rw [hc]
      exact Cpu.setReg_regs_self _ _ _
  rw [Machine.fetchAddress, h15, BitVec.sub_add_cancel, clearBit0_eq, advanced_regs_of_ne bus hrm]

/-- What the step of a `BLX` makes of the link registers. -/
theorem step_link (h : Executes bus m insn) (hc : classOf insn = .blx) :
    (cpuStep bus m).2.cpu.getLr = m.fetchAddress + 4 ∧
      (cpuStep bus m).2.cpu.regs 14 = if m.cpu.banksLr then m.cpu.regs 14 else m.fetchAddress + 4 := by
  rw [h.step, execute_eq, hc]
  constructor
  · exact (Cpu.setReg_getLr (by decide) _ _).trans (Cpu.getLr_setLr _ _)
  · have hlr : (m.advanced bus).cpu.regs 14 = m.cpu.regs 14 := advanced_regs_of_ne bus (by decide)
    refine (Cpu.setReg_regs_of_ne (by decide) _).trans ?_
    rw [Cpu.setLr_regs_lr, hlr]
    rfl

/-- What every other step makes of it. -/
theorem step_data (h : Executes bus m insn) (hc : classOf insn = .data) :
    (cpuStep bus m).2.fetchAddress = (pcResult bus insn (m.advanced bus)).getD (m.fetchAddress + 4) := by
  rw [Machine.fetchAddress, h.step, execute_data_pc bus hc, advanced_regs_pc]
  cases pcResult bus insn (m.advanced bus) with
  | none =>
    simp only [Option.elim, Option.getD]
    bv_omega
  | some v =>
    simp only [Option.elim, Option.getD]
    bv_omega

theorem step_other (h : Executes bus m insn) (hraw : 15 ∉ rawOperands insn) (hdata : classOf insn ≠ .data)
    (hbranch : classOf insn ≠ .branch) (hbx : classOf insn ≠ .bx) (hblx : classOf insn ≠ .blx) :
    (cpuStep bus m).2.fetchAddress =
      (pcResult bus insn (m.advanced bus)).elim (m.fetchAddress + 4) fun v => v + 8 := by
  rw [Machine.fetchAddress, h.step, execute_pc bus hraw hdata hbranch hbx hblx, advanced_regs_pc]
  cases pcResult bus insn (m.advanced bus) with
  | none =>
    simp only [Option.elim, Option.getD]
    bv_omega
  | some v => rfl

theorem rm_ne_of_exchange (hraw : 15 ∉ rawOperands insn) (hc : classOf insn = .bx ∨ classOf insn = .blx) :
    bits insn 0 4 ≠ 15 := by
  intro hrm
  apply hraw
  rcases hc with hc | hc <;> simp [rawOperands, hc, hrm]

theorem target_exchange (hrm : bits insn 0 4 ≠ 15) (hc : classOf insn = .bx ∨ classOf insn = .blx) :
    target bus m insn = m.cpu.regs (bits insn 0 4) &&& ~~~1 := by
  rcases hc with hc | hc
  · simp only [target, hc, hrm, if_false]
  · simp only [target, hc, hrm, if_false]

theorem target_other (hbranch : classOf insn ≠ .branch) (hbx : classOf insn ≠ .bx) (hblx : classOf insn ≠ .blx) :
    target bus m insn = (pcResult bus insn (m.advanced bus)).getD (m.fetchAddress + 4) := by
  unfold target
  cases hc : classOf insn with
  | branch => exact absurd hc hbranch
  | bx => exact absurd hc hbx
  | blx => exact absurd hc hblx
  | _ => rfl

/-- A correct step is one that the corrections cover. -/
theorem corrected_of_controlFlow (h : Executes bus m insn) (hcf : ControlFlow bus m insn) : Corrected m insn := by
  have hraw : 15 ∉ rawOperands insn := by
    intro hmem
    have h8 := hcf.operand _ (.inl ⟨hmem, rfl⟩)
    rw [advanced_regs_pc] at h8
    bv_omega
  have hbranch : classOf insn ≠ .branch := by
    intro hc
    have hnext := hcf.next
    rw [step_branch h hc, target, hc] at hnext
    apply branchOffset_ne insn
    bv_omega
  refine ⟨?_, ?_, hraw, ?_⟩
  · intro h5
    exact hbranch ((classOf_branch insn).2 h5)
  · intro hres
    have hclass : classOf insn ≠ .data ∧ classOf insn ≠ .bx ∧ classOf insn ≠ .blx := by
      refine ⟨?_, ?_, ?_⟩ <;>
      · intro hc
        simp [rawResults, hc] at hres
    obtain ⟨v, hv⟩ := Option.isSome_iff_exists.1
      ((pcResult_isSome bus hclass.1 (m.advanced bus)).2 hres)
    have hnext := hcf.next
    rw [step_other h hraw hclass.1 hbranch hclass.2.1 hclass.2.2,
      target_other hbranch hclass.2.1 hclass.2.2,
      hv] at hnext
    simp only [Option.elim, Option.getD] at hnext
    bv_omega
  · intro hblx
    have hlr := (hcf.link (.inl hblx)).2
    rw [(step_link h hblx).2] at hlr
    split_ifs at hlr with hbank
    · exact .inr hlr
    · exact .inl (Bool.eq_false_iff.2 hbank)

/-- A step that the corrections cover is correct. -/
theorem controlFlow_of_corrected (h : Executes bus m insn) (hcor : Corrected m insn) : ControlFlow bus m insn := by
  have hbranch : classOf insn ≠ .branch := by
    intro hc
    exact hcor.branch ((classOf_branch insn).1 hc)
  refine ⟨?_, ?_, ?_⟩
  · by_cases hex : classOf insn = .bx ∨ classOf insn = .blx
    · have hrm := rm_ne_of_exchange hcor.operand hex
      rw [step_exchange h hex hrm, target_exchange hrm hex]
    · rw [not_or] at hex
      rw [target_other hbranch hex.1 hex.2]
      by_cases hdata : classOf insn = .data
      · exact step_data h hdata
      · have hnone : pcResult bus insn (m.advanced bus) = none := by
          rw [← Option.not_isSome_iff_eq_none, pcResult_isSome bus hdata]
          exact hcor.result
        rw [step_other h hcor.operand hdata hbranch hex.1 hex.2, hnone]
        rfl
  · rintro (hblx | ⟨hc, -⟩)
    · obtain ⟨hbank, hregs⟩ := step_link h hblx
      refine ⟨hbank, hregs.trans ?_⟩
      rcases hcor.link hblx with hlr | hlr
      · rw [hlr]
        rfl
      · rw [hlr, ite_self]
    · exact absurd hc hbranch
  · rintro v (⟨hmem, -⟩ | ⟨-, rfl⟩)
    · exact absurd hmem hcor.operand
    · rw [storeVal, if_pos rfl, advanced_regs_pc]
      bv_omega

/-- **Control flow**: a step makes the next fetch, the link registers and the value of
    `r15` as an operand what they are on the architecture exactly when the instruction is
    no branch, does not load `r15` or compute it outside data processing, does not read
    `r15` but to store it, and is no `BLX` in a mode with a link register of its own
    (unless `r14` happens to hold the address behind it). -/
theorem control_flow_iff (h : Executes bus m insn) : ControlFlow bus m insn ↔ Corrected m insn :=
  ⟨corrected_of_controlFlow h, controlFlow_of_corrected h⟩

end

/-- A machine about to run `blx r1`, and one about to run `b .` -/
def blxMachine : Machine Board := startMachine [0xE12FFF31] fun _ => 0x80000101

def loopMachine : Machine Board := startMachine [0xEAFFFFFE] fun _ => 0

/-- `blx r1` in user mode goes where it should. -/
theorem control_flow_blx : Executes Board.bus blxMachine 0xE12FFF31 ∧ ControlFlow Board.bus blxMachine 0xE12FFF31 := by
  have h : Executes Board.bus blxMachine 0xE12FFF31 := ⟨rfl, by decide +kernel, by decide⟩
  exact ⟨h, (control_flow_iff h).2 ⟨by decide, by decide, by decide, fun _ => .inl (by decide)⟩⟩

/-- `b .` continues 16 below itself. -/
theorem branch_misses :
    Executes Board.bus loopMachine 0xEAFFFFFE ∧ ¬ ControlFlow Board.bus loopMachine 0xEAFFFFFE :=
  ⟨⟨rfl, by decide +kernel, by decide⟩, fun h => absurd h.next (by decide +kernel)⟩

end PocketDarwin.Simu
