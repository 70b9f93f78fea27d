/-
  Which instructions change the flags.

  `cpu_step` takes the data processing space apart by a chain of pattern tests,
  and what no pattern takes is data processing; there the compare opcodes set the
  flags without a look at the S bit.  The words that get there by accident are the
  ones on which flags change without a request: `MRS` (whose pattern asks for the
  condition `EQ`), `MOVW`, `MOVT`, hints and the extra loads.  The patterns for
  `MSR` match no word at all.
-/
import PocketDarwin.Simu.Board
import PocketDarwin.Simu.Decode

namespace PocketDarwin.Simu

/-! ## Words -/

/-- N, Z, C and V. -/
def Cpu.flags (cpu : Cpu) : BitVec 4 := bits cpu.cpsr 28 4

/-- Data processing and multiplication have an S bit; the extra loads and stores and
    the synchronization primitives, which share their space, have none. -/
def hasSBit (insn : Word) : Bool :=
  bits insn 26 2 = 0 && (bit insn 25 || !(bit insn 7 && bit insn 4) || (bits7to4 insn = 0x9 && !bit insn 24))

/-- The S bit is set. -/
def setsFlags (insn : Word) : Bool := hasSBit insn && bit insn 20

/-- `MSR`, to any fields of the CPSR or the SPSR; with no field at all an `MSR` of an
    immediate to the CPSR is a hint. -/
def isMsr (insn : Word) : Bool :=
  bits insn 28 4 ≠ 0xF && (insn &&& 0x0FB0FFF0 = 0x0120F000 ||
    (insn &&& 0x0FB0F000 = 0x0320F000 && (bit insn 22 || bits insn 16 4 ≠ 0)))

/-- `MSR CPSR_f` with a register. -/
def isMsrFlagsReg (insn : Word) : Bool := bits insn 28 4 ≠ 0xF && insn &&& 0x0FFFFFF0 = 0x0128F000

/-- `MSR CPSR_f` with an immediate. -/
def isMsrFlagsImm (insn : Word) : Bool := bits insn 28 4 ≠ 0xF && insn &&& 0x0FFFF000 = 0x0328F000

/-- `MRS Rd, CPSR` -/
def isMrsCpsr (insn : Word) : Bool := bits insn 28 4 ≠ 0xF && insn &&& 0x0FFF0FFF = 0x010F0000

/-- The words that no pattern takes and that write flags in data processing: by a
    compare opcode, or by bit 20. -/
def fallsThrough (insn : Word) : Bool :=
  (bits insn 25 3 = 0 || bits insn 25 3 = 1) && !isMisc insn && (isCompare (bits insn 21 4) || bit insn 20)

theorem fallsThrough_iff (insn : Word) : fallsThrough insn ↔ (bits insn 25 3 = 0 ∨ bits insn 25 3 = 1) ∧
    ¬ isMisc insn ∧ (isCompare (bits insn 21 4) ∨ bit insn 20) := by
  simp only [fallsThrough, Bool.and_eq_true, Bool.or_eq_true, decide_eq_true_eq, Bool.not_eq_true',
    and_assoc,
    Bool.not_eq_true]

/-! ## States -/

/-- Flags change only on request. -/
structure FlagsOnRequest (insn : Word) : Prop where
  keeps : ¬ setsFlags insn → ¬ isMsr insn → ∀ (σ : Type) (bus : Bus σ) (m : Machine σ), Executes bus m insn →
    (cpuStep bus m).2.cpu.flags = m.cpu.flags
  mrs : isMrsCpsr insn → ∀ (σ : Type) (bus : Bus σ) (m : Machine σ), Executes bus m insn →
    (cpuStep bus m).2.cpu.regs (bits insn 12 4) = m.cpu.cpsr
  msrReg : isMsrFlagsReg insn → ∀ (σ : Type) (bus : Bus σ) (m : Machine σ), Executes bus m insn →
    (cpuStep bus m).2.cpu.cpsr =
      (m.cpu.cpsr &&& 0x00FFFFFF) ||| ((m.advanced bus).cpu.regs (bits insn 0 4) &&& 0xFF000000)
  msrImm : isMsrFlagsImm insn → ∀ (σ : Type) (bus : Bus σ) (m : Machine σ), Executes bus m insn →
    (cpuStep bus m).2.cpu.cpsr = (m.cpu.cpsr &&& 0x00FFFFFF) ||| ((decodeImm insn false).1 &&& 0xFF000000)

/-! ## The classes that leave the CPSR alone -/

section
variable {σ : Type} (bus : Bus σ)

theorem indexed_cpsr (insn : Word) (cpu : Cpu) (rnVal offset : Word) :
    (indexed insn cpu rnVal offset).2.cpsr = cpu.cpsr := by
  unfold indexed
  dsimp only
  split_ifs <;> rfl

theorem wordTransfer_cpsr (insn offset : Word) (m : Machine σ) :
    (wordTransfer bus insn offset m).cpu.cpsr = m.cpu.cpsr := by
  unfold wordTransfer
  dsimp only
  split_ifs <;> exact indexed_cpsr insn m.cpu _ offset

theorem halfTransfer_cpsr (insn : Word) (m : Machine σ) : (halfTransfer bus insn m).cpu.cpsr = m.cpu.cpsr := by
  unfold halfTransfer
  dsimp only
  split_ifs <;> exact indexed_cpsr insn m.cpu _ _

theorem swap_cpsr (insn : Word) (m : Machine σ) : (swap bus insn m).cpu.cpsr = m.cpu.cpsr := rfl

theorem executeTransfer_cpsr (insn : Word) (m : Machine σ) : (executeTransfer bus insn m).cpu.cpsr = m.cpu.cpsr := by
  unfold executeTransfer
  split_ifs
  · exact wordTransfer_cpsr bus insn _ m
  · exact halfTransfer_cpsr bus insn m
  · exact swap_cpsr bus insn m
  · exact wordTransfer_cpsr bus insn _ m

theorem loadLoop_cpsr (list : List Reg) (addr : Word) (m : Machine σ) :
    (loadLoop bus list addr m).cpu.cpsr = m.cpu.cpsr := by
  induction list generalizing addr m with
  | nil => rfl
  | cons r list ih => exact ih _ _

theorem moveMultiple_cpsr (insn : Word) (m : Machine σ) : (moveMultiple bus insn m).cpu.cpsr = m.cpu.cpsr := by
  unfold moveMultiple
  dsimp only
  split_ifs
  · exact loadLoop_cpsr bus _ _ m
  · rw [storeLoop_cpu]

theorem executeMultiple_cpsr (insn : Word) (m : Machine σ) : (executeMultiple bus insn m).cpu.cpsr = m.cpu.cpsr := by
  unfold executeMultiple
  dsimp only
  split_ifs <;> exact moveMultiple_cpsr bus insn m

theorem executeBranch_cpsr (pc insn : Word) (cpu : Cpu) : (executeBranch pc insn cpu).cpsr = cpu.cpsr := by
  unfold executeBranch
  dsimp only
  split_ifs
  · rw [Cpu.setReg_cpsr, Cpu.setLr_cpsr]
  · rfl

theorem executeCoprocessor_cpsr (insn : Word) (cpu : Cpu) : (executeCoprocessor insn cpu).cpsr = cpu.cpsr := by
  unfold executeCoprocessor
  dsimp only
  split_ifs <;> rfl

/-- **Outside of the data processing space** no instruction writes the CPSR. -/
theorem execute_cpsr {insn : Word} (h : ¬ (bits insn 25 3 = 0 ∨ bits insn 25 3 = 1)) (pc : Word) (m : Machine σ) :
    (execute bus pc insn m).cpu.cpsr = m.cpu.cpsr := by
  unfold execute
  dsimp only
  split_ifs
  · rfl
  · exact executeTransfer_cpsr bus insn m
  · exact executeMultiple_cpsr bus insn m
  · exact executeBranch_cpsr pc insn m.cpu
  · exact executeCoprocessor_cpsr insn m.cpu
  · rfl

end

/-! ## The data processing space -/

theorem multiply_cpsr {insn : Word} (h : bit insn 20 = false) (cpu : Cpu) : (multiply insn cpu).cpsr = cpu.cpsr := by
  simp only [multiply, h, Bool.false_eq_true, if_false]
  rfl

theorem longMultiply_cpsr {insn : Word} (h : bit insn 20 = false) (cpu : Cpu) :
    (longMultiply insn cpu).cpsr = cpu.cpsr := by
  simp only [longMultiply, h, Bool.false_eq_true, if_false]
  rfl

theorem writeResult_cpsr {insn : Word} (h : bit insn 20 = false) (cpu : Cpu) (result : Word) (c : Bool) :
    (writeResult insn cpu result c).cpsr = cpu.cpsr := by
  simp only [writeResult, h, Bool.false_eq_true, if_false]
  split_ifs <;> rfl

theorem hasSBit_of_multiply {insn : Word} (h : isMultiply insn ∨ isLongMultiply insn) : hasSBit insn := by
  have hfields : bits insn 25 3 = 0 ∧ bits7to4 insn = 0x9 ∧ bit insn 24 = false := by
    simp only [isMultiply, isLongMultiply, Bool.and_eq_true, decide_eq_true_eq] at h
    rcases h with ⟨⟨h₁, h₂⟩, h₃⟩ | ⟨⟨h₁, h₂⟩, h₃⟩
    · exact ⟨h₁, h₂, bit_of_mask h₃ (by decide)⟩
    · exact ⟨h₁, h₂, bit_of_mask h₃ (by decide)⟩
  obtain ⟨h₁, h₂, h₃⟩ := hfields
  have h₄ : bits insn 26 2 = 0 := bits_of_bits h₁ 1 2 (by decide)
  simp [hasSBit, h₂, h₃, h₄]

/-- **In the data processing space** the CPSR changes by the S bit, or by falling through. -/
theorem executeData_cpsr {insn : Word} (hop : bits insn 25 3 = 0 ∨ bits insn 25 3 = 1) (hs : ¬ setsFlags insn)
    (hfall : ¬ fallsThrough insn) (pc : Word) (cpu : Cpu) : (executeData pc insn cpu).cpsr = cpu.cpsr := by
  have hmul : isMultiply insn ∨ isLongMultiply insn → bit insn 20 = false := by
    intro h
    simp only [setsFlags, hasSBit_of_multiply h, Bool.true_and, Bool.not_eq_true] at hs
    exact hs
  rw [executeData_eq]
  split_ifs with h₁ h₂ h₃ h₄ h₅ h₆
  · exact multiply_cpsr (hmul (.inl h₁)) cpu
  · exact longMultiply_cpsr (hmul (.inr h₂)) cpu
  · rfl
  · rfl
  · rw [Cpu.setReg_cpsr, Cpu.setLr_cpsr]
  · rfl
  · have hmisc : ¬ isMisc insn := by simp [isMisc, h₁, h₂, h₃, h₄, h₅, h₆]
    rw [fallsThrough_iff, not_and, not_and, not_or] at hfall
    obtain ⟨hcmp, h20⟩ := hfall hop hmisc
    rw [dataProcessing_write hcmp, writeResult_cpsr (Bool.eq_false_iff.2 h20)]

/-! ## The results of data processing -/

/-- The result that a compare opcode sets the flags from. -/
def compareResult (opcode : BitVec 4) (rnVal op2 : Word) : Word :=
  match opcode.toNat with
  | 0x8 => rnVal &&& op2
  | 0x9 => rnVal ^^^ op2
  | 0xA => rnVal - op2
  | _ => rnVal + op2

theorem compare_nz (opcode : BitVec 4) (cpu : Cpu) (rnVal op2 : Word) (c : Bool) :
    bit (compare opcode cpu rnVal op2 c).cpsr 31 = (compareResult opcode rnVal op2).msb ∧
      bit (compare opcode cpu rnVal op2 c).cpsr 30 = decide (compareResult opcode rnVal op2 = 0) := by
  have hnz : ∀ (r : Word) (c : Bool), bit ((cpu.updateFlagsNz r).setCarry c).cpsr 31 = r.msb ∧
      bit ((cpu.updateFlagsNz r).setCarry c).cpsr 30 = decide (r = 0) := by
    intro r c
    rw [bit_setCarry _ _ (by decide), bit_setCarry _ _ (by decide), bit_updateFlagsNz _ _ (by decide),
      bit_updateFlagsNz _ _ (by decide)]
    exact ⟨rfl, rfl⟩
  have hnzv : ∀ (r : Word) (c v : Bool), bit (((cpu.updateFlagsNz r).setCarry c).setOverflow v).cpsr
      31 = r.msb ∧
      bit (((cpu.updateFlagsNz r).setCarry c).setOverflow v).cpsr 30 = decide (r = 0) := by
    intro r c v
    rw [bit_setOverflow _ _ (by decide), bit_setOverflow _ _ (by decide)]
    exact hnz r c
  unfold compare compareResult
  generalize opcode.toNat = k
  match k with
  | 8 => exact hnz _ _
  | 9 => exact hnz _ _
  | 0 | 1 | 2 | 3 | 4 | 5 | 6 | 7 | 10 | k + 11 => exact hnzv _ _ _

/-- The result of data processing. -/
def dataResult (insn : Word) (cpu : Cpu) : Word :=
  let rnVal := cpu.regs (bits insn 16 4)
  let op2 := (operand2 cpu insn).1
  if isCompare (bits insn 21 4) then compareResult (bits insn 21 4) rnVal op2
  else (alu (bits insn 21 4) cpu rnVal op2).result

/-- It depends on the registers and the carry. -/
theorem dataResult_congr {cpu cpu' : Cpu} (hregs : cpu.regs = cpu'.regs) (hcarry : cpu.carry = cpu'.carry)
    (insn : Word) : dataResult insn cpu = dataResult insn cpu' := by
  have hop : operand2 cpu insn = operand2 cpu' insn := by
    simp only [operand2, decodeRegShift, decodeImmShift, barrelShift, hregs, hcarry]
  simp only [dataResult, hop, hregs]
  split_ifs
  · rfl
  · unfold alu
    split <;> simp only [hcarry]

/-- The words that fall through set N and Z from their result, or load the SPSR. -/
theorem fallsThrough_nz {insn : Word} (h : fallsThrough insn) (pc : Word) (cpu : Cpu) :
    (bit (executeData pc insn cpu).cpsr 31 = (dataResult insn cpu).msb ∧
      bit (executeData pc insn cpu).cpsr 30 = decide (dataResult insn cpu = 0)) ∨
    (executeData pc insn cpu).cpsr = cpu.spsr := by
  obtain ⟨-, hmisc, hwrites⟩ := (fallsThrough_iff insn).1 h
  rw [executeData_of_not_misc hmisc]
  by_cases hcmp : isCompare (bits insn 21 4)
  · simp only [dataProcessing_compare hcmp, dataResult, hcmp, if_true]
    exact .inl (compare_nz _ cpu _ _ _)
  · have h20 : bit insn 20 = true := hwrites.resolve_left hcmp
    simp only [dataProcessing_write hcmp, dataResult, hcmp, writeResult, h20, if_true,
      Bool.false_eq_true, if_false]
    by_cases hrd : bits insn 12 4 = 15
    · exact .inr (by simp only [hrd, if_true]; rfl)
    · left
      simp only [hrd, if_false, Cpu.setReg_cpsr]
      rw [bit_setCarry _ _ (by decide), bit_setCarry _ _ (by decide), bit_updateFlagsNz _ _ (by decide),
        bit_updateFlagsNz _ _ (by decide)]
      exact ⟨rfl, rfl⟩

/-! ## Probes -/

/-- A memory that holds one word everywhere. -/
def romBus (insn : Word) : Bus Unit where
  read8 _ s := (0, s)
  read16 _ s := (0, s)
  read32 _ s := (insn, s)
  write8 _ _ s := s
  write16 _ _ s := s
  write32 _ _ s := s

/-- A machine with the flags `f`, their complement in the SPSR, `x` in `r8`, and 0 in the
    other registers behind the fetch. -/
def probe (f : BitVec 4) (x : Word) : Machine Unit where
  cpu := {
    regs := fun r => if r = 15 then -4 else if r = 8 then x else 0
    cpsr := f ++ 0#28
    spsr := ~~~(f ++ 0#28)
    lrSvc := 0
    lrIrq := 0
    lrAbt := 0
    lrUnd := 0
    lrFiq := 0
    cp15 := fun _ => 0
    halted := false
    cycleCount := 0 }
  mem := ()

theorem bit_probe (f : BitVec 4) (x : Word) (i : ℕ) : bit (probe f x).cpu.cpsr (28 + i) = f.getLsbD i := by
  change (f ++ 0#28).getLsbD (28 + i) = f.getLsbD i
  rw [BitVec.getLsbD_append]
  simp

theorem probe_regs (f : BitVec 4) (x insn : Word) :
    ((probe f x).advanced (romBus insn)).cpu.regs = fun r => if r = 8 then x else 0 := by
  funext r
  by_cases hr : r = 15
  · subst hr
    rw [advanced_regs_pc, if_neg (by decide)]
    change (-4 + 8 - 4 : Word) = 0
    decide
  · rw [advanced_regs_of_ne _ hr]
    exact if_neg hr

/-- The condition of an instruction on flags. -/
def condHolds (cond f : BitVec 4) : Bool := (probe f 0).cpu.conditionMet cond

/-- Whatever N and Z an instruction sets, as a function of the carry, there are flags on
    which its condition holds and that it changes. -/
theorem exists_flags : ∀ (cond : BitVec 4) (n₀ z₀ n₁ z₁ : Bool), ∃ f : BitVec 4,
    (0xE ≤ cond.toNat || condHolds cond f) = true ∧
      (f.getLsbD 3, f.getLsbD 2) ≠ if f.getLsbD 1 then (n₁, z₁) else (n₀, z₀) := by
  decide +kernel

theorem executes_probe {insn : Word} {f : BitVec 4} (x : Word)
    (h : (0xE ≤ (bits insn 28 4).toNat || condHolds (bits insn 28 4) f) = true) :
    Executes (romBus insn) (probe f x) insn := ⟨rfl, rfl, h⟩

theorem step_probe {insn : Word} {f : BitVec 4} {x : Word} (hop : bits insn 25 3 = 0 ∨ bits insn 25 3 = 1)
    (h : Executes (romBus insn) (probe f x) insn) :
    (cpuStep (romBus insn) (probe f x)).2.cpu =
      executeData (probe f x).fetchAddress insn ((probe f x).advanced (romBus insn)).cpu := by
  rw [h.step, execute_data _ _ _ hop]

theorem flags_ne {cpu cpu' : Cpu} (h : (bit cpu.cpsr 31, bit cpu.cpsr 30) ≠ (bit cpu'.cpsr 31, bit cpu'.cpsr 30)) :
    cpu'.flags ≠ cpu.flags := by
  intro he
  have h31 : bit cpu'.cpsr 31 = bit cpu.cpsr 31 := (bit_of_bits he (j := 3) (by decide)).trans
    (bit_of_bits (v := cpu.flags) rfl (j := 3) (by decide)).symm
  have h30 : bit cpu'.cpsr 30 = bit cpu.cpsr 30 := (bit_of_bits he (j := 2) (by decide)).trans
    (bit_of_bits (v := cpu.flags) rfl (j := 2) (by decide)).symm
  exact h (by rw [h31, h30])

/-- A word that falls through changes the flags of some machine. -/
theorem fallsThrough_changes {insn : Word} (h : fallsThrough insn) :
    ∃ f, Executes (romBus insn) (probe f 0) insn ∧
      (cpuStep (romBus insn) (probe f 0)).2.cpu.flags ≠ (probe f 0).cpu.flags := by
  have hop := ((fallsThrough_iff insn).1 h).1
  have hcarry : ∀ g : BitVec 4, ((probe g 0).advanced (romBus insn)).cpu.carry = g.getLsbD 1 :=
    fun g => bit_probe g 0 1
  have hresult : ∀ f g : BitVec 4, f.getLsbD 1 = g.getLsbD 1 →
      dataResult insn ((probe f 0).advanced (romBus insn)).cpu =
        dataResult insn ((probe g 0).advanced (romBus insn)).cpu := by
    intro f g hfg
    exact dataResult_congr (by rw [probe_regs, probe_regs]) (by rw [hcarry, hcarry, hfg]) insn
  -- the result depends on the carry only, which is clear in the flags 0 and set in the flags 2
  obtain ⟨r₀, hr₀⟩ : ∃ r, dataResult insn ((probe 0 0).advanced (romBus insn)).cpu = r := ⟨_, rfl⟩
  obtain ⟨r₁, hr₁⟩ : ∃ r, dataResult insn ((probe 2 0).advanced (romBus insn)).cpu = r := ⟨_, rfl⟩
  obtain ⟨f, hpass, hne⟩ := exists_flags (bits insn 28 4) r₀.msb (decide (r₀ = 0))
    r₁.msb (decide (r₁ = 0))
  have hexec := executes_probe 0 hpass
  refine ⟨f, hexec, ?_⟩
  rw [step_probe hop hexec]
  rcases fallsThrough_nz h (probe f 0).fetchAddress ((probe f 0).advanced (romBus insn)).cpu with
    ⟨hn, hz⟩ | hspsr
  · apply flags_ne
    rw [hn, hz, show bit (probe f 0).cpu.cpsr 31 = f.getLsbD 3 from bit_probe f 0 3,
      show bit (probe f 0).cpu.cpsr 30 = f.getLsbD 2 from bit_probe f 0 2]
    cases hc : f.getLsbD 1 with
    | false =>
      rw [hresult f 0 hc, hr₀]
      rw [hc] at hne
      exact hne
    | true =>
      rw [hresult f 2 hc, hr₁]
      rw [hc] at hne
      exact hne
  · apply flags_ne
    rw [hspsr]
    have h31 : bit (~~~(probe f 0).cpu.cpsr) 31 = !bit (probe f 0).cpu.cpsr 31 := bit_not _ (by decide)
    intro he
    have := congrArg Prod.fst he
    change bit (probe f 0).cpu.cpsr 31 = bit (~~~(probe f 0).cpu.cpsr) 31 at this
    rw [h31] at this
    simp at this

/-! ## `MRS` and `MSR` -/

/-- `MRS Rd, CPSR` is taken by its pattern under the condition `EQ`, and falls through
    under any other. -/
theorem isMrsCpsr_cases {insn : Word} (h : isMrsCpsr insn) :
    (bits insn 25 3 = 0 ∨ bits insn 25 3 = 1) ∧ ¬ setsFlags insn ∧ ¬ isMsr insn ∧
      ((∀ pc cpu, executeData pc insn cpu = cpu.setReg (bits insn 12 4) cpu.cpsr) ∨ fallsThrough insn) := by
  simp only [isMrsCpsr, Bool.and_eq_true, decide_eq_true_eq] at h
  obtain ⟨-, h⟩ := h
  have hop : bits insn 25 3 = 0 := bits_of_mask h (by decide)
  have h4 : bit insn 4 = false := bit_of_mask h (by decide)
  have h20 : bit insn 20 = false := bit_of_mask h (by decide)
  have h21 : bit insn 21 = false := bit_of_mask h (by decide)
  have hcmp : isCompare (bits insn 21 4) := by
    rw [show bits insn 21 4 = 8 from bits_of_mask h (by decide)]
    decide
  refine ⟨.inl hop, by simp [setsFlags, h20], ?_, ?_⟩
  · simp only [isMsr, Bool.and_eq_true, Bool.or_eq_true, decide_eq_true_eq, not_and, not_or]
    refine fun _ => ⟨fun h' => ?_, fun h' => ?_⟩
    · rw [bit_of_mask h' (i := 21) (by decide)] at h21
      exact absurd h21 (by decide)
    · rw [bit_of_mask h' (i := 21) (by decide)] at h21
      exact absurd h21 (by decide)
  · by_cases hmisc : isMisc insn
    · left
      intro pc cpu
      have h74 : bits7to4 insn = 0 := bits_of_mask h (by decide)
      have h22 : bit insn 22 = false := bit_of_mask h (by decide)
      have hmul : ¬ isMultiply insn := by simp [isMultiply, h74]
      have hlong : ¬ isLongMultiply insn := by simp [isLongMultiply, h74]
      rw [executeData_eq, if_neg hmul, if_neg hlong, if_pos (isMrs_of_isMisc (.inr h4) hmisc), mrs,
        psr, h22]
      rfl
    · exact .inr ((fallsThrough_iff insn).2 ⟨.inl hop, hmisc, .inl hcmp⟩)

/-- `MSR CPSR_f` is executed as a `TEQ` with `r8`. -/
theorem isMsrFlags_fields {insn : Word} (h : isMsrFlagsReg insn ∨ isMsrFlagsImm insn) :
    (bits insn 25 3 = 0 ∨ bits insn 25 3 = 1) ∧ ¬ isMisc insn ∧ bits insn 21 4 = 9 ∧ bits insn 16 4 = 8 := by
  have hmisc : bit insn 25 = true ∨ bit insn 4 = false → bit insn 21 = true → ¬ isMisc insn := by
    intro hform h21 hmisc
    obtain ⟨-, -, -, h⟩ := isMrs_fields (isMrs_of_isMisc hform hmisc)
    rw [h] at h21
    cases h21
  simp only [isMsrFlagsReg, isMsrFlagsImm, Bool.and_eq_true, decide_eq_true_eq] at h
  rcases h with ⟨-, h⟩ | ⟨-, h⟩
  · exact ⟨.inl (bits_of_mask h (by decide)), hmisc (.inr (bit_of_mask h (by decide)))
      (bit_of_mask h (by decide)),
      bits_of_mask h (by decide), bits_of_mask h (by decide)⟩
  · exact ⟨.inr (bits_of_mask h (by decide)), hmisc (.inl (bit_of_mask h (by decide)))
      (bit_of_mask h (by decide)),
      bits_of_mask h (by decide), bits_of_mask h (by decide)⟩

/-- Z behind an `MSR CPSR_f`. -/
theorem isMsrFlags_z {insn : Word} (h : isMsrFlagsReg insn ∨ isMsrFlagsImm insn) (pc : Word) (cpu : Cpu) :
    bit (executeData pc insn cpu).cpsr 30 = decide (cpu.regs 8 ^^^ (operand2 cpu insn).1 = 0) := by
  obtain ⟨-, hmisc, hopcode, hrn⟩ := isMsrFlags_fields h
  have hcmp : isCompare (bits insn 21 4) := by
    rw [hopcode]
    decide
  rw [executeData_of_not_misc hmisc, dataProcessing_compare hcmp, (compare_nz _ cpu _ _ _).2,
    hopcode, hrn]
  rfl

/-- Flags on which the condition of an instruction holds. -/
theorem exists_passing (insn : Word) (x : Word) : ∃ f, Executes (romBus insn) (probe f x) insn := by
  obtain ⟨f, hf, -⟩ := exists_flags (bits insn 28 4) true true true true
  exact ⟨f, executes_probe x hf⟩

theorem not_isMsrFlagsReg {insn : Word} (h : FlagsOnRequest insn) : ¬ isMsrFlagsReg insn := by
  intro hmsr
  obtain ⟨f, hexec⟩ := exists_passing insn 0
  have hz := isMsrFlags_z (.inl hmsr) (probe f 0).fetchAddress ((probe f 0).advanced (romBus insn)).cpu
  rw [← step_probe (isMsrFlags_fields (.inl hmsr)).1 hexec, h.msrReg hmsr _ _ _ hexec] at hz
  have hfields : bit insn 25 = false ∧ bit insn 4 = false ∧ bits insn 5 2 = 0 ∧ bits insn 7 5 = 0 := by
    simp only [isMsrFlagsReg, Bool.and_eq_true, decide_eq_true_eq] at hmsr
    exact ⟨bit_of_mask hmsr.2 (by decide), bit_of_mask hmsr.2 (by decide),
      bits_of_mask hmsr.2 (by decide),
      bits_of_mask hmsr.2 (by decide)⟩
  obtain ⟨h25, h4, h5, h7⟩ := hfields
  have hregs : ∀ r, ((probe f 0).advanced (romBus insn)).cpu.regs r = 0 := by
    intro r
    rw [probe_regs]
    exact ite_self 0
  have hop2 : (operand2 ((probe f 0).advanced (romBus insn)).cpu insn).1 = 0 := by
    simp only [operand2, decodeImmShift, h25, h4, h5, h7, Bool.false_eq_true, if_false]
    exact hregs _
  have hmask : bit 0x00FFFFFF 30 = false := by decide
  rw [hop2, hregs, hregs, bit_or, bit_and, bit_and, hmask, bit_zero, Bool.and_false, Bool.false_and] at hz
  exact absurd hz (by decide)

theorem not_isMsrFlagsImm {insn : Word} (h : FlagsOnRequest insn) : ¬ isMsrFlagsImm insn := by
  intro hmsr
  have h25 : bit insn 25 = true := by
    simp only [isMsrFlagsImm, Bool.and_eq_true, decide_eq_true_eq] at hmsr
    exact bit_of_mask hmsr.2 (by decide)
  obtain ⟨imm, himm⟩ : ∃ imm, (decodeImm insn false).1 = imm := ⟨_, rfl⟩
  -- `r8` is such that Z is not bit 30 of the immediate
  obtain ⟨x, hx⟩ : ∃ x, x = if bit imm 30 then imm ^^^ 1 else imm := ⟨_, rfl⟩
  obtain ⟨f, hexec⟩ := exists_passing insn x
  have hz := isMsrFlags_z (.inr hmsr) (probe f x).fetchAddress ((probe f x).advanced (romBus insn)).cpu
  rw [← step_probe (isMsrFlags_fields (.inr hmsr)).1 hexec, h.msrImm hmsr _ _ _ hexec, himm] at hz
  have hop2 : ∀ cpu : Cpu, (operand2 cpu insn).1 = imm := by
    intro cpu
    rw [operand2, if_pos h25, ← himm]
    simp only [decodeImm]
    split_ifs <;> rfl
  have hmask : bit 0x00FFFFFF 30 = false ∧ bit 0xFF000000 30 = true := by decide
  rw [hop2, probe_regs, bit_or, bit_and, bit_and, hmask.1, hmask.2, Bool.and_false, Bool.false_or,
    Bool.and_true] at hz
  change bit imm 30 = decide (x ^^^ imm = 0) at hz
  cases h30 : bit imm 30 with
  | false =>
    rw [h30, if_neg Bool.false_ne_true] at hx
    rw [h30, hx, BitVec.xor_self] at hz
    exact absurd hz (by decide)
  | true =>
    rw [h30, if_pos rfl] at hx
    rw [h30, hx, BitVec.xor_comm imm, BitVec.xor_assoc, BitVec.xor_self] at hz
    exact absurd hz (by decide)

/-- **Flags change only on request** on exactly the words that are no `MSR CPSR_f`, and
    that do not fall through unless their S bit is set or they are an `MSR`. -/
theorem flags_on_request_iff (insn : Word) :
    FlagsOnRequest insn ↔ ¬ isMsrFlagsReg insn ∧ ¬ isMsrFlagsImm insn ∧
      (¬ setsFlags insn → ¬ isMsr insn → ¬ fallsThrough insn) := by
  constructor
  · intro h
    refine ⟨not_isMsrFlagsReg h, not_isMsrFlagsImm h, ?_⟩
    intro hs hmsr hfall
    obtain ⟨f, hexec, hne⟩ := fallsThrough_changes hfall
    exact hne (h.keeps hs hmsr _ _ _ hexec)
  · rintro ⟨hreg, himm, hfall⟩
    refine ⟨?_, ?_, fun h => absurd h hreg, fun h => absurd h himm⟩
    · intro hs hmsr σ bus m hexec
      rw [hexec.step, Cpu.flags, Cpu.flags]
      by_cases hop : bits insn 25 3 = 0 ∨ bits insn 25 3 = 1
      · rw [execute_data bus _ _ hop, executeData_cpsr hop hs (hfall hs hmsr)]
        rfl
      · rw [execute_cpsr bus hop]
        rfl
    · intro hmrs σ bus m hexec
      obtain ⟨hop, hs, hmsr, hdata | hfalls⟩ := isMrsCpsr_cases hmrs
      · rw [hexec.step, execute_data bus _ _ hop, hdata, Cpu.setReg_regs_self]
        rfl
      · exact absurd hfalls (hfall hs hmsr)

/-- A machine about to run `mrs r0, cpsr`. -/
def mrsMachine : Machine Board := startMachine [0xE10F0000] fun _ => 0

/-- `mrs r0, cpsr` sets Z, and `r0` stays 0. -/
theorem mrs_changes_flags :
    isMrsCpsr 0xE10F0000 ∧ ¬ setsFlags 0xE10F0000 ∧ ¬ isMsr 0xE10F0000 ∧ Executes Board.bus mrsMachine 0xE10F0000 ∧
      (cpuStep Board.bus mrsMachine).2.cpu.flags ≠ mrsMachine.cpu.flags ∧
      (cpuStep Board.bus mrsMachine).2.cpu.regs 0 ≠ mrsMachine.cpu.cpsr :=
  ⟨by decide, by decide, by decide, ⟨rfl, by decide +kernel, by decide⟩, by decide +kernel, by decide +kernel⟩

end PocketDarwin.Simu
