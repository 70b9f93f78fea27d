/-
  The CPU of `Tools/msm8simu/cpu.c`: registers, operands and `cpu_step`.

  The registers are a function on the four-bit register numbers of an
  instruction, and a flag of the barrel shifter is a `Bool`.  The memory callbacks
  are a `Bus` over a state of any type; a read may change that state, as a read of
  a UART does.  What is only printed (the trace, and the message of an undefined
  instruction) is left out.  `cpu_step` returns the number of cycles.
-/
import Mathlib.Logic.Function.Basic
import PocketDarwin.Simu.Platform

namespace PocketDarwin.Simu

/-- The number of a register. -/
abbrev Reg := BitVec 4

/-- `(insn >> lo) & (2^len - 1)` -/
def bits (insn : Word) (lo len : ℕ) : BitVec len := insn.extractLsb' lo len

/-- `(insn >> i) & 1` -/
def bit (insn : Word) (i : ℕ) : Bool := insn.getLsbD i

/-! ## The state -/

/-- `arm_cpu_t`, without the callbacks, the trace, and the banked registers that no
    instruction reaches: only the link register is accessed through its bank. -/
structure Cpu where
  regs : Reg → Word
  cpsr : Word
  spsr : Word
  lrSvc : Word
  lrIrq : Word
  lrAbt : Word
  lrUnd : Word
  lrFiq : Word
  cp15 : BitVec 5 → Word
  halted : Bool
  cycleCount : BitVec 64

/-- The memory callbacks. -/
structure Bus (σ : Type) where
  read8 : Word → σ → Byte × σ
  read16 : Word → σ → Half × σ
  read32 : Word → σ → Word × σ
  write8 : Word → Byte → σ → σ
  write16 : Word → Half → σ → σ
  write32 : Word → Word → σ → σ

/-- A CPU with its memory. -/
structure Machine (σ : Type) where
  cpu : Cpu
  mem : σ

namespace Cpu

/-- `cpu->regs[r] = val` -/
def setReg (cpu : Cpu) (r : Reg) (val : Word) : Cpu := { cpu with regs := Function.update cpu.regs r val }

/-! ## Flags -/

/-- `(cpu->cpsr >> 29) & 1` -/
def carry (cpu : Cpu) : Bool := bit cpu.cpsr 29

/-- `cpu_update_flags_nz` -/
def updateFlagsNz (cpu : Cpu) (result : Word) : Cpu :=
  { cpu with cpsr := (cpu.cpsr &&& ~~~(0x80000000 ||| 0x40000000)) |||
      (if result &&& 0x80000000 ≠ 0 then 0x80000000 else 0) ||| (if result = 0 then 0x40000000 else 0) }

/-- `cpu_set_carry` -/
def setCarry (cpu : Cpu) (carry : Bool) : Cpu :=
  { cpu with cpsr := (cpu.cpsr &&& ~~~0x20000000) ||| (if carry then 0x20000000 else 0) }

/-- `cpu_set_overflow` -/
def setOverflow (cpu : Cpu) (overflow : Bool) : Cpu :=
  { cpu with cpsr := (cpu.cpsr &&& ~~~0x10000000) ||| (if overflow then 0x10000000 else 0) }

/-- `cpu_condition_met` -/
def conditionMet (cpu : Cpu) (cond : BitVec 4) : Bool :=
  let n := bit cpu.cpsr 31
  let z := bit cpu.cpsr 30
  let c := bit cpu.cpsr 29
  let v := bit cpu.cpsr 28
  match cond.toNat with
  | 0x0 => z
  | 0x1 => !z
  | 0x2 => c
  | 0x3 => !c
  | 0x4 => n
  | 0x5 => !n
  | 0x6 => v
  | 0x7 => !v
  | 0x8 => c && !z
  | 0x9 => !c || z
  | 0xA => n == v
  | 0xB => n != v
  | 0xC => !z && n == v
  | 0xD => z || n != v
  | 0xE => true
  | _ => false

/-! ## Banked registers -/

/-- `cpu->cpsr & CPSR_MODE_MASK` -/
def mode (cpu : Cpu) : Word := cpu.cpsr &&& 0x1F

/-- `cpu_get_lr`, which is `cpu_get_reg_banked` at the link register. -/
def getLr (cpu : Cpu) : Word :=
  if cpu.mode = 0x12 then cpu.lrIrq
  else if cpu.mode = 0x13 then cpu.lrSvc
  else if cpu.mode = 0x17 then cpu.lrAbt
  else if cpu.mode = 0x1B then cpu.lrUnd
  else if cpu.mode = 0x11 then cpu.lrFiq
  else cpu.regs 14

/-- `cpu_set_lr`, which is `cpu_set_reg_banked` at the link register. -/
def setLr (cpu : Cpu) (val : Word) : Cpu :=
  if cpu.mode = 0x12 then { cpu with lrIrq := val }
  else if cpu.mode = 0x13 then { cpu with lrSvc := val }
  else if cpu.mode = 0x17 then { cpu with lrAbt := val }
  else if cpu.mode = 0x1B then { cpu with lrUnd := val }
  else if cpu.mode = 0x11 then { cpu with lrFiq := val }
  else cpu.setReg 14 val

end Cpu

/-! ## Operands -/

/-- `barrel_shift`: the result and the carry. -/
def barrelShift (cpu : Cpu) (val : Word) (type : BitVec 2) (amount : ℕ) : Word × Bool :=
  let oldC := cpu.carry
  if amount = 0 ∧ type ≠ 3 then (val, oldC)
  else if type = 0 then
    -- LSL
    if amount < 32 then (val <<< amount, bit val (32 - amount))
    else if amount = 32 then (0, bit val 0)
    else (0, false)
  else if type = 1 then
    -- LSR
    if amount < 32 then (val >>> amount, bit val (amount - 1))
    else if amount = 32 then (0, bit val 31)
    else (0, false)
  else if type = 2 then
    -- ASR
    if amount < 32 then (val.sshiftRight amount, bit val (amount - 1))
    else (val.sshiftRight 31, bit val 31)
  else if amount = 0 then
    -- RRX
    ((if oldC then 0x80000000 else 0) ||| val >>> 1, bit val 0)
  else
    -- ROR
    let amount := amount % 32
    if amount = 0 then (val, oldC)
    else
      let result := val >>> amount ||| val <<< (32 - amount)
      (result, bit result 31)

/-- `decode_imm`, which leaves the carry where there is no rotation. -/
def decodeImm (insn : Word) (carry : Bool) : Word × Bool :=
  let imm8 := insn &&& 0xFF
  let rot := (bits insn 8 4).toNat * 2
  if rot = 0 then (imm8, carry)
  else
    let result := imm8 >>> rot ||| imm8 <<< (32 - rot)
    (result, bit result 31)

/-- `decode_reg_shift` -/
def decodeRegShift (cpu : Cpu) (insn : Word) : Word × Bool :=
  let rm := cpu.regs (bits insn 0 4)
  let shiftType := bits insn 5 2
  let amount := (cpu.regs (bits insn 8 4) &&& 0xFF).toNat
  if amount = 0 then (rm, cpu.carry)
  else if amount < 32 then barrelShift cpu rm shiftType amount
  else if amount = 32 then
    if shiftType = 0 then (0, bit rm 0)
    else if shiftType = 1 then (0, bit rm 31)
    else if shiftType = 2 then (rm.sshiftRight 31, bit rm 31)
    else barrelShift cpu rm shiftType (amount % 32)
  else (0, false)

/-- `decode_imm_shift` -/
def decodeImmShift (cpu : Cpu) (insn : Word) : Word × Bool :=
  let rm := cpu.regs (bits insn 0 4)
  let shiftType := bits insn 5 2
  let shiftAmount := (bits insn 7 5).toNat
  if shiftAmount = 0 ∧ shiftType = 0 then (rm, cpu.carry)
  else barrelShift cpu rm shiftType shiftAmount

/-- The shifter operand of a data processing instruction, with its carry. -/
def operand2 (cpu : Cpu) (insn : Word) : Word × Bool :=
  if bit insn 25 then decodeImm insn cpu.carry
  else if bit insn 4 then decodeRegShift cpu insn
  else decodeImmShift cpu insn

/-! ## Data processing -/

/-- The variables `result`, `carry` and `overflow` of the opcode switch. -/
structure Alu where
  result : Word
  carry : Bool
  overflow : Bool

/-- `((a ^ b) & (a ^ result)) >> 31` -/
def subOverflow (a b result : Word) : Bool := ((a ^^^ b) &&& (a ^^^ result)) >>> 31 ≠ 0

/-- `~((a ^ b) & 0x80000000) & ((a ^ result) & 0x80000000)` -/
def addOverflow (a b result : Word) : Bool :=
  ~~~((a ^^^ b) &&& 0x80000000) &&& ((a ^^^ result) &&& 0x80000000) ≠ 0

/-- `a - b`, with the carry and the overflow of `SUB`. -/
def aluSub (a b : Word) : Alu :=
  let result := a - b
  ⟨result, b ≤ a, subOverflow a b result⟩

/-- `a + b`, with the carry and the overflow of `ADD`. -/
def aluAdd (a b : Word) : Alu :=
  let result := a + b
  ⟨result, a.toNat + b.toNat > 0xFFFFFFFF, addOverflow a b result⟩

/-- `a - b - (1 - oc)`, in 64 bits -/
def aluSbc (a b : Word) (oc : Bool) : Alu :=
  let borrow : BitVec 64 := if oc then 0 else 1
  let r64 := a.setWidth 64 - b.setWidth 64 - borrow
  let result := r64.setWidth 32
  ⟨result, b.setWidth 64 + borrow ≤ a.setWidth 64, subOverflow a b result⟩

/-- `a + b + oc`, in 64 bits -/
def aluAdc (a b : Word) (oc : Bool) : Alu :=
  let r64 := a.setWidth 64 + b.setWidth 64 + (if oc then 1 else 0)
  let result := r64.setWidth 32
  ⟨result, r64.toNat > 0xFFFFFFFF, addOverflow a b result⟩

/-- The opcode switch, where it does not return. -/
def alu (opcode : BitVec 4) (cpu : Cpu) (rnVal op2 : Word) : Alu :=
  let logical (result : Word) : Alu := ⟨result, cpu.carry, bit cpu.cpsr 28⟩
  match opcode.toNat with
  | 0x0 => logical (rnVal &&& op2)
  | 0x1 => logical (rnVal ^^^ op2)
  | 0x2 => aluSub rnVal op2
  | 0x3 => aluSub op2 rnVal
  | 0x4 => aluAdd rnVal op2
  | 0x5 => aluAdc rnVal op2 cpu.carry
  | 0x6 => aluSbc rnVal op2 cpu.carry
  | 0x7 => aluSbc op2 rnVal cpu.carry
  | 0xC => logical (rnVal ||| op2)
  | 0xD => logical op2
  | 0xE => logical (rnVal &&& ~~~op2)
  | 0xF => logical (~~~op2)
  | _ => logical 0

/-- The opcodes of `TST`, `TEQ`, `CMP` and `CMN`, for which the switch returns. -/
def isCompare (opcode : BitVec 4) : Bool := 8 ≤ opcode.toNat && opcode.toNat ≤ 11

/-- `TST`, `TEQ`, `CMP` and `CMN`. -/
def compare (opcode : BitVec 4) (cpu : Cpu) (rnVal op2 : Word) (shifterCarry : Bool) : Cpu :=
  match opcode.toNat with
  | 0x8 => (cpu.updateFlagsNz (rnVal &&& op2)).setCarry shifterCarry
  | 0x9 => (cpu.updateFlagsNz (rnVal ^^^ op2)).setCarry shifterCarry
  | 0xA =>
    let result := rnVal - op2
    let overflow : Bool := ((rnVal ^^^ result) &&& (op2 ^^^ result)) >>> 31 ≠ 0
    ((cpu.updateFlagsNz result).setCarry (op2 ≤ rnVal)).setOverflow overflow
  | _ =>
    let r := aluAdd rnVal op2
    ((cpu.updateFlagsNz r.result).setCarry r.carry).setOverflow r.overflow

/-- The end of data processing: the flags of an instruction with the S bit, and the
    destination. -/
def writeResult (insn : Word) (cpu : Cpu) (result : Word) (shifterCarry : Bool) : Cpu :=
  let rd := bits insn 12 4
  let cpu :=
    if bit insn 20 then
      if rd = 15 then { cpu with cpsr := cpu.spsr } else (cpu.updateFlagsNz result).setCarry shifterCarry
    else cpu
  let cpu := cpu.setReg rd result
  if rd = 15 then cpu.setReg 15 (result - 8) else cpu

/-- Data processing. -/
def dataProcessing (insn : Word) (cpu : Cpu) : Cpu :=
  let opcode := bits insn 21 4
  let rnVal := cpu.regs (bits insn 16 4)
  let (op2, shifterCarry) := operand2 cpu insn
  if isCompare opcode then compare opcode cpu rnVal op2 shifterCarry
  else writeResult insn cpu (alu opcode cpu rnVal op2).result shifterCarry

/-! ## The other patterns of the data processing space -/

/-- `bits7_4` -/
def bits7to4 (insn : Word) : BitVec 4 := bits insn 4 4

def isMultiply (insn : Word) : Bool :=
  bits insn 25 3 = 0 && bits7to4 insn = 0x9 && insn &&& 0x0FC00000 = 0

def isLongMultiply (insn : Word) : Bool :=
  bits insn 25 3 = 0 && bits7to4 insn = 0x9 && insn &&& 0x0F800000 = 0x00800000

def isMrs (insn : Word) : Bool := !bit insn 25 && insn &&& 0xF1FF0000 = 0x010F0000

def isMsrReg (insn : Word) : Bool := !bit insn 25 && insn &&& 0xF1FF0FF0 = 0x0129F000

def isMsrImm (insn : Word) : Bool := bit insn 25 && insn &&& 0xF1FF0FF0 = 0x0329F000

def isBx (insn : Word) : Bool := !bit insn 25 && bits7to4 insn = 0x1 && bits insn 12 4 = 0xF

def isBlx (insn : Word) : Bool := !bit insn 25 && bits7to4 insn = 0x3 && bits insn 12 4 = 0xF

def isClz (insn : Word) : Bool := !bit insn 25 && bits7to4 insn = 0x1 && bits insn 16 4 = 0x1

/-- The result of `MUL` and `MLA`. -/
def product (insn : Word) (cpu : Cpu) : Word :=
  let result := cpu.regs (bits insn 0 4) * cpu.regs (bits insn 8 4)
  if bit insn 21 then result + cpu.regs (bits insn 12 4) else result

def multiply (insn : Word) (cpu : Cpu) : Cpu :=
  let result := product insn cpu
  let cpu := cpu.setReg (bits insn 16 4) result
  if bit insn 20 then cpu.updateFlagsNz result else cpu

/-- The 64 bits of a long multiplication. -/
def longProduct (insn : Word) (cpu : Cpu) : BitVec 64 :=
  let rdHi := cpu.regs (bits insn 16 4)
  let rdLo := cpu.regs (bits insn 12 4)
  let rs := cpu.regs (bits insn 8 4)
  let rm := cpu.regs (bits insn 0 4)
  let res : BitVec 64 :=
    if bit insn 22 then rm.setWidth 64 * rs.setWidth 64 else rm.signExtend 64 * rs.signExtend 64
  if bit insn 21 then res + (rdHi.setWidth 64 <<< 32 ||| rdLo.setWidth 64) else res

def longMultiply (insn : Word) (cpu : Cpu) : Cpu :=
  let rdHi := bits insn 16 4
  let rdLo := bits insn 12 4
  let res := longProduct insn cpu
  let cpu := (cpu.setReg rdLo (res.setWidth 32)).setReg rdHi ((res >>> 32).setWidth 32)
  if bit insn 20 then cpu.updateFlagsNz (cpu.regs rdHi) else cpu

/-- `spsr ? cpu->spsr : cpu->cpsr` -/
def psr (insn : Word) (cpu : Cpu) : Word := if bit insn 22 then cpu.spsr else cpu.cpsr

def mrs (insn : Word) (cpu : Cpu) : Cpu := cpu.setReg (bits insn 12 4) (psr insn cpu)

/-- The mask of the fields of an `MSR`. -/
def msrMask (insn : Word) : Word :=
  let field := bits insn 16 8
  (if field &&& 0x80 ≠ 0 then 0xFF000000 else 0) ||| (if field &&& 0x40 ≠ 0 then 0x00FF0000 else 0) |||
    (if field &&& 0x20 ≠ 0 then 0x0000FF00 else 0) ||| (if field &&& 0x10 ≠ 0 then 0x000000FF else 0)

def msr (insn : Word) (cpu : Cpu) (val : Word) : Cpu :=
  let mask := msrMask insn
  if bit insn 22 then { cpu with spsr := (cpu.spsr &&& ~~~mask) ||| (val &&& mask) }
  else { cpu with cpsr := (cpu.cpsr &&& ~~~mask) ||| (val &&& mask) }

/-- `if (addr & 1) addr &= ~1` -/
def clearBit0 (addr : Word) : Word := if addr &&& 1 ≠ 0 then addr &&& ~~~1 else addr

/-- The loop of `CLZ`, which ends within 32 rounds unless `val` is 0. -/
def clzLoop : ℕ → Word → Word
  | 0, _ => 0
  | rounds + 1, val => if val &&& 0x80000000 = 0 then 1 + clzLoop rounds (val <<< 1) else 0

def clz (val : Word) : Word := if val = 0 then 32 else clzLoop 32 val

/-- Data processing, PSR transfer and multiply (`op0` 0 and 1). -/
def executeData (pc insn : Word) (cpu : Cpu) : Cpu :=
  if isMultiply insn then multiply insn cpu
  else if isLongMultiply insn then longMultiply insn cpu
  else if isMrs insn then mrs insn cpu
  else if isMsrReg insn then msr insn cpu (cpu.regs (bits insn 0 4))
  else if isMsrImm insn then msr insn cpu (decodeImm insn false).1
  else if isBx insn then cpu.setReg 15 (clearBit0 (cpu.regs (bits insn 0 4)) - 8)
  else if isBlx insn then
    let addr := cpu.regs (bits insn 0 4)
    (cpu.setLr (pc + 4)).setReg 15 (clearBit0 addr - 8)
  else if isClz insn then cpu.setReg (bits insn 12 4) (clz (cpu.regs (bits insn 0 4)))
  else dataProcessing insn cpu

/-! ## Loads and stores -/

section
variable {σ : Type} (bus : Bus σ)

/-- The address of a transfer, and the base register behind it. -/
def indexed (insn : Word) (cpu : Cpu) (rnVal offset : Word) : Word × Cpu :=
  let rn := bits insn 16 4
  let moved := if bit insn 23 then rnVal + offset else rnVal - offset
  if bit insn 24 then (moved, if bit insn 21 then cpu.setReg rn moved else cpu)
  else (rnVal, cpu.setReg rn moved)

/-- What a store takes from its register: `rd == 15 ? regs[rd] + 12 : regs[rd]` -/
def storeVal (cpu : Cpu) (rd : Reg) : Word := if rd = 15 then cpu.regs rd + 12 else cpu.regs rd

/-- The half-word and signed loads. -/
def loadHalf (insn addr : Word) (mem : σ) : Word × σ :=
  if bits7to4 insn = 0xB then
    let (val, mem) := bus.read16 addr mem
    (val.setWidth 32, mem)
  else if bits7to4 insn = 0xD then
    let (val, mem) := bus.read16 addr mem
    (val.signExtend 32, mem)
  else if bits7to4 insn = 0xF then
    let (val, mem) := bus.read8 addr mem
    (val.signExtend 32, mem)
  else
    let (val, mem) := bus.read8 addr mem
    (val.setWidth 32, mem)

/-- The offset of a half-word or signed transfer. -/
def halfOffset (insn : Word) : Word := (insn >>> 4 &&& 0xF0) ||| (insn &&& 0xF)

/-- Half-word and signed transfers. -/
def halfTransfer (insn : Word) (m : Machine σ) : Machine σ :=
  let rd := bits insn 12 4
  let (addr, cpu) := indexed insn m.cpu (m.cpu.regs (bits insn 16 4)) (halfOffset insn)
  if bit insn 20 then
    let (val, mem) := loadHalf bus insn addr m.mem
    ⟨cpu.setReg rd val, mem⟩
  else ⟨cpu, bus.write16 addr ((storeVal cpu rd).setWidth 16) m.mem⟩

/-- What `SWP` reads. -/
def swapVal (insn : Word) (m : Machine σ) : Word × σ :=
  let rnVal := m.cpu.regs (bits insn 16 4)
  if bit insn 22 then
    let (val, mem) := bus.read8 rnVal m.mem
    (val.setWidth 32, mem)
  else bus.read32 rnVal m.mem

/-- `SWP` -/
def swap (insn : Word) (m : Machine σ) : Machine σ :=
  let rnVal := m.cpu.regs (bits insn 16 4)
  let rmVal := m.cpu.regs (bits insn 0 4)
  let (val, mem) := swapVal bus insn m
  let mem := if bit insn 22 then bus.write8 rnVal (rmVal.setWidth 8) mem else bus.write32 rnVal rmVal mem
  ⟨m.cpu.setReg (bits insn 12 4) val, mem⟩

/-- A word loaded from an address that may not be aligned. -/
def rotated (addr val : Word) : Word :=
  let rot := (addr &&& 3).toNat * 8
  if rot ≠ 0 then val >>> rot ||| val <<< (32 - rot) else val

/-- The loads of words and bytes. -/
def loadWord (insn addr : Word) (mem : σ) : Word × σ :=
  if bit insn 22 then
    let (val, mem) := bus.read8 addr mem
    (val.setWidth 32, mem)
  else
    let (val, mem) := bus.read32 (addr &&& ~~~3) mem
    (rotated addr val, mem)

/-- Word and byte transfers. -/
def wordTransfer (insn offset : Word) (m : Machine σ) : Machine σ :=
  let rd := bits insn 12 4
  let (addr, cpu) := indexed insn m.cpu (m.cpu.regs (bits insn 16 4)) offset
  if bit insn 20 then
    let (val, mem) := loadWord bus insn addr m.mem
    ⟨cpu.setReg rd val, mem⟩
  else
    let val := storeVal cpu rd
    if bit insn 22 then ⟨cpu, bus.write8 addr (val.setWidth 8) m.mem⟩
    else ⟨cpu, bus.write32 (addr &&& ~~~3) val m.mem⟩

/-- The words of `bits7_4` that are taken for half-word and signed transfers. -/
def isHalf (insn : Word) : Bool :=
  bits7to4 insn = 0xB || bits7to4 insn = 0xD || bits7to4 insn = 0xF || bits7to4 insn = 0xE

/-- The offset of a word or byte transfer. -/
def wordOffset (insn : Word) (cpu : Cpu) : Word :=
  if bits insn 25 3 = 2 then insn &&& 0xFFF
  else if bit insn 4 then (decodeRegShift cpu insn).1
  else (decodeImmShift cpu insn).1

/-- Load/store word or byte (`op0` 2 and 3). -/
def executeTransfer (insn : Word) (m : Machine σ) : Machine σ :=
  if bits insn 25 3 = 2 then wordTransfer bus insn (wordOffset insn m.cpu) m
  else if isHalf insn then halfTransfer bus insn m
  else if bits7to4 insn = 0x9 then swap bus insn m
  else wordTransfer bus insn (wordOffset insn m.cpu) m

/-! ## Load/store multiple -/

/-- The registers of a register list, in ascending order. -/
def regList (insn : Word) : List Reg := ((List.range 16).filter fun i => bit insn i).map (BitVec.ofNat 4)

/-- The address of the first word. -/
def multipleBase (insn : Word) (cpu : Cpu) : Word :=
  let rn := cpu.regs (bits insn 16 4)
  let count := BitVec.ofNat 32 (regList insn).length
  let base := if bit insn 23 then rn - count * 4 else rn + count * 4
  let base := if bit insn 24 && bit insn 23 then base + 4 else base
  if bit insn 24 && !bit insn 23 then base - 4 else base

def loadLoop (list : List Reg) (addr : Word) (m : Machine σ) : Machine σ :=
  match list with
  | [] => m
  | r :: list =>
    let (val, mem) := bus.read32 addr m.mem
    loadLoop list (addr + 4) ⟨m.cpu.setReg r val, mem⟩

def storeLoop (list : List Reg) (addr : Word) (m : Machine σ) : Machine σ :=
  match list with
  | [] => m
  | r :: list => storeLoop list (addr + 4) { m with mem := bus.write32 addr (storeVal m.cpu r) m.mem }

/-- The transfers of load/store multiple. -/
def moveMultiple (insn : Word) (m : Machine σ) : Machine σ :=
  let base := multipleBase insn m.cpu
  if bit insn 20 then loadLoop bus (regList insn) base m else storeLoop bus (regList insn) base m

/-- What is written back to the base register. -/
def multipleEnd (insn : Word) (cpu : Cpu) : Word :=
  let base := multipleBase insn cpu
  let count := BitVec.ofNat 32 (regList insn).length
  if bit insn 23 then base + count * 4 else base - count * 4

/-- Load/store multiple (`op0` 4). -/
def executeMultiple (insn : Word) (m : Machine σ) : Machine σ :=
  let moved := moveMultiple bus insn m
  if bit insn 21 then { moved with cpu := moved.cpu.setReg (bits insn 16 4) (multipleEnd insn m.cpu) } else moved

/-! ## Branches, coprocessor and the step -/

/-- The variable `offset` of a branch. -/
def branchOffset (insn : Word) : Word :=
  let offset := (insn &&& 0x00FFFFFF) <<< 2
  let offset := if offset &&& 0x02000000 ≠ 0 then offset ||| 0xFD000000 else offset
  offset - 8

/-- Branch and branch with link (`op0` 5). -/
def executeBranch (pc insn : Word) (cpu : Cpu) : Cpu :=
  let cpu := if bit insn 24 then cpu.setLr (cpu.regs 15 + 8 - 4) else cpu
  cpu.setReg 15 (pc + branchOffset insn - 8)

/-- Coprocessor (`op0` 6 and 7). -/
def executeCoprocessor (insn : Word) (cpu : Cpu) : Cpu :=
  let rd := bits insn 12 4
  if (bits insn 8 4).setWidth 32 = (0x15 : Word) then
    let regIdx := bits insn 16 4 ++ bits insn 0 4
    if regIdx.toNat < 32 then
      if bit insn 20 then cpu.setReg rd (cpu.cp15 (regIdx.setWidth 5))
      else { cpu with cp15 := Function.update cpu.cp15 (regIdx.setWidth 5) (cpu.regs rd) }
    else cpu
  else cpu

/-- The unconditional hints that return at once. -/
def isHint (insn : Word) : Bool :=
  bits insn 28 4 = 0xF && bits insn 25 3 = 2 &&
    (bits insn 20 4 = 0x7 || insn &&& 0xFFFFFFF0 = 0xF57FF010 || insn &&& 0xFFFFFFF0 = 0xF57FF020)

/-- An instruction whose condition holds; `pc` is the address it was fetched from. -/
def execute (pc insn : Word) (m : Machine σ) : Machine σ :=
  let op0 := bits insn 25 3
  if isHint insn then m
  else if op0 = 0 ∨ op0 = 1 then { m with cpu := executeData pc insn m.cpu }
  else if op0 = 2 ∨ op0 = 3 then executeTransfer bus insn m
  else if op0 = 4 then executeMultiple bus insn m
  else if op0 = 5 then { m with cpu := executeBranch pc insn m.cpu }
  else if op0 = 6 ∨ op0 = 7 then { m with cpu := executeCoprocessor insn m.cpu }
  else { m with cpu := { m.cpu with halted := true } }

/-- The address of the next instruction. -/
def Machine.fetchAddress (m : Machine σ) : Word := m.cpu.regs 15 + 8

/-- The instruction at that address. -/
def Machine.fetched (m : Machine σ) : Word := (bus.read32 m.fetchAddress m.mem).1

/-- The machine behind the fetch. -/
def Machine.advanced (m : Machine σ) : Machine σ where
  cpu := { (m.cpu.setReg 15 (m.cpu.regs 15 + 4)) with cycleCount := m.cpu.cycleCount + 1 }
  mem := (bus.read32 m.fetchAddress m.mem).2

/-- `cond < 0xE && !cpu_condition_met(cpu, cond)`, negated. -/
def passes (cpu : Cpu) (insn : Word) : Bool := 0xE ≤ (bits insn 28 4).toNat || cpu.conditionMet (bits insn 28 4)

/-- `cpu_step` -/
def cpuStep (m : Machine σ) : Word × Machine σ :=
  if m.cpu.halted then (0, m)
  else
    let insn := m.fetched bus
    let advanced := m.advanced bus
    if passes advanced.cpu insn then (1, execute bus m.fetchAddress insn advanced) else (1, advanced)

end

end PocketDarwin.Simu
