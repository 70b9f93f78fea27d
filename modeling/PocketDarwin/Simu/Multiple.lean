/-
  Load/store multiple on a stack.

  The base address of `cpu_step` has the sign of the U bit reversed: it goes down by
  the size of the list where the transfer goes up, and the write-back then returns
  to where it started.  What is left in the base register is a correction for the P
  bit, so that a push and the pop that matches it leave the stack pointer 4 off.
-/
import PocketDarwin.Simu.Board
import PocketDarwin.Simu.Decode

namespace PocketDarwin.Simu

/-! ## Pushes and pops -/

/-- The registers of a list, in ascending order. -/
def listed (list : BitVec 16) : List Reg := ((List.range 16).filter fun i => list.getLsbD i).map (BitVec.ofNat 4)

/-- A load (`l`) or store multiple at `r13`, with write-back. -/
structure IsBlock (insn : Word) (l p u : Bool) (list : BitVec 16) : Prop where
  op0 : bits insn 25 3 = 4
  before : bit insn 24 = p
  up : bit insn 23 = u
  user : bit insn 22 = false
  writeBack : bit insn 21 = true
  load : bit insn 20 = l
  base : bits insn 16 4 = 13
  list : bits insn 0 16 = list

/-- The bytes of the words of a list. -/
def blockSize (list : BitVec 16) : Word := 4 * BitVec.ofNat 32 (listed list).length

/-- The stack pointer behind a transfer. -/
def blockEnd (u : Bool) (list : BitVec 16) (sp : Word) : Word := if u then sp + blockSize list else sp - blockSize list

/-- The lowest address of a transfer: behind the stack pointer or from it on, upwards or
    downwards. -/
def blockStart (p u : Bool) (list : BitVec 16) (sp : Word) : Word :=
  match p, u with
  | false, true => sp
  | true, true => sp + 4
  | true, false => sp - blockSize list
  | false, false => sp - blockSize list + 4

/-- The byte that the RAM or a device register holds. -/
def Board.byte (b : Board) (addr : Word) : Byte := if inRam addr then b.1.ramByte addr else b.1.deviceByte addr

/-- The word in memory at `addr`. -/
def Board.word (b : Board) (addr : Word) : Word :=
  Simu.word (b.byte addr) (b.byte (addr + 1)) (b.byte (addr + 2)) (b.byte (addr + 3))

/-- What a push makes of the machine. -/
structure Pushed (p u : Bool) (list : BitVec 16) (m m' : Machine Board) : Prop where
  sp : m'.cpu.regs 13 = blockEnd u list (m.cpu.regs 13)
  words : ∀ i r, (listed list)[i]? = some r →
    m'.mem.word (blockStart p u list (m.cpu.regs 13) + 4 * BitVec.ofNat 32 i) = m.cpu.regs r
  regs : ∀ r, r ≠ 13 → r ≠ 15 → m'.cpu.regs r = m.cpu.regs r
  memory : ∀ addr, blockSize list ≤ addr - blockStart p u list (m.cpu.regs 13) → m'.mem.byte addr = m.mem.byte addr

/-- What a pop makes of the machine `m₁`, for a push in the machine `m`. -/
structure Popped (list : BitVec 16) (m m₁ m₂ : Machine Board) : Prop where
  listed : ∀ r ∈ listed list, m₂.cpu.regs r = m.cpu.regs r
  sp : m₂.cpu.regs 13 = m.cpu.regs 13
  regs : ∀ r, r ∉ Simu.listed list → r ≠ 13 → r ≠ 15 → m₂.cpu.regs r = m₁.cpu.regs r
  memory : ∀ addr, m₂.mem.byte addr = m₁.mem.byte addr

/-! ## The stack pointer -/

section
variable {σ : Type} {bus : Bus σ} {m : Machine σ} {insn : Word} {l p u : Bool} {list : BitVec 16}

/-- What a transfer adds to the stack pointer. -/
def spStep (p u : Bool) : Word := if p then if u then 4 else -4 else 0

/-- The write-back goes to where the transfer started, but for the P bit. -/
theorem IsBlock.multipleEnd_eq (h : IsBlock insn l p u list) (cpu : Cpu) :
    multipleEnd insn cpu = cpu.regs 13 + spStep p u := by
  rw [multipleEnd, multipleBase, h.base, h.before, h.up]
  generalize BitVec.ofNat 32 (regList insn).length * 4 = size
  cases p <;> cases u <;> simp [spStep] <;> bv_omega

theorem IsBlock.step_sp (h : IsBlock insn l p u list) (hexec : Executes bus m insn) :
    (cpuStep bus m).2.cpu.regs 13 = m.cpu.regs 13 + spStep p u := by
  have hsp : (m.advanced bus).cpu.regs 13 = m.cpu.regs 13 := advanced_regs_of_ne bus (by decide)
  rw [hexec.step, execute_multiple bus _ _ h.op0, executeMultiple, if_pos h.writeBack, h.base,
    h.multipleEnd_eq, hsp]
  exact Cpu.setReg_regs_self _ _ _

/-- A push, and later the pop that matches it: up for down, before for after. -/
theorem push_pop_sp {m₁ : Machine σ} {store load : Word} (hstore : IsBlock store false p u list)
    (hload : IsBlock load true (!p) (!u) list) (hexec : Executes bus m store) (hexec₁ : Executes bus m₁ load)
    (hsp : m₁.cpu.regs 13 = (cpuStep bus m).2.cpu.regs 13) :
    (cpuStep bus m₁).2.cpu.regs 13 = m.cpu.regs 13 + if p = u then 4 else -4 := by
  rw [hload.step_sp hexec₁, hsp, hstore.step_sp hexec, BitVec.add_assoc]
  congr 1
  cases p <;> cases u <;> decide

end

/-- **Push and pop**: for no list of registers, no mode and no stack pointer does a push
    with the pop that matches it do what it should.  The stack pointer ends 4 off. -/
theorem push_pop_never {m m₁ : Machine Board} {store load : Word} {p u : Bool} {list : BitVec 16}
    (hstore : IsBlock store false p u list) (hload : IsBlock load true (!p) (!u) list)
    (hexec : Executes Board.bus m store) (hexec₁ : Executes Board.bus m₁ load)
    (hsp : m₁.cpu.regs 13 = (cpuStep Board.bus m).2.cpu.regs 13) :
    ¬ (Pushed p u list m (cpuStep Board.bus m).2 ∧ Popped list m m₁ (cpuStep Board.bus m₁).2) := by
  rintro ⟨-, hpop⟩
  have h := push_pop_sp hstore hload hexec hexec₁ hsp
  rw [hpop.sp] at h
  split_ifs at h
  · bv_omega
  · bv_omega

/-- Machines about to run `stmia r13!, {r0, r1}` and `ldmdb r13!, {r0, r1}`, and
    `stmdb r13!, {r0}` and `ldmia r13!, {r0}`. -/
def ascendingMachine : Machine Board := startMachine [0xE8AD0003, 0xE93D0003] fun _ => 0x80001000

def descendingMachine : Machine Board := startMachine [0xE92D0001, 0xE8BD0001] fun _ => 0x80001000

theorem push_pop_ascending :
    ¬ (Pushed false true 3 ascendingMachine (cpuStep Board.bus ascendingMachine).2 ∧
      Popped 3 ascendingMachine (cpuStep Board.bus ascendingMachine).2
        (cpuStep Board.bus (cpuStep Board.bus ascendingMachine).2).2) := by
  have hstore : IsBlock 0xE8AD0003 false false true 3 :=
    ⟨by decide, by decide, by decide, by decide, by decide, by decide, by decide, by decide⟩
  have hload : IsBlock 0xE93D0003 true true false 3 :=
    ⟨by decide, by decide, by decide, by decide, by decide, by decide, by decide, by decide⟩
  exact push_pop_never hstore hload ⟨rfl, by decide +kernel, by decide⟩
    ⟨by decide +kernel, by decide +kernel, by decide +kernel⟩ rfl

/-- The word goes to where the stack pointer was, and the pop reads 8 below. -/
theorem push_pop_descending :
    Executes Board.bus descendingMachine 0xE92D0001 ∧
      Executes Board.bus (cpuStep Board.bus descendingMachine).2 0xE8BD0001 ∧
      ¬ (Pushed true false 1 descendingMachine (cpuStep Board.bus descendingMachine).2 ∧
        Popped 1 descendingMachine (cpuStep Board.bus descendingMachine).2
          (cpuStep Board.bus (cpuStep Board.bus descendingMachine).2).2) :=
  ⟨⟨rfl, by decide +kernel, by decide⟩, ⟨by decide +kernel, by decide +kernel, by decide +kernel⟩,
    fun h => absurd h.2.sp (by decide +kernel)⟩

end PocketDarwin.Simu
