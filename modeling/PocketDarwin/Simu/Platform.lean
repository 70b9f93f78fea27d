/-
  The platform of `Tools/msm8simu/platform.c`: the RAM and the device windows
  behind the memory callbacks of the simulated CPU.

  The arrays of `msm8916_platform_t` are buffers, so that a read or a write
  outside of an array is `none`; `stdout` is the list of the bytes written to
  it.  `uart_status` and `timer_value` are used by no function and are left out,
  and so is the pointer to the CPU.
-/
import Mathlib.Data.BitVec
import PocketDarwin.Buffer

namespace PocketDarwin.Simu

abbrev Byte := BitVec 8
abbrev Half := BitVec 16
abbrev Word := BitVec 32

/-! ## The memory map -/

def ramBase : Word := 0x80000000
def ramSize : Word := 0x10000000

def gicDistBase : Word := 0xB000000
def gicCpuBase : Word := 0xB002000
def uartBase : Word := 0x78B0000
def uartSize : Word := 0x200
def clkCtlBase : Word := 0x1800000
def clkCtlSize : Word := 0x80000
def gpioBase : Word := 0x1000000
def gpioSize : Word := 0x1000
def wdtBase : Word := 0xB017000
def spmiBase : Word := 0x200F000
def timerBase : Word := 0xB020000
def dloadMsgBase : Word := 0x00058000
def dloadMsgSize : Word := 0x10000

/-- `addr >= base && addr < base + size` -/
def inWindow (base size addr : Word) : Bool := base ≤ addr && addr < base + size

/-- `msm8916_platform_t` -/
structure Platform where
  ram : Buffer Byte
  ramBase : Word
  ramSize : Word
  uartFifo : Buffer Byte
  uartFifoHead : ℕ
  uartFifoTail : ℕ
  gicDist : Buffer Byte
  gicCpu : Buffer Byte
  clkCtl : Buffer Byte
  gpio : Buffer Byte
  /-- what was written to `stdout` -/
  stdout : List Byte

/-- `platform_init` -/
def platformInit : Platform where
  ram := .filled Simu.ramSize.toNat 0
  ramBase := Simu.ramBase
  ramSize := Simu.ramSize
  uartFifo := .filled 64 0
  uartFifoHead := 0
  uartFifoTail := 0
  gicDist := .filled 0x1000 0
  gicCpu := .filled 0x1000 0
  clkCtl := .filled 0x1000 0
  gpio := .filled 0x1000 0
  stdout := []

/-! ## Bytes -/

/-- The UART branch of `platform_read8`. -/
def uartRead (off : Word) (p : Platform) : Option (Byte × Platform) :=
  if off = 0x00 then
    if p.uartFifoHead ≠ p.uartFifoTail then do
      let ch ← p.uartFifo.get p.uartFifoTail
      some (ch, { p with uartFifoTail := (p.uartFifoTail + 1) % 64 })
    else some (0, p)
  else if off = 0x08 then some (0x10, p)
  else some (0, p)

/-- `platform_read8` -/
def read8 (addr : Word) (p : Platform) : Option (Byte × Platform) :=
  if inWindow p.ramBase p.ramSize addr then (p.ram.get (addr - p.ramBase).toNat).map (·, p)
  else if inWindow uartBase uartSize addr then uartRead (addr - uartBase) p
  else if inWindow gicDistBase 0x1000 addr then (p.gicDist.get (addr - gicDistBase).toNat).map (·, p)
  else if inWindow gicCpuBase 0x1000 addr then (p.gicCpu.get (addr - gicCpuBase).toNat).map (·, p)
  else if inWindow clkCtlBase clkCtlSize addr then
    (p.clkCtl.get ((addr - clkCtlBase) % 0x1000).toNat).map (·, p)
  else if inWindow gpioBase gpioSize addr then (p.gpio.get (addr - gpioBase).toNat).map (·, p)
  else if inWindow wdtBase 0x1000 addr then some (0, p)
  else if inWindow dloadMsgBase dloadMsgSize addr then some (0, p)
  else if inWindow timerBase 0x1000 addr then some (0, p)
  else if inWindow spmiBase 0x1000 addr then some (0, p)
  else some (0, p)

/-- The UART branch of `platform_write8`. -/
def uartWrite (off : Word) (val : Byte) (p : Platform) : Platform :=
  if off = 0x00 then
    -- a carriage return is skipped
    if val = 0x0D then p else { p with stdout := p.stdout ++ [val] }
  else p

/-- `platform_write8` -/
def write8 (addr : Word) (val : Byte) (p : Platform) : Option Platform :=
  if inWindow p.ramBase p.ramSize addr then
    (p.ram.set (addr - p.ramBase).toNat val).map fun ram => { p with ram }
  else if inWindow uartBase uartSize addr then some (uartWrite (addr - uartBase) val p)
  else if inWindow gicDistBase 0x1000 addr then
    (p.gicDist.set (addr - gicDistBase).toNat val).map fun gicDist => { p with gicDist }
  else if inWindow gicCpuBase 0x1000 addr then
    (p.gicCpu.set (addr - gicCpuBase).toNat val).map fun gicCpu => { p with gicCpu }
  else if inWindow clkCtlBase clkCtlSize addr then
    (p.clkCtl.set ((addr - clkCtlBase) % 0x1000).toNat val).map fun clkCtl => { p with clkCtl }
  else if inWindow gpioBase gpioSize addr then
    (p.gpio.set (addr - gpioBase).toNat val).map fun gpio => { p with gpio }
  else if inWindow wdtBase 0x1000 addr then some p
  else if inWindow spmiBase 0x1000 addr then some p
  else some p

/-! ## Half words and words -/

/-- `lo | (hi << 8)` -/
def half (lo hi : Byte) : Half := lo.setWidth 16 ||| hi.setWidth 16 <<< 8

/-- `b0 | (b1 << 8) | (b2 << 16) | (b3 << 24)` -/
def word (b0 b1 b2 b3 : Byte) : Word :=
  b0.setWidth 32 ||| b1.setWidth 32 <<< 8 ||| b2.setWidth 32 <<< 16 ||| b3.setWidth 32 <<< 24

/-- `platform_read16` -/
def read16 (addr : Word) (p : Platform) : Option (Half × Platform) := do
  let (lo, p) ← read8 addr p
  let (hi, p) ← read8 (addr + 1) p
  some (half lo hi, p)

/-- `platform_read32` -/
def read32 (addr : Word) (p : Platform) : Option (Word × Platform) := do
  let (b0, p) ← read8 addr p
  let (b1, p) ← read8 (addr + 1) p
  let (b2, p) ← read8 (addr + 2) p
  let (b3, p) ← read8 (addr + 3) p
  some (word b0 b1 b2 b3, p)

/-- `platform_write16` -/
def write16 (addr : Word) (val : Half) (p : Platform) : Option Platform := do
  let p ← write8 addr (val.setWidth 8) p
  write8 (addr + 1) ((val >>> 8).setWidth 8) p

/-- `platform_write32` -/
def write32 (addr val : Word) (p : Platform) : Option Platform := do
  let p ← write8 addr (val.setWidth 8) p
  let p ← write8 (addr + 1) ((val >>> 8).setWidth 8) p
  let p ← write8 (addr + 2) ((val >>> 16).setWidth 8) p
  write8 (addr + 3) ((val >>> 24).setWidth 8) p

end PocketDarwin.Simu
