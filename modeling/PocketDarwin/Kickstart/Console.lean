/-
  The console of the bootloader (`uart_putc` and `debug_print` of
  `boot/kickstart/boot.c`) on the UART of the simulator.

  Both ends are in the repository: the bootloader polls the status word of the
  UART and then writes a character as a word, and the simulator's platform
  answers.  The wait loop runs on `fuel`, one unit for each poll; a loop that has
  none left is `none`, so that a run returns if it returns with some fuel.  The
  bit that is polled is a parameter of the lemmas: with the bit that the simulator
  reports the text comes out (`printWith_ready`), and with any other no run returns.
-/
import PocketDarwin.Simu.Memory

namespace PocketDarwin.Kickstart

open Simu

/-- `*uart_status` and `*uart_data` -/
def uartStatus : Word := uartBase + 0x08
def uartData : Word := uartBase + 0x00

/-- `while ((*uart_status & mask) == 0) {}` -/
def waitTx (mask : Word) : ℕ → Platform → Option Platform
  | 0, _ => none
  | fuel + 1, p => do
    let (status, p) ← read32 uartStatus p
    if status &&& mask = 0 then waitTx mask fuel p else some p

/-- `uart_putc`, with the status bits that it polls. -/
def putcWith (mask : Word) (fuel : ℕ) (c : Byte) (p : Platform) : Option Platform := do
  let p ← waitTx mask fuel p
  let p ← write32 uartData (c.setWidth 32) p
  if c = 0x0A then
    let p ← waitTx mask fuel p
    write32 uartData 0x0D p
  else some p

/-- The loop of `debug_print`, which ends at the NUL of the string. -/
def printWith (mask : Word) (fuel : ℕ) : List Byte → Platform → Option Platform
  | [], p => some p
  | c :: str, p =>
    if c = 0 then some p
    else do
      let p ← putcWith mask fuel c p
      printWith mask fuel str p

/-- `uart_putc` -/
def uartPutc : ℕ → Byte → Platform → Option Platform := putcWith 0x08

/-- `debug_print` -/
def debugPrint : ℕ → List Byte → Platform → Option Platform := printWith 0x08

/-! ## The UART of the simulator -/

section
variable {p : Platform} (h : p.WellFormed)
include h

theorem read8_uart {addr : Word} (hram : ¬ inRam addr) (huart : inWindow uartBase uartSize addr) :
    read8 addr p = uartRead (addr - uartBase) p := by
  rw [read8, if_neg (not_inRam h hram), if_pos huart]

theorem write8_uart {addr : Word} (hram : ¬ inRam addr) (huart : inWindow uartBase uartSize addr) (val : Byte) :
    write8 addr val p = some (uartWrite (addr - uartBase) val p) := by
  rw [write8, if_neg (not_inRam h hram), if_pos huart]

/-- The status word. -/
theorem read32_uartStatus : read32 uartStatus p = some (0x10, p) := by
  have h₀ : read8 uartStatus p = some (0x10, p) := read8_uart h (by decide) (by decide)
  have h₁ : read8 (uartStatus + 1) p = some (0, p) := read8_uart h (by decide) (by decide)
  have h₂ : read8 (uartStatus + 2) p = some (0, p) := read8_uart h (by decide) (by decide)
  have h₃ : read8 (uartStatus + 3) p = some (0, p) := read8_uart h (by decide) (by decide)
  simp only [read32, h₀, h₁, h₂, h₃, Option.bind_eq_bind, Option.bind_some]
  rfl

/-- What the data register does with a character. -/
def received (c : Byte) (p : Platform) : Platform :=
  if c = 0x0D then p else { p with stdout := p.stdout ++ [c] }

theorem write32_uartData (c : Byte) : write32 uartData (c.setWidth 32) p = some (received c p) := by
  have hw : (received c p).WellFormed := (uartWrite_keeps h 0 c).1
  have h₀ : write8 uartData ((c.setWidth 32).setWidth 8) p = some (received c p) := by
    rw [write8_uart h (by decide) (by decide)]
    simp [uartWrite, uartData, received]
  have h₁ : ∀ v, write8 (uartData + 1) v (received c p) = some (received c p) :=
    fun v => write8_uart hw (by decide) (by decide) v
  have h₂ : ∀ v, write8 (uartData + 2) v (received c p) = some (received c p) :=
    fun v => write8_uart hw (by decide) (by decide) v
  have h₃ : ∀ v, write8 (uartData + 3) v (received c p) = some (received c p) :=
    fun v => write8_uart hw (by decide) (by decide) v
  simp only [write32, h₀, h₁, h₂, h₃, Option.bind_eq_bind, Option.bind_some]

/-- A wait for bits that are not reported does not end. -/
theorem waitTx_none {mask : Word} (hmask : 0x10 &&& mask = 0) (fuel : ℕ) : waitTx mask fuel p = none := by
  induction fuel with
  | zero => rfl
  | succ fuel ih =>
    simp only [waitTx, read32_uartStatus h, Option.bind_eq_bind, Option.bind_some, hmask, if_true, ih]

theorem waitTx_ready {mask : Word} (hmask : 0x10 &&& mask ≠ 0) : waitTx mask 1 p = some p := by
  simp only [waitTx, read32_uartStatus h, Option.bind_eq_bind, Option.bind_some, if_neg hmask]

theorem putcWith_ready {mask : Word} (hmask : 0x10 &&& mask ≠ 0) (c : Byte) :
    putcWith mask 1 c p = some (received c p) := by
  have hw : (received c p).WellFormed := (uartWrite_keeps h 0 c).1
  simp only [putcWith, waitTx_ready h hmask, write32_uartData h, Option.bind_eq_bind, Option.bind_some]
  split_ifs with hc
  · rw [waitTx_ready hw hmask, Option.bind_some]
    exact write32_uartData hw 0x0D
  · rfl

end

theorem received_wellFormed {p : Platform} (h : p.WellFormed) (c : Byte) : (received c p).WellFormed :=
  (uartWrite_keeps h 0 c).1

theorem received_stdout (c : Byte) (p : Platform) :
    (received c p).stdout = p.stdout ++ [c].filter (· ≠ 0x0D) := by
  unfold received
  split_ifs with hc
  · simp [hc]
  · rw [List.filter_cons_of_pos (by simpa using hc), List.filter_nil]

/-- With the bit that the simulator reports, the text comes out. -/
theorem printWith_ready {mask : Word} (hmask : 0x10 &&& mask ≠ 0) {str : List Byte} (hstr : 0 ∉ str)
    {p : Platform} (h : p.WellFormed) :
    ∃ p', printWith mask 1 str p = some p' ∧ p'.stdout = p.stdout ++ str.filter (· ≠ 0x0D) := by
  induction str generalizing p with
  | nil => exact ⟨p, rfl, by simp⟩
  | cons c str ih =>
    rw [List.mem_cons, not_or] at hstr
    obtain ⟨p', hp', hout⟩ := ih hstr.2 (received_wellFormed h c)
    refine ⟨p', ?_, ?_⟩
    · rw [printWith, if_neg (Ne.symm hstr.1), putcWith_ready h hmask]
      exact hp'
    · rw [hout, received_stdout, List.append_assoc, ← List.filter_append]
      rfl

/-- **The console hangs.**  The bootloader polls bit 3 and the simulator reports
    bit 4: on every platform, `debug_print` returns and the characters of the string
    other than carriage returns come out if and only if the string is empty. -/
theorem debugPrint_returns_iff {p : Platform} (h : p.WellFormed) {str : List Byte} (hstr : 0 ∉ str) :
    (∃ fuel p', debugPrint fuel str p = some p' ∧ p'.stdout = p.stdout ++ str.filter (· ≠ 0x0D)) ↔ str = [] := by
  constructor
  · rintro ⟨fuel, p', hp', -⟩
    cases str with
    | nil => rfl
    | cons c str =>
      rw [List.mem_cons, not_or] at hstr
      rw [debugPrint, printWith, if_neg (Ne.symm hstr.1), putcWith, waitTx_none h (by decide)] at hp'
      cases hp'
  · rintro rfl
    exact ⟨0, p, rfl, by simp⟩

/-- The empty string. -/
theorem debugPrint_returns_empty :
    platformInit.WellFormed ∧ ∃ fuel p', debugPrint fuel [] platformInit = some p' ∧ p'.stdout = [] :=
  ⟨platformInit_wellFormed, (debugPrint_returns_iff platformInit_wellFormed List.not_mem_nil).2 rfl⟩

/-- The text `A` never comes out. -/
theorem debugPrint_hangs :
    ¬ ∃ fuel p', debugPrint fuel [0x41] platformInit = some p' ∧ p'.stdout = platformInit.stdout ++ [0x41] := by
  rintro ⟨fuel, p', hp', -⟩
  rw [debugPrint, printWith, if_neg (by decide), putcWith,
    waitTx_none platformInit_wellFormed (by decide)] at hp'
  cases hp'

end PocketDarwin.Kickstart
