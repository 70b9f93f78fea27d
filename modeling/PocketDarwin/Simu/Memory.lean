/-
  The memory of the platform: accesses stay inside of the arrays, the RAM is a
  byte memory, and the device registers do not alias.

  `Platform.WellFormed` is what `platform_init` establishes and every access
  keeps; under it an access to a byte is one of four (`read8_ram`, `read8_device`,
  `write8_ram`, `write8_device`).  `lastByte` is the memory that a program sees:
  for each address the last byte that some write of any width put there.
-/
import Mathlib.Tactic.SplitIfs
import PocketDarwin.Simu.Platform

namespace PocketDarwin.Simu

/-! ## Words and windows -/

theorem half_eq_append (lo hi : Byte) : half lo hi = hi ++ lo := by
  ext i h
  simp only [half, BitVec.getElem_or, BitVec.getElem_shiftLeft, BitVec.getElem_setWidth]
  grind

theorem word_eq_append (b0 b1 b2 b3 : Byte) : word b0 b1 b2 b3 = b3 ++ b2 ++ b1 ++ b0 := by
  ext i h
  simp only [word, BitVec.getElem_or, BitVec.getElem_shiftLeft, BitVec.getElem_setWidth]
  grind

/-- A byte of a word, as the writes cut it out. -/
theorem setWidth_ushiftRight {n : ℕ} (x : BitVec n) (k : ℕ) : (x >>> k).setWidth 8 = x.extractLsb' k 8 := by
  ext i h
  simp [BitVec.getElem_eq_testBit_toNat]

theorem setWidth_eq_extractLsb' {n : ℕ} (x : BitVec n) : x.setWidth 8 = x.extractLsb' 0 8 := by
  rw [← setWidth_ushiftRight, BitVec.ushiftRight_zero]

/-- The offset of an address in a window that does not wrap. -/
theorem offset_lt {base size addr : Word} (hsize : base.toNat + size.toNat < 2 ^ 32)
    (h : inWindow base size addr) : (addr - base).toNat < size.toNat := by
  simp only [inWindow, Bool.and_eq_true, decide_eq_true_eq] at h
  bv_omega

theorem offset_ne {base a b : Word} (h : a ≠ b) : (a - base).toNat ≠ (b - base).toNat := by
  intro he
  exact h (by simpa using BitVec.eq_of_toNat_eq he)

/-- The addresses of the RAM. -/
def inRam (addr : Word) : Bool := inWindow ramBase ramSize addr

theorem inRam_offset {addr : Word} (h : inRam addr) : (addr - ramBase).toNat < ramSize.toNat :=
  offset_lt (by decide) h

/-! ## Well-formed platforms -/

/-- The sizes of the arrays, and the place of the RAM. -/
structure Platform.WellFormed (p : Platform) : Prop where
  ramBase : p.ramBase = Simu.ramBase
  ramSize : p.ramSize = Simu.ramSize
  ram : p.ram.size = Simu.ramSize.toNat
  uartFifo : p.uartFifo.size = 64
  uartFifoTail : p.uartFifoTail < 64
  gicDist : p.gicDist.size = 0x1000
  gicCpu : p.gicCpu.size = 0x1000
  clkCtl : p.clkCtl.size = 0x1000
  gpio : p.gpio.size = 0x1000

theorem platformInit_wellFormed : platformInit.WellFormed :=
  ⟨rfl, rfl, rfl, rfl, by decide, rfl, rfl, rfl, rfl⟩

/-- The byte of the RAM at an address. -/
def Platform.ramByte (p : Platform) (addr : Word) : Byte := p.ram.elem (addr - Simu.ramBase).toNat

/-- The platform with one byte of the RAM changed. -/
def Platform.setRam (p : Platform) (addr : Word) (val : Byte) : Platform :=
  { p with ram := p.ram.put (addr - Simu.ramBase).toNat val }

theorem Platform.WellFormed.setRam {p : Platform} (h : p.WellFormed) (addr : Word) (val : Byte) :
    (p.setRam addr val).WellFormed :=
  ⟨h.ramBase, h.ramSize, h.ram, h.uartFifo, h.uartFifoTail, h.gicDist, h.gicCpu, h.clkCtl, h.gpio⟩

/-! ## The device windows -/

/-- The device windows other than the UART. -/
def inDevices (addr : Word) : Bool :=
  inWindow gicDistBase 0x1000 addr || inWindow gicCpuBase 0x1000 addr ||
    inWindow clkCtlBase clkCtlSize addr || inWindow gpioBase gpioSize addr || inWindow wdtBase 0x1000 addr ||
    inWindow dloadMsgBase dloadMsgSize addr || inWindow timerBase 0x1000 addr || inWindow spmiBase 0x1000 addr

/-- The device registers that keep what is written: the GIC, the clock controller
    and the GPIO. -/
def isStored (addr : Word) : Bool :=
  inWindow gicDistBase 0x1000 addr || inWindow gicCpuBase 0x1000 addr ||
    inWindow clkCtlBase clkCtlSize addr || inWindow gpioBase gpioSize addr

/-- The register of the clock controller at an address. -/
def clkCtlReg (addr : Word) : ℕ := ((addr - clkCtlBase) % 0x1000).toNat

theorem clkCtlReg_lt (addr : Word) : clkCtlReg addr < 0x1000 := by
  simp only [clkCtlReg, BitVec.toNat_umod]
  exact Nat.mod_lt _ (by decide)

/-- The value of a device register. -/
def Platform.deviceByte (p : Platform) (addr : Word) : Byte :=
  if inWindow gicDistBase 0x1000 addr then p.gicDist.elem (addr - gicDistBase).toNat
  else if inWindow gicCpuBase 0x1000 addr then p.gicCpu.elem (addr - gicCpuBase).toNat
  else if inWindow clkCtlBase clkCtlSize addr then p.clkCtl.elem (clkCtlReg addr)
  else if inWindow gpioBase gpioSize addr then p.gpio.elem (addr - gpioBase).toNat
  else 0

/-- The platform behind a write to a device register. -/
def Platform.setDevice (p : Platform) (addr : Word) (val : Byte) : Platform :=
  if inWindow gicDistBase 0x1000 addr then
    { p with gicDist := p.gicDist.put (addr - gicDistBase).toNat val }
  else if inWindow gicCpuBase 0x1000 addr then
    { p with gicCpu := p.gicCpu.put (addr - gicCpuBase).toNat val }
  else if inWindow clkCtlBase clkCtlSize addr then
    { p with clkCtl := p.clkCtl.put (clkCtlReg addr) val }
  else if inWindow gpioBase gpioSize addr then
    { p with gpio := p.gpio.put (addr - gpioBase).toNat val }
  else p

theorem Platform.WellFormed.setDevice {p : Platform} (h : p.WellFormed) (addr : Word) (val : Byte) :
    (p.setDevice addr val).WellFormed := by
  obtain ⟨h₁, h₂, h₃, h₄, h₅, h₆, h₇, h₈, h₉⟩ := h
  unfold Platform.setDevice
  split_ifs <;> exact ⟨h₁, h₂, h₃, h₄, h₅, h₆, h₇, h₈, h₉⟩

theorem Platform.setDevice_ram (p : Platform) (addr : Word) (val : Byte) : (p.setDevice addr val).ram = p.ram := by
  unfold Platform.setDevice
  split_ifs <;> rfl

/-! ## What an access to a byte does -/

section
variable {p : Platform} (h : p.WellFormed) {addr : Word}
include h

theorem read8_ram (hram : inRam addr) : read8 addr p = some (p.ramByte addr, p) := by
  have hin : inWindow p.ramBase p.ramSize addr := by rw [h.ramBase, h.ramSize]; exact hram
  have hlt : (addr - p.ramBase).toNat < p.ram.size := by
    rw [h.ramBase, h.ram]
    exact inRam_offset hram
  rw [read8, if_pos hin, Buffer.get_eq_some hlt, h.ramBase]
  rfl

theorem write8_ram (hram : inRam addr) (val : Byte) : write8 addr val p = some (p.setRam addr val) := by
  have hin : inWindow p.ramBase p.ramSize addr := by rw [h.ramBase, h.ramSize]; exact hram
  have hlt : (addr - p.ramBase).toNat < p.ram.size := by
    rw [h.ramBase, h.ram]
    exact inRam_offset hram
  rw [write8, if_pos hin, Buffer.set_eq_some hlt, Option.map_some, Platform.setRam, h.ramBase]

theorem not_inRam (hram : ¬ inRam addr) : ¬ inWindow p.ramBase p.ramSize addr := by
  rw [h.ramBase, h.ramSize]
  exact hram

/-- The devices are read by `deviceByte`. -/
theorem read8_register (hram : ¬ inRam addr) (huart : ¬ inWindow uartBase uartSize addr) :
    read8 addr p = some (p.deviceByte addr, p) := by
  rw [read8, if_neg (not_inRam h hram), if_neg huart, Platform.deviceByte]
  split_ifs with h₁ h₂ h₃ h₄
  · rw [Buffer.get_eq_some (by rw [h.gicDist]; exact offset_lt (by decide) h₁)]
    rfl
  · rw [Buffer.get_eq_some (by rw [h.gicCpu]; exact offset_lt (by decide) h₂)]
    rfl
  · rw [Buffer.get_eq_some (by rw [h.clkCtl]; exact clkCtlReg_lt addr)]
    rfl
  · rw [Buffer.get_eq_some (by rw [h.gpio]; exact offset_lt (by decide) h₄)]
    rfl
  all_goals rfl

/-- The devices are written by `setDevice`. -/
theorem write8_register (hram : ¬ inRam addr) (huart : ¬ inWindow uartBase uartSize addr) (val : Byte) :
    write8 addr val p = some (p.setDevice addr val) := by
  rw [write8, if_neg (not_inRam h hram), if_neg huart, Platform.setDevice]
  split_ifs with h₁ h₂ h₃ h₄
  · rw [Buffer.set_eq_some (by rw [h.gicDist]; exact offset_lt (by decide) h₁)]
    rfl
  · rw [Buffer.set_eq_some (by rw [h.gicCpu]; exact offset_lt (by decide) h₂)]
    rfl
  · rw [Buffer.set_eq_some (by rw [h.clkCtl]; exact clkCtlReg_lt addr)]
    rfl
  · rw [Buffer.set_eq_some (by rw [h.gpio]; exact offset_lt (by decide) h₄)]
    rfl
  all_goals rfl

/-- A read of the UART moves the tail of its FIFO at most. -/
theorem uartRead_keeps (off : Word) :
    ∃ v p', uartRead off p = some (v, p') ∧ p'.WellFormed ∧ p'.ram = p.ram := by
  unfold uartRead
  split_ifs with h₁ h₂ h₃
  · rw [Buffer.get_eq_some (by rw [h.uartFifo]; exact h.uartFifoTail)]
    exact ⟨_, _, rfl, ⟨h.ramBase, h.ramSize, h.ram, h.uartFifo, Nat.mod_lt _ (by decide), h.gicDist,
      h.gicCpu, h.clkCtl, h.gpio⟩, rfl⟩
  all_goals exact ⟨_, _, rfl, h, rfl⟩

theorem uartWrite_keeps (off : Word) (val : Byte) :
    (uartWrite off val p).WellFormed ∧ (uartWrite off val p).ram = p.ram := by
  unfold uartWrite
  split_ifs
  all_goals exact ⟨⟨h.ramBase, h.ramSize, h.ram, h.uartFifo, h.uartFifoTail, h.gicDist, h.gicCpu,
    h.clkCtl,
    h.gpio⟩, rfl⟩

theorem read8_device (hram : ¬ inRam addr) :
    ∃ v p', read8 addr p = some (v, p') ∧ p'.WellFormed ∧ p'.ram = p.ram := by
  by_cases huart : inWindow uartBase uartSize addr
  · rw [read8, if_neg (not_inRam h hram), if_pos huart]
    exact uartRead_keeps h _
  · exact ⟨_, _, read8_register h hram huart, h, rfl⟩

theorem write8_device (hram : ¬ inRam addr) (val : Byte) :
    ∃ p', write8 addr val p = some p' ∧ p'.WellFormed ∧ p'.ram = p.ram := by
  by_cases huart : inWindow uartBase uartSize addr
  · rw [write8, if_neg (not_inRam h hram), if_pos huart]
    exact ⟨_, rfl, uartWrite_keeps h _ val⟩
  · exact ⟨_, write8_register h hram huart val, h.setDevice addr val, p.setDevice_ram addr val⟩

/-- A read of a byte succeeds and keeps the RAM. -/
theorem read8_keeps (addr : Word) :
    ∃ v p', read8 addr p = some (v, p') ∧ p'.WellFormed ∧ p'.ram = p.ram := by
  by_cases hram : inRam addr
  · exact ⟨_, _, read8_ram h hram, h, rfl⟩
  · exact read8_device h hram

end

/-! ## Accesses -/

/-- The accesses of the CPU. -/
inductive Access where
  | read8 (addr : Word)
  | read16 (addr : Word)
  | read32 (addr : Word)
  | write8 (addr : Word) (val : Byte)
  | write16 (addr : Word) (val : Half)
  | write32 (addr val : Word)

namespace Access

/-- The platform behind an access. -/
def run : Access → Platform → Option Platform
  | read8 addr, p => (Simu.read8 addr p).map (·.2)
  | read16 addr, p => (Simu.read16 addr p).map (·.2)
  | read32 addr, p => (Simu.read32 addr p).map (·.2)
  | write8 addr val, p => Simu.write8 addr val p
  | write16 addr val, p => Simu.write16 addr val p
  | write32 addr val, p => Simu.write32 addr val p

def isWrite : Access → Bool
  | read8 _ | read16 _ | read32 _ => false
  | write8 _ _ | write16 _ _ | write32 _ _ => true

/-- The bytes that an access writes, and where: the low byte first. -/
def bytes : Access → List (Word × Byte)
  | read8 _ | read16 _ | read32 _ => []
  | write8 addr val => [(addr, val)]
  | write16 addr val => [(addr, val.extractLsb' 0 8), (addr + 1, val.extractLsb' 8 8)]
  | write32 addr val => [(addr, val.extractLsb' 0 8), (addr + 1, val.extractLsb' 8 8),
      (addr + 2, val.extractLsb' 16 8), (addr + 3, val.extractLsb' 24 8)]

end Access

/-- The platform behind a sequence of accesses. -/
def runAll (log : List Access) (p : Platform) : Option Platform := log.foldlM (fun p access => access.run p) p

/-- A memory behind writes of bytes. -/
def storeBytes (m : Word → Byte) (bytes : List (Word × Byte)) : Word → Byte :=
  bytes.foldl (fun m w => Function.update m w.1 w.2) m

/-- The last byte that was written to an address, and 0 if there is none. -/
def lastByte (log : List Access) : Word → Byte := storeBytes (fun _ => 0) (log.flatMap Access.bytes)

/-! ## The RAM is a memory -/

/-- The RAM holds the memory `m`. -/
structure Holds (p : Platform) (m : Word → Byte) : Prop where
  wellFormed : p.WellFormed
  ramByte : ∀ addr, inRam addr → p.ramByte addr = m addr

/-- What a write of bytes leaves: the RAM holds the new memory, and the devices are
    as they were if all bytes are in the RAM. -/
structure Stored (p : Platform) (bytes : List (Word × Byte)) (p' : Platform) : Prop where
  holds : ∀ m, Holds p m → Holds p' (storeBytes m bytes)
  devices : (∀ w ∈ bytes, inRam w.1) → p' = { p with ram := p'.ram }

theorem Stored.trans {p p' p'' : Platform} {bytes bytes' : List (Word × Byte)} (h : Stored p bytes p')
    (h' : Stored p' bytes' p'') : Stored p (bytes ++ bytes') p'' := by
  constructor
  · intro m hm
    have hboth := h'.holds _ (h.holds m hm)
    rw [storeBytes, List.foldl_append]
    exact hboth
  · intro hin
    rw [h'.devices fun w hw => hin w (List.mem_append_right _ hw),
      h.devices fun w hw => hin w (List.mem_append_left _ hw)]

theorem ramByte_setRam_ne {p : Platform} {a b : Word} (h : b ≠ a) (val : Byte) :
    (p.setRam a val).ramByte b = p.ramByte b :=
  Buffer.elem_put_of_ne (offset_ne h) p.ram val

/-- **A write of a byte** stores it. -/
theorem write8_stored {p : Platform} (h : p.WellFormed) (addr : Word) (val : Byte) :
    ∃ p', write8 addr val p = some p' ∧ Stored p [(addr, val)] p' := by
  by_cases hram : inRam addr
  · refine ⟨_, write8_ram h hram val, fun m hm => ⟨h.setRam addr val, fun b hb => ?_⟩, fun _ => rfl⟩
    by_cases hb' : b = addr
    · subst hb'
      simp [Platform.ramByte, Platform.setRam, storeBytes]
    · rw [ramByte_setRam_ne hb', hm.ramByte b hb]
      simp [storeBytes, hb']
  · obtain ⟨p', hp', hwf, hsame⟩ := write8_device h hram val
    refine ⟨p', hp', fun m hm => ⟨hwf, fun b hb => ?_⟩, fun hin => ?_⟩
    · have hne : b ≠ addr := by
        rintro rfl
        exact hram hb
      rw [Platform.ramByte, hsame]
      simpa [storeBytes, hne, Platform.ramByte] using hm.ramByte b hb
    · exact absurd (hin _ (List.mem_singleton_self _)) hram

theorem Stored.wellFormed {p p' : Platform} {bytes : List (Word × Byte)} (h : p.WellFormed)
    (hs : Stored p bytes p') : p'.WellFormed :=
  (hs.holds p.ramByte ⟨h, fun _ _ => rfl⟩).wellFormed

theorem write16_stored {p : Platform} (h : p.WellFormed) (addr : Word) (val : Half) :
    ∃ p', write16 addr val p = some p' ∧ Stored p (Access.write16 addr val).bytes p' := by
  obtain ⟨p₁, h₁, s₁⟩ := write8_stored h addr (val.setWidth 8)
  obtain ⟨p₂, h₂, s₂⟩ := write8_stored (s₁.wellFormed h) (addr + 1) ((val >>> 8).setWidth 8)
  refine ⟨p₂, ?_, ?_⟩
  · simp only [write16, h₁, h₂, Option.bind_eq_bind, Option.bind_some]
  · have := s₁.trans s₂
    rwa [setWidth_eq_extractLsb', setWidth_ushiftRight] at this

theorem write32_stored {p : Platform} (h : p.WellFormed) (addr val : Word) :
    ∃ p', write32 addr val p = some p' ∧ Stored p (Access.write32 addr val).bytes p' := by
  obtain ⟨p₁, h₁, s₁⟩ := write8_stored h addr (val.setWidth 8)
  obtain ⟨p₂, h₂, s₂⟩ := write8_stored (s₁.wellFormed h) (addr + 1) ((val >>> 8).setWidth 8)
  have s₁₂ := s₁.trans s₂
  obtain ⟨p₃, h₃, s₃⟩ := write8_stored (s₁₂.wellFormed h) (addr + 2) ((val >>> 16).setWidth 8)
  have s₁₃ := s₁₂.trans s₃
  obtain ⟨p₄, h₄, s₄⟩ := write8_stored (s₁₃.wellFormed h) (addr + 3) ((val >>> 24).setWidth 8)
  refine ⟨p₄, ?_, ?_⟩
  · simp only [write32, h₁, h₂, h₃, h₄, Option.bind_eq_bind, Option.bind_some]
  · have := s₁₃.trans s₄
    rwa [setWidth_eq_extractLsb', setWidth_ushiftRight, setWidth_ushiftRight, setWidth_ushiftRight] at this

theorem read16_keeps {p : Platform} (h : p.WellFormed) (addr : Word) :
    ∃ v p', read16 addr p = some (v, p') ∧ p'.WellFormed ∧ p'.ram = p.ram := by
  obtain ⟨lo, p₁, h₁, w₁, r₁⟩ := read8_keeps h addr
  obtain ⟨hi, p₂, h₂, w₂, r₂⟩ := read8_keeps w₁ (addr + 1)
  refine ⟨half lo hi, p₂, ?_, w₂, r₂.trans r₁⟩
  simp only [read16, h₁, h₂, Option.bind_eq_bind, Option.bind_some]

theorem read32_keeps {p : Platform} (h : p.WellFormed) (addr : Word) :
    ∃ v p', read32 addr p = some (v, p') ∧ p'.WellFormed ∧ p'.ram = p.ram := by
  obtain ⟨b0, p₁, h₁, w₁, r₁⟩ := read8_keeps h addr
  obtain ⟨b1, p₂, h₂, w₂, r₂⟩ := read8_keeps w₁ (addr + 1)
  obtain ⟨b2, p₃, h₃, w₃, r₃⟩ := read8_keeps w₂ (addr + 2)
  obtain ⟨b3, p₄, h₄, w₄, r₄⟩ := read8_keeps w₃ (addr + 3)
  refine ⟨word b0 b1 b2 b3, p₄, ?_, w₄, r₄.trans (r₃.trans (r₂.trans r₁))⟩
  simp only [read32, h₁, h₂, h₃, h₄, Option.bind_eq_bind, Option.bind_some]

theorem Holds.of_ram {p p' : Platform} {m : Word → Byte} (h : Holds p m) (hwf : p'.WellFormed)
    (hram : p'.ram = p.ram) : Holds p' m := by
  refine ⟨hwf, fun addr hin => ?_⟩
  rw [Platform.ramByte, hram]
  exact h.ramByte addr hin

/-- **A write** of any width stores its bytes. -/
theorem Access.run_write {p : Platform} (h : p.WellFormed) {access : Access} (hw : access.isWrite) :
    ∃ p', access.run p = some p' ∧ Stored p access.bytes p' := by
  cases access with
  | read8 addr | read16 addr | read32 addr => cases hw
  | write8 addr val => exact write8_stored h addr val
  | write16 addr val => exact write16_stored h addr val
  | write32 addr val => exact write32_stored h addr val

/-- **An access** succeeds, and the RAM holds the memory behind it. -/
theorem Access.run_holds {p : Platform} {m : Word → Byte} (h : Holds p m) (access : Access) :
    ∃ p', access.run p = some p' ∧ Holds p' (storeBytes m access.bytes) := by
  by_cases hw : access.isWrite
  · obtain ⟨p', hr, hs⟩ := Access.run_write h.wellFormed hw
    exact ⟨p', hr, hs.holds m h⟩
  cases access with
  | read8 addr =>
    obtain ⟨v, p', hr, hwf, hram⟩ := read8_keeps h.wellFormed addr
    exact ⟨p', by simp [Access.run, hr], h.of_ram hwf hram⟩
  | read16 addr =>
    obtain ⟨v, p', hr, hwf, hram⟩ := read16_keeps h.wellFormed addr
    exact ⟨p', by simp [Access.run, hr], h.of_ram hwf hram⟩
  | read32 addr =>
    obtain ⟨v, p', hr, hwf, hram⟩ := read32_keeps h.wellFormed addr
    exact ⟨p', by simp [Access.run, hr], h.of_ram hwf hram⟩
  | write8 addr val | write16 addr val | write32 addr val => exact absurd rfl hw

/-- **A run** succeeds, and the RAM holds the memory behind it. -/
theorem runAll_holds (log : List Access) {p : Platform} {m : Word → Byte} (h : Holds p m) :
    ∃ p', runAll log p = some p' ∧ Holds p' (storeBytes m (log.flatMap Access.bytes)) := by
  induction log generalizing p m with
  | nil => exact ⟨p, rfl, h⟩
  | cons access log ih =>
    obtain ⟨p₁, h₁, hold₁⟩ := Access.run_holds h access
    obtain ⟨p₂, h₂, hold₂⟩ := ih hold₁
    refine ⟨p₂, ?_, ?_⟩
    · rw [runAll, List.foldlM_cons, h₁]
      exact h₂
    · rw [List.flatMap_cons, storeBytes, List.foldl_append]
      exact hold₂

theorem storeBytes_of_ne (m : Word → Byte) {bytes : List (Word × Byte)} {addr : Word}
    (h : ∀ w ∈ bytes, w.1 ≠ addr) : storeBytes m bytes addr = m addr := by
  induction bytes generalizing m with
  | nil => rfl
  | cons w bytes ih =>
    have htail := ih (Function.update m w.1 w.2) fun w' hw' => h w' (List.mem_cons_of_mem _ hw')
    rw [storeBytes, List.foldl_cons, ← storeBytes, htail]
    exact Function.update_of_ne (h w List.mem_cons_self).symm w.2 m

section
variable {p : Platform} {m : Word → Byte} (h : Holds p m) {addr : Word}
include h

theorem Holds.read8 (h₀ : inRam addr) : Simu.read8 addr p = some (m addr, p) := by
  rw [read8_ram h.wellFormed h₀, h.ramByte addr h₀]

theorem Holds.read16 (h₀ : inRam addr) (h₁ : inRam (addr + 1)) :
    Simu.read16 addr p = some (m (addr + 1) ++ m addr, p) := by
  simp only [Simu.read16, h.read8 h₀, h.read8 h₁, Option.bind_eq_bind, Option.bind_some, half_eq_append]

theorem Holds.read32 (h₀ : inRam addr) (h₁ : inRam (addr + 1)) (h₂ : inRam (addr + 2)) (h₃ : inRam (addr + 3)) :
    Simu.read32 addr p = some (m (addr + 3) ++ m (addr + 2) ++ m (addr + 1) ++ m addr, p) := by
  simp only [Simu.read32, h.read8 h₀, h.read8 h₁, h.read8 h₂, h.read8 h₃, Option.bind_eq_bind,
    Option.bind_some, word_eq_append]

end

/-- **The RAM is a memory.**  Behind any sequence of accesses, every access stays
    inside of the arrays; a read whose bytes are in the RAM returns the last bytes
    written there, the low byte first; and a write whose bytes are in the RAM
    changes no device and no other byte of the RAM. -/
theorem ram_is_memory (log : List Access) :
    ∃ p, runAll log platformInit = some p ∧
      (∀ access : Access, ∃ p', access.run p = some p') ∧
      (∀ addr, inRam addr → read8 addr p = some (lastByte log addr, p)) ∧
      (∀ addr, inRam addr → inRam (addr + 1) →
        read16 addr p = some (lastByte log (addr + 1) ++ lastByte log addr, p)) ∧
      (∀ addr, inRam addr → inRam (addr + 1) → inRam (addr + 2) → inRam (addr + 3) →
        read32 addr p = some (lastByte log (addr + 3) ++ lastByte log (addr + 2) ++
          lastByte log (addr + 1) ++ lastByte log addr, p)) ∧
      ∀ access : Access, access.isWrite → (∀ w ∈ access.bytes, inRam w.1) →
        ∃ p', access.run p = some p' ∧ p' = { p with ram := p'.ram } ∧
          ∀ addr, inRam addr → (∀ w ∈ access.bytes, w.1 ≠ addr) → p'.ramByte addr = p.ramByte addr := by
  have hinit : Holds platformInit (fun _ => 0) := ⟨platformInit_wellFormed, fun _ _ => rfl⟩
  obtain ⟨p, hp, h⟩ := runAll_holds log hinit
  refine ⟨p, hp, fun access => ?_, fun addr h₀ => h.read8 h₀, fun addr h₀ h₁ => h.read16 h₀ h₁,
    fun addr h₀ h₁ h₂ h₃ => h.read32 h₀ h₁ h₂ h₃, fun access hw hin => ?_⟩
  · obtain ⟨p', hp', -⟩ := Access.run_holds h access
    exact ⟨p', hp'⟩
  · obtain ⟨p', hp', hs⟩ := Access.run_write h.wellFormed hw
    refine ⟨p', hp', hs.devices hin, fun addr haddr hne => ?_⟩
    have hp := (hs.holds p.ramByte ⟨h.wellFormed, fun _ _ => rfl⟩).ramByte addr haddr
    rw [hp, storeBytes_of_ne _ hne]

/-! ## The device registers -/

/-- Two addresses of one register of the clock controller, whose window is larger
    than its array. -/
def SameClkCtlReg (a b : Word) : Prop :=
  inWindow clkCtlBase clkCtlSize a ∧ inWindow clkCtlBase clkCtlSize b ∧ clkCtlReg a = clkCtlReg b

theorem deviceByte_setDevice_ne (p : Platform) {a b : Word} (hne : b ≠ a) (hclk : ¬ SameClkCtlReg a b)
    (val : Byte) : (p.setDevice a val).deviceByte b = p.deviceByte b := by
  unfold Platform.setDevice
  split_ifs with h₁ h₂ h₃ h₄
  · simp only [Platform.deviceByte, Buffer.elem_put_of_ne (offset_ne hne)]
  · simp only [Platform.deviceByte, Buffer.elem_put_of_ne (offset_ne hne)]
  · simp only [Platform.deviceByte]
    split_ifs with hb₁ hb₂ hb₃ hb₄
    all_goals try rfl
    exact Buffer.elem_put_of_ne (fun he => hclk ⟨h₃, hb₃, he.symm⟩) p.clkCtl val
  · simp only [Platform.deviceByte, Buffer.elem_put_of_ne (offset_ne hne)]
  · rfl

theorem deviceByte_setDevice_self (p : Platform) {a : Word} (h : isStored a) (val : Byte) :
    (p.setDevice a val).deviceByte a = val := by
  simp only [isStored, Bool.or_eq_true] at h
  unfold Platform.setDevice Platform.deviceByte
  split_ifs with h₁ h₂ h₃ h₄
  · exact Buffer.elem_put_self p.gicDist _ val
  · exact Buffer.elem_put_self p.gicCpu _ val
  · exact Buffer.elem_put_self p.clkCtl _ val
  · exact Buffer.elem_put_self p.gpio _ val
  · rcases h with ((h | h) | h) | h
    · exact absurd h h₁
    · exact absurd h h₂
    · exact absurd h h₃
    · exact absurd h h₄

theorem inWindow_disjoint {base size base' size' addr : Word} (hsize : base.toNat + size.toNat < 2 ^ 32)
    (hsize' : base'.toNat + size'.toNat < 2 ^ 32)
    (h : base.toNat + size.toNat ≤ base'.toNat ∨ base'.toNat + size'.toNat ≤ base.toNat)
    (hin : inWindow base size addr) : ¬ inWindow base' size' addr := by
  simp only [inWindow, Bool.and_eq_true, decide_eq_true_eq] at hin ⊢
  bv_omega

/-- The devices are neither in the RAM nor in the UART. -/
theorem inDevices_apart {addr : Word} (h : inDevices addr) : ¬ inRam addr ∧ ¬ inWindow uartBase uartSize addr := by
  simp only [inDevices, Bool.or_eq_true] at h
  rcases h with ((((((h | h) | h) | h) | h) | h) | h) | h
  all_goals exact ⟨inWindow_disjoint (by decide) (by decide) (by decide) h,
    inWindow_disjoint (by decide) (by decide) (by decide) h⟩

/-- **Device registers do not alias**, but for the addresses of one register of the
    clock controller: a write to a device changes no other register, and the GIC, the
    clock controller and the GPIO keep what is written. -/
theorem devices_do_not_alias {p : Platform} (h : p.WellFormed) {a : Word} (ha : inDevices a) (val : Byte) :
    ∃ p', write8 a val p = some p' ∧
      (∀ b, inDevices b → b ≠ a → ¬ SameClkCtlReg a b →
        (read8 b p').map (·.1) = (read8 b p).map (·.1)) ∧
      (isStored a → (read8 a p').map (·.1) = some val) := by
  have hread : ∀ b, inDevices b → read8 b (p.setDevice a val) =
      some ((p.setDevice a val).deviceByte b, p.setDevice a val) := by
    intro b hb
    exact read8_register (h.setDevice a val) (inDevices_apart hb).1 (inDevices_apart hb).2
  refine ⟨p.setDevice a val, write8_register h (inDevices_apart ha).1 (inDevices_apart ha).2 val, ?_, ?_⟩
  · intro b hb hne hclk
    rw [hread b hb, read8_register h (inDevices_apart hb).1 (inDevices_apart hb).2,
      Option.map_some, Option.map_some, deviceByte_setDevice_ne p hne hclk]
  · intro hs
    rw [hread a ha, Option.map_some, deviceByte_setDevice_self p hs]

/-- The first two registers of the distributor. -/
theorem devices_do_not_alias_gicDist :
    ∃ p', write8 0xB000000 7 platformInit = some p' ∧
      (read8 0xB000001 p').map (·.1) = (read8 0xB000001 platformInit).map (·.1) ∧
      (read8 0xB000000 p').map (·.1) = some 7 := by
  obtain ⟨p', hw, hother, hself⟩ := devices_do_not_alias platformInit_wellFormed (a := 0xB000000)
    (by decide) 7
  have hclk : ¬ SameClkCtlReg 0xB000000 0xB000001 := by
    rintro ⟨h, -, -⟩
    exact absurd h (by decide)
  exact ⟨p', hw, hother 0xB000001 (by decide) (by decide) hclk, hself (by decide)⟩

/-- A write to the first byte of the clock controller is read at the offset `0x1000`. -/
theorem clkCtl_aliases :
    inDevices 0x1800000 ∧ inDevices 0x1801000 ∧ platformInit.WellFormed ∧
      (read8 0x1801000 platformInit).map (·.1) = some 0 ∧
      ((write8 0x1800000 7 platformInit).bind (read8 0x1801000)).map (·.1) = some 7 :=
  ⟨by decide, by decide, platformInit_wellFormed, by decide, by decide⟩

end PocketDarwin.Simu
