/-
  The platform as the memory of the CPU, as `platform_init` wires it up: on
  well-formed platforms every access succeeds, so the callbacks are total.
-/
import PocketDarwin.Simu.Cpu
import PocketDarwin.Simu.Memory

namespace PocketDarwin.Simu

/-- A well-formed platform. -/
def Board : Type := { p : Platform // p.WellFormed }

namespace Board

/-- The result of an access that succeeds and keeps the platform well-formed. -/
theorem get_wellFormed {α : Type} {o : Option α} {p : α → Prop} (h : ∃ a, o = some a ∧ p a) :
    ∃ hs : o.isSome, p (o.get hs) := by
  obtain ⟨a, rfl, ha⟩ := h
  exact ⟨rfl, ha⟩

def read {α : Type} (f : Platform → Option (α × Platform))
    (h : ∀ p : Platform, p.WellFormed → ∃ v p', f p = some (v, p') ∧ p'.WellFormed ∧ p'.ram = p.ram) (b : Board) :
    α × Board :=
  have hb : ∃ hs : (f b.1).isSome, ((f b.1).get hs).2.WellFormed := by
    obtain ⟨v, p', hf, hwf, -⟩ := h b.1 b.2
    exact get_wellFormed (p := fun r => r.2.WellFormed) ⟨(v, p'), hf, hwf⟩
  (((f b.1).get hb.1).1, ⟨((f b.1).get hb.1).2, hb.2⟩)

def write (f : Platform → Option Platform) (h : ∀ p : Platform, p.WellFormed → ∃ p', f p = some p' ∧ p'.WellFormed)
    (b : Board) : Board :=
  have hb := get_wellFormed (p := Platform.WellFormed) (h b.1 b.2)
  ⟨(f b.1).get hb.1, hb.2⟩

/-- The callbacks of `platform_init`. -/
def bus : Bus Board where
  read8 addr := read (read8 addr) fun _ h => read8_keeps h addr
  read16 addr := read (read16 addr) fun _ h => read16_keeps h addr
  read32 addr := read (read32 addr) fun _ h => read32_keeps h addr
  write8 addr val := write (write8 addr val) fun _ h => by
    obtain ⟨p', hp', hs⟩ := write8_stored h addr val
    exact ⟨p', hp', hs.wellFormed h⟩
  write16 addr val := write (write16 addr val) fun _ h => by
    obtain ⟨p', hp', hs⟩ := write16_stored h addr val
    exact ⟨p', hp', hs.wellFormed h⟩
  write32 addr val := write (write32 addr val) fun _ h => by
    obtain ⟨p', hp', hs⟩ := write32_stored h addr val
    exact ⟨p', hp', hs.wellFormed h⟩

/-- The board behind `platform_init`. -/
def init : Board := ⟨platformInit, platformInit_wellFormed⟩

/-- The board with a program at the start of the RAM. -/
def loaded (program : List Word) : Board :=
  (program.zipIdx.foldl fun b (w : Word × ℕ) => bus.write32 (ramBase + BitVec.ofNat 32 (4 * w.2)) w.1 b) init

end Board

/-- A CPU in user mode about to fetch from the start of the RAM, with the registers
    `regs` but for `r15`. -/
def startCpu (regs : Reg → Word) : Cpu where
  regs := Function.update regs 15 (ramBase - 8)
  cpsr := 0x10
  spsr := 0
  lrSvc := 0
  lrIrq := 0
  lrAbt := 0
  lrUnd := 0
  lrFiq := 0
  cp15 _ := 0
  halted := false
  cycleCount := 0

/-- A machine that is about to run a program from the start of the RAM. -/
def startMachine (program : List Word) (regs : Reg → Word) : Machine Board := ⟨startCpu regs, .loaded program⟩

end PocketDarwin.Simu
