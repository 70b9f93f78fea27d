/-
  The clock of the SD card controllers of the MSM8916.

  The base clock is divided by one more than a field of eight bits says.  The divisor for a
  requested frequency is rounded up and cut to what the field can hold.

  * `divisor_setClock`: the field that a request leads to.
  * `respects_iff`: the clock is at most the requested one, and the highest that is, exactly if
    the divisor did not have to be cut.
-/
import Mathlib.Data.Nat.Notation
import Mathlib.Logic.Function.Basic
import Mathlib.Tactic.Common
import Mathlib.Tactic.IntervalCases

namespace PocketDarwin.Drivers.Sdhci

abbrev UInt16 := BitVec 16
abbrev UInt32 := BitVec 32

def sdhciClockControl : ℕ := 0x02C

def sdhciClkIntEn : UInt32 := 1 <<< 0
def sdhciClkIntStable : UInt32 := 1 <<< 1
def sdhciClkSdclkEn : UInt32 := 1 <<< 2
def sdhciClkFreqMask : UInt32 := 0xFF
def sdhciClkFreqShift : ℕ := 8

/-- The controller: what was written to its registers, and whether the internal clock will be
    found stable, read by read. -/
structure MSM8916SDHCI where
  fRegBase : ℕ
  fRegSize : ℕ
  reg : ℕ → UInt16
  stable : ℕ → Bool

namespace MSM8916SDHCI

/-- The register can be accessed. -/
def Mapped (d : MSM8916SDHCI) (offset : ℕ) : Prop := ¬ (d.fRegBase = 0 ∨ offset + 2 > d.fRegSize)

instance (d : MSM8916SDHCI) (offset : ℕ) : Decidable (d.Mapped offset) :=
  inferInstanceAs (Decidable (¬ _))

/-- One bit of the clock control says whether the clock is stable, whatever was written to it. -/
def read16 (d : MSM8916SDHCI) (offset : ℕ) : UInt16 × MSM8916SDHCI :=
  if d.fRegBase = 0 ∨ offset + 2 > d.fRegSize then (0xFFFF, d)
  else if offset = sdhciClockControl then
    ((d.reg offset &&& ~~~2) ||| (if d.stable 0 then 2 else 0),
      { d with stable := fun i => d.stable (i + 1) })
  else (d.reg offset, d)

def write16 (d : MSM8916SDHCI) (offset : ℕ) (value : UInt16) : MSM8916SDHCI :=
  if d.fRegBase = 0 ∨ offset + 2 > d.fRegSize then d
  else { d with reg := Function.update d.reg offset value }

/-- The loop that waits until the internal clock is stable. -/
def waitStable : ℕ → MSM8916SDHCI → MSM8916SDHCI
  | 0, d => d
  | timeout + 1, d =>
    let (clk, d) := d.read16 sdhciClockControl
    if clk.setWidth 32 &&& sdhciClkIntStable ≠ 0 then d else waitStable timeout d

/-- `div`, as `setClock` computes it. -/
def clockDivisor (freqKHz : UInt32) : UInt32 :=
  let baseClkKHz : UInt32 := 400000
  let div := (baseClkKHz + freqKHz - 1) / freqKHz
  let div := if div > 0 then div - 1 else div
  if div > 0xFF then 0xFF else div

def setClock (d : MSM8916SDHCI) (freqKHz : UInt32) : MSM8916SDHCI :=
  let (clk, d) := d.read16 sdhciClockControl
  let clk := clk.setWidth 32 &&& ~~~(sdhciClkIntEn ||| sdhciClkSdclkEn)
  let d := d.write16 sdhciClockControl (clk.setWidth 16)
  let div := clockDivisor freqKHz
  let (clk, d) := d.read16 sdhciClockControl
  let clk := clk.setWidth 32 &&& ~~~(sdhciClkFreqMask <<< sdhciClkFreqShift)
  let clk := clk ||| (div <<< sdhciClkFreqShift)
  let clk := clk ||| sdhciClkIntEn
  let d := d.write16 sdhciClockControl (clk.setWidth 16)
  let d := d.waitStable 10000
  let (clk, d) := d.read16 sdhciClockControl
  let clk := clk.setWidth 32 ||| sdhciClkSdclkEn
  d.write16 sdhciClockControl (clk.setWidth 16)

/-- The clock that `start` sets for the identification of the card. -/
def startClock (d : MSM8916SDHCI) : MSM8916SDHCI := d.setClock 400

/-- The divisor field. -/
def divisor (d : MSM8916SDHCI) : ℕ := ((d.reg sdhciClockControl).extractLsb' 8 8).toNat

/-! ## The field -/

variable {d : MSM8916SDHCI} {freqKHz v : UInt32}

/-- The word that is written has the divisor in its field. -/
theorem extract_field (clk div : UInt32) :
    (((clk &&& ~~~(sdhciClkFreqMask <<< sdhciClkFreqShift)) ||| (div <<< sdhciClkFreqShift) |||
      sdhciClkIntEn).setWidth 16).extractLsb' 8 8 = div.setWidth 8 := by
  apply BitVec.eq_of_getLsbD_eq
  intro i hi
  have hmask : (sdhciClkFreqMask <<< sdhciClkFreqShift).getLsbD (8 + i) = true := by
    interval_cases i <;> rfl
  have henable : sdhciClkIntEn.getLsbD (8 + i) = false := by
    interval_cases i <;> rfl
  have hdiv : (div <<< sdhciClkFreqShift).getLsbD (8 + i) = div.getLsbD i := by
    rw [BitVec.getLsbD_shiftLeft, sdhciClkFreqShift, Nat.add_sub_cancel_left]
    simp [show 8 + i < 32 by omega]
  rw [BitVec.getLsbD_extractLsb', BitVec.getLsbD_setWidth, BitVec.getLsbD_setWidth,
    BitVec.getLsbD_or, BitVec.getLsbD_or, BitVec.getLsbD_and, BitVec.getLsbD_not, hmask, henable, hdiv]
  simp [hi, show 8 + i < 16 by omega]

/-- Reading the word back and enabling the clock leaves the field. -/
theorem extract_enabled (clk : UInt16) (stable : Bool) :
    ((((clk &&& ~~~2) ||| (if stable then 2 else 0)).setWidth 32 ||| sdhciClkSdclkEn).setWidth
      16).extractLsb' 8 8 = clk.extractLsb' 8 8 := by
  apply BitVec.eq_of_getLsbD_eq
  intro i hi
  have hstable : (if stable then 2 else 0 : UInt16).getLsbD (8 + i) = false := by
    cases stable <;> interval_cases i <;> rfl
  have hmask : (~~~2 : UInt16).getLsbD (8 + i) = true := by
    interval_cases i <;> rfl
  have henable : sdhciClkSdclkEn.getLsbD (8 + i) = false := by
    interval_cases i <;> rfl
  rw [BitVec.getLsbD_extractLsb', BitVec.getLsbD_extractLsb', BitVec.getLsbD_setWidth,
    BitVec.getLsbD_or, BitVec.getLsbD_setWidth, BitVec.getLsbD_or, BitVec.getLsbD_and, hmask, henable,
    hstable]
  simp [hi, show 8 + i < 16 by omega, show 8 + i < 32 by omega]

/-- Reading changes no register. -/
@[simp] theorem reg_read16 (offset : ℕ) : (d.read16 offset).2.reg = d.reg := by
  rw [read16]
  split_ifs <;> rfl

@[simp] theorem mapped_read16 (offset r : ℕ) : (d.read16 offset).2.Mapped r ↔ d.Mapped r := by
  rw [read16]
  split_ifs <;> rfl

theorem read16_clock (h : d.Mapped sdhciClockControl) : (d.read16 sdhciClockControl).1 =
    (d.reg sdhciClockControl &&& ~~~2) ||| (if d.stable 0 then 2 else 0) := by
  rw [read16, if_neg h, if_pos rfl]

@[simp] theorem mapped_write16 (offset r : ℕ) (value : UInt16) :
    (d.write16 offset value).Mapped r ↔ d.Mapped r := by
  rw [write16]
  split_ifs <;> rfl

theorem reg_write16 {offset : ℕ} (h : d.Mapped offset) (value : UInt16) :
    (d.write16 offset value).reg offset = value := by
  rw [write16, if_neg h]
  exact Function.update_self _ _ _

@[simp] theorem waitStable_frame (n r : ℕ) :
    (d.waitStable n).reg = d.reg ∧ ((d.waitStable n).Mapped r ↔ d.Mapped r) := by
  induction n generalizing d with
  | zero => exact ⟨rfl, Iff.rfl⟩
  | succ n ih =>
    rw [waitStable]
    dsimp only
    split_ifs
    · exact ⟨reg_read16 _, mapped_read16 _ _⟩
    · obtain ⟨hreg, hmapped⟩ := @ih (d.read16 sdhciClockControl).2
      exact ⟨hreg.trans (reg_read16 _), hmapped.trans (mapped_read16 _ _)⟩

/-- The divisor in numbers: rounded up, less one, and cut to the field. -/
theorem toNat_clockDivisor (hpos : 0 < freqKHz.toNat) :
    (clockDivisor freqKHz).toNat = min (399999 / freqKHz.toNat) 255 := by
  have hlt := freqKHz.isLt
  have hsum : ((400000 : UInt32) + freqKHz - 1).toNat = (freqKHz.toNat + 399999) % 2 ^ 32 := by
    have hone : (1 : UInt32).toNat = 1 := rfl
    have hbase : (400000 : UInt32).toNat = 400000 := rfl
    rw [BitVec.toNat_sub, BitVec.toNat_add, hone, hbase]
    omega
  have hdiv : ((400000 + freqKHz - 1) / freqKHz).toNat =
      (freqKHz.toNat + 399999) % 2 ^ 32 / freqKHz.toNat := by
    rw [BitVec.toNat_udiv, hsum]
  -- less one, it is the quotient without rounding, also where the sum wraps around
  have hquot : ((400000 + freqKHz - 1) / freqKHz).toNat - 1 = 399999 / freqKHz.toNat := by
    rw [hdiv]
    rcases Nat.lt_or_ge (freqKHz.toNat + 399999) (2 ^ 32) with hfits | hwraps
    · rw [Nat.mod_eq_of_lt hfits, Nat.add_div_left _ hpos, Nat.add_sub_cancel]
    · have hzero : (freqKHz.toNat + 399999) % 2 ^ 32 / freqKHz.toNat = 0 :=
        Nat.div_eq_of_lt (by omega)
      rw [hzero, Nat.div_eq_of_lt (by omega)]
  rw [clockDivisor]
  generalize (400000 + freqKHz - 1) / freqKHz = q at hquot ⊢
  have hless : (if q > 0 then q - 1 else q).toNat = q.toNat - 1 := by
    have hone : (1 : UInt32).toNat = 1 := rfl
    have hq := q.isLt
    split_ifs with h
    · have hpos : 0 < q.toNat := h
      rw [BitVec.toNat_sub, hone]
      omega
    · have hzero : q.toNat = 0 := Nat.eq_zero_of_not_pos h
      omega
  have hcut : ∀ x : UInt32, (if x > 0xFF then 0xFF else x).toNat = min x.toNat 255 := by
    intro x
    split_ifs with h
    · have hlt : 255 < x.toNat := h
      exact (Nat.min_eq_right hlt.le).symm
    · have hle : x.toNat ≤ 255 := Nat.le_of_not_lt h
      exact (Nat.min_eq_left hle).symm
  rw [hcut, hless, hquot]

/-- **The field that a request leads to.** -/
theorem divisor_setClock (h : d.Mapped sdhciClockControl) (hpos : 0 < freqKHz.toNat) :
    (d.setClock freqKHz).divisor = min (399999 / freqKHz.toNat) 255 := by
  have hfield : (clockDivisor freqKHz).setWidth 8 =
      BitVec.ofNat 8 (min (399999 / freqKHz.toNat) 255) := by
    rw [← toNat_clockDivisor hpos, BitVec.ofNat_toNat]
  have hmapped : ∀ (e : MSM8916SDHCI) (value : UInt16), e.Mapped sdhciClockControl →
      ((e.read16 sdhciClockControl).2.write16 sdhciClockControl value).Mapped sdhciClockControl := by
    intro e value he
    rwa [mapped_write16, mapped_read16]
  have hlt : min (399999 / freqKHz.toNat) 255 < 2 ^ 8 := by omega
  rw [setClock]
  dsimp only
  rw [divisor, reg_write16, read16_clock, extract_enabled, (waitStable_frame 10000 0).1,
    reg_write16, extract_field, hfield, BitVec.toNat_ofNat, Nat.mod_eq_of_lt hlt]
  · rw [mapped_read16]
    exact hmapped _ _ h
  · rw [(waitStable_frame _ _).2]
    exact hmapped _ _ (hmapped _ _ h)
  · rw [mapped_read16, (waitStable_frame _ _).2]
    exact hmapped _ _ (hmapped _ _ h)

/-! ## The clock -/

/-- The clock is at most the requested one, and no smaller divisor would do. -/
def Respects (d : MSM8916SDHCI) (freqKHz : ℕ) : Prop :=
  400000 ≤ freqKHz * (d.divisor + 1) ∧ ∀ div < d.divisor, freqKHz * (div + 1) < 400000

/-- **The clock that is set** respects the request exactly if it is of 1563 kHz at least. -/
theorem respects_iff (d : MSM8916SDHCI) (freqKHz : UInt32) (h : d.Mapped sdhciClockControl)
    (hpos : 0 < freqKHz.toNat) :
    (d.setClock freqKHz).Respects freqKHz.toNat ↔ 1563 ≤ freqKHz.toNat := by
  rw [Respects, divisor_setClock h hpos]
  generalize freqKHz.toNat = f at hpos ⊢
  have hquot : f * (399999 / f) ≤ 399999 := Nat.mul_div_le _ _
  have hnext : 399999 < f * (399999 / f + 1) := Nat.lt_mul_div_succ _ hpos
  constructor
  · rintro ⟨hle, -⟩
    have hbound : f * (min (399999 / f) 255 + 1) ≤ f * 256 := Nat.mul_le_mul_left f (by omega)
    omega
  · intro hf
    have hcut : 399999 / f ≤ 255 := by
      have hlt : 399999 / f < 256 := Nat.div_lt_of_lt_mul (by omega)
      omega
    rw [Nat.min_eq_left hcut]
    refine ⟨hnext, fun div hdiv => ?_⟩
    have hmul : f * (div + 1) ≤ f * (399999 / f) := Nat.mul_le_mul_left f hdiv
    omega

/-- A controller with all registers zero, and the clock stable at once. -/
def controller : MSM8916SDHCI := ⟨1, 0x4000, fun _ => 0, fun _ => true⟩

/-- 25 MHz. -/
theorem respects_25MHz : (controller.setClock 25000).Respects 25000 :=
  (respects_iff controller 25000 (by decide) (by decide)).2 (by decide)

/-- **The clock for the identification** of a card is 1562 kHz instead of 400. -/
theorem identification_too_fast : ¬ controller.startClock.Respects 400 := by
  have hdivisor : controller.startClock.divisor = 255 := divisor_setClock (by decide) (by decide)
  rw [Respects, hdivisor]
  rintro ⟨hle, -⟩
  exact absurd hle (by decide)

end MSM8916SDHCI

end PocketDarwin.Drivers.Sdhci
