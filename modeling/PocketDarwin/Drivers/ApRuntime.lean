/-
  Delays and conversions of ticks (`APRuntime.h`, `AndroidPlatform.cpp`).

  A delay reads the counter until it is behind a target.  The microseconds of `ap_mdelay` are
  computed in 32 bits, and the products of the conversions in 64.

  * `waits_mdelay_iff`: a delay of milliseconds is long enough exactly if its microseconds fit.
  * `nonDecreasing_iff`: a conversion never goes back up to some ticks exactly if their product fits.
-/
import Mathlib.Data.Nat.Notation
import Mathlib.Data.BitVec
import Mathlib.Order.Basic
import Mathlib.Tactic.Common

namespace PocketDarwin.Drivers.ApRuntime

abbrev UInt32 := BitVec 32
abbrev UInt64 := BitVec 64

/-! ## The code -/

section
variable (ticksPerSec : UInt64)

def apTicksToNs (ticks : UInt64) : UInt64 := ticks * 1000000000 / ticksPerSec

def apTicksToUs (ticks : UInt64) : UInt64 := ticks * 1000000 / ticksPerSec

/-- The loop of `ap_udelay`: the first reading from `i` on that is not before the target, of so
    many. -/
def spin (ticks : ℕ → UInt64) (target : UInt64) : ℕ → ℕ → Option ℕ
  | 0, _ => none
  | fuel + 1, i => if ticks i < target then spin ticks target fuel (i + 1) else some i

/-- The reading of the counter that `ap_udelay` returns after. -/
def apUdelay (usecs : UInt32) (ticks : ℕ → UInt64) (fuel : ℕ) : Option ℕ :=
  let start := ticks 0
  let target := start + ticksPerSec * usecs.setWidth 64 / 1000000
  spin ticks target fuel 1

def apMdelay (msecs : UInt32) (ticks : ℕ → UInt64) (fuel : ℕ) : Option ℕ :=
  apUdelay ticksPerSec (msecs * 1000) ticks fuel

end

/-! ## Delays -/

/-- A counter that increases as far as 64 bits go. -/
structure Counter where
  ticks : ℕ → UInt64
  mono : ∀ i j, i ≤ j → ticks i ≤ ticks j
  unbounded : ∀ t, ∃ i, t ≤ ticks i

/-- A delay returns, and not before there have been `n` ticks; the counter has that many left. -/
def Waits (delay : (ℕ → UInt64) → ℕ → Option ℕ) (n : ℕ) : Prop :=
  ∀ c : Counter, (c.ticks 0).toNat + n < 2 ^ 64 →
    (∃ fuel i, delay c.ticks fuel = some i) ∧
    ∀ fuel i, delay c.ticks fuel = some i → (c.ticks 0).toNat + n ≤ (c.ticks i).toNat

variable {ticks : ℕ → UInt64} {target ticksPerSec : UInt64} {fuel i k : ℕ}

/-- The reading that ends a loop is the first one that is not before the target. -/
theorem spin_eq_some (h : spin ticks target fuel i = some k) :
    i ≤ k ∧ target ≤ ticks k ∧ ∀ j, i ≤ j → j < k → ticks j < target := by
  induction fuel generalizing i with
  | zero => simp [spin] at h
  | succ fuel ih =>
    rw [spin] at h
    split_ifs at h with hlt
    · obtain ⟨hle, htarget, hbefore⟩ := ih h
      refine ⟨by omega, htarget, fun j hj hjk => ?_⟩
      rcases Nat.lt_or_eq_of_le hj with hj | rfl
      · exact hbefore j hj hjk
      · exact hlt
    · obtain rfl := Option.some.inj h
      exact ⟨le_rfl, BitVec.not_lt.1 hlt, fun j hj hjk => absurd hj (by omega)⟩

theorem exists_spin (c : Counter) (target : UInt64) (i : ℕ) :
    ∃ fuel k, spin c.ticks target fuel i = some k := by
  obtain ⟨n, hn⟩ : ∃ n, target ≤ c.ticks (i + n) := by
    obtain ⟨j, hj⟩ := c.unbounded target
    exact ⟨j, BitVec.le_trans hj (c.mono j (i + j) (by omega))⟩
  induction n generalizing i with
  | zero =>
    rw [Nat.add_zero] at hn
    exact ⟨1, i, by rw [spin, if_neg (BitVec.not_lt.2 hn)]⟩
  | succ n ih =>
    by_cases hlt : c.ticks i < target
    · obtain ⟨fuel, k, hk⟩ := ih (i + 1) (by rwa [Nat.succ_add_eq_add_succ])
      exact ⟨fuel + 1, k, by rw [spin, if_pos hlt, hk]⟩
    · exact ⟨1, i, by rw [spin, if_neg hlt]⟩

/-- The target of a delay, where the frequency keeps the product in 64 bits. -/
theorem toNat_target (hf : ticksPerSec.toNat ≤ 10 ^ 9) (usecs : UInt32) (start : UInt64) :
    (start + ticksPerSec * usecs.setWidth 64 / 1000000).toNat =
      (start.toNat + ticksPerSec.toNat * usecs.toNat / 10 ^ 6) % 2 ^ 64 := by
  have hu := usecs.isLt
  have hprod : ticksPerSec.toNat * usecs.toNat ≤ 10 ^ 9 * 2 ^ 32 := Nat.mul_le_mul hf hu.le
  have hmillion : (1000000 : UInt64).toNat = 10 ^ 6 := rfl
  rw [BitVec.toNat_add, BitVec.toNat_udiv, BitVec.toNat_mul, BitVec.toNat_setWidth, hmillion,
    Nat.mod_eq_of_lt (a := usecs.toNat) (by omega),
    Nat.mod_eq_of_lt (a := ticksPerSec.toNat * usecs.toNat) (by omega)]

/-- **A delay of microseconds** takes as many ticks as they are worth. -/
theorem waits_udelay (hf : ticksPerSec.toNat ≤ 10 ^ 9) (usecs : UInt32) :
    Waits (apUdelay ticksPerSec usecs) (ticksPerSec.toNat * usecs.toNat / 10 ^ 6) := by
  intro c hroom
  have htarget := toNat_target hf usecs (c.ticks 0)
  rw [Nat.mod_eq_of_lt hroom] at htarget
  refine ⟨exists_spin c _ 1, fun fuel i hi => ?_⟩
  obtain ⟨-, hle, -⟩ := spin_eq_some hi
  rw [← htarget]
  exact hle

/-- A counter that is read at every tick, up to the end of 64 bits. -/
def everyTick : Counter where
  ticks i := BitVec.ofNat 64 (min i (2 ^ 64 - 1))
  mono i j h := by
    rw [BitVec.le_def, BitVec.toNat_ofNat, BitVec.toNat_ofNat]
    omega
  unbounded t := ⟨t.toNat, by
    have := t.isLt
    rw [BitVec.le_def, BitVec.toNat_ofNat]
    omega⟩

theorem toNat_everyTick (i : ℕ) : (everyTick.ticks i).toNat = min i (2 ^ 64 - 1) := by
  rw [everyTick, BitVec.toNat_ofNat]
  omega

/-- A delay of microseconds returns at its target, if the counter is read at every tick. -/
theorem not_waits_udelay (hf : ticksPerSec.toNat ≤ 10 ^ 9) (usecs : UInt32) {n : ℕ} (hn : n < 2 ^ 64)
    (hlt : max 1 (ticksPerSec.toNat * usecs.toNat / 10 ^ 6) < n) :
    ¬ Waits (apUdelay ticksPerSec usecs) n := by
  intro h
  have hzero : (everyTick.ticks 0).toNat = 0 := toNat_everyTick 0
  obtain ⟨⟨fuel, i, hi⟩, hall⟩ := h everyTick (by omega)
  have hlong := hall fuel i hi
  rw [hzero, Nat.zero_add, toNat_everyTick] at hlong
  have htarget := toNat_target hf usecs (everyTick.ticks 0)
  rw [hzero, Nat.zero_add, Nat.mod_eq_of_lt (by omega)] at htarget
  obtain ⟨hone, -, hbefore⟩ := spin_eq_some hi
  rcases Nat.lt_or_eq_of_le hone with htwo | rfl
  · -- the reading before was not at the target yet
    have hprev : (everyTick.ticks (i - 1)).toNat < _ := hbefore (i - 1) (by omega) (by omega)
    rw [htarget, toNat_everyTick] at hprev
    omega
  · omega

/-- **A delay of milliseconds** takes as many ticks as they are worth exactly if its microseconds
    fit into 32 bits. -/
theorem waits_mdelay_iff (hf : 10 ^ 6 ≤ ticksPerSec.toNat ∧ ticksPerSec.toNat ≤ 10 ^ 9)
    (msecs : UInt32) : Waits (apMdelay ticksPerSec msecs) (ticksPerSec.toNat * msecs.toNat / 1000) ↔
      msecs.toNat * 1000 < 2 ^ 32 := by
  have husecs : (msecs * 1000).toNat = msecs.toNat * 1000 % 2 ^ 32 := by
    rw [BitVec.toNat_mul]
    rfl
  have hsame : ticksPerSec.toNat * (msecs.toNat * 1000) / 10 ^ 6 =
      ticksPerSec.toNat * msecs.toNat / 1000 := by
    rw [← Nat.mul_assoc]
    exact Nat.mul_div_mul_right _ 1000 (by decide)
  have hdelay : apMdelay ticksPerSec msecs = apUdelay ticksPerSec (msecs * 1000) := rfl
  rw [hdelay]
  constructor
  · intro h
    by_contra hge
    have hm := msecs.isLt
    have hshort : (msecs * 1000).toNat + 2 ^ 32 ≤ msecs.toNat * 1000 := by omega
    have hworth : ticksPerSec.toNat * msecs.toNat ≤ 10 ^ 9 * 2 ^ 32 := Nat.mul_le_mul hf.2 hm.le
    have hlonger : ticksPerSec.toNat * (msecs * 1000).toNat + 10 ^ 6 * 2 ^ 32 ≤
        ticksPerSec.toNat * (msecs.toNat * 1000) := by
      calc ticksPerSec.toNat * (msecs * 1000).toNat + 10 ^ 6 * 2 ^ 32
          ≤ ticksPerSec.toNat * (msecs * 1000).toNat + ticksPerSec.toNat * 2 ^ 32 :=
            Nat.add_le_add_left (Nat.mul_le_mul_right _ hf.1) _
        _ = ticksPerSec.toNat * ((msecs * 1000).toNat + 2 ^ 32) := (Nat.mul_add _ _ _).symm
        _ ≤ ticksPerSec.toNat * (msecs.toNat * 1000) := Nat.mul_le_mul_left _ hshort
    refine not_waits_udelay hf.2 (msecs * 1000) (by omega) ?_ h
    rw [← hsame]
    omega
  · intro hlt
    have h := waits_udelay hf.2 (msecs * 1000)
    rwa [husecs, Nat.mod_eq_of_lt hlt, hsame] at h

/-! ## Conversions -/

/-- The conversion of ticks into so many units a second does not go back, for ticks up to `last`
    whose exact result fits 64 bits. -/
def NonDecreasing (convert : UInt64 → UInt64) (unitsPerSec : ℕ) (ticksPerSec last : UInt64) : Prop :=
  ∀ t t' : UInt64, t ≤ t' → t' ≤ last →
    t'.toNat * unitsPerSec / ticksPerSec.toNat < 2 ^ 64 → convert t ≤ convert t'

/-- **A conversion does not go back** exactly if its products fit. -/
theorem nonDecreasing_iff (hf : 10 ^ 6 ≤ ticksPerSec.toNat ∧ ticksPerSec.toNat ≤ 10 ^ 9)
    (units : UInt64) (hunits : 0 < units.toNat ∧ units.toNat ≤ 10 ^ 9) (last : UInt64) :
    NonDecreasing (fun ticks => ticks * units / ticksPerSec) units.toNat ticksPerSec last ↔
      last.toNat * units.toNat < 2 ^ 64 := by
  have hconvert : ∀ t : UInt64, (t * units / ticksPerSec).toNat =
      t.toNat * units.toNat % 2 ^ 64 / ticksPerSec.toNat := fun t => by
    rw [BitVec.toNat_udiv, BitVec.toNat_mul]
  constructor
  · intro h
    by_contra hge
    -- the last ticks whose product fits, and the next ones
    obtain ⟨n, hn⟩ : ∃ n, n = (2 ^ 64 - 1) / units.toNat := ⟨_, rfl⟩
    have hfits : n * units.toNat ≤ 2 ^ 64 - 1 := hn ▸ Nat.div_mul_le_self _ _
    have hnext : 2 ^ 64 - 1 < (n + 1) * units.toNat := by
      rw [hn, Nat.mul_comm]
      exact Nat.lt_mul_div_succ _ hunits.1
    have hstep : (n + 1) * units.toNat = n * units.toNat + units.toNat := Nat.succ_mul _ _
    have hlast : n + 1 ≤ last.toNat := by
      by_contra hlt
      have hmul : last.toNat * units.toNat ≤ n * units.toNat :=
        Nat.mul_le_mul_right _ (by omega)
      omega
    have hlt := last.isLt
    have ht : (BitVec.ofNat 64 n).toNat = n := by
      rw [BitVec.toNat_ofNat, Nat.mod_eq_of_lt (by omega)]
    have ht' : (BitVec.ofNat 64 (n + 1)).toNat = n + 1 := by
      rw [BitVec.toNat_ofNat, Nat.mod_eq_of_lt (by omega)]
    have hle := h (BitVec.ofNat 64 n) (BitVec.ofNat 64 (n + 1)) (by rw [BitVec.le_def]; omega)
      (by rw [BitVec.le_def]; omega) ?_
    · rw [BitVec.le_def, hconvert, hconvert, ht, ht', Nat.mod_eq_of_lt (by omega)] at hle
      have hhigh : (2 ^ 64 - 1 - 10 ^ 9) / 10 ^ 9 ≤ n * units.toNat / ticksPerSec.toNat :=
        Nat.div_le_div (by omega) hf.2 (by omega)
      have hlow : (n + 1) * units.toNat % 2 ^ 64 / ticksPerSec.toNat ≤
          (n + 1) * units.toNat % 2 ^ 64 := Nat.div_le_self _ _
      omega
    · rw [ht']
      have hexact : (n + 1) * units.toNat / ticksPerSec.toNat ≤ (2 ^ 64 - 1 + 10 ^ 9) / 10 ^ 6 :=
        Nat.div_le_div (by omega) hf.1 (by decide)
      omega
  · intro hfits t t' ht ht' _
    have hmul' : t'.toNat * units.toNat ≤ last.toNat * units.toNat := Nat.mul_le_mul_right _ ht'
    have hmul : t.toNat * units.toNat ≤ t'.toNat * units.toNat := Nat.mul_le_mul_right _ ht
    rw [BitVec.le_def, hconvert, hconvert, Nat.mod_eq_of_lt (by omega), Nat.mod_eq_of_lt (by omega)]
    exact Nat.div_le_div_right hmul

/-- **Delays and conversions**: a delay of microseconds is long enough, one of milliseconds exactly
    if its microseconds fit 32 bits, and the conversions do not go back exactly as far as their
    products fit 64 bits. -/
theorem delays_and_ticks_iff (ticksPerSec : UInt64)
    (hf : 10 ^ 6 ≤ ticksPerSec.toNat ∧ ticksPerSec.toNat ≤ 10 ^ 9) :
    (∀ usecs, Waits (apUdelay ticksPerSec usecs) (ticksPerSec.toNat * usecs.toNat / 10 ^ 6)) ∧
    (∀ msecs, Waits (apMdelay ticksPerSec msecs) (ticksPerSec.toNat * msecs.toNat / 1000) ↔
      msecs.toNat * 1000 < 2 ^ 32) ∧
    (∀ last, NonDecreasing (apTicksToNs ticksPerSec) (10 ^ 9) ticksPerSec last ↔
      last.toNat * 10 ^ 9 < 2 ^ 64) ∧
    ∀ last, NonDecreasing (apTicksToUs ticksPerSec) (10 ^ 6) ticksPerSec last ↔
      last.toNat * 10 ^ 6 < 2 ^ 64 :=
  ⟨waits_udelay hf.2, waits_mdelay_iff hf,
    nonDecreasing_iff hf 1000000000 (by decide),
    nonDecreasing_iff hf 1000000 (by decide)⟩

/-- A counter of 19.2 MHz. -/
theorem waits_second : Waits (apMdelay 19200000 1000) 19200000 :=
  ((delays_and_ticks_iff 19200000 (by decide)).2.1 1000).2 (by decide)

/-- **A delay of 4294968 ms**, for that counter, is one of 704 us. -/
theorem mdelay_too_short : ¬ Waits (apMdelay 19200000 4294968) (19200000 * 4294968 / 1000) := by
  intro h
  exact absurd ((waits_mdelay_iff (by decide) 4294968).1 h) (by decide)

end PocketDarwin.Drivers.ApRuntime
