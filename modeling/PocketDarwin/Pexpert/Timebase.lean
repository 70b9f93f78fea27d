/-
  The timebase of the MSM8916 platform expert (`pe_msm8916.c`).

  `msm8916_timer_value` reads the 64-bit physical counter, which counts up.  The rest of
  the file is written for a timer that counts down from `clock_decrementer`: a reading
  subtracts the low word of the counter from what an interrupt adds.

  * `returned_eq`: what a run of readings and interrupts returns, reading by reading.
  * `timebase_nondecreasing_iff`: the returned values never decrease exactly when, from each
    reading to the next, the low word grows by no more than `clock_absolute_time` does.
-/
import Mathlib.Algebra.Ring.Int.Defs
import Mathlib.Data.Nat.Notation
import Mathlib.Data.Int.Notation
import Mathlib.Data.List.Chain

namespace PocketDarwin.Pexpert

/-- The static variables of the timer. -/
structure Clock where
  decrementer : BitVec 64
  initialized : Bool
  hadIrq : Bool
  absoluteTime : BitVec 64
deriving DecidableEq, Repr

def intDebugTimerExp : BitVec 32 := 17

def nrIrqs : BitVec 32 := 256

/-- `timer_configure` -/
def timerConfigure (c : Clock) : Clock := { c with decrementer := 1000 }

/-- `msm8916_timebase_init`, up to the loop that waits for the first interrupt. -/
def timebaseInit (c : Clock) : Clock := { timerConfigure c with initialized := true }

/-- `msm8916_handle_interrupt`, for what the interrupt controller and the counter read. -/
def handleInterrupt (irqNo : BitVec 32) (counter : BitVec 64) (c : Clock) : Clock :=
  if irqNo > nrIrqs then c
  else if irqNo = intDebugTimerExp then
    { c with absoluteTime := c.absoluteTime + (c.decrementer - counter), hadIrq := true }
  else c

/-- `msm8916_get_timebase` -/
def getTimebase (counter : BitVec 64) (c : Clock) : BitVec 64 × Clock :=
  if c.initialized then
    let timestamp : BitVec 32 := counter.setWidth 32
    if timestamp ≠ 0 then (c.absoluteTime + (c.decrementer - timestamp.setWidth 64), c)
    else
      let absoluteTime := c.absoluteTime + c.decrementer
      (absoluteTime, { c with absoluteTime })
  else (0, c)

/-- What happens to the clock: each event with the counter it reads. -/
inductive Event where
  | getTimebase (counter : BitVec 64)
  | interrupt (irqNo : BitVec 32) (counter : BitVec 64)
deriving DecidableEq, Repr

/-- The values that the readings of a run return. -/
def returned : Clock → List Event → List (BitVec 64)
  | _, [] => []
  | c, .getTimebase counter :: log => (getTimebase counter c).1 :: returned (getTimebase counter c).2 log
  | c, .interrupt irqNo counter :: log => returned (handleInterrupt irqNo counter c) log

/-! ## Readings -/

/-- What a reading is taken from. -/
structure Reading where
  absoluteTime : BitVec 64
  timestamp : BitVec 32
deriving DecidableEq, Repr

/-- The readings of a run. -/
def readings : Clock → List Event → List Reading
  | _, [] => []
  | c, .getTimebase counter :: log =>
    ⟨c.absoluteTime, counter.setWidth 32⟩ :: readings (getTimebase counter c).2 log
  | c, .interrupt irqNo counter :: log => readings (handleInterrupt irqNo counter c) log

namespace Reading

def value (r : Reading) : BitVec 64 := r.absoluteTime + (1000 - r.timestamp.setWidth 64)

/-- The time at the next tick of a timer that has just been reloaded. -/
def reload (r : Reading) : ℕ := (r.absoluteTime + 1000).toNat

/-- The value wraps around if the low word is beyond the next tick. -/
def wraps (r : Reading) : ℤ := if r.reload < r.timestamp.toNat then 1 else 0

/-- From `r` to `r'` the low word grows by no more than the accumulator does, where a value that
    wraps around is `2 ^ 64` later. -/
def Advances (r r' : Reading) : Prop :=
  (r'.timestamp.toNat : ℤ) - r.timestamp.toNat ≤ r'.reload - r.reload + 2 ^ 64 * (r'.wraps - r.wraps)

instance (r r' : Reading) : Decidable (r.Advances r') := inferInstanceAs (Decidable (_ ≤ _))

theorem toNat_value (r : Reading) : (r.value.toNat : ℤ) = r.reload - r.timestamp.toNat + 2 ^ 64 * r.wraps := by
  have ht := r.timestamp.isLt
  have hval : r.value.toNat = (2 ^ 64 - r.timestamp.toNat + r.reload) % 2 ^ 64 := by
    have heq : r.value = (r.absoluteTime + 1000) - r.timestamp.setWidth 64 := by
      rw [value, BitVec.sub_eq_add_neg, BitVec.sub_eq_add_neg, BitVec.add_assoc]
    rw [heq, BitVec.toNat_sub, BitVec.toNat_setWidth, Nat.mod_eq_of_lt (a := r.timestamp.toNat)
      (by omega), reload]
  have hr : r.reload < 2 ^ 64 := (r.absoluteTime + 1000).isLt
  rw [hval, wraps]
  split_ifs with h <;> omega

theorem value_le_iff (r r' : Reading) : r.value ≤ r'.value ↔ r.Advances r' := by
  rw [BitVec.le_def, ← Int.ofNat_le, toNat_value, toNat_value, Advances]
  constructor <;> intro h <;> omega

/-- Without an interrupt in between, time runs backwards as the counter runs forwards. -/
theorem not_advances (absoluteTime : BitVec 64) {t t' : BitVec 32} (h : t < t')
    (hlt : t'.toNat ≤ (absoluteTime + 1000).toNat) : ¬ Advances ⟨absoluteTime, t⟩ ⟨absoluteTime, t'⟩ := by
  have h' : t.toNat < t'.toNat := h
  simp only [Advances, wraps, reload]
  split_ifs <;> omega

end Reading

/-! ## Runs -/

/-- The clock after `msm8916_timebase_init`. -/
def Clock.Running (c : Clock) : Prop := c.initialized = true ∧ c.decrementer = 1000

theorem running_timebaseInit (c : Clock) : (timebaseInit c).Running := ⟨rfl, rfl⟩

theorem Clock.Running.handleInterrupt {c : Clock} (h : c.Running) (irqNo : BitVec 32) (counter : BitVec 64) :
    (handleInterrupt irqNo counter c).Running := by
  unfold Pexpert.handleInterrupt
  split_ifs <;> exact h

theorem Clock.Running.getTimebase {c : Clock} (h : c.Running) (counter : BitVec 64) :
    (getTimebase counter c).2.Running ∧
      (getTimebase counter c).1 = Reading.value ⟨c.absoluteTime, counter.setWidth 32⟩ := by
  unfold Pexpert.getTimebase Reading.value
  simp only [h.1, h.2, if_true]
  split_ifs with ht
  · exact ⟨h, rfl⟩
  · -- the low word is zero: the accumulator is moved on, and the value is the same
    rw [not_not] at ht
    rw [ht]
    exact ⟨⟨rfl, rfl⟩, by simp⟩

theorem returned_eq {c : Clock} (h : c.Running) (log : List Event) :
    returned c log = (readings c log).map Reading.value := by
  induction log generalizing c with
  | nil => rfl
  | cons event log ih =>
    cases event with
    | getTimebase counter =>
      obtain ⟨hnext, hval⟩ := h.getTimebase counter
      rw [returned, readings, List.map_cons, ih hnext, hval]
    | interrupt irqNo counter => exact ih (h.handleInterrupt irqNo counter)

/-- **The timebase.**  The counter values are those that the events happen to read; that they
    only increase plays no role. -/
theorem timebase_nondecreasing_iff (c : Clock) (log : List Event) :
    (returned (timebaseInit c) log).Pairwise (· ≤ ·) ↔ (readings (timebaseInit c) log).IsChain Reading.Advances := by
  rw [returned_eq (running_timebaseInit c), ← List.isChain_iff_pairwise, List.isChain_map]
  constructor
  · exact fun h => h.imp fun r r' => (r.value_le_iff r').1
  · exact fun h => h.imp fun r r' => (r.value_le_iff r').2

/-- Two readings, one tick of the counter apart. -/
theorem timebase_decreases :
    ¬ (returned (timebaseInit ⟨0, false, false, 0⟩) [.getTimebase 1, .getTimebase 2]).Pairwise (· ≤ ·) := by
  decide

end PocketDarwin.Pexpert
