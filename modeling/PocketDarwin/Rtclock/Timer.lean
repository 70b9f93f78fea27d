/-
  The real-time clock: the hardware timer of a CPU, and the deadline that it is programmed for.

  `setPop` programs the timer and remembers the time in `rtcPop`; `etimer_resync_deadlines` calls
  it only if the deadline is not later than what is remembered.  All values are 64-bit; a call
  reads the time once.

  * `etimerSetDeadline_programmed`, `_kept` and `_cleared`: what setting a deadline does to the timer.
  * `popAt_le`, `popAt_passed`: when a timer that is programmed for a deadline fires.
-/
import Mathlib.Algebra.Group.Nat.Defs
import Mathlib.Data.Nat.Notation
import Mathlib.Order.Nat
import Mathlib.Tactic.SplitIfs

namespace PocketDarwin.Rtclock

def endOfAllTime : ℕ := 2 ^ 64 - 1

/-- One microsecond. -/
def rtcDecrementerMin : ℕ := 1000

def rtcDecrementerMax : ℕ := 2 ^ 64 - 1

/-- What `cpu_data` and its `rt_timer` say of a CPU, and the time that its hardware timer fires
    at: the one last programmed. -/
structure CpuData where
  cpuRunning : Bool
  rtcPop : ℕ
  deadline : ℕ
  hasExpired : Bool
  pop : Option ℕ

/-- A deadline that is to be met: 0 and `endOfAllTime` are not. -/
def Real (d : ℕ) : Prop := 0 < d ∧ d < endOfAllTime

instance (d : ℕ) : Decidable (Real d) := inferInstanceAs (Decidable (_ ∧ _))

def deadlineToDecrementer (deadline now : ℕ) : ℕ :=
  if deadline ≤ now then rtcDecrementerMin
  else min (max rtcDecrementerMin (deadline - now)) rtcDecrementerMax

/-- The time that a timer programmed at `now` fires at. -/
def popAt (deadline now : ℕ) : ℕ := (now + deadlineToDecrementer deadline now) % 2 ^ 64

/-- It returns the time that it sets. -/
def rtclockInternalArmTimer (c : CpuData) (deadline now : ℕ) : ℕ × CpuData :=
  if deadline = 0 then (0, { c with pop := none })
  else (popAt deadline now, { c with pop := some (popAt deadline now) })

/-- It returns an `int`, of which its caller uses the 32 bits. -/
def setPop (c : CpuData) (time now : ℕ) : ℕ × CpuData :=
  if time = 0 ∨ time = endOfAllTime then
    let armed := rtclockInternalArmTimer c 0 0
    (armed.1 % 2 ^ 32, { armed.2 with rtcPop := armed.1 })
  else
    let armed := rtclockInternalArmTimer c time now
    ((armed.1 + (2 ^ 64 - now)) % 2 ^ 32, { armed.2 with rtcPop := armed.1 })

def etimerResyncDeadlines (c : CpuData) (now : ℕ) : CpuData :=
  let deadline := if c.hasExpired = false ∧ Real c.deadline then c.deadline else endOfAllTime
  if 0 < deadline ∧ deadline ≤ c.rtcPop then
    let set := setPop c deadline now
    { set.2 with rtcPop := if deadline < now then (now + set.1) % 2 ^ 64 else deadline }
  else c

def etimerSetDeadline (c : CpuData) (deadline now : ℕ) : CpuData :=
  etimerResyncDeadlines { c with deadline := deadline } now

/-- `next` is what `timer_queue_expire` returns: the earliest deadline that is left in the queue. -/
def etimerIntr (c : CpuData) (next now : ℕ) : CpuData :=
  let expired := if c.deadline ≤ now then { c with hasExpired := false, deadline := next } else c
  etimerResyncDeadlines { expired with rtcPop := endOfAllTime } now

/-- After `cpu_init` and `rtclock_init`. -/
def CpuData.init (running : Bool) : CpuData := ⟨running, 0, endOfAllTime, false, none⟩

/-! ## When the timer fires -/

theorem popAt_le (d now : ℕ) : popAt d now ≤ d ∨ popAt d now ≤ now + rtcDecrementerMin := by
  have hmod := Nat.mod_le (now + deadlineToDecrementer d now) (2 ^ 64)
  rw [← popAt, deadlineToDecrementer] at hmod
  split_ifs at hmod with h <;> omega

theorem popAt_passed {d now : ℕ} (h : d ≤ now) : popAt d now ≤ now + rtcDecrementerMin := by
  rw [popAt, deadlineToDecrementer, if_pos h]
  exact Nat.mod_le ..

/-! ## What setting a deadline does -/

section
variable {c : CpuData} {d now : ℕ}

/-- **Programmed**, if the deadline is not later than `rtcPop`. -/
theorem etimerSetDeadline_programmed (hc : c.hasExpired = false) (hd : Real d) (h : d ≤ c.rtcPop)
    (now : ℕ) :
    ∃ t, etimerSetDeadline c d now
        = { c with deadline := d, rtcPop := t, pop := some (popAt d now) } ∧
      (popAt d now ≤ t ∨ popAt d now ≤ now + rtcDecrementerMin) := by
  have hset : setPop { c with deadline := d } d now
      = ((popAt d now + (2 ^ 64 - now)) % 2 ^ 32,
        { c with deadline := d, rtcPop := popAt d now, pop := some (popAt d now) }) := by
    have hne : ¬(d = 0 ∨ d = endOfAllTime) := by
      rintro (hd' | hd')
      · exact hd.1.ne' hd'
      · exact hd.2.ne hd'
    rw [setPop, if_neg hne, rtclockInternalArmTimer, if_neg hd.1.ne']
  refine ⟨_, by
    rw [etimerSetDeadline, etimerResyncDeadlines, if_pos (⟨hc, hd⟩ : _ ∧ _)]
    rw [if_pos (⟨hd.1, h⟩ : _ ∧ _), hset], ?_⟩
  split_ifs with hnow
  · exact .inr (popAt_passed hnow.le)
  · exact popAt_le d now

/-- **Kept**, if the deadline is later. -/
theorem etimerSetDeadline_kept (hc : c.hasExpired = false) (hd : Real d) (h : ¬d ≤ c.rtcPop) :
    etimerSetDeadline c d now = { c with deadline := d } := by
  rw [etimerSetDeadline, etimerResyncDeadlines, if_pos (⟨hc, hd⟩ : _ ∧ _), if_neg]
  exact fun h' => h h'.2

/-- **Cleared**, if there is no deadline and `rtcPop` is `endOfAllTime`; -/
theorem etimerSetDeadline_cleared (hd : ¬Real d) (hnow : now < 2 ^ 64) (h : endOfAllTime ≤ c.rtcPop) :
    etimerSetDeadline c d now = { c with deadline := d, rtcPop := endOfAllTime, pop := none } := by
  have hnow' : ¬endOfAllTime < now := by
    rw [endOfAllTime]
    omega
  have hreal : ¬(c.hasExpired = false ∧ Real d) := fun h' => hd h'.2
  have hpop : 0 < endOfAllTime ∧ endOfAllTime ≤ c.rtcPop := ⟨by decide, h⟩
  rw [etimerSetDeadline, etimerResyncDeadlines, if_neg hreal, if_pos hpop]
  rw [setPop, if_pos (.inr rfl), rtclockInternalArmTimer, if_pos rfl]
  simp only [if_neg hnow']

/-- else it is kept. -/
theorem etimerSetDeadline_unset (hd : ¬Real d) (h : c.rtcPop < endOfAllTime) :
    etimerSetDeadline c d now = { c with deadline := d } := by
  have hreal : ¬(c.hasExpired = false ∧ Real d) := fun h' => hd h'.2
  have hpop : ¬(0 < endOfAllTime ∧ endOfAllTime ≤ c.rtcPop) := fun h' => h'.2.not_gt h
  rw [etimerSetDeadline, etimerResyncDeadlines, if_neg hreal, if_neg hpop]

/-- An interrupt sets the deadline that is next with nothing remembered. -/
theorem etimerIntr_eq (hc : c.hasExpired = false) (next : ℕ) :
    etimerIntr c next now = etimerSetDeadline { c with rtcPop := endOfAllTime }
      (if c.deadline ≤ now then next else c.deadline) now := by
  rw [etimerIntr, etimerSetDeadline]
  split_ifs with h
  · rw [hc]
  · rfl

end

end PocketDarwin.Rtclock
