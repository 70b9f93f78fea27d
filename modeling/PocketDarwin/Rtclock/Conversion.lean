/-
  The conversions between the timebase and nanoseconds, and the two system clocks.

  Both multiply 64-bit values, and what does not fit is dropped before the division or the
  shift.  The product grows with its first factor until it no longer fits, and then starts
  again from the bottom.

  * `scaled_monotone_iff`: how far such a conversion is monotone.
  * `conversions_iff`: up to which timebase the time is right and does not go back, and up to
    which interval the decrementer grows with it.
  * `clocksAgree_iff`: the clock that gives nanoseconds takes the timebase as it is, the other one
    converts it; when they agree.
-/
import Mathlib.Data.Set.Defs
import Mathlib.Order.Monotone.Defs
import PocketDarwin.Rtclock.Timer

namespace PocketDarwin.Rtclock

def nsecPerSec : ℕ := 1000000000

/-- The factors that the clock is configured with. -/
structure Clock where
  rtclockSecDivisor : ℕ
  tscFreq : ℕ
  tscFCvtt2n : ℕ
  tscFCvtn2t : ℕ

/-- `none` is a panic. -/
def rtclockBusConfigure (timebaseFrequencyHz rtclockSecDivisor : ℕ) : Option Clock :=
  if timebaseFrequencyHz = 0 then none
  else if rtclockSecDivisor = 0 then none
  else
    let tscFreq := timebaseFrequencyHz
    let tscFCvtt2n := (1000000000 * 2 ^ 32) / tscFreq
    some ⟨rtclockSecDivisor, tscFreq, tscFCvtt2n, (2 ^ 64 - 1) / tscFCvtt2n⟩

def rtclockTimerScaleConvert (c : Clock) (timebase : ℕ) : ℕ :=
  if c.tscFreq = 0 then 0 else timebase * nsecPerSec % 2 ^ 64 / c.tscFreq

def machAbsoluteTime (c : Clock) (timebase : ℕ) : ℕ :=
  if c.rtclockSecDivisor = 0 then 0 else rtclockTimerScaleConvert c timebase

def tmrCvt (time unit : ℕ) : ℕ := time * unit % 2 ^ 64 / 2 ^ 32

/-- The intervals that `deadlineToDecrementer` returns. -/
def Delta (delta : ℕ) : Prop :=
  ∃ deadline now, deadline < 2 ^ 64 ∧ now < 2 ^ 64 ∧ delta = deadlineToDecrementer deadline now

theorem delta_iff (delta : ℕ) :
    Delta delta ↔ rtcDecrementerMin ≤ delta ∧ delta ≤ rtcDecrementerMax := by
  have hle : rtcDecrementerMin ≤ rtcDecrementerMax := by decide
  constructor
  · rintro ⟨deadline, now, -, -, rfl⟩
    rw [deadlineToDecrementer]
    split_ifs
    · exact ⟨le_rfl, hle⟩
    · exact ⟨le_min (le_max_left _ _) hle, min_le_right _ _⟩
  · rintro ⟨hmin, hmax⟩
    have hpos : 0 < delta := lt_of_lt_of_le (by decide) hmin
    refine ⟨delta, 0, Nat.lt_of_le_of_lt hmax (by decide), by decide, ?_⟩
    rw [deadlineToDecrementer, if_neg (by omega), Nat.sub_zero, max_eq_right hmin, min_eq_left hmax]

/-! ## Products that do not fit -/

/-- A product that is cut off is right, behind the division, only if it fits. -/
theorem scaled_eq_iff {n u k : ℕ} (hk : 0 < k) (hkm : k ≤ 2 ^ 64) :
    n * u % 2 ^ 64 / k = n * u / k ↔ n * u < 2 ^ 64 := by
  constructor
  · intro h
    by_contra hge
    have hcut : n * u % 2 ^ 64 + 2 ^ 64 ≤ n * u := by
      have := Nat.mod_add_div (n * u) (2 ^ 64)
      have hdiv : 0 < n * u / 2 ^ 64 := Nat.div_pos (not_lt.1 hge) (by decide)
      omega
    have hdiv := Nat.div_le_div_right (c := k) (le_trans (Nat.add_le_add_left hkm _) hcut)
    rw [Nat.add_div_right _ hk, ← h] at hdiv
    omega
  · intro h
    rw [Nat.mod_eq_of_lt h]

/-- **A conversion** is monotone as far as the product fits. -/
theorem scaled_monotone_iff {u k lo : ℕ} (hu : 0 < u) (hk : 0 < k) (hroom : 2 * u + k ≤ 2 ^ 64)
    (hlo : lo * u < 2 ^ 64) (hi : ℕ) :
    MonotoneOn (fun n => n * u % 2 ^ 64 / k) {n | lo ≤ n ∧ n ≤ hi} ↔ hi * u < 2 ^ 64 := by
  constructor
  · intro hmono
    by_contra hge
    -- the last factor whose product fits, and the one behind it
    have hlast : (2 ^ 64 - 1) / u * u ≤ 2 ^ 64 - 1 := Nat.div_mul_le_self _ _
    have hnext : 2 ^ 64 - 1 < ((2 ^ 64 - 1) / u + 1) * u := by
      rw [Nat.mul_comm]
      exact Nat.lt_mul_div_succ _ hu
    generalize hq : (2 ^ 64 - 1) / u = q at hlast hnext
    have hlo' : lo ≤ q := by
      rw [← hq]
      exact (Nat.le_div_iff_mul_le hu).2 (by omega)
    have hhi : q < hi := by
      by_contra hle
      have := Nat.mul_le_mul_right u (not_lt.1 hle)
      omega
    have hle := hmono (a := q) (b := q + 1) ⟨hlo', by omega⟩ ⟨by omega, hhi⟩ (Nat.le_succ q)
    rw [Nat.add_mul, Nat.one_mul] at hnext
    have hcut : (q + 1) * u % 2 ^ 64 = q * u + u - 2 ^ 64 := by
      rw [Nat.add_mul, Nat.one_mul, Nat.mod_eq_sub_mod (by omega), Nat.mod_eq_of_lt (by omega)]
    simp only [hcut,
      Nat.mod_eq_of_lt (Nat.lt_of_le_of_lt hlast (by decide : 2 ^ 64 - 1 < 2 ^ 64))] at hle
    have hdrop : (q * u + u - 2 ^ 64 + k) / k ≤ q * u / k := Nat.div_le_div_right (by omega)
    rw [Nat.add_div_right _ hk] at hdrop
    omega
  · intro hfits a ha b hb hab
    have hb' : b * u < 2 ^ 64 := lt_of_le_of_lt (Nat.mul_le_mul_right u hb.2) hfits
    have hab' : a * u ≤ b * u := Nat.mul_le_mul_right u hab
    show a * u % 2 ^ 64 / k ≤ b * u % 2 ^ 64 / k
    rw [Nat.mod_eq_of_lt hb', Nat.mod_eq_of_lt (lt_of_le_of_lt hab' hb')]
    exact Nat.div_le_div_right hab'

/-! ## The conversions -/

section
variable {f divisor : ℕ} {c : Clock}

theorem configured_eq (h : rtclockBusConfigure f divisor = some c) :
    0 < f ∧ 0 < divisor ∧
      c = ⟨divisor, f, 1000000000 * 2 ^ 32 / f, (2 ^ 64 - 1) / (1000000000 * 2 ^ 32 / f)⟩ := by
  rw [rtclockBusConfigure] at h
  split_ifs at h with hf hdivisor
  exact ⟨Nat.pos_of_ne_zero hf, Nat.pos_of_ne_zero hdivisor, (Option.some.inj h).symm⟩

theorem machAbsoluteTime_eq (h : rtclockBusConfigure f divisor = some c) (t : ℕ) :
    machAbsoluteTime c t = t * nsecPerSec % 2 ^ 64 / f := by
  obtain ⟨hf, hdivisor, rfl⟩ := configured_eq h
  rw [machAbsoluteTime, if_neg (Nat.ne_of_gt hdivisor), rtclockTimerScaleConvert,
    if_neg (Nat.ne_of_gt hf)]

/-- From 1 MHz to 1 GHz the factor to ticks is a fraction, and not 0. -/
theorem tscFCvtn2t_bounds (hlow : 1000000 ≤ f) (hhigh : f ≤ 1000000000) :
    0 < (2 ^ 64 - 1) / (1000000000 * 2 ^ 32 / f) ∧ (2 ^ 64 - 1) / (1000000000 * 2 ^ 32 / f) <
      2 ^ 32 := by
  have hmin : 2 ^ 32 ≤ 1000000000 * 2 ^ 32 / f := by
    rw [Nat.le_div_iff_mul_le (by omega), Nat.mul_comm]
    exact Nat.mul_le_mul_right _ hhigh
  have hmax : 1000000000 * 2 ^ 32 / f ≤ 1000 * 2 ^ 32 := by
    refine Nat.div_le_of_le_mul ?_
    have := Nat.mul_le_mul_right (1000 * 2 ^ 32) hlow
    omega
  generalize 1000000000 * 2 ^ 32 / f = n at hmin hmax
  constructor
  · exact Nat.div_pos (by omega) (by omega)
  · rw [Nat.div_lt_iff_lt_mul (by omega)]
    have := Nat.mul_le_mul_left (2 ^ 32) hmin
    omega

/-- **The conversions** are right, and do not go back, as long as the products fit in 64 bits. -/
theorem conversions_iff (h : rtclockBusConfigure f divisor = some c) (hlow : 1000000 ≤ f)
    (hhigh : f ≤ 1000000000) :
    (∀ t, machAbsoluteTime c t = t * nsecPerSec / f ↔ t * nsecPerSec < 2 ^ 64) ∧
    (∀ limit, MonotoneOn (machAbsoluteTime c) {t | t ≤ limit} ↔ limit * nsecPerSec < 2 ^ 64) ∧
    (∀ limit, Delta limit →
      (MonotoneOn (fun delta => tmrCvt delta c.tscFCvtn2t) {delta | Delta delta ∧ delta ≤ limit} ↔
        limit * ((2 ^ 64 - 1) / (1000000000 * 2 ^ 32 / f)) < 2 ^ 64)) := by
  have htime : machAbsoluteTime c = fun t => t * nsecPerSec % 2 ^ 64 / f :=
    funext (machAbsoluteTime_eq h)
  obtain ⟨hf, -, hc⟩ := configured_eq h
  refine ⟨fun t => ?_, fun limit => ?_, fun limit hlimit => ?_⟩
  · rw [htime]
    exact scaled_eq_iff hf (by omega)
  · have hset : {t : ℕ | t ≤ limit} = {t | 0 ≤ t ∧ t ≤ limit} := by simp
    rw [htime, hset]
    have hsum : 2 * nsecPerSec + f ≤ 2 ^ 64 := by
      rw [nsecPerSec]
      omega
    exact scaled_monotone_iff (by decide) hf hsum (by decide) limit
  · obtain ⟨hpos, hlt⟩ := tscFCvtn2t_bounds hlow hhigh
    have hset : {delta | Delta delta ∧ delta ≤ limit} =
        {delta | rtcDecrementerMin ≤ delta ∧ delta ≤ limit} := by
      ext delta
      have hmax := ((delta_iff limit).1 hlimit).2
      show Delta delta ∧ delta ≤ limit ↔ rtcDecrementerMin ≤ delta ∧ delta ≤ limit
      rw [delta_iff]
      omega
    rw [hset, hc]
    generalize (2 ^ 64 - 1) / (1000000000 * 2 ^ 32 / f) = unit at hpos hlt
    have hmin : rtcDecrementerMin * unit < 2 ^ 64 := by
      rw [rtcDecrementerMin]
      omega
    exact scaled_monotone_iff hpos (by decide) (by omega) hmin limit

end

/-- At 24 MHz, up to 18 seconds of timebase and for intervals of a second. -/
theorem conversions_24MHz :
    ∃ c, rtclockBusConfigure 24000000 1 = some c ∧
      machAbsoluteTime c 24000000 = 24000000 * nsecPerSec / 24000000 ∧
      MonotoneOn (machAbsoluteTime c) {t | t ≤ 24000000} ∧
      MonotoneOn (fun delta => tmrCvt delta c.tscFCvtn2t)
        {delta | Delta delta ∧ delta ≤ 1000000000} := by
  have hclock : ∃ c, rtclockBusConfigure 24000000 1 = some c := ⟨_, rfl⟩
  obtain ⟨c, hc⟩ := hclock
  obtain ⟨htime, hmono, hdelta⟩ := conversions_iff hc (by decide) (by decide)
  refine ⟨c, hc, (htime _).2 (by decide), (hmono _).2 (by decide), (hdelta _ ?_).2 (by decide)⟩
  exact (delta_iff _).2 ⟨by decide, by decide⟩

/-- At 24 MHz the time goes back after 768 seconds, to less than a microsecond, and an interval
    of 179 seconds is cut to none. -/
theorem time_goes_back :
    ∃ c, rtclockBusConfigure 24000000 1 = some c ∧ 18446744074 * nsecPerSec / 24000000 < 2 ^ 64 ∧
      machAbsoluteTime c 18446744073 = 768614336375 ∧ machAbsoluteTime c 18446744074 = 12 ∧
      tmrCvt 178956970847 c.tscFCvtn2t = 4294967295 ∧ tmrCvt 178956970848 c.tscFCvtn2t = 0 :=
  ⟨_, rfl, by decide, by decide, by decide, by decide, by decide⟩

/-! ## The system clocks -/

def nsecPerUsec : ℕ := 1000

def usecPerSec : ℕ := 1000000

/-- `_absolutetime_to_microtime`: the seconds and the microseconds, in 32 bits. -/
def absolutetimeToMicrotime (abstime : ℕ) : ℕ × ℕ :=
  let remain := abstime % nsecPerSec % 2 ^ 32
  (abstime / nsecPerSec % 2 ^ 32, remain / nsecPerUsec)

/-- `_absolutetime_to_nanotime` -/
def absolutetimeToNanotime (abstime : ℕ) : ℕ × ℕ :=
  (abstime / nsecPerSec % 2 ^ 32, abstime % nsecPerSec % 2 ^ 32)

/-- `clock_get_system_nanotime`, which takes the timebase for nanoseconds. -/
def clockGetSystemNanotime (timebase : ℕ) : ℕ × ℕ := absolutetimeToNanotime timebase

def clockGetSystemMicrotime (c : Clock) (timebase : ℕ) : ℕ × ℕ :=
  absolutetimeToMicrotime (machAbsoluteTime c timebase)

/-- The clocks tell the same time. -/
def ClocksAgree (c : Clock) (timebase : ℕ) : Prop :=
  (clockGetSystemMicrotime c timebase).1 = (clockGetSystemNanotime timebase).1 ∧
    (clockGetSystemMicrotime c timebase).2 = (clockGetSystemNanotime timebase).2 / nsecPerUsec

instance (c : Clock) (timebase : ℕ) : Decidable (ClocksAgree c timebase) :=
  inferInstanceAs (Decidable (_ ∧ _))

/-- The microseconds up to which the seconds fit in 32 bits. -/
def usecRange : ℕ := usecPerSec * 2 ^ 32

theorem parts_eq_iff {a b k n : ℕ} :
    a / k % n = b / k % n ∧ a % k = b % k ↔ a % (k * n) = b % (k * n) := by
  constructor
  · rintro ⟨hdiv, hmod⟩
    rw [Nat.mod_mul, Nat.mod_mul, hdiv, hmod]
  · intro h
    rw [← Nat.mod_mul_right_div_self, ← Nat.mod_mul_right_div_self, ← Nat.mod_mul_right_mod a k n,
      ← Nat.mod_mul_right_mod b k n, h]
    exact ⟨rfl, rfl⟩

theorem secs_eq (n : ℕ) : n / nsecPerSec = n / nsecPerUsec / usecPerSec :=
  (Nat.div_div_eq_div_mul n nsecPerUsec usecPerSec).symm

theorem usecs_eq (n : ℕ) :
    n % nsecPerSec % 2 ^ 32 / nsecPerUsec = n / nsecPerUsec % usecPerSec := by
  unfold nsecPerSec nsecPerUsec usecPerSec
  omega

/-- **The clocks** agree exactly if the product, cut off, is in the microsecond that the timebase is
    in if it is nanoseconds. -/
theorem clocksAgree_iff {f divisor : ℕ} {c : Clock} (h : rtclockBusConfigure f divisor = some c)
    (timebase : ℕ) :
    ClocksAgree c timebase ↔
      ∃ usec, usec % usecRange = timebase / nsecPerUsec % usecRange ∧
        usec * (nsecPerUsec * f) ≤ timebase * nsecPerSec % 2 ^ 64 ∧
        timebase * nsecPerSec % 2 ^ 64 < (usec + 1) * (nsecPerUsec * f) := by
  have hpos : 0 < nsecPerUsec * f := Nat.mul_pos (by decide) (configured_eq h).1
  have hagree : ClocksAgree c timebase ↔ machAbsoluteTime c timebase / nsecPerUsec % usecRange =
      timebase / nsecPerUsec % usecRange := by
    refine Iff.trans ?_ parts_eq_iff
    rw [← secs_eq, ← secs_eq, ← usecs_eq, ← usecs_eq]
    exact Iff.rfl
  rw [hagree, machAbsoluteTime_eq h, Nat.div_div_eq_div_mul, Nat.mul_comm f]
  constructor
  · intro hsame
    exact ⟨_, hsame, Nat.div_mul_le_self _ _, Nat.lt_mul_of_div_lt (Nat.lt_succ_self _) hpos⟩
  · rintro ⟨usec, hsame, hle, hlt⟩
    rw [← hsame, Nat.div_eq_of_lt_le hle hlt]

/-- At 24 MHz, as long as both are in their first microsecond. -/
theorem clocksAgree_24MHz :
    ∃ c, rtclockBusConfigure 24000000 1 = some c ∧ ClocksAgree c 23 := by
  obtain ⟨c, hc⟩ : ∃ c, rtclockBusConfigure 24000000 1 = some c := ⟨_, rfl⟩
  exact ⟨c, hc, (clocksAgree_iff hc 23).2 ⟨0, by decide, by decide, by decide⟩⟩

/-- At 24 MHz, after a second, the one clock is at 24 milliseconds. -/
theorem clocks_differ_24MHz :
    ∃ c, rtclockBusConfigure 24000000 1 = some c ∧
      clockGetSystemNanotime 24000000 = (0, 24000000) ∧
      clockGetSystemMicrotime c 24000000 = (1, 0) ∧ ¬ ClocksAgree c 24000000 :=
  ⟨_, rfl, by decide, by decide, by decide⟩

/-- At every frequency the clocks differ when the product no longer fits. -/
theorem clocks_differ {f divisor : ℕ} {c : Clock} (h : rtclockBusConfigure f divisor = some c) :
    ¬ ClocksAgree c 18446744074 := by
  rw [clocksAgree_iff h]
  rintro ⟨usec, hsame, hle, -⟩
  have hcut : usec * nsecPerUsec ≤ 290448384 :=
    (Nat.mul_le_mul_left usec (Nat.le_mul_of_pos_right nsecPerUsec (configured_eq h).1)).trans hle
  have husec : usec ≤ 290448 := by
    unfold nsecPerUsec at hcut
    omega
  have hlt : ∀ n ≤ 18446744, n % usecRange = n := fun n hn =>
    Nat.mod_eq_of_lt (hn.trans_lt (by decide))
  rw [hlt usec (by omega), hlt _ (by decide)] at hsame
  have htimebase : 18446744074 / nsecPerUsec = 18446744 := by decide
  omega

end PocketDarwin.Rtclock
