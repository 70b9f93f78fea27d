/-
  Deadlines of the timer queues: the calls that set and drop them, on any CPU and at any time.

  The queue of a CPU holds the requests that are pending.  The calls tell a queue its earliest
  deadline: whatever is earlier has been served or withdrawn.  A request made on a CPU that does
  not run goes to the queue of the master, whose timer is not touched.

  * `Sound`: the invariant of a CPU and its queue.
  * `Sound.set`, `Sound.join`, `Sound.intr`: a deadline that can be served keeps it.
  * `deadlines_served`: if all calls can be served, no deadline is lost in the run.
-/
import PocketDarwin.Rtclock.Timer
import PocketDarwin.Runs
import Mathlib.Logic.Function.Basic

namespace PocketDarwin.Rtclock

universe u
variable {Cpu : Type u}

/-- A deadline and when it was requested. -/
structure Request where
  deadline : ℕ
  time : ℕ
  deriving DecidableEq

structure System (Cpu : Type u) where
  cpus : Cpu → CpuData
  queues : Cpu → List Request
  time : ℕ

inductive Call (Cpu : Type u) where
  | etimerSetDeadline (deadline : ℕ)
  | timerQueueAssign (deadline : ℕ)
  | timerQueueCancel (queue : Cpu) (deadline newDeadline : ℕ)
  /-- `next` is what `timer_queue_expire` returns, if it is called. -/
  | etimerIntr (next : ℕ)

/-- A call, the CPU that makes it, and when. -/
structure Event (Cpu : Type u) where
  cpu : Cpu
  now : ℕ
  call : Call Cpu

/-! ## The queues -/

def request (d now : ℕ) : List Request := if Real d then [⟨d, now⟩] else []

/-- What is left if the earliest deadline of the queue is `d`. -/
def startFrom (d : ℕ) (queue : List Request) : List Request := queue.filter (d ≤ ·.deadline)

theorem mem_request {d now : ℕ} {r : Request} : r ∈ request d now ↔ Real d ∧ r = ⟨d, now⟩ := by
  rw [request]
  split_ifs with h <;> simp [h]

theorem mem_startFrom {d : ℕ} {queue : List Request} {r : Request} :
    r ∈ startFrom d queue ↔ r ∈ queue ∧ d ≤ r.deadline := by simp [startFrom]

/-! ## The calls -/

section
variable [DecidableEq Cpu]

/-- The queue that it returns, and the CPU. -/
def timerQueueAssign (master self : Cpu) (c : CpuData) (deadline now : ℕ) : Cpu × CpuData :=
  if c.cpuRunning then
    (self, if deadline < c.deadline then etimerSetDeadline c deadline now else c)
  else (master, c)

def timerQueueCancel (self : Cpu) (c : CpuData) (queue : Cpu) (deadline newDeadline now : ℕ) :
    CpuData :=
  if queue = self then
    if deadline < newDeadline then etimerSetDeadline c newDeadline now else c
  else c

/-- The queue that a call drops a deadline from. -/
def cancelled (self queue : Cpu) (deadline newDeadline now : ℕ) (q : List Request) : List Request :=
  if deadline < newDeadline then
    (if queue = self then request newDeadline now else []) ++ startFrom newDeadline q
  else q.eraseP (·.deadline = deadline)

/-- What the interrupt leaves in the queue. -/
def unexpired (c : CpuData) (next now : ℕ) (q : List Request) : List Request :=
  if c.deadline ≤ now then request next now ++ startFrom next q else q

def step (master : Cpu) (s : System Cpu) (e : Event Cpu) : System Cpu :=
  let c := s.cpus e.cpu
  let q := s.queues e.cpu
  match e.call with
  | .etimerSetDeadline d =>
    { cpus := Function.update s.cpus e.cpu (etimerSetDeadline c d e.now)
      queues := Function.update s.queues e.cpu (request d e.now ++ startFrom d q)
      time := e.now }
  | .timerQueueAssign d =>
    let assigned := timerQueueAssign master e.cpu c d e.now
    { cpus := Function.update s.cpus e.cpu assigned.2
      queues := Function.update s.queues assigned.1 (request d e.now ++ s.queues assigned.1)
      time := e.now }
  | .timerQueueCancel queue d new =>
    { cpus := Function.update s.cpus e.cpu (timerQueueCancel e.cpu c queue d new e.now)
      queues := Function.update s.queues queue (cancelled e.cpu queue d new e.now (s.queues queue))
      time := e.now }
  | .etimerIntr next =>
    { cpus := Function.update s.cpus e.cpu (etimerIntr c next e.now)
      queues := Function.update s.queues e.cpu (unexpired c next e.now q)
      time := e.now }

end

/-- No queue has a deadline, and no timer is programmed. -/
def System.init (running : Cpu → Bool) : System Cpu :=
  ⟨fun cpu => CpuData.init (running cpu), fun _ => [], 0⟩

/-! ## What is to hold -/

/-- The timer fires by the deadline, or within the minimum interval of a request that was late. -/
def Timely (c : CpuData) (r : Request) : Prop :=
  ∃ p ∈ c.pop, p ≤ r.deadline ∨ r.deadline ≤ r.time ∧ p ≤ r.time + rtcDecrementerMin

def AllTimely (s : System Cpu) : Prop := ∀ cpu, ∀ r ∈ s.queues cpu, Timely (s.cpus cpu) r

/-- Time does not go back, and is 64-bit. -/
def InTime (s : System Cpu) (e : Event Cpu) : Prop := s.time ≤ e.now ∧ e.now < 2 ^ 64

/-! ## What can be served -/

/-- The deadline is ahead, but closer than the minimum interval. -/
def Close (d now : ℕ) : Prop := now < d ∧ d < now + rtcDecrementerMin

/-- `rtcPop` is true of the timer, and not later than the deadline. -/
def Covers (c : CpuData) (d : ℕ) : Prop := ∃ p ∈ c.pop, p ≤ c.rtcPop ∧ c.rtcPop ≤ d

/-- A deadline that has passed makes the timer fire after the minimum interval: nothing else in the
    queue may be due by then, but what has passed when it was requested just now. -/
def Room (d now : ℕ) (q : List Request) : Prop :=
  d ≤ now → ∀ r ∈ q, now + rtcDecrementerMin ≤ r.deadline ∨ r.deadline ≤ r.time ∧ now ≤ r.time

/-- The deadline can be set on a CPU that is left with this queue: if `rtcPop` has the timer
    programmed, if it has it kept, and if there is no deadline. -/
def CanSet (c : CpuData) (q : List Request) (d now : ℕ) : Prop :=
  if Real d then
    if d ≤ c.rtcPop then ¬Close d now ∧ Room d now q
    else c.rtcPop ≠ 0 ∧ (Close d now → Covers c d)
  else c.rtcPop < endOfAllTime ∨ q = []

/-- The deadline can join the queue of a CPU whose timer is not touched. -/
def CanJoin (c : CpuData) (d now : ℕ) : Prop :=
  Real d → c.deadline ≠ 0 ∧ c.deadline ≤ d ∧ (Close d now → Covers c d)

section
variable [DecidableEq Cpu]

def CanServe (master : Cpu) (s : System Cpu) (e : Event Cpu) : Prop :=
  let c := s.cpus e.cpu
  let q := s.queues e.cpu
  match e.call with
  | .etimerSetDeadline d => CanSet c (startFrom d q) d e.now
  | .timerQueueAssign d =>
    if c.cpuRunning then
      if d < c.deadline then CanSet c q d e.now else CanJoin c d e.now
    else CanJoin (s.cpus master) d e.now
  | .timerQueueCancel queue d new => queue = e.cpu ∧ d < new → CanSet c (startFrom new q) new e.now
  | .etimerIntr next =>
    if c.deadline ≤ e.now then
      CanSet { c with rtcPop := endOfAllTime } (startFrom next q) next e.now
    else CanSet { c with rtcPop := endOfAllTime } q c.deadline e.now

end

section
variable (c : CpuData) (q : List Request) (d now : ℕ)

instance : Decidable (Close d now) := inferInstanceAs (Decidable (_ ∧ _))

instance : Decidable (Covers c d) := inferInstanceAs (Decidable (∃ p ∈ c.pop, _ ∧ _))

instance : Decidable (Room d now q) := inferInstanceAs (Decidable (_ → ∀ r ∈ q, _ ∨ _))

instance : Decidable (CanSet c q d now) := inferInstanceAs (Decidable (ite _ (ite _ _ _) _))

instance : Decidable (CanJoin c d now) := inferInstanceAs (Decidable (_ → _ ∧ _ ∧ _))

instance [DecidableEq Cpu] (master : Cpu) (s : System Cpu) :
    (e : Event Cpu) → Decidable (CanServe master s e)
  | ⟨_, _, .etimerSetDeadline _⟩ => inferInstanceAs (Decidable (CanSet _ _ _ _))
  | ⟨_, _, .timerQueueAssign _⟩ => inferInstanceAs (Decidable (ite _ (ite _ _ _) _))
  | ⟨_, _, .timerQueueCancel _ _ _⟩ => inferInstanceAs (Decidable (_ ∧ _ → CanSet _ _ _ _))
  | ⟨_, _, .etimerIntr _⟩ => inferInstanceAs (Decidable (ite _ _ _))

end

/-! ## The invariant -/

section
variable {c : CpuData} {q : List Request} {r : Request} {d T now : ℕ}

/-- Of a CPU and its queue, at the time `T`. -/
structure Sound (T : ℕ) (c : CpuData) (q : List Request) : Prop where
  hasExpired : c.hasExpired = false
  pop : ∀ p ∈ c.pop, p ≤ c.rtcPop ∨ p ≤ T + rtcDecrementerMin
  idle : c.pop = none → c.rtcPop = 0 ∨ c.rtcPop = endOfAllTime
  deadline : Real c.deadline → ∃ t ≤ T, Timely c ⟨c.deadline, t⟩
  queue : ∀ r ∈ q, Real r.deadline ∧ c.deadline ≤ r.deadline ∧ r.time ≤ T ∧ Timely c r

theorem Sound.init (running : Bool) : Sound 0 (CpuData.init running) [] where
  hasExpired := rfl
  pop _ hp := nomatch hp
  idle _ := .inl rfl
  deadline h := absurd h.2 (lt_irrefl _)
  queue _ hr := nomatch hr

theorem Sound.mono {T' : ℕ} (h : Sound T c q) (hT : T ≤ T') : Sound T' c q where
  hasExpired := h.hasExpired
  pop p hp := (h.pop p hp).imp_right fun h' => h'.trans (Nat.add_le_add_right hT _)
  idle := h.idle
  deadline hd := by
    obtain ⟨t, ht, htimely⟩ := h.deadline hd
    exact ⟨t, ht.trans hT, htimely⟩
  queue r hr := by
    obtain ⟨hreal, hle, htime, htimely⟩ := h.queue r hr
    exact ⟨hreal, hle, htime.trans hT, htimely⟩

/-- Requests may be dropped. -/
theorem Sound.subset {q' : List Request} (h : Sound T c q) (hq : q' ⊆ q) : Sound T c q' :=
  { h with queue := fun r hr => h.queue r (hq hr) }

/-! ## Setting a deadline -/

/-- A deadline that is not close is met by a timer that fires within the minimum interval. -/
theorem fires_by {p : ℕ} (hclose : ¬Close d now) (h : p ≤ d ∨ p ≤ now + rtcDecrementerMin) :
    p ≤ d ∨ d ≤ now ∧ p ≤ now + rtcDecrementerMin := by
  rcases h with h | h
  · exact .inl h
  by_cases hnow : d ≤ now
  · exact .inr ⟨hnow, h⟩
  · exact .inl (h.trans (not_lt.1 fun hlt => hclose ⟨not_le.1 hnow, hlt⟩))

/-- The timer is programmed for the deadline, and all that is left in the queue is later. -/
theorem Sound.programmed (hc : c.hasExpired = false) (hd : Real d) (hpop : d ≤ c.rtcPop)
    (hclose : ¬Close d now)
    (hroom : Room d now q) (hq : ∀ r ∈ q, Real r.deadline ∧ d ≤ r.deadline ∧ r.time ≤ now) :
    Sound now (etimerSetDeadline c d now) (request d now ++ q) := by
  obtain ⟨t, heq, ht⟩ := etimerSetDeadline_programmed hc hd hpop now
  have hnew := fires_by hclose (popAt_le d now)
  rw [heq]
  constructor
  · exact hc
  · rintro _ ⟨⟩
    exact ht
  · exact nofun
  · exact fun _ => ⟨now, le_rfl, _, rfl, hnew⟩
  · intro r hr
    rcases List.mem_append.1 hr with hr | hr
    · obtain ⟨_, rfl⟩ := mem_request.1 hr
      exact ⟨hd, le_rfl, le_rfl, _, rfl, hnew⟩
    · obtain ⟨hreal, hle, htime⟩ := hq r hr
      refine ⟨hreal, hle, htime, _, rfl, ?_⟩
      rcases hnew with hpop' | ⟨hnow, hpop'⟩
      · exact .inl (hpop'.trans hle)
      · -- it fires after the minimum interval, which there is room for
        rcases hroom hnow r hr with hlater | ⟨hlate, hjust⟩
        · exact .inl (hpop'.trans hlater)
        · exact .inr ⟨hlate, hpop'.trans (Nat.add_le_add_right hjust _)⟩

/-- The timer is not touched: it fires by a deadline that is not earlier than `rtcPop`. -/
theorem Sound.timely_of_rtcPop_le (h : Sound now c q) (h0 : c.rtcPop ≠ 0) (hd : Real d)
    (hle : c.rtcPop ≤ d)
    (hcovers : Close d now → Covers c d) : Timely c ⟨d, now⟩ := by
  by_cases hclose : Close d now
  · obtain ⟨p, hp, hpop, hrtc⟩ := hcovers hclose
    exact ⟨p, hp, .inl (hpop.trans hrtc)⟩
  have hend : c.rtcPop ≠ endOfAllTime := (hle.trans_lt hd.2).ne
  obtain ⟨p, hp⟩ : ∃ p, c.pop = some p := by
    rw [← Option.ne_none_iff_exists']
    exact fun hnone => (h.idle hnone).elim h0 hend
  exact ⟨p, hp, fires_by hclose ((h.pop p hp).imp_left hle.trans')⟩

/-- It fires by a deadline that is not earlier than the one that is set. -/
theorem Sound.timely_of_deadline_le (h : Sound now c q) (hd : Real d) (hcan : CanJoin c d now) :
    Timely c ⟨d, now⟩ := by
  obtain ⟨h0, hle, hcovers⟩ := hcan hd
  by_cases hclose : Close d now
  · obtain ⟨p, hp, hpop, hrtc⟩ := hcovers hclose
    exact ⟨p, hp, .inl (hpop.trans hrtc)⟩
  obtain ⟨t, ht, p, hp, hpop⟩ := h.deadline ⟨Nat.pos_of_ne_zero h0, hle.trans_lt hd.2⟩
  refine ⟨p, hp, fires_by hclose ?_⟩
  rcases hpop with hpop | ⟨_, hpop⟩
  · exact .inl (hpop.trans hle)
  · exact .inr (hpop.trans (Nat.add_le_add_right ht _))

/-- The timer is kept as it is, for a deadline that is later than `rtcPop`. -/
theorem Sound.kept (h : Sound now c q) (hd : Real d) (hpop : ¬d ≤ c.rtcPop) (h0 : c.rtcPop ≠ 0)
    (hcovers : Close d now → Covers c d) (hq : ∀ r ∈ q, d ≤ r.deadline) :
    Sound now (etimerSetDeadline c d now) (request d now ++ q) := by
  rw [etimerSetDeadline_kept h.hasExpired hd hpop]
  have hnew : Timely c ⟨d, now⟩ := h.timely_of_rtcPop_le h0 hd (not_le.1 hpop).le hcovers
  refine { h with deadline := fun _ => ⟨now, le_rfl, hnew⟩, queue := ?_ }
  intro r hr
  rcases List.mem_append.1 hr with hr | hr
  · obtain ⟨_, rfl⟩ := mem_request.1 hr
    exact ⟨hd, le_rfl, le_rfl, hnew⟩
  · obtain ⟨hreal, _, htime, htimely⟩ := h.queue r hr
    exact ⟨hreal, hq r hr, htime, htimely⟩

/-- There is no deadline, and the timer is kept, -/
theorem Sound.unset (h : Sound now c q) (hd : ¬Real d) (hpop : c.rtcPop < endOfAllTime)
    (hq : ∀ r ∈ q, d ≤ r.deadline) : Sound now (etimerSetDeadline c d now) (request d now ++ q) := by
  rw [etimerSetDeadline_unset hd hpop, request, if_neg hd, List.nil_append]
  refine { h with deadline := fun h' => absurd h' hd, queue := ?_ }
  intro r hr
  obtain ⟨hreal, _, htime, htimely⟩ := h.queue r hr
  exact ⟨hreal, hq r hr, htime, htimely⟩

/-- or it is cleared, and has nothing to fire for. -/
theorem Sound.cleared (hc : c.hasExpired = false) (hd : ¬Real d) (hnow : now < 2 ^ 64)
    (hpop : endOfAllTime ≤ c.rtcPop) :
    Sound now (etimerSetDeadline c d now) (request d now ++ []) := by
  rw [etimerSetDeadline_cleared hd hnow hpop, request, if_neg hd]
  exact ⟨hc, nofun, fun _ => .inr rfl, fun h' => absurd h' hd, nofun⟩

theorem Sound.set (h : Sound now c q) (hnow : now < 2 ^ 64) (hq : ∀ r ∈ q, d ≤ r.deadline)
    (hcan : CanSet c q d now) : Sound now (etimerSetDeadline c d now) (request d now ++ q) := by
  rw [CanSet] at hcan
  split_ifs at hcan with hd hpop
  · refine Sound.programmed h.hasExpired hd hpop hcan.1 hcan.2 fun r hr => ?_
    obtain ⟨hreal, _, htime, _⟩ := h.queue r hr
    exact ⟨hreal, hq r hr, htime⟩
  · exact h.kept hd hpop hcan.1 hcan.2 hq
  · by_cases hpop : c.rtcPop < endOfAllTime
    · exact h.unset hd hpop hq
    · rw [hcan.resolve_left hpop]
      exact Sound.cleared h.hasExpired hd hnow (not_lt.1 hpop)

/-- A deadline that joins the queue. -/
theorem Sound.join (h : Sound now c q) (hcan : CanJoin c d now) :
    Sound now c (request d now ++ q) := by
  refine { h with queue := ?_ }
  intro r hr
  rcases List.mem_append.1 hr with hr | hr
  · obtain ⟨hd, rfl⟩ := mem_request.1 hr
    exact ⟨hd, (hcan hd).2.1, le_rfl, h.timely_of_deadline_le hd hcan⟩
  · exact h.queue r hr

/-! ## The interrupt -/

/-- What the timer was does not matter if `rtcPop` is reset first. -/
theorem Sound.reset (hc : c.hasExpired = false) (hnow : now < 2 ^ 64)
    (hq : ∀ r ∈ q, Real r.deadline ∧ d ≤ r.deadline ∧ r.time ≤ now)
    (hcan : CanSet { c with rtcPop := endOfAllTime } q d now) :
    Sound now (etimerSetDeadline { c with rtcPop := endOfAllTime } d now) (request d now ++ q) := by
  rw [CanSet] at hcan
  split_ifs at hcan with hd hpop
  · exact Sound.programmed hc hd hpop hcan.1 hcan.2 hq
  · exact absurd hd.2.le hpop
  · rw [hcan.resolve_left (lt_irrefl _)]
    exact Sound.cleared hc hd hnow le_rfl

theorem Sound.intr {next : ℕ} (h : Sound now c q) (hnow : now < 2 ^ 64)
    (hcan : if c.deadline ≤ now then
        CanSet { c with rtcPop := endOfAllTime } (startFrom next q) next now
      else CanSet { c with rtcPop := endOfAllTime } q c.deadline now) :
    Sound now (etimerIntr c next now) (unexpired c next now q) := by
  rw [etimerIntr_eq h.hasExpired, unexpired]
  split_ifs at hcan ⊢ with hexp
  · refine Sound.reset h.hasExpired hnow (fun r hr => ?_) hcan
    obtain ⟨hr, hle⟩ := mem_startFrom.1 hr
    obtain ⟨hreal, _, htime, _⟩ := h.queue r hr
    exact ⟨hreal, hle, htime⟩
  · have hreset : Sound now _ (request c.deadline now ++ q) :=
      Sound.reset h.hasExpired hnow (fun r hr => by
        obtain ⟨hreal, hle, htime, _⟩ := h.queue r hr
        exact ⟨hreal, hle, htime⟩) hcan
    exact hreset.subset (List.subset_append_right _ _)

end

/-! ## Runs -/

/-- Every CPU and its queue are sound. -/
def AllSound (s : System Cpu) : Prop := ∀ cpu, Sound s.time (s.cpus cpu) (s.queues cpu)

theorem AllSound.timely {s : System Cpu} (h : AllSound s) : AllTimely s := by
  intro cpu r hr
  obtain ⟨_, _, _, htimely⟩ := (h cpu).queue r hr
  exact htimely

section
variable [DecidableEq Cpu] {master : Cpu} {s : System Cpu} {e : Event Cpu}

/-- A call on one CPU and its queue. -/
theorem AllSound.update {cpu : Cpu} {now : ℕ} {c : CpuData} {q : List Request} (h : AllSound s)
    (hnow : s.time ≤ now) (hcpu : Sound now c q) :
    AllSound ⟨Function.update s.cpus cpu c, Function.update s.queues cpu q, now⟩ := by
  intro x
  by_cases hx : x = cpu
  · subst hx
    simpa using hcpu
  · simpa [hx] using (h x).mono hnow

/-- A call that touches only a queue. -/
theorem AllSound.update_queue {self cpu : Cpu} {now : ℕ} {q : List Request} (h : AllSound s)
    (hnow : s.time ≤ now) (hcpu : Sound now (s.cpus cpu) q) :
    AllSound ⟨Function.update s.cpus self (s.cpus self), Function.update s.queues cpu q, now⟩ := by
  have hupdate : AllSound
      ⟨Function.update s.cpus cpu (s.cpus cpu), Function.update s.queues cpu q, now⟩ :=
    h.update hnow hcpu
  rw [Function.update_eq_self] at hupdate ⊢
  exact hupdate

/-- **Steps.** -/
theorem AllSound.step (h : AllSound s) (htime : InTime s e) (hcan : CanServe master s e) :
    AllSound (step master s e) := by
  obtain ⟨cpu, now, call⟩ := e
  obtain ⟨htime, hnow⟩ := htime
  have hcpu : ∀ x, Sound now (s.cpus x) (s.queues x) := fun x => (h x).mono htime
  have hstart : ∀ d x, Sound now (s.cpus x) (startFrom d (s.queues x)) := fun d x =>
    (hcpu x).subset List.filter_sublist.subset
  have hle : ∀ d x, ∀ r ∈ startFrom d (s.queues x), d ≤ r.deadline :=
    fun d x r hr => (mem_startFrom.1 hr).2
  cases call with
  | etimerSetDeadline d => exact h.update htime ((hstart d cpu).set hnow (hle d cpu) hcan)
  | timerQueueAssign d =>
    simp only [Rtclock.step, timerQueueAssign]
    simp only [CanServe] at hcan
    split_ifs at hcan ⊢ with hrun hd
    · refine h.update htime ((hcpu cpu).set hnow (fun r hr => ?_) hcan)
      obtain ⟨_, hdeadline, _⟩ := (hcpu cpu).queue r hr
      exact hd.le.trans hdeadline
    · exact h.update_queue htime ((hcpu cpu).join hcan)
    · exact h.update_queue htime ((hcpu master).join hcan)
  | timerQueueCancel queue d new =>
    simp only [Rtclock.step, timerQueueCancel, cancelled]
    split_ifs with hself hd hd
    · subst hself
      exact h.update htime ((hstart new queue).set hnow (hle new queue) (hcan ⟨rfl, hd⟩))
    · exact h.update_queue htime ((hcpu queue).subset List.eraseP_subset)
    · exact h.update_queue htime (hstart new queue)
    · exact h.update_queue htime ((hcpu queue).subset List.eraseP_subset)
  | etimerIntr next => exact h.update htime ((hcpu cpu).intr hnow hcan)

/-- **No deadline is lost** in a run of calls that can be served. -/
theorem deadlines_served (master : Cpu) (running : Cpu → Bool) (log : List (Event Cpu))
    (htime : Meets (Rtclock.step master) InTime (System.init running) log)
    (hcan : Meets (Rtclock.step master) (CanServe master) (System.init running) log) :
    Always (Rtclock.step master) AllTimely (System.init running) log := by
  have hsound : Always (Rtclock.step master) AllSound (System.init running) log := by
    refine Always.of_meets ?_ (fun cpu => Sound.init (running cpu)) (htime.and hcan)
    exact fun s e h hmeets => h.step hmeets.1 hmeets.2
  exact hsound.imp fun s h => h.timely

end

instance (s : System Cpu) (e : Event Cpu) : Decidable (InTime s e) :=
  inferInstanceAs (Decidable (_ ∧ _))

/-- The first CPU, which is the master, is interrupted and then sets a deadline; both CPUs ask for
    later ones, of which the second does not run; the first deadline is dropped. -/
def someEvents : List (Event (Fin 2)) :=
  [⟨0, 0, .etimerIntr 0⟩, ⟨0, 10, .etimerSetDeadline 5000⟩, ⟨0, 20, .timerQueueAssign 7000⟩,
    ⟨1, 30, .timerQueueAssign 9000⟩, ⟨0, 40, .timerQueueCancel 0 5000 7000⟩,
    ⟨0, 5000, .etimerIntr 0⟩, ⟨0, 7000, .etimerIntr 9000⟩]

theorem someEvents_served :
    Always (step 0) AllTimely (System.init fun cpu : Fin 2 => cpu = 0) someEvents :=
  deadlines_served 0 _ someEvents (by decide) (by decide)

/-- A deadline that is set before the first interrupt is not programmed. -/
theorem first_deadline_lost :
    ¬∀ (running : Fin 2 → Bool) (log : List (Event (Fin 2))),
      Meets (step 0) InTime (System.init running) log →
        Always (step 0) AllTimely (System.init running) log := by
  intro h
  have hlast := (h (fun _ => true) [⟨0, 0, .etimerSetDeadline 5000⟩] (by decide)).last
  obtain ⟨p, hp, _⟩ := hlast 0 ⟨5000, 0⟩ (by decide)
  cases (show (none : Option ℕ) = some p from hp)

end PocketDarwin.Rtclock
