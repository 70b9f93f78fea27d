/-
  The first process, launchd: it runs the boot script, starts a shell for each terminal, and then waits
  for children for ever.  A signal handler sets flags that the loop looks at.

  `main` is one statement at a time: the state says which is the next one, and an `Outcome` what the
  kernel answers to it.  Between any two statements a signal may be delivered, a child may exit, and an
  orphan may become a child.

  * `children_run`: whenever the loop begins, each service has the child that its pid says, and no other.
  * `shutdown_run`: a request is not overlooked, if it comes while the loop waits and no service has exited,
    or when all that is left to do before `maybe_shutdown` is to look for a child that is not there.
-/
import PocketDarwin.Runs
import Mathlib.Data.Int.Notation
import Mathlib.Data.List.Basic
import Mathlib.Tactic.SplitIfs

namespace PocketDarwin.Launchd

/-! ## State -/

/-- A child that was not waited for; `service` is the one that it was started for, if any. -/
structure Child where
  pid : ℕ
  service : Option ℕ
  exited : Bool
  deriving DecidableEq

/-- The child exits if it has this pid. -/
def Child.exit (pid : ℕ) (c : Child) : Child := if c.pid = pid then { c with exited := true } else c

@[simp] theorem Child.pid_exit (pid : ℕ) (c : Child) : (c.exit pid).pid = c.pid := by
  rw [exit]
  split_ifs <;> rfl

@[simp] theorem Child.service_exit (pid : ℕ) (c : Child) : (c.exit pid).service = c.service := by
  rw [exit]
  split_ifs <;> rfl

inductive Signal where
  | term
  | int
  | usr1
  deriving DecidableEq

/-- The next statement; `all` if all services are started, one after the other. -/
inductive Pc where
  | bootAccess
  | bootFork
  /-- `run_wait` is about to call `waitpid`, -/
  | bootWait (pid : ℕ)
  /-- and is blocked in it. -/
  | bootWaiting (pid : ℕ)
  | sleep (i : ℕ) (all : Bool)
  | access (i : ℕ) (all : Bool)
  | fork (i : ℕ) (all : Bool)
  /-- The head of the loop, -/
  | wait
  /-- and blocked in its `waitpid`. -/
  | waiting
  | sleepError
  | search (pid : ℕ) (i : ℕ)
  | testPoweroff
  | testReboot
  | shutdown
  deriving DecidableEq

/-- The services are what their pids are. -/
structure State where
  pc : Pc
  services : List ℤ
  children : List Child
  wantPoweroff : Bool
  wantReboot : Bool
  shuttingDown : Bool
  deriving DecidableEq

/-- What the kernel answers to `access`, `fork` and `waitpid`; `failed` is also every other error. -/
inductive Outcome where
  | ok
  | pid (pid : ℕ)
  | blocked
  | interrupted
  | noChild
  | failed
  deriving DecidableEq

inductive Act where
  | main (o : Outcome)
  | signal (sig : Signal)
  | exit (pid : ℕ)
  | adopt (pid : ℕ)

/-! ## Steps -/

namespace State
variable (s : State)

/-- The loops over all services, from `i` on. -/
def startFrom (i : ℕ) : Pc := if i < s.services.length then .access i true else .wait

/-- `svc.pid = spawn_tty(svc)`, and on. -/
def spawned (i : ℕ) (all : Bool) (pid : ℤ) (children : List Child) : State :=
  { s with
    pc := if all then s.startFrom (i + 1) else .testPoweroff
    services := s.services.set i pid
    children }

def reap (pid : ℕ) (pc : Pc) : State :=
  { s with pc, children := s.children.filter fun c => c.pid ≠ pid }

/-- What follows `waitpid` in the loop. -/
def waited : Outcome → State
  | .blocked => { s with pc := .waiting }
  | .pid pid => s.reap pid (.search pid 0)
  | .interrupted => { s with pc := .testPoweroff }
  | .noChild => { s with pc := if s.shuttingDown then .wait else .sleep 0 true }
  | _ => { s with pc := .sleepError }

/-- What follows `waitpid` in `run_wait`. -/
def bootWaited (pid : ℕ) : Outcome → State
  | .blocked => { s with pc := .bootWaiting pid }
  | .pid _ => s.reap pid (s.startFrom 0)
  | .interrupted => { s with pc := .bootWait pid }
  | _ => { s with pc := s.startFrom 0 }

/-- The comparison with one service. -/
def searched (pid i : ℕ) : Pc :=
  match s.services[i]? with
  | none => .testPoweroff
  | some q =>
    if q = pid then (if s.shuttingDown then .testPoweroff else .sleep i false) else .search pid (i + 1)

/-- What follows `fork` in `run_wait`. -/
def bootForked : Outcome → State
  | .pid pid => { s with pc := .bootWait pid, children := ⟨pid, none, false⟩ :: s.children }
  | _ => { s with pc := s.startFrom 0 }

/-- What follows `fork` in `spawn_tty`. -/
def forked (i : ℕ) (all : Bool) : Outcome → State
  | .pid pid => s.spawned i all pid (⟨pid, some i, false⟩ :: s.children)
  | _ => s.spawned i all (-1) s.children

def main (o : Outcome) : State :=
  match s.pc with
  | .bootAccess => { s with pc := if o = .ok then .bootFork else s.startFrom 0 }
  | .bootFork => s.bootForked o
  | .bootWait pid | .bootWaiting pid => s.bootWaited pid o
  | .sleep i all => { s with pc := if i < s.services.length then .access i all else .wait }
  | .access i all =>
    if o = .ok then { s with pc := .fork i all } else s.spawned i all (-1) s.children
  | .fork i all => s.forked i all o
  | .wait | .waiting => s.waited o
  | .sleepError => { s with pc := .wait }
  | .search pid i => { s with pc := s.searched pid i }
  | .testPoweroff =>
    if s.wantPoweroff then { s with pc := .shutdown, shuttingDown := true }
      else { s with pc := .testReboot }
  | .testReboot =>
    if s.wantReboot then { s with pc := .shutdown, shuttingDown := true }
      else { s with pc := .wait }
  | .shutdown => s

/-- `on_signal` -/
def onSignal : Signal → State
  | .term | .int => { s with wantPoweroff := true }
  | .usr1 => { s with wantReboot := true }

/-- A `waitpid` that is blocked is interrupted, unless there is a child for it already. -/
def interrupted : Pc :=
  match s.pc with
  | .waiting => if s.children.any Child.exited then .waiting else .testPoweroff
  | .bootWaiting pid =>
    if s.children.any fun c => c.pid = pid && c.exited then .bootWaiting pid else .bootWait pid
  | pc => pc

def step : Act → State
  | .main o => s.main o
  | .signal sig => { s.onSignal sig with pc := s.interrupted }
  | .exit pid => { s with children := s.children.map (Child.exit pid) }
  | .adopt pid => { s with children := ⟨pid, none, false⟩ :: s.children }

/-- The handlers are installed; of so many services none was started. -/
def start (n : ℕ) : State := ⟨.bootAccess, List.replicate n (-1), [], false, false, false⟩

/-- A new child has the pid of no other; `waitpid` returns one that has exited, and fails if there is none. -/
def Kernel : Act → Prop
  | .adopt pid => ∀ c ∈ s.children, c.pid ≠ pid
  | .main (.pid pid) =>
    match s.pc with
    | .bootFork | .fork _ _ => ∀ c ∈ s.children, c.pid ≠ pid
    | .bootWait pid' | .bootWaiting pid' => pid = pid' ∧ ∃ c ∈ s.children, c.pid = pid ∧ c.exited
    | .wait | .waiting => ∃ c ∈ s.children, c.pid = pid ∧ c.exited
    | _ => True
  | .main .noChild =>
    match s.pc with
    | .wait | .waiting => s.children = []
    | _ => True
  | .main .blocked =>
    match s.pc with
    | .wait => s.children ≠ [] ∧ ∀ c ∈ s.children, ¬ c.exited
    | _ => True
  | _ => True

/-- The pids of the children of a service. -/
def own (i : ℕ) : List ℤ := (s.children.filter fun c => c.service = some i).map fun c => (c.pid : ℤ)

end State

/-! ## Children -/

/-- What the children of a service are, by its pid. -/
def alive (q : ℤ) : List ℤ := if q = -1 then [] else [q]

@[simp] theorem alive_neg_one : alive (-1) = [] := if_pos rfl

@[simp] theorem alive_natCast (pid : ℕ) : alive pid = [(pid : ℤ)] := if_neg (by omega)

/-- The service has no child, whatever its pid is: it is about to be started again. -/
def Gone : Pc → ℕ → ℤ → Prop
  | .sleep j false, i, _ | .access j false, i, _ | .fork j false, i, _ => i = j
  | .search pid j, i, q => j ≤ i ∧ q = pid
  | _, _, _ => False

/-- The service is about to be started, and was not running. -/
def Idle : Pc → ℕ → Prop
  | .bootAccess, _ | .bootFork, _ | .bootWait _, _ | .bootWaiting _, _ => True
  | .sleep j true, i | .access j true, i | .fork j true, i => j ≤ i
  | _, _ => False

/-- The children are those that the pids say, but for what the loop is about to do. -/
structure Inv (s : State) : Prop where
  held : ∀ (i : ℕ) (q : ℤ), s.services[i]? = some q → ¬ Gone s.pc i q → s.own i = alive q
  gone : ∀ (i : ℕ) (q : ℤ), s.services[i]? = some q → Gone s.pc i q → s.own i = []
  idle : ∀ (i : ℕ) (q : ℤ), s.services[i]? = some q → Idle s.pc i → q = -1
  distinct : ∀ (i j : ℕ) (q : ℤ), s.services[i]? = some q → s.services[j]? = some q → q ≠ -1 → i = j

section
variable {s s' : State} {i j pid : ℕ} {q : ℤ} {o : Outcome} {a : Act} {all : Bool} {pc : Pc}

theorem own_cons {c : Child} :
    State.own { s with children := c :: s.children } i = if c.service = some i then (c.pid : ℤ)
      :: s.own i else s.own i := by
  rw [State.own, State.own]
  by_cases h : c.service = some i
  · simp [h]
  · simp [h]

theorem own_reap : (s.reap pid pc).own i = (s.own i).filter fun q => q ≠ (pid : ℤ) := by
  rw [State.own, State.own, State.reap, List.filter_map, List.filter_filter, List.filter_filter]
  congr 1
  refine List.filter_congr fun c _ => ?_
  simp only [Bool.and_comm, Int.natCast_inj, Function.comp_apply, ne_eq]

/-- A child that has exited is still a child. -/
theorem own_exit : (s.step (.exit pid)).own i = s.own i := by
  rw [State.own, State.own, State.step, List.filter_map, List.map_map]
  simp only [Function.comp_def, Child.service_exit, Child.pid_exit]

theorem mem_own (h : q ∈ s.own i) : ∃ c ∈ s.children, (c.pid : ℤ) = q := by
  obtain ⟨c, hc, hq⟩ := List.mem_map.1 h
  exact ⟨c, List.mem_of_mem_filter hc, hq⟩

/-- The flags do not matter. -/
theorem Inv.congr (h : Inv s) (hpc : s'.pc = s.pc) (hservices : s'.services = s.services)
    (hown : ∀ i, s'.own i = s.own i) : Inv s' := by
  refine ⟨fun i q hq hno => ?_, fun i q hq hg => ?_, fun i q hq hi => ?_, fun i j q hi hj => ?_⟩
  · rw [hservices] at hq
    rw [hpc] at hno
    exact (hown i).trans (h.held i q hq hno)
  · rw [hservices] at hq
    rw [hpc] at hg
    exact (hown i).trans (h.gone i q hq hg)
  · rw [hservices] at hq
    rw [hpc] at hi
    exact h.idle i q hq hi
  · rw [hservices] at hi hj
    exact h.distinct i j q hi hj

/-- Only the next statement changes. -/
theorem Inv.goto (h : Inv s) (hgone : ∀ (i : ℕ) (q : ℤ), s.services[i]? = some q →
    (Gone pc i q ↔ Gone s.pc i q))
    (hidle : ∀ (i : ℕ) (q : ℤ), s.services[i]? = some q → Idle pc i → q = -1) : Inv { s with pc } := by
  refine ⟨fun i q hq hno => ?_, fun i q hq hg => ?_, hidle, h.distinct⟩
  · exact h.held i q hq fun hg => hno ((hgone i q hq).2 hg)
  · exact h.gone i q hq ((hgone i q hq).1 hg)

/-- The services are started. -/
theorem Inv.startFrom (h : Inv s)
    (hgone : ∀ (i : ℕ) (q : ℤ), s.services[i]? = some q → ¬ Gone s.pc i q)
    (hidle : ∀ (i : ℕ) (q : ℤ), s.services[i]? = some q → j ≤ i → q = -1) :
    Inv { s with pc := s.startFrom j } := by
  rw [State.startFrom]
  split_ifs
  · exact h.goto (fun i q hq => iff_of_false id (hgone i q hq)) hidle
  · exact h.goto (fun i q hq => iff_of_false id (hgone i q hq)) fun _ _ _ hi => hi.elim

/-- `spawn_tty` is about to be called for the service. -/
def Spawns (pc : Pc) (i : ℕ) (all : Bool) : Prop := pc = .access i all ∨ pc = .fork i all

theorem Spawns.gone_iff (h : Spawns pc i all) : Gone pc j q ↔ all = false ∧ j = i := by
  rcases h with rfl | rfl <;> cases all <;> simp [Gone]

theorem Spawns.idle_iff (h : Spawns pc i all) : Idle pc j ↔ all = true ∧ i ≤ j := by
  rcases h with rfl | rfl <;> cases all <;> simp [Idle]

/-- It has no child then. -/
theorem Inv.own_nil (h : Inv s) (hpc : Spawns s.pc i all) (hq : s.services[i]? = some q) :
    s.own i = [] := by
  cases all with
  | false => exact h.gone i q hq (hpc.gone_iff.2 ⟨rfl, rfl⟩)
  | true =>
    obtain rfl := h.idle i q hq (hpc.idle_iff.2 ⟨rfl, Nat.le_refl i⟩)
    exact h.held i _ hq fun hg => by simpa using (hpc.gone_iff.1 hg).1

/-- The service gets the pid of its only child, or -1. -/
theorem Inv.spawned (h : Inv s) (hpc : Spawns s.pc i all) {children : List Child}
    (hown : ∀ j, State.own { s with children } j = if j = i then alive q ++ s.own i else s.own j)
    (hfresh : ∀ j, s.services[j]? = some q → q = -1 ∨ j = i) : Inv (s.spawned i all q children) := by
  have hservices : ∀ j q', (s.services.set i q)[j]? = some q' →
      j = i ∧ q' = q ∧ s.own i = [] ∨ j ≠ i ∧ s.services[j]? = some q' := by
    intro j q' hq'
    rw [List.getElem?_set] at hq'
    split_ifs at hq' with hji hlen
    · obtain ⟨q₀, hq₀⟩ : ∃ q₀, s.services[i]? = some q₀ := ⟨_, List.getElem?_eq_getElem (by omega)⟩
      exact Or.inl ⟨hji.symm, (Option.some.inj hq').symm, h.own_nil hpc hq₀⟩
    · exact Or.inr ⟨Ne.symm hji, hq'⟩
  have hnext : ∀ (j : ℕ) (q' : ℤ), ¬ Gone (if all then s.startFrom (i + 1) else .testPoweroff)
      j q' := by
    intro j q'
    rw [State.startFrom]
    split_ifs <;> exact id
  refine ⟨fun j q' hq' _ => ?_, fun j q' _ hg => (hnext j q' hg).elim, fun j q' hq' hidle => ?_,
    fun j k q' hj hk hne => ?_⟩
  · refine (hown j).trans ?_
    rcases hservices j q' hq' with ⟨rfl, rfl, hnil⟩ | ⟨hji, hq'⟩
    · rw [if_pos rfl, hnil, List.append_nil]
    · rw [if_neg hji]
      exact h.held j q' hq' fun hg => hji (hpc.gone_iff.1 hg).2
  · have hall : all = true ∧ i + 1 ≤ j := by
      rw [State.spawned, State.startFrom] at hidle
      dsimp only at hidle
      split_ifs at hidle with hall hlen
      · exact ⟨hall, hidle⟩
      · exact hidle.elim
      · exact hidle.elim
    rcases hservices j q' hq' with ⟨rfl, -, -⟩ | ⟨hji, hq'⟩
    · exact absurd hall.2 (Nat.not_succ_le_self j)
    · exact h.idle j q' hq' (hpc.idle_iff.2 ⟨hall.1, by omega⟩)
  · rcases hservices j q' hj with ⟨rfl, rfl, -⟩ | ⟨hji, hj'⟩
    · rcases hservices k q' hk with ⟨rfl, -, -⟩ | ⟨hkj, hk'⟩
      · rfl
      · exact absurd ((hfresh k hk').resolve_left hne) hkj
    · rcases hservices k q' hk with ⟨rfl, rfl, -⟩ | ⟨-, hk'⟩
      · exact absurd ((hfresh j hj').resolve_left hne) hji
      · exact h.distinct j k q' hj' hk' hne

theorem Inv.spawn_failed (h : Inv s) (hpc : Spawns s.pc i all) :
    Inv (s.spawned i all (-1) s.children) := by
  refine h.spawned hpc (fun j => ?_) fun j _ => Or.inl rfl
  split_ifs with hj
  · rw [alive_neg_one, hj]
    rfl
  · rfl

/-- The pid of a new child is not that of a service that was started. -/
theorem Inv.spawn_forked (h : Inv s) (hpc : s.pc = .fork i all)
    (hfresh : ∀ c ∈ s.children, c.pid ≠ pid) :
    Inv (s.spawned i all pid (⟨pid, some i, false⟩ :: s.children)) := by
  have hspawns : Spawns s.pc i all := Or.inr hpc
  refine h.spawned hspawns (fun j => ?_) fun j hj => ?_
  · rw [own_cons, alive_natCast]
    by_cases hji : j = i
    · rw [if_pos (by rw [hji]), if_pos hji, hji]
      rfl
    · rw [if_neg (by simpa using Ne.symm hji), if_neg hji]
  · by_contra hno
    obtain ⟨-, hji⟩ := not_or.1 hno
    have hown := h.held j pid hj fun hg => hji (hspawns.gone_iff.1 hg).2
    rw [alive_natCast] at hown
    obtain ⟨c, hc, hpid⟩ := mem_own (s := s) (i := j) (q := pid)
      (by rw [hown]; exact List.mem_cons_self)
    exact hfresh c hc (Int.natCast_inj.1 hpid)

/-- `waitpid` in the loop. -/
theorem Inv.waited (h : Inv s) (hpc : s.pc = .wait ∨ s.pc = .waiting)
    (hchild : o = .noChild → s.children = []) :
    Inv (s.waited o) := by
  have hgone : ∀ (i : ℕ) (q : ℤ), ¬ Gone s.pc i q := by
    intro i q
    rcases hpc with hpc | hpc <;> rw [hpc] <;> exact id
  cases o with
  | pid pid =>
    refine ⟨fun i q hq hno => ?_, fun i q hq hg => ?_, fun i q hq hidle => hidle.elim, h.distinct⟩
    · have hne : q ≠ pid := fun hqp => hno ⟨Nat.zero_le i, hqp⟩
      rw [State.waited, own_reap, h.held i q hq (hgone i q)]
      refine List.filter_eq_self.2 fun q' hq' => ?_
      rw [alive] at hq'
      split_ifs at hq'
      · exact absurd hq' List.not_mem_nil
      · rw [List.mem_singleton.1 hq']
        exact decide_eq_true hne
    · obtain ⟨-, rfl⟩ := hg
      rw [State.waited, own_reap, h.held i pid hq (hgone i pid), alive_natCast]
      simp
  | noChild =>
    have hnil : ∀ i, s.own i = [] := fun i => by rw [State.own, hchild rfl]; rfl
    rw [State.waited]
    split_ifs
    · exact h.goto (fun i q hq => iff_of_false id (hgone i q)) fun _ _ _ hi => hi.elim
    · refine h.goto (fun i q hq => iff_of_false id (hgone i q)) fun i q hq _ => ?_
      have hown := (h.held i q hq (hgone i q)).symm.trans (hnil i)
      rw [alive] at hown
      split_ifs at hown with hq'
      exact hq'
  | _ => exact h.goto (fun i q hq => iff_of_false id (hgone i q)) fun _ _ _ hi => hi.elim

/-- `waitpid` in `run_wait`. -/
theorem Inv.bootWaited (h : Inv s) (hpc : s.pc = .bootWait pid ∨ s.pc = .bootWaiting pid) :
    Inv (s.bootWaited pid o) := by
  have hgone : ∀ (i : ℕ) (q : ℤ), ¬ Gone s.pc i q := by
    intro i q
    rcases hpc with hpc | hpc <;> rw [hpc] <;> exact id
  have hidle : ∀ (i : ℕ) (q : ℤ), s.services[i]? = some q → q = -1 := by
    intro i q hq
    refine h.idle i q hq ?_
    rcases hpc with hpc | hpc <;> rw [hpc] <;> trivial
  cases o with
  | pid p =>
    have hreap : Inv (s.reap pid s.pc) := by
      refine ⟨fun i q hq hno => ?_, fun i q hq hg => (hgone i q hg).elim,
        fun i q hq _ => hidle i q hq, h.distinct⟩
      rw [own_reap, h.held i q hq (hgone i q), hidle i q hq]
      rfl
    exact hreap.startFrom (fun i q _ => hgone i q) fun i q hq _ => hidle i q hq
  | blocked => exact h.goto (fun i q hq => iff_of_false id (hgone i q)) fun i q hq _ => hidle i q hq
  | interrupted =>
    exact h.goto (fun i q hq => iff_of_false id (hgone i q)) fun i q hq _ => hidle i q hq
  | _ => exact h.startFrom (fun i q _ => hgone i q) fun i q hq _ => hidle i q hq

/-- The comparison with one service. -/
theorem Inv.searched (h : Inv s) (hpc : s.pc = .search pid i) (hrun : s.shuttingDown = false) :
    Inv { s with pc := s.searched pid i } := by
  have hgone : ∀ (k : ℕ) (q : ℤ), Gone s.pc k q ↔ i ≤ k ∧ q = pid := fun k q => by rw [hpc]; rfl
  rw [State.searched]
  cases hq : s.services[i]? with
  | none =>
    have hlen := List.getElem?_eq_none_iff.1 hq
    refine h.goto (fun k q hk => iff_of_false id fun hg => ?_) fun _ _ _ hi => hi.elim
    have hlt := (List.getElem?_eq_some_iff.1 hk).1
    have hle := ((hgone k q).1 hg).1
    omega
  | some q =>
    dsimp only
    split_ifs with hqp hshut
    · exact absurd hshut (by simp [hrun])
    · -- the service that has this pid, and no other
      subst hqp
      refine h.goto (fun k q hk => ?_) fun _ _ _ hi => hi.elim
      rw [hgone]
      constructor
      · rintro rfl
        exact ⟨Nat.le_refl k, Option.some.inj (hk.symm.trans hq)⟩
      · rintro ⟨-, rfl⟩
        exact h.distinct k i pid hk hq (by omega)
    · refine h.goto (fun k q' hk => ?_) fun _ _ _ hi => hi.elim
      rw [hgone]
      constructor
      · rintro ⟨hle, rfl⟩
        exact ⟨Nat.le_of_succ_le hle, rfl⟩
      · rintro ⟨hle, rfl⟩
        refine ⟨Nat.lt_of_le_of_ne hle fun hik => hqp ?_, rfl⟩
        subst hik
        exact Option.some.inj (hq.symm.trans hk)

@[simp] theorem shuttingDown_waited : (s.waited o).shuttingDown = s.shuttingDown := by
  cases o <;> rfl

@[simp] theorem shuttingDown_bootWaited : (s.bootWaited pid o).shuttingDown = s.shuttingDown := by
  cases o <;> rfl

@[simp] theorem shuttingDown_bootForked : (s.bootForked o).shuttingDown = s.shuttingDown := by
  cases o <;> rfl

@[simp] theorem shuttingDown_forked : (s.forked i all o).shuttingDown = s.shuttingDown := by
  cases o <;> rfl

/-- `shutting_down` is set only when the loop is left. -/
theorem running_main (h : s.shuttingDown = true → s.pc = .shutdown) :
    (s.main o).shuttingDown = true → (s.main o).pc = .shutdown := by
  rw [State.main.eq_def]
  cases hpc : s.pc with
  | access j all =>
    dsimp only
    split_ifs
    · exact fun hs => absurd (h hs) (by simp [hpc])
    · exact fun hs => absurd (h hs) (by simp [hpc])
  | testPoweroff =>
    dsimp only
    split_ifs
    · exact fun _ => rfl
    · exact fun hs => absurd (h hs) (by simp [hpc])
  | testReboot =>
    dsimp only
    split_ifs
    · exact fun _ => rfl
    · exact fun hs => absurd (h hs) (by simp [hpc])
  | shutdown => exact fun _ => hpc
  | _ => exact fun hs => absurd (h (by simpa using hs)) (by simp [hpc])

theorem running_step (h : s.shuttingDown = true → s.pc = .shutdown) :
    (s.step a).shuttingDown = true → (s.step a).pc = .shutdown := by
  cases a with
  | main o => exact running_main h
  | signal sig =>
    intro hs
    have hs' : s.shuttingDown = true := by cases sig <;> exact hs
    show s.interrupted = .shutdown
    rw [State.interrupted, h hs']
  | exit pid => exact h
  | adopt pid => exact h

/-- What else a child is for does not matter. -/
theorem Inv.adopted (h : Inv s) (pid : ℕ) :
    Inv { s with children := ⟨pid, none, false⟩ :: s.children } := by
  refine h.congr rfl rfl fun i => ?_
  rw [own_cons, if_neg (by simp)]

theorem Inv.main (h : Inv s) (hrun : s.shuttingDown = true → s.pc = .shutdown)
    (hkernel : s.Kernel (.main o)) :
    Inv (s.main o) := by
  rw [State.main.eq_def]
  cases hpc : s.pc with
  | bootAccess =>
    have hidle : ∀ (i : ℕ) (q : ℤ), s.services[i]? = some q → q = -1 :=
      fun i q hq => h.idle i q hq (by rw [hpc]; trivial)
    dsimp only
    split_ifs
    · exact h.goto (fun i q hq => by rw [hpc]; exact Iff.rfl) fun i q hq _ => hidle i q hq
    · exact h.startFrom (fun i q _ => by rw [hpc]; exact id) fun i q hq _ => hidle i q hq
  | bootFork =>
    have hidle : ∀ (i : ℕ) (q : ℤ), s.services[i]? = some q → q = -1 :=
      fun i q hq => h.idle i q hq (by rw [hpc]; trivial)
    cases o with
    | pid pid =>
      exact (h.adopted pid).goto (fun i q hq => by dsimp only; rw [hpc]; exact Iff.rfl)
        fun i q hq _ => hidle i q hq
    | _ => exact h.startFrom (fun i q _ => by rw [hpc]; exact id) fun i q hq _ => hidle i q hq
  | bootWait pid => exact h.bootWaited (Or.inl hpc)
  | bootWaiting pid => exact h.bootWaited (Or.inr hpc)
  | sleep j all =>
    dsimp only
    split_ifs with hlen
    · cases all with
      | false => exact h.goto (fun i q hq => by rw [hpc]; exact Iff.rfl) fun _ _ _ hi => hi.elim
      | true =>
        exact h.goto (fun i q hq => by rw [hpc]; exact Iff.rfl) fun i q hq hi =>
          h.idle i q hq (by rw [hpc]; exact hi)
    · refine h.goto (fun i q hq => iff_of_false id ?_) fun _ _ _ hi => hi.elim
      have hlt := (List.getElem?_eq_some_iff.1 hq).1
      rw [hpc]
      cases all with
      | false =>
        intro hg
        have hij : i = j := hg
        omega
      | true => exact id
  | access j all =>
    dsimp only
    split_ifs
    · cases all with
      | false => exact h.goto (fun i q hq => by rw [hpc]; exact Iff.rfl) fun _ _ _ hi => hi.elim
      | true =>
        exact h.goto (fun i q hq => by rw [hpc]; exact Iff.rfl) fun i q hq hi =>
          h.idle i q hq (by rw [hpc]; exact hi)
    · exact h.spawn_failed (Or.inl hpc)
  | fork j all =>
    cases o with
    | pid pid =>
      rw [State.Kernel, hpc] at hkernel
      exact h.spawn_forked hpc hkernel
    | _ => exact h.spawn_failed (Or.inr hpc)
  | wait =>
    refine h.waited (Or.inl hpc) fun ho => ?_
    subst ho
    rwa [State.Kernel, hpc] at hkernel
  | waiting =>
    refine h.waited (Or.inr hpc) fun ho => ?_
    subst ho
    rwa [State.Kernel, hpc] at hkernel
  | sleepError => exact h.goto (fun i q hq => by rw [hpc]; exact Iff.rfl) fun _ _ _ hi => hi.elim
  | search pid j =>
    refine h.searched hpc ?_
    by_contra hne
    have hshut := hrun (by simpa using hne)
    rw [hpc] at hshut
    cases hshut
  | testPoweroff =>
    have hgoto : ∀ pc, pc = .testReboot ∨ pc = .shutdown → Inv { s with pc } := by
      rintro pc (rfl | rfl) <;> exact h.goto (fun i q hq => iff_of_false id (by rw [hpc]; exact id))
        fun _ _ _ hi => hi.elim
    dsimp only
    split_ifs
    · exact (hgoto .shutdown (Or.inr rfl)).congr rfl rfl fun _ => rfl
    · exact hgoto .testReboot (Or.inl rfl)
  | testReboot =>
    have hgoto : ∀ pc, pc = .wait ∨ pc = .shutdown → Inv { s with pc } := by
      rintro pc (rfl | rfl) <;> exact h.goto (fun i q hq => iff_of_false id (by rw [hpc]; exact id))
        fun _ _ _ hi => hi.elim
    dsimp only
    split_ifs
    · exact (hgoto .shutdown (Or.inr rfl)).congr rfl rfl fun _ => rfl
    · exact hgoto .wait (Or.inl rfl)
  | shutdown => exact h

theorem Inv.interrupted (h : Inv s) : Inv { s with pc := s.interrupted } := by
  rw [State.interrupted]
  cases hpc : s.pc with
  | waiting =>
    dsimp only
    split_ifs
    · exact h.congr hpc.symm rfl fun _ => rfl
    · exact h.goto (fun i q hq => by rw [hpc]; exact Iff.rfl) fun _ _ _ hi => hi.elim
  | bootWaiting pid =>
    have hidle : ∀ (i : ℕ) (q : ℤ), s.services[i]? = some q → q = -1 :=
      fun i q hq => h.idle i q hq (by rw [hpc]; trivial)
    dsimp only
    split_ifs
    · exact h.congr hpc.symm rfl fun _ => rfl
    · exact h.goto (fun i q hq => by rw [hpc]; exact Iff.rfl) fun i q hq _ => hidle i q hq
  | _ => exact h.congr hpc.symm rfl fun _ => rfl

/-- **One step** keeps the books. -/
theorem Inv.step (h : Inv s) (hrun : s.shuttingDown = true → s.pc = .shutdown)
    (hkernel : s.Kernel a) : Inv (s.step a) := by
  cases a with
  | main o => exact h.main hrun hkernel
  | signal sig => exact h.interrupted.congr rfl (by cases sig <;> rfl) fun _ => by cases sig <;> rfl
  | exit pid => exact h.congr rfl rfl fun _ => own_exit
  | adopt pid => exact h.adopted pid

theorem Inv.start (n : ℕ) : Inv (State.start n) := by
  have hq : ∀ (i : ℕ) (q : ℤ), (List.replicate n (-1 : ℤ))[i]? = some q → q = -1 := fun i q hq =>
    List.eq_of_mem_replicate (List.mem_of_getElem? hq)
  refine ⟨fun i q hi _ => ?_, fun _ _ _ hg => hg.elim, fun i q hi _ => hq i q hi,
    fun i j q hi _ hne => absurd (hq i q hi) hne⟩
  rw [hq i q hi]
  rfl

/-- Each service has one child at most, and its pid is that of the child or -1; no two services have the same pid. -/
structure Bookkeeping (s : State) : Prop where
  child : ∀ (i : ℕ) (q : ℤ), s.services[i]? = some q →
    q = -1 ∧ (s.children.filter fun c => c.service = some i) = [] ∨
      ∃ c, (s.children.filter fun c => c.service = some i) = [c] ∧ q = c.pid
  distinct : ∀ (i j : ℕ) (q : ℤ), s.services[i]? = some q → s.services[j]? = some q → 0 < q → i = j

theorem Inv.bookkeeping (h : Inv s) (hpc : s.pc = .wait) : Bookkeeping s := by
  refine ⟨fun i q hq => ?_, fun i j q hi hj hpos => h.distinct i j q hi hj (by omega)⟩
  have hown := h.held i q hq (by rw [hpc]; exact id)
  rw [State.own, alive] at hown
  split_ifs at hown with hneg
  · exact Or.inl ⟨hneg, List.map_eq_nil_iff.1 hown⟩
  · obtain ⟨c, hc, hcq⟩ := List.map_eq_singleton_iff.1 hown
    exact Or.inr ⟨c, hc, hcq.symm⟩

/-- **Runs.**  Whatever the kernel does, each service has the child that its pid says whenever the loop begins. -/
theorem children_run {n : ℕ} {log : List Act}
    (hlog : Meets State.step State.Kernel (State.start n) log) :
    Always State.step (fun s => s.pc = .wait → Bookkeeping s) (State.start n) log := by
  have hinv : Always State.step (fun s => Inv s ∧ (s.shuttingDown = true → s.pc = .shutdown))
      (State.start n) log := by
    refine Always.of_meets ?_ ⟨Inv.start n, nofun⟩ hlog
    rintro s a ⟨h, hrun⟩ hkernel
    exact ⟨h.step hrun hkernel, running_step hrun⟩
  exact hinv.imp fun s h hpc => h.1.bookkeeping hpc

/-- The service is started, an orphan exits and is waited for, and then the service; it is started again. -/
theorem children_run_orphan :
    Always State.step (fun s => s.pc = .wait → Bookkeeping s) (State.start 1)
      [.main .failed, .main .ok, .main (.pid 3), .adopt 4, .exit 4, .main (.pid 4), .main .ok,
        .main .ok, .main .ok, .main .ok,
        .main .blocked, .exit 3, .main (.pid 3), .main .ok, .main .ok, .main .ok, .main (.pid 5),
        .main .ok, .main .ok] := by
  refine children_run ⟨trivial, trivial, ?_, ?_, trivial, ?_, trivial, trivial, trivial, trivial,
    ?_, trivial, ?_, trivial,
    trivial, trivial, ?_, trivial, trivial, trivial⟩
  · exact fun c hc => absurd hc List.not_mem_nil
  · show ∀ c ∈ [(⟨3, some 0, false⟩ : Child)], c.pid ≠ 4
    decide
  · exact ⟨⟨4, none, true⟩, List.mem_cons_self, rfl, rfl⟩
  · show [(⟨3, some 0, false⟩ : Child)] ≠ [] ∧ ∀ c ∈ [(⟨3, some 0, false⟩ : Child)], ¬ c.exited
    decide
  · exact ⟨⟨3, some 0, true⟩, List.mem_cons_self, rfl, rfl⟩
  · exact fun c hc => absurd hc List.not_mem_nil

/-! ## Signals -/

/-- A shutdown was asked for. -/
def Requested (s : State) : Prop := s.wantPoweroff = true ∨ s.wantReboot = true

/-- A wait for a child that may block, or a service, is started. -/
def Starts (s : State) : Act → Prop
  | .main o =>
    match s.pc with
    | .wait | .bootWait _ => True
    | .fork _ _ => ∃ pid, o = .pid pid
    | _ => False
  | _ => False

/-- A signal that `maybe_shutdown` is called for before anything is started.  A `waitpid` that is blocked is interrupted, or
    returns a child that is no service. -/
def Safe (s : State) : Act → Prop
  | .signal sig =>
    match s.pc with
    | .search pid i => ∀ k, i ≤ k → s.services[k]? ≠ some (pid : ℤ)
    | .testReboot => sig = .usr1 ∨ s.wantReboot = true
    | .waiting | .testPoweroff | .shutdown => True
    | _ => False
  | .main o =>
    match s.pc with
    | .waiting => Requested s → o = .interrupted ∨ ∃ pid, o = .pid pid ∧ ∀ k : ℕ, s.services[k]? ≠ some (pid : ℤ)
    | _ => True
  | _ => True

/-- All that is left to do is to call `maybe_shutdown`, perhaps behind the `waitpid` that is blocked. -/
def Committed (s : State) : Prop :=
  match s.pc with
  | .search pid i => ∀ k, i ≤ k → s.services[k]? ≠ some (pid : ℤ)
  | .testReboot => s.wantReboot = true
  | .waiting | .testPoweroff | .shutdown => True
  | _ => False

theorem not_starts (h : Committed s) : ¬ Starts s a := by
  cases a with
  | main o =>
    rw [Starts]
    cases hpc : s.pc with
    | wait | bootWait | fork => simp [Committed, hpc] at h
    | _ => exact id
  | _ => exact id

/-- Only signals change the flags. -/
theorem want_main : (s.main o).wantPoweroff = s.wantPoweroff ∧
    (s.main o).wantReboot = s.wantReboot := by
  rw [State.main.eq_def]
  cases hpc : s.pc with
  | bootFork | bootWait | bootWaiting | fork | wait | waiting => cases o <;> exact ⟨rfl, rfl⟩
  | access | testPoweroff | testReboot =>
    dsimp only
    split_ifs <;> exact ⟨rfl, rfl⟩
  | _ => exact ⟨rfl, rfl⟩

theorem committed_main (h : Committed s) (hsafe : Safe s (.main o)) (hreq : Requested s) :
    Committed (s.main o) := by
  rw [State.main.eq_def]
  cases hpc : s.pc with
  | waiting =>
    rw [Safe, hpc] at hsafe
    rcases hsafe hreq with rfl | ⟨pid, rfl, hpid⟩
    · trivial
    · exact fun k _ => hpid k
  | search pid i =>
    rw [Committed, hpc] at h
    show Committed { s with pc := s.searched pid i }
    rw [State.searched]
    cases hq : s.services[i]? with
    | none => trivial
    | some q =>
      have hne : q ≠ pid := fun hqp => h i (Nat.le_refl i) (hqp ▸ hq)
      dsimp only
      rw [if_neg hne]
      exact fun k hk => h k (Nat.le_of_succ_le hk)
  | testPoweroff =>
    dsimp only
    split_ifs with hpower
    · trivial
    · exact hreq.resolve_left hpower
  | testReboot =>
    rw [Committed, hpc] at h
    dsimp only
    rw [if_pos h]
    trivial
  | shutdown => exact h
  | _ => simp [Committed, hpc] at h

theorem committed_signal {sig : Signal} (h : Safe s (.signal sig)) :
    Committed (s.step (.signal sig)) := by
  rw [Safe] at h
  show Committed { s.onSignal sig with pc := s.interrupted }
  rw [State.interrupted]
  cases hpc : s.pc with
  | waiting =>
    dsimp only
    split_ifs <;> trivial
  | search pid i =>
    rw [hpc] at h
    cases sig <;> exact h
  | testReboot =>
    rw [hpc] at h
    rcases h with rfl | h
    · rfl
    · cases sig <;> first | exact h | rfl
  | testPoweroff | shutdown => trivial
  | _ => simp [hpc] at h

/-- **Runs.**  If signals come when nothing is started any more before `maybe_shutdown`, then nothing is started from the
    request on. -/
theorem shutdown_run {n : ℕ} {log : List Act} (hlog : Meets State.step Safe (State.start n) log) :
    Meets State.step (fun s a => Requested s → ¬ Starts s a) (State.start n) log := by
  refine Meets.of_invariant (I := fun s => Requested s → Committed s) ?_ ?_ ?_ hlog
  · intro s a h hsafe
    cases a with
    | main o =>
      intro hreq
      have hreq' : Requested s := by
        rw [Requested, State.step, want_main.1, want_main.2] at hreq
        exact hreq
      exact committed_main (h hreq') hsafe hreq'
    | signal sig => exact fun _ => committed_signal hsafe
    | exit pid => exact h
    | adopt pid => exact h
  · exact fun s a h _ hreq => not_starts (h hreq)
  · rintro (h | h) <;> cases h

/-- The loop waits for the service, and is interrupted; or an orphan has exited, and is waited for. -/
theorem shutdown_run_waiting :
    Meets State.step (fun s a => Requested s → ¬ Starts s a) (State.start 1)
        [.main .failed, .main .ok, .main (.pid 2), .main .blocked, .signal .term, .main .ok] ∧
      Meets State.step (fun s a => Requested s → ¬ Starts s a) (State.start 1)
        [.main .failed, .main .ok, .main (.pid 2), .main .blocked, .adopt 3, .exit 3, .signal .term,
          .main (.pid 3), .main .ok, .main .ok] := by
  refine ⟨shutdown_run ⟨trivial, trivial, trivial, ?_, trivial, trivial, trivial⟩,
    shutdown_run ⟨trivial, trivial, trivial, ?_, trivial, trivial, trivial, ?_, trivial, trivial, trivial⟩⟩
  · trivial
  · trivial
  · intro _
    refine Or.inr ⟨3, rfl, ?_⟩
    rintro (_ | k)
    · decide
    · exact nofun

/-- After these steps, all of which the kernel may do, the next one starts something although a shutdown was asked for. -/
def Lost (n : ℕ) (log : List Act) (a : Act) : Prop :=
  Meets State.step State.Kernel (State.start n) (log ++ [a]) ∧
  Requested (log.foldl State.step (State.start n)) ∧
    Starts (log.foldl State.step (State.start n)) a

/-- A signal comes during the boot script: it is waited for again, or the service is started after it.  Or it comes right before
    the loop waits, or after the service has exited: there is a wait, or the service is started, before `maybe_shutdown`. -/
theorem shutdown_lost :
    Lost 1 [.main .ok, .main (.pid 2), .main .blocked, .signal .term] (.main .blocked) ∧
    Lost 1 [.main .ok, .main (.pid 2), .main .blocked, .exit 2, .signal .term, .main (.pid 2),
      .main .ok] (.main (.pid 3)) ∧
    Lost 1 [.main .failed, .main .ok, .main (.pid 2), .signal .usr1] (.main .blocked) ∧
    Lost 1 [.main .failed, .main .ok, .main (.pid 2), .main .blocked, .exit 2, .main (.pid 2),
      .signal .term, .main .ok,
      .main .ok, .main .ok] (.main (.pid 3)) := by
  have hnil : ∀ pid, ∀ c ∈ ([] : List Child), c.pid ≠ pid :=
    fun _ _ hc => absurd hc List.not_mem_nil
  have hblocked : [(⟨2, some 0, false⟩ : Child)] ≠ [] ∧ ∀ c ∈ [(⟨2, some 0, false⟩ : Child)],
      ¬ c.exited := by decide
  refine ⟨⟨⟨trivial, hnil 2, trivial, trivial, trivial, trivial⟩, Or.inl rfl, trivial⟩,
    ⟨?_, Or.inl rfl, 3, rfl⟩,
    ⟨⟨trivial, trivial, hnil 2, trivial, hblocked, trivial⟩, Or.inr rfl, trivial⟩, ?_, Or.inl rfl, 3, rfl⟩
  · exact ⟨trivial, hnil 2, trivial, trivial, trivial,
      ⟨rfl, ⟨2, none, true⟩, List.mem_cons_self, rfl, rfl⟩, trivial, hnil 3, trivial⟩
  · exact ⟨trivial, trivial, hnil 2, hblocked, trivial,
      ⟨⟨2, some 0, true⟩, List.mem_cons_self, rfl, rfl⟩, trivial, trivial,
      trivial, trivial, hnil 3, trivial⟩

end

end PocketDarwin.Launchd
