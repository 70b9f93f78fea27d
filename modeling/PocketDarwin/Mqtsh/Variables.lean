/-
  The variables of the Mesquite Shell (`mqtsh.f90`): two arrays, of names and of values, and a
  counter that `set_var` counts on when they are full.

  * `Represents`: what the arrays hold after some calls of `set_var`.
  * `getVar_spec`, `setVar_spec`: the calls that do not leave the arrays.
  * `variables_kept_iff`: the calls that work are those for which there are not more names than the
    arrays hold, or whose name is one of the first.
-/
import Mathlib.Algebra.Ring.Nat
import Mathlib.Data.List.Dedup
import PocketDarwin.Assoc
import PocketDarwin.Buffer
import PocketDarwin.FixedText
import PocketDarwin.Runs

namespace PocketDarwin.Mqtsh

open FixedText

/-! ## The code -/

def MAX_CMD_LEN : ℕ := 4096

def MAX_VARS : ℕ := 1024

/-- The element `j` of an array is counted from 0 here. -/
structure Variables where
  varNames : Buffer Text
  varValues : Buffer Text
  varCount : ℕ

/-- The variables at the beginning: what the arrays hold is not defined. -/
def Variables.start (names values : ℕ → Text) : Variables :=
  ⟨⟨MAX_VARS, names⟩, ⟨MAX_VARS, values⟩, 0⟩

/-- The loop over the names, from `j` on and so many of them: where the name is. -/
def search (varNames : Buffer Text) (name : Text) (j : ℕ) : ℕ → Option (Option ℕ)
  | 0 => some none
  | n + 1 =>
    (varNames.get j).bind fun s =>
      if Same (trim s) (trim name) then some (some j) else search varNames name (j + 1) n

def getVar (s : Variables) (name : Text) : Option Text :=
  (search s.varNames name 0 s.varCount).bind fun found =>
    match found with
    | some j => (s.varValues.get j).map fun value => fit MAX_CMD_LEN (trim value)
    | none => some (fit MAX_CMD_LEN [])

def setVar (s : Variables) (name value : Text) : Option Variables :=
  (search s.varNames name 0 s.varCount).bind fun found =>
    match found with
    | some j =>
      (s.varValues.set j (fit MAX_CMD_LEN (trim value))).map fun values =>
        { s with varValues := values }
    | none =>
      if s.varCount + 1 ≤ MAX_VARS then
        (s.varNames.set s.varCount (fit 256 (trim name))).bind fun names =>
          (s.varValues.set s.varCount (fit MAX_CMD_LEN (trim value))).map fun values =>
            ⟨names, values, s.varCount + 1⟩
      else some { s with varCount := s.varCount + 1 }

/-! ## What was set -/

/-- The calls of `set_var` so far, the last one first: the names and the values. -/
abbrev Sets := List (Text × Text)

/-- The different names that were set, in the order in which they were set first. -/
def names (sets : Sets) : List Text := (sets.map fun x => trim x.1).dedup.reverse

/-- The value that was set last. -/
def lastValue (sets : Sets) (name : Text) : Option Text :=
  Assoc.lookup (fun a b => trim a == trim b) sets name

/-- There are not more names than the arrays hold, or the name is one of the first. -/
def Kept (sets : Sets) (name : Text) : Prop :=
  (names sets).length ≤ MAX_VARS ∨ trim name ∈ (names sets).take MAX_VARS

instance (sets : Sets) (name : Text) : Decidable (Kept sets name) :=
  inferInstanceAs (Decidable (_ ∨ _))

section
variable {sets : Sets} {name value : Text}

theorem mem_names : name ∈ names sets ↔ ∃ x ∈ sets, trim x.1 = name := by
  rw [names, List.mem_reverse, List.mem_dedup, List.mem_map]

theorem trim_of_mem_names (h : name ∈ names sets) : trim name = name := by
  obtain ⟨x, -, rfl⟩ := mem_names.1 h
  exact trim_trim

theorem nodup_names : (names sets).Nodup := List.nodup_reverse.2 (List.nodup_dedup _)

theorem names_cons_of_mem (h : trim name ∈ names sets) :
    names ((name, value) :: sets) = names sets := by
  rw [names, List.mem_reverse, List.mem_dedup] at h
  rw [names, List.map_cons, List.dedup_cons_of_mem h]
  rfl

theorem names_cons_of_notMem (h : trim name ∉ names sets) :
    names ((name, value) :: sets) = names sets ++ [trim name] := by
  rw [names, List.mem_reverse, List.mem_dedup] at h
  rw [names, List.map_cons, List.dedup_cons_of_notMem h, List.reverse_cons]
  rfl

/-- What was not set has no value. -/
theorem lastValue_eq_none (h : trim name ∉ names sets) : lastValue sets name = none := by
  refine Assoc.lookup_eq_none fun x hx heq => h (mem_names.2 ⟨x, hx, ?_⟩)
  simpa using heq

theorem lastValue_cons (name' : Text) : lastValue ((name, value) :: sets) name' =
    if trim name = trim name' then some value else lastValue sets name' := by
  rw [lastValue, Assoc.lookup_cons]
  simp only [beq_iff_eq]
  rfl

end

/-! ## The loop over the names -/

section
variable {b : Buffer Text} {name : Text} {j k n : ℕ}

theorem search_succ (hj : j < b.size) : search b name j (n + 1) =
    if trim (b.elem j) = trim name then some (some j) else search b name (j + 1) n := by
  rw [search, Buffer.get_eq_some hj, Option.bind_some]
  simp only [same_iff, trim_trim]

/-- The name is at `k`. -/
theorem search_eq_some (hk : k < b.size) (hj : j ≤ k) (hn : k < j + n)
    (hne : ∀ i, j ≤ i → i < k → trim (b.elem i) ≠ trim name)
    (heq : trim (b.elem k) = trim name) : search b name j n = some (some k) := by
  induction n generalizing j with
  | zero => omega
  | succ n ih =>
    rw [search_succ (by omega)]
    rcases Nat.eq_or_lt_of_le hj with rfl | hlt
    · exact if_pos heq
    · rw [if_neg (hne j le_rfl hlt)]
      exact ih hlt (by omega) fun i hi => hne i (by omega)

/-- The name is at none of the places. -/
theorem search_eq_none (hn : j + n ≤ b.size)
    (hne : ∀ i, j ≤ i → i < j + n → trim (b.elem i) ≠ trim name) : search b name j n = some none := by
  induction n generalizing j with
  | zero => rfl
  | succ n ih =>
    rw [search_succ (by omega), if_neg (hne j le_rfl (by omega))]
    exact ih (by omega) fun i hi hin => hne i (by omega) (by omega)

/-- The loop leaves the array. -/
theorem search_fails (hj : j ≤ b.size) (hn : b.size < j + n)
    (hne : ∀ i, j ≤ i → i < b.size → trim (b.elem i) ≠ trim name) : search b name j n = none := by
  induction n generalizing j with
  | zero => omega
  | succ n ih =>
    rcases Nat.eq_or_lt_of_le hj with rfl | hlt
    · rw [search, Buffer.get, if_neg (Nat.lt_irrefl _)]
      rfl
    · rw [search_succ hlt, if_neg (hne j le_rfl hlt)]
      exact ih hlt (by omega) fun i hi => hne i (by omega)

end

/-! ## What the arrays hold -/

/-- The arrays hold the first names that were set, with their last values. -/
structure Represents (s : Variables) (sets : Sets) : Prop where
  size_names : s.varNames.size = MAX_VARS
  size_values : s.varValues.size = MAX_VARS
  count : s.varCount = (names sets).length
  name : ∀ j (h : j < (names sets).length), j < MAX_VARS → trim (s.varNames.elem j) = (names sets)[j]
  value : ∀ j (h : j < (names sets).length), j < MAX_VARS →
    ∀ v, lastValue sets (names sets)[j] = some v → trim (s.varValues.elem j) = trim v
  length : ∀ j < (names sets).length, j < MAX_VARS → (s.varValues.elem j).length = MAX_CMD_LEN

theorem represents_start (ns vs : ℕ → Text) : Represents (.start ns vs) [] := by
  refine ⟨rfl, rfl, rfl, ?_, ?_, ?_⟩
  all_goals
    intro j h
    exact absurd h (Nat.not_lt_zero j)

section
variable {s : Variables} {sets : Sets} {name value : Text}

/-- A name that the arrays hold is found. -/
theorem Represents.search_of_mem (h : Represents s sets)
    (hmem : trim name ∈ (names sets).take MAX_VARS) :
    ∃ j, ∃ hj : j < (names sets).length, j < MAX_VARS ∧ (names sets)[j] = trim name ∧
      search s.varNames name 0 s.varCount = some (some j) := by
  obtain ⟨j, hj, hname⟩ := List.mem_iff_getElem.1 hmem
  rw [List.length_take, Nat.lt_min] at hj
  rw [List.getElem_take] at hname
  refine ⟨j, hj.2, hj.1, hname, search_eq_some (h.size_names ▸ hj.1) (Nat.zero_le j) ?_ ?_ ?_⟩
  · rw [h.count, Nat.zero_add]
    exact hj.2
  · intro i _ hij heq
    rw [h.name i (hij.trans hj.2) (hij.trans hj.1), ← hname] at heq
    exact hij.ne (nodup_names.getElem_inj_iff.1 heq)
  · rw [h.name j hj.2 hj.1, hname]

/-- A name that was not set is not found, if the arrays hold all the names. -/
theorem Represents.search_of_notMem (h : Represents s sets) (hlen : (names sets).length ≤ MAX_VARS)
    (hmem : trim name ∉ names sets) : search s.varNames name 0 s.varCount = some none := by
  refine search_eq_none (by rw [h.count, h.size_names]; omega) fun i _ hi heq => hmem ?_
  rw [h.count, Nat.zero_add] at hi
  rw [h.name i hi (by omega)] at heq
  exact heq ▸ List.getElem_mem hi

/-- If there are more names than the arrays hold, another one leads out of them. -/
theorem Represents.search_of_not_kept (h : Represents s sets) (hkept : ¬ Kept sets name) :
    search s.varNames name 0 s.varCount = none := by
  rw [Kept, not_or, Nat.not_le] at hkept
  refine search_fails (Nat.zero_le _) (by rw [h.count, h.size_names]; omega) fun i _ hi heq => ?_
  rw [h.size_names] at hi
  rw [h.name i (by omega) hi] at heq
  refine hkept.2 (heq ▸ ?_)
  rw [← List.getElem_take (j := MAX_VARS) (h := by rw [List.length_take]; omega)]
  exact List.getElem_mem _

/-- A name is found, or it is new and the arrays hold all the names. -/
theorem Kept.cases (h : Kept sets name) : trim name ∈ (names sets).take MAX_VARS ∨
    (names sets).length ≤ MAX_VARS ∧ trim name ∉ names sets := by
  rcases h with hlen | hmem
  · by_cases hmem : trim name ∈ names sets
    · exact .inl ((List.take_of_length_le hlen).symm ▸ hmem)
    · exact .inr ⟨hlen, hmem⟩
  · exact .inl hmem

/-- **`get_var`.**  What was set last. -/
theorem getVar_spec (h : Represents s sets) (hkept : Kept sets name) :
    ∃ value, getVar s name = some value ∧ ∀ v, lastValue sets name = some v → Same value v := by
  rcases hkept.cases with hmem | ⟨hlen, hmem⟩
  · obtain ⟨j, hj, hmax, hname, hsearch⟩ := h.search_of_mem hmem
    refine ⟨fit MAX_CMD_LEN (trim (s.varValues.elem j)), ?_, fun v hv => ?_⟩
    · rw [getVar, hsearch, Option.bind_some]
      show (s.varValues.get j).map _ = _
      rw [Buffer.get_eq_some (h.size_values ▸ hmax), Option.map_some]
    · have hlast : lastValue sets (names sets)[j] = some v := by
        rw [hname, ← hv, lastValue, lastValue]
        simp only [Assoc.lookup, trim_trim]
      rw [same_iff, trim_fit (length_trim_le.trans (h.length j hj hmax).le), trim_trim]
      exact h.value j hj hmax v hlast
  · refine ⟨fit MAX_CMD_LEN [], ?_, fun v hv => ?_⟩
    · rw [getVar, h.search_of_notMem hlen hmem]
      rfl
    · rw [lastValue_eq_none hmem] at hv
      cases hv

/-- What is set does not change the value of another name. -/
theorem lastValue_cons_of_ne {j : ℕ} (hj : j < (names sets).length)
    (hne : (names sets)[j] ≠ trim name) :
    lastValue ((name, value) :: sets) (names sets)[j] = lastValue sets (names sets)[j] := by
  rw [lastValue_cons, if_neg]
  rw [trim_of_mem_names (List.getElem_mem hj)]
  exact hne.symm

/-- The value of a name that the arrays hold is replaced. -/
theorem Represents.replace (h : Represents s sets) {j : ℕ} (hj : j < (names sets).length)
    (hname : (names sets)[j] = trim name) (hvalue : value.length ≤ MAX_CMD_LEN) :
    Represents { s with varValues := s.varValues.put j (fit MAX_CMD_LEN (trim value)) }
      ((name, value) :: sets) := by
  have hnames : names ((name, value) :: sets) = names sets :=
    names_cons_of_mem (hname ▸ List.getElem_mem hj)
  refine ⟨h.size_names, h.size_values, hnames ▸ h.count, ?_, ?_, ?_⟩
  · simpa only [hnames] using h.name
  · simp only [hnames]
    intro i hi hmax v hv
    by_cases hij : i = j
    · subst hij
      rw [lastValue_cons, if_pos (by rw [hname, trim_trim])] at hv
      obtain rfl := Option.some.inj hv
      rw [Buffer.elem_put_self, trim_fit (length_trim_le.trans hvalue), trim_trim]
    · have hne : (names sets)[i] ≠ trim name := fun heq =>
        hij (nodup_names.getElem_inj_iff.1 (heq.trans hname.symm))
      rw [lastValue_cons_of_ne hi hne] at hv
      rw [Buffer.elem_put_of_ne hij]
      exact h.value i hi hmax v hv
  · simp only [hnames]
    intro i hi hmax
    by_cases hij : i = j
    · subst hij
      rw [Buffer.elem_put_self, length_fit]
    · rw [Buffer.elem_put_of_ne hij]
      exact h.length i hi hmax

/-- A new name, and where it is put if there is room. -/
theorem Represents.push (h : Represents s sets) (hmem : trim name ∉ names sets) {s' : Variables}
    (hcount : s'.varCount = s.varCount + 1) (hnames : s'.varNames.size = MAX_VARS)
    (hvalues : s'.varValues.size = MAX_VARS)
    (hold : ∀ j < s.varCount, s'.varNames.elem j = s.varNames.elem j ∧
      s'.varValues.elem j = s.varValues.elem j)
    (hnew : s.varCount < MAX_VARS → trim (s'.varNames.elem s.varCount) = trim name ∧
      trim (s'.varValues.elem s.varCount) = trim value ∧
      (s'.varValues.elem s.varCount).length = MAX_CMD_LEN) :
    Represents s' ((name, value) :: sets) := by
  have hlen : (names sets ++ [trim name]).length = s.varCount + 1 := by
    rw [List.length_append, ← h.count]
    rfl
  have hlt_or : ∀ {j}, j < (names sets ++ [trim name]).length →
      j < (names sets).length ∨ j = s.varCount := by
    intro j hj
    have := h.count
    omega
  have hlast : ∀ (hj : s.varCount < (names sets ++ [trim name]).length),
      (names sets ++ [trim name])[s.varCount] = trim name := by
    intro hj
    simp only [h.count, List.getElem_concat_length]
  refine ⟨hnames, hvalues, ?_, ?_, ?_, ?_⟩
  · rw [names_cons_of_notMem hmem, hlen, hcount]
  all_goals simp only [names_cons_of_notMem hmem]
  · intro j hj hmax
    rcases hlt_or hj with hlt | rfl
    · rw [(hold j (h.count ▸ hlt)).1, List.getElem_append_left hlt, h.name j hlt hmax]
    · rw [(hnew hmax).1, hlast]
  · intro j hj hmax v hv
    rcases hlt_or hj with hlt | rfl
    · have hne : (names sets)[j] ≠ trim name := fun heq => hmem (heq ▸ List.getElem_mem hlt)
      rw [List.getElem_append_left hlt, lastValue_cons_of_ne hlt hne] at hv
      rw [(hold j (h.count ▸ hlt)).2, h.value j hlt hmax v hv]
    · rw [hlast, lastValue_cons, if_pos trim_trim.symm] at hv
      rw [(hnew hmax).2.1, Option.some.inj hv]
  · intro j hj hmax
    rcases hlt_or hj with hlt | rfl
    · rw [(hold j (h.count ▸ hlt)).2, h.length j hlt hmax]
    · exact (hnew hmax).2.2

/-- **`set_var`.**  The arrays hold what was set, and the value that was set now. -/
theorem setVar_spec (h : Represents s sets) (hkept : Kept sets name) (hname : name.length ≤ 256)
    (hvalue : value.length ≤ MAX_CMD_LEN) :
    ∃ s', setVar s name value = some s' ∧ Represents s' ((name, value) :: sets) := by
  rcases hkept.cases with hmem | ⟨hlen, hmem⟩
  · obtain ⟨j, hj, hmax, hname, hsearch⟩ := h.search_of_mem hmem
    refine ⟨_, ?_, h.replace hj hname hvalue⟩
    rw [setVar, hsearch, Option.bind_some]
    show (s.varValues.set j _).map _ = _
    rw [Buffer.set_eq_some (h.size_values ▸ hmax), Option.map_some]
  · rw [setVar, h.search_of_notMem hlen hmem, Option.bind_some]
    by_cases hroom : s.varCount + 1 ≤ MAX_VARS
    · refine ⟨⟨s.varNames.put s.varCount (fit 256 (trim name)),
        s.varValues.put s.varCount (fit MAX_CMD_LEN (trim value)), s.varCount + 1⟩, ?_, ?_⟩
      · show (if s.varCount + 1 ≤ MAX_VARS then _ else _) = _
        rw [if_pos hroom, Buffer.set_eq_some (by rw [h.size_names]; omega), Option.bind_some,
          Buffer.set_eq_some (by rw [h.size_values]; omega), Option.map_some]
      · refine h.push hmem rfl h.size_names h.size_values ?_ ?_
        · intro j hj
          exact ⟨Buffer.elem_put_of_ne hj.ne _ _, Buffer.elem_put_of_ne hj.ne _ _⟩
        · intro _
          rw [Buffer.elem_put_self, Buffer.elem_put_self, trim_fit (length_trim_le.trans hname),
            trim_fit (length_trim_le.trans hvalue), trim_trim, trim_trim, length_fit]
          exact ⟨rfl, rfl, rfl⟩
    · refine ⟨{ s with varCount := s.varCount + 1 }, if_neg hroom, ?_⟩
      refine h.push hmem rfl h.size_names h.size_values ?_ fun hlt => absurd hlt hroom
      intro j _
      exact ⟨rfl, rfl⟩

theorem getVar_eq_none (h : Represents s sets) (hkept : ¬ Kept sets name) : getVar s name = none := by
  rw [getVar, h.search_of_not_kept hkept]
  rfl

theorem setVar_eq_none (h : Represents s sets) (hkept : ¬ Kept sets name) :
    setVar s name value = none := by
  rw [setVar, h.search_of_not_kept hkept]
  rfl

end

/-! ## Runs -/

inductive Call where
  | getVar (name : Text)
  | setVar (name value : Text)

namespace Call

def name : Call → Text
  | getVar name => name
  | setVar name _ => name

/-- What is set fits in the arrays. -/
def Fits : Call → Prop
  | getVar _ => True
  | setVar name value => name.length ≤ 256 ∧ value.length ≤ MAX_CMD_LEN

end Call

/-- The variables, and what was set so far. -/
structure Session where
  vars : Variables
  sets : Sets

namespace Session

/-- The state after a call; a call that leaves the arrays is taken to change nothing. -/
def step (s : Session) : Call → Session
  | .getVar _ => s
  | .setVar name value => ⟨(setVar s.vars name value).getD s.vars, (name, value) :: s.sets⟩

/-- The call stays in the arrays, and what is read is what was set last, for a name that should be
    kept. -/
def Works (s : Session) : Call → Prop
  | .getVar name => ∃ value, getVar s.vars name = some value ∧
      (Kept s.sets name → ∀ v, lastValue s.sets name = some v → Same value v)
  | .setVar name value => ∃ vars, setVar s.vars name value = some vars

variable {s : Session} {a : Call}

/-- **One call.** -/
theorem works_step (h : Represents s.vars s.sets) (ha : a.Fits) : s.Works a ↔ Kept s.sets a.name := by
  cases a with
  | getVar name =>
    constructor
    · rintro ⟨value, hget, -⟩
      by_contra hkept
      have hnone : getVar s.vars name = none := getVar_eq_none h hkept
      rw [hnone] at hget
      cases hget
    · intro hkept
      obtain ⟨value, hget, hvalue⟩ := getVar_spec h hkept
      exact ⟨value, hget, fun _ => hvalue⟩
  | setVar name value =>
    constructor
    · rintro ⟨vars, hset⟩
      by_contra hkept
      have hnone : setVar s.vars name value = none := setVar_eq_none h hkept
      rw [hnone] at hset
      cases hset
    · intro hkept
      obtain ⟨vars, hset, -⟩ := setVar_spec h hkept ha.1 ha.2
      exact ⟨vars, hset⟩

theorem represents_step (h : Represents s.vars s.sets) (ha : a.Fits) (hkept : Kept s.sets a.name) :
    Represents (s.step a).vars (s.step a).sets := by
  cases a with
  | getVar name => exact h
  | setVar name value =>
    obtain ⟨vars, hset, hrep⟩ := setVar_spec h hkept ha.1 ha.2
    have hstep : (setVar s.vars name value).getD s.vars = vars := by
      rw [show setVar s.vars name value = some vars from hset, Option.getD_some]
    show Represents ((setVar s.vars name value).getD s.vars) _
    rw [hstep]
    exact hrep

/-- A run of calls, in any state that the arrays represent. -/
theorem meets_works_iff {log : List Call} (h : Represents s.vars s.sets) (hlog : ∀ a ∈ log, a.Fits) :
    Meets step Works s log ↔ Meets step (fun s a => Kept s.sets a.name) s log := by
  refine meets_iff_meets (I := fun s => Represents s.vars s.sets) (A := fun _ a => a.Fits)
    (fun s a hs ha => works_step hs ha) (fun s a hs ha hworks => ?_) h (meets_const.2 hlog)
  exact represents_step hs ha ((works_step hs ha).1 hworks)

end Session

/-- **The variables.**  In a run from the beginning, every call stays in the arrays and every
    variable that should be kept has the value that was set last, exactly if before every call
    there are at most `MAX_VARS` different names, or its name is one of the first `MAX_VARS`. -/
theorem variables_kept_iff (ns vs : ℕ → Text) (log : List Call) (hlog : ∀ a ∈ log, a.Fits) :
    Meets Session.step Session.Works ⟨.start ns vs, []⟩ log ↔
      Meets Session.step (fun s a => Kept s.sets a.name) ⟨.start ns vs, []⟩ log :=
  Session.meets_works_iff (represents_start ns vs) hlog

theorem variables_kept_two : Meets Session.step Session.Works
    ⟨.start (fun _ => []) fun _ => [], []⟩ [.setVar ['a'] ['b'], .getVar ['a']] := by
  rw [variables_kept_iff _ _ _ (by simp [Call.Fits, MAX_CMD_LEN])]
  decide

/-- A name of eleven characters for a number. -/
def numbered (i : ℕ) : Text := (List.range 11).map fun j => if i.testBit j then 'b' else 'a'

/-- One name more than the arrays hold. -/
def manySets : Sets := (List.range (MAX_VARS + 1)).map fun i => (numbered i, ['v'])

/-- These names are set, and the value of the last one is read. -/
def manyCalls : List Call :=
  (manySets.map fun x => .setVar x.1 x.2) ++ [.getVar (numbered MAX_VARS)]

theorem trim_numbered (i : ℕ) : trim (numbered i) = numbered i := by
  refine trim_eq_self fun hblank => ?_
  obtain ⟨j, -, hj⟩ := List.mem_map.1 (List.mem_of_getLast? hblank)
  split at hj <;> exact absurd hj (by decide)

theorem numbered_inj {i j : ℕ} (hi : i < 2 ^ 11) (hj : j < 2 ^ 11) (h : numbered i = numbered j) :
    i = j := by
  refine Nat.eq_of_testBit_eq fun k => ?_
  rcases Nat.lt_or_ge k 11 with hlt | hge
  · have hk := List.map_inj_left.1 h k (List.mem_range.2 hlt)
    cases hbi : i.testBit k <;> cases hbj : j.testBit k <;> simp_all
  · have hpow : 2 ^ 11 ≤ 2 ^ k := Nat.pow_le_pow_right (by omega) hge
    rw [Nat.testBit_lt_two_pow (hi.trans_le hpow), Nat.testBit_lt_two_pow (hj.trans_le hpow)]

/-- The names that were set are all different. -/
theorem names_manySets : names manySets.reverse = (List.range (MAX_VARS + 1)).map numbered := by
  have hmap : manySets.map (fun x => trim x.1) = (List.range (MAX_VARS + 1)).map numbered := by
    rw [manySets, List.map_map]
    exact List.map_congr_left fun i _ => trim_numbered i
  have hnodup : ((List.range (MAX_VARS + 1)).map numbered).Nodup := by
    refine List.Nodup.map_on (fun i hi j hj => ?_) List.nodup_range
    rw [List.mem_range, MAX_VARS] at hi hj
    exact numbered_inj (by omega) (by omega)
  rw [names, List.map_reverse, hmap, (List.nodup_reverse.2 hnodup).dedup, List.reverse_reverse]

theorem not_kept_manySets : ¬ Kept manySets.reverse (numbered MAX_VARS) := by
  rw [Kept, names_manySets, trim_numbered, List.length_map, List.length_range, not_or]
  refine ⟨by omega, fun hmem => ?_⟩
  rw [← List.map_take, List.take_range, Nat.min_eq_left (by omega)] at hmem
  obtain ⟨i, hi, heq⟩ := List.mem_map.1 hmem
  rw [List.mem_range] at hi
  have hmax : MAX_VARS < 2 ^ 11 := by decide
  exact hi.ne (numbered_inj (hi.trans hmax) hmax heq)

theorem Session.sets_foldl (s : Session) (sets : Sets) :
    ((sets.map fun x => Call.setVar x.1 x.2).foldl step s).sets = sets.reverse ++ s.sets := by
  induction sets generalizing s with
  | nil => rfl
  | cons x sets ih =>
    rw [List.map_cons, List.foldl_cons, ih, List.reverse_cons, List.append_assoc]
    rfl

theorem last_name_lost :
    ¬ Meets Session.step Session.Works ⟨.start (fun _ => []) fun _ => [], []⟩ manyCalls := by
  have hfits : ∀ a ∈ manyCalls, a.Fits := by
    intro a ha
    rcases List.mem_append.1 ha with hset | hget
    · obtain ⟨x, hx, rfl⟩ := List.mem_map.1 hset
      obtain ⟨i, -, rfl⟩ := List.mem_map.1 hx
      simp [Call.Fits, numbered, MAX_CMD_LEN]
    · rw [List.mem_singleton.1 hget]
      trivial
  rw [Session.meets_works_iff (represents_start _ _) hfits, manyCalls, meets_append]
  rintro ⟨-, hkept, -⟩
  rw [Session.sets_foldl, List.append_nil] at hkept
  exact not_kept_manySets hkept

end PocketDarwin.Mqtsh
