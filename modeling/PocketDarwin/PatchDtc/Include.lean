/-
  `#include`: termination, and when an include is circular.

  A call of `_expand_includes_native` has the files on the include stack above
  it; they are different files, so there are no more calls at once than there
  are files, and that much fuel is enough (`expandIncludes_returns`).

  `includeLog` is the history of a run: an active `#include` line met, an
  expansion begun and an expansion finished.  A file is unfinished while its
  expansion has begun and not finished, and this says nothing of the include
  stack.  `expandLog_guarded` shows that the two agree: an include line that is met
  fails if its file is unfinished, and otherwise the expansion of the file begins,
  with the macro table of the line.
-/
import Mathlib.Data.List.Perm.Subperm
import PocketDarwin.PatchDtc.Conditional

namespace PocketDarwin.PatchDtc.Preprocessor

section
variable {P : Type} (py : Python) (fs : FileSystem P) (includeDirs : List P) (preundefs : List Text)

/-! ## Include lines -/

/-- The file of an active `#include` line. -/
def activeTarget (input : P) (st : Expansion) (rawLine : Text) : Option P :=
  let line := rstrip rawLine
  if lineMarkerMatch py line then none
  else
    match includeMatch line, st.active with
    | some (isSystem, target), true => (resolveInclude fs includeDirs target isSystem input).toOption
    | _, _ => none

/-- The error of a circular include. -/
def IsCircular {α : Type} (r : Except (Failure P) α) : Prop :=
  ∃ input stack, r = .error (.includeError (.circular input stack))

/-- A result that is no matter of the recursion: a value, or an error other than
    that of a circular include. -/
def Settles {α : Type} (r : Except (Failure P) α) : Prop :=
  (∃ a, r = .ok a) ∨ ∃ e, r = .error (.includeError e) ∧ ∀ input stack, e ≠ .circular input stack

theorem isCircular_ok {α : Type} (a : α) : IsCircular (.ok a : Except (Failure P) α) = False := by
  simp [IsCircular]

theorem isCircular_error (α : Type) (e : Failure P) : IsCircular (.error e : Except (Failure P) α) =
    ∃ input stack, e = .includeError (.circular input stack) := by
  simp [IsCircular]

theorem isCircular_map {α β : Type} (f : α → β) (r : Except (Failure P) α) :
    IsCircular (r.map f) ↔ IsCircular r := by
  cases r with
  | ok a => simp [Except.map, isCircular_ok]
  | error e => simp [Except.map, isCircular_error]

theorem resolveInclude_cases (target : Text) (isSystem : Bool) (input : P) :
    (∃ path, fs.isFile path ∧ resolveInclude fs includeDirs target isSystem input = .ok path) ∨
      resolveInclude fs includeDirs target isSystem input =
        .error (.includeError (.unresolved input target isSystem includeDirs)) := by
  unfold resolveInclude
  cases h : (includeCandidates fs includeDirs target isSystem input).find? fs.isFile with
  | some path => exact .inl ⟨path, List.find?_some h, rfl⟩
  | none => exact .inr rfl

theorem conditionalLine_settles (input : P) (st : Expansion) (line : Text) :
    Settles (conditionalLine py preundefs input st line) := by
  unfold conditionalLine
  repeat' split
  all_goals first
    | exact .inl ⟨_, rfl⟩
    | exact .inr ⟨_, rfl, by simp⟩

theorem definitionLine_settles (input : P) (st : Expansion) (line : Text) :
    Settles (definitionLine py preundefs input st line) := by
  unfold definitionLine
  split
  · exact .inl ⟨_, rfl⟩
  split
  · exact .inl ⟨_, rfl⟩
  · exact conditionalLine_settles py preundefs input st line

/-- The state behind an `#include` line. -/
def Expansion.included (st : Expansion) (input : P) (target : Text) (expanded : Text × Macros) : Expansion :=
  { st with
    macros := expanded.2
    output := st.output ++ [beginMark fs input target, expanded.1, endMark target] }

/-- **What a line can do**: an active `#include` line that is resolved makes the
    recursive call, with the macro table of the moment, and puts its text in
    place of the line; every other line makes no call. -/
theorem processLine_cases (input : P) (st : Expansion) (rawLine : Text) :
    (∃ path target, activeTarget py fs includeDirs input st rawLine = some path ∧ fs.isFile path ∧
      ∀ expand, processLine py fs includeDirs preundefs expand input st rawLine =
        (expand path st.macros).map (st.included fs input target)) ∨
    (activeTarget py fs includeDirs input st rawLine = none ∧
      ∃ r, Settles r ∧ ∀ expand, processLine py fs includeDirs preundefs expand input st rawLine = r) := by
  unfold activeTarget processLine
  by_cases hm : lineMarkerMatch py (rstrip rawLine)
  · simp only [hm, if_true]
    exact .inr ⟨trivial, _, .inl ⟨st, rfl⟩, fun _ => rfl⟩
  simp only [hm, Bool.false_eq_true, if_false]
  cases hi : includeMatch (rstrip rawLine) with
  | none => exact .inr ⟨rfl, _, definitionLine_settles py preundefs input st _, fun _ => rfl⟩
  | some m =>
    cases ha : st.active with
    | false => exact .inr ⟨rfl, _, definitionLine_settles py preundefs input st _, fun _ => rfl⟩
    | true =>
      obtain ⟨isSystem, target⟩ := m
      rcases resolveInclude_cases fs includeDirs target isSystem input with ⟨path, hfile, hr⟩ | hr
      · refine .inl ⟨path, target, ?_, hfile, fun expand => ?_⟩
        · simp only [hr]
          rfl
        · simp only [hr, ok_bind]
          cases expand path st.macros <;> rfl
      · refine .inr ⟨?_, .error (.includeError (.unresolved input target isSystem includeDirs)),
          .inr ⟨_, rfl, by simp⟩, fun expand => ?_⟩
        · simp only [hr]
          rfl
        · simp only [hr]
          rfl

/-! ## Fuel -/

/-- There is fuel for as many calls as there are files that are not on the
    include stack. -/
structure Ready (fuel : ℕ) (stack : List P) : Prop where
  nodup : stack.Nodup
  subset : stack ⊆ fs.files
  fuel : fs.files.length < fuel + stack.length

variable {fs}

theorem Ready.pos {fuel : ℕ} {stack : List P} (h : Ready fs fuel stack) : 0 < fuel := by
  have hlen := (h.nodup.subperm h.subset).length_le
  have := h.fuel
  omega

theorem Ready.push {fuel : ℕ} {stack : List P} {rp : P} (h : Ready fs (fuel + 1) stack) (hrp : rp ∉ stack)
    (hfile : rp ∈ fs.files) : Ready fs fuel (stack ++ [rp]) := by
  refine ⟨?_, ?_, ?_⟩
  · rw [List.nodup_append]
    refine ⟨h.nodup, List.nodup_singleton rp, ?_⟩
    rintro x hx y hy rfl
    rw [List.mem_singleton.1 hy] at hx
    exact hrp hx
  · intro x hx
    rcases List.mem_append.1 hx with hx | hx
    · exact h.subset hx
    · rw [List.mem_singleton.1 hx]
      exact hfile
  · have := h.fuel
    simp only [List.length_append, List.length_singleton]
    omega

/-- The loop only asks for the expansion of files. -/
theorem processLine_congr {expand expand' : P → Macros → Except (Failure P) (Text × Macros)}
    (h : ∀ path m, fs.isFile path → expand path m = expand' path m) (input : P) :
    processLine py fs includeDirs preundefs expand input =
      processLine py fs includeDirs preundefs expand' input := by
  funext st rawLine
  rcases processLine_cases py fs includeDirs preundefs input st rawLine with
    ⟨path, target, -, hfile, hcall⟩ | ⟨-, r, -, hr⟩
  · rw [hcall, hcall, h path st.macros hfile]
  · rw [hr, hr]

/-- The loop only runs out of fuel in a call. -/
theorem processLine_fuel {expand : P → Macros → Except (Failure P) (Text × Macros)}
    (h : ∀ path m, fs.isFile path → expand path m ≠ .error .outOfFuel) (input : P) (st : Expansion)
    (rawLine : Text) :
    processLine py fs includeDirs preundefs expand input st rawLine ≠ .error .outOfFuel := by
  rcases processLine_cases py fs includeDirs preundefs input st rawLine with
    ⟨path, target, -, hfile, hcall⟩ | ⟨-, r, hr, heq⟩
  · rw [hcall]
    have hpath := h path st.macros hfile
    cases hx : expand path st.macros with
    | ok r => simp [Except.map]
    | error e =>
      rw [hx] at hpath
      simpa [Except.map] using hpath
  · rw [heq]
    rcases hr with ⟨a, rfl⟩ | ⟨e, rfl, -⟩ <;> simp

theorem lines_fuel {expand : P → Macros → Except (Failure P) (Text × Macros)}
    (h : ∀ path m, fs.isFile path → expand path m ≠ .error .outOfFuel) (input : P) (lines : List Text)
    (st : Expansion) :
    lines.foldlM (processLine py fs includeDirs preundefs expand input) st ≠ .error .outOfFuel := by
  induction lines generalizing st with
  | nil => exact nofun
  | cons line lines ih =>
    have hline := processLine_fuel py includeDirs preundefs h input st line
    rw [List.foldlM_cons]
    cases hx : processLine py fs includeDirs preundefs expand input st line with
    | ok st' => exact ih st'
    | error e =>
      rw [hx] at hline
      simpa using hline

variable [DecidableEq P] (fs)

/-- The line loop of a file, with the include stack that its calls are given. -/
def runLines (fuel : ℕ) (stack : List P) (input : P) (macros : Macros) : Except (Failure P) Expansion :=
  (fileLines (fs.readText input)).foldlM (processLine py fs includeDirs preundefs
    (expandIncludes py fs includeDirs preundefs fuel stack) input) { macros := macros }

theorem expandIncludes_circular (fuel : ℕ) {stack : List P} {input : P} (h : fs.resolve input ∈ stack)
    (macros : Macros) :
    expandIncludes py fs includeDirs preundefs (fuel + 1) stack input macros =
      .error (.includeError (.circular input stack)) := by
  rw [expandIncludes, if_pos (List.contains_iff_mem.2 h)]

theorem expandIncludes_file (fuel : ℕ) {stack : List P} {input : P} (h : fs.resolve input ∉ stack)
    (macros : Macros) :
    expandIncludes py fs includeDirs preundefs (fuel + 1) stack input macros =
      (runLines py fs includeDirs preundefs fuel (stack ++ [fs.resolve input]) input macros >>=
        finishFile input) := by
  rw [expandIncludes, if_neg (mt List.contains_iff_mem.1 h)]
  rfl

omit [DecidableEq P] in
theorem finishFile_settles (input : P) (st : Expansion) : Settles (finishFile input st) := by
  unfold finishFile
  split_ifs
  · exact .inl ⟨_, rfl⟩
  · exact .inr ⟨_, rfl, by simp⟩

variable {fs}

/-- **The expansion returns**: it does not run out of fuel. -/
theorem expandIncludes_returns {fuel : ℕ} {stack : List P} (h : Ready fs fuel stack) {input : P}
    (hfile : fs.isFile input) (macros : Macros) :
    expandIncludes py fs includeDirs preundefs fuel stack input macros ≠ .error .outOfFuel := by
  induction fuel generalizing stack input macros with
  | zero => exact absurd h.pos (Nat.lt_irrefl 0)
  | succ fuel ih =>
    by_cases hc : fs.resolve input ∈ stack
    · rw [expandIncludes_circular py fs includeDirs preundefs fuel hc]
      simp
    have hready := h.push hc (fs.resolve_mem input hfile)
    have hlines := lines_fuel py includeDirs preundefs (fun path m hp => ih hready hp m) input
      (fileLines (fs.readText input)) { macros := macros }
    rw [expandIncludes_file py fs includeDirs preundefs fuel hc]
    rw [← runLines] at hlines
    cases hx : runLines py fs includeDirs preundefs fuel (stack ++ [fs.resolve input]) input macros with
    | ok st =>
      rw [ok_bind]
      rcases finishFile_settles input st with ⟨a, ha⟩ | ⟨e, he, -⟩
      · simp [ha]
      · simp [he]
    | error e =>
      rw [hx] at hlines
      simpa using hlines

/-- More fuel changes nothing. -/
theorem expandIncludes_stable {fuel : ℕ} {stack : List P} (h : Ready fs fuel stack) {input : P}
    (hfile : fs.isFile input) (macros : Macros) (k : ℕ) :
    expandIncludes py fs includeDirs preundefs (fuel + k) stack input macros =
      expandIncludes py fs includeDirs preundefs fuel stack input macros := by
  induction fuel generalizing stack input macros with
  | zero => exact absurd h.pos (Nat.lt_irrefl 0)
  | succ fuel ih =>
    by_cases hc : fs.resolve input ∈ stack
    · rw [Nat.succ_add, expandIncludes_circular py fs includeDirs preundefs _ hc,
        expandIncludes_circular py fs includeDirs preundefs _ hc]
    have hready := h.push hc (fs.resolve_mem input hfile)
    rw [Nat.succ_add, expandIncludes_file py fs includeDirs preundefs _ hc,
      expandIncludes_file py fs includeDirs preundefs _ hc, runLines, runLines,
      processLine_congr py includeDirs preundefs fun path m hp => ih hready hp m]

/-! ## The log of a run -/

variable (fs)

/-- What happens in a run: an active `#include` line of the file `rp` is met, the
    expansion of a file begins, and it is finished. -/
inductive Event (P : Type) where
  | meets (rp : P) (macros : Macros)
  | begins (rp : P) (macros : Macros)
  | finishes (rp : P)

/-- The log of the line loop; `expand` is the recursive call, and `log` its log. -/
def linesLog (expand : P → Macros → Except (Failure P) (Text × Macros)) (log : P → Macros → List (Event P))
    (input : P) : Expansion → List Text → List (Event P)
  | _, [] => []
  | st, line :: lines =>
    let called := match activeTarget py fs includeDirs input st line with
      | some path => .meets (fs.resolve path) st.macros :: log path st.macros
      | none => []
    called ++ match processLine py fs includeDirs preundefs expand input st line with
      | .ok st' => linesLog expand log input st' lines
      | .error _ => []

/-- The log of `_expand_includes_native`. -/
def expandLog : ℕ → List P → P → Macros → List (Event P)
  | 0, _, _, _ => []
  | fuel + 1, stack, input, macros =>
    let rp := fs.resolve input
    if stack.contains rp then []
    else
      .begins rp macros ::
        (linesLog py fs includeDirs preundefs (expandIncludes py fs includeDirs preundefs fuel (stack ++ [rp]))
          (expandLog fuel (stack ++ [rp])) input { macros := macros } (fileLines (fs.readText input)) ++
        match expandIncludes py fs includeDirs preundefs (fuel + 1) stack input macros with
        | .ok _ => [.finishes rp]
        | .error _ => [])

/-- The files whose expansion has begun and not finished, with those in `files`
    before. -/
def unfinishedFrom (files : List P) (log : List (Event P)) : List P :=
  log.foldl (fun files event => match event with
    | .meets _ _ => files
    | .begins rp _ => rp :: files
    | .finishes rp => files.erase rp) files

omit fs in
theorem unfinishedFrom_append (files : List P) (log log' : List (Event P)) :
    unfinishedFrom files (log ++ log') = unfinishedFrom (unfinishedFrom files log) log' :=
  List.foldl_append

/-- The files whose expansion has begun and not finished. -/
def unfinished (log : List (Event P)) : List P := unfinishedFrom [] log

/-! ## Guarded logs -/

/-- Where an include line is met whose file is unfinished, the run ends there and
    is `circular`; where its file is not, the expansion of the file begins, with
    the macro table of the line. -/
def Guarded (circular : Prop) : List P → List (Event P) → Prop
  | _, [] => ¬ circular
  | files, .meets rp m :: log =>
    (rp ∈ files ∧ log = [] ∧ circular) ∨
      (rp ∉ files ∧ (∃ log', log = .begins rp m :: log') ∧ Guarded circular files log)
  | files, .begins rp _ :: log => Guarded circular (rp :: files) log
  | files, .finishes rp :: log => Guarded circular (files.erase rp) log

variable {fs}

omit fs in
theorem Guarded.append {circular : Prop} {files : List P} {log log' : List (Event P)}
    (h : Guarded False files log) (h' : Guarded circular (unfinishedFrom files log) log') :
    Guarded circular files (log ++ log') := by
  induction log generalizing files with
  | nil => exact h'
  | cons event log ih =>
    cases event with
    | meets rp m =>
      rcases h with ⟨-, -, h⟩ | ⟨h₁, ⟨l, rfl⟩, h₂⟩
      · exact h.elim
      · exact .inr ⟨h₁, ⟨l ++ log', rfl⟩, ih h₂ h'⟩
    | begins rp m => exact ih h h'
    | finishes rp => exact ih h h'

/-- A run that is guarded, and that leaves no file unfinished if it returns. -/
structure GuardedRun {α : Type} (files : List P) (result : Except (Failure P) α) (log : List (Event P)) :
    Prop where
  guarded : Guarded (IsCircular result) files log
  finished : ∀ a, result = .ok a → unfinishedFrom files log = files

/-- **The line loop is guarded**, if the recursive calls are. -/
theorem lines_guarded (expand : P → Macros → Except (Failure P) (Text × Macros))
    (log : P → Macros → List (Event P)) (files : List P)
    (hopen : ∀ path m, fs.resolve path ∈ files → IsCircular (expand path m) ∧ log path m = [])
    (hcall : ∀ path m, fs.isFile path → fs.resolve path ∉ files →
      (∃ l, log path m = .begins (fs.resolve path) m :: l) ∧ GuardedRun files (expand path m) (log path m))
    (input : P) (lines : List Text) (st : Expansion) :
    GuardedRun files (lines.foldlM (processLine py fs includeDirs preundefs expand input) st)
      (linesLog py fs includeDirs preundefs expand log input st lines) := by
  induction lines generalizing st with
  | nil => exact ⟨by rw [List.foldlM_nil]; exact (isCircular_ok st).mp, fun _ _ => rfl⟩
  | cons line lines ih =>
    rw [List.foldlM_cons, linesLog]
    rcases processLine_cases py fs includeDirs preundefs input st line with
      ⟨path, target, hact, hfile, hcalls⟩ | ⟨hnone, r, hset, hr⟩
    · rw [hact, hcalls expand]
      by_cases hin : fs.resolve path ∈ files
      · obtain ⟨⟨i, s, hcirc⟩, hlog⟩ := hopen path st.macros hin
        simp only [hcirc, hlog, Except.map, error_bind, List.append_nil]
        exact ⟨.inl ⟨hin, rfl, i, s, rfl⟩, nofun⟩
      · obtain ⟨⟨l, hl⟩, hrun⟩ := hcall path st.macros hfile hin
        cases hx : expand path st.macros with
        | error e =>
          have hg := hrun.guarded
          rw [hx, isCircular_error] at hg
          simp only [Except.map, error_bind, List.append_nil]
          refine ⟨.inr ⟨hin, ⟨l, hl⟩, ?_⟩, nofun⟩
          rw [isCircular_error]
          exact hg
        | ok r =>
          have hg := hrun.guarded
          have hf := hrun.finished r hx
          rw [hx, isCircular_ok] at hg
          have hrest := ih (st.included fs input target r)
          simp only [Except.map, ok_bind]
          refine ⟨.inr ⟨hin, ⟨_, by rw [hl]; rfl⟩, hg.append ?_⟩, fun a ha => ?_⟩
          · rw [hf]
            exact hrest.guarded
          · have hmeets : unfinishedFrom files
                (.meets (fs.resolve path) st.macros :: log path st.macros) =
                files := hf
            rw [unfinishedFrom_append, hmeets]
            exact hrest.finished a ha
    · rw [hnone, hr]
      rcases hset with ⟨st', rfl⟩ | ⟨e, rfl, hne⟩
      · exact ih st'
      · refine ⟨?_, nofun⟩
        rintro ⟨i, s, he⟩
        exact hne i s (Failure.includeError.inj (Except.error.inj he))

/-- **A call is guarded**, from any include stack. -/
theorem expandLog_guarded {fuel : ℕ} {stack files : List P} (h : Ready fs fuel stack)
    (hfiles : ∀ x, x ∈ files ↔ x ∈ stack) {input : P} (hfile : fs.isFile input)
    (hnew : fs.resolve input ∉ stack) (macros : Macros) :
    (∃ l, expandLog py fs includeDirs preundefs fuel stack input macros =
      .begins (fs.resolve input) macros :: l) ∧
      GuardedRun files (expandIncludes py fs includeDirs preundefs fuel stack input macros)
        (expandLog py fs includeDirs preundefs fuel stack input macros) := by
  induction fuel generalizing stack files input macros with
  | zero => exact absurd h.pos (Nat.lt_irrefl 0)
  | succ fuel ih =>
    have hready := h.push hnew (fs.resolve_mem input hfile)
    have hmem : ∀ x, x ∈ fs.resolve input :: files ↔ x ∈ stack ++ [fs.resolve input] := by
      intro x
      rw [List.mem_cons, List.mem_append, List.mem_singleton, hfiles x, or_comm]
    obtain ⟨k, rfl⟩ : ∃ k, fuel = k + 1 := ⟨fuel - 1, by have := hready.pos; omega⟩
    have hlines := lines_guarded py includeDirs preundefs
      (expandIncludes py fs includeDirs preundefs (k + 1) (stack ++ [fs.resolve input]))
      (expandLog py fs includeDirs preundefs (k + 1) (stack ++ [fs.resolve input]))
      (fs.resolve input :: files)
      (fun path m hin => ⟨⟨_, _, expandIncludes_circular py fs includeDirs preundefs k
        ((hmem _).1 hin) m⟩,
        by rw [expandLog, if_pos (List.contains_iff_mem.2 ((hmem _).1 hin))]⟩)
      (fun path m hp hin => ih hready hmem hp (mt (hmem _).2 hin) m)
      input (fileLines (fs.readText input)) { macros := macros }
    rw [expandLog, if_neg (mt List.contains_iff_mem.1 hnew),
      expandIncludes_file py fs includeDirs preundefs _ hnew]
    rw [← runLines] at hlines
    refine ⟨⟨_, rfl⟩, ?_⟩
    cases hx : runLines py fs includeDirs preundefs (k + 1) (stack ++ [fs.resolve input])
      input macros with
    | error e =>
      have hg := hlines.guarded
      rw [hx, isCircular_error] at hg
      simp only [error_bind, List.append_nil]
      refine ⟨?_, nofun⟩
      rw [isCircular_error]
      exact hg
    | ok st =>
      have hg := hlines.guarded
      have hf := hlines.finished st hx
      rw [hx, isCircular_ok] at hg
      rw [ok_bind]
      rcases finishFile_settles input st with ⟨r, hr⟩ | ⟨e, he, hne⟩
      · simp only [hr]
        refine ⟨?_, fun a ha => ?_⟩
        · rw [isCircular_ok]
          show Guarded False (fs.resolve input :: files) (_ ++ _)
          exact hg.append id
        · refine (unfinishedFrom_append (fs.resolve input :: files) _ _).trans ?_
          rw [hf]
          exact List.erase_cons_head (fs.resolve input) files
      · simp only [he, List.append_nil]
        refine ⟨?_, nofun⟩
        have hno : IsCircular (.error (.includeError e) : Except (Failure P) (Text × Macros)) =
            False := by
          rw [isCircular_error]
          simpa using hne
        rw [hno]
        exact hg

omit fs in
theorem meets_cons {files : List P} {event : Event P} {log : List (Event P)} :
    (∃ before rp m after, event :: log = before ++ .meets rp m :: after ∧
        rp ∈ unfinishedFrom files before) ↔
      (∃ rp m, event = .meets rp m ∧ rp ∈ files) ∨
        ∃ before rp m after, log = before ++ .meets rp m :: after ∧
          rp ∈ unfinishedFrom (unfinishedFrom files [event]) before := by
  constructor
  · rintro ⟨before, rp, m, after, he, hrp⟩
    cases before with
    | nil => exact .inl ⟨rp, m, (List.cons.inj he).1, hrp⟩
    | cons e before =>
      obtain ⟨rfl, hlog⟩ := List.cons.inj he
      exact .inr ⟨before, rp, m, after, hlog, hrp⟩
  · rintro (⟨rp, m, rfl, hrp⟩ | ⟨before, rp, m, after, rfl, hrp⟩)
    · exact ⟨[], rp, m, log, rfl, hrp⟩
    · exact ⟨event :: before, rp, m, after, rfl, hrp⟩

omit fs in
/-- A guarded run is circular where an include line of an unfinished file is met,
    and only there. -/
theorem Guarded.circular_iff {circular : Prop} {files : List P} {log : List (Event P)}
    (h : Guarded circular files log) :
    circular ↔ ∃ before rp m after, log = before ++ .meets rp m :: after ∧
      rp ∈ unfinishedFrom files before := by
  induction log generalizing files with
  | nil => simpa [Guarded] using h
  | cons event log ih =>
    rw [meets_cons]
    cases event with
    | meets rp m =>
      rcases h with ⟨hin, -, hc⟩ | ⟨hout, -, h⟩
      · exact ⟨fun _ => .inl ⟨rp, m, rfl, hin⟩, fun _ => hc⟩
      · rw [ih h, or_iff_right]
        · rfl
        · rintro ⟨rp', m', he, hin⟩
          cases he
          exact hout hin
    | begins rp m =>
      rw [ih (show Guarded circular (rp :: files) log from h), or_iff_right (by simp)]
      rfl
    | finishes rp =>
      rw [ih (show Guarded circular (files.erase rp) log from h), or_iff_right (by simp)]
      rfl

omit fs in
/-- Where the file is not unfinished, its expansion begins. -/
theorem Guarded.begins {circular : Prop} {files : List P} {before after : List (Event P)} {rp : P}
    {m : Macros} (h : Guarded circular files (before ++ .meets rp m :: after))
    (hrp : rp ∉ unfinishedFrom files before) : ∃ after', after = .begins rp m :: after' := by
  induction before generalizing files with
  | nil =>
    rcases h with ⟨hin, -⟩ | ⟨-, hnext, -⟩
    · exact absurd hin hrp
    · exact hnext
  | cons event before ih =>
    cases event with
    | meets rp' m' =>
      rcases h with ⟨-, hnil, -⟩ | ⟨-, -, h⟩
      · simp at hnil
      · exact ih h hrp
    | begins rp' m' =>
      exact ih (show Guarded circular (rp' :: files) (before ++ .meets rp m :: after) from h) hrp
    | finishes rp' =>
      exact ih (show Guarded circular (files.erase rp') (before ++ .meets rp m :: after) from h) hrp

variable (fs)

/-- The log of a top-level call. -/
def includeLog (predefines : Macros) (input : P) : List (Event P) :=
  expandLog py fs includeDirs preundefs (fs.files.length + 1) [] input
    (preundefs.foldl (fun m name => m.erase name) predefines)

/-- **Include expansion terminates and is guarded.**  On every file the expansion
    returns a text or fails with an `IncludeError`, and more fuel changes
    nothing.  It fails with the error of a circular include if and only if an
    active `#include` line is met whose file is unfinished; where the file of such
    a line is not unfinished, its expansion begins, under the macro table of that
    moment, and the line is replaced by what the expansion gives. -/
theorem include_expansion_guarded (predefines : Macros) {input : P} (h : fs.isFile input) :
    ((∃ text, expandIncludesNative py fs includeDirs preundefs predefines input = .ok text) ∨
      ∃ e, expandIncludesNative py fs includeDirs preundefs predefines input = .error (.includeError e)) ∧
    (∀ k macros, expandIncludes py fs includeDirs preundefs (fs.files.length + 1 + k) [] input macros =
      expandIncludes py fs includeDirs preundefs (fs.files.length + 1) [] input macros) ∧
    ((∃ path stack, expandIncludesNative py fs includeDirs preundefs predefines input =
        .error (.includeError (.circular path stack))) ↔
      ∃ before rp m after, includeLog py fs includeDirs preundefs predefines input =
        before ++ .meets rp m :: after ∧ rp ∈ unfinished before) ∧
    (∀ before rp m after, includeLog py fs includeDirs preundefs predefines input =
      before ++ .meets rp m :: after → rp ∉ unfinished before → ∃ after', after = .begins rp m :: after') ∧
    ∀ includer st rawLine path, activeTarget py fs includeDirs includer st rawLine = some path →
      ∃ target, ∀ expand, processLine py fs includeDirs preundefs expand includer st rawLine =
        (expand path st.macros).map (st.included fs includer target) := by
  have hready : Ready fs (fs.files.length + 1) [] := ⟨List.nodup_nil, List.nil_subset _, by simp⟩
  generalize hm : preundefs.foldl (fun m name => m.erase name) predefines = macros
  have hreturns := expandIncludes_returns py includeDirs preundefs hready h macros
  have hguarded := (expandLog_guarded py includeDirs preundefs hready (fun _ => Iff.rfl) h
    (List.not_mem_nil) macros).2.guarded
  have hlog : includeLog py fs includeDirs preundefs predefines input =
      expandLog py fs includeDirs preundefs (fs.files.length + 1) [] input macros := by
    rw [includeLog, hm]
  have hnative : expandIncludesNative py fs includeDirs preundefs predefines input =
      (expandIncludes py fs includeDirs preundefs (fs.files.length + 1) [] input macros).map (·.1) := by
    rw [expandIncludesNative, hm]
  rw [hlog, hnative]
  refine ⟨?_, fun k m => expandIncludes_stable py includeDirs preundefs hready h m k, ?_, ?_, ?_⟩
  · cases hx : expandIncludes py fs includeDirs preundefs (fs.files.length + 1) [] input macros with
    | ok r => exact .inl ⟨r.1, rfl⟩
    | error e =>
      cases e with
      | includeError e => exact .inr ⟨e, rfl⟩
      | outOfFuel => exact absurd hx hreturns
  · exact (isCircular_map (·.1) _).trans hguarded.circular_iff
  · intro before rp m after he hrp
    rw [he] at hguarded
    exact hguarded.begins hrp
  · intro includer st rawLine path hpath
    rcases processLine_cases py fs includeDirs preundefs includer st rawLine with
      ⟨path', target, hact, -, hcall⟩ | ⟨hnone, -⟩
    · obtain rfl : path' = path := Option.some.inj (hact.symm.trans hpath)
      exact ⟨target, hcall⟩
    · rw [hnone] at hpath
      cases hpath

end

/-! ## A directory -/

/-- The files of the working directory, each with its text. -/
def directory (contents : List (Text × Text)) : FileSystem Text where
  ofText := id
  join _ target := target
  parent _ := ['.']
  name := id
  str := id
  resolve := id
  isFile path := (contents.lookup path).isSome
  readText path := (contents.lookup path).getD []
  files := contents.map (·.1)
  resolve_mem path h := by
    obtain ⟨text, ht⟩ := Option.isSome_iff_exists.1 h
    obtain ⟨l₁, l₂, rfl, -⟩ := List.lookup_eq_some_iff.1 ht
    simp

/-- `a` includes `b` twice, and `b` includes `a` where `A` is defined, which it
    defines. -/
def cycle : List (Text × Text) :=
  [(['a'], "#include \"b\"\n#include \"b\"\n".toList),
    (['b'], "#ifdef A\n#include \"a\"\n#endif\n#define A\n".toList)]

/-- The second inclusion of `b` is no error, and the inclusion of `a` in it is. -/
theorem include_expansion_guarded_cycle :
    (directory cycle).isFile ['a'] ∧
      expandIncludesNative asciiPython (directory cycle) [] [] ∅ ['a'] =
        .error (.includeError (.circular ['a'] [['a'], ['b']])) ∧
      ∃ before rp m after, includeLog asciiPython (directory cycle) [] [] ∅ ['a'] =
        before ++ .meets rp m :: after ∧ rp ∈ unfinished before := by
  have hfile : (directory cycle).isFile ['a'] := rfl
  have hcircular : expandIncludesNative asciiPython (directory cycle) [] [] ∅ ['a'] =
      .error (.includeError (.circular ['a'] [['a'], ['b']])) := by
    decide +kernel
  obtain ⟨-, -, hiff, -⟩ := include_expansion_guarded asciiPython (directory cycle) [] [] ∅ hfile
  exact ⟨hfile, hcircular, hiff.1 ⟨_, _, hcircular⟩⟩

end PocketDarwin.PatchDtc.Preprocessor
