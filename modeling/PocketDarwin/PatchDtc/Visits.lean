/-
  The lines that a run of the preprocessor reaches, and the macro table at each.

  All calls of `_expand_includes_native` share one table, so the table at a line is
  what the lines reached before have made of it, whatever file they are in
  (`runVisits_follow`).  What a conditional says of a name and what an ordinary line
  makes of it agree, as long as no name is defined that the command line undefines
  (`definedness_agrees`): an `#ifdef` asks for such a name in vain, but an ordinary line
  only looks into the table.
-/
import PocketDarwin.PatchDtc.Chunks
import PocketDarwin.PatchDtc.Include

namespace PocketDarwin.PatchDtc.Preprocessor

/-- A line that is reached in a file, with the state of the loop there. -/
structure Visit (P : Type) where
  input : P
  st : Expansion
  line : Text

/-- A change of the macro table. -/
inductive Change where
  | define (name body : Text)
  | undef (name : Text)
deriving DecidableEq

section
variable {P : Type} (py : Python)

/-- The change that an active line makes. -/
def Visit.change (v : Visit P) : Option Change :=
  let line := rstrip v.line
  if lineMarkerMatch py line || !v.st.active || (includeMatch line).isSome then none
  else
    match defineMatch line, undefMatch line with
    | some (name, value), _ => some (.define name (strip value))
    | none, some name => some (.undef name)
    | none, none => none

/-- The ordinary line that is emitted, before its macros are expanded. -/
def Visit.content (v : Visit P) : Option Text :=
  let line := rstrip v.line
  if lineMarkerMatch py line || !v.st.active || (includeMatch line).isSome
    || (defineMatch line).isSome ||
      (undefMatch line).isSome || directiveKind line ≠ .plain then none
  else some line

def Change.apply (macros : Macros) : Change → Macros
  | .define name body => macros.insert name (expandMacrosInLine py body macros)
  | .undef name => macros.erase name

/-- The table behind a line. -/
def follow (macros : Macros) (v : Visit P) : Macros :=
  match v.change py with
  | some change => change.apply py macros
  | none => macros

/-- The tables at lines that are reached one after the other: each is what the line before has
    made of the one before. -/
def Follows : Macros → List (Visit P) → Macros → Prop
  | m, [], m' => m' = m
  | m, v :: vs, m' => v.st.macros = m ∧ Follows (follow py m v) vs m'

variable (fs : FileSystem P) (includeDirs : List P) (preundefs : List Text)

/-- The lines that the loop reaches; `expand` is the recursive call, and `visits` the lines that
    it reaches. -/
def linesVisits (expand : P → Macros → Except (Failure P) (Text × Macros))
    (visits : P → Macros → List (Visit P))
    (input : P) : Expansion → List Text → List (Visit P)
  | _, [] => []
  | st, line :: lines =>
    let included := match activeTarget py fs includeDirs input st line with
      | some path => visits path st.macros
      | none => []
    ⟨input, st, line⟩ :: (included ++ match processLine py fs includeDirs preundefs expand input st
      line with
      | .ok st' => linesVisits expand visits input st' lines
      | .error _ => [])

variable [DecidableEq P]

/-- The lines that a call of `_expand_includes_native` reaches. -/
def expandVisits : ℕ → List P → P → Macros → List (Visit P)
  | 0, _, _, _ => []
  | fuel + 1, stack, input, macros =>
    let rp := fs.resolve input
    if stack.contains rp then []
    else
      linesVisits py fs includeDirs preundefs
        (expandIncludes py fs includeDirs preundefs fuel (stack ++ [rp]))
        (expandVisits fuel (stack ++ [rp])) input { macros := macros }
          (fileLines (fs.readText input))

/-- The macro table at the top of a run. -/
def initialMacros (predefines : Macros) : Macros :=
  preundefs.foldl (fun m name => m.erase name) predefines

/-- The lines that a run reaches. -/
def runVisits (predefines : Macros) (input : P) : List (Visit P) :=
  expandVisits py fs includeDirs preundefs (fs.files.length + 1) []
    input (initialMacros preundefs predefines)

end

/-! ## Tables -/

section
variable {P : Type} {py : Python} {m m' : Macros} {vs ws : List (Visit P)}

theorem follows_append : Follows py m (vs ++ ws) m' ↔ ∃ k, Follows py m vs k ∧ Follows py k ws m' := by
  induction vs generalizing m with
  | nil => simp [Follows]
  | cons v vs ih =>
    rw [List.cons_append, Follows, ih]
    constructor
    · rintro ⟨hv, k, h₁, h₂⟩
      exact ⟨k, ⟨hv, h₁⟩, h₂⟩
    · rintro ⟨k, ⟨hv, h₁⟩, h₂⟩
      exact ⟨hv, k, h₁, h₂⟩

/-- The table at a line, and the table at the end. -/
theorem Follows.table (h : Follows py m vs m') :
    m' = vs.foldl (follow py) m ∧
      ∀ before v after, vs = before ++ v :: after → v.st.macros = before.foldl (follow py) m := by
  induction vs generalizing m with
  | nil =>
    refine ⟨h, fun before v after he => ?_⟩
    simp at he
  | cons v vs ih =>
    obtain ⟨hv, hvs⟩ := h
    obtain ⟨hend, htable⟩ := ih hvs
    refine ⟨hend, fun before w after he => ?_⟩
    cases before with
    | nil =>
      rw [List.nil_append, List.cons.injEq] at he
      rw [← he.1]
      exact hv
    | cons u before =>
      rw [List.cons_append, List.cons.injEq] at he
      rw [List.foldl_cons, ← he.1]
      exact htable before w after he.2

end

section
variable {P : Type} (py : Python) (fs : FileSystem P) (includeDirs : List P) (preundefs : List Text)

theorem conditionalLine_macros {input : P} {st st' : Expansion} {line : Text}
    (h : conditionalLine py preundefs input st line = .ok st') : st'.macros = st.macros := by
  unfold conditionalLine at h
  repeat' split at h
  all_goals first
    | (cases h; rfl)
    | cases h

theorem definitionLine_inactive {input : P} {st : Expansion} (h : st.active = false) (line : Text) :
    definitionLine py preundefs input st line = conditionalLine py preundefs input st line := by
  unfold definitionLine
  rw [h]
  cases defineMatch line <;> cases undefMatch line <;> rfl

/-- A line that includes no file makes its change, if it has one. -/
theorem processLine_macros {expand : P → Macros → Except (Failure P) (Text × Macros)} {input : P}
    {st st' : Expansion} {line : Text} (hact : activeTarget py fs includeDirs input st line = none)
    (h : processLine py fs includeDirs preundefs expand input st line = .ok st') :
    st'.macros = follow py st.macros ⟨input, st, line⟩ := by
  unfold activeTarget at hact
  unfold processLine at h
  unfold follow Visit.change
  by_cases hmark : lineMarkerMatch py (rstrip line)
  · simp only [hmark, if_true, Except.ok.injEq] at h
    simp [hmark, h]
  simp only [hmark, Bool.false_eq_true, if_false, Bool.false_or] at hact h ⊢
  cases hactive : st.active with
  | false =>
    have hcond : conditionalLine py preundefs input st (rstrip line) = .ok st' := by
      rw [← h, ← definitionLine_inactive py preundefs hactive]
      cases includeMatch (rstrip line) <;> simp only [hactive]
    simpa [hactive] using conditionalLine_macros py preundefs hcond
  | true =>
    cases hinc : includeMatch (rstrip line) with
    | some target =>
      simp only [hinc, hactive] at hact h
      cases hres : resolveInclude fs includeDirs target.2 target.1 input with
      | ok path => simp [hres, Except.toOption] at hact
      | error e => simp [hres] at h
    | none =>
      simp only [hinc, definitionLine, hactive] at h
      simp only [Bool.not_true, Option.isSome_none, Bool.false_or, Bool.false_eq_true, if_false]
      cases hdef : defineMatch (rstrip line) with
      | some d =>
        simp only [hdef, Except.ok.injEq] at h
        rw [← h]
        rfl
      | none =>
        cases hundef : undefMatch (rstrip line) with
        | some name =>
          simp only [hdef, hundef, Except.ok.injEq] at h
          rw [← h]
          rfl
        | none =>
          simp only [hdef, hundef] at h
          exact conditionalLine_macros py preundefs h

/-- An active `#include` line makes no change of its own. -/
theorem follow_include {input path : P} {st : Expansion} {line : Text}
    (hact : activeTarget py fs includeDirs input st line = some path) :
    follow py st.macros ⟨input, st, line⟩ = st.macros := by
  unfold activeTarget at hact
  unfold follow Visit.change
  by_cases hmark : lineMarkerMatch py (rstrip line)
  · simp [hmark] at hact
  · cases hinc : includeMatch (rstrip line) with
    | none => simp [hmark, hinc] at hact
    | some target => simp [hinc]

/-- **The line loop** passes the table on from line to line, if the recursive calls do. -/
theorem lines_follow {expand : P → Macros → Except (Failure P) (Text × Macros)}
    {visits : P → Macros → List (Visit P)}
    (hcall : ∀ path m, ∃ m', Follows py m (visits path m) m' ∧ ∀ r, expand path m = .ok r →
      r.2 = m')
    (input : P) (lines : List Text) (st : Expansion) :
    ∃ m', Follows py st.macros (linesVisits py fs includeDirs preundefs expand visits input st
      lines) m' ∧
      ∀ st', lines.foldlM (processLine py fs includeDirs preundefs expand input) st = .ok st' →
      st'.macros = m' := by
  induction lines generalizing st with
  | nil => exact ⟨st.macros, rfl, fun st' h => by cases h; rfl⟩
  | cons line lines ih =>
    rw [linesVisits, List.foldlM_cons]
    rcases processLine_cases py fs includeDirs preundefs input st line with
      ⟨path, target, hact, -, hcalls⟩ | ⟨hnone, r, hset, hr⟩
    · obtain ⟨m', hfollow, hend⟩ := hcall path st.macros
      rw [hact, hcalls expand]
      cases hx : expand path st.macros with
      | error e =>
        refine ⟨m', ⟨rfl, ?_⟩, fun st' h => by cases h⟩
        rw [follow_include py fs includeDirs hact]
        simpa [Except.map] using hfollow
      | ok r =>
        obtain ⟨m'', hrest, hlast⟩ := ih (st.included fs input target r)
        refine ⟨m'', ⟨rfl, ?_⟩, hlast⟩
        rw [follow_include py fs includeDirs hact]
        refine follows_append.2 ⟨m', hfollow, ?_⟩
        rw [← hend r hx]
        exact hrest
    · rw [hnone, hr expand]
      cases hstep : r with
      | error e => exact ⟨_, ⟨rfl, rfl⟩, fun st' h => by cases h⟩
      | ok next =>
        have hline := (hr expand).trans hstep
        have hnext := processLine_macros py fs includeDirs preundefs hnone hline
        obtain ⟨m', hrest, hlast⟩ := ih next
        rw [hnext] at hrest
        exact ⟨m', ⟨rfl, hrest⟩, hlast⟩

variable [DecidableEq P]

theorem expandVisits_follow (fuel : ℕ) (stack : List P) (input : P) (macros : Macros) :
    ∃ m', Follows py macros (expandVisits py fs includeDirs preundefs fuel stack input macros) m' ∧
      ∀ r, expandIncludes py fs includeDirs preundefs fuel stack input macros = .ok r → r.2 = m' := by
  induction fuel generalizing stack input macros with
  | zero => exact ⟨macros, rfl, fun r h => by cases h⟩
  | succ fuel ih =>
    by_cases hc : fs.resolve input ∈ stack
    · rw [expandVisits, if_pos (List.contains_iff_mem.2 hc),
        expandIncludes_circular py fs includeDirs preundefs fuel hc]
      exact ⟨macros, rfl, fun r h => by cases h⟩
    · rw [expandVisits, if_neg (mt List.contains_iff_mem.1 hc),
        expandIncludes_file py fs includeDirs preundefs fuel hc]
      obtain ⟨m', hfollow, hend⟩ := lines_follow py fs includeDirs preundefs
        (fun path m => ih (stack ++ [fs.resolve input]) path m)
          input (fileLines (fs.readText input))
        { macros := macros }
      refine ⟨m', hfollow, fun r h => ?_⟩
      rw [← runLines] at hend
      cases hx : runLines py fs includeDirs preundefs fuel (stack ++ [fs.resolve input])
        input macros with
      | error e =>
        rw [hx] at h
        cases h
      | ok st =>
        rw [hx, ok_bind, finishFile] at h
        split_ifs at h
        cases h
        exact hend st hx

/-- **The macro table at a line** is what the lines reached before have made of the one at the
    top, and the table at the end is what all of them have. -/
theorem runVisits_follow (predefines : Macros) (input : P) :
    ∃ m', Follows py (initialMacros preundefs predefines)
      (runVisits py fs includeDirs preundefs predefines input) m' ∧
      ∀ r, expandIncludes py fs includeDirs preundefs (fs.files.length + 1) [] input
        (initialMacros preundefs predefines) = .ok r → r.2 = m' :=
  expandVisits_follow py fs includeDirs preundefs _ _ _ _

end

/-! ## Definedness and expansion -/

section
variable {P : Type} (py : Python)

/-- A bare occurrence of a name in a line is replaced by the value of the macro. -/
def IsReplaced (macros : Macros) (name : Text) : Prop :=
  ∃ value, macros.lookup name = some value ∧ ∀ before after,
    chunks py (before ++ name ++ after) = chunks py before ++ .ident name :: chunks py after →
      expandMacrosInLine py (before ++ name ++ after) macros =
        expandMacrosInLine py before macros ++ value ++ expandMacrosInLine py after macros

/-- A chain is opened whose first arm is selected, in an active context, under a condition. -/
def OpensWith (st : Expansion) (result : Except (Failure P) Expansion) (condition : Prop) : Prop :=
  ∃ b, result = .ok (st.openChain (st.active && b)) ∧ (b = true ↔ condition)

variable (fs : FileSystem P) (includeDirs : List P) (preundefs : List Text)

/-- What the conditionals say of a name at a line agrees with what an ordinary line there makes
    of it. -/
structure DefinednessAgrees (v : Visit P) (name : Text) : Prop where
  ifdef : ∀ expand line, lineKind py (rstrip line) = .opens (.isDefined name) →
    OpensWith v.st (processLine py fs includeDirs preundefs expand v.input v.st line)
      (IsReplaced py v.st.macros name)
  ifDefined : ∀ expand line expr, lineKind py (rstrip line) = .opens (.expression expr) →
    definedMatch (strip expr) = some name →
    OpensWith v.st (processLine py fs includeDirs preundefs expand v.input v.st line)
      (IsReplaced py v.st.macros name)
  ifndef : ∀ expand line, lineKind py (rstrip line) = .opens (.isUndefined name) →
    OpensWith v.st (processLine py fs includeDirs preundefs expand v.input v.st line)
      (¬ IsReplaced py v.st.macros name)

variable {py}

theorem isReplaced_iff {macros : Macros} {name : Text} :
    IsReplaced py macros name ↔ (macros.lookup name).isSome := by
  constructor
  · rintro ⟨value, hl, -⟩
    rw [hl]
    rfl
  · intro h
    obtain ⟨value, hl⟩ := Option.isSome_iff_exists.1 h
    refine ⟨value, hl, fun before after hocc => ?_⟩
    rw [expandMacrosInLine_eq, expandMacrosInLine_eq, expandMacrosInLine_eq, hocc,
      List.flatMap_append,
      List.flatMap_cons, Chunk.expand, hl, Option.getD_some, List.append_assoc]

/-- The line of a chain is left to the conditional directives. -/
theorem processLine_chain {input : P} {st : Expansion} {line : Text}
    (h : lineKind py (rstrip line) ≠ .plain)
    (expand : P → Macros → Except (Failure P) (Text × Macros)) :
    directiveKind (rstrip line) = lineKind py (rstrip line) ∧
      processLine py fs includeDirs preundefs expand input st line =
        conditionalLine py preundefs input st (rstrip line) := by
  unfold lineKind at h ⊢
  by_cases hmark : lineMarkerMatch py (rstrip line)
  · exact absurd (if_pos hmark) h
  rw [if_neg hmark] at h ⊢
  obtain ⟨hinc, hdef, hundef⟩ := other_of_kind h
  refine ⟨rfl, ?_⟩
  simp only [processLine, hmark, Bool.false_eq_true, if_false, hinc, definitionLine, hdef, hundef]

variable (py) in
/-- The value of a test, under the names that the command line undefines. -/
def Test.value (macros : Macros) : Test → Bool
  | .isDefined name => Preprocessor.isDefined preundefs macros name
  | .isUndefined name => !Preprocessor.isDefined preundefs macros name
  | .expression expr => (conditionValue py preundefs macros expr).getD false

/-- What a conditional directive opens. -/
theorem conditionalLine_opens {line : Text} {test : Test} (h : directiveKind line = .opens test)
    (input : P)
    (st : Expansion) : conditionalLine py preundefs input st line =
      .ok (st.openChain (st.active && test.value py preundefs st.macros)) := by
  unfold directiveKind at h
  unfold conditionalLine
  cases h₁ : ifdefMatch line with
  | some name =>
    rw [h₁] at h
    cases h
    rfl
  | none =>
  cases h₂ : ifndefMatch line with
  | some name =>
    rw [h₁, h₂] at h
    cases h
    rfl
  | none =>
  cases h₃ : ifMatch line with
  | some expr =>
    rw [h₁, h₂, h₃] at h
    cases h
    simp only [Test.value]
    cases conditionValue py preundefs st.macros expr with
    | none => simp
    | some value => rfl
  | none =>
    rw [h₁, h₂, h₃] at h
    simp only at h
    split at h
    · cases h
    · split_ifs at h

/-- A test of a line that opens a chain, asked at a visited line. -/
theorem opensWith_of_kind {input : P} {st : Expansion} {line : Text} {test : Test}
    (h : lineKind py (rstrip line) = .opens test) {condition : Prop}
    (hcond : test.value py preundefs st.macros = true ↔ condition)
    (expand : P → Macros → Except (Failure P) (Text × Macros)) :
    OpensWith st (processLine py fs includeDirs preundefs expand input st line) condition := by
  have hplain : lineKind py (rstrip line) ≠ .plain := by
    rw [h]
    exact LineKind.noConfusion
  obtain ⟨hkind, hline⟩ := processLine_chain fs includeDirs preundefs hplain expand
  refine ⟨_, ?_, hcond⟩
  rw [hline, conditionalLine_opens preundefs (hkind.trans h)]

/-- No name is in the table that the command line undefines. -/
def Undefined (macros : Macros) : Prop := ∀ name ∈ preundefs, macros.lookup name = none

variable {preundefs}

theorem Undefined.isDefined {macros : Macros} (h : Undefined preundefs macros) (name : Text) :
    Preprocessor.isDefined preundefs macros name = true ↔ IsReplaced py macros name := by
  rw [isReplaced_iff, Preprocessor.isDefined, Bool.and_eq_true, Bool.not_eq_true']
  constructor
  · exact And.left
  · intro hsome
    refine ⟨hsome, ?_⟩
    by_contra hmem
    rw [Bool.not_eq_false] at hmem
    have hnone := h name (List.contains_iff_mem.1 hmem)
    rw [hnone] at hsome
    cases hsome

theorem DefinednessAgrees.of_undefined {v : Visit P} (h : Undefined preundefs v.st.macros)
    (name : Text) :
    DefinednessAgrees py fs includeDirs preundefs v name := by
  have hdefined : isDefined preundefs v.st.macros name = true ↔ IsReplaced py v.st.macros name :=
    h.isDefined name
  refine ⟨fun expand line hkind => ?_, fun expand line expr hkind hexpr => ?_,
    fun expand line hkind => ?_⟩
  · exact opensWith_of_kind fs includeDirs preundefs hkind hdefined expand
  · refine opensWith_of_kind fs includeDirs preundefs hkind ?_ expand
    simp only [Test.value, conditionValue, hexpr]
    exact hdefined
  · refine opensWith_of_kind fs includeDirs preundefs hkind ?_ expand
    simp only [Test.value, Bool.not_eq_true', ← hdefined, Bool.not_eq_true]

theorem lookup_erase_of_none {macros : Macros} {name : Text} (other : Text)
    (h : macros.lookup name = none) :
    (macros.erase other).lookup name = none := by
  by_cases hne : name = other
  · rw [hne]
    exact AList.lookup_erase ..
  · exact (AList.lookup_erase_ne hne).trans h

/-- A line that defines no undefined name. -/
theorem Undefined.follow {macros : Macros} (h : Undefined preundefs macros) {v : Visit P}
    (hv : ∀ name body, v.change py = some (.define name body) → name ∉ preundefs) :
    Undefined preundefs (follow py macros v) := by
  intro name hname
  unfold Preprocessor.follow
  split
  · rename_i change hchange
    cases change with
    | define other body =>
      have hne : name ≠ other := by
        rintro rfl
        exact hv name body hchange hname
      exact (AList.lookup_insert_ne hne).trans (h name hname)
    | undef other => exact lookup_erase_of_none other (h name hname)
  · exact h name hname

theorem lookup_initialMacros {macros : Macros} {name : Text}
    (h : name ∈ preundefs ∨ macros.lookup name = none) :
    (initialMacros preundefs macros).lookup name = none := by
  unfold initialMacros
  induction preundefs generalizing macros with
  | nil => exact h.resolve_left List.not_mem_nil
  | cons other names ih =>
    refine ih ?_
    rcases h with h | h
    · rcases List.mem_cons.1 h with rfl | h
      · exact .inr (AList.lookup_erase ..)
      · exact .inl h
    · exact .inr (lookup_erase_of_none other h)

variable [DecidableEq P]

/-- **Definedness agrees with expansion** at every line that a run reaches, if it reaches no active
    `#define` of a name that the command line undefines. -/
theorem definedness_agrees (predefines : Macros) (input : P)
    (h : ∀ v ∈ runVisits py fs includeDirs preundefs predefines input,
      ∀ name body, v.change py = some (.define name body) → name ∉ preundefs) :
    ∀ v ∈ runVisits py fs includeDirs preundefs predefines input,
      ∀ name, DefinednessAgrees py fs includeDirs preundefs v name := by
  obtain ⟨m', hfollow, -⟩ := runVisits_follow py fs includeDirs preundefs predefines input
  generalize runVisits py fs includeDirs preundefs predefines input = vs at h hfollow
  have hinit : Undefined preundefs (initialMacros preundefs predefines) := fun _ hname =>
    lookup_initialMacros (.inl hname)
  generalize initialMacros preundefs predefines = m at hfollow hinit
  induction vs generalizing m with
  | nil => intro v hv; cases hv
  | cons v vs ih =>
    obtain ⟨rfl, hrest⟩ := hfollow
    intro w hw name
    rcases List.mem_cons.1 hw with rfl | hw
    · exact .of_undefined fs includeDirs hinit name
    · exact ih (fun u hu => h u (List.mem_cons_of_mem _ hu)) _ hrest
        (hinit.follow (h v (List.mem_cons_self ..))) w hw name

end

/-- A file that defines a macro and uses it. -/
def defineText : Text := "#define A 1\nA\n".toList

/-- Another name is undefined on the command line. -/
theorem definedness_agrees_defineText :
    (runVisits asciiPython (oneFile defineText) [] [['B']] ∅ ()).length = 2 ∧
      ∀ v ∈ runVisits asciiPython (oneFile defineText) [] [['B']] ∅ (), ∀ name,
        DefinednessAgrees asciiPython (oneFile defineText) [] [['B']] v name := by
  have hchange : ∀ v ∈ runVisits asciiPython (oneFile defineText) [] [['B']] ∅ (),
      v.change asciiPython = none ∨ v.change asciiPython = some (.define ['A'] ['1']) := by
    decide +kernel
  refine ⟨by decide +kernel, definedness_agrees (oneFile defineText) [] ∅ ()
    fun v hv name body hdefine => ?_⟩
  rcases hchange v hv with h | h
  · rw [h] at hdefine
    cases hdefine
  · rw [h] at hdefine
    cases hdefine
    decide

/-- What is undefined on the command line is defined in the file all the same. -/
theorem undefined_name_replaced :
    ¬ ∀ v ∈ runVisits asciiPython (oneFile defineText) [] [['A']] ∅ (), ∀ name,
      DefinednessAgrees asciiPython (oneFile defineText) [] [['A']] v name := by
  intro h
  obtain ⟨v, hv, hlookup, hactive⟩ : ∃ v ∈ runVisits asciiPython (oneFile defineText) [] [['A']] ∅ (),
      v.st.macros.lookup ['A'] = some ['1'] ∧ v.st.active = true := by
    decide +kernel
  have hkind : lineKind asciiPython (rstrip "#ifdef A".toList) = .opens (.isDefined ['A']) := by
    decide +kernel
  have hreplaced : IsReplaced asciiPython v.st.macros ['A'] :=
    isReplaced_iff.2 (by rw [hlookup]; rfl)
  obtain ⟨b, hb, hcond⟩ := (h v hv ['A']).ifdef (fun _ _ => .ok ([], ∅)) "#ifdef A".toList hkind
  -- the test finds the name among those that are undefined
  obtain ⟨b', hb', htest⟩ : OpensWith v.st (processLine asciiPython (oneFile defineText) [] [['A']]
      (fun _ _ => .ok ([], ∅)) v.input v.st "#ifdef A".toList) _ :=
    opensWith_of_kind (oneFile defineText) [] [['A']] hkind Iff.rfl (fun _ _ => .ok ([], ∅))
  have hundefined : Test.value asciiPython [['A']] v.st.macros (.isDefined ['A']) = false := by
    rw [Test.value, isDefined, show ([['A']] : List Text).contains ['A'] = true from rfl,
      Bool.not_true,
      Bool.and_false]
  rw [hb, hactive, Except.ok.injEq, Expansion.openChain, Expansion.openChain, hcond.2 hreplaced] at hb'
  have htaken : b' = true := by simpa using hb'.symm
  rw [htest.1 htaken] at hundefined
  cases hundefined

end PocketDarwin.PatchDtc.Preprocessor
