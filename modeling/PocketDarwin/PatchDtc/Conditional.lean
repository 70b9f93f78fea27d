/-
  Conditional compilation: the line loop of `_expand_includes_native` against a
  recursive evaluator.

  A `Program` is a well nested sequence of lines: each chain has its opening
  line, any number of `#elif` arms, at most one `#else` arm at the end, and its
  `#endif`.  `Program.select` evaluates it by recursion over the nesting, and
  knows no stack.  `program_run` shows that the flat loop does the same, with the
  invariant that an entry of the stack holds the activity of the context it was
  pushed in.
-/
import PocketDarwin.PatchDtc.Preprocessor

namespace PocketDarwin.PatchDtc.Preprocessor

/-! ## Conditional directives -/

/-- What an arm of a chain is taken for. -/
inductive Test where
  | isDefined (name : Text)
  | isUndefined (name : Text)
  | expression (expr : Text)
deriving DecidableEq

/-- The lines of a file, by the part they play in a chain. -/
inductive LineKind where
  | opens (test : Test)
  | elif (test : Test)
  | otherwise
  | endif
  | plain
deriving DecidableEq

section
variable (py : Python)

/-- The kind of a line that is no line marker. -/
def directiveKind (line : Text) : LineKind :=
  match ifdefMatch line with
  | some name => .opens (.isDefined name)
  | none =>
  match ifndefMatch line with
  | some name => .opens (.isUndefined name)
  | none =>
  match ifMatch line with
  | some expr => .opens (.expression expr)
  | none =>
  match elifMatch line with
  | some expr => .elif (.expression expr)
  | none => if elseMatch line then .otherwise else if endifMatch line then .endif else .plain

/-- The kind of a line. -/
def lineKind (line : Text) : LineKind :=
  if lineMarkerMatch py line then .plain else directiveKind line

/-- **A condition**: `defined(N)` and the literals `0` and `1` have a value, and
    everything else counts as false. -/
def Test.holds (macros : Macros) : Test → Bool
  | isDefined name => (macros.lookup name).isSome
  | isUndefined name => !(macros.lookup name).isSome
  | expression expr =>
    match definedMatch (strip expr) with
    | some name => (macros.lookup name).isSome
    | none => evalLiteralCondition (expandMacrosInLine py expr macros) == some true

/-- A line outside of the chains or in an arm that is selected: the lines it
    emits, and the macro table behind it. -/
def plainLine (macros : Macros) (rawLine : Text) : List Text × Macros :=
  let line := rstrip rawLine
  if lineMarkerMatch py line then ([], macros)
  else
    match defineMatch line, undefMatch line with
    | some (name, value), _ =>
      ([], macros.insert name (expandMacrosInLine py (strip value) macros))
    | none, some name => ([], macros.erase name)
    | none, none => ([expandMacrosInLine py line macros], macros)

end

/-! ## Programs -/

mutual

/-- A well nested sequence of lines without `#include`. -/
inductive Program (py : Python) where
  | done
  | line (line : Text) (plain : lineKind py (rstrip line) = .plain)
      (noInclude : includeMatch (rstrip line) = none) (rest : Program py)
  | chain (line : Text) (test : Test) (opens : lineKind py (rstrip line) = .opens test)
      (body : Program py) (arms : Arms py) (rest : Program py)

/-- The rest of a chain, from behind the first arm. -/
inductive Arms (py : Python) where
  | endif (line : Text) (ends : lineKind py (rstrip line) = .endif)
  | elif (line : Text) (test : Test) (opens : lineKind py (rstrip line) = .elif test)
      (body : Program py) (arms : Arms py)
  | otherwise (line : Text) (opens : lineKind py (rstrip line) = .otherwise) (body : Program py)
      (last : Text) (ends : lineKind py (rstrip last) = .endif)

end

mutual

def Program.lines {py : Python} : Program py → List Text
  | .done => []
  | .line line _ _ rest => line :: rest.lines
  | .chain line _ _ body arms rest => line :: (body.lines ++ (arms.lines ++ rest.lines))

def Arms.lines {py : Python} : Arms py → List Text
  | .endif line _ => [line]
  | .elif line _ _ body arms => line :: (body.lines ++ arms.lines)
  | .otherwise line _ body last _ => line :: (body.lines ++ [last])

end

mutual

/-- **The reference evaluator**: the lines that a program emits with a macro
    table, and the table behind it. -/
def Program.select {py : Python} (macros : Macros) : Program py → List Text × Macros
  | .done => ([], macros)
  | .line line _ _ rest =>
    let first := plainLine py macros line
    let others := rest.select first.2
    (first.1 ++ others.1, others.2)
  | .chain _ test _ body arms rest =>
    let taken := if test.holds py macros then body.select macros else arms.select macros
    let others := rest.select taken.2
    (taken.1 ++ others.1, others.2)

/-- The first arm whose condition holds, if there is one. -/
def Arms.select {py : Python} (macros : Macros) : Arms py → List Text × Macros
  | .endif _ _ => ([], macros)
  | .elif _ test _ body arms => if test.holds py macros then body.select macros else arms.select macros
  | .otherwise _ _ body _ _ => body.select macros

end

/-! ## One line of the loop -/

/-- The text behind `^\s*#\s*`. -/
def behindHash (line : Text) : Text :=
  match line.dropWhile isSpace with
  | '#' :: cs => cs.dropWhile isSpace
  | _ => []

theorem behindHash_of_directiveRest {word line rest : Text} (h : directiveRest word line = some rest) :
    behindHash line = word ++ rest := by
  unfold directiveRest at h
  split at h
  · rename_i cs heq
    have hbehind : behindHash line = cs.dropWhile isSpace := by
      simp [behindHash, heq]
    dsimp only at h
    split_ifs at h with hw
    obtain ⟨r, hr⟩ := List.isPrefixOf_iff_prefix.1 hw
    obtain rfl := Option.some.inj h
    rw [hbehind, ← hr, List.drop_left]
  · cases h

theorem directiveRest_of_nameMatch {word line name : Text} (h : nameMatch word line = some name) :
    ∃ rest, directiveRest word line = some rest := by
  cases hr : directiveRest word line with
  | none => simp [nameMatch, hr] at h
  | some rest => exact ⟨rest, rfl⟩

theorem directiveRest_of_exprMatch {word line expr : Text} (h : exprMatch word line = some expr) :
    ∃ rest, directiveRest word line = some rest := by
  cases hr : directiveRest word line with
  | none => simp [exprMatch, hr] at h
  | some rest => exact ⟨rest, rfl⟩

theorem directiveRest_of_bareMatch {word line : Text} (h : bareMatch word line) :
    ∃ rest, directiveRest word line = some rest := by
  cases hr : directiveRest word line with
  | none => simp [bareMatch, hr] at h
  | some rest => exact ⟨rest, rfl⟩

/-- The words of the conditional directives. -/
def chainWords : List Text :=
  ["ifdef".toList, "ifndef".toList, "if".toList, "elif".toList, "else".toList, "endif".toList]

/-- The other words. -/
def otherWords : List Text := ["include".toList, "define".toList, "undef".toList]

theorem words_differ : ∀ w ∈ chainWords, ∀ v ∈ otherWords,
    2 ≤ w.length ∧ 2 ≤ v.length ∧ w.take 2 ≠ v.take 2 := by
  decide

/-- A conditional directive is no other directive. -/
theorem directiveRest_other {line w v rest : Text} (hw : w ∈ chainWords) (hv : v ∈ otherWords)
    (h : directiveRest w line = some rest) : directiveRest v line = none := by
  obtain ⟨h₁, h₂, h₃⟩ := words_differ w hw v hv
  cases hr : directiveRest v line with
  | none => rfl
  | some rest' =>
    have he := (behindHash_of_directiveRest h).symm.trans (behindHash_of_directiveRest hr)
    have := congrArg (List.take 2) he
    rw [List.take_append_of_le_length h₁, List.take_append_of_le_length h₂] at this
    exact absurd this h₃

theorem chainWord_of_kind {line : Text} (h : directiveKind line ≠ .plain) :
    ∃ w ∈ chainWords, ∃ rest, directiveRest w line = some rest := by
  cases h₁ : ifdefMatch line with
  | some name => exact ⟨_, by simp [chainWords], directiveRest_of_nameMatch h₁⟩
  | none =>
  cases h₂ : ifndefMatch line with
  | some name => exact ⟨_, by simp [chainWords], directiveRest_of_nameMatch h₂⟩
  | none =>
  cases h₃ : ifMatch line with
  | some expr => exact ⟨_, by simp [chainWords], directiveRest_of_exprMatch h₃⟩
  | none =>
  cases h₄ : elifMatch line with
  | some expr => exact ⟨_, by simp [chainWords], directiveRest_of_exprMatch h₄⟩
  | none =>
  by_cases h₅ : elseMatch line
  · exact ⟨_, by simp [chainWords], directiveRest_of_bareMatch h₅⟩
  by_cases h₆ : endifMatch line
  · exact ⟨_, by simp [chainWords], directiveRest_of_bareMatch h₆⟩
  · simp [directiveKind, h₁, h₂, h₃, h₄, h₅, h₆] at h

/-- A conditional directive is neither an `#include` nor a definition. -/
theorem other_of_kind {line : Text} (h : directiveKind line ≠ .plain) :
    includeMatch line = none ∧ defineMatch line = none ∧ undefMatch line = none := by
  obtain ⟨w, hw, rest, hr⟩ := chainWord_of_kind h
  refine ⟨?_, ?_, ?_⟩
  · rw [includeMatch, directiveRest_other hw (List.mem_cons_self) hr]
    rfl
  · rw [defineMatch, directiveRest_other hw (.tail _ List.mem_cons_self) hr]
    rfl
  · rw [undefMatch, nameMatch, directiveRest_other hw (.tail _ (.tail _ List.mem_cons_self)) hr]
    rfl

section
variable {P : Type} (py : Python) (fs : FileSystem P) (includeDirs : List P)
  (expand : P → Macros → Except (Failure P) (Text × Macros)) (input : P)

/-- A line by its kind; `next` is the state behind a plain line. -/
def stepKind (st next : Expansion) : LineKind → Except (Failure P) Expansion
  | .opens test => .ok (st.openChain (st.active && test.holds py st.macros))
  | .elif test =>
    match st.conds with
    | [] => .error (.includeError (.elifWithoutIf input))
    | c :: conds => .ok { st with conds := c.next (test.holds py st.macros) :: conds }
  | .otherwise =>
    match st.conds with
    | [] => .error (.includeError (.elseWithoutIf input))
    | c :: conds => .ok { st with conds := c.next true :: conds }
  | .endif =>
    match st.conds with
    | [] => .error (.includeError (.endifWithoutIf input))
    | _ :: conds => .ok { st with conds := conds }
  | .plain => .ok next

theorem stepKind_next (st : Expansion) {next next' : Expansion} {kind : LineKind} (h : kind ≠ .plain) :
    stepKind py input st next kind = stepKind py input st next' kind := by
  cases kind with
  | plain => exact absurd rfl h
  | _ => rfl

/-- The state behind lines that are selected. -/
def Expansion.emit (st : Expansion) (r : List Text × Macros) : Expansion :=
  { st with macros := r.2, output := st.output ++ r.1 }

/-- The state behind a plain line. -/
def Expansion.behindLine (st : Expansion) (rawLine : Text) : Expansion :=
  if st.active then st.emit (plainLine py st.macros rawLine) else st

/-- The value of a condition, where it has one. -/
theorem conditionValue_eq (macros : Macros) (expr : Text) :
    (conditionValue py [] macros expr).getD false = (Test.expression expr).holds py macros := by
  simp only [conditionValue, Test.holds]
  cases definedMatch (strip expr) with
  | some name => simp [isDefined]
  | none =>
    rcases evalLiteralCondition (expandMacrosInLine py expr macros) with _ | (_ | _) <;> rfl

theorem conditionalLine_eq (st : Expansion) (line : Text) :
    conditionalLine py [] input st line =
      stepKind py input st
        (if st.active then { st with output := st.output ++ [expandMacrosInLine py line st.macros] }
          else st) (directiveKind line) := by
  unfold conditionalLine directiveKind
  cases h₁ : ifdefMatch line with
  | some name => simp [stepKind, Test.holds, isDefined]
  | none =>
  cases h₂ : ifndefMatch line with
  | some name => simp [stepKind, Test.holds, isDefined]
  | none =>
  cases h₃ : ifMatch line with
  | some expr =>
    have hv := conditionValue_eq py st.macros expr
    cases hc : conditionValue py [] st.macros expr with
    | none => simp [stepKind, ← hv, hc]
    | some value => simp [stepKind, ← hv, hc]
  | none =>
  cases h₄ : elifMatch line with
  | some expr =>
    cases hc : st.conds with
    | nil => simp [stepKind, hc]
    | cons c conds => simp [stepKind, hc, conditionValue_eq]
  | none =>
  by_cases h₅ : elseMatch line
  · cases hc : st.conds with
    | nil => simp [h₅, stepKind, hc]
    | cons c conds => simp [h₅, stepKind, hc]
  by_cases h₆ : endifMatch line
  · cases hc : st.conds with
    | nil => simp [h₅, h₆, stepKind, hc]
    | cons c conds => simp [h₅, h₆, stepKind, hc]
  · simp only [h₅, h₆, stepKind]
    cases st.active <;> rfl

/-- **One line of the loop**, in a file without `#include`. -/
theorem processLine_eq (st : Expansion) {rawLine : Text} (h : includeMatch (rstrip rawLine) = none) :
    processLine py fs includeDirs [] expand input st rawLine =
      stepKind py input st (st.behindLine py rawLine) (lineKind py (rstrip rawLine)) := by
  simp only [processLine, h, lineKind]
  by_cases hm : lineMarkerMatch py (rstrip rawLine)
  · simp [hm, stepKind, Expansion.behindLine, Expansion.emit, plainLine]
  simp only [hm, Bool.false_eq_true, if_false]
  by_cases hk : directiveKind (rstrip rawLine) = .plain
  · rw [hk]
    simp only [definitionLine, conditionalLine_eq, hk, stepKind, Expansion.behindLine,
      Expansion.emit, plainLine, hm]
    cases defineMatch (rstrip rawLine) <;> cases undefMatch (rstrip rawLine) <;>
      cases st.active <;> simp
  · obtain ⟨-, hd, hu⟩ := other_of_kind hk
    simp only [definitionLine, hd, hu, conditionalLine_eq]
    exact stepKind_next py input st hk

/-! ## The loop on a program -/

theorem includeMatch_of_kind {line : Text} (h : lineKind py line ≠ .plain) : includeMatch line = none := by
  unfold lineKind at h
  split_ifs at h with hm
  · exact absurd rfl h
  · exact (other_of_kind h).1

/-- The step of the loop at a conditional directive. -/
theorem processLine_kind (st : Expansion) {rawLine : Text} {kind : LineKind}
    (h : lineKind py (rstrip rawLine) = kind) (hk : kind ≠ .plain) :
    processLine py fs includeDirs [] expand input st rawLine = stepKind py input st st kind := by
  rw [processLine_eq py fs includeDirs expand input st (includeMatch_of_kind py (h ▸ hk)), h]
  exact stepKind_next py input st hk

/-- The state inside of a chain. -/
def Expansion.push (st : Expansion) (c : Cond) : Expansion := { st with conds := c :: st.conds }

@[simp] theorem push_macros (st : Expansion) (c : Cond) : (st.push c).macros = st.macros := rfl

theorem emit_nil (st : Expansion) : st.emit ([], st.macros) = st := by simp [Expansion.emit]

@[simp] theorem emit_macros (st : Expansion) (r : List Text × Macros) : (st.emit r).macros = r.2 := rfl

@[simp] theorem emit_active (st : Expansion) (r : List Text × Macros) : (st.emit r).active = st.active := rfl

theorem emit_emit (st : Expansion) (r r' : List Text × Macros) :
    (st.emit r).emit r' = st.emit (r.1 ++ r'.1, r'.2) := by simp [Expansion.emit]

/-- The arm of a chain runs as its body does, if the entry of the chain says that
    the arm is active. -/
theorem active_push {st : Expansion} {c : Cond} (h : c.parent = st.active) (r : List Text × Macros) :
    (if (st.push c).active then (st.push c).emit r else st.push c) =
      (if st.active && c.branch then st.emit r else st).push c := by
  have ha : (st.push c).active = (st.active && c.branch && st.active) := by
    rw [← h]
    exact congrArg (c.parent && c.branch && ·) h.symm
  rw [ha]
  cases st.active <;> cases c.branch <;> rfl

mutual

/-- **A program in the loop**: an active context gets the lines and the macro
    table of the evaluator, and an inactive one gets nothing. -/
theorem program_run (p : Program py) (st : Expansion) :
    p.lines.foldlM (processLine py fs includeDirs [] expand input) st =
      .ok (if st.active then st.emit (p.select st.macros) else st) := by
  cases p with
  | done =>
    simp only [Program.lines, Program.select, List.foldlM_nil, emit_nil, ite_self]
    rfl
  | line line plain noInclude rest =>
    rw [Program.lines, List.foldlM_cons, processLine_eq py fs includeDirs expand input st noInclude, plain]
    simp only [stepKind, ok_bind]
    rw [program_run rest, Expansion.behindLine]
    cases ha : st.active with
    | false => simp [ha]
    | true =>
      have hemit : ∀ r, (st.emit r).active := fun _ => ha
      simp only [hemit, if_true, emit_emit, emit_macros, Program.select]
  | chain line test opens body arms rest =>
    have hopen := processLine_kind py fs includeDirs expand input st opens (by simp)
    rw [Program.lines, List.foldlM_cons, hopen]
    simp only [stepKind, ok_bind, List.foldlM_append]
    have hbody := program_run body (st.openChain (st.active && test.holds py st.macros))
    rw [show ∀ b, st.openChain b = st.push ⟨st.active, b, b⟩ from fun _ => rfl] at hbody ⊢
    rw [active_push rfl] at hbody
    rw [hbody, ok_bind]
    cases ha : st.active with
    | false =>
      have harms := arms_run arms st ⟨false, false, false⟩ ha.symm
      have hrest := program_run rest st
      simp only [ha, Bool.false_and, Bool.false_eq_true, if_false] at harms hrest ⊢
      rw [harms, ok_bind, hrest]
    | true =>
      cases ht : test.holds py st.macros with
      | true =>
        have harms := arms_run arms (st.emit (body.select st.macros)) ⟨true, true, true⟩ ha.symm
        have hrest := program_run rest (st.emit (body.select st.macros))
        simp [ha, emit_emit] at harms hrest
        simp [Program.select, ht, harms, hrest]
      | false =>
        have harms := arms_run arms st ⟨true, false, false⟩ ha.symm
        have hrest := program_run rest (st.emit (arms.select st.macros))
        simp [ha, emit_emit] at harms hrest
        simp [Program.select, ht, harms, hrest]

/-- The arms of a chain: they are looked at if the context is active and no arm
    has been taken, and the `#endif` pops the entry of the chain. -/
theorem arms_run (a : Arms py) (st : Expansion) (c : Cond) (hc : c.parent = st.active) :
    a.lines.foldlM (processLine py fs includeDirs [] expand input) (st.push c) =
      .ok (if st.active && !c.taken then st.emit (a.select st.macros) else st) := by
  cases a with
  | endif line ends =>
    have hend := processLine_kind py fs includeDirs expand input (st.push c) ends (by simp)
    rw [Arms.lines, List.foldlM_cons, hend, Arms.select, emit_nil, ite_self]
    rfl
  | elif line test opens body arms =>
    have hopen := processLine_kind py fs includeDirs expand input (st.push c) opens (by simp)
    rw [Arms.lines, List.foldlM_cons, hopen,
      show stepKind py input (st.push c) (st.push c) (.elif test) =
        .ok (st.push (c.next (test.holds py st.macros))) from rfl, ok_bind, List.foldlM_append]
    have hbody := program_run body (st.push (c.next (test.holds py st.macros)))
    rw [active_push (c := c.next (test.holds py st.macros)) hc] at hbody
    rw [hbody, ok_bind]
    cases ha : st.active with
    | false =>
      have harms := arms_run arms st (c.next (test.holds py st.macros)) hc
      simpa [ha] using harms
    | true =>
      rw [ha] at hc
      cases ht : test.holds py st.macros with
      | false =>
        have harms := arms_run arms st (c.next false) (hc.trans ha.symm)
        simpa [ha, Cond.next, Arms.select, ht] using harms
      | true =>
        cases htaken : c.taken with
        | true =>
          have harms := arms_run arms st (c.next true) (hc.trans ha.symm)
          simpa [ha, Cond.next, Arms.select, ht, htaken, hc] using harms
        | false =>
          have harms := arms_run arms (st.emit (body.select st.macros)) (c.next true) (hc.trans ha.symm)
          simpa [ha, Cond.next, Arms.select, ht, htaken, hc] using harms
  | otherwise line opens body last ends =>
    have hopen := processLine_kind py fs includeDirs expand input (st.push c) opens (by simp)
    have hend := fun st => processLine_kind py fs includeDirs expand input st ends (by simp)
    have hbody := program_run body (st.push (c.next true))
    rw [active_push (c := c.next true) hc] at hbody
    rw [Arms.lines, List.foldlM_cons, hopen,
      show stepKind py input (st.push c) (st.push c) .otherwise = .ok (st.push (c.next true)) from rfl,
      ok_bind, List.foldlM_append, hbody, ok_bind, List.foldlM_cons, hend]
    cases ha : st.active <;> cases ht : c.taken <;>
      simp [Cond.next, Arms.select, hc, ha, ht, stepKind] <;> rfl

end

/-! ## Balanced files -/

/-- Every `#elif`, `#else` and `#endif` has an open chain, and no chain is left
    open at the end; `depth` chains are open. -/
def balanced : ℕ → List Text → Bool
  | depth, [] => depth == 0
  | depth, line :: lines =>
    match lineKind py (rstrip line) with
    | .opens _ => balanced (depth + 1) lines
    | .elif _ | .otherwise => depth != 0 && balanced depth lines
    | .endif => depth != 0 && balanced (depth - 1) lines
    | .plain => balanced depth lines

/-- An expansion returns a text, or it fails with an `IncludeError`. -/
def Returns {α : Type} (result : Except (Failure P) α) : Bool → Prop
  | true => ∃ a, result = .ok a
  | false => ∃ e, result = .error (.includeError e)

/-- How a file without `#include` ends. -/
theorem lines_end (lines : List Text) (h : ∀ line ∈ lines, includeMatch (rstrip line) = none)
    (st : Expansion) :
    Returns (lines.foldlM (processLine py fs includeDirs [] expand input) st >>= finishFile input)
      (balanced py st.conds.length lines) := by
  induction lines generalizing st with
  | nil =>
    simp only [balanced, List.foldlM_nil, pure_bind, finishFile]
    rcases hc : st.conds with _ | ⟨c, conds⟩
    · exact ⟨_, rfl⟩
    · exact ⟨_, rfl⟩
  | cons line lines ih =>
    rw [List.forall_mem_cons] at h
    rw [List.foldlM_cons, processLine_eq py fs includeDirs expand input st h.1]
    simp only [balanced]
    cases hk : lineKind py (rstrip line) with
    | opens test => exact ih h.2 (st.openChain _)
    | elif test =>
      rcases hc : st.conds with _ | ⟨c, conds⟩
      · simp only [stepKind, hc]
        exact ⟨_, rfl⟩
      · simpa [stepKind, hc] using ih h.2 { st with conds := c.next (test.holds py st.macros) :: conds }
    | otherwise =>
      rcases hc : st.conds with _ | ⟨c, conds⟩
      · simp only [stepKind, hc]
        exact ⟨_, rfl⟩
      · simpa [stepKind, hc] using ih h.2 { st with conds := c.next true :: conds }
    | endif =>
      rcases hc : st.conds with _ | ⟨c, conds⟩
      · simp only [stepKind, hc]
        exact ⟨_, rfl⟩
      · simpa [stepKind, hc] using ih h.2 { st with conds := conds }
    | plain =>
      have hconds : (st.behindLine py line).conds = st.conds := by
        unfold Expansion.behindLine
        split_ifs <;> rfl
      rw [← hconds]
      exact ih h.2 (st.behindLine py line)

variable [DecidableEq P]

/-- The file at the top of the include stack. -/
theorem expandIncludesNative_eq (predefines : Macros) :
    expandIncludesNative py fs includeDirs [] predefines input =
      ((fileLines (fs.readText input)).foldlM (processLine py fs includeDirs []
        (expandIncludes py fs includeDirs [] fs.files.length [fs.resolve input]) input)
        { macros := predefines } >>= finishFile input).map (·.1) := rfl

/-- **Conditional compilation.**  A well nested file is expanded to the lines of
    the reference evaluator, and a file fails with an `IncludeError` if and only
    if it is not balanced. -/
theorem conditional_compilation (predefines : Macros) :
    (∀ p : Program py, fileLines (fs.readText input) = p.lines →
      expandIncludesNative py fs includeDirs [] predefines input =
        .ok (['\n'].intercalate (p.select predefines).1 ++ ['\n'])) ∧
    ((∀ line ∈ fileLines (fs.readText input), includeMatch (rstrip line) = none) →
      ((∃ e, expandIncludesNative py fs includeDirs [] predefines input = .error (.includeError e)) ↔
        ¬ balanced py 0 (fileLines (fs.readText input)))) := by
  rw [expandIncludesNative_eq]
  refine ⟨fun p hp => ?_, fun h => ?_⟩
  · rw [hp, program_run]
    simp [Expansion.active, Expansion.emit, finishFile, Except.map]
  · have hend := lines_end py fs includeDirs
      (expandIncludes py fs includeDirs [] fs.files.length [fs.resolve input])
        input _ h { macros := predefines }
    rw [List.length_nil] at hend
    cases hb : balanced py 0 (fileLines (fs.readText input)) with
    | true =>
      rw [hb] at hend
      obtain ⟨r, hr⟩ := hend
      simp [hr, Except.map]
    | false =>
      rw [hb] at hend
      obtain ⟨e, he⟩ := hend
      simp [he, Except.map]

end

/-! ## A file -/

/-- The tables of Python for ASCII texts. -/
def asciiPython : Python where
  isAlpha := Char.isAlpha
  isNumeric := Char.isDigit
  isDecimal := Char.isDigit
  repr text := '\x27' :: (text ++ ['\x27'])

/-- A file system with one file. -/
def oneFile (text : Text) : FileSystem Unit where
  ofText _ := ()
  join _ _ := ()
  parent _ := ()
  name _ := ['f']
  str _ := ['f']
  resolve _ := ()
  isFile _ := true
  readText _ := text
  files := [()]
  resolve_mem := by simp

/-- The program of `#ifdef B`, `x`, `#elif defined(A)`, `A`, `#endif`. -/
def elifProgram : Program asciiPython :=
  .chain "#ifdef B".toList (.isDefined ['B']) (by decide)
    (.line ['x'] (by decide) (by decide) .done)
    (.elif "#elif defined(A)".toList (.expression "defined(A)".toList) (by decide)
      (.line ['A'] (by decide) (by decide) .done)
      (.endif "#endif".toList (by decide)))
    .done

def elifText : Text := "#ifdef B\nx\n#elif defined(A)\nA\n#endif\n".toList

/-- The second arm is taken, and `A` stands for `5`. -/
theorem conditional_compilation_elifProgram :
    fileLines elifText = elifProgram.lines ∧
      expandIncludesNative asciiPython (oneFile elifText) [] [] (AList.singleton ['A'] ['5']) () =
        .ok ['5', '\n'] := by
  have hlines : fileLines elifText = elifProgram.lines := by decide +kernel
  have hselect : (elifProgram.select (AList.singleton ['A'] ['5'])).1 = [['5']] := by decide +kernel
  refine ⟨hlines, ?_⟩
  rw [(conditional_compilation asciiPython (oneFile elifText) [] () (AList.singleton ['A'] ['5'])).1
    elifProgram hlines, hselect]
  rfl

end PocketDarwin.PatchDtc.Preprocessor
