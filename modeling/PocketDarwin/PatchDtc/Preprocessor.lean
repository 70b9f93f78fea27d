/-
  The native preprocessor of `Tools/PatchDtc4Adt/main.py`:
  `_expand_includes_native` and what it calls.

  What depends on the interpreter's Unicode tables is a parameter (`Python`),
  and so is the file system (`FileSystem`), whose files are finitely many.  The
  macro table is shared by all calls of `_expand_includes_native`, so each call
  is given the table and returns it.  The recursion is on `fuel`, one unit for
  each file on the include stack; a call that has none left fails with
  `Failure.outOfFuel`.  `verbose` only writes to the error stream and is left
  out, and so is the interpreter's recursion limit.
-/
import Mathlib.Data.List.AList
import Mathlib.Data.List.DropRight
import PocketDarwin.PatchDtc.Scanner

namespace PocketDarwin.PatchDtc.Preprocessor

/-- The parts of Python that depend on its Unicode tables. -/
structure Python where
  /-- `str.isalpha` -/
  isAlpha : Char → Bool
  /-- what `str.isalnum` adds: `isdecimal`, `isdigit` or `isnumeric` -/
  isNumeric : Char → Bool
  /-- `\d` -/
  isDecimal : Char → Bool
  /-- `repr` of a text -/
  repr : Text → Text

/-- A file system with finitely many files. -/
structure FileSystem (P : Type) where
  /-- `Path(text)` -/
  ofText : Text → P
  /-- `dir / text` -/
  join : P → Text → P
  parent : P → P
  name : P → Text
  str : P → Text
  resolve : P → P
  isFile : P → Bool
  readText : P → Text
  /-- the resolved paths of the files -/
  files : List P
  resolve_mem : ∀ p, isFile p → resolve p ∈ files

/-! ## Lines -/

/-- `re.sub(r"\\\n", "", text)` -/
def joinContinuations : Text → Text
  | [] => []
  | '\\' :: '\n' :: cs => joinContinuations cs
  | c :: cs => c :: joinContinuations cs

/-- `_strip_comments` -/
def stripComments : Text → Text
  | [] => []
  | '/' :: '/' :: cs => stripComments (toNewline cs)
  | '/' :: '*' :: cs => stripComments (pastBlockEnd cs)
  | '"' :: cs => '"' :: (slice cs (readString cs) ++ stripComments (readString cs))
  | c :: cs => c :: stripComments cs
termination_by cs => cs.length
decreasing_by
  · have := (toNewline_suffix cs).length_le; simp only [List.length_cons]; omega
  · have := (pastBlockEnd_suffix cs).length_le; simp only [List.length_cons]; omega
  · have := (readString_suffix cs).length_le; simp only [List.length_cons]; omega
  · simp

/-- The line boundaries of `str.splitlines`. -/
def isLineBreak (c : Char) : Bool :=
  ('\n' ≤ c && c ≤ '\r') || ('\x1c' ≤ c && c ≤ '\x1e') || c == '\u0085' || c == '\u2028' || c == '\u2029'

/-- `text.splitlines()`, with the characters `line` of the current line read. -/
def splitLinesFrom (line : Text) : Text → List Text
  | [] => if line.isEmpty then [] else [line]
  | '\r' :: '\n' :: cs => line :: splitLinesFrom [] cs
  | c :: cs =>
    if isLineBreak c then line :: splitLinesFrom [] cs else splitLinesFrom (line ++ [c]) cs

def splitLines (text : Text) : List Text := splitLinesFrom [] text

/-- `text.rstrip()` -/
def rstrip (text : Text) : Text := text.rdropWhile isSpace

/-- `text.strip()` -/
def strip (text : Text) : Text := rstrip (text.dropWhile isSpace)

/-- The lines that the line loop reads. -/
def fileLines (text : Text) : List Text := splitLines (stripComments (joinContinuations text))

/-! ## The directive expressions -/

/-- `^\s*#\s*word`: the text after the match. -/
def directiveRest (word line : Text) : Option Text :=
  match line.dropWhile isSpace with
  | '#' :: cs =>
    let cs := cs.dropWhile isSpace
    if word.isPrefixOf cs then some (cs.drop word.length) else none
  | _ => none

/-- `\s+([A-Za-z_][A-Za-z0-9_]*)`: the name, and the text after the match. -/
def identMatch : Text → Option (Text × Text)
  | [] => none
  | s :: cs =>
    if isSpace s then
      match cs.dropWhile isSpace with
      | [] => none
      | c :: tl =>
        if isIdentStart c then some (c :: tl.takeWhile isIdentChar, tl.dropWhile isIdentChar) else none
    else none

/-- `^\s*#\s*word\s+([A-Za-z_][A-Za-z0-9_]*)\s*$` -/
def nameMatch (word line : Text) : Option Text := do
  let rest ← directiveRest word line
  let m ← identMatch rest
  if m.2.all isSpace then some m.1 else none

/-- `^\s*#\s*word\s+(.*?)\s*$` -/
def exprMatch (word line : Text) : Option Text :=
  match directiveRest word line with
  | some (s :: cs) => if isSpace s then some (strip cs) else none
  | _ => none

/-- `^\s*#\s*word\s*$` -/
def bareMatch (word line : Text) : Bool :=
  match directiveRest word line with
  | some rest => rest.all isSpace
  | none => false

/-- `_DEFINE_RE`: the name and the value. -/
def defineMatch (line : Text) : Option (Text × Text) := do
  let rest ← directiveRest "define".toList line
  let m ← identMatch rest
  some (m.1, strip m.2)

/-- `_UNDEF_RE` -/
def undefMatch (line : Text) : Option Text := nameMatch "undef".toList line

/-- `_INCLUDE_RE`: whether the target is in angle brackets, and the target. -/
def includeMatch (line : Text) : Option (Bool × Text) := do
  let rest ← directiveRest "include".toList line
  match rest.dropWhile isSpace with
  | [] => none
  | q :: cs =>
    let target := cs.takeWhile fun c => c != '>' && c != '"'
    match cs.dropWhile fun c => c != '>' && c != '"' with
    | [] => none
    | _ :: tl =>
      if (q == '<' || q == '"') && !target.isEmpty && tl.all isSpace then some (q == '<', target)
      else none

/-- `_IFDEF_RE` -/
def ifdefMatch (line : Text) : Option Text := nameMatch "ifdef".toList line

/-- `_IFNDEF_RE` -/
def ifndefMatch (line : Text) : Option Text := nameMatch "ifndef".toList line

/-- `_IF_RE` -/
def ifMatch (line : Text) : Option Text := exprMatch "if".toList line

/-- `_ELIF_RE` -/
def elifMatch (line : Text) : Option Text := exprMatch "elif".toList line

/-- `_ELSE_RE` -/
def elseMatch (line : Text) : Bool := bareMatch "else".toList line

/-- `_ENDIF_RE` -/
def endifMatch (line : Text) : Bool := bareMatch "endif".toList line

/-- `_LINE_MARKER_RE` -/
def lineMarkerMatch (py : Python) (line : Text) : Bool :=
  match line.dropWhile isSpace with
  | '#' :: s :: cs =>
    let digits := cs.dropWhile isSpace
    let rest := digits.dropWhile py.isDecimal
    isSpace s && digits.head?.any py.isDecimal && rest.head?.any isSpace &&
      match rest.dropWhile isSpace with
      | '"' :: file => file.contains '"'
      | _ => false
  | _ => false

/-- `re.fullmatch(r"defined\s*\(\s*([A-Za-z_][A-Za-z0-9_]*)\s*\)", expr)` -/
def definedMatch (expr : Text) : Option Text :=
  let word := "defined".toList
  if word.isPrefixOf expr then
    match (expr.drop word.length).dropWhile isSpace with
    | '(' :: cs =>
      match cs.dropWhile isSpace with
      | [] => none
      | c :: tl =>
        if isIdentStart c && (tl.dropWhile isIdentChar).dropWhile isSpace == [')'] then
          some (c :: tl.takeWhile isIdentChar)
        else none
    | _ => none
  else none

/-! ## Macros and conditions -/

/-- The macro table. -/
abbrev Macros := AList (fun _ : Text => Text)

section
variable (py : Python)

/-- `c.isalnum() or c == "_"` -/
def isMacroChar (c : Char) : Bool := py.isAlpha c || py.isNumeric c || c == '_'

/-- The loop of `_expand_macros_in_line`. -/
def substitute (macros : Macros) : Text → Text
  | [] => []
  | '"' :: cs => '"' :: (slice cs (readString cs) ++ substitute macros (readString cs))
  | c :: cs =>
    if py.isAlpha c || c == '_' then
      let ident := c :: cs.takeWhile (isMacroChar py)
      (macros.lookup ident).getD ident ++ substitute macros (cs.dropWhile (isMacroChar py))
    else c :: substitute macros cs
termination_by cs => cs.length
decreasing_by
  · have := (readString_suffix cs).length_le; simp only [List.length_cons]; omega
  · have := dropWhile_length_le (isMacroChar py) cs; simp only [List.length_cons]; omega
  · simp

/-- `_expand_macros_in_line` -/
def expandMacrosInLine (line : Text) (macros : Macros) : Text :=
  if macros.entries.isEmpty then line else substitute py macros line

/-- The `while` loop of `_eval_literal_condition`. -/
def stripParens (expr : Text) : Text :=
  if _ : expr.head? = some '(' ∧ expr.getLast? = some ')' then stripParens (strip expr.tail.dropLast)
  else expr
termination_by expr.length
decreasing_by
  next h =>
  have hne : expr ≠ [] := by
    rintro rfl
    exact absurd h.1 (by decide)
  have h₁ := (List.rdropWhile_prefix isSpace (expr.tail.dropLast.dropWhile isSpace)).length_le
  have h₂ := dropWhile_length_le isSpace expr.tail.dropLast
  have h₃ := List.length_pos_iff.2 hne
  simp only [strip, rstrip, List.length_dropLast, List.length_tail] at h₁ h₂ ⊢
  omega

/-- `_eval_literal_condition` -/
def evalLiteralCondition (expr : Text) : Option Bool :=
  let expr := stripParens (strip expr)
  if expr == ['1'] then some true else if expr == ['0'] then some false else none

/-- `name in macros and name not in preundefs` -/
def isDefined (preundefs : List Text) (macros : Macros) (name : Text) : Bool :=
  (macros.lookup name).isSome && !preundefs.contains name

/-- The value of the expression of an `#if` or `#elif`, if it has one. -/
def conditionValue (preundefs : List Text) (macros : Macros) (expr : Text) : Option Bool :=
  match definedMatch (strip expr) with
  | some name => some (isDefined preundefs macros name)
  | none => evalLiteralCondition (expandMacrosInLine py expr macros)

end

/-! ## Errors -/

/-- `IncludeError`, with what its message is made of. -/
inductive IncludeError (P : Type) where
  | circular (input : P) (stack : List P)
  | unresolved (input : P) (target : Text) (isSystem : Bool) (includeDirs : List P)
  | elifWithoutIf (input : P)
  | elseWithoutIf (input : P)
  | endifWithoutIf (input : P)
  | unterminated (input : P)
deriving DecidableEq

/-- The message of an error. -/
def IncludeError.message {P : Type} (py : Python) (fs : FileSystem P) : IncludeError P → Text
  | circular input stack =>
    "circular #include: ".toList ++ fs.str input ++ " (stack: ".toList ++
      [' ', '-', '>', ' '].intercalate (stack.map fs.str) ++ [')']
  | unresolved input target isSystem includeDirs =>
    let kind := if isSystem then "system".toList else "local".toList
    fs.str input ++ ": cannot find ".toList ++ kind ++ " #include ".toList ++ py.repr target ++
      " (searched: ".toList ++ fs.str (fs.parent input) ++ [',', ' '] ++
      [',', ' '].intercalate (includeDirs.map fs.str) ++ [')']
  | elifWithoutIf input => fs.str input ++ ": #elif without matching #if".toList
  | elseWithoutIf input => fs.str input ++ ": #else without matching #if".toList
  | endifWithoutIf input => fs.str input ++ ": #endif without matching #if".toList
  | unterminated input => fs.str input ++ ": unterminated #if/#ifdef/#ifndef (missing #endif)".toList

/-- How an expansion fails. -/
inductive Failure (P : Type) where
  | includeError (e : IncludeError P)
  | outOfFuel
deriving DecidableEq

@[simp] theorem ok_bind {ε α β : Type} (a : α) (f : α → Except ε β) : (Except.ok a >>= f) = f a := rfl

@[simp] theorem error_bind {ε α β : Type} (e : ε) (f : α → Except ε β) :
    (Except.error e >>= f) = .error e := rfl

/-! ## The line loop -/

/-- An entry of `cond_stack`: whether the enclosing context is active, whether
    this arm is, and whether an arm of the chain has been taken. -/
structure Cond where
  parent : Bool
  branch : Bool
  taken : Bool
deriving DecidableEq

/-- The state of the line loop; the top of `cond_stack` is at the head. -/
structure Expansion where
  macros : Macros
  conds : List Cond := []
  output : List Text := []

/-- `_currently_active` -/
def Expansion.active (st : Expansion) : Bool := st.conds.all fun c => c.parent && c.branch

section
variable {P : Type} (py : Python) (fs : FileSystem P) (includeDirs : List P) (preundefs : List Text)

/-- The paths that `_resolve_include` tries, in their order. -/
def includeCandidates (target : Text) (isSystem : Bool) (currentFile : P) : List P :=
  (if isSystem then [] else [fs.resolve (fs.join (fs.parent currentFile) target)]) ++
    includeDirs.map (fun d => fs.resolve (fs.join d target)) ++ [fs.resolve (fs.ofText target)]

/-- `_resolve_include`, with the error as `_expand_includes_native` raises it. -/
def resolveInclude (target : Text) (isSystem : Bool) (currentFile : P) : Except (Failure P) P :=
  match (includeCandidates fs includeDirs target isSystem currentFile).find? fs.isFile with
  | some path => .ok path
  | none => .error (.includeError (.unresolved currentFile target isSystem includeDirs))

/-- A new chain, whose first arm is taken if it is active. -/
def Expansion.openChain (st : Expansion) (thisBranch : Bool) : Expansion :=
  { st with conds := ⟨st.active, thisBranch, thisBranch⟩ :: st.conds }

/-- The next arm of the chain at the top, with the condition `cond`. -/
def Cond.next (c : Cond) (cond : Bool) : Cond :=
  let thisBranch := c.parent && !c.taken && cond
  ⟨c.parent, thisBranch, c.taken || thisBranch⟩

/-- The conditional directives, and the lines that are no directives. -/
def conditionalLine (input : P) (st : Expansion) (line : Text) : Except (Failure P) Expansion :=
  match ifdefMatch line with
  | some name => .ok (st.openChain (st.active && isDefined preundefs st.macros name))
  | none =>
  match ifndefMatch line with
  | some name => .ok (st.openChain (st.active && !isDefined preundefs st.macros name))
  | none =>
  match ifMatch line with
  | some expr =>
    match conditionValue py preundefs st.macros expr with
    | none => .ok (st.openChain false)
    | some value => .ok (st.openChain (st.active && value))
  | none =>
  match elifMatch line with
  | some expr =>
    match st.conds with
    | [] => .error (.includeError (.elifWithoutIf input))
    | c :: conds =>
      let value := (conditionValue py preundefs st.macros expr).getD false
      .ok { st with conds := c.next value :: conds }
  | none =>
  if elseMatch line then
    match st.conds with
    | [] => .error (.includeError (.elseWithoutIf input))
    | c :: conds => .ok { st with conds := c.next true :: conds }
  else if endifMatch line then
    match st.conds with
    | [] => .error (.includeError (.endifWithoutIf input))
    | _ :: conds => .ok { st with conds := conds }
  else if st.active then
    .ok { st with output := st.output ++ [expandMacrosInLine py line st.macros] }
  else .ok st

/-- `#define` and `#undef`, where they are active, and the other lines. -/
def definitionLine (input : P) (st : Expansion) (line : Text) : Except (Failure P) Expansion :=
  match defineMatch line, st.active with
  | some (name, value), true =>
    .ok { st with macros := st.macros.insert name (expandMacrosInLine py (strip value) st.macros) }
  | _, _ =>
  match undefMatch line, st.active with
  | some name, true => .ok { st with macros := st.macros.erase name }
  | _, _ => conditionalLine py preundefs input st line

/-- The lines around an included file. -/
def beginMark (input : P) (target : Text) : Text :=
  "/* === begin #include ".toList ++ target ++ " (from ".toList ++ fs.name input ++ ") === */".toList

def endMark (target : Text) : Text := "/* === end #include ".toList ++ target ++ " === */".toList

/-- The body of the line loop; `expand` is the recursive call. -/
def processLine (expand : P → Macros → Except (Failure P) (Text × Macros)) (input : P)
    (st : Expansion) (rawLine : Text) : Except (Failure P) Expansion :=
  let line := rstrip rawLine
  if lineMarkerMatch py line then .ok st
  else
    match includeMatch line, st.active with
    | some (isSystem, target), true => do
      let path ← resolveInclude fs includeDirs target isSystem input
      let expanded ← expand path st.macros
      .ok { st with
        macros := expanded.2
        output := st.output ++ [beginMark fs input target, expanded.1, endMark target] }
    | _, _ => definitionLine py preundefs input st line

/-- The end of the line loop. -/
def finishFile (input : P) (st : Expansion) : Except (Failure P) (Text × Macros) :=
  if st.conds.isEmpty then .ok (['\n'].intercalate st.output ++ ['\n'], st.macros)
  else .error (.includeError (.unterminated input))

variable [DecidableEq P]

/-- `_expand_includes_native`, with an include stack and a macro table. -/
def expandIncludes : ℕ → List P → P → Macros → Except (Failure P) (Text × Macros)
  | 0, _, _, _ => .error .outOfFuel
  | fuel + 1, stack, input, macros =>
    let rp := fs.resolve input
    if stack.contains rp then .error (.includeError (.circular input stack))
    else do
      let step := processLine py fs includeDirs preundefs (expandIncludes fuel (stack ++ [rp])) input
      let st ← (fileLines (fs.readText input)).foldlM step { macros := macros }
      finishFile input st

/-- `_expand_includes_native` at the top level. -/
def expandIncludesNative (predefines : Macros) (input : P) : Except (Failure P) Text :=
  let macros := preundefs.foldl (fun m name => m.erase name) predefines
  (expandIncludes py fs includeDirs preundefs (fs.files.length + 1) [] input macros).map (·.1)

end

end PocketDarwin.PatchDtc.Preprocessor
