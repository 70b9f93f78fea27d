/-
  The DTS scanner of `Tools/PatchDtc4Adt/main.py`: `scan_dts` and its readers.

  `DTSState.pos` is modelled by the text from `pos` on (`rest`), so that
  `text[start:state.pos]` is `slice start rest`; `n` is kept, since the label
  expression is anchored with `^` and so only matches where `pos == 0`, that is
  where `rest.length = n`.  The readers run to the end of the text on malformed
  input.  A reader that steps past the end after a backslash (`pos += 2`) is at
  the end: every later test is `pos < n` and every slice is clamped.

  A callbacks object is a state `σ` with the five methods of `ScanCallbacks`,
  each passing the state on; `None` and replacement texts are `Option Text`.
-/
import PocketDarwin.Text

namespace PocketDarwin.PatchDtc

/-! ## Character classes and expressions -/

/-- `c in " \t\r\n"` -/
def isBlank (c : Char) : Bool := c == ' ' || c == '\t' || c == '\r' || c == '\n'

/-- `c in " \t"` -/
def isInlineBlank (c : Char) : Bool := c == ' ' || c == '\t'

/-- `c not in " \t\r\n{"`, the label or path of a reference. -/
def isReferenceChar (c : Char) : Bool := !(isBlank c || c == '{')

/-- `\s`: the characters of `str.isspace`. -/
def isSpace (c : Char) : Bool :=
  ('\t' ≤ c && c ≤ '\r') || ('\x1c' ≤ c && c ≤ ' ') || c == '\u0085' || c == '\u00a0' ||
    c == '\u1680' || ('\u2000' ≤ c && c ≤ '\u200a') || c == '\u2028' || c == '\u2029' ||
    c == '\u202f' || c == '\u205f' || c == '\u3000'

/-- `[a-zA-Z_]` -/
def isIdentStart (c : Char) : Bool := c.isAlpha || c == '_'

/-- `[a-zA-Z0-9_]` -/
def isIdentChar (c : Char) : Bool := c.isAlphanum || c == '_'

/-- `[a-zA-Z0-9_-]`, the tail of a directive name. -/
def isDirectiveChar (c : Char) : Bool := c.isAlphanum || c == '_' || c == '-'

/-- The class of the name loop, `"[" + _PROP_NAME_CHARS + "@]"`.  The constant
    ends in `*-`, so that the class reads `[a-zA-Z0-9,._+?#*-@]` and holds the
    range from `*` to `@`. -/
def isNameChar (c : Char) : Bool :=
  c.isAlphanum || c == ',' || c == '.' || c == '_' || c == '+' || c == '?' || c == '#' ||
    ('*' ≤ c && c ≤ '@')

/-- `_DIRECTIVE_RE.match`: the name and the text after the match. -/
def directiveMatch : Text → Option (Text × Text)
  | '/' :: c :: cs =>
    if c.isAlpha then
      match cs.dropWhile isDirectiveChar with
      | '/' :: r => some (c :: cs.takeWhile isDirectiveChar, r)
      | _ => none
    else none
  | _ => none

/-- `_LABEL_RE.match` at `cs`, in a text of length `n`: the text after the
    match.  Without `re.MULTILINE` the anchor `^` only holds at the start of the
    text. -/
def labelMatch (n : ℕ) (cs : Text) : Option Text :=
  if cs.length = n then
    match cs with
    | [] => none
    | c :: tl =>
      if isIdentStart c then
        match (tl.dropWhile isIdentChar).dropWhile isSpace with
        | ':' :: r => some (r.dropWhile isSpace)
        | _ => none
      else none
  else none

/-! ## Readers -/

/-- `text.find("\n", pos)`, or the end of the text. -/
def toNewline (cs : Text) : Text := cs.dropWhile (· != '\n')

/-- `text.find("*/", pos) + 2`, or the end of the text. -/
def pastBlockEnd : Text → Text
  | [] => []
  | '*' :: '/' :: cs => cs
  | _ :: cs => pastBlockEnd cs

theorem toNewline_suffix (cs : Text) : toNewline cs <:+ cs := List.dropWhile_suffix _

theorem pastBlockEnd_suffix (cs : Text) : pastBlockEnd cs <:+ cs := by
  fun_induction pastBlockEnd cs with
  | case1 => exact List.suffix_rfl
  | case2 cs => exact (List.suffix_cons '/' cs).trans (List.suffix_cons '*' _)
  | case3 c cs _ ih => exact ih.trans (List.suffix_cons c cs)

/-- `_skip_trivia`: past white space and comments. -/
def skipTrivia : Text → Text
  | [] => []
  | '/' :: '/' :: cs => skipTrivia (toNewline cs)
  | '/' :: '*' :: cs => skipTrivia (pastBlockEnd cs)
  | c :: cs => if isBlank c then skipTrivia cs else c :: cs
termination_by cs => cs.length
decreasing_by
  · have := (toNewline_suffix cs).length_le; simp only [List.length_cons]; omega
  · have := (pastBlockEnd_suffix cs).length_le; simp only [List.length_cons]; omega
  · simp

/-- `_read_string`, from behind the opening quote. -/
def readString : Text → Text
  | [] => []
  | '\\' :: _ :: cs => readString cs
  | ['\\'] => []
  | '"' :: cs => cs
  | _ :: cs => readString cs

theorem skipTrivia_suffix (cs : Text) : skipTrivia cs <:+ cs := by
  fun_induction skipTrivia cs with
  | case1 => exact List.suffix_rfl
  | case2 cs ih =>
    exact (ih.trans (toNewline_suffix cs)).trans ((List.suffix_cons _ _).trans (List.suffix_cons _ _))
  | case3 cs ih =>
    exact (ih.trans (pastBlockEnd_suffix cs)).trans
      ((List.suffix_cons _ _).trans (List.suffix_cons _ _))
  | case4 c cs _ _ _ ih => exact ih.trans (List.suffix_cons c cs)
  | case5 => exact List.suffix_rfl

theorem readString_suffix (cs : Text) : readString cs <:+ cs := by
  fun_induction readString cs with
  | case1 => exact List.suffix_rfl
  | case2 c cs ih => exact ih.trans ((List.suffix_cons _ _).trans (List.suffix_cons _ _))
  | case3 => exact List.nil_suffix
  | case4 cs => exact List.suffix_cons _ cs
  | case5 c cs _ _ _ ih => exact ih.trans (List.suffix_cons c cs)

/-- The loop of `_read_balanced`, from behind the opening bracket, at bracket
    depth `depth`. -/
def readBalanced (openCh closeCh : Char) : ℕ → Text → Text
  | 0, cs => cs
  | _ + 1, [] => []
  | d + 1, '/' :: '/' :: cs => readBalanced openCh closeCh (d + 1) (toNewline cs)
  | d + 1, '/' :: '*' :: cs => readBalanced openCh closeCh (d + 1) (pastBlockEnd cs)
  | d + 1, '"' :: cs => readBalanced openCh closeCh (d + 1) (readString cs)
  | d + 1, c :: cs =>
    if c = openCh then readBalanced openCh closeCh (d + 2) cs
    else if c = closeCh then readBalanced openCh closeCh d cs
    else readBalanced openCh closeCh (d + 1) cs
termination_by _ cs => cs.length
decreasing_by
  · have := (toNewline_suffix cs).length_le; simp only [List.length_cons]; omega
  · have := (pastBlockEnd_suffix cs).length_le; simp only [List.length_cons]; omega
  · have := (readString_suffix cs).length_le; simp only [List.length_cons]; omega
  all_goals simp

theorem readBalanced_suffix (o c : Char) (d : ℕ) (cs : Text) : readBalanced o c d cs <:+ cs := by
  fun_induction readBalanced o c d cs with
  | case1 | case2 => exact List.suffix_rfl
  | case3 d cs ih =>
    exact (ih.trans (toNewline_suffix cs)).trans ((List.suffix_cons _ _).trans (List.suffix_cons _ _))
  | case4 d cs ih =>
    exact (ih.trans (pastBlockEnd_suffix cs)).trans
      ((List.suffix_cons _ _).trans (List.suffix_cons _ _))
  | case5 d cs ih => exact (ih.trans (readString_suffix cs)).trans (List.suffix_cons _ _)
  | case6 | case7 | case8 => rename_i ih; exact ih.trans (List.suffix_cons _ _)

/-- `_read_until_semicolon`. -/
def readUntilSemicolon : Text → Text
  | [] => []
  | '/' :: '/' :: cs => readUntilSemicolon (toNewline cs)
  | '/' :: '*' :: cs => readUntilSemicolon (pastBlockEnd cs)
  | '"' :: cs => readUntilSemicolon (readString cs)
  | '<' :: cs => readUntilSemicolon (readBalanced '<' '>' 1 cs)
  | '[' :: cs => readUntilSemicolon (readBalanced '[' ']' 1 cs)
  | '{' :: cs => readUntilSemicolon (readBalanced '{' '}' 1 cs)
  | ';' :: cs => cs
  | _ :: cs => readUntilSemicolon cs
termination_by cs => cs.length
decreasing_by
  · have := (toNewline_suffix cs).length_le; simp only [List.length_cons]; omega
  · have := (pastBlockEnd_suffix cs).length_le; simp only [List.length_cons]; omega
  · have := (readString_suffix cs).length_le; simp only [List.length_cons]; omega
  · have := (readBalanced_suffix '<' '>' 1 cs).length_le; simp only [List.length_cons]; omega
  · have := (readBalanced_suffix '[' ']' 1 cs).length_le; simp only [List.length_cons]; omega
  · have := (readBalanced_suffix '{' '}' 1 cs).length_le; simp only [List.length_cons]; omega
  · simp

theorem readUntilSemicolon_suffix (cs : Text) : readUntilSemicolon cs <:+ cs := by
  fun_induction readUntilSemicolon cs with
  | case1 => exact List.suffix_rfl
  | case2 cs ih =>
    exact (ih.trans (toNewline_suffix cs)).trans ((List.suffix_cons _ _).trans (List.suffix_cons _ _))
  | case3 cs ih =>
    exact (ih.trans (pastBlockEnd_suffix cs)).trans
      ((List.suffix_cons _ _).trans (List.suffix_cons _ _))
  | case4 cs ih => exact (ih.trans (readString_suffix cs)).trans (List.suffix_cons _ _)
  | case5 cs ih | case6 cs ih | case7 cs ih =>
    exact (ih.trans (readBalanced_suffix _ _ 1 cs)).trans (List.suffix_cons _ _)
  | case8 cs => exact List.suffix_cons _ cs
  | case9 c cs _ _ _ _ _ _ _ ih => exact ih.trans (List.suffix_cons c cs)

/-- Behind the slashes of a directive: past its `;`, directly or behind
    arguments. -/
def directiveEnd (r : Text) : Text :=
  match r.dropWhile isInlineBlank with
  | ';' :: r' => r'
  | r' => readUntilSemicolon r'

/-- Behind the opening brace of a fixup subtree: past its closing brace, white
    space and its `;`. -/
def fixupEnd (r : Text) : Text :=
  match (readBalanced '{' '}' 1 r).dropWhile isBlank with
  | ';' :: r' => r'
  | r' => r'

/-- Where the name of the declaration at `start` starts: behind its label, if
    the label expression matches. -/
def nameStart (n : ℕ) (start : Text) : Text :=
  match labelMatch n start with
  | some r => skipTrivia r
  | none => start

theorem suffix_of_dropWhile_cons {p : Char → Bool} {cs r : Text} {c : Char}
    (h : cs.dropWhile p = c :: r) : r <:+ cs :=
  (List.suffix_cons c r).trans (h ▸ List.dropWhile_suffix p)

theorem directiveMatch_suffix {cs name r : Text} (h : directiveMatch cs = some (name, r)) :
    r <:+ cs ∧ r.length < cs.length := by
  unfold directiveMatch at h
  split at h
  · rename_i c tl
    split_ifs at h
    split at h
    · rename_i r' hr
      obtain ⟨-, rfl⟩ : _ ∧ r' = r := by simpa using h
      have hs := suffix_of_dropWhile_cons hr
      refine ⟨hs.trans ((List.suffix_cons _ _).trans (List.suffix_cons _ _)), ?_⟩
      have := hs.length_le
      simp only [List.length_cons]; omega
    · cases h
  · cases h

theorem directiveEnd_suffix (r : Text) : directiveEnd r <:+ r := by
  unfold directiveEnd
  split
  · exact suffix_of_dropWhile_cons ‹_›
  · exact (readUntilSemicolon_suffix _).trans (List.dropWhile_suffix _)

theorem fixupEnd_suffix (r : Text) : fixupEnd r <:+ r := by
  have hb := readBalanced_suffix '{' '}' 1 r
  unfold fixupEnd
  split
  · exact (suffix_of_dropWhile_cons ‹_›).trans hb
  · exact (List.dropWhile_suffix _).trans hb

theorem labelMatch_suffix {n : ℕ} {cs r : Text} (h : labelMatch n cs = some r) : r <:+ cs := by
  unfold labelMatch at h
  split_ifs at h
  cases cs with
  | nil => cases h
  | cons c tl =>
    simp only at h
    split_ifs at h
    split at h
    · rename_i r' hr
      obtain rfl : r'.dropWhile isSpace = r := by simpa using h
      have h1 := (suffix_of_dropWhile_cons hr).trans (List.dropWhile_suffix _)
      exact ((List.dropWhile_suffix _).trans h1).trans (List.suffix_cons c tl)
    · cases h

theorem nameStart_suffix (n : ℕ) (start : Text) : nameStart n start <:+ start := by
  unfold nameStart
  split
  · exact (skipTrivia_suffix _).trans (labelMatch_suffix ‹_›)
  · exact List.suffix_rfl

/-! ## Callbacks and state -/

/-- `FIXUP_NODE_NAMES` -/
def fixupNodeNames : List Text :=
  ["__local_fixups__".toList, "__symbols__".toList, "__fixups__".toList, "__overlay__".toList]

/-- A `ScanCallbacks` object with state `σ`. -/
structure ScanCallbacks (σ : Type) where
  onDirective : (name fullText : Text) → (atRoot : Bool) → σ → Option Text × σ
  onNodeOpen : (name fullText : Text) → σ → Option Text × σ
  onNodeExit : σ → σ
  onProperty : (name fullText : Text) → σ → Option Text × σ
  onFixupSubtree : (name fullText : Text) → σ → Option Text × σ

/-- `DTSState`: `rest` is `text[pos:]`, and `out` the joined output chunks. -/
structure DTSState where
  n : ℕ
  rest : Text
  depth : ℕ
  out : Text
deriving DecidableEq, Repr

/-- `replacement or text`: the empty replacement counts as none. -/
def orText (text : Text) : Option Text → Text
  | some (c :: cs) => c :: cs
  | _ => text

section
variable {σ : Type} (cb : ScanCallbacks σ)

/-- A closing brace, `tl` the text after it.  A `;` behind white space is
    consumed with it. -/
def closeBrace (st : DTSState) (tl : Text) (s : σ) : DTSState × σ :=
  let out := st.out ++ ['}']
  let depth := st.depth - 1
  let s := cb.onNodeExit s
  let triviaEnd := tl.dropWhile isBlank
  match triviaEnd with
  | ';' :: r => ({ st with rest := r, depth, out := out ++ slice tl triviaEnd ++ [';'] }, s)
  | _ => ({ st with rest := tl, depth, out }, s)

/-- A slash at `cs`, `tl` the text after it. -/
def slash (st : DTSState) (cs tl : Text) (s : σ) : DTSState × σ :=
  match directiveMatch cs with
  | some (name, r) =>
    let rest := directiveEnd r
    let full := slice cs rest
    let (replacement, s) := cb.onDirective name full (st.depth == 0) s
    ({ st with rest, out := st.out ++ replacement.getD full }, s)
  | none => ({ st with rest := tl, out := st.out ++ ['/'] }, s)

/-- An ampersand at `cs`, `tl` the text after it. -/
def reference (st : DTSState) (cs tl : Text) (s : σ) : DTSState × σ :=
  let r := (tl.dropWhile isReferenceChar).dropWhile isBlank
  match r with
  | '{' :: rest =>
    let declText := slice cs r
    let (rewritten, s) := cb.onNodeOpen ['&'] declText s
    ({ st with rest, depth := st.depth + 1, out := st.out ++ orText declText rewritten ++ ['{'] }, s)
  | _ => ({ st with rest := r, out := st.out ++ slice cs r }, s)

/-- A fixup subtree that starts at `start`, `r` the text behind its brace. -/
def fixupSubtree (st : DTSState) (start name r : Text) (s : σ) : DTSState × σ :=
  let rest := fixupEnd r
  let (replacement, s) := cb.onFixupSubtree name (slice start rest) s
  ({ st with rest, out := st.out ++ replacement.getD [] }, s)

/-- A labelled or bare declaration at `start`. -/
def declaration (st : DTSState) (start : Text) (s : σ) : DTSState × σ :=
  let nameAt := nameStart st.n start
  let name := nameAt.takeWhile isNameChar
  if name = [] then
    ({ st with rest := start.drop 1, out := st.out ++ start.take 1 }, s)
  else
    let r := skipTrivia (nameAt.dropWhile isNameChar)
    match r with
    | '{' :: rest =>
      if st.depth = 0 ∧ name ∈ fixupNodeNames then
        fixupSubtree cb st start name rest s
      else
        let declText := slice start r
        let (rewritten, s) := cb.onNodeOpen name declText s
        ({ st with rest, depth := st.depth + 1,
                   out := st.out ++ orText declText rewritten ++ ['{'] }, s)
    | '=' :: _ =>
      let rest := readUntilSemicolon r
      let fullDecl := slice start rest
      let (replacement, s) := cb.onProperty name fullDecl s
      ({ st with rest, out := st.out ++ replacement.getD fullDecl }, s)
    | ';' :: rest =>
      let fullDecl := slice start rest
      let (replacement, s) := cb.onProperty name fullDecl s
      ({ st with rest, out := st.out ++ replacement.getD fullDecl }, s)
    | _ => ({ st with rest := r, out := st.out ++ slice start r }, s)

/-- One iteration of the loop of `scan_dts`; at the end of the text the loop has
    stopped. -/
def scanStep (st : DTSState) (s : σ) : DTSState × σ :=
  if st.rest = [] then (st, s)
  else
    let cs := skipTrivia st.rest
    let st' := { st with rest := cs, out := st.out ++ slice st.rest cs }
    match cs with
    | [] => (st', s)
    | '}' :: tl => closeBrace cb st' tl s
    | '/' :: tl => slash cb st' cs tl s
    | '&' :: tl => reference cb st' cs tl s
    | _ => declaration cb st' cs s

/-- The state after `k` iterations. -/
def scanSteps : ℕ → DTSState → σ → DTSState × σ
  | 0, st, s => (st, s)
  | k + 1, st, s => scanSteps k (scanStep cb st s).1 (scanStep cb st s).2

/-- `DTSState(text)` -/
def DTSState.init (text : Text) : DTSState := ⟨text.length, text, 0, []⟩

/-- `scan_dts(text, cb)` with `cb` in the state `s`: the output and the state of
    the callbacks object.  As many iterations as the text has characters are
    enough (`scanSteps_rest`). -/
def scanDts (text : Text) (s : σ) : Text × σ :=
  let r := scanSteps cb text.length (DTSState.init text) s
  (r.1.out, r.2)

end

end PocketDarwin.PatchDtc
