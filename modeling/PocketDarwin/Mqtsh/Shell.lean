/-
  The lines of the Mesquite Shell (`mqtsh.f90`): commands, assignments, scripts, and the two forms
  in brackets.

  A part of a text can be taken that is not in it: it is what stands behind the text, which is not
  defined.  Nor is what a variable of a procedure holds at first.

  * `parseObjcBracket_eq`: what stands between the quotation marks of a form in brackets is passed
    to `system` without its blanks, also if it should be assigned to a variable.
  * `mainLoop_forms`: no variable is set by the forms in brackets that are read.
  * `form_works_iff`: the forms that work are commands without a blank.
-/
import PocketDarwin.Mqtsh.Variables

namespace PocketDarwin.Mqtsh

open FixedText

/-! ## The code -/

/-- What is not defined: the characters behind a text, and what is first in the variables of
    `handle_import` and `parse_objc_assignment`. -/
structure Undefined where
  behind : Text → ℕ → Char
  filename : ℕ → Char
  vvalue : ℕ → Char

structure Shell where
  vars : Variables
  running : Bool
  /-- The calls of `system` so far. -/
  commands : List Text
  printed : List Text

/-- The shell at the beginning. -/
def Shell.start (names values : ℕ → Text) : Shell := ⟨.start names values, true, [], []⟩

def Shell.system (s : Shell) (command : Text) : Shell :=
  { s with commands := s.commands ++ [command] }

def Shell.write (s : Shell) (text : Text) : Shell := { s with printed := s.printed ++ [text] }

def Shell.setVar (s : Shell) (name value : Text) : Option Shell :=
  (Mqtsh.setVar s.vars name value).map fun vars => { s with vars }

/-- `line(i:j)` -/
def substr (u : Undefined) (line : Text) (i j : ℕ) : Text :=
  (List.range' (i - 1) (j + 1 - i)).map fun k => line.getD k (u.behind line (k - line.length))

/-- The loops of `handle_import` and `parse_objc_assignment`: characters are copied up to a
    quotation mark, to a place and the next ones, as long as these places are `ok`. -/
def copy (ok : ℕ → Bool) : Text → ℕ → Buffer Char → Option (ℕ × Buffer Char)
  | [], place, b => some (place, b)
  | c :: rest, place, b =>
    if ok place ∧ c ≠ '"' then (b.set (place - 1) c).bind fun b => copy ok rest (place + 1) b
    else some (place, b)

/-- All characters of a variable. -/
def contents (b : Buffer Char) : Text := (List.range b.size).map b.elem

def handleImport (runScript : Shell → Text → Option Shell) (u : Undefined) (s : Shell) (line : Text) :
    Option Shell :=
  let idx := index ['"'] line
  if idx = 0 then some s
  else
    (copy (fun _ => true) ((trim line).drop idx) 1 ⟨1024, u.filename⟩).bind fun filename =>
      runScript s (trim (contents filename.2))

def parseObjcAssignment (u : Undefined) (s : Shell) (line : Text) : Option Shell :=
  let eqPos := index ['='] line
  if eqPos = 0 then some s
  else
    let vname := fit 256 (trim (adjustl ((line.take (eqPos - 1)).drop 1)))
    (copy (fun pos2 => pos2 ≤ MAX_CMD_LEN) ((trim line).drop (eqPos + 2)) 1 ⟨256, u.vvalue⟩).bind
      fun copied =>
        (copied.2.set (copied.1 - 1) ' ').bind fun vvalue =>
          s.setVar (adjustl vname) (trim (fit 256 (trim (contents vvalue))))

/-- The loop of `parse_objc_bracket`: what is left of the line, behind `cmd`. -/
def collect (cmd : Text) : Text → Text
  | [] => cmd
  | c :: rest => if c = '"' then cmd else collect (fit MAX_CMD_LEN (trim cmd ++ [c])) rest

def parseObjcBracket (u : Undefined) (s : Shell) (line : Text) : Option Shell :=
  let pos1 := index ['@', '"'] line
  if pos1 > 0 then
    some (s.system (trim (collect (fit MAX_CMD_LEN []) ((trim line).drop (pos1 + 1)))))
  else if index ['=', ' ', '@', '"'] line > 0 then parseObjcAssignment u s line
  else some s

def processInput (runScript : Shell → Text → Option Shell) (u : Undefined) (s : Shell) (line : Text) :
    Option Shell :=
  if lenTrim line = 0 then some s
  else if Same (substr u line 1 1) ['!'] then some s
  else if Same (substr u line 1 7) "@import".toList then handleImport runScript u s line
  else if Same (substr u line 1 1) ['['] then parseObjcBracket u s line
  else if Same (trim line) "exit".toList then some { s with running := false }
  else if Same (substr u line 1 3) "cd ".toList then
    some (s.system ("cd \"".toList ++ trim (line.drop 3) ++ ['"']))
  else if Same (substr u line 1 5) "echo ".toList then some (s.write (' ' :: trim (line.drop 5)))
  else
    let eqPos := index ['='] line
    if eqPos > 0 then s.setVar (adjustl (line.take (eqPos - 1))) (adjustl (line.drop eqPos))
    else some (s.system (trim line))

/-- `run_script`, of scripts that import each other to this depth at most. -/
def runScript (files : Text → Option (List Text)) (u : Undefined) : ℕ → Shell → Text → Option Shell
  | 0, _, _ => none
  | depth + 1, s, filename =>
    match files (trim filename) with
    | none => some (s.write (" mqtsh: cannot open ".toList ++ trim filename))
    | some lines =>
      lines.foldlM
        (fun s line => processInput (runScript files u depth) u s (trim (fit MAX_CMD_LEN line))) s

/-- The loop of the program, for the lines that are read. -/
def mainLoop (files : Text → Option (List Text)) (u : Undefined) (depth : ℕ) (s : Shell) :
    List Text → Option Shell
  | [] => some s
  | line :: lines =>
    if s.running then
      (processInput (runScript files u depth) u s (trim (fit MAX_CMD_LEN line))).bind fun s =>
        mainLoop files u depth s lines
    else some s

/-! ## Forms in brackets -/

section
variable {u : Undefined} {s : Shell} {run : Shell → Text → Option Shell} {pre v r cmd l t : Text}
  {c d : Char} {n : ℕ}

/-- The first `@"` of a line. -/
theorem index_quote (h : '"' ∉ pre) : index ['@', '"'] (pre ++ '@' :: '"' :: r) = pre.length + 1 := by
  induction pre with
  | nil => rfl
  | cons c pre ih =>
    rw [List.mem_cons, not_or] at h
    have hprefix : ['@', '"'].isPrefixOf (c :: (pre ++ '@' :: '"' :: r)) = false := by
      cases pre with
      | nil => simp [List.isPrefixOf]
      | cons d pre =>
        rw [List.mem_cons, not_or] at h
        have hd : ('"' == d) = false := beq_false_of_ne h.2.1
        simp [List.isPrefixOf, hd]
    rw [List.cons_append, index, hprefix, if_neg Bool.false_ne_true, ih h.2,
      if_neg (Nat.succ_ne_zero _)]
    rfl

/-- One more character in a variable whose characters are no blanks. -/
theorem trim_fit_snoc (h : ' ' ∉ l) (hlen : l.length ≤ n) :
    trim (fit n (l ++ [c])) = (l ++ [c].filter (· ≠ ' ')).take n := by
  by_cases hc : c = ' '
  · subst hc
    have hl : trim l = l := trim_eq_self fun hblank => h (List.mem_of_getLast? hblank)
    have hfilter : l ++ [' '].filter (· ≠ ' ') = l := List.append_nil l
    rw [hfilter, List.take_of_length_le hlen]
    rcases Nat.lt_or_eq_of_le hlen with hlt | rfl
    · have hblank : trim (l ++ [' ']) = trim l := trim_append_blanks (k := 1)
      rw [trim_fit (by rw [List.length_append]; exact hlt), hblank, hl]
    · rw [fit, List.take_left, trim_append_blanks, hl]
  · have hmem : ' ' ∉ l ++ [c] := by
      rw [List.mem_append, List.mem_singleton, not_or]
      exact ⟨h, Ne.symm hc⟩
    rw [trim_fit_of_no_blanks hmem, List.filter_cons_of_pos (by simpa using hc), List.filter_nil]

/-- **The loop of `parse_objc_bracket`** leaves the blanks out: each is at the end once. -/
theorem trim_collect (hl : ' ' ∉ l) (hcmd : trim cmd = l.take MAX_CMD_LEN) (hv : '"' ∉ v) :
    trim (collect cmd (v ++ '"' :: r)) = (l ++ v.filter (· ≠ ' ')).take MAX_CMD_LEN := by
  induction v generalizing cmd l with
  | nil => rw [List.nil_append, collect, if_pos rfl, hcmd, List.filter_nil, List.append_nil]
  | cons c v ih =>
    rw [List.mem_cons, not_or] at hv
    have hblank : ' ' ∉ l ++ [c].filter (· ≠ ' ') := by
      rw [List.mem_append, List.mem_filter]
      rintro (hmem | ⟨-, hne⟩)
      · exact hl hmem
      · simp at hne
    rw [List.cons_append, collect, if_neg (Ne.symm hv.1), ih hblank ?_ hv.2]
    · rw [List.append_assoc, ← List.filter_append, List.singleton_append]
    · rw [hcmd, trim_fit_snoc (fun hmem => hl (List.mem_of_mem_take hmem)) (List.length_take_le _ _)]
      rw [List.take_append, List.take_append, List.take_take, Nat.min_self, List.length_take]
      congr 2
      omega

/-- The text of a bracket form, up to the quotation mark. -/
theorem parseObjcBracket_eq (hpre : '"' ∉ pre) (hv : '"' ∉ v) :
    parseObjcBracket u s (pre ++ '@' :: '"' :: (v ++ ['"', ']'])) =
      some (s.system ((v.filter (· ≠ ' ')).take MAX_CMD_LEN)) := by
  have htrim : trim (pre ++ '@' :: '"' :: (v ++ ['"', ']'])) =
      pre ++ '@' :: '"' :: (v ++ ['"', ']']) := by
    have hsnoc : pre ++ '@' :: '"' :: (v ++ ['"', ']']) =
        pre ++ '@' :: '"' :: (v ++ ['"']) ++ [']'] := by
      simp
    rw [hsnoc, trim_eq_self (by rw [List.getLast?_concat]; decide)]
  have hdrop : (pre ++ '@' :: '"' :: (v ++ ['"', ']'])).drop (pre.length + 1 + 1) =
      v ++ ['"', ']'] := by
    rw [Nat.add_assoc, List.drop_length_add_append]
    rfl
  have hempty : trim (fit MAX_CMD_LEN []) = ([] : Text).take MAX_CMD_LEN := by
    rw [trim_fit (Nat.zero_le _), trim_nil, List.take_nil]
  rw [parseObjcBracket, index_quote hpre]
  show (if pre.length + 1 > 0 then _ else _) = _
  rw [if_pos (Nat.succ_pos _), htrim, hdrop, trim_collect List.not_mem_nil hempty hv, List.nil_append]

/-- A text that begins with a character that another one does not begin with. -/
theorem not_same_cons (hcd : c ≠ d) (hd : (d :: t).getLast? ≠ some ' ') :
    ¬ Same (c :: r) (d :: t) := by
  intro h
  rw [same_iff, trim_eq_self hd] at h
  have hprefix : d :: t <+: c :: r := h ▸ List.rdropWhile_prefix _ _
  exact hcd (List.cons_prefix_cons.1 hprefix).1.symm

/-- A line that begins with a bracket. -/
theorem processInput_bracket (line : Text) : processInput run u s ('[' :: line) =
    parseObjcBracket u s ('[' :: line) := by
  have hlen : lenTrim ('[' :: line) ≠ 0 := by
    rw [lenTrim, Ne, List.length_eq_zero_iff, trim, List.rdropWhile_eq_nil_iff]
    intro h
    exact absurd (h '[' List.mem_cons_self) (by decide)
  have hfirst : substr u ('[' :: line) 1 1 = ['['] := rfl
  have hcomment : ¬ Same ['['] ['!'] := by decide
  have himport : ¬ Same (substr u ('[' :: line) 1 7) "@import".toList :=
    not_same_cons (c := '[') (d := '@') (by decide) (by decide)
  have hbracket : Same ['['] ['['] := rfl
  rw [processInput, if_neg hlen, hfirst, if_neg hcomment, if_neg himport, if_pos hbracket]

end

/-- The two forms. -/
inductive Form where
  | command (c : Text)
  | assignment (x v : Text)

namespace Form

def text : Form → Text
  | command c => "[@\"".toList ++ c ++ "\"]".toList
  | assignment x v => "[".toList ++ x ++ " = @\"".toList ++ v ++ "\"]".toList

/-- A command without a quotation mark and without a blank at the end; a name of letters, digits and
    underscores, and a value without a quotation mark. -/
def Valid : Form → Prop
  | command c => '"' ∉ c ∧ c.getLast? ≠ some ' '
  | assignment x v => (∀ d ∈ x, d.isAlphanum ∨ d = '_') ∧ '"' ∉ v

/-- A command is passed to `system` as it is; after an assignment the variable has the value, and
    nothing is passed to `system`. -/
def Works (run : Shell → Text → Option Shell) (u : Undefined) (s : Shell) (f : Form) : Prop :=
  ∃ s', processInput run u s f.text = some s' ∧
    match f with
    | command c => s'.commands = s.commands ++ [c]
    | assignment x v => s'.commands = s.commands ∧
        ∃ value, getVar s'.vars x = some value ∧ Same value v

/-- A command without a blank, that is not too long. -/
def Compact : Form → Prop
  | command c => ' ' ∉ c ∧ c.length ≤ MAX_CMD_LEN
  | assignment _ _ => False

/-- What stands between the quotation marks. -/
def quoted : Form → Text
  | command c => c
  | assignment _ v => v

/-- What is passed to `system`. -/
def passed (f : Form) : Text := (f.quoted.filter (· ≠ ' ')).take MAX_CMD_LEN

variable {run : Shell → Text → Option Shell} {u : Undefined} {s : Shell} {f : Form}

/-- **A form**, of both kinds. -/
theorem processInput_text (hf : f.Valid) :
    processInput run u s f.text = some (s.system f.passed) := by
  cases f with
  | command c =>
    have htext : text (command c) = ['['] ++ '@' :: '"' :: (c ++ ['"', ']']) := by simp [text]
    rw [htext, List.singleton_append, processInput_bracket, ← List.singleton_append]
    exact parseObjcBracket_eq (by decide) hf.1
  | assignment x v =>
    have htext : text (assignment x v) =
        ('[' :: (x ++ [' ', '=', ' '])) ++ '@' :: '"' :: (v ++ ['"', ']']) := by
      simp [text]
    have hquote : '"' ∉ '[' :: (x ++ [' ', '=', ' ']) := by
      rw [List.mem_cons, List.mem_append]
      rintro (h | h | h)
      · exact absurd h (by decide)
      · exact absurd (hf.1 _ h) (by decide)
      · exact absurd h (by decide)
    rw [htext, List.cons_append, processInput_bracket, ← List.cons_append]
    exact parseObjcBracket_eq hquote hf.2

/-- What is read of a form is the form, if it is not longer than a line. -/
theorem trim_fit_text (hlen : f.text.length ≤ MAX_CMD_LEN) :
    trim (fit MAX_CMD_LEN f.text) = f.text := by
  have hbracket : f.text.getLast? = some ']' := by
    cases f <;> exact List.getLast?_append.trans rfl
  rw [trim_fit hlen, trim_eq_self (by rw [hbracket]; decide)]

/-- **Forms that are read** one after the other: each is run as a command, and no variable is set. -/
theorem mainLoop_forms {files : Text → Option (List Text)} {depth : ℕ} {forms : List Form}
    (hforms : ∀ f ∈ forms, f.Valid ∧ f.text.length ≤ MAX_CMD_LEN) (hrunning : s.running = true) :
    mainLoop files u depth s (forms.map text) =
      some { s with commands := s.commands ++ forms.map passed } := by
  induction forms generalizing s with
  | nil => rw [List.map_nil, List.map_nil, List.append_nil]; rfl
  | cons f forms ih =>
    obtain ⟨⟨hvalid, hlen⟩, hforms⟩ := List.forall_mem_cons.1 hforms
    have hnext : (s.system f.passed).running = true := hrunning
    rw [List.map_cons, mainLoop, if_pos hrunning, trim_fit_text hlen, processInput_text hvalid,
      Option.bind_some, ih hforms hnext, List.map_cons, Shell.system, List.append_assoc]
    rfl

/-- **The forms in brackets** that work are the commands without a blank: of any other command the
    blanks are lost, and an assignment is run as a command. -/
theorem form_works_iff (run : Shell → Text → Option Shell) (u : Undefined) (s : Shell) (f : Form)
    (hf : f.Valid) : f.Works run u s ↔ f.Compact := by
  rw [Works, processInput_text hf]
  cases f with
  | command c =>
    constructor
    · rintro ⟨s', hs', hcommands⟩
      obtain rfl := Option.some.inj hs'
      have hc : (c.filter (· ≠ ' ')).take MAX_CMD_LEN = c := by
        simpa [Shell.system, passed, quoted] using hcommands
      rw [Compact, ← hc]
      refine ⟨fun hmem => ?_, List.length_take_le _ _⟩
      have := (List.mem_filter.1 (List.mem_of_mem_take hmem)).2
      simp at this
    · rintro ⟨hblank, hlen⟩
      refine ⟨_, rfl, ?_⟩
      have hfilter : c.filter (· ≠ ' ') = c := by
        rw [List.filter_eq_self]
        intro d hd
        simpa using ne_of_mem_of_not_mem hd hblank
      show s.commands ++ [(c.filter (· ≠ ' ')).take MAX_CMD_LEN] = _
      rw [hfilter, List.take_of_length_le hlen]
  | assignment x v =>
    refine iff_of_false ?_ id
    rintro ⟨s', hs', hcommands, -⟩
    obtain rfl := Option.some.inj hs'
    -- there is one more command
    have hlen := congrArg List.length hcommands
    simp [Shell.system] at hlen

theorem form_works_ls : (command "ls".toList).Works (fun s _ => some s)
    ⟨fun _ _ => ' ', fun _ => ' ', fun _ => ' '⟩ (.start (fun _ => []) fun _ => []) :=
  (form_works_iff _ _ _ (command "ls".toList) ⟨by decide, by decide⟩).2 ⟨by decide, by decide⟩

/-- `[@"ls -l"]` runs `ls-l`, and `[x = @"ls"]` runs `ls`. -/
theorem blank_lost :
    ¬ (command "ls -l".toList).Works (fun s _ => some s)
      ⟨fun _ _ => ' ', fun _ => ' ', fun _ => ' '⟩ (.start (fun _ => []) fun _ => []) ∧
    ¬ (assignment "x".toList "ls".toList).Works (fun s _ => some s)
      ⟨fun _ _ => ' ', fun _ => ' ', fun _ => ' '⟩ (.start (fun _ => []) fun _ => []) := by
  constructor
  · rintro ⟨s', hs', hcommands⟩
    rw [processInput_text (f := command "ls -l".toList) ⟨by decide, by decide⟩] at hs'
    obtain rfl := Option.some.inj hs'
    revert hcommands
    decide
  · rintro ⟨s', hs', hcommands, -⟩
    rw [processInput_text (f := assignment "x".toList "ls".toList) ⟨by simp, by decide⟩] at hs'
    obtain rfl := Option.some.inj hs'
    cases hcommands

end Form

end PocketDarwin.Mqtsh
