/-
  The configuration of a device bundle (`loadConfiguration`, `getConfiguration`).

  A file is read line by line; a line with an equals sign that is no comment sets a key to a
  value, both without the blanks around them.

  * `Declares`: what a line sets, by the texts on both sides of its first equals sign.
  * `getConfiguration_eq`: a key has the value of the last line that sets it, or the one it had.
-/
import PocketDarwin.DeviceBundle.Reloading
import Mathlib.Data.List.DropRight

namespace PocketDarwin.DeviceBundle

/-! ## The code -/

/-- The lines that `std::getline` returns, for what has been read of the next one. -/
def readLines (line : Text) : Text → List Text
  | [] => if line = [] then [] else [line]
  | c :: s => if c = '\n' then line :: readLines [] s else readLines (line ++ [c]) s

/-- `s.find_first_not_of(" \t")` -/
def findFirstNotOf (s : Text) : Option ℕ := s.findIdx? fun c => !([' ', '\t'].contains c)

/-- `s.find_last_not_of(" \t")` -/
def findLastNotOf (s : Text) : Option ℕ :=
  (s.reverse.findIdx? fun c => !([' ', '\t'].contains c)).map fun i => s.length - 1 - i

/-- `s.erase(0, n)`, where `none` is `npos`. -/
def eraseFront (s : Text) : Option ℕ → Text
  | none => []
  | some n => s.drop n

/-- `s.erase(n + 1)`; behind `npos` is 0. -/
def eraseBehind (s : Text) : Option ℕ → Text
  | none => s.take 0
  | some n => s.take (n + 1)

/-- The two calls of `erase` for a key or a value. -/
def trimmed (s : Text) : Text :=
  let s := eraseFront s (findFirstNotOf s)
  eraseBehind s (findLastNotOf s)

/-- The body of the loop of `loadConfiguration`. -/
def loadLine (configuration : Properties) (line : Text) : Properties :=
  if line.isEmpty ∨ line.head? = some '#' ∨ line.head? = some ';' then configuration
  else
    match line.findIdx? (· == '=') with
    | none => configuration
    | some delimPos =>
      configuration.addProperty (trimmed (line.take delimPos)) (trimmed (line.drop (delimPos + 1)))

/-- `loadConfiguration`, where `none` is a file that cannot be opened. -/
def loadConfiguration (file : Option Text) (configuration : Properties) : Bool × Properties :=
  match file with
  | none => (false, configuration)
  | some text => (true, (readLines [] text).foldl loadLine configuration)

def getConfiguration (configuration : Properties) (key : Text) : Text :=
  (configuration.get? key).getD []

/-! ## What a line sets -/

/-- A space or a tab. -/
def IsSpace (c : Char) : Prop := c = ' ' ∨ c = '\t'

/-- `s` is `t` without the spaces and tabs around it. -/
def Strips (t s : Text) : Prop :=
  ∃ a b, t = a ++ s ++ b ∧ (∀ c ∈ a, IsSpace c) ∧ (∀ c ∈ b, IsSpace c) ∧
    (∀ c ∈ s.head?, ¬ IsSpace c) ∧ ∀ c ∈ s.getLast?, ¬ IsSpace c

/-- The line sets the key to the value. -/
def Declares (line key value : Text) : Prop :=
  line ≠ [] ∧ line.head? ≠ some '#' ∧ line.head? ≠ some ';' ∧
  ∃ before behind, line = before ++ '=' :: behind ∧ '=' ∉ before ∧ Strips before key ∧
    Strips behind value

/-! ## Stripping -/

def isSpace (c : Char) : Bool := [' ', '\t'].contains c

@[simp] theorem isSpace_iff {c : Char} : isSpace c = true ↔ IsSpace c := by
  simp [isSpace, IsSpace]

/-- What is behind the first character that is no space. -/
theorem eraseFront_eq (s : Text) : eraseFront s (findFirstNotOf s) = s.dropWhile isSpace := by
  induction s with
  | nil => rfl
  | cons c s ih =>
    rw [findFirstNotOf, List.findIdx?_cons, List.dropWhile_cons]
    cases hc : isSpace c with
    | true =>
      have hmem : [' ', '\t'].contains c = true := hc
      rw [hmem, Bool.not_true, if_neg Bool.false_ne_true, if_pos rfl, ← ih, findFirstNotOf]
      cases s.findIdx? fun c => !([' ', '\t'].contains c) <;> rfl
    | false =>
      have hmem : [' ', '\t'].contains c = false := hc
      rw [hmem, Bool.not_false, if_pos rfl, if_neg Bool.false_ne_true]
      rfl

theorem eraseBehind_eq (s : Text) : eraseBehind s (findLastNotOf s) = s.rdropWhile isSpace := by
  have hfront := eraseFront_eq s.reverse
  rw [findFirstNotOf] at hfront
  rw [findLastNotOf, List.rdropWhile, ← hfront]
  cases hfind : s.reverse.findIdx? fun c => !([' ', '\t'].contains c) with
  | none => rfl
  | some i =>
    have hlt : i < s.length := by
      obtain ⟨h, -⟩ := List.findIdx?_eq_some_iff_getElem.1 hfind
      rwa [List.length_reverse] at h
    have hlen : s.length - 1 - i + 1 = s.length - i := by omega
    rw [Option.map_some, eraseBehind, eraseFront, hlen, List.drop_reverse, List.reverse_reverse]

theorem trimmed_eq (s : Text) : trimmed s = (s.dropWhile isSpace).rdropWhile isSpace := by
  rw [trimmed, eraseFront_eq, eraseBehind_eq]

/-- A text is stripped of all its spaces and tabs at both ends. -/
theorem trimmed_of_strips {t s : Text} (h : Strips t s) : trimmed t = s := by
  obtain ⟨a, b, rfl, ha, hb, hhead, hlast⟩ := h
  rw [trimmed_eq, List.append_assoc, List.dropWhile_append_of_pos (by simpa using ha)]
  cases s with
  | nil =>
    have hnil : b.dropWhile isSpace = [] := List.dropWhile_eq_nil_iff.2 (by simpa using hb)
    rw [List.nil_append, hnil, List.rdropWhile_nil]
  | cons c s =>
    have hc : ¬ isSpace c = true := by simpa using hhead c rfl
    have hself : (c :: s).rdropWhile isSpace = c :: s := by
      rw [List.rdropWhile_eq_self_iff]
      intro hne
      simpa using hlast _ (List.getLast?_eq_some_getLast hne)
    rw [List.cons_append, List.dropWhile_cons_of_neg hc, ← List.cons_append, List.rdropWhile,
      List.reverse_append, List.dropWhile_append_of_pos (by simpa using hb), ← List.rdropWhile,
      hself]

theorem strips_trimmed (t : Text) : Strips t (trimmed t) := by
  rw [trimmed_eq]
  have hback : (t.dropWhile isSpace).rdropWhile isSpace ++ (t.dropWhile isSpace).rtakeWhile isSpace =
      t.dropWhile isSpace := List.rdropWhile_append_rtakeWhile
  refine ⟨t.takeWhile isSpace, (t.dropWhile isSpace).rtakeWhile isSpace, ?_, ?_, ?_, ?_, ?_⟩
  · rw [List.append_assoc, hback, List.takeWhile_append_dropWhile]
  · intro c hc
    exact isSpace_iff.1 (List.mem_takeWhile_imp hc)
  · intro c hc
    exact isSpace_iff.1 (List.mem_rtakeWhile_imp hc)
  · intro c hc hspace
    have hhead : (t.dropWhile isSpace).head? = some c := by
      rw [← hback, List.head?_append, Option.mem_def.1 hc, Option.some_or]
    have hfirst := List.head?_dropWhile_not isSpace t
    rw [hhead] at hfirst
    exact absurd (isSpace_iff.2 hspace) (by simp [hfirst])
  · intro c hc hspace
    have hne : (t.dropWhile isSpace).rdropWhile isSpace ≠ [] := by
      rintro hnil
      rw [hnil] at hc
      cases hc
    have hlast := List.rdropWhile_last_not isSpace _ hne
    rw [Option.mem_def, List.getLast?_eq_some_getLast hne, Option.some_inj] at hc
    exact hlast (hc ▸ isSpace_iff.2 hspace)

/-! ## Lines -/

/-- The first equals sign of a line. -/
theorem findIdx?_eq_some_iff {line : Text} {delimPos : ℕ} :
    line.findIdx? (· == '=') = some delimPos ↔
      ∃ before behind, line = before ++ '=' :: behind ∧ '=' ∉ before ∧ before.length = delimPos := by
  constructor
  · intro h
    obtain ⟨hlt, heq, hfirst⟩ := List.findIdx?_eq_some_iff_getElem.1 h
    refine ⟨line.take delimPos, line.drop (delimPos + 1), ?_, ?_, ?_⟩
    · rw [← beq_iff_eq.1 heq, List.getElem_cons_drop, List.take_append_drop]
    · intro hmem
      obtain ⟨i, hi, hget⟩ := List.getElem_of_mem hmem
      rw [List.length_take] at hi
      rw [List.getElem_take] at hget
      exact hfirst i (by omega) (beq_iff_eq.2 hget)
    · rw [List.length_take]
      omega
  · rintro ⟨before, behind, rfl, hfirst, rfl⟩
    have hnone : before.findIdx? (· == '=') = none := by
      rw [List.findIdx?_eq_none_iff]
      intro c hc
      exact beq_eq_false_iff_ne.2 fun heq => hfirst (heq ▸ hc)
    rw [List.findIdx?_append, hnone, List.findIdx?_cons]
    simp

theorem loadLine_of_declares {line key value : Text} (h : Declares line key value)
    (m : Properties) : loadLine m line = m.addProperty key value := by
  obtain ⟨hne, hhash, hsemi, before, behind, rfl, hfirst, hkey, hvalue⟩ := h
  have hfind := findIdx?_eq_some_iff.2 ⟨before, behind, rfl, hfirst, rfl⟩
  have hcomment : ¬ ((before ++ '=' :: behind).isEmpty ∨ (before ++ '=' :: behind).head? = some '#' ∨
      (before ++ '=' :: behind).head? = some ';') := by
    rintro (h | h | h)
    · exact hne (List.isEmpty_iff.1 h)
    · exact hhash h
    · exact hsemi h
  rw [loadLine, if_neg hcomment, hfind]
  dsimp only
  rw [List.take_left, List.drop_length_add_append, List.drop_one, List.tail_cons,
    trimmed_of_strips hkey, trimmed_of_strips hvalue]

/-- A line that sets nothing changes nothing. -/
theorem loadLine_of_not_declares {line : Text} (h : ∀ key value, ¬ Declares line key value)
    (m : Properties) : loadLine m line = m := by
  rw [loadLine]
  split_ifs with hcomment
  · rfl
  push Not at hcomment
  obtain ⟨hne, hhash, hsemi⟩ := hcomment
  cases hfind : line.findIdx? (· == '=') with
  | none => rfl
  | some delimPos =>
    obtain ⟨before, behind, hline, hfirst, -⟩ := findIdx?_eq_some_iff.1 hfind
    refine absurd ⟨?_, hhash, hsemi, before, behind, hline, hfirst, strips_trimmed before,
      strips_trimmed behind⟩ (h (trimmed before) (trimmed behind))
    rintro rfl
    simp at hne

/-- Only empty lines are lost by reading a file line by line. -/
theorem foldl_readLines (line s : Text) (m : Properties) :
    (readLines line s).foldl loadLine m =
      ((s.splitOn '\n').modifyHead (line ++ ·)).foldl loadLine m := by
  have hempty : ∀ m, loadLine m [] = m := fun m => by rw [loadLine, if_pos (.inl rfl)]
  induction s generalizing line m with
  | nil =>
    rw [readLines, List.splitOn_nil]
    split_ifs with hline
    · subst hline
      exact (hempty m).symm
    · simp
  | cons c s ih =>
    rw [readLines, List.splitOn_cons_eq_if_modifyHead]
    by_cases hc : c = '\n'
    · -- the line ends here
      rw [if_pos hc, if_pos (beq_iff_eq.2 hc), List.foldl_cons, ih, List.modifyHead_cons,
        List.foldl_cons, List.append_nil]
      congr 1
      cases s.splitOn '\n' <;> rfl
    · rw [if_neg hc, if_neg (by simpa using hc), ih]
      congr 1
      cases s.splitOn '\n' with
      | nil => rfl
      | cons first lines => simp

/-- A line sets at most one key. -/
theorem get?_loadLine_of_not_declares {line key : Text} (h : ∀ value, ¬ Declares line key value)
    (m : Properties) : (loadLine m line).get? key = m.get? key := by
  by_cases hany : ∃ key' value, Declares line key' value
  · obtain ⟨key', value, hline⟩ := hany
    have hne : key ≠ key' := by
      rintro rfl
      exact h value hline
    rw [loadLine_of_declares hline, Properties.get?_addProperty, if_neg hne]
  · push Not at hany
    rw [loadLine_of_not_declares hany]

theorem get?_foldl_of_not_declares {lines : List Text} {key : Text}
    (h : ∀ line ∈ lines, ∀ value, ¬ Declares line key value) (m : Properties) :
    (lines.foldl loadLine m).get? key = m.get? key := by
  induction lines generalizing m with
  | nil => rfl
  | cons line lines ih =>
    rw [List.forall_mem_cons] at h
    rw [List.foldl_cons, ih h.2, get?_loadLine_of_not_declares h.1]

theorem loadConfiguration_eq (text : Text) (configuration : Properties) :
    loadConfiguration (some text) configuration =
      (true, (text.splitOn '\n').foldl loadLine configuration) := by
  rw [loadConfiguration, foldl_readLines]
  cases text.splitOn '\n' <;> rfl

/-- **The value of a key** after a file is loaded: that of the last line that sets it, or what it
    was before. -/
theorem getConfiguration_eq (configuration : Properties) (text key : Text) :
    (∀ before line behind value, text.splitOn '\n' = before ++ line :: behind →
      Declares line key value → (∀ later ∈ behind, ∀ value', ¬ Declares later key value') →
      getConfiguration (loadConfiguration (some text) configuration).2 key = value) ∧
    ((∀ line ∈ text.splitOn '\n', ∀ value, ¬ Declares line key value) →
      getConfiguration (loadConfiguration (some text) configuration).2 key =
        getConfiguration configuration key) := by
  rw [loadConfiguration_eq]
  constructor
  · intro before line behind value hlines hline hlast
    rw [getConfiguration, hlines, List.foldl_append, List.foldl_cons,
      get?_foldl_of_not_declares hlast, loadLine_of_declares hline, Properties.get?_addProperty,
      if_pos rfl]
    rfl
  · intro hnone
    rw [getConfiguration, get?_foldl_of_not_declares hnone]
    rfl

/-- A key that is set twice, where the last value has an equals sign and spaces around it. -/
theorem getConfiguration_mode :
    getConfiguration (loadConfiguration (some "# modes\nmode=a\nmode\t=  b=c \n".toList) .empty).2
      "mode".toList = "b=c".toList := by
  refine (getConfiguration_eq .empty _ _).1 ["# modes".toList, "mode=a".toList]
    "mode\t=  b=c ".toList [[]] _ rfl ?_ ?_
  · refine ⟨by decide, by decide, by decide, "mode\t".toList, "  b=c ".toList, rfl, by decide,
      ⟨[], ['\t'], rfl, ?_⟩, ⟨[' ', ' '], [' '], rfl, ?_⟩⟩
    · simp [IsSpace]
    · simp [IsSpace]
  · rintro later hlater value ⟨hne, -⟩
    exact hne (List.mem_singleton.1 hlater)

end PocketDarwin.DeviceBundle
