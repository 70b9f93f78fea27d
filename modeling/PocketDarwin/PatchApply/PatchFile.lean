/-
  The statistics of the patch tool (`PatchFile` in `pdpatch.m`).

  Every line of a patch is counted by how it begins: the hunks, the lines that are added and the
  lines that are removed.  What part of the patch a line is in is not looked at.

  * `Diff`: unified diffs, with a message before them, by their grammar.
  * `parsePatchMetadata_counts`: what is counted of a diff, and what is counted on top of it.
  * `counted_iff`: the statistics are those of the diff exactly if it has no files, and nothing in
    the message looks like a part of one.
-/
import Mathlib.Algebra.BigOperators.Group.List.Basic
import Mathlib.Algebra.Ring.Nat
import Mathlib.Data.List.Infix
import Mathlib.Tactic.Common
import PocketDarwin.Text

namespace PocketDarwin.PatchApply

/-! ## The code -/

/-- `[line hasPrefix:]` -/
def hasPrefix (line : Text) (mark : String) : Bool := mark.toList.isPrefixOf line

/-- `[line substringFromIndex:]`, behind the first place where a text is found. -/
def substringBehind (text : Text) : Text → Option Text
  | [] => if text = [] then some [] else none
  | c :: line =>
    if text.isPrefixOf (c :: line) then some ((c :: line).drop text.length)
    else substringBehind text line

structure Metadata where
  subject : Option Text
  hunks : ℕ
  linesAdded : ℕ
  linesRemoved : ℕ
deriving DecidableEq

/-- The loop for the subject: it ends at the first line that begins like one. -/
def findSubject : List Text → Option Text
  | [] => none
  | line :: lines =>
    if hasPrefix line "Subject:" then substringBehind "Subject: ".toList line
    else findSubject lines

/-- The body of the loop that counts. -/
def countLine (m : Metadata) (line : Text) : Metadata :=
  let m := if hasPrefix line "@@" then { m with hunks := m.hunks + 1 } else m
  let m := if hasPrefix line "+" then { m with linesAdded := m.linesAdded + 1 } else m
  if hasPrefix line "-" then { m with linesRemoved := m.linesRemoved + 1 } else m

def parsePatchMetadata (content : Text) : Metadata :=
  let lines := content.splitOn '\n'
  lines.foldl countLine ⟨findSubject lines, 0, 0, 0⟩

/-- `validatePatch:`, without what it prints. -/
def validatePatch (content : Text) : Bool :=
  if !hasPrefix content "diff " && !hasPrefix content "---" then false
  else (parsePatchMetadata content).hunks != 0

/-! ## Diffs -/

/-- A text without a line break. -/
abbrev Line := { t : Text // '\n' ∉ t }

inductive Kind where
  | context | added | removed
deriving DecidableEq

def Kind.mark : Kind → Char
  | context => ' '
  | added => '+'
  | removed => '-'

/-- A range of lines, which leaves out a count of one if it is short. -/
structure Range where
  start : ℕ
  short : Bool

def Range.text (r : Range) (count : ℕ) : Text :=
  if r.short ∧ count = 1 then (toString r.start).toList
  else (toString r.start).toList ++ ',' :: (toString count).toList

structure Hunk where
  old : Range
  new : Range
  heading : Line
  lines : List (Kind × Line)

namespace Hunk
variable (h : Hunk)

/-- How many lines of a kind it has. -/
def count (k : Kind) : ℕ := h.lines.countP fun l => l.1 = k

def header : Text :=
  "@@ -".toList ++ h.old.text (h.count .context + h.count .removed) ++ " +".toList ++
    h.new.text (h.count .context + h.count .added) ++ " @@".toList ++ h.heading.1

def text : List Text := h.header :: h.lines.map fun l => l.1.mark :: l.2.1

end Hunk

/-- The changes of a file, with the lines that a tool has put before its two header lines. -/
structure FileDiff where
  extended : List Line
  old : Line
  new : Line
  hunks : List Hunk

/-- The lines before the hunks. -/
def FileDiff.header (f : FileDiff) : List Text :=
  f.extended.map Subtype.val ++ ["--- ".toList ++ f.old.1, "+++ ".toList ++ f.new.1]

def FileDiff.text (f : FileDiff) : List Text := f.header ++ f.hunks.flatMap Hunk.text

/-- A unified diff, with a mail header and a message before it. -/
structure Diff where
  message : List Line
  files : List FileDiff
  lastBreak : Bool

namespace Diff
variable (d : Diff)

def lines : List Text := d.message.map Subtype.val ++ d.files.flatMap FileDiff.text

def text : Text := ['\n'].intercalate (d.lines ++ if d.lastBreak then [[]] else [])

def hunks : List Hunk := d.files.flatMap FileDiff.hunks

/-- How many lines of a kind its hunks have. -/
def count (k : Kind) : ℕ := (d.hunks.map fun h => h.count k).sum

/-- The statistics are those of the hunks. -/
def Counted : Prop :=
  (parsePatchMetadata d.text).hunks = d.hunks.length ∧
  (parsePatchMetadata d.text).linesAdded = d.count .added ∧
  (parsePatchMetadata d.text).linesRemoved = d.count .removed

/-- The lines that are in no hunk. -/
def outside : List Text := d.message.map Subtype.val ++ d.files.flatMap FileDiff.header

end Diff

/-! ## Counting -/

/-- How many of the lines begin with a text. -/
def tally (mark : String) (lines : List Text) : ℕ := lines.countP fun line => hasPrefix line mark

@[simp] theorem tally_nil (mark : String) : tally mark [] = 0 := rfl

@[simp] theorem tally_cons (mark : String) (line : Text) (lines : List Text) :
    tally mark (line :: lines) = tally mark lines + if hasPrefix line mark then 1 else 0 :=
  List.countP_cons

@[simp] theorem tally_append (mark : String) (lines lines' : List Text) :
    tally mark (lines ++ lines') = tally mark lines + tally mark lines' := List.countP_append

theorem tally_flatMap {α : Type} (mark : String) (l : List α) (f : α → List Text) :
    tally mark (l.flatMap f) = (l.map fun a => tally mark (f a)).sum := by
  induction l with
  | nil => rfl
  | cons a l ih => rw [List.flatMap_cons, tally_append, ih, List.map_cons, List.sum_cons]

theorem tally_eq_zero {mark : String} {lines : List Text} :
    tally mark lines = 0 ↔ ∀ line ∈ lines, ¬ hasPrefix line mark := by
  rw [tally, List.countP_eq_zero]

/-- The loop counts the lines of each beginning. -/
theorem foldl_countLine (lines : List Text) (m : Metadata) :
    lines.foldl countLine m = ⟨m.subject, m.hunks + tally "@@" lines,
      m.linesAdded + tally "+" lines, m.linesRemoved + tally "-" lines⟩ := by
  induction lines generalizing m with
  | nil => rfl
  | cons line lines ih =>
    rw [List.foldl_cons, ih, countLine]
    simp only [tally_cons]
    split_ifs <;> simp <;> omega

/-- How the lines of a hunk begin. -/
theorem hasPrefix_mark (k : Kind) (line : Text) :
    hasPrefix (k.mark :: line) "@@" = false ∧
    hasPrefix (k.mark :: line) "+" = decide (k = .added) ∧
    hasPrefix (k.mark :: line) "-" = decide (k = .removed) := by
  cases k <;> exact ⟨rfl, rfl, rfl⟩

theorem hasPrefix_header (h : Hunk) : hasPrefix h.header "@@" = true ∧
    hasPrefix h.header "+" = false ∧ hasPrefix h.header "-" = false := by
  obtain ⟨rest, hrest⟩ : ∃ rest, h.header = '@' :: '@' :: rest := ⟨_, rfl⟩
  rw [hrest]
  exact ⟨rfl, rfl, rfl⟩

theorem tally_hunkLines (lines : List (Kind × Line)) :
    tally "@@" (lines.map fun l => l.1.mark :: l.2.1) = 0 ∧
    tally "+" (lines.map fun l => l.1.mark :: l.2.1) = lines.countP (fun l => l.1 = .added) ∧
    tally "-" (lines.map fun l => l.1.mark :: l.2.1) = lines.countP fun l => l.1 = .removed := by
  induction lines with
  | nil => exact ⟨rfl, rfl, rfl⟩
  | cons l lines ih =>
    obtain ⟨hhunk, hadded, hremoved⟩ := hasPrefix_mark l.1 l.2.1
    rw [List.map_cons, tally_cons, tally_cons, tally_cons, hhunk, hadded, hremoved, ih.1, ih.2.1,
      ih.2.2, List.countP_cons, List.countP_cons]
    exact ⟨rfl, rfl, rfl⟩

/-- A hunk is counted as one, with its lines. -/
theorem tally_hunk (h : Hunk) : tally "@@" h.text = 1 ∧ tally "+" h.text = h.count .added ∧
    tally "-" h.text = h.count .removed := by
  obtain ⟨hhunk, hadded, hremoved⟩ := hasPrefix_header h
  obtain ⟨hhunk', hadded', hremoved'⟩ := tally_hunkLines h.lines
  rw [Hunk.text, tally_cons, tally_cons, tally_cons, hhunk, hadded, hremoved, hhunk', hadded',
    hremoved']
  exact ⟨rfl, rfl, rfl⟩

/-- The numbers of a range are on one line. -/
theorem Range.not_mem_text (r : Range) (count : ℕ) : '\n' ∉ r.text count := by
  have hnum : ∀ n : ℕ, '\n' ∉ (toString n).toList := by
    intro n h
    rw [Nat.toString_eq_repr, Nat.toList_repr] at h
    exact absurd (Nat.isDigit_of_mem_toDigits (by decide) (by decide) h) (by decide)
  rw [Range.text]
  split_ifs
  · exact hnum _
  · rw [List.mem_append, List.mem_cons, not_or, not_or]
    exact ⟨hnum _, by decide, hnum _⟩

theorem Hunk.not_mem_header (h : Hunk) : '\n' ∉ h.header := by
  -- the equation of `header` is slow to derive
  delta header
  simp [Range.not_mem_text, h.heading.2]

namespace Diff
variable (d : Diff)

/-- The lines of a diff, in its hunks and outside of them. -/
theorem tally_lines (mark : String) : tally mark d.lines =
    (d.hunks.map fun h => tally mark h.text).sum + tally mark d.outside := by
  have hfiles : ∀ files : List FileDiff, tally mark (files.flatMap FileDiff.text) =
      ((files.flatMap FileDiff.hunks).map fun h => tally mark h.text).sum +
        tally mark (files.flatMap FileDiff.header) := by
    intro files
    induction files with
    | nil => rfl
    | cons f files ih =>
      rw [List.flatMap_cons, tally_append, ih, FileDiff.text, tally_append, tally_flatMap,
        List.flatMap_cons, List.flatMap_cons, List.map_append, List.sum_append, tally_append]
      omega
  rw [lines, outside, hunks, tally_append, tally_append, hfiles]
  omega

/-- The text of a diff is split at the ends of its lines. -/
theorem not_mem_lines {line : Text} (h : line ∈ d.lines) : '\n' ∉ line := by
  rw [lines, List.mem_append, List.mem_flatMap] at h
  rcases h with h | ⟨f, -, h⟩
  · obtain ⟨l, -, rfl⟩ := List.mem_map.1 h
    exact l.2
  rw [FileDiff.text, FileDiff.header, List.append_assoc, List.mem_append, List.mem_append,
    List.mem_flatMap] at h
  rcases h with h | h | ⟨hunk, -, h⟩
  · obtain ⟨l, -, rfl⟩ := List.mem_map.1 h
    exact l.2
  · rcases List.mem_cons.1 h with rfl | h
    · simpa using f.old.2
    · rw [List.mem_singleton.1 h]
      simpa using f.new.2
  · rcases List.mem_cons.1 h with rfl | h
    · exact hunk.not_mem_header
    · obtain ⟨l, -, rfl⟩ := List.mem_map.1 h
      rw [List.mem_cons, not_or]
      refine ⟨?_, l.2.2⟩
      cases l.1 <;> decide

theorem tally_splitOn {mark : String} (hmark : hasPrefix [] mark = false) :
    tally mark (d.text.splitOn '\n') = tally mark d.lines := by
  have hend : tally mark (d.lines ++ if d.lastBreak then [[]] else []) = tally mark d.lines := by
    cases d.lastBreak <;> simp [hmark]
  rw [text, ← hend]
  by_cases hne : (d.lines ++ if d.lastBreak then [[]] else []) = []
  · rw [hne]
    simp [hmark]
  · rw [List.splitOn_intercalate _ (fun line hline => ?_) hne]
    rcases List.mem_append.1 hline with hline | hline
    · exact d.not_mem_lines hline
    · have hnil : line = [] := by
        cases hbreak : d.lastBreak <;> simp_all
      rw [hnil]
      exact List.not_mem_nil

/-- **What is counted** of a diff: its hunks and their lines, and what begins like one of these
    outside of the hunks. -/
theorem parsePatchMetadata_counts :
    (parsePatchMetadata d.text).hunks = d.hunks.length + tally "@@" d.outside ∧
    (parsePatchMetadata d.text).linesAdded = d.count .added + tally "+" d.outside ∧
    (parsePatchMetadata d.text).linesRemoved = d.count .removed + tally "-" d.outside := by
  rw [parsePatchMetadata, foldl_countLine]
  simp only [Nat.zero_add]
  rw [d.tally_splitOn rfl, d.tally_splitOn rfl, d.tally_splitOn rfl, d.tally_lines, d.tally_lines,
    d.tally_lines]
  simp only [(tally_hunk _).1, (tally_hunk _).2.1, (tally_hunk _).2.2]
  refine ⟨?_, rfl, rfl⟩
  rw [List.map_const', List.sum_replicate_nat, Nat.mul_one]

/-- **The statistics are those of the diff** exactly if there is no file in it, and no line of the
    message begins like a hunk or a line that is added or removed. -/
theorem counted_iff : d.Counted ↔ d.files = [] ∧ ∀ line ∈ d.message,
    ¬ hasPrefix line.1 "@@" ∧ ¬ hasPrefix line.1 "+" ∧ ¬ hasPrefix line.1 "-" := by
  obtain ⟨hhunks, hadded, hremoved⟩ := d.parsePatchMetadata_counts
  rw [Counted, hhunks, hadded, hremoved]
  simp only [Nat.add_eq_left, tally_eq_zero]
  constructor
  · rintro ⟨hhunk, hadd, hremove⟩
    constructor
    · -- the second header line of a file counts as one that is added
      cases hfiles : d.files with
      | nil => rfl
      | cons f files =>
        refine absurd rfl (hadd ("+++ ".toList ++ f.new.1) (List.mem_append_right _ ?_))
        rw [hfiles, List.flatMap_cons, FileDiff.header]
        simp
    · intro line hline
      have hout : line.1 ∈ d.outside := List.mem_append_left _ (List.mem_map_of_mem hline)
      exact ⟨hhunk _ hout, hadd _ hout, hremove _ hout⟩
  · rintro ⟨hfiles, hmessage⟩
    have hout : ∀ line ∈ d.outside, ∃ l ∈ d.message, l.1 = line := by
      intro line hline
      rw [outside, hfiles, List.flatMap_nil, List.append_nil] at hline
      exact List.mem_map.1 hline
    refine ⟨fun line hline => ?_, fun line hline => ?_, fun line hline => ?_⟩
    all_goals
      obtain ⟨l, hl, rfl⟩ := hout line hline
    · exact (hmessage l hl).1
    · exact (hmessage l hl).2.1
    · exact (hmessage l hl).2.2

/-- A diff with a hunk is valid if its text begins like one. -/
theorem validatePatch_of_hunks (hhunks : d.hunks ≠ [])
    (h : hasPrefix d.text "diff " ∨ hasPrefix d.text "---") : validatePatch d.text = true := by
  have hbegins : (!hasPrefix d.text "diff " && !hasPrefix d.text "---") = false := by
    rcases h with h | h <;> simp [h]
  have hpos : 0 < d.hunks.length := List.length_pos_iff.2 hhunks
  rw [validatePatch, hbegins, if_neg Bool.false_ne_true, d.parsePatchMetadata_counts.1]
  exact bne_iff_ne.2 (by omega)

/-- `x` in place of `y`, with nothing around it. -/
def replacement : Diff where
  message := []
  files := [⟨[], ⟨"a/f".toList, by decide⟩, ⟨"b/f".toList, by decide⟩,
    [⟨⟨1, true⟩, ⟨1, true⟩, ⟨[], by decide⟩,
      [(.removed, ⟨['y'], by decide⟩), (.added, ⟨['x'], by decide⟩)]⟩]⟩]
  lastBreak := true

/-- **The header lines** of the file are counted, too. -/
theorem headers_counted : ¬ replacement.Counted ∧
    parsePatchMetadata replacement.text = ⟨none, 1, 2, 2⟩ := by
  have hmeta : parsePatchMetadata replacement.text = ⟨none, 1, 2, 2⟩ := by decide
  refine ⟨?_, hmeta⟩
  rintro ⟨-, hadded, -⟩
  rw [hmeta] at hadded
  exact absurd hadded (by decide)

end Diff

end PocketDarwin.PatchApply
