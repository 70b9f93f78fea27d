/-
  Macro expansion, chunk by chunk.

  `_expand_macros_in_line` reads a line as identifiers, string literals and single
  characters, and replaces the identifiers (`expandMacrosInLine_eq`).  What it
  makes of a line is read again as the chunks of the line and of the values put
  in (`chunks_expand`), as long as the strings in the values are closed: no value
  runs together with what stands next to it.  From this follow the identifiers
  that an expansion mentions, when it changes nothing, and what expanding twice
  amounts to.
-/
import Mathlib.Logic.Function.Iterate
import PocketDarwin.PatchDtc.Tokens

namespace PocketDarwin.PatchDtc.Preprocessor

/-- The string that was opened before is closed in the text. -/
def isClosed : Text → Bool
  | [] => false
  | '\\' :: _ :: cs => isClosed cs
  | ['\\'] => false
  | '"' :: _ => true
  | _ :: cs => isClosed cs

/-- A part of a line. -/
inductive Chunk where
  | ident (name : Text)
  | literal (text : Text) (closed : Bool)
  | char (c : Char)
deriving DecidableEq, Repr

namespace Chunk

/-- What an expansion makes of a chunk. -/
def expand (macros : Macros) : Chunk → Text
  | ident name => (macros.lookup name).getD name
  | literal text _ => text
  | char c => [c]

/-- The name of an identifier. -/
def name? : Chunk → Option Text
  | ident name => some name
  | _ => none

/-- The chunk is no literal without an end. -/
def ends : Chunk → Bool
  | literal _ closed => closed
  | _ => true

end Chunk

section
variable (py : Python)

/-- The parts of a line. -/
def chunks : Text → List Chunk
  | [] => []
  | '"' :: cs => .literal ('"' :: slice cs (readString cs)) (isClosed cs) :: chunks (readString cs)
  | c :: cs =>
    if py.isAlpha c || c == '_' then
      .ident (c :: cs.takeWhile (isMacroChar py)) :: chunks (cs.dropWhile (isMacroChar py))
    else .char c :: chunks cs
termination_by cs => cs.length
decreasing_by
  · have := (readString_suffix cs).length_le; simp only [List.length_cons]; omega
  · have := dropWhile_length_le (isMacroChar py) cs; simp only [List.length_cons]; omega
  · simp

/-- The identifiers of a line. -/
def mentions (line : Text) : List Text := (chunks py line).filterMap Chunk.name?

/-- All strings of a line are closed. -/
def balancedQuotes (line : Text) : Bool := (chunks py line).all Chunk.ends

/-! ## Reading chunks -/

theorem isClosed_char {c : Char} (h₁ : c ≠ '\\')
    (h₂ : c ≠ '"') (cs : Text) : isClosed (c :: cs) = isClosed cs := by
  rw [isClosed.eq_def]
  split
  · rename_i heq; cases heq
  · rename_i heq; cases heq; exact absurd rfl h₁
  · rename_i heq; cases heq; exact absurd rfl h₁
  · rename_i heq; cases heq; exact absurd rfl h₂
  · rename_i heq; cases heq; rfl

theorem chunks_char {c : Char} (h : c ≠ '"') (cs : Text) :
    chunks py (c :: cs) =
      if py.isAlpha c || c == '_' then
        .ident (c :: cs.takeWhile (isMacroChar py)) :: chunks py (cs.dropWhile (isMacroChar py))
      else .char c :: chunks py cs := by
  rw [chunks.eq_def]
  split
  · rename_i heq; cases heq
  · rename_i heq; cases heq; exact absurd rfl h
  · rename_i heq; cases heq; rfl

theorem substitute_char {c : Char} (h : c ≠ '"') (macros : Macros) (cs : Text) :
    substitute py macros (c :: cs) =
      if py.isAlpha c || c == '_' then
        (macros.lookup (c :: cs.takeWhile (isMacroChar py))).getD
          (c :: cs.takeWhile (isMacroChar py)) ++
          substitute py macros (cs.dropWhile (isMacroChar py))
      else c :: substitute py macros cs := by
  rw [substitute.eq_def]
  split
  · rename_i heq; cases heq
  · rename_i heq; cases heq; exact absurd rfl h
  · rename_i heq; cases heq; rfl

theorem substitute_eq (macros : Macros) (line : Text) :
    substitute py macros line = (chunks py line).flatMap (Chunk.expand macros) := by
  fun_induction chunks py line with
  | case1 => rw [substitute]; rfl
  | case2 cs ih => rw [substitute, ih]; rfl
  | case3 c cs h hc ih => rw [substitute_char py h, if_pos hc, ih]; rfl
  | case4 c cs h hc ih => rw [substitute_char py h, if_neg hc, ih]; rfl

theorem flatMap_expand_empty (line : Text) :
    (chunks py line).flatMap (Chunk.expand ∅) = line := by
  fun_induction chunks py line with
  | case1 => rfl
  | case2 cs ih =>
    rw [List.flatMap_cons, ih]
    exact congrArg ('"' :: ·) (slice_append_of_suffix (readString_suffix cs))
  | case3 c cs h hc ih =>
    rw [List.flatMap_cons, ih]
    exact congrArg (c :: ·) List.takeWhile_append_dropWhile
  | case4 c cs h hc ih =>
    rw [List.flatMap_cons, ih]
    rfl

/-- **An expansion** replaces the identifiers of a line. -/
theorem expandMacrosInLine_eq (line : Text) (macros : Macros) :
    expandMacrosInLine py line macros = (chunks py line).flatMap (Chunk.expand macros) := by
  rw [expandMacrosInLine]
  split_ifs with h
  · obtain rfl : macros = ∅ := AList.ext (List.isEmpty_iff.1 h)
    exact (flatMap_expand_empty py line).symm
  · exact substitute_eq py macros line

/-! ## What stands next to each other -/

/-- A string without an end reaches to the end of the line. -/
theorem readString_of_not_closed {cs : Text} (h : isClosed cs = false) : readString cs = [] := by
  fun_induction isClosed cs with
  | case1 => rfl
  | case2 x cs ih => exact ih h
  | case3 => rfl
  | case4 => cases h
  | case5 c cs h₁ h₂ h₃ ih =>
    rw [readString_char (ne_backslash h₁ h₂) h₃]
    exact ih h

/-- A string that is closed ends there whatever follows. -/
theorem readString_closed {cs : Text} (h : isClosed cs = true) (r : Text) :
    isClosed (slice cs (readString cs) ++ r) = true ∧ readString (slice cs (readString cs) ++ r) = r := by
  fun_induction isClosed cs with
  | case1 => cases h
  | case2 x cs ih =>
    have hslice : slice ('\\' :: x :: cs) (readString cs) = ['\\', x] ++ slice cs (readString cs) :=
      append_slice (readString_suffix cs) ['\\', x]
    rw [readString, hslice]
    exact ih h
  | case3 => cases h
  | case4 cs =>
    have hslice : slice ('"' :: cs) cs = ['"'] := slice_append ['"'] cs
    rw [readString, hslice]
    exact ⟨rfl, rfl⟩
  | case5 c cs h₁ h₂ h₃ ih =>
    have hc := ne_backslash h₁ h₂
    have hslice : slice (c :: cs) (readString cs) = [c] ++ slice cs (readString cs) :=
      append_slice (readString_suffix cs) [c]
    rw [readString_char hc h₃, hslice, List.append_assoc, List.singleton_append,
      isClosed_char hc h₃,
      readString_char hc h₃]
    exact ih h

/-- A run ends where it did, in front of a character that does not belong to it. -/
theorem run_append {p : Char → Bool} (cs : Text) {r : Text} (hr : ∀ c ∈ r.head?, ¬ p c) :
    (cs ++ r).takeWhile p = cs.takeWhile p ∧ (cs ++ r).dropWhile p = cs.dropWhile p ++ r := by
  induction cs with
  | nil =>
    exact ⟨takeWhile_run (w := []) (fun _ h => by cases h) hr,
      dropWhile_run (w := []) (fun _ h => by cases h) hr⟩
  | cons c cs ih =>
    by_cases hc : p c
    · rw [List.cons_append, List.takeWhile_cons_of_pos hc, List.dropWhile_cons_of_pos hc,
        List.takeWhile_cons_of_pos hc, List.dropWhile_cons_of_pos hc, ih.1, ih.2]
      exact ⟨rfl, rfl⟩
    · rw [List.cons_append, List.takeWhile_cons_of_neg hc, List.dropWhile_cons_of_neg hc,
        List.takeWhile_cons_of_neg hc, List.dropWhile_cons_of_neg hc]
      exact ⟨rfl, rfl⟩

/-- A line whose strings are closed does not run together with what follows, if that does not
    continue an identifier. -/
theorem chunks_append {line r : Text} (hline : balancedQuotes py line)
    (hr : ∀ c ∈ r.head?, ¬ isMacroChar py c) :
    chunks py (line ++ r) = chunks py line ++ chunks py r := by
  unfold balancedQuotes at hline
  fun_induction chunks py line with
  | case1 => rfl
  | case2 cs ih =>
    rw [List.all_cons, Bool.and_eq_true] at hline
    obtain ⟨hclosed, hrest⟩ := hline
    obtain ⟨h₁, h₂⟩ := readString_closed hclosed (readString cs ++ r)
    have hcs : cs ++ r = slice cs (readString cs) ++ (readString cs ++ r) := by
      rw [← List.append_assoc, slice_append_of_suffix (readString_suffix cs)]
    rw [List.cons_append, chunks, hcs, h₁, h₂, slice_append, ih hrest]
    exact congrArg (fun b => Chunk.literal _ b :: _) hclosed.symm
  | case3 c cs h hc ih =>
    rw [List.all_cons, Bool.and_eq_true] at hline
    obtain ⟨htake, hdrop⟩ := run_append cs hr
    rw [List.cons_append, chunks_char py h, if_pos hc, htake, hdrop, ih hline.2]
    rfl
  | case4 c cs h hc ih =>
    rw [List.all_cons, Bool.and_eq_true] at hline
    rw [List.cons_append, chunks_char py h, if_neg hc, ih hline.2]
    rfl

/-! ## Expansions -/

section
variable (macros : Macros)

/-- How a chunk is read once it has been expanded. -/
def Chunk.reread : Chunk → List Chunk
  | .ident name =>
    match macros.lookup name with
    | some value => chunks py value
    | none => [.ident name]
  | c => [c]

/-- The strings in all values are closed. -/
def ClosedValues : Prop := ∀ name value, macros.lookup name = some value → balancedQuotes py value

/-- An expansion starts as the line does, unless this is an identifier. -/
theorem head?_expand {line : Text} (h : ∀ c ∈ line.head?, ¬ isMacroChar py c) :
    ∀ c ∈ (expandMacrosInLine py line macros).head?, ¬ isMacroChar py c := by
  rw [expandMacrosInLine_eq]
  cases line with
  | nil =>
    rw [chunks]
    exact h
  | cons c cs =>
    have hc : ¬ isMacroChar py c := h c rfl
    by_cases hquote : c = '"'
    · subst hquote
      rw [chunks]
      exact h
    · have hstart : ¬ (py.isAlpha c || c == '_') = true := by
        intro hstart
        refine hc ?_
        simp only [isMacroChar, Bool.or_eq_true] at hstart ⊢
        rcases hstart with h' | h'
        · exact .inl (.inl h')
        · exact .inr h'
      rw [chunks_char py hquote, if_neg hstart]
      exact h

theorem head?_dropWhile_not_mem (p : Char → Bool) (cs : Text) :
    ∀ c ∈ (cs.dropWhile p).head?, ¬ p c := by
  intro c hc
  have := List.head?_dropWhile_not p cs
  rw [Option.mem_def] at hc
  rw [hc] at this
  simpa using this

/-- **What an expansion is made of**: the chunks of the line, and those of the values for the
    macros. -/
theorem chunks_expand (hclosed : ClosedValues py macros) (line : Text) :
    chunks py (expandMacrosInLine py line macros) = (chunks py line).flatMap
      (Chunk.reread py macros) := by
  rw [expandMacrosInLine_eq]
  fun_induction chunks py line with
  | case1 => rw [List.flatMap_nil, chunks]; rfl
  | case2 cs ih =>
    rw [List.flatMap_cons, List.flatMap_cons, Chunk.expand, List.cons_append, chunks]
    cases hclose : isClosed cs with
    | true =>
      obtain ⟨h₁, h₂⟩ := readString_closed hclose
        ((chunks py (readString cs)).flatMap (Chunk.expand macros))
      rw [h₁, h₂, slice_append, ih]
      rfl
    | false =>
      have hnil := readString_of_not_closed hclose
      have hchunks : chunks py [] = [] := by rw [chunks]
      rw [hnil, hchunks, List.flatMap_nil, List.flatMap_nil, slice_nil, List.append_nil, hclose,
        hnil, slice_nil,
        hchunks]
      rfl
  | case3 c cs h hc ih =>
    have hhead := head?_expand py macros (head?_dropWhile_not_mem (isMacroChar py) cs)
    rw [expandMacrosInLine_eq] at hhead
    rw [List.flatMap_cons, List.flatMap_cons, Chunk.expand, Chunk.reread]
    cases hl : macros.lookup (c :: cs.takeWhile (isMacroChar py)) with
    | some value =>
      rw [Option.getD_some, chunks_append py (hclosed _ _ hl) hhead, ih]
    | none =>
      have hrun : ∀ x ∈ cs.takeWhile (isMacroChar py), isMacroChar py x :=
        fun x hx => List.mem_takeWhile_imp hx
      rw [Option.getD_none, List.cons_append, chunks_char py h, if_pos hc, takeWhile_run hrun hhead,
        dropWhile_run hrun hhead, ih]
      rfl
  | case4 c cs h hc ih =>
    rw [List.flatMap_cons, List.flatMap_cons, Chunk.expand, List.singleton_append, chunks_char py h,
      if_neg hc, ih]
    rfl

/-- Where a chunk of an expansion comes from: a value, or the line. -/
theorem mem_chunks_expand (hclosed : ClosedValues py macros) {line : Text} {chunk : Chunk}
    (h : chunk ∈ chunks py (expandMacrosInLine py line macros)) :
    (∃ used ∈ mentions py line, ∃ value, macros.lookup used = some value ∧ chunk ∈ chunks py value) ∨
      (chunk ∈ chunks py line ∧ ∀ name, chunk = .ident name → macros.lookup name = none) := by
  rw [chunks_expand py macros hclosed] at h
  obtain ⟨origin, horigin, hmem⟩ := List.mem_flatMap.1 h
  unfold Chunk.reread at hmem
  split at hmem
  · rename_i used
    split at hmem
    · rename_i value hl
      exact .inl ⟨used, List.mem_filterMap.2 ⟨.ident used, horigin, rfl⟩, value, hl, hmem⟩
    · rename_i hl
      rw [List.mem_singleton] at hmem
      subst hmem
      refine .inr ⟨horigin, fun name hname => ?_⟩
      cases hname
      exact hl
  · rename_i hident
    rw [List.mem_singleton] at hmem
    subst hmem
    exact .inr ⟨horigin, fun name hname => absurd hname (hident name)⟩

/-- What an expansion mentions is mentioned by the line, and no macro, or by a value. -/
theorem mem_mentions_expand (hclosed : ClosedValues py macros) {line name : Text}
    (h : name ∈ mentions py (expandMacrosInLine py line macros)) :
    (name ∈ mentions py line ∧ macros.lookup name = none) ∨
      ∃ used ∈ mentions py line, ∃ value, macros.lookup used = some value ∧
      name ∈ mentions py value := by
  obtain ⟨chunk, hchunk, hname⟩ := List.mem_filterMap.1 h
  have hident : chunk = .ident name := by
    cases chunk <;> cases hname
    rfl
  rcases mem_chunks_expand py macros hclosed hchunk with ⟨used, hused, value, hl, hmem⟩ | ⟨hmem, hnone⟩
  · exact .inr ⟨used, hused, value, hl, List.mem_filterMap.2 ⟨chunk, hmem, hname⟩⟩
  · exact .inl ⟨List.mem_filterMap.2 ⟨chunk, hmem, hname⟩, hnone name hident⟩

end

/-- An expansion depends on the macros that the line mentions. -/
theorem expand_congr {macros macros' : Macros} {line : Text}
    (h : ∀ name ∈ mentions py line, macros.lookup name = macros'.lookup name) :
    expandMacrosInLine py line macros = expandMacrosInLine py line macros' := by
  rw [expandMacrosInLine_eq, expandMacrosInLine_eq]
  refine List.flatMap_congr fun chunk hchunk => ?_
  cases chunk with
  | ident name =>
    rw [Chunk.expand, Chunk.expand, h name (List.mem_filterMap.2 ⟨.ident name, hchunk, rfl⟩)]
  | _ => rfl

/-- A line that mentions no used is not changed. -/
theorem expand_fixed {macros : Macros} {line : Text}
    (h : ∀ name ∈ mentions py line, macros.lookup name = none) :
    expandMacrosInLine py line macros = line :=
  calc expandMacrosInLine py line macros
      = expandMacrosInLine py line ∅ := expand_congr py fun name hname => (h name hname).trans rfl
    _ = line := by rw [expandMacrosInLine_eq, flatMap_expand_empty]

/-- **A second table absorbs a first one** whose values it has expanded. -/
theorem expand_expand {raw stored : Macros} (hclosed : ClosedValues py raw)
    (hstored : ∀ name body, raw.lookup name = some body →
      stored.lookup name = some (expandMacrosInLine py body stored)) (line : Text) :
    expandMacrosInLine py (expandMacrosInLine py line raw) stored = expandMacrosInLine py line
      stored := by
  rw [expandMacrosInLine_eq, chunks_expand py raw hclosed, List.flatMap_assoc,
    expandMacrosInLine_eq]
  refine List.flatMap_congr fun chunk _ => ?_
  cases chunk with
  | ident name =>
    simp only [Chunk.reread, Chunk.expand]
    cases hl : raw.lookup name with
    | some body => rw [hstored name body hl, Option.getD_some, expandMacrosInLine_eq]
    | none => simp [Chunk.expand]
  | _ => simp [Chunk.reread]

/-! ## Expanding again and again -/

section
variable {raw : Macros} (hclosed : ClosedValues py raw)
include hclosed

/-- Where the values mention macros of a lower rank only, no macro is left in the end. -/
theorem mentions_iterate {rank : Text → ℕ}
    (hrank : ∀ name body, raw.lookup name = some body →
      ∀ used ∈ mentions py body, raw.lookup used ≠ none → rank used < rank name)
    (n : ℕ) {line : Text} (hline : ∀ used ∈ mentions py line, raw.lookup used ≠ none →
      rank used < n) :
    ∀ used ∈ mentions py ((expandMacrosInLine py · raw)^[n] line), raw.lookup used = none := by
  induction n generalizing line with
  | zero =>
    intro used hused
    by_contra hne
    exact Nat.not_lt_zero _ (hline used hused hne)
  | succ n ih =>
    refine ih fun used hused hne => ?_
    rcases mem_mentions_expand py raw hclosed hused with ⟨-, hnone⟩ | ⟨name, hname, body, hl, hmem⟩
    · exact absurd hnone hne
    · have h₁ := hrank name body hl used hmem hne
      have h₂ := hline name hname (by rw [hl]; exact Option.some_ne_none body)
      omega

/-- **One pass is enough** with a table whose values have been expanded: it gives what expanding
    with the values as they were written gives in the end. -/
theorem expand_eq_iterate {stored : Macros} {rank : Text → ℕ}
    (hdomain : ∀ name, raw.lookup name = none → stored.lookup name = none)
    (hstored : ∀ name body, raw.lookup name = some body →
      stored.lookup name = some (expandMacrosInLine py body stored))
    (hrank : ∀ name body, raw.lookup name = some body →
      ∀ used ∈ mentions py body, raw.lookup used ≠ none → rank used < rank name)
    (n : ℕ) {line : Text} (hline : ∀ used ∈ mentions py line, raw.lookup used ≠ none →
      rank used < n) :
    (expandMacrosInLine py · raw)^[n] line = expandMacrosInLine py line stored ∧
      expandMacrosInLine py (expandMacrosInLine py line stored) raw = expandMacrosInLine py line
        stored := by
  have hnone := mentions_iterate py hclosed hrank n hline
  have habsorbs : ∀ k, expandMacrosInLine py ((expandMacrosInLine py · raw)^[k] line) stored =
      expandMacrosInLine py line stored := by
    intro k
    induction k with
    | zero => rfl
    | succ k ih => rw [Function.iterate_succ_apply', expand_expand py hclosed hstored, ih]
  have hend : (expandMacrosInLine py · raw)^[n] line = expandMacrosInLine py line stored := by
    rw [← habsorbs n]
    exact (expand_fixed py fun used hused => hdomain used (hnone used hused)).symm
  refine ⟨hend, ?_⟩
  rw [← hend]
  exact expand_fixed py hnone

end

end

end PocketDarwin.PatchDtc.Preprocessor
