/-
  `_strip_comments` and the tokens of a text.

  A comment separates tokens as white space does.  A line comment is stripped up
  to the end of its line, but of a block comment nothing is left, so that the
  tokens around it run together where the second can continue the first.  What
  can continue a token depends on the language; it is a parameter here.

  * `lex_stripComments`: the stripped text is read as if its block comments were
    not there, and no comment or string starts in it that was none before.
  * `strip_keeps_tokens_iff`: the tokens are the same exactly where no block comment
    stands between a token and a character that continues it; the string literals
    always are.
-/
import PocketDarwin.PatchDtc.Preprocessor

namespace PocketDarwin.PatchDtc.Preprocessor

/-- A token: a string literal with its quotes, or any other. -/
inductive Token where
  | word (text : Text)
  | literal (text : Text)
deriving DecidableEq, Repr

def Token.isLiteral : Token → Bool
  | .literal _ => true
  | .word _ => false

/-- The token that has been read so far, if there is one, in front of others. -/
def flush (cur : Text) (ts : List Token) : List Token := if cur = [] then ts else .word cur :: ts

section
-- whether a character continues the token that has been read so far
variable (continues : Text → Char → Bool)

/-- The tokens of a text, the first of which has been read up to `cur`.  A block comment ends
    a token, unless the tokens around it are `joined`. -/
def lex (joined : Bool) (cur : Text) : Text → List Token
  | [] => flush cur []
  | '/' :: '/' :: cs => flush cur (lex joined [] (toNewline cs))
  | '/' :: '*' :: cs =>
    if joined then lex joined cur (pastBlockEnd cs) else flush cur (lex joined [] (pastBlockEnd cs))
  | '"' :: cs => flush cur (.literal ('"' :: slice cs (readString cs)) :: lex joined []
    (readString cs))
  | c :: cs =>
    if isSpace c then flush cur (lex joined [] cs)
    else if cur ≠ [] ∧ continues cur c then lex joined (cur ++ [c]) cs
    else flush cur (lex joined [c] cs)
termination_by cs => cs.length
decreasing_by
  · have := (toNewline_suffix cs).length_le; simp only [List.length_cons]; omega
  · have := (pastBlockEnd_suffix cs).length_le; simp only [List.length_cons]; omega
  · have := (pastBlockEnd_suffix cs).length_le; simp only [List.length_cons]; omega
  · have := (readString_suffix cs).length_le; simp only [List.length_cons]; omega
  · simp
  · simp
  · simp

/-- The tokens of a text, a comment being white space. -/
def tokens (text : Text) : List Token := lex continues false [] text

/-- Behind block comments, the next character continues the token `cur`. -/
def resumes (cur : Text) : Text → Bool
  | [] => false
  | '/' :: '/' :: _ => false
  | '/' :: '*' :: cs => resumes cur (pastBlockEnd cs)
  | '"' :: _ => false
  | c :: _ => !isSpace c && continues cur c
termination_by cs => cs.length
decreasing_by
  have := (pastBlockEnd_suffix cs).length_le; simp only [List.length_cons]; omega

/-- No block comment stands between a token and a character that continues it. -/
def staysApart (cur : Text) : Text → Bool
  | [] => true
  | '/' :: '/' :: cs => staysApart [] (toNewline cs)
  | '/' :: '*' :: cs =>
    (cur.isEmpty || !resumes continues cur (pastBlockEnd cs)) && staysApart [] (pastBlockEnd cs)
  | '"' :: cs => staysApart [] (readString cs)
  | c :: cs =>
    if isSpace c then staysApart [] cs
    else if cur ≠ [] ∧ continues cur c then staysApart (cur ++ [c]) cs
    else staysApart [c] cs
termination_by cs => cs.length
decreasing_by
  · have := (toNewline_suffix cs).length_le; simp only [List.length_cons]; omega
  · have := (pastBlockEnd_suffix cs).length_le; simp only [List.length_cons]; omega
  · have := (readString_suffix cs).length_le; simp only [List.length_cons]; omega
  · simp
  · simp
  · simp

end

/-! ## Characters -/

/-- A character that starts neither a comment nor a string. -/
structure IsPlain (c : Char) (cs : Text) : Prop where
  quote : c ≠ '"'
  line : c = '/' → cs.head? ≠ some '/'
  block : c = '/' → cs.head? ≠ some '*'

section
variable {continues : Text → Char → Bool} {c : Char} {cs : Text}

theorem IsPlain.of_cases (h₁ : ∀ r, c = '/' → cs = '/' :: r → False)
    (h₂ : ∀ r, c = '/' → cs = '*' :: r → False)
    (h₃ : c = '"' → False) : IsPlain c cs := by
  refine ⟨h₃, fun hc hhead => ?_, fun hc hhead => ?_⟩
  · obtain ⟨r, rfl⟩ := List.head?_eq_some_iff.1 hhead
    exact h₁ r hc rfl
  · obtain ⟨r, rfl⟩ := List.head?_eq_some_iff.1 hhead
    exact h₂ r hc rfl

theorem lex_plain (h : IsPlain c cs) (joined : Bool) (cur : Text) :
    lex continues joined cur (c :: cs) =
      if isSpace c then flush cur (lex continues joined [] cs)
      else if cur ≠ [] ∧ continues cur c then lex continues joined (cur ++ [c]) cs
      else flush cur (lex continues joined [c] cs) := by
  obtain ⟨h₁, h₂, h₃⟩ := h
  rw [lex.eq_def]
  split
  · rename_i heq; cases heq
  · rename_i heq; cases heq; exact absurd rfl (h₂ rfl)
  · rename_i heq; cases heq; exact absurd rfl (h₃ rfl)
  · rename_i heq; cases heq; exact absurd rfl h₁
  · rename_i heq; cases heq; rfl

/-- Stripping does not change what a text starts with, unless it may be a comment. -/
theorem head?_stripComments (h : cs.head? ≠ some '/') : (stripComments cs).head? = cs.head? := by
  rw [stripComments.eq_def]
  split
  · rfl
  · exact absurd rfl h
  · exact absurd rfl h
  · rfl
  · rfl

/-- No comment starts in the stripped text where none started before. -/
theorem IsPlain.stripComments (h : IsPlain c cs) : IsPlain c (stripComments cs) := by
  refine ⟨h.quote, fun hc => ?_, fun hc => ?_⟩
  · rw [head?_stripComments (h.line hc)]
    exact h.line hc
  · rw [head?_stripComments (h.line hc)]
    exact h.block hc

end

theorem readString_char {c : Char} (h₁ : c ≠ '\\') (h₂ : c ≠ '"') (cs : Text) :
    readString (c :: cs) = readString cs := by
  rw [readString.eq_def]
  split
  · rename_i heq; cases heq
  · rename_i heq; cases heq; exact absurd rfl h₁
  · rename_i heq; cases heq; exact absurd rfl h₁
  · rename_i heq; cases heq; exact absurd rfl h₂
  · rename_i heq; cases heq; rfl

theorem ne_backslash {c : Char} {cs : Text} (h₁ : ∀ x r, c = '\\' → cs = x :: r → False)
    (h₂ : c = '\\' → cs = [] → False) : c ≠ '\\' := by
  intro hc
  cases cs with
  | nil => exact h₂ hc rfl
  | cons x r => exact h₁ x r hc rfl

/-- What ends a string ends it whatever follows. -/
theorem readString_slice (cs : Text) :
    readString cs = [] ∨ ∀ r, readString (slice cs (readString cs) ++ r) = r := by
  fun_induction readString cs with
  | case1 => exact .inl rfl
  | case2 x cs ih =>
    refine ih.imp_right fun h r => ?_
    rw [show '\\' :: x :: cs = ['\\', x] ++ cs from rfl, append_slice (readString_suffix cs)]
    exact h r
  | case3 => exact .inl rfl
  | case4 cs =>
    refine .inr fun r => ?_
    rw [show '"' :: cs = ['"'] ++ cs from rfl, slice_append]
    rfl
  | case5 c cs h₁ h₂ h₃ ih =>
    refine ih.imp_right fun h r => ?_
    rw [show c :: cs = [c] ++ cs from rfl, append_slice (readString_suffix cs), List.append_assoc,
      List.singleton_append, readString_char (ne_backslash h₁ h₂) h₃]
    exact h r

/-- A string ends in the stripped text where it ended before. -/
theorem readString_stripComments (cs : Text) :
    readString (slice cs (readString cs) ++ stripComments (readString cs)) =
      stripComments (readString cs) := by
  rcases readString_slice cs with h | h
  · rw [h, slice_nil]
    simpa [stripComments] using h
  · exact h _

section
variable (continues : Text → Char → Bool)

theorem flush_nil (ts : List Token) : flush [] ts = ts := rfl

theorem lex_nil (joined : Bool) (cur : Text) : lex continues joined cur [] = flush cur [] :=
  lex.eq_def ..

theorem lex_line (joined : Bool) (cur cs : Text) :
    lex continues joined cur ('/' :: '/' :: cs) =
      flush cur (lex continues joined [] (toNewline cs)) :=
  lex.eq_def ..

theorem lex_block (joined : Bool) (cur cs : Text) :
    lex continues joined cur ('/' :: '*' :: cs) =
      if joined then lex continues joined cur (pastBlockEnd cs)
      else flush cur (lex continues joined [] (pastBlockEnd cs)) :=
  lex.eq_def ..

theorem lex_quote (joined : Bool) (cur cs : Text) :
    lex continues joined cur ('"' :: cs) =
      flush cur (.literal ('"' :: slice cs (readString cs)) ::
        lex continues joined [] (readString cs)) :=
  lex.eq_def ..

/-- A line comment ends a token also where it is stripped. -/
theorem lex_toNewline (joined : Bool) (cur cs : Text) :
    lex continues joined cur (toNewline cs) = flush cur (lex continues joined [] (toNewline cs)) := by
  rcases hn : toNewline cs with _ | ⟨c, r⟩
  · rw [lex_nil, lex_nil, flush_nil]
  · have hc : c = '\n' := by
      have := List.head?_dropWhile_not (· != '\n') cs
      rw [show cs.dropWhile (· != '\n') = c :: r from hn] at this
      simpa using this
    subst hc
    have hplain : IsPlain '\n' r :=
      ⟨by decide, fun h => absurd h (by decide), fun h => absurd h (by decide)⟩
    rw [lex_plain hplain, lex_plain hplain]
    rfl

/-- **The stripped text** is read as if its block comments were not there. -/
theorem lex_stripComments (joined : Bool) (cur cs : Text) :
    lex continues joined cur (stripComments cs) = lex continues true cur cs := by
  fun_induction stripComments cs generalizing cur with
  | case1 => rw [lex_nil, lex_nil]
  | case2 cs ih => rw [ih, lex_toNewline, lex_line]
  | case3 cs ih =>
    rw [ih, lex_block]
    rfl
  | case4 cs ih => rw [lex_quote, lex_quote, readString_stripComments, slice_append, ih]
  | case5 c cs h₁ h₂ h₃ ih =>
    have hplain := IsPlain.of_cases h₁ h₂ h₃
    rw [lex_plain hplain.stripComments, lex_plain hplain, ih, ih, ih]

/-! ## Tokens around a block comment -/

theorem flush_inj {cur : Text} {ts ts' : List Token} : flush cur ts = flush cur ts' ↔ ts = ts' := by
  unfold flush
  split_ifs
  · exact Iff.rfl
  · rw [List.cons.injEq, and_iff_right rfl]

/-- A token that is not resumed behind a comment ends there. -/
theorem lex_of_not_resumes (cur r : Text) (h : resumes continues cur r = false) :
    lex continues true cur r = flush cur (lex continues true [] r) := by
  fun_induction resumes continues cur r with
  | case1 => rw [lex_nil, lex_nil, flush_nil]
  | case2 => rw [lex_line, lex_line, flush_nil]
  | case3 cs ih =>
    rw [lex_block, lex_block]
    exact ih h
  | case4 => rw [lex_quote, lex_quote, flush_nil]
  | case5 c cs h₁ h₂ h₃ =>
    have hplain := IsPlain.of_cases h₁ h₂ h₃
    rw [lex_plain hplain, lex_plain hplain]
    by_cases hc : isSpace c
    · rw [if_pos hc, if_pos hc]
      rfl
    · have hcont : ¬ continues cur c := by
        intro hcont
        rw [hcont] at h
        simp [hc] at h
      rw [if_neg hc, if_neg hc, if_neg fun h' => hcont h'.2, if_neg fun h' => h'.1 rfl]
      rfl

/-- A token that has been started is read on. -/
theorem lex_cons (cur cs : Text) (hcur : cur ≠ []) :
    ∃ t ts, lex continues true cur cs = .word t :: ts ∧ cur.length ≤ t.length := by
  have hflush : ∀ {cur : Text}, cur ≠ [] → ∀ ts,
      ∃ t ts', flush cur ts = .word t :: ts' ∧ cur.length ≤ t.length :=
    fun {cur} hcur ts => ⟨cur, ts, if_neg hcur, Nat.le_refl _⟩
  fun_induction stripComments cs generalizing cur with
  | case1 =>
    rw [lex_nil]
    exact hflush hcur _
  | case2 cs ih =>
    rw [lex_line]
    exact hflush hcur _
  | case3 cs ih =>
    rw [lex_block]
    exact ih cur hcur
  | case4 cs ih =>
    rw [lex_quote]
    exact hflush hcur _
  | case5 c cs h₁ h₂ h₃ ih =>
    rw [lex_plain (IsPlain.of_cases h₁ h₂ h₃)]
    split_ifs
    · exact hflush hcur _
    · obtain ⟨t, ts, heq, hle⟩ := ih (cur ++ [c]) (by simp)
      refine ⟨t, ts, heq, ?_⟩
      simp only [List.length_append] at hle
      omega
    · exact hflush hcur _

/-- A token that is resumed behind a comment is longer than the one in front of it. -/
theorem lex_of_resumes (cur r : Text) (hcur : cur ≠ []) (h : resumes continues cur r = true) :
    ∃ t ts, lex continues true cur r = .word t :: ts ∧ cur.length < t.length := by
  fun_induction resumes continues cur r with
  | case1 => cases h
  | case2 => cases h
  | case3 cs ih =>
    rw [lex_block]
    exact ih h
  | case4 => cases h
  | case5 c cs h₁ h₂ h₃ =>
    simp only [Bool.and_eq_true, Bool.not_eq_true'] at h
    rw [lex_plain (IsPlain.of_cases h₁ h₂ h₃), if_neg (by rw [h.1]; exact Bool.false_ne_true),
      if_pos ⟨hcur, h.2⟩]
    obtain ⟨t, ts, heq, hle⟩ := lex_cons continues (cur ++ [c]) cs (by simp)
    refine ⟨t, ts, heq, ?_⟩
    simp only [List.length_append, List.length_singleton] at hle
    omega

/-- The block comments of a text can be taken out exactly where the tokens stay apart. -/
theorem lex_joined_iff (cur cs : Text) :
    lex continues true cur cs = lex continues false cur cs ↔ staysApart continues cur cs := by
  fun_induction staysApart continues cur cs with
  | case1 => simp only [lex_nil]
  | case2 cur cs ih => rw [lex_line, lex_line, flush_inj, ih]
  | case3 cur cs ih =>
    rw [lex_block, lex_block, if_pos rfl, if_neg Bool.false_ne_true, Bool.and_eq_true, ← ih]
    by_cases hcur : cur = []
    · subst hcur
      simp [flush_nil]
    · cases hres : resumes continues cur (pastBlockEnd cs) with
      | false =>
        rw [lex_of_not_resumes continues cur _ hres, flush_inj]
        simp
      | true =>
        obtain ⟨t, ts, heq, hlt⟩ := lex_of_resumes continues cur _ hcur hres
        rw [heq, flush, if_neg hcur]
        constructor
        · intro h
          cases h
          omega
        · intro h
          simp [hcur] at h
  | case4 cur cs ih =>
    rw [lex_quote, lex_quote, flush_inj, List.cons.injEq, and_iff_right rfl, ih]
  | case5 cur c cs h₁ h₂ h₃ hc ih =>
    have hplain := IsPlain.of_cases h₁ h₂ h₃
    rw [lex_plain hplain, lex_plain hplain, if_pos hc, if_pos hc, flush_inj, ih]
  | case6 cur c cs h₁ h₂ h₃ hc hcont ih =>
    have hplain := IsPlain.of_cases h₁ h₂ h₃
    rw [lex_plain hplain, lex_plain hplain, if_neg hc, if_neg hc, if_pos hcont, if_pos hcont, ih]
  | case7 cur c cs h₁ h₂ h₃ hc hcont ih =>
    have hplain := IsPlain.of_cases h₁ h₂ h₃
    rw [lex_plain hplain, lex_plain hplain, if_neg hc, if_neg hc, if_neg hcont, if_neg hcont,
      flush_inj, ih]

/-! ## String literals -/

/-- The string literals of a text. -/
def literals (text : Text) : List Token := (tokens continues text).filter Token.isLiteral

theorem filter_flush (cur : Text) (ts : List Token) :
    (flush cur ts).filter Token.isLiteral = ts.filter Token.isLiteral := by
  unfold flush
  split_ifs <;> rfl

/-- The literals do not depend on what becomes of the other tokens. -/
theorem lex_literals (cur cur' cs : Text) :
    (lex continues true cur cs).filter Token.isLiteral = (lex continues false cur' cs).filter
      Token.isLiteral := by
  fun_induction stripComments cs generalizing cur cur' with
  | case1 => rw [lex_nil, lex_nil, filter_flush, filter_flush]
  | case2 cs ih => rw [lex_line, lex_line, filter_flush, filter_flush, ih]
  | case3 cs ih =>
    rw [lex_block, lex_block, if_pos rfl, if_neg Bool.false_ne_true, filter_flush]
    exact ih cur []
  | case4 cs ih =>
    rw [lex_quote, lex_quote, filter_flush, filter_flush, List.filter_cons, List.filter_cons, ih]
  | case5 c cs h₁ h₂ h₃ ih =>
    have hone : ∀ (joined : Bool) (cur : Text), ∃ next, (lex continues joined cur (c :: cs)).filter
        Token.isLiteral =
        (lex continues joined next cs).filter Token.isLiteral := by
      intro joined cur
      rw [lex_plain (IsPlain.of_cases h₁ h₂ h₃)]
      split_ifs
      · exact ⟨[], filter_flush _ _⟩
      · exact ⟨cur ++ [c], rfl⟩
      · exact ⟨[c], filter_flush _ _⟩
    obtain ⟨next, hnext⟩ := hone true cur
    obtain ⟨next', hnext'⟩ := hone false cur'
    rw [hnext, hnext', ih]

/-- **Comment stripping keeps the string literals, and the tokens** exactly where no block
    comment stands between a token and a character that continues it. -/
theorem strip_keeps_tokens_iff (text : Text) :
    literals continues (stripComments text) = literals continues text ∧
      (tokens continues (stripComments text) = tokens continues text ↔ staysApart continues [] text) := by
  rw [literals, literals, tokens, tokens, lex_stripComments]
  exact ⟨lex_literals continues [] [] text, lex_joined_iff continues [] text⟩

end

/-- Identifiers and numbers are continued by letters, digits and `_`. -/
def wordContinues (cur : Text) (c : Char) : Bool := cur.all isIdentChar && isIdentChar c

/-- Two cells become one. -/
theorem strip_merges_cells : tokens wordContinues (stripComments "<1/* a */2>".toList) ≠
    tokens wordContinues "<1/* a */2>".toList := by
  decide +kernel

end PocketDarwin.PatchDtc.Preprocessor
