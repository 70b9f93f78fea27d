/-
  What the readers of the scanner do on the texts of the grammar.

  `Neutral o c w` says that the bracket reader for `o` and `c` passes over `w`
  at any depth, and `Passed w` that `_read_until_semicolon` does.  Both are
  closed under append, so that they are proved token by token: for characters,
  comments, strings, arrays, and from these for values and whole bodies.  A
  body is neutral for braces, which is why a fixup subtree is read up to its
  own closing brace (`fixupEnd_body`).
-/
import PocketDarwin.PatchDtc.Grammar

namespace PocketDarwin.PatchDtc

/-- Two characters differ when a class tells them apart. -/
theorem ne_of_class {p : Char → Bool} {c x : Char} (h : p c) (hx : p x = false) : c ≠ x := by
  rintro rfl
  simp [h] at hx

/-! ## Trivia -/

theorem toNewline_line {body : Text} (h : '\n' ∉ body) (r : Text) :
    toNewline (body ++ '\n' :: r) = '\n' :: r := by
  refine dropWhile_run (fun c hc => ?_) (by simp)
  simpa using fun he : c = '\n' => h (he ▸ hc)

theorem pastBlockEnd_block {body : Text} (h : ¬ ['*', '/'] <:+: body) (r : Text) :
    pastBlockEnd (body ++ '*' :: '/' :: r) = r := by
  induction body with
  | nil => simp [pastBlockEnd]
  | cons c body ih =>
    have hb : ¬ ['*', '/'] <:+: body := fun hi => h (hi.trans (List.suffix_cons c body).isInfix)
    have hc : ∀ cs, c :: (body ++ '*' :: '/' :: r) ≠ '*' :: '/' :: cs := by
      intro cs he
      obtain ⟨rfl, he'⟩ := List.cons.inj he
      cases body with
      | nil => simp at he'
      | cons c' body =>
        obtain ⟨rfl, -⟩ := List.cons.inj he'
        exact h ⟨[], body, rfl⟩
    rw [List.cons_append, pastBlockEnd, ih hb]
    simpa using hc

theorem skipTrivia_blank {c : Char} (h : isBlank c) (r : Text) : skipTrivia (c :: r) = skipTrivia r := by
  have h₁ : c ≠ '/' := ne_of_class h (by decide)
  rw [skipTrivia, if_pos h] <;> simp [h₁]

theorem skipTrivia_comment (c : Comment) (r : Text) : skipTrivia (c.text ++ r) = skipTrivia r := by
  cases c with
  | block body h =>
    simp only [Comment.text, List.cons_append, List.append_assoc, List.nil_append]
    rw [skipTrivia, pastBlockEnd_block h]
  | line body h =>
    simp only [Comment.text, List.cons_append, List.append_assoc, List.nil_append]
    rw [skipTrivia, toNewline_line h, skipTrivia_blank (by decide)]

/-- **A gap is skipped.** -/
theorem skipTrivia_gap (g : Gap) (r : Text) : skipTrivia (g.text ++ r) = skipTrivia r := by
  induction g with
  | nil => simp [Gap.text]
  | cons t g ih =>
    simp only [Gap.text, List.flatMap_cons, List.append_assoc] at ih ⊢
    cases t with
    | blank c h => simpa [Triv.text, skipTrivia_blank h] using ih
    | comment c => rw [Triv.text, skipTrivia_comment, ih]

/-- A character that starts no trivia. -/
def isFirm (c : Char) : Bool := !isBlank c && c != '/'

theorem skipTrivia_firm {c : Char} (h : isFirm c) (r : Text) : skipTrivia (c :: r) = c :: r := by
  simp only [isFirm, Bool.and_eq_true, Bool.not_eq_true', bne_iff_ne] at h
  rw [skipTrivia, if_neg (by simp [h.1])] <;> simp [h.2]

/-! ## Passing over a text -/

/-- The reader `f` passes over `w`. -/
def Passes (f : Text → Text) (w : Text) : Prop := ∀ r, f (w ++ r) = f r

namespace Passes
variable {f : Text → Text} {w w₁ w₂ : Text}

theorem nil : Passes f [] := fun _ => rfl

theorem append (h₁ : Passes f w₁) (h₂ : Passes f w₂) : Passes f (w₁ ++ w₂) := by
  intro r
  rw [List.append_assoc, h₁, h₂]

theorem cons {x : Char} (h₁ : Passes f [x]) (h₂ : Passes f w) : Passes f (x :: w) :=
  h₁.append h₂

theorem flatMap {α : Type} {g : α → Text} {l : List α} (h : ∀ a ∈ l, Passes f (g a)) :
    Passes f (l.flatMap g) := by
  induction l with
  | nil => exact nil
  | cons a l ih =>
    rw [List.flatMap_cons]
    exact (h a (by simp)).append (ih fun b hb => h b (by simp [hb]))

end Passes

/-- A reader that skips comments and strings, and passes over the characters of
    `flat`. -/
structure Skips (f : Text → Text) (flat : Char → Bool) : Prop where
  line : ∀ cs, f ('/' :: '/' :: cs) = f (toNewline cs)
  block : ∀ cs, f ('/' :: '*' :: cs) = f (pastBlockEnd cs)
  quote : ∀ cs, f ('"' :: cs) = f (readString cs)
  slash : ∀ x cs, x ≠ '/' → x ≠ '*' → f ('/' :: x :: cs) = f (x :: cs)
  char : ∀ x cs, flat x → f (x :: cs) = f cs

theorem readString_chars (s : List StringChar) (r : Text) :
    readString (s.flatMap StringChar.text ++ '"' :: r) = r := by
  induction s with
  | nil => simp [readString]
  | cons x s ih =>
    rw [List.flatMap_cons, List.append_assoc]
    cases x with
    | char c h =>
      simp only [StringChar.text, List.singleton_append]
      rw [readString, ih] <;> simp [h.1, h.2]
    | escape c => simpa [StringChar.text, readString] using ih

/-- A slash in front of `w` starts no comment. -/
def NoComment (w : Text) : Prop := ∃ x w', w = x :: w' ∧ x ≠ '/' ∧ x ≠ '*'

namespace Skips
variable {f : Text → Text} {flat : Char → Bool}

theorem char_passes (hf : Skips f flat) {x : Char} (h : flat x) : Passes f [x] :=
  fun r => hf.char x r h

theorem run_passes (hf : Skips f flat) {w : Text} (h : ∀ x ∈ w, flat x) : Passes f w := by
  induction w with
  | nil => exact .nil
  | cons x w ih => exact (hf.char_passes (h x (by simp))).cons (ih fun y hy => h y (by simp [hy]))

/-- A slash is passed over when no comment starts there. -/
theorem slash_passes (hf : Skips f flat) {w : Text} (hw : NoComment w) (h : Passes f w) :
    Passes f ('/' :: w) := by
  obtain ⟨x, w, rfl, h₁, h₂⟩ := hw
  intro r
  rw [List.cons_append, List.cons_append, hf.slash x _ h₁ h₂]
  exact h r

theorem comment_passes (hf : Skips f flat) (hn : flat '\n') (c : Comment) : Passes f c.text := by
  intro r
  cases c with
  | block body h =>
    simp only [Comment.text, List.cons_append, List.append_assoc, List.nil_append]
    rw [hf.block, pastBlockEnd_block h]
  | line body h =>
    simp only [Comment.text, List.cons_append, List.append_assoc, List.nil_append]
    rw [hf.line, toNewline_line h, hf.char _ _ hn]

theorem string_passes (hf : Skips f flat) (s : List StringChar) :
    Passes f ('"' :: (s.flatMap StringChar.text ++ ['"'])) := by
  intro r
  rw [List.cons_append, hf.quote, List.append_assoc, List.singleton_append, readString_chars]

theorem gap_passes (hf : Skips f flat) (hb : ∀ x, isBlank x → flat x) (g : Gap) :
    Passes f g.text := by
  refine .flatMap fun t _ => ?_
  cases t with
  | blank c h => exact hf.char_passes (hb c h)
  | comment c => exact hf.comment_passes (hb _ (by decide)) c

section
variable {p : Char → Bool} (hp : ∀ x, p x → x ≠ '/' → flat x)
include hp

theorem glyph_passes (hf : Skips f flat) (g : Glyph p) : Passes f g.text := by
  cases g with
  | char c h => exact hf.char_passes (hp c h.1 h.2)
  | slash c h => exact hf.slash_passes ⟨c, [], rfl, h.2⟩ (hf.char_passes (hp c h.1 h.2.1))

theorem inner_passes (hf : Skips f flat) (hn : flat '\n')
    (hpath : ∀ gs : List (Glyph isInert), Passes f (Inner.text (p := p) (.path gs))) (i : Inner p) :
    Passes f i.text := by
  cases i with
  | glyph g => exact hf.glyph_passes hp g
  | comment c => exact hf.comment_passes hn c
  | path gs => exact hpath gs

end

end Skips

/-! ## The bracket reader -/

/-- A character that the bracket reader for `o` and `c` passes over. -/
def isFlat (o c x : Char) : Bool := x != '/' && x != '"' && x != o && x != c

theorem balanced_skips {o c : Char} (ho : o ≠ '/') (hc : c ≠ '/') (d : ℕ) :
    Skips (readBalanced o c (d + 1)) (isFlat o c) where
  line cs := by rw [readBalanced]
  block cs := by rw [readBalanced]
  quote cs := by rw [readBalanced]
  slash x cs h₁ h₂ := by
    rw [readBalanced, if_neg ho.symm, if_neg hc.symm] <;> simp [h₁, h₂]
  char x cs h := by
    simp only [isFlat, Bool.and_eq_true, bne_iff_ne] at h
    rw [readBalanced, if_neg h.1.2, if_neg h.2] <;> simp [h.1.1]

/-- The bracket reader passes over `w`, at any depth. -/
def Neutral (o c : Char) (w : Text) : Prop := ∀ d, Passes (readBalanced o c (d + 1)) w

/-- Behind its opening bracket, a neutral text is read up to the closing one. -/
theorem Neutral.close {o c : Char} {w : Text} (h : Neutral o c w) (hne : c ≠ o) (hc : c ≠ '/')
    (hq : c ≠ '"') (d : ℕ) (r : Text) :
    readBalanced o c (d + 1) (w ++ c :: r) = readBalanced o c d r := by
  rw [h d, readBalanced, if_neg hne, if_pos rfl] <;> simp [hc, hq]

theorem Neutral.inside {o c : Char} {w : Text} (h : Neutral o c w) (hne : c ≠ o) (hc : c ≠ '/')
    (hq : c ≠ '"') (r : Text) : readBalanced o c 1 (w ++ c :: r) = r := by
  rw [h.close hne hc hq 0 r, readBalanced]

/-- A block in brackets is neutral if its contents are. -/
theorem Neutral.block {o c : Char} {w : Text} (h : Neutral o c w) (hne : c ≠ o) (hc : c ≠ '/')
    (hq : c ≠ '"') (ho : o ≠ '/') (hoq : o ≠ '"') : Neutral o c (o :: (w ++ [c])) := by
  intro d r
  rw [List.cons_append, readBalanced, if_pos rfl, List.append_assoc, List.singleton_append,
    h.close hne hc hq] <;> simp [ho, hoq]

theorem inert_flat {o c : Char} (h : isInert o = false) (h' : isInert c = false) (x : Char)
    (hx : isInert x) (hs : x ≠ '/') : isFlat o c x := by
  have hq : x ≠ '"' := ne_of_class hx (by decide)
  simp [isFlat, hs, hq, ne_of_class hx h, ne_of_class hx h']

theorem braces_glyphs (gs : List (Glyph isInert)) : Neutral '{' '}' (gs.flatMap Glyph.text) :=
  fun d => .flatMap fun g _ => (balanced_skips (by decide) (by decide) d).glyph_passes
    (inert_flat (by decide) (by decide)) g

theorem braces_path {p : Char → Bool} (gs : List (Glyph isInert)) :
    Neutral '{' '}' (Inner.text (p := p) (.path gs)) := by
  intro d
  exact ((balanced_skips (by decide) (by decide) d).char_passes (by decide)).cons
    ((braces_glyphs gs).block (by decide) (by decide) (by decide) (by decide) (by decide) d)

/-- A path is flat for the other two kinds of brackets. -/
theorem flat_path {o c : Char} (ho : isInert o = false) (hc : isInert c = false) (ho' : o ≠ '/')
    (hc' : c ≠ '/') (hf : isFlat o c '&') (hf₁ : isFlat o c '{') (hf₂ : isFlat o c '}')
    {p : Char → Bool} (gs : List (Glyph isInert)) : Neutral o c (Inner.text (p := p) (.path gs)) := by
  intro d
  have hs := balanced_skips ho' hc' d
  refine (hs.char_passes hf).cons ((hs.char_passes hf₁).cons (.append ?_ (hs.char_passes hf₂)))
  exact .flatMap fun g _ => hs.glyph_passes (inert_flat ho hc) g

theorem cellChar_flat (x : Char) (hx : isCellChar x) (hs : x ≠ '/') : isFlat '<' '>' x := by
  have hq : x ≠ '"' := ne_of_class hx (by decide)
  have h₁ : x ≠ '<' := ne_of_class hx (by decide)
  have h₂ : x ≠ '>' := ne_of_class hx (by decide)
  simp [isFlat, hs, hq, h₁, h₂]

theorem cells_neutral (is : List (Inner isCellChar)) : Neutral '<' '>' (is.flatMap Inner.text) :=
  fun d => .flatMap fun i _ => (balanced_skips (by decide) (by decide) d).inner_passes cellChar_flat
    (by decide) (fun gs => flat_path (by decide) (by decide) (by decide) (by decide) (by decide)
      (by decide) (by decide) gs d) i

theorem bytes_neutral (is : List (Inner isInert)) : Neutral '[' ']' (is.flatMap Inner.text) :=
  fun d => .flatMap fun i _ => (balanced_skips (by decide) (by decide) d).inner_passes
    (inert_flat (by decide) (by decide)) (by decide)
    (fun gs => flat_path (by decide) (by decide) (by decide) (by decide) (by decide)
      (by decide) (by decide) gs d) i

/-! ## Values -/

/-- The reader that looks for a `;` passes over inert characters. -/
theorem semicolon_skips : Skips readUntilSemicolon (fun x => isValueChar x && x != '/') where
  line cs := by rw [readUntilSemicolon]
  block cs := by rw [readUntilSemicolon]
  quote cs := by rw [readUntilSemicolon]
  slash x cs h₁ h₂ := by rw [readUntilSemicolon] <;> simp [h₁, h₂]
  char x cs h := by
    simp only [isValueChar, isInert, Bool.and_eq_true, bne_iff_ne] at h
    obtain ⟨⟨⟨⟨⟨⟨⟨⟨h₁, h₂⟩, h₃⟩, h₄⟩, h₅⟩, h₆⟩, h₇⟩, h₈⟩, h₉⟩ := h
    rw [readUntilSemicolon] <;> simp [*]

theorem lexeme_passes (l : Lexeme) : Passes readUntilSemicolon l.text := by
  have hs := semicolon_skips
  cases l with
  | inner i =>
    refine hs.inner_passes (fun x hx hn => by simp [hx, hn]) (by decide) (fun gs r => ?_) i
    simp only [Inner.text, List.cons_append, List.append_assoc, List.nil_append]
    rw [hs.char _ _ (by decide), readUntilSemicolon,
      (braces_glyphs gs).inside (by decide) (by decide) (by decide)]
  | string s => exact hs.string_passes s
  | cells is =>
    intro r
    simp only [Lexeme.text, List.cons_append, List.append_assoc, List.nil_append]
    rw [readUntilSemicolon, (cells_neutral is).inside (by decide) (by decide) (by decide)]
  | bytes is =>
    intro r
    simp only [Lexeme.text, List.cons_append, List.append_assoc, List.nil_append]
    rw [readUntilSemicolon, (bytes_neutral is).inside (by decide) (by decide) (by decide)]

theorem value_passes (v : Value) : Passes readUntilSemicolon v.text :=
  .flatMap fun l _ => lexeme_passes l

/-- **A value is read up to its own `;`.** -/
theorem readUntilSemicolon_value (v : Value) (r : Text) :
    readUntilSemicolon (v.text ++ ';' :: r) = r := by
  rw [value_passes v, readUntilSemicolon]

/-! ## Bodies -/

/-- The brace reader, at any depth. -/
theorem braces_skip (d : ℕ) : Skips (readBalanced '{' '}' (d + 1)) (isFlat '{' '}') :=
  balanced_skips (by decide) (by decide) d

theorem blank_flat (x : Char) (hx : isBlank x) : isFlat '{' '}' x := by
  have h₁ : x ≠ '/' := ne_of_class hx (by decide)
  have h₂ : x ≠ '"' := ne_of_class hx (by decide)
  have h₃ : x ≠ '{' := ne_of_class hx (by decide)
  have h₄ : x ≠ '}' := ne_of_class hx (by decide)
  simp [isFlat, h₁, h₂, h₃, h₄]

theorem braces_lexeme (l : Lexeme) : Neutral '{' '}' l.text := by
  intro d
  have hs := braces_skip d
  have hn : isFlat '{' '}' '\n' := by decide
  cases l with
  | inner i =>
    refine hs.inner_passes (fun x hx hn => ?_) hn (fun gs => braces_path gs d) i
    exact inert_flat (by decide) (by decide) x (by simp [isValueChar] at hx; exact hx.1) hn
  | string s => exact hs.string_passes s
  | cells is =>
    refine (hs.char_passes (by decide)).cons
      (.append (.flatMap fun i _ => ?_) (hs.char_passes (by decide)))
    refine hs.inner_passes (fun x hx hn => ?_) hn (fun gs => braces_path gs d) i
    have h₁ : x ≠ '"' := ne_of_class hx (by decide)
    have h₂ : x ≠ '{' := ne_of_class hx (by decide)
    have h₃ : x ≠ '}' := ne_of_class hx (by decide)
    simp [isFlat, hn, h₁, h₂, h₃]
  | bytes is =>
    refine (hs.char_passes (by decide)).cons
      (.append (.flatMap fun i _ => ?_) (hs.char_passes (by decide)))
    exact hs.inner_passes (inert_flat (by decide) (by decide)) hn (fun gs => braces_path gs d) i

theorem braces_value (v : Value) : Neutral '{' '}' v.text :=
  fun d => .flatMap fun l _ => braces_lexeme l d

theorem declChar_flat (x : Char) (hx : isDeclChar x) : isFlat '{' '}' x := by
  have h₁ : x ≠ '/' := ne_of_class hx (by decide)
  have h₂ : x ≠ '"' := ne_of_class hx (by decide)
  have h₃ : x ≠ '{' := ne_of_class hx (by decide)
  have h₄ : x ≠ '}' := ne_of_class hx (by decide)
  simp [isFlat, h₁, h₂, h₃, h₄]

theorem identChar_decl (x : Char) (hx : isIdentChar x) : isDeclChar x := by
  simp only [isIdentChar, Bool.or_eq_true, beq_iff_eq] at hx
  rcases hx with hx | rfl
  · simp [isDeclChar, hx]
  · decide

theorem identStart_char (x : Char) (hx : isIdentStart x) : isIdentChar x := by
  simp only [isIdentStart, Bool.or_eq_true, beq_iff_eq] at hx
  rcases hx with hx | rfl
  · simp [isIdentChar, Char.isAlphanum, hx]
  · decide

theorem directiveChar_decl (x : Char) (hx : isDirectiveChar x) : isDeclChar x := by
  simp only [isDirectiveChar, Bool.or_eq_true, beq_iff_eq] at hx
  rcases hx with (hx | rfl) | rfl
  · simp [isDeclChar, hx]
  · decide
  · decide

theorem Ident.decl (i : Ident) : ∀ x ∈ i.text, isDeclChar x := by
  intro x hx
  rcases List.mem_cons.1 hx with rfl | hx
  · exact identChar_decl _ (identStart_char _ i.isStart)
  · exact identChar_decl _ (i.isTail x hx)

theorem Directive.decl (d : Directive) : ∀ x ∈ d.name, isDeclChar x := by
  intro x hx
  rcases List.mem_cons.1 hx with rfl | hx
  · simp [isDeclChar, Char.isAlphanum, d.isHead]
  · exact directiveChar_decl _ (d.isTail x hx)

theorem Gap.noComment {g : Gap} (h : g.setOff) {r : Text} (hr : NoComment r) :
    NoComment (g.text ++ r) := by
  rcases g with _ | ⟨t | c, g⟩
  · exact hr
  · rename_i hb
    exact ⟨_, Gap.text g ++ r, rfl, ne_of_class hb (by decide), ne_of_class hb (by decide)⟩
  · simp [Gap.setOff, Gap.spaced] at h

theorem Value.noComment {v : Value} (h : v.setOff) : NoComment (v.text ++ [';']) := by
  unfold Value.setOff at h
  split at h
  · exact ⟨';', [], rfl, by decide, by decide⟩
  · rename_i c _ v
    exact ⟨c, Value.text v ++ [';'], rfl, ne_of_class h (by decide), ne_of_class h (by decide)⟩
  · simp at h

section
variable (d : ℕ)

theorem label_passes (l : Option Label) :
    Passes (readBalanced '{' '}' (d + 1)) (labelText l) := by
  have hs := braces_skip d
  cases l with
  | none => exact .nil
  | some l =>
    refine .append (.append ?_ (hs.gap_passes blank_flat _)) ?_
    · exact hs.run_passes fun x hx => declChar_flat x (l.name.decl x hx)
    · exact (hs.char_passes (by decide)).cons (hs.gap_passes blank_flat _)

theorem Name.passes (n : Name) : Passes (readBalanced '{' '}' (d + 1)) n.text :=
  (braces_skip d).run_passes fun x hx => declChar_flat x (n.chars x hx)

theorem directive_passes {dir : Directive} (h : dir.args.setOff) :
    Passes (readBalanced '{' '}' (d + 1)) dir.text := by
  have hs := braces_skip d
  have hhead : isDeclChar dir.head && dir.head != '*' := by
    have h₁ := dir.isHead
    have : dir.head ≠ '*' := by
      rintro he
      rw [he] at h₁
      exact absurd h₁ (by decide)
    simp [isDeclChar, Char.isAlphanum, h₁, this]
  refine hs.slash_passes ?_ (.append ?_ (hs.slash_passes (Value.noComment h) (.append ?_ ?_)))
  · simp only [Bool.and_eq_true, bne_iff_ne] at hhead
    exact ⟨dir.head, _, rfl, ne_of_class hhead.1 (by decide), hhead.2⟩
  · exact hs.run_passes fun x hx => declChar_flat x (dir.decl x hx)
  · exact braces_value dir.args d
  · exact hs.char_passes (by decide)

theorem property_passes (p : Property) : Passes (readBalanced '{' '}' (d + 1)) p.text := by
  have hs := braces_skip d
  refine .append (.append (p.name.passes d) (hs.gap_passes blank_flat _)) ?_
  cases p.value with
  | none => exact hs.char_passes (by decide)
  | some v =>
    exact (hs.char_passes (by decide)).cons (.append (braces_value v d) (hs.char_passes (by decide)))

theorem block_passes {b : Text} (h : Neutral '{' '}' b) (close : Gap) :
    Passes (readBalanced '{' '}' (d + 1)) ('{' :: (b ++ Body.blockEnd close)) := by
  have hs := braces_skip d
  have he : '{' :: (b ++ Body.blockEnd close) = '{' :: (b ++ ['}']) ++ (close.text ++ [';']) := by
    simp [Body.blockEnd]
  rw [he]
  refine .append (h.block (by decide) (by decide) (by decide) (by decide) (by decide) d) ?_
  exact .append (hs.gap_passes blank_flat _) (hs.char_passes (by decide))

end

/-- **A body is balanced**: the brace reader passes over it. -/
theorem body_neutral (b : Body) (h : b.quiet) : Neutral '{' '}' b.text := by
  induction b with
  | done tail => exact fun d => (braces_skip d).gap_passes blank_flat _
  | directive lead dir rest ih =>
    simp only [Body.quiet, Bool.and_eq_true] at h
    intro d
    exact .append (.append ((braces_skip d).gap_passes blank_flat _) (directive_passes d h.1))
      (ih h.2 d)
  | property lead label p rest ih =>
    intro d
    exact .append (.append (.append ((braces_skip d).gap_passes blank_flat _) (label_passes d label))
      (property_passes d p)) (ih h d)
  | node lead label name gap body close rest ih₁ ih₂ =>
    simp only [Body.quiet, Bool.and_eq_true] at h
    intro d
    have hg := (braces_skip d).gap_passes blank_flat
    exact .append (.append (.append (.append (hg _) (label_passes d label))
      (.append (name.passes d) (hg _))) (block_passes d (ih₁ h.1) close)) (ih₂ h.2 d)
  | reference lead target gap body close rest ih₁ ih₂ =>
    simp only [Body.quiet, Bool.and_eq_true] at h
    intro d
    have hs := braces_skip d
    have hg := hs.gap_passes blank_flat
    refine .append (.append (.append (hg _) ?_) (block_passes d (ih₁ h.1) close)) (ih₂ h.2 d)
    refine (hs.char_passes (by decide)).cons (.append ?_ (hg _))
    exact hs.run_passes fun x hx => declChar_flat x (target.decl x hx)
  | root lead gap body close rest ih₁ ih₂ =>
    simp only [Body.quiet, Bool.and_eq_true] at h
    intro d
    have hs := braces_skip d
    have hg := hs.gap_passes blank_flat
    have hblock := block_passes d (ih₁ h.1.2) close
    have hopen : Passes (readBalanced '{' '}' (d + 1))
        ('/' :: (gap.text ++ '{' :: (body.text ++ Body.blockEnd close))) :=
      hs.slash_passes (Gap.noComment h.1.1 ⟨'{', _, rfl, by decide, by decide⟩)
        (.append (hg _) hblock)
    rw [show (Body.root lead gap body close rest).text =
      lead.text ++ '/' :: (gap.text ++ '{' :: (body.text ++ Body.blockEnd close)) ++ rest.text by
        simp [Body.text]]
    exact .append (.append (hg _) hopen) (ih₂ h.2 d)

end PocketDarwin.PatchDtc
