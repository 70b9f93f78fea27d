/-
  The extent of a value whose cells are expressions.

  A cell of an array may be an integer expression in parentheses, and `<`, `>`, `<<` and
  `>>` are operators there.  `_read_until_semicolon` counts them as the brackets of cell
  arrays: `readFrom` is the reader with so many brackets open, and every token moves it by
  the angle brackets that it is spelled with (`Moves`).  So the `;` of a property ends it
  where the running count of angle brackets comes back to zero (`extent_iff`).
-/
import PocketDarwin.PatchDtc.Documents

namespace PocketDarwin.PatchDtc

/-! ## Integer expressions -/

/-- The characters of integers, and of character literals without quotes and brackets. -/
def isLiteralChar (c : Char) : Bool := c.isAlphanum || c == '_' || c == '\'' || c == '\\'

/-- An integer or character literal. -/
structure Literal where
  text : Text
  nonempty : text ≠ []
  chars : ∀ c ∈ text, isLiteralChar c

inductive UnaryOp where
  | neg
  | bitNot
  | not
deriving DecidableEq, Repr

inductive BinaryOp where
  | or
  | and
  | bitOr
  | bitXor
  | bitAnd
  | eq
  | ne
  | lt
  | gt
  | le
  | ge
  | shl
  | shr
  | add
  | sub
  | mul
  | div
  | mod
deriving DecidableEq, Repr

def UnaryOp.text : UnaryOp → Text
  | neg => ['-']
  | bitNot => ['~']
  | not => ['!']

def BinaryOp.text : BinaryOp → Text
  | or => ['|', '|']
  | and => ['&', '&']
  | bitOr => ['|']
  | bitXor => ['^']
  | bitAnd => ['&']
  | eq => ['=', '=']
  | ne => ['!', '=']
  | lt => ['<']
  | gt => ['>']
  | le => ['<', '=']
  | ge => ['>', '=']
  | shl => ['<', '<']
  | shr => ['>', '>']
  | add => ['+']
  | sub => ['-']
  | mul => ['*']
  | div => ['/']
  | mod => ['%']

/-- An integer expression, with its white space and comments.  No comment follows the sign of a
    division directly. -/
inductive Expr where
  | literal (l : Literal)
  | paren (before : Gap) (e : Expr) (after : Gap)
  | unary (op : UnaryOp) (gap : Gap) (e : Expr)
  | binary (e₁ : Expr) (before : Gap) (op : BinaryOp) (after : Gap) (e₂ : Expr)
    (h : op = .div → after.setOff)
  | conditional (c : Expr) (g₁ g₂ : Gap) (e₁ : Expr) (g₃ g₄ : Gap) (e₂ : Expr)

def Expr.text : Expr → Text
  | literal l => l.text
  | paren before e after => '(' :: (before.text ++ (e.text ++ (after.text ++ [')'])))
  | unary op gap e => op.text ++ (gap.text ++ e.text)
  | binary e₁ before op after e₂ _ =>
    e₁.text ++ (before.text ++ (op.text ++ (after.text ++ e₂.text)))
  | conditional c g₁ g₂ e₁ g₃ g₄ e₂ =>
    c.text ++ (g₁.text ++ '?' :: (g₂.text ++ (e₁.text ++ (g₃.text ++ ':' :: (g₄.text ++ e₂.text)))))

/-! ## Values -/

inductive Cell where
  | literal (l : Literal)
  /-- `&label` -/
  | label (i : Ident)
  /-- `&{path}` -/
  | path (gs : List (Glyph isInert))
  /-- `(e)` -/
  | paren (before : Gap) (e : Expr) (after : Gap)

/-- `&{path}` -/
def pathText (gs : List (Glyph isInert)) : Text := '&' :: '{' :: (gs.flatMap Glyph.text ++ ['}'])

def Cell.text : Cell → Text
  | literal l => l.text
  | label i => '&' :: i.text
  | path gs => pathText gs
  | paren before e after => (Expr.paren before e after).text

/-- What stands between the commas of a value. -/
inductive Component where
  | string (s : List StringChar)
  | bytes (is : List (Inner isInert))
  | label (i : Ident)
  | path (gs : List (Glyph isInert))
  /-- a cell array: each cell with the gap in front of it, and the gap behind the last one -/
  | cells (cs : List (Gap × Cell)) (tail : Gap)

def Component.text : Component → Text
  | string s => (Lexeme.string s).text
  | bytes is => (Lexeme.bytes is).text
  | label i => '&' :: i.text
  | path gs => pathText gs
  | cells cs tail => '<' :: (cs.flatMap (fun c => c.1.text ++ c.2.text) ++ (tail.text ++ ['>']))

/-- A component with the gaps around it. -/
structure Part where
  before : Gap
  component : Component
  after : Gap

def Part.text (p : Part) : Text := p.before.text ++ (p.component.text ++ p.after.text)

/-- The parts of a value, with commas between them. -/
def partsText : List Part → Text
  | [] => []
  | [p] => p.text
  | p :: ps => p.text ++ ',' :: partsText ps

/-! ## Angle brackets -/

def isAngle (c : Char) : Bool := c == '<' || c == '>'

/-- The angle brackets of an expression. -/
def Expr.angles : Expr → Text
  | literal _ => []
  | paren _ e _ | unary _ _ e => e.angles
  | binary e₁ _ op _ e₂ _ => e₁.angles ++ (op.text.filter isAngle ++ e₂.angles)
  | conditional c _ _ e₁ _ _ e₂ => c.angles ++ (e₁.angles ++ e₂.angles)

def Cell.angles : Cell → Text
  | paren _ e _ => e.angles
  | _ => []

/-- The angle brackets of a component, its own and those of the operators in it. -/
def Component.angles : Component → Text
  | cells cs _ => '<' :: (cs.flatMap (fun c => c.2.angles) ++ ['>'])
  | _ => []

def partsAngles (ps : List Part) : Text := ps.flatMap fun p => p.component.angles

/-- The running count: it does not fall below zero. -/
def count (n : ℕ) (angles : Text) : ℕ :=
  angles.foldl (fun n c => if c = '<' then n + 1 else n - 1) n

/-! ## The reader -/

/-- `_read_until_semicolon` with so many angle brackets open. -/
def readFrom (n : ℕ) (cs : Text) : Text := readUntilSemicolon (readBalanced '<' '>' n cs)

theorem readFrom_zero : readFrom 0 = readUntilSemicolon := by
  funext cs
  rw [readFrom, readBalanced]

/-- The reader takes the text for these angle brackets. -/
def Moves (w angles : Text) : Prop := ∀ n r, readFrom n (w ++ r) = readFrom (count n angles) r

theorem valueChar_flat (x : Char) (hx : isValueChar x) (hs : x ≠ '/') : isFlat '<' '>' x := by
  simp only [isValueChar, Bool.and_eq_true] at hx
  exact inert_flat (by decide) (by decide) x hx.1 hs

theorem readFrom_skips : ∀ n, Skips (readFrom n) (fun x => isValueChar x && x != '/')
  | 0 => by
    rw [readFrom_zero]
    exact semicolon_skips
  | n + 1 => by
    have h := balanced_skips (o := '<') (c := '>') (by decide) (by decide) n
    refine ⟨fun cs => ?_, fun cs => ?_, fun cs => ?_, fun x cs h₁ h₂ => ?_, fun x cs hx => ?_⟩
    · rw [readFrom, h.line, readFrom]
    · rw [readFrom, h.block, readFrom]
    · rw [readFrom, h.quote, readFrom]
    · rw [readFrom, h.slash x cs h₁ h₂, readFrom]
    · rw [Bool.and_eq_true, bne_iff_ne] at hx
      rw [readFrom, h.char x cs (valueChar_flat x hx.1 hx.2), readFrom]

namespace Moves
variable {w w' angles angles' : Text}

theorem of_passes (h : ∀ n, Passes (readFrom n) w) : Moves w [] := fun n r => h n r

theorem append (h : Moves w angles) (h' : Moves w' angles') : Moves (w ++ w') (angles ++ angles') := by
  intro n r
  rw [List.append_assoc, h, h', count, count, count, List.foldl_append]

theorem flat {x : Char} (h : isValueChar x && x != '/') : Moves [x] [] :=
  .of_passes fun n => (readFrom_skips n).char_passes h

theorem cons {x : Char} (hx : isValueChar x && x != '/') (h : Moves w angles) :
    Moves (x :: w) angles :=
  (flat hx).append h

theorem run (h : ∀ x ∈ w, isValueChar x && x != '/') : Moves w [] :=
  .of_passes fun n => (readFrom_skips n).run_passes h

theorem gap (g : Gap) : Moves g.text [] := by
  refine .of_passes fun n => (readFrom_skips n).gap_passes (fun x hx => ?_) g
  simp only [isBlank, Bool.or_eq_true, beq_iff_eq] at hx
  rcases hx with ((rfl | rfl) | rfl) | rfl <;> decide

theorem gap_append (g : Gap) (h : Moves w angles) : Moves (g.text ++ w) angles := (gap g).append h

theorem slash (hw : NoComment w) (h : Moves w angles) : Moves ('/' :: w) angles := by
  obtain ⟨x, w, rfl, h₁, h₂⟩ := hw
  intro n r
  rw [List.cons_append, List.cons_append, (readFrom_skips n).slash x _ h₁ h₂]
  exact h n r

theorem flatMap {α : Type} {f g : α → Text} {l : List α} (h : ∀ a ∈ l, Moves (f a) (g a)) :
    Moves (l.flatMap f) (l.flatMap g) := by
  induction l with
  | nil => exact fun _ _ => rfl
  | cons a l ih =>
    rw [List.flatMap_cons, List.flatMap_cons]
    exact (h a (List.mem_cons_self ..)).append (ih fun b hb => h b (List.mem_cons_of_mem _ hb))

/-- An angle bracket is counted, as a bracket or as an operator. -/
theorem opening : Moves ['<'] ['<'] := by
  intro n r
  cases n with
  | zero =>
    rw [readFrom_zero, List.singleton_append, readUntilSemicolon]
    rfl
  | succ n =>
    rw [readFrom, List.singleton_append, readBalanced, if_pos rfl] <;> simp [count, readFrom]

theorem closing : Moves ['>'] ['>'] := by
  intro n r
  cases n with
  | zero =>
    rw [readFrom_zero, List.singleton_append, readUntilSemicolon] <;> simp [count, readFrom_zero]
  | succ n =>
    rw [readFrom, List.singleton_append, readBalanced, if_neg (by decide), if_pos rfl]
      <;> simp [count, readFrom]

/-- A text of angle brackets and of characters that are passed over. -/
theorem spelled (h : ∀ x ∈ w, isAngle x ∨ (isValueChar x && x != '/')) :
    Moves w (w.filter isAngle) := by
  induction w with
  | nil => exact fun _ _ => rfl
  | cons x w ih =>
    have hw := ih fun y hy => h y (List.mem_cons_of_mem _ hy)
    rcases h x (List.mem_cons_self ..) with hx | hx
    · rw [List.filter_cons_of_pos hx]
      rw [isAngle, Bool.or_eq_true, beq_iff_eq, beq_iff_eq] at hx
      rcases hx with rfl | rfl
      · exact opening.append hw
      · exact closing.append hw
    · have hne : ¬ isAngle x := by
        rw [isAngle, Bool.or_eq_true, beq_iff_eq, beq_iff_eq]
        rintro (rfl | rfl) <;> exact absurd hx (by decide)
      rw [List.filter_cons_of_neg hne]
      exact cons hx hw

end Moves

/-! ## Expressions -/

theorem NoComment.append {w : Text} (h : NoComment w) (r : Text) : NoComment (w ++ r) := by
  obtain ⟨x, w, rfl, h₁, h₂⟩ := h
  exact ⟨x, w ++ r, rfl, h₁, h₂⟩

theorem literalChar_flat (x : Char) (hx : isLiteralChar x) : isValueChar x && x != '/' := by
  have hne : ∀ y, isLiteralChar y = false → (x != y) = true := fun y hy => by
    rw [bne_iff_ne]
    exact ne_of_class hx hy
  simp only [isValueChar, isInert,
    hne '"' (by decide), hne '<' (by decide), hne '>' (by decide), hne '[' (by decide),
    hne ']' (by decide), hne '{' (by decide), hne '}' (by decide), hne ';' (by decide),
    hne '/' (by decide), Bool.and_self]

theorem Literal.noComment (l : Literal) : NoComment l.text := by
  rcases h : l.text with _ | ⟨x, w⟩
  · exact absurd h l.nonempty
  · have hx := l.chars x (by rw [h]; exact List.mem_cons_self ..)
    exact ⟨x, w, rfl, ne_of_class hx (by decide), ne_of_class hx (by decide)⟩

/-- An expression does not start with a slash or a star. -/
theorem Expr.noComment (e : Expr) : NoComment e.text := by
  induction e with
  | literal l => exact l.noComment
  | paren before e after => exact ⟨'(', _, rfl, by decide, by decide⟩
  | unary op gap e => cases op <;> exact ⟨_, _, rfl, by decide, by decide⟩
  | binary e₁ before op after e₂ h ih₁ ih₂ => exact ih₁.append _
  | conditional c g₁ g₂ e₁ g₃ g₄ e₂ ih => exact ih.append _

theorem Literal.moves (l : Literal) : Moves l.text [] :=
  .run fun x hx => literalChar_flat x (l.chars x hx)

theorem UnaryOp.moves (op : UnaryOp) : Moves op.text [] := by
  cases op <;> exact .flat (by decide)

/-- An operator that is no division. -/
theorem BinaryOp.moves {op : BinaryOp} (h : op ≠ .div) : Moves op.text (op.text.filter isAngle) := by
  have hall : (op.text.all fun x => isAngle x || (isValueChar x && x != '/')) = true := by
    cases op <;> first | exact absurd rfl h | rfl
  refine .spelled fun x hx => ?_
  rw [← Bool.or_eq_true]
  exact List.all_eq_true.1 hall x hx

/-- **The reader counts the operators of an expression.** -/
theorem Expr.moves (e : Expr) : Moves e.text e.angles := by
  induction e with
  | literal l => exact l.moves
  | paren before e after ih =>
    have hclose : Moves (after.text ++ [')']) [] := (Moves.gap after).append (.flat (by decide))
    have h := (Moves.gap before).append (ih.append hclose)
    rw [List.append_nil, List.nil_append] at h
    exact h.cons (by decide)
  | unary op gap e ih => exact op.moves.append (.gap_append gap ih)
  | binary e₁ before op after e₂ h ih₁ ih₂ =>
    refine ih₁.append (.gap_append before ?_)
    have hright : Moves (after.text ++ e₂.text) e₂.angles := .gap_append after ih₂
    by_cases hop : op = .div
    · subst hop
      exact .slash (Gap.noComment (h rfl) e₂.noComment) hright
    · exact (BinaryOp.moves hop).append hright
  | conditional c g₁ g₂ e₁ g₃ g₄ e₂ ih ih₁ ih₂ =>
    refine ih.append (.gap_append g₁ (.cons (by decide) ?_))
    refine .gap_append g₂ (ih₁.append (.gap_append g₃ ?_))
    exact .cons (by decide) (.gap_append g₄ ih₂)

/-! ## Components -/

/-- A text that both readers pass over. -/
theorem Moves.of_neutral {w : Text} (h₀ : Passes readUntilSemicolon w) (h : Neutral '<' '>' w) :
    Moves w [] := by
  refine .of_passes fun n r => ?_
  cases n with
  | zero =>
    rw [readFrom_zero]
    exact h₀ r
  | succ n => rw [readFrom, h n, readFrom]

theorem identChar_flat (x : Char) (hx : isIdentChar x) : isValueChar x && x != '/' := by
  refine literalChar_flat x ?_
  rw [isIdentChar, Bool.or_eq_true] at hx
  rw [isLiteralChar, Bool.or_eq_true, Bool.or_eq_true, Bool.or_eq_true]
  exact .inl (.inl hx)

theorem label_moves (i : Ident) : Moves ('&' :: i.text) [] := by
  refine .cons (by decide) (.run fun x hx => identChar_flat x ?_)
  rcases List.mem_cons.1 hx with rfl | hx
  · exact identStart_char _ i.isStart
  · exact i.isTail x hx

theorem path_moves (gs : List (Glyph isInert)) : Moves (pathText gs) [] :=
  .of_neutral (lexeme_passes (.inner (.path gs)))
    (flat_path (p := isValueChar) (by decide) (by decide) (by decide) (by decide) (by decide)
      (by decide) (by decide) gs)

theorem bytes_moves (is : List (Inner isInert)) : Moves (Lexeme.bytes is).text [] := by
  refine .of_neutral (lexeme_passes (.bytes is)) fun n => ?_
  have hs := balanced_skips (o := '<') (c := '>') (by decide) (by decide) n
  refine (hs.char_passes (by decide)).cons
    (.append (.flatMap fun i _ => ?_) (hs.char_passes (by decide)))
  exact hs.inner_passes (inert_flat (by decide) (by decide)) (by decide)
    (fun gs => flat_path (by decide) (by decide) (by decide) (by decide) (by decide) (by decide)
      (by decide) gs n) i

theorem Cell.moves (c : Cell) : Moves c.text c.angles := by
  cases c with
  | literal l => exact l.moves
  | label i => exact label_moves i
  | path gs => exact path_moves gs
  | paren before e after => exact (Expr.paren before e after).moves

theorem Component.moves (c : Component) : Moves c.text c.angles := by
  cases c with
  | string s => exact .of_passes fun n => (readFrom_skips n).string_passes s
  | bytes is => exact bytes_moves is
  | label i => exact label_moves i
  | path gs => exact path_moves gs
  | cells cs tail =>
    refine Moves.opening.append (.append (.flatMap fun c _ => ?_)
      ((Moves.gap tail).append Moves.closing))
    exact (Moves.gap c.1).append c.2.moves

theorem Part.moves (p : Part) : Moves p.text p.component.angles := by
  have h := (Moves.gap p.before).append (p.component.moves.append (Moves.gap p.after))
  rw [List.nil_append, List.append_nil] at h
  exact h

/-- **The reader counts the angle brackets of a value.** -/
theorem parts_move : ∀ ps : List Part, Moves (partsText ps) (partsAngles ps)
  | [] => fun _ _ => rfl
  | [p] => by
    rw [partsText, partsAngles, List.flatMap_singleton]
    exact p.moves
  | p :: q :: ps => by
    have hrest := parts_move (q :: ps)
    rw [partsAngles, List.flatMap_cons]
    exact p.moves.append (.cons (by decide) hrest)

/-! ## The extent of a property -/

/-- The bracket reader takes at least one character. -/
theorem readBalanced_lt (o c : Char) (d : ℕ) (x : Char) (cs : Text) :
    (readBalanced o c (d + 1) (x :: cs)).length < (x :: cs).length := by
  rw [List.length_cons, Nat.lt_succ_iff, readBalanced.eq_def]
  split
  case h_1 | h_2 => contradiction
  case h_3 heq =>
    obtain ⟨rfl, rfl⟩ := List.cons.inj heq
    exact ((readBalanced_suffix ..).trans
      ((toNewline_suffix _).trans (List.suffix_cons _ _))).length_le
  case h_4 heq =>
    obtain ⟨rfl, rfl⟩ := List.cons.inj heq
    exact ((readBalanced_suffix ..).trans
      ((pastBlockEnd_suffix _).trans (List.suffix_cons _ _))).length_le
  case h_5 heq =>
    obtain ⟨rfl, rfl⟩ := List.cons.inj heq
    exact ((readBalanced_suffix ..).trans (readString_suffix _)).length_le
  case h_6 heq =>
    obtain ⟨rfl, rfl⟩ := List.cons.inj heq
    split_ifs <;> exact (readBalanced_suffix ..).length_le

/-- The `;` is the end where no angle bracket is open. -/
theorem readFrom_end (n : ℕ) (rest : Text) : readFrom n (';' :: rest) = rest ↔ n = 0 ∨ rest = [] := by
  cases n with
  | zero =>
    rw [readFrom_zero, readUntilSemicolon]
    simp
  | succ n =>
    have hflat : readFrom (n + 1) (';' :: rest) = readFrom (n + 1) rest := by
      rw [readFrom, readBalanced, if_neg (by decide), if_neg (by decide)] <;> simp [readFrom]
    rw [hflat]
    cases rest with
    | nil =>
      rw [readFrom, readBalanced, readUntilSemicolon]
      simp
    | cons c cs =>
      refine iff_of_false (fun he => ?_) (by simp)
      have hlt := readBalanced_lt '<' '>' n c cs
      have hle := (readUntilSemicolon_suffix (readBalanced '<' '>' (n + 1) (c :: cs))).length_le
      rw [← readFrom, he] at hle
      omega

/-- A property whose value is a list of strings, arrays and references. -/
structure CellProperty where
  name : Name
  gap : Gap
  spaced : gap.spaced
  parts : List Part

namespace CellProperty
variable (p : CellProperty)

/-- `name = value;` -/
def text : Text := p.name.text ++ (p.gap.text ++ '=' :: (partsText p.parts ++ [';']))

/-- Its own `;` ends the property: it is reported as it is written, and the scan goes on behind it. -/
structure ReadAlone (n d : ℕ) (rest : Text) : Prop where
  stops : readUntilSemicolon ('=' :: (partsText p.parts ++ ';' :: rest)) = rest
  reported : ∀ {σ : Type} (cb : ScanCallbacks σ) (out : Text) (s : σ),
    scanStep cb ⟨n, p.text ++ rest, d, out⟩ s =
      (⟨n, rest, d, out ++ (cb.onProperty p.name.text p.text s).1.getD p.text⟩,
        (cb.onProperty p.name.text p.text s).2)

theorem reported_of_stops (n d : ℕ) {rest : Text}
    (h : readUntilSemicolon ('=' :: (partsText p.parts ++ ';' :: rest)) = rest) {σ : Type}
    (cb : ScanCallbacks σ)
    (out : Text) (s : σ) : scanStep cb ⟨n, p.text ++ rest, d, out⟩ s =
      (⟨n, rest, d, out ++ (cb.onProperty p.name.text p.text s).1.getD p.text⟩,
        (cb.onProperty p.name.text p.text s).2) := by
  have he : p.text ++ rest = p.name.text ++
      (p.gap.text ++ '=' :: (partsText p.parts ++ ';' :: rest)) := by
    simp [text]
  have hat : NameAt n (p.text ++ rest)
      p.name.text (p.gap.text ++ '=' :: (partsText p.parts ++ ';' :: rest)) := by
    refine ⟨?_, p.name.nonempty, fun c hc => declChar_name c (p.name.chars c hc),
      Gap.stops_of_spaced p.spaced _⟩
    rw [he]
    exact nameStart_bare n p.name.chars p.gap _ (by decide) (by decide) (by decide)
  have hskip : skipTrivia (p.gap.text ++ '=' :: (partsText p.parts ++ ';' :: rest)) =
      '=' :: (partsText p.parts ++ ';' :: rest) := by
    rw [skipTrivia_gap, skipTrivia_firm (by decide)]
  have hdecl : Declares (p.text ++ rest) := by
    rw [he]
    exact (p.name.startsDecl _).declares
  rw [scanStep_declares hdecl]
  simp only [declaration, hat.takeWhile, hat.dropWhile, hskip, if_neg p.name.nonempty, h,
    slice_append]

/-- **The extent of a property**: its own `;` ends it if and only if the running count of the angle
    brackets in its value, operators and brackets of arrays alike, is zero at the end, or nothing
    follows. -/
theorem extent_iff (n d : ℕ) (rest : Text) :
    p.ReadAlone n d rest ↔ count 0 (partsAngles p.parts) = 0 ∨ rest = [] := by
  have hread : readUntilSemicolon ('=' :: (partsText p.parts ++ ';' :: rest)) =
      readFrom (count 0 (partsAngles p.parts)) (';' :: rest) := by
    rw [← readFrom_zero, ← parts_move p.parts 0]
    exact Moves.flat (x := '=') (by decide) 0 _
  rw [← readFrom_end, ← hread]
  exact ⟨ReadAlone.stops, fun h => ⟨h, p.reported_of_stops n d h⟩⟩

end CellProperty

section
open Gap (space)

/-- `x` as a literal. -/
def Literal.digit (x : Char) (h : isLiteralChar x) : Literal := ⟨[x], by simp, by simpa using h⟩

theorem spelled_a : spelled ['a'] := by decide

/-- `a = <(1 << 2)>;` -/
def shifted : CellProperty where
  name := .of ['a'] spelled_a
  gap := space
  spaced := rfl
  parts :=
    [⟨space, .cells [([], .paren [] (.binary (.literal (.digit '1' (by decide))) space .shl space
    (.literal (.digit '2' (by decide))) nofun) [])] [], []⟩]

/-- The declaration behind it is taken for a part of the value. -/
theorem shifted_not_readAlone :
    shifted.text = "a = <(1 << 2)>;".toList ∧
      calls (shifted.text ++ " b = <1>;".toList) =
        [.property ['a'] "a = <(1 << 2)>; b = <1>;".toList] ∧
      ¬ shifted.ReadAlone 24 0 " b = <1>;".toList := by
  refine ⟨by decide, by decide +kernel, fun h => ?_⟩
  exact absurd h.stops (by decide +kernel)

end

end PocketDarwin.PatchDtc
