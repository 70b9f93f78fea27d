/-
  The grammar that the docstring of `scan_dts` gives, as data.

  A `Body` is a sequence of declarations in the first-child, next-sibling form:
  each declaration carries the white space and comments in front of it, its own
  body, and the declarations that follow it.  `Body.text` spells a body out,
  gaps included, so that every text of the grammar is the text of some body;
  names, labels and comments carry the proof that they are spelled as the
  grammar allows.

  White space between two tokens is a `Gap`, and any gap may be empty as far as
  the data goes.  `Body.spaced` says that white space stands between the tokens
  that would otherwise run together: behind the name of a property, behind the
  colon of a label, behind the `;` of a block, and in front of a comment that
  follows a name, a slash or a label.
-/
import PocketDarwin.PatchDtc.Scanner

namespace PocketDarwin.PatchDtc

/-! ## White space and comments -/

/-- A comment: a block comment with a text free of `*/`, or a line comment with
    its newline. -/
inductive Comment where
  | block (body : Text) (h : ¬ ['*', '/'] <:+: body)
  | line (body : Text) (h : '\n' ∉ body)

def Comment.text : Comment → Text
  | block body _ => '/' :: '*' :: (body ++ ['*', '/'])
  | line body _ => '/' :: '/' :: (body ++ ['\n'])

/-- A white space character or a comment. -/
inductive Triv where
  | blank (c : Char) (h : isBlank c)
  | comment (c : Comment)

namespace Triv

def text : Triv → Text
  | blank c _ => [c]
  | comment c => c.text

def isBlankTriv : Triv → Bool
  | blank _ _ => true
  | comment _ => false

end Triv

/-- What stands between two tokens. -/
abbrev Gap := List Triv

namespace Gap

def text (g : Gap) : Text := g.flatMap Triv.text

@[simp] theorem text_nil : text [] = [] := rfl

/-- A single space. -/
def space : Gap := [.blank ' ' (by decide)]

/-- White space only. -/
def bare (g : Gap) : Bool := g.all Triv.isBlankTriv

/-- The gap starts with white space. -/
def spaced : Gap → Bool
  | .blank _ _ :: _ => true
  | _ => false

/-- The gap is empty or starts with white space. -/
def setOff : Gap → Bool
  | [] => true
  | g => spaced g

end Gap

/-! ## Names -/

/-- The characters of `_NODE_NAME_CHARS` and `_PROP_NAME_CHARS`, and the `@` in
    front of a unit. -/
def isDeclChar (c : Char) : Bool :=
  c.isAlphanum || c == ',' || c == '.' || c == '_' || c == '+' || c == '-' || c == '?' ||
    c == '#' || c == '*' || c == '@'

/-- The name of a node, with its unit, or of a property. -/
structure Name where
  text : Text
  nonempty : text ≠ []
  chars : ∀ c ∈ text, isDeclChar c

/-- A name of the grammar. -/
def spelled (name : Text) : Bool := !name.isEmpty && name.all isDeclChar

theorem spelled_iff {name : Text} : spelled name ↔ name ≠ [] ∧ ∀ c ∈ name, isDeclChar c := by
  simp [spelled]

namespace Name

/-- A text that is a name. -/
def of (name : Text) (h : PatchDtc.spelled name) : Name := ⟨name, (spelled_iff.1 h).1, (spelled_iff.1 h).2⟩

theorem spelled (name : Name) : PatchDtc.spelled name.text := spelled_iff.2 ⟨name.nonempty, name.chars⟩

end Name

/-- The name of a label. -/
structure Ident where
  head : Char
  tail : Text
  isStart : isIdentStart head
  isTail : ∀ c ∈ tail, isIdentChar c

def Ident.text (i : Ident) : Text := i.head :: i.tail

/-- `label:`, with white space around the colon. -/
structure Label where
  name : Ident
  before : Gap
  after : Gap

namespace Label

def text (l : Label) : Text := l.name.text ++ l.before.text ++ ':' :: l.after.text

def spaced (l : Label) : Bool := l.before.setOff && l.after.spaced

end Label

/-- The text of an optional label. -/
def labelText : Option Label → Text
  | none => []
  | some l => l.text

@[simp] theorem labelText_none : labelText none = [] := rfl

def labelSpaced : Option Label → Bool
  | none => true
  | some l => l.spaced

/-! ## Values -/

/-- A character of class `p`, or a slash with the character behind it, which
    does not make it a comment. -/
inductive Glyph (p : Char → Bool) where
  | char (c : Char) (h : p c ∧ c ≠ '/')
  | slash (c : Char) (h : p c ∧ c ≠ '/' ∧ c ≠ '*')

def Glyph.text {p : Char → Bool} : Glyph p → Text
  | char c _ => [c]
  | slash c _ => ['/', c]

/-- Neither a quote nor a bracket of any kind. -/
def isInert (c : Char) : Bool :=
  c != '"' && c != '<' && c != '>' && c != '[' && c != ']' && c != '{' && c != '}'

/-- The characters of a value outside of its strings and arrays. -/
def isValueChar (c : Char) : Bool := isInert c && c != ';'

/-- The characters of a cell array. -/
def isCellChar (c : Char) : Bool := isInert c || c == '[' || c == ']'

/-- A piece of an array's contents, or of a value outside of its arrays:
    a character, a comment, or a reference by path, `&{path}`. -/
inductive Inner (p : Char → Bool) where
  | glyph (g : Glyph p)
  | comment (c : Comment)
  | path (gs : List (Glyph isInert))

def Inner.text {p : Char → Bool} : Inner p → Text
  | glyph g => g.text
  | comment c => c.text
  | path gs => '&' :: '{' :: (gs.flatMap Glyph.text ++ ['}'])

def Inner.isComment {p : Char → Bool} : Inner p → Bool
  | comment _ => true
  | _ => false

/-- A character of a string, or a backslash with the character it escapes. -/
inductive StringChar where
  | char (c : Char) (h : c ≠ '"' ∧ c ≠ '\\')
  | escape (c : Char)

def StringChar.text : StringChar → Text
  | char c _ => [c]
  | escape c => ['\\', c]

/-- A piece of a value. -/
inductive Lexeme where
  | inner (i : Inner isValueChar)
  | string (s : List StringChar)
  | cells (is : List (Inner isCellChar))
  | bytes (is : List (Inner isInert))

def Lexeme.text : Lexeme → Text
  | inner i => i.text
  | string s => '"' :: (s.flatMap StringChar.text ++ ['"'])
  | cells is => '<' :: (is.flatMap Inner.text ++ ['>'])
  | bytes is => '[' :: (is.flatMap Inner.text ++ [']'])

/-- The value of a property, or the arguments of a directive. -/
abbrev Value := List Lexeme

namespace Value

def text (v : Value) : Text := v.flatMap Lexeme.text

/-- Nothing, or something that starts with white space. -/
def setOff : Value → Bool
  | [] => true
  | .inner (.glyph (.char c _)) :: _ => isBlank c
  | _ => false

end Value

/-! ## Declarations -/

/-- `/name/ args;` -/
structure Directive where
  head : Char
  tail : Text
  args : Value
  isHead : head.isAlpha
  isTail : ∀ c ∈ tail, isDirectiveChar c

namespace Directive

def name (d : Directive) : Text := d.head :: d.tail

def text (d : Directive) : Text := '/' :: (d.name ++ '/' :: (d.args.text ++ [';']))

/-- `/dts-v1/;` -/
def dtsV1 : Directive :=
  ⟨'d', ['t', 's', '-', 'v', '1'], [], by decide, List.all_eq_true.1 (by decide)⟩

end Directive

/-- `name = value;` or `name;` -/
structure Property where
  name : Name
  gap : Gap
  value : Option Value

namespace Property

def valueText : Option Value → Text
  | none => [';']
  | some v => '=' :: (v.text ++ [';'])

def text (p : Property) : Text := p.name.text ++ p.gap.text ++ valueText p.value

end Property

/-- A sequence of declarations, each with the gap `lead` in front of it, and the
    gap behind the last one. -/
inductive Body where
  | done (tail : Gap)
  | directive (lead : Gap) (d : Directive) (rest : Body)
  | property (lead : Gap) (label : Option Label) (p : Property) (rest : Body)
  /-- `label: name { body };` -/
  | node (lead : Gap) (label : Option Label) (name : Name) (gap : Gap) (body : Body) (close : Gap)
      (rest : Body)
  /-- `&label { body };` -/
  | reference (lead : Gap) (target : Ident) (gap : Gap) (body : Body) (close : Gap) (rest : Body)
  /-- `/ { body };` -/
  | root (lead : Gap) (gap : Gap) (body : Body) (close : Gap) (rest : Body)

namespace Body

/-- `{ body };` from behind the opening brace. -/
def blockEnd (close : Gap) : Text := '}' :: (close.text ++ [';'])

def text : Body → Text
  | done tail => tail.text
  | directive lead d rest => lead.text ++ d.text ++ rest.text
  | property lead label p rest => lead.text ++ labelText label ++ p.text ++ rest.text
  | node lead label name gap body close rest =>
    lead.text ++ labelText label ++ (name.text ++ gap.text) ++ '{' :: (body.text ++ blockEnd close) ++
      rest.text
  | reference lead target gap body close rest =>
    lead.text ++ ('&' :: (target.text ++ gap.text)) ++ '{' :: (body.text ++ blockEnd close) ++ rest.text
  | root lead gap body close rest =>
    lead.text ++ ('/' :: gap.text) ++ '{' :: (body.text ++ blockEnd close) ++ rest.text

/-- The gap in front. -/
def lead : Body → Gap
  | done tail => tail
  | directive lead _ _ | property lead _ _ _ | node lead _ _ _ _ _ _ | reference lead _ _ _ _ _
  | root lead _ _ _ _ => lead

/-- White space, if anything, stands in front of what follows a block. -/
def spacedLead : Body → Bool
  | done tail => tail.setOff
  | b => b.lead.spaced

/-- **White space between tokens**, where the tokens would run together or a
    comment would be read as part of a token. -/
def spaced : Body → Bool
  | done _ => true
  | directive _ d rest => d.args.setOff && rest.spaced
  | property _ label p rest => labelSpaced label && p.gap.spaced && rest.spaced
  | node _ label _ gap body _ rest =>
    labelSpaced label && gap.setOff && body.spaced && rest.spacedLead && rest.spaced
  | reference _ _ gap body _ rest | root _ gap body _ rest =>
    gap.setOff && body.spaced && rest.spacedLead && rest.spaced

/-- No comment stands right behind a slash, which would make one with it. -/
def quiet : Body → Bool
  | done _ => true
  | directive _ d rest => d.args.setOff && rest.quiet
  | property _ _ _ rest => rest.quiet
  | node _ _ _ _ body _ rest | reference _ _ _ body _ rest => body.quiet && rest.quiet
  | root _ gap body _ rest => gap.setOff && body.quiet && rest.quiet

theorem quiet_of_spaced {b : Body} (h : b.spaced) : b.quiet := by
  induction b with
  | done tail => rfl
  | directive lead d rest ih =>
    simp only [spaced, Bool.and_eq_true] at h
    simp [quiet, h.1, ih h.2]
  | property lead label p rest ih =>
    simp only [spaced, Bool.and_eq_true] at h
    exact ih h.2
  | node lead label name gap body close rest ih₁ ih₂ =>
    simp only [spaced, Bool.and_eq_true] at h
    simp [quiet, ih₁ h.1.1.2, ih₂ h.2]
  | reference lead target gap body close rest ih₁ ih₂ =>
    simp only [spaced, Bool.and_eq_true] at h
    simp [quiet, ih₁ h.1.1.2, ih₂ h.2]
  | root lead gap body close rest ih₁ ih₂ =>
    simp only [spaced, Bool.and_eq_true] at h
    simp [quiet, h.1.1.1, ih₁ h.1.1.2, ih₂ h.2]

/-- No root block. -/
def rootless : Body → Bool
  | done _ => true
  | directive _ _ rest | property _ _ _ rest => rest.rootless
  | node _ _ _ _ body _ rest | reference _ _ _ body _ rest => body.rootless && rest.rootless
  | root _ _ _ _ _ => false

/-- Root blocks stand at the top level only. -/
def rootsOnTop : Body → Bool
  | done _ => true
  | directive _ _ rest | property _ _ _ rest => rest.rootsOnTop
  | node _ _ _ _ body _ rest | reference _ _ _ body _ rest | root _ _ body _ rest =>
    body.rootless && rest.rootsOnTop

/-- No comment stands between the label of a reference and its brace. -/
def bareReferences : Body → Bool
  | done _ => true
  | directive _ _ rest | property _ _ _ rest => rest.bareReferences
  | node _ _ _ _ body _ rest | root _ _ body _ rest => body.bareReferences && rest.bareReferences
  | reference _ _ gap body _ rest => gap.bare && body.bareReferences && rest.bareReferences

end Body

/-- A document of the grammar. -/
structure Document where
  body : Body
  rootsOnTop : body.rootsOnTop

/-- The text of a document. -/
def Document.text (d : Document) : Text := d.body.text

end PocketDarwin.PatchDtc
