/-
  The braces of the text that the scanner reads.

  A reader of its own takes the text character by character, past comments, strings, directives and
  the paths of references (`&{/soc}`), and keeps the braces that are still open.  A brace behind a
  name or a reference is that of a node or a reference; any other, such as that of the root block,
  is not.

  The scanner does not look at what a brace belongs to: every closing brace that it gets to ends the
  innermost body it knows of.  `Braces.Agrees` is what an iteration has to read for its braces to be
  those of the text.
-/
import PocketDarwin.PatchDtc.Lossless

namespace PocketDarwin.PatchDtc

/-! ## The reader of braces -/

/-- What the next character belongs to. -/
inductive Mode where
  | code
  /-- behind a slash of the code -/
  | slash
  | directive
  | line
  | block
  /-- behind a `*` of a block comment -/
  | star
  | string
  | escape
  | ampersand
  | path
deriving DecidableEq, Repr

/-- A brace that is open: the names passed to `on_property` while it was the innermost one of a node
    or a reference, latest first; `none` for a brace of something else. -/
abbrev Brace := Option (List Text)

structure Braces where
  mode : Mode
  /-- the last token is a name or a reference, which a body may follow -/
  named : Bool
  /-- innermost first -/
  opened : List Brace
deriving DecidableEq, Repr

/-- A character of a name, `"[" + _PROP_NAME_CHARS + "@]"` as it is meant. -/
def isPropNameChar (c : Char) : Bool := c.isAlphanum || c ∈ ",._+?#*-@".toList

namespace Braces

/-- Nothing is read. -/
def start : Braces := ⟨.code, false, []⟩

/-- The next character is code. -/
def code (b : Braces) (c : Char) : Braces :=
  if c == '/' then { b with mode := .slash }
  else if c == '"' then { b with mode := .string, named := false }
  else if c == '&' then { b with mode := .ampersand, named := true }
  else if c == '{' then ⟨.code, false, (if b.named then some [] else none) :: b.opened⟩
  else if c == '}' then ⟨.code, false, b.opened.tail⟩
  else if isBlank c then { b with mode := .code }
  else { b with mode := .code, named := isPropNameChar c }

/-- The next character. -/
def next (b : Braces) (c : Char) : Braces :=
  match b.mode with
  | .code => b.code c
  | .slash =>
    if c == '/' then { b with mode := .line }
    else if c == '*' then { b with mode := .block }
    else if c.isAlpha then { b with mode := .directive, named := true }
    else { b with named := false }.code c
  | .directive =>
    if isDirectiveChar c then b
    else if c == '/' then { b with mode := .code, named := false }
    else b.code c
  | .line => if c == '\n' then { b with mode := .code } else b
  | .block => if c == '*' then { b with mode := .star } else b
  | .star =>
    if c == '/' then { b with mode := .code }
    else if c == '*' then b else { b with mode := .block }
  | .string =>
    if c == '\\' then { b with mode := .escape }
    else if c == '"' then { b with mode := .code } else b
  | .escape => { b with mode := .string }
  | .ampersand => if c == '{' then { b with mode := .path } else b.code c
  | .path => if c == '}' then { b with mode := .code } else b

/-- A text. -/
def read (b : Braces) (t : Text) : Braces := t.foldl next b

/-- The braces of nodes and references that are open, with their names. -/
def frames (b : Braces) : List (List Text) := b.opened.filterMap id

/-- A name belongs to the innermost brace of a node or a reference. -/
def addName (name : Text) : List Brace → List Brace
  | [] => []
  | none :: l => none :: addName name l
  | some names :: l => some (name :: names) :: l

/-- A call of the scanner. -/
def record (b : Braces) : Call → Braces
  | .property name _ => { b with opened := addName name b.opened }
  | _ => b

end Braces

/-! ## Iterations -/

/-- What an iteration does to the depth. -/
inductive Effect where
  | opens
  | closes
  | keeps
deriving DecidableEq, Repr

namespace DTSState
variable (st : DTSState)

/-- A `&` that `tl` is behind. -/
def referenceEffect (tl : Text) : Effect :=
  match (tl.dropWhile isReferenceChar).dropWhile isBlank with
  | '{' :: _ => .opens
  | _ => .keeps

/-- A declaration at `start`. -/
def declarationEffect (start : Text) : Effect :=
  let name := (nameStart st.n start).takeWhile isNameChar
  match skipTrivia ((nameStart st.n start).dropWhile isNameChar) with
  | '{' :: _ => if name = [] ∨ (st.depth = 0 ∧ fixupNodeNames.contains name) then .keeps else .opens
  | _ => .keeps

/-- The position that the next iteration starts at and the depth there tell what it does. -/
def effect : Effect :=
  match skipTrivia st.rest with
  | [] => .keeps
  | '}' :: _ => .closes
  | '/' :: _ => .keeps
  | '&' :: tl => referenceEffect tl
  | start => st.declarationEffect start

/-- The text that the next iteration reads. -/
def stepText : Text := slice st.rest (scanStep keeper st ()).1.rest

/-- The calls that it makes. -/
def stepCalls : List Call := (scanStep recorder st []).2

end DTSState

/-- The open braces of nodes and references change as an iteration takes them to. -/
def Effect.Matches (before after : List (List Text)) : Effect → Prop
  | .opens => after = [] :: before
  | .closes => after = before.tail
  | .keeps => after = before

instance (before after : List (List Text)) (e : Effect) : Decidable (e.Matches before after) := by
  cases e <;> exact inferInstanceAs (Decidable (_ = _))

namespace Braces
variable (b : Braces) (st : DTSState)

/-- The iteration takes the braces that it reads for what they are: one that ends a body reads the
    closing brace of a node or a reference, or none of these is open; one that starts a body reads
    its opening brace, and no other one reads either. -/
def Agrees : Prop := st.effect.Matches b.frames (b.read st.stepText).frames

instance : Decidable (b.Agrees st) := inferInstanceAs (Decidable (Effect.Matches ..))

/-- Behind the iteration. -/
def afterStep : Braces := st.stepCalls.foldl record (b.read st.stepText)

end Braces

/-- The calls that go with an effect. -/
inductive Effect.Calls : Effect → List Call → Prop
  | opens (name text : Text) : Calls .opens [.nodeOpen name text]
  | closes : Calls .closes [.nodeExit]
  | nothing : Calls .keeps []
  | directive (name text : Text) (atRoot : Bool) : Calls .keeps [.directive name text atRoot]
  | property (name text : Text) : Calls .keeps [.property name text]
  | fixup (name text : Text) : Calls .keeps [.fixup name text]

section
variable (st : DTSState)

theorem closeBrace_makes (tl : Text) : (closeBrace recorder st tl []).2 = [.nodeExit] := by
  dsimp only [closeBrace]
  split <;> rfl

theorem slash_makes (cs tl : Text) : Effect.Calls .keeps (slash recorder st cs tl []).2 := by
  rw [slash]
  split
  · exact .directive ..
  · exact .nothing

theorem reference_makes (cs tl : Text) :
    (DTSState.referenceEffect tl).Calls (reference recorder st cs tl []).2 := by
  dsimp only [reference, DTSState.referenceEffect]
  generalize (tl.dropWhile isReferenceChar).dropWhile isBlank = r
  by_cases hr : ∃ r', r = '{' :: r'
  · obtain ⟨r', rfl⟩ := hr
    exact .opens ..
  · repeat' split
    all_goals first
      | exact absurd ⟨_, rfl⟩ hr
      | exact .nothing

theorem declaration_makes (start : Text) :
    (st.declarationEffect start).Calls (declaration recorder st start []).2 := by
  dsimp only [declaration, DTSState.declarationEffect]
  generalize (nameStart st.n start).takeWhile isNameChar = name
  generalize skipTrivia ((nameStart st.n start).dropWhile isNameChar) = r
  by_cases hname : name = []
  · rw [if_pos hname]
    split
    · rw [if_pos (.inl hname)]
      exact .nothing
    · exact .nothing
  rw [if_neg hname]
  rcases follows r with ⟨r, rfl⟩ | ⟨r, rfl⟩ | ⟨r, rfl⟩ | ⟨h₁, h₂, h₃⟩
  · by_cases hfix : st.depth = 0 ∧ name ∈ fixupNodeNames
    · simp only [List.contains_iff_mem, hfix, and_self, or_true, if_true]
      exact .fixup ..
    · simp only [List.contains_iff_mem, hname, hfix, or_self, if_false]
      exact .opens ..
  · exact .property ..
  · exact .property ..
  · split
    · exact absurd rfl (h₁ _)
    · split
      · exact absurd rfl (h₁ _)
      · exact absurd rfl (h₂ _)
      · exact absurd rfl (h₃ _)
      · exact .nothing

/-- **An iteration** makes the call that its effect tells, or one that has no part in the depth. -/
theorem effect_makes : st.effect.Calls st.stepCalls := by
  rw [DTSState.stepCalls, DTSState.effect, scanStep]
  by_cases hend : st.rest = []
  · rw [if_pos hend, hend, skipTrivia]
    exact .nothing
  rw [if_neg hend]
  dsimp only
  generalize skipTrivia st.rest = cs
  by_cases h₁ : ∃ tl, cs = '}' :: tl
  · obtain ⟨tl, rfl⟩ := h₁
    exact closeBrace_makes _ tl ▸ .closes
  by_cases h₂ : ∃ tl, cs = '/' :: tl
  · obtain ⟨tl, rfl⟩ := h₂
    exact slash_makes ..
  by_cases h₃ : ∃ tl, cs = '&' :: tl
  · obtain ⟨tl, rfl⟩ := h₃
    exact reference_makes ..
  cases cs with
  | nil => exact .nothing
  | cons c cs =>
    repeat' split
    all_goals first
      | contradiction
      | exact absurd ⟨_, by assumption⟩ h₁
      | exact absurd ⟨_, by assumption⟩ h₂
      | exact absurd ⟨_, by assumption⟩ h₃
      | exact declaration_makes ⟨st.n, c :: cs, st.depth, _⟩ _

end

/-! ## Runs -/

section
variable {σ : Type} (cb : ScanCallbacks σ)

end

end PocketDarwin.PatchDtc
