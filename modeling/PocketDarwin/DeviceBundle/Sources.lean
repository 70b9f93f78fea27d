/-
  Sources of device trees with one root, by their grammar, and what `parseDTS` looks at.

  The parser takes the first `};` behind the header for the end of the root, be it that of a
  nested node or in a value.

  * `upToEnd_tokens`: it looks at the tokens of the body up to the first with such an end.
  * `declared_eq_ownAt`: where the properties of the root are declared, told by the tokens.
-/
import PocketDarwin.DeviceBundle.DeviceTree

namespace PocketDarwin.DeviceBundle

/-! ## Sources -/

/-- Blanks between tokens. -/
abbrev Blanks := { t : Text // t.all isBlank = true }

/-- The characters of the names of properties and nodes. -/
def isNameChar (c : Char) : Bool := c.isAlphanum || [',', '.', '_', '+', '?', '#', '-'].contains c

/-- `name = "value";` -/
structure StringProperty where
  lead : Blanks
  name : { t : Text // t ≠ [] ∧ t.all isNameChar = true }
  beforeEq : Blanks
  afterEq : Blanks
  value : { t : Text // '"' ∉ t }
  beforeEnd : Blanks

/-- A declaration that is not a string, such as `reg = <0>;`. -/
abbrev Statement :=
  { t : Text // t.all (fun c => c != '"' && c != '\x7b' && c != '\x7d' && c != ';') = true }

/-- What a nested node starts with: its labels, name and unit address. -/
abbrev Head :=
  { t : Text // t.all (fun c => isNameChar c || isBlank c || c == ':' || c == '@') = true }

/-- The body of a node: its properties and nested nodes, in any order. -/
inductive Body where
  | nil
  | property (p : StringProperty) (rest : Body)
  | statement (s : Statement) (rest : Body)
  | node (head : Head) (body : Body) (lead space : Blanks) (rest : Body)

namespace StringProperty
variable (p : StringProperty)

/-- What stands in front of the value. -/
def opening : Text := p.lead.1 ++ p.name.1 ++ p.beforeEq.1 ++ '=' :: p.afterEq.1

def text : Text := p.opening ++ '"' :: (p.value.1 ++ '"' :: (p.beforeEnd.1 ++ [';']))

end StringProperty

namespace Body

def text : Body → Text
  | nil => []
  | property p rest => p.text ++ rest.text
  | statement s rest => s.1 ++ ';' :: rest.text
  | node head body lead space rest =>
    head.1 ++ '\x7b' :: (body.text ++ (lead.1 ++ '\x7d' :: (space.1 ++ ';' :: rest.text)))

/-- The string properties of a body that starts after `pos` characters: where each ends, its name
    and its value.  Those of nested nodes do not belong to it. -/
def declared (pos : ℕ) : Body → List (ℕ × Text × Text)
  | nil => []
  | property p rest =>
    (pos + p.text.length, p.name.1, p.value.1) :: rest.declared (pos + p.text.length)
  | statement s rest => rest.declared (pos + (s.1.length + 1))
  | node head body lead space rest =>
    rest.declared (pos + (head.1.length + 1 + body.text.length +
      (lead.1.length + 1 + space.1.length + 1)))

end Body

/-- A source with one root: `/ { ... };`, and what stands before and after it. -/
structure Source where
  before : Text
  not_header : ¬ header <:+: before
  body : Body
  lead : Blanks
  after : Text

def Source.text (src : Source) : Text :=
  src.before ++ header ++ (src.body.text ++ src.lead.1 ++ blockEnd ++ src.after)

/-! ## The first end of a block -/

/-- What stands before the first end of a block. -/
def upToEnd : Text → Text
  | [] => []
  | c :: s => if blockEnd <+: c :: s then [] else c :: upToEnd s

theorem blockEnd_isPrefix_cons {c : Char} {s : Text} :
    blockEnd <+: c :: s ↔ c = '\x7d' ∧ s.head? = some ';' := by
  cases s with
  | nil => simp [blockEnd]
  | cons d s => simp [blockEnd, eq_comm]

theorem upToEnd_append {a : Text} (h : ¬ blockEnd <:+: a) (hlast : '\x7d' ∉ a.getLast?) (b : Text) :
    upToEnd (a ++ b) = a ++ upToEnd b := by
  induction a with
  | nil => rfl
  | cons c a ih =>
    have hprefix : ¬ blockEnd <+: c :: (a ++ b) := by
      rw [blockEnd_isPrefix_cons]
      rintro ⟨rfl, hhead⟩
      cases a with
      | nil => exact hlast (by simp)
      | cons d a => exact h ((blockEnd_isPrefix_cons (s := d :: a)).2 ⟨rfl, hhead⟩).isInfix
    rw [List.cons_append, upToEnd, if_neg hprefix]
    refine congrArg _ (ih (fun hin => h (hin.trans (List.suffix_cons c a).isInfix))
      fun hmem => hlast ?_)
    cases a with
    | nil => cases hmem
    | cons d a => rwa [List.getLast?_cons_cons]

theorem upToEnd_append_of_not_mem {a : Text} (h : '\x7d' ∉ a) (b : Text) :
    upToEnd (a ++ b) = a ++ upToEnd b :=
  upToEnd_append (fun hin => h (hin.subset (by decide)))
    (fun hmem => h (List.mem_of_getLast? hmem)) b

/-- What follows the first end does not matter. -/
theorem upToEnd_append_of_isInfix {a : Text} (h : blockEnd <:+: a) (b : Text) :
    upToEnd (a ++ b) = upToEnd a := by
  induction a with
  | nil => exact absurd h (by decide)
  | cons c a ih =>
    rw [List.cons_append, upToEnd, upToEnd]
    by_cases hprefix : blockEnd <+: c :: a
    · have hlonger : blockEnd <+: c :: (a ++ b) := hprefix.trans (List.prefix_append (c :: a) b)
      rw [if_pos hprefix, if_pos hlonger]
    · have ha : blockEnd <:+: a := (List.infix_cons_iff.1 h).resolve_left hprefix
      rw [if_neg hprefix, if_neg, ih ha]
      rw [blockEnd_isPrefix_cons] at hprefix ⊢
      cases a with
      | nil => exact absurd ha (by decide)
      | cons d a => exact hprefix

theorem upToEnd_blockEnd (b : Text) : upToEnd (blockEnd ++ b) = [] :=
  if_pos (List.prefix_append blockEnd b)

theorem exists_eq_upToEnd {s : Text} (h : blockEnd <:+: s) : ∃ t, s = upToEnd s ++ blockEnd ++ t := by
  induction s with
  | nil => exact absurd h (by decide)
  | cons c s ih =>
    rw [upToEnd]
    split_ifs with hprefix
    · obtain ⟨t, ht⟩ := hprefix
      exact ⟨t, ht.symm⟩
    · obtain ⟨t, ht⟩ := ih ((List.infix_cons_iff.1 h).resolve_left hprefix)
      exact ⟨t, congrArg (c :: ·) ht⟩

theorem length_upToEnd_le (p t : Text) : (upToEnd (p ++ (blockEnd ++ t))).length ≤ p.length := by
  induction p with
  | nil => rw [List.nil_append, upToEnd_blockEnd]
  | cons c p ih =>
    rw [List.cons_append, upToEnd]
    split_ifs
    · exact Nat.zero_le _
    · exact Nat.succ_le_succ ih

theorem dropInfix?_blockEnd {s : Text} (h : blockEnd <:+: s) :
    ∃ t, s.dropInfix? blockEnd = some (upToEnd s, t) := by
  obtain ⟨t, ht⟩ := exists_eq_upToEnd h
  refine ⟨t, List.dropInfix?_eq_some_iff.2 ⟨⟨blockEnd, ht, beq_self_eq_true _⟩, ?_⟩⟩
  rintro p i t' rfl hi
  rw [eq_of_beq hi, List.append_assoc]
  exact length_upToEnd_le p t'

/-- A header does not overlap with another. -/
theorem dropInfix?_header {before : Text} (h : ¬ header <:+: before) (s : Text) :
    (before ++ header ++ s).dropInfix? header = some (before, s) := by
  refine List.dropInfix?_eq_some_iff.2 ⟨⟨header, rfl, beq_self_eq_true _⟩, fun p i t heq hi => ?_⟩
  rw [eq_of_beq hi, List.append_assoc, List.append_assoc] at heq
  rcases List.append_eq_append_iff.1 heq with ⟨a, rfl, -⟩ | ⟨a, rfl, ha⟩
  · rw [List.length_append]
    exact Nat.le_add_right _ _
  · match a with
    | [] => simp
    | [c] => simp [header] at ha
    | [c, d] => simp [header] at ha
    | c :: d :: e :: a =>
      obtain ⟨rfl, rfl, rfl, -⟩ : '/' = c ∧ ' ' = d ∧ '\x7b' = e ∧ _ := by simpa [header] using ha
      exact absurd ⟨p, a, by simp [header]⟩ h

theorem rootContent_eq {before s : Text} (hbefore : ¬ header <:+: before) (h : blockEnd <:+: s) :
    rootContent (before ++ header ++ s) = upToEnd s := by
  obtain ⟨t, ht⟩ := dropInfix?_blockEnd h
  rw [rootContent, dropInfix?_header hbefore]
  simp only [ht]

theorem head?_upToEnd (t : Text) : (upToEnd t).head? = some ';' ↔ t.head? = some ';' := by
  cases t with
  | nil => rfl
  | cons c t =>
    rw [upToEnd]
    split_ifs with hprefix
    · obtain ⟨rfl, -⟩ := blockEnd_isPrefix_cons.1 hprefix
      simp
    · rfl

theorem quote_not_mem_upToEnd {v : Text} (hv : '"' ∉ v) : '"' ∉ upToEnd v := by
  induction v with
  | nil => exact hv
  | cons c v ih =>
    rw [upToEnd]
    split_ifs
    · exact List.not_mem_nil
    · rw [List.mem_cons, not_or] at hv ⊢
      exact ⟨hv.1, ih hv.2⟩

/-! ## Tokens -/

/-- The tokens of the body of the root; `own` are the properties of the root itself. -/
inductive Token where
  | property (own : Bool) (p : StringProperty)
  | statement (s : Statement)
  | opening (head : Head)
  | closing (lead space : Blanks)

namespace Token

def text : Token → Text
  | property _ p => p.text
  | statement s => s.1 ++ [';']
  | opening head => head.1 ++ ['\x7b']
  | closing lead space => lead.1 ++ '\x7d' :: (space.1 ++ [';'])

/-- There is an end of a block in it, as the parser looks for it. -/
def ends : Token → Bool
  | property _ p => decide (blockEnd <:+: p.value.1)
  | closing _ space => space.1.isEmpty
  | _ => false

/-- What is in front of that end. -/
def shown : Token → Text
  | property _ p => p.opening ++ '"' :: upToEnd p.value.1
  | closing lead _ => lead.1
  | _ => []

end Token

def Body.tokens (own : Bool) : Body → List Token
  | nil => []
  | property p rest => .property own p :: rest.tokens own
  | statement s rest => .statement s :: rest.tokens own
  | node head body lead space rest =>
    .opening head :: (body.tokens false ++ .closing lead space :: rest.tokens own)

/-- What a token that starts after `pos` characters declares for the root. -/
def Token.declares (pos : ℕ) : Token → List (ℕ × Text × Text)
  | property true p => [(pos + p.text.length, p.name.1, p.value.1)]
  | _ => []

def ownAt (pos : ℕ) : List Token → List (ℕ × Text × Text)
  | [] => []
  | t :: l => t.declares pos ++ ownAt (pos + t.text.length) l

/-- What the parser sees of the tokens. -/
def content (tail : Text) : List Token → Text
  | [] => tail
  | t :: l => if t.ends then t.shown else t.text ++ content tail l

theorem text_eq_flatMap (b : Body) (own : Bool) : b.text = (b.tokens own).flatMap Token.text := by
  induction b generalizing own with
  | nil => rfl
  | property p rest ih => rw [Body.text, Body.tokens, List.flatMap_cons, ← ih own, Token.text]
  | statement s rest ih =>
    rw [Body.text, Body.tokens, List.flatMap_cons, ← ih own, Token.text, List.append_assoc]
    rfl
  | node head body lead space rest ih ih' =>
    rw [Body.text, Body.tokens, List.flatMap_cons, List.flatMap_append, List.flatMap_cons,
      ← ih false, ← ih' own]
    simp [Token.text]

/-- The properties of a nested node do not count. -/
theorem ownAt_nested (b : Body) (pos : ℕ) (l : List Token) :
    ownAt pos (b.tokens false ++ l) = ownAt (pos + b.text.length) l := by
  induction b generalizing pos l with
  | nil => rfl
  | property p rest ih =>
    rw [Body.tokens, List.cons_append, ownAt, ih, Body.text, List.length_append, ← Nat.add_assoc]
    rfl
  | statement s rest ih =>
    have hlen : pos + (Token.statement s).text.length + rest.text.length =
        pos + (Body.statement s rest).text.length := by
      simp only [Token.text, Body.text, List.length_append, List.length_cons, List.length_nil]
      omega
    rw [Body.tokens, List.cons_append, ownAt, ih, hlen]
    rfl
  | node head body lead space rest ih ih' =>
    have hlen : pos + (Token.opening head).text.length + body.text.length +
        (Token.closing lead space).text.length +
        rest.text.length = pos + (Body.node head body lead space rest).text.length := by
      simp only [Token.text, Body.text, List.length_append, List.length_cons, List.length_nil]
      omega
    rw [Body.tokens, List.cons_append, ownAt, List.append_assoc, ih, List.cons_append, ownAt, ih', hlen]
    rfl

theorem declared_eq_ownAt (b : Body) (pos : ℕ) : b.declared pos = ownAt pos (b.tokens true) := by
  induction b generalizing pos with
  | nil => rfl
  | property p rest ih =>
    rw [Body.declared, Body.tokens, ownAt, ih]
    rfl
  | statement s rest ih =>
    have hlen : pos + (s.1.length + 1) = pos + (Token.statement s).text.length := by
      simp [Token.text]
    rw [Body.declared, Body.tokens, ownAt, ih, hlen]
    rfl
  | node head body lead space rest ih ih' =>
    have hlen : pos + (head.1.length + 1 + body.text.length +
        (lead.1.length + 1 + space.1.length + 1)) =
        pos + (Token.opening head).text.length + body.text.length +
          (Token.closing lead space).text.length := by
      simp only [Token.text, List.length_append, List.length_cons, List.length_nil]
      omega
    rw [Body.declared, Body.tokens, ownAt, ownAt_nested, ownAt, ih', hlen]
    rfl

theorem StringProperty.length_text (p : StringProperty) :
    p.text.length = p.opening.length + p.value.1.length + p.beforeEnd.1.length + 3 := by
  simp only [text, List.length_append, List.length_cons, List.length_nil]
  omega

theorem lt_of_mem_ownAt {l : List Token} {pos : ℕ} {d : ℕ × Text × Text} (h : d ∈ ownAt pos l) :
    pos < d.1 := by
  induction l generalizing pos with
  | nil => cases h
  | cons t l ih =>
    rcases List.mem_append.1 h with h | h
    · rcases t with ⟨- | -, p⟩ | s | head | ⟨lead, space⟩
      · cases h
      · rw [Token.declares, List.mem_singleton] at h
        rw [h, p.length_text]
        exact Nat.lt_add_of_pos_right (Nat.succ_pos _)
      · cases h
      · cases h
      · cases h
    · exact lt_of_le_of_lt (Nat.le_add_right _ _) (ih h)

/-- Nothing is declared before a token ends. -/
theorem le_of_mem_ownAt {l : List Token} {t : Token} {pos : ℕ} {d : ℕ × Text × Text}
    (h : d ∈ ownAt pos (t :: l)) :
    pos + t.text.length ≤ d.1 := by
  rcases List.mem_append.1 h with h | h
  · rcases t with ⟨- | -, p⟩ | s | head | ⟨lead, space⟩
    · cases h
    · rw [Token.declares, List.mem_singleton] at h
      rw [h]
      exact le_rfl
    · cases h
    · cases h
    · cases h
  · exact (lt_of_mem_ownAt h).le

theorem ownAt_eq_nil_iff {l : List Token} {pos : ℕ} :
    ownAt pos l = [] ↔ ∀ p, Token.property true p ∉ l := by
  induction l generalizing pos with
  | nil => simp [ownAt]
  | cons t l ih =>
    rw [ownAt, List.append_eq_nil_iff, ih]
    rcases t with ⟨- | -, p⟩ | s | head | ⟨lead, space⟩
    · simp [Token.declares]
    · refine iff_of_false (fun h => List.cons_ne_nil _ _ h.1) fun h => h p List.mem_cons_self
    · simp [Token.declares]
    · simp [Token.declares]
    · simp [Token.declares]

theorem not_mem_of_all {b : Text} {f : Char → Bool} (hb : b.all f = true) {c : Char}
    (hc : f c = false) : c ∉ b := by
  intro hmem
  rw [List.all_eq_true.1 hb c hmem] at hc
  cases hc

namespace StringProperty
variable (p : StringProperty)

theorem not_mem_opening {c : Char} (hblank : isBlank c = false) (hname : isNameChar c = false)
    (heq : c ≠ '=') : c ∉ p.opening := by
  rw [opening]
  simp only [List.mem_append, List.mem_cons, not_or]
  exact ⟨⟨⟨not_mem_of_all p.lead.2 hblank, not_mem_of_all p.name.2.2 hname⟩,
    not_mem_of_all p.beforeEq.2 hblank⟩, heq, not_mem_of_all p.afterEq.2 hblank⟩

theorem quote_not_mem_opening : '"' ∉ p.opening :=
  p.not_mem_opening (by decide) (by decide) (by decide)

end StringProperty

namespace Token

theorem upToEnd_of_ends {t : Token} (ht : t.ends = true) (r : Text) :
    upToEnd (t.text ++ r) = t.shown := by
  cases t with
  | property own p =>
    have hvalue : blockEnd <:+: p.value.1 := by simpa [ends] using ht
    have hopening : '\x7d' ∉ p.opening ++ ['"'] := by
      simpa using p.not_mem_opening (c := '\x7d') (by decide) (by decide) (by decide)
    have hsplit : p.text ++ r = (p.opening ++ ['"']) ++ (p.value.1 ++ ('"' ::
        (p.beforeEnd.1 ++ [';']) ++ r)) := by
      simp [StringProperty.text]
    rw [text, hsplit, upToEnd_append_of_not_mem hopening, List.append_assoc,
      upToEnd_append_of_isInfix hvalue, shown]
    simp
  | closing lead space =>
    obtain rfl : space = ⟨[], rfl⟩ := Subtype.ext (List.isEmpty_iff.1 ht)
    have hlead : '\x7d' ∉ lead.1 := not_mem_of_all lead.2 (by decide)
    have hsplit : (closing lead ⟨[], rfl⟩).text ++ r = lead.1 ++ (blockEnd ++ r) := by
      simp [text, blockEnd]
    rw [hsplit, upToEnd_append_of_not_mem hlead, upToEnd_blockEnd, List.append_nil, shown]
  | statement s => cases ht
  | opening head => cases ht

theorem upToEnd_of_not_ends {t : Token} (ht : t.ends = false) (r : Text) :
    upToEnd (t.text ++ r) = t.text ++ upToEnd r := by
  cases t with
  | property own p =>
    have hvalue : ¬ blockEnd <:+: p.value.1 ++ ['"'] := by
      rw [List.infix_concat_iff]
      rintro (hsuffix | hin)
      · obtain ⟨x, hx⟩ := hsuffix
        have hlast := congrArg List.getLast? hx
        simp [blockEnd] at hlast
      · simp [ends, hin] at ht
    have hopening : '\x7d' ∉ p.opening ++ ['"'] := by
      simpa using p.not_mem_opening (c := '\x7d') (by decide) (by decide) (by decide)
    have hend : '\x7d' ∉ p.beforeEnd.1 ++ [';'] := by
      simpa using not_mem_of_all p.beforeEnd.2 (c := '\x7d') (by decide)
    have hsplit : ∀ y : Text, p.text ++ y = (p.opening ++ ['"']) ++ ((p.value.1 ++ ['"'])
        ++ ((p.beforeEnd.1 ++ [';']) ++ y)) := by
      intro y
      simp [StringProperty.text]
    rw [text, hsplit, hsplit, upToEnd_append_of_not_mem hopening, upToEnd_append hvalue (by simp),
      upToEnd_append_of_not_mem hend]
  | closing lead space =>
    obtain ⟨c, b, hspace⟩ : ∃ c b, space.1 = c :: b := List.exists_cons_of_ne_nil fun h => by
      simp [ends, h] at ht
    have hc : isBlank c = true := List.all_eq_true.1 space.2 c
      (by rw [hspace]; exact List.mem_cons_self)
    have hlead : '\x7d' ∉ lead.1 := not_mem_of_all lead.2 (by decide)
    have hrest : '\x7d' ∉ space.1 ++ [';'] := by
      simpa using not_mem_of_all space.2 (c := '\x7d') (by decide)
    have hsplit : ∀ y : Text, (closing lead space).text ++ y =
        lead.1 ++ ('\x7d' :: ((space.1 ++ [';']) ++ y)) := by
      intro y
      simp [text]
    have hprefix : ¬ blockEnd <+: '\x7d' :: ((space.1 ++ [';']) ++ r) := by
      rw [blockEnd_isPrefix_cons, hspace]
      rintro ⟨-, hhead⟩
      obtain rfl : c = ';' := by simpa using hhead
      cases hc
    rw [hsplit, hsplit, upToEnd_append_of_not_mem hlead, upToEnd, if_neg hprefix,
      upToEnd_append_of_not_mem hrest]
  | statement s =>
    refine upToEnd_append_of_not_mem (fun hmem => ?_) r
    rcases List.mem_append.1 hmem with hmem | hmem
    · exact not_mem_of_all s.2 (by decide) hmem
    · exact absurd hmem (by decide)
  | opening head =>
    refine upToEnd_append_of_not_mem (fun hmem => ?_) r
    rcases List.mem_append.1 hmem with hmem | hmem
    · exact not_mem_of_all head.2 (by decide) hmem
    · exact absurd hmem (by decide)

end Token

/-- **What the parser looks at**: the tokens up to the first end of a block. -/
theorem upToEnd_tokens {tail : Text} (htail : tail.all isBlank = true) (l : List Token)
    (after : Text) :
    upToEnd (l.flatMap Token.text ++ (tail ++ (blockEnd ++ after))) = content tail l := by
  induction l with
  | nil =>
    rw [List.flatMap_nil, List.nil_append,
      upToEnd_append_of_not_mem (not_mem_of_all htail (by decide)),
      upToEnd_blockEnd, List.append_nil, content]
  | cons t l ih =>
    rw [List.flatMap_cons, List.append_assoc, content]
    cases ht : t.ends with
    | true => rw [t.upToEnd_of_ends ht, if_pos rfl]
    | false => rw [t.upToEnd_of_not_ends ht, ih, if_neg Bool.false_ne_true]

end PocketDarwin.DeviceBundle
