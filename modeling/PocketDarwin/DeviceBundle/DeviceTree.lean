/-
  The device trees of libDeviceBundle (`DeviceTree.cpp`): the parser for the properties of
  the root, and the printer.

  The parser reads what stands between the first header of a root and the next end of a
  block.  The printer writes the end of the root, and no header for it: a header is found
  only inside a name, a key or a value (`header_isInfix_iff`).

  * `roundTrips_iff_empty`: a printed tree without such a header is read back with the properties of its
    root exactly if there are none.
-/
import Mathlib.Data.List.Infix
import Mathlib.Data.List.Lex
import Mathlib.Data.Char
import Mathlib.Tactic.Common
import PocketDarwin.Text

namespace PocketDarwin.DeviceBundle

/-! ## Properties -/

/-- A `std::map` of strings: the entries in the order of their keys. -/
structure Properties where
  entries : List (Text × Text)
  sorted : entries.Pairwise fun a b => a.1 < b.1
deriving DecidableEq

/-- `properties[key] = value`, on the entries. -/
def setEntry (key value : Text) : List (Text × Text) → List (Text × Text)
  | [] => [(key, value)]
  | e :: l =>
    if key < e.1 then (key, value) :: e :: l
    else if key = e.1 then (key, value) :: l
    else e :: setEntry key value l

theorem mem_setEntry {key value : Text} {l : List (Text × Text)} {e : Text × Text} (h : e ∈ setEntry key value l) :
    e = (key, value) ∨ e ∈ l := by
  induction l with
  | nil => exact .inl (List.mem_singleton.1 h)
  | cons d l ih =>
    rw [setEntry] at h
    split_ifs at h with hlt heq
    · exact List.mem_cons.1 h
    · exact (List.mem_cons.1 h).imp_right (List.mem_cons_of_mem d)
    · rcases List.mem_cons.1 h with rfl | h
      · exact .inr List.mem_cons_self
      · exact (ih h).imp_right (List.mem_cons_of_mem d)

theorem pairwise_setEntry (key value : Text) {l : List (Text × Text)} (h : l.Pairwise fun a b => a.1 < b.1) :
    (setEntry key value l).Pairwise fun a b => a.1 < b.1 := by
  induction l with
  | nil => exact List.pairwise_singleton _ _
  | cons d l ih =>
    obtain ⟨hd, hl⟩ := List.pairwise_cons.1 h
    rw [setEntry]
    split_ifs with hlt heq
    · refine List.pairwise_cons.2 ⟨fun e he => ?_, h⟩
      rcases List.mem_cons.1 he with rfl | he
      · exact hlt
      · exact lt_trans hlt (hd e he)
    · exact List.pairwise_cons.2 ⟨fun e he => heq ▸ hd e he, hl⟩
    · refine List.pairwise_cons.2 ⟨fun e he => ?_, ih hl⟩
      rcases mem_setEntry he with rfl | he
      · exact lt_of_le_of_ne (not_lt.1 hlt) (Ne.symm heq)
      · exact hd e he

namespace Properties

def empty : Properties := ⟨[], List.Pairwise.nil⟩

/-- `addProperty` -/
def addProperty (key value : Text) (m : Properties) : Properties :=
  ⟨setEntry key value m.entries, pairwise_setEntry key value m.sorted⟩

end Properties

/-! ## Trees -/

/-- `DeviceTree::Node` -/
inductive Node where
  | mk (name : Text) (properties : Properties) (children : List Node)

namespace Node

def name : Node → Text
  | mk name _ _ => name

def properties : Node → Properties
  | mk _ properties _ => properties

end Node

/-- A `DeviceTree`: its root has the name that the constructor gives it. -/
structure DeviceTree where
  root : Node
  name_root : root.name = ['/']

/-! ## The parser -/

/-- `\w` -/
def isWord (c : Char) : Bool := c.isAlphanum || c == '_'

/-- `\s` -/
def isBlank (c : Char) : Bool := c == ' ' || c == '\t' || c == '\n' || c == '\x0b' || c == '\x0c' || c == '\r'

/-- The match of `(\w+)\s*=\s*"([^"]*)";` that starts here: the two groups and the suffix.  No
    part of the pattern can give up a character to the next one, so that there is at most one. -/
def matchHere (s : Text) : Option (Text × Text × Text) :=
  match s.takeWhile isWord, (s.dropWhile isWord).dropWhile isBlank with
  | key@(_ :: _), '=' :: s =>
    match s.dropWhile isBlank with
    | '"' :: s =>
      match s.dropWhile (· != '"') with
      | '"' :: ';' :: suffix => some (key, s.takeWhile (· != '"'), suffix)
      | _ => none
    | _ => none
  | _, _ => none

/-- `std::regex_search`: the leftmost match. -/
def regexSearch : Text → Option (Text × Text × Text)
  | [] => none
  | c :: s => (matchHere (c :: s)).or (regexSearch s)

/-- The matches that the loop of `parseDTS` finds, if it has at most `n` rounds. -/
def readProperties : ℕ → Text → List (Text × Text)
  | 0, _ => []
  | n + 1, s =>
    match regexSearch s with
    | none => []
    | some (key, value, suffix) => (key, value) :: readProperties n suffix

/-- The header of a root. -/
def header : Text := "/ \x7b".toList

/-- The end of a block. -/
def blockEnd : Text := "\x7d;".toList

/-- `parseDTS`, on the properties of the root: whether it succeeds, and what it makes of them.
    Every match takes a character, so that the length of the content bounds the rounds. -/
def parseDTS (dtsContent : Text) (root : Properties) : Bool × Properties :=
  match dtsContent.dropInfix? header with
  | none => (true, root)
  | some (_, rest) =>
    match rest.dropInfix? blockEnd with
    | none => (true, root)
    | some (rootContent, _) =>
      (true, (readProperties rootContent.length rootContent).foldl (fun m e => m.addProperty e.1 e.2) root)

/-- What `parseDTS` looks at: the text from the first header to the next end of a block. -/
def rootContent (dtsContent : Text) : Text :=
  match dtsContent.dropInfix? header with
  | none => []
  | some (_, rest) =>
    match rest.dropInfix? blockEnd with
    | none => []
    | some (content, _) => content

/-! ## The printer -/

def indentStr (indent : ℕ) : Text := List.replicate (indent * 4) ' '

def printProperty (indent : ℕ) (e : Text × Text) : Text :=
  indentStr indent ++ "    ".toList ++ e.1 ++ " = \"".toList ++ e.2 ++ "\";\n".toList

mutual

/-- `printNode` of `toString` -/
def printNode (indent : ℕ) : Node → Text
  | .mk name properties children =>
    (if name ≠ ['/'] then indentStr indent ++ name ++ " \x7b\n".toList else []) ++
      properties.entries.flatMap (printProperty indent) ++ printNodes (indent + 1) children ++
      if name ≠ ['/'] then indentStr indent ++ "\x7d;\n".toList else "\x7d;\n".toList

def printNodes (indent : ℕ) : List Node → Text
  | [] => []
  | child :: children => printNode indent child ++ printNodes indent children

end

/-- `toString` -/
def DeviceTree.print (t : DeviceTree) : Text := "/dts-v1/;\n\n".toList ++ printNode 0 t.root

/-- The printed tree is parsed into an empty one, with the properties of the root. -/
def DeviceTree.RoundTrips (t : DeviceTree) : Prop := parseDTS t.print .empty = (true, t.root.properties)

instance (t : DeviceTree) : Decidable t.RoundTrips := inferInstanceAs (Decidable (_ = _))

/-! ## Headers in a printed tree -/

mutual

/-- The node, or one below it, has a header inside its name, or in a key or a value. -/
def Node.Carries : Node → Prop
  | .mk name properties children =>
    (name ≠ ['/'] ∧ header <:+: name ++ " \x7b".toList) ∨
      (∃ e ∈ properties.entries, header <:+: e.1 ∨ header <:+: e.2) ∨ Node.CarriesAny children

def Node.CarriesAny : List Node → Prop
  | [] => False
  | child :: children => child.Carries ∨ Node.CarriesAny children

end

/-- A character that no header has separates headers. -/
theorem header_isInfix_append {c : Char} (hc : c ∉ header) (a b : Text) :
    header <:+: a ++ c :: b ↔ header <:+: a ∨ header <:+: b := by
  constructor
  · rintro ⟨p, q, heq⟩
    rw [List.append_assoc, List.append_eq_append_iff] at heq
    rcases heq with ⟨a', rfl, ha'⟩ | ⟨c', rfl, hc'⟩
    · rw [List.append_eq_append_iff] at ha'
      rcases ha' with ⟨r, rfl, -⟩ | ⟨r, hr, hcb⟩
      · exact .inl ⟨p, r, by simp⟩
      · -- the header would reach over the character
        cases r with
        | nil => exact .inl ⟨p, [], by simp [hr]⟩
        | cons d r =>
          rw [List.cons_append, List.cons.injEq] at hcb
          refine absurd ?_ hc
          rw [hr, hcb.1]
          simp
    · cases c' with
      | nil =>
        obtain rfl : c = '/' := by simpa [header] using congrArg List.head? hc'
        exact absurd (by decide) hc
      | cons d c' =>
        rw [List.cons_append, List.cons.injEq] at hc'
        exact .inr ⟨c', q, by rw [List.append_assoc]; exact hc'.2.symm⟩
  · rintro (h | h)
    · exact h.trans (List.prefix_append a (c :: b)).isInfix
    · exact h.trans ⟨a ++ [c], [], by simp⟩

/-- Blanks in front of a text add no header, and a blank behind it adds none. -/
theorem header_isInfix_indent (n : ℕ) (a : Text) : header <:+: List.replicate n ' ' ++ a ↔ header <:+: a := by
  induction n with
  | zero => rfl
  | succ n ih =>
    rw [List.replicate_succ, List.cons_append, List.infix_cons_iff, ih, or_iff_right_iff_imp]
    intro h
    simp [header] at h

theorem header_isInfix_blank (a : Text) : header <:+: a ++ [' '] ↔ header <:+: a := by
  rw [List.infix_concat_iff, or_iff_right_iff_imp]
  rintro ⟨b, hb⟩
  have := congrArg List.getLast? hb
  simp [header] at this

theorem header_isInfix_property (indent : ℕ) (e : Text × Text) (rest : Text) :
    header <:+: printProperty indent e ++ rest ↔ (header <:+: e.1 ∨ header <:+: e.2) ∨ header <:+: rest := by
  have hkey : header <:+: indentStr indent ++ "    ".toList ++ e.1 ++ [' '] ↔ header <:+: e.1 := by
    rw [header_isInfix_blank, indentStr, show "    ".toList = List.replicate 4 ' ' from rfl,
      List.append_assoc,
      header_isInfix_indent, header_isInfix_indent]
  have hsplit : printProperty indent e ++ rest =
      (indentStr indent ++ "    ".toList ++ e.1 ++ [' '])
        ++ '=' :: ([' '] ++ '"' :: (e.2 ++ '"' :: ([] ++ ';' ::
        ([] ++ '\n' :: rest)))) := by
    simp [printProperty]
  rw [hsplit, header_isInfix_append (c := '=') (by decide),
    header_isInfix_append (c := '"') (by decide),
    header_isInfix_append (c := '"') (by decide), header_isInfix_append (c := ';') (by decide),
    header_isInfix_append (c := '\n') (by decide), hkey]
  have h₁ : ¬ header <:+: [' '] := by decide
  have h₂ : ¬ header <:+: [] := by decide
  simp only [h₁, h₂, false_or, or_assoc]

theorem header_isInfix_properties (indent : ℕ) (l : List (Text × Text)) (rest : Text) :
    header <:+: l.flatMap (printProperty indent) ++ rest ↔
      (∃ e ∈ l, header <:+: e.1 ∨ header <:+: e.2) ∨ header <:+: rest := by
  induction l with
  | nil => simp
  | cons e l ih =>
    rw [List.flatMap_cons, List.append_assoc, header_isInfix_property, ih, List.exists_mem_cons_iff]
    exact or_assoc.symm

theorem header_isInfix_name (indent : ℕ) (name rest : Text) :
    header <:+: indentStr indent ++ name ++ " \x7b\n".toList ++ rest ↔
      header <:+: name ++ " \x7b".toList ∨ header <:+: rest := by
  have hsplit : indentStr indent ++ name ++ " \x7b\n".toList ++ rest =
      (indentStr indent ++ (name ++ " \x7b".toList)) ++ '\n' :: rest := by
    simp
  rw [hsplit, header_isInfix_append (by decide), indentStr, header_isInfix_indent]

theorem header_isInfix_end (indent : ℕ) (rest : Text) :
    header <:+: indentStr indent ++ "\x7d;\n".toList ++ rest ↔ header <:+: rest := by
  have hsplit : indentStr indent ++ "\x7d;\n".toList ++ rest =
      indentStr indent ++ ([] ++ '\x7d' :: ([] ++ ';' :: ([] ++ '\n' :: rest))) := by
    simp
  have h : ¬ header <:+: [] := by decide
  rw [hsplit, indentStr, header_isInfix_indent, header_isInfix_append (by decide),
    header_isInfix_append (by decide),
    header_isInfix_append (by decide)]
  simp only [h, false_or]

mutual

/-- **A printed node has the headers that it carries**, and none else. -/
theorem header_isInfix_node (indent : ℕ) (rest : Text) :
    ∀ n : Node, header <:+: printNode indent n ++ rest ↔ n.Carries ∨ header <:+: rest
  | .mk name properties children => by
    rw [printNode, Node.Carries]
    by_cases hname : name = ['/']
    · have hend := header_isInfix_end 0 rest
      rw [indentStr, Nat.zero_mul, List.replicate_zero, List.nil_append] at hend
      simp only [hname, ne_eq, not_true_eq_false, if_false, List.nil_append, List.append_assoc, false_and, false_or]
      rw [header_isInfix_properties, header_isInfix_nodes, hend, or_assoc]
    · simp only [hname, ne_eq, not_false_eq_true, if_true, true_and]
      rw [List.append_assoc, List.append_assoc, List.append_assoc, header_isInfix_name, header_isInfix_properties,
        header_isInfix_nodes, header_isInfix_end, or_assoc, or_assoc]

theorem header_isInfix_nodes (indent : ℕ) (rest : Text) :
    ∀ l : List Node, header <:+: printNodes indent l ++ rest ↔ Node.CarriesAny l ∨ header <:+: rest
  | [] => by simp [printNodes, Node.CarriesAny]
  | child :: children => by
    rw [printNodes, Node.CarriesAny, List.append_assoc, header_isInfix_node, header_isInfix_nodes, or_assoc]

end

theorem header_isInfix_iff (t : DeviceTree) : header <:+: t.print ↔ t.root.Carries := by
  have hsplit : t.print = "/dts-v1/".toList ++ ';' ::
      ([] ++ '\n' :: ([] ++ '\n' :: (printNode 0 t.root ++ []))) := by
    rw [List.append_nil]
    rfl
  have h₁ : ¬ header <:+: "/dts-v1/".toList := by decide
  have h₂ : ¬ header <:+: [] := by decide
  rw [hsplit, header_isInfix_append (by decide), header_isInfix_append (by decide),
    header_isInfix_append (by decide),
    header_isInfix_node]
  simp only [h₁, h₂, false_or, or_false]

/-! ## The round trip -/

/-- Without a header the properties stay what they are. -/
theorem parseDTS_of_not_isInfix {dtsContent : Text} (h : ¬ header <:+: dtsContent) (root : Properties) :
    parseDTS dtsContent root = (true, root) := by
  unfold parseDTS
  cases hd : dtsContent.dropInfix? header with
  | none => rfl
  | some r =>
    obtain ⟨⟨i, rfl, hi⟩, -⟩ := List.dropInfix?_eq_some_iff.1 hd
    rw [eq_of_beq hi] at h
    exact absurd ⟨r.1, r.2, rfl⟩ h

theorem roundTrips_of_not_carries {t : DeviceTree} (h : ¬ t.root.Carries) :
    t.RoundTrips ↔ t.root.properties = .empty := by
  have hparse := parseDTS_of_not_isInfix (fun hin => h ((header_isInfix_iff t).1 hin)) .empty
  rw [DeviceTree.RoundTrips, hparse, Prod.mk.injEq, eq_self, true_and]
  exact eq_comm

/-- **The round trip.**  A tree without headers is read back if its root has no properties, and one that is
    read back has none, or a header somewhere. -/
theorem roundTrips_iff_empty (t : DeviceTree) :
    (¬ t.root.Carries ∧ t.root.properties = .empty → t.RoundTrips) ∧
      (t.RoundTrips → t.root.properties = .empty ∨ t.root.Carries) := by
  constructor
  · rintro ⟨hcarries, hempty⟩
    exact (roundTrips_of_not_carries hcarries).2 hempty
  · intro htrip
    by_cases hcarries : t.root.Carries
    · exact .inr hcarries
    · exact .inl ((roundTrips_of_not_carries hcarries).1 htrip)

/-- A root without properties, and a child with one. -/
theorem roundTrips_child :
    DeviceTree.RoundTrips
      ⟨.mk ['/'] .empty [.mk ['c'] ⟨[("model".toList, "x".toList)], List.pairwise_singleton _ _⟩ []], rfl⟩ := by
  refine (roundTrips_iff_empty _).1 ⟨?_, rfl⟩
  simp only [Node.Carries, Node.CarriesAny]
  decide

/-- A root with a property and no children. -/
theorem not_roundTrips_model :
    ¬ DeviceTree.RoundTrips
      ⟨.mk ['/'] ⟨[("model".toList, "x".toList)], List.pairwise_singleton _ _⟩ [], rfl⟩ := by
  decide

end PocketDarwin.DeviceBundle
