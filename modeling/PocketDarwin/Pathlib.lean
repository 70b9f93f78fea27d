/-
  Pure POSIX paths and their names, as Python's `pathlib` has them.

  A path is its root (none, `/` or `//`) and its parts.  The suffix of a name is its
  last dot with what follows, unless the dot is the first or the last character.
-/
import PocketDarwin.Text

namespace PocketDarwin

/-! ## Names -/

/-- `name.rfind('.')` -/
def rfindDot : Text → Option ℕ
  | [] => none
  | c :: cs =>
    match rfindDot cs with
    | some i => some (i + 1)
    | none => if c = '.' then some 0 else none

/-- The stem and the suffix of a name. -/
def splitSuffix (name : Text) : Text × Text :=
  match rfindDot name with
  | some i => if 0 < i ∧ i + 1 < name.length then (name.take i, name.drop i) else (name, [])
  | none => (name, [])

def nameStem (name : Text) : Text := (splitSuffix name).1

def nameSuffix (name : Text) : Text := (splitSuffix name).2

theorem rfindDot_eq_none {e : Text} : rfindDot e = none ↔ '.' ∉ e := by
  induction e with
  | nil => simp [rfindDot]
  | cons c e ih =>
    rw [rfindDot, List.mem_cons, not_or, ← ih]
    cases rfindDot e with
    | some i => simp
    | none => simp [eq_comm]

theorem rfindDot_append (s : Text) {e : Text} (h : '.' ∉ e) : rfindDot (s ++ '.' :: e) = some s.length := by
  induction s with
  | nil =>
    rw [List.nil_append, rfindDot, rfindDot_eq_none.2 h]
    rfl
  | cons c s ih => rw [List.cons_append, rfindDot, ih, List.length_cons]

/-- The last dot of a name. -/
theorem exists_of_rfindDot {name : Text} {i : ℕ} (h : rfindDot name = some i) :
    ∃ s e, name = s ++ '.' :: e ∧ s.length = i ∧ '.' ∉ e := by
  induction name generalizing i with
  | nil => cases h
  | cons c cs ih =>
    rw [rfindDot] at h
    cases hcs : rfindDot cs with
    | some j =>
      rw [hcs] at h
      obtain ⟨s, e, rfl, rfl, he⟩ := ih hcs
      exact ⟨c :: s, e, rfl, Option.some.inj h, he⟩
    | none =>
      simp only [hcs] at h
      split_ifs at h with hc
      exact ⟨[], cs, by rw [hc]; rfl, Option.some.inj h, rfindDot_eq_none.1 hcs⟩

/-- A name with a suffix. -/
theorem splitSuffix_append {s e : Text} (hs : s ≠ []) (he : e ≠ []) (hdot : '.' ∉ e) :
    splitSuffix (s ++ '.' :: e) = (s, '.' :: e) := by
  have hs' := List.length_pos_iff.2 hs
  have he' := List.length_pos_iff.2 he
  rw [splitSuffix, rfindDot_append s hdot]
  simp only [List.length_append, List.length_cons]
  rw [if_pos (by omega), List.take_left, List.drop_left]

/-- What a suffix looks like. -/
theorem splitSuffix_cases (name : Text) :
    splitSuffix name = (name, []) ∨
      ∃ s e, name = s ++ '.' :: e ∧ s ≠ [] ∧ e ≠ [] ∧ '.' ∉ e ∧ splitSuffix name = (s, '.' :: e) := by
  cases h : rfindDot name with
  | none => exact .inl (by rw [splitSuffix, h])
  | some i =>
    obtain ⟨s, e, rfl, rfl, he⟩ := exists_of_rfindDot h
    by_cases hlen : s ≠ [] ∧ e ≠ []
    · exact .inr ⟨s, e, rfl, hlen.1, hlen.2, he, splitSuffix_append hlen.1 hlen.2 he⟩
    · refine .inl ?_
      rw [splitSuffix, h]
      refine if_neg fun hpos => hlen ⟨List.length_pos_iff.1 hpos.1, ?_⟩
      rintro rfl
      simp at hpos

/-! ## Paths -/

structure Path where
  root : Text
  parts : List Text
  deriving DecidableEq

namespace Path

def name (p : Path) : Text := p.parts.getLast?.getD []

def parent (p : Path) : Path := ⟨p.root, p.parts.dropLast⟩

def stem (p : Path) : Text := nameStem p.name

def suffix (p : Path) : Text := nameSuffix p.name

/-- `p / name`, for the name of a file -/
def child (p : Path) (name : Text) : Path := ⟨p.root, p.parts ++ [name]⟩

/-- `p / q` -/
def join (p q : Path) : Path := if q.root = [] then ⟨p.root, p.parts ++ q.parts⟩ else q

/-- `p.with_suffix(suffix)`, which is an error for a path without a name -/
def withSuffix (p : Path) (suffix : Text) : Option Path :=
  if p.stem = [] then none else some (p.parent.child (p.stem ++ suffix))

/-- `p.relative_to(q)`, which is an error where `p` is not below `q` -/
def relativeTo (p q : Path) : Option Path :=
  if p.root = q.root ∧ q.parts <+: p.parts then some ⟨[], p.parts.drop q.parts.length⟩ else none

/-- `p.is_relative_to(q)` -/
def isRelativeTo (p q : Path) : Bool := (p.relativeTo q).isSome

/-- What paths are ordered by: the text, split at its slashes. -/
def sortKey (p : Path) : List Text :=
  if p.root ≠ [] then p.root.map (fun _ => []) ++ (if p.parts = [] then [[]] else p.parts)
  else if p.parts = [] then [['.']]
  else p.parts

@[simp] theorem child_name (p : Path) (name : Text) : (p.child name).name = name := by
  simp [child, Path.name]

@[simp] theorem child_parent (p : Path) (name : Text) : (p.child name).parent = p := by
  simp [child, parent]

theorem child_inj {p q : Path} {m n : Text} : p.child m = q.child n ↔ p = q ∧ m = n := by
  constructor
  · intro h
    exact ⟨by rw [← child_parent p m, h, child_parent], by rw [← child_name p m, h, child_name]⟩
  · rintro ⟨rfl, rfl⟩
    rfl

/-- A path with a name is that name in its parent. -/
theorem parent_child_name {p : Path} (h : p.name ≠ []) : p.parent.child p.name = p := by
  obtain ⟨root, parts⟩ := p
  cases hlast : parts.getLast? with
  | none => simp [Path.name, hlast] at h
  | some name =>
    obtain ⟨init, rfl⟩ := List.getLast?_eq_some_iff.1 hlast
    simp [child, parent, Path.name]

theorem stem_ne_nil {p : Path} (h : p.name ≠ []) : p.stem ≠ [] := by
  rw [stem, nameStem]
  rcases splitSuffix_cases p.name with h' | ⟨s, e, -, hs, -, -, h'⟩
  · rwa [h']
  · rwa [h']

theorem withSuffix_eq {p : Path} (h : p.name ≠ []) (suffix : Text) :
    p.withSuffix suffix = some (p.parent.child (p.stem ++ suffix)) := if_neg (stem_ne_nil h)

end Path

end PocketDarwin
