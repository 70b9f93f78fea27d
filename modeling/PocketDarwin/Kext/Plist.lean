/-
  Values of property lists and of registry properties.

  An `id` that comes out of a property list or a registry property is a string, an
  array, a dictionary, or an object of another class.  The framework tells these apart
  by `isKindOfClass:` and compares them by `isEqual:`.
-/
import PocketDarwin.Text
import Mathlib.Data.Nat.Notation

namespace PocketDarwin.Kext

/-- An object.  Those that are no strings, arrays or dictionaries (numbers, data, dates) are told
    apart by a number; two of them are equal if they have the same one. -/
inductive Object where
  | string (s : Text)
  | array (l : List Object)
  | dictionary (d : List (Text × Object))
  | other (n : ℕ)

/-- A dictionary, in the order it is enumerated in. -/
abbrev Dictionary (α : Type) := List (Text × α)

namespace Dictionary
variable {α : Type}

/-- `[d objectForKey:key]` -/
def objectForKey (d : Dictionary α) (key : Text) : Option α := d.lookup key

/-- `[d removeObjectForKey:key]` -/
def removeObjectForKey (d : Dictionary α) (key : Text) : Dictionary α := d.filter fun p => p.1 != key

/-- `[d setObject:a forKey:key]` -/
def setObjectForKey (d : Dictionary α) (a : α) (key : Text) : Dictionary α := d.removeObjectForKey key ++ [(key, a)]

end Dictionary

mutual

/-- `[a isEqual:b]` -/
def Object.isEqual : Object → Object → Bool
  | .string s, .string t => s == t
  | .other n, .other m => n == m
  | .array l, .array m => isEqualToArray l m
  | .dictionary d, .dictionary e => d.length == e.length && isEqualToDictionary d e
  | _, _ => false
termination_by structural a => a

/-- `[l isEqualToArray:m]` -/
def isEqualToArray : List Object → List Object → Bool
  | [], [] => true
  | a :: l, b :: m => a.isEqual b && isEqualToArray l m
  | _, _ => false
termination_by structural l => l

/-- The values of `d` are equal to those of `e` for the same keys. -/
def isEqualToDictionary : List (Text × Object) → List (Text × Object) → Bool
  | [], _ => true
  | p :: d, e => hasEqualObject p e && isEqualToDictionary d e
termination_by structural d => d

/-- `e` has an equal value for the key of `p`. -/
def hasEqualObject : Text × Object → List (Text × Object) → Bool
  | (key, a), e => match e.lookup key with
    | some b => a.isEqual b
    | none => false
termination_by structural p => p

end

/-- `[s isEqualToString:t]` for strings that may be nil. -/
def isEqualToString : Option Text → Option Text → Bool
  | some s, some t => s == t
  | _, _ => false

@[simp] theorem isEqualToString_iff {a b : Option Text} : isEqualToString a b ↔ a = b ∧ a ≠ none := by
  cases a <;> cases b <;> simp [isEqualToString]

end PocketDarwin.Kext
