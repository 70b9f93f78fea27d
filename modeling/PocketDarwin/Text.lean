/-
  Texts as lists of characters, read from left to right.

  A reader keeps a position in a text; here the position is the part of the
  text that is still to be read, a suffix of the whole.  `slice a b` is the
  text between two positions, `a` the earlier one (Python's
  `text[start:pos]`), and a reader is lossless when the position it returns is
  a suffix of the one it was given (`slice_append`).
-/
import Mathlib.Data.List.TakeWhile

namespace PocketDarwin

/-- A text. -/
abbrev Text := List Char

/-- The text read between the position `a` and the later position `b`. -/
def slice (a b : Text) : Text := a.take (a.length - b.length)

@[simp] theorem slice_self (a : Text) : slice a a = [] := by
  simp [slice]

@[simp] theorem slice_append (w b : Text) : slice (w ++ b) b = w := by
  simp [slice]

@[simp] theorem slice_nil (a : Text) : slice a [] = a := by
  simp [slice]

theorem slice_append_of_suffix {a b : Text} (h : b <:+ a) : slice a b ++ b = a := by
  obtain ⟨w, rfl⟩ := h
  rw [slice_append]

theorem append_slice {a b : Text} (h : b <:+ a) (w : Text) : slice (w ++ a) b = w ++ slice a b := by
  obtain ⟨v, rfl⟩ := h
  rw [slice_append, ← List.append_assoc, slice_append]

theorem length_lt_append {w : Text} (h : w ≠ []) (r : Text) : r.length < (w ++ r).length := by
  have := List.length_pos_iff.2 h
  simp only [List.length_append]; omega

/-! ## Runs -/

section
variable {p : Char → Bool}

/-- A run of `p` characters is read whole when what follows does not continue it. -/
theorem takeWhile_run {w r : Text} (hw : ∀ c ∈ w, p c) (hr : ∀ c ∈ r.head?, ¬ p c) :
    (w ++ r).takeWhile p = w := by
  rw [List.takeWhile_append_of_pos hw]
  cases r with
  | nil => simp
  | cons c r => simp [hr c (by simp)]

theorem dropWhile_run {w r : Text} (hw : ∀ c ∈ w, p c) (hr : ∀ c ∈ r.head?, ¬ p c) :
    (w ++ r).dropWhile p = r := by
  rw [List.dropWhile_append_of_pos hw]
  cases r with
  | nil => simp
  | cons c r => simp [hr c (by simp)]

theorem dropWhile_length_le (p : Char → Bool) (l : Text) : (l.dropWhile p).length ≤ l.length :=
  (List.dropWhile_suffix p).length_le

end

end PocketDarwin
