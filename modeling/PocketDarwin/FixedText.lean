/-
  Texts as Fortran has them: a variable has a fixed number of characters, and what is assigned to it
  is cut off or filled up with blanks.

  * `same_iff`: texts are equal if they are up to the blanks at the end.
  * `trim_fit`: a text that is not longer than a variable is in it, up to these blanks.
-/
import Mathlib.Data.List.DropRight
import PocketDarwin.Text

namespace PocketDarwin.FixedText

/-- `trim(s)` -/
def trim (s : Text) : Text := s.rdropWhile (· == ' ')

/-- `len_trim(s)` -/
def lenTrim (s : Text) : ℕ := (trim s).length

/-- What a variable of `n` characters is after the assignment of a text. -/
def fit (n : ℕ) (s : Text) : Text := s.take n ++ List.replicate (n - s.length) ' '

/-- `s == t`: the shorter one is filled up with blanks. -/
def Same (s t : Text) : Prop := fit (max s.length t.length) s = fit (max s.length t.length) t

instance (s t : Text) : Decidable (Same s t) := inferInstanceAs (Decidable (_ = _))

/-- `adjustl(s)` -/
def adjustl (s : Text) : Text := s.dropWhile (· == ' ') ++ s.takeWhile (· == ' ')

/-- `index(s, t)`: the first place of `t`, counted from 1. -/
def index (t : Text) : Text → ℕ
  | [] => if t = [] then 1 else 0
  | c :: s => if t.isPrefixOf (c :: s) then 1 else if index t s = 0 then 0 else index t s + 1

variable {s t : Text} {n k : ℕ}

@[simp] theorem trim_nil : trim [] = [] := rfl

@[simp] theorem trim_trim : trim (trim s) = trim s := List.rdropWhile_idempotent _ _

theorem length_trim_le : (trim s).length ≤ s.length := (List.rdropWhile_prefix _ s).length_le

theorem trim_append_blanks : trim (s ++ List.replicate k ' ') = trim s := by
  induction k with
  | zero => rw [List.replicate_zero, List.append_nil]
  | succ k ih =>
    rw [List.replicate_succ', ← List.append_assoc, trim, List.rdropWhile_concat_pos _ _ _ rfl,
      ← trim, ih]

theorem exists_blanks (s : Text) : ∃ k, s = trim s ++ List.replicate k ' ' := by
  refine ⟨(s.rtakeWhile (· == ' ')).length, ?_⟩
  have hblank : s.rtakeWhile (· == ' ') = List.replicate (s.rtakeWhile (· == ' ')).length ' ' :=
    List.eq_replicate_iff.2 ⟨rfl, fun c hc => by simpa using List.mem_rtakeWhile_imp hc⟩
  rw [trim, ← hblank, List.rdropWhile_append_rtakeWhile]

/-- A text without a blank at the end. -/
theorem trim_eq_self (h : s.getLast? ≠ some ' ') : trim s = s := by
  rw [trim, List.rdropWhile_eq_self_iff]
  intro hne hblank
  rw [List.getLast?_eq_some_getLast hne, beq_iff_eq.1 hblank] at h
  exact h rfl

@[simp] theorem length_fit : (fit n s).length = n := by
  rw [fit, List.length_append, List.length_take, List.length_replicate]
  omega

theorem fit_of_le (h : s.length ≤ n) : fit n s = s ++ List.replicate (n - s.length) ' ' := by
  rw [fit, List.take_of_length_le h]

theorem trim_fit (h : s.length ≤ n) : trim (fit n s) = trim s := by
  rw [fit_of_le h, trim_append_blanks]

/-- What is cut off of a text without blanks. -/
theorem trim_fit_of_no_blanks (h : ' ' ∉ s) : trim (fit n s) = s.take n := by
  rw [fit, trim_append_blanks]
  exact trim_eq_self fun hblank => h (List.mem_of_mem_take (List.mem_of_getLast? hblank))

theorem fit_trim (h : s.length ≤ n) : fit n (trim s) = fit n s := by
  obtain ⟨k, hk⟩ := exists_blanks s
  have hlen := congrArg List.length hk
  rw [List.length_append, List.length_replicate] at hlen
  have hblanks : n - (trim s).length = k + (n - s.length) := by omega
  rw [fit_of_le h, fit_of_le (length_trim_le.trans h), hblanks, List.replicate_add,
    ← List.append_assoc, ← hk]

theorem same_iff : Same s t ↔ trim s = trim t := by
  constructor
  · intro h
    rw [← trim_fit (s := s) (le_max_left _ t.length), h, trim_fit (le_max_right _ _)]
  · intro h
    rw [Same, ← fit_trim (le_max_left _ _), h, fit_trim (le_max_right _ _)]

end PocketDarwin.FixedText
