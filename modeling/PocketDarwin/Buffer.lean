/-
  Arrays of C: a number of elements, and accesses by an index that are defined
  below that number only.  An access outside of the array is `none`.

  * `gets_eq_some`, `sets_eq_some`: what is copied out of an array and into it, element by
    element, if all of it is in the array.
  * `gets_puts_self`, `gets_puts_of_disjoint`: what was copied into an array is there, and nothing
    else has changed.
-/
import Mathlib.Logic.Function.Basic
import Mathlib.Data.Nat.Notation

namespace PocketDarwin

/-- An array of `size` elements; what `elem` is from `size` on is never seen. -/
structure Buffer (α : Type) where
  size : ℕ
  elem : ℕ → α

namespace Buffer
variable {α : Type}

/-- `size` elements of one value. -/
def filled (size : ℕ) (a : α) : Buffer α := ⟨size, fun _ => a⟩

/-- `b[i]` -/
def get (b : Buffer α) (i : ℕ) : Option α := if i < b.size then some (b.elem i) else none

/-- The array with the element `i` changed. -/
def put (b : Buffer α) (i : ℕ) (a : α) : Buffer α := ⟨b.size, Function.update b.elem i a⟩

/-- `b[i] = a` -/
def set (b : Buffer α) (i : ℕ) (a : α) : Option (Buffer α) :=
  if i < b.size then some (b.put i a) else none

/-- The `n` elements from `i` on. -/
def gets (b : Buffer α) : ℕ → ℕ → Option (List α)
  | _, 0 => some []
  | i, n + 1 => (b.get i).bind fun a => (b.gets (i + 1) n).map (a :: ·)

/-- The elements from `i` on are replaced by those of a list. -/
def sets (b : Buffer α) : ℕ → List α → Option (Buffer α)
  | _, [] => some b
  | i, a :: l => (b.set i a).bind fun b' => b'.sets (i + 1) l

/-- The array with the elements of a list from `i` on. -/
def puts (b : Buffer α) (i : ℕ) (l : List α) : Buffer α :=
  ⟨b.size, fun j => if i ≤ j then l.getD (j - i) (b.elem j) else b.elem j⟩

variable {b : Buffer α} {i j n : ℕ} {a : α} {l : List α}

theorem get_eq_some (h : i < b.size) : b.get i = some (b.elem i) := if_pos h

theorem set_eq_some (h : i < b.size) : b.set i a = some (b.put i a) := if_pos h

@[simp] theorem elem_put_self (b : Buffer α) (i : ℕ) (a : α) : (b.put i a).elem i = a := by
  simp [put]

theorem elem_put_of_ne (h : j ≠ i) (b : Buffer α) (a : α) : (b.put i a).elem j = b.elem j := by
  simp [put, h]

theorem gets_eq_some (h : i + n ≤ b.size) : b.gets i n = some ((List.range' i n).map b.elem) := by
  induction n generalizing i with
  | zero => rfl
  | succ n ih =>
    rw [gets, get_eq_some (by omega), Option.bind_some, ih (by omega), List.range'_succ,
      List.map_cons]; rfl

theorem elem_puts_of_lt (h : j < i) : (b.puts i l).elem j = b.elem j := if_neg (Nat.not_le.2 h)

theorem elem_puts_of_ge (h : i + l.length ≤ j) : (b.puts i l).elem j = b.elem j := by
  rw [puts]
  show (if i ≤ j then _ else _) = _
  rw [if_pos (by omega), List.getD_eq_getElem?_getD, List.getElem?_eq_none (by omega),
    Option.getD_none]

theorem elem_puts (h : n < l.length) : (b.puts i l).elem (i + n) = l[n] := by
  rw [puts]
  show (if i ≤ i + n then _ else _) = _
  rw [if_pos (Nat.le_add_right i n), Nat.add_sub_cancel_left, List.getD_eq_getElem?_getD,
    List.getElem?_eq_getElem h, Option.getD_some]

/-- What is copied from the same place of another array. -/
theorem elem_puts_range (b : Buffer α) (i n : ℕ) (f : ℕ → α) (j : ℕ) :
    (b.puts i ((List.range' i n).map f)).elem j = if i ≤ j ∧ j < i + n then f j else b.elem j := by
  by_cases hj : i ≤ j ∧ j < i + n
  · obtain ⟨k, rfl⟩ := Nat.exists_eq_add_of_le hj.1
    rw [if_pos hj, elem_puts (by rw [List.length_map, List.length_range']; omega)]
    simp
  · rw [if_neg hj]
    rcases Nat.lt_or_ge j i with hlt | hge
    · exact elem_puts_of_lt hlt
    · refine elem_puts_of_ge ?_
      rw [List.length_map, List.length_range']
      omega

theorem puts_nil : b.puts i [] = b := by
  cases b
  simp [puts]

theorem puts_cons : b.puts i (a :: l) = (b.put i a).puts (i + 1) l := by
  rw [puts, puts]
  congr 1
  funext j
  rcases Nat.lt_trichotomy j i with hlt | rfl | hgt
  · rw [if_neg (by omega), if_neg (by omega), elem_put_of_ne (by omega)]
  · rw [if_pos (Nat.le_refl j), if_neg (by omega), elem_put_self, Nat.sub_self]
    rfl
  · obtain ⟨k, rfl⟩ : ∃ k, j = i + 1 + k := ⟨j - (i + 1), by omega⟩
    rw [if_pos (by omega), if_pos (by omega), elem_put_of_ne (by omega), Nat.add_sub_cancel_left,
      Nat.add_assoc,
      Nat.add_sub_cancel_left, Nat.add_comm 1 k]
    rfl

theorem puts_append {l₁ l₂ : List α} : b.puts i (l₁ ++ l₂) = (b.puts i l₁).puts (i + l₁.length)
    l₂ := by
  induction l₁ generalizing i b with
  | nil => rw [puts_nil]; rfl
  | cons a l ih =>
    rw [List.cons_append, puts_cons, puts_cons, ih, List.length_cons, Nat.add_assoc, Nat.add_comm 1]

theorem sets_eq_some (h : i + l.length ≤ b.size) : b.sets i l = some (b.puts i l) := by
  induction l generalizing i b with
  | nil => rw [sets, puts_nil]
  | cons a l ih =>
    rw [List.length_cons] at h
    rw [sets, set_eq_some (by omega), Option.bind_some, ih (by simp only [put]; omega), puts_cons]

@[simp] theorem size_puts : (b.puts i l).size = b.size := rfl

/-- Nothing outside of the array is written. -/
theorem le_of_sets {b' : Buffer α} (h : b.sets i l = some b') (hl : l ≠ []) :
    i + l.length ≤ b.size := by
  induction l generalizing i b with
  | nil => exact absurd rfl hl
  | cons a l ih =>
    obtain ⟨b₁, hset, h⟩ := Option.bind_eq_some_iff.1 h
    rw [set] at hset
    split at hset
    · next hi =>
      obtain rfl := Option.some.inj hset
      rcases eq_or_ne l [] with rfl | hne
      · exact hi
      · have hle := ih h hne
        rw [List.length_cons]
        simp only [put] at hle
        omega
    · cases hset

/-- What was written is read. -/
theorem gets_puts_self (h : i + l.length ≤ b.size) : (b.puts i l).gets i l.length = some l := by
  have hsize : i + l.length ≤ (b.puts i l).size := h
  rw [gets_eq_some hsize]
  congr 1
  refine List.ext_getElem (by simp) fun n hn hn' => ?_
  rw [List.getElem_map, List.getElem_range', Nat.one_mul, elem_puts]

/-- What was not written is not changed. -/
theorem gets_puts_of_disjoint (h : j + n ≤ i ∨ i + l.length ≤ j) :
    (b.puts i l).gets j n = b.gets j n := by
  induction n generalizing j with
  | zero => rfl
  | succ n ih =>
    have helem : (b.puts i l).elem j = b.elem j := by
      rcases h with h | h
      · exact elem_puts_of_lt (by omega)
      · exact elem_puts_of_ge h
    rw [gets, gets, ih (by omega), get, get, helem]
    rfl

end Buffer

end PocketDarwin
