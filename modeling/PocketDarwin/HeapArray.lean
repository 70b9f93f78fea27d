/-
  Arrays on the heap that one pointer owns.

  The pointer is null, points to an array, or points to one that was freed.  Elements that were
  never written have no value.  What the C library does not define (an access outside of the
  array, or through a pointer that is null or freed; freeing twice) is `none`.

  `p.Holds l`: the first elements are those of `l`.

  * `Holds.realloc`, `Holds.set`, `Holds.push`, `Holds.insert`, `Holds.erase`: what can be done to
    an array, and what it holds then.
-/
import PocketDarwin.Buffer
import Mathlib.Data.List.InsertIdx
import Mathlib.Tactic.SplitIfs

namespace PocketDarwin

/-- A pointer to an array. -/
inductive HeapArray (α : Type) where
  | null
  | block (b : Buffer (Option α))
  | freed

namespace HeapArray
variable {α : Type}

/-- `realloc` to `n` elements; it does not fail. -/
def realloc (n : ℕ) : HeapArray α → Option (HeapArray α)
  | null => some (block ⟨n, fun _ => none⟩)
  | block b => some (block ⟨n, fun i => if i < b.size then b.elem i else none⟩)
  | freed => none

/-- `free`; the pointer stays what it is. -/
def free : HeapArray α → Option (HeapArray α)
  | null => some null
  | block _ => some freed
  | freed => none

/-- `p[i]` -/
def get (i : ℕ) : HeapArray α → Option α
  | block b => (b.get i).join
  | _ => none

/-- `p[i] = a` -/
def set (i : ℕ) (a : α) : HeapArray α → Option (HeapArray α)
  | block b => (b.set i (some a)).map block
  | _ => none

/-- `memmove(p + dest, p + src, n)`, of elements. -/
def move (dest src n : ℕ) : HeapArray α → Option (HeapArray α)
  | block b => (b.gets src n).bind fun l => (b.sets dest l).map block
  | _ => none

/-- The loop that moves elements down by one, of `n` rounds. -/
def shift (i : ℕ) : ℕ → HeapArray α → Option (HeapArray α)
  | 0, p => some p
  | n + 1, p => (p.get (i + 1)).bind fun a => (p.set i a).bind (shift (i + 1) n)

/-- The number of elements that are allocated. -/
def size : HeapArray α → ℕ
  | block b => b.size
  | _ => 0

/-- The first elements are those of the list. -/
def Holds (p : HeapArray α) (l : List α) : Prop :=
  match p with
  | null => l = []
  | block b => l.length ≤ b.size ∧ ∀ i (hi : i < l.length), b.elem i = some l[i]
  | freed => False

variable {p : HeapArray α} {b : Buffer (Option α)} {l l' : List α} {a : α} {i n : ℕ}

theorem Holds.get (h : p.Holds l) (hi : i < l.length) : p.get i = some l[i] := by
  cases p with
  | null =>
    obtain rfl : l = [] := h
    exact absurd hi (Nat.not_lt_zero i)
  | block b => rw [HeapArray.get, Buffer.get_eq_some (Nat.lt_of_lt_of_le hi h.1), h.2 i hi]; rfl
  | freed => exact h.elim

/-- An array holds what it holds a longer list of. -/
theorem Holds.of_prefix (h : p.Holds l) (hl : l' <+: l) : p.Holds l' := by
  cases p with
  | null =>
    obtain rfl : l = [] := h
    exact List.prefix_nil.1 hl
  | block b =>
    refine ⟨Nat.le_trans hl.length_le h.1, fun i hi => ?_⟩
    rw [h.2 i (Nat.lt_of_lt_of_le hi hl.length_le), hl.getElem]
  | freed => exact h.elim

theorem ne_null_of_set {p' : HeapArray α} (h : p.set i a = some p') : p' ≠ null := by
  cases p with
  | block b =>
    obtain ⟨b', -, rfl⟩ := Option.map_eq_some_iff.1 h
    exact nofun
  | _ => cases h

theorem ne_null_of_move {p' : HeapArray α} {j : ℕ} (h : p.move i j n = some p') : p' ≠ null := by
  cases p with
  | block b =>
    obtain ⟨l, -, h⟩ := Option.bind_eq_some_iff.1 h
    obtain ⟨b', -, rfl⟩ := Option.map_eq_some_iff.1 h
    exact nofun
  | _ => cases h

theorem Holds.ne_null (h : p.Holds l) (hl : l ≠ []) : p ≠ null := by
  rintro rfl
  exact hl h

theorem Holds.realloc (h : p.Holds l) (hn : l.length ≤ n) :
    ∃ p', p.realloc n = some p' ∧ p'.size = n ∧ p'.Holds l := by
  cases p with
  | null =>
    obtain rfl : l = [] := h
    exact ⟨_, rfl, rfl, Nat.zero_le n, fun i hi => absurd hi (Nat.not_lt_zero i)⟩
  | block b =>
    refine ⟨_, rfl, rfl, hn, fun i hi => ?_⟩
    dsimp only
    rw [if_pos (Nat.lt_of_lt_of_le hi h.1), h.2 i hi]
  | freed => exact h.elim

theorem free_cases {p' : HeapArray α} (h : p.free = some p') :
    p = null ∧ p' = null ∨ p ≠ null ∧ p' = freed := by
  cases p with
  | null => exact Or.inl ⟨rfl, (Option.some.inj h).symm⟩
  | block b => exact Or.inr ⟨nofun, (Option.some.inj h).symm⟩
  | freed => cases h

theorem Holds.free (h : p.Holds l) : ∃ p', p.free = some p' := by
  cases p with
  | null => exact ⟨_, rfl⟩
  | block b => exact ⟨_, rfl⟩
  | freed => exact h.elim

theorem Holds.set (h : p.Holds l) (hi : i < l.length) (a : α) :
    ∃ p', p.set i a = some p' ∧ p'.Holds (l.set i a) := by
  cases p with
  | null =>
    obtain rfl : l = [] := h
    exact absurd hi (Nat.not_lt_zero i)
  | block b =>
    refine ⟨block (b.put i (some a)), ?_, ?_, fun j hj => ?_⟩
    · rw [HeapArray.set, Buffer.set_eq_some (Nat.lt_of_lt_of_le hi h.1)]
      rfl
    · rw [List.length_set]
      exact h.1
    · rw [List.length_set] at hj
      rw [List.getElem_set]
      split_ifs with heq
      · rw [← heq, Buffer.elem_put_self]
      · rw [Buffer.elem_put_of_ne (Ne.symm heq), h.2 j hj]
  | freed => exact h.elim

/-- An element behind the others. -/
theorem Holds.push (h : p.Holds l) (hsize : l.length < p.size) (a : α) :
    ∃ p', p.set l.length a = some p' ∧ p'.Holds (l ++ [a]) := by
  cases p with
  | null => exact absurd hsize (Nat.not_lt_zero _)
  | block b =>
    refine ⟨block (b.put l.length (some a)), ?_, ?_, fun j hj => ?_⟩
    · rw [HeapArray.set, Buffer.set_eq_some hsize]
      rfl
    · rw [List.length_append]
      exact hsize
    · rw [List.length_append, List.length_singleton] at hj
      rcases Nat.lt_succ_iff_lt_or_eq.1 hj with hlt | rfl
      · rw [Buffer.elem_put_of_ne (by omega), h.2 j hlt, List.getElem_append_left hlt]
      · rw [Buffer.elem_put_self, List.getElem_concat_length rfl]
  | freed => exact h.elim

/-- An element between the others: those behind are moved up. -/
theorem Holds.insert (h : p.Holds l) (hsize : l.length < p.size) (hi : i ≤ l.length) (a : α) :
    ∃ p₁ p₂, p.move (i + 1) i (l.length - i) = some p₁ ∧ p₁.set i a = some p₂ ∧
    p₂.Holds (l.insertIdx i a) := by
  cases p with
  | null => exact absurd hsize (Nat.not_lt_zero _)
  | block b =>
    have hsize' : l.length < b.size := hsize
    have hgets : b.gets i (l.length - i) = some ((List.range' i (l.length - i)).map b.elem) :=
      Buffer.gets_eq_some (by omega)
    have hlength : ((List.range' i (l.length - i)).map b.elem).length = l.length - i := by simp
    have hsets : b.sets (i + 1) ((List.range' i (l.length - i)).map b.elem) = some _ :=
      Buffer.sets_eq_some (by rw [hlength]; omega)
    refine ⟨block (b.puts (i + 1) ((List.range' i (l.length - i)).map b.elem)),
      block ((b.puts (i + 1) ((List.range' i (l.length - i)).map b.elem)).put i (some a)), ?_, ?_, ?_⟩
    · rw [HeapArray.move, hgets, Option.bind_some, hsets]
      rfl
    · have hput : (b.puts (i + 1) ((List.range' i (l.length - i)).map b.elem)).set i (some a) =
          some _ :=
        Buffer.set_eq_some (by show i < b.size; omega)
      rw [HeapArray.set, hput]
      rfl
    · refine ⟨?_, fun j hj => ?_⟩
      · rw [List.length_insertIdx_of_le_length hi]
        exact hsize
      · rw [List.length_insertIdx_of_le_length hi] at hj
        rcases Nat.lt_trichotomy j i with hlt | rfl | hgt
        · rw [Buffer.elem_put_of_ne (by omega), Buffer.elem_puts_of_lt (by omega), h.2 j (by omega),
            List.getElem_insertIdx_of_lt hlt]
        · rw [Buffer.elem_put_self, List.getElem_insertIdx_self]
        · obtain ⟨k, rfl⟩ : ∃ k, j = i + 1 + k := ⟨j - (i + 1), by omega⟩
          rw [Buffer.elem_put_of_ne (by omega), Buffer.elem_puts (by rw [hlength]; omega),
            List.getElem_map,
            List.getElem_range', List.getElem_insertIdx_of_gt hgt, Nat.one_mul,
            h.2 (i + k) (by omega)]
          congr 2
          omega
  | freed => exact h.elim

/-- An element is removed: those behind are moved down. -/
theorem Holds.erase (h : p.Holds l) (hi : i < l.length) :
    ∃ p', p.move i (i + 1) (l.length - i - 1) = some p' ∧ p'.Holds (l.eraseIdx i) := by
  cases p with
  | null =>
    obtain rfl : l = [] := h
    exact absurd hi (Nat.not_lt_zero i)
  | block b =>
    have hsize := h.1
    have hgets : b.gets (i + 1) (l.length - i - 1) =
        some ((List.range' (i + 1) (l.length - i - 1)).map b.elem) :=
      Buffer.gets_eq_some (by omega)
    have hlength : ((List.range' (i + 1) (l.length - i - 1)).map b.elem).length =
        l.length - i - 1 := by simp
    have hsets : b.sets i ((List.range' (i + 1) (l.length - i - 1)).map b.elem) = some _ :=
      Buffer.sets_eq_some (by rw [hlength]; omega)
    refine ⟨block (b.puts i ((List.range' (i + 1) (l.length - i - 1)).map b.elem)), ?_, ?_,
      fun j hj => ?_⟩
    · rw [HeapArray.move, hgets, Option.bind_some, hsets]
      rfl
    · exact Nat.le_trans (List.eraseIdx_sublist l i).length_le hsize
    · rw [List.length_eraseIdx_of_lt hi] at hj
      rw [List.getElem_eraseIdx]
      split_ifs with hlt
      · rw [Buffer.elem_puts_of_lt hlt, h.2 j (by omega)]
      · obtain ⟨k, rfl⟩ := Nat.exists_eq_add_of_le (Nat.not_lt.1 hlt)
        rw [Buffer.elem_puts (by rw [hlength]; omega), List.getElem_map, List.getElem_range',
          Nat.one_mul,
          h.2 (i + 1 + k) (by omega)]
        congr 2
        omega
  | freed => exact h.elim

/-- The same by the loop. -/
theorem Holds.shift (h : p.Holds l) (hi : i + n + 1 = l.length) :
    ∃ p', p.shift i n = some p' ∧ p'.Holds (l.eraseIdx i) := by
  induction n generalizing p l i with
  | zero =>
    refine ⟨p, rfl, h.of_prefix ?_⟩
    rw [List.eraseIdx_eq_dropLast hi]
    exact List.dropLast_prefix l
  | succ n ih =>
    have hget := h.get (i := i + 1) (by omega)
    obtain ⟨p₁, hset, h₁⟩ := h.set (i := i) (by omega) l[i + 1]
    obtain ⟨p₂, hshift, h₂⟩ := ih (i := i + 1) h₁ (by rw [List.length_set]; omega)
    refine ⟨p₂, ?_, ?_⟩
    · rw [HeapArray.shift, hget, Option.bind_some, hset, Option.bind_some, hshift]
    · have herase : (l.set i l[i + 1]).eraseIdx (i + 1) = l.eraseIdx i := by
        apply List.ext_getElem?
        intro j
        rw [List.getElem?_eraseIdx, List.getElem?_eraseIdx, List.getElem?_set, List.getElem?_set]
        rcases Nat.lt_trichotomy j i with hlt | rfl | hgt
        · rw [if_pos (by omega), if_pos hlt, if_neg (by omega)]
        · have hj : j < l.length := by omega
          rw [if_pos (by omega), if_pos rfl, if_pos hj, if_neg (by omega), List.getElem?_eq_getElem]
        · rw [if_neg (by omega), if_neg (by omega), if_neg (by omega)]
      rwa [← herase]

end HeapArray

end PocketDarwin
