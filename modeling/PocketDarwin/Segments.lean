/-
  Segments that are loaded into an array, one after the other: file data, and zeros
  behind it up to the size in memory.

  * `loadAll_isSome_iff`: no write leaves the array exactly if every segment fits.
  * `loadAll_contents`: what the array holds where no later segment was written.
  * `loadAll_holds_iff`: it holds all segments exactly if they agree where they overlap.
-/
import Mathlib.Data.List.Infix
import PocketDarwin.Buffer

namespace PocketDarwin

/-- A segment with the file data that there is for it. -/
structure LoadSegment (α : Type) where
  index : ℕ
  data : List α
  filesz : ℕ
  memsz : ℕ

namespace LoadSegment
variable {α : Type} (seg : LoadSegment α)

/-- The places that are written: those of the data, and those of the zeros. -/
def Covers (i : ℕ) : Prop :=
  (seg.index ≤ i ∧ i < seg.index + seg.data.length) ∨
    (seg.index + seg.filesz ≤ i ∧ i < seg.index + seg.memsz)

instance (i : ℕ) : Decidable (seg.Covers i) := inferInstanceAs (Decidable (_ ∨ _))

/-- All of them are in an array of `size` elements. -/
structure Fits (size : ℕ) : Prop where
  data : seg.data ≠ [] → seg.index + seg.data.length ≤ size
  zeros : seg.filesz < seg.memsz → seg.index + seg.memsz ≤ size

/-- What is put at a place that is written. -/
def valueAt [Zero α] (i : ℕ) : α := seg.data.getD (i - seg.index) 0

/-- Two segments that put the same where both write. -/
def Agrees [Zero α] (seg' : LoadSegment α) : Prop :=
  ∀ i, seg.Covers i → seg'.Covers i → seg.valueAt i = seg'.valueAt i

/-- The segment at a later place. -/
def shift (n : ℕ) : LoadSegment α := { seg with index := seg.index + n }

theorem covers_shift {n i : ℕ} : (seg.shift n).Covers (i + n) ↔ seg.Covers i := by
  rw [Covers, Covers, shift]
  dsimp only
  omega

theorem exists_of_covers_shift {n i : ℕ} (h : (seg.shift n).Covers i) : ∃ j, i = j + n := by
  rw [Covers, shift] at h
  exact ⟨i - n, by dsimp only at h; omega⟩

theorem agrees_shift [Zero α] {seg seg' : LoadSegment α} {n : ℕ} :
    (seg.shift n).Agrees (seg'.shift n) ↔ seg.Agrees seg' := by
  have hvalue : ∀ (s : LoadSegment α) i, (s.shift n).valueAt (i + n) = s.valueAt i := by
    intro s i
    rw [valueAt, valueAt, shift]
    dsimp only
    rw [Nat.add_sub_add_right]
  constructor
  · intro h i hi hi'
    have := h (i + n) (seg.covers_shift.2 hi) (seg'.covers_shift.2 hi')
    rwa [hvalue, hvalue] at this
  · intro h i hi hi'
    obtain ⟨j, rfl⟩ := seg.exists_of_covers_shift hi
    rw [hvalue, hvalue]
    exact h j (seg.covers_shift.1 hi) (seg'.covers_shift.1 hi')

end LoadSegment

namespace Buffer
variable {α : Type} {b b' : Buffer α}

theorem sets_isSome_iff {i : ℕ} {l : List α} :
    (b.sets i l).isSome ↔ (l ≠ [] → i + l.length ≤ b.size) := by
  constructor
  · intro h hl
    obtain ⟨b', hb'⟩ := Option.isSome_iff_exists.1 h
    exact le_of_sets hb' hl
  · intro h
    by_cases hl : l = []
    · subst hl
      rfl
    · rw [sets_eq_some (h hl)]
      rfl

theorem sets_eq {i : ℕ} {l : List α} (h : b.sets i l = some b') : b' = b.puts i l := by
  by_cases hl : l = []
  · subst hl
    rw [puts_nil]
    exact (Option.some.inj h).symm
  · rw [sets_eq_some (le_of_sets h hl)] at h
    exact (Option.some.inj h).symm

variable [Zero α] {seg : LoadSegment α} {segs : List (LoadSegment α)}

/-- The data, and then the zeros. -/
def load (b : Buffer α) (seg : LoadSegment α) : Option (Buffer α) := do
  let b ← b.sets seg.index seg.data
  b.sets (seg.index + seg.filesz) (List.replicate (seg.memsz - seg.filesz) 0)

/-- One segment after the other. -/
def loadAll (b : Buffer α) : List (LoadSegment α) → Option (Buffer α)
  | [] => some b
  | seg :: segs => (b.load seg).bind fun b => b.loadAll segs

/-! ## One segment -/

theorem load_eq (h : b.load seg = some b') :
    b' = (b.puts seg.index seg.data).puts (seg.index + seg.filesz)
      (List.replicate (seg.memsz - seg.filesz) 0) := by
  obtain ⟨b₁, h₁, h₂⟩ := Option.bind_eq_some_iff.1 h
  rw [sets_eq h₂, sets_eq h₁]

theorem size_load (h : b.load seg = some b') : b'.size = b.size := by
  rw [load_eq h]
  rfl

theorem load_isSome_iff : (b.load seg).isSome ↔ seg.Fits b.size := by
  have hzeros : ∀ b₁ : Buffer α, b₁.size = b.size →
      ((b₁.sets (seg.index + seg.filesz) (List.replicate (seg.memsz - seg.filesz) 0)).isSome ↔
        (seg.filesz < seg.memsz → seg.index + seg.memsz ≤ b.size)) := by
    intro b₁ hsize
    rw [sets_isSome_iff, List.length_replicate, hsize, ne_eq, List.replicate_eq_nil_iff]
    omega
  rw [load]
  constructor
  · intro h
    obtain ⟨b', hb'⟩ := Option.isSome_iff_exists.1 h
    obtain ⟨b₁, h₁, h₂⟩ := Option.bind_eq_some_iff.1 hb'
    have hsize : b₁.size = b.size := by
      rw [sets_eq h₁]
      rfl
    exact ⟨sets_isSome_iff.1 (Option.isSome_of_mem h₁),
      (hzeros b₁ hsize).1 (Option.isSome_of_mem h₂)⟩
  · intro h
    obtain ⟨b₁, h₁⟩ := Option.isSome_iff_exists.1 (sets_isSome_iff.2 h.data)
    have hsize : b₁.size = b.size := by
      rw [sets_eq h₁]
      rfl
    rw [h₁]
    exact (hzeros b₁ hsize).2 h.zeros

theorem elem_load_of_not_covers {i : ℕ} (h : b.load seg = some b') (hi : ¬ seg.Covers i) :
    b'.elem i = b.elem i := by
  rw [LoadSegment.Covers] at hi
  have hzeros : (List.replicate (seg.memsz - seg.filesz) (0 : α)).length = seg.memsz - seg.filesz :=
    List.length_replicate
  rw [load_eq h]
  have houter : ∀ b₁ : Buffer α, (b₁.puts (seg.index + seg.filesz)
      (List.replicate (seg.memsz - seg.filesz) 0)).elem i = b₁.elem i := by
    intro b₁
    by_cases hlt : i < seg.index + seg.filesz
    · exact elem_puts_of_lt hlt
    · exact elem_puts_of_ge (by omega)
  rw [houter]
  by_cases hlt : i < seg.index
  · exact elem_puts_of_lt hlt
  · exact elem_puts_of_ge (by omega)

theorem elem_load_data {i : ℕ} (h : b.load seg = some b') (hdata : seg.data.length ≤ seg.filesz)
    (hi : i < seg.data.length) : b'.elem (seg.index + i) = seg.data[i] := by
  rw [load_eq h, elem_puts_of_lt (by omega), elem_puts hi]

theorem elem_load_zeros {i : ℕ} (h : b.load seg = some b') (hle : seg.filesz ≤ i)
    (hi : i < seg.memsz) : b'.elem (seg.index + i) = 0 := by
  obtain ⟨k, rfl⟩ := Nat.exists_eq_add_of_le hle
  rw [load_eq h, ← Nat.add_assoc, elem_puts (by rw [List.length_replicate]; omega)]
  exact List.getElem_replicate _

/-! ## All segments -/

theorem size_loadAll (h : b.loadAll segs = some b') : b'.size = b.size := by
  induction segs generalizing b with
  | nil => rw [Option.some.inj h]
  | cons seg segs ih =>
    obtain ⟨b₁, h₁, h₂⟩ := Option.bind_eq_some_iff.1 h
    rw [ih h₂, size_load h₁]

theorem loadAll_append {segs' : List (LoadSegment α)} :
    b.loadAll (segs ++ segs') = (b.loadAll segs).bind fun b => b.loadAll segs' := by
  induction segs generalizing b with
  | nil => rfl
  | cons seg segs ih =>
    rw [List.cons_append, loadAll, loadAll, Option.bind_assoc]
    exact congrArg _ (funext fun b => ih)

/-- **The writes** stay in the array exactly if every segment fits. -/
theorem loadAll_isSome_iff : (b.loadAll segs).isSome ↔ ∀ seg ∈ segs, seg.Fits b.size := by
  induction segs generalizing b with
  | nil => simp [loadAll]
  | cons seg segs ih =>
    rw [List.forall_mem_cons, ← load_isSome_iff, loadAll]
    constructor
    · intro h
      obtain ⟨b', hb'⟩ := Option.isSome_iff_exists.1 h
      obtain ⟨b₁, h₁, h₂⟩ := Option.bind_eq_some_iff.1 hb'
      refine ⟨Option.isSome_of_mem h₁, ?_⟩
      rw [← size_load h₁]
      exact ih.1 (Option.isSome_of_mem h₂)
    · rintro ⟨h, hall⟩
      obtain ⟨b₁, h₁⟩ := Option.isSome_iff_exists.1 h
      rw [h₁]
      refine ih.2 ?_
      rwa [size_load h₁]

theorem elem_loadAll_of_not_covers {i : ℕ} (h : b.loadAll segs = some b')
    (hi : ∀ seg ∈ segs, ¬ seg.Covers i) : b'.elem i = b.elem i := by
  induction segs generalizing b with
  | nil => rw [Option.some.inj h]
  | cons seg segs ih =>
    obtain ⟨b₁, h₁, h₂⟩ := Option.bind_eq_some_iff.1 h
    rw [List.forall_mem_cons] at hi
    rw [ih h₂ hi.2, elem_load_of_not_covers h₁ hi.1]

/-- **What is loaded**: where no later segment was written, the array holds the data of a segment,
    and zeros behind it. -/
theorem loadAll_contents (h : b.loadAll segs = some b') {post : List (LoadSegment α)}
    (hsuffix : seg :: post <:+ segs) (hdata : seg.data.length ≤ seg.filesz) {i : ℕ}
    (hlater : ∀ later ∈ post, ¬ later.Covers (seg.index + i)) :
    (∀ hi : i < seg.data.length, b'.elem (seg.index + i) = seg.data[i]) ∧
      (seg.filesz ≤ i → i < seg.memsz → b'.elem (seg.index + i) = 0) := by
  obtain ⟨pre, rfl⟩ := hsuffix
  rw [loadAll_append] at h
  obtain ⟨b₀, h₀, h⟩ := Option.bind_eq_some_iff.1 h
  obtain ⟨b₁, h₁, h₂⟩ := Option.bind_eq_some_iff.1 h
  rw [elem_loadAll_of_not_covers h₂ hlater]
  exact ⟨fun hi => elem_load_data h₁ hdata hi, fun hle hi => elem_load_zeros h₁ hle hi⟩

theorem elem_load_of_covers {i : ℕ} (h : b.load seg = some b')
    (hdata : seg.data.length ≤ seg.filesz)
    (hi : seg.Covers i) : b'.elem i = seg.valueAt i := by
  rw [LoadSegment.valueAt, List.getD_eq_getElem?_getD]
  rcases hi with ⟨hle, hlt⟩ | ⟨hle, hlt⟩
  · obtain ⟨k, rfl⟩ := Nat.exists_eq_add_of_le hle
    have hk : k < seg.data.length := by omega
    rw [elem_load_data h hdata hk, Nat.add_sub_cancel_left, List.getElem?_eq_getElem hk,
      Option.getD_some]
  · obtain ⟨k, rfl⟩ := Nat.exists_eq_add_of_le ((Nat.le_add_right _ _).trans hle)
    rw [elem_load_zeros h (by omega) (by omega), Nat.add_sub_cancel_left,
      List.getElem?_eq_none (by omega), Option.getD_none]

/-- **All segments are held** exactly if any two of them agree. -/
theorem loadAll_holds_iff (h : b.loadAll segs = some b')
    (hdata : ∀ seg ∈ segs, seg.data.length ≤ seg.filesz) :
    (∀ seg ∈ segs, ∀ i, seg.Covers i → b'.elem i = seg.valueAt i) ↔
      segs.Pairwise fun seg seg' => seg.Agrees seg' := by
  constructor
  · intro hheld
    refine List.pairwise_of_forall_mem_list fun seg hseg seg' hseg' i hi hi' => ?_
    rw [← hheld seg hseg i hi, ← hheld seg' hseg' i hi']
  · intro hagree
    induction segs generalizing b with
    | nil => exact fun seg hseg => absurd hseg List.not_mem_nil
    | cons seg segs ih =>
      obtain ⟨b₁, h₁, h₂⟩ := Option.bind_eq_some_iff.1 h
      rw [List.forall_mem_cons] at hdata ⊢
      rw [List.pairwise_cons] at hagree
      have htail := ih h₂ hdata.2 hagree.2
      refine ⟨fun i hi => ?_, htail⟩
      by_cases hlater : ∃ later ∈ segs, later.Covers i
      · obtain ⟨later, hmem, hcov⟩ := hlater
        rw [htail later hmem i hcov]
        exact (hagree.1 later hmem i hi hcov).symm
      · push Not at hlater
        rw [elem_loadAll_of_not_covers h₂ hlater, elem_load_of_covers h₁ hdata.1 hi]

end Buffer

end PocketDarwin
