/-
  Linked structures: nodes with a pointer to a next one, or to none.

  `Seg next s l t`: following `next` from `s` visits the nodes of `l`, in this order,
  and arrives at `t`.  A chain is a segment that arrives at no node.

  * `Seg.nodup`: a chain visits no node twice.
  * `Seg.redirect`: what becomes of a chain if the pointer of one node is changed.
  * `Seg.not_chain_of_loop`: no chain starts on a loop.
  * `walk_eq_some`: the walk with a bound on its steps finds the chain, given enough.
-/
import Mathlib.Data.List.Nodup
import Mathlib.Data.Finset.Card
import Mathlib.Data.Finset.Range
import Mathlib.Logic.Function.Basic

namespace PocketDarwin

universe u
variable {α : Type u}

/-- Following `next` from `s` visits `l` and arrives at `t`. -/
def Seg (next : α → Option α) : Option α → List α → Option α → Prop
  | s, [], t => s = t
  | s, a :: l, t => s = some a ∧ Seg next (next a) l t

/-- Following `next` from `s` ends. -/
def Ends (next : α → Option α) (s : Option α) : Prop := ∃ l, Seg next s l none

/-- The nodes that are visited from `s`, if these are at most `n`. -/
def walk (next : α → Option α) : ℕ → Option α → Option (List α)
  | _, none => some []
  | 0, some _ => none
  | n + 1, some a => (walk next n (next a)).map (a :: ·)

section
variable {next next' : α → Option α} {s t m : Option α} {a c : α} {l l₁ l₂ : List α}

@[simp] theorem seg_nil : Seg next s [] t ↔ s = t := Iff.rfl

@[simp] theorem seg_cons : Seg next s (a :: l) t ↔ s = some a ∧ Seg next (next a) l t := Iff.rfl

theorem seg_append : Seg next s (l₁ ++ l₂) t ↔ ∃ m, Seg next s l₁ m ∧ Seg next m l₂ t := by
  induction l₁ generalizing s with
  | nil => simp
  | cons a l₁ ih => simp [ih, and_assoc]

/-- A chain that visits a node goes on from there as the node's own chain does. -/
theorem seg_append_cons : Seg next s (l₁ ++ c :: l₂) t ↔ Seg next s l₁ (some c) ∧ Seg next (next c) l₂ t := by
  rw [seg_append]
  constructor
  · rintro ⟨m, h₁, rfl, h₂⟩
    exact ⟨h₁, h₂⟩
  · rintro ⟨h₁, h₂⟩
    exact ⟨some c, h₁, rfl, h₂⟩

/-- Only the pointers of the visited nodes matter. -/
theorem Seg.congr (h : Seg next s l t) (heq : ∀ a ∈ l, next' a = next a) : Seg next' s l t := by
  induction l generalizing s with
  | nil => exact h
  | cons a l ih =>
    refine ⟨h.1, ?_⟩
    rw [heq a List.mem_cons_self]
    exact ih h.2 fun b hb => heq b (List.mem_cons_of_mem a hb)

/-- What holds at the start and is handed on along the pointers holds of all that is visited. -/
theorem Seg.forall_mem {P : α → Prop} (h : Seg next s l t) (hs : ∀ a ∈ s, P a)
    (hnext : ∀ a, P a → ∀ b ∈ next a, P b) : ∀ a ∈ l, P a := by
  induction l generalizing s with
  | nil => simp
  | cons b l ih =>
    obtain ⟨rfl, hl⟩ := h
    have hb := hs b rfl
    intro a ha
    rcases List.mem_cons.1 ha with rfl | ha
    · exact hb
    · exact ih hl (hnext b hb) a ha

/-- There is one chain from each node. -/
theorem Seg.unique (h₁ : Seg next s l₁ none) (h₂ : Seg next s l₂ none) : l₁ = l₂ := by
  induction l₁ generalizing s l₂ with
  | nil =>
    cases l₂ with
    | nil => rfl
    | cons b l₂ => exact absurd (h₁.symm.trans h₂.1) (by simp)
  | cons a l₁ ih =>
    cases l₂ with
    | nil => exact absurd (h₂.symm.trans h₁.1) (by simp)
    | cons b l₂ =>
      obtain rfl : a = b := Option.some.inj (h₁.1.symm.trans h₂.1)
      rw [ih h₁.2 h₂.2]

/-- **A chain visits no node twice.** -/
theorem Seg.nodup (h : Seg next s l none) : l.Nodup := by
  induction l generalizing s with
  | nil => exact List.nodup_nil
  | cons a l ih =>
    refine List.nodup_cons.2 ⟨fun ha => ?_, ih h.2⟩
    -- the chain of `a` would be its own proper suffix
    obtain ⟨l₁, l₂, rfl⟩ := List.append_of_mem ha
    have heq := (seg_append_cons.1 h.2).2.unique h.2
    have hlen := congrArg List.length heq
    rw [List.length_append, List.length_cons] at hlen
    omega

/-- **No chain starts on a loop.** -/
theorem Seg.not_chain_of_loop (h : Seg next s l s) (hl : l ≠ []) : ¬ Ends next s := by
  rintro ⟨m, hm⟩
  have heq := hm.unique (seg_append.2 ⟨s, h, hm⟩)
  have hlen := congrArg List.length heq
  have := List.length_pos_iff.2 hl
  rw [List.length_append] at hlen
  omega

theorem ends_none : Ends next none := ⟨[], rfl⟩

/-- A chain from a node is the node and the chain from the next one. -/
theorem seg_some : Seg next (some a) l none ↔ ∃ k, l = a :: k ∧ Seg next (next a) k none := by
  cases l with
  | nil => simp
  | cons b l =>
    constructor
    · rintro ⟨hb, h⟩
      obtain rfl := Option.some.inj hb
      exact ⟨l, rfl, h⟩
    · rintro ⟨k, hk, h⟩
      obtain ⟨rfl, rfl⟩ := List.cons.inj hk
      exact ⟨rfl, h⟩

theorem ends_some : Ends next (some a) ↔ Ends next (next a) := by
  constructor
  · rintro ⟨l, hl⟩
    obtain ⟨k, -, hk⟩ := seg_some.1 hl
    exact ⟨k, hk⟩
  · rintro ⟨l, hl⟩
    exact ⟨a :: l, rfl, hl⟩

theorem Seg.eq_none_iff (h : Seg next s l none) : s = none ↔ l = [] := by
  cases l with
  | nil => exact ⟨fun _ => rfl, fun _ => h⟩
  | cons a l => simp [h.1]

/-- A chain visits what following `next` arrives at. -/
theorem Seg.mem_iff (h : Seg next s l none) : a ∈ l ↔ ∃ k, Seg next s k (some a) := by
  constructor
  · intro ha
    obtain ⟨l₁, l₂, rfl⟩ := List.append_of_mem ha
    exact ⟨l₁, (seg_append_cons.1 h).1⟩
  · rintro ⟨k, hk⟩
    induction k generalizing s l with
    | nil =>
      obtain rfl := hk
      obtain ⟨m, rfl, -⟩ := seg_some.1 h
      exact List.mem_cons_self
    | cons b k ih =>
      obtain ⟨rfl, hk⟩ := hk
      obtain ⟨m, rfl, hm⟩ := seg_some.1 h
      exact List.mem_cons_of_mem b (ih hm hk)

/-! ## Changing one pointer -/

variable [DecidableEq α]

theorem Seg.update_of_notMem (h : Seg next s l t) (hc : c ∉ l) (m : Option α) :
    Seg (Function.update next c m) s l t :=
  h.congr fun _ ha => Function.update_of_ne (ne_of_mem_of_not_mem ha hc) _ _

/-- **Redirection.**  A chain through `c` goes on from where `c` now points to. -/
theorem Seg.redirect (h : Seg next s (l₁ ++ c :: l₂) none) (ht : Seg next t l none) (hc : c ∉ l) :
    Seg (Function.update next c t) s (l₁ ++ c :: l) none := by
  have hc₁ : c ∉ l₁ := by
    have := h.nodup
    rw [List.nodup_append] at this
    exact fun hmem => this.2.2 c hmem c List.mem_cons_self rfl
  rw [seg_append_cons] at h ⊢
  refine ⟨h.1.update_of_notMem hc₁ t, ?_⟩
  rw [Function.update_self]
  exact ht.update_of_notMem hc t

/-- All chains still end if `c` is pointed to where no chain comes back to `c` from. -/
theorem Ends.redirect (h : Ends next s) (ht : Seg next t l none) (hc : c ∉ l) :
    Ends (Function.update next c t) s := by
  obtain ⟨k, hk⟩ := h
  by_cases hck : c ∈ k
  · obtain ⟨l₁, l₂, rfl⟩ := List.append_of_mem hck
    exact ⟨_, hk.redirect ht hc⟩
  · exact ⟨k, hk.update_of_notMem hck t⟩

/-- If the chain from `t` visits `c`, then pointing `c` to `t` closes a loop. -/
theorem Seg.not_ends_redirect (ht : Seg next t l none) (hc : c ∈ l) : ¬ Ends (Function.update next c t) t := by
  obtain ⟨l₁, l₂, rfl⟩ := List.append_of_mem hc
  have hc₁ : c ∉ l₁ := by
    have := ht.nodup
    rw [List.nodup_append] at this
    exact fun hmem => this.2.2 c hmem c List.mem_cons_self rfl
  have hloop : Seg (Function.update next c t) t (l₁ ++ [c]) t := by
    rw [seg_append_cons, Function.update_self]
    exact ⟨(seg_append_cons.1 ht).1.update_of_notMem hc₁ t, rfl⟩
  exact hloop.not_chain_of_loop (by simp)

omit [DecidableEq α]

/-! ## Walks -/

/-- **The walk finds the chain**, if it is allowed as many steps as there are nodes. -/
theorem walk_eq_some {n : ℕ} : walk next n s = some l ↔ Seg next s l none ∧ l.length ≤ n := by
  induction n generalizing s l with
  | zero => cases s <;> cases l <;> simp [walk]
  | succ n ih =>
    cases s with
    | none => cases l <;> simp [walk]
    | some a =>
      simp only [walk, Option.map_eq_some_iff, ih]
      constructor
      · rintro ⟨k, ⟨hk, hlen⟩, rfl⟩
        exact ⟨⟨rfl, hk⟩, Nat.succ_le_succ hlen⟩
      · rintro ⟨h, hlen⟩
        obtain ⟨k, rfl, hk⟩ := seg_some.1 h
        exact ⟨k, ⟨hk, Nat.le_of_succ_le_succ hlen⟩, rfl⟩

end

/-- A chain through numbered nodes is no longer than there are numbers. -/
theorem Seg.length_le {next : ℕ → Option ℕ} {s : Option ℕ} {l : List ℕ} {n : ℕ} (h : Seg next s l none)
    (hl : ∀ a ∈ l, a < n) : l.length ≤ n := by
  have hcard : l.toFinset.card = l.length := List.toFinset_card_of_nodup h.nodup
  have hsub : l.toFinset ⊆ Finset.range n := by
    intro a ha
    exact Finset.mem_range.2 (hl a (List.mem_toFinset.1 ha))
  have := Finset.card_le_card hsub
  rw [hcard, Finset.card_range] at this
  exact this

end PocketDarwin
