/-
  Stores to a memory, one after the other.

  `stores f g n m` is the memory `m` after `n` stores, of `g i` at `f i`.

  * `stores_of_forall_ne`: what is stored to no address stays.
  * `stores_addr`: stores to different addresses leave each its value.
  * `stores_succ'`: the first store taken off, as a loop makes them.
-/
import Mathlib.Logic.Function.Basic
import Mathlib.Data.Nat.Notation

namespace PocketDarwin

universe u v
variable {α : Type u} {β : Type v} [DecidableEq α]

/-- The memory after `n` stores. -/
def stores (f : ℕ → α) (g : ℕ → β) : ℕ → (α → β) → α → β
  | 0, m => m
  | n + 1, m => Function.update (stores f g n m) (f n) (g n)

section
variable {f : ℕ → α} {g : ℕ → β} {n i : ℕ} {m : α → β} {a : α}

@[simp] theorem stores_zero : stores f g 0 m = m := rfl

theorem stores_succ : stores f g (n + 1) m = Function.update (stores f g n m) (f n) (g n) := rfl

theorem stores_succ' : stores f g (n + 1) m =
    stores (fun i => f (i + 1)) (fun i => g (i + 1)) n (Function.update m (f 0) (g 0)) := by
  induction n with
  | zero => rfl
  | succ n ih => rw [stores_succ, ih, ← stores_succ]

theorem stores_of_forall_ne (h : ∀ i < n, a ≠ f i) : stores f g n m a = m a := by
  induction n with
  | zero => rfl
  | succ n ih =>
    rw [stores_succ, Function.update_of_ne (h n (Nat.lt_succ_self n)),
      ih fun i hi => h i (Nat.lt_succ_of_lt hi)]

theorem stores_addr (hinj : ∀ i < n, ∀ j < n, f i = f j → i = j) (hi : i < n) :
    stores f g n m (f i) = g i := by
  induction n with
  | zero => omega
  | succ n ih =>
    rw [stores_succ]
    by_cases heq : i = n
    · rw [heq, Function.update_self]
    · have hne : f i ≠ f n := fun h => heq (hinj i hi n (Nat.lt_succ_self n) h)
      rw [Function.update_of_ne hne]
      exact ih (fun i hi j hj => hinj i (Nat.lt_succ_of_lt hi) j (Nat.lt_succ_of_lt hj)) (by omega)

end

end PocketDarwin
