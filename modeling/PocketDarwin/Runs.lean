/-
  Runs of a system that is driven by calls.

  `step s a` is the state after the call `a` in the state `s`.  A run is a list of
  calls; what is said of a run is said of each of its states (`Always`) or of each of
  its calls in the state it is made in (`Meets`).

  * `Always.of_meets`: an invariant under a condition on the calls.
  * `always_iff_meets`: if one call keeps `P` exactly when it meets `C`, then all
    states of a run are `P` exactly when all calls of the run meet `C`;
    `meets_iff_meets` is the same for what is said of a call and its result.
-/
import Mathlib.Data.Nat.Notation

namespace PocketDarwin

universe u v
variable {σ : Type u} {α : Type v}

/-- `P` holds in every state of the run. -/
def Always (step : σ → α → σ) (P : σ → Prop) : σ → List α → Prop
  | s, [] => P s
  | s, a :: log => P s ∧ Always step P (step s a) log

/-- Every call of the run meets `C` in the state it is made in. -/
def Meets (step : σ → α → σ) (C : σ → α → Prop) : σ → List α → Prop
  | _, [] => True
  | s, a :: log => C s a ∧ Meets step C (step s a) log

instance Meets.decidable (step : σ → α → σ) (C : σ → α → Prop) [∀ s a, Decidable (C s a)] :
    ∀ s log, Decidable (Meets step C s log)
  | _, [] => isTrue trivial
  | s, a :: log =>
    have := Meets.decidable step C (step s a) log
    inferInstanceAs (Decidable (C s a ∧ Meets step C (step s a) log))

section
variable {step : σ → α → σ} {P I : σ → Prop} {A C : σ → α → Prop} {s : σ} {a : α} {log : List α}

@[simp] theorem always_nil : Always step P s [] ↔ P s := Iff.rfl

@[simp] theorem always_cons : Always step P s (a :: log) ↔ P s ∧ Always step P (step s a) log := Iff.rfl

@[simp] theorem meets_nil : Meets step C s [] := trivial

@[simp] theorem meets_cons : Meets step C s (a :: log) ↔ C s a ∧ Meets step C (step s a) log := Iff.rfl

/-- A run that goes on with another. -/
theorem meets_append {log' : List α} : Meets step C s (log ++ log') ↔
    Meets step C s log ∧ Meets step C (log.foldl step s) log' := by
  induction log generalizing s with
  | nil => simp
  | cons a log ih => rw [List.cons_append, meets_cons, meets_cons, ih, List.foldl_cons, and_assoc]

theorem Always.head (h : Always step P s log) : P s := by
  cases log with
  | nil => exact h
  | cons a log => exact h.1

/-- The state after the whole run. -/
theorem Always.last (h : Always step P s log) : P (log.foldl step s) := by
  induction log generalizing s with
  | nil => exact h
  | cons a log ih => exact ih h.2

theorem Always.imp {Q : σ → Prop} (hPQ : ∀ s, P s → Q s) (h : Always step P s log) :
    Always step Q s log := by
  induction log generalizing s with
  | nil => exact hPQ s h
  | cons a log ih => exact ⟨hPQ s h.1, ih h.2⟩

/-- In a run that is `P` throughout, every call leads to a state that is. -/
theorem Always.meets (h : Always step P s log) : Meets step (fun s a => P (step s a)) s log := by
  induction log generalizing s with
  | nil => trivial
  | cons a log ih => exact ⟨h.2.head, ih h.2⟩

/-- A condition that the states do not matter for. -/
theorem meets_const {C : α → Prop} : Meets step (fun _ => C) s log ↔ ∀ a ∈ log, C a := by
  induction log generalizing s with
  | nil => simp
  | cons a log ih => rw [meets_cons, ih, List.forall_mem_cons]

theorem Meets.and (hA : Meets step A s log) (hC : Meets step C s log) :
    Meets step (fun s a => A s a ∧ C s a) s log := by
  induction log generalizing s with
  | nil => trivial
  | cons a log ih => exact ⟨⟨hA.1, hC.1⟩, ih hA.2 hC.2⟩

/-- **Invariants.**  What one call keeps if it meets `C`, a run keeps if its calls all do. -/
theorem Always.of_meets (hstep : ∀ s a, P s → C s a → P (step s a)) (hs : P s)
    (h : Meets step C s log) :
    Always step P s log := by
  induction log generalizing s with
  | nil => exact hs
  | cons a log ih => exact ⟨hs, ih (hstep s a hs h.1) h.2⟩

/-- What every call is, made in a state that all calls lead to again. -/
theorem Meets.of_invariant (hI : ∀ s a, I s → A s a → I (step s a))
    (hC : ∀ s a, I s → A s a → C s a) (hs : I s)
    (hlog : Meets step A s log) : Meets step C s log := by
  induction log generalizing s with
  | nil => trivial
  | cons a log ih => exact ⟨hC s a hs hlog.1, ih (hI s a hs hlog.1) hlog.2⟩

/-- **Exact conditions.**  In the states `I` and for the calls `A`, let one call keep `P` exactly
    when it meets `C`; then a run is `P` throughout exactly when its calls meet `C`. -/
theorem always_iff_meets (hI : ∀ s a, I s → A s a → I (step s a))
    (hstep : ∀ s a, I s → A s a → P s → (P (step s a) ↔ C s a)) (hs : I s) (hP : P s)
    (hlog : Meets step A s log) : Always step P s log ↔ Meets step C s log := by
  induction log generalizing s with
  | nil => exact ⟨fun _ => trivial, fun _ => hP⟩
  | cons a log ih =>
    have hnext := hI s a hs hlog.1
    rw [always_cons, meets_cons, ← hstep s a hs hlog.1 hP]
    constructor
    · rintro ⟨_, h⟩
      exact ⟨h.head, (ih hnext h.head hlog.2).1 h⟩
    · rintro ⟨h, hrest⟩
      exact ⟨hP, (ih hnext h hlog.2).2 hrest⟩

/-- The same for what is said of calls: in the states `I` and for the calls `A`, let one call be `F`
    exactly when it meets `C`, and lead to an `I` again if it is. -/
theorem meets_iff_meets {F : σ → α → Prop} (hstep : ∀ s a, I s → A s a → (F s a ↔ C s a))
    (hI : ∀ s a, I s → A s a → F s a → I (step s a)) (hs : I s) (hlog : Meets step A s log) :
    Meets step F s log ↔ Meets step C s log := by
  induction log generalizing s with
  | nil => exact Iff.rfl
  | cons a log ih =>
    rw [meets_cons, meets_cons, ← hstep s a hs hlog.1]
    constructor
    · rintro ⟨h, hrest⟩
      exact ⟨h, (ih (hI s a hs hlog.1 h) hlog.2).1 hrest⟩
    · rintro ⟨h, hrest⟩
      exact ⟨h, (ih (hI s a hs hlog.1 h) hlog.2).2 hrest⟩

end

end PocketDarwin
