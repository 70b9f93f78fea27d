/-
  The maximal runs of a list: its parts without a separator, as long as they can be.

  * `runs`: the runs with their places, found from left to right.
  * `mem_runs_iff`: these are the maximal runs.
  * `pairwise_runs`: they stand in the order of their places.
-/
import Mathlib.Data.List.TakeWhile
import Mathlib.Data.Nat.Notation
import Mathlib.Tactic.Common

namespace PocketDarwin.MaximalRuns

variable {α : Type} {p : α → Bool} {l r : List α} {i : ℕ}

/-- `r` is a part of `l` at the place `i`, without separators, between two of them or the ends. -/
def MaximalRun (p : α → Bool) (l : List α) (i : ℕ) (r : List α) : Prop :=
  ∃ a b, l = a ++ (r ++ b) ∧ a.length = i ∧ r ≠ [] ∧ (∀ c ∈ r, p c = false) ∧
    (∀ c ∈ a.getLast?, p c = true) ∧ ∀ c ∈ b.head?, p c = true

/-- The separators at the beginning. -/
def lead (p : α → Bool) (l : List α) : List α := l.takeWhile p

/-- The first run, if there is one. -/
def first (p : α → Bool) (l : List α) : List α := (l.dropWhile p).takeWhile fun c => !p c

/-- What is behind the first run and the separator that ends it. -/
def behind (p : α → Bool) (l : List α) : List α := ((l.dropWhile p).dropWhile fun c => !p c).tail

theorem length_behind_lt (h : l.dropWhile p ≠ []) : (behind p l).length < l.length := by
  have hdrop : (l.dropWhile p).length ≤ l.length := (List.dropWhile_suffix p).length_le
  have hrest : ((l.dropWhile p).dropWhile fun c => !p c).length ≤ (l.dropWhile p).length :=
    (List.dropWhile_suffix _).length_le
  have hpos := List.length_pos_iff.2 h
  rw [behind, List.length_tail]
  omega

/-- The maximal runs of a list that begins at a place. -/
def runs (p : α → Bool) (pos : ℕ) (l : List α) : List (ℕ × List α) :=
  if h : l.dropWhile p = [] then []
  else
    (pos + (lead p l).length, first p l) ::
      runs p (pos + (lead p l).length + (first p l).length + 1) (behind p l)
termination_by l.length
decreasing_by exact length_behind_lt h

theorem runs_of_nil (h : l.dropWhile p = []) (pos : ℕ) : runs p pos l = [] := by
  rw [runs, dif_pos h]

theorem runs_of_ne (h : l.dropWhile p ≠ []) (pos : ℕ) :
    runs p pos l = (pos + (lead p l).length, first p l) ::
      runs p (pos + (lead p l).length + (first p l).length + 1) (behind p l) := by
  rw [runs, dif_neg h]

theorem lead_append (p : α → Bool) (l : List α) : lead p l ++ l.dropWhile p = l :=
  List.takeWhile_append_dropWhile

theorem length_lead_le : (lead p l).length ≤ l.length := (List.takeWhile_prefix p).length_le

theorem drop_lead : l.drop (lead p l).length = l.dropWhile p := by
  rw [← congrArg (List.drop (lead p l).length) (lead_append p l), List.drop_left]

/-- The first run, and what is behind it. -/
theorem dropWhile_cases (h : l.dropWhile p ≠ []) :
    first p l ≠ [] ∧ ((behind p l = [] ∧ l.dropWhile p = first p l) ∨
      ∃ c, p c = true ∧ l.dropWhile p = first p l ++ c :: behind p l) := by
  obtain ⟨c, l', hl⟩ := List.exists_cons_of_ne_nil h
  have hc : p c = false := by
    have := List.head?_dropWhile_not p l
    simpa [hl] using this
  have hfirst : first p l ++ (l.dropWhile p).dropWhile (fun c => !p c) = l.dropWhile p :=
    List.takeWhile_append_dropWhile
  refine ⟨by simp [first, hl, hc], ?_⟩
  cases hrest : (l.dropWhile p).dropWhile fun c => !p c with
  | nil =>
    rw [hrest, List.append_nil] at hfirst
    exact .inl ⟨by rw [behind, hrest]; rfl, hfirst.symm⟩
  | cons d l'' =>
    have hd : p d = true := by
      have := List.head?_dropWhile_not (fun c => !p c) (l.dropWhile p)
      simpa [hrest] using this
    have hbehind : behind p l = l'' := by rw [behind, hrest]; rfl
    exact .inr ⟨d, hd, by rw [hbehind, ← hrest, hfirst]⟩

/-- A list by its first run. -/
theorem split_first (h : l.dropWhile p ≠ []) :
    first p l ≠ [] ∧ ((behind p l = [] ∧ l = lead p l ++ first p l) ∨
      ∃ c, p c = true ∧ l = lead p l ++ (first p l ++ c :: behind p l)) := by
  obtain ⟨hne, ⟨hbehind, hl⟩ | ⟨c, hc, hl⟩⟩ := dropWhile_cases h
  · exact ⟨hne, .inl ⟨hbehind, by rw [← hl, lead_append]⟩⟩
  · exact ⟨hne, .inr ⟨c, hc, by rw [← hl, lead_append]⟩⟩

theorem forall_mem_lead : ∀ c ∈ lead p l, p c = true := fun _ hc => List.mem_takeWhile_imp hc

theorem forall_mem_first : ∀ c ∈ first p l, p c = false := fun _ hc => by
  simpa using List.mem_takeWhile_imp hc

/-! ## The runs that are found -/

/-- There is no run among separators. -/
theorem not_maximalRun (h : ∀ c ∈ l, p c = true) : ¬ MaximalRun p l i r := by
  rintro ⟨a, b, rfl, -, hne, hr, -, -⟩
  obtain ⟨c, r', rfl⟩ := List.exists_cons_of_ne_nil hne
  have hc : p c = true := h c (by simp)
  rw [hr c List.mem_cons_self] at hc
  exact Bool.false_ne_true hc

/-- Separators in front. -/
theorem maximalRun_append_iff {u : List α} (h : ∀ c ∈ u, p c = true) :
    MaximalRun p (u ++ l) i r ↔ ∃ k, i = u.length + k ∧ MaximalRun p l k r := by
  constructor
  · rintro ⟨a, b, hl, rfl, hne, hr, hlast, hhead⟩
    rcases List.append_eq_append_iff.1 hl with ⟨a', rfl, rfl⟩ | ⟨u', rfl, hrest⟩
    · refine ⟨a'.length, by simp, a', b, rfl, rfl, hne, hr, fun c hc => hlast c ?_, hhead⟩
      rw [List.getLast?_append, Option.mem_def.1 hc]
      rfl
    · cases u' with
      | nil => exact ⟨0, by simp, [], b, by simpa using hrest.symm, rfl, hne, hr, by simp, hhead⟩
      | cons c u' =>
        -- the run cannot begin with a separator
        obtain ⟨d, r', rfl⟩ := List.exists_cons_of_ne_nil hne
        obtain ⟨rfl, -⟩ := List.cons.inj hrest
        have hd : p d = true := h d (by simp)
        rw [hr d List.mem_cons_self] at hd
        exact absurd hd Bool.false_ne_true
  · rintro ⟨k, rfl, a, b, rfl, rfl, hne, hr, hlast, hhead⟩
    refine ⟨u ++ a, b, by simp, by simp, hne, hr, fun c hc => ?_, hhead⟩
    rw [List.getLast?_append] at hc
    cases hla : a.getLast? with
    | none =>
      rw [hla, Option.none_or] at hc
      exact h c (List.mem_of_getLast? hc)
    | some d =>
      rw [hla, Option.some_or, Option.mem_some] at hc
      exact hc ▸ hlast d hla

/-- Two runs at the beginning are the same. -/
theorem eq_of_append_eq {r' b b' : List α} (hr : ∀ c ∈ r, p c = false) (hb : ∀ c ∈ b.head?, p c = true)
    (hr' : ∀ c ∈ r', p c = false) (hb' : ∀ c ∈ b'.head?, p c = true) (h : r ++ b = r' ++ b') :
    r = r' := by
  have htake : ∀ {r b : List α}, (∀ c ∈ r, p c = false) → (∀ c ∈ b.head?, p c = true) →
      (r ++ b).takeWhile (fun c => !p c) = r := by
    intro r b hr hb
    rw [List.takeWhile_append_of_pos (by simpa using hr)]
    cases b with
    | nil => simp
    | cons c b => simp [hb c rfl]
  rw [← htake hr hb, h, htake hr' hb']

/-- A run in front, and the separator behind it. -/
theorem maximalRun_cons_iff {f : List α} {c : α} (hne : f ≠ []) (hf : ∀ d ∈ f, p d = false)
    (hc : p c = true) : MaximalRun p (f ++ c :: l) i r ↔
      i = 0 ∧ r = f ∨ ∃ k, i = f.length + 1 + k ∧ MaximalRun p l k r := by
  constructor
  · rintro ⟨a, b, hl, rfl, hr₀, hr, hlast, hhead⟩
    rcases List.eq_nil_or_concat a with rfl | ⟨a, d, rfl⟩
    · refine .inl ⟨rfl, (eq_of_append_eq hf ?_ hr hhead hl).symm⟩
      simpa using hc
    have hd : p d = true := hlast d (by simp)
    rcases List.append_eq_append_iff.1 hl with ⟨a', ha, hrest⟩ | ⟨f', rfl, -⟩
    · cases a' with
      | nil =>
        have hmem : d ∈ f := by
          rw [List.append_nil] at ha
          exact ha ▸ by simp
        rw [hf d hmem] at hd
        exact absurd hd Bool.false_ne_true
      | cons c' a' =>
        obtain ⟨rfl, rfl⟩ := List.cons.inj hrest
        refine .inr ⟨a'.length, ?_, a', b, rfl, rfl, hr₀, hr, fun e he => hlast e ?_, hhead⟩
        · rw [ha, List.length_append, List.length_cons]
          omega
        · rw [ha, List.getLast?_append, List.getLast?_cons, Option.mem_def.1 he]
          rfl
    · have hmem : d ∈ a.concat d ++ f' := by simp
      rw [hf d hmem] at hd
      exact absurd hd Bool.false_ne_true
  · rintro (⟨rfl, rfl⟩ | ⟨k, rfl, hrun⟩)
    · exact ⟨[], c :: l, rfl, rfl, hne, hf, by simp, by simpa using hc⟩
    · obtain ⟨a, b, rfl, rfl, hr₀, hr, hlast, hhead⟩ := hrun
      refine ⟨f ++ c :: a, b, by simp, ?_, hr₀, hr, fun e he => ?_, hhead⟩
      · rw [List.length_append, List.length_cons]
        omega
      · rw [List.getLast?_append, List.getLast?_cons] at he
        cases hla : a.getLast? with
        | none => simp_all
        | some d => simp_all

/-- A run that is all there is. -/
theorem maximalRun_self_iff {f : List α} (hne : f ≠ []) (hf : ∀ d ∈ f, p d = false) :
    MaximalRun p f i r ↔ i = 0 ∧ r = f := by
  constructor
  · rintro ⟨a, b, rfl, rfl, hr₀, hr, hlast, hhead⟩
    have ha : a = [] := by
      by_contra ha
      have hd := hlast _ (List.getLast?_eq_some_getLast ha)
      rw [hf _ (List.mem_append_left _ (List.getLast_mem ha))] at hd
      exact Bool.false_ne_true hd
    have hb : b = [] := by
      cases b with
      | nil => rfl
      | cons c b =>
        have hc : p c = true := hhead c rfl
        rw [hf c (by simp)] at hc
        exact absurd hc Bool.false_ne_true
    subst ha hb
    simp
  · rintro ⟨rfl, rfl⟩
    exact ⟨[], [], by simp, rfl, hne, hf, by simp, by simp⟩

/-- **What is found** are the maximal runs. -/
theorem mem_runs_iff {pos : ℕ} :
    (i, r) ∈ runs p pos l ↔ ∃ k, i = pos + k ∧ MaximalRun p l k r := by
  induction pos, l using runs.induct p generalizing i r with
  | case1 pos l h =>
    have hsep : ∀ c ∈ l, p c = true := by simpa using h
    rw [runs_of_nil h]
    refine iff_of_false List.not_mem_nil ?_
    rintro ⟨k, -, hrun⟩
    exact not_maximalRun hsep hrun
  | case2 pos l h ih =>
    obtain ⟨hne, ⟨hbehind, hl⟩ | ⟨c, hc, hl⟩⟩ := split_first h
    · rw [runs_of_ne h, hbehind, runs_of_nil rfl, List.mem_singleton, Prod.mk.injEq]
      conv_rhs => rw [hl]
      simp only [maximalRun_append_iff forall_mem_lead, maximalRun_self_iff hne forall_mem_first]
      constructor
      · rintro ⟨rfl, rfl⟩
        exact ⟨(lead p l).length, rfl, 0, rfl, rfl, rfl⟩
      · rintro ⟨k, rfl, k', rfl, rfl, rfl⟩
        exact ⟨rfl, rfl⟩
    · rw [runs_of_ne h, List.mem_cons, Prod.mk.injEq, ih]
      conv_rhs => rw [hl]
      simp only [maximalRun_append_iff forall_mem_lead, maximalRun_cons_iff hne forall_mem_first hc]
      constructor
      · rintro (⟨rfl, rfl⟩ | ⟨k, rfl, hrun⟩)
        · exact ⟨(lead p l).length, rfl, 0, rfl, .inl ⟨rfl, rfl⟩⟩
        · exact ⟨_, by omega, _, rfl, .inr ⟨k, rfl, hrun⟩⟩
      · rintro ⟨k, rfl, k', rfl, ⟨rfl, rfl⟩ | ⟨k'', rfl, hrun⟩⟩
        · exact .inl ⟨rfl, rfl⟩
        · exact .inr ⟨k'', by omega, hrun⟩

/-- The runs are found one behind the other. -/
theorem pairwise_runs {pos : ℕ} : (runs p pos l).Pairwise fun x y => x.1 < y.1 := by
  induction pos, l using runs.induct p with
  | case1 pos l h =>
    rw [runs_of_nil h]
    exact List.Pairwise.nil
  | case2 pos l h ih =>
    rw [runs_of_ne h]
    refine List.pairwise_cons.2 ⟨?_, ih⟩
    rintro ⟨i, r⟩ hmem
    obtain ⟨k, hi, -⟩ := mem_runs_iff.1 hmem
    show pos + (lead p l).length < i
    omega

end PocketDarwin.MaximalRuns
