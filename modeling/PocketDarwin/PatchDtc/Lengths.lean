/-
  How long the names are that `_truncate_name` returns.

  What is truncated is the part of a node name before its `@`, and only that is
  measured: a truncated key has `maxNameLen - 3` characters, `maxNameLen - 1` with
  one of the suffixes `~1` to `~9`, and `maxNameLen` with a longer one
  (`length_truncated`); the `@unit` part comes on top of that.  `names_fit_iff`
  says which runs stay within the limit all the same.
-/
import Mathlib.Data.Nat.Find
import PocketDarwin.PatchDtc.Rename

namespace PocketDarwin.PatchDtc

namespace Patcher

section
variable (opts : Options)

/-- The candidates for a key, in the order in which they are tried. -/
def candidate (key : Text) (i : ℕ) : Text :=
  if i = 0 then baseOf opts key else numbered opts (baseOf opts key) i

/-- A call whose result is within the limit: for a node name with an `@unit` part, the whole
    name is, or the part before the `@` is not and the candidate that it gets leaves room for
    the rest. -/
def Fits (kind : Kind) (name : Text) (p : Patcher) : Prop :=
  tailOf kind name = [] ∨ (name.length : ℤ) ≤ opts.maxNameLen ∨
    opts.maxNameLen < (keyOf kind name).length ∧
      ((tailOf kind name).length ≤ 3 ∧
        ¬ p.taken kind (keyOf kind name) (candidate opts (keyOf kind name) 0) ∨
        (tailOf kind name).length ≤ 1 ∧
          ∃ i < 10, ¬ p.taken kind (keyOf kind name) (candidate opts (keyOf kind name) i))

/-- All calls of a run are such. -/
def AllFit : NameCalls → Patcher → Prop
  | [], _ => True
  | (kind, name) :: cs, p => Fits opts kind name p ∧ AllFit cs (truncateName opts name kind p).2

/-- The names that a run returns. -/
def returned : NameCalls → Patcher → List Text
  | [], _ => []
  | (kind, name) :: cs, p =>
    (truncateName opts name kind p).1 :: returned cs (truncateName opts name kind p).2

end

/-! ## Candidates -/

theorem length_takeTo (text : Text) {k : ℤ} (h : 0 ≤ k) :
    ((takeTo text k).length : ℤ) = min k text.length := by
  rw [takeTo, if_pos h, List.length_take]
  omega

theorem length_suffixText : ∀ i < 100, (suffixText i).length = if i < 10 then 2 else 3 :=
  by decide +kernel

theorem length_hexdigest (text : Text) : 4 ≤ (Md5.hexdigest text).length := by
  simp [Md5.hexdigest, Md5.digest, Md5.bytesOf]

section
variable {opts : Options} (hmax : 8 ≤ opts.maxNameLen) {key : Text}
  (hkey : opts.maxNameLen < key.length)
include hmax hkey

theorem length_baseOf : ((baseOf opts key).length : ℤ) = opts.maxNameLen - 3 := by
  have hlong : (key.length : ℤ) > opts.maxNameLen - 1 := by omega
  simp only [baseOf, if_pos hlong]
  rw [length_takeTo _ (by omega)]
  omega

theorem length_candidate {i : ℕ} (hi : i < 100) :
    ((candidate opts key i).length : ℤ) =
      if i = 0 then opts.maxNameLen - 3 else if i < 10 then opts.maxNameLen - 1
        else opts.maxNameLen := by
  have hbase := length_baseOf hmax hkey
  have hsuffix := length_suffixText i hi
  rw [candidate]
  by_cases h₀ : i = 0
  · rw [if_pos h₀, if_pos h₀]
    exact hbase
  · have htake := length_takeTo (baseOf opts key) (k := opts.maxNameLen - (suffixText i).length)
      (by split_ifs at hsuffix <;> omega)
    rw [if_neg h₀, if_neg h₀, numbered, List.length_append]
    split_ifs at hsuffix ⊢ <;> omega

theorem length_hashed (name : Text) :
    ((hashed opts (baseOf opts key) name).length : ℤ) = opts.maxNameLen := by
  have hbase := length_baseOf hmax hkey
  have hdigest := length_hexdigest name
  have htake := length_takeTo (baseOf opts key) (k := opts.maxNameLen - 5) (by omega)
  rw [hashed, List.length_append, List.length_cons, List.length_take]
  omega

end

/-- The probe gives up where all candidates are taken. -/
theorem probe_hashed {opts : Options} {isTaken : Text → Bool} {key : Text}
    (htaken : ∀ j < 100, isTaken (candidate opts key j)) (fuel s : ℕ) (hs : s < 100)
    (hfuel : 99 - s < fuel) :
    probe opts isTaken (baseOf opts key) key fuel s (candidate opts key s) =
      hashed opts (baseOf opts key) key := by
  induction fuel generalizing s with
  | zero => omega
  | succ fuel ih =>
    rw [probe, if_pos (htaken s hs)]
    split_ifs with h
    · rfl
    · exact ih (s + 1) (by omega) (by omega)

/-- A key gets the first candidate that is free, or the digest. -/
theorem truncated_cases (opts : Options) (key : Text) (kind : Kind) (p : Patcher) :
    ∃ i ≤ 100, (truncateWithCollisions opts key kind p).1 =
        (if i < 100 then candidate opts key i else hashed opts (baseOf opts key) key) ∧
      (i < 100 → ¬ p.taken kind key (candidate opts key i)) ∧
      ∀ j < i, p.taken kind key (candidate opts key j) := by
  by_cases hfree : ∃ i, i < 100 ∧ ¬ p.taken kind key (candidate opts key i)
  · obtain ⟨hlt, hnot⟩ := Nat.find_spec hfree
    have hmin : ∀ j < Nat.find hfree, p.taken kind key (candidate opts key j) := by
      intro j hj
      by_contra hj'
      exact Nat.find_min hfree hj ⟨by omega, hj'⟩
    refine ⟨Nat.find hfree, hlt.le, ?_, fun _ => hnot, hmin⟩
    rw [if_pos hlt]
    exact probe_eq (c := candidate opts key) (by omega) (fun _ _ => rfl)
      hmin hnot 101 0 (Nat.zero_le _) (by omega)
  · have htaken : ∀ j < 100, p.taken kind key (candidate opts key j) := by
      intro j hj
      by_contra hj'
      exact hfree ⟨j, hj, hj'⟩
    exact ⟨100, Nat.le_refl _, probe_hashed htaken 101 0 (by decide) (by decide),
      fun h => by omega, htaken⟩

/-- The length of a key that is truncated. -/
theorem length_truncated {opts : Options} (hmax : 8 ≤ opts.maxNameLen) {key : Text}
    (hkey : opts.maxNameLen < key.length) (kind : Kind) (p : Patcher) :
    ((truncateWithCollisions opts key kind p).1.length : ℤ) =
      if ¬ p.taken kind key (candidate opts key 0) then opts.maxNameLen - 3
      else if ∃ i < 10, ¬ p.taken kind key (candidate opts key i) then opts.maxNameLen - 1
      else opts.maxNameLen := by
  obtain ⟨i, hi, hresult, hfree, htaken⟩ := truncated_cases opts key kind p
  have hzero : ¬ p.taken kind key (candidate opts key 0) ↔ i = 0 := by
    constructor
    · intro h
      by_contra hi₀
      exact h (htaken 0 (by omega))
    · rintro rfl
      exact hfree (by decide)
  have hten : (∃ i < 10, ¬ p.taken kind key (candidate opts key i)) ↔ i < 10 := by
    constructor
    · rintro ⟨j, hj, hj'⟩
      by_contra hij
      exact hj' (htaken j (by omega))
    · intro h
      exact ⟨i, h, hfree (by omega)⟩
  rw [hresult]
  simp only [hzero, hten]
  by_cases hlt : i < 100
  · rw [if_pos hlt, length_candidate hmax hkey hlt]
  · rw [if_neg hlt, length_hashed hmax hkey, if_neg (by omega), if_neg (by omega)]

/-- The length of one name. -/
theorem fits_iff {opts : Options} (hmax : 8 ≤ opts.maxNameLen) (kind : Kind) (name : Text)
    (p : Patcher) :
    ((truncateName opts name kind p).1.length : ℤ) ≤ opts.maxNameLen ↔ Fits opts kind name p := by
  have hname : name.length = (keyOf kind name).length + (tailOf kind name).length := by
    rw [← List.length_append, keyOf_append_tailOf]
  have htail : tailOf kind name = [] ↔ (tailOf kind name).length = 0 := List.length_eq_zero_iff.symm
  rw [truncateName_eq, Fits, htail]
  show (((truncateKey opts (keyOf kind name) kind p).1 ++ tailOf kind name).length : ℤ) ≤ _ ↔ _
  rw [List.length_append]
  by_cases hkey : ((keyOf kind name).length : ℤ) ≤ opts.maxNameLen
  · rw [truncateKey_short opts hkey]
    show (((keyOf kind name).length + (tailOf kind name).length : ℕ) : ℤ) ≤ _ ↔ _
    omega
  · have hlong : opts.maxNameLen < (keyOf kind name).length := by omega
    have hlen := length_truncated hmax hlong kind p
    rw [truncateKey_long opts hkey]
    by_cases h₀ : ¬ p.taken kind (keyOf kind name) (candidate opts (keyOf kind name) 0)
    · have h₁ : ∃ i < 10, ¬ p.taken kind (keyOf kind name) (candidate opts (keyOf kind name) i) :=
        ⟨0, by decide, h₀⟩
      rw [if_pos h₀] at hlen
      rw [eq_true h₀, eq_true h₁]
      simp only [and_true]
      omega
    by_cases h₁ : ∃ i < 10, ¬ p.taken kind (keyOf kind name) (candidate opts (keyOf kind name) i)
    · rw [if_neg h₀, if_pos h₁] at hlen
      rw [eq_false h₀, eq_true h₁]
      simp only [and_true, and_false, false_or]
      omega
    · rw [if_neg h₀, if_neg h₁] at hlen
      rw [eq_false h₀, eq_false h₁]
      simp only [and_false, or_false]
      omega

/-- **The length bound.**  All names of a run are within the limit exactly when each call is
    one that fits. -/
theorem names_fit_iff {opts : Options} (hmax : 8 ≤ opts.maxNameLen) (cs : NameCalls) (p : Patcher) :
    (∀ name ∈ returned opts cs p, (name.length : ℤ) ≤ opts.maxNameLen) ↔ AllFit opts cs p := by
  induction cs generalizing p with
  | nil => simp [returned, AllFit]
  | cons c cs ih =>
    obtain ⟨kind, name⟩ := c
    rw [returned, AllFit, List.forall_mem_cons, fits_iff hmax, ih]

end Patcher

open Patcher

/-- A node with a unit address of 16 digits. -/
def unitCalls : NameCalls := [(.node, "interrupt-controller@00000000f9000000".toList)]

theorem unitCalls_exceed : ¬ ∀ name ∈ returned {} unitCalls {}, (name.length : ℤ)
    ≤ ({} : Options).maxNameLen := by
  decide +kernel

/-- Long names without a unit address fit. -/
theorem collidingCalls_fit : 8 ≤ ({} : Options).maxNameLen ∧
    ∀ name ∈ returned {} collidingCalls {}, (name.length : ℤ) ≤ ({} : Options).maxNameLen := by
  have hmax : 8 ≤ ({} : Options).maxNameLen := by decide
  refine ⟨hmax, (names_fit_iff hmax collidingCalls {}).2 ?_⟩
  exact ⟨.inl rfl, .inl rfl, .inl rfl, .inl rfl, .inl rfl, trivial⟩

end PocketDarwin.PatchDtc
