/-
  Lists of pairs as finite maps, for keys that are compared with an equality of their own.

  `lookup eq l`: the map that the list is.  `Keys eq ks m`: the keys of the map `m` are `ks`, each
  once.

  * `lookup_push`, `lookup_replace`, `lookup_remove`: the map after a pair was put behind the others,
    a value replaced, a pair removed.
  * `Keys.length_le`: how many keys a map has does not depend on how they are listed.
-/
import Mathlib.Data.List.Perm.Subperm
import Mathlib.Order.Defs.Unbundled
import Mathlib.Tactic.SplitIfs

namespace PocketDarwin.Assoc

variable {κ β : Type} {eq : κ → κ → Bool}

/-- The value of the first pair with this key. -/
def lookup (eq : κ → κ → Bool) (l : List (κ × β)) (k : κ) : Option β :=
  (l.find? fun p => eq p.1 k).map Prod.snd

/-- No two keys are equal. -/
def Distinct (eq : κ → κ → Bool) (l : List (κ × β)) : Prop := l.Pairwise fun p q => ¬ eq p.1 q.1

/-- The map after `k` was set. -/
def set (eq : κ → κ → Bool) (m : κ → Option β) (k : κ) (b : β) : κ → Option β :=
  fun k' => if eq k k' then some b else m k'

/-- The map after `k` was removed. -/
def remove (eq : κ → κ → Bool) (m : κ → Option β) (k : κ) : κ → Option β :=
  fun k' => if eq k k' then none else m k'

/-- The keys of the map, each once. -/
structure Keys (eq : κ → κ → Bool) (ks : List κ) (m : κ → Option β) : Prop where
  distinct : ks.Pairwise fun a b => ¬ eq a b
  mem : ∀ k, (m k).isSome ↔ ∃ a ∈ ks, eq a k

section
variable {l l₁ l₂ : List (κ × β)} {m : κ → Option β} {ks ks' : List κ} {k a : κ} {b old : β}

theorem lookup_eq_none (h : ∀ p ∈ l, ¬ eq p.1 k) : lookup eq l k = none := by
  rw [lookup, List.find?_eq_none.2 h]
  rfl

theorem isSome_lookup : (lookup eq l k).isSome ↔ ∃ p ∈ l, eq p.1 k := by
  rw [lookup, Option.isSome_map, List.find?_isSome]

theorem lookup_append : lookup eq (l₁ ++ l₂) k = (lookup eq l₁ k).or (lookup eq l₂ k) := by
  rw [lookup, List.find?_append, Option.map_or]
  rfl

theorem lookup_cons : lookup eq ((a, b) :: l) k = if eq a k then some b else lookup eq l k := by
  rw [lookup, List.find?_cons]
  cases eq a k <;> rfl

/-- The first pair with a key, or there is none. -/
theorem exists_split (eq : κ → κ → Bool) (l : List (κ × β)) (k : κ) :
    (∀ p ∈ l, ¬ eq p.1 k) ∨ ∃ l₁ a b l₂, l = l₁ ++ (a, b) :: l₂ ∧ eq a k ∧ ∀ p ∈ l₁, ¬ eq p.1 k := by
  cases h : l.find? (fun p => eq p.1 k) with
  | none => exact Or.inl (List.find?_eq_none.1 h)
  | some p =>
    obtain ⟨hp, l₁, l₂, hl, hfirst⟩ := List.find?_eq_some_iff_append.1 h
    exact Or.inr ⟨l₁, p.1, p.2, l₂, hl, hp, fun q hq => by simpa using hfirst q hq⟩

theorem Distinct.keys (h : Distinct eq l) : Keys eq (l.map Prod.fst) (lookup eq l) := by
  refine ⟨List.pairwise_map.2 h, fun k => ?_⟩
  rw [isSome_lookup]
  constructor
  · rintro ⟨p, hp, hk⟩
    exact ⟨p.1, List.mem_map_of_mem hp, hk⟩
  · rintro ⟨a, ha, hk⟩
    obtain ⟨p, hp, rfl⟩ := List.mem_map.1 ha
    exact ⟨p, hp, hk⟩

variable (heq : Equivalence fun a b => eq a b = true)
include heq

/-- Equal keys are equal to the same. -/
theorem eq_congr (h : eq a k) (k' : κ) : eq a k' = eq k k' :=
  Bool.eq_iff_iff.2 ⟨heq.trans (heq.symm h), heq.trans h⟩

/-- A key that no pair has is not equal to the keys of the pairs. -/
theorem lookup_eq_none_of_eq {k' : κ} (h : ∀ p ∈ l, ¬ eq p.1 k) (hk : eq k k') :
    lookup eq l k' = none :=
  lookup_eq_none fun p hp hp' => h p hp (heq.trans hp' (heq.symm hk))

theorem lookup_push (h : ∀ p ∈ l, ¬ eq p.1 k) :
    lookup eq (l ++ [(k, b)]) = set eq (lookup eq l) k b := by
  funext k'
  rw [lookup_append, lookup_cons, set]
  split_ifs with hk
  · rw [lookup_eq_none_of_eq heq h hk]
    rfl
  · exact Option.or_none

theorem lookup_replace (h : ∀ p ∈ l₁, ¬ eq p.1 k) (ha : eq a k) :
    lookup eq (l₁ ++ (a, b) :: l₂) = set eq (lookup eq (l₁ ++ (a, old) :: l₂)) k b := by
  funext k'
  rw [set, lookup_append, lookup_append, lookup_cons, lookup_cons, eq_congr heq ha]
  split_ifs with hk
  · rw [lookup_eq_none_of_eq heq h hk]
    rfl
  · rfl

theorem lookup_remove (h : ∀ p ∈ l₁ ++ l₂, ¬ eq p.1 k) (ha : eq a k) :
    lookup eq (l₁ ++ l₂) = remove eq (lookup eq (l₁ ++ (a, old) :: l₂)) k := by
  funext k'
  rw [remove]
  split_ifs with hk
  · exact lookup_eq_none_of_eq heq h hk
  · rw [lookup_append, lookup_append, lookup_cons, if_neg (by rwa [eq_congr heq ha])]

theorem lookup_of_mem (h : Distinct eq l) (hp : (a, b) ∈ l) : lookup eq l a = some b := by
  induction l with
  | nil => exact absurd hp List.not_mem_nil
  | cons p l ih =>
    obtain ⟨hp₀, h'⟩ := List.pairwise_cons.1 h
    obtain ⟨a₀, b₀⟩ := p
    rw [lookup_cons]
    rcases List.mem_cons.1 hp with hab | hab
    · obtain ⟨rfl, rfl⟩ := Prod.mk.injEq _ _ _ _ ▸ hab
      exact if_pos (heq.refl a)
    · rw [if_neg (hp₀ _ hab), ih h' hab]

/-- The pairs besides one with the key have other keys. -/
theorem Distinct.not_eq (h : Distinct eq (l₁ ++ (a, b) :: l₂)) (ha : eq a k) :
    ∀ p ∈ l₁ ++ l₂, ¬ eq p.1 k := by
  obtain ⟨-, h₂, h₁₂⟩ := List.pairwise_append.1 h
  intro p hp hk
  rcases List.mem_append.1 hp with hp | hp
  · exact h₁₂ p hp (a, b) List.mem_cons_self (heq.trans hk (heq.symm ha))
  · exact (List.pairwise_cons.1 h₂).1 p hp (heq.trans ha (heq.symm hk))

/-- Keys of a map are no more than others that are equal to all of them. -/
theorem Keys.length_le (h : Keys eq ks m) (h' : ∀ k, (m k).isSome → ∃ a ∈ ks', eq a k) :
    ks.length ≤ ks'.length := by
  classical
  have hmem : ∀ a ∈ ks, ∃ a' ∈ ks', eq a' a := fun a ha => h' a ((h.mem a).2 ⟨a, ha, heq.refl a⟩)
  choose! f hf heq' using hmem
  have hdistinct : (ks.map f).Nodup := by
    refine List.pairwise_map.2 (h.distinct.imp_of_mem fun {a b} ha hb hne hab => hne ?_)
    exact heq.trans (heq.symm (heq' a ha)) (hab ▸ heq' b hb)
  have hsub : ks.map f ⊆ ks' := by
    intro a' ha'
    obtain ⟨a, ha, rfl⟩ := List.mem_map.1 ha'
    exact hf a ha
  rw [← List.length_map f]
  exact (List.subperm_of_subset hdistinct hsub).length_le

end

end PocketDarwin.Assoc
