/-
  `GNUKext.m`: kexts over the KextInfos of `libkern.m`, with their drivers.

  A kext is made with a KextInfo of its own.  `load` and `unload` check the dependencies
  against the list `_globalLoadedKexts` and then call `KextInfoLoad` and `KextInfoUnload`,
  which keep a list of their own.  What goes to the log is left out.
-/
import PocketDarwin.Kext.Libkern
import PocketDarwin.Kext.Personality

namespace PocketDarwin.Kext

/-- A driver class.  A class need not be a subclass of `GNUKextDriver`. -/
structure DriverClass where
  name : Text
  /-- `[driverClass isSubclassOfClass:[GNUKextDriver class]]` -/
  isDriver : Bool
  /-- `[driverClass personalityKeys]`, nil if the class does not respond -/
  personalityKeys : Option (List Text)
  /-- what `start:` of an instance answers; `GNUKextDriver` itself never refuses -/
  start : Personality → Entry → Bool

/-- `GNUKextDriver` -/
structure Driver where
  driverClass : DriverClass
  matchedPersonality : Personality
  provider : Option EntryRef
  started : Bool
  terminated : Bool

/-- `stop:` -/
def Driver.stop (d : Driver) : Driver :=
  if d.started then { d with started := false, terminated := true, provider := none } else d

/-- What is read of an `Info.plist`.  `executablePath` is the path of the bundle with `CFBundleExecutable`
    appended, `libraries` are the keys of `OSBundleLibraries`. -/
structure InfoPlist where
  bundleIdentifier : Option Text
  executablePath : Option Text
  libraries : Option (List Text)
  personalities : Option (Dictionary (Dictionary Object))

/-- `GNUKext` -/
structure GNUKext where
  bundleIdentifier : Option Text
  dependencies : Option (List Text)
  personalities : Option (Dictionary (Dictionary Object))
  driverInstances : List Driver
  loaded : Bool
  kextInfo : Option KextInfoRef

/-- A pointer to a kext. -/
abbrev KextRef := ℕ

/-- The kexts below `count` have been made. -/
structure Framework where
  libkern : Libkern
  count : ℕ
  kexts : KextRef → GNUKext
  globalLoadedKexts : List KextRef
  registeredDriverClasses : Dictionary DriverClass
  registry : Registry

namespace Framework

/-- An assignment to instance variables of a kext. -/
def modify (w : Framework) (kext : KextRef) (f : GNUKext → GNUKext) : Framework :=
  { w with kexts := Function.update w.kexts kext (f (w.kexts kext)) }

/-- `KextInfoCreateFromPath`, with what it reads of the `Info.plist`: nil if there is none. -/
def kextInfoCreateFromPath (k : Libkern) : Option InfoPlist → Libkern × Option KextInfoRef
  | none => (k, none)
  | some plist => (k.create plist.bundleIdentifier plist.executablePath plist.libraries, some k.count)

/-- `initWithPath:`.  The `Info.plist` is read once here and once more for the KextInfo. -/
def initWithPath (w : Framework) (plist again : Option InfoPlist) : Framework :=
  let bundleIdentifier := plist.bind InfoPlist.bundleIdentifier
  let (libkern, kextInfo) :=
    if bundleIdentifier = none then (w.libkern, none) else kextInfoCreateFromPath w.libkern again
  { w with
    libkern := libkern
    count := w.count + 1
    kexts := Function.update w.kexts w.count
      ⟨bundleIdentifier, plist.bind InfoPlist.libraries, plist.bind InfoPlist.personalities, [], false, kextInfo⟩ }

/-- The check of `load` that all dependencies are loaded. -/
def dependenciesLoaded (w : Framework) (self : KextRef) : Bool :=
  match (w.kexts self).dependencies with
  | none => true
  | some ids => ids.all fun depID =>
    w.globalLoadedKexts.any fun kext => isEqualToString (w.kexts kext).bundleIdentifier (some depID)

/-- `load` -/
def load (w : Framework) (io : Platform) (self : KextRef) : Framework × Bool :=
  if (w.kexts self).loaded then (w, true)
  else if (w.kexts self).bundleIdentifier = none then (w, false)
  else if ¬ w.dependenciesLoaded self then (w, false)
  else
    let (libkern, result) := match (w.kexts self).kextInfo with
      | none => (w.libkern, KextLoadResult.success)
      | some info => w.libkern.kextInfoLoad io (some info)
    let w := { w with libkern := libkern }
    if result ≠ KextLoadResult.success then (w, false)
    else
      let w := w.modify self fun kext => { kext with loaded := true }
      ({ w with globalLoadedKexts := w.globalLoadedKexts ++ [self] }, true)

/-- The drivers of a kext that is unloaded are stopped. -/
def stopDrivers (w : Framework) (self : KextRef) : Framework :=
  w.modify self fun kext => { kext with driverInstances := kext.driverInstances.map Driver.stop }

/-- `unload` -/
def unload (w : Framework) (io : Platform) (self : KextRef) : Framework × Bool :=
  if ¬ (w.kexts self).loaded then (w, true)
  else if (w.kexts self).bundleIdentifier = none then (w, false)
  else
    let w := w.stopDrivers self
    let (libkern, result) := match (w.kexts self).kextInfo with
      | none => (w.libkern, KextLoadResult.success)
      | some info => w.libkern.kextInfoUnload io (some info)
    let w := { w with libkern := libkern }
    if result ≠ KextLoadResult.success then (w, false)
    else
      let w := { w with globalLoadedKexts := w.globalLoadedKexts.filter (· ≠ self) }
      (w.modify self fun kext => { kext with loaded := false }, true)

/-! ## What the calls can do -/

/-- The kext is recorded as loaded, beside what has become of the KextInfos. -/
def markLoaded (w : Framework) (self : KextRef) (libkern : Libkern) : Framework where
  libkern := libkern
  count := w.count
  kexts := Function.update w.kexts self { w.kexts self with loaded := true }
  globalLoadedKexts := w.globalLoadedKexts ++ [self]
  registeredDriverClasses := w.registeredDriverClasses
  registry := w.registry

/-- The kext is recorded as not loaded, and its drivers are stopped. -/
def markUnloaded (w : Framework) (self : KextRef) (libkern : Libkern) : Framework where
  libkern := libkern
  count := w.count
  kexts := Function.update w.kexts self
    { w.kexts self with loaded := false, driverInstances := (w.kexts self).driverInstances.map Driver.stop }
  globalLoadedKexts := w.globalLoadedKexts.filter (· ≠ self)
  registeredDriverClasses := w.registeredDriverClasses
  registry := w.registry

theorem modify_stopDrivers (w : Framework) (self : KextRef) (libkern : Libkern) :
    ({ w.stopDrivers self with
        libkern := libkern, globalLoadedKexts := w.globalLoadedKexts.filter (· ≠ self) } : Framework).modify self
      (fun kext => { kext with loaded := false }) = w.markUnloaded self libkern := by
  simp [stopDrivers, modify, markUnloaded]

/-- What `load` can do. -/
inductive Load (w : Framework) (io : Platform) (self : KextRef) : Framework × Bool → Prop
  | alreadyLoaded : (w.kexts self).loaded = true → Load w io self (w, true)
  | noIdentifier : (w.kexts self).loaded = false → (w.kexts self).bundleIdentifier = none → Load w io self (w, false)
  | dependency : (w.kexts self).loaded = false → ¬ w.dependenciesLoaded self → Load w io self (w, false)
  | refused {info : KextInfoRef} {libkern : Libkern} {result : KextLoadResult} : (w.kexts self).loaded = false →
      (w.kexts self).kextInfo = some info → w.libkern.kextInfoLoad io (some info) = (libkern, result) →
      result ≠ .success → Load w io self ({ w with libkern := libkern }, false)
  | alone : (w.kexts self).loaded = false → w.dependenciesLoaded self → (w.kexts self).kextInfo = none →
      Load w io self (w.markLoaded self w.libkern, true)
  | loaded {info : KextInfoRef} {libkern : Libkern} : (w.kexts self).loaded = false → w.dependenciesLoaded self →
      (w.kexts self).kextInfo = some info → w.libkern.kextInfoLoad io (some info) = (libkern, .success) →
      Load w io self (w.markLoaded self libkern, true)

/-- What `unload` can do. -/
inductive Unload (w : Framework) (io : Platform) (self : KextRef) : Framework × Bool → Prop
  | notLoaded : (w.kexts self).loaded = false → Unload w io self (w, true)
  | noIdentifier : (w.kexts self).loaded = true → (w.kexts self).bundleIdentifier = none → Unload w io self (w, false)
  | refused {info : KextInfoRef} {libkern : Libkern} {result : KextLoadResult} : (w.kexts self).loaded = true →
      (w.kexts self).kextInfo = some info → w.libkern.kextInfoUnload io (some info) = (libkern, result) →
      result ≠ .success → Unload w io self ({ w.stopDrivers self with libkern := libkern }, false)
  | alone : (w.kexts self).loaded = true → (w.kexts self).bundleIdentifier ≠ none → (w.kexts self).kextInfo = none →
      Unload w io self (w.markUnloaded self w.libkern, true)
  | unloaded {info : KextInfoRef} {libkern : Libkern} : (w.kexts self).loaded = true →
      (w.kexts self).bundleIdentifier ≠ none → (w.kexts self).kextInfo = some info →
      w.libkern.kextInfoUnload io (some info) = (libkern, .success) →
      Unload w io self (w.markUnloaded self libkern, true)

/-- **What `load` does**, case by case. -/
theorem load_load (w : Framework) (io : Platform) (self : KextRef) : Load w io self (w.load io self) := by
  rw [load]
  by_cases hloaded : (w.kexts self).loaded = true
  · rw [if_pos hloaded]
    exact .alreadyLoaded hloaded
  rw [if_neg hloaded]
  rw [Bool.not_eq_true] at hloaded
  by_cases hid : (w.kexts self).bundleIdentifier = none
  · rw [if_pos hid]
    exact .noIdentifier hloaded hid
  rw [if_neg hid]
  by_cases hdeps : ¬ w.dependenciesLoaded self
  · rw [if_pos hdeps]
    exact .dependency hloaded hdeps
  rw [if_neg hdeps]
  have hdeps := not_not.1 hdeps
  cases hinfo : (w.kexts self).kextInfo with
  | none => exact .alone hloaded hdeps hinfo
  | some info =>
    cases hresult : w.libkern.kextInfoLoad io (some info) with
    | mk libkern result =>
      by_cases hsuccess : result = .success
      · subst hsuccess
        simp only [hresult, ne_eq, not_true_eq_false, if_false]
        exact .loaded hloaded hdeps hinfo hresult
      · simp only [hresult, ne_eq, hsuccess, not_false_eq_true, if_true]
        exact .refused hloaded hinfo hresult hsuccess

/-- **What `unload` does**, case by case. -/
theorem unload_unload (w : Framework) (io : Platform) (self : KextRef) : Unload w io self (w.unload io self) := by
  rw [unload]
  by_cases hloaded : ¬ (w.kexts self).loaded = true
  · rw [if_pos hloaded]
    exact .notLoaded (Bool.not_eq_true _ ▸ hloaded)
  rw [if_neg hloaded]
  have hloaded := not_not.1 hloaded
  by_cases hid : (w.kexts self).bundleIdentifier = none
  · rw [if_pos hid]
    exact .noIdentifier hloaded hid
  rw [if_neg hid]
  have hsame : ((w.stopDrivers self).kexts self).kextInfo = (w.kexts self).kextInfo := by
    simp [stopDrivers, modify]
  simp only [hsame]
  cases hinfo : (w.kexts self).kextInfo with
  | none =>
    simp only [ne_eq, not_true_eq_false, if_false]
    refine Eq.subst (motive := fun w' => Unload w io self (w', true))
      (modify_stopDrivers w self w.libkern).symm ?_
    exact .alone hloaded hid hinfo
  | some info =>
    have hlibkern : (w.stopDrivers self).libkern = w.libkern := rfl
    cases hresult : w.libkern.kextInfoUnload io (some info) with
    | mk libkern result =>
      by_cases hsuccess : result = .success
      · subst hsuccess
        simp only [hlibkern, hresult, ne_eq, not_true_eq_false, if_false]
        refine Eq.subst (motive := fun w' => Unload w io self (w', true))
          (modify_stopDrivers w self libkern).symm ?_
        exact .unloaded hloaded hid hinfo hresult
      · simp only [hlibkern, hresult, ne_eq, hsuccess, not_false_eq_true, if_true]
        exact .refused hloaded hinfo hresult hsuccess

/-! ## Drivers -/

/-- The keys that a class is registered under: its name, if it gives none. -/
def DriverClass.keys (driverClass : DriverClass) : List Text :=
  match driverClass.personalityKeys with
  | some (key :: keys) => key :: keys
  | _ => [driverClass.name]

/-- `+registerDriverClass:` -/
def registerDriverClass (w : Framework) (driverClass : DriverClass) : Framework :=
  { w with
    registeredDriverClasses := (DriverClass.keys driverClass).foldl
      (fun classes key => classes.setObjectForKey driverClass key) w.registeredDriverClasses }

/-- `+registerDriverClass:forPersonality:` -/
def registerDriverClassForPersonality (w : Framework) (driverClass : DriverClass) (personalityName : Text) : Framework :=
  { w with registeredDriverClasses := w.registeredDriverClasses.setObjectForKey driverClass personalityName }

/-- The class that is registered for the `IOClass` of a personality. -/
def registeredFor (w : Framework) (personality : Personality) : Option DriverClass :=
  match personality.ioClass with
  | some (.string ioClass) => w.registeredDriverClasses.objectForKey ioClass
  | _ => none

/-- The class that is looked up for a personality: the one registered for its `IOClass`, or else the
    first one there is. -/
def driverClassFor (w : Framework) (personality : Personality) : Option DriverClass :=
  match w.registeredFor personality with
  | some driverClass => some driverClass
  | none => w.registeredDriverClasses.head?.map Prod.snd

/-- The personalities of a kext, in the order they are enumerated in. -/
def personalitiesOf (kext : GNUKext) : List Personality :=
  (kext.personalities.getD []).map fun (name, dictionary) => ⟨name, dictionary⟩

end Framework

end PocketDarwin.Kext
