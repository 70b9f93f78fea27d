/-
  `libkern.m`: KextInfos, and loading and unloading their executables as modules of the
  kernel.

  The platform is Linux or one of the BSDs; what `fileExistsAtPath:` and the platform's
  `loadModuleAtPath:` or `unloadModuleAtPath:` answer is given with each call.  The
  modules that are in the kernel are part of the state: an answer YES of the platform
  means that the module was loaded or unloaded.
-/
import PocketDarwin.Kext.Plist
import Mathlib.Logic.Function.Basic

namespace PocketDarwin.Kext

/-- `KextInfoState` -/
inductive KextInfoState where
  | unloaded
  | loading
  | loaded
  | unloading
  | failed
  deriving DecidableEq

/-- `KextLoadResult` -/
inductive KextLoadResult where
  | success
  | notFound
  | invalidInfo
  | missingDependencies
  | failedToLoad
  | alreadyLoaded
  deriving DecidableEq

/-- `struct KextInfo`, as far as loading and unloading go. -/
structure KextInfo where
  bundleIdentifier : Option Text
  executablePath : Option Text
  dependencyIDs : Option (List Text)
  state : KextInfoState
  lastLoadResult : KextLoadResult

/-- A pointer to a KextInfo that is not `NULL`. -/
abbrev KextInfoRef := ℕ

/-- The answers of the platform during a call. -/
structure Platform where
  /-- `[[NSFileManager defaultManager] fileExistsAtPath:info->executablePath]` -/
  fileExists : Bool
  /-- `[LinuxKernelModule loadModuleAtPath:...]` or `[LinuxKernelModule unloadModuleAtPath:...]` -/
  module : Bool

/-- The KextInfos below `count` have been allocated. -/
structure Libkern where
  count : ℕ
  infos : KextInfoRef → KextInfo
  /-- `_loadedKexts`; an array that is not made yet is empty -/
  loadedKexts : List KextInfoRef
  /-- the executables that are in the kernel -/
  modules : List Text

namespace Libkern

/-- An assignment to fields of a KextInfo. -/
def modify (k : Libkern) (info : KextInfoRef) (f : KextInfo → KextInfo) : Libkern :=
  { k with infos := Function.update k.infos info (f (k.infos info)) }

/-- `KextInfoCreate`, with the fields that `KextInfoCreateFromPath` fills in. -/
def create (k : Libkern) (bundleIdentifier executablePath : Option Text) (dependencyIDs : Option (List Text)) :
    Libkern :=
  { k with
    count := k.count + 1
    infos := Function.update k.infos k.count ⟨bundleIdentifier, executablePath, dependencyIDs, .unloaded, .success⟩ }

/-- `_checkDependencies` -/
def checkDependencies (k : Libkern) (info : KextInfoRef) : Bool :=
  match (k.infos info).dependencyIDs with
  | none => true
  | some ids => ids.all fun depID =>
    k.loadedKexts.any fun loaded => isEqualToString (k.infos loaded).bundleIdentifier (some depID)

/-- The executable that the platform is asked to load or unload, if there is one. -/
def module (k : Libkern) (io : Platform) (info : KextInfoRef) : Option Text :=
  if io.fileExists then (k.infos info).executablePath else none

/-- `loadModuleAtPath:`, where there is an executable. -/
def loadModule (k : Libkern) (io : Platform) (info : KextInfoRef) : Libkern × Bool :=
  match k.module io info with
  | none => (k, true)
  | some path => if io.module then ({ k with modules := k.modules ++ [path] }, true) else (k, false)

/-- `unloadModuleAtPath:`, where there is an executable. -/
def unloadModule (k : Libkern) (io : Platform) (info : KextInfoRef) : Libkern × Bool :=
  match k.module io info with
  | none => (k, true)
  | some path => if io.module then ({ k with modules := k.modules.filter (· ≠ path) }, true) else (k, false)

/-- `KextInfoLoad` -/
def kextInfoLoad (k : Libkern) (io : Platform) : Option KextInfoRef → Libkern × KextLoadResult
  | none => (k, .invalidInfo)
  | some info =>
    if (k.infos info).state = .loaded then (k, .alreadyLoaded)
    else if (k.infos info).bundleIdentifier = none then (k, .invalidInfo)
    else if ¬ k.checkDependencies info then
      (k.modify info fun i => { i with lastLoadResult := .missingDependencies }, .missingDependencies)
    else
      let k := k.modify info fun i => { i with state := .loading }
      let (k, ok) := k.loadModule io info
      if ¬ ok then
        (k.modify info fun i => { i with state := .failed, lastLoadResult := .failedToLoad }, .failedToLoad)
      else
        let k := k.modify info fun i => { i with state := .loaded, lastLoadResult := .success }
        ({ k with loadedKexts := k.loadedKexts ++ [info] }, .success)

/-- `KextInfoUnload`; `KextInfoRemovePersonalities` only writes to the log. -/
def kextInfoUnload (k : Libkern) (io : Platform) : Option KextInfoRef → Libkern × KextLoadResult
  | none => (k, .invalidInfo)
  | some info =>
    if (k.infos info).state ≠ .loaded then (k, .failedToLoad)
    else
      let k := k.modify info fun i => { i with state := .unloading }
      -- the answer is not looked at
      let (k, _) := k.unloadModule io info
      let k := k.modify info fun i => { i with state := .unloaded }
      ({ k with loadedKexts := k.loadedKexts.erase info }, .success)

/-! ## What the calls can do -/

variable {k : Libkern} {io : Platform} {info : KextInfoRef}

/-- What `KextInfoLoad` can do. -/
inductive Load (k : Libkern) (io : Platform) (info : KextInfoRef) : Libkern × KextLoadResult → Prop
  | alreadyLoaded : (k.infos info).state = .loaded → Load k io info (k, .alreadyLoaded)
  | noIdentifier : (k.infos info).state ≠ .loaded → (k.infos info).bundleIdentifier = none →
      Load k io info (k, .invalidInfo)
  | missingDependencies : (k.infos info).state ≠ .loaded → ¬ k.checkDependencies info →
      Load k io info
        (k.modify info fun i => { i with lastLoadResult := .missingDependencies }, .missingDependencies)
  | failed {path : Text} : (k.infos info).state ≠ .loaded → k.checkDependencies info →
      k.module io info = some path → io.module = false →
      Load k io info
        (k.modify info fun i => { i with state := .failed, lastLoadResult := .failedToLoad }, .failedToLoad)
  | loaded : (k.infos info).state ≠ .loaded → (k.infos info).bundleIdentifier ≠ none → k.checkDependencies info →
      (∀ path ∈ k.module io info, io.module = true) →
      Load k io info
        ({ k.modify info (fun i => { i with state := .loaded, lastLoadResult := .success }) with
            loadedKexts := k.loadedKexts ++ [info]
            modules := k.modules ++ (k.module io info).toList }, .success)

/-- What `KextInfoUnload` can do. -/
inductive Unload (k : Libkern) (io : Platform) (info : KextInfoRef) : Libkern × KextLoadResult → Prop
  | notLoaded : (k.infos info).state ≠ .loaded → Unload k io info (k, .failedToLoad)
  | unloaded : (k.infos info).state = .loaded →
      Unload k io info
        ({ k.modify info (fun i => { i with state := .unloaded }) with
            loadedKexts := k.loadedKexts.erase info
            modules := if io.module then k.modules.filter (some · ≠ k.module io info) else k.modules }, .success)

theorem module_modify (k : Libkern) (io : Platform) (info : KextInfoRef) {f : KextInfo → KextInfo}
    (hf : ∀ i, (f i).executablePath = i.executablePath) : (k.modify info f).module io info = k.module io info := by
  simp [module, modify, hf]

/-- **What `KextInfoLoad` does**, case by case. -/
theorem load_kextInfoLoad (k : Libkern) (io : Platform) (info : KextInfoRef) :
    Load k io info (k.kextInfoLoad io (some info)) := by
  rw [kextInfoLoad]
  by_cases hstate : (k.infos info).state = .loaded
  · rw [if_pos hstate]
    exact .alreadyLoaded hstate
  rw [if_neg hstate]
  by_cases hid : (k.infos info).bundleIdentifier = none
  · rw [if_pos hid]
    exact .noIdentifier hstate hid
  rw [if_neg hid]
  by_cases hdeps : ¬ k.checkDependencies info
  · rw [if_pos hdeps]
    exact .missingDependencies hstate hdeps
  rw [if_neg hdeps]
  have hdeps := not_not.1 hdeps
  have hsame := module_modify k io info (f := fun i => { i with state := .loading }) fun _ => rfl
  cases hmodule : k.module io info with
  | none =>
    have h : Load k io info _ := .loaded hstate hid hdeps (by simp [hmodule])
    simp only [loadModule, hsame, hmodule]
    simpa [hmodule, modify] using h
  | some path =>
    cases hio : io.module with
    | false =>
      have h := Load.failed hstate hdeps hmodule hio
      simp only [loadModule, hsame, hmodule, hio]
      simpa [modify] using h
    | true =>
      have h : Load k io info _ := .loaded hstate hid hdeps (by simp [hio])
      simp only [loadModule, hsame, hmodule, hio]
      simpa [hmodule, modify] using h

/-- **What `KextInfoUnload` does**, case by case. -/
theorem unload_kextInfoUnload (k : Libkern) (io : Platform) (info : KextInfoRef) :
    Unload k io info (k.kextInfoUnload io (some info)) := by
  rw [kextInfoUnload]
  by_cases hstate : (k.infos info).state ≠ .loaded
  · rw [if_pos hstate]
    exact .notLoaded hstate
  rw [if_neg hstate]
  have h : Unload k io info _ := .unloaded (not_not.1 hstate)
  have hsame := module_modify k io info (f := fun i => { i with state := .unloading }) fun _ => rfl
  cases hmodule : k.module io info with
  | none =>
    have hfilter : k.modules.filter (some · ≠ k.module io info) = k.modules :=
      List.filter_eq_self.2 fun path _ => by simp [hmodule]
    rw [hfilter, ite_self] at h
    simp only [unloadModule, hsame, hmodule]
    simpa [modify] using h
  | some path =>
    cases hio : io.module with
    | false =>
      simp only [unloadModule, hsame, hmodule, hio]
      simpa [hio, modify] using h
    | true =>
      simp only [unloadModule, hsame, hmodule, hio]
      simpa [hmodule, hio, modify] using h

section
variable {k' : Libkern} {result : KextLoadResult}

theorem infos_modify_of_ne {i : KextInfoRef} (hi : i ≠ info) (k : Libkern) (f : KextInfo → KextInfo) :
    (k.modify info f).infos i = k.infos i :=
  Function.update_of_ne hi _ _

theorem infos_modify_self (k : Libkern) (info : KextInfoRef) (f : KextInfo → KextInfo) :
    (k.modify info f).infos info = f (k.infos info) :=
  Function.update_self _ _ _

/-- A `KextInfoLoad` that does not succeed lists nothing. -/
theorem kextInfoLoad_ne_success (h : k.kextInfoLoad io (some info) = (k', result)) (hne : result ≠ .success) :
    k'.loadedKexts = k.loadedKexts ∧ (∀ i ≠ info, k'.infos i = k.infos i) ∧
      ((k'.infos info).state = (k.infos info).state ∨
        (k.infos info).state ≠ .loaded ∧ (k'.infos info).state = .failed) := by
  have hload := load_kextInfoLoad k io info
  rw [h] at hload
  cases hload with
  | alreadyLoaded => exact ⟨rfl, fun _ _ => rfl, Or.inl rfl⟩
  | noIdentifier => exact ⟨rfl, fun _ _ => rfl, Or.inl rfl⟩
  | missingDependencies =>
    exact ⟨rfl, fun i hi => infos_modify_of_ne hi k _, Or.inl (by rw [infos_modify_self])⟩
  | failed hstate =>
    exact ⟨rfl, fun i hi => infos_modify_of_ne hi k _, Or.inr ⟨hstate, by rw [infos_modify_self]⟩⟩
  | loaded => exact absurd rfl hne

theorem kextInfoLoad_success (h : k.kextInfoLoad io (some info) = (k', .success)) :
    (k.infos info).state ≠ .loaded ∧ k.checkDependencies info ∧ k'.loadedKexts = k.loadedKexts ++ [info] ∧
      (∀ i ≠ info, k'.infos i = k.infos i) ∧ (k'.infos info).state = .loaded := by
  have hload := load_kextInfoLoad k io info
  rw [h] at hload
  cases hload with
  | loaded hstate _ hdeps =>
    refine ⟨hstate, hdeps, rfl, fun i hi => Function.update_of_ne hi _ _, ?_⟩
    simp [modify]

/-- A `KextInfoUnload` that does not succeed does nothing. -/
theorem kextInfoUnload_ne_success (h : k.kextInfoUnload io (some info) = (k', result)) (hne : result ≠ .success) :
    (k.infos info).state ≠ .loaded ∧ k' = k := by
  have hunload := unload_kextInfoUnload k io info
  rw [h] at hunload
  cases hunload with
  | notLoaded hstate => exact ⟨hstate, rfl⟩
  | unloaded => exact absurd rfl hne

theorem kextInfoUnload_success (h : k.kextInfoUnload io (some info) = (k', .success)) :
    (k.infos info).state = .loaded ∧ k'.loadedKexts = k.loadedKexts.erase info ∧
      (∀ i ≠ info, k'.infos i = k.infos i) ∧ (k'.infos info).state = .unloaded := by
  have hunload := unload_kextInfoUnload k io info
  rw [h] at hunload
  cases hunload with
  | unloaded hstate =>
    refine ⟨hstate, rfl, fun i hi => Function.update_of_ne hi _ _, ?_⟩
    simp [modify]

end

/-! ## What the calls keep -/

/-- The KextInfos are of the same bundles. -/
structure SameBundles (k k' : Libkern) : Prop where
  count : k'.count = k.count
  bundleIdentifier : ∀ i, (k'.infos i).bundleIdentifier = (k.infos i).bundleIdentifier
  executablePath : ∀ i, (k'.infos i).executablePath = (k.infos i).executablePath
  dependencyIDs : ∀ i, (k'.infos i).dependencyIDs = (k.infos i).dependencyIDs

theorem SameBundles.refl (k : Libkern) : SameBundles k k :=
  ⟨rfl, fun _ => rfl, fun _ => rfl, fun _ => rfl⟩

/-- An assignment to the state and the last result. -/
theorem sameBundles_update {k' : Libkern} {i : KextInfo} (hcount : k'.count = k.count)
    (hinfos : k'.infos = Function.update k.infos info i)
    (hi : i = { k.infos info with state := i.state, lastLoadResult := i.lastLoadResult }) : SameBundles k k' := by
  have h : ∀ {β : Type} (f : KextInfo → β), f i = f (k.infos info) →
      ∀ j, f (k'.infos j) = f (k.infos j) := by
    intro β f hf j
    rw [hinfos]
    by_cases hj : j = info
    · subst hj; simp [hf]
    · simp [hj]
  exact ⟨hcount, h _ (by rw [hi]), h _ (by rw [hi]), h _ (by rw [hi])⟩

theorem sameBundles_kextInfoLoad (k : Libkern) (io : Platform) (info : Option KextInfoRef) :
    SameBundles k (k.kextInfoLoad io info).1 := by
  cases info with
  | none => exact .refl k
  | some info =>
    have hload := load_kextInfoLoad k io info
    generalize k.kextInfoLoad io (some info) = out at hload ⊢
    cases hload with
    | alreadyLoaded => exact .refl k
    | noIdentifier => exact .refl k
    | missingDependencies => exact sameBundles_update rfl rfl rfl
    | failed => exact sameBundles_update rfl rfl rfl
    | loaded => exact sameBundles_update rfl rfl rfl

theorem sameBundles_kextInfoUnload (k : Libkern) (io : Platform) (info : Option KextInfoRef) :
    SameBundles k (k.kextInfoUnload io info).1 := by
  cases info with
  | none => exact .refl k
  | some info =>
    have hunload := unload_kextInfoUnload k io info
    generalize k.kextInfoUnload io (some info) = out at hunload ⊢
    cases hunload with
    | notLoaded => exact .refl k
    | unloaded => exact sameBundles_update rfl rfl rfl

end Libkern

end PocketDarwin.Kext
