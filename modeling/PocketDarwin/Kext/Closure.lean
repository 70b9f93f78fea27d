/-
  Dependencies of loaded kexts.

  `load` and `KextInfoLoad` check that the dependencies are loaded; `unload` and
  `KextInfoUnload` do not check that nothing depends on what they take away.

  * `Satisfied`: every dependency of what is listed is the identifier of something
    listed.
  * `satisfied_filter_iff`: taking one away keeps that exactly if it is not needed.
  * `always_dependencies_iff`: dependencies are satisfied throughout a run exactly if
    nothing that is still needed is unloaded.
-/
import PocketDarwin.Kext.Layers
import Mathlib.Data.List.Nodup

namespace PocketDarwin.Kext

/-! ## Lists with identifiers and dependencies -/

section
variable {ι : Type} (ident : ι → Option Text) (deps : ι → Option (List Text))

/-- The dependencies of `i` are identifiers of the list. -/
def SatisfiedBy (l : List ι) (i : ι) : Prop := ∀ ids ∈ deps i, ∀ dep ∈ ids, ∃ j ∈ l, ident j = some dep

/-- All dependencies of the list are identifiers of the list. -/
def Satisfied (l : List ι) : Prop := ∀ i ∈ l, SatisfiedBy ident deps l i

/-- What else is in the list does not depend on the identifier of `i`, or there is another one that has it. -/
def NotNeeded (l : List ι) (i : ι) : Prop :=
  ∀ j ∈ l, j ≠ i → ∀ ids ∈ deps j, ∀ dep ∈ ids, ident i = some dep → ∃ m ∈ l, m ≠ i ∧ ident m = some dep

variable {ident deps} {l : List ι} {i : ι}

theorem Satisfied.congr {ident' : ι → Option Text} {deps' : ι → Option (List Text)} (h : Satisfied ident deps l)
    (hident : ∀ i ∈ l, ident' i = ident i) (hdeps : ∀ i ∈ l, deps' i = deps i) : Satisfied ident' deps' l := by
  intro i hi ids hids dep hdep
  rw [hdeps i hi] at hids
  obtain ⟨j, hj, hname⟩ := h i hi ids hids dep hdep
  exact ⟨j, hj, (hident j hj).trans hname⟩

/-- What has its dependencies in the list may be added. -/
theorem Satisfied.append (h : Satisfied ident deps l) (hi : SatisfiedBy ident deps l i) :
    Satisfied ident deps (l ++ [i]) := by
  intro j hj ids hids dep hdep
  have hold : ∃ m ∈ l, ident m = some dep := by
    rcases List.mem_append.1 hj with hj | hj
    · exact h j hj ids hids dep hdep
    · rw [List.mem_singleton] at hj
      subst hj
      exact hi ids hids dep hdep
  obtain ⟨m, hm, hname⟩ := hold
  exact ⟨m, List.mem_append_left _ hm, hname⟩

/-- **Taking one away** keeps the dependencies satisfied exactly if it is not needed. -/
theorem satisfied_filter_iff [DecidableEq ι] (h : Satisfied ident deps l) :
    Satisfied ident deps (l.filter (· ≠ i)) ↔ NotNeeded ident deps l i := by
  constructor
  · intro h' j hj hne ids hids dep hdep _
    obtain ⟨m, hm, hname⟩ := h' j (List.mem_filter.2 ⟨hj, by simpa using hne⟩) ids hids dep hdep
    obtain ⟨hm, hmi⟩ := List.mem_filter.1 hm
    exact ⟨m, hm, by simpa using hmi, hname⟩
  · intro h' j hj ids hids dep hdep
    obtain ⟨hjl, hne⟩ := List.mem_filter.1 hj
    obtain ⟨m, hm, hname⟩ := h j hjl ids hids dep hdep
    by_cases hmi : m = i
    · rw [hmi] at hname
      obtain ⟨m', hm', hne', hname'⟩ := h' j hjl (by simpa using hne) ids hids dep hdep hname
      exact ⟨m', List.mem_filter.2 ⟨hm', by simpa using hne'⟩, hname'⟩
    · exact ⟨m, List.mem_filter.2 ⟨hm, by simpa using hmi⟩, hname⟩

end

namespace Framework

/-! ## The two lists -/

/-- The identifiers and the dependencies of the kexts. -/
def identOf (w : Framework) (kext : KextRef) : Option Text := (w.kexts kext).bundleIdentifier

def depsOf (w : Framework) (kext : KextRef) : Option (List Text) := (w.kexts kext).dependencies

end Framework

/-- The identifiers and the dependencies of the KextInfos. -/
def Libkern.identOf (k : Libkern) (info : KextInfoRef) : Option Text := (k.infos info).bundleIdentifier

def Libkern.depsOf (k : Libkern) (info : KextInfoRef) : Option (List Text) := (k.infos info).dependencyIDs

namespace Framework

/-- The dependencies of every loaded kext, and of every loaded KextInfo, are loaded. -/
structure Dependencies (w : Framework) : Prop where
  kexts : Satisfied w.identOf w.depsOf w.globalLoadedKexts
  infos : Satisfied w.libkern.identOf w.libkern.depsOf w.libkern.loadedKexts

/-- A call names kexts and KextInfos that there are. -/
def Call.Names (w : Framework) : Call → Prop
  | .create _ _ => True
  | .load kext _ => kext < w.count
  | .unload kext _ => kext < w.count
  | .kextInfoLoad info _ => info < w.libkern.count
  | .kextInfoUnload info _ => info < w.libkern.count

instance (w : Framework) : ∀ a : Call, Decidable (a.Names w)
  | .create _ _ => isTrue trivial
  | .load kext _ => inferInstanceAs (Decidable (kext < w.count))
  | .unload kext _ => inferInstanceAs (Decidable (kext < w.count))
  | .kextInfoLoad info _ => inferInstanceAs (Decidable (info < w.libkern.count))
  | .kextInfoUnload info _ => inferInstanceAs (Decidable (info < w.libkern.count))

/-- What is unloaded is not needed by what stays loaded.  An `unload` has an effect if the kext is
    loaded, has an identifier, and its KextInfo, if it has one, is loaded. -/
def Spares (w : Framework) : Call → Prop
  | .unload kext _ => (w.kexts kext).loaded = true → w.identOf kext ≠ none →
      (∀ info ∈ (w.kexts kext).kextInfo, (w.libkern.infos info).state = .loaded) →
      NotNeeded w.identOf w.depsOf w.globalLoadedKexts kext ∧
        ∀ info ∈ (w.kexts kext).kextInfo,
          NotNeeded w.libkern.identOf w.libkern.depsOf w.libkern.loadedKexts info
  | .kextInfoUnload info _ => (w.libkern.infos info).state = .loaded →
      NotNeeded w.libkern.identOf w.libkern.depsOf w.libkern.loadedKexts info
  | _ => True

/-- `_loadedKexts` holds loaded KextInfos, once each. -/
structure InfoLists (k : Libkern) : Prop where
  infos : ∀ info ∈ k.loadedKexts, info < k.count ∧ (k.infos info).state = .loaded
  nodup : k.loadedKexts.Nodup

/-- The lists hold what there is. -/
structure Lists (w : Framework) : Prop where
  global : ∀ kext ∈ w.globalLoadedKexts, kext < w.count
  own : ∀ kext < w.count, ∀ info ∈ (w.kexts kext).kextInfo, info < w.libkern.count
  infos : InfoLists w.libkern

variable {w w' : Framework} {io : Platform} {kext : KextRef} {info : KextInfoRef}

theorem satisfiedBy_of_dependenciesLoaded (h : w.dependenciesLoaded kext) :
    SatisfiedBy w.identOf w.depsOf w.globalLoadedKexts kext := by
  intro ids hids dep hdep
  have hids : (w.kexts kext).dependencies = some ids := hids
  rw [dependenciesLoaded, hids] at h
  obtain ⟨j, hj, heq⟩ := List.any_eq_true.1 (List.all_eq_true.1 h dep hdep)
  exact ⟨j, hj, (isEqualToString_iff.1 heq).1⟩

theorem satisfiedBy_of_checkDependencies {k : Libkern} (h : k.checkDependencies info) :
    SatisfiedBy k.identOf k.depsOf k.loadedKexts info := by
  intro ids hids dep hdep
  have hids : (k.infos info).dependencyIDs = some ids := hids
  rw [Libkern.checkDependencies, hids] at h
  obtain ⟨j, hj, heq⟩ := List.any_eq_true.1 (List.all_eq_true.1 h dep hdep)
  exact ⟨j, hj, (isEqualToString_iff.1 heq).1⟩

/-! ## One call -/

section
variable {k k' : Libkern}

theorem identOf_eq_of_sameBundles (h : k.SameBundles k') : k'.identOf = k.identOf := funext h.bundleIdentifier

theorem depsOf_eq_of_sameBundles (h : k.SameBundles k') : k'.depsOf = k.depsOf := funext h.dependencyIDs

theorem satisfied_kextInfoLoad (h : Satisfied k.identOf k.depsOf k.loadedKexts) (io : Platform) (info : KextInfoRef) :
    Satisfied (k.kextInfoLoad io (some info)).1.identOf (k.kextInfoLoad io (some info)).1.depsOf
      (k.kextInfoLoad io (some info)).1.loadedKexts := by
  have hsame := k.sameBundles_kextInfoLoad io (some info)
  rw [identOf_eq_of_sameBundles hsame, depsOf_eq_of_sameBundles hsame]
  cases hresult : k.kextInfoLoad io (some info) with
  | mk k' result =>
    by_cases hsuccess : result = .success
    · subst hsuccess
      obtain ⟨-, hdeps, hlist, -⟩ := Libkern.kextInfoLoad_success hresult
      rw [hlist]
      exact h.append (satisfiedBy_of_checkDependencies hdeps)
    · rw [(Libkern.kextInfoLoad_ne_success hresult hsuccess).1]
      exact h

theorem satisfied_kextInfoUnload_iff (h : Satisfied k.identOf k.depsOf k.loadedKexts) (hnodup : k.loadedKexts.Nodup)
    (io : Platform) (info : KextInfoRef) :
    Satisfied (k.kextInfoUnload io (some info)).1.identOf (k.kextInfoUnload io (some info)).1.depsOf
        (k.kextInfoUnload io (some info)).1.loadedKexts ↔
      ((k.infos info).state = .loaded → NotNeeded k.identOf k.depsOf k.loadedKexts info) := by
  have hsame := k.sameBundles_kextInfoUnload io (some info)
  rw [identOf_eq_of_sameBundles hsame, depsOf_eq_of_sameBundles hsame]
  cases hresult : k.kextInfoUnload io (some info) with
  | mk k' result =>
    by_cases hsuccess : result = .success
    · subst hsuccess
      obtain ⟨hstate, hlist, -⟩ := Libkern.kextInfoUnload_success hresult
      have herase : k.loadedKexts.erase info = k.loadedKexts.filter (· ≠ info) := by
        rw [hnodup.erase_eq_filter]
        exact List.filter_congr fun x _ => Bool.eq_iff_iff.2 (by simp)
      rw [hlist, herase, satisfied_filter_iff h]
      exact ⟨fun h' _ => h', fun h' => h' hstate⟩
    · obtain ⟨hstate, heq⟩ := Libkern.kextInfoUnload_ne_success hresult hsuccess
      rw [heq]
      exact ⟨fun _ hs => absurd hs hstate, fun _ => h⟩

end

theorem identOf_markLoaded (w : Framework) (kext : KextRef) (libkern : Libkern) :
    (w.markLoaded kext libkern).identOf = w.identOf ∧ (w.markLoaded kext libkern).depsOf = w.depsOf := by
  constructor
  · ext1 j
    by_cases hj : j = kext
    · subst hj; simp [identOf, markLoaded]
    · simp [identOf, markLoaded, hj]
  · ext1 j
    by_cases hj : j = kext
    · subst hj; simp [depsOf, markLoaded]
    · simp [depsOf, markLoaded, hj]

theorem identOf_markUnloaded (w : Framework) (kext : KextRef) (libkern : Libkern) :
    (w.markUnloaded kext libkern).identOf = w.identOf ∧ (w.markUnloaded kext libkern).depsOf = w.depsOf := by
  constructor
  · ext1 j
    by_cases hj : j = kext
    · subst hj; simp [identOf, markUnloaded]
    · simp [identOf, markUnloaded, hj]
  · ext1 j
    by_cases hj : j = kext
    · subst hj; simp [depsOf, markUnloaded]
    · simp [depsOf, markUnloaded, hj]

/-- **`load` keeps the dependencies satisfied.** -/
theorem dependencies_load (h : w.Dependencies) (io : Platform) (kext : KextRef) : (w.load io kext).1.Dependencies := by
  have hload := load_load w io kext
  generalize w.load io kext = out at hload ⊢
  have hmark : ∀ libkern, w.dependenciesLoaded kext → Satisfied (w.markLoaded kext libkern).identOf
      (w.markLoaded kext libkern).depsOf (w.markLoaded kext libkern).globalLoadedKexts := by
    intro libkern hdeps
    rw [(identOf_markLoaded w kext libkern).1, (identOf_markLoaded w kext libkern).2]
    exact h.kexts.append (satisfiedBy_of_dependenciesLoaded hdeps)
  cases hload with
  | alreadyLoaded => exact h
  | noIdentifier => exact h
  | dependency => exact h
  | @refused info libkern result _ _ hresult _ =>
    have hinfos := satisfied_kextInfoLoad h.infos io info
    rw [hresult] at hinfos
    exact ⟨h.kexts, hinfos⟩
  | alone _ hdeps _ => exact ⟨hmark _ hdeps, h.infos⟩
  | @loaded info libkern _ hdeps _ hresult =>
    have hinfos := satisfied_kextInfoLoad h.infos io info
    rw [hresult] at hinfos
    exact ⟨hmark _ hdeps, hinfos⟩

/-- **`unload`** keeps the dependencies satisfied exactly if what it takes away is not needed. -/
theorem dependencies_unload_iff (h : w.Dependencies) (hw : w.Lists) (io : Platform) (kext : KextRef) :
    (w.unload io kext).1.Dependencies ↔ w.Spares (.unload kext io) := by
  have hunload := unload_unload w io kext
  generalize w.unload io kext = out at hunload ⊢
  have hmark : ∀ libkern, Satisfied (w.markUnloaded kext libkern).identOf
      (w.markUnloaded kext libkern).depsOf
      (w.markUnloaded kext libkern).globalLoadedKexts ↔
        NotNeeded w.identOf w.depsOf w.globalLoadedKexts kext := by
    intro libkern
    rw [(identOf_markUnloaded w kext libkern).1, (identOf_markUnloaded w kext libkern).2]
    exact satisfied_filter_iff h.kexts
  cases hunload with
  | notLoaded hloaded => exact ⟨fun _ hl => absurd (hloaded.symm.trans hl) (by simp), fun _ => h⟩
  | noIdentifier _ hid => exact ⟨fun _ _ hne => absurd hid hne, fun _ => h⟩
  | @refused info libkern result hloaded hinfo hresult hne =>
    obtain ⟨hstate, rfl⟩ := Libkern.kextInfoUnload_ne_success hresult hne
    refine ⟨fun _ _ _ hall => absurd (hall info hinfo) hstate, fun _ => ⟨?_, h.infos⟩⟩
    refine h.kexts.congr (fun j _ => ?_) (fun j _ => ?_)
    · by_cases hj : j = kext
      · subst hj; simp [identOf, stopDrivers, modify]
      · simp [identOf, stopDrivers, modify, hj]
    · by_cases hj : j = kext
      · subst hj; simp [depsOf, stopDrivers, modify]
      · simp [depsOf, stopDrivers, modify, hj]
  | alone hloaded hid hnone =>
    constructor
    · rintro h' - - -
      exact ⟨(hmark _).1 h'.kexts, by simp [hnone]⟩
    · intro hspares
      exact ⟨(hmark _).2 (hspares hloaded hid (by simp [hnone])).1, h.infos⟩
  | @unloaded info libkern hloaded hid hinfo hresult =>
    have hinfos := satisfied_kextInfoUnload_iff h.infos hw.infos.nodup io info
    rw [hresult] at hinfos
    obtain ⟨hstate, -⟩ := Libkern.kextInfoUnload_success hresult
    constructor
    · rintro h' - - -
      refine ⟨(hmark _).1 h'.kexts, fun info' hinfo' => ?_⟩
      obtain rfl := Option.some.inj (hinfo.symm.trans hinfo')
      exact hinfos.1 h'.infos hstate
    · intro hspares
      have hall : ∀ info' ∈ (w.kexts kext).kextInfo, (w.libkern.infos info').state = .loaded := by
        intro info' hinfo'
        obtain rfl := Option.some.inj (hinfo.symm.trans hinfo')
        exact hstate
      obtain ⟨hkexts, hneeded⟩ := hspares hloaded hid hall
      exact ⟨(hmark _).2 hkexts, hinfos.2 fun _ => hneeded info hinfo⟩

theorem dependencies_create (h : w.Dependencies) (hw : w.Lists) (plist again : Option InfoPlist) :
    (w.initWithPath plist again).Dependencies := by
  obtain ⟨-, -, hlist, hinfos⟩ := initWithPath_libkern w plist again
  constructor
  · refine h.kexts.congr (fun j hj => ?_) (fun j hj => ?_)
    · rw [identOf, kexts_initWithPath (hw.global j hj)]; rfl
    · rw [depsOf, kexts_initWithPath (hw.global j hj)]; rfl
  · rw [hlist]
    refine h.infos.congr (fun i hi => ?_) (fun i hi => ?_)
    · rw [Libkern.identOf, hinfos i (hw.infos.infos i hi).1]; rfl
    · rw [Libkern.depsOf, hinfos i (hw.infos.infos i hi).1]; rfl

/-- **One call** keeps the dependencies satisfied exactly if it spares what is needed. -/
theorem dependencies_step_iff (a : Call) (h : w.Dependencies) (hw : w.Lists) :
    (w.step a).Dependencies ↔ w.Spares a := by
  cases a with
  | create plist again => exact ⟨fun _ => trivial, fun _ => dependencies_create h hw plist again⟩
  | load kext io => exact ⟨fun _ => trivial, fun _ => dependencies_load h io kext⟩
  | unload kext io => exact dependencies_unload_iff h hw io kext
  | kextInfoLoad info io =>
    exact ⟨fun _ => trivial, fun _ => ⟨h.kexts, satisfied_kextInfoLoad h.infos io info⟩⟩
  | kextInfoUnload info io =>
    refine Iff.trans ?_ (satisfied_kextInfoUnload_iff h.infos hw.infos.nodup io info)
    exact ⟨Dependencies.infos, fun hinfos => ⟨h.kexts, hinfos⟩⟩

/-! ## What the lists hold -/

section
variable {k : Libkern}

theorem InfoLists.load (h : InfoLists k) (hinfo : info < k.count) (io : Platform) :
    InfoLists (k.kextInfoLoad io (some info)).1 := by
  have hsame := k.sameBundles_kextInfoLoad io (some info)
  cases hresult : k.kextInfoLoad io (some info) with
  | mk k' result =>
    rw [hresult] at hsame
    by_cases hsuccess : result = .success
    · subst hsuccess
      obtain ⟨hstate, -, hlist, hothers, hself⟩ := Libkern.kextInfoLoad_success hresult
      have hnew : info ∉ k.loadedKexts := fun hmem => hstate (h.infos info hmem).2
      constructor
      · intro i hi
        rw [hsame.count]
        rw [hlist, List.mem_append, List.mem_singleton] at hi
        rcases hi with hi | rfl
        · rw [hothers i (ne_of_mem_of_not_mem hi hnew)]
          exact h.infos i hi
        · exact ⟨hinfo, hself⟩
      · rw [hlist, List.nodup_append]
        refine ⟨h.nodup, List.nodup_singleton info, ?_⟩
        rintro i hi j hj rfl
        exact hnew (List.mem_singleton.1 hj ▸ hi)
    · obtain ⟨hlist, hothers, hself⟩ := Libkern.kextInfoLoad_ne_success hresult hsuccess
      constructor
      · intro i hi
        rw [hsame.count]
        rw [hlist] at hi
        refine ⟨(h.infos i hi).1, ?_⟩
        by_cases hne : i = info
        · subst hne
          rcases hself with hs | ⟨hs, -⟩
          · exact hs.trans (h.infos i hi).2
          · exact absurd (h.infos i hi).2 hs
        · rw [hothers i hne]
          exact (h.infos i hi).2
      · rw [hlist]
        exact h.nodup

theorem InfoLists.unload (h : InfoLists k) (io : Platform) (info : KextInfoRef) :
    InfoLists (k.kextInfoUnload io (some info)).1 := by
  have hsame := k.sameBundles_kextInfoUnload io (some info)
  cases hresult : k.kextInfoUnload io (some info) with
  | mk k' result =>
    rw [hresult] at hsame
    by_cases hsuccess : result = .success
    · subst hsuccess
      obtain ⟨-, hlist, hothers, -⟩ := Libkern.kextInfoUnload_success hresult
      constructor
      · intro i hi
        rw [hsame.count]
        rw [hlist, h.nodup.mem_erase_iff] at hi
        rw [hothers i hi.1]
        exact h.infos i hi.2
      · rw [hlist]
        exact h.nodup.erase info
    · obtain ⟨-, heq⟩ := Libkern.kextInfoUnload_ne_success hresult hsuccess
      rw [heq]
      exact h

end

theorem Lists.withLibkern (h : w.Lists) {libkern : Libkern} (hsame : w.libkern.SameBundles libkern)
    (hinfos : InfoLists libkern) : ({ w with libkern := libkern } : Framework).Lists where
  global := h.global
  own kext hkext info hinfo := hsame.count ▸ h.own kext hkext info hinfo
  infos := hinfos

theorem lists_load (h : w.Lists) (hkext : kext < w.count) (io : Platform) : (w.load io kext).1.Lists := by
  have hload := load_load w io kext
  generalize w.load io kext = out at hload ⊢
  have hmark : ∀ libkern, w.libkern.SameBundles libkern → InfoLists libkern →
      (w.markLoaded kext libkern).Lists := by
    intro libkern hsame hinfos
    refine ⟨fun j hj => ?_, fun j hj info hinfo => ?_, hinfos⟩
    · rcases List.mem_append.1 hj with hj | hj
      · exact h.global j hj
      · exact List.mem_singleton.1 hj ▸ hkext
    · rw [kextInfo_markLoaded] at hinfo
      exact hsame.count ▸ h.own j hj info hinfo
  cases hload with
  | alreadyLoaded => exact h
  | noIdentifier => exact h
  | dependency => exact h
  | @refused info libkern result _ hinfo hresult _ =>
    have hlibkern : libkern = (w.libkern.kextInfoLoad io (some info)).1 := by rw [hresult]
    rw [hlibkern]
    exact h.withLibkern (w.libkern.sameBundles_kextInfoLoad io _)
      (h.infos.load (h.own kext hkext info hinfo) io)
  | alone => exact hmark _ (.refl _) h.infos
  | @loaded info libkern _ _ hinfo hresult =>
    have hlibkern : libkern = (w.libkern.kextInfoLoad io (some info)).1 := by rw [hresult]
    rw [hlibkern]
    exact hmark _ (w.libkern.sameBundles_kextInfoLoad io _)
      (h.infos.load (h.own kext hkext info hinfo) io)

theorem lists_unload (h : w.Lists) (io : Platform) (kext : KextRef) : (w.unload io kext).1.Lists := by
  have hunload := unload_unload w io kext
  generalize w.unload io kext = out at hunload ⊢
  have hmark : ∀ libkern, w.libkern.SameBundles libkern → InfoLists libkern →
      (w.markUnloaded kext libkern).Lists := by
    intro libkern hsame hinfos
    refine ⟨fun j hj => h.global j (List.mem_of_mem_filter hj), fun j hj info hinfo => ?_, hinfos⟩
    rw [kextInfo_markUnloaded] at hinfo
    exact hsame.count ▸ h.own j hj info hinfo
  cases hunload with
  | notLoaded => exact h
  | noIdentifier => exact h
  | @refused info libkern result _ _ hresult hne =>
    obtain ⟨-, rfl⟩ := Libkern.kextInfoUnload_ne_success hresult hne
    refine ⟨h.global, fun j hj info' hinfo' => h.own j hj info' ?_, h.infos⟩
    by_cases hj : j = kext
    · subst hj; simpa [stopDrivers, modify] using hinfo'
    · simpa [stopDrivers, modify, hj] using hinfo'
  | alone => exact hmark _ (.refl _) h.infos
  | @unloaded info libkern _ _ _ hresult =>
    have hlibkern : libkern = (w.libkern.kextInfoUnload io (some info)).1 := by rw [hresult]
    rw [hlibkern]
    exact hmark _ (w.libkern.sameBundles_kextInfoUnload io _) (h.infos.unload io info)

theorem lists_create (h : w.Lists) (plist again : Option InfoPlist) : (w.initWithPath plist again).Lists := by
  obtain ⟨hnew, hle, hlist, hinfos⟩ := initWithPath_libkern w plist again
  refine ⟨fun j hj => Nat.lt_succ_of_lt (h.global j hj), fun j hj info hinfo => ?_,
    fun i hi => ?_, hlist ▸ h.infos.nodup⟩
  · rcases Nat.lt_succ_iff_lt_or_eq.1 hj with hlt | rfl
    · rw [kexts_initWithPath hlt] at hinfo
      exact (h.own j hlt info hinfo).trans_le hle
    · exact hnew info hinfo
  · rw [hlist] at hi
    obtain ⟨hlt, hstate⟩ := h.infos.infos i hi
    exact ⟨hlt.trans_le hle, by rw [hinfos i hlt]; exact hstate⟩

theorem lists_step (a : Call) (h : w.Lists) (ha : a.Names w) : (w.step a).Lists := by
  cases a with
  | create plist again => exact lists_create h plist again
  | load kext io => exact lists_load h ha io
  | unload kext io => exact lists_unload h io kext
  | kextInfoLoad info io =>
    change ({ w with libkern := (w.libkern.kextInfoLoad io (some info)).1 } : Framework).Lists
    exact h.withLibkern (w.libkern.sameBundles_kextInfoLoad io (some info)) (h.infos.load ha io)
  | kextInfoUnload info io =>
    change ({ w with libkern := (w.libkern.kextInfoUnload io (some info)).1 } : Framework).Lists
    exact h.withLibkern (w.libkern.sameBundles_kextInfoUnload io (some info)) (h.infos.unload io info)

/-! ## Runs -/

theorem lists_initial : initial.Lists where
  global := fun _ h => absurd h List.not_mem_nil
  own := fun _ h => absurd h (Nat.not_lt_zero _)
  infos := ⟨fun _ h => absurd h List.not_mem_nil, List.nodup_nil⟩

theorem dependencies_initial : initial.Dependencies :=
  ⟨fun _ h => absurd h List.not_mem_nil, fun _ h => absurd h List.not_mem_nil⟩

/-- **Dependencies are satisfied throughout a run exactly if nothing that is still needed is
    unloaded.** -/
theorem always_dependencies_iff (log : List Call) (hlog : Meets step (fun w a => a.Names w) initial log) :
    Always step Dependencies initial log ↔ Meets step Spares initial log :=
  always_iff_meets (I := Lists) (A := fun w a => a.Names w) (fun _ a hw ha => lists_step a hw ha)
    (fun _ a hw _ h => dependencies_step_iff a h hw) lists_initial dependencies_initial hlog

/-- A kext, and one that depends on it. -/
def twoKexts : List Call :=
  let library : Option InfoPlist := some ⟨some ['a'], none, none, none⟩
  let client : Option InfoPlist := some ⟨some ['b'], none, some [['a']], none⟩
  [.create library library, .create client client, .load 0 ⟨false, false⟩, .load 1 ⟨false, false⟩]

/-- Both are loaded. -/
theorem always_dependencies_twoKexts : Always step Dependencies initial twoKexts :=
  (always_dependencies_iff twoKexts (by decide)).2 ⟨trivial, trivial, trivial, trivial, trivial⟩

/-- The first is unloaded, and the second stays loaded. -/
theorem not_always_dependencies : ¬ ∀ log, Meets step (fun w a => a.Names w) initial log →
    Always step Dependencies initial log := by
  intro h
  have hdeps := (h (twoKexts ++ [.unload 0 ⟨false, false⟩]) (by decide)).last
  obtain ⟨j, hj, hname⟩ := hdeps.kexts 1 (by decide) [['a']] (by decide) ['a'] (by decide)
  obtain rfl : j = 1 := List.mem_singleton.1 hj
  exact absurd hname (by decide)

end Framework

end PocketDarwin.Kext
