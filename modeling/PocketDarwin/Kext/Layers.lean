/-
  The two layers of the framework agree on which kexts are loaded.

  Whether a kext is loaded is written down four times: in its `_loaded` flag, in the list
  `_globalLoadedKexts`, in the state of its KextInfo and in the list `_loadedKexts`.

  * `InStep`: the four say the same.
  * `meets_inStep`: they do after every call of `load` and `unload`, whatever the
    platform answers, and a call that returns NO changes neither list.
-/
import PocketDarwin.Runs
import PocketDarwin.Kext.GNUKext

namespace PocketDarwin.Kext

namespace Framework

/-! ## Calls -/

/-- A call, with the answers of the platform. -/
inductive Call where
  /-- `initWithPath:`, with what the two reads of the `Info.plist` find -/
  | create (plist again : Option InfoPlist)
  | load (kext : KextRef) (io : Platform)
  | unload (kext : KextRef) (io : Platform)
  | kextInfoLoad (info : KextInfoRef) (io : Platform)
  | kextInfoUnload (info : KextInfoRef) (io : Platform)

/-- What a call does, and whether it was successful. -/
def call (w : Framework) : Call → Framework × Bool
  | .create plist again => (w.initWithPath plist again, true)
  | .load kext io => w.load io kext
  | .unload kext io => w.unload io kext
  | .kextInfoLoad info io =>
    let (libkern, result) := w.libkern.kextInfoLoad io (some info)
    ({ w with libkern := libkern }, result = .success)
  | .kextInfoUnload info io =>
    let (libkern, result) := w.libkern.kextInfoUnload io (some info)
    ({ w with libkern := libkern }, result = .success)

/-- The state after a call. -/
def step (w : Framework) (a : Call) : Framework := (w.call a).1

/-- No kexts, and a registry with its root only. -/
def initial : Framework where
  libkern := ⟨0, fun _ => ⟨none, none, none, .unloaded, .success⟩, [], []⟩
  count := 0
  kexts := fun _ => ⟨none, none, none, [], false, none⟩
  globalLoadedKexts := []
  registeredDriverClasses := []
  registry := Registry.initial

/-- The call is `load` or `unload` of a kext that there is, or makes a kext that has an identifier and a
    KextInfo. -/
def Call.OfKext (w : Framework) : Call → Prop
  | .create plist again => plist.bind InfoPlist.bundleIdentifier ≠ none ∧ again.isSome
  | .load kext _ => kext < w.count
  | .unload kext _ => kext < w.count
  | _ => False

instance (w : Framework) : ∀ a : Call, Decidable (a.OfKext w)
  | .create plist again => inferInstanceAs (Decidable (plist.bind InfoPlist.bundleIdentifier ≠ none ∧ again.isSome))
  | .load kext _ => inferInstanceAs (Decidable (kext < w.count))
  | .unload kext _ => inferInstanceAs (Decidable (kext < w.count))
  | .kextInfoLoad _ _ => isFalse id
  | .kextInfoUnload _ _ => isFalse id

/-! ## The four records -/

/-- The four records of a kext and its KextInfo say the same. -/
structure InStep (w : Framework) (kext : KextRef) (info : KextInfoRef) : Prop where
  listed : kext ∈ w.globalLoadedKexts ↔ (w.kexts kext).loaded = true
  state : (w.kexts kext).loaded = true ↔ (w.libkern.infos info).state = .loaded
  infoListed : (w.libkern.infos info).state = .loaded ↔ info ∈ w.libkern.loadedKexts
  /-- The lists hold it at most once. -/
  once : w.globalLoadedKexts.count kext ≤ 1
  infoOnce : w.libkern.loadedKexts.count info ≤ 1
  /-- The KextInfo is not left on the way. -/
  resting : (w.libkern.infos info).state ≠ .loading ∧ (w.libkern.infos info).state ≠ .unloading

/-- The layers agree on every kext. -/
structure Layers (w : Framework) : Prop where
  inStep : ∀ kext < w.count, ∃ info, (w.kexts kext).kextInfo = some info ∧ w.InStep kext info
  /-- Every kext has a KextInfo of its own. -/
  own : ∀ kext < w.count, ∀ info ∈ (w.kexts kext).kextInfo, info < w.libkern.count
  inj : ∀ j < w.count, ∀ kext < w.count, (w.kexts j).kextInfo = (w.kexts kext).kextInfo → j = kext
  /-- The lists hold nothing that has not been made. -/
  listed : ∀ kext ∈ w.globalLoadedKexts, kext < w.count
  infoListed : ∀ info ∈ w.libkern.loadedKexts, info < w.libkern.count

variable {w w' : Framework} {io : Platform} {kext j : KextRef} {info i : KextInfoRef}

/-- Only these four are looked at. -/
theorem InStep.congr (h : w.InStep j i) (hloaded : (w'.kexts j).loaded = (w.kexts j).loaded)
    (hstate : (w'.libkern.infos i).state = (w.libkern.infos i).state)
    (hcount : w'.globalLoadedKexts.count j = w.globalLoadedKexts.count j)
    (hinfoCount : w'.libkern.loadedKexts.count i = w.libkern.loadedKexts.count i) : w'.InStep j i := by
  have hmem : j ∈ w'.globalLoadedKexts ↔ j ∈ w.globalLoadedKexts := by
    rw [← List.count_pos_iff, hcount, List.count_pos_iff]
  have hinfoMem : i ∈ w'.libkern.loadedKexts ↔ i ∈ w.libkern.loadedKexts := by
    rw [← List.count_pos_iff, hinfoCount, List.count_pos_iff]
  constructor
  · rw [hmem, hloaded]; exact h.listed
  · rw [hloaded, hstate]; exact h.state
  · rw [hstate, hinfoMem]; exact h.infoListed
  · rw [hcount]; exact h.once
  · rw [hinfoCount]; exact h.infoOnce
  · rw [hstate]; exact h.resting

theorem InStep.of_not_loaded (hlisted : kext ∉ w.globalLoadedKexts) (hloaded : (w.kexts kext).loaded = false)
    (hstate : (w.libkern.infos info).state ≠ .loaded) (hinfoListed : info ∉ w.libkern.loadedKexts)
    (hresting : (w.libkern.infos info).state ≠ .loading ∧ (w.libkern.infos info).state ≠ .unloading) :
    w.InStep kext info where
  listed := by simp [hlisted, hloaded]
  state := by simp [hloaded, hstate]
  infoListed := by simp [hstate, hinfoListed]
  once := by simp [List.count_eq_zero_of_not_mem hlisted]
  infoOnce := by simp [List.count_eq_zero_of_not_mem hinfoListed]
  resting := hresting

theorem InStep.of_loaded (hlisted : w.globalLoadedKexts.count kext = 1) (hloaded : (w.kexts kext).loaded = true)
    (hstate : (w.libkern.infos info).state = .loaded) (hinfoListed : w.libkern.loadedKexts.count info = 1) :
    w.InStep kext info where
  listed := by simp [← List.count_pos_iff, hlisted, hloaded]
  state := by simp [hloaded, hstate]
  infoListed := by simp [← List.count_pos_iff, hstate, hinfoListed]
  once := hlisted.le
  infoOnce := hinfoListed.le
  resting := by simp [hstate]

/-- The records of a kext that is not loaded. -/
theorem InStep.not_loaded (h : w.InStep kext info) (hloaded : (w.kexts kext).loaded = false) :
    kext ∉ w.globalLoadedKexts ∧ (w.libkern.infos info).state ≠ .loaded ∧ info ∉ w.libkern.loadedKexts := by
  have hstate : (w.libkern.infos info).state ≠ .loaded := by
    intro hs
    rw [h.state.2 hs] at hloaded
    exact Bool.noConfusion hloaded
  refine ⟨?_, hstate, fun hmem => hstate (h.infoListed.2 hmem)⟩
  rw [h.listed, hloaded]
  exact Bool.false_ne_true

/-- A call changes the records of one kext and its KextInfo, and leaves these in step. -/
theorem Layers.change (h : w.Layers) (hkext : kext < w.count) (hinfo : (w.kexts kext).kextInfo = some info)
    (hcount : w'.count = w.count) (hlibkern : w'.libkern.count = w.libkern.count)
    (hinfos : ∀ j, (w'.kexts j).kextInfo = (w.kexts j).kextInfo)
    (hloaded : ∀ j ≠ kext, (w'.kexts j).loaded = (w.kexts j).loaded)
    (hstate : ∀ i ≠ info, (w'.libkern.infos i).state = (w.libkern.infos i).state)
    (hlisted : ∀ j ≠ kext, w'.globalLoadedKexts.count j = w.globalLoadedKexts.count j)
    (hinfoListed : ∀ i ≠ info, w'.libkern.loadedKexts.count i = w.libkern.loadedKexts.count i)
    (hself : w'.InStep kext info) : w'.Layers where
  inStep j hj := by
    rw [hcount] at hj
    rw [hinfos]
    by_cases hjk : j = kext
    · subst hjk
      exact ⟨info, hinfo, hself⟩
    · obtain ⟨i, hi, hstep⟩ := h.inStep j hj
      have hne : i ≠ info := fun heq => hjk (h.inj j hj kext hkext (by rw [hi, hinfo, heq]))
      exact ⟨i, hi, hstep.congr (hloaded j hjk) (hstate i hne) (hlisted j hjk) (hinfoListed i hne)⟩
  own := by
    simp only [hcount, hlibkern, hinfos]
    exact h.own
  inj := by
    simp only [hcount, hinfos]
    exact h.inj
  listed j hj := by
    rw [hcount]
    by_cases hjk : j = kext
    · exact hjk ▸ hkext
    · rw [← List.count_pos_iff, hlisted j hjk, List.count_pos_iff] at hj
      exact h.listed j hj
  infoListed i hi := by
    rw [hlibkern]
    by_cases hne : i = info
    · exact hne ▸ h.own kext hkext info hinfo
    · rw [← List.count_pos_iff, hinfoListed i hne, List.count_pos_iff] at hi
      exact h.infoListed i hi

theorem count_append_singleton_of_ne {l : List ℕ} {a b : ℕ} (h : a ≠ b) : (l ++ [b]).count a = l.count a := by
  rw [List.count_append, List.count_singleton]
  simp [Ne.symm h]

theorem kextInfo_markLoaded (w : Framework) (kext : KextRef) (libkern : Libkern) (j : KextRef) :
    ((w.markLoaded kext libkern).kexts j).kextInfo = (w.kexts j).kextInfo := by
  by_cases hj : j = kext
  · subst hj; simp [markLoaded]
  · simp [markLoaded, hj]

theorem kextInfo_markUnloaded (w : Framework) (kext : KextRef) (libkern : Libkern) (j : KextRef) :
    ((w.markUnloaded kext libkern).kexts j).kextInfo = (w.kexts j).kextInfo := by
  by_cases hj : j = kext
  · subst hj; simp [markUnloaded]
  · simp [markUnloaded, hj]

/-! ## One call -/

theorem layers_load (h : w.Layers) (hkext : kext < w.count) (io : Platform) :
    (w.load io kext).1.Layers ∧ ((w.load io kext).2 = false →
      (w.load io kext).1.globalLoadedKexts = w.globalLoadedKexts ∧
        (w.load io kext).1.libkern.loadedKexts = w.libkern.loadedKexts) := by
  have hload := load_load w io kext
  generalize w.load io kext = out at hload ⊢
  obtain ⟨info, hinfo, hstep⟩ := h.inStep kext hkext
  cases hload with
  | alreadyLoaded => exact ⟨h, by simp⟩
  | noIdentifier => exact ⟨h, fun _ => ⟨rfl, rfl⟩⟩
  | dependency => exact ⟨h, fun _ => ⟨rfl, rfl⟩⟩
  | alone _ _ hnone => exact absurd (hinfo.symm.trans hnone) (by simp)
  | @refused info' libkern result hloaded hinfo' hresult hne =>
    obtain rfl := Option.some.inj (hinfo.symm.trans hinfo')
    obtain ⟨hlist, hothers, hself⟩ := Libkern.kextInfoLoad_ne_success hresult hne
    have hsame := Libkern.sameBundles_kextInfoLoad w.libkern io (some info)
    rw [hresult] at hsame
    refine ⟨h.change hkext hinfo rfl hsame.count (fun _ => rfl) (fun _ _ => rfl)
      (fun i hi => by rw [hothers i hi]) (fun _ _ => rfl) (fun i _ => by rw [hlist]) ?_,
      fun _ => ⟨rfl, hlist⟩⟩
    obtain ⟨hnl, hns, hni⟩ := hstep.not_loaded hloaded
    have hstate : (libkern.infos info).state ≠ .loaded ∧ (libkern.infos info).state ≠ .loading ∧
        (libkern.infos info).state ≠ .unloading := by
      rcases hself with hs | ⟨-, hs⟩
      · rw [hs]
        exact ⟨hns, hstep.resting⟩
      · simp [hs]
    exact .of_not_loaded hnl hloaded hstate.1 (hlist ▸ hni) hstate.2
  | @loaded info' libkern hloaded hdeps hinfo' hresult =>
    obtain rfl := Option.some.inj (hinfo.symm.trans hinfo')
    obtain ⟨hnot, -, hlist, hothers, hself⟩ := Libkern.kextInfoLoad_success hresult
    have hsame := Libkern.sameBundles_kextInfoLoad w.libkern io (some info)
    rw [hresult] at hsame
    obtain ⟨hnl, -, hni⟩ := hstep.not_loaded hloaded
    refine ⟨h.change hkext hinfo rfl hsame.count ?_ ?_
      (fun i hi => congrArg KextInfo.state (hothers i hi)) ?_ ?_ ?_, by simp⟩
    · exact kextInfo_markLoaded w kext libkern
    · exact fun j hj => by simp [markLoaded, hj]
    · exact fun j hj => count_append_singleton_of_ne hj
    · intro i hi
      change libkern.loadedKexts.count i = _
      rw [hlist]
      exact count_append_singleton_of_ne hi
    · refine .of_loaded ?_ (by simp [markLoaded]) hself ?_
      · simp [markLoaded, List.count_append, List.count_eq_zero_of_not_mem hnl]
      · simp [markLoaded, hlist, List.count_append, List.count_eq_zero_of_not_mem hni]

theorem layers_unload (h : w.Layers) (hkext : kext < w.count) (io : Platform) :
    (w.unload io kext).1.Layers ∧ ((w.unload io kext).2 = false →
      (w.unload io kext).1.globalLoadedKexts = w.globalLoadedKexts ∧
        (w.unload io kext).1.libkern.loadedKexts = w.libkern.loadedKexts) := by
  have hunload := unload_unload w io kext
  generalize w.unload io kext = out at hunload ⊢
  obtain ⟨info, hinfo, hstep⟩ := h.inStep kext hkext
  cases hunload with
  | notLoaded => exact ⟨h, by simp⟩
  | noIdentifier => exact ⟨h, fun _ => ⟨rfl, rfl⟩⟩
  | alone _ _ hnone => exact absurd (hinfo.symm.trans hnone) (by simp)
  | @refused info' libkern result hloaded hinfo' hresult hne =>
    obtain rfl := Option.some.inj (hinfo.symm.trans hinfo')
    -- the KextInfo of a loaded kext is loaded, and does not refuse
    exact absurd (hstep.state.1 hloaded) (Libkern.kextInfoUnload_ne_success hresult hne).1
  | @unloaded info' libkern hloaded hid hinfo' hresult =>
    obtain rfl := Option.some.inj (hinfo.symm.trans hinfo')
    obtain ⟨hstate, hlist, hothers, hself⟩ := Libkern.kextInfoUnload_success hresult
    have hsame := Libkern.sameBundles_kextInfoUnload w.libkern io (some info)
    rw [hresult] at hsame
    refine ⟨h.change hkext hinfo rfl hsame.count ?_ ?_
      (fun i hi => congrArg KextInfo.state (hothers i hi)) ?_ ?_ ?_, by simp⟩
    · exact kextInfo_markUnloaded w kext libkern
    · exact fun j hj => by simp [markUnloaded, hj]
    · exact fun j hj => List.count_filter (by simpa using hj)
    · intro i hi
      change libkern.loadedKexts.count i = _
      rw [hlist]
      exact List.count_erase_of_ne hi
    · refine .of_not_loaded (by simp [markUnloaded]) (by simp [markUnloaded]) ?_ ?_ ?_
      · simp [markUnloaded, hself]
      · change info ∉ libkern.loadedKexts
        rw [hlist, ← List.count_pos_iff, List.count_erase_self]
        have := hstep.infoOnce
        omega
      · simp [markUnloaded, hself]

/-! ## New kexts -/

/-- A new kext comes after the others, and so does its KextInfo, if it has one. -/
theorem initWithPath_libkern (w : Framework) (plist again : Option InfoPlist) :
    (∀ info ∈ ((w.initWithPath plist again).kexts w.count).kextInfo,
        info < (w.initWithPath plist again).libkern.count) ∧
      w.libkern.count ≤ (w.initWithPath plist again).libkern.count ∧
      (w.initWithPath plist again).libkern.loadedKexts = w.libkern.loadedKexts ∧
      ∀ i < w.libkern.count, (w.initWithPath plist again).libkern.infos i = w.libkern.infos i := by
  by_cases hid : plist.bind InfoPlist.bundleIdentifier = none
  · refine ⟨?_, ?_, ?_, fun i _ => ?_⟩ <;> simp [initWithPath, hid]
  · cases again with
    | none => refine ⟨?_, ?_, ?_, fun i _ => ?_⟩ <;> simp [initWithPath, hid, kextInfoCreateFromPath]
    | some plist' =>
      refine ⟨?_, ?_, ?_, fun i hi => ?_⟩
      · simp [initWithPath, hid, kextInfoCreateFromPath, Libkern.create]
      · simp [initWithPath, hid, kextInfoCreateFromPath, Libkern.create]
      · simp [initWithPath, hid, kextInfoCreateFromPath, Libkern.create]
      · simp [initWithPath, hid, kextInfoCreateFromPath, Libkern.create, hi.ne]

theorem kexts_initWithPath {j : KextRef} (hj : j < w.count) (plist again : Option InfoPlist) :
    (w.initWithPath plist again).kexts j = w.kexts j := by
  simp [initWithPath, hj.ne]

/-- A kext of a bundle gets a new KextInfo, and neither is loaded. -/
theorem initWithPath_new {plist : Option InfoPlist} (hid : plist.bind InfoPlist.bundleIdentifier ≠ none)
    (w : Framework) (plist' : InfoPlist) :
    (w.initWithPath plist (some plist')).libkern.count = w.libkern.count + 1 ∧
      ((w.initWithPath plist (some plist')).kexts w.count).kextInfo = some w.libkern.count ∧
      ((w.initWithPath plist (some plist')).kexts w.count).loaded = false ∧
      ((w.initWithPath plist (some plist')).libkern.infos w.libkern.count).state = .unloaded := by
  refine ⟨?_, ?_, ?_, ?_⟩ <;> simp [initWithPath, hid, kextInfoCreateFromPath, Libkern.create]

theorem layers_create (h : w.Layers) {plist again : Option InfoPlist}
    (hid : plist.bind InfoPlist.bundleIdentifier ≠ none) (hagain : again.isSome) :
    (w.initWithPath plist again).Layers := by
  obtain ⟨plist', rfl⟩ := Option.isSome_iff_exists.1 hagain
  obtain ⟨-, -, hlisted, hinfos⟩ := initWithPath_libkern w plist (some plist')
  obtain ⟨hinfoCount, hinfo, hloaded, hstate⟩ := initWithPath_new hid w plist'
  have hold : ∀ j < w.count, (w.initWithPath plist (some plist')).kexts j = w.kexts j :=
    fun j hj => kexts_initWithPath hj plist (some plist')
  have hownNe : ∀ j < w.count, (w.kexts j).kextInfo ≠ some w.libkern.count :=
    fun j hj heq => (h.own j hj _ heq).false
  constructor
  · intro j hj
    rcases Nat.lt_succ_iff_lt_or_eq.1 hj with hlt | rfl
    · obtain ⟨i, hi, hstep⟩ := h.inStep j hlt
      rw [hold j hlt]
      exact ⟨i, hi, hstep.congr (by rw [hold j hlt]) (by rw [hinfos i (h.own j hlt i hi)]) rfl
        (by rw [hlisted])⟩
    · refine ⟨w.libkern.count, hinfo, .of_not_loaded ?_ hloaded ?_ ?_ ?_⟩
      · exact fun hmem => (h.listed _ hmem).false
      · rw [hstate]
        decide
      · exact fun hmem => (h.infoListed _ (hlisted ▸ hmem)).false
      · rw [hstate]
        decide
  · intro j hj i hi
    rw [hinfoCount]
    rcases Nat.lt_succ_iff_lt_or_eq.1 hj with hlt | rfl
    · rw [hold j hlt] at hi
      exact Nat.lt_succ_of_lt (h.own j hlt i hi)
    · rw [hinfo] at hi
      obtain rfl := Option.some.inj hi
      exact Nat.lt_succ_self _
  · intro j hj k hk heq
    rcases Nat.lt_succ_iff_lt_or_eq.1 hj with hj | rfl
    · rcases Nat.lt_succ_iff_lt_or_eq.1 hk with hk | rfl
      · rw [hold j hj, hold k hk] at heq
        exact h.inj j hj k hk heq
      · rw [hold j hj, hinfo] at heq
        exact absurd heq (hownNe j hj)
    · rcases Nat.lt_succ_iff_lt_or_eq.1 hk with hk | rfl
      · rw [hold k hk, hinfo] at heq
        exact absurd heq.symm (hownNe k hk)
      · rfl
  · exact fun j hj => Nat.lt_succ_of_lt (h.listed j hj)
  · intro i hi
    rw [hinfoCount]
    exact Nat.lt_succ_of_lt (h.infoListed i (hlisted ▸ hi))

/-! ## Runs -/

theorem layers_initial : initial.Layers where
  inStep := fun _ h => absurd h (Nat.not_lt_zero _)
  own := fun _ h => absurd h (Nat.not_lt_zero _)
  inj := fun _ h => absurd h (Nat.not_lt_zero _)
  listed := fun _ h => absurd h List.not_mem_nil
  infoListed := fun _ h => absurd h List.not_mem_nil

/-- **The layers agree after every call**, and a call that returns NO changes neither list. -/
theorem meets_inStep (log : List Call) (hlog : Meets step (fun w a => a.OfKext w) initial log) :
    Meets step (fun w a =>
      (∀ kext < (w.step a).count, ∃ info, ((w.step a).kexts kext).kextInfo = some info ∧
        (w.step a).InStep kext info) ∧
      ((w.call a).2 = false → (w.step a).globalLoadedKexts = w.globalLoadedKexts ∧
        (w.step a).libkern.loadedKexts = w.libkern.loadedKexts)) initial log := by
  have hcall : ∀ w a, Layers w → a.OfKext w → (w.step a).Layers ∧ ((w.call a).2 = false →
      (w.step a).globalLoadedKexts = w.globalLoadedKexts ∧
        (w.step a).libkern.loadedKexts = w.libkern.loadedKexts) := by
    intro w a h ha
    cases a with
    | create plist again => exact ⟨layers_create h ha.1 ha.2, fun hno => Bool.noConfusion hno⟩
    | load kext io => exact layers_load h ha io
    | unload kext io => exact layers_unload h ha io
    | kextInfoLoad info io => exact ha.elim
    | kextInfoUnload info io => exact ha.elim
  refine Meets.of_invariant (I := Layers) (A := fun w a => a.OfKext w) ?_ ?_ layers_initial hlog
  · exact fun w a h ha => (hcall w a h ha).1
  · exact fun w a h ha => ⟨(hcall w a h ha).1.inStep, (hcall w a h ha).2⟩

/-- A kext whose module is refused once, loaded then and unloaded. -/
theorem meets_inStep_retried : Meets step (fun w a =>
      (∀ kext < (w.step a).count, ∃ info, ((w.step a).kexts kext).kextInfo = some info ∧
        (w.step a).InStep kext info) ∧
      ((w.call a).2 = false → (w.step a).globalLoadedKexts = w.globalLoadedKexts ∧
        (w.step a).libkern.loadedKexts = w.libkern.loadedKexts)) initial
    [.create (some ⟨some ['a'], some ['x'], none, none⟩) (some ⟨some ['a'], some ['x'], none, none⟩),
      .load 0 ⟨true, false⟩, .load 0 ⟨true, true⟩, .unload 0 ⟨true, true⟩] :=
  meets_inStep _ (by decide)

end Framework

end PocketDarwin.Kext
