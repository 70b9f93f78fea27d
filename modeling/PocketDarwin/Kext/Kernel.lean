/-
  The modules in the kernel, and the KextInfos that are recorded as loaded.

  `KextInfoLoad` reports what the platform answers; `KextInfoUnload` does not look at the
  answer.  The record is that of the kernel as long as no unloading is refused
  (`meets_faithful_iff`).
-/
import PocketDarwin.Runs
import PocketDarwin.Kext.Libkern

namespace PocketDarwin.Kext

namespace Libkern

/-- A call, with the answers of the platform. -/
inductive Call where
  | load (info : Option KextInfoRef) (io : Platform)
  | unload (info : Option KextInfoRef) (io : Platform)

/-- What a call does and returns. -/
def call (k : Libkern) : Call → Libkern × KextLoadResult
  | .load info io => k.kextInfoLoad io info
  | .unload info io => k.kextInfoUnload io info

/-- The state after a call. -/
def step (k : Libkern) (a : Call) : Libkern := (k.call a).1

/-- The executable of a KextInfo that is recorded as loaded. -/
def Recorded (k : Libkern) (path : Text) : Prop :=
  ∃ i < k.count, (k.infos i).state = .loaded ∧ (k.infos i).executablePath = some path

/-- The modules in the kernel are those that are recorded as loaded. -/
def Matches (k : Libkern) : Prop := ∀ path, path ∈ k.modules ↔ k.Recorded path

/-- Every KextInfo has an executable of its own. -/
structure Distinct (k : Libkern) : Prop where
  executable : ∀ i < k.count, ∃ path, (k.infos i).executablePath = some path
  inj : ∀ i < k.count, ∀ j < k.count, (k.infos i).executablePath = (k.infos j).executablePath → i = j

/-- The call names a KextInfo whose executable exists. -/
def Call.Names (k : Libkern) : Call → Prop
  | .load info io => (∀ i ∈ info, i < k.count) ∧ io.fileExists = true
  | .unload info io => (∀ i ∈ info, i < k.count) ∧ io.fileExists = true

instance (k : Libkern) : ∀ a : Call, Decidable (a.Names k)
  | .load info io => inferInstanceAs (Decidable ((∀ i ∈ info, i < k.count) ∧ io.fileExists = true))
  | .unload info io => inferInstanceAs (Decidable ((∀ i ∈ info, i < k.count) ∧ io.fileExists = true))

/-- The change that a call asks for has been made: the executable came into the kernel, or left it. -/
def Changed (k k' : Libkern) : Call → Prop
  | .load (some i) _ => ∃ path, (k.infos i).executablePath = some path ∧ path ∉ k.modules ∧ path ∈ k'.modules
  | .unload (some i) _ => ∃ path, (k.infos i).executablePath = some path ∧ path ∈ k.modules ∧ path ∉ k'.modules
  | _ => False

/-- After the call the record is that of the kernel, and the call returned success exactly if the
    change was made. -/
def Faithful (k : Libkern) (a : Call) : Prop :=
  (k.step a).Matches ∧ ((k.call a).2 = .success ↔ k.Changed (k.step a) a)

/-- The platform does not refuse to unload a module of a KextInfo that is recorded as loaded. -/
def UnloadsModule (k : Libkern) : Call → Prop
  | .unload (some i) io => (k.infos i).state = .loaded → io.module = true
  | _ => True

variable {k : Libkern} {io : Platform} {info : KextInfoRef} {path : Text}

/-! ## What is recorded -/

/-- The record after an assignment to one KextInfo: that of the others, and its own. -/
theorem recorded_modify (hinfo : info < k.count) {f : KextInfo → KextInfo}
    (hf : ∀ i, (f i).executablePath = i.executablePath) :
    (k.modify info f).Recorded path ↔
      (∃ i < k.count, i ≠ info ∧ (k.infos i).state = .loaded ∧ (k.infos i).executablePath = some path) ∨
        ((f (k.infos info)).state = .loaded ∧ (k.infos info).executablePath = some path) := by
  constructor
  · rintro ⟨i, hi, hstate, hpath⟩
    by_cases hne : i = info
    · subst hne
      simp only [modify, Function.update_self, hf] at hstate hpath
      exact Or.inr ⟨hstate, hpath⟩
    · simp only [modify, Function.update_of_ne hne] at hstate hpath
      exact Or.inl ⟨i, hi, hne, hstate, hpath⟩
  · rintro (⟨i, hi, hne, hstate, hpath⟩ | ⟨hstate, hpath⟩)
    · refine ⟨i, hi, ?_, ?_⟩
      · simpa [modify, hne] using hstate
      · simpa [modify, hne] using hpath
    · refine ⟨info, hinfo, ?_, ?_⟩
      · simpa [modify] using hstate
      · simpa [modify, hf] using hpath

theorem recorded_iff (hinfo : info < k.count) :
    k.Recorded path ↔
      (∃ i < k.count, i ≠ info ∧ (k.infos i).state = .loaded ∧ (k.infos i).executablePath = some path) ∨
        ((k.infos info).state = .loaded ∧ (k.infos info).executablePath = some path) := by
  have hself : k.modify info id = k := by simp [modify]
  have h : (k.modify info id).Recorded path ↔ _ := recorded_modify hinfo fun _ => rfl
  rwa [hself] at h

/-- The KextInfo that a module belongs to is the only one. -/
theorem Distinct.eq_of_recorded (hd : k.Distinct) (hinfo : info < k.count)
    (hpath : (k.infos info).executablePath = some path) (h : k.Recorded path) : (k.infos info).state = .loaded := by
  obtain ⟨i, hi, hstate, hi'⟩ := h
  rw [← hd.inj i hi info hinfo (hi'.trans hpath.symm)]
  exact hstate

/-- An assignment that does not change whether a KextInfo is recorded as loaded. -/
theorem recorded_modify_iff (hinfo : info < k.count) {f : KextInfo → KextInfo}
    (hf : ∀ i, (f i).executablePath = i.executablePath)
    (hstate : (f (k.infos info)).state = .loaded ↔ (k.infos info).state = .loaded) :
    (k.modify info f).Recorded path ↔ k.Recorded path := by
  rw [recorded_modify hinfo hf, recorded_iff hinfo, hstate]

theorem Matches.modify (h : k.Matches) (hinfo : info < k.count) {f : KextInfo → KextInfo}
    (hf : ∀ i, (f i).executablePath = i.executablePath)
    (hstate : (f (k.infos info)).state = .loaded ↔ (k.infos info).state = .loaded) : (k.modify info f).Matches :=
  fun path => (h path).trans (recorded_modify_iff hinfo hf hstate).symm

/-! ## One call -/

theorem module_of_fileExists (hio : io.fileExists = true) : k.module io info = (k.infos info).executablePath :=
  if_pos hio

/-- A call that leaves the modules alone has changed nothing. -/
theorem not_changed {k' : Libkern} {a : Call} (hchanged : k.Changed k' a) (h : k'.modules = k.modules) : False := by
  rcases a with ⟨_ | i, io⟩ | ⟨_ | i, io⟩
  · exact hchanged
  · obtain ⟨path, -, hnot, hmem⟩ := hchanged
    exact hnot (h ▸ hmem)
  · exact hchanged
  · obtain ⟨path, -, hmem, hnot⟩ := hchanged
    exact hnot (h ▸ hmem)

/-- **`KextInfoLoad` is faithful.** -/
theorem faithful_load (hm : k.Matches) (hd : k.Distinct) (hinfo : info < k.count) (hio : io.fileExists = true) :
    k.Faithful (.load (some info) io) := by
  have hload := load_kextInfoLoad k io info
  change (k.kextInfoLoad io (some info)).1.Matches ∧
    ((k.kextInfoLoad io (some info)).2 = .success ↔
      k.Changed (k.kextInfoLoad io (some info)).1 (.load (some info) io))
  generalize k.kextInfoLoad io (some info) = out at hload ⊢
  cases hload with
  | alreadyLoaded => exact ⟨hm, by simp, fun h => (not_changed h rfl).elim⟩
  | noIdentifier => exact ⟨hm, by simp, fun h => (not_changed h rfl).elim⟩
  | missingDependencies =>
    exact ⟨hm.modify hinfo (fun _ => rfl) Iff.rfl, by simp, fun h => (not_changed h rfl).elim⟩
  | failed hstate =>
    exact ⟨hm.modify hinfo (fun _ => rfl)
      (by simp [hstate]), by simp, fun h => (not_changed h rfl).elim⟩
  | loaded hstate =>
    obtain ⟨path, hpath⟩ := hd.executable info hinfo
    rw [module_of_fileExists hio, hpath]
    have hnot : path ∉ k.modules :=
      fun hmem => hstate (hd.eq_of_recorded hinfo hpath ((hm path).1 hmem))
    refine ⟨fun path' => ?_, fun _ => ⟨path, hpath, hnot, by simp⟩, fun _ => rfl⟩
    refine Iff.trans ?_ (recorded_modify hinfo (f := fun i =>
      { i with state := .loaded, lastLoadResult := .success }) fun _ => rfl).symm
    have hold := (hm path').trans (recorded_iff hinfo)
    simp only [hstate, false_and, or_false] at hold
    simp [hold, hpath, eq_comm]

/-- **`KextInfoUnload`** is faithful exactly if the platform does not refuse. -/
theorem faithful_unload_iff (hm : k.Matches) (hd : k.Distinct) (hinfo : info < k.count) (hio : io.fileExists = true) :
    k.Faithful (.unload (some info) io) ↔ k.UnloadsModule (.unload (some info) io) := by
  have hunload := unload_kextInfoUnload k io info
  change (k.kextInfoUnload io (some info)).1.Matches ∧
    ((k.kextInfoUnload io (some info)).2 = .success ↔
      k.Changed (k.kextInfoUnload io (some info)).1 (.unload (some info) io)) ↔
    ((k.infos info).state = .loaded → io.module = true)
  generalize k.kextInfoUnload io (some info) = out at hunload ⊢
  cases hunload with
  | notLoaded hstate =>
    refine ⟨fun _ h => absurd h hstate, fun _ => ⟨hm, by simp, fun h => (not_changed h rfl).elim⟩⟩
  | unloaded hstate =>
    obtain ⟨path, hpath⟩ := hd.executable info hinfo
    have hmem : path ∈ k.modules := (hm path).2 ⟨info, hinfo, hstate, hpath⟩
    constructor
    · rintro ⟨-, hchanged⟩ -
      by_contra hrefused
      obtain ⟨path', -, hin, hout⟩ := hchanged.1 rfl
      rw [if_neg hrefused] at hout
      exact hout hin
    · intro hmodule
      rw [if_pos (hmodule hstate), module_of_fileExists hio, hpath]
      refine ⟨fun path' => ?_, fun _ => ⟨path, hpath, hmem, by simp⟩, fun _ => rfl⟩
      refine Iff.trans ?_ (recorded_modify hinfo (f := fun i => { i with state := .unloaded })
        fun _ => rfl).symm
      have hold := (hm path').trans (recorded_iff hinfo)
      rw [List.mem_filter, hold]
      constructor
      · rintro ⟨h | ⟨-, h⟩, hne⟩
        · exact Or.inl h
        · simp [← h, hpath] at hne
      · rintro (⟨i, hi, hne, hloaded, h⟩ | ⟨h, -⟩)
        · refine ⟨Or.inl ⟨i, hi, hne, hloaded, h⟩, ?_⟩
          simp only [ne_eq, decide_not, Bool.not_eq_true', decide_eq_false_iff_not]
          rintro heq
          exact hne (hd.inj i hi info hinfo (h.trans (heq.trans hpath.symm)))
        · exact absurd h (by simp)

/-! ## Runs -/

theorem sameBundles_step (k : Libkern) : ∀ a, SameBundles k (k.step a)
  | .load info io => sameBundles_kextInfoLoad k io info
  | .unload info io => sameBundles_kextInfoUnload k io info

theorem distinct_step (hd : k.Distinct) (a : Call) : (k.step a).Distinct := by
  have hsame := sameBundles_step k a
  constructor
  · simp only [hsame.count, hsame.executablePath]; exact hd.executable
  · simp only [hsame.count, hsame.executablePath]; exact hd.inj

theorem faithful_iff (a : Call) (hm : k.Matches) (hd : k.Distinct) (ha : a.Names k) :
    k.Faithful a ↔ k.UnloadsModule a := by
  rcases a with ⟨_ | info, io⟩ | ⟨_ | info, io⟩
  · exact ⟨fun _ => trivial, fun _ => ⟨hm, by simp [call, kextInfoLoad], fun h => h.elim⟩⟩
  · exact ⟨fun _ => trivial, fun _ => faithful_load hm hd (ha.1 info rfl) ha.2⟩
  · exact ⟨fun _ => trivial, fun _ => ⟨hm, by simp [call, kextInfoUnload], fun h => h.elim⟩⟩
  · exact faithful_unload_iff hm hd (ha.1 info rfl) ha.2

/-- **The record is that of the kernel exactly as long as no unloading is refused.**  The run starts
    with the record right, in particular with nothing loaded; the executables are different ones and exist. -/
theorem meets_faithful_iff (k : Libkern) (log : List Call) (hm : k.Matches) (hd : k.Distinct)
    (hlog : Meets step (fun k a => a.Names k) k log) :
    Meets step Faithful k log ↔ Meets step UnloadsModule k log := by
  refine meets_iff_meets (I := fun k => k.Matches ∧ k.Distinct) (A := fun k a => a.Names k)
    ?_ ?_ ⟨hm, hd⟩ hlog
  · rintro k a ⟨hm, hd⟩ ha
    exact faithful_iff a hm hd ha
  · rintro k a ⟨-, hd⟩ - hfaithful
    exact ⟨hfaithful.1, distinct_step hd a⟩

/-- One KextInfo, not loaded. -/
def single : Libkern :=
  ⟨1, fun _ => ⟨some ['a'], some ['x'], none, .unloaded, .success⟩, [], []⟩

theorem matches_single : single.Matches := by
  intro path
  simp [single, Recorded]

theorem distinct_single : single.Distinct := by
  refine ⟨fun i _ => ⟨_, rfl⟩, fun i hi j hj _ => ?_⟩
  rw [Nat.lt_one_iff.1 hi, Nat.lt_one_iff.1 hj]

/-- A module is loaded and unloaded again. -/
theorem meets_faithful_single :
    Meets step Faithful single [.load (some 0) ⟨true, true⟩, .unload (some 0) ⟨true, true⟩] :=
  (meets_faithful_iff single _ matches_single distinct_single (by decide)).2 ⟨trivial, fun _ => rfl, trivial⟩

/-- The kernel refuses to unload a module, and the record says that it is unloaded. -/
theorem not_meets_faithful : ¬ ∀ (k : Libkern) (log : List Call), k.Matches → k.Distinct →
    Meets step (fun k a => a.Names k) k log → Meets step Faithful k log := by
  intro h
  obtain ⟨-, ⟨hm, -⟩, -⟩ := h single [.load (some 0) ⟨true, true⟩, .unload (some 0) ⟨true, false⟩]
    matches_single
    distinct_single (by decide)
  obtain ⟨i, hi, hstate, -⟩ := (hm ['x']).1 (by decide)
  obtain rfl := Nat.lt_one_iff.1 hi
  exact absurd hstate (by decide)

end Libkern

end PocketDarwin.Kext
