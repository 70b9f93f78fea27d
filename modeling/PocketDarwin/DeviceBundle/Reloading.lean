/-
  Loading device information again (`DeviceInfo::loadFromString`).

  Some members are overwritten by a load, some appended to, and the properties merged key by
  key, so that what was there before may be left.

  * `sameReport_apply_iff`: a load ends with what it would have made of a new object exactly
    if nothing else was left to report.
  * `reloads_run`: the information is that of the last load, throughout a run, exactly if this
    is so for each load, or if one that fails had nothing new to tell.
-/
import PocketDarwin.DeviceBundle.Reading

namespace PocketDarwin.DeviceBundle

/-! ## What is reported -/

/-- The value of a key. -/
def Properties.get? (m : Properties) (key : Text) : Option Text :=
  (m.entries.find? fun e => e.1 == key).map Prod.snd

theorem find?_setEntry (key value k : Text) (l : List (Text × Text)) :
    (setEntry key value l).find? (fun e => e.1 == k) =
      if k = key then some (key, value) else l.find? fun e => e.1 == k := by
  induction l with
  | nil =>
    by_cases hk : k = key
    · simp [setEntry, hk]
    · simp [setEntry, hk, Ne.symm hk]
  | cons e l ih =>
    rw [setEntry]
    by_cases hk : k = key
    · subst hk
      rw [if_pos rfl] at ih ⊢
      split_ifs with hlt heq
      · simp
      · simp
      · rw [List.find?_cons_of_neg (by simpa using Ne.symm heq), ih]
    · rw [if_neg hk]
      split_ifs with hlt heq
      · rw [List.find?_cons_of_neg (by simpa using Ne.symm hk)]
      · rw [List.find?_cons_of_neg (by simpa using Ne.symm hk),
          List.find?_cons_of_neg (by simpa [← heq] using Ne.symm hk)]
      · rw [List.find?_cons, List.find?_cons, ih, if_neg hk]

theorem Properties.get?_addProperty (m : Properties) (key value k : Text) :
    (m.addProperty key value).get? k = if k = key then some value else m.get? k := by
  rw [get?, addProperty, find?_setEntry]
  split_ifs <;> rfl

namespace DeviceInfo

def getDriver (info : DeviceInfo) (name : Text) : Option DriverInfo :=
  info.drivers.find? fun d => d.name == name

def getProperty (info : DeviceInfo) (key : Text) : Text := (info.properties.get? key).getD []

end DeviceInfo

/-- The two report the same to whoever asks. -/
structure SameReport (i j : DeviceInfo) : Prop where
  field : ∀ f : Field, f.get i = f.get j
  compatibleDevices : i.compatibleDevices = j.compatibleDevices
  drivers : i.drivers = j.drivers
  getDriver : ∀ name, i.getDriver name = j.getDriver name
  getProperty : ∀ key, i.getProperty key = j.getProperty key

/-- All that there was to report is read again. -/
structure Overwritten (r : Reading) (info : DeviceInfo) : Prop where
  field : ∀ f : Field, f.get info = [] ∨ (r.fields f).isSome
  compatibleDevices : info.compatibleDevices = []
  drivers : info.drivers = []
  getProperty : ∀ key, info.getProperty key = [] ∨ key ∈ r.properties.map Prod.fst

/-- What is read was there to report. -/
structure Repeated (r : Reading) (info : DeviceInfo) : Prop where
  field : ∀ f : Field, r.fields f = none ∨ r.fields f = some (f.get info)
  compatibleDevices : r.compatible = []

namespace Reading
variable (r : Reading) (i j : DeviceInfo)

theorem get_apply (f : Field) : f.get (r.apply i) = (r.fields f).getD (f.get i) :=
  by cases f <;> rfl

theorem getProperty_addAll (l : List (Text × Text)) (m n : Properties) (key : Text) :
    ((addAll m l).get? key).getD [] = ((addAll n l).get? key).getD [] ↔
      (m.get? key).getD [] = (n.get? key).getD [] ∨ key ∈ l.map Prod.fst := by
  induction l generalizing m n with
  | nil => simp [addAll]
  | cons e l ih =>
    rw [addAll, addAll, List.foldl_cons, List.foldl_cons]
    refine (ih _ _).trans ?_
    rw [Properties.get?_addProperty, Properties.get?_addProperty, List.map_cons, List.mem_cons]
    by_cases hkey : key = e.1
    · simp [hkey]
    · simp [hkey]

/-- **Reading over what there is** reports what reading into a new object does, exactly if all is
    overwritten. -/
theorem sameReport_apply_iff : SameReport (r.apply i) (r.apply {}) ↔ Overwritten r i := by
  constructor
  · intro h
    refine ⟨fun f => ?_, ?_, ?_, fun key => ?_⟩
    · have hf := h.field f
      rw [get_apply, get_apply] at hf
      cases hread : r.fields f with
      | none =>
        rw [hread] at hf
        exact .inl (hf.trans (by cases f <;> rfl))
      | some t => exact .inr rfl
    · simpa [apply] using h.compatibleDevices
    · simpa [apply] using h.drivers
    · exact (getProperty_addAll r.properties i.properties .empty key).1 (h.getProperty key)
  · intro h
    have hdrivers : (r.apply i).drivers = (r.apply {}).drivers := by simp [apply, h.drivers]
    refine ⟨fun f =>
      ?_, by simp [apply, h.compatibleDevices], hdrivers, fun name => ?_, fun key => ?_⟩
    · rw [get_apply, get_apply]
      rcases h.field f with hf | hf
      · rw [hf]
        cases f <;> rfl
      · obtain ⟨t, ht⟩ := Option.isSome_iff_exists.1 hf
        rw [ht]
        rfl
    · rw [DeviceInfo.getDriver, DeviceInfo.getDriver, hdrivers]
    · exact (getProperty_addAll r.properties i.properties .empty key).2 (h.getProperty key)

end Reading

section
variable {pbx : PlistDecoder} {dict : List (Text × pbx.Value)} {info : DeviceInfo}

theorem sameReport_self_iff (h : (reading pbx dict).ended = false) :
    SameReport ((reading pbx dict).apply info) info ↔ Repeated (reading pbx dict) info := by
  obtain ⟨hdrivers, hproperties⟩ := reading_of_not_ended h
  constructor
  · intro hsame
    refine ⟨fun f => ?_, by simpa [Reading.apply] using hsame.compatibleDevices⟩
    have hf := hsame.field f
    rw [Reading.get_apply] at hf
    cases hread : (reading pbx dict).fields f with
    | none => exact .inl rfl
    | some t =>
      rw [hread] at hf
      exact .inr (congrArg some hf)
  · rintro ⟨hfield, hcompatible⟩
    refine ⟨fun f =>
      ?_, by
        simp [Reading.apply, hcompatible], by
          simp [Reading.apply, hdrivers], fun name => ?_, fun key => ?_⟩
    · rw [Reading.get_apply]
      rcases hfield f with hf | hf
      · rw [hf, Option.getD_none]
      · rw [hf, Option.getD_some]
    · simp [DeviceInfo.getDriver, Reading.apply, hdrivers]
    · simp [DeviceInfo.getProperty, Reading.apply, hproperties, addAll]

end

/-! ## What a property list defines -/

section
variable (pbx : PlistDecoder) (dict : List (Text × pbx.Value))

/-- The dictionary under a key, if there is one, has these entries. -/
def EntriesAre {γ : Type} (g : Text × pbx.Value → Option γ) (key : String) (l : List γ) : Prop :=
  match subDictionary pbx dict key with
  | none => l = []
  | some none => False
  | some (some entries) => entries.mapM g = some l

/-- The compatible devices, if there is an array of them. -/
def CompatibleAre (l : List Text) : Prop :=
  match pbx.find dict "CompatibleDevices".toList with
  | none => l = []
  | some v =>
    if pbx.type v = .array then ∃ items, pbx.arrayValue v = some items ∧
      items.mapM pbx.stringValue = some l
    else l = []

/-- The plist defines this device: all of it can be read. -/
structure Defines (d : DeviceInfo) : Prop where
  field : ∀ f : Field, (textUnder pbx dict f.key).map (·.getD []) = some (f.get d)
  compatibleDevices : CompatibleAre pbx dict d.compatibleDevices
  drivers : EntriesAre pbx dict (driverOf pbx) "Drivers" d.drivers
  properties : ∃ l, EntriesAre pbx dict (propertyOf pbx) "DeviceProperties" l ∧
  d.properties = addAll .empty l

/-- The drivers and the properties can be read. -/
def Readable : Prop :=
  (entriesUnder pbx dict (driverOf pbx) "Drivers").2 = true ∧
  (entriesUnder pbx dict (propertyOf pbx) "DeviceProperties").2 = true

end

section
variable {pbx : PlistDecoder} {dict : List (Text × pbx.Value)}

theorem entriesAre_iff {γ : Type} {g : Text × pbx.Value → Option γ} {key : String} {l : List γ} :
    EntriesAre pbx dict g key l ↔ entriesUnder pbx dict g key = (l, true) := by
  unfold EntriesAre entriesUnder
  rcases subDictionary pbx dict key with - | - | entries
  · simp [eq_comm]
  · simp
  · exact collect_eq_iff.symm

theorem compatibleAre_iff {l : List Text} :
    CompatibleAre pbx dict l ↔ compatibleUnder pbx dict = (l, true) := by
  unfold CompatibleAre compatibleUnder
  cases pbx.find dict "CompatibleDevices".toList with
  | none => simp [eq_comm]
  | some v =>
    by_cases htype : pbx.type v = .array
    · simp only [if_pos htype]
      cases pbx.arrayValue v with
      | none => simp
      | some items => simp [collect_eq_iff]
    · simp [htype, eq_comm]

theorem name_of_driverOf {e : Text × pbx.Value} {d : DriverInfo} (h : driverOf pbx e = some d)
    : d.name = e.1 := by
  unfold driverOf at h
  split_ifs at h
  · split at h
    · cases h
    · split at h
      · cases h
        rfl
      · cases h
  · cases h
    rfl

/-- Each driver is defined once, if the dictionary has each name once. -/
theorem getDriver_of_defines {entries : List (Text × pbx.Value)} {d : DeviceInfo}
    (hd : Defines pbx dict d)
    (hentries : subDictionary pbx dict "Drivers" = some (some entries))
    (hnames : (entries.map Prod.fst).Nodup)
    {e : Text × pbx.Value} (he : e ∈ entries) : d.getDriver e.1 = driverOf pbx e := by
  have hdrivers := hd.drivers
  rw [EntriesAre, hentries] at hdrivers
  rw [DeviceInfo.getDriver]
  revert hdrivers
  generalize d.drivers = drivers
  clear hentries
  induction entries generalizing drivers with
  | nil => cases he
  | cons b entries ih =>
    intro hdrivers
    simp only [List.mapM_cons, Option.bind_eq_bind, Option.bind_eq_some_iff, Option.pure_def,
      Option.some.injEq] at hdrivers
    obtain ⟨c, hc, rest, hrest, rfl⟩ := hdrivers
    obtain ⟨hb, hnodup⟩ := List.nodup_cons.1 hnames
    rcases List.mem_cons.1 he with rfl | he
    · rw [List.find?_cons_of_pos (by simp [name_of_driverOf hc]), hc]
    · have hne : b.1 ≠ e.1 := fun h => hb (h ▸ List.mem_map_of_mem he)
      rw [List.find?_cons_of_neg (by simpa [name_of_driverOf hc] using hne)]
      exact ih hnodup he rest hrest

/-- What is defined is what the reading makes of a new object. -/
theorem defines_iff {d : DeviceInfo} (h : (reading pbx dict).ended = true) :
    Defines pbx dict d ↔ Readable pbx dict ∧
    (∀ f : Field, f.get d = f.get ((reading pbx dict).apply {})) ∧
      d.compatibleDevices = ((reading pbx dict).apply {}).compatibleDevices ∧
      d.drivers = ((reading pbx dict).apply {}).drivers ∧
      d.properties = ((reading pbx dict).apply {}).properties := by
  obtain ⟨hfields, hcompatible, hdrivers, hproperties⟩ := reading_of_ended h
  have hfield : ∀ f : Field, (textUnder pbx dict f.key).map (·.getD []) = some (f.get d) ↔
      f.get d = f.get ((reading pbx dict).apply {}) := by
    intro f
    obtain ⟨t, ht⟩ := Option.isSome_iff_exists.1 (hfields f).1
    have hnew : f.get ({} : DeviceInfo) = [] := by cases f <;> rfl
    rw [Reading.get_apply, (hfields f).2, ht, hnew, Option.map_some, Option.some.injEq,
      Option.join_some]
    exact eq_comm
  have hcompatible' : ((reading pbx dict).apply {}).compatibleDevices =
      (reading pbx dict).compatible := rfl
  have hdrivers' : ((reading pbx dict).apply {}).drivers =
      (entriesUnder pbx dict (driverOf pbx) "Drivers").1 := hdrivers
  have hproperties' : ((reading pbx dict).apply {}).properties =
      addAll .empty (entriesUnder pbx dict (propertyOf pbx) "DeviceProperties").1 :=
        congrArg _ hproperties
  rw [hcompatible', hdrivers', hproperties']
  constructor
  · rintro ⟨h₁, h₂, h₃, l, h₄, h₅⟩
    rw [compatibleAre_iff, hcompatible] at h₂
    rw [entriesAre_iff] at h₃ h₄
    refine ⟨⟨?_, ?_⟩, fun f => (hfield f).1 (h₁ f), ?_, ?_, ?_⟩
    · rw [h₃]
    · rw [h₄]
    · exact (congrArg Prod.fst h₂).symm
    · rw [h₃]
    · rw [h₄, h₅]
  · rintro ⟨⟨hd, hp⟩, h₁, h₂, h₃, h₄⟩
    refine ⟨fun f => (hfield f).2 (h₁ f), ?_, ?_, _, ?_, h₄⟩
    · rw [compatibleAre_iff, hcompatible, h₂]
    · rw [entriesAre_iff, h₃]
      exact Prod.ext rfl hd
    · rw [entriesAre_iff]
      exact Prod.ext rfl hp

end

/-! ## Loads, one after another -/

section
variable (pbx : PlistDecoder)

/-- A load that succeeds reports what the plist defines; one that fails reports what was there
    before, or is invalid and reports only what it has read itself. -/
def Reloads (info : DeviceInfo) (plist : Text) : Prop :=
  if (info.loadFromString pbx plist).valid then
    ∃ dict, pbx.parse plist = some dict ∧
      ∃ d, Defines pbx dict d ∧ SameReport (info.loadFromString pbx plist) d
  else
    SameReport (info.loadFromString pbx plist) info ∨
    ((info.loadFromString pbx plist).isValid = false ∧
      SameReport (info.loadFromString pbx plist) (({} : DeviceInfo).loadFromString pbx plist))

/-- Nothing was there before that a load does not read again; or it throws, and reads only what
    was there.  A plist that cannot be parsed does no harm. -/
def Harmless (info : DeviceInfo) (plist : Text) : Prop :=
  ∀ dict, pbx.parse plist = some dict →
    if (reading pbx dict).ended then Readable pbx dict ∧ Overwritten (reading pbx dict) info
    else Repeated (reading pbx dict) info ∨ Overwritten (reading pbx dict) info

end

section
variable {pbx : PlistDecoder}

theorem sameReport_valid {i j : DeviceInfo} {v w : Bool} :
    SameReport { i with valid := v } { j with valid := w } ↔ SameReport i j := by
  have hget : ∀ (f : Field) (i : DeviceInfo) (v : Bool), f.get { i with valid := v } = f.get i := by
    intro f i v
    cases f <;> rfl
  exact ⟨fun ⟨h₁, h₂, h₃, h₄, h₅⟩ => ⟨fun f => by simpa only [hget] using h₁ f, h₂, h₃, h₄, h₅⟩,
    fun ⟨h₁, h₂, h₃, h₄, h₅⟩ => ⟨fun f => by simpa only [hget] using h₁ f, h₂, h₃, h₄, h₅⟩⟩

theorem SameReport.refl (i : DeviceInfo) : SameReport i i :=
  ⟨fun _ => rfl, rfl, rfl, fun _ => rfl, fun _ => rfl⟩

/-- What is reported depends on the members alone. -/
theorem SameReport.congr_right {i d d' : DeviceInfo} (hfield : ∀ f : Field, f.get d = f.get d')
    (hcompatible : d.compatibleDevices = d'.compatibleDevices)
    (hdrivers : d.drivers = d'.drivers) (hproperties : d.properties = d'.properties)
    (h : SameReport i d) : SameReport i d' := by
  refine ⟨fun f => (h.field f).trans (hfield f), h.compatibleDevices.trans hcompatible,
    h.drivers.trans hdrivers,
    fun name => (h.getDriver name).trans ?_, fun key => (h.getProperty key).trans ?_⟩
  · rw [DeviceInfo.getDriver, DeviceInfo.getDriver, hdrivers]
  · rw [DeviceInfo.getProperty, DeviceInfo.getProperty, hproperties]

theorem loadFromString_eq {plist : Text} {dict : List (Text × pbx.Value)}
    (hparse : pbx.parse plist = some dict) (info : DeviceInfo) :
    info.loadFromString pbx plist =
      { (reading pbx dict).apply info with valid := (reading pbx dict).ended } := by
  rw [DeviceInfo.loadFromString, hparse]
  simp only [parsePlistDictionary_eq]

/-- **One load** leaves no mixture exactly if it does no harm. -/
theorem reloads_iff {info : DeviceInfo} {plist : Text} :
    Reloads pbx info plist ↔ Harmless pbx info plist := by
  rw [Reloads, Harmless]
  cases hparse : pbx.parse plist with
  | none =>
    have hload : info.loadFromString pbx plist = { info with valid := false } := by
      rw [DeviceInfo.loadFromString, hparse]
    rw [hload, if_neg Bool.false_ne_true]
    exact iff_of_true (.inl (sameReport_valid.2 (SameReport.refl info))) (by rintro dict ⟨⟩)
  | some dict =>
    simp only [loadFromString_eq hparse, Option.some.injEq, forall_eq', exists_eq_left',
      sameReport_valid]
    cases hended : (reading pbx dict).ended with
    | true =>
      simp only [if_true]
      constructor
      · rintro ⟨d, hd, hsame⟩
        obtain ⟨hreadable, hfield, hcompatible, hdrivers, hproperties⟩ := (defines_iff hended).1 hd
        exact ⟨hreadable, (Reading.sameReport_apply_iff _ _).1
          (sameReport_valid.1 (hsame.congr_right hfield hcompatible hdrivers hproperties))⟩
      · rintro ⟨hreadable, hover⟩
        refine ⟨(reading pbx dict).apply {},
          (defines_iff hended).2 ⟨hreadable, fun _ => rfl, rfl, rfl, rfl⟩, ?_⟩
        exact sameReport_valid.2 ((Reading.sameReport_apply_iff _ _).2 hover)
    | false =>
      have hinvalid : DeviceInfo.isValid { (reading pbx dict).apply info with valid := false } =
        false := rfl
      simp only [if_neg Bool.false_ne_true, hinvalid, true_and]
      have hself : SameReport { (reading pbx dict).apply info with valid := false } info ↔
        Repeated (reading pbx dict) info :=
        (sameReport_valid (w := info.valid)).trans (sameReport_self_iff hended)
      rw [hself, Reading.sameReport_apply_iff]

/-- **The information is that of the last load**, throughout a run of loads, exactly if each does
    no harm. -/
theorem reloads_run (pbx : PlistDecoder) (log : List Text) :
    Meets (DeviceInfo.loadFromString pbx) (Reloads pbx) {} log ↔
    Meets (DeviceInfo.loadFromString pbx) (Harmless pbx) {} log :=
  meets_iff_meets (I := fun _ => True) (A := fun _ _ => True) (fun _ _ _ _ => reloads_iff)
    (fun _ _ _ _ _ => trivial)
    trivial (meets_const.2 fun _ _ => trivial)

end

/-- A decoder for the names of devices that have a driver for each letter.  One with an
    exclamation mark has a model that is not a text. -/
def letters : PlistDecoder where
  Value := Bool × Text
  parse := fun t => some [("CFBundleName".toList, (false, t)),
    ("DeviceModel".toList, (t.contains '!', [])),
    ("Drivers".toList, (true, t))]
  type := fun v => if v.1 then .dictionary else .string
  stringValue := fun v => if v.1 then none else some v.2
  arrayValue := fun _ => none
  dictionaryValue := fun v => if v.1 then some (v.2.eraseDups.map fun c => ([c], (false, [])))
    else none

/-- A device that is loaded over another has the drivers of both, and one that cannot be loaded
    has left its name with the drivers of the other. -/
theorem drivers_of_both :
    (let info := (({} : DeviceInfo).loadFromString letters ['a']).loadFromString letters ['b']
     info.valid = true ∧ info.deviceName = ['b'] ∧ info.drivers.map (·.name) = [['a'], ['b']]) ∧
    ¬ Meets (DeviceInfo.loadFromString letters) (Reloads letters) {} [['a'], ['b']] ∧
    (let info := (({} : DeviceInfo).loadFromString letters ['a']).loadFromString letters ['!']
     info.valid = false ∧ info.deviceName = ['!'] ∧ info.drivers.map (·.name) = [['a']]) ∧
    ¬ Meets (DeviceInfo.loadFromString letters) (Reloads letters) {} [['a'], ['!']] := by
  refine ⟨by decide, ?_, by decide, ?_⟩
  · rintro ⟨-, h, -⟩
    have hharmless := reloads_iff.1 h _ rfl
    rw [if_pos (by decide)] at hharmless
    exact absurd hharmless.2.drivers (by decide)
  · rintro ⟨-, h, -⟩
    have hharmless := reloads_iff.1 h _ rfl
    rw [if_neg (by decide)] at hharmless
    rcases hharmless with hrepeated | hover
    · exact absurd (hrepeated.field .deviceName) (by decide)
    · exact absurd hover.drivers (by decide)

end PocketDarwin.DeviceBundle
