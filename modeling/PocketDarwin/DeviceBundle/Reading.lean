/-
  What `DeviceInfo::loadFromString` reads of a property list.

  It goes from one key to the next, up to the first value that throws; among the drivers and
  the properties it only ends the one or the other.  What there is to read does not depend on
  what the object has.

  * `forEach_eq`: a loop that may throw, by what it reads and what it does with it.
  * `parsePlistDictionary_eq`: what is read is put over what there is.
-/
import PocketDarwin.DeviceBundle.Bundle

namespace PocketDarwin.DeviceBundle

/-! ## Reading until something throws -/

@[simp] theorem Thrown.next_ok {α : Type} (a : α) (f : α → Thrown α) :
    Thrown.next (a, true) f = f a := rfl

@[simp] theorem Thrown.next_thrown {α : Type} (a : α) (f : α → Thrown α) :
    Thrown.next (a, false) f = (a, false) := rfl

/-- What the elements give up to the first that throws, and whether none does. -/
def collect {β γ : Type} (g : β → Option γ) : List β → List γ × Bool
  | [] => ([], true)
  | b :: l =>
    match g b with
    | none => ([], false)
    | some c => (c :: (collect g l).1, (collect g l).2)

section
variable {α β γ : Type} {g : β → Option γ} {l : List β}

theorem collect_eq_iff {r : List γ} : collect g l = (r, true) ↔ l.mapM g = some r := by
  induction l generalizing r with
  | nil => simp [collect]
  | cons b l ih =>
    rw [collect, List.mapM_cons]
    cases g b with
    | none => simp
    | some c =>
      simp only [Option.bind_eq_bind, Option.bind_some, Option.pure_def, Option.bind_eq_some_iff,
        Option.some.injEq,
        ← ih, Prod.mk.injEq]
      constructor
      · rintro ⟨rfl, hl⟩
        exact ⟨_, Prod.ext rfl hl, rfl⟩
      · rintro ⟨r', hr', rfl⟩
        rw [hr']
        exact ⟨rfl, rfl⟩

/-- **A loop that may throw**, by what it reads and what it does with it. -/
theorem forEach_eq {f : α → β → Thrown α} {h : α → γ → α}
    (hf : ∀ a b, f a b = match g b with | none => (a, false) | some c => (h a c, true)) (a : α) :
    forEach l f a = ((collect g l).1.foldl h a, (collect g l).2) := by
  have hstop : ∀ (l : List β) (a : α), l.foldl (fun (x : Thrown α) b => x.next fun a => f a b)
      (a, false) = (a, false) := by
    intro l a
    induction l with
    | nil => rfl
    | cons b l ih => exact ih
  unfold forEach
  induction l generalizing a with
  | nil => rfl
  | cons b l ih =>
    rw [List.foldl_cons, collect, Thrown.next, if_pos rfl, hf]
    cases g b with
    | none => exact hstop l a
    | some c => exact ih (h a c)

end

/-! ## What a property list has -/

/-- The members that are single texts. -/
inductive Field where
  | deviceName | deviceModel | deviceManufacturer | deviceVersion | deviceArch | dtsPath
deriving DecidableEq

namespace Field

/-- In the order of `_parsePlistDictionary`. -/
def all : List Field := [deviceName, deviceModel, deviceManufacturer, deviceVersion, deviceArch,
  dtsPath]

def key : Field → String
  | deviceName => "CFBundleName"
  | deviceModel => "DeviceModel"
  | deviceManufacturer => "DeviceManufacturer"
  | deviceVersion => "CFBundleVersion"
  | deviceArch => "DeviceArch"
  | dtsPath => "DeviceTreeSource"

def get : Field → DeviceInfo → Text
  | deviceName => DeviceInfo.deviceName
  | deviceModel => DeviceInfo.deviceModel
  | deviceManufacturer => DeviceInfo.deviceManufacturer
  | deviceVersion => DeviceInfo.deviceVersion
  | deviceArch => DeviceInfo.deviceArch
  | dtsPath => DeviceInfo.dtsPath

theorem mem_all (f : Field) : f ∈ all := by cases f <;> decide

end Field

section
variable (pbx : PlistDecoder) (dict : List (Text × pbx.Value))

/-- The text under a key, which may be missing. -/
def textUnder (key : String) : Option (Option Text) :=
  match pbx.find dict key.toList with
  | none => some none
  | some v => (pbx.stringValue v).map some

/-- The text of a field, if those before it can be read. -/
def fieldText (f : Field) : Option Text :=
  if (Field.all.takeWhile (· ≠ f)).all fun g => (textUnder pbx dict g.key).isSome
    then (textUnder pbx dict f.key).join else none

def fieldsEnd : Bool := Field.all.all fun f => (textUnder pbx dict f.key).isSome

/-- The compatible devices, up to the first that throws. -/
def compatibleUnder : List Text × Bool :=
  match pbx.find dict "CompatibleDevices".toList with
  | none => ([], true)
  | some v =>
    if pbx.type v = .array then
      match pbx.arrayValue v with
      | none => ([], false)
      | some items => collect pbx.stringValue items
    else ([], true)

/-- The entries of the dictionary under a key, up to the first that throws. -/
def entriesUnder {γ : Type} (g : Text × pbx.Value → Option γ) (key : String) : List γ × Bool :=
  match subDictionary pbx dict key with
  | none => ([], true)
  | some none => ([], false)
  | some (some entries) => collect g entries

def propertyOf (e : Text × pbx.Value) : Option (Text × Text) :=
  (pbx.stringValue e.2).map fun t => (e.1, t)

def addAll (m : Properties) (l : List (Text × Text)) : Properties :=
  l.foldl (fun m e => m.addProperty e.1 e.2) m

/-- The driver that an entry defines. -/
def driverOf (e : Text × pbx.Value) : Option DriverInfo :=
  if pbx.type e.2 = .dictionary then
    match pbx.dictionaryValue e.2 with
    | none => none
    | some dict =>
      match textUnder pbx dict "Path", textUnder pbx dict "Version",
        entriesUnder pbx dict (propertyOf pbx) "Properties" with
      | some path, some version, (l, true) =>
        some { name := e.1, path := path.getD [], version := version.getD [], properties :=
          addAll .empty l }
      | _, _, _ => none
  else some { name := e.1 }

end

section
variable {pbx : PlistDecoder}

theorem assignProperties_eq (l : List (Text × pbx.Value)) (m : Properties) :
    assignProperties pbx l m = (addAll m (collect (propertyOf pbx) l).1,
      (collect (propertyOf pbx) l).2) := by
  refine forEach_eq (fun m e => ?_) m
  unfold propertyOf
  cases pbx.stringValue e.2 <;> rfl

theorem assignString_eq {α : Type} (dict : List (Text × pbx.Value)) (key : String)
    (set : Text → α → α) (a : α) :
    assignString pbx dict key set a =
      match textUnder pbx dict key with
      | none => (a, false)
      | some t => (t.elim a fun t => set t a, true) := by
  unfold assignString textUnder
  cases pbx.find dict key.toList with
  | none => rfl
  | some v => cases hv : pbx.stringValue v <;> simp [hv]

/-- The same, of a member that is read and set. -/
theorem assignString_get {α : Type} (dict : List (Text × pbx.Value)) (key : String) (get : α → Text)
    {set : Text → α → α}
    (hset : ∀ a, set (get a) a = a) :
    assignString pbx dict key set =
      fun a => (set ((textUnder pbx dict key).join.getD (get a)) a, (textUnder pbx dict key).isSome) := by
  funext a
  rw [assignString_eq]
  rcases textUnder pbx dict key with - | - | t
  · exact Prod.ext (hset a).symm rfl
  · exact Prod.ext (hset a).symm rfl
  · rfl

theorem extractDriver_eq (drivers : List DriverInfo) (e : Text × pbx.Value) :
    extractDriver pbx drivers e =
      match driverOf pbx e with
      | none => (drivers, false)
      | some d => (drivers ++ [d], true) := by
  unfold extractDriver driverOf
  by_cases htype : pbx.type e.2 = .dictionary
  · simp only [if_pos htype]
    cases pbx.dictionaryValue e.2 with
    | none => rfl
    | some dict =>
      simp only [entriesUnder]
      cases hpath : textUnder pbx dict "Path" with
      | none => simp [Thrown.next, assignString_eq, hpath]
      | some path =>
        cases hversion : textUnder pbx dict "Version" with
        | none => simp [Thrown.next, assignString_eq, hpath, hversion]
        | some version =>
          rcases hprops : subDictionary pbx dict "Properties" with - | - | props
          · cases path <;> cases version <;> simp [Thrown.next, assignString_eq, hpath,
              hversion, addAll]
          · simp [Thrown.next, assignString_eq, hpath, hversion]
          · rcases hread : collect (propertyOf pbx) props with ⟨l, - | -⟩
            · simp [Thrown.next, assignString_eq, hpath, hversion, assignProperties_eq, hread]
            · cases path <;> cases version <;>
                simp [Thrown.next, assignString_eq, hpath, hversion, assignProperties_eq, hread]
  · simp only [if_neg htype]
    rfl

end

/-! ## One load -/

/-- What there is to read in a plist, up to the first that throws. -/
structure Reading where
  fields : Field → Option Text
  compatible : List Text
  drivers : List DriverInfo
  properties : List (Text × Text)
  ended : Bool

/-- What throws among the drivers or the properties is caught, and does not end the reading. -/
def reading (pbx : PlistDecoder) (dict : List (Text × pbx.Value)) : Reading :=
  let compatible := if fieldsEnd pbx dict then compatibleUnder pbx dict else ([], false)
  { fields := fieldText pbx dict
    compatible := compatible.1
    drivers := if compatible.2 then (entriesUnder pbx dict (driverOf pbx) "Drivers").1 else []
    properties := if compatible.2 then (entriesUnder pbx dict (propertyOf pbx) "DeviceProperties").1 else []
    ended := compatible.2 }

/-- What a load makes of the information that there is. -/
def Reading.apply (r : Reading) (info : DeviceInfo) : DeviceInfo :=
  { deviceName := (r.fields .deviceName).getD info.deviceName
    deviceModel := (r.fields .deviceModel).getD info.deviceModel
    deviceManufacturer := (r.fields .deviceManufacturer).getD info.deviceManufacturer
    deviceVersion := (r.fields .deviceVersion).getD info.deviceVersion
    deviceArch := (r.fields .deviceArch).getD info.deviceArch
    dtsPath := (r.fields .dtsPath).getD info.dtsPath
    compatibleDevices := info.compatibleDevices ++ r.compatible
    drivers := info.drivers ++ r.drivers
    properties := addAll info.properties r.properties
    valid := info.valid }

section
variable {pbx : PlistDecoder}

/-- The fields of `_parsePlistDictionary`. -/
theorem assignFields_eq (dict : List (Text × pbx.Value)) (info : DeviceInfo) :
    (((((assignString pbx dict "CFBundleName" (fun t i => { i with deviceName := t }) info).next
      (assignString pbx dict "DeviceModel" fun t i => { i with deviceModel := t })).next
      (assignString pbx dict "DeviceManufacturer" fun t i =>
        { i with deviceManufacturer := t })).next
      (assignString pbx dict "CFBundleVersion" fun t i => { i with deviceVersion := t })).next
      (assignString pbx dict "DeviceArch" fun t i => { i with deviceArch := t })).next
      (assignString pbx dict "DeviceTreeSource" fun t i => { i with dtsPath := t }) =
    (({ reading pbx dict with compatible := [], drivers := [], properties := [] } : Reading).apply info,
      fieldsEnd pbx dict) := by
  rw [assignString_get dict "CFBundleName" DeviceInfo.deviceName fun _ => rfl,
    assignString_get dict "DeviceModel" DeviceInfo.deviceModel fun _ => rfl,
    assignString_get dict "DeviceManufacturer" DeviceInfo.deviceManufacturer fun _ => rfl,
    assignString_get dict "CFBundleVersion" DeviceInfo.deviceVersion fun _ => rfl,
    assignString_get dict "DeviceArch" DeviceInfo.deviceArch fun _ => rfl,
    assignString_get dict "DeviceTreeSource" DeviceInfo.dtsPath fun _ => rfl]
  simp only [reading, Reading.apply, fieldsEnd, fieldText, Field.all, Field.key, addAll,
    List.foldl_nil, List.all_cons, List.all_nil]
  -- up to the first that throws
  cases hname : textUnder pbx dict "CFBundleName" with
  | none => simp [hname]
  | some name =>
    cases hmodel : textUnder pbx dict "DeviceModel" with
    | none => simp [hname, hmodel]
    | some model =>
      cases hmanufacturer : textUnder pbx dict "DeviceManufacturer" with
      | none => simp [hname, hmodel, hmanufacturer]
      | some manufacturer =>
        cases hversion : textUnder pbx dict "CFBundleVersion" with
        | none => simp [hname, hmodel, hmanufacturer, hversion]
        | some version =>
          cases harch : textUnder pbx dict "DeviceArch" with
          | none => simp [hname, hmodel, hmanufacturer, hversion, harch]
          | some arch => simp [hname, hmodel, hmanufacturer, hversion, harch]

theorem extractDrivers_eq (dict : List (Text × pbx.Value)) (info : DeviceInfo) :
    extractDrivers pbx dict info =
      { info with drivers := info.drivers ++ (entriesUnder pbx dict (driverOf pbx) "Drivers").1 } := by
  unfold extractDrivers entriesUnder
  rcases subDictionary pbx dict "Drivers" with - | - | drivers
  · simp
  · simp
  · have hread := forEach_eq (f := extractDriver pbx) (g := driverOf pbx)
      (h := fun ds d => ds ++ [d]) (l := drivers)
      (fun ds e => by rw [extractDriver_eq]; cases driverOf pbx e <;> rfl) info.drivers
    simp [hread, ← List.flatMap_def]

theorem extractProperties_eq (dict : List (Text × pbx.Value)) (info : DeviceInfo) :
    extractProperties pbx dict info =
      { info with properties := addAll info.properties (entriesUnder pbx dict
        (propertyOf pbx) "DeviceProperties").1 } := by
  unfold extractProperties entriesUnder
  rcases subDictionary pbx dict "DeviceProperties" with - | - | props
  · rfl
  · rfl
  · simp [assignProperties_eq]

theorem assignCompatible_eq (dict : List (Text × pbx.Value)) (info : DeviceInfo) :
    (match pbx.find dict "CompatibleDevices".toList with
    | none => (info, true)
    | some v =>
      if pbx.type v = .array then
        match pbx.arrayValue v with
        | none => (info, false)
        | some items => forEach items (fun i item => match pbx.stringValue item with
          | none => (i, false)
          | some t => ({ i with compatibleDevices := i.compatibleDevices ++ [t] }, true)) info
      else (info, true)) =
    ({ info with compatibleDevices := info.compatibleDevices ++ (compatibleUnder pbx dict).1 },
      (compatibleUnder pbx dict).2) := by
  unfold compatibleUnder
  cases pbx.find dict "CompatibleDevices".toList with
  | none => simp
  | some v =>
    by_cases htype : pbx.type v = .array
    · simp only [if_pos htype]
      cases pbx.arrayValue v with
      | none => simp
      | some items =>
        have hloop : ∀ (l : List Text) (i : DeviceInfo),
            l.foldl (fun i t => { i with compatibleDevices := i.compatibleDevices ++ [t] }) i =
              { i with compatibleDevices := i.compatibleDevices ++ l } := by
          intro l
          induction l with
          | nil => simp
          | cons t l ih => simp [ih]
        refine (forEach_eq (g := pbx.stringValue) (fun i item => ?_) info).trans
          (congrArg (·, _) (hloop _ info))
        cases pbx.stringValue item <;> rfl
    · simp [htype]

/-- **A plist** is read up to the first that throws, and what is read is put over what there is. -/
theorem parsePlistDictionary_eq (dict : List (Text × pbx.Value)) (info : DeviceInfo) :
    parsePlistDictionary pbx dict info = ((reading pbx dict).apply info, (reading pbx dict).ended) := by
  unfold parsePlistDictionary
  simp only [assignFields_eq]
  unfold reading
  cases fieldsEnd pbx dict with
  | false => simp [Reading.apply, addAll]
  | true =>
    simp only [Thrown.next_ok, if_true]
    refine (congrArg (Thrown.next · fun i => (extractProperties pbx dict
      (extractDrivers pbx dict i), true))
      (assignCompatible_eq dict _)).trans ?_
    simp only [extractDrivers_eq, extractProperties_eq]
    cases (compatibleUnder pbx dict).2 with
    | false => simp [Reading.apply, addAll]
    | true => simp [Reading.apply, addAll]

end

section
variable {pbx : PlistDecoder} {dict : List (Text × pbx.Value)}

/-- What has thrown has read no drivers and no properties. -/
theorem reading_of_not_ended (h : (reading pbx dict).ended = false) :
    (reading pbx dict).drivers = [] ∧ (reading pbx dict).properties = [] := by
  unfold reading at h ⊢
  simp only at h ⊢
  rw [h]
  exact ⟨rfl, rfl⟩

/-- What has not thrown has read everything but, maybe, the drivers and the properties. -/
theorem reading_of_ended (h : (reading pbx dict).ended = true) :
    (∀ f : Field, (textUnder pbx dict f.key).isSome ∧ (reading pbx dict).fields f =
      (textUnder pbx dict f.key).join) ∧
    compatibleUnder pbx dict = ((reading pbx dict).compatible, true) ∧
    (reading pbx dict).drivers = (entriesUnder pbx dict (driverOf pbx) "Drivers").1 ∧
    (reading pbx dict).properties = (entriesUnder pbx dict (propertyOf pbx) "DeviceProperties").1 := by
  unfold reading at h ⊢
  cases hfields : fieldsEnd pbx dict with
  | false => simp [hfields] at h
  | true =>
    simp only [hfields, if_true] at h ⊢
    rw [if_pos h, if_pos h]
    have hall : ∀ f : Field, (textUnder pbx dict f.key).isSome :=
      fun f => List.all_eq_true.1 hfields f f.mem_all
    refine ⟨fun f => ⟨hall f, ?_⟩, Prod.ext rfl h, rfl, rfl⟩
    rw [fieldText, if_pos (List.all_eq_true.2 fun g _ => hall g)]

end

end PocketDarwin.DeviceBundle
