/-
  Device bundles (`DeviceBundle.cpp`, `DeviceInfo.cpp`): a directory with an Info.plist.

  `loadBundle` scans the directory, reads the Info.plist and validates what it has; it returns
  early after each, and starts from what an earlier load has left.  Only `unloadBundle` clears
  a bundle.  The decoder of property lists is not part of the repository: it is a parameter, and
  may throw.

  * `foldl_add_eq_iff`: a scan ends with what it would have found for itself exactly if nothing was
    left, or what was left is replaced.
  * `bundle_run`: a bundle is what its last load makes of a new one, throughout a run of loads and
    unloads, exactly if each load is made on a bundle like that, and none fails on a valid one.
-/
import PocketDarwin.DeviceBundle.DeviceTree
import PocketDarwin.Runs

namespace PocketDarwin.DeviceBundle

/-! ## Device information -/

/-- `pbx::Value::Type`, as far as it is asked for. -/
inductive ValueType where
  | string | array | dictionary
deriving DecidableEq

/-- The decoder of property lists; what can throw is `none`. -/
structure PlistDecoder where
  Value : Type
  parse : Text → Option (List (Text × Value))
  type : Value → ValueType
  stringValue : Value → Option Text
  arrayValue : Value → Option (List Value)
  dictionaryValue : Value → Option (List (Text × Value))

structure DriverInfo where
  name : Text := []
  path : Text := []
  version : Text := []
  properties : Properties := .empty
deriving DecidableEq

structure DeviceInfo where
  deviceName : Text := []
  deviceModel : Text := []
  deviceManufacturer : Text := []
  deviceVersion : Text := []
  deviceArch : Text := []
  dtsPath : Text := []
  compatibleDevices : List Text := []
  drivers : List DriverInfo := []
  properties : Properties := .empty
  valid : Bool := false
deriving DecidableEq

section
variable (pbx : PlistDecoder)

/-- `dict.find(key)` -/
def PlistDecoder.find (dict : List (Text × pbx.Value)) (key : Text) : Option pbx.Value :=
  (dict.find? fun e => e.1 == key).map Prod.snd

/-- A computation that may throw: what is done up to then is done, and `false` says that it has thrown. -/
abbrev Thrown (α : Type) := α × Bool

/-- The next statement, unless one has thrown. -/
def Thrown.next {α : Type} (x : Thrown α) (f : α → Thrown α) : Thrown α := if x.2 then f x.1 else x

/-- A statement for each element. -/
def forEach {α β : Type} (l : List β) (f : α → β → Thrown α) (a : α) : Thrown α :=
  l.foldl (fun x b => x.next fun a => f a b) (a, true)

/-- `field = dict.find(key)->second.string_value()`, if there is the key. -/
def assignString {α : Type} (dict : List (Text × pbx.Value)) (key : String) (set : Text → α → α)
    (a : α) : Thrown α :=
  match pbx.find dict key.toList with
  | none => (a, true)
  | some v =>
    match pbx.stringValue v with
    | none => (a, false)
    | some t => (set t a, true)

/-- The properties of a dictionary. -/
def assignProperties (dict : List (Text × pbx.Value)) (m : Properties) : Thrown Properties :=
  forEach dict (fun m e => match pbx.stringValue e.2 with
    | none => (m, false)
    | some t => (m.addProperty e.1 t, true)) m

/-- A dictionary under a key of another; `none` if there is none, and `some none` if getting it throws. -/
def subDictionary (dict : List (Text × pbx.Value)) (key : String) :
    Option (Option (List (Text × pbx.Value))) :=
  match pbx.find dict key.toList with
  | none => none
  | some v => if pbx.type v = .dictionary then some (pbx.dictionaryValue v) else none

/-- The body of the loop of `_extractDrivers`. -/
def extractDriver (drivers : List DriverInfo) (e : Text × pbx.Value) : Thrown (List DriverInfo) :=
  let driver : DriverInfo := { name := e.1 }
  let x : Thrown DriverInfo :=
    if pbx.type e.2 = .dictionary then
      match pbx.dictionaryValue e.2 with
      | none => (driver, false)
      | some dict =>
        ((assignString pbx dict "Path" (fun t d => { d with path := t }) driver).next
          (assignString pbx dict "Version" fun t d => { d with version := t })).next fun d =>
            match subDictionary pbx dict "Properties" with
            | none => (d, true)
            | some none => (d, false)
            | some (some props) =>
              let y := assignProperties pbx props d.properties
              ({ d with properties := y.1 }, y.2)
    else (driver, true)
  if x.2 then (drivers ++ [x.1], true) else (drivers, false)

/-- What is thrown is caught: the drivers before it stay. -/
def extractDrivers (dict : List (Text × pbx.Value)) (info : DeviceInfo) : DeviceInfo :=
  match subDictionary pbx dict "Drivers" with
  | some (some drivers) =>
    { info with drivers := (forEach drivers (extractDriver pbx) info.drivers).1 }
  | _ => info

def extractProperties (dict : List (Text × pbx.Value)) (info : DeviceInfo) : DeviceInfo :=
  match subDictionary pbx dict "DeviceProperties" with
  | some (some props) => { info with properties := (assignProperties pbx props info.properties).1 }
  | _ => info

def parsePlistDictionary (dict : List (Text × pbx.Value)) (info : DeviceInfo) : Thrown DeviceInfo :=
  let x := assignString pbx dict "CFBundleName" (fun t i => { i with deviceName := t }) info
  let x := x.next (assignString pbx dict "DeviceModel" fun t i => { i with deviceModel := t })
  let x := x.next (assignString pbx dict "DeviceManufacturer" fun t i =>
    { i with deviceManufacturer := t })
  let x := x.next (assignString pbx dict "CFBundleVersion" fun t i => { i with deviceVersion := t })
  let x := x.next (assignString pbx dict "DeviceArch" fun t i => { i with deviceArch := t })
  let x := x.next (assignString pbx dict "DeviceTreeSource" fun t i => { i with dtsPath := t })
  let x := x.next fun i =>
    match pbx.find dict "CompatibleDevices".toList with
    | none => (i, true)
    | some v =>
      if pbx.type v = .array then
        match pbx.arrayValue v with
        | none => (i, false)
        | some items => forEach items (fun i item => match pbx.stringValue item with
          | none => (i, false)
          | some t => ({ i with compatibleDevices := i.compatibleDevices ++ [t] }, true)) i
      else (i, true)
  x.next fun i => (extractProperties pbx dict (extractDrivers pbx dict i), true)

namespace DeviceInfo

def loadFromString (info : DeviceInfo) (plistContent : Text) : DeviceInfo :=
  match pbx.parse plistContent with
  | none => { info with valid := false }
  | some plist =>
    let x := parsePlistDictionary pbx plist info
    { x.1 with valid := x.2 }

/-- The constructor for a plist; `none` if it cannot be opened. -/
def new (plist : Option Text) : DeviceInfo :=
  match plist with
  | none => {}
  | some content => ({} : DeviceInfo).loadFromString pbx content

def isValid (info : DeviceInfo) : Bool := info.valid && !info.deviceName.isEmpty

end DeviceInfo

end

/-! ## Bundles -/

/-- What a scan finds: a regular file or something else. -/
structure Entry where
  isRegularFile : Bool
  filename : Text
  filepath : Text

/-- The files that there are when a bundle is loaded; what can throw is `none`. -/
structure Files where
  fileExists : Text → Option Bool
  isDirectory : Text → Option Bool
  /-- the entries in the order of the iterator, and whether it gets to the end without throwing -/
  list : Text → List Entry × Bool
  read : Text → Option Text

@[ext] structure BundleContents where
  infoPlist : Text := []
  dtsFile : Text := []
  configFile : Text := []
  drivers : List Text := []
  resources : List Text := []
deriving DecidableEq

structure Bundle where
  bundlePath : Text := []
  contents : BundleContents := {}
  deviceInfo : Option DeviceInfo := none
  configuration : Properties := .empty
  valid : Bool := false
deriving DecidableEq

def endsWith (str : Text) (suffix : String) : Bool := suffix.toList.isSuffixOf str

/-- What a file of a bundle is, by its name. -/
inductive Kind where
  | infoPlist | dtsFile | configFile | driver | resource
deriving DecidableEq

def kind (filename : Text) : Kind :=
  if filename = "Info.plist".toList then .infoPlist
  else if endsWith filename ".dts" || endsWith filename ".dtsi" then .dtsFile
  else if filename = "device.conf".toList ∨ filename = "config.plist".toList then .configFile
  else if endsWith filename ".so" || endsWith filename ".o" ||
      endsWith filename ".dylib" || endsWith filename ".dll" then
    .driver
  else .resource

/-- The body of the loop of `_scanBundleContents`. -/
def BundleContents.add (contents : BundleContents) (entry : Entry) : BundleContents :=
  if !entry.isRegularFile then contents
  else
    match kind entry.filename with
    | .infoPlist => { contents with infoPlist := entry.filepath }
    | .dtsFile => { contents with dtsFile := entry.filepath }
    | .configFile => { contents with configFile := entry.filepath }
    | .driver => { contents with drivers := contents.drivers ++ [entry.filepath] }
    | .resource => { contents with resources := contents.resources ++ [entry.filepath] }

namespace Bundle
variable (pbx : PlistDecoder)

def scanBundleContents (b : Bundle) (files : Files) : Bool × Bundle :=
  ((files.list b.bundlePath).2, { b with contents := (files.list b.bundlePath).1.foldl .add b.contents })

def loadInfoPlist (b : Bundle) (files : Files) : Bool × Bundle :=
  if b.contents.infoPlist = [] then (false, b)
  else
    let info := DeviceInfo.new pbx (files.read b.contents.infoPlist)
    (info.isValid, { b with deviceInfo := some info })

/-- A device tree source that is missing is only warned about. -/
def validateBundle (b : Bundle) : Bool :=
  match b.deviceInfo with
  | none => false
  | some info => info.isValid

/-- What is returned, or `none` if `exists` or `is_directory` throws, and the bundle after it. -/
def loadBundle (b : Bundle) (bundlePath : Text) (files : Files) : Option Bool × Bundle :=
  let b := { b with bundlePath }
  match files.fileExists bundlePath with
  | none => (none, b)
  | some false => (some false, b)
  | some true =>
    match files.isDirectory bundlePath with
    | none => (none, b)
    | some false => (some false, b)
    | some true =>
      let (ok, b) := b.scanBundleContents files
      if !ok then (some false, b)
      else
        let (ok, b) := b.loadInfoPlist pbx files
        if !ok then (some false, b)
        else if !b.validateBundle then (some false, b)
        else (some true, { b with valid := true })

def unloadBundle (_ : Bundle) : Bundle := {}

end Bundle

/-! ## What a scan leaves -/

/-- There is a file of this kind. -/
def finds (k : Kind) (entries : List Entry) : Bool :=
  entries.any fun e => e.isRegularFile && kind e.filename == k

/-- What was left is replaced by the scan, or there was nothing. -/
structure Replaced (contents : BundleContents) (entries : List Entry) : Prop where
  infoPlist : contents.infoPlist = [] ∨ finds .infoPlist entries = true
  dtsFile : contents.dtsFile = [] ∨ finds .dtsFile entries = true
  configFile : contents.configFile = [] ∨ finds .configFile entries = true
  drivers : contents.drivers = []
  resources : contents.resources = []

/-- A scan replaces single files, and adds to the others. -/
theorem foldl_add (entries : List Entry) (contents : BundleContents) :
    entries.foldl .add contents =
      { infoPlist := if finds .infoPlist entries
        then (entries.foldl .add {} : BundleContents).infoPlist else contents.infoPlist
        dtsFile := if finds .dtsFile entries then (entries.foldl .add {} : BundleContents).dtsFile
          else contents.dtsFile
        configFile := if finds .configFile entries
          then (entries.foldl .add {} : BundleContents).configFile
          else contents.configFile
        drivers := contents.drivers ++ (entries.foldl .add {} : BundleContents).drivers
        resources := contents.resources ++ (entries.foldl .add {} : BundleContents).resources } := by
  induction entries using List.reverseRecOn with
  | nil => simp [finds]
  | append_singleton entries e ih =>
    rw [List.foldl_append, List.foldl_append, List.foldl_cons, List.foldl_cons, List.foldl_nil,
      List.foldl_nil, ih]
    cases hregular : e.isRegularFile with
    | false => simp [BundleContents.add, finds, hregular]
    | true => cases hkind : kind e.filename <;> simp [BundleContents.add, finds, hregular, hkind]

theorem foldl_add_eq_iff {entries : List Entry} {contents : BundleContents} :
    entries.foldl .add contents = (entries.foldl .add {} : BundleContents) ↔
    Replaced contents entries := by
  -- what is not found is not there
  have hsingle : ∀ {p q : Text} {found : Bool}, (found = false → q = []) →
      ((if found then q else p) = q ↔ p = [] ∨ found = true) := by
    intro p q found h
    cases found with
    | false => simp [h rfl]
    | true => simp
  have hnone := foldl_add entries {}
  have hinfo : finds .infoPlist entries = false →
      (entries.foldl .add {} : BundleContents).infoPlist = [] := by
    intro h
    rw [hnone]
    simp [h]
  have hdts : finds .dtsFile entries = false →
      (entries.foldl .add {} : BundleContents).dtsFile = [] := by
    intro h
    rw [hnone]
    simp [h]
  have hconfig : finds .configFile entries = false →
      (entries.foldl .add {} : BundleContents).configFile = [] := by
    intro h
    rw [hnone]
    simp [h]
  rw [foldl_add entries contents, BundleContents.ext_iff, hsingle hinfo, hsingle hdts,
    hsingle hconfig,
    List.append_left_eq_self, List.append_left_eq_self]
  exact ⟨fun ⟨h₁, h₂, h₃, h₄, h₅⟩ => ⟨h₁, h₂, h₃, h₄, h₅⟩,
    fun ⟨h₁, h₂, h₃, h₄, h₅⟩ => ⟨h₁, h₂, h₃, h₄, h₅⟩⟩

/-! ## Loads -/

/-- The entries that a load scans: none if the path is not a directory. -/
def scanned (bundlePath : Text) (files : Files) : List Entry :=
  if files.fileExists bundlePath = some true ∧ files.isDirectory bundlePath = some true
    then (files.list bundlePath).1 else []

section
variable (pbx : PlistDecoder)

/-- The directory can be scanned, and has an Info.plist that describes a device. -/
def Loadable (bundlePath : Text) (files : Files) (contents : BundleContents) : Prop :=
  files.fileExists bundlePath = some true ∧ files.isDirectory bundlePath = some true ∧
  (files.list bundlePath).2 = true ∧
    contents.infoPlist ≠ [] ∧ (DeviceInfo.new pbx (files.read contents.infoPlist)).isValid = true

/-- What is left of earlier loads does not matter for this one, and it does not fail on a bundle that is valid. -/
def Clean (b : Bundle) (bundlePath : Text) (files : Files) : Prop :=
  Replaced b.contents (scanned bundlePath files) ∧
    (b.valid = true → Loadable pbx bundlePath files ((scanned bundlePath files).foldl .add {}))

variable {pbx} {b : Bundle} {bundlePath : Text} {files : Files}

/-- A path that is not a directory. -/
theorem loadBundle_of_not_directory (pbx : PlistDecoder) (b : Bundle)
    (h : ¬ (files.fileExists bundlePath = some true ∧ files.isDirectory bundlePath = some true)) :
    (b.loadBundle pbx bundlePath files).1 ≠ some true ∧ (b.loadBundle pbx bundlePath files).2 =
      { b with bundlePath } := by
  rcases hexists : files.fileExists bundlePath with - | - | -
  · simp [Bundle.loadBundle, hexists]
  · simp [Bundle.loadBundle, hexists]
  · rcases hdir : files.isDirectory bundlePath with - | - | -
    · simp [Bundle.loadBundle, hexists, hdir]
    · simp [Bundle.loadBundle, hexists, hdir]
    · exact absurd ⟨hexists, hdir⟩ h

/-- **A load**: it scans the directory, and succeeds if what it has then is enough. -/
theorem loadBundle_spec (pbx : PlistDecoder) (b : Bundle) (bundlePath : Text) (files : Files)
    {contents : BundleContents}
    (hcontents : (scanned bundlePath files).foldl .add b.contents = contents) :
    (b.loadBundle pbx bundlePath files).2.contents = contents ∧
    ((b.loadBundle pbx bundlePath files).1 = some true ↔ Loadable pbx bundlePath files contents) ∧
    ((b.loadBundle pbx bundlePath files).2.valid = true ↔
      b.valid = true ∨ (b.loadBundle pbx bundlePath files).1 = some true) ∧
    ((b.loadBundle pbx bundlePath files).1 = some true →
      (b.loadBundle pbx bundlePath files).2.deviceInfo = some (DeviceInfo.new pbx (files.read contents.infoPlist))) := by
  by_cases hdir : files.fileExists bundlePath = some true ∧ files.isDirectory bundlePath = some true
  · obtain ⟨hexists, hdir⟩ := hdir
    rw [scanned, if_pos ⟨hexists, hdir⟩] at hcontents
    rw [Loadable]
    cases hscan : (files.list bundlePath).2 with
    | false => simp [Bundle.loadBundle, Bundle.scanBundleContents, hexists, hdir, hscan, hcontents]
    | true =>
      by_cases hplist : contents.infoPlist = []
      · simp [Bundle.loadBundle, Bundle.scanBundleContents, Bundle.loadInfoPlist, hexists, hdir, hscan, hcontents, hplist]
      · cases hvalid : (DeviceInfo.new pbx (files.read contents.infoPlist)).isValid <;>
          simp [Bundle.loadBundle, Bundle.scanBundleContents, Bundle.loadInfoPlist,
            Bundle.validateBundle, hexists, hdir, hscan,
            hcontents, hplist, hvalid]
  · obtain ⟨hfail, heq⟩ := loadBundle_of_not_directory pbx b hdir
    rw [scanned, if_neg hdir, List.foldl_nil] at hcontents
    refine ⟨?_, iff_of_false hfail fun h => hdir ⟨h.1, h.2.1⟩, ?_, fun h => absurd h hfail⟩
    · rw [heq, ← hcontents]
    · rw [heq, or_iff_left hfail]

/-- What a bundle has to be after a load: what the load makes of a new bundle. -/
def AsNew (pbx : PlistDecoder) (b : Bundle) (bundlePath : Text) (files : Files)
    (result : Option Bool) : Prop :=
  (b.valid = true ↔ result = some true) ∧
  b.contents = (({} : Bundle).loadBundle pbx bundlePath files).2.contents ∧
    (result = some true → b.deviceInfo =
      (({} : Bundle).loadBundle pbx bundlePath files).2.deviceInfo ∧
      b.valid = (({} : Bundle).loadBundle pbx bundlePath files).2.valid)

/-- **One load** leaves what it makes of a new bundle exactly if nothing of the bundle before it matters. -/
theorem asNew_loadBundle_iff :
    AsNew pbx (b.loadBundle pbx bundlePath files).2 bundlePath files
      (b.loadBundle pbx bundlePath files).1 ↔
      Clean pbx b bundlePath files := by
  obtain ⟨hcontents, hresult, hvalid, hinfo⟩ := loadBundle_spec pbx b bundlePath files rfl
  obtain ⟨hcontents', hresult', hvalid', hinfo'⟩ := loadBundle_spec pbx {} bundlePath files rfl
  rw [AsNew, Clean, hcontents, hcontents', hvalid, foldl_add_eq_iff]
  constructor
  · rintro ⟨hiff, hreplaced, -⟩
    refine ⟨hreplaced, fun hb => ?_⟩
    rw [← foldl_add_eq_iff.2 hreplaced]
    exact hresult.1 (hiff.1 (.inl hb))
  · rintro ⟨hreplaced, hloads⟩
    have hsame := foldl_add_eq_iff.2 hreplaced
    rw [hsame] at hresult hinfo
    refine ⟨⟨fun h => h.elim (fun hb => hresult.2 (hloads hb)) id, .inr⟩, hreplaced,
      fun hok => ⟨?_, ?_⟩⟩
    · rw [hinfo hok, hinfo' (hresult'.2 (hresult.1 hok))]
    · rw [hvalid.2 (.inr hok), hvalid'.2 (.inr (hresult'.2 (hresult.1 hok)))]

end

/-! ## Runs -/

inductive Call where
  | load (bundlePath : Text) (files : Files)
  | unload

/-- The last call, and what it returned. -/
inductive Last where
  | none
  | load (bundlePath : Text) (files : Files) (result : Option Bool)
  | unload

section
variable (pbx : PlistDecoder)

def step (x : Bundle × Last) : Call → Bundle × Last
  | .load bundlePath files =>
    ((x.1.loadBundle pbx bundlePath files).2,
      .load bundlePath files (x.1.loadBundle pbx bundlePath files).1)
  | .unload => (x.1.unloadBundle, .unload)

/-- The bundle is that of the last load. -/
def Reflects (x : Bundle × Last) : Prop :=
  match x.2 with
  | .none | .unload => x.1.valid = false
  | .load bundlePath files result => AsNew pbx x.1 bundlePath files result

/-- A load finds nothing that matters. -/
def Tidy (x : Bundle × Last) : Call → Prop
  | .load bundlePath files => Clean pbx x.1 bundlePath files
  | .unload => True

/-- **A bundle is that of its last load**, throughout a run, exactly if what it was before does not matter for any of the
    loads.  A bundle that is not made from a path starts with a validity that was never set. -/
theorem bundle_run (unset : Bool) (log : List Call) :
    Always (step pbx) (Reflects pbx) ({ valid := unset }, .none) log ↔
      unset = false ∧ Meets (step pbx) (Tidy pbx) ({ valid := unset }, .none) log := by
  have hiff : unset = false → (Always (step pbx) (Reflects pbx) ({ valid := unset }, .none) log ↔
      Meets (step pbx) (Tidy pbx) ({ valid := unset }, .none) log) := by
    intro hunset
    refine always_iff_meets (I := fun _ => True) (A := fun _ _ => True) (fun _ _ _ _ => trivial)
      ?_ trivial hunset
      (meets_const.2 fun _ _ => trivial)
    rintro ⟨b, last⟩ call - - -
    cases call with
    | load bundlePath files => exact asNew_loadBundle_iff
    | unload => exact iff_of_true rfl trivial
  constructor
  · intro h
    have hunset : unset = false := h.head
    exact ⟨hunset, (hiff hunset).1 h⟩
  · rintro ⟨hunset, h⟩
    exact (hiff hunset).2 h

end

/-- A decoder for property lists that are the name of a device. -/
def nameOnly : PlistDecoder where
  Value := Text
  parse := fun t => some [("CFBundleName".toList, t)]
  type := fun _ => .string
  stringValue := some
  arrayValue := fun _ => none
  dictionaryValue := fun _ => none

/-- A directory with an Info.plist and a driver. -/
def phone : Files where
  fileExists := fun _ => some true
  isDirectory := fun _ => some true
  list := fun _ => ([⟨true, "Info.plist".toList, "a/Info.plist".toList⟩,
    ⟨true, "x.so".toList, "a/x.so".toList⟩], true)
  read := fun _ => some "Phone".toList

/-- No file at all. -/
def nothing : Files := ⟨fun _ => some false, fun _ => some false, fun _ => ([], true),
  fun _ => none⟩

/-- A bundle is loaded, and then one that does not exist: it is valid all the same, with the driver of the first.  And a
    bundle that is loaded twice has its driver twice. -/
theorem stale_bundle :
    (let b := (({} : Bundle).loadBundle nameOnly "a".toList phone).2
     (b.loadBundle nameOnly "b".toList nothing).1 = some false ∧
     (b.loadBundle nameOnly "b".toList nothing).2.valid = true ∧
     (b.loadBundle nameOnly "b".toList nothing).2.contents.drivers = ["a/x.so".toList]) ∧
    let b := (({} : Bundle).loadBundle nameOnly "a".toList phone).2
    (b.loadBundle nameOnly "a".toList phone).1 = some true ∧
    (b.loadBundle nameOnly "a".toList phone).2.contents.drivers = ["a/x.so".toList, "a/x.so".toList] := by
  decide

end PocketDarwin.DeviceBundle
