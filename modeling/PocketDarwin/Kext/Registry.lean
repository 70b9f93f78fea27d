/-
  The registry of `GNUKextRegistry.m`: entries with a name, properties, a list of
  children, a parent and a cached path.

  Entries are numbered as they are allocated, the root entry first.  An entry is not
  deallocated while a call can still name it, so there is no operation that takes one
  away; `retain` and `release` have no counterpart here.
-/
import PocketDarwin.Kext.Plist
import Mathlib.Logic.Function.Basic

namespace PocketDarwin.Kext

/-- A pointer to an entry that is not nil. -/
abbrev EntryRef := ℕ

/-- `GNUKextRegistryEntry` -/
structure Entry where
  name : Option Text
  properties : Dictionary Object
  childEntries : List EntryRef
  parentEntry : Option EntryRef
  entryPath : Option Text

/-- The entries below `count` have been allocated. -/
structure Registry where
  count : ℕ
  entry : EntryRef → Entry

/-- `_rootEntry` -/
def rootEntry : EntryRef := 0

namespace Registry

/-- An assignment to instance variables of the entry `e`. -/
def modify (r : Registry) (e : EntryRef) (f : Entry → Entry) : Registry :=
  { r with entry := Function.update r.entry e (f (r.entry e)) }

/-- `initWithName:parent:`, of a new entry -/
def initWithNameParent (r : Registry) (name : Option Text) (parent : Option EntryRef) : Registry where
  count := r.count + 1
  entry := Function.update r.entry r.count ⟨name, [], [], parent, none⟩

/-- `initWithName:`, of a new entry -/
def initWithName (r : Registry) (name : Option Text) : Registry := r.initWithNameParent name (some rootEntry)

/-- `+initialize`: the root entry, made when `_rootEntry` was still nil. -/
def initial : Registry :=
  initWithNameParent ⟨0, fun _ => ⟨none, [], [], none, none⟩⟩ (some ['r', 'o', 'o', 't']) none

/-- `addChild:` -/
def addChild (r : Registry) (self : EntryRef) : Option EntryRef → Registry
  | none => r
  | some child =>
    if (r.entry self).childEntries.any fun existing =>
        isEqualToString (r.entry existing).name (r.entry child).name then r
    else
      (r.modify child fun e => { e with parentEntry := some self, entryPath := none }).modify self
        fun e => { e with childEntries := e.childEntries ++ [child] }

/-- `removeChild:` -/
def removeChild (r : Registry) (self : EntryRef) : Option EntryRef → Registry
  | none => r
  | some child =>
    (r.modify self fun e => { e with childEntries := e.childEntries.filter (· ≠ child) }).modify child
      fun e => { e with parentEntry := none, entryPath := none }

/-- `childWithName:` -/
def childWithName (r : Registry) (self : EntryRef) (name : Option Text) : Option EntryRef :=
  if name = none then none
  else (r.entry self).childEntries.find? fun child => isEqualToString (r.entry child).name name

/-- The loop of `+entryWithPath:` over the components that are left. -/
def descend (r : Registry) (current : EntryRef) : List Text → Registry × EntryRef
  | [] => (r, current)
  | component :: components =>
    if component.length = 0 then r.descend current components
    else match r.childWithName current (some component) with
      | some child => r.descend child components
      | none =>
        let child := r.count
        ((r.initWithNameParent (some component) (some current)).addChild current (some child)).descend child
          components

/-- `+entryWithPath:` -/
def entryWithPath (r : Registry) : Option Text → Registry × Option EntryRef
  | none => (r, none)
  | some path =>
    let (r, current) := r.descend rootEntry (path.splitOn '/')
    (r, some current)

/-- The loop of `entryPath`.  It follows the parents and may never end; `fuel` bounds its rounds,
    and `none` is a loop that has not ended within them. -/
def pathParts (r : Registry) : ℕ → Option EntryRef → List Text → Option (List Text)
  | _, none, parts => some parts
  | fuel, some current, parts =>
    match (r.entry current).name, fuel with
    | none, _ => some parts
    | some _, 0 => none
    | some name, fuel + 1 => r.pathParts fuel (r.entry current).parentEntry (name :: parts)

/-- `[parts componentsJoinedByString:@"/"]` -/
def componentsJoined (parts : List Text) : Text := ['/'].intercalate parts

/-- `entryPath`, which fills the cache: the registry after it, and the path. -/
def entryPath (r : Registry) (fuel : ℕ) (self : EntryRef) : Option (Registry × Text) :=
  match (r.entry self).entryPath with
  | some path => some (r, path)
  | none => (r.pathParts fuel (some self) []).map fun parts =>
    (r.modify self fun e => { e with entryPath := some (componentsJoined parts) }, componentsJoined parts)

/-- `propertyForKey:` -/
def propertyForKey (r : Registry) (self : EntryRef) : Option Text → Option Object
  | none => none
  | some key => (r.entry self).properties.objectForKey key

/-- `setProperty:forKey:`; `removePropertyForKey:` is this with a nil property -/
def setPropertyForKey (r : Registry) (self : EntryRef) (property : Option Object) : Option Text → Registry
  | none => r
  | some key => r.modify self fun e =>
    { e with
      properties := match property with
        | none => e.properties.removeObjectForKey key
        | some property => e.properties.setObjectForKey property key
      entryPath := none }

/-! ## Runs -/

/-- A call. -/
inductive Call where
  /-- `initWithName:parent:` -/
  | create (name : Option Text) (parent : Option EntryRef)
  | addChild (self : EntryRef) (child : Option EntryRef)
  | removeChild (self : EntryRef) (child : Option EntryRef)
  | entryWithPath (path : Option Text)
  | entryPath (self : EntryRef)
  | setProperty (self : EntryRef) (property : Option Object) (key : Option Text)

/-- `+entryWithName:`, which calls `initWithName:` -/
def Call.entryWithName (name : Option Text) : Call := .create name (some rootEntry)

/-- A call names entries that exist. -/
def Call.Names (r : Registry) : Call → Prop
  | .create _ parent => ∀ p ∈ parent, p < r.count
  | .addChild self child => self < r.count ∧ ∀ c ∈ child, c < r.count
  | .removeChild self child => self < r.count ∧ ∀ c ∈ child, c < r.count
  | .entryWithPath _ => True
  | .entryPath self => self < r.count
  | .setProperty self _ _ => self < r.count

instance (r : Registry) : ∀ a : Call, Decidable (a.Names r)
  | .create _ parent => inferInstanceAs (Decidable (∀ p ∈ parent, p < r.count))
  | .addChild self child => inferInstanceAs (Decidable (self < r.count ∧ ∀ c ∈ child, c < r.count))
  | .removeChild self child => inferInstanceAs (Decidable (self < r.count ∧ ∀ c ∈ child, c < r.count))
  | .entryWithPath _ => isTrue trivial
  | .entryPath self => inferInstanceAs (Decidable (self < r.count))
  | .setProperty self _ _ => inferInstanceAs (Decidable (self < r.count))

/-- The registry after a call.  An `entryPath` that does not come to an end within as many rounds as
    there are entries never does (`entryPath_fuel`); the registry is then left as it is. -/
def call (r : Registry) : Call → Registry
  | .create name parent => r.initWithNameParent name parent
  | .addChild self child => r.addChild self child
  | .removeChild self child => r.removeChild self child
  | .entryWithPath path => (r.entryWithPath path).1
  | .entryPath self => ((r.entryPath r.count self).map Prod.fst).getD r
  | .setProperty self property key => r.setPropertyForKey self property key

end Registry

end PocketDarwin.Kext
