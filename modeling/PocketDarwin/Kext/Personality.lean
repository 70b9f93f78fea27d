/-
  `GNUKextPersonality.m`: which registry entries a personality matches.

  The values of a personality and of an entry can be objects of any class.  Where the
  code sends one of them a message that only strings understand, an object of another
  class raises an exception; matching is `none` then.
-/
import PocketDarwin.Kext.Registry

namespace PocketDarwin.Kext

/-- `[a isEqualToString:b]`, of objects that are declared as strings. -/
def Object.isEqualToString : Object → Object → Option Bool
  | .string s, .string t => some (s == t)
  | _, _ => none

/-- `GNUKextPersonality` -/
structure Personality where
  name : Text
  dictionary : Dictionary Object

namespace Personality

def keyIOProviderClass : Text := ['I', 'O', 'P', 'r', 'o', 'v', 'i', 'd', 'e', 'r', 'C', 'l', 'a', 's', 's']
def keyIOClass : Text := ['I', 'O', 'C', 'l', 'a', 's', 's']
def keyIOPropertyMatch : Text := ['I', 'O', 'P', 'r', 'o', 'p', 'e', 'r', 't', 'y', 'M', 'a', 't', 'c', 'h']
def keyIOPropertyTable : Text := ['I', 'O', 'P', 'r', 'o', 'p', 'e', 'r', 't', 'y', 'T', 'a', 'b', 'l', 'e']
def keyIONameMatch : Text := ['I', 'O', 'N', 'a', 'm', 'e', 'M', 'a', 't', 'c', 'h']
def keyIOName : Text := ['I', 'O', 'N', 'a', 'm', 'e']
def keyIOUserClientClass : Text :=
  ['I', 'O', 'U', 's', 'e', 'r', 'C', 'l', 'i', 'e', 'n', 't', 'C', 'l', 'a', 's', 's']

/-- `providerClass` -/
def providerClass (p : Personality) : Option Object := p.dictionary.objectForKey keyIOProviderClass

/-- `ioClass` -/
def ioClass (p : Personality) : Option Object := p.dictionary.objectForKey keyIOClass

/-- `propertyMatch` -/
def propertyMatch (p : Personality) : Option Object := p.dictionary.objectForKey keyIOPropertyMatch

/-- `propertyTable` -/
def propertyTable (p : Personality) : Option Object := p.dictionary.objectForKey keyIOPropertyTable

/-- One key of `IOPropertyMatch`: dictionaries are compared by the keys of the first one only. -/
def matchesValue (matchValue : Object) : Option Object → Bool
  | none => false
  | some providerValue =>
    match matchValue, providerValue with
    | .dictionary d, .dictionary e => d.all fun (subKey, subMatch) =>
      match e.lookup subKey with
      | none => false
      | some subActual => subActual.isEqual subMatch
    | _, _ => providerValue.isEqual matchValue

/-- `_matchIOPropertyMatch:` -/
def matchIOPropertyMatch (p : Personality) (provider : Entry) : Option Bool :=
  match p.propertyMatch with
  | none => some true
  | some (.dictionary matchDict) => some <| matchDict.all fun (key, matchValue) =>
    matchesValue matchValue (provider.properties.objectForKey key)
  | some _ => none

/-- One key of `IOPropertyTable`: an array lists the values that are accepted. -/
def acceptsValue (tableValue : Object) : Option Object → Bool
  | none => false
  | some providerValue =>
    match tableValue, providerValue with
    | .string s, .string t => t == s
    | .array l, _ => l.any fun acceptable => acceptable.isEqual providerValue
    | _, _ => providerValue.isEqual tableValue

/-- `_matchIOPropertyTable:` -/
def matchIOPropertyTable (p : Personality) (provider : Entry) : Option Bool :=
  match p.propertyTable with
  | none => some true
  | some (.dictionary tableDict) => some <| tableDict.all fun (key, tableValue) =>
    acceptsValue tableValue (provider.properties.objectForKey key)
  | some _ => none

/-- `_matchIOProviderClass:` -/
def matchIOProviderClass (p : Personality) (provider : Entry) : Option Bool :=
  match p.providerClass with
  | none => some true
  | some providerClass =>
    match provider.properties.objectForKey keyIOProviderClass with
    | none => some false
    | some entryClass => entryClass.isEqualToString providerClass

/-- `_matchIONameMatch:` -/
def matchIONameMatch (p : Personality) (provider : Entry) : Option Bool :=
  match p.dictionary.objectForKey keyIONameMatch with
  | none => some true
  | some nameMatch =>
    match provider.properties.objectForKey keyIOName with
    | none => some false
    | some entryName =>
      match nameMatch with
      | .array l => some (l.any fun name => entryName.isEqual name)
      | .string s => entryName.isEqualToString (.string s)
      | _ => some false

/-- `_matchIOUserClientClass:` -/
def matchIOUserClientClass (p : Personality) (provider : Entry) : Option Bool :=
  match p.dictionary.objectForKey keyIOUserClientClass with
  | none => some true
  | some clientClass =>
    match provider.properties.objectForKey keyIOUserClientClass with
    | none => some true
    | some entryClientClass => entryClientClass.isEqualToString clientClass

/-- The next check is made if this one has passed. -/
def andThen (check next : Option Bool) : Option Bool :=
  check.bind fun passed => if passed then next else some false

/-- `matchesProvider:` of an entry -/
def matchesProvider (p : Personality) (provider : Entry) : Option Bool :=
  andThen (p.matchIOProviderClass provider) <|
  andThen (p.matchIOPropertyMatch provider) <|
  andThen (p.matchIOPropertyTable provider) <|
  andThen (p.matchIONameMatch provider) <|
  p.matchIOUserClientClass provider

end Personality

end PocketDarwin.Kext
