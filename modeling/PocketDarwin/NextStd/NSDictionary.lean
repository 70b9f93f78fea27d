/-
  `NSMutableDictionary` of NextStd: two arrays, of keys and of values.

  `isEqual` compares the keys; a message to nil does nothing and answers NO.  Objects have other owners
  than the dictionary, which may give them up; what is not defined in C is `none`, as for the arrays.

  * `Represents`: the arrays hold a list of pairs with distinct keys.
  * `dictionary_run`: a dictionary is the finite map that the same is done to, exactly if it was made
    of at most one pair, is not used with the key nil, nor any more after `removeAllObjects` has
    freed its arrays, and no call gives up the last reference to an argument of its own.
-/
import PocketDarwin.NextStd.NSArray
import PocketDarwin.Assoc

namespace PocketDarwin.NextStd

/-- A dictionary, and the retain counts of all objects. -/
structure NSMutableDictionary (α : Type) where
  count : ℕ
  keys : HeapArray (Id α)
  values : HeapArray (Id α)
  retained : Counts α

/-- `[a isEqual: b]` -/
def sendIsEqual {α : Type} (isEqual : α → α → Bool) : Id α → Id α → Bool
  | some a, some b => isEqual a b
  | _, _ => false

@[simp] theorem sendIsEqual_some {α : Type} {isEqual : α → α → Bool} {a b : α} :
    sendIsEqual isEqual (some a) (some b) = isEqual a b := rfl

@[simp] theorem sendIsEqual_nil {α : Type} {isEqual : α → α → Bool} {a : Id α} :
    sendIsEqual isEqual a none = false := by
  cases a <;> rfl

namespace NSMutableDictionary
variable {α : Type} [DecidableEq α]

/-! ## Constructors -/

/-- `+dictionary` -/
def dictionary (retained : Counts α) : NSMutableDictionary α := ⟨0, .null, .null, retained⟩

/-- The first loop over the arguments of `+dictionaryWithObjects:forKeys:`; they end with nil. -/
def countArgs : List (Id α) → ℕ → Option ℕ
  | [], _ => none
  | none :: _, count => some count
  | some _ :: args, count => countArgs args (count + 1)

/-- An object is retained, and stored in one of the arrays. -/
def store (objects : HeapArray (Id α)) (retained : Counts α) (i : ℕ) (object : Id α) :
    Option (HeapArray (Id α) × Counts α) :=
  (retained.retain object).bind fun retained => (objects.set i object).map fun objects =>
    (objects, retained)

/-- `_keys[i] = [key retain]; _values[i] = [value retain]` -/
def storePair (self : NSMutableDictionary α) (i : ℕ) (key value : Id α) :
    Option (NSMutableDictionary α) :=
  (store self.keys self.retained i key).bind fun (keys, retained) =>
    (store self.values retained i value).map fun (values, retained) =>
      ⟨self.count, keys, values, retained⟩

/-- The second loop: keys and values in turn. -/
def storeArgs (i : ℕ) : List (Id α) → NSMutableDictionary α → Option (NSMutableDictionary α)
  | none :: _, self => some self
  | some key :: value :: args, self =>
    (self.storePair i (some key) value).bind (storeArgs (i + 1) args)
  | _, _ => none

section
variable (sizeofId : ℕ)

/-- `malloc(sizeof(id) * n)` -/
def mallocIds (n : ℕ) : HeapArray (Id α) := .block ⟨elements sizeofId n, fun _ => none⟩

def dictionaryWithObjects (retained : Counts α) (first firstKey : Id α) (args : List (Id α)) :
    Option (NSMutableDictionary α) :=
  if first = none ∨ firstKey = none then some (dictionary retained)
  else
    (countArgs args 1).bind fun count =>
      (storePair ⟨count, mallocIds sizeofId count, mallocIds sizeofId count,
        retained⟩ 0 firstKey first).bind (storeArgs 1 args)

/-- The constructor for so many pairs of a key and a value. -/
def ofPairs (retained : Counts α) : List (α × α) → Option (NSMutableDictionary α)
  | [] => dictionaryWithObjects sizeofId retained none none []
  | p :: pairs =>
    dictionaryWithObjects sizeofId retained (some p.2) (some p.1)
      (pairs.flatMap (fun q => [some q.1, some q.2]) ++ [none])

/-! ## Messages -/

variable (isEqual : α → α → Bool) (self : NSMutableDictionary α)

/-- The loop over the keys, of `n` rounds: where the key is, if it is there. -/
def findFrom (key : Id α) (i : ℕ) : ℕ → Option (Option ℕ)
  | 0 => some none
  | n + 1 =>
    (self.keys.get i).bind fun k => if sendIsEqual isEqual k key then some (some i)
      else findFrom key (i + 1) n

def find (key : Id α) : Option (Option ℕ) := self.findFrom isEqual key 0 self.count

def objectForKey (key : Id α) : Option (Id α) :=
  (self.find isEqual key).bind fun
    | some i => self.values.get i
    | none => some none

/-- The loop of `allKeys` and `allValues`, of `n` rounds. -/
def gatherFrom (objects : HeapArray (Id α)) (i : ℕ) :
    ℕ → NSMutableArray α → Option (NSMutableArray α)
  | 0, all => some all
  | n + 1, all =>
    (objects.get i).bind fun object => (all.addObject sizeofId object).bind
      (gatherFrom objects (i + 1) n)

def allKeys : Option (NSMutableArray α) :=
  gatherFrom sizeofId self.keys 0 self.count (.array self.retained)

def allValues : Option (NSMutableArray α) :=
  gatherFrom sizeofId self.values 0 self.count (.array self.retained)

def setObject (object key : Id α) : Option (NSMutableDictionary α) :=
  (self.find isEqual key).bind fun
    | some i =>
      (self.values.get i).bind fun old => (self.retained.release old).bind fun retained =>
        (store self.values retained i object).map fun (values, retained) =>
          { self with values, retained }
    | none =>
      (self.keys.realloc (elements sizeofId (self.count + 1))).bind fun keys =>
        (self.values.realloc (elements sizeofId (self.count + 1))).bind fun values =>
          storePair ⟨self.count + 1, keys, values, self.retained⟩ self.count key object

def removeObjectForKey (key : Id α) : Option (NSMutableDictionary α) :=
  (self.find isEqual key).bind fun
    | some i =>
      (self.keys.get i).bind fun k => (self.retained.release k).bind fun retained =>
        (self.values.get i).bind fun v => (retained.release v).bind fun retained =>
          (self.keys.move i (i + 1) (self.count - i - 1)).bind fun keys =>
            (self.values.move i (i + 1) (self.count - i - 1)).map fun values =>
              ⟨self.count - 1, keys, values, retained⟩
    | none => some self

/-- The loop of `removeAllObjects`, of `n` rounds. -/
def releaseFrom (i : ℕ) : ℕ → Counts α → Option (Counts α)
  | 0, retained => some retained
  | n + 1, retained =>
    (self.keys.get i).bind fun k => (retained.release k).bind fun retained =>
      (self.values.get i).bind fun v => (retained.release v).bind (releaseFrom (i + 1) n)

/-- The pointers stay what they are. -/
def removeAllObjects : Option (NSMutableDictionary α) :=
  (self.releaseFrom 0 self.count self.retained).bind fun retained =>
    self.keys.free.bind fun keys => self.values.free.map fun values => ⟨0, keys, values, retained⟩

end

/-! ## Runs -/

/-- The messages that change a dictionary, and what other owners do. -/
inductive Call (α : Type) where
  | setObject (object key : Id α)
  | removeObjectForKey (key : Id α)
  | removeAllObjects
  | retain (o : α)
  | release (o : α)

def call (sizeofId : ℕ) (isEqual : α → α → Bool) (self : NSMutableDictionary α) :
    Call α → Option (NSMutableDictionary α)
  | .setObject object key => self.setObject sizeofId isEqual object key
  | .removeObjectForKey key => self.removeObjectForKey isEqual key
  | .removeAllObjects => self.removeAllObjects
  | .retain o => (self.retained.retain (some o)).map fun retained => { self with retained }
  | .release o => (self.retained.release (some o)).map fun retained => { self with retained }

/-- What the messages are on finite maps: nil is not a key. -/
def mapCall (isEqual : α → α → Bool) (m : α → Option (Id α)) : Call α → α → Option (Id α)
  | .setObject object (some k) => Assoc.set isEqual m k object
  | .removeObjectForKey (some k) => Assoc.remove isEqual m k
  | .removeAllObjects => fun _ => none
  | _ => m

/-- How often other owners hold an object. -/
def ownersCall (owners : Counts α) : Call α → Counts α
  | .retain o => Function.update owners o (owners o + 1)
  | .release o => Function.update owners o (owners o - 1)
  | _ => owners

/-- A dictionary, a map to which the same is done, and the other owners. -/
structure State (α : Type) where
  dict : Option (NSMutableDictionary α)
  map : α → Option (Id α)
  owners : Counts α

def step (sizeofId : ℕ) (isEqual : α → α → Bool) (x : State α) (c : Call α) : State α :=
  ⟨x.dict.bind fun self => self.call sizeofId isEqual c, mapCall isEqual x.map c,
    ownersCall x.owners c⟩

/-- The constructor for so many pairs. -/
def start (sizeofId : ℕ) (isEqual : α → α → Bool) (owners : Counts α) (pairs : List (α × α)) :
    State α :=
  ⟨ofPairs sizeofId owners pairs, pairs.foldl (fun m p => Assoc.set isEqual m p.1 (some p.2))
    fun _ => none, owners⟩

/-- The arguments of a message. -/
def Call.arguments : Call α → List α
  | .setObject object key => object.toList ++ key.toList
  | .removeObjectForKey key => key.toList
  | _ => []

/-! ## Answers -/

/-- The dictionary answers as the map does, and no key or value of it is deallocated. -/
structure Answers (sizeofId : ℕ) (isEqual : α → α → Bool) (d : NSMutableDictionary α)
    (m : α → Option (Id α)) : Prop where
  keys : ∃ ks, Assoc.Keys isEqual ks m ∧ d.count = ks.length ∧ (∀ a ∈ ks, 0 < d.retained a) ∧
    (∃ all, d.allKeys sizeofId = some all ∧ NSMutableArray.Answers d.retained all (ks.map some)) ∧
    ∃ all, d.allValues sizeofId = some all ∧
    NSMutableArray.Answers d.retained all (ks.map fun a => (m a).join)
  objectForKey : ∀ key, d.objectForKey isEqual key = some (key.bind m).join
  live : ∀ k v, m k = some (some v) → 0 < d.retained v

/-- The objects of the pairs. -/
def refs (l : List (α × Id α)) : List (Id α) := l.flatMap fun p => [some p.1, p.2]

/-- The arrays hold the pairs; they are allocated together. -/
structure Allocated (d : NSMutableDictionary α) (l : List (α × Id α)) : Prop where
  keys : d.keys.Holds (l.map fun p => some p.1)
  values : d.values.Holds (l.map Prod.snd)
  null : d.keys = .null ↔ d.values = .null

/-- The arrays hold the pairs, or were freed. -/
def Arrays (d : NSMutableDictionary α) (l : List (α × Id α)) : Prop :=
  d.Allocated l ∨ d.keys = .freed ∧ d.values = .freed ∧ l = []

/-- The dictionary is the list of pairs, of which each object is retained once more than by the other owners. -/
structure Represents (sizeofId : ℕ) (isEqual : α → α → Bool) (owners : Counts α)
    (d : NSMutableDictionary α)
    (l : List (α × Id α)) : Prop where
  count : d.count = l.length
  arrays : d.Arrays l
  retained : d.retained = owners.add (refs l)
  distinct : Assoc.Distinct isEqual l
  fits : sizeofId * l.length < 2 ^ (8 * sizeofId)

section
variable {sizeofId : ℕ} {isEqual : α → α → Bool} {owners : Counts α} {self : NSMutableDictionary α}
  {l : List (α × Id α)}

omit [DecidableEq α] in
theorem findFrom_eq (h : self.keys.Holds (l.map fun p => some p.1)) (key : Id α) {i n : ℕ}
    (hi : i + n = l.length) :
    self.findFrom isEqual key i n =
      some (((l.drop i).findIdx? fun p => sendIsEqual isEqual (some p.1) key).map (· + i)) := by
  induction n generalizing i with
  | zero =>
    rw [List.drop_eq_nil_of_le (by omega)]
    rfl
  | succ n ih =>
    have hlt : i < l.length := by omega
    rw [findFrom, h.get (by rw [List.length_map]; exact hlt), Option.bind_some, List.getElem_map,
      List.drop_eq_getElem_cons hlt,
      List.findIdx?_cons]
    split_ifs with hk
    · rw [Option.map_some, Nat.zero_add]
    · rw [ih (by omega), Option.map_map]
      congr 2
      funext j
      simp only [Function.comp_apply]
      omega

theorem find_eq (h : Represents sizeofId isEqual owners self l) (key : Id α) :
    self.find isEqual key = some (l.findIdx? fun p => sendIsEqual isEqual (some p.1) key) := by
  rcases h.arrays with ⟨hkeys, -, -⟩ | ⟨-, -, rfl⟩
  · rw [find, findFrom_eq hkeys key (by rw [Nat.zero_add, h.count]), List.drop_zero]
    simp
  · rw [find, h.count]
    rfl

/-- A key that is not there. -/
theorem find_none (h : Represents sizeofId isEqual owners self l) {k : α}
    (hk : ∀ p ∈ l, ¬ isEqual p.1 k) :
    self.find isEqual (some k) = some none := by
  rw [find_eq h, Option.some_inj, List.findIdx?_eq_none_iff]
  intro p hp
  simpa using hk p hp

theorem find_nil (h : Represents sizeofId isEqual owners self l) :
    self.find isEqual none = some none := by
  rw [find_eq h, Option.some_inj, List.findIdx?_eq_none_iff]
  intro p hp
  exact sendIsEqual_nil

/-- A key that is there. -/
theorem find_some {l₁ l₂ : List (α × Id α)} {a k : α} {old : Id α}
    (h : Represents sizeofId isEqual owners self (l₁ ++ (a, old) :: l₂)) (ha : isEqual a k)
    (hk : ∀ p ∈ l₁, ¬ isEqual p.1 k) : self.find isEqual (some k) = some (some l₁.length) := by
  have hnone : l₁.findIdx? (fun p => sendIsEqual isEqual (some p.1) (some k)) = none :=
    List.findIdx?_eq_none_iff.2 fun p hp => by simpa using hk p hp
  rw [find_eq h, List.findIdx?_append, hnone, List.findIdx?_cons, sendIsEqual_some, if_pos ha]
  simp

theorem values_get {l₁ l₂ : List (α × Id α)} {a : α} {old : Id α}
    (h : Represents sizeofId isEqual owners self (l₁ ++ (a, old) :: l₂)) :
    self.keys.get l₁.length = some (some a) ∧ self.values.get l₁.length = some old := by
  rcases h.arrays with ⟨hkeys, hvalues, -⟩ | ⟨-, -, hnil⟩
  · refine ⟨?_, ?_⟩
    · rw [hkeys.get (by simp)]
      simp
    · rw [hvalues.get (by simp)]
      simp
  · simp at hnil

/-- `objectForKey:` is what the map is. -/
theorem Represents.objectForKey (h : Represents sizeofId isEqual owners self l) (key : Id α) :
    self.objectForKey isEqual key = some (key.bind (Assoc.lookup isEqual l)).join := by
  cases key with
  | none =>
    rw [NSMutableDictionary.objectForKey, find_nil h]
    rfl
  | some k =>
    rw [NSMutableDictionary.objectForKey, Option.bind_some]
    rcases Assoc.exists_split isEqual l k with hk | ⟨l₁, a, old, l₂, rfl, ha, hk⟩
    · rw [find_none h hk, Assoc.lookup_eq_none hk]
      rfl
    · rw [find_some h ha hk, Option.bind_some]
      dsimp only
      rw [(values_get h).2, Assoc.lookup_append, Assoc.lookup_eq_none hk, Assoc.lookup_cons,
        if_pos ha]
      rfl

/-- The arrays that `allKeys` and `allValues` return. -/
theorem gatherFrom_eq {objects : HeapArray (Id α)} {counts : Counts α} {l : List (Id α)}
    {all : NSMutableArray α} {i n : ℕ}
    (hid : 0 < sizeofId) (hsize : sizeofId * l.length < 2 ^ (8 * sizeofId))
    (hlive : ∀ o, some o ∈ l → 0 < counts o)
    (h : objects.Holds l) (hi : i + n = l.length)
    (hall : NSMutableArray.Represents counts all (l.take i)) :
    ∃ all', gatherFrom sizeofId objects i n all = some all' ∧
    NSMutableArray.Represents counts all' l := by
  induction n generalizing i all with
  | zero =>
    refine ⟨all, rfl, ?_⟩
    rwa [List.take_of_length_le (by omega)] at hall
  | succ n ih =>
    have hlt : i < l.length := by omega
    have hlive' : ∀ o ∈ l[i], 0 < counts o :=
      fun o ho => hlive o (by rw [← Option.mem_def.1 ho]; exact List.getElem_mem hlt)
    have hlength : sizeofId * ((l.take i).length + 1) < 2 ^ (8 * sizeofId) := by
      refine Nat.lt_of_le_of_lt (Nat.mul_le_mul_left _ ?_) hsize
      rw [List.length_take]
      omega
    obtain ⟨all₁, hadd, h₁⟩ := NSMutableArray.represents_addObject hid hall hlive' hlength
    rw [List.take_append_getElem hlt] at h₁
    obtain ⟨all', hgather, h'⟩ := ih (by omega) h₁
    refine ⟨all', ?_, h'⟩
    rw [gatherFrom, h.get hlt, Option.bind_some, hadd, Option.bind_some, hgather]

theorem all_eq {objects : HeapArray (Id α)} {l : List (Id α)} (hid : 0 < sizeofId)
    (hsize : sizeofId * l.length < 2 ^ (8 * sizeofId))
    (hlive : ∀ o, some o ∈ l → 0 < self.retained o)
    (hcount : self.count = l.length) (h : objects.Holds l ∨ l = []) :
    ∃ all, gatherFrom sizeofId objects 0 self.count (.array self.retained) = some all ∧
      NSMutableArray.Answers self.retained all l := by
  rw [hcount]
  rcases h with h | rfl
  · obtain ⟨all, hall, hrep⟩ := gatherFrom_eq hid hsize hlive h (Nat.zero_add _)
      (NSMutableArray.represents_array self.retained)
    exact ⟨all, hall, hrep.answers⟩
  · exact ⟨_, rfl, (NSMutableArray.represents_array self.retained).answers⟩

/-- The objects of the dictionary are not deallocated. -/
theorem Represents.live (h : Represents sizeofId isEqual owners self l) {o : α}
    (ho : some o ∈ refs l) :
    0 < self.retained o := by
  rw [h.retained]
  exact Nat.add_pos_right _ (List.count_pos_iff.2 ho)

omit [DecidableEq α] in
theorem mem_refs {p : α × Id α} (hp : p ∈ l) : some p.1 ∈ refs l ∧ p.2 ∈ refs l :=
  ⟨List.mem_flatMap.2 ⟨p, hp, by simp⟩, List.mem_flatMap.2 ⟨p, hp, by simp⟩⟩

theorem Represents.answers (hid : 0 < sizeofId) (heq : Equivalence fun a b => isEqual a b = true)
    (h : Represents sizeofId isEqual owners self l) :
    Answers sizeofId isEqual self (Assoc.lookup isEqual l) := by
  refine ⟨⟨l.map Prod.fst, h.distinct.keys, ?_, ?_, ?_, ?_⟩, h.objectForKey, ?_⟩
  · rw [h.count, List.length_map]
  · intro a ha
    obtain ⟨p, hp, rfl⟩ := List.mem_map.1 ha
    exact h.live (mem_refs hp).1
  · refine all_eq hid (by rw [List.length_map, List.length_map]; exact h.fits) ?_ ?_ ?_
    · intro o ho
      rw [List.map_map] at ho
      obtain ⟨p, hp, hpo⟩ := List.mem_map.1 ho
      exact h.live (hpo ▸ (mem_refs hp).1)
    · rw [h.count, List.length_map, List.length_map]
    · rw [List.map_map]
      rcases h.arrays with ⟨hkeys, -, -⟩ | ⟨-, -, rfl⟩
      · exact Or.inl hkeys
      · exact Or.inr rfl
  · have hvalues : (l.map Prod.fst).map (fun a => (Assoc.lookup isEqual l a).join) =
        l.map Prod.snd := by
      rw [List.map_map]
      refine List.map_congr_left fun p hp => ?_
      rw [Function.comp_apply, Assoc.lookup_of_mem heq h.distinct hp]
      rfl
    rw [hvalues]
    refine all_eq hid (by rw [List.length_map]; exact h.fits) ?_ (by rw [h.count, List.length_map]) ?_
    · intro o ho
      obtain ⟨p, hp, hpo⟩ := List.mem_map.1 ho
      exact h.live (hpo ▸ (mem_refs hp).2)
    · rcases h.arrays with ⟨-, hvalues, -⟩ | ⟨-, -, rfl⟩
      · exact Or.inl hvalues
      · exact Or.inr rfl
  · intro k v hk
    obtain ⟨p, hp, hpv⟩ := Option.map_eq_some_iff.1 hk
    exact h.live (hpv ▸ (mem_refs (List.mem_of_find?_eq_some hp)).2)

/-! ## Calls -/

omit [DecidableEq α] in
theorem refs_append (l₁ l₂ : List (α × Id α)) : refs (l₁ ++ l₂) = refs l₁ ++ refs l₂ :=
  List.flatMap_append

omit [DecidableEq α] in
/-- The objects of a pair may be counted first. -/
theorem refs_perm (l₁ l₂ : List (α × Id α)) (p : α × Id α) :
    (refs (l₁ ++ p :: l₂)).Perm (some p.1 :: p.2 :: refs (l₁ ++ l₂)) := by
  have hcons : refs (p :: l₂) = [some p.1, p.2] ++ refs l₂ := List.flatMap_cons
  rw [refs_append, refs_append, hcons]
  exact List.perm_append_comm_assoc _ _ _

theorem add_cons {counts : Counts α} {x : Id α} {l : List (Id α)} {o : α} :
    counts.add (x :: l) o = counts.add l o + if x = some o then 1 else 0 := by
  rw [Counts.add, Counts.add, List.count_cons, Nat.add_assoc]
  simp only [beq_iff_eq]

theorem storePair_count {i : ℕ} {key value : Id α} {self' : NSMutableDictionary α}
    (h : self.storePair i key value = some self') : self'.count = self.count := by
  obtain ⟨⟨keys, retained⟩, -, h⟩ := Option.bind_eq_some_iff.1 h
  obtain ⟨⟨values, retained'⟩, -, rfl⟩ := Option.map_eq_some_iff.1 h
  rfl

/-- A pair behind the others. -/
theorem represents_storePair (h : Represents sizeofId isEqual owners self l)
    {keys values : HeapArray (Id α)} {k : α}
    {object : Id α} (hkeys : keys.Holds (l.map fun p => some p.1))
    (hvalues : values.Holds (l.map Prod.snd))
    (hksize : l.length < keys.size) (hvsize : l.length < values.size)
    (hk : ∀ p ∈ l, ¬ isEqual p.1 k)
    (hlive : ∀ o, o = k ∨ object = some o → 0 < self.retained o)
    (hfits : sizeofId * (l.length + 1) < 2 ^ (8 * sizeofId)) :
    ∃ self', storePair ⟨l.length + 1, keys, values, self.retained⟩ l.length (some k) object =
      some self' ∧
      Represents sizeofId isEqual owners self' (l ++ [(k, object)]) := by
  obtain ⟨keys', hkset, hkeys'⟩ := hkeys.push (by rwa [List.length_map]) (some k)
  obtain ⟨values', hvset, hvalues'⟩ := hvalues.push (by rwa [List.length_map]) object
  rw [List.length_map] at hkset hvset
  have hretain : self.retained.retain (some k) = some (owners.add (some k :: refs l)) := by
    rw [h.retained]
    refine Counts.retain_add fun o ho => ?_
    rw [← h.retained]
    exact hlive o (Or.inl (Option.some.inj ho).symm)
  have hretain' : (owners.add (some k :: refs l)).retain object =
      some (owners.add (object :: some k :: refs l)) := by
    refine Counts.retain_add fun o ho => ?_
    rw [add_cons, ← h.retained]
    exact Nat.add_pos_left (hlive o (Or.inr ho)) _
  refine ⟨⟨l.length + 1, keys', values', owners.add (object :: some k :: refs l)⟩, ?_, ?_⟩
  · rw [storePair, store, hretain, Option.bind_some, hkset, Option.map_some, Option.bind_some]
    dsimp only
    rw [store, hretain', Option.bind_some, hvset]
    rfl
  · refine ⟨?_, Or.inl ⟨?_, ?_, ?_⟩, ?_, ?_, ?_⟩
    · rw [List.length_append]
      rfl
    · rwa [List.map_append]
    · rwa [List.map_append]
    · exact iff_of_false (HeapArray.ne_null_of_set hkset) (HeapArray.ne_null_of_set hvset)
    · refine Counts.add_perm ?_
      have hperm := refs_perm l [] (k, object)
      rw [List.append_nil] at hperm
      exact (List.Perm.swap _ _ _).trans hperm.symm
    · refine List.pairwise_append.2 ⟨h.distinct, List.pairwise_singleton _ _, fun p hp q hq => ?_⟩
      rw [List.mem_singleton.1 hq]
      exact hk p hp
    · rw [List.length_append]
      exact hfits

theorem setObject_new (hid : 0 < sizeofId) (h : Represents sizeofId isEqual owners self l) {k : α}
    {object : Id α}
    (hfreed : self.keys ≠ .freed) (hk : ∀ p ∈ l, ¬ isEqual p.1 k)
    (hlive : ∀ o, o = k ∨ object = some o → 0 < self.retained o)
    (hfits : sizeofId * (l.length + 1) < 2 ^ (8 * sizeofId)) :
    ∃ self', self.setObject sizeofId isEqual object (some k) = some self' ∧
      Represents sizeofId isEqual owners self' (l ++ [(k, object)]) := by
  obtain ⟨hkeys, hvalues, -⟩ := h.arrays.resolve_right fun hf => hfreed hf.1
  obtain ⟨keys, hkrealloc, hksize, hkeys'⟩ :=
    hkeys.realloc (n := l.length + 1) (by rw [List.length_map]; exact Nat.le_succ _)
  obtain ⟨values, hvrealloc, hvsize, hvalues'⟩ :=
    hvalues.realloc (n := l.length + 1) (by rw [List.length_map]; exact Nat.le_succ _)
  obtain ⟨self', hstore, h'⟩ := represents_storePair h hkeys' hvalues'
    (by rw [hksize]; exact Nat.lt_succ_self _)
    (by rw [hvsize]; exact Nat.lt_succ_self _) hk hlive hfits
  refine ⟨self', ?_, h'⟩
  rw [setObject, find_none h hk, Option.bind_some]
  dsimp only
  rw [h.count, NSMutableArray.elements_eq hid hfits, hkrealloc, Option.bind_some, hvrealloc,
    Option.bind_some, hstore]

/-- A key that is there: the old value is released before the new one is retained. -/
theorem setObject_old (object : Id α) {l₁ l₂ : List (α × Id α)} {a k : α} {old : Id α}
    (h : Represents sizeofId isEqual owners self (l₁ ++ (a, old) :: l₂)) (ha : isEqual a k)
    (hk : ∀ p ∈ l₁, ¬ isEqual p.1 k) :
    ∃ values, values.Holds ((l₁ ++ (a, object) :: l₂).map Prod.snd) ∧
    self.setObject sizeofId isEqual object (some k) =
      ((owners.add (some a :: refs (l₁ ++ l₂))).retain object).map fun retained =>
        { self with values, retained } := by
  obtain ⟨hkeys, hvalues, -⟩ := h.arrays.resolve_right fun hf => by simpa using hf.2.2
  obtain ⟨values, hset, hvalues'⟩ := hvalues.set (i := l₁.length) (by simp) object
  have hperm : (refs (l₁ ++ (a, old) :: l₂)).Perm (old :: some a :: refs (l₁ ++ l₂)) :=
    (refs_perm l₁ l₂ (a, old)).trans (List.Perm.swap _ _ _)
  refine ⟨values, ?_, ?_⟩
  · simpa using hvalues'
  · rw [setObject, find_some h ha hk, Option.bind_some]
    dsimp only
    rw [(values_get h).2, Option.bind_some, h.retained, Counts.add_perm hperm, Counts.release_add,
      Option.bind_some, store]
    cases (owners.add (some a :: refs (l₁ ++ l₂))).retain object with
    | none => rfl
    | some retained =>
      rw [Option.bind_some, hset]
      rfl

/-- The counts before: the old value was one more. -/
theorem retained_old {l₁ l₂ : List (α × Id α)} {a o : α} {old : Id α}
    (h : Represents sizeofId isEqual owners self (l₁ ++ (a, old) :: l₂)) :
    self.retained o = owners.add (some a :: refs (l₁ ++ l₂)) o + if old = some o then 1 else 0 := by
  rw [h.retained, Counts.add_perm ((refs_perm l₁ l₂ (a, old)).trans (List.Perm.swap _ _ _)),
    add_cons]

theorem represents_setObject_old (object : Id α) {l₁ l₂ : List (α × Id α)} {a k : α} {old : Id α}
    (h : Represents sizeofId isEqual owners self (l₁ ++ (a, old) :: l₂)) (ha : isEqual a k)
    (hk : ∀ p ∈ l₁, ¬ isEqual p.1 k)
    (hlive : ∀ o ∈ object, 0 < owners.add (some a :: refs (l₁ ++ l₂)) o) :
    ∃ self', self.setObject sizeofId isEqual object (some k) = some self' ∧
      Represents sizeofId isEqual owners self' (l₁ ++ (a, object) :: l₂) ∧
      self'.retained = owners.add (object :: some a :: refs (l₁ ++ l₂)) := by
  obtain ⟨values, hvalues, hcall⟩ := setObject_old object h ha hk
  obtain ⟨hkeys, -, -⟩ := h.arrays.resolve_right fun hf => by simpa using hf.2.2
  have hperm : (refs (l₁ ++ (a, object) :: l₂)).Perm (object :: some a :: refs (l₁ ++ l₂)) :=
    (refs_perm l₁ l₂ (a, object)).trans (List.Perm.swap _ _ _)
  refine ⟨{ self with values, retained := owners.add (object :: some a :: refs (l₁ ++ l₂)) }, ?_,
    ⟨?_, Or.inl ⟨?_, hvalues, ?_⟩, ?_, ?_, ?_⟩, rfl⟩
  · rw [hcall, Counts.retain_add hlive]
    rfl
  · simpa using h.count
  · simpa using hkeys
  · exact iff_of_false (hkeys.ne_null (by simp)) (hvalues.ne_null (by simp))
  · exact (Counts.add_perm hperm).symm
  · have hdistinct := List.pairwise_map (f := Prod.fst) (R := fun a b => ¬ isEqual a b)
      |>.2 h.distinct
    refine List.pairwise_map (f := Prod.fst) (R := fun a b => ¬ isEqual a b) |>.1 ?_
    simpa using hdistinct
  · simpa using h.fits

omit [DecidableEq α] in
theorem eraseIdx_map {β : Type} {l₁ l₂ : List (α × Id α)} {p : α × Id α} (f : α × Id α → β) :
    ((l₁ ++ p :: l₂).map f).eraseIdx l₁.length = (l₁ ++ l₂).map f := by
  rw [List.map_append, List.map_cons,
    List.eraseIdx_append_of_length_le (Nat.le_of_eq (List.length_map f)), List.length_map,
    Nat.sub_self, List.eraseIdx_cons_zero, List.map_append]

theorem represents_removeObjectForKey {l₁ l₂ : List (α × Id α)} {a k : α} {old : Id α}
    (h : Represents sizeofId isEqual owners self (l₁ ++ (a, old) :: l₂)) (ha : isEqual a k)
    (hk : ∀ p ∈ l₁, ¬ isEqual p.1 k) :
    ∃ self', self.removeObjectForKey isEqual (some k) = some self' ∧
      Represents sizeofId isEqual owners self' (l₁ ++ l₂) := by
  obtain ⟨hkeys, hvalues, -⟩ := h.arrays.resolve_right fun hf => by simpa using hf.2.2
  have hlength : (l₁ ++ (a, old) :: l₂).length = l₁.length + l₂.length + 1 := by
    rw [List.length_append, List.length_cons]
    rfl
  obtain ⟨keys, hkmove, hkeys'⟩ := hkeys.erase (i := l₁.length) (by rw [List.length_map]; omega)
  obtain ⟨values, hvmove, hvalues'⟩ :=
    hvalues.erase (i := l₁.length) (by rw [List.length_map]; omega)
  rw [List.length_map, ← h.count] at hkmove hvmove
  rw [eraseIdx_map] at hkeys' hvalues'
  refine ⟨⟨self.count - 1, keys, values, owners.add (refs (l₁ ++ l₂))⟩, ?_, ?_,
    Or.inl ⟨hkeys', hvalues', ?_⟩, rfl, ?_, ?_⟩
  · rw [removeObjectForKey, find_some h ha hk, Option.bind_some]
    dsimp only
    rw [(values_get h).1, Option.bind_some, h.retained, Counts.add_perm (refs_perm l₁ l₂ (a, old)),
      Counts.release_add,
      Option.bind_some, (values_get h).2, Option.bind_some, Counts.release_add, Option.bind_some,
      hkmove, Option.bind_some, hvmove]
    rfl
  · rw [h.count, hlength, List.length_append]
    rfl
  · exact iff_of_false (HeapArray.ne_null_of_move hkmove) (HeapArray.ne_null_of_move hvmove)
  · exact h.distinct.sublist (List.Sublist.append_left (List.sublist_cons_self _ _) _)
  · refine Nat.lt_of_le_of_lt (Nat.mul_le_mul_left _ ?_) h.fits
    rw [hlength, List.length_append]
    exact Nat.le_succ _

theorem releaseFrom_eq (hkeys : self.keys.Holds (l.map fun p => some p.1))
    (hvalues : self.values.Holds (l.map Prod.snd))
    {i n : ℕ} (hi : i + n = l.length) : self.releaseFrom i n (owners.add (refs (l.drop i))) =
      some (owners.add []) := by
  induction n generalizing i with
  | zero =>
    rw [List.drop_eq_nil_of_le (by omega)]
    rfl
  | succ n ih =>
    have hlt : i < l.length := by omega
    have hrefs : refs (l.drop i) = some l[i].1 :: l[i].2 :: refs (l.drop (i + 1)) := by
      rw [List.drop_eq_getElem_cons hlt]
      rfl
    rw [releaseFrom, hkeys.get (by rwa [List.length_map]), Option.bind_some, List.getElem_map,
      hrefs, Counts.release_add,
      Option.bind_some, hvalues.get (by rwa [List.length_map]), Option.bind_some, List.getElem_map,
      Counts.release_add,
      Option.bind_some, ih (by omega)]

theorem represents_removeAllObjects (h : Represents sizeofId isEqual owners self l)
    (hfreed : self.keys ≠ .freed) :
    ∃ self', self.removeAllObjects = some self' ∧ Represents sizeofId isEqual owners self' [] := by
  obtain ⟨hkeys, hvalues, hnull⟩ := h.arrays.resolve_right fun hf => hfreed hf.1
  have hrelease : self.releaseFrom 0 l.length (owners.add (refs (l.drop 0))) = some (owners.add []) :=
    releaseFrom_eq hkeys hvalues (Nat.zero_add l.length)
  rw [List.drop_zero, ← h.retained, ← h.count] at hrelease
  obtain ⟨keys, hkfree⟩ := hkeys.free
  obtain ⟨values, hvfree⟩ := hvalues.free
  refine ⟨⟨0, keys, values, owners.add []⟩, ?_, rfl, ?_, rfl, List.Pairwise.nil, ?_⟩
  · rw [removeAllObjects, hrelease, Option.bind_some, hkfree, Option.bind_some, hvfree]
    rfl
  · rcases HeapArray.free_cases hkfree with ⟨hk, rfl⟩ | ⟨hk, rfl⟩
    · obtain ⟨-, rfl⟩ | ⟨hv, -⟩ := HeapArray.free_cases hvfree
      · exact Or.inl ⟨rfl, rfl, Iff.rfl⟩
      · exact absurd (hnull.1 hk) hv
    · obtain ⟨hv, -⟩ | ⟨-, rfl⟩ := HeapArray.free_cases hvfree
      · exact absurd (hnull.2 hv) hk
      · exact Or.inr ⟨rfl, rfl, rfl⟩
  · rw [List.length_nil, Nat.mul_zero]
    exact Nat.two_pow_pos _

/-- Arrays that were freed are not freed again. -/
theorem removeAllObjects_freed (h : Represents sizeofId isEqual owners self l)
    (hfreed : self.keys = .freed) :
    self.removeAllObjects = none := by
  rcases h.arrays with ⟨hkeys, -, -⟩ | ⟨-, -, rfl⟩
  · rw [hfreed] at hkeys
    exact hkeys.elim
  · rw [removeAllObjects, h.count, hfreed]
    rfl

/-- Nor are they reallocated. -/
theorem setObject_freed (h : Represents sizeofId isEqual owners self l)
    (hfreed : self.keys = .freed) (object key : Id α) :
    self.setObject sizeofId isEqual object key = none := by
  rcases h.arrays with ⟨hkeys, -, -⟩ | ⟨-, -, rfl⟩
  · rw [hfreed] at hkeys
    exact hkeys.elim
  · rw [setObject, find_eq h, hfreed]
    rfl

theorem add_update (counts : Counts α) (l : List (Id α)) (o : α) (n : ℕ) :
    Counts.add (Function.update counts o n) l = Function.update (counts.add l)
      o (n + l.count (some o)) := by
  funext o'
  by_cases ho : o' = o
  · subst ho
    rw [Counts.add, Function.update_self, Function.update_self]
  · rw [Counts.add, Function.update_of_ne ho, Function.update_of_ne ho, Counts.add]

/-- What other owners do is about the counts only. -/
theorem Represents.update (h : Represents sizeofId isEqual owners self l) {o : α} {n : ℕ}
    {r : Counts α}
    (hr : r = Function.update self.retained o (n + (refs l).count (some o))) :
    Represents sizeofId isEqual (Function.update owners o n) { self with retained := r } l := by
  refine ⟨h.count, ?_, ?_, h.distinct, h.fits⟩
  · rcases h.arrays with ⟨hkeys, hvalues, hnull⟩ | hfreed
    · exact Or.inl ⟨hkeys, hvalues, hnull⟩
    · exact Or.inr hfreed
  · rw [add_update, ← h.retained, hr]

theorem represents_retain (h : Represents sizeofId isEqual owners self l) {o : α}
    (ho : 0 < self.retained o) :
    ∃ self', self.call sizeofId isEqual (.retain o) = some self' ∧
      Represents sizeofId isEqual (ownersCall owners (.retain o)) self' l := by
  refine ⟨_, ?_, h.update (r := Function.update self.retained o (self.retained o + 1)) ?_⟩
  · rw [call, Counts.retain, if_neg (Nat.ne_of_gt ho)]
    rfl
  · rw [h.retained, Counts.add, Nat.add_right_comm]

theorem represents_release (h : Represents sizeofId isEqual owners self l) {o : α}
    (ho : 0 < owners o) :
    ∃ self', self.call sizeofId isEqual (.release o) = some self' ∧
      Represents sizeofId isEqual (ownersCall owners (.release o)) self' l := by
  have hpos : 0 < self.retained o := by
    rw [h.retained]
    exact Nat.add_pos_left ho _
  refine ⟨_, ?_, h.update (r := Function.update self.retained o (self.retained o - 1)) ?_⟩
  · rw [call, Counts.release, if_neg (Nat.ne_of_gt hpos)]
    rfl
  · rw [h.retained, Counts.add, Nat.sub_add_comm ho]

/-- A call that does what the map does, and keeps the objects that it is about. -/
def Done (sizeofId : ℕ) (isEqual : α → α → Bool) (x : State α) (c : Call α) : Prop :=
  ∃ self, (step sizeofId isEqual x c).dict = some self ∧
  Answers sizeofId isEqual self (step sizeofId isEqual x c).map ∧
    ∀ o ∈ c.arguments, 0 < self.retained o

/-- The arguments exist, owners give up what they have, and `realloc` succeeds. -/
def Called (sizeofId : ℕ) (x : State α) (c : Call α) : Prop :=
  ∀ self, x.dict = some self → (∀ o ∈ c.arguments, 0 < self.retained o) ∧
    match c with
    | .setObject _ _ => sizeofId * (self.count + 1) < 2 ^ (8 * sizeofId)
    | .retain o => 0 < self.retained o
    | .release o => 0 < x.owners o
    | _ => True

/-- The key is not nil, the arrays were not freed, and what the pair with the key gives up is not the last reference
    to an argument. -/
def Ready (isEqual : α → α → Bool) (self : NSMutableDictionary α) : Call α → Prop
  | .setObject object key =>
    key ≠ none ∧ self.keys ≠ .freed ∧ ∀ i o, self.find isEqual key = some (some i) →
    self.values.get i = some (some o) →
      object = some o ∨ key = some o → 1 < self.retained o
  | .removeObjectForKey key =>
    ∀ i o, self.find isEqual key = some (some i) → key = some o →
      [self.keys.get i, self.values.get i].count (some (some o)) < self.retained o
  | .removeAllObjects => self.keys ≠ .freed
  | _ => True

theorem setObject_nil_count (h : Represents sizeofId isEqual owners self l) {object : Id α}
    {self' : NSMutableDictionary α}
    (hcall : self.setObject sizeofId isEqual object none = some self') :
    self'.count = l.length + 1 := by
  rw [setObject, find_nil h, Option.bind_some] at hcall
  obtain ⟨keys, -, hcall⟩ := Option.bind_eq_some_iff.1 hcall
  obtain ⟨values, -, hcall⟩ := Option.bind_eq_some_iff.1 hcall
  rw [storePair_count hcall, h.count]

/-- With the key nil, the dictionary has one key more than the map. -/
theorem not_answers_nil (heq : Equivalence fun a b => isEqual a b = true)
    (h : Represents sizeofId isEqual owners self l)
    {object : Id α} {self' : NSMutableDictionary α}
    (hcall : self.setObject sizeofId isEqual object none = some self') :
    ¬ Answers sizeofId isEqual self' (Assoc.lookup isEqual l) := by
  rintro ⟨⟨ks, hks, hcount, -⟩, -, -⟩
  have hle := hks.length_le heq fun k hk => (h.distinct.keys.mem k).1 hk
  rw [List.length_map, ← hcount, setObject_nil_count h hcall] at hle
  exact absurd hle (Nat.not_succ_le_self _)

omit [DecidableEq α] in
theorem mem_setObject {object key : Id α} {o : α} :
    o ∈ (Call.setObject object key).arguments ↔ object = some o ∨ key = some o := by
  rw [Call.arguments, List.mem_append, Option.mem_toList, Option.mem_toList]

omit [DecidableEq α] in
theorem mem_removeObjectForKey {key : Id α} {o : α} :
    o ∈ (Call.removeObjectForKey key).arguments ↔ key = some o := by
  rw [Call.arguments, Option.mem_toList]

/-- A value is replaced: the last reference to an argument must not be in the old one. -/
theorem done_setObject_old {l₁ l₂ : List (α × Id α)} {a k : α} {old object : Id α}
    (h : Represents sizeofId isEqual owners self (l₁ ++ (a, old) :: l₂)) (ha : isEqual a k)
    (hk : ∀ p ∈ l₁, ¬ isEqual p.1 k) (hlive : ∀ o ∈ (Call.setObject object (some k)).arguments,
      0 < self.retained o)
    (hready : ∀ o, old = some o → object = some o ∨ some k = some o → 1 < self.retained o) :
    ∃ self', self.setObject sizeofId isEqual object (some k) = some self' ∧
      Represents sizeofId isEqual owners self' (l₁ ++ (a, object) :: l₂) ∧
      ∀ o ∈ (Call.setObject object (some k)).arguments, 0 < self'.retained o := by
  -- what is left when the old value is released
  have hleft : ∀ o ∈ (Call.setObject object (some k)).arguments,
      0 < owners.add (some a :: refs (l₁ ++ l₂)) o := by
    intro o ho
    have hpos := hlive o ho
    by_cases hold : old = some o
    · have hmore := hready o hold (mem_setObject.1 ho)
      rw [retained_old h, if_pos hold] at hmore
      omega
    · rwa [retained_old h, if_neg hold, Nat.add_zero] at hpos
  obtain ⟨self', hcall, h', hretained⟩ :=
    represents_setObject_old object h ha hk fun o ho => hleft o (mem_setObject.2 (Or.inl ho))
  refine ⟨self', hcall, h', fun o ho => ?_⟩
  rw [hretained, add_cons]
  exact Nat.add_pos_left (hleft o ho) _

/-- Otherwise it is lost. -/
theorem ready_setObject_old {l₁ l₂ : List (α × Id α)} {a k o : α} {old object : Id α}
    {self' : NSMutableDictionary α}
    (h : Represents sizeofId isEqual owners self (l₁ ++ (a, old) :: l₂)) (ha : isEqual a k)
    (hk : ∀ p ∈ l₁, ¬ isEqual p.1 k) (hcall : self.setObject sizeofId isEqual object (some k) =
      some self')
    (hlive : ∀ o ∈ (Call.setObject object (some k)).arguments, 0 < self'.retained o)
    (hold : old = some o)
    (ho : object = some o ∨ some k = some o) : 1 < self.retained o := by
  obtain ⟨values, -, heq⟩ := setObject_old object h ha hk
  rw [hcall] at heq
  obtain ⟨retained, hretain, rfl⟩ := Option.map_eq_some_iff.1 heq.symm
  rw [retained_old h, if_pos hold]
  refine Nat.lt_add_of_pos_left (Nat.pos_of_ne_zero fun hzero => ?_)
  have hpos := hlive o (mem_setObject.2 ho)
  cases object with
  | none =>
    rw [Counts.retain, Option.some_inj] at hretain
    exact absurd (hretain ▸ hzero) (Nat.ne_of_gt hpos)
  | some v =>
    rw [Counts.retain] at hretain
    split_ifs at hretain with hv
    by_cases hov : o = v
    · exact hv (hov ▸ hzero)
    · rw [← Option.some.inj hretain] at hpos
      dsimp only at hpos
      rw [Function.update_of_ne hov, hzero] at hpos
      exact absurd hpos (Nat.lt_irrefl 0)

/-- A pair is removed: its references to the argument are not the only ones. -/
theorem removeObjectForKey_live_iff {l₁ l₂ : List (α × Id α)} {a k : α} {old : Id α}
    {self' : NSMutableDictionary α}
    (h : Represents sizeofId isEqual owners self (l₁ ++ (a, old) :: l₂))
    (h' : Represents sizeofId isEqual owners self' (l₁ ++ l₂)) :
    0 < self'.retained k ↔
      [self.keys.get l₁.length, self.values.get l₁.length].count (some (some k)) <
        self.retained k := by
  obtain ⟨hkey, hvalue⟩ := values_get h
  rw [hkey, hvalue, retained_old h, add_cons, ← h'.retained]
  simp only [List.count_cons, List.count_nil, beq_iff_eq, Option.some_inj]
  omega

variable {c : Call α} {m : α → Option (Id α)}

/-- **One call** that is ready does to the dictionary what it does to the map. -/
theorem represents_call (hid : 0 < sizeofId) (heq : Equivalence fun a b => isEqual a b = true)
    (h : Represents sizeofId isEqual owners self l)
    (hcalled : Called sizeofId ⟨some self, m, owners⟩ c)
    (hready : self.Ready isEqual c) :
    ∃ self' l', self.call sizeofId isEqual c = some self' ∧
    Represents sizeofId isEqual (ownersCall owners c) self' l' ∧
      mapCall isEqual (Assoc.lookup isEqual l) c = Assoc.lookup isEqual l' ∧ ∀ o ∈ c.arguments,
      0 < self'.retained o := by
  obtain ⟨hlive, hcalled⟩ := hcalled self rfl
  cases c with
  | setObject object key =>
    obtain ⟨hkey, hfreed, hready⟩ := hready
    obtain ⟨k, rfl⟩ := Option.ne_none_iff_exists'.1 hkey
    rcases Assoc.exists_split isEqual l k with hk | ⟨l₁, a, old, l₂, rfl, ha, hk⟩
    · rw [h.count] at hcalled
      have hlive' : ∀ o, o = k ∨ object = some o → 0 < self.retained o := fun o ho =>
        hlive o (mem_setObject.2 (ho.symm.imp id fun ho => congrArg some ho.symm))
      obtain ⟨self', hcall, h'⟩ := setObject_new hid h hfreed hk hlive' hcalled
      refine ⟨self', _, hcall, h', (Assoc.lookup_push heq hk).symm, fun o ho => h'.live ?_⟩
      have hmem := mem_refs (l := l ++ [(k, object)])
        (List.mem_append_right l (List.mem_singleton_self (k, object)))
      rcases mem_setObject.1 ho with rfl | ho
      · exact hmem.2
      · exact ho ▸ hmem.1
    · obtain ⟨self', hcall, h', hlive'⟩ := done_setObject_old h ha hk hlive fun o hold ho =>
        hready _ o (find_some h ha hk) (by rw [(values_get h).2, hold]) ho
      exact ⟨self', _, hcall, h', (Assoc.lookup_replace heq hk ha).symm, hlive'⟩
  | removeObjectForKey key =>
    cases key with
    | none =>
      refine ⟨self, l, ?_, h, rfl, hlive⟩
      rw [call, removeObjectForKey, find_nil h]
      rfl
    | some k =>
      rcases Assoc.exists_split isEqual l k with hk | ⟨l₁, a, old, l₂, rfl, ha, hk⟩
      · refine ⟨self, l, ?_, h, ?_, hlive⟩
        · rw [call, removeObjectForKey, find_none h hk]
          rfl
        · funext k'
          rw [mapCall, Assoc.remove]
          split_ifs with hk'
          · exact (Assoc.lookup_eq_none_of_eq heq hk hk').symm
          · rfl
      · obtain ⟨self', hcall, h'⟩ := represents_removeObjectForKey h ha hk
        refine ⟨self', _, hcall, h', (Assoc.lookup_remove heq (h.distinct.not_eq heq ha) ha).symm,
          fun o ho => ?_⟩
        have ho' := mem_removeObjectForKey.1 ho
        exact (removeObjectForKey_live_iff h h').2 (hready _ o (find_some h ha hk) ho')
  | removeAllObjects =>
    obtain ⟨self', hcall, h'⟩ := represents_removeAllObjects h hready
    exact ⟨self', [], hcall, h', rfl, fun o ho => absurd ho List.not_mem_nil⟩
  | retain o =>
    obtain ⟨self', hcall, h'⟩ := represents_retain h hcalled
    exact ⟨self', l, hcall, h', rfl, fun o ho => absurd ho List.not_mem_nil⟩
  | release o =>
    obtain ⟨self', hcall, h'⟩ := represents_release h hcalled
    exact ⟨self', l, hcall, h', rfl, fun o ho => absurd ho List.not_mem_nil⟩

/-- A call that does what the map does is ready. -/
theorem ready_of_done (heq : Equivalence fun a b => isEqual a b = true)
    (h : Represents sizeofId isEqual owners self l)
    (hdone : Done sizeofId isEqual ⟨some self, Assoc.lookup isEqual l, owners⟩ c) :
    self.Ready isEqual c := by
  obtain ⟨self', hcall, hanswers, hlive⟩ := hdone
  rw [step, Option.bind_some] at hcall
  cases c with
  | setObject object key =>
    refine ⟨?_, ?_, fun i o hi ho hmem => ?_⟩
    · rintro rfl
      exact not_answers_nil heq h hcall hanswers
    · intro hfreed
      rw [call, setObject_freed h hfreed] at hcall
      cases hcall
    · cases key with
      | none => rw [find_nil h] at hi; cases hi
      | some k =>
        rcases Assoc.exists_split isEqual l k with hk | ⟨l₁, a, old, l₂, rfl, ha, hk⟩
        · rw [find_none h hk] at hi
          cases hi
        · obtain rfl : l₁.length = i := by simpa [find_some h ha hk] using hi
          rw [(values_get h).2, Option.some_inj] at ho
          exact ready_setObject_old h ha hk hcall hlive ho hmem
  | removeObjectForKey key =>
    rintro i k hi rfl
    rcases Assoc.exists_split isEqual l k with hk | ⟨l₁, a, old, l₂, rfl, ha, hk⟩
    · rw [find_none h hk] at hi
      cases hi
    · obtain rfl : l₁.length = i := by simpa [find_some h ha hk] using hi
      obtain ⟨self'', hcall', h'⟩ := represents_removeObjectForKey h ha hk
      obtain rfl : self'' = self' := Option.some.inj (hcall'.symm.trans hcall)
      exact (removeObjectForKey_live_iff h h').1 (hlive k (mem_removeObjectForKey.2 rfl))
  | removeAllObjects =>
    intro hfreed
    rw [call, removeAllObjects_freed h hfreed] at hcall
    cases hcall
  | _ => trivial

/-! ## Constructors -/

omit [DecidableEq α] in
/-- Both the keys and the values are counted. -/
theorem countArgs_eq (pairs : List (α × α)) (n : ℕ) :
    countArgs (pairs.flatMap (fun q => [some q.1, some q.2]) ++ [none]) n =
      some (n + 2 * pairs.length) := by
  induction pairs generalizing n with
  | nil => rfl
  | cons p pairs ih =>
    rw [List.flatMap_cons, List.append_assoc, List.length_cons]
    refine (ih (n + 1 + 1)).trans (congrArg some ?_)
    omega

theorem storeArgs_count {self self' : NSMutableDictionary α} :
    ∀ {i : ℕ} {args : List (Id α)}, storeArgs i args self = some self' → self'.count = self.count
  | i, none :: args, h => congrArg count (Option.some.inj h).symm
  | i, some key :: value :: args, h => by
    obtain ⟨self₁, hstore, h⟩ := Option.bind_eq_some_iff.1 h
    exact (storeArgs_count h).trans (storePair_count hstore)
  | i, [], h => by cases h
  | i, [some key], h => by cases h

theorem ofPairs_count {p : α × α} {pairs : List (α × α)}
    (h : ofPairs sizeofId owners (p :: pairs) = some self) :
    self.count = 1 + 2 * pairs.length := by
  rw [ofPairs, dictionaryWithObjects, if_neg (by simp), countArgs_eq, Option.bind_some] at h
  obtain ⟨self₁, hstore, h⟩ := Option.bind_eq_some_iff.1 h
  rw [storeArgs_count h, storePair_count hstore]

omit [DecidableEq α] in
theorem mem_of_foldl_set {pairs : List (α × α)} {m : α → Option (Id α)} {k : α}
    (h : (pairs.foldl (fun m p => Assoc.set isEqual m p.1 (some p.2)) m k).isSome) :
    (m k).isSome ∨ ∃ a ∈ pairs.map Prod.fst, isEqual a k := by
  induction pairs generalizing m with
  | nil => exact Or.inl h
  | cons p pairs ih =>
    rcases ih h with hset | ⟨a, ha, hk⟩
    · by_cases hk : isEqual p.1 k
      · exact Or.inr ⟨p.1, List.mem_cons_self, hk⟩
      · have hset' : (if isEqual p.1 k then some (some p.2) else m k).isSome := hset
        rw [if_neg hk] at hset'
        exact Or.inl hset'
    · exact Or.inr ⟨a, List.mem_cons_of_mem _ ha, hk⟩

/-- Of more than one pair, the dictionary has more keys than there are pairs. -/
theorem length_le_of_answers (heq : Equivalence fun a b => isEqual a b = true)
    {pairs : List (α × α)}
    (h : (start sizeofId isEqual owners pairs).dict = some self)
    (hanswers : Answers sizeofId isEqual self (start sizeofId isEqual owners pairs).map) :
    pairs.length ≤ 1 := by
  cases pairs with
  | nil => exact Nat.zero_le _
  | cons p pairs =>
    obtain ⟨⟨ks, hks, hcount, -⟩, -, -⟩ := hanswers
    have hle : ks.length ≤ ((p :: pairs).map Prod.fst).length := by
      refine hks.length_le heq fun k hk => ?_
      exact (mem_of_foldl_set hk).resolve_left (by simp)
    rw [← hcount, ofPairs_count h, List.length_map] at hle
    rw [List.length_cons] at hle ⊢
    omega

theorem represents_start (hid : 0 < sizeofId) (heq : Equivalence fun a b => isEqual a b = true)
    {pairs : List (α × α)}
    (hlive : ∀ p ∈ pairs, 0 < owners p.1 ∧ 0 < owners p.2) (hpairs : pairs.length ≤ 1) :
    ∃ self l, (start sizeofId isEqual owners pairs).dict = some self ∧
    Represents sizeofId isEqual owners self l ∧
      (start sizeofId isEqual owners pairs).map = Assoc.lookup isEqual l := by
  have hnil : Represents sizeofId isEqual owners (dictionary owners) [] := by
    refine ⟨rfl, Or.inl ⟨rfl, rfl, Iff.rfl⟩, rfl, List.Pairwise.nil, ?_⟩
    rw [List.length_nil, Nat.mul_zero]
    exact Nat.two_pow_pos _
  match pairs, hpairs with
  | [], _ => exact ⟨_, [], rfl, hnil, rfl⟩
  | [(k, v)], _ =>
    obtain ⟨hk, hv⟩ := hlive (k, v) List.mem_cons_self
    have hfits : sizeofId * (0 + 1) < 2 ^ (8 * sizeofId) := by
      have := Nat.lt_two_pow_self (n := 8 * sizeofId)
      omega
    have hsize : (mallocIds sizeofId 1 : HeapArray (Id α)).size = 1 :=
      NSMutableArray.elements_eq hid hfits
    have hholds : (mallocIds sizeofId 1 : HeapArray (Id α)).Holds [] :=
      ⟨Nat.zero_le _, fun i hi => absurd hi (Nat.not_lt_zero i)⟩
    have hlive' : ∀ o, o = k ∨ some v = some o → 0 < (dictionary owners).retained o := by
      rintro o (rfl | ho)
      · exact hk
      · exact Option.some.inj ho ▸ hv
    have hlt : ([] : List (α × Id α)).length < (mallocIds sizeofId 1 : HeapArray (Id α)).size := by
      rw [hsize]
      exact Nat.one_pos
    obtain ⟨self, hstore, h⟩ :=
      represents_storePair hnil hholds hholds hlt hlt (fun p hp => absurd hp List.not_mem_nil)
        hlive' hfits
    refine ⟨self, _, ?_, h, (Assoc.lookup_push heq fun p hp => absurd hp List.not_mem_nil).symm⟩
    have hcount : countArgs [(none : Id α)] 1 = some 1 := rfl
    rw [start, ofPairs, dictionaryWithObjects, if_neg (by simp), List.flatMap_nil, List.nil_append,
      hcount, Option.bind_some]
    exact congrArg (·.bind (storeArgs 1 [none])) hstore

/-- **Runs.**  A dictionary is the finite map that the same is done to, exactly if it was made of at most one pair and
    every call is ready. -/
theorem dictionary_run (hid : 0 < sizeofId) (heq : Equivalence fun a b => isEqual a b = true)
    {pairs : List (α × α)}
    (hlive : ∀ p ∈ pairs, 0 < owners p.1 ∧ 0 < owners p.2) {log : List (Call α)}
    (hlog : Meets (step sizeofId isEqual) (Called sizeofId)
      (start sizeofId isEqual owners pairs) log) :
    (∃ self, (start sizeofId isEqual owners pairs).dict = some self ∧
        Answers sizeofId isEqual self (start sizeofId isEqual owners pairs).map) ∧
      Meets (step sizeofId isEqual) (Done sizeofId isEqual) (start sizeofId isEqual owners pairs) log ↔
    pairs.length ≤ 1 ∧ Meets (step sizeofId isEqual) (fun x c => ∀ self, x.dict = some self →
      self.Ready isEqual c)
      (start sizeofId isEqual owners pairs) log := by
  have hiff (hpairs : pairs.length ≤ 1) := meets_iff_meets (F := Done sizeofId isEqual)
    (C := fun x c => ∀ self, x.dict = some self → self.Ready isEqual c) (A := Called sizeofId)
    (I := fun x => ∃ self l, x.dict = some self ∧ Represents sizeofId isEqual x.owners self l ∧
      x.map = Assoc.lookup isEqual l)
    ?_ ?_ (represents_start hid heq hlive hpairs) hlog
  · constructor
    · rintro ⟨⟨self, hself, hanswers⟩, hdone⟩
      have hpairs := length_le_of_answers heq hself hanswers
      exact ⟨hpairs, (hiff hpairs).1 hdone⟩
    · rintro ⟨hpairs, hready⟩
      obtain ⟨self, l, hself, h, hmap⟩ := represents_start hid heq hlive hpairs
      refine ⟨⟨self, hself, ?_⟩, (hiff hpairs).2 hready⟩
      rw [hmap]
      exact h.answers hid heq
  · rintro ⟨_, _, owners⟩ c ⟨self, l, rfl, h, rfl⟩ hcalled
    constructor
    · rintro hdone _ ⟨⟩
      exact ready_of_done heq h hdone
    · intro hready
      obtain ⟨self', l', hcall, h', hmap, hlive'⟩ :=
        represents_call hid heq h hcalled (hready self rfl)
      refine ⟨self', hcall, ?_, hlive'⟩
      rw [step, hmap]
      exact h'.answers hid heq
  · rintro ⟨_, _, owners⟩ c ⟨self, l, rfl, h, rfl⟩ hcalled hdone
    obtain ⟨self', l', hcall, h', hmap, -⟩ :=
      represents_call hid heq h hcalled (ready_of_done heq h hdone)
    exact ⟨self', l', hcall, h', hmap⟩

/-- A value is replaced, the pair is removed, and the dictionary is emptied. -/
theorem dictionary_run_one :
    Meets (step 8 (· == ·)) (Done 8 (· == ·)) (start 8 (· == ·) (fun _ => 1) [(1, 2)])
      [.setObject (some 3) (some 1), .removeObjectForKey (some 1), .removeAllObjects] := by
  have heq : Equivalence fun a b : ℕ => (a == b) = true :=
    ⟨beq_self_eq_true, fun h => beq_iff_eq.2 (beq_iff_eq.1 h).symm,
      fun h h' => beq_iff_eq.2 ((beq_iff_eq.1 h).trans (beq_iff_eq.1 h'))⟩
  refine ((dictionary_run (by decide) heq ?_ ?_).2 ⟨by decide, ?_⟩).2
  · exact fun _ _ => ⟨Nat.one_pos, Nat.one_pos⟩
  · refine ⟨?_, ?_, ?_, trivial⟩
    · rintro _ ⟨rfl⟩
      exact ⟨by decide, by decide⟩
    · rintro _ ⟨rfl⟩
      exact ⟨by decide, trivial⟩
    · rintro _ ⟨rfl⟩
      exact ⟨by decide, trivial⟩
  · refine ⟨?_, ?_, ?_, trivial⟩
    · rintro _ ⟨rfl⟩
      refine ⟨nofun, nofun, fun i o hi ho hmem => ?_⟩
      obtain rfl : 0 = i := by simpa using (show some (some 0) = some (some i) from hi)
      obtain rfl : 2 = o := by simpa using (show some (some 2) = some (some o) from ho)
      rcases hmem with hmem | hmem <;> exact absurd hmem (by decide)
    · rintro _ ⟨rfl⟩ i o hi ⟨rfl⟩
      obtain rfl : 0 = i := by simpa using (show some (some 0) = some (some i) from hi)
      decide
    · rintro _ ⟨rfl⟩
      exact nofun

/-- Of two pairs, there are three keys.  An array that was freed is reallocated.  The only reference to a value is given up
    before it is set again, and the only one to a key that is removed.  With the key nil, a value is not found again. -/
theorem dictionary_broken :
    (start 8 (· == ·) (fun _ => 1) [(1, 2), (3, 4)]).dict.map count = some 3 ∧
    ([.removeAllObjects, .setObject (some 2) (some 1)].foldl (step 8 (· == ·))
      (start 8 (· == ·) (fun _ => 1) [(1, 2)])).dict.isNone ∧
    ([.release 2, .setObject (some 2) (some 1)].foldl (step 8 (· == ·))
      (start 8 (· == ·) (fun _ => 1) [(1, 2)])).dict.isNone ∧
    ([.release 1, .removeObjectForKey (some 1)].foldl (step 8 (· == ·))
      (start 8 (· == ·) (fun _ => 1) [(1, 2)])).dict.map
      (fun self => self.retained 1) = some 0 ∧
    ([.setObject (some 2) none].foldl (step 8 (· == ·)) (start 8 (· == ·) (fun _ => 1) [])).dict.map
      (fun self => (self.count, self.objectForKey (· == ·) none)) = some (1, some none) := by
  decide

end

end NSMutableDictionary

end PocketDarwin.NextStd
