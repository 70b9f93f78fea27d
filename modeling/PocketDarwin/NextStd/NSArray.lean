/-
  `NSMutableArray` of NextStd: a buffer of objects that is reallocated, shifted and freed.

  Objects have retain counts; a message to an object that was released to zero, and what
  `HeapArray` does not define, is `none`.  Sizes are those of `size_t`: `realloc` is assumed to
  succeed, so that what is asked for is a size.

  * `Represents`: the buffer holds a list, and the counts are those of its objects.
  * `represents_call`: a message to the array is the operation on the list.
  * `array_run`: so it is for runs, exactly if no `removeObject:` is about an object that is first
    at the index `NSNotFound`: this one is not removed.
-/
import PocketDarwin.HeapArray
import PocketDarwin.Runs
import Mathlib.Algebra.Group.Nat.Defs
import Mathlib.Data.List.Basic
import Mathlib.Data.List.Perm.Basic

namespace PocketDarwin.NextStd

/-! ## Objects -/

/-- An object, or nil. -/
abbrev Id (α : Type) := Option α

/-- The retain counts of objects. -/
abbrev Counts (α : Type) := α → ℕ

section
variable {α : Type} [DecidableEq α]

/-- `[object retain]`, which must not be deallocated. -/
def Counts.retain (counts : Counts α) : Id α → Option (Counts α)
  | none => some counts
  | some o => if counts o = 0 then none else some (Function.update counts o (counts o + 1))

/-- `[object release]`; it is deallocated at zero. -/
def Counts.release (counts : Counts α) : Id α → Option (Counts α)
  | none => some counts
  | some o => if counts o = 0 then none else some (Function.update counts o (counts o - 1))

/-- How often the object is in the list. -/
def Counts.add (counts : Counts α) (l : List (Id α)) : Counts α :=
  fun o => counts o + l.count (some o)

variable {counts : Counts α} {l l' : List (Id α)} {object : Id α}

theorem Counts.add_perm (h : l.Perm l') : counts.add l = counts.add l' :=
  funext fun o => congrArg (counts o + ·) (h.count_eq (some o))

/-- An object is retained that is not deallocated. -/
theorem Counts.retain_add {object : Id α} (hlive : ∀ o ∈ object, 0 < counts.add l o) :
    (counts.add l).retain object = some (counts.add (object :: l)) := by
  cases object with
  | none =>
    rw [retain]
    refine congrArg some (funext fun o => ?_)
    rw [add, add, List.count_cons_of_ne (by simp)]
  | some x =>
    rw [retain, if_neg (Nat.ne_of_gt (hlive x rfl))]
    refine congrArg some (funext fun o => ?_)
    by_cases ho : o = x
    · subst ho
      rw [Function.update_self, add, add, List.count_cons_self, Nat.add_assoc]
    · rw [Function.update_of_ne ho, add, add, List.count_cons_of_ne (by simpa using Ne.symm ho)]

/-- An object is released that is in the list. -/
theorem Counts.release_add (object : Id α) (l : List (Id α)) :
    (counts.add (object :: l)).release object = some (counts.add l) := by
  cases object with
  | none =>
    rw [release]
    refine congrArg some (funext fun o => ?_)
    rw [add, add, List.count_cons_of_ne (by simp)]
  | some x =>
    have hpos : counts.add (some x :: l) x ≠ 0 := by
      rw [add, List.count_cons_self]
      omega
    rw [release, if_neg hpos]
    refine congrArg some (funext fun o => ?_)
    by_cases ho : o = x
    · subst ho
      rw [Function.update_self, add, add, List.count_cons_self]
      omega
    · rw [Function.update_of_ne ho, add, add, List.count_cons_of_ne (by simpa using Ne.symm ho)]

end

/-! ## The array -/

def nsNotFound : ℕ := 0x7FFFFFFF

/-- An array, and the retain counts of all objects. -/
structure NSMutableArray (α : Type) where
  count : ℕ
  objects : HeapArray (Id α)
  retained : Counts α

/-- The elements that `sizeof(id) * n` bytes are enough for; the product is a `size_t`. -/
def elements (sizeofId n : ℕ) : ℕ := sizeofId * n % 2 ^ (8 * sizeofId) / sizeofId

namespace NSMutableArray
variable {α : Type} [DecidableEq α]

/-- `+array` -/
def array (retained : Counts α) : NSMutableArray α := ⟨0, .null, retained⟩

section
variable (sizeofId : ℕ) (self : NSMutableArray α)

def addObject (object : Id α) : Option (NSMutableArray α) :=
  (self.objects.realloc (elements sizeofId (self.count + 1))).bind fun objects =>
    (self.retained.retain object).bind fun retained =>
      (objects.set self.count object).map fun objects => ⟨self.count + 1, objects, retained⟩

def removeObjectAtIndex (index : ℕ) : Option (NSMutableArray α) :=
  if index ≥ self.count then some self
  else
    (self.objects.get index).bind fun object => (self.retained.release object).bind fun retained =>
      (self.objects.shift index (self.count - 1 - index)).map fun objects =>
        ⟨self.count - 1, objects, retained⟩

def removeLastObject : Option (NSMutableArray α) :=
  if self.count = 0 then some self
  else
    (self.objects.get (self.count - 1)).bind fun object => (self.retained.release object).map
      fun retained =>
      ⟨self.count - 1, self.objects, retained⟩

def insertObject (object : Id α) (index : ℕ) : Option (NSMutableArray α) :=
  if index > self.count then some self
  else
    (self.objects.realloc (elements sizeofId (self.count + 1))).bind fun objects =>
      (objects.move (index + 1) index (self.count - index)).bind fun objects =>
        (self.retained.retain object).bind fun retained =>
          (objects.set index object).map fun objects => ⟨self.count + 1, objects, retained⟩

def replaceObjectAtIndex (index : ℕ) (object : Id α) : Option (NSMutableArray α) :=
  if index ≥ self.count then some self
  else
    (self.objects.get index).bind fun old => (self.retained.release old).bind fun retained =>
      (retained.retain object).bind fun retained =>
        (self.objects.set index object).map fun objects => ⟨self.count, objects, retained⟩

/-- The loop of `removeAllObjects`, of `n` rounds. -/
def releaseFrom (objects : HeapArray (Id α)) (i : ℕ) : ℕ → Counts α → Option (Counts α)
  | 0, retained => some retained
  | n + 1, retained =>
    (objects.get i).bind fun object =>
      (retained.release object).bind (releaseFrom objects (i + 1) n)

def removeAllObjects : Option (NSMutableArray α) :=
  (releaseFrom self.objects 0 self.count self.retained).bind fun retained =>
    self.objects.free.map fun _ => ⟨0, .null, retained⟩

/-- The loop of `indexOfObject:`, of `n` rounds. -/
def indexFrom (objects : HeapArray (Id α)) (object : Id α) (i : ℕ) : ℕ → Option ℕ
  | 0 => some nsNotFound
  | n + 1 =>
    (objects.get i).bind fun o => if o = object then some i else indexFrom objects object (i + 1) n

def indexOfObject (object : Id α) : Option ℕ := indexFrom self.objects object 0 self.count

def removeObject (object : Id α) : Option (NSMutableArray α) :=
  (self.indexOfObject object).bind fun idx => if idx ≠ nsNotFound then self.removeObjectAtIndex idx
    else some self

def objectAtIndex (index : ℕ) : Option (Id α) :=
  if index ≥ self.count then some none else self.objects.get index

def firstObject : Option (Id α) := if self.count > 0 then self.objects.get 0 else some none

def lastObject : Option (Id α) :=
  if self.count > 0 then self.objects.get (self.count - 1) else some none

end

/-- The messages that change an array. -/
inductive Call (α : Type) where
  | addObject (object : Id α)
  | insertObject (object : Id α) (index : ℕ)
  | removeObjectAtIndex (index : ℕ)
  | removeLastObject
  | removeObject (object : Id α)
  | replaceObjectAtIndex (index : ℕ) (object : Id α)
  | removeAllObjects

def call (sizeofId : ℕ) (self : NSMutableArray α) : Call α → Option (NSMutableArray α)
  | .addObject object => self.addObject sizeofId object
  | .insertObject object index => self.insertObject sizeofId object index
  | .removeObjectAtIndex index => self.removeObjectAtIndex index
  | .removeLastObject => self.removeLastObject
  | .removeObject object => self.removeObject object
  | .replaceObjectAtIndex index object => self.replaceObjectAtIndex index object
  | .removeAllObjects => self.removeAllObjects

/-- What the messages are on lists. -/
def listCall (l : List (Id α)) : Call α → List (Id α)
  | .addObject object => l ++ [object]
  | .insertObject object index => if index ≤ l.length then l.insertIdx index object else l
  | .removeObjectAtIndex index => l.eraseIdx index
  | .removeLastObject => l.dropLast
  | .removeObject object => l.erase object
  | .replaceObjectAtIndex index object => l.set index object
  | .removeAllObjects => []

/-- An array and a list, to which the same is done. -/
def step (sizeofId : ℕ) (x : Option (NSMutableArray α) × List (Id α)) (c : Call α) :
    Option (NSMutableArray α) × List (Id α) :=
  (x.1.bind fun self => self.call sizeofId c, listCall x.2 c)

/-! ## Calls -/

/-- The array is the list, and its objects are retained once for each place that they are at. -/
structure Represents (counts : Counts α) (a : NSMutableArray α) (l : List (Id α)) : Prop where
  count : a.count = l.length
  objects : a.objects.Holds l
  retained : a.retained = counts.add l

/-- `realloc` succeeds: what it is asked for is a size. -/
def Reallocs (sizeofId : ℕ) (l : List (Id α)) : Call α → Prop
  | .addObject _ => sizeofId * (l.length + 1) < 2 ^ (8 * sizeofId)
  | .insertObject _ index => index ≤ l.length → sizeofId * (l.length + 1) < 2 ^ (8 * sizeofId)
  | _ => True

/-- The object is not at the index that means that there is none. -/
def Found (l : List (Id α)) : Call α → Prop
  | .removeObject object => object ∈ l → l.idxOf object ≠ nsNotFound
  | _ => True

section
variable {counts : Counts α} {self : NSMutableArray α} {l : List (Id α)} {sizeofId : ℕ} {c : Call α}

theorem elements_eq {n : ℕ} (hid : 0 < sizeofId) (h : sizeofId * n < 2 ^ (8 * sizeofId)) :
    elements sizeofId n = n := by
  rw [elements, Nat.mod_eq_of_lt h, Nat.mul_div_cancel_left n hid]

theorem indexFrom_eq {objects : HeapArray (Id α)} (h : objects.Holds l) (object : Id α) {i n : ℕ}
    (hi : i + n = l.length) :
    indexFrom objects object i n =
      some (if object ∈ l.drop i then i + (l.drop i).idxOf object else nsNotFound) := by
  induction n generalizing i with
  | zero =>
    rw [List.drop_eq_nil_of_le (by omega), if_neg List.not_mem_nil]
    rfl
  | succ n ih =>
    have hlt : i < l.length := by omega
    rw [indexFrom, h.get hlt, Option.bind_some, List.drop_eq_getElem_cons hlt]
    by_cases ho : l[i] = object
    · rw [if_pos ho, ho, if_pos List.mem_cons_self, List.idxOf_cons_self, Nat.add_zero]
    · have hmem : object ∈ l[i] :: l.drop (i + 1) ↔ object ∈ l.drop (i + 1) := by
        rw [List.mem_cons, or_iff_right (Ne.symm ho)]
      rw [if_neg ho, ih (by omega), List.idxOf_cons_ne _ ho]
      simp only [hmem, Nat.succ_eq_add_one, Nat.add_assoc, Nat.add_comm 1]

theorem indexOfObject_eq (h : Represents counts self l) (object : Id α) :
    self.indexOfObject object = some (if object ∈ l then l.idxOf object else nsNotFound) := by
  rw [indexOfObject, indexFrom_eq h.objects object (by rw [Nat.zero_add, h.count]), List.drop_zero,
    Nat.zero_add]

theorem releaseFrom_eq {objects : HeapArray (Id α)} (h : objects.Holds l) {i n : ℕ}
    (hi : i + n = l.length) :
    releaseFrom objects i n (counts.add (l.drop i)) = some (counts.add []) := by
  induction n generalizing i with
  | zero =>
    rw [List.drop_eq_nil_of_le (by omega)]
    rfl
  | succ n ih =>
    have hlt : i < l.length := by omega
    rw [releaseFrom, h.get hlt, Option.bind_some, List.drop_eq_getElem_cons hlt, Counts.release_add,
      Option.bind_some,
      ih (by omega)]

theorem represents_addObject (hid : 0 < sizeofId) (h : Represents counts self l) {object : Id α}
    (hlive : ∀ o ∈ object, 0 < counts o) (hsize : sizeofId * (l.length + 1) < 2 ^ (8 * sizeofId)) :
    ∃ self', self.addObject sizeofId object = some self' ∧ Represents counts self' (l ++ [object]) := by
  obtain ⟨hcount, hobjects, hretained⟩ := h
  obtain ⟨p₁, hrealloc, hp₁, h₁⟩ := hobjects.realloc (Nat.le_succ l.length)
  obtain ⟨p₂, hset, h₂⟩ := h₁.push (by rw [hp₁]; exact Nat.lt_succ_self _) object
  refine ⟨⟨l.length + 1, p₂, counts.add (object :: l)⟩, ?_, ?_, h₂, ?_⟩
  · rw [addObject, hcount, elements_eq hid hsize, hrealloc, Option.bind_some, hretained,
      Counts.retain_add (fun o ho => Nat.add_pos_left (hlive o ho) _),
      Option.bind_some, hset]
    rfl
  · rw [List.length_append]
    rfl
  · exact Counts.add_perm (List.perm_append_singleton object l).symm

theorem represents_insertObject (hid : 0 < sizeofId) (h : Represents counts self l) {object : Id α}
    (hlive : ∀ o ∈ object, 0 < counts o) {index : ℕ} (hindex : index ≤ l.length)
    (hsize : sizeofId * (l.length + 1) < 2 ^ (8 * sizeofId)) :
    ∃ self', self.insertObject sizeofId object index = some self' ∧
    Represents counts self' (l.insertIdx index object) := by
  obtain ⟨hcount, hobjects, hretained⟩ := h
  obtain ⟨p₁, hrealloc, hp₁, h₁⟩ := hobjects.realloc (Nat.le_succ l.length)
  obtain ⟨p₂, p₃, hmove, hset, h₃⟩ := h₁.insert (by rw [hp₁]; exact Nat.lt_succ_self _)
    hindex object
  refine ⟨⟨l.length + 1, p₃, counts.add (object :: l)⟩, ?_, ?_, h₃, ?_⟩
  · rw [insertObject, hcount, if_neg (Nat.not_lt.2 hindex), elements_eq hid hsize, hrealloc,
      Option.bind_some, hmove,
      Option.bind_some, hretained, Counts.retain_add (fun o ho => Nat.add_pos_left (hlive o ho) _),
      Option.bind_some, hset]
    rfl
  · rw [List.length_insertIdx_of_le_length hindex]
  · exact Counts.add_perm (List.perm_insertIdx object l hindex).symm

theorem represents_removeObjectAtIndex (h : Represents counts self l) (index : ℕ) :
    ∃ self', self.removeObjectAtIndex index = some self' ∧
    Represents counts self' (l.eraseIdx index) := by
  obtain ⟨hcount, hobjects, hretained⟩ := h
  by_cases hindex : index < l.length
  · obtain ⟨p, hshift, hp⟩ := hobjects.shift (i := index) (n := l.length - 1 - index) (by omega)
    have hperm : l.Perm (l[index] :: l.eraseIdx index) :=
      (List.getElem_cons_eraseIdx_perm hindex).symm
    refine ⟨⟨l.length - 1, p, counts.add (l.eraseIdx index)⟩, ?_, ?_, hp, rfl⟩
    · rw [removeObjectAtIndex, hcount, if_neg (Nat.not_le.2 hindex), hobjects.get hindex,
        Option.bind_some, hretained,
        Counts.add_perm hperm, Counts.release_add, Option.bind_some, hshift]
      rfl
    · rw [List.length_eraseIdx_of_lt hindex]
  · refine ⟨self, ?_, ?_⟩
    · rw [removeObjectAtIndex, hcount, if_pos (Nat.not_lt.1 hindex)]
    · rw [List.eraseIdx_of_length_le (Nat.not_lt.1 hindex)]
      exact ⟨hcount, hobjects, hretained⟩

theorem represents_removeLastObject (h : Represents counts self l) :
    ∃ self', self.removeLastObject = some self' ∧ Represents counts self' l.dropLast := by
  obtain ⟨hcount, hobjects, hretained⟩ := h
  by_cases hzero : l.length = 0
  · obtain rfl := List.length_eq_zero_iff.1 hzero
    exact ⟨self, if_pos hcount, hcount, hobjects, hretained⟩
  · have hlast : l.length - 1 < l.length := by omega
    have hperm : l.Perm (l[l.length - 1] :: l.dropLast) := by
      rw [← List.eraseIdx_eq_dropLast (i := l.length - 1) (by omega)]
      exact (List.getElem_cons_eraseIdx_perm hlast).symm
    refine ⟨⟨l.length - 1, self.objects, counts.add l.dropLast⟩, ?_, ?_,
      hobjects.of_prefix (List.dropLast_prefix l), rfl⟩
    · rw [removeLastObject, hcount, if_neg hzero, hobjects.get hlast, Option.bind_some, hretained,
        Counts.add_perm hperm,
        Counts.release_add]
      rfl
    · rw [List.length_dropLast]

theorem represents_replaceObjectAtIndex (h : Represents counts self l) (index : ℕ) {object : Id α}
    (hlive : ∀ o ∈ object, 0 < counts o) :
    ∃ self', self.replaceObjectAtIndex index object = some self' ∧
    Represents counts self' (l.set index object) := by
  obtain ⟨hcount, hobjects, hretained⟩ := h
  by_cases hindex : index < l.length
  · obtain ⟨p, hset, hp⟩ := hobjects.set hindex object
    have hperm : l.Perm (l[index] :: l.eraseIdx index) :=
      (List.getElem_cons_eraseIdx_perm hindex).symm
    refine ⟨⟨l.length, p, counts.add (object :: l.eraseIdx index)⟩, ?_, ?_, hp, ?_⟩
    · rw [replaceObjectAtIndex, hcount, if_neg (Nat.not_le.2 hindex), hobjects.get hindex,
        Option.bind_some, hretained,
        Counts.add_perm hperm, Counts.release_add, Option.bind_some,
        Counts.retain_add (fun o ho => Nat.add_pos_left (hlive o ho) _), Option.bind_some, hset]
      rfl
    · rw [List.length_set]
    · exact Counts.add_perm (List.set_perm_cons_eraseIdx hindex object).symm
  · refine ⟨self, ?_, ?_⟩
    · rw [replaceObjectAtIndex, hcount, if_pos (Nat.not_lt.1 hindex)]
    · rw [List.set_eq_of_length_le (Nat.not_lt.1 hindex)]
      exact ⟨hcount, hobjects, hretained⟩

theorem represents_removeAllObjects (h : Represents counts self l) :
    ∃ self', self.removeAllObjects = some self' ∧ Represents counts self' [] := by
  obtain ⟨hcount, hobjects, hretained⟩ := h
  obtain ⟨p, hfree⟩ := hobjects.free
  have hrelease : releaseFrom self.objects 0 l.length (counts.add (l.drop 0)) = some (counts.add []) :=
    releaseFrom_eq hobjects (Nat.zero_add _)
  refine ⟨⟨0, .null, counts.add []⟩, ?_, rfl, rfl, rfl⟩
  rw [List.drop_zero] at hrelease
  rw [removeAllObjects, hcount, hretained, hrelease, Option.bind_some, hfree]
  rfl

/-- **One message** does to the array what it does to the list. -/
theorem represents_call (hid : 0 < sizeofId) (hlive : ∀ o, 0 < counts o)
    (h : Represents counts self l)
    (hsize : Reallocs sizeofId l c) (hfound : Found l c) :
    ∃ self', self.call sizeofId c = some self' ∧ Represents counts self' (listCall l c) := by
  cases c with
  | addObject object => exact represents_addObject hid h (fun o _ => hlive o) hsize
  | insertObject object index =>
    by_cases hindex : index ≤ l.length
    · rw [listCall, if_pos hindex]
      exact represents_insertObject hid h (fun o _ => hlive o) hindex (hsize hindex)
    · rw [listCall, if_neg hindex]
      refine ⟨self, ?_, h⟩
      rw [call, insertObject, h.count, if_pos (Nat.not_le.1 hindex)]
  | removeObjectAtIndex index => exact represents_removeObjectAtIndex h index
  | removeLastObject => exact represents_removeLastObject h
  | removeObject object =>
    rw [call, removeObject, indexOfObject_eq h, Option.bind_some, listCall]
    by_cases hmem : object ∈ l
    · rw [if_pos hmem, if_pos (hfound hmem), List.erase_eq_eraseIdx_of_idxOf rfl]
      exact represents_removeObjectAtIndex h _
    · rw [if_neg hmem, if_neg (not_not.2 rfl), List.erase_of_not_mem hmem]
      exact ⟨self, rfl, h⟩
  | replaceObjectAtIndex index object =>
    exact represents_replaceObjectAtIndex h index fun o _ => hlive o
  | removeAllObjects => exact represents_removeAllObjects h

end

/-! ## Runs -/

/-- The array answers as the list does, and its objects are retained as often as they are in the list. -/
structure Answers (counts : Counts α) (a : NSMutableArray α) (l : List (Id α)) : Prop where
  count : a.count = l.length
  objectAtIndex : ∀ index, a.objectAtIndex index = some l[index]?.join
  firstObject : a.firstObject = some l.head?.join
  lastObject : a.lastObject = some l.getLast?.join
  indexOfObject : ∀ object, a.indexOfObject object =
    some (if object ∈ l then l.idxOf object else nsNotFound)
  retained : ∀ o, a.retained o = counts o + l.count (some o)

section
variable {counts : Counts α} {self : NSMutableArray α} {l : List (Id α)} {sizeofId : ℕ} {c : Call α}

theorem Represents.objectAtIndex (h : Represents counts self l) (index : ℕ) :
    self.objectAtIndex index = some l[index]?.join := by
  obtain ⟨hcount, hobjects, -⟩ := h
  by_cases hindex : index < l.length
  · rw [NSMutableArray.objectAtIndex, hcount, if_neg (Nat.not_le.2 hindex), hobjects.get hindex,
      List.getElem?_eq_getElem hindex]
    rfl
  · rw [NSMutableArray.objectAtIndex, hcount, if_pos (Nat.not_lt.1 hindex),
      List.getElem?_eq_none (Nat.not_lt.1 hindex)]
    rfl

theorem Represents.answers (h : Represents counts self l) : Answers counts self l := by
  have hobject := h.objectAtIndex
  have hindexOf := indexOfObject_eq h
  obtain ⟨hcount, hobjects, hretained⟩ := h
  refine ⟨hcount, hobject, ?_, ?_, hindexOf, fun o => by rw [hretained]; rfl⟩
  · rw [List.head?_eq_getElem?, ← hobject, NSMutableArray.objectAtIndex, firstObject]
    by_cases hzero : self.count = 0
    · rw [if_neg (by omega), if_pos (by omega)]
    · rw [if_pos (by omega), if_neg (by omega)]
  · rw [List.getLast?_eq_getElem?, ← hcount, ← hobject, NSMutableArray.objectAtIndex, lastObject]
    by_cases hzero : self.count = 0
    · rw [if_neg (by omega), if_pos (by omega)]
    · rw [if_pos (by omega), if_neg (by omega)]

/-- An object at the index that means that there is none stays where it is. -/
theorem call_of_not_found (sizeofId : ℕ) (h : Represents counts self l) (hfound : ¬ Found l c) :
    self.call sizeofId c = some self ∧ (listCall l c).length < l.length := by
  cases c with
  | removeObject object =>
    obtain ⟨hmem, hidx⟩ := Classical.not_imp.1 hfound
    have hlength := List.length_erase_of_mem hmem
    have hpos := List.length_pos_of_mem hmem
    refine ⟨?_, ?_⟩
    · rw [call, removeObject, indexOfObject_eq h, Option.bind_some, if_pos hmem, if_neg hidx]
    · rw [listCall]
      omega
  | _ => exact absurd trivial hfound

theorem represents_array (counts : Counts α) : Represents counts (array counts) [] :=
  ⟨rfl, rfl, rfl⟩

/-- One message keeps the array what the list is, exactly if an object that it removes is found. -/
theorem answers_call_iff (hid : 0 < sizeofId) (hlive : ∀ o, 0 < counts o)
    (h : Represents counts self l)
    (hsize : Reallocs sizeofId l c) :
    (∃ self', self.call sizeofId c = some self' ∧ Answers counts self' (listCall l c)) ↔
    Found l c := by
  constructor
  · rintro ⟨self', hself', hanswers⟩
    by_contra hfound
    obtain ⟨hcall, hlength⟩ := call_of_not_found sizeofId h hfound
    obtain rfl : self = self' := Option.some.inj (hcall.symm.trans hself')
    exact absurd (h.count.symm.trans hanswers.count) (Nat.ne_of_gt hlength)
  · intro hfound
    obtain ⟨self', hcall, h'⟩ := represents_call hid hlive h hsize hfound
    exact ⟨self', hcall, h'.answers⟩

theorem foldl_step_snd (x : Option (NSMutableArray α) × List (Id α)) (log : List (Call α)) :
    (log.foldl (step sizeofId) x).2 = log.foldl listCall x.2 := by
  induction log generalizing x with
  | nil => rfl
  | cons c log ih => exact ih _

theorem length_listCall_le (l : List (Id α)) (c : Call α) : (listCall l c).length ≤ l.length + 1 := by
  cases c with
  | addObject object => exact Nat.le_of_eq List.length_append
  | insertObject object index =>
    rw [listCall]
    split_ifs with hindex
    · exact Nat.le_of_eq (List.length_insertIdx_of_le_length hindex object)
    · exact Nat.le_succ _
  | removeObjectAtIndex index => exact Nat.le_succ_of_le (List.eraseIdx_sublist l index).length_le
  | removeLastObject => exact Nat.le_succ_of_le (List.dropLast_sublist l).length_le
  | removeObject object => exact Nat.le_succ_of_le List.erase_sublist.length_le
  | replaceObjectAtIndex index object => exact Nat.le_succ_of_le (Nat.le_of_eq List.length_set)
  | removeAllObjects => exact Nat.zero_le _

/-- So many messages never ask for more than there can be. -/
theorem reallocs_of_length {x : Option (NSMutableArray α)} {log : List (Call α)}
    (h : sizeofId * (l.length + log.length) < 2 ^ (8 * sizeofId)) :
    Meets (step sizeofId) (fun x c => Reallocs sizeofId x.2 c) (x, l) log := by
  induction log generalizing x l with
  | nil => trivial
  | cons c log ih =>
    have hle : sizeofId * (l.length + 1) ≤ sizeofId * (l.length + (c :: log).length) :=
      Nat.mul_le_mul_left _ (by rw [List.length_cons]; omega)
    refine ⟨?_, ih (Nat.lt_of_le_of_lt (Nat.mul_le_mul_left _ ?_) h)⟩
    · cases c with
      | addObject object => exact Nat.lt_of_le_of_lt hle h
      | insertObject object index => exact fun _ => Nat.lt_of_le_of_lt hle h
      | _ => trivial
    · have hlength := length_listCall_le l c
      rw [List.length_cons]
      dsimp only
      omega

/-- An array that nothing was lost of is the list. -/
theorem represents_run (hid : 0 < sizeofId) (hlive : ∀ o, 0 < counts o) {log : List (Call α)}
    (hsize : Meets (step sizeofId) (fun x c => Reallocs sizeofId x.2 c) (some (array counts),
      []) log)
    (hfound : Meets (step sizeofId) (fun x c => Found x.2 c) (some (array counts), []) log) :
    ∃ self, (log.foldl (step sizeofId) (some (array counts), [])).1 = some self ∧
      Represents counts self (log.foldl (step sizeofId) (some (array counts), [])).2 := by
  refine Always.last (P := fun x => ∃ self, x.1 = some self ∧ Represents counts self x.2)
    (Always.of_meets ?_ ⟨_, rfl, represents_array counts⟩ (hsize.and hfound))
  rintro ⟨_, l⟩ c ⟨self, rfl, h⟩ ⟨hsize, hfound⟩
  exact represents_call hid hlive h hsize hfound

theorem foldl_addObject (objects l : List (Id α)) :
    (objects.map Call.addObject).foldl listCall l = l ++ objects := by
  induction objects generalizing l with
  | nil => exact (List.append_nil l).symm
  | cons object objects ih =>
    rw [List.map_cons, List.foldl_cons, ih, listCall, List.append_assoc]
    rfl

theorem found_addObject (objects : List (Id α)) (x : Option (NSMutableArray α) × List (Id α)) :
    Meets (step sizeofId) (fun x c => Found x.2 c) x (objects.map Call.addObject) := by
  induction objects generalizing x with
  | nil => trivial
  | cons object objects ih => exact ⟨trivial, ih _⟩

/-- With as many objects in front of it as `NSNotFound` is, an object is not removed. -/
theorem removeObject_kept (hid : 0 < sizeofId) (hlive : ∀ o, 0 < counts o) {objects : List (Id α)}
    {object : Id α}
    (hmem : object ∉ objects) (hn : objects.length = nsNotFound)
    (hsize : sizeofId * (nsNotFound + 2) < 2 ^ (8 * sizeofId)) :
    let log := (objects ++ [object]).map Call.addObject
    let x := log.foldl (step sizeofId) (some (array counts), [])
    Meets (step sizeofId) (fun x c => Reallocs sizeofId x.2 c) (some (array counts), [])
      (log ++ [.removeObject object]) ∧
      ∃ self, (step sizeofId x (.removeObject object)).1 = some self ∧ self.count = nsNotFound + 1 ∧
        (step sizeofId x (.removeObject object)).2.length = nsNotFound := by
  intro log x
  have hlength : log.length = nsNotFound + 1 := by
    rw [List.length_map, List.length_append, hn]
    rfl
  have hlist : x.2 = objects ++ [object] := by rw [foldl_step_snd, foldl_addObject, List.nil_append]
  have hmem' : object ∈ x.2 := by
    rw [hlist]
    exact List.mem_append_right _ List.mem_cons_self
  have hcount : x.2.length = nsNotFound + 1 := by
    rw [hlist, List.length_append, hn]
    rfl
  have hnot : ¬ Found x.2 (.removeObject object) := by
    refine fun h => h hmem' ?_
    rw [hlist, List.idxOf_append_of_notMem hmem, hn, List.idxOf_cons_self, Nat.add_zero]
  have hreallocs : Meets (step sizeofId) (fun x c => Reallocs sizeofId x.2 c)
      (some (array counts), []) log := by
    refine reallocs_of_length (Nat.lt_of_le_of_lt (Nat.mul_le_mul_left _ ?_) hsize)
    rw [hlength, List.length_nil]
    omega
  obtain ⟨self, hself, h⟩ := represents_run hid hlive hreallocs (found_addObject _ _)
  refine ⟨reallocs_of_length (Nat.lt_of_le_of_lt (Nat.mul_le_mul_left _ ?_) hsize), self, ?_, ?_, ?_⟩
  · rw [List.length_append, hlength, List.length_nil, List.length_singleton]
    omega
  · rw [step, hself, Option.bind_some, (call_of_not_found sizeofId h hnot).1]
  · rw [h.count, hcount]
  · rw [step, listCall, List.length_erase_of_mem hmem', hcount]
    rfl

/-- **Runs.**  From an empty array on, the array is the list that the same is done to, exactly if no `removeObject:` is
    about an object that is first at the index `NSNotFound`. -/
theorem array_run (hid : 0 < sizeofId) (hlive : ∀ o, 0 < counts o) {log : List (Call α)}
    (hlog : Meets (step sizeofId) (fun x c => Reallocs sizeofId x.2 c) (some (array counts),
      []) log) :
    Always (step sizeofId) (fun x => ∃ self, x.1 = some self ∧ Answers counts self x.2)
      (some (array counts), []) log ↔
      Meets (step sizeofId) (fun x c => Found x.2 c) (some (array counts), []) log := by
  have hinit : ∃ self, some (array counts) = some self ∧ Represents counts self [] :=
    ⟨_, rfl, represents_array counts⟩
  rw [← meets_iff_meets (I := fun x => ∃ self, x.1 = some self ∧
    Represents counts self x.2) ?_ ?_ hinit hlog]
  · refine ⟨Always.meets, fun h => Always.of_meets (fun x c _ hc => hc) ?_ h⟩
    exact ⟨_, rfl, (represents_array counts).answers⟩
  · rintro ⟨_, l⟩ c ⟨self, rfl, h⟩ hsize
    exact answers_call_iff hid hlive h hsize
  · rintro ⟨_, l⟩ c ⟨self, rfl, h⟩ hsize hanswers
    exact represents_call hid hlive h hsize ((answers_call_iff hid hlive h hsize).1 hanswers)

/-- Two objects, one of them twice; the first place of it is emptied, and an index that is too large is ignored. -/
theorem array_run_three :
    Always (step 8) (fun x => ∃ self, x.1 = some self ∧ Answers (fun _ => 1) self x.2)
      (some (array fun _ : Bool => 1), [])
      [.addObject (some true), .insertObject (some false) 0, .addObject (some false),
        .removeObject (some false),
        .replaceObjectAtIndex 7 none] := by
  refine (array_run (by decide) (fun _ => Nat.one_pos) ?_).2 ?_
  · exact reallocs_of_length (by decide)
  · exact ⟨trivial, trivial, trivial, fun _ => by decide, trivial, trivial⟩

/-- With pointers of eight bytes, an object behind `0x7FFFFFFF` others is not removed. -/
theorem object_kept :
    let log := (List.replicate 0x7FFFFFFF (some true) ++ [some false]).map Call.addObject
    let x := log.foldl (step 8) (some (array fun _ => 1), [])
    Meets (step 8) (fun x c => Reallocs 8 x.2 c) (some (array fun _ => 1), [])
      (log ++ [.removeObject (some false)]) ∧
      ∃ self, (step 8 x (.removeObject (some false))).1 = some self ∧ self.count = nsNotFound + 1 ∧
        (step 8 x (.removeObject (some false))).2.length = nsNotFound := by
  refine removeObject_kept (by decide) (fun _ => Nat.one_pos) (fun h => ?_) List.length_replicate
    (by decide)
  exact absurd (List.eq_of_mem_replicate h) (by decide)

end

end NSMutableArray

end PocketDarwin.NextStd
