/-
  The paths of the registry: what `entryPath` returns, and what `+entryWithPath:`
  makes of it.

  A path is kept in its entry until the entry is moved or one of its properties is set.
  It depends on the parents of the entry too, and these can be moved without it.

  * `always_pathsCurrent_iff`: paths are current throughout a run exactly if no entry is
    moved while there is a path kept below it.
  * `entryPath_not_roundTrips`: the path that `entryPath` returns begins with the name of
    the root, but `+entryWithPath:` looks for its first component below the root.
-/
import PocketDarwin.Kext.Shape

namespace PocketDarwin.Kext

namespace Registry

/-- The paths that are kept. -/
def cache (r : Registry) : EntryRef → Option Text := fun e => (r.entry e).entryPath

/-- The names of entries on the way up, from the top. -/
def namesOn (r : Registry) (l : List EntryRef) : List Text := (l.filterMap r.nameOf).reverse

/-- The path is the names on the parent chain of the entry, joined. -/
def Current (r : Registry) (e : EntryRef) (path : Text) : Prop :=
  ∃ l, Seg r.parent (some e) l none ∧ path = componentsJoined (r.namesOn l)

/-- `entryPath` returns the current path, for every entry. -/
def PathsCurrent (r : Registry) : Prop :=
  ∀ e < r.count, ∃ r' path, r.entryPath r.count e = some (r', path) ∧ r.Current e path

/-- The paths that are kept are current. -/
def Fresh (r : Registry) : Prop := ∀ e < r.count, ∀ path ∈ r.cache e, r.Current e path

/-- Every entry has a name. -/
def Named (r : Registry) : Prop := ∀ e < r.count, r.nameOf e ≠ none

variable {r r' : Registry} {p c e : EntryRef} {l l₁ l₂ : List EntryRef} {t : Option EntryRef} {path : Text}

/-! ## Joined names -/

theorem componentsJoined_append {xs ys : List Text} (hx : xs ≠ []) (hy : ys ≠ []) :
    componentsJoined (xs ++ ys) = componentsJoined xs ++ '/' :: componentsJoined ys := by
  induction xs with
  | nil => exact absurd rfl hx
  | cons x xs ih =>
    by_cases hxs : xs = []
    · subst hxs
      simp [componentsJoined, List.intercalate_cons_of_ne_nil hy]
    · have hne : xs ++ ys ≠ [] := by simp [hxs]
      have ih := ih hxs
      unfold componentsJoined at ih ⊢
      rw [List.cons_append, List.intercalate_cons_of_ne_nil hne, ih,
        List.intercalate_cons_of_ne_nil hxs]
      simp

/-- More names make another path. -/
theorem componentsJoined_append_ne {xs ys : List Text} (hx : xs ≠ []) (hy : ys ≠ []) :
    componentsJoined (xs ++ ys) ≠ componentsJoined ys := by
  intro h
  have hlen := congrArg List.length h
  rw [componentsJoined_append hx hy, List.length_append, List.length_cons] at hlen
  omega

theorem namesOn_append (r : Registry) (l₁ l₂ : List EntryRef) : r.namesOn (l₁ ++ l₂) = r.namesOn l₂ ++ r.namesOn l₁ := by
  simp [namesOn]

theorem Named.namesOn_ne_nil (hn : r.Named) (hl : ∀ a ∈ l, a < r.count) (hne : l ≠ []) : r.namesOn l ≠ [] := by
  obtain ⟨a, ha⟩ := List.exists_mem_of_ne_nil l hne
  obtain ⟨name, hname⟩ := Option.ne_none_iff_exists'.1 (hn a (hl a ha))
  have hmem : name ∈ r.namesOn l := by
    rw [namesOn, List.mem_reverse, List.mem_filterMap]
    exact ⟨a, ha, hname⟩
  exact List.ne_nil_of_mem hmem

/-! ## What `entryPath` returns -/

@[simp] theorem pathParts_none (r : Registry) (fuel : ℕ) (parts : List Text) :
    r.pathParts fuel none parts = some parts := by
  cases fuel <;> rfl

/-- The loop of `entryPath` collects the names on the way up. -/
theorem pathParts_of_seg {s : Option EntryRef} {fuel : ℕ} (h : Seg r.parent s l none)
    (hnamed : ∀ a ∈ l, r.nameOf a ≠ none) (hlen : l.length ≤ fuel) (parts : List Text) :
    r.pathParts fuel s parts = some (r.namesOn l ++ parts) := by
  induction l generalizing s fuel parts with
  | nil =>
    obtain rfl := h
    simp [namesOn]
  | cons a l ih =>
    obtain ⟨rfl, h⟩ := h
    obtain ⟨name, hname⟩ := Option.ne_none_iff_exists'.1 (hnamed a List.mem_cons_self)
    cases fuel with
    | zero => simp at hlen
    | succ fuel =>
      rw [pathParts_succ hname, ih h (fun b hb => hnamed b (List.mem_cons_of_mem _ hb))
        (Nat.le_of_succ_le_succ hlen)]
      simp [namesOn, hname]

/-- `entryPath` returns the kept path, or else the current one. -/
theorem entryPath_spec (hr : r.Closed) (hs : r.Shape) (hn : r.Named) (he : e < r.count) :
    ∃ r' path, r.entryPath r.count e = some (r', path) ∧ r'.cache = Function.update r.cache e (some path) ∧
      SameLinks r r' ∧ (r.cache e = some path ∨ r.cache e = none ∧ r.Current e path) := by
  cases hcache : (r.entry e).entryPath with
  | some path =>
    refine ⟨r, path, entryPath_of_cached hcache _, ?_, ⟨rfl, rfl, rfl, rfl⟩, Or.inl hcache⟩
    rw [← show r.cache e = some path from hcache, Function.update_eq_self]
  | none =>
    obtain ⟨l, hl⟩ := hs.ends e he
    have hlt := hr.lt_of_mem he hl
    have hparts := pathParts_of_seg hl (fun a ha => hn a (hlt a ha)) (hl.length_le hlt) []
    rw [List.append_nil] at hparts
    refine ⟨r.modify e fun x => { x with entryPath := some (componentsJoined (r.namesOn l)) },
      componentsJoined (r.namesOn l), ?_, ?_, sameLinks_modify r e (fun _ => rfl) (fun _ => rfl)
        (fun _ => rfl),
      Or.inr ⟨hcache, l, hl, rfl⟩⟩
    · simp only [entryPath, hcache, hparts, Option.map_some]
    · ext1 x
      by_cases hx : x = e
      · subst hx; simp [cache, modify]
      · simp [cache, modify, hx]

/-- Paths are current exactly if the kept ones are. -/
theorem pathsCurrent_iff_fresh (hr : r.Closed) (hs : r.Shape) (hn : r.Named) : r.PathsCurrent ↔ r.Fresh := by
  constructor
  · intro h e he path hpath
    obtain ⟨r', path', heq, hcur⟩ := h e he
    rw [entryPath_of_cached hpath] at heq
    obtain ⟨-, rfl⟩ := Prod.mk.inj (Option.some.inj heq)
    exact hcur
  · intro h e he
    obtain ⟨r', path, heq, -, -, hpath | ⟨-, hcur⟩⟩ := entryPath_spec hr hs hn he
    · exact ⟨r', path, heq, h e he path hpath⟩
    · exact ⟨r', path, heq, hcur⟩

/-! ## Registries that have grown -/

theorem cache_modify (r : Registry) (e : EntryRef) (f : Entry → Entry) :
    (r.modify e f).cache = Function.update r.cache e (f (r.entry e)).entryPath := by
  ext1 x
  by_cases hx : x = e
  · subst hx; simp [cache, modify]
  · simp [cache, modify, hx]

theorem cache_addChild (h : ¬ r.Listed p c) : (r.addChild p (some c)).cache = Function.update r.cache c none := by
  rw [addChild_of_not_listed h]
  set r₁ := r.modify c fun e => { e with parentEntry := some p, entryPath := none }
  have hcache : r₁.cache = Function.update r.cache c none := cache_modify _ _ _
  rw [← hcache]
  exact (cache_modify _ _ _).trans (Function.update_eq_self p r₁.cache)

theorem cache_removeChild (r : Registry) (p c : EntryRef) :
    (r.removeChild p (some c)).cache = Function.update r.cache c none := by
  set r₁ := r.modify p fun e => { e with childEntries := e.childEntries.filter (· ≠ c) }
  have hcache : r₁.cache = r.cache := (cache_modify _ _ _).trans (Function.update_eq_self p r.cache)
  rw [← hcache]
  exact cache_modify r₁ c fun e => { e with parentEntry := none, entryPath := none }

theorem cache_initWithNameParent (r : Registry) (name : Option Text) (parent : Option EntryRef) :
    (r.initWithNameParent name parent).cache = Function.update r.cache r.count none := by
  ext1 x
  by_cases hx : x = r.count
  · subst hx; simp [cache, initWithNameParent]
  · simp [cache, initWithNameParent, hx]

/-- There are new entries, and the old ones have the names, the parents and the kept paths they had. -/
structure Grown (r r' : Registry) : Prop where
  count : r.count ≤ r'.count
  nameOf : ∀ e < r.count, r'.nameOf e = r.nameOf e
  parent : ∀ e < r.count, r'.parent e = r.parent e
  cache : ∀ e < r.count, r'.cache e = r.cache e
  new : ∀ e < r'.count, r.count ≤ e → r'.cache e = none

namespace Grown

theorem refl (r : Registry) : Grown r r :=
  ⟨le_rfl, fun _ _ => rfl, fun _ _ => rfl, fun _ _ => rfl, fun _ he hle => absurd he (not_lt.2 hle)⟩

theorem trans {r'' : Registry} (h : Grown r r') (h' : Grown r' r'') : Grown r r'' where
  count := h.count.trans h'.count
  nameOf e he := (h'.nameOf e (he.trans_le h.count)).trans (h.nameOf e he)
  parent e he := (h'.parent e (he.trans_le h.count)).trans (h.parent e he)
  cache e he := (h'.cache e (he.trans_le h.count)).trans (h.cache e he)
  new e he hle := by
    by_cases hlt : e < r'.count
    · exact (h'.cache e hlt).trans (h.new e hlt hle)
    · exact h'.new e he (not_lt.1 hlt)

theorem seg (h : Grown r r') (hr : r.Closed) (he : e < r.count) (hl : Seg r.parent (some e) l none) :
    Seg r'.parent (some e) l none :=
  hl.congr fun a ha => h.parent a (hr.lt_of_mem he hl a ha)

theorem namesOn (h : Grown r r') (hl : ∀ a ∈ l, a < r.count) : r'.namesOn l = r.namesOn l := by
  rw [Registry.namesOn, Registry.namesOn, List.filterMap_congr fun a ha => h.nameOf a (hl a ha)]

theorem fresh (h : Grown r r') (hr : r.Closed) (hf : r.Fresh) : r'.Fresh := by
  intro e he path hpath
  by_cases hlt : e < r.count
  · rw [h.cache e hlt] at hpath
    obtain ⟨l, hl, rfl⟩ := hf e hlt path hpath
    exact ⟨l, h.seg hr hlt hl, by rw [h.namesOn (hr.lt_of_mem hlt hl)]⟩
  · rw [h.new e he (not_lt.1 hlt)] at hpath
    exact absurd hpath (Option.not_mem_none path)

end Grown

theorem grown_initWithNameParent (r : Registry) (name : Option Text) (parent : Option EntryRef) :
    Grown r (r.initWithNameParent name parent) := by
  have hcreated := created_initWithNameParent r name parent
  refine ⟨?_, ?_, ?_, ?_, ?_⟩
  · rw [hcreated.count]; exact Nat.le_succ _
  · intro e he
    rw [hcreated.nameOf, Function.update_of_ne he.ne]
  · intro e he
    rw [hcreated.parent, Function.update_of_ne he.ne]
  · intro e he
    rw [cache_initWithNameParent, Function.update_of_ne he.ne]
  · intro e he hle
    rw [hcreated.count] at he
    obtain rfl : e = r.count := le_antisymm (Nat.le_of_lt_succ he) hle
    rw [cache_initWithNameParent, Function.update_self]

theorem grown_newChild {component : Text} (hr : r.Closed) (hp : p < r.count)
    (hnew : r.childWithName p (some component) = none) : Grown r (r.newChild p component) := by
  obtain ⟨hlisted, heq⟩ := newChild_eq hr hp hnew
  have hcache : (r.newChild p component).cache = Function.update r.cache r.count none := by
    rw [heq, cache_addChild hlisted, cache_initWithNameParent, Function.update_idem]
  refine ⟨?_, ?_, ?_, ?_, ?_⟩
  · rw [count_newChild]; exact Nat.le_succ _
  · intro e he
    rw [nameOf_newChild hr hp hnew, Function.update_of_ne he.ne]
  · intro e he
    rw [parent_newChild hr hp hnew, Function.update_of_ne he.ne]
  · intro e he
    rw [hcache, Function.update_of_ne he.ne]
  · intro e he hle
    rw [count_newChild] at he
    obtain rfl : e = r.count := le_antisymm (Nat.le_of_lt_succ he) hle
    rw [hcache, Function.update_self]

/-- **`+entryWithPath:` only adds entries.** -/
theorem grown_descend (components : List Text) (hr : r.Closed) (hp : p < r.count) :
    Grown r (r.descend p components).1 := by
  refine (descend_induct (P := fun r₁ q => r₁.Closed ∧ q < r₁.count ∧ Grown r r₁) ?_ ?_
    ⟨hr, hp, .refl r⟩).2.2
  · rintro r₁ q c name - ⟨hr₁, hq, hgrown⟩ - hc
    exact ⟨hr₁, hr₁.children q hq c (mem_children_of_childWithName hc).1, hgrown⟩
  · rintro r₁ q name - ⟨hr₁, hq, hgrown⟩ - hnew
    exact ⟨closed_newChild hr₁ hq hnew, by simp, hgrown.trans (grown_newChild hr₁ hq hnew)⟩

theorem named_descend (components : List Text) (hr : r.Closed) (hp : p < r.count) (hn : r.Named) :
    (r.descend p components).1.Named := by
  refine (descend_induct (P := fun r q => r.Closed ∧ q < r.count ∧ r.Named) ?_ ?_ ⟨hr, hp, hn⟩).2.2
  · rintro r q c name - ⟨hr, hq, hn⟩ - hc
    exact ⟨hr, hr.children q hq c (mem_children_of_childWithName hc).1, hn⟩
  · rintro r q name - ⟨hr, hq, hn⟩ - hnew
    refine ⟨closed_newChild hr hq hnew, by simp, ?_⟩
    intro e he
    rw [nameOf_newChild hr hq hnew]
    by_cases hen : e = r.count
    · subst hen
      simp
    · rw [count_newChild] at he
      rw [Function.update_of_ne hen]
      exact hn e (lt_of_le_of_ne (Nat.le_of_lt_succ he) hen)

/-! ## Entries that are moved -/

/-- No path is kept below `c`. -/
def NoneKeptBelow (r : Registry) (c : EntryRef) : Prop := ∀ d < r.count, d ≠ c → r.Above c d → r.cache d = none

/-- `c` has the parent `t` now, and its own path is forgotten. -/
structure Moved (r : Registry) (c : EntryRef) (t : Option EntryRef) (r' : Registry) : Prop where
  count : r'.count = r.count
  nameOf : r'.nameOf = r.nameOf
  parent : r'.parent = Function.update r.parent c t
  cache : r'.cache = Function.update r.cache c none

theorem moved_addChild (h : ¬ r.Listed p c) : Moved r c (some p) (r.addChild p (some c)) :=
  ⟨(added_addChild h).count, (added_addChild h).nameOf, (added_addChild h).parent, cache_addChild h⟩

theorem moved_removeChild (r : Registry) (p c : EntryRef) : Moved r c none (r.removeChild p (some c)) :=
  ⟨rfl, (removed_removeChild r p c).nameOf, (removed_removeChild r p c).parent, cache_removeChild r p c⟩

/-- The paths below an entry change if it is given a parent, or its parent is taken away. -/
theorem Moved.not_current (h : Moved r c t r') (hr : r.Closed) (hn : r.Named) {d : EntryRef} (hd : d < r.count)
    (hl : Seg r.parent (some d) (l₁ ++ c :: l₂) none) (ht : Seg r.parent t l none) (hlt : ∀ a ∈ l, a < r.count)
    (hc : c ∉ l) (hone : l = [] ↔ l₂ ≠ []) (hcur : r.Current d path) : ¬ r'.Current d path := by
  rintro ⟨m', hm', rfl⟩
  obtain ⟨m, hm, heq⟩ := hcur
  obtain rfl := hm.unique hl
  rw [h.parent] at hm'
  obtain rfl := hm'.unique (hl.redirect ht hc)
  have hlt₁ := hr.lt_of_mem hd hl
  have hnames : r'.namesOn (l₁ ++ c :: l) = r.namesOn l ++ r.namesOn (l₁ ++ [c]) := by
    rw [namesOn, h.nameOf, ← namesOn, ← namesOn_append]
    simp
  have hnames₂ : r.namesOn (l₁ ++ c :: l₂) = r.namesOn l₂ ++ r.namesOn (l₁ ++ [c]) := by
    rw [← namesOn_append]
    simp
  have hbelow : r.namesOn (l₁ ++ [c]) ≠ [] := by
    refine hn.namesOn_ne_nil (fun a ha => hlt₁ a ?_) (by simp)
    rcases List.mem_append.1 ha with ha | ha
    · exact List.mem_append_left _ ha
    · rw [List.mem_singleton.1 ha]
      exact List.mem_append_right _ List.mem_cons_self
  rw [hnames, hnames₂] at heq
  by_cases hnil : l = []
  · have hne : r.namesOn l₂ ≠ [] :=
      hn.namesOn_ne_nil (fun a ha => hlt₁ a (List.mem_append_right _ (List.mem_cons_of_mem _ ha)))
        (hone.1 hnil)
    rw [hnil] at heq
    exact componentsJoined_append_ne hne hbelow heq.symm
  · have hnil₂ : l₂ = [] := by
      by_contra hne
      exact hnil (hone.2 hne)
    rw [hnil₂] at heq
    exact componentsJoined_append_ne (hn.namesOn_ne_nil hlt hnil) hbelow heq

/-- **A move** keeps the kept paths current exactly if there are none below the entry. -/
theorem Moved.fresh_iff (h : Moved r c t r') (hr : r.Closed) (hs : r.Shape) (hn : r.Named) (hf : r.Fresh)
    (hc : c < r.count) (hs' : r'.Shape) (ht : ∀ q ∈ t, q < r.count) (hone : t = none ↔ r.parent c ≠ none) :
    r'.Fresh ↔ r.NoneKeptBelow c := by
  obtain ⟨l, hl⟩ : Ends r.parent t := by
    cases t with
    | none => exact ends_none
    | some q => exact hs.ends q (ht q rfl)
  have hlt : ∀ a ∈ l, a < r.count := hl.forall_mem ht hr.parent
  have hcl : c ∉ l := by
    -- or else there would be a loop
    intro hmem
    refine hl.not_ends_redirect hmem ?_
    rw [← h.parent]
    cases t with
    | none => exact ends_none
    | some q => exact hs'.ends q (h.count ▸ ht q rfl)
  constructor
  · intro hf' d hd hdc habove
    by_contra hkept
    obtain ⟨path, hpath⟩ := Option.ne_none_iff_exists'.1 hkept
    obtain ⟨m, hm⟩ := hs.ends d hd
    obtain ⟨l₁, l₂, rfl⟩ := List.append_of_mem (hm.mem_iff.2 habove)
    have hl₂ := (seg_append_cons.1 hm).2
    have hnil : l = [] ↔ l₂ ≠ [] := by
      rw [← hl.eq_none_iff, hone, ne_eq, hl₂.eq_none_iff]
    refine h.not_current hr hn hd hm hl hlt hcl hnil (hf d hd path hpath) (hf' d (h.count ▸ hd) path ?_)
    rw [h.cache, Function.update_of_ne hdc]
    exact hpath
  · intro hnone d hd path hpath
    rw [h.count] at hd
    rw [h.cache] at hpath
    by_cases hdc : d = c
    · subst hdc
      simp at hpath
    · rw [Function.update_of_ne hdc] at hpath
      obtain ⟨m, hm, rfl⟩ := hf d hd path hpath
      have hcm : c ∉ m := by
        intro hmem
        rw [hnone d hd hdc (hm.mem_iff.1 hmem)] at hpath
        exact absurd hpath (Option.not_mem_none _)
      refine ⟨m, ?_, ?_⟩
      · rw [h.parent]
        exact hm.update_of_notMem hcm t
      · rw [namesOn, namesOn, h.nameOf]

/-! ## Runs -/

theorem SameLinks.current (h : SameLinks r r') (hcur : r.Current e path) : r'.Current e path := by
  obtain ⟨l, hl, rfl⟩ := hcur
  exact ⟨l, h.parent ▸ hl, by rw [namesOn, namesOn, h.nameOf]⟩

/-- Forgetting a path, or keeping one that is current. -/
theorem SameLinks.fresh (h : SameLinks r r') {kept : Option Text} (hcache : r'.cache = Function.update r.cache e kept)
    (hkept : ∀ path ∈ kept, r.Current e path) (hf : r.Fresh) : r'.Fresh := by
  intro d hd path hpath
  rw [h.count] at hd
  rw [hcache] at hpath
  by_cases hde : d = e
  · subst hde
    rw [Function.update_self] at hpath
    exact h.current (hkept path hpath)
  · rw [Function.update_of_ne hde] at hpath
    exact h.current (hf d hd path hpath)

/-- The condition under which a call keeps the paths current: if it gives an entry a parent or takes
    its parent away, then no path is kept below the entry. -/
def KeepsPaths (r : Registry) : Call → Prop
  | .addChild self (some child) => r.Listed self child ∨ r.NoneKeptBelow child
  | .removeChild _ (some child) => r.parent child = none ∨ r.NoneKeptBelow child
  | _ => True

/-- A created entry has a name. -/
def Call.Named : Call → Prop
  | .create name _ => name ≠ none
  | _ => True

instance : ∀ a : Call, Decidable a.Named
  | .create name _ => inferInstanceAs (Decidable (name ≠ none))
  | .addChild _ _ | .removeChild _ _ | .entryWithPath _ | .entryPath _ | .setProperty _ _ _ => isTrue trivial

theorem named_call (a : Call) (hr : r.Closed) (hn : r.Named) (ha : a.Named) : (r.call a).Named := by
  cases a with
  | create name parent =>
    have hcreated := created_initWithNameParent r name parent
    intro e he
    rw [call, hcreated.nameOf]
    by_cases hen : e = r.count
    · subst hen
      rw [Function.update_self]
      exact ha
    · rw [call, hcreated.count] at he
      rw [Function.update_of_ne hen]
      exact hn e (lt_of_le_of_ne (Nat.le_of_lt_succ he) hen)
  | addChild p child =>
    cases child with
    | none => exact hn
    | some c =>
      by_cases hlisted : r.Listed p c
      · rw [call, addChild_of_listed hlisted]
        exact hn
      · intro e he
        rw [call, (added_addChild hlisted).nameOf]
        exact hn e ((added_addChild hlisted).count ▸ he)
  | removeChild p child =>
    cases child with
    | none => exact hn
    | some c =>
      intro e he
      rw [call, (removed_removeChild r p c).nameOf]
      exact hn e he
  | entryWithPath path =>
    cases path with
    | none => exact hn
    | some path => exact named_descend _ hr hr.root hn
  | entryPath e =>
    have hsame := sameLinks_call_entryPath r e
    intro d hd
    rw [hsame.nameOf]
    exact hn d (hsame.count ▸ hd)
  | setProperty e property key =>
    have hsame := sameLinks_setPropertyForKey r e property key
    intro d hd
    rw [call, hsame.nameOf]
    exact hn d (hsame.count ▸ hd)

theorem fresh_removeChild_iff (hr : r.Closed) (hs : r.Shape) (hn : r.Named) (hf : r.Fresh) (hc : c < r.count)
    (hs' : (r.removeChild p (some c)).Shape) :
    (r.removeChild p (some c)).Fresh ↔ r.parent c = none ∨ r.NoneKeptBelow c := by
  have hmoved := moved_removeChild r p c
  by_cases hnone : r.parent c = none
  · refine ⟨fun _ => Or.inl hnone, fun _ => ?_⟩
    -- nothing is above the entry, so that no path changes
    have hparent : (r.removeChild p (some c)).parent = r.parent := by
      rw [hmoved.parent, ← hnone, Function.update_eq_self]
    intro d hd path hpath
    rw [hmoved.cache] at hpath
    by_cases hdc : d = c
    · subst hdc
      simp at hpath
    · rw [Function.update_of_ne hdc] at hpath
      obtain ⟨l, hl, rfl⟩ := hf d hd path hpath
      exact ⟨l, hparent ▸ hl, by rw [namesOn, namesOn, hmoved.nameOf]⟩
  · rw [hmoved.fresh_iff hr hs hn hf hc hs' (by simp) (by simp [hnone])]
    exact ⟨Or.inr, fun h => h.resolve_left hnone⟩

/-- **One call** keeps the kept paths current exactly if it meets its condition. -/
theorem fresh_call_iff (a : Call) (hr : r.Closed) (hs : r.Shape) (hn : r.Named) (hf : r.Fresh) (ha : a.Names r)
    (hs' : (r.call a).Shape) : (r.call a).Fresh ↔ r.KeepsPaths a := by
  cases a with
  | create name parent =>
    exact ⟨fun _ => trivial, fun _ => (grown_initWithNameParent r name parent).fresh hr hf⟩
  | addChild p child =>
    cases child with
    | none => exact ⟨fun _ => trivial, fun _ => hf⟩
    | some c =>
      by_cases hlisted : r.Listed p c
      · rw [call, addChild_of_listed hlisted]
        exact ⟨fun _ => Or.inl hlisted, fun _ => hf⟩
      · have hkeeps := ((shape_call_iff (.addChild p (some c)) hr ha hs).1 hs').resolve_left hlisted
        rw [call, (moved_addChild hlisted).fresh_iff hr hs hn hf (ha.2 c rfl) hs' (by simpa using ha.1)
          (by simp [hkeeps.1])]
        exact ⟨Or.inr, fun h => h.resolve_left hlisted⟩
  | removeChild p child =>
    cases child with
    | none => exact ⟨fun _ => trivial, fun _ => hf⟩
    | some c => exact fresh_removeChild_iff hr hs hn hf (ha.2 c rfl) hs'
  | entryWithPath path =>
    refine ⟨fun _ => trivial, fun _ => ?_⟩
    cases path with
    | none => exact hf
    | some path => exact (grown_descend _ hr hr.root).fresh hr hf
  | entryPath e =>
    refine ⟨fun _ => trivial, fun _ => ?_⟩
    obtain ⟨r', path, heq, hcache, hsame, hpath⟩ := entryPath_spec hr hs hn ha
    have hcur : r.Current e path := hpath.elim (hf e ha path) And.right
    rw [call, heq]
    exact hsame.fresh hcache (by simpa using hcur) hf
  | setProperty e property key =>
    refine ⟨fun _ => trivial, fun _ => ?_⟩
    cases key with
    | none => exact hf
    | some key =>
      have hcache : (r.setPropertyForKey e property (some key)).cache = Function.update r.cache e
          none := by
        rw [setPropertyForKey]
        exact cache_modify _ _ _
      exact (sameLinks_setPropertyForKey r e property (some key)).fresh hcache (by simp) hf

theorem named_initial : initial.Named := by
  intro e he
  obtain rfl := lt_count_initial.1 he
  exact Option.some_ne_none _

theorem fresh_initial : initial.Fresh := by
  intro e he path hpath
  obtain rfl := lt_count_initial.1 he
  exact absurd hpath (Option.not_mem_none path)

/-- **Paths are current throughout a run exactly if no entry is moved while a path is kept below it**,
    in the runs that keep the registry a tree. -/
theorem always_pathsCurrent_iff (log : List Call)
    (hlog : Meets call (fun r a => a.Names r ∧ a.Named) initial log) (htree : Always call Shape initial log) :
    Always call PathsCurrent initial log ↔ Meets call KeepsPaths initial log := by
  refine always_iff_meets (I := fun r => r.Closed ∧ r.Shape ∧ r.Named)
    (A := fun r a => (a.Names r ∧ a.Named) ∧ (r.call a).Shape) ?_ ?_ ⟨closed_initial, shape_initial,
      named_initial⟩
    ?_ (hlog.and htree.meets)
  · rintro r a ⟨hr, -, hn⟩ ⟨⟨hnames, hnamed⟩, hs'⟩
    exact ⟨closed_call a hr hnames, hs', named_call a hr hn hnamed⟩
  · rintro r a ⟨hr, hs, hn⟩ ⟨⟨hnames, hnamed⟩, hs'⟩ hcur
    rw [pathsCurrent_iff_fresh (closed_call a hr hnames) hs' (named_call a hr hn hnamed)]
    exact fresh_call_iff a hr hs hn ((pathsCurrent_iff_fresh hr hs hn).1 hcur) hnames hs'
  · exact (pathsCurrent_iff_fresh closed_initial shape_initial named_initial).2 fresh_initial

/-- The path of an entry is read after its parent is taken away, but not before. -/
theorem always_pathsCurrent_removed : Always call PathsCurrent initial
    [.entryWithPath (some ['a', '/', 'b']), .removeChild 0 (some 1), .entryPath 2] := by
  set log : List Call := [.entryWithPath (some ['a', '/', 'b']), .removeChild 0 (some 1), .entryPath 2]
  have hown : ∀ q ∈ (initial.call (.entryWithPath (some ['a', '/', 'b']))).parent 1, q = 0 := by decide
  have hnames : Meets call (fun r a => a.Names r) initial log := by decide
  have htree : Always call Shape initial log :=
    (always_shape hnames).2 ⟨trivial, hown, trivial, trivial⟩
  have hnone : (initial.call (.entryWithPath (some ['a', '/', 'b']))).NoneKeptBelow 1 := by
    have hcache : ∀ d < 3, (initial.call (.entryWithPath (some ['a', '/', 'b']))).cache d = none :=
      by decide
    exact fun d hd _ _ => hcache d hd
  exact (always_pathsCurrent_iff log (by decide) htree).2 ⟨trivial, Or.inr hnone, trivial, trivial⟩

/-- A path that was read before the parent of its entry was taken away stays. -/
theorem not_always_pathsCurrent : ¬ ∀ log, Meets call (fun r a => a.Names r ∧ a.Named) initial log →
    Always call Shape initial log → Always call PathsCurrent initial log := by
  intro h
  set log : List Call := [.entryWithPath (some ['a', '/', 'b']), .entryPath 2,
    .removeChild 0 (some 1)] with hdef
  have hown : ∀ q ∈ ((initial.call (.entryWithPath (some ['a', '/', 'b']))).call
      (.entryPath 2)).parent 1, q = 0 := by
    decide
  have hnames : Meets call (fun r a => a.Names r) initial log := by decide
  have htree : Always call Shape initial log :=
    (always_shape hnames).2 ⟨trivial, trivial, hown, trivial⟩
  have hcur := (h log (by decide) htree).last
  obtain ⟨r', path, heq, l, hl, hpath⟩ := hcur 2 (by decide)
  -- `root/a/b` is kept, but what is above the entry is `a` only
  have hchain : Seg (log.foldl call initial).parent (some 2) [2, 1] none := ⟨rfl, rfl, rfl⟩
  obtain rfl := hl.unique hchain
  obtain ⟨-, rfl⟩ := Prod.mk.inj (Option.some.inj heq)
  exact absurd hpath (by decide)

/-! ## Looking up a path -/

theorem notMem_of_mem_splitOn {a : Char} {s name : Text} (h : name ∈ s.splitOn a) : a ∉ name := by
  induction s generalizing name with
  | nil =>
    rw [List.splitOn_nil, List.mem_singleton] at h
    simp [h]
  | cons b s ih =>
    rw [List.splitOn_cons_eq_if_modifyHead] at h
    obtain ⟨first, rest, hsplit⟩ := List.exists_cons_of_ne_nil (List.splitOn_ne_nil a s)
    rw [hsplit] at h ih
    split at h
    · rcases List.mem_cons.1 h with rfl | h
      · exact List.not_mem_nil
      · exact ih h
    · rename_i hba
      rcases List.mem_cons.1 h with rfl | h
      · rw [List.mem_cons, not_or]
        exact ⟨fun hab => hba (by simp [hab]), ih List.mem_cons_self⟩
      · exact ih (List.mem_cons_of_mem _ h)

/-- What `+entryWithPath:` builds: a tree whose names are components of paths. -/
structure Built (r : Registry) : Prop where
  closed : r.Closed
  shape : r.Shape
  components : ∀ e < r.count, ∃ name, r.nameOf e = some name ∧ name ≠ [] ∧ '/' ∉ name

theorem SameLinks.built (h : SameLinks r r') (hb : r.Built) : r'.Built where
  closed := h.closed hb.closed
  shape := h.shape hb.shape
  components := by rw [h.count, h.nameOf]; exact hb.components

theorem built_initial : initial.Built where
  closed := closed_initial
  shape := shape_initial
  components e he := by
    obtain rfl := lt_count_initial.1 he
    exact ⟨_, rfl, by decide, by decide⟩

theorem Built.newChild {component : Text} (h : r.Built) (hp : p < r.count) (hne : component ≠ [])
    (hslash : '/' ∉ component) (hnew : r.childWithName p (some component) = none) : (r.newChild p component).Built where
  closed := closed_newChild h.closed hp hnew
  shape := shape_newChild h.shape h.closed hp hnew
  components e he := by
    rw [nameOf_newChild h.closed hp hnew]
    by_cases hen : e = r.count
    · subst hen
      rw [Function.update_self]
      exact ⟨component, rfl, hne, hslash⟩
    · rw [count_newChild] at he
      rw [Function.update_of_ne hen]
      exact h.components e (lt_of_le_of_ne (Nat.le_of_lt_succ he) hen)

theorem Built.descend {components : List Text} (h : r.Built) (hp : p < r.count) (hslash : ∀ x ∈ components, '/' ∉ x) :
    (r.descend p components).1.Built := by
  refine (descend_induct (P := fun r q => r.Built ∧ q < r.count) ?_ ?_ ⟨h, hp⟩).1
  · rintro r q c name - ⟨h, hq⟩ - hc
    exact ⟨h, h.closed.children q hq c (mem_children_of_childWithName hc).1⟩
  · rintro r q name hmem ⟨h, hq⟩ hne hnew
    exact ⟨h.newChild hq hne (hslash name hmem) hnew, by simp⟩

theorem Built.entryWithPath (h : r.Built) (path : Option Text) : (r.entryWithPath path).1.Built := by
  cases path with
  | none => exact h
  | some path => exact h.descend h.closed.root fun x hx => notMem_of_mem_splitOn hx

theorem grown_entryWithPath (hr : r.Closed) (path : Option Text) : Grown r (r.entryWithPath path).1 := by
  cases path with
  | none => exact .refl r
  | some path => exact grown_descend _ hr hr.root

/-- The registry after calls of `+entryWithPath:`. -/
def built (paths : List (Option Text)) : Registry := paths.foldl (fun r path => (r.entryWithPath path).1) initial

theorem built_spec (paths : List (Option Text)) : (built paths).Built ∧ (built paths).Fresh := by
  suffices h : ∀ r : Registry, r.Built ∧ r.Fresh →
    (paths.foldl (fun r path => (r.entryWithPath path).1) r).Built ∧
      (paths.foldl (fun r path => (r.entryWithPath path).1) r).Fresh from h initial
        ⟨built_initial, fresh_initial⟩
  induction paths with
  | nil => exact fun r h => h
  | cons path paths ih =>
    rintro r ⟨hb, hf⟩
    exact ih _ ⟨hb.entryWithPath path, (grown_entryWithPath hb.closed path).fresh hb.closed hf⟩

/-- Each component leads one entry further down. -/
theorem length_descend {components : List Text} (hne : ∀ x ∈ components, x ≠ []) (hr : r.Closed) (hs : r.Shape)
    (hp : p < r.count) (hl : Seg r.parent (some p) l none) :
    ∃ m, Seg (r.descend p components).1.parent (some (r.descend p components).2) m none ∧
      m.length = l.length + components.length := by
  induction components generalizing r p l with
  | nil => exact ⟨l, hl, rfl⟩
  | cons component components ih =>
    have hhead := hne component List.mem_cons_self
    have hrest := fun x hx => hne x (List.mem_cons_of_mem component hx)
    cases hchild : r.childWithName p (some component) with
    | some c =>
      obtain ⟨hmem, -⟩ := mem_children_of_childWithName hchild
      have hc := hr.children p hp c hmem
      have hcl : Seg r.parent (some c) (c :: l) none :=
        ⟨rfl, by rw [(hs.linked p hp c hc).1 hmem]; exact hl⟩
      obtain ⟨m, hm, hlen⟩ := ih hrest hr hs hc hcl
      rw [descend_cons_found hhead hchild]
      exact ⟨m, hm, by rw [hlen, List.length_cons, List.length_cons]; omega⟩
    | none =>
      have hcl : Seg (r.newChild p component).parent (some r.count) (r.count :: l) none := by
        refine ⟨rfl, ?_⟩
        rw [parent_newChild hr hp hchild, Function.update_self]
        exact hl.update_of_notMem (fun hmem => (hr.lt_of_mem hp hl _ hmem).false) _
      obtain ⟨m, hm, hlen⟩ := ih hrest (closed_newChild hr hp hchild)
        (shape_newChild hs hr hp hchild) (by simp) hcl
      rw [descend_cons_new hhead hchild]
      exact ⟨m, hm, by rw [hlen, List.length_cons, List.length_cons]; omega⟩

/-- Looking up an entry's own path gives back the entry and makes no other one. -/
def RoundTrips (r : Registry) (e : EntryRef) : Prop :=
  ∃ r' path, r.entryPath r.count e = some (r', path) ∧ (r'.entryWithPath (some path)).2 = some e ∧
    (r'.entryWithPath (some path)).1.count = r'.count

theorem Built.named (h : r.Built) : r.Named := by
  intro e he
  obtain ⟨name, hname, -⟩ := h.components e he
  simp [hname]

/-- The names on a chain are components that are not empty, one for each entry. -/
theorem Built.namesOn_spec (h : r.Built) (hl : ∀ a ∈ l, a < r.count) :
    (r.namesOn l).length = l.length ∧ ∀ x ∈ r.namesOn l, x ≠ [] ∧ '/' ∉ x := by
  induction l with
  | nil => exact ⟨rfl, by simp [namesOn]⟩
  | cons a l ih =>
    obtain ⟨name, hname, hne, hslash⟩ := h.components a (hl a List.mem_cons_self)
    obtain ⟨hlen, hspec⟩ := ih fun b hb => hl b (List.mem_cons_of_mem a hb)
    have hcons : r.namesOn (a :: l) = r.namesOn l ++ [name] := by simp [namesOn, hname]
    rw [hcons]
    constructor
    · rw [List.length_append, hlen]
      rfl
    · intro x hx
      rcases List.mem_append.1 hx with hx | hx
      · exact hspec x hx
      · rw [List.mem_singleton.1 hx]
        exact ⟨hne, hslash⟩

/-- The lookup of the path of `e` ends further down than `e` is. -/
theorem Built.lookup_ne (h : r.Built) (he : e < r.count) (hcur : r.Current e path) :
    (r.entryWithPath (some path)).2 ≠ some e := by
  intro heq
  obtain ⟨l, hl, rfl⟩ := hcur
  have hlt := h.closed.lt_of_mem he hl
  obtain ⟨hlen, hspec⟩ := h.namesOn_spec hlt
  have hne : r.namesOn l ≠ [] := by
    obtain ⟨k, rfl, -⟩ := seg_some.1 hl
    exact h.named.namesOn_ne_nil hlt (by simp)
  have hsplit : (componentsJoined (r.namesOn l)).splitOn '/' = r.namesOn l :=
    List.splitOn_intercalate '/' (fun x hx => (hspec x hx).2) hne
  obtain ⟨k, hk⟩ := h.shape.ends rootEntry h.closed.root
  obtain ⟨m, hm, hmlen⟩ := length_descend (fun x hx => (hspec x hx).1) h.closed h.shape h.closed.root hk
  have hresult : (r.descend rootEntry (r.namesOn l)).2 = e := by
    have := Option.some.inj heq
    rwa [hsplit] at this
  rw [hresult] at hm
  -- the chain of `e` is still what it was
  have hold := (grown_descend (r.namesOn l) h.closed h.closed.root).seg h.closed he hl
  have heqlen := congrArg List.length (hm.unique hold)
  have hkpos : k ≠ [] := by
    obtain ⟨k', rfl, -⟩ := seg_some.1 hk
    simp
  have := List.length_pos_iff.2 hkpos
  omega

/-- **No path leads back.**  In a registry that `+entryWithPath:` has built, `entryPath` returns for
    every entry, and looking up what it returns never gives back the entry. -/
theorem entryPath_not_roundTrips (paths : List (Option Text)) (e : EntryRef) (he : e < (built paths).count) :
    (∃ out, (built paths).entryPath (built paths).count e = some out) ∧ ¬ (built paths).RoundTrips e := by
  obtain ⟨hb, hf⟩ := built_spec paths
  obtain ⟨r', path, heq, -, hsame, hpath⟩ := entryPath_spec hb.closed hb.shape hb.named he
  have hcur : (built paths).Current e path := hpath.elim (hf e he path) And.right
  refine ⟨⟨_, heq⟩, ?_⟩
  rintro ⟨r'', path', heq', hfound, -⟩
  obtain ⟨rfl, rfl⟩ := Prod.mk.inj (Option.some.inj (heq.symm.trans heq'))
  exact (hsame.built hb).lookup_ne (hsame.count ▸ he) (hsame.current hcur) hfound

/-- The entry `a` of the path `a`. -/
theorem entryPath_not_roundTrips_a : ¬ (built [some ['a']]).RoundTrips 1 :=
  (entryPath_not_roundTrips [some ['a']] 1 (by decide)).2

/-- The path of that entry is `root/a`, and looking it up makes two more entries. -/
theorem not_roundTrips : ¬ ∀ paths e, e < (built paths).count → (built paths).RoundTrips e := by
  intro h
  obtain ⟨r', path, heq, hfound, -⟩ := h [some ['a']] 1 (by decide)
  obtain ⟨rfl, rfl⟩ := Prod.mk.inj (Option.some.inj heq)
  exact absurd hfound (by decide)

end Registry

end PocketDarwin.Kext
