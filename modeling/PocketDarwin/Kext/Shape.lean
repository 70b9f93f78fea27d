/-
  The shape of the registry: parents and child lists describe one forest.

  * `Shape`: the two representations agree, siblings have different names, and the
    parents of every entry end.
  * `shape_addChild`, `shape_removeChild`, `shape_create`: the exact conditions under
    which one call keeps the shape.
  * `always_shape_iff`: a run keeps the shape exactly if each of its calls meets its
    condition.
-/
import PocketDarwin.Chain
import PocketDarwin.Runs
import PocketDarwin.Kext.Registry

namespace PocketDarwin.Kext

namespace Registry

/-! ## What the shape is about -/

/-- The names of the entries. -/
def nameOf (r : Registry) : EntryRef → Option Text := fun e => (r.entry e).name

/-- The parents of the entries. -/
def parent (r : Registry) : EntryRef → Option EntryRef := fun e => (r.entry e).parentEntry

/-- The child lists of the entries. -/
def children (r : Registry) : EntryRef → List EntryRef := fun e => (r.entry e).childEntries

/-- `a` is `e` or one of its ancestors. -/
def Above (r : Registry) (a e : EntryRef) : Prop := ∃ l, Seg r.parent (some e) l (some a)

/-- Parents and child lists are those of a forest. -/
structure Shape (r : Registry) : Prop where
  /-- The child lists say the same as the parents. -/
  linked : ∀ p < r.count, ∀ c < r.count, c ∈ r.children p ↔ r.parent c = some p
  /-- No entry is in two child lists. -/
  single : ∀ p < r.count, ∀ q < r.count, ∀ c, c ∈ r.children p → c ∈ r.children q → p = q
  /-- Siblings have different names. -/
  names : ∀ p < r.count, ((r.children p).map r.nameOf).Nodup
  /-- Following the parents ends. -/
  ends : ∀ e < r.count, Ends r.parent (some e)

/-- No pointer leads out of the registry. -/
structure Closed (r : Registry) : Prop where
  root : rootEntry < r.count
  children : ∀ p < r.count, ∀ c ∈ r.children p, c < r.count
  parent : ∀ e < r.count, ∀ p ∈ r.parent e, p < r.count

/-- The same entries with the same names and pointers. -/
structure SameLinks (r r' : Registry) : Prop where
  count : r'.count = r.count
  nameOf : r'.nameOf = r.nameOf
  parent : r'.parent = r.parent
  children : r'.children = r.children

variable {r r' : Registry} {p c e : EntryRef}

theorem SameLinks.shape (h : SameLinks r r') (hs : r.Shape) : r'.Shape := by
  constructor
  · rw [h.count, h.children, h.parent]; exact hs.linked
  · rw [h.count, h.children]; exact hs.single
  · rw [h.count, h.children, h.nameOf]; exact hs.names
  · rw [h.count, h.parent]; exact hs.ends

theorem SameLinks.closed (h : SameLinks r r') (hc : r.Closed) : r'.Closed := by
  constructor
  · rw [h.count]; exact hc.root
  · rw [h.count, h.children]; exact hc.children
  · rw [h.count, h.parent]; exact hc.parent

/-- An entry is in the list of its parent only. -/
theorem single_of_linked (hc : r.Closed)
    (h : ∀ p < r.count, ∀ c < r.count, c ∈ r.children p ↔ r.parent c = some p) :
    ∀ p < r.count, ∀ q < r.count, ∀ c, c ∈ r.children p → c ∈ r.children q → p = q := by
  intro p hp q hq c hcp hcq
  have hlt := hc.children p hp c hcp
  exact Option.some.inj (((h p hp c hlt).1 hcp).symm.trans ((h q hq c hlt).1 hcq))

/-- Following the parents stays in the registry. -/
theorem Closed.lt_of_mem (hc : r.Closed) (he : e < r.count) {l : List EntryRef} (h : Seg r.parent (some e) l none) :
    ∀ a ∈ l, a < r.count :=
  h.forall_mem (by simpa using he) hc.parent

/-! ## What the operations do to names and pointers -/

section modify
variable (r : Registry) (e : EntryRef) (f : Entry → Entry)

@[simp] theorem count_modify : (r.modify e f).count = r.count := rfl

theorem nameOf_modify : (r.modify e f).nameOf = Function.update r.nameOf e (f (r.entry e)).name := by
  ext1 x
  by_cases hx : x = e
  · subst hx; simp [nameOf, modify]
  · simp [nameOf, modify, hx]

theorem parent_modify : (r.modify e f).parent = Function.update r.parent e (f (r.entry e)).parentEntry := by
  ext1 x
  by_cases hx : x = e
  · subst hx; simp [parent, modify]
  · simp [parent, modify, hx]

theorem children_modify : (r.modify e f).children = Function.update r.children e (f (r.entry e)).childEntries := by
  ext1 x
  by_cases hx : x = e
  · subst hx; simp [children, modify]
  · simp [children, modify, hx]

/-- An assignment to other instance variables. -/
theorem sameLinks_modify {f : Entry → Entry} (hname : ∀ x, (f x).name = x.name)
    (hparent : ∀ x, (f x).parentEntry = x.parentEntry) (hchildren : ∀ x, (f x).childEntries = x.childEntries) :
    SameLinks r (r.modify e f) where
  count := rfl
  nameOf := by rw [nameOf_modify, hname]; exact Function.update_eq_self e r.nameOf
  parent := by rw [parent_modify, hparent]; exact Function.update_eq_self e r.parent
  children := by rw [children_modify, hchildren]; exact Function.update_eq_self e r.children

end modify

/-- `p` has a child of the name of `c`: there is nothing to add. -/
def Listed (r : Registry) (p c : EntryRef) : Prop := r.nameOf c ≠ none ∧ ∃ x ∈ r.children p, r.nameOf x = r.nameOf c

theorem addChild_of_listed (h : r.Listed p c) : r.addChild p (some c) = r := by
  obtain ⟨hne, x, hx, hname⟩ := h
  have hany : (r.entry p).childEntries.any fun existing =>
      isEqualToString (r.entry existing).name (r.entry c).name := by
    rw [List.any_eq_true]
    exact ⟨x, hx, isEqualToString_iff.2 ⟨hname, fun h => hne (hname.symm.trans h)⟩⟩
  exact if_pos hany

theorem addChild_of_not_listed (h : ¬ r.Listed p c) :
    r.addChild p (some c) = (r.modify c fun e => { e with parentEntry := some p, entryPath := none }).modify p
      fun e => { e with childEntries := e.childEntries ++ [c] } := by
  refine if_neg fun hany => h ?_
  obtain ⟨x, hx, heq⟩ := List.any_eq_true.1 hany
  obtain ⟨hname, hne⟩ := isEqualToString_iff.1 heq
  exact ⟨fun h => hne (hname.trans h), x, hx, hname⟩

@[simp] theorem count_addChild (r : Registry) (p : EntryRef) (child : Option EntryRef) :
    (r.addChild p child).count = r.count := by
  cases child with
  | none => rfl
  | some c =>
    by_cases h : r.Listed p c
    · rw [addChild_of_listed h]
    · rw [addChild_of_not_listed h]
      rfl

/-- What `addChild:` does to names and pointers. -/
structure Added (r : Registry) (p c : EntryRef) (r' : Registry) : Prop where
  count : r'.count = r.count
  nameOf : r'.nameOf = r.nameOf
  parent : r'.parent = Function.update r.parent c (some p)
  children : r'.children = Function.update r.children p (r.children p ++ [c])

theorem added_addChild (h : ¬ r.Listed p c) : Added r p c (r.addChild p (some c)) := by
  rw [addChild_of_not_listed h]
  set r₁ := r.modify c fun e => { e with parentEntry := some p, entryPath := none } with hr₁
  have hname : r₁.nameOf = r.nameOf := (nameOf_modify _ _ _).trans (Function.update_eq_self c r.nameOf)
  have hchildren : r₁.children = r.children :=
    (children_modify _ _ _).trans (Function.update_eq_self c r.children)
  constructor
  · rfl
  · rw [← hname]
    exact (nameOf_modify _ _ _).trans (Function.update_eq_self p r₁.nameOf)
  · rw [← parent_modify r c fun e => { e with parentEntry := some p, entryPath := none }]
    exact (parent_modify _ _ _).trans (Function.update_eq_self p r₁.parent)
  · rw [← hchildren]
    exact children_modify _ _ _

/-- What `removeChild:` does to names and pointers. -/
structure Removed (r : Registry) (p c : EntryRef) (r' : Registry) : Prop where
  count : r'.count = r.count
  nameOf : r'.nameOf = r.nameOf
  parent : r'.parent = Function.update r.parent c none
  children : r'.children = Function.update r.children p ((r.children p).filter (· ≠ c))

theorem removed_removeChild (r : Registry) (p c : EntryRef) : Removed r p c (r.removeChild p (some c)) := by
  set r₁ := r.modify p fun e => { e with childEntries := e.childEntries.filter (· ≠ c) } with hr₁
  have hname : r₁.nameOf = r.nameOf := (nameOf_modify _ _ _).trans (Function.update_eq_self p r.nameOf)
  have hparent : r₁.parent = r.parent :=
    (parent_modify _ _ _).trans (Function.update_eq_self p r.parent)
  have hchildren : r₁.children = Function.update r.children p ((r.children p).filter (· ≠ c)) :=
    children_modify _ _ _
  have heq : r.removeChild p (some c) = r₁.modify c fun e =>
      { e with parentEntry := none, entryPath := none } := rfl
  rw [heq]
  constructor
  · rfl
  · rw [← hname]
    exact (nameOf_modify _ _ _).trans (Function.update_eq_self c r₁.nameOf)
  · rw [← hparent]
    exact parent_modify _ _ _
  · rw [← hchildren]
    exact (children_modify _ _ _).trans (Function.update_eq_self c r₁.children)

/-- What the creation of an entry does to names and pointers. -/
structure Created (r : Registry) (name : Option Text) (parent : Option EntryRef) (r' : Registry) : Prop where
  count : r'.count = r.count + 1
  nameOf : r'.nameOf = Function.update r.nameOf r.count name
  parent : r'.parent = Function.update r.parent r.count parent
  children : r'.children = Function.update r.children r.count []

theorem created_initWithNameParent (r : Registry) (name : Option Text) (parent : Option EntryRef) :
    Created r name parent (r.initWithNameParent name parent) := by
  have hentry : ∀ {β : Type} (f : Entry → β),
      (fun x => f ((r.initWithNameParent name parent).entry x)) =
      Function.update (fun x => f (r.entry x)) r.count (f ⟨name, [], [], parent, none⟩) := by
    intro β f
    ext1 x
    by_cases hx : x = r.count
    · subst hx; simp [initWithNameParent]
    · simp [initWithNameParent, hx]
  exact ⟨rfl, hentry _, hentry _, hentry _⟩

/-! ## One call -/

theorem Added.closed (h : Added r p c r') (hr : r.Closed) (hp : p < r.count) (hc : c < r.count) : r'.Closed := by
  constructor
  · rw [h.count]; exact hr.root
  · intro q hq x hx
    rw [h.count] at hq ⊢
    rw [h.children] at hx
    by_cases hqp : q = p
    · subst hqp
      rw [Function.update_self, List.mem_append, List.mem_singleton] at hx
      rcases hx with hx | rfl
      · exact hr.children q hq x hx
      · exact hc
    · rw [Function.update_of_ne hqp] at hx
      exact hr.children q hq x hx
  · intro e he q hq
    rw [h.count] at he ⊢
    rw [h.parent] at hq
    by_cases hec : e = c
    · subst hec
      rw [Function.update_self] at hq
      obtain rfl := Option.some.inj hq
      exact hp
    · rw [Function.update_of_ne hec] at hq
      exact hr.parent e he q hq

theorem Removed.closed (h : Removed r p c r') (hr : r.Closed) : r'.Closed := by
  constructor
  · rw [h.count]; exact hr.root
  · intro q hq x hx
    rw [h.count] at hq ⊢
    rw [h.children] at hx
    by_cases hqp : q = p
    · subst hqp
      rw [Function.update_self] at hx
      exact hr.children q hq x (List.mem_of_mem_filter hx)
    · rw [Function.update_of_ne hqp] at hx
      exact hr.children q hq x hx
  · intro e he q hq
    rw [h.count] at he ⊢
    rw [h.parent] at hq
    by_cases hec : e = c
    · subst hec
      simp at hq
    · rw [Function.update_of_ne hec] at hq
      exact hr.parent e he q hq

theorem Created.closed {name : Option Text} {parent : Option EntryRef} (h : Created r name parent r')
    (hr : r.Closed) (hparent : ∀ q ∈ parent, q < r.count) : r'.Closed := by
  constructor
  · rw [h.count]; exact hr.root.trans (Nat.lt_succ_self _)
  · intro q hq x hx
    rw [h.count] at hq ⊢
    rw [h.children] at hx
    by_cases hqn : q = r.count
    · subst hqn
      simp at hx
    · rw [Function.update_of_ne hqn] at hx
      exact (hr.children q (by omega) x hx).trans (Nat.lt_succ_self _)
  · intro e he q hq
    rw [h.count] at he ⊢
    rw [h.parent] at hq
    by_cases hen : e = r.count
    · subst hen
      rw [Function.update_self] at hq
      exact (hparent q hq).trans (Nat.lt_succ_self _)
    · rw [Function.update_of_ne hen] at hq
      exact (hr.parent e (by omega) q hq).trans (Nat.lt_succ_self _)

/-- The lists and the parents still agree if the child had no parent. -/
theorem Added.linked (h : Added r p c r') (hs : r.Shape) (hnone : r.parent c = none) :
    ∀ q < r'.count, ∀ x < r'.count, x ∈ r'.children q ↔ r'.parent x = some q := by
  intro q hq x hx
  rw [h.count] at hq hx
  rw [h.children, h.parent]
  have hold := hs.linked q hq x hx
  by_cases hqp : q = p
  · subst hqp
    by_cases hxc : x = c
    · simp [hxc]
    · simp [hxc, hold]
  · by_cases hxc : x = c
    · subst hxc
      rw [hnone] at hold
      simp [hqp, hold, Ne.symm hqp]
    · simp [hqp, hxc, hold]

theorem Added.children_self (h : Added r p c r') : r'.children p = r.children p ++ [c] := by
  rw [h.children, Function.update_self]

/-- The names of siblings still differ if that of the child is new among them, and only then. -/
theorem Added.names_iff (h : Added r p c r') (hs : r.Shape) (hp : p < r.count) :
    (∀ q < r'.count, ((r'.children q).map r'.nameOf).Nodup) ↔ r.nameOf c ∉ (r.children p).map r.nameOf := by
  rw [h.nameOf]
  constructor
  · intro hnodup hmem
    have := hnodup p (h.count ▸ hp)
    rw [h.children_self, List.map_append, List.nodup_append] at this
    exact this.2.2 _ hmem _ (by simp) rfl
  · intro hfresh q hq
    rw [h.count] at hq
    by_cases hqp : q = p
    · subst hqp
      rw [h.children_self, List.map_append, List.nodup_append]
      refine ⟨hs.names q hq, by simp, ?_⟩
      rintro n hn m hm rfl
      rw [List.map_singleton, List.mem_singleton] at hm
      exact hfresh (hm ▸ hn)
    · rw [h.children, Function.update_of_ne hqp]
      exact hs.names q hq

/-- **`addChild:`** keeps the shape exactly if the child has no parent, is not above its new one, and
    shares its name with none of its new siblings. -/
theorem Added.shape_iff (h : Added r p c r') (hs : r.Shape) (hr : r.Closed) (hp : p < r.count) (hc : c < r.count) :
    r'.Shape ↔ r.parent c = none ∧ ¬ r.Above c p ∧ r.nameOf c ∉ (r.children p).map r.nameOf := by
  obtain ⟨l, hl⟩ := hs.ends p hp
  constructor
  · intro hs'
    have hfresh := (h.names_iff hs hp).1 hs'.names
    refine ⟨?_, ?_, hfresh⟩
    · -- the old parent still lists the child
      by_contra hne
      obtain ⟨q, hq⟩ := Option.ne_none_iff_exists'.1 hne
      have hqlt := hr.parent c hc q hq
      have hmem := (hs.linked q hqlt c hc).2 hq
      have hqp : q ≠ p := by
        rintro rfl
        exact hfresh (List.mem_map_of_mem hmem)
      have hmem' : c ∈ r'.children q := by rw [h.children, Function.update_of_ne hqp]; exact hmem
      have hparent := (hs'.linked q (h.count ▸ hqlt) c (h.count ▸ hc)).1 hmem'
      rw [h.parent, Function.update_self] at hparent
      exact hqp (Option.some.inj hparent).symm
    · intro habove
      refine hl.not_ends_redirect (hl.mem_iff.2 habove) ?_
      rw [← h.parent]
      exact hs'.ends p (h.count ▸ hp)
  · rintro ⟨hnone, habove, hfresh⟩
    have hlinked := h.linked hs hnone
    refine ⟨hlinked, single_of_linked (h.closed hr hp hc) hlinked, (h.names_iff hs hp).2 hfresh, ?_⟩
    intro e he
    rw [h.count] at he
    rw [h.parent]
    exact (hs.ends e he).redirect hl fun hmem => habove (hl.mem_iff.1 hmem)

/-- **`removeChild:`** keeps the shape exactly if the child is in no other list. -/
theorem Removed.shape_iff (h : Removed r p c r') (hs : r.Shape) (hr : r.Closed) (hc : c < r.count) :
    r'.Shape ↔ ∀ q ∈ r.parent c, q = p := by
  constructor
  · intro hs' q hq
    by_contra hqp
    have hqlt := hr.parent c hc q hq
    have hmem : c ∈ r'.children q := by
      rw [h.children, Function.update_of_ne hqp]
      exact (hs.linked q hqlt c hc).2 hq
    have hparent := (hs'.linked q (h.count ▸ hqlt) c (h.count ▸ hc)).1 hmem
    rw [h.parent, Function.update_self] at hparent
    exact absurd hparent (by simp)
  · intro hown
    have hlinked : ∀ q < r'.count, ∀ x < r'.count, x ∈ r'.children q ↔ r'.parent x = some q := by
      intro q hq x hx
      rw [h.count] at hq hx
      rw [h.children, h.parent]
      have hold := hs.linked q hq x hx
      by_cases hxc : x = c
      · subst hxc
        by_cases hqp : q = p
        · subst hqp
          simp
        · have : x ∉ r.children q := fun hmem => hqp (hown q (hold.1 hmem))
          simp [hqp, this]
      · by_cases hqp : q = p
        · subst hqp
          simp [hxc, hold]
        · simp [hxc, hqp, hold]
    refine ⟨hlinked, single_of_linked (h.closed hr) hlinked, ?_, ?_⟩
    · intro q hq
      rw [h.count] at hq
      rw [h.nameOf, h.children]
      by_cases hqp : q = p
      · subst hqp
        rw [Function.update_self]
        exact (hs.names q hq).sublist (List.filter_sublist.map _)
      · rw [Function.update_of_ne hqp]
        exact hs.names q hq
    · intro e he
      rw [h.count] at he
      rw [h.parent]
      exact (hs.ends e he).redirect (seg_nil.2 rfl) List.not_mem_nil

/-- **A creation** keeps the shape exactly if the new entry has no parent: it is in no list yet. -/
theorem Created.shape_iff {name : Option Text} {parent : Option EntryRef} (h : Created r name parent r')
    (hs : r.Shape) (hr : r.Closed) (hparent : ∀ q ∈ parent, q < r.count) : r'.Shape ↔ parent = none := by
  constructor
  · intro hs'
    by_contra hne
    obtain ⟨q, rfl⟩ := Option.ne_none_iff_exists'.1 hne
    have hq := hparent q rfl
    have hmem : r.count ∈ r'.children q := by
      refine (hs'.linked q (h.count ▸ hq.trans (Nat.lt_succ_self _)) _
        (h.count ▸ Nat.lt_succ_self _)).2 ?_
      rw [h.parent, Function.update_self]
    rw [h.children, Function.update_of_ne hq.ne] at hmem
    exact (hr.children q hq _ hmem).false
  · rintro rfl
    have hlinked : ∀ q < r'.count, ∀ x < r'.count, x ∈ r'.children q ↔ r'.parent x = some q := by
      intro q hq x hx
      rw [h.count] at hq hx
      rw [h.children, h.parent]
      by_cases hqn : q = r.count
      · subst hqn
        by_cases hxn : x = r.count
        · simp [hxn]
        · have : r.parent x ≠ some r.count := fun hp => (hr.parent x (by omega) _ hp).false
          simp [hxn, this]
      · by_cases hxn : x = r.count
        · subst hxn
          have : r.count ∉ r.children q := fun hmem => (hr.children q (by omega) _ hmem).false
          simp [hqn, this]
        · simp [hqn, hxn, hs.linked q (by omega) x (by omega)]
    refine ⟨hlinked, single_of_linked (h.closed hr hparent) hlinked, ?_, ?_⟩
    · intro q hq
      rw [h.count] at hq
      rw [h.nameOf, h.children]
      by_cases hqn : q = r.count
      · simp [hqn]
      · rw [Function.update_of_ne hqn]
        have hmap : (r.children q).map (Function.update r.nameOf r.count name) =
            (r.children q).map r.nameOf :=
          List.map_congr_left fun x hx => Function.update_of_ne (hr.children q (by omega) x hx).ne _ _
        rw [hmap]
        exact hs.names q (by omega)
    · intro e he
      rw [h.count] at he
      rw [h.parent]
      by_cases hen : e = r.count
      · subst hen
        rw [ends_some, Function.update_self]
        exact ends_none
      · exact (hs.ends e (by omega)).redirect (seg_nil.2 rfl) List.not_mem_nil

/-! ## Paths -/

theorem childWithName_eq_none {name : Text} :
    r.childWithName p (some name) = none ↔ ∀ x ∈ r.children p, r.nameOf x ≠ some name := by
  rw [childWithName, if_neg (by simp), List.find?_eq_none]
  constructor
  · intro h x hx hname
    exact h x hx (isEqualToString_iff.2 ⟨hname, by simp [show (r.entry x).name = some name from hname]⟩)
  · intro h x hx heq
    exact h x hx (isEqualToString_iff.1 heq).1

theorem mem_children_of_childWithName {name : Text} (h : r.childWithName p (some name) = some c) :
    c ∈ r.children p ∧ r.nameOf c = some name := by
  rw [childWithName, if_neg (by simp)] at h
  have heq := List.find?_some h
  exact ⟨List.mem_of_find?_eq_some h, (isEqualToString_iff.1 heq).1⟩

/-- The entry that `+entryWithPath:` makes for a component that it does not find. -/
def newChild (r : Registry) (current : EntryRef) (component : Text) : Registry :=
  (r.initWithNameParent (some component) (some current)).addChild current (some r.count)

/-- A new child is one that had no parent before it was added. -/
theorem newChild_eq {component : Text} (hr : r.Closed) (hp : p < r.count)
    (hnew : r.childWithName p (some component) = none) :
    ¬ (r.initWithNameParent (some component) none).Listed p r.count ∧
      r.newChild p component = (r.initWithNameParent (some component) none).addChild p (some r.count) := by
  have hcreated := fun parent => created_initWithNameParent r (some component) parent
  have hlisted : ∀ parent, ¬ (r.initWithNameParent (some component) parent).Listed p r.count := by
    rintro parent ⟨-, x, hx, hname⟩
    rw [(hcreated parent).children, Function.update_of_ne hp.ne] at hx
    rw [(hcreated parent).nameOf, Function.update_self,
      Function.update_of_ne (hr.children p hp x hx).ne] at hname
    exact childWithName_eq_none.1 hnew x hx hname
  have hmodify : ∀ f : Entry → Entry, f ⟨some component, [], [], some p, none⟩ =
      f ⟨some component, [], [], none, none⟩ →
      (r.initWithNameParent (some component) (some p)).modify r.count f =
        (r.initWithNameParent (some component) none).modify r.count f := by
    intro f hf
    simp [modify, initWithNameParent, hf]
  refine ⟨hlisted none, ?_⟩
  rw [newChild, addChild_of_not_listed (hlisted _), addChild_of_not_listed (hlisted _), hmodify _ rfl]

theorem added_newChild {component : Text} (hr : r.Closed) (hp : p < r.count)
    (hnew : r.childWithName p (some component) = none) :
    Added (r.initWithNameParent (some component) none) p r.count (r.newChild p component) := by
  obtain ⟨hlisted, heq⟩ := newChild_eq hr hp hnew
  rw [heq]
  exact added_addChild hlisted

/-- The parents of the entries that were there stay as they are. -/
theorem parent_newChild {component : Text} (hr : r.Closed) (hp : p < r.count)
    (hnew : r.childWithName p (some component) = none) :
    (r.newChild p component).parent = Function.update r.parent r.count (some p) := by
  rw [(added_newChild hr hp hnew).parent, (created_initWithNameParent r _ _).parent,
    Function.update_idem]

theorem nameOf_newChild {component : Text} (hr : r.Closed) (hp : p < r.count)
    (hnew : r.childWithName p (some component) = none) :
    (r.newChild p component).nameOf = Function.update r.nameOf r.count (some component) := by
  rw [(added_newChild hr hp hnew).nameOf, (created_initWithNameParent r _ _).nameOf]

theorem closed_newChild {component : Text} (hr : r.Closed) (hp : p < r.count)
    (hnew : r.childWithName p (some component) = none) : (r.newChild p component).Closed := by
  have hcreated := created_initWithNameParent r (some component) none
  refine (added_newChild hr hp hnew).closed (hcreated.closed hr (by simp)) ?_ ?_
  · rw [hcreated.count]; exact Nat.lt_succ_of_lt hp
  · rw [hcreated.count]; exact Nat.lt_succ_self _

theorem shape_newChild {component : Text} (hs : r.Shape) (hr : r.Closed) (hp : p < r.count)
    (hnew : r.childWithName p (some component) = none) : (r.newChild p component).Shape := by
  have hcreated := created_initWithNameParent r (some component) none
  have hs₁ := (hcreated.shape_iff hs hr (by simp)).2 rfl
  have hr₁ := hcreated.closed hr (by simp)
  refine ((added_newChild hr hp hnew).shape_iff hs₁ hr₁ ?_ ?_).2 ⟨?_, ?_, ?_⟩
  · rw [hcreated.count]; exact Nat.lt_succ_of_lt hp
  · rw [hcreated.count]; exact Nat.lt_succ_self _
  · rw [hcreated.parent, Function.update_self]
  · -- the parents of an old entry are old entries
    obtain ⟨l, hl⟩ := hs.ends p hp
    have hlt := hr.lt_of_mem hp hl
    have hl₁ : Seg (r.initWithNameParent (some component) none).parent (some p) l none := by
      rw [hcreated.parent]
      exact hl.update_of_notMem (fun hmem => (hlt _ hmem).false) none
    exact fun habove => (hlt _ (hl₁.mem_iff.2 habove)).false
  · rw [hcreated.children, hcreated.nameOf, Function.update_of_ne hp.ne, Function.update_self]
    intro hmem
    obtain ⟨x, hx, hname⟩ := List.mem_map.1 hmem
    rw [Function.update_of_ne (hr.children p hp x hx).ne] at hname
    exact childWithName_eq_none.1 hnew x hx hname

@[simp] theorem count_newChild (r : Registry) (p : EntryRef) (component : Text) :
    (r.newChild p component).count = r.count + 1 := count_addChild _ _ _

/-- The equations of the loop of `+entryWithPath:`. -/
theorem descend_cons_found {component : Text} {components : List Text} (hne : component ≠ [])
    (h : r.childWithName p (some component) = some c) :
    r.descend p (component :: components) = r.descend c components := by
  rw [descend, if_neg (by simpa using hne), h]

theorem descend_cons_new {component : Text} {components : List Text} (hne : component ≠ [])
    (h : r.childWithName p (some component) = none) :
    r.descend p (component :: components) = (r.newChild p component).descend r.count components := by
  rw [descend, if_neg (by simpa using hne), h]
  rfl

theorem descend_cons_empty {components : List Text} : r.descend p ([] :: components) = r.descend p components := by
  rw [descend, if_pos List.length_nil]

/-- The rule for the loop of `+entryWithPath:`: what finding a child and making one keep, the loop keeps. -/
theorem descend_induct {P : Registry → EntryRef → Prop} {components : List Text}
    (hfound : ∀ r p c, ∀ name ∈ components, P r p → name ≠ [] → r.childWithName p (some name) = some c → P r c)
    (hnew : ∀ r p, ∀ name ∈ components, P r p → name ≠ [] → r.childWithName p (some name) = none →
      P (r.newChild p name) r.count)
    (h : P r p) : P (r.descend p components).1 (r.descend p components).2 := by
  induction components generalizing r p with
  | nil => exact h
  | cons component components ih =>
    have hrest : ∀ {r p}, P r p → P (r.descend p components).1 (r.descend p components).2 :=
      ih (fun r p c name hmem => hfound r p c name (List.mem_cons_of_mem _ hmem))
        (fun r p name hmem => hnew r p name (List.mem_cons_of_mem _ hmem))
    by_cases hne : component = []
    · subst hne
      rw [descend_cons_empty]
      exact hrest h
    · cases hchild : r.childWithName p (some component) with
      | some c =>
        rw [descend_cons_found hne hchild]
        exact hrest (hfound r p c component List.mem_cons_self h hne hchild)
      | none =>
        rw [descend_cons_new hne hchild]
        exact hrest (hnew r p component List.mem_cons_self h hne hchild)

theorem closed_descend (components : List Text) (hr : r.Closed) (hp : p < r.count) :
    (r.descend p components).1.Closed ∧ (r.descend p components).2 < (r.descend p components).1.count := by
  refine descend_induct (P := fun r p => r.Closed ∧ p < r.count) ?_ ?_ ⟨hr, hp⟩
  · rintro r p c name - ⟨hr, hp⟩ - hc
    exact ⟨hr, hr.children p hp c (mem_children_of_childWithName hc).1⟩
  · rintro r p name - ⟨hr, hp⟩ - hnew
    exact ⟨closed_newChild hr hp hnew, by simp⟩

theorem shape_descend (components : List Text) (hs : r.Shape) (hr : r.Closed) (hp : p < r.count) :
    (r.descend p components).1.Shape := by
  refine (descend_induct (P := fun r p => r.Shape ∧ r.Closed ∧ p < r.count) ?_ ?_ ⟨hs, hr, hp⟩).1
  · rintro r p c name - ⟨hs, hr, hp⟩ - hc
    exact ⟨hs, hr, hr.children p hp c (mem_children_of_childWithName hc).1⟩
  · rintro r p name - ⟨hs, hr, hp⟩ - hnew
    exact ⟨shape_newChild hs hr hp hnew, closed_newChild hr hp hnew, by simp⟩

/-! ## `entryPath` -/

/-- Where the loop of `entryPath` goes on: it stops at an entry without a name. -/
def namedParent (r : Registry) (e : EntryRef) : Option EntryRef :=
  (r.parent e).filter fun q => (r.nameOf q).isSome

theorem pathParts_of_name_eq_none (h : r.nameOf e = none) (fuel : ℕ) (parts : List Text) :
    r.pathParts fuel (some e) parts = some parts := by
  have h' : (r.entry e).name = none := h
  rw [pathParts.eq_def]
  simp only [h']

theorem pathParts_succ {name : Text} (h : r.nameOf e = some name) (fuel : ℕ) (parts : List Text) :
    r.pathParts (fuel + 1) (some e) parts = r.pathParts fuel (r.parent e) (name :: parts) := by
  have h' : (r.entry e).name = some name := h
  rw [pathParts.eq_def]
  simp only [h']
  rfl

theorem pathParts_zero {name : Text} (h : r.nameOf e = some name) (parts : List Text) :
    r.pathParts 0 (some e) parts = none := by
  have h' : (r.entry e).name = some name := h
  rw [pathParts.eq_def]
  simp only [h']

/-- The loop of `entryPath` walks along the named parents. -/
theorem pathParts_eq (r : Registry) (fuel : ℕ) (s : Option EntryRef) (parts : List Text) :
    r.pathParts fuel s parts =
      (walk r.namedParent fuel (s.filter fun q => (r.nameOf q).isSome)).map
        fun l => (l.filterMap r.nameOf).reverse ++ parts := by
  induction fuel generalizing s parts with
  | zero =>
    cases s with
    | none => rfl
    | some e =>
      cases hname : r.nameOf e with
      | none =>
        rw [pathParts_of_name_eq_none hname, Option.filter_some_neg (by simp [hname])]
        rfl
      | some name =>
        rw [pathParts_zero hname, Option.filter_some_pos (by simp [hname])]
        rfl
  | succ fuel ih =>
    cases s with
    | none => rfl
    | some e =>
      cases hname : r.nameOf e with
      | none =>
        rw [pathParts_of_name_eq_none hname, Option.filter_some_neg (by simp [hname])]
        rfl
      | some name =>
        rw [pathParts_succ hname, ih, Option.filter_some_pos (by simp [hname]), walk, Option.map_map]
        congr 1
        ext1 l
        simp [hname]

theorem ends_namedParent {s : Option EntryRef} (h : Ends r.parent s) :
    Ends r.namedParent (s.filter fun q => (r.nameOf q).isSome) := by
  obtain ⟨l, hl⟩ := h
  induction l generalizing s with
  | nil =>
    obtain rfl := hl
    exact ends_none
  | cons e l ih =>
    obtain ⟨rfl, hl⟩ := hl
    cases hname : r.nameOf e with
    | none =>
      rw [Option.filter_some_neg (by simp [hname])]
      exact ends_none
    | some name =>
      rw [Option.filter_some_pos (by simp [hname]), ends_some]
      exact ih hl

theorem entryPath_of_cached {path : Text} (h : (r.entry e).entryPath = some path) (fuel : ℕ) :
    r.entryPath fuel e = some (r, path) := by
  simp only [entryPath, h]

theorem entryPath_eq_none {fuel : ℕ} :
    r.entryPath fuel e = none ↔ (r.entry e).entryPath = none ∧ r.pathParts fuel (some e) [] = none := by
  cases h : (r.entry e).entryPath with
  | none => simp [entryPath, h]
  | some path => simp [entryPath, h]

/-- **As many rounds as there are entries are enough**: an `entryPath` that does not return within
    these never does. -/
theorem entryPath_fuel (hr : r.Closed) (he : e < r.count) (h : r.entryPath r.count e = none) (fuel : ℕ) :
    r.entryPath fuel e = none := by
  rw [entryPath_eq_none, pathParts_eq, Option.map_eq_none_iff] at h ⊢
  refine ⟨h.1, ?_⟩
  by_contra hsome
  obtain ⟨l, hl⟩ := Option.ne_none_iff_exists'.1 hsome
  have hseg := (walk_eq_some.1 hl).1
  have hlt : ∀ a ∈ l, a < r.count := by
    refine hseg.forall_mem ?_ ?_
    · intro a ha
      obtain rfl := Option.some.inj (Option.mem_filter_iff.1 ha).1
      exact he
    · intro a ha b hb
      exact hr.parent a ha b (Option.mem_filter_iff.1 hb).1
  exact absurd (walk_eq_some.2 ⟨hseg, hseg.length_le hlt⟩) (by simp [h.2])

/-- **`entryPath` returns** if the parents end. -/
theorem entryPath_returns (h : Ends r.parent (some e)) : ∃ fuel, (r.entryPath fuel e).isSome := by
  obtain ⟨l, hl⟩ := ends_namedParent h
  refine ⟨l.length, ?_⟩
  rw [Option.isSome_iff_ne_none, ne_eq, entryPath_eq_none, pathParts_eq, walk_eq_some.2 ⟨hl, le_rfl⟩]
  simp

theorem sameLinks_entryPath {fuel : ℕ} {path : Text} (h : r.entryPath fuel e = some (r', path)) : SameLinks r r' := by
  cases hcache : (r.entry e).entryPath with
  | some cached =>
    rw [entryPath_of_cached hcache] at h
    obtain ⟨rfl, -⟩ := Prod.mk.inj (Option.some.inj h)
    exact ⟨rfl, rfl, rfl, rfl⟩
  | none =>
    simp only [entryPath, hcache] at h
    obtain ⟨parts, -, heq⟩ := Option.map_eq_some_iff.1 h
    obtain ⟨rfl, -⟩ := Prod.mk.inj heq
    exact sameLinks_modify r e (fun _ => rfl) (fun _ => rfl) (fun _ => rfl)

theorem sameLinks_setPropertyForKey (r : Registry) (e : EntryRef) (property : Option Object) (key : Option Text) :
    SameLinks r (r.setPropertyForKey e property key) := by
  cases key with
  | none => exact ⟨rfl, rfl, rfl, rfl⟩
  | some key =>
    rw [setPropertyForKey]
    exact sameLinks_modify r e (fun _ => rfl) (fun _ => rfl) (fun _ => rfl)

/-! ## Runs -/

theorem sameLinks_call_entryPath (r : Registry) (e : EntryRef) : SameLinks r (r.call (.entryPath e)) := by
  cases h : r.entryPath r.count e with
  | none =>
    simp only [call, h]
    exact ⟨rfl, rfl, rfl, rfl⟩
  | some out =>
    simp only [call, h]
    exact sameLinks_entryPath h

/-- The condition under which a call keeps the shape.  An entry that is added is to have no parent, not
    to be above its new one, and to share its name with none of its new siblings; if there is a sibling
    of its name already, nothing is added.  An entry that is removed is to be in no other list, and one
    that is created is to have no parent. -/
def Keeps (r : Registry) : Call → Prop
  | .create _ parent => parent = none
  | .addChild self (some child) => r.Listed self child ∨
      (r.parent child = none ∧ ¬ r.Above child self ∧ r.nameOf child ∉ (r.children self).map r.nameOf)
  | .removeChild self (some child) => ∀ q ∈ r.parent child, q = self
  | _ => True

theorem closed_call (a : Call) (hr : r.Closed) (ha : a.Names r) : (r.call a).Closed := by
  cases a with
  | create name parent => exact (created_initWithNameParent r name parent).closed hr ha
  | addChild p child =>
    cases child with
    | none => exact hr
    | some c =>
      by_cases hlisted : r.Listed p c
      · rw [call, addChild_of_listed hlisted]
        exact hr
      · exact (added_addChild hlisted).closed hr ha.1 (ha.2 c rfl)
  | removeChild p child =>
    cases child with
    | none => exact hr
    | some c => exact (removed_removeChild r p c).closed hr
  | entryWithPath path =>
    cases path with
    | none => exact hr
    | some path => exact (closed_descend _ hr hr.root).1
  | entryPath e => exact (sameLinks_call_entryPath r e).closed hr
  | setProperty e property key => exact (sameLinks_setPropertyForKey r e property key).closed hr

/-- **One call** keeps the shape exactly if it meets its condition. -/
theorem shape_call_iff (a : Call) (hr : r.Closed) (ha : a.Names r) (hs : r.Shape) :
    (r.call a).Shape ↔ r.Keeps a := by
  cases a with
  | create name parent => exact (created_initWithNameParent r name parent).shape_iff hs hr ha
  | addChild p child =>
    cases child with
    | none => exact ⟨fun _ => trivial, fun _ => hs⟩
    | some c =>
      by_cases hlisted : r.Listed p c
      · rw [call, addChild_of_listed hlisted]
        exact ⟨fun _ => Or.inl hlisted, fun _ => hs⟩
      · refine ((added_addChild hlisted).shape_iff hs hr ha.1 (ha.2 c rfl)).trans ?_
        exact ⟨Or.inr, fun h => h.resolve_left hlisted⟩
  | removeChild p child =>
    cases child with
    | none => exact ⟨fun _ => trivial, fun _ => hs⟩
    | some c => exact (removed_removeChild r p c).shape_iff hs hr (ha.2 c rfl)
  | entryWithPath path =>
    refine ⟨fun _ => trivial, fun _ => ?_⟩
    cases path with
    | none => exact hs
    | some path => exact shape_descend _ hs hr hr.root
  | entryPath e => exact ⟨fun _ => trivial, fun _ => (sameLinks_call_entryPath r e).shape hs⟩
  | setProperty e property key =>
    exact ⟨fun _ => trivial, fun _ => (sameLinks_setPropertyForKey r e property key).shape hs⟩

/-- The first registry has one entry, without children and without a parent. -/
theorem lt_count_initial : e < initial.count ↔ e = rootEntry := Nat.lt_one_iff

theorem closed_initial : initial.Closed := by
  refine ⟨Nat.zero_lt_one, ?_, ?_⟩
  · intro p hp c hc
    obtain rfl := lt_count_initial.1 hp
    exact absurd hc List.not_mem_nil
  · intro e he q hq
    obtain rfl := lt_count_initial.1 he
    exact absurd hq (Option.not_mem_none q)

theorem shape_initial : initial.Shape := by
  have hlinked : ∀ p < initial.count, ∀ c < initial.count, c ∈ initial.children p ↔
      initial.parent c = some p := by
    intro p hp c hc
    obtain rfl := lt_count_initial.1 hp
    obtain rfl := lt_count_initial.1 hc
    exact ⟨fun h => absurd h List.not_mem_nil, fun h => absurd h (Option.not_mem_none _)⟩
  refine ⟨hlinked, single_of_linked closed_initial hlinked, ?_, ?_⟩
  · intro p hp
    obtain rfl := lt_count_initial.1 hp
    exact List.nodup_nil
  · intro e he
    obtain rfl := lt_count_initial.1 he
    exact ends_some.2 ends_none

theorem always_shape {log : List Call} (hlog : Meets call (fun r a => a.Names r) initial log) :
    Always call Shape initial log ↔ Meets call Keeps initial log :=
  always_iff_meets (I := Closed) (A := fun r a => a.Names r) (fun _ a => closed_call a)
    (fun _ a => shape_call_iff a) closed_initial shape_initial hlog

/-- **The registry keeps its shape exactly in the runs whose calls meet their conditions.**  In such
    a run `entryPath` returns for every entry of every state. -/
theorem always_shape_iff (log : List Call) (hlog : Meets call (fun r a => a.Names r) initial log) :
    Always call (fun r => r.Shape ∧ ∀ e < r.count, ∃ fuel, (r.entryPath fuel e).isSome) initial log ↔
      Meets call Keeps initial log := by
  rw [← always_shape hlog]
  constructor
  · exact Always.imp fun r h => h.1
  · exact Always.imp fun r h => ⟨h, fun e he => entryPath_returns (h.ends e he)⟩

/-- An entry that is taken from one list and put into another. -/
theorem always_shape_moved :
    Always call (fun r => r.Shape ∧ ∀ e < r.count, ∃ fuel, (r.entryPath fuel e).isSome) initial
      [.entryWithPath (some ['a', '/', 'b']), .removeChild 1 (some 2), .addChild 0 (some 2)] := by
  set log : List Call := [.entryWithPath (some ['a', '/', 'b']), .removeChild 1 (some 2),
    .addChild 0 (some 2)]
  have hnames : Meets call (fun r a => a.Names r) initial log := by decide
  set r := (initial.call (.entryWithPath (some ['a', '/', 'b']))).call (.removeChild 1 (some 2))
  have habove : ¬ r.Above 2 0 := by
    -- the root is the only entry above itself
    have hroot : Seg r.parent (some 0) [0] none := ⟨rfl, rfl⟩
    rintro habove
    exact absurd (hroot.mem_iff.2 habove) (by decide)
  have hown : ∀ q ∈ (initial.call (.entryWithPath (some ['a', '/', 'b']))).parent 2, q = 1 := by decide
  exact (always_shape_iff log hnames).2 ⟨trivial, hown, Or.inr ⟨rfl, habove, by decide⟩, trivial⟩

/-- An entry that is added to a second list stays in the first. -/
theorem not_always_shape : ¬ ∀ log, Meets call (fun r a => a.Names r) initial log →
    Always call (fun r => r.Shape ∧ ∀ e < r.count, ∃ fuel, (r.entryPath fuel e).isSome) initial log := by
  intro h
  have hs := (h [.entryWithPath (some ['a']), .entryWithPath (some ['b']), .addChild 1 (some 2)]
    (by decide)).last.1
  exact absurd (hs.single 0 (by decide) 1 (by decide) 2 (by decide) (by decide)) (by decide)

end Registry

end PocketDarwin.Kext
