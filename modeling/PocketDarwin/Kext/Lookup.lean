/-
  Finding and making entries by their paths.

  The entries that `+entryWithPath:` makes are a tree of names: siblings have different
  names, so an entry is found by one sequence of components only.

  * `find_descend`: what was made is found, and what was found still is.
  * `missing_descend`: the entries that are made are those of the prefixes that were not
    found, in their order.
  * `find_injective`: two sequences of components find different entries.
-/
import PocketDarwin.Kext.Paths

namespace PocketDarwin.Kext

namespace Registry

/-! ## Lookups -/

/-- The loop of `-entryWithPath:` over the components that are left. -/
def find (r : Registry) (current : EntryRef) : List Text → Option EntryRef
  | [] => some current
  | component :: components =>
    if component.length = 0 then r.find current components
    else match r.childWithName current (some component) with
      | none => none
      | some child => r.find child components

/-- `-entryWithPath:` -/
def lookup (r : Registry) (self : EntryRef) : Option Text → Option EntryRef
  | none => none
  | some path => r.find self (path.splitOn '/')

/-- The components of a path that are not empty. -/
def componentsOf (path : Text) : List Text :=
  (path.splitOn '/').filter fun component => component ≠ []

/-- The prefixes of a sequence of components that are not found. -/
def missing (r : Registry) (current : EntryRef) (components : List Text) : List (List Text) :=
  components.inits.filter fun l => (r.find current l).isNone

variable {r r' : Registry} {p q c e : EntryRef} {name : Text} {components : List Text}

/-! ## The loops -/

theorem find_cons (hne : name ≠ []) :
    r.find p (name :: components) = (r.childWithName p (some name)).bind fun c =>
      r.find c components := by
  rw [find, if_neg (by simpa using hne)]
  cases r.childWithName p (some name) with
  | none => rfl
  | some c => rfl

/-- Empty components make no difference. -/
theorem find_filter (r : Registry) (p : EntryRef) (components : List Text) :
    r.find p (components.filter fun component => component ≠ []) = r.find p components := by
  induction components generalizing p with
  | nil => rfl
  | cons name components ih =>
    by_cases hne : name = []
    · subst hne
      rw [List.filter_cons_of_neg (by simp), find, if_pos List.length_nil]
      exact ih p
    · rw [List.filter_cons_of_pos (by simpa using hne), find_cons hne, find_cons hne]
      exact congrArg _ (funext ih)

theorem descend_filter (r : Registry) (p : EntryRef) (components : List Text) :
    r.descend p (components.filter fun component => component ≠ []) = r.descend p components := by
  induction components generalizing r p with
  | nil => rfl
  | cons name components ih =>
    by_cases hne : name = []
    · subst hne
      rw [List.filter_cons_of_neg (by simp), descend_cons_empty]
      exact ih r p
    · rw [List.filter_cons_of_pos (by simpa using hne)]
      cases hchild : r.childWithName p (some name) with
      | some c => rw [descend_cons_found hne hchild, descend_cons_found hne hchild, ih]
      | none => rw [descend_cons_new hne hchild, descend_cons_new hne hchild, ih]

/-- What is found is not made again. -/
theorem descend_of_find (h : r.find p components = some e) : r.descend p components = (r, e) := by
  induction components generalizing p with
  | nil => exact congrArg (r, ·) (Option.some.inj h)
  | cons name components ih =>
    by_cases hne : name = []
    · subst hne
      rw [descend_cons_empty]
      exact ih h
    · rw [find_cons hne] at h
      obtain ⟨c, hchild, hrest⟩ := Option.bind_eq_some_iff.1 h
      rw [descend_cons_found hne hchild]
      exact ih hrest

/-! ## Children -/

/-- Siblings have different names, so a child is found by its name. -/
theorem childWithName_eq_some (hs : r.Shape) (hp : p < r.count) :
    r.childWithName p (some name) = some c ↔ c ∈ r.children p ∧ r.nameOf c = some name := by
  constructor
  · exact mem_children_of_childWithName
  · rintro ⟨hmem, hname⟩
    cases hchild : r.childWithName p (some name) with
    | none => exact absurd hname (childWithName_eq_none.1 hchild c hmem)
    | some c' =>
      obtain ⟨hmem', hname'⟩ := mem_children_of_childWithName hchild
      exact congrArg some (List.inj_on_of_nodup_map (hs.names p hp) hmem' hmem
        (hname'.trans hname.symm))

theorem children_newChild (hr : r.Closed) (hp : p < r.count)
    (hnew : r.childWithName p (some name) = none) :
    (r.newChild p name).children =
      Function.update (Function.update r.children r.count []) p (r.children p ++ [r.count]) := by
  have hcreated := created_initWithNameParent r (some name) none
  rw [(added_newChild hr hp hnew).children, hcreated.children, Function.update_of_ne hp.ne]

/-- A new child is found, and the others still are. -/
theorem childWithName_newChild (hr : r.Closed) (hs : r.Shape) (hp : p < r.count)
    (hnew : r.childWithName p (some name) = none) :
    (r.newChild p name).childWithName p (some name) = some r.count ∧
    ∀ q < r.count, ∀ other c, r.childWithName q (some other) = some c →
      (r.newChild p name).childWithName q (some other) = some c := by
  have hs' := shape_newChild hs hr hp hnew
  have hchildren := children_newChild hr hp hnew
  have hname := nameOf_newChild hr hp hnew
  have hlt : ∀ q < r.count, q < (r.newChild p name).count := by
    intro q hq
    rw [count_newChild]
    exact Nat.lt_succ_of_lt hq
  constructor
  · rw [childWithName_eq_some hs' (hlt p hp), hchildren, hname, Function.update_self,
      Function.update_self]
    exact ⟨List.mem_append_right _ List.mem_cons_self, rfl⟩
  · intro q hq other c h
    obtain ⟨hmem, hother⟩ := mem_children_of_childWithName h
    rw [childWithName_eq_some hs' (hlt q hq), hchildren, hname,
      Function.update_of_ne (hr.children q hq c hmem).ne]
    refine ⟨?_, hother⟩
    by_cases hqp : q = p
    · subst hqp
      rw [Function.update_self]
      exact List.mem_append_left _ hmem
    · rw [Function.update_of_ne hqp, Function.update_of_ne hq.ne]
      exact hmem

/-- A new child has no children. -/
theorem find_newChild_new (hr : r.Closed) (hp : p < r.count)
    (hnew : r.childWithName p (some name) = none) {other : Text} (hne : other ≠ []) :
    (r.newChild p name).find r.count (other :: components) = none := by
  have hnone : (r.newChild p name).childWithName r.count (some other) = none := by
    rw [childWithName_eq_none, children_newChild hr hp hnew, Function.update_of_ne hp.ne',
      Function.update_self]
    exact fun x hx => absurd hx List.not_mem_nil
  rw [find_cons hne, hnone]
  rfl

/-! ## What is found -/

/-- Every lookup that finds an entry still finds it. -/
def StillFinds (r r' : Registry) : Prop :=
  ∀ q < r.count, ∀ l e, r.find q l = some e → r'.find q l = some e

theorem StillFinds.trans {r'' : Registry} (h : StillFinds r r') (hle : r.count ≤ r'.count)
    (h' : StillFinds r' r'') :
    StillFinds r r'' :=
  fun q hq l e he => h' q (lt_of_lt_of_le hq hle) l e (h q hq l e he)

theorem stillFinds_newChild (hr : r.Closed) (hs : r.Shape) (hp : p < r.count)
    (hnew : r.childWithName p (some name) = none) : StillFinds r (r.newChild p name) := by
  intro q hq l
  induction l generalizing q with
  | nil => exact fun e h => h
  | cons other l ih =>
    intro e h
    by_cases hne : other = []
    · subst hne
      exact ih q hq e h
    · rw [find_cons hne] at h ⊢
      obtain ⟨c, hchild, hrest⟩ := Option.bind_eq_some_iff.1 h
      rw [(childWithName_newChild hr hs hp hnew).2 q hq other c hchild]
      exact ih c (hr.children q hq c (mem_children_of_childWithName hchild).1) e hrest

/-- **What was found is still found** behind `+entryWithPath:`. -/
theorem stillFinds_descend (components : List Text) (hr : r.Closed) (hs : r.Shape)
    (hp : p < r.count) :
    StillFinds r (r.descend p components).1 := by
  refine (descend_induct (P := fun r₁ q => r₁.Closed ∧ r₁.Shape ∧ q < r₁.count ∧
    r.count ≤ r₁.count ∧
    StillFinds r r₁) ?_ ?_ ⟨hr, hs, hp, le_rfl, fun _ _ _ _ h => h⟩).2.2.2.2
  · rintro r₁ q c name - ⟨hr₁, hs₁, hq, hle, hkeeps⟩ - hc
    exact ⟨hr₁, hs₁, hr₁.children q hq c (mem_children_of_childWithName hc).1, hle, hkeeps⟩
  · rintro r₁ q name - ⟨hr₁, hs₁, hq, hle, hkeeps⟩ - hnew
    refine ⟨closed_newChild hr₁ hq hnew, shape_newChild hs₁ hr₁ hq hnew, by simp, ?_, ?_⟩
    · rw [count_newChild]
      omega
    · exact hkeeps.trans hle (stillFinds_newChild hr₁ hs₁ hq hnew)

theorem find_singleton (hne : name ≠ []) : r.find p [name] = r.childWithName p (some name) := by
  rw [find_cons hne]
  exact Option.bind_fun_some _

theorem StillFinds.childWithName (h : StillFinds r r') (hp : p < r.count) (hne : name ≠ [])
    (hchild : r.childWithName p (some name) = some c) :
    r'.childWithName p (some name) = some c := by
  rw [← find_singleton hne] at hchild ⊢
  exact h p hp [name] c hchild

/-- The child that the loop goes on with, in the registry that it leaves. -/
theorem childWithName_descend (components : List Text) (hr : r.Closed) (hs : r.Shape)
    (hp : p < r.count) (hne : name ≠ []) :
    ∃ r₁ c, r.descend p (name :: components) = r₁.descend c components ∧
      r₁.Closed ∧ r₁.Shape ∧ c < r₁.count ∧
      (r.descend p (name :: components)).1.childWithName p (some name) = some c ∧
      (r.childWithName p (some name) = some c ∧ r₁ = r ∨
        r.childWithName p (some name) = none ∧ r₁ = r.newChild p name ∧ c = r.count) := by
  cases hchild : r.childWithName p (some name) with
  | some c =>
    have hc := hr.children p hp c (mem_children_of_childWithName hchild).1
    rw [descend_cons_found hne hchild]
    exact ⟨r, c, rfl, hr, hs, hc, (stillFinds_descend components hr hs hc).childWithName hp hne hchild,
      .inl ⟨rfl, rfl⟩⟩
  | none =>
    have hr₁ := closed_newChild hr hp hchild
    have hs₁ := shape_newChild hs hr hp hchild
    have hlt : r.count < (r.newChild p name).count := by simp
    rw [descend_cons_new hne hchild]
    refine ⟨r.newChild p name, r.count, rfl, hr₁, hs₁, hlt, ?_, .inr ⟨rfl, rfl, rfl⟩⟩
    exact (stillFinds_descend components hr₁ hs₁ hlt).childWithName (hp.trans hlt) hne
      (childWithName_newChild hr hs hp hchild).1

/-- **What `+entryWithPath:` returns** is found. -/
theorem find_descend (components : List Text) (hr : r.Closed) (hs : r.Shape) (hp : p < r.count) :
    (r.descend p components).1.find p components = some (r.descend p components).2 := by
  induction components generalizing r p with
  | nil => rfl
  | cons name components ih =>
    by_cases hne : name = []
    · subst hne
      rw [descend_cons_empty]
      exact ih hr hs hp
    · obtain ⟨r₁, c, hdescend, hr₁, hs₁, hc, hchild, -⟩ :=
        childWithName_descend components hr hs hp hne
      rw [find_cons hne, hchild, hdescend]
      exact ih hr₁ hs₁ hc

/-! ## What is made -/

theorem missing_cons (hne : name ≠ []) (components : List Text) :
    r.missing p (name :: components) = ((components.inits.filter fun l =>
      ((r.childWithName p (some name)).bind fun c => r.find c l).isNone).map (name :: ·)) := by
  rw [missing, List.inits_cons, List.filter_cons_of_neg (by simp [find]), List.filter_map]
  refine congrArg (List.map (name :: ·)) (List.filter_congr fun l _ => ?_)
  rw [Function.comp_apply, find_cons hne]

/-- Below a new child all is missing. -/
theorem missing_newChild (hne : ∀ x ∈ components, x ≠ []) (hr : r.Closed) (hp : p < r.count)
    (hnew : r.childWithName p (some name) = none) :
    (r.newChild p name).missing r.count components = components.inits.tail := by
  cases components with
  | nil => rfl
  | cons other components =>
    rw [missing, List.inits_cons, List.filter_cons_of_neg (by simp [find]), List.tail_cons]
    refine List.filter_eq_self.2 fun l hl => ?_
    obtain ⟨l, -, rfl⟩ := List.mem_map.1 hl
    rw [find_newChild_new hr hp hnew (hne other List.mem_cons_self)]
    rfl

/-- **The entries that are made** are those of the missing prefixes, one for each. -/
theorem missing_descend (hne : ∀ x ∈ components, x ≠ []) (hr : r.Closed) (hs : r.Shape)
    (hp : p < r.count) :
    (r.missing p components).map ((r.descend p components).1.find p) =
      (List.range' r.count ((r.descend p components).1.count - r.count)).map some := by
  induction components generalizing r p with
  | nil => simp [missing, descend, find]
  | cons name components ih =>
    have hname := hne name List.mem_cons_self
    have hrest := fun x hx => hne x (List.mem_cons_of_mem name hx)
    obtain ⟨r₁, c, hdescend, hr₁, hs₁, hc, hchild, hcases⟩ :=
      childWithName_descend components hr hs hp hname
    have hfind : ∀ l, (r₁.descend c components).1.find p (name :: l) =
        (r₁.descend c components).1.find c l := by
      intro l
      rw [find_cons hname, ← hdescend, hchild]
      rfl
    have hih := ih hrest hr₁ hs₁ hc
    rw [missing_cons hname, List.map_map, hdescend]
    rcases hcases with ⟨hfound, rfl⟩ | ⟨hnew, rfl, rfl⟩
    · rw [hfound]
      exact (List.map_congr_left fun l _ => hfind l).trans hih
    · have hall : (components.inits.filter fun l =>
          ((r.childWithName p (some name)).bind fun c => r.find c l).isNone) = components.inits := by
        rw [hnew]
        exact List.filter_eq_self.2 fun l _ => rfl
      have hinits : components.inits = [] :: components.inits.tail := by cases components <;> rfl
      have hle := (grown_descend components hr₁ hc).count
      rw [missing_newChild hrest hr hp hnew] at hih
      rw [hall]
      refine (List.map_congr_left fun l _ => hfind l).trans ?_
      rw [count_newChild] at hle hih
      generalize ((r.newChild p name).descend r.count components).1 = r' at hle hih ⊢
      rw [hinits, List.map_cons, hih, show r'.count - r.count =
        r'.count - (r.count + 1) + 1 by omega,
        List.range'_succ, List.map_cons]
      rfl

/-! ## One path for an entry -/

theorem find_append (l : List Text) :
    r.find p (components ++ l) = (r.find p components).bind fun e => r.find e l := by
  induction components generalizing p with
  | nil => rfl
  | cons name components ih =>
    by_cases hne : name = []
    · subst hne
      exact ih
    · rw [List.cons_append, find_cons hne, find_cons hne, Option.bind_assoc]
      exact congrArg _ (funext fun c => ih)

theorem find_lt (hr : r.Closed) (hp : p < r.count) (h : r.find p components = some e) :
    e < r.count := by
  induction components generalizing p with
  | nil => rwa [← Option.some.inj h]
  | cons name components ih =>
    by_cases hne : name = []
    · subst hne
      exact ih hp h
    · rw [find_cons hne] at h
      obtain ⟨c, hchild, hrest⟩ := Option.bind_eq_some_iff.1 h
      exact ih (hr.children p hp c (mem_children_of_childWithName hchild).1) hrest

/-- The last step to an entry is from its parent, by its name. -/
theorem last_step (hr : r.Closed) (hs : r.Shape) (hp : p < r.count) (hne : name ≠ [])
    (h : r.find p (components ++ [name]) = some e) :
    ∃ q, r.find p components = some q ∧ r.parent e = some q ∧ r.nameOf e = some name := by
  rw [find_append] at h
  obtain ⟨q, hq, hchild⟩ := Option.bind_eq_some_iff.1 h
  rw [find_singleton hne] at hchild
  obtain ⟨hmem, hname⟩ := mem_children_of_childWithName hchild
  have hlt := find_lt hr hp hq
  exact ⟨q, hq, (hs.linked q hlt e (hr.children q hlt e hmem)).1 hmem, hname⟩

/-- **An entry has one path** from an entry without a parent. -/
theorem find_injective (hr : r.Closed) (hs : r.Shape) (hp : p < r.count) (htop : r.parent p = none)
    {l l' : List Text} (hl : ∀ x ∈ l, x ≠ []) (hl' : ∀ x ∈ l', x ≠ []) (h : r.find p l = some e)
    (h' : r.find p l' = some e) : l = l' := by
  have hstep : ∀ {l : List Text} {name : Text} {e : EntryRef}, (∀ x ∈ l ++ [name], x ≠ []) →
      r.find p (l ++ [name]) = some e →
        ∃ q, r.find p l = some q ∧ r.parent e = some q ∧ r.nameOf e = some name :=
    fun hl h => last_step hr hs hp (hl _ (List.mem_append_right _ List.mem_cons_self)) h
  induction l using List.reverseRecOn generalizing l' e with
  | nil =>
    obtain rfl := Option.some.inj h
    rcases List.eq_nil_or_concat' l' with rfl | ⟨l', name, rfl⟩
    · rfl
    · obtain ⟨q, -, hparent, -⟩ := hstep hl' h'
      rw [htop] at hparent
      cases hparent
  | append_singleton l name ih =>
    obtain ⟨q, hq, hparent, hname⟩ := hstep hl h
    rcases List.eq_nil_or_concat' l' with rfl | ⟨l', name', rfl⟩
    · obtain rfl := Option.some.inj h'
      rw [htop] at hparent
      cases hparent
    · obtain ⟨q', hq', hparent', hname'⟩ := hstep hl' h'
      obtain rfl : q = q' := Option.some.inj (hparent.symm.trans hparent')
      obtain rfl : name = name' := Option.some.inj (hname.symm.trans hname')
      rw [ih (fun x hx => hl x (List.mem_append_left _ hx))
        (fun x hx => hl' x (List.mem_append_left _ hx))
        hq hq']

/-! ## `+entryWithPath:` -/

theorem entryWithPath_eq (r : Registry) (path : Text) :
    r.entryWithPath (some path) =
      ((r.descend rootEntry (componentsOf path)).1,
        some (r.descend rootEntry (componentsOf path)).2) := by
  rw [componentsOf, descend_filter]
  rfl

theorem lookup_eq (r : Registry) (self : EntryRef) (path : Text) :
    r.lookup self (some path) = r.find self (componentsOf path) := by
  rw [componentsOf, find_filter]
  rfl

theorem componentsOf_ne (path : Text) : ∀ x ∈ componentsOf path, x ≠ [] := by
  intro x hx
  simpa using (List.mem_filter.1 hx).2

theorem parent_root_built (paths : List (Option Text)) : (built paths).parent rootEntry = none := by
  suffices h : ∀ r : Registry, r.Closed → r.parent rootEntry = none →
    (paths.foldl (fun r path => (r.entryWithPath path).1) r).parent rootEntry = none from
    h initial closed_initial rfl
  induction paths with
  | nil => exact fun r _ h => h
  | cons path paths ih =>
    intro r hr hroot
    have hgrown := grown_entryWithPath hr path
    refine ih _ ?_ ((hgrown.parent rootEntry hr.root).trans hroot)
    cases path with
    | none => exact hr
    | some path => exact (closed_descend _ hr hr.root).1

/-- What `+entryWithPath:` does for two paths. -/
structure FindsOrCreates (r : Registry) (p q : Text) : Prop where
  idempotent : (r.entryWithPath (some p)).1.entryWithPath (some p) = r.entryWithPath (some p)
  found : (r.entryWithPath (some p)).1.lookup rootEntry (some p) = (r.entryWithPath (some p)).2
  same : ((r.entryWithPath (some p)).1.entryWithPath (some q)).2 = (r.entryWithPath (some p)).2 ↔
    componentsOf p = componentsOf q
  /-- What was found is found by the same lookups. -/
  kept : ∀ self < r.count, ∀ path e, r.lookup self path = some e →
    (r.entryWithPath (some p)).1.lookup self path = some e
  /-- The new entries are those that the missing prefixes of the path lead to, in their order. -/
  created : (r.missing rootEntry (componentsOf p)).map
      ((r.entryWithPath (some p)).1.find rootEntry) =
    (List.range' r.count ((r.entryWithPath (some p)).1.count - r.count)).map some

/-- **Find or create**: for every registry that `+entryWithPath:` has built, and all paths. -/
theorem finds_or_creates (paths : List (Option Text)) (p q : Text) :
    (built paths).FindsOrCreates p q := by
  obtain ⟨⟨hr, hs, -⟩, -⟩ := built_spec paths
  have hroot := parent_root_built paths
  generalize built paths = r at hr hs hroot
  have hr₁ := (closed_descend (componentsOf p) hr hr.root).1
  have hs₁ := shape_descend (componentsOf p) hs hr hr.root
  have hroot₁ := (grown_descend (componentsOf p) hr hr.root).parent rootEntry hr.root
  have hfound := find_descend (componentsOf p) hr hs hr.root
  constructor
  · rw [entryWithPath_eq r, entryWithPath_eq, descend_of_find hfound]
  · rw [entryWithPath_eq r, lookup_eq]
    exact hfound
  · -- both are found behind the two calls, each by its own components
    rw [entryWithPath_eq r, entryWithPath_eq]
    have hroot₂ := (grown_descend (componentsOf q) hr₁ hr₁.root).parent rootEntry hr₁.root
    have hp := stillFinds_descend (componentsOf q) hr₁ hs₁ hr₁.root rootEntry hr₁.root _ _ hfound
    have hq := find_descend (componentsOf q) hr₁ hs₁ hr₁.root
    have hr₂ := (closed_descend (componentsOf q) hr₁ hr₁.root).1
    have hs₂ := shape_descend (componentsOf q) hs₁ hr₁ hr₁.root
    constructor
    · intro h
      rw [← Option.some.inj h] at hp
      exact find_injective hr₂ hs₂ hr₂.root (hroot₂.trans (hroot₁.trans hroot)) (componentsOf_ne p)
        (componentsOf_ne q) hp hq
    · intro h
      exact hq.symm.trans ((congrArg _ h.symm).trans hp)
  · intro self hself path e h
    rw [entryWithPath_eq]
    cases path with
    | none => exact h
    | some path => exact stillFinds_descend (componentsOf p) hr hs hr.root self hself _ e h
  · rw [entryWithPath_eq]
    exact missing_descend (componentsOf_ne p) hr hs hr.root

end Registry

end PocketDarwin.Kext
