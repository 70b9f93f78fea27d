/-
  Looking up nodes of a device tree by their paths (`DeviceTree::findNode`).

  A path is cut at its slashes, and the names that it has are followed from the root, to the
  first child of each name.

  * `Joined`: the paths that some names make, with slashes in front, behind and between.
  * `pathParts_eq`, `joined_pathParts`: the code finds these names, and a path is made of the
    names that it finds.
  * `findNode_spec`: the node of a path is found, and nothing for a path without one.
-/
import Mathlib.Data.List.Nodup
import PocketDarwin.DeviceBundle.DeviceTree

namespace PocketDarwin.DeviceBundle

/-- `children` -/
def Node.children : Node → List Node
  | .mk _ _ children => children

/-! ## The code -/

/-- The results of `std::getline(ss, part, '/')`, for what has been read of the next one.  At the
    end of the path there is none, if nothing has been read of it. -/
def getlines (part : Text) : Text → List Text
  | [] => if part = [] then [] else [part]
  | c :: s => if c = '/' then part :: getlines [] s else getlines (part ++ [c]) s

/-- `pathParts` -/
def pathParts (path : Text) : List Text := (getlines [] path).filter fun part => !part.isEmpty

/-- The loop over the parts.  A node is told by its place: which child to go to, from the root
    on. -/
def follow : Node → List Text → Option (List ℕ)
  | _, [] => some []
  | current, pathPart :: parts =>
    match current.children.findIdx? fun child => child.name == pathPart with
    | none => none
    | some i =>
      match current.children[i]? with
      | none => none
      | some child => (follow child parts).map (i :: ·)

/-- `findNode` -/
def DeviceTree.findNode (t : DeviceTree) (path : Text) : Option (List ℕ) :=
  if path = ['/'] ∨ path = [] then some [] else follow t.root (pathParts path)

/-! ## Paths -/

/-- A name that a path can have. -/
def Component (name : Text) : Prop := name ≠ [] ∧ '/' ∉ name

instance (name : Text) : Decidable (Component name) := inferInstanceAs (Decidable (_ ∧ _))

/-- The names, with slashes in front, behind and between. -/
inductive Joined : List Text → Text → Prop
  | nil : Joined [] []
  | slash {names path} : Joined names path → Joined names ('/' :: path)
  | name {name names path} : Component name → (∀ c ∈ path.head?, c = '/') → Joined names path →
    Joined (name :: names) (name ++ path)

theorem getlines_append {part name : Text} (hname : '/' ∉ name) (path : Text) :
    getlines part (name ++ path) = getlines (part ++ name) path := by
  induction name generalizing part with
  | nil => rw [List.nil_append, List.append_nil]
  | cons c name ih =>
    rw [List.mem_cons, not_or] at hname
    rw [List.cons_append, getlines, if_neg (Ne.symm hname.1), ih hname.2, List.append_assoc]
    rfl

/-- **Cutting a path** finds the names that it is made of. -/
theorem pathParts_eq {names : List Text} {path : Text} (h : Joined names path) :
    pathParts path = names := by
  induction h with
  | nil => rfl
  | slash _ ih =>
    rw [pathParts, getlines, if_pos rfl]
    exact ih
  | @name name names path hname hpath _ ih =>
    rw [pathParts, getlines_append hname.2, List.nil_append]
    rw [pathParts] at ih
    have hkeep : ∀ l : List Text, (name :: l).filter (fun part => !part.isEmpty) =
        name :: l.filter fun part => !part.isEmpty :=
      fun l => List.filter_cons_of_pos (by simpa using hname.1)
    cases path with
    | nil =>
      rw [getlines, if_neg hname.1, hkeep, ← ih]
      rfl
    | cons c path =>
      obtain rfl : c = '/' := hpath c rfl
      rw [getlines, if_pos rfl, hkeep]
      rw [getlines, if_pos rfl] at ih
      exact congrArg (name :: ·) ih

/-- Every path is made of names. -/
theorem exists_joined (path : Text) : ∃ names, Joined names path := by
  induction path with
  | nil => exact ⟨[], .nil⟩
  | cons c path ih =>
    obtain ⟨names, h⟩ := ih
    by_cases hc : c = '/'
    · exact ⟨names, hc ▸ h.slash⟩
    have hone : Component [c] := ⟨List.cons_ne_nil _ _, by simpa using Ne.symm hc⟩
    cases h with
    | nil => exact ⟨_, .name hone (by simp) .nil⟩
    | slash h => exact ⟨_, .name hone (by simp) h.slash⟩
    | @name name names path hname hpath h =>
      -- the first name gets longer
      have hlonger : Component (c :: name) := by
        refine ⟨List.cons_ne_nil _ _, ?_⟩
        rw [List.mem_cons, not_or]
        exact ⟨Ne.symm hc, hname.2⟩
      exact ⟨_, .name hlonger hpath h⟩

/-- A path is made of the names that the code finds. -/
theorem joined_pathParts (path : Text) : Joined (pathParts path) path := by
  obtain ⟨names, h⟩ := exists_joined path
  rwa [pathParts_eq h]

/-! ## Nodes -/

/-- The names on the way to a place: none, if there is no node. -/
def namesTo : Node → List ℕ → Option (List Text)
  | _, [] => some []
  | n, i :: place =>
    match n.children[i]? with
    | none => none
    | some child => (namesTo child place).map (child.name :: ·)

mutual

/-- The children of each node have different names, and names that a path can have. -/
def Node.Named : Node → Prop
  | .mk _ _ children => (children.map Node.name).Nodup ∧ Node.AllNamed children

def Node.AllNamed : List Node → Prop
  | [] => True
  | child :: children => Component child.name ∧ child.Named ∧ Node.AllNamed children

end

section
variable {n : Node} {place : List ℕ} {names : List Text}

theorem Node.Named.nodup (h : n.Named) : (n.children.map Node.name).Nodup := by
  cases n
  exact h.1

theorem Node.AllNamed.of_mem {children : List Node} {child : Node} (h : AllNamed children)
    (hc : child ∈ children) :
    Component child.name ∧ child.Named := by
  induction children with
  | nil => simp at hc
  | cons d children ih =>
    rcases List.mem_cons.1 hc with rfl | hc
    · exact ⟨h.1, h.2.1⟩
    · exact ih h.2.2 hc

theorem Node.Named.of_mem {child : Node} (h : n.Named) (hc : child ∈ n.children) :
    Component child.name ∧ child.Named := by
  cases n
  exact h.2.of_mem hc

/-- The first child of a name is the one that has it. -/
theorem findIdx?_name {children : List Node} {child : Node} {i : ℕ}
    (h : (children.map Node.name).Nodup)
    (hi : children[i]? = some child) : children.findIdx? (fun d => d.name == child.name) = some i := by
  obtain ⟨hlt, rfl⟩ := List.getElem?_eq_some_iff.1 hi
  rw [List.findIdx?_eq_some_iff_getElem]
  refine ⟨hlt, by simp, fun j hj heq => ?_⟩
  rw [beq_iff_eq] at heq
  have hlt' : j < (children.map Node.name).length := by
    rw [List.length_map]
    omega
  have hlt'' : i < (children.map Node.name).length := by rwa [List.length_map]
  have hij : j = i := (@List.Nodup.getElem_inj_iff _ _ h j hlt' i hlt'').1 (by simpa using heq)
  omega

/-- **Down the tree**, the names on the way to a node lead to it. -/
theorem follow_namesTo (h : n.Named) (hnames : namesTo n place = some names) :
    follow n names = some place := by
  induction place generalizing n names with
  | nil =>
    obtain rfl := Option.some.inj hnames
    rfl
  | cons i place ih =>
    rw [namesTo] at hnames
    cases hchild : n.children[i]? with
    | none => simp [hchild] at hnames
    | some child =>
      rw [hchild] at hnames
      obtain ⟨rest, hrest, rfl⟩ := Option.map_eq_some_iff.1 hnames
      have hnamed := (h.of_mem (List.mem_of_getElem? hchild)).2
      rw [follow, findIdx?_name h.nodup hchild]
      dsimp only
      rw [hchild]
      dsimp only
      rw [ih hnamed hrest]
      rfl

/-- Where the code gets to, the names were those on the way. -/
theorem namesTo_follow (h : follow n names = some place) : namesTo n place = some names := by
  induction names generalizing n place with
  | nil =>
    obtain rfl := Option.some.inj h
    rfl
  | cons name names ih =>
    rw [follow] at h
    cases hfind : n.children.findIdx? fun child => child.name == name with
    | none => simp [hfind] at h
    | some i =>
      rw [hfind] at h
      dsimp only at h
      cases hchild : n.children[i]? with
      | none => simp [hchild] at h
      | some child =>
        rw [hchild] at h
        obtain ⟨rest, hrest, rfl⟩ := Option.map_eq_some_iff.1 h
        obtain ⟨hlt, hname, -⟩ := List.findIdx?_eq_some_iff_getElem.1 hfind
        obtain ⟨_, heq⟩ := List.getElem?_eq_some_iff.1 hchild
        rw [heq, beq_iff_eq] at hname
        rw [namesTo, hchild]
        dsimp only
        rw [ih hrest, hname]
        rfl

/-- The names on the way to a node can be joined to a path. -/
theorem component_of_namesTo (h : n.Named) (hnames : namesTo n place = some names) :
    ∀ name ∈ names, Component name := by
  induction place generalizing n names with
  | nil =>
    obtain rfl := Option.some.inj hnames
    simp
  | cons i place ih =>
    rw [namesTo] at hnames
    cases hchild : n.children[i]? with
    | none => simp [hchild] at hnames
    | some child =>
      rw [hchild] at hnames
      obtain ⟨rest, hrest, rfl⟩ := Option.map_eq_some_iff.1 hnames
      obtain ⟨hname, hnamed⟩ := h.of_mem (List.mem_of_getElem? hchild)
      intro name hin
      rcases List.mem_cons.1 hin with rfl | hin
      · exact hname
      · exact ih hnamed hrest name hin

/-- With one slash in front of each. -/
theorem joined_flatMap (h : ∀ name ∈ names, Component name) :
    Joined names (names.flatMap ('/' :: ·)) := by
  induction names with
  | nil => exact .nil
  | cons name names ih =>
    rw [List.flatMap_cons, List.cons_append]
    refine .slash (.name (h name List.mem_cons_self) ?_
      (ih fun d hd => h d (List.mem_cons_of_mem name hd)))
    cases names <;> simp

end

/-- The shortcut for the root is no exception. -/
theorem findNode_eq (t : DeviceTree) (path : Text) :
    t.findNode path = follow t.root (pathParts path) := by
  rw [DeviceTree.findNode]
  split_ifs with hroot
  · rcases hroot with rfl | rfl <;> rfl
  · rfl

/-- **`findNode`.**  The names on the way to a node make a path; the node is found under each one
    that they make, and nothing is found under a path whose names lead nowhere. -/
theorem findNode_spec (t : DeviceTree) (h : t.root.Named) :
    (∀ place names, namesTo t.root place = some names → Joined names (names.flatMap ('/' :: ·)) ∧
        ∀ path, Joined names path → t.findNode path = some place) ∧
      ∀ path names, Joined names path → (∀ place, namesTo t.root place ≠ some names) →
      t.findNode path = none := by
  refine ⟨fun place names hnames => ⟨joined_flatMap (component_of_namesTo h hnames),
    fun path hpath => ?_⟩,
    fun path names hpath hnone => ?_⟩
  · rw [findNode_eq, pathParts_eq hpath]
    exact follow_namesTo h hnames
  · rw [findNode_eq, pathParts_eq hpath]
    cases hfollow : follow t.root names with
    | none => rfl
    | some place => exact absurd (namesTo_follow hfollow) (hnone place)

/-- A tree with a node `cpus`, and a node `cpu0` in it. -/
def twoNodes : DeviceTree :=
  ⟨.mk ['/'] .empty [.mk "cpus".toList .empty [.mk "cpu0".toList .empty []]], rfl⟩

/-- The node of the processor, with more slashes than needed. -/
theorem findNode_cpu0 : twoNodes.findNode "//cpus///cpu0/".toList = some [0, 0] := by
  have hnamed : twoNodes.root.Named := by
    refine ⟨by
      decide, by decide, ⟨by decide, by decide, ⟨List.nodup_nil, trivial⟩, trivial⟩, trivial⟩
  exact ((findNode_spec twoNodes hnamed).1 [0, 0] _ rfl).2 _
    (joined_pathParts "//cpus///cpu0/".toList)

end PocketDarwin.DeviceBundle
