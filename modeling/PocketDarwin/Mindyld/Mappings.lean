/-
  The mappings of the loaded objects.

  A load that succeeds takes a mapping and gives it to a handle, and an unload gives it
  back.  The length of the mapping does not get into the handle, though: its `size`
  is left to be calculated, and `mindyld_unload` unmaps nothing.  Besides, an error of
  `mmap` is not told from a mapping, so that zeros are written where there is none, a
  mapping at `NULL` is not told from an error, and a mapping is lost if there is no
  memory for its handle.

  * `loadPath_cases`: what a load can do, each case with its condition.
  * `Session.always_balanced_iff`: the mappings are those of the loaded handles throughout a
    run exactly when all its calls are `Call.Balances`.
-/
import PocketDarwin.Mindyld.Objects

namespace PocketDarwin.Mindyld

variable {w : ℕ}

/-! ## The loaders -/

/-- All segments can be read and protected. -/
def Answers.GrantsAll (target : Format) (sys : Answers w) : Prop := ∀ p ∈ (segmentsOf target sys).zipIdx, sys.Grants p

instance (target : Format) (sys : Answers w) : Decidable (sys.GrantsAll target) :=
  inferInstanceAs (Decidable (∀ p ∈ _, _))

/-- **What a load does** before its object is registered, and when. -/
inductive Loads (target : Format) (path : Option String) (sys : Answers w) (s : Linker w) :
    Option (Linker w × Option Handle) → Prop
  | unmapped (h : ¬ (path.isSome ∧ reachesMmap target sys)) : Loads target path sys s (some (s, none))
  | null (hr : path.isSome ∧ reachesMmap target sys) (h : sys.mmap = 0) :
      Loads target path sys s
        (some ({ s with maps := mmap sys.mmap (totalSize w (segmentsOf target sys)) s.maps }, none))
  | fault (hr : path.isSome ∧ reachesMmap target sys) (h : sys.mmap ≠ 0) (hs : ¬ sys.StaysAll target) :
      Loads target path sys s none
  | given (hr : path.isSome ∧ reachesMmap target sys) (h : sys.mmap ≠ 0) (hs : sys.StaysAll target)
      (hg : ¬ sys.GrantsAll target) :
      Loads target path sys s
        (some ({ s with
            maps := munmap sys.mmap (totalSize w (segmentsOf target sys))
              (mmap sys.mmap (totalSize w (segmentsOf target sys)) s.maps) }, none))
  | lost (hr : path.isSome ∧ reachesMmap target sys) (h : sys.mmap ≠ 0) (hs : sys.StaysAll target)
      (hg : sys.GrantsAll target) (hh : sys.handle = none) :
      Loads target path sys s
        (some ({ s with maps := mmap sys.mmap (totalSize w (segmentsOf target sys)) s.maps }, none))
  | loaded (hr : path.isSome ∧ reachesMmap target sys) (h : sys.mmap ≠ 0) (hs : sys.StaysAll target)
      (hg : sys.GrantsAll target) (a : Handle) (hh : sys.handle = some a) :
      Loads target path sys s
        (some (Linker.alloc { s with maps := mmap sys.mmap (totalSize w (segmentsOf target sys)) s.maps } a
          ⟨sys.mmap, 0, isExecutable target sys, none⟩, some a))

theorem loadPath_cases (target : Format) (path : Option String) (sys : Answers w) (s : Linker w) :
    Loads target path sys s (loadPath target path sys s) := by
  by_cases hr : path.isSome ∧ reachesMmap target sys
  · rw [loadPath, if_pos hr.1, loadFile_eq, if_pos hr.2, mapSegments]
    by_cases h : sys.mmap = 0
    · simp only [h, if_true, createHandle, Option.map_some]
      have := Loads.null hr h (s := s)
      rwa [h] at this
    by_cases hs : sys.StaysAll target
    swap
    · have hs' : ¬ sys.StaysIn (totalSize w (segmentsOf target sys)) (addresses (segmentsOf target sys)).1
        (segmentsOf target sys).zipIdx := hs
      simp only [if_neg h, loadSegments_eq, if_neg hs', Option.map_none]
      exact .fault hr h hs
    have hs' : sys.StaysIn (totalSize w (segmentsOf target sys)) (addresses (segmentsOf target sys)).1
      (segmentsOf target sys).zipIdx := hs
    by_cases hg : sys.GrantsAll target
    · have hg' : ∀ p ∈ (segmentsOf target sys).zipIdx, sys.Grants p := hg
      simp only [if_neg h, loadSegments_eq, if_pos hs', if_pos hg', createHandle, Option.map_some]
      cases hh : sys.handle with
      | none => exact .lost hr h hs hg hh
      | some a => exact .loaded hr h hs hg a hh
    · have hg' : ¬ ∀ p ∈ (segmentsOf target sys).zipIdx, sys.Grants p := hg
      simp only [if_neg h, loadSegments_eq, if_pos hs', if_neg hg', createHandle, if_true, Option.map_some]
      exact .given hr h hs hg
  · have heq : loadPath target path sys s = some (s, none) := by
      unfold loadPath
      split_ifs with hp
      · rw [loadFile_eq, if_neg (fun h => hr ⟨hp, h⟩)]
      · rfl
    rw [heq]
    exact .unmapped hr

theorem mmap_mapFailed (n : BitVec w) (maps : List (Mapping w)) : mmap (mapFailed w) n maps = maps := if_pos rfl

theorem mmap_of_ne {base : BitVec w} (h : base ≠ mapFailed w) (n : BitVec w) (maps : List (Mapping w)) :
    mmap base n maps = (base, n) :: maps := if_neg h

/-- A mapping that is given back at once was never there. -/
theorem munmap_mmap {base n : BitVec w} {maps : List (Mapping w)} (h : (base, n) ∉ maps) :
    munmap base n (mmap base n maps) = maps := by
  have hself : munmap base n maps = maps := by
    refine List.filter_eq_self.2 fun m hm => ?_
    rw [decide_eq_true_iff]
    rintro rfl
    exact h hm
  unfold mmap
  split_ifs
  · exact hself
  · rw [munmap, List.filter_cons_of_neg (by simp)]
    exact hself

/-- A mapping that was not there is there only if `mmap` failed to make it. -/
theorem mem_mmap_iff {b n : BitVec w} {maps : List (Mapping w)} (h : ∀ m ∈ maps, m.1 ≠ b) :
    (∀ m, m ∈ mmap b n maps ↔ m ∈ maps) ↔ b = mapFailed w := by
  constructor
  · intro h'
    by_contra hb
    have hmem : (b, n) ∈ mmap b n maps := by
      rw [mmap_of_ne hb]
      exact List.mem_cons_self
    exact h (b, n) ((h' _).1 hmem) rfl
  · rintro rfl m
    rw [mmap_mapFailed]

theorem mem_mmap_or_iff {b n : BitVec w} {maps : List (Mapping w)} (h : ∀ m ∈ maps, m.1 ≠ b) :
    (∀ m, m ∈ mmap b n maps ↔ m ∈ maps ∨ m = (b, n)) ↔ b ≠ mapFailed w := by
  constructor
  · rintro h' rfl
    rw [mmap_mapFailed] at h'
    exact h _ ((h' _).2 (Or.inr rfl)) rfl
  · intro hb m
    rw [mmap_of_ne hb, List.mem_cons, or_comm]

theorem mapFailed_ne_zero (hw : 0 < w) : mapFailed w ≠ 0 := by
  intro h
  have hnat := congrArg BitVec.toNat h
  rw [mapFailed, BitVec.toNat_allOnes] at hnat
  have := Nat.one_lt_two_pow hw.ne'
  simp at hnat
  omega

/-! ## Balance -/

/-- The condition: nothing is unloaded, and a load that gets to `mmap`
    * gets no mapping at `NULL`, and has no access outside of its mapping,
    * goes on to fail if `mmap` failed,
    * gets a handle if its segments can all be loaded, if `mmap` succeeded. -/
def Call.Balances (target : Format) : Call w → Prop
  | .load path sys =>
    path.isSome ∧ reachesMmap target sys →
      sys.mmap ≠ 0 ∧ sys.StaysAll target ∧
        if sys.mmap = mapFailed w then ¬ (sys.GrantsAll target ∧ sys.handle.isSome)
        else sys.GrantsAll target → sys.handle.isSome
  | .unload handlePtr => handlePtr = none

instance (target : Format) (c : Call w) : Decidable (c.Balances target) :=
  match c with
  | .load path sys =>
    inferInstanceAs (Decidable (path.isSome ∧ reachesMmap target sys →
      sys.mmap ≠ 0 ∧ sys.StaysAll target ∧
        if sys.mmap = mapFailed w then ¬ (sys.GrantsAll target ∧ sys.handle.isSome)
        else sys.GrantsAll target → sys.handle.isSome))
  | .unload handlePtr => inferInstanceAs (Decidable (handlePtr = none))

namespace Call
variable {target : Format} {path : Option String} {sys : Answers w}

/-- The condition in each of the cases of a load that gets to `mmap`. -/
theorem balances_iff (hr : path.isSome ∧ reachesMmap target sys) (hb : sys.mmap ≠ 0) (hs : sys.StaysAll target) :
    Balances target (.load path sys) ↔
      if sys.mmap = mapFailed w then ¬ (sys.GrantsAll target ∧ sys.handle.isSome)
      else sys.GrantsAll target → sys.handle.isSome :=
  ⟨fun h => (h hr).2.2, fun h _ => ⟨hb, hs, h⟩⟩

theorem balances_null (hw : 0 < w) (hr : path.isSome ∧ reachesMmap target sys) (hb : sys.mmap = 0) :
    Balances target (.load path sys) ↔ sys.mmap = mapFailed w :=
  iff_of_false (fun h => (h hr).1 hb) fun h => mapFailed_ne_zero hw (h.symm.trans hb)

theorem not_balances_fault (hr : path.isSome ∧ reachesMmap target sys) (hs : ¬ sys.StaysAll target) :
    ¬ Balances target (.load path sys) := fun h => hs (h hr).2.1

theorem balances_given (hb : sys.mmap ≠ 0) (hs : sys.StaysAll target) (hg : ¬ sys.GrantsAll target) :
    Balances target (.load path sys) := by
  intro _
  refine ⟨hb, hs, ?_⟩
  split_ifs
  · exact fun h => hg h.1
  · exact fun h => absurd h hg

theorem balances_lost (hr : path.isSome ∧ reachesMmap target sys) (hb : sys.mmap ≠ 0) (hs : sys.StaysAll target)
    (hg : sys.GrantsAll target) (hh : sys.handle = none) :
    Balances target (.load path sys) ↔ sys.mmap = mapFailed w := by
  rw [balances_iff hr hb hs, hh]
  split_ifs with h
  · exact iff_of_true (fun hall => Bool.false_ne_true hall.2) h
  · exact iff_of_false (fun hall => Bool.false_ne_true (hall hg)) h

theorem balances_loaded (hr : path.isSome ∧ reachesMmap target sys) (hb : sys.mmap ≠ 0) (hs : sys.StaysAll target)
    (hg : sys.GrantsAll target) {a : Handle} (hh : sys.handle = some a) :
    Balances target (.load path sys) ↔ sys.mmap ≠ mapFailed w := by
  rw [balances_iff hr hb hs, hh]
  split_ifs with h
  · exact iff_of_false (fun hall => hall ⟨hg, rfl⟩) (not_not_intro h)
  · exact iff_of_true (fun _ => rfl) h

end Call

namespace Session
variable {t : Session w} {target : Format}

def base (t : Session w) (h : Handle) : BitVec w := (t.linker.heap h).baseAddress

/-- **The mappings are those of the loaded handles**, each with the length it was mapped with. -/
def Balanced (t : Session w) : Prop := ∀ m, m ∈ t.linker.maps ↔ ∃ p ∈ t.loaded, m = (t.base p.1, p.2)

/-- `mmap` returns an error or a range that is apart from all mappings. -/
def MapsFresh (target : Format) (t : Session w) : Call w → Prop
  | .load path sys =>
    path.isSome ∧ reachesMmap target sys → sys.mmap ≠ mapFailed w →
      0 < (totalSize w (segmentsOf target sys)).toNat ∧
      ∀ m ∈ t.linker.maps,
        Span.Disjoint ⟨sys.mmap, (totalSize w (segmentsOf target sys)).toNat⟩ ⟨m.1, m.2.toNat⟩
  | .unload _ => True

instance (t : Session w) (c : Call w) : Decidable (t.MapsFresh target c) :=
  match c with
  | .load path sys =>
    -- by the list, not over all mappings there could be
    have : Decidable (∀ m ∈ t.linker.maps,
        Span.Disjoint ⟨sys.mmap, (totalSize w (segmentsOf target sys)).toNat⟩ ⟨m.1, m.2.toNat⟩) :=
      List.decidableBAll _ _
    inferInstanceAs (Decidable (path.isSome ∧ reachesMmap target sys → sys.mmap ≠ mapFailed w →
      0 < (totalSize w (segmentsOf target sys)).toNat ∧
      ∀ m ∈ t.linker.maps,
        Span.Disjoint ⟨sys.mmap, (totalSize w (segmentsOf target sys)).toNat⟩ ⟨m.1, m.2.toNat⟩))
  | .unload _ => inferInstanceAs (Decidable True)

/-- What holds in every run, whatever is leaked. -/
structure Mapped (t : Session w) : Prop where
  listed : t.Listed
  size : ∀ h ∈ t.handles, (t.linker.heap h).size = 0
  base_ne_zero : ∀ h ∈ t.handles, t.base h ≠ 0
  pos : ∀ m ∈ t.linker.maps, 0 < m.2.toNat
  ne_failed : ∀ m ∈ t.linker.maps, m.1 ≠ mapFailed w
  mapped : ∀ p ∈ t.loaded, t.base p.1 ≠ mapFailed w → (t.base p.1, p.2) ∈ t.linker.maps
  distinct : ∀ p ∈ t.loaded, ∀ q ∈ t.loaded, t.base p.1 ≠ mapFailed w → t.base p.1 = t.base q.1 → p = q

theorem mem_handles {p : Handle × BitVec w} (h : p ∈ t.loaded) : p.1 ∈ t.handles := List.mem_map_of_mem h

/-- Fewer handles and more mappings. -/
theorem Mapped.mono {t' : Session w} (h : t.Mapped) (hl : t'.Listed) (hloaded : t'.loaded ⊆ t.loaded)
    (hbase : ∀ a, t'.base a = t.base a) (hsize : ∀ a, (t'.linker.heap a).size = (t.linker.heap a).size)
    (hsub : t.linker.maps ⊆ t'.linker.maps)
    (hmaps : ∀ m ∈ t'.linker.maps, 0 < m.2.toNat ∧ m.1 ≠ mapFailed w) : t'.Mapped := by
  have hhandles : t'.handles ⊆ t.handles := List.map_subset Prod.fst hloaded
  refine ⟨hl, ?_, ?_, fun m hm => (hmaps m hm).1, fun m hm => (hmaps m hm).2, ?_, ?_⟩
  · intro a ha
    rw [hsize]
    exact h.size a (hhandles ha)
  · intro a ha
    rw [hbase]
    exact h.base_ne_zero a (hhandles ha)
  · intro p hp hne
    rw [hbase] at hne ⊢
    exact hsub (h.mapped p (hloaded hp) hne)
  · intro p hp q hq
    rw [hbase, hbase]
    exact h.distinct p (hloaded hp) q (hloaded hq)

/-- A fresh range starts where no mapping starts. -/
theorem Mapped.fresh (h : t.Mapped) {b n : BitVec w} (hn : 0 < n.toNat)
    (hd : ∀ m ∈ t.linker.maps, Span.Disjoint ⟨b, n.toNat⟩ ⟨m.1, m.2.toNat⟩) : ∀ m ∈ t.linker.maps, m.1 ≠ b := by
  rintro m hm rfl
  refine hd m hm m.1 ?_ ?_
  · rw [Span.mem_def, sub_self]
    exact hn
  · rw [Span.mem_def, sub_self]
    exact h.pos m hm

/-- The mapping of a call that reaches `mmap` is not there yet. -/
theorem Mapped.notMem (h : t.Mapped) {path : Option String} {sys : Answers w}
    (hr : path.isSome ∧ reachesMmap target sys) (hf : t.MapsFresh target (.load path sys)) :
    ∀ m ∈ t.linker.maps, m.1 ≠ sys.mmap := by
  by_cases hb : sys.mmap = mapFailed w
  · rw [hb]
    exact h.ne_failed
  · exact h.fresh (hf hr hb).1 (hf hr hb).2

/-! ## One call -/

section
variable {path : Option String} {sys : Answers w} {s : Linker w} {maps : List (Mapping w)} {b n : BitVec w} {a : Handle}

theorem Mapped.mmap (h : t.Mapped) (hr : path.isSome ∧ reachesMmap target sys)
    (hf : t.MapsFresh target (.load path sys)) :
    ∀ m ∈ Mindyld.mmap sys.mmap (totalSize w (segmentsOf target sys)) t.linker.maps,
      0 < m.2.toNat ∧ m.1 ≠ mapFailed w := by
  intro m hm
  by_cases hb : sys.mmap = mapFailed w
  · rw [hb, mmap_mapFailed] at hm
    exact ⟨h.pos m hm, h.ne_failed m hm⟩
  · rw [mmap_of_ne hb] at hm
    rcases List.mem_cons.1 hm with rfl | hm
    · exact ⟨(hf hr hb).1, hb⟩
    · exact ⟨h.pos m hm, h.ne_failed m hm⟩

theorem subset_mmap (b n : BitVec w) (maps : List (Mapping w)) : maps ⊆ Mindyld.mmap b n maps := by
  unfold Mindyld.mmap
  split_ifs
  · exact List.Subset.refl maps
  · exact List.subset_cons_self _ maps

theorem base_afterLoad_none (hrel : Linker.Relinked { t.linker with maps := maps } s) (n : BitVec w) (h : Handle) :
    (t.afterLoad n s none).base h = t.base h := hrel.baseAddress h

/-- A load without a handle that gives back no mapping of a handle. -/
theorem Mapped.afterLoad_none (h : t.Mapped) (hl : (t.afterLoad n s none).Listed)
    (hrel : Linker.Relinked { t.linker with maps := maps } s) (hsub : t.linker.maps ⊆ maps)
    (hmaps : ∀ m ∈ maps, 0 < m.2.toNat ∧ m.1 ≠ mapFailed w) : (t.afterLoad n s none).Mapped := by
  have hloaded : (t.afterLoad n s none).loaded = t.loaded := List.append_nil _
  have hm : (t.afterLoad n s none).linker.maps = maps := hrel.maps
  refine h.mono hl (hloaded ▸ List.Subset.refl _) hrel.baseAddress hrel.size ?_ ?_
  · rw [hm]
    exact hsub
  · rw [hm]
    exact hmaps

theorem balanced_afterLoad_none (h : t.Balanced) (hrel : Linker.Relinked { t.linker with maps := maps } s) :
    (t.afterLoad n s none).Balanced ↔ ∀ m, m ∈ maps ↔ m ∈ t.linker.maps := by
  have hloaded : (t.afterLoad n s none).loaded = t.loaded := List.append_nil _
  have hm : (t.afterLoad n s none).linker.maps = maps := hrel.maps
  unfold Balanced
  rw [hloaded, hm]
  simp only [base_afterLoad_none hrel]
  constructor
  · intro h' m
    rw [h' m, h m]
  · intro h' m
    rw [h' m, h m]

section
variable {e : Bool} (hrel : Linker.Relinked (Linker.alloc { t.linker with maps := maps } a ⟨b, 0, e, none⟩) s)
include hrel

theorem base_afterLoad_self (n : BitVec w) : (t.afterLoad n s (some a)).base a = b := by
  refine (hrel.baseAddress a).trans ?_
  simp [Linker.alloc]

theorem base_afterLoad_of_ne {h : Handle} (hne : h ≠ a) (n : BitVec w) :
    (t.afterLoad n s (some a)).base h = t.base h := by
  refine (hrel.baseAddress h).trans ?_
  simp [Linker.alloc, hne, base]

theorem base_afterLoad_of_mem (ha : a ∉ t.handles) {p : Handle × BitVec w} (hp : p ∈ t.loaded) (n : BitVec w) :
    (t.afterLoad n s (some a)).base p.1 = t.base p.1 :=
  base_afterLoad_of_ne hrel (ne_of_mem_of_not_mem (mem_handles hp) ha) n

/-- A load with a handle. -/
theorem Mapped.afterLoad_some (h : t.Mapped) (hl : (t.afterLoad n s (some a)).Listed) (ha : a ∉ t.handles)
    (hb : b ≠ 0) (hfresh : ∀ m ∈ t.linker.maps, m.1 ≠ b) (hmap : b ≠ mapFailed w → (b, n) ∈ maps)
    (hsub : t.linker.maps ⊆ maps) (hmaps : ∀ m ∈ maps, 0 < m.2.toNat ∧ m.1 ≠ mapFailed w) :
    (t.afterLoad n s (some a)).Mapped := by
  have hhandles : (t.afterLoad n s (some a)).handles = t.handles ++ [a] := handles_afterLoad ..
  have hself := base_afterLoad_self hrel n
  have hm : (t.afterLoad n s (some a)).linker.maps = maps := hrel.maps
  have hold : ∀ p ∈ t.loaded, t.base p.1 ≠ mapFailed w → t.base p.1 ≠ b :=
    fun p hp hne => hfresh _ (h.mapped p hp hne)
  refine ⟨hl, ?_, ?_, ?_, ?_, ?_, ?_⟩
  · intro c hc
    rw [hhandles] at hc
    refine (hrel.size c).trans ?_
    by_cases hca : c = a
    · subst hca
      simp [Linker.alloc]
    · rcases List.mem_append.1 hc with hc | hc
      · simpa [Linker.alloc, hca] using h.size c hc
      · exact absurd (List.mem_singleton.1 hc) hca
  · intro c hc
    rw [hhandles] at hc
    rcases List.mem_append.1 hc with hc | hc
    · rw [base_afterLoad_of_ne hrel (ne_of_mem_of_not_mem hc ha)]
      exact h.base_ne_zero c hc
    · obtain rfl := List.mem_singleton.1 hc
      rw [hself]
      exact hb
  · rw [hm]
    exact fun m hm => (hmaps m hm).1
  · rw [hm]
    exact fun m hm => (hmaps m hm).2
  · rw [hm]
    intro p hp hne
    rcases List.mem_append.1 hp with hp | hp
    · rw [base_afterLoad_of_mem hrel ha hp] at hne ⊢
      exact hsub (h.mapped p hp hne)
    · obtain rfl := List.mem_singleton.1 hp
      rw [hself] at hne ⊢
      exact hmap hne
  · intro p hp q hq hne heq
    rcases List.mem_append.1 hp with hp | hp <;> rcases List.mem_append.1 hq with hq | hq
    · rw [base_afterLoad_of_mem hrel ha hp] at hne heq
      rw [base_afterLoad_of_mem hrel ha hq] at heq
      exact h.distinct p hp q hq hne heq
    · obtain rfl := List.mem_singleton.1 hq
      rw [base_afterLoad_of_mem hrel ha hp] at hne heq
      exact absurd (heq.trans hself) (hold p hp hne)
    · obtain rfl := List.mem_singleton.1 hp
      rw [base_afterLoad_of_mem hrel ha hq] at heq
      exact absurd (heq.symm.trans hself) (hold q hq (heq ▸ hne))
    · exact (List.mem_singleton.1 hp).trans (List.mem_singleton.1 hq).symm

theorem balanced_afterLoad_some (h : t.Balanced) (ha : a ∉ t.handles) :
    (t.afterLoad n s (some a)).Balanced ↔ ∀ m, m ∈ maps ↔ m ∈ t.linker.maps ∨ m = (b, n) := by
  have hm : (t.afterLoad n s (some a)).linker.maps = maps := hrel.maps
  have hloaded : ∀ m, (∃ p ∈ (t.afterLoad n s (some a)).loaded,
      m = ((t.afterLoad n s (some a)).base p.1, p.2)) ↔
      m ∈ t.linker.maps ∨ m = (b, n) := by
    intro m
    rw [h m]
    constructor
    · rintro ⟨p, hp, rfl⟩
      rcases List.mem_append.1 hp with hp | hp
      · refine Or.inl ⟨p, hp, ?_⟩
        rw [base_afterLoad_of_mem hrel ha hp]
      · obtain rfl := List.mem_singleton.1 hp
        exact Or.inr (by rw [base_afterLoad_self hrel])
    · rintro (⟨p, hp, rfl⟩ | rfl)
      · refine ⟨p, List.mem_append_left _ hp, ?_⟩
        rw [base_afterLoad_of_mem hrel ha hp]
      · refine ⟨(a, n), List.mem_append_right _ List.mem_cons_self, ?_⟩
        rw [base_afterLoad_self hrel]
  unfold Balanced
  rw [hm]
  exact forall_congr' fun m => by rw [hloaded m]

end

/-- The size of a handle is not known, so nothing is unmapped. -/
theorem Mapped.unmapObject (h : t.Mapped) (ha : a ∈ t.handles) : unmapObject a t.linker = t.linker := by
  refine if_neg fun hsize => ?_
  rw [h.size a ha] at hsize
  exact absurd hsize.2 (by simp)

theorem mem_afterUnload {p : Handle × BitVec w} :
    p ∈ (t.afterUnload (some a) s).loaded ↔ p ∈ t.loaded ∧ p.1 ≠ a := by
  simp [afterUnload]

theorem Mapped.afterUnload (h : t.Mapped) (hl : (t.afterUnload (some a) (s.free a)).Listed)
    (hrel : t.linker.Relinked s) : (t.afterUnload (some a) (s.free a)).Mapped := by
  have hm : (t.afterUnload (some a) (s.free a)).linker.maps = t.linker.maps := hrel.maps
  refine h.mono hl (fun p hp => (mem_afterUnload.1 hp).1) hrel.baseAddress hrel.size ?_ ?_
  · rw [hm]
    exact List.Subset.refl _
  · rw [hm]
    exact fun m hm => ⟨h.pos m hm, h.ne_failed m hm⟩

/-- **The mapping of a handle that is unloaded stays.** -/
theorem not_balanced_afterUnload (h : t.Mapped) (hbal : t.Balanced) (ha : a ∈ t.handles)
    (hrel : t.linker.Relinked s) : ¬ (t.afterUnload (some a) (s.free a)).Balanced := by
  have hbase : ∀ c, (t.afterUnload (some a) (s.free a)).base c = t.base c := hrel.baseAddress
  have hm : (t.afterUnload (some a) (s.free a)).linker.maps = t.linker.maps := hrel.maps
  intro hbal'
  obtain ⟨p, hp, rfl⟩ := List.mem_map.1 ha
  have hmem : (t.base p.1, p.2) ∈ t.linker.maps := (hbal _).2 ⟨p, hp, rfl⟩
  obtain ⟨q, hq, heq⟩ := (hbal' _).1 (hm ▸ hmem)
  rw [mem_afterUnload] at hq
  rw [hbase] at heq
  have hpq := h.distinct p hp q hq.1 (h.ne_failed _ hmem) (congrArg Prod.fst heq)
  exact hq.2 (congrArg Prod.fst hpq.symm)

/-- What a load does to the balance, case by case. -/
theorem step_load_balanced (hw : 0 < w) (h : t.Mapped) (hc : t.Admits (.load path sys))
    (hf : t.MapsFresh target (.load path sys)) :
    (¬ Call.Balances target (.load path sys) ∧ step target (.ok t) (.load path sys) = .error .fault) ∨
    ∃ t', step target (.ok t) (.load path sys) = .ok t' ∧ t'.Mapped ∧
      (t.Balanced → (t'.Balanced ↔ Call.Balances target (.load path sys))) := by
  have hcases := loadPath_cases target path sys t.linker
  have hload : ∀ r, loadPath target path sys t.linker = some r → ∃ s,
      step target (.ok t) (.load path sys) =
        .ok (t.afterLoad (totalSize w (segmentsOf target sys)) s r.2) ∧
      r.1.Relinked s ∧ (t.afterLoad (totalSize w (segmentsOf target sys)) s r.2).Listed :=
    fun r hr => step_load h.listed hc hr
  have hfault : loadPath target path sys t.linker = none →
      step target (.ok t) (.load path sys) = .error .fault := step_load_fault
  generalize loadPath target path sys t.linker = r at hcases hload hfault
  cases hcases with
  | fault hr hb hs => exact .inl ⟨Call.not_balances_fault hr hs, hfault rfl⟩
  | unmapped hr =>
    obtain ⟨s, heq, hrel, hl⟩ := hload _ rfl
    refine .inr ⟨_, heq, h.afterLoad_none hl hrel (List.Subset.refl _) fun m hm =>
      ⟨h.pos m hm, h.ne_failed m hm⟩, fun hbal => ?_⟩
    rw [balanced_afterLoad_none hbal hrel]
    exact iff_of_true (fun _ => Iff.rfl) fun hr' => absurd hr' hr
  | null hr hb =>
    obtain ⟨s, heq, hrel, hl⟩ := hload _ rfl
    refine .inr ⟨_, heq, h.afterLoad_none hl hrel (subset_mmap ..) (h.mmap hr hf), fun hbal => ?_⟩
    rw [balanced_afterLoad_none hbal hrel, mem_mmap_iff (h.notMem hr hf), Call.balances_null hw hr hb]
  | given hr hb hs hg =>
    obtain ⟨s, heq, hrel, hl⟩ := hload _ rfl
    have hmaps := munmap_mmap fun hmem => h.notMem hr hf (_, totalSize w (segmentsOf target sys))
      hmem rfl
    rw [hmaps] at hrel
    refine .inr ⟨_, heq, h.afterLoad_none hl hrel (List.Subset.refl _) fun m hm =>
      ⟨h.pos m hm, h.ne_failed m hm⟩, fun hbal => ?_⟩
    rw [balanced_afterLoad_none hbal hrel]
    exact iff_of_true (fun _ => Iff.rfl) (Call.balances_given hb hs hg)
  | lost hr hb hs hg hh =>
    obtain ⟨s, heq, hrel, hl⟩ := hload _ rfl
    refine .inr ⟨_, heq, h.afterLoad_none hl hrel (subset_mmap ..) (h.mmap hr hf), fun hbal => ?_⟩
    rw [balanced_afterLoad_none hbal hrel, mem_mmap_iff (h.notMem hr hf), Call.balances_lost hr hb hs hg hh]
  | loaded hr hb hs hg a hh =>
    obtain ⟨s, heq, hrel, hl⟩ := hload _ rfl
    have ha : a ∉ t.handles := fun hmem => hc a hh (h.listed.live a hmem)
    refine .inr ⟨_, heq, h.afterLoad_some hrel hl ha hb (h.notMem hr hf) ?_ (subset_mmap ..) (h.mmap hr hf),
      fun hbal => ?_⟩
    · intro hne
      rw [mmap_of_ne hne]
      exact List.mem_cons_self
    · rw [balanced_afterLoad_some hrel hbal ha, mem_mmap_or_iff (h.notMem hr hf),
        Call.balances_loaded hr hb hs hg hh]

/-- **One call**: it keeps the balance exactly under its condition. -/
theorem step_balanced {c : Call w} (hw : 0 < w) (h : t.Mapped) (hc : t.Admits c) (hf : t.MapsFresh target c) :
    (¬ c.Balances target ∧ step target (.ok t) c = .error .fault) ∨
    ∃ t', step target (.ok t) c = .ok t' ∧ t'.Mapped ∧ (t.Balanced → (t'.Balanced ↔ c.Balances target)) := by
  cases c with
  | load path sys => exact step_load_balanced hw h hc hf
  | unload handlePtr =>
    refine .inr ?_
    cases handlePtr with
    | none => exact ⟨t, step_unload_none target t, h, fun hbal => iff_of_true hbal rfl⟩
    | some a =>
      have ha : a ∈ t.handles := hc a rfl
      obtain ⟨s, heq, hrel, hl⟩ := step_unload target h.listed ha
      rw [h.unmapObject ha] at hrel
      refine ⟨_, heq, h.afterUnload hl hrel, fun hbal => ?_⟩
      exact iff_of_false (not_balanced_afterUnload h hbal ha hrel) (by rintro ⟨⟩)

end

/-! ## Runs -/

theorem start_mapped (s : Linker w) : (start s).Mapped := by
  refine ⟨start_listed s, ?_, ?_, ?_, ?_, ?_, ?_⟩ <;> simp [start, mindyldInit, handles]

theorem start_balanced (s : Linker w) : (start s).Balanced := by
  intro m
  simp [start, mindyldInit]

/-- **The balance of mappings**, in a process in which `malloc` and `mmap` return nothing that is in use and
    only handles that are loaded are unloaded: it is kept throughout a run exactly when all calls of the run
    meet their condition. -/
theorem always_balanced_iff (hw : 0 < w) (target : Format) (s : Linker w) (log : List (Call w))
    (hlog : Meets (step target) (fun t c => ∀ t' ∈ t.toOption, t'.Admits c ∧ t'.MapsFresh target c)
      (.ok (start s)) log) :
    Always (step target) (fun t => ∃ t', t = .ok t' ∧ t'.Balanced) (.ok (start s)) log ↔
      ∀ c ∈ log, c.Balances target := by
  have hmeets : Meets (step target) (fun _ c => c.Balances target) (.ok (start s)) log ↔ ∀ c ∈ log,
      c.Balances target :=
    meets_const
  rw [← hmeets]
  refine always_iff_meets (I := fun t => ∀ t', t = .ok t' → t'.Mapped) ?_ ?_ ?_ ⟨_, rfl, start_balanced s⟩ hlog
  · intro t c h hc t' ht'
    cases t with
    | error stop => cases ht'
    | ok t =>
      rcases step_balanced hw (h t rfl) (hc t rfl).1 (hc t rfl).2 with ⟨-, heq⟩ | ⟨t'', heq, h', -⟩
      · rw [heq] at ht'
        cases ht'
      · rw [heq] at ht'
        cases ht'
        exact h'
  · rintro _ c h hc ⟨t, rfl, hbal⟩
    rcases step_balanced hw (h t rfl) (hc t rfl).1 (hc t rfl).2 with ⟨hn, heq⟩ | ⟨t', heq, -, hiff⟩
    · rw [heq]
      refine iff_of_false ?_ hn
      rintro ⟨t', herr, -⟩
      cases herr
    · rw [heq, ← hiff hbal]
      constructor
      · rintro ⟨_, hok, hbal'⟩
        cases hok
        exact hbal'
      · exact fun hbal' => ⟨t', rfl, hbal'⟩
  · rintro _ ⟨⟩
    exact start_mapped s

/-- A load that succeeds, one whose segment cannot be read, and one that gets no mapping and whose segment
    cannot be sought. -/
theorem always_balanced_loads :
    let log : List (Call 64) :=
      [.load (some "a") (sharedObject 0x10000 (some 1)),
        .load (some "b") { sharedObject 0x20000 (some 2) with read := fun _ => mapFailed 64 },
        .load (some "c") { sharedObject (mapFailed 64) (some 2) with seek := fun _ => -1 },
        .load (some "d") (sharedObject 0x30000 (some 2))]
    Always (step .elf) (fun t => ∃ t', t = .ok t' ∧ t'.Balanced) (.ok (start (Linker.empty 64))) log :=
  (always_balanced_iff (by decide) .elf (Linker.empty 64) _ (by decide +kernel)).2 (by decide +kernel)

/-- An object that is loaded and unloaded leaves its mapping; and without a mapping, zeros are written to none. -/
theorem not_always_balanced :
    let log : List (Call 64) := [.load (some "a") (sharedObject 0x10000 (some 1)), .unload (some 1)]
    Meets (step .elf) (fun t c => ∀ t' ∈ t.toOption, t'.Admits c ∧ t'.MapsFresh .elf c)
      (.ok (start (Linker.empty 64))) log ∧
    ¬ Always (step .elf) (fun t => ∃ t', t = .ok t' ∧ t'.Balanced) (.ok (start (Linker.empty 64))) log ∧
    (step .elf (.ok (start (Linker.empty 64))) (.load (some "c") (sharedObject (mapFailed 64) (some 2)))).toOption.isNone := by
  refine ⟨by decide +kernel, fun h => ?_, by decide +kernel⟩
  obtain ⟨t, ht, hbal⟩ := h.last
  have hrun := congrArg (fun t => t.toOption.map fun t : Session 64 => (t.linker.maps, t.loaded)) ht
  have heval := Option.some.inj ((by decide +kernel :
    some ([(0x10000, 0x1000)], []) = (List.foldl (step .elf) (.ok (start (Linker.empty 64)))
        [.load (some "a") (sharedObject 0x10000 (some 1)), .unload (some 1)]).toOption.map
          fun t : Session 64 => (t.linker.maps, t.loaded)).trans hrun)
  obtain ⟨hmaps, hloaded⟩ := Prod.mk.inj heval
  obtain ⟨p, hp, -⟩ := (hbal (0x10000, 0x1000)).1 (hmaps ▸ List.mem_cons_self)
  rw [← hloaded] at hp
  exact List.not_mem_nil hp

end Session

end PocketDarwin.Mindyld
