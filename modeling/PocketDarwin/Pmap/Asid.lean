/-
  Tagged TLB support of the ARM pmap (`pmap_asid.c`).

  Each processor counts how many address spaces use each of its tags (ASIDs); each
  address space has a tag for each processor, given when it is first dispatched there,
  and a coherency vector with the processors that it has a pending invalidation for.

  The counts are those of the live address spaces throughout a run, as long as no tag is
  shared by more of them than a count can hold (`Sharing.always_counted`).
-/
import Mathlib.Data.List.Basic
import Mathlib.Data.List.Count
import Mathlib.Data.List.Nodup
import PocketDarwin.Runs

namespace PocketDarwin.Pmap

/-! ## The module -/

/-- `PMAP_INVALID`, the marker for a freed pmap. -/
def pmapInvalid : ℕ := 0xDEAD7347

/-- `PMAP_ASID_INVALID_ASID` -/
def invalidAsid : ℕ := 0xDEAD

/-- `PMAP_ASID_MAX_REFCOUNT` -/
def maxRefcount : ℕ := 0xF0

/-- `PMAP_ASID_MIN_ASID` -/
def minAsid : ℕ := 1

/-- `PMAP_ASID_MAX_ASID` -/
def maxAsid : ℕ := 0xFF

/-- `PMAP_ASID_MAX_CPUS` -/
def maxCpus : ℕ := 48

/-- What `cpu_data_t` keeps for the tags.  Pointers to pmaps are numbers, `NULL` is `0`. -/
structure CpuData where
  freeHint : ℕ
  refcounts : ℕ → ℕ
  lastPmapDispatched : ℕ → ℕ
  activeAsid : ℕ

/-- What `struct pmap` keeps for the tags. -/
structure PmapAsid where
  asidCpus : ℕ → ℕ
  coherencyVector : ℕ → ℕ
  asid : ℕ

/-- The processors and the pmaps. -/
structure Tags where
  cpus : ℕ → CpuData
  pmaps : ℕ → PmapAsid

namespace Tags

def setCpu (s : Tags) (cpu : ℕ) (c : CpuData) : Tags := { s with cpus := Function.update s.cpus cpu c }

def setPmap (s : Tags) (p : ℕ) (m : PmapAsid) : Tags := { s with pmaps := Function.update s.pmaps p m }

@[simp] theorem cpus_setCpu (s : Tags) (cpu : ℕ) (c : CpuData) :
    (s.setCpu cpu c).cpus = Function.update s.cpus cpu c := rfl

@[simp] theorem pmaps_setCpu (s : Tags) (cpu : ℕ) (c : CpuData) : (s.setCpu cpu c).pmaps = s.pmaps := rfl

@[simp] theorem cpus_setPmap (s : Tags) (p : ℕ) (m : PmapAsid) : (s.setPmap p m).cpus = s.cpus := rfl

@[simp] theorem pmaps_setPmap (s : Tags) (p : ℕ) (m : PmapAsid) :
    (s.setPmap p m).pmaps = Function.update s.pmaps p m := rfl

end Tags

/-- The loop of `pmap_asid_invalidate_all_cpus`, which writes eight bytes at a time. -/
def pmapAsidInvalidateAllCpus (realNcpus p : ℕ) (s : Tags) : Tags :=
  s.setPmap p { s.pmaps p with
    coherencyVector := fun i => if i < (realNcpus + 7) / 8 * 8 then 0xFF else (s.pmaps p).coherencyVector i }

/-- `pmap_asid_invalidate_cpu` -/
def pmapAsidInvalidateCpu (p cpu : ℕ) (s : Tags) : Tags :=
  s.setPmap p { s.pmaps p with coherencyVector := Function.update (s.pmaps p).coherencyVector cpu 0xFF }

/-- `pmap_asid_validate_cpu` -/
def pmapAsidValidateCpu (p cpu : ℕ) (s : Tags) : Tags :=
  s.setPmap p { s.pmaps p with coherencyVector := Function.update (s.pmaps p).coherencyVector cpu 0 }

/-- `pmap_asid_configure` on the processor `cpu`. -/
def pmapAsidConfigure (cpu : ℕ) (s : Tags) : Tags :=
  s.setCpu cpu { s.cpus cpu with refcounts := Function.update (s.cpus cpu).refcounts 0 1 }

/-- `pmap_asid_initialize` -/
def pmapAsidInitialize (p : ℕ) (s : Tags) : Tags := s.setPmap p { s.pmaps p with asidCpus := fun _ => invalidAsid }

/-- `pmap_asid_initialize_kernel` -/
def pmapAsidInitializeKernel (p : ℕ) (s : Tags) : Tags := s.setPmap p { s.pmaps p with asidCpus := fun _ => 0 }

/-- The linear scan of `pmap_asid_allocate_asid` over `n` tags from `i` on: the first free one, or
    else the one that is used least. -/
def scanAsids (refcounts : ℕ → ℕ) : (n i curMin curMinIndex : ℕ) → ℕ
  | 0, _, _, curMinIndex => curMinIndex
  | n + 1, i, curMin, curMinIndex =>
    if refcounts i = 0 then i
    else if refcounts i < curMin then scanAsids refcounts n (i + 1) (refcounts i) i
    else scanAsids refcounts n (i + 1) curMin curMinIndex

/-- The tag that `pmap_asid_allocate_asid` takes. -/
def freeAsid (c : CpuData) : ℕ :=
  if c.freeHint ≠ 0 ∧ c.refcounts c.freeHint = 0 then c.freeHint
  else scanAsids c.refcounts (maxAsid - minAsid) minAsid 0xFF 0xFFFFFFFE

/-- `pmap_asid_allocate_asid`.  The counts have eight bits. -/
def pmapAsidAllocateAsid (c : CpuData) : ℕ × CpuData :=
  let i := freeAsid c
  let refcounts := Function.update c.refcounts i ((c.refcounts i + 1) % 256)
  if c.freeHint ≠ 0 ∧ c.refcounts c.freeHint = 0 then (i, { c with refcounts, freeHint := 0 })
  else (i, { c with refcounts })

/-- `pmap_asid_deallocate_asid`, for the tag that the pmap has on the processor. -/
def pmapAsidDeallocateAsid (p asid : ℕ) (c : CpuData) : CpuData :=
  if asid = invalidAsid then c
  else
    { c with
      lastPmapDispatched :=
        if c.lastPmapDispatched asid = p then Function.update c.lastPmapDispatched asid pmapInvalid
        else c.lastPmapDispatched
      freeHint := if c.refcounts asid = 1 then asid else c.freeHint
      refcounts := Function.update c.refcounts asid ((c.refcounts asid + 255) % 256) }

/-- `pmap_destroy_asid_sync` -/
def pmapDestroyAsidSync (p : ℕ) (s : Tags) : Tags :=
  (List.range maxCpus).foldl
    (fun s i =>
      if (s.pmaps p).asidCpus i ≠ invalidAsid then
        s.setCpu i (pmapAsidDeallocateAsid p ((s.pmaps p).asidCpus i) (s.cpus i))
      else s) s

/-- `pmap_asid_activate`, up to the tag: the pmap has one on the processor now. -/
def withAsid (p cpu : ℕ) (s : Tags) : Tags :=
  if (s.pmaps p).asidCpus cpu = invalidAsid then
    let (asid, c) := pmapAsidAllocateAsid (s.cpus cpu)
    (s.setCpu cpu c).setPmap p
      { s.pmaps p with asidCpus := Function.update (s.pmaps p).asidCpus cpu asid }
  else s

/-- `pmap_asid_activate`.  Nothing comes between the two tests for a pending flush here, so
    that the second finds what the first has left. -/
def pmapAsidActivate (p cpu : ℕ) (s : Tags) : Tags :=
  let s := withAsid p cpu s
  let newAsid := (s.pmaps p).asidCpus cpu
  let s := s.setCpu cpu { s.cpus cpu with activeAsid := newAsid }
  let pendingFlush := (s.pmaps p).coherencyVector cpu ≠ 0
  let lastPmap := (s.cpus cpu).lastPmapDispatched newAsid
  let asidConflict := ¬ pendingFlush ∧ lastPmap ≠ 0 ∧ p ≠ lastPmap
  let s := if pendingFlush ∨ asidConflict then pmapAsidValidateCpu p cpu s else s
  let s := s.setCpu cpu
    { s.cpus cpu with lastPmapDispatched := Function.update (s.cpus cpu).lastPmapDispatched newAsid p }
  let s := s.setPmap p { s.pmaps p with asid := newAsid }
  if ¬ pendingFlush ∧ (s.pmaps p).coherencyVector cpu ≠ 0 then pmapAsidValidateCpu p cpu s else s

/-! ## What the functions do -/

/-- The scan finds a free tag if there is one, and one of those it looks at if the first is not yet
    used as often as `curMin`. -/
theorem scanAsids_spec (refcounts : ℕ → ℕ) (n i curMin curMinIndex : ℕ) :
    ((∃ j, i ≤ j ∧ j < i + n ∧ refcounts j = 0) →
      refcounts (scanAsids refcounts n i curMin curMinIndex) = 0) ∧
    (scanAsids refcounts n i curMin curMinIndex = curMinIndex ∨
      i ≤ scanAsids refcounts n i curMin curMinIndex ∧ scanAsids refcounts n i curMin curMinIndex < i + n) := by
  induction n generalizing i curMin curMinIndex with
  | zero =>
    refine ⟨?_, .inl rfl⟩
    rintro ⟨j, h₁, h₂, -⟩
    omega
  | succ n ih =>
    rw [scanAsids]
    split_ifs with h0 hlt
    · exact ⟨fun _ => h0, .inr ⟨Nat.le_refl i, by omega⟩⟩
    · obtain ⟨hfree, hrange⟩ := ih (i + 1) (refcounts i) i
      refine ⟨?_, .inr (by omega)⟩
      rintro ⟨j, h₁, h₂, hj⟩
      refine hfree ⟨j, ?_, by omega, hj⟩
      rcases Nat.eq_or_lt_of_le h₁ with rfl | h₁
      · exact absurd hj h0
      · exact h₁
    · obtain ⟨hfree, hrange⟩ := ih (i + 1) curMin curMinIndex
      refine ⟨?_, by omega⟩
      rintro ⟨j, h₁, h₂, hj⟩
      refine hfree ⟨j, ?_, by omega, hj⟩
      rcases Nat.eq_or_lt_of_le h₁ with rfl | h₁
      · exact absurd hj h0
      · exact h₁

/-- A processor whose counts are not about to overflow, with a hint that is a tag, or `0`. -/
structure CpuData.Sound (c : CpuData) : Prop where
  hint : c.freeHint < maxAsid
  counts : ∀ a, minAsid ≤ a → a < maxAsid → c.refcounts a ≤ maxRefcount

/-- **The tag that is taken** is a tag of user pmaps, and in use only if all of them are. -/
theorem CpuData.Sound.freeAsid {c : CpuData} (h : c.Sound) :
    (minAsid ≤ freeAsid c ∧ freeAsid c < maxAsid) ∧
      (c.refcounts (freeAsid c) ≠ 0 → ∀ a, minAsid ≤ a → a < maxAsid → c.refcounts a ≠ 0) := by
  unfold Pmap.freeAsid
  split_ifs with hhint
  · refine ⟨⟨Nat.one_le_iff_ne_zero.2 hhint.1, h.hint⟩, fun hne => absurd hhint.2 hne⟩
  · obtain ⟨hfree, hrange⟩ := scanAsids_spec c.refcounts (maxAsid - minAsid) minAsid 0xFF 0xFFFFFFFE
    constructor
    · -- the first tag is used less often than `0xFF` times, so that the start index is not left
      have hone := h.counts minAsid (Nat.le_refl _) (by decide)
      rw [show maxAsid - minAsid = 253 + 1 from rfl, scanAsids]
      split_ifs with h0 hlt
      · exact ⟨Nat.le_refl _, by decide⟩
      · obtain ⟨-, hr⟩ := scanAsids_spec c.refcounts 253 (minAsid + 1) (c.refcounts minAsid) minAsid
        simp only [minAsid, maxAsid] at hr ⊢
        omega
      · simp only [maxRefcount] at hone
        omega
    · intro hne a ha₁ ha₂ ha
      exact hne (hfree ⟨a, ha₁, by simp only [minAsid, maxAsid] at *; omega, ha⟩)

theorem allocate_fst (c : CpuData) : (pmapAsidAllocateAsid c).1 = freeAsid c := by
  unfold pmapAsidAllocateAsid
  split_ifs <;> rfl

theorem allocate_last (c : CpuData) : (pmapAsidAllocateAsid c).2.lastPmapDispatched = c.lastPmapDispatched := by
  unfold pmapAsidAllocateAsid
  split_ifs <;> rfl

theorem allocate_hint (c : CpuData) :
    (pmapAsidAllocateAsid c).2.freeHint = 0 ∨ (pmapAsidAllocateAsid c).2.freeHint = c.freeHint := by
  unfold pmapAsidAllocateAsid
  split_ifs
  · exact .inl rfl
  · exact .inr rfl

/-- Allocation counts the tag once more. -/
theorem CpuData.Sound.allocate {c : CpuData} (h : c.Sound) (a : ℕ) :
    (pmapAsidAllocateAsid c).2.refcounts a = c.refcounts a + if a = Pmap.freeAsid c then 1 else 0 := by
  have hcounts : (pmapAsidAllocateAsid c).2.refcounts =
      Function.update c.refcounts (Pmap.freeAsid c) ((c.refcounts (Pmap.freeAsid c) + 1) % 256) := by
    unfold pmapAsidAllocateAsid
    split_ifs <;> rfl
  rw [hcounts]
  by_cases ha : a = Pmap.freeAsid c
  · have hlt := h.counts _ h.freeAsid.1.1 h.freeAsid.1.2
    subst ha
    rw [Function.update_self, if_pos rfl]
    simp only [maxRefcount] at hlt
    omega
  · rw [Function.update_of_ne ha, if_neg ha, Nat.add_zero]

theorem deallocate_invalid (p : ℕ) (c : CpuData) : pmapAsidDeallocateAsid p invalidAsid c = c := if_pos rfl

theorem refcounts_deallocate (p : ℕ) {asid : ℕ} (h : asid ≠ invalidAsid) (c : CpuData) (a : ℕ) :
    (pmapAsidDeallocateAsid p asid c).refcounts a =
      if a = asid then (c.refcounts asid + 255) % 256 else c.refcounts a := by
  rw [pmapAsidDeallocateAsid, if_neg h]
  exact Function.update_apply _ _ _ _

theorem freeHint_deallocate (p asid : ℕ) (c : CpuData) :
    (pmapAsidDeallocateAsid p asid c).freeHint = asid ∨ (pmapAsidDeallocateAsid p asid c).freeHint = c.freeHint := by
  unfold pmapAsidDeallocateAsid
  by_cases hinv : asid = invalidAsid
  · exact .inr (by rw [if_pos hinv])
  · rw [if_neg hinv]
    exact ite_eq_or_eq _ _ _

theorem last_deallocate (p asid : ℕ) (c : CpuData) (a : ℕ) :
    (pmapAsidDeallocateAsid p asid c).lastPmapDispatched a =
      if a = asid ∧ a ≠ invalidAsid ∧ c.lastPmapDispatched a = p then pmapInvalid else c.lastPmapDispatched a := by
  unfold pmapAsidDeallocateAsid
  by_cases hinv : asid = invalidAsid
  · rw [if_pos hinv, if_neg fun h => h.2.1 (h.1.trans hinv)]
  · rw [if_neg hinv]
    by_cases ha : a = asid
    · subst ha
      by_cases hp : c.lastPmapDispatched a = p
      · simp [hp, hinv]
      · simp [hp]
    · simp only [ha, false_and, if_false]
      split_ifs
      · rw [Function.update_of_ne ha]
      · rfl

/-- The loop over the processors frees the tag of each. -/
theorem destroy_spec (p : ℕ) (s : Tags) (l : List ℕ) (hl : l.Nodup) :
    let s' := l.foldl
      (fun s i =>
        if (s.pmaps p).asidCpus i ≠ invalidAsid then
          s.setCpu i (pmapAsidDeallocateAsid p ((s.pmaps p).asidCpus i) (s.cpus i))
        else s) s
    s'.pmaps = s.pmaps ∧
      ∀ i, s'.cpus i =
        if i ∈ l then pmapAsidDeallocateAsid p ((s.pmaps p).asidCpus i) (s.cpus i) else s.cpus i := by
  induction l generalizing s with
  | nil => exact ⟨rfl, fun i => by simp⟩
  | cons j l ih =>
    obtain ⟨hj, hl⟩ := List.nodup_cons.1 hl
    simp only [List.foldl_cons]
    split_ifs with hne
    · obtain ⟨hp, hc⟩ := ih (s.setCpu j
        (pmapAsidDeallocateAsid p ((s.pmaps p).asidCpus j) (s.cpus j))) hl
      refine ⟨hp, fun i => ?_⟩
      rw [hc i]
      by_cases hij : i = j
      · subst hij
        simp [hj]
      · simp [hij]
    · obtain ⟨hp, hc⟩ := ih s hl
      refine ⟨hp, fun i => ?_⟩
      rw [hc i]
      by_cases hij : i = j
      · subst hij
        rw [not_not] at hne
        simp [hj, hne, deallocate_invalid]
      · simp [hij]

theorem pmaps_destroy (p : ℕ) (s : Tags) : (pmapDestroyAsidSync p s).pmaps = s.pmaps :=
  (destroy_spec p s (List.range maxCpus) List.nodup_range).1

theorem cpus_destroy (p : ℕ) (s : Tags) {cpu : ℕ} (h : cpu < maxCpus) :
    (pmapDestroyAsidSync p s).cpus cpu = pmapAsidDeallocateAsid p ((s.pmaps p).asidCpus cpu) (s.cpus cpu) := by
  rw [pmapDestroyAsidSync, (destroy_spec p s (List.range maxCpus) List.nodup_range).2,
    if_pos (List.mem_range.2 h)]

theorem hint_destroy (p : ℕ) (s : Tags) (cpu : ℕ) (h : (s.cpus cpu).freeHint ≠ invalidAsid) :
    ((pmapDestroyAsidSync p s).cpus cpu).freeHint ≠ invalidAsid := by
  rw [pmapDestroyAsidSync, (destroy_spec p s (List.range maxCpus) List.nodup_range).2]
  split_ifs
  · by_cases hinv : (s.pmaps p).asidCpus cpu = invalidAsid
    · rwa [hinv, deallocate_invalid]
    · rcases freeHint_deallocate p ((s.pmaps p).asidCpus cpu) (s.cpus cpu) with heq | heq
      · rwa [heq]
      · rwa [heq]
  · exact h

/-- **What an activation leaves**: the pmap is the last one dispatched with its tag, and the
    pending invalidation is taken note of.  There is no flush on any of its paths. -/
theorem activate_eq (p cpu : ℕ) (s : Tags) :
    pmapAsidActivate p cpu s =
      let t := withAsid p cpu s
      let asid := (t.pmaps p).asidCpus cpu
      (t.setCpu cpu
        { t.cpus cpu with
          activeAsid := asid
          lastPmapDispatched := Function.update (t.cpus cpu).lastPmapDispatched asid p }).setPmap p
        { t.pmaps p with asid, coherencyVector := Function.update (t.pmaps p).coherencyVector cpu 0 } := by
  unfold pmapAsidActivate
  generalize withAsid p cpu s = t
  by_cases hpending : (t.pmaps p).coherencyVector cpu = 0
  · -- the byte is zero already, so that validating it changes nothing
    have hsame : Function.update (t.pmaps p).coherencyVector cpu 0 = (t.pmaps p).coherencyVector := by
      rw [← hpending, Function.update_eq_self]
    simp [pmapAsidValidateCpu, hpending, Tags.setCpu, Tags.setPmap, hsame]
  · simp [pmapAsidValidateCpu, hpending, Tags.setCpu, Tags.setPmap]

section
variable (p cpu : ℕ) (s : Tags)

/-- The counts, the hints and the tags change only by the allocation that an activation may
    start with. -/
theorem refcounts_activate (i : ℕ) :
    ((pmapAsidActivate p cpu s).cpus i).refcounts = ((withAsid p cpu s).cpus i).refcounts := by
  rw [activate_eq]
  by_cases hi : i = cpu
  · subst hi
    simp
  · simp [hi]

theorem freeHint_activate (i : ℕ) :
    ((pmapAsidActivate p cpu s).cpus i).freeHint = ((withAsid p cpu s).cpus i).freeHint := by
  rw [activate_eq]
  by_cases hi : i = cpu
  · subst hi
    simp
  · simp [hi]

theorem asidCpus_activate (q : ℕ) :
    ((pmapAsidActivate p cpu s).pmaps q).asidCpus = ((withAsid p cpu s).pmaps q).asidCpus := by
  rw [activate_eq]
  by_cases hq : q = p
  · subst hq
    simp
  · simp [hq]

end

theorem withAsid_of_ne {p cpu : ℕ} {s : Tags} (h : (s.pmaps p).asidCpus cpu ≠ invalidAsid) :
    withAsid p cpu s = s := if_neg h

theorem withAsid_of_eq {p cpu : ℕ} {s : Tags} (h : (s.pmaps p).asidCpus cpu = invalidAsid) :
    withAsid p cpu s =
      (s.setCpu cpu (pmapAsidAllocateAsid (s.cpus cpu)).2).setPmap p
        { s.pmaps p with
          asidCpus := Function.update (s.pmaps p).asidCpus cpu (pmapAsidAllocateAsid (s.cpus cpu)).1 } := if_pos h

end PocketDarwin.Pmap
