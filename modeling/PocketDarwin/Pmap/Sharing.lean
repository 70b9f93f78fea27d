/-
  The reference counts of the ASIDs over whole runs.

  `Sharing` is the state of `pmap_asid.c` with the user pmaps that are live: a pmap comes
  to life with `pmap_asid_initialize` and ends with `pmap_destroy_asid_sync`.

  * `Sharing.Counted`: on each processor, each count is the number of live pmaps that have
    the tag there, and the kernel's own reference on the tag `0`.
  * `Sharing.always_counted`: this is so throughout a run, no user pmap gets the tag `0`, and
    a tag in use is handed out only if all are in use.
-/
import PocketDarwin.Pmap.Asid

namespace PocketDarwin.Pmap

/-- The tags, and the user pmaps that are live. -/
structure Sharing where
  tags : Tags
  live : List ℕ

/-- The calls that touch the counts. -/
inductive AsidCall where
  | create (p : ℕ)
  | activate (p cpu : ℕ)
  | destroy (p : ℕ)
deriving DecidableEq, Repr

namespace Sharing

def step (s : Sharing) : AsidCall → Sharing
  | .create p => ⟨pmapAsidInitialize p s.tags, p :: s.live⟩
  | .activate p cpu => ⟨pmapAsidActivate p cpu s.tags, s.live⟩
  | .destroy p => ⟨pmapDestroyAsidSync p s.tags, s.live.erase p⟩

/-- A new pmap is none of those in use, the pmaps that are activated and destroyed are live, and
    processors are below `PMAP_ASID_MAX_CPUS`. -/
def Valid (kernelPmap : ℕ) (s : Sharing) : AsidCall → Prop
  | .create p => p ≠ kernelPmap ∧ p ∉ s.live
  | .activate p cpu => (p = kernelPmap ∨ p ∈ s.live) ∧ cpu < maxCpus
  | .destroy p => p ∈ s.live

instance (kernelPmap : ℕ) (s : Sharing) (call : AsidCall) : Decidable (s.Valid kernelPmap call) := by
  cases call <;> unfold Valid <;> infer_instance

/-- A zeroed `cpu_data_t`. -/
def blankCpu : CpuData := ⟨0, fun _ => 0, fun _ => 0, 0⟩

/-- After `pmap_asid_initialize_kernel`, and `pmap_asid_configure` on each processor. -/
def start (kernelPmap : ℕ) (pmaps : ℕ → PmapAsid) : Sharing :=
  ⟨(List.range maxCpus).foldl (fun s cpu => pmapAsidConfigure cpu s)
    (pmapAsidInitializeKernel kernelPmap ⟨fun _ => blankCpu, pmaps⟩), []⟩

/-- The live pmaps that have the tag `a` on the processor. -/
def users (s : Sharing) (cpu a : ℕ) : ℕ := s.live.countP fun p => (s.tags.pmaps p).asidCpus cpu = a

/-- No tag is shared by more live pmaps than `PMAP_ASID_MAX_REFCOUNT`. -/
def Bounded (s : Sharing) : Prop := ∀ cpu < maxCpus, ∀ a < maxAsid, s.users cpu a ≤ maxRefcount

/-- The counts are those of the live pmaps, and of the kernel on the tag `0`. -/
def Counted (s : Sharing) : Prop :=
  ∀ cpu < maxCpus, ∀ a < maxAsid, (s.tags.cpus cpu).refcounts a = s.users cpu a + if a = 0 then 1 else 0

/-- No user pmap has the tag `0`. -/
def Apart (s : Sharing) : Prop := ∀ p ∈ s.live, ∀ cpu < maxCpus, (s.tags.pmaps p).asidCpus cpu ≠ 0

/-- `pmap_asid_allocate_asid` would hand out a tag in use only if all are. -/
def Frugal (s : Sharing) : Prop :=
  ∀ cpu < maxCpus, (s.tags.cpus cpu).refcounts (pmapAsidAllocateAsid (s.tags.cpus cpu)).1 ≠ 0 →
    ∀ a, minAsid ≤ a → a < maxAsid → (s.tags.cpus cpu).refcounts a ≠ 0

/-! ## The invariant -/

/-- What the runs keep. -/
structure Inv (kernelPmap : ℕ) (s : Sharing) : Prop where
  counted : s.Counted
  hint : ∀ cpu < maxCpus, (s.tags.cpus cpu).freeHint < maxAsid
  tagged : ∀ p ∈ s.live, ∀ cpu < maxCpus, (s.tags.pmaps p).asidCpus cpu = invalidAsid ∨
    minAsid ≤ (s.tags.pmaps p).asidCpus cpu ∧ (s.tags.pmaps p).asidCpus cpu < maxAsid
  kernel : ∀ cpu < maxCpus, (s.tags.pmaps kernelPmap).asidCpus cpu = 0
  nodup : s.live.Nodup
  notMem : kernelPmap ∉ s.live

section
variable {kernelPmap : ℕ} {s : Sharing}

theorem Inv.sound (h : s.Inv kernelPmap) (hb : s.Bounded) {cpu : ℕ} (hcpu : cpu < maxCpus) :
    (s.tags.cpus cpu).Sound where
  hint := h.hint cpu hcpu
  counts a h₁ h₂ := by
    rw [h.counted cpu hcpu a h₂, if_neg (Nat.one_le_iff_ne_zero.1 h₁), Nat.add_zero]
    exact hb cpu hcpu a h₂

theorem Inv.apart (h : s.Inv kernelPmap) : s.Apart := by
  intro p hp cpu hcpu h0
  rcases h.tagged p hp cpu hcpu with hinv | ⟨h₁, -⟩
  · exact absurd (h0.symm.trans hinv) (by decide)
  · rw [h0] at h₁
    exact absurd h₁ (by decide)

theorem Inv.frugal (h : s.Inv kernelPmap) (hb : s.Bounded) : s.Frugal := by
  intro cpu hcpu
  have hs := h.sound hb hcpu
  rw [allocate_fst]
  exact hs.freeAsid.2

theorem refcounts_start (pmaps : ℕ → PmapAsid) {cpu : ℕ} (hcpu : cpu < maxCpus) :
    ((start kernelPmap pmaps).tags.cpus cpu) = { blankCpu with refcounts := fun a => if a = 0 then 1 else 0 } := by
  have hfold : ∀ (l : List ℕ) (s : Tags) (i : ℕ),
      (l.foldl (fun s cpu => pmapAsidConfigure cpu s) s).cpus i =
      if i ∈ l then { s.cpus i with refcounts := Function.update (s.cpus i).refcounts 0 1 }
        else s.cpus i := by
    intro l
    induction l with
    | nil => simp
    | cons j l ih =>
      intro s i
      rw [List.foldl_cons, ih]
      by_cases hij : i = j
      · subst hij
        simp [pmapAsidConfigure]
      · simp [pmapAsidConfigure, hij]
  rw [start, hfold, if_pos (List.mem_range.2 hcpu)]
  simp only [pmapAsidInitializeKernel, blankCpu, Tags.cpus_setPmap, CpuData.mk.injEq, true_and,
    and_true]
  funext a
  rw [Function.update_apply]

theorem freeHint_start (pmaps : ℕ → PmapAsid) (cpu : ℕ) :
    ((start kernelPmap pmaps).tags.cpus cpu).freeHint = 0 := by
  have hfold : ∀ (l : List ℕ) (s : Tags), (∀ i, (s.cpus i).freeHint = 0) →
      ∀ i, ((l.foldl (fun s cpu => pmapAsidConfigure cpu s) s).cpus i).freeHint = 0 := by
    intro l
    induction l with
    | nil => exact fun s hs => hs
    | cons j l ih =>
      refine fun s hs => ih _ fun i => ?_
      by_cases hij : i = j
      · subst hij
        simpa [pmapAsidConfigure] using hs i
      · simpa [pmapAsidConfigure, hij] using hs i
  exact hfold _ _ (fun _ => rfl) cpu

theorem pmaps_start (pmaps : ℕ → PmapAsid) :
    (start kernelPmap pmaps).tags.pmaps = (pmapAsidInitializeKernel kernelPmap ⟨fun _ => blankCpu, pmaps⟩).pmaps := by
  unfold start
  generalize pmapAsidInitializeKernel kernelPmap ⟨fun _ => blankCpu, pmaps⟩ = s
  induction List.range maxCpus generalizing s with
  | nil => rfl
  | cons j l ih => exact ih _

theorem inv_start (pmaps : ℕ → PmapAsid) : (start kernelPmap pmaps).Inv kernelPmap where
  counted cpu hcpu a _ := by
    rw [refcounts_start pmaps hcpu]
    simp [users, start]
  hint cpu hcpu := by
    rw [refcounts_start pmaps hcpu]
    exact Nat.zero_lt_succ _
  tagged p hp := by simp [start] at hp
  kernel cpu _ := by simp [pmaps_start, pmapAsidInitializeKernel]
  nodup := List.nodup_nil
  notMem := List.not_mem_nil

/-! ## One call -/

/-- The users of a tag among pmaps that keep theirs. -/
theorem countP_users (t t' : Tags) {live : List ℕ} (cpu a : ℕ)
    (h : ∀ q ∈ live, (t'.pmaps q).asidCpus cpu = (t.pmaps q).asidCpus cpu) :
    live.countP (fun q => (t'.pmaps q).asidCpus cpu = a) = live.countP fun q => (t.pmaps q).asidCpus cpu = a := by
  refine List.countP_congr fun q hq => ?_
  simp only [decide_eq_true_eq, h q hq]

/-- The users of a tag with one pmap apart. -/
theorem users_erase {p : ℕ} (hp : p ∈ s.live) (cpu a : ℕ) :
    s.users cpu a =
      (s.live.erase p).countP (fun q => (s.tags.pmaps q).asidCpus cpu = a) +
        if (s.tags.pmaps p).asidCpus cpu = a then 1 else 0 := by
  rw [users, (List.perm_cons_erase hp).countP_eq, List.countP_cons]
  simp only [decide_eq_true_eq]

theorem Inv.create (h : s.Inv kernelPmap) {p : ℕ} (hv : s.Valid kernelPmap (.create p)) :
    (s.step (.create p)).Inv kernelPmap := by
  have hother : ∀ q, q ≠ p → (pmapAsidInitialize p s.tags).pmaps q = s.tags.pmaps q := by
    intro q hq
    simp [pmapAsidInitialize, hq]
  have hself : ∀ cpu, ((pmapAsidInitialize p s.tags).pmaps p).asidCpus cpu = invalidAsid := by
    simp [pmapAsidInitialize]
  constructor
  · intro cpu hcpu a ha
    have husers : (s.step (.create p)).users cpu a = s.users cpu a := by
      have hne : invalidAsid ≠ a := by
        simp only [maxAsid, invalidAsid] at ha ⊢
        omega
      simp only [users, step, List.countP_cons, hself, hne, decide_false]
      exact countP_users s.tags _ cpu a fun q hq => by rw [hother q (ne_of_mem_of_not_mem hq hv.2)]
    rw [husers]
    exact h.counted cpu hcpu a ha
  · exact h.hint
  · intro q hq cpu hcpu
    rcases List.mem_cons.1 hq with rfl | hq
    · exact .inl (hself cpu)
    · simp only [step]
      rw [hother q (ne_of_mem_of_not_mem hq hv.2)]
      exact h.tagged q hq cpu hcpu
  · simp only [step]
    rw [hother kernelPmap (Ne.symm hv.1)]
    exact h.kernel
  · exact List.nodup_cons.2 ⟨hv.2, h.nodup⟩
  · exact fun hmem => (List.mem_cons.1 hmem).elim (fun heq => hv.1 heq.symm) h.notMem

/-- An activation that allocates adds a user to the tag it takes. -/
theorem Inv.allocate (h : s.Inv kernelPmap) (hb : s.Bounded) {p cpu : ℕ} (hp : p ∈ s.live) (hcpu : cpu < maxCpus)
    (hinv : (s.tags.pmaps p).asidCpus cpu = invalidAsid) : Inv kernelPmap ⟨withAsid p cpu s.tags, s.live⟩ := by
  have hs := h.sound hb hcpu
  obtain ⟨⟨hmin, hmax⟩, -⟩ := hs.freeAsid
  have hkernel : kernelPmap ≠ p := fun heq => h.notMem (heq ▸ hp)
  have hother : ∀ q, q ≠ p → (withAsid p cpu s.tags).pmaps q = s.tags.pmaps q := by
    intro q hq
    simp [withAsid_of_eq hinv, hq]
  have hself : ∀ i, ((withAsid p cpu s.tags).pmaps p).asidCpus i =
      if i = cpu then freeAsid (s.tags.cpus cpu) else (s.tags.pmaps p).asidCpus i := by
    intro i
    simp [withAsid_of_eq hinv, allocate_fst, Function.update_apply]
  have hcpus : ∀ i, i ≠ cpu → (withAsid p cpu s.tags).cpus i = s.tags.cpus i := by
    intro i hi
    simp [withAsid_of_eq hinv, hi]
  have hcpu' : (withAsid p cpu s.tags).cpus cpu = (pmapAsidAllocateAsid (s.tags.cpus cpu)).2 := by
    simp [withAsid_of_eq hinv]
  have herase : ∀ q ∈ s.live.erase p, q ≠ p := fun q hq => (h.nodup.mem_erase_iff.1 hq).1
  constructor
  · intro i hi a ha
    have hrest := countP_users s.tags (withAsid p cpu s.tags) i a
      fun q hq => by rw [hother q (herase q hq)]
    have hcount := h.counted i hi a ha
    rw [users_erase hp] at hcount
    rw [users_erase (s := ⟨withAsid p cpu s.tags, s.live⟩) hp, hrest]
    simp only [hself]
    by_cases hic : i = cpu
    · subst hic
      have hne : invalidAsid ≠ a := by
        simp only [maxAsid, invalidAsid] at ha ⊢
        omega
      rw [hinv, if_neg hne] at hcount
      rw [hcpu', hs.allocate, hcount, if_pos rfl]
      simp only [eq_comm (a := a)]
      omega
    · rw [if_neg hic, hcpus i hic]
      exact hcount
  · intro i hi
    by_cases hic : i = cpu
    · subst hic
      simp only [hcpu']
      rcases allocate_hint (s.tags.cpus i) with heq | heq
      · rw [heq]
        exact Nat.zero_lt_succ _
      · rw [heq]
        exact h.hint i hi
    · simpa only [hcpus i hic] using h.hint i hi
  · intro q hq i hi
    by_cases hqp : q = p
    · subst hqp
      simp only [hself]
      split_ifs
      · exact .inr ⟨hmin, hmax⟩
      · exact h.tagged q hq i hi
    · simp only [hother q hqp]
      exact h.tagged q hq i hi
  · simp only [hother kernelPmap hkernel]
    exact h.kernel
  · exact h.nodup
  · exact h.notMem

theorem Inv.activate (h : s.Inv kernelPmap) (hb : s.Bounded) {p cpu : ℕ}
    (hv : s.Valid kernelPmap (.activate p cpu)) : (s.step (.activate p cpu)).Inv kernelPmap := by
  have hw : Inv kernelPmap ⟨withAsid p cpu s.tags, s.live⟩ := by
    by_cases hinv : (s.tags.pmaps p).asidCpus cpu = invalidAsid
    · rcases hv.1 with rfl | hp
      · exact absurd ((h.kernel cpu hv.2).symm.trans hinv) (by decide)
      · exact h.allocate hb hp hv.2 hinv
    · rw [withAsid_of_ne hinv]
      exact h
  constructor
  · intro i hi a ha
    have husers : (s.step (.activate p cpu)).users i a = users ⟨withAsid p cpu s.tags, s.live⟩ i a :=
      countP_users _ _ i a fun q _ => congrFun (asidCpus_activate p cpu s.tags q) i
    rw [husers]
    simp only [step, refcounts_activate]
    exact hw.counted i hi a ha
  · intro i hi
    simp only [step, freeHint_activate]
    exact hw.hint i hi
  · intro q hq i hi
    simp only [step, asidCpus_activate]
    exact hw.tagged q hq i hi
  · intro i hi
    simp only [step, asidCpus_activate]
    exact hw.kernel i hi
  · exact h.nodup
  · exact h.notMem

theorem Inv.destroy (h : s.Inv kernelPmap) (hb : s.Bounded) {p : ℕ} (hp : p ∈ s.live) :
    (s.step (.destroy p)).Inv kernelPmap := by
  constructor
  · intro cpu hcpu a ha
    have hcount := h.counted cpu hcpu a ha
    rw [users_erase hp] at hcount
    simp only [step, users, pmaps_destroy, cpus_destroy p s.tags hcpu]
    rcases h.tagged p hp cpu hcpu with hinv | ⟨hmin, hmax⟩
    · have hne : invalidAsid ≠ a := by
        simp only [maxAsid, invalidAsid] at ha ⊢
        omega
      rw [hinv, deallocate_invalid, hcount, hinv, if_neg hne, Nat.add_zero]
    · have hne : (s.tags.pmaps p).asidCpus cpu ≠ invalidAsid := by
        simp only [maxAsid, invalidAsid] at hmax ⊢
        omega
      rw [refcounts_deallocate p hne]
      by_cases heq : a = (s.tags.pmaps p).asidCpus cpu
      · -- the count was at least one, and too small to have wrapped around
        have hle := hb cpu hcpu a ha
        rw [users_erase hp] at hle
        rw [if_pos heq, ← heq]
        rw [if_pos heq.symm] at hcount hle
        simp only [maxRefcount] at hle
        rw [hcount]
        split_ifs at hcount ⊢ <;> omega
      · rw [if_neg heq]
        rw [if_neg (Ne.symm heq), Nat.add_zero] at hcount
        exact hcount
  · intro cpu hcpu
    simp only [step, cpus_destroy p s.tags hcpu]
    rcases h.tagged p hp cpu hcpu with hinv | ⟨-, hmax⟩
    · rw [hinv, deallocate_invalid]
      exact h.hint cpu hcpu
    · rcases freeHint_deallocate p ((s.tags.pmaps p).asidCpus cpu) (s.tags.cpus cpu) with heq | heq
      · rw [heq]
        exact hmax
      · rw [heq]
        exact h.hint cpu hcpu
  · intro q hq cpu hcpu
    simp only [step, pmaps_destroy]
    exact h.tagged q (List.mem_of_mem_erase hq) cpu hcpu
  · simp only [step, pmaps_destroy]
    exact h.kernel
  · exact h.nodup.erase p
  · exact fun hmem => h.notMem (List.mem_of_mem_erase hmem)

theorem inv_step (h : s.Inv kernelPmap) (hb : s.Bounded) {call : AsidCall} (hv : s.Valid kernelPmap call) :
    (s.step call).Inv kernelPmap := by
  cases call with
  | create p => exact h.create hv
  | activate p cpu => exact h.activate hb hv
  | destroy p => exact h.destroy hb hv

end

/-! ## Runs -/

/-- **The reference counts.**  `pmaps` is what the memory of the pmaps holds before they are
    initialized. -/
theorem always_counted (kernelPmap : ℕ) (pmaps : ℕ → PmapAsid) (log : List AsidCall)
    (hvalid : Meets step (Valid kernelPmap) (start kernelPmap pmaps) log)
    (hbounded : Always step Bounded (start kernelPmap pmaps) log) :
    Always step (fun s => s.Counted ∧ s.Apart ∧ s.Frugal) (start kernelPmap pmaps) log := by
  have hinv : Always step (fun s => s.Inv kernelPmap ∧ s.Bounded) (start kernelPmap pmaps) log := by
    refine Always.of_meets (fun s call h hc => ?_) ⟨inv_start pmaps, hbounded.head⟩
      (hvalid.and hbounded.meets)
    exact ⟨inv_step h.1 h.2 hc.1, hc.2⟩
  exact hinv.imp fun s h => ⟨h.1.counted, h.1.apart, h.1.frugal h.2⟩

/-- A pmap ends, and its tag goes to the next one. -/
theorem always_counted_reused :
    Always step (fun s => s.Counted ∧ s.Apart ∧ s.Frugal) (start 4 fun _ => ⟨fun _ => 0, fun _ => 0, 0⟩)
      [.create 8, .activate 8 0, .destroy 8, .create 16, .activate 16 0] := by
  refine always_counted 4 (fun _ => ⟨fun _ => 0, fun _ => 0, 0⟩) _ (by decide) ?_
  refine Always.imp (P := fun t => t.live.length ≤ 1) (fun t ht cpu _ a _ => ?_) (by simp [step, start])
  exact Nat.le_trans (Nat.le_trans List.countP_le_length ht) (by decide)

end Sharing

end PocketDarwin.Pmap
