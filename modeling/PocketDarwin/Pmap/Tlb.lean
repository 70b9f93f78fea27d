/-
  Stale translations across the reuse of ASIDs.

  The TLB of a processor holds translations under the tag that was active when they were
  fetched, and gives them up only in a flush.  `pmap_asid_activate` finds out whether the
  tag of the pmap was last used by another one, or an invalidation of the pmap is pending;
  it takes note of either, and flushes in neither case.

  * `Dispatch`: the tags with the TLBs, each translation with the pmap it was fetched for.
  * `Dispatch.NeedsFlush`: an activation finds a conflict or a pending invalidation, and the
    tag was dispatched before.
  * `Dispatch.meets_clean`: in a run without such activations, every activation leaves under its
    tag only translations of the pmap, all fetched since its last invalidation.
-/
import PocketDarwin.Pmap.Sharing

namespace PocketDarwin.Pmap

/-- A translation in a TLB.  It is current if its pmap has been neither destroyed nor invalidated
    for the processor since it was fetched. -/
structure Translation where
  asid : ℕ
  pmap : ℕ
  current : Bool
deriving DecidableEq, Repr

def Translation.outdate (p : ℕ) (e : Translation) : Translation :=
  if e.pmap = p then { e with current := false } else e

/-- The tags, the live user pmaps, what each processor fetches at present, and the TLBs. -/
structure Dispatch where
  tags : Tags
  live : List ℕ
  active : ℕ → Option Translation
  tlb : ℕ → List Translation

/-- The calls, and the processors' own fetches. -/
inductive DispatchCall where
  /-- `pmap_asid_initialize`, with what the memory of the pmap has for a coherency vector -/
  | create (p : ℕ) (vector : ℕ → ℕ)
  | activate (p cpu : ℕ)
  | invalidateCpu (p cpu : ℕ)
  | invalidateAllCpus (p : ℕ)
  | destroy (p : ℕ)
  | fetch (cpu : ℕ)

namespace Dispatch

variable (realNcpus kernelPmap : ℕ)

def step (s : Dispatch) : DispatchCall → Dispatch
  | .create p vector =>
    { s with
      tags := pmapAsidInitialize p (s.tags.setPmap p { s.tags.pmaps p with coherencyVector := vector })
      live := p :: s.live }
  | .activate p cpu =>
    let tags := pmapAsidActivate p cpu s.tags
    { s with tags, active := Function.update s.active cpu (some ⟨(tags.cpus cpu).activeAsid, p, true⟩) }
  | .invalidateCpu p cpu =>
    { s with
      tags := pmapAsidInvalidateCpu p cpu s.tags
      tlb := Function.update s.tlb cpu ((s.tlb cpu).map (·.outdate p)) }
  | .invalidateAllCpus p =>
    { s with
      tags := pmapAsidInvalidateAllCpus realNcpus p s.tags
      tlb := fun cpu => (s.tlb cpu).map (·.outdate p) }
  | .destroy p =>
    { tags := pmapDestroyAsidSync p s.tags
      live := s.live.erase p
      active := fun cpu => (s.active cpu).map (·.outdate p)
      tlb := fun cpu => (s.tlb cpu).map (·.outdate p) }
  | .fetch cpu => { s with tlb := Function.update s.tlb cpu ((s.active cpu).toList ++ s.tlb cpu) }

/-- The pmap is the kernel's or live. -/
def Exists (s : Dispatch) (p : ℕ) : Prop := p = kernelPmap ∨ p ∈ s.live

instance (s : Dispatch) (p : ℕ) : Decidable (s.Exists kernelPmap p) := inferInstanceAs (Decidable (_ ∨ _))

/-- New pmaps are at addresses not in use; the others are called with pmaps that exist. -/
def Valid (s : Dispatch) : DispatchCall → Prop
  | .create p _ => p ≠ 0 ∧ p ≠ pmapInvalid ∧ p ≠ kernelPmap ∧ p ∉ s.live
  | .activate p cpu | .invalidateCpu p cpu => s.Exists kernelPmap p ∧ cpu < realNcpus
  | .invalidateAllCpus p => s.Exists kernelPmap p
  | .destroy p => p ∈ s.live
  | .fetch cpu => cpu < realNcpus

instance (s : Dispatch) (call : DispatchCall) : Decidable (s.Valid realNcpus kernelPmap call) := by
  cases call <;> unfold Valid <;> infer_instance

/-- All TLBs are empty, after the flush of `pmap_asid_configure`. -/
def start (pmaps : ℕ → PmapAsid) : Dispatch :=
  ⟨(Sharing.start kernelPmap pmaps).tags, [], fun _ => none, fun _ => []⟩

/-- Under the tag of the pmap, the TLB holds only its own translations, all of them current. -/
def Clean (s : Dispatch) (p cpu : ℕ) : Prop :=
  ∀ e ∈ s.tlb cpu, e.asid = (s.tags.pmaps p).asidCpus cpu → e.pmap = p ∧ e.current = true

instance (s : Dispatch) (p cpu : ℕ) : Decidable (s.Clean p cpu) := inferInstanceAs (Decidable (∀ e ∈ _, _))

/-- An activation leaves the TLB clean. -/
def Isolates (s : Dispatch) : DispatchCall → Prop
  | .activate p cpu => (s.step realNcpus (.activate p cpu)).Clean p cpu
  | _ => True

instance (s : Dispatch) (call : DispatchCall) : Decidable (s.Isolates realNcpus call) := by
  cases call <;> unfold Isolates <;> infer_instance

/-- The tag that the pmap gets, if it has none on the processor, was dispatched before, and last
    with another pmap, or the pmap has a pending invalidation. -/
def NeedsFlush (s : Dispatch) (p cpu : ℕ) : Prop :=
  let t := withAsid p cpu s.tags
  let lastPmap := (t.cpus cpu).lastPmapDispatched ((t.pmaps p).asidCpus cpu)
  lastPmap ≠ 0 ∧ (lastPmap ≠ p ∨ (t.pmaps p).coherencyVector cpu ≠ 0)

instance (s : Dispatch) (p cpu : ℕ) : Decidable (s.NeedsFlush p cpu) := inferInstanceAs (Decidable (_ ∧ _))

/-- No activation needs a flush. -/
def Settled (s : Dispatch) : DispatchCall → Prop
  | .activate p cpu => ¬ s.NeedsFlush p cpu
  | _ => True

instance (s : Dispatch) (call : DispatchCall) : Decidable (s.Settled call) := by
  cases call <;> unfold Settled <;> infer_instance

/-! ## The invariant -/

/-- The table of the last dispatched pmaps tells whose the translation is: a freed pmap's, or
    that of the pmap that has the tag, and then the coherency vector tells if it is current. -/
def Tracked (s : Dispatch) (cpu : ℕ) (e : Translation) : Prop :=
  (s.tags.cpus cpu).lastPmapDispatched e.asid = pmapInvalid ∨
    (s.tags.cpus cpu).lastPmapDispatched e.asid = e.pmap ∧ s.Exists kernelPmap e.pmap ∧
      (s.tags.pmaps e.pmap).asidCpus cpu = e.asid ∧ e.asid ≠ invalidAsid ∧
      (e.current = true ∨ (s.tags.pmaps e.pmap).coherencyVector cpu ≠ 0)

/-- What the runs keep. -/
structure Inv (s : Dispatch) : Prop where
  tlb : ∀ cpu, ∀ e ∈ s.tlb cpu, cpu < realNcpus ∧ s.Tracked kernelPmap cpu e
  active : ∀ cpu, ∀ e ∈ s.active cpu, cpu < realNcpus ∧ s.Tracked kernelPmap cpu e
  hint : ∀ cpu, (s.tags.cpus cpu).freeHint ≠ invalidAsid
  live : ∀ p ∈ s.live, p ≠ 0 ∧ p ≠ pmapInvalid ∧ p ≠ kernelPmap
  nodup : s.live.Nodup

end Dispatch

/-! ### The tags in an activation -/

theorem freeAsid_ne {c : CpuData} (h : c.freeHint ≠ invalidAsid) : freeAsid c ≠ invalidAsid := by
  unfold freeAsid
  split_ifs
  · exact h
  · obtain ⟨-, heq | ⟨-, hlt⟩⟩ := scanAsids_spec c.refcounts (maxAsid - minAsid) minAsid 0xFF 0xFFFFFFFE
    · rw [heq]
      decide
    · simp only [minAsid, maxAsid, invalidAsid] at hlt ⊢
      omega

/-- The first part of an activation gives the pmap a tag on the processor, and leaves the table of
    the last dispatched pmaps, the coherency vectors and all other tags alone. -/
theorem withAsid_spec (p cpu : ℕ) (t : Tags) (hhint : (t.cpus cpu).freeHint ≠ invalidAsid) :
    ((withAsid p cpu t).pmaps p).asidCpus cpu ≠ invalidAsid ∧
      ((t.pmaps p).asidCpus cpu ≠ invalidAsid → withAsid p cpu t = t) ∧
      (∀ i, ((withAsid p cpu t).cpus i).lastPmapDispatched = (t.cpus i).lastPmapDispatched) ∧
      (∀ i, (t.cpus i).freeHint ≠ invalidAsid → ((withAsid p cpu t).cpus i).freeHint ≠ invalidAsid) ∧
      (∀ q, ((withAsid p cpu t).pmaps q).coherencyVector = (t.pmaps q).coherencyVector) ∧
      ∀ q i, ¬ (q = p ∧ i = cpu) → ((withAsid p cpu t).pmaps q).asidCpus i = (t.pmaps q).asidCpus i := by
  by_cases h : (t.pmaps p).asidCpus cpu = invalidAsid
  · rw [withAsid_of_eq h]
    refine ⟨?_, fun hne => absurd h hne, fun i => ?_, fun i hi => ?_, fun q => ?_, fun q i hqi => ?_⟩
    · simp only [Tags.pmaps_setPmap, Function.update_self, allocate_fst]
      exact freeAsid_ne hhint
    · by_cases hi : i = cpu
      · subst hi
        simp [allocate_last]
      · simp [hi]
    · by_cases hic : i = cpu
      · subst hic
        rcases allocate_hint (t.cpus i) with heq | heq
        · simpa [heq] using show (0 : ℕ) ≠ invalidAsid by decide
        · simpa [heq] using hi
      · simpa [hic] using hi
    · by_cases hq : q = p
      · subst hq
        simp
      · simp [hq]
    · by_cases hq : q = p
      · subst hq
        have hi : i ≠ cpu := fun hi => hqi ⟨rfl, hi⟩
        simp [hi]
      · simp [hq]
  · rw [withAsid_of_ne h]
    exact ⟨h, fun _ => rfl, fun _ => rfl, fun _ hi => hi, fun _ => rfl, fun _ _ _ => rfl⟩

namespace Dispatch

section
variable {realNcpus kernelPmap : ℕ} {s s' : Dispatch}

/-! ### One call -/

theorem pmap_outdate (p : ℕ) (e : Translation) : (e.outdate p).pmap = e.pmap := by
  unfold Translation.outdate
  split_ifs <;> rfl

theorem asid_outdate (p : ℕ) (e : Translation) : (e.outdate p).asid = e.asid := by
  unfold Translation.outdate
  split_ifs <;> rfl

theorem outdate_of_ne {p : ℕ} {e : Translation} (h : e.pmap ≠ p) : e.outdate p = e := if_neg h

/-- Outdating the translations of `p` keeps track of all, if those of `p` are pending or of a
    freed pmap. -/
theorem Tracked.outdate {p cpu : ℕ} {e : Translation} (h : s.Tracked kernelPmap cpu e)
    (hp : (s.tags.cpus cpu).lastPmapDispatched e.asid = pmapInvalid ∨
      (e.pmap = p → (s.tags.pmaps p).coherencyVector cpu ≠ 0)) : s.Tracked kernelPmap cpu (e.outdate p) := by
  by_cases hep : e.pmap = p
  · rw [Tracked, asid_outdate, pmap_outdate]
    rcases h with hfreed | ⟨hlast, hex, hasid, hne, -⟩
    · exact .inl hfreed
    · rcases hp with hfreed | hvec
      · exact .inl hfreed
      · exact .inr ⟨hlast, hex, hasid, hne, .inr (by rw [hep]; exact hvec hep)⟩
  · rw [outdate_of_ne hep]
    exact h

theorem Inv.create (h : s.Inv realNcpus kernelPmap) {p : ℕ} {vector : ℕ → ℕ}
    (hv : s.Valid realNcpus kernelPmap (.create p vector)) :
    (s.step realNcpus (.create p vector)).Inv realNcpus kernelPmap := by
  have hother : ∀ q, q ≠ p → (s.step realNcpus (.create p vector)).tags.pmaps q = s.tags.pmaps q := by
    intro q hq
    simp [step, pmapAsidInitialize, hq]
  have htracked : ∀ cpu e, s.Tracked kernelPmap cpu e →
      (s.step realNcpus (.create p vector)).Tracked kernelPmap cpu e := by
    rintro cpu e (hfreed | ⟨hlast, hex, hrest⟩)
    · exact .inl hfreed
    · have hep : e.pmap ≠ p := by
        rcases hex with heq | hmem
        · exact heq.trans_ne (Ne.symm hv.2.2.1)
        · exact ne_of_mem_of_not_mem hmem hv.2.2.2
      refine .inr ⟨hlast, hex.imp_right (List.mem_cons_of_mem p), ?_⟩
      rw [hother e.pmap hep]
      exact hrest
  refine ⟨fun cpu e he => ?_, fun cpu e he => ?_, h.hint, ?_, List.nodup_cons.2 ⟨hv.2.2.2, h.nodup⟩⟩
  · exact ⟨(h.tlb cpu e he).1, htracked cpu e (h.tlb cpu e he).2⟩
  · exact ⟨(h.active cpu e he).1, htracked cpu e (h.active cpu e he).2⟩
  · intro q hq
    rcases List.mem_cons.1 hq with rfl | hq
    · exact ⟨hv.1, hv.2.1, hv.2.2.1⟩
    · exact h.live q hq

/-- A tag that was dispatched has a pmap in the table. -/
theorem Inv.last_ne (h : s.Inv realNcpus kernelPmap) (hk : kernelPmap ≠ 0) {cpu : ℕ} {e : Translation}
    (he : s.Tracked kernelPmap cpu e) : (s.tags.cpus cpu).lastPmapDispatched e.asid ≠ 0 := by
  rcases he with hfreed | ⟨hlast, rfl | hmem, -⟩
  · rw [hfreed]
    decide
  · rwa [hlast]
  · rw [hlast]
    exact (h.live _ hmem).1

theorem Inv.ne_invalid (h : s.Inv realNcpus kernelPmap) (hk : kernelPmap ≠ pmapInvalid) {p : ℕ}
    (hp : s.Exists kernelPmap p) : p ≠ pmapInvalid := by
  rcases hp with rfl | hmem
  · exact hk
  · exact (h.live p hmem).2.1

/-- **An activation that needs no flush** finds only current translations of the pmap under its
    tag. -/
theorem Inv.clean_of_settled (h : s.Inv realNcpus kernelPmap) (hk : kernelPmap ≠ 0 ∧ kernelPmap ≠ pmapInvalid)
    {p cpu : ℕ} (hp : s.Exists kernelPmap p) (hns : ¬ s.NeedsFlush p cpu) {e : Translation}
    (he : s.Tracked kernelPmap cpu e) (hasid : e.asid = ((withAsid p cpu s.tags).pmaps p).asidCpus cpu) :
    e.pmap = p ∧ (s.tags.pmaps p).coherencyVector cpu = 0 := by
  obtain ⟨-, -, hlast, -, hvec, -⟩ := withAsid_spec p cpu s.tags (h.hint cpu)
  have hne := h.last_ne hk.1 he
  simp only [NeedsFlush, hlast, hvec, ← hasid] at hns
  have hboth : (s.tags.cpus cpu).lastPmapDispatched e.asid = p ∧
      (s.tags.pmaps p).coherencyVector cpu = 0 := by
    by_contra hcon
    exact hns ⟨hne, by rwa [← not_and_or]⟩
  refine ⟨?_, hboth.2⟩
  rcases he with hfreed | ⟨hpmap, -⟩
  · exact absurd (hboth.1.symm.trans hfreed) (h.ne_invalid hk.2 hp)
  · exact hpmap.symm.trans hboth.1

theorem Inv.activate (h : s.Inv realNcpus kernelPmap) (hk : kernelPmap ≠ 0 ∧ kernelPmap ≠ pmapInvalid) {p cpu : ℕ}
    (hv : s.Valid realNcpus kernelPmap (.activate p cpu)) (hns : ¬ s.NeedsFlush p cpu) :
    (s.step realNcpus (.activate p cpu)).Inv realNcpus kernelPmap := by
  obtain ⟨hne, hsame, hlast, hhint, hvec, htags⟩ := withAsid_spec p cpu s.tags (h.hint cpu)
  have htracked : ∀ i e, s.Tracked kernelPmap i e →
      (s.step realNcpus (.activate p cpu)).Tracked kernelPmap i e := by
    intro i e he
    simp only [Tracked, step, activate_eq]
    by_cases hic : i = cpu
    · subst hic
      by_cases hasid : e.asid = ((withAsid p i s.tags).pmaps p).asidCpus i
      · -- the tag of the pmap: the translation is its own, and current
        obtain ⟨hpmap, hzero⟩ := h.clean_of_settled hk hv.1 hns he hasid
        rcases he with hfreed | ⟨-, hex, -, heinv, hcur⟩
        · have := h.ne_invalid hk.2 hv.1
          refine absurd ?_ hns
          simp only [NeedsFlush, hlast, ← hasid, hfreed]
          exact ⟨by decide, .inl (Ne.symm this)⟩
        · rw [hpmap, hzero] at hcur
          subst hpmap
          right
          simp [hasid] at hcur ⊢
          exact ⟨hex, hne, hcur⟩
      · -- another tag: the pmap has no translation under it
        rcases he with hfreed | ⟨hl, hex, heasid, heinv, hcur⟩
        · left
          simpa [hasid, hlast] using hfreed
        · have hep : e.pmap ≠ p := by
            rintro rfl
            rw [hsame (by rw [heasid]; exact heinv)] at hasid
            exact hasid heasid.symm
          right
          simp [hasid, hlast, hep, hvec, htags e.pmap i (fun hand => hep hand.1)]
          exact ⟨hl, hex, heasid, heinv, hcur⟩
    · -- another processor
      rcases he with hfreed | ⟨hl, hex, heasid, heinv, hcur⟩
      · left
        simpa [hic, hlast] using hfreed
      · right
        by_cases hep : e.pmap = p
        · subst hep
          simp [hic, hlast, hvec, htags e.pmap i (fun hand => hic hand.2)]
          exact ⟨hl, hex, heasid, heinv, hcur⟩
        · simp [hic, hlast, hep, hvec, htags e.pmap i (fun hand => hep hand.1)]
          exact ⟨hl, hex, heasid, heinv, hcur⟩
  refine ⟨fun i e he => ?_, fun i e he => ?_, fun i => ?_, h.live, h.nodup⟩
  · exact ⟨(h.tlb i e he).1, htracked i e (h.tlb i e he).2⟩
  · by_cases hic : i = cpu
    · subst hic
      obtain rfl : e = ⟨((withAsid p i s.tags).pmaps p).asidCpus i, p, true⟩ := by
        simpa [step, activate_eq, eq_comm] using he
      refine ⟨hv.2, .inr ?_⟩
      simp [step, activate_eq]
      exact ⟨hv.1, hne⟩
    · have he' : e ∈ s.active i := by simpa [step, hic] using he
      exact ⟨(h.active i e he').1, htracked i e (h.active i e he').2⟩
  · simp only [step, freeHint_activate]
    exact hhint i (h.hint i)

/-- An invalidation of `p` for the processors `P`, whose translations of `p` it outdates. -/
theorem Inv.invalidate (h : s.Inv realNcpus kernelPmap) (p : ℕ) (P : ℕ → Prop)
    (hcpus : s'.tags.cpus = s.tags.cpus) (hlive : s'.live = s.live) (hactive : s'.active = s.active)
    (hasids : ∀ q, (s'.tags.pmaps q).asidCpus = (s.tags.pmaps q).asidCpus)
    (hvec : ∀ q i, (s'.tags.pmaps q).coherencyVector i ≠ (s.tags.pmaps q).coherencyVector i →
      (s'.tags.pmaps q).coherencyVector i ≠ 0)
    (hp : ∀ i, P i → i < realNcpus → (s'.tags.pmaps p).coherencyVector i ≠ 0)
    (htlb : ∀ i, P i ∧ s'.tlb i = (s.tlb i).map (·.outdate p) ∨ s'.tlb i = s.tlb i) :
    s'.Inv realNcpus kernelPmap := by
  have htracked : ∀ i e, s.Tracked kernelPmap i e → s'.Tracked kernelPmap i e := by
    rintro i e (hfreed | ⟨hl, hex, heasid, heinv, hcur⟩)
    · left
      rwa [hcpus]
    · right
      refine ⟨by rwa
        [hcpus], by rwa [Exists, hlive], by rwa [hasids], heinv, hcur.imp_right fun hne => ?_⟩
      by_cases heq : (s'.tags.pmaps e.pmap).coherencyVector i = (s.tags.pmaps e.pmap).coherencyVector i
      · rwa [heq]
      · exact hvec e.pmap i heq
  refine ⟨fun i e he => ?_, fun i e he => ?_, fun i => ?_, ?_, ?_⟩
  · rcases htlb i with ⟨hPi, heq⟩ | heq
    · rw [heq] at he
      obtain ⟨e', he', rfl⟩ := List.mem_map.1 he
      have hlt := (h.tlb i e' he').1
      exact ⟨hlt, (htracked i e' (h.tlb i e' he').2).outdate (.inr fun _ => hp i hPi hlt)⟩
    · rw [heq] at he
      exact ⟨(h.tlb i e he).1, htracked i e (h.tlb i e he).2⟩
  · rw [hactive] at he
    exact ⟨(h.active i e he).1, htracked i e (h.active i e he).2⟩
  · rw [hcpus]
    exact h.hint i
  · rw [hlive]
    exact h.live
  · rw [hlive]
    exact h.nodup

theorem Inv.invalidateCpu (h : s.Inv realNcpus kernelPmap) (p cpu : ℕ) :
    (s.step realNcpus (.invalidateCpu p cpu)).Inv realNcpus kernelPmap := by
  refine h.invalidate p (· = cpu) rfl rfl rfl (fun q => ?_) (fun q i hne => ?_) (fun i hi _ => ?_)
    fun i => ?_
  · by_cases hq : q = p
    · subst hq
      simp [step, pmapAsidInvalidateCpu]
    · simp [step, pmapAsidInvalidateCpu, hq]
  · by_cases hq : q = p
    · subst hq
      by_cases hi : i = cpu
      · subst hi
        simp [step, pmapAsidInvalidateCpu]
      · simp [step, pmapAsidInvalidateCpu, hi] at hne
    · simp [step, pmapAsidInvalidateCpu, hq] at hne
  · subst hi
    simp [step, pmapAsidInvalidateCpu]
  · by_cases hi : i = cpu
    · subst hi
      exact .inl ⟨rfl, by simp [step]⟩
    · exact .inr (by simp [step, hi])

theorem Inv.invalidateAllCpus (h : s.Inv realNcpus kernelPmap) (p : ℕ) :
    (s.step realNcpus (.invalidateAllCpus p)).Inv realNcpus kernelPmap := by
  refine h.invalidate p (fun _ => True) rfl rfl rfl (fun q => ?_) (fun q i hne => ?_)
    (fun i _ hlt => ?_)
    fun i => .inl ⟨trivial, rfl⟩
  · by_cases hq : q = p
    · subst hq
      simp [step, pmapAsidInvalidateAllCpus]
    · simp [step, pmapAsidInvalidateAllCpus, hq]
  · by_cases hq : q = p
    · subst hq
      simp only [step, pmapAsidInvalidateAllCpus, Tags.pmaps_setPmap, Function.update_self] at hne ⊢
      split_ifs at hne ⊢ with hi
      · decide
      · exact absurd rfl hne
    · simp [step, pmapAsidInvalidateAllCpus, hq] at hne
  · have hcover : i < (realNcpus + 7) / 8 * 8 := by omega
    simp [step, pmapAsidInvalidateAllCpus, hcover]

theorem Inv.destroy (h : s.Inv realNcpus kernelPmap) (hn : realNcpus ≤ maxCpus) (p : ℕ) :
    (s.step realNcpus (.destroy p)).Inv realNcpus kernelPmap := by
  have hlast : ∀ i < maxCpus, ∀ a, ((pmapDestroyAsidSync p s.tags).cpus i).lastPmapDispatched a =
      if a = (s.tags.pmaps p).asidCpus i ∧ a ≠ invalidAsid ∧ (s.tags.cpus i).lastPmapDispatched a =
        p then pmapInvalid
      else (s.tags.cpus i).lastPmapDispatched a := by
    intro i hi a
    rw [cpus_destroy p s.tags hi, last_deallocate]
  have htracked : ∀ i e, i < realNcpus → s.Tracked kernelPmap i e →
      (s.step realNcpus (.destroy p)).Tracked kernelPmap i (e.outdate p) := by
    intro i e hi he
    have hi' : i < maxCpus := Nat.lt_of_lt_of_le hi hn
    by_cases hep : e.pmap = p
    · -- a translation of the pmap that ends: the table now has the marker
      left
      simp only [step, asid_outdate, hlast i hi']
      rcases he with hfreed | ⟨hl, -, heasid, heinv, -⟩
      · rw [hfreed]
        exact ite_self _
      · rw [if_pos ⟨by rw [← heasid, hep], heinv, hl.trans hep⟩]
    · rw [outdate_of_ne hep]
      rcases he with hfreed | ⟨hl, hex, heasid, heinv, hcur⟩
      · left
        simp only [step, hlast i hi', hfreed]
        exact ite_self _
      · right
        refine ⟨?_, ?_, ?_⟩
        · simp only [step, hlast i hi']
          rw [if_neg fun hand => hep (hl.symm.trans hand.2.2)]
          exact hl
        · rcases hex with heq | hmem
          · exact .inl heq
          · exact .inr ((List.mem_erase_of_ne hep).2 hmem)
        · simp only [step, pmaps_destroy]
          exact ⟨heasid, heinv, hcur⟩
  refine ⟨fun i e he => ?_, fun i e he => ?_, fun i => ?_, ?_, h.nodup.erase p⟩
  · obtain ⟨e', he', rfl⟩ := List.mem_map.1 he
    have hlt := (h.tlb i e' he').1
    exact ⟨hlt, htracked i e' hlt (h.tlb i e' he').2⟩
  · obtain ⟨e', he', rfl⟩ := Option.map_eq_some_iff.1 he
    have hlt := (h.active i e' he').1
    exact ⟨hlt, htracked i e' hlt (h.active i e' he').2⟩
  · simp only [step]
    exact hint_destroy p s.tags i (h.hint i)
  · exact fun q hq => h.live q (List.mem_of_mem_erase hq)

theorem Inv.fetch (h : s.Inv realNcpus kernelPmap) (cpu : ℕ) :
    (s.step realNcpus (.fetch cpu)).Inv realNcpus kernelPmap := by
  refine ⟨fun i e he => ?_, h.active, h.hint, h.live, h.nodup⟩
  by_cases hi : i = cpu
  · subst hi
    simp only [step, Function.update_self, List.mem_append, Option.mem_toList] at he
    rcases he with he | he
    · exact h.active i e he
    · exact h.tlb i e he
  · simp only [step, Function.update_of_ne hi] at he
    exact h.tlb i e he

theorem inv_start (pmaps : ℕ → PmapAsid) :
    (start kernelPmap pmaps).Inv realNcpus kernelPmap where
  tlb cpu e he := absurd he List.not_mem_nil
  active cpu e he := absurd he (Option.not_mem_none e)
  hint cpu := by
    rw [start, Sharing.freeHint_start]
    decide
  live p hp := absurd hp List.not_mem_nil
  nodup := List.nodup_nil

theorem inv_step (h : s.Inv realNcpus kernelPmap) (hn : realNcpus ≤ maxCpus)
    (hk : kernelPmap ≠ 0 ∧ kernelPmap ≠ pmapInvalid) {call : DispatchCall} (hv : s.Valid realNcpus kernelPmap call)
    (hc : s.Settled call) : (s.step realNcpus call).Inv realNcpus kernelPmap := by
  cases call with
  | create p vector => exact h.create hv
  | activate p cpu => exact h.activate hk hv hc
  | invalidateCpu p cpu => exact h.invalidateCpu p cpu
  | invalidateAllCpus p => exact h.invalidateAllCpus p
  | destroy p => exact h.destroy hn p
  | fetch cpu => exact h.fetch cpu

theorem Inv.isolates (h : s.Inv realNcpus kernelPmap) (hk : kernelPmap ≠ 0 ∧ kernelPmap ≠ pmapInvalid)
    {call : DispatchCall} (hv : s.Valid realNcpus kernelPmap call) (hc : s.Settled call) :
    s.Isolates realNcpus call := by
  cases call with
  | activate p cpu =>
    intro e he hasid
    have hte := (h.tlb cpu e he).2
    simp only [step, asidCpus_activate] at hasid
    obtain ⟨hpmap, hzero⟩ := h.clean_of_settled hk hv.1 hc hte hasid
    refine ⟨hpmap, ?_⟩
    have hactive := ((h.activate hk hv hc).tlb cpu e he).2
    rcases hactive with hfreed | ⟨-, -, -, -, hcur⟩
    · -- the table has the pmap itself now, which is not the marker
      simp only [step, activate_eq, Tags.cpus_setPmap, Tags.cpus_setCpu, Function.update_self,
        hasid] at hfreed
      exact absurd hfreed (h.ne_invalid hk.2 hv.1)
    · rw [hpmap] at hcur
      simpa [step, activate_eq] using hcur
  | create | invalidateCpu | invalidateAllCpus | destroy | fetch => trivial

end

/-! ## Runs -/

/-- **No stale translations**, in a run whose activations need no flush. -/
theorem meets_clean (realNcpus kernelPmap : ℕ) (pmaps : ℕ → PmapAsid) (log : List DispatchCall)
    (hn : realNcpus ≤ maxCpus) (hk : kernelPmap ≠ 0 ∧ kernelPmap ≠ pmapInvalid)
    (hvalid : Meets (step realNcpus) (Valid realNcpus kernelPmap) (start kernelPmap pmaps) log)
    (hsettled : Meets (step realNcpus) Settled (start kernelPmap pmaps) log) :
    Meets (step realNcpus) (Isolates realNcpus) (start kernelPmap pmaps) log := by
  refine Meets.of_invariant (I := Inv realNcpus kernelPmap)
    (A := fun s call => s.Valid realNcpus kernelPmap call ∧ s.Settled call) ?_ ?_ (inv_start pmaps)
    (hvalid.and hsettled)
  · exact fun s call h hc => inv_step h hn hk hc.1 hc.2
  · exact fun s call h hc => h.isolates hk hc.1 hc.2

/-- Two pmaps with a tag each. -/
theorem meets_clean_two :
    Meets (step 1) (Isolates 1) (start 4 fun _ => ⟨fun _ => 0, fun _ => 0, 0⟩)
      [.create 8 fun _ => 0, .create 16 fun _ => 0, .activate 8 0, .fetch 0, .activate 16 0] :=
  meets_clean 1 4 _ _ (by decide) (by decide) (by decide) (by decide +kernel)

/-- An invalidation that is pending when the pmap is activated again. -/
theorem not_meets_clean :
    Meets (step 1) (Valid 1 4) (start 4 fun _ => ⟨fun _ => 0, fun _ => 0, 0⟩)
        [.create 8 fun _ => 0, .activate 8 0, .fetch 0, .invalidateCpu 8 0, .activate 8 0] ∧
      ¬ Meets (step 1) (Isolates 1) (start 4 fun _ => ⟨fun _ => 0, fun _ => 0, 0⟩)
        [.create 8 fun _ => 0, .activate 8 0, .fetch 0, .invalidateCpu 8 0, .activate 8 0] :=
  ⟨by decide, by decide +kernel⟩

end Dispatch

end PocketDarwin.Pmap
