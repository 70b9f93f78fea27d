/-
  Physical-to-virtual lists and page tables, while only managed pages are mapped and none
  is wired.

  * `Listed`: the lists of a state, and what they are lists of; the mappings that the
    kernel had before `pmap_init` are on none.
  * `managed_call`: a call ends in a state of that kind again, or finds no entry for a
    mapping of the kernel.
  * `lists_run`: in every run, the lists are those of the page tables, no other panic is
    reached, and `pmap_page_protect` finds all mappings of a page.
-/
import PocketDarwin.Pmap.Effects

namespace PocketDarwin.Pmap

/-- Calls for managed pages, none of them to be wired, where the kernel has mapped nothing before `pmap_init`. -/
def ManagedCall (c : Machine) (s : State) : Call → Prop
  | .create m grab => m ≠ 0 ∧ ¬ s.tables.Live m ∧ s.tables.Grants c grab
  | .enter m va pa _ wired grab =>
    s.tables.Live m ∧ Aligned va ∧ Lookup c m va ∧ ¬ c.Boot m va ∧ c.Managed pa ∧ wired = false ∧ s.tables.Grants c grab
  | .remove m sva eva | .protect m sva eva _ => Range c s.tables m sva eva
  | .pageProtect _ _ | .mappingAdjust | .mappingFreePrime => True
  | _ => False

/-- Only managed pages have been entered, and none is wired. -/
structure View.Plain (c : Machine) (v : View) : Prop where
  sound : v.Sound c
  managed : ∀ m va, ¬ c.Boot m va → v.entry m va ≠ 0 → c.Managed (paIndex (v.entry m va))
  unwired : v.Unwired
  wiredCount : ∀ m, 0 ≤ (v.stats m).wiredCount

section
variable {c : Machine} {s : State} {v v' : View} {m va : ℕ} {p : Ppn} {prot : Prot} {call : Call}

/-- Addresses above the commpage are not looked up for user pmaps. -/
theorem Lookup.not_high (hl : Lookup c m va) : ¬ (commPageBase < va ∧ m ≠ c.kernelPmap) :=
  fun hand => (hl.resolve_left hand.2).not_gt hand.1

theorem not_valid_zero : ¬ Valid 0 := by decide

namespace View.Plain

theorem page_eq_zero_or_managed (h : v.Plain c) (hboot : ¬ c.Boot m va) :
    paIndex (v.entry m va) = 0 ∨ c.Managed (paIndex (v.entry m va)) := by
  by_cases hzero : v.entry m va = 0
  · rw [hzero, paIndex_zero]
    exact .inl rfl
  · exact .inr (h.managed m va hboot hzero)

/-- A mapping is one of a valid entry. -/
theorem mapped_iff (h : v.Plain c) (hp : c.Managed p) :
    v.Mapped c p m va ↔ ¬ c.Boot m va ∧ Valid (v.entry m va) ∧ paIndex (v.entry m va) = p := by
  constructor
  · exact fun hmapped => ⟨hmapped.2.1, h.sound m va hmapped.2.1 hmapped.entry_ne_zero, hmapped.2.2⟩
  · exact fun hand => ⟨hp, hand.1, hand.2.2⟩

/-- No page gets wired. -/
theorem staysUnwired (h : (s.view c).Plain c) (hcall : ManagedCall c s call) (heffect : (s.view c).Effect c call v') :
    v'.Unwired ∧ ∀ m, 0 ≤ (v'.stats m).wiredCount := by
  have hstays : (s.view c).StaysUnwired v' → v'.Unwired ∧ ∀ m, 0 ≤ (v'.stats m).wiredCount :=
    fun hstays => ⟨hstays.unwired, fun m => hstays.wiredCount m ▸ h.wiredCount m⟩
  cases call with
  | create m grab =>
    obtain rfl := heffect
    refine ⟨h.unwired.of_keeps (.mark_or (by decide)), fun m' => ?_⟩
    by_cases hm : m' = m
    · simp [hm]
    · simp only [Function.update_of_ne hm]
      exact h.wiredCount m'
  | enter m va pa prot wired grab =>
    obtain ⟨-, -, hl, -, -, rfl, -⟩ := hcall
    rw [View.Effect, if_neg hl.not_high] at heffect
    obtain ⟨grown, first, -, rfl⟩ := heffect
    exact hstays h.unwired.enter
  | remove m sva eva =>
    obtain rfl := heffect
    exact hstays h.unwired.remove
  | protect m sva eva prot =>
    rw [View.Effect] at heffect
    obtain rfl := heffect
    refine hstays ?_
    split_ifs
    · exact h.unwired.remove
    · exact h.unwired.protect
  | pageProtect pn prot =>
    rw [View.Effect] at heffect
    split_ifs at heffect
    · obtain ⟨l, -, rfl⟩ := heffect
      exact hstays h.unwired.pageProtect
    · exact heffect ▸ ⟨h.unwired, h.wiredCount⟩
  | mappingAdjust => exact heffect ▸ ⟨h.unwired, h.wiredCount⟩
  | mappingFreePrime => exact heffect ▸ ⟨h.unwired, h.wiredCount⟩
  | _ => exact hcall.elim

/-- What the calls do leaves a state of this kind. -/
theorem effect (h : (s.view c).Plain c) (hcall : ManagedCall c s call) (heffect : (s.view c).Effect c call v') :
    v'.Plain c := by
  obtain ⟨hunwired, hcount⟩ := h.staysUnwired hcall heffect
  refine ⟨h.sound.effect heffect, fun m va hboot hne => ?_, hunwired, hcount⟩
  rcases heffect.entry m va with heq | hzero | ⟨hold, hpage, -⟩ | ⟨pa, prot, wired, grab, rfl,
    hwritten⟩ |
    ⟨p, cacheattr, rfl, -⟩
  · rw [heq] at hne ⊢
    exact h.managed m va hboot hne
  · exact absurd hzero hne
  · rw [hpage]
    exact h.managed m va hboot hold
  · rw [hwritten, View.paIndex_template]
    exact hcall.2.2.2.2.1
  · exact hcall.elim

theorem orderly (h : (s.view c).Plain c) (hcall : ManagedCall c s call) : Orderly c s call := by
  cases call with
  | create m grab => exact hcall
  | enter m va pa prot wired grab =>
    obtain ⟨hm, hva, hl, hboot, hpa, rfl, hg⟩ := hcall
    refine ⟨hm, hva, hl.imp_right fun hlow => hlow.ne, hboot, hg, ?_, fun hwired => by simp at hwired⟩
    exact (h.page_eq_zero_or_managed hboot).imp_right fun hold => iff_of_true hold hpa
  | remove m sva eva => exact hcall
  | protect m sva eva prot => exact hcall
  | pageProtect pn prot => exact trivial
  | mappingAdjust => exact trivial
  | mappingFreePrime => exact trivial
  | _ => exact hcall.elim

/-- The only panic that is left is that of the kernel without an entry for a mapping. -/
theorem stops {e : Stop} (h : (s.view c).Plain c) (hstops : (s.view c).Stops c call e) :
    e = .exhaustion ∧ ∃ va pa prot wired grab, call = .enter c.kernelPmap va pa prot wired grab := by
  have hremove : ∀ m' sva eva, ¬ (((s.view c).remove c m' sva eva).stats m').wiredCount < 0 := by
    intro m' sva eva
    rw [h.unwired.remove.wiredCount]
    exact not_lt.2 (h.wiredCount m')
  cases call with
  | enter m va pa prot wired grab =>
    obtain ⟨rfl, rfl⟩ := hstops
    exact ⟨rfl, va, pa, prot, wired, grab, rfl⟩
  | remove m sva eva => exact absurd hstops.2 (hremove m sva eva)
  | protect m sva eva prot => exact absurd hstops.2.2 (hremove m sva eva)
  | _ => exact hstops.elim

end View.Plain

/-- **Calls for managed pages** have their effect, or find no entry for a mapping of the kernel. -/
theorem managed_call (h : Inv c s) (hplain : (s.view c).Plain c) (hcall : ManagedCall c s call) :
    (∃ s', s.call c call = .ok s' ∧ Inv c s' ∧ (s'.view c).Plain c ∧ (s.view c).Effect c call (s'.view c) ∧
      ∀ m, s'.tables.Live m ↔ s.tables.Live m ∨ call.Creates m) ∨
    s.call c call = .error .exhaustion ∧ ∃ va pa prot wired grab, call = .enter c.kernelPmap va pa prot wired grab := by
  rcases call_spec h (hplain.orderly hcall) with ⟨s', hok, hinv, heffect, hlive⟩ | ⟨e, herr, hstops⟩
  · exact .inl ⟨s', hok, hinv, hplain.effect hcall heffect, heffect, hlive⟩
  · obtain ⟨rfl, henter⟩ := hplain.stops hstops
    exact .inr ⟨herr, henter⟩

/-- The lists of a state: `L.queue p` is what is queued to the rooted entry of `p`, `L.chain i` the hash chain at `i`,
    and `L.free k` a free list.  Each address that maps a managed page is on the list of the page, once, if it was not
    mapped before `pmap_init`. -/
structure Listed (c : Machine) (s : State) (L : Lists) : Prop where
  alone : ∀ p, s.pv.pmap (.rooted p) = 0 → L.queue p = []
  ring : ∀ p, s.pv.pmap (.rooted p) ≠ 0 → Ring s.pv.qlink (.rooted p) (L.queue p)
  nodup : ∀ p, (s.pv.names L p).Nodup
  mem_names : ∀ p, c.Managed p → ∀ m va, (m, va) ∈ s.pv.names L p ↔
    ¬ c.Boot m va ∧ Valid ((s.view c).entry m va) ∧ paIndex ((s.view c).entry m va) = p
  ppn : ∀ p, ∀ r ∈ L.queue p, s.pv.ppn r = p
  chain : ∀ i, Seg s.pv.nexth (s.pv.hashTable i) (L.chain i) none
  mem_chain : ∀ i r, r ∈ L.chain i ↔ (∃ p, r ∈ L.queue p) ∧ i = pvhashidx c (s.pv.pmap r) (s.pv.va r)
  free : ∀ k, Seg s.pv.qlink.next (s.pv.free k) (L.free k) none
  freeCount : ∀ k, s.pv.freeCount k = (L.free k).length
  hashed : ∀ e < s.pv.zone, (∃! p, .hashed e ∈ L.queue p) ∧ (∀ k, .hashed e ∉ L.free k) ∨
    (∀ p, .hashed e ∉ L.queue p) ∧ ∃! k, .hashed e ∈ L.free k

/-- The invariant is about these lists. -/
theorem Inv.listed (h : Inv c s) (hplain : (s.view c).Plain c) : ∃ L, Listed c s L := by
  obtain ⟨names, ⟨L, hrep, hnames, hheld, hclosed⟩, hagree⟩ := h.lists
  refine ⟨L, hclosed, fun p hp => hrep.ring p (hrep.ringed_of_named hp), fun p => ?_,
    fun p hp m va => ?_, fun p r hr => ?_,
    hrep.chain, fun i r => ?_, hrep.free, hrep.freeCount, fun e he => ?_⟩
  · rw [hnames]
    exact hagree.nodup p
  · rw [hnames, hagree.mem_iff, hplain.mapped_iff hp]
  · exact (hrep.queued p r ((hrep.mem_queue p r).1 hr)).1
  · simp only [hrep.mem_chain, hrep.mem_queue, eq_comm]
  · have hbunch : L.place (.hashed e) ≠ .bunch := by
      have hnil : L.bunch = [] := by
        have hcount := hrep.count
        simpa [Bunch.empty, eq_comm] using hcount
      rw [ne_eq, ← hrep.mem_bunch, hnil]
      exact List.not_mem_nil
    have hroot : L.place (.hashed e) ≠ .root := fun hp => by simpa using (hrep.root _).1 hp
    have houtside : L.place (.hashed e) ≠ .outside := by
      intro hp
      obtain ⟨e', heq, hle⟩ := (hrep.outside _).1 hp
      obtain rfl := Ref.hashed.inj heq
      omega
    have hnot : L.place (.hashed e) ≠ .held := fun hp => (hheld _).1 hp
    simp only [hrep.mem_queue, hrep.mem_free]
    cases hplace : L.place (.hashed e) with
    | queued p => simp [ExistsUnique]
    | free k => simp [ExistsUnique]
    | root => exact absurd hplace hroot
    | bunch => exact absurd hplace hbunch
    | held => exact absurd hplace hnot
    | outside => exact absurd hplace houtside

/-- Nothing is wired, and only the kernel's own mappings are there, when `pmap_init` returns. -/
theorem plain_boot (c : Machine) : ((boot c).view c).Plain c where
  sound := View.sound_boot c
  managed := fun _ _ hboot hne => absurd hne hboot
  unwired := fun _ => BitVec.zero_and
  wiredCount := fun m => by
    simp only [State.stats_view, boot]
    split_ifs <;> simp

/-- The calls of a run are for managed pages. -/
def ManagedRun (c : Machine) (log : List Call) : Prop :=
  Meets (step c) (fun r call => ∀ s, r = .ok s → ManagedCall c s call) (.ok (boot c)) log

/-- `pmap_page_protect` finds all mappings of a page: it removes them, or takes the permission to write from them. -/
theorem pageProtect_reaches (h : Inv c s) (hplain : (s.view c).Plain c) (hp : c.Managed p) (hprot : prot ≠ vmProtAll) :
    ∃ s', s.call c (.pageProtect p prot) = .ok s' ∧ ∀ m va, ¬ c.Boot m va → paIndex ((s.view c).entry m va) = p →
      (s'.view c).entry m va =
        if View.removes prot ∨ m = c.kernelPmap then 0 else (s.view c).entry m va ||| l2AccessApx := by
  rcases managed_call h hplain (show ManagedCall c s (.pageProtect p prot) from trivial)
    with ⟨s', hok, -, -, heffect, -⟩ | ⟨-, henter⟩
  · rw [View.Effect, if_pos ⟨hp, hprot⟩] at heffect
    obtain ⟨l, hl, hview⟩ := heffect
    refine ⟨s', hok, fun m va hboot hpage => ?_⟩
    rw [hview, View.entry_pageProtect hl.1, if_pos ((hl.2 m va).2 ⟨hp, hboot, hpage⟩)]
  · simp at henter

/-- **Lists and page tables.**  After every run of calls for managed pages, the lists are those of the page tables and
    `pmap_page_protect` finds all mappings of a page, or the run has ended as there was no entry for a mapping of the
    kernel. -/
theorem lists_run {log : List Call} (hlog : ManagedRun c log) :
    (∃ s, run c log = .ok s ∧ (∃ L, Listed c s L) ∧ ∀ p prot, c.Managed p → prot ≠ vmProtAll →
      ∃ s', s.call c (.pageProtect p prot) = .ok s' ∧ ∀ m va, ¬ c.Boot m va → paIndex ((s.view c).entry m va) = p →
        (s'.view c).entry m va =
          if View.removes prot ∨ m = c.kernelPmap then 0 else (s.view c).entry m va ||| l2AccessApx) ∨
    run c log = .error .exhaustion := by
  have hrun : Always (step c) (fun r => (∃ s, r = .ok s ∧ Inv c s ∧ (s.view c).Plain c) ∨
      r = .error .exhaustion)
      (.ok (boot c)) log := by
    refine Always.of_meets ?_ (.inl ⟨_, rfl, inv_boot c, plain_boot c⟩) hlog
    rintro r call (⟨s, rfl, hinv, hplain⟩ | rfl) hcall
    · rcases managed_call hinv hplain (hcall s rfl) with ⟨s', hok, hinv', hplain', -⟩ | ⟨herr, -⟩
      · exact .inl ⟨s', hok, hinv', hplain'⟩
      · exact .inr herr
    · exact .inr rfl
  rcases hrun.last with ⟨s, hok, hinv, hplain⟩ | herr
  · exact .inl ⟨s, hok, hinv.listed hplain,
      fun p prot hp hprot => pageProtect_reaches hinv hplain hp hprot⟩
  · exact .inr herr

end

instance (c : Machine) (s : State) : ∀ call, Decidable (ManagedCall c s call)
  | .create _ _ | .enter _ _ _ _ _ _ => inferInstanceAs (Decidable (_ ∧ _))
  | .remove m sva eva | .protect m sva eva _ => inferInstanceAs (Decidable (Range c s.tables m sva eva))
  | .pageProtect _ _ | .mappingAdjust | .mappingFreePrime => isTrue trivial
  | .disconnect _ | .changeWiring _ _ _ _ | .setCacheAttributes _ _ | .setModify _ | .clearModify _ | .setReference _
  | .clearReference _ | .clearRefmod _ _ => isFalse id

instance (c : Machine) (log : List Call) : Decidable (ManagedRun c log) := Meets.decidable _ _ _ _

/-- A page that two pmaps map, until it is removed from one of them. -/
theorem lists_run_flat : ∃ s, run flat [.create 2 5, .create 3 6, .enter 2 0x3000 9 vmProtAll false 7,
    .enter 3 0x5000 9 vmProtRead false 8, .remove 2 0x3000 0x5000] = .ok s ∧ ∃ L, Listed flat s L := by
  have hlog : ManagedRun flat [.create 2 5, .create 3 6, .enter 2 0x3000 9 vmProtAll false 7,
    .enter 3 0x5000 9 vmProtRead false 8, .remove 2 0x3000 0x5000] := by decide +kernel
  have hend : (run flat [.create 2 5, .create 3 6, .enter 2 0x3000 9 vmProtAll false 7,
    .enter 3 0x5000 9 vmProtRead false 8, .remove 2 0x3000 0x5000]).map (fun _ => ()) = .ok () := by
      decide +kernel
  rcases lists_run hlog with ⟨s, hok, hlisted, -⟩ | herr
  · exact ⟨s, hok, hlisted⟩
  · rw [herr] at hend
    simp [Except.map] at hend

/-- A machine whose kernel maps a managed page before `pmap_init`, in a table at page 3. -/
def mirrored : Machine where
  kernelPmap := 4
  physBase := 0
  availStart := 0x4000
  availEnd := 0x100000000
  npvhash := 16
  bootL1 := fun i => if i = 0x800 then l1Descriptor 3 else 0
  bootL2 := fun b k => if b = l1PteAddr (l1Descriptor 3) ∧ k = 0 then ptoa 7 ||| l2AccessPrw ||| l2SmallPage else 0
  bootPages := [3]
  bootResident := 1
  bootWired := 0
  kernel_ne := by decide
  physBase_le := by decide
  boot_isPageTable := by
    intro i
    split_ifs <;> decide
  boot_not_isSection := by
    intro i
    split_ifs <;> decide
  boot_page := by
    intro i h
    split_ifs with hi
    · decide
    · rw [if_neg hi] at h
      exact absurd (by decide) h
  boot_inj := by
    intro i j h heq
    by_cases hi : i = 0x800
    · by_cases hj : j = 0x800
      · rw [hi, hj]
      · rw [if_pos hi, if_neg hj] at heq
        exact absurd heq (by decide)
    · rw [if_neg hi] at h
      exact absurd (by decide) h

/-- What the kernel has mapped before `pmap_init` is on no list, and `pmap_remove` panics there; so it does for a page
    that was entered at another address of the page. -/
theorem unlisted_mappings :
    (mirrored.Managed 7 ∧ Valid (((boot mirrored).view mirrored).entry 4 0x80000000) ∧
      paIndex (((boot mirrored).view mirrored).entry 4 0x80000000) = 7 ∧ (boot mirrored).pv.pmap (.rooted 7) = 0) ∧
    (run mirrored [.remove 4 0x80000000 0x80001000]).map (fun _ => ()) = .error .nullPvList ∧
    (run flat [.create 2 5, .enter 2 0x3001 7 vmProtAll false 6, .remove 2 0x3000 0x4000]).map (fun _ => ()) =
      .error .emptyHash := by
  decide +kernel

end PocketDarwin.Pmap
