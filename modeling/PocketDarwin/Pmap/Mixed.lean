/-
  Managed pages and device memory in the same page tables.

  `pmap_enter_options` leaves for pages that are not managed before it has taken the old
  mapping off the list of its page, and `pmap_remove_range` leaves their entries alone.

  * `mixed_run`: as long as a mapping is not replaced by one of the other kind and no range
    with device memory is removed, no list names an address that maps something else, and
    what is removed is gone.
  * `stale_after_device`: otherwise, both go wrong.
-/
import PocketDarwin.Pmap.Effects

namespace PocketDarwin.Pmap

/-- The list of a page names an address: following the queue from the rooted entry, one comes to an entry for it. -/
def Pv.Names (pv : Pv) (p : Ppn) (m va : ℕ) : Prop :=
  pv.pmap (.rooted p) ≠ 0 ∧ ∃ r k, Seg pv.qlink.next (some (.rooted p)) k (some r) ∧ pv.pair r = (m, va)

/-- All that a list names maps the page. -/
def Current (c : Machine) (s : State) : Prop := ∀ p m va, s.pv.Names p m va →
  Valid ((s.view c).entry m va) ∧ paIndex ((s.view c).entry m va) = p

/-- If the call removes a range of addresses, nothing in it is mapped any more. -/
def Clears (c : Machine) (s' : State) : Call → Prop
  | .remove m sva eva => ∀ va, sva ≤ va → va < eva → ¬ Valid ((s'.view c).entry m va)
  | _ => True

/-- No device memory is mapped in a range of addresses that is to be removed. -/
def RemovesManaged (c : Machine) (s : State) : Call → Prop
  | .remove m sva eva => ∀ va ∈ pages sva eva, Valid ((s.view c).entry m va) → c.Managed (paIndex ((s.view c).entry m va))
  | _ => True

section
variable {c : Machine} {s s' : State} {call : Call} {log : List Call}

/-- The names on the list of a page are its mappings. -/
theorem Inv.mapped_of_names (h : Inv c s) {p : Ppn} {m va : ℕ} (hname : s.pv.Names p m va) :
    (s.view c).Mapped c p m va := by
  obtain ⟨names, ⟨L, hrep, hnames, -, -⟩, hagree⟩ := h.lists
  obtain ⟨hroot, r, k, hseg, hpair⟩ := hname
  have hring := hrep.ring p (hrep.ringed_of_named hroot)
  rw [← hagree.mem_iff, ← hnames, Pv.names_of_ne hroot, ← List.map_cons, ← hpair]
  exact List.mem_map_of_mem (hring.mem_iff_seg.2 ⟨k, hseg⟩)

theorem Inv.current (h : Inv c s) (hsound : (s.view c).Sound c) : Current c s := by
  intro p m va hname
  have hmapped := h.mapped_of_names hname
  exact ⟨hsound m va hmapped.2.1 hmapped.entry_ne_zero, hmapped.2.2⟩

theorem clears_of_effect (h : Inv c s') (ho : Orderly c s call) (hmanaged : RemovesManaged c s call)
    (heffect : (s.view c).Effect c call (s'.view c)) : Clears c s' call := by
  cases call with
  | remove m sva eva =>
    intro va hle hlt hvalid
    have hva := (State.exists_pte h.wf fun hzero => absurd (hzero ▸ hvalid) (by decide)).1
    have hmem : va ∈ pages sva eva := (mem_pages ho.start ho.stop).2 ⟨hva.1, hle, hlt⟩
    have hentry : (s'.view c).entry m va = ((s.view c).remove c m sva eva).entry m va :=
      congrArg (·.entry m va) heffect
    rw [hentry, View.entry_remove] at hvalid
    split_ifs at hvalid with hold
    · exact absurd hvalid (by decide)
    · exact hold ⟨⟨rfl, hmem⟩, hmanaged va hmem hvalid⟩
  | _ => trivial

/-- **Managed pages and device memory.**  In a run in which no mapping is replaced by one of the other kind, and no
    range with device memory is removed, the lists name nothing but the mappings of their pages, and `pmap_remove` leaves
    nothing mapped. -/
theorem mixed_run (hlog : Meets (step c) (fun r call => ∀ s, r = .ok s → Orderly c s call ∧ RemovesManaged c s call)
      (.ok (boot c)) log) :
    Always (step c) (fun r => ∀ s, r = .ok s → Current c s) (.ok (boot c)) log ∧
      Meets (step c) (fun r call => ∀ s s', r = .ok s → s.call c call = .ok s' → Clears c s' call) (.ok (boot c)) log := by
  let I : Except Stop State → Prop := fun r => ∀ s, r = .ok s → Inv c s ∧ (s.view c).Sound c
  have hboot : I (.ok (boot c)) := by
    intro s hs
    obtain rfl := Except.ok.inj hs
    exact ⟨inv_boot c, View.sound_boot c⟩
  have hstep : ∀ r call, I r → (∀ s, r = .ok s → Orderly c s call ∧ RemovesManaged c s call) →
      I (step c r call) := by
    intro r call hI hmeets s' hs'
    obtain ⟨s, rfl, hok⟩ := step_eq_ok.1 hs'
    obtain ⟨hinv, hsound⟩ := hI s rfl
    obtain ⟨hinv', heffect⟩ := call_ok hinv (hmeets s rfl).1 hok
    exact ⟨hinv', hsound.effect heffect⟩
  refine ⟨(Always.of_meets hstep hboot hlog).imp fun r hI s hs => (hI s hs).1.current (hI s hs).2, ?_⟩
  refine Meets.of_invariant hstep ?_ hboot hlog
  rintro r call hI hmeets s s' rfl hok
  obtain ⟨ho, hmanaged⟩ := hmeets s rfl
  obtain ⟨hinv', heffect⟩ := call_ok (hI s rfl).1 ho hok
  exact clears_of_effect hinv' ho hmanaged heffect

end

instance (c : Machine) (s : State) : ∀ call, Decidable (RemovesManaged c s call)
  | .remove m sva eva => inferInstanceAs (Decidable (∀ va ∈ pages sva eva, Valid ((s.view c).entry m va) →
      c.Managed (paIndex ((s.view c).entry m va))))
  | .create _ _ | .enter _ _ _ _ _ _ | .protect _ _ _ _ | .pageProtect _ _ | .disconnect _ | .changeWiring _ _ _ _
  | .setCacheAttributes _ _ | .setModify _ | .clearModify _ | .setReference _ | .clearReference _ | .clearRefmod _ _
  | .mappingAdjust | .mappingFreePrime => isTrue trivial

/-- Memory and a device side by side; the memory is removed. -/
theorem mixed_run_flat :
    Meets (step flat) (fun r call => ∀ s, r = .ok s → Orderly flat s call ∧ RemovesManaged flat s call) (.ok (boot flat))
      [.create 2 5, .enter 2 0x3000 7 vmProtAll false 6, .enter 2 0x4000 0x80000 vmProtRead false 8, .remove 2 0x3000 0x4000] ∧
    Always (step flat) (fun r => ∀ s, r = .ok s → Current flat s) (.ok (boot flat))
      [.create 2 5, .enter 2 0x3000 7 vmProtAll false 6, .enter 2 0x4000 0x80000 vmProtRead false 8,
        .remove 2 0x3000 0x4000] := by
  have hlog : Meets (step flat) (fun r call => ∀ s, r = .ok s → Orderly flat s call ∧
      RemovesManaged flat s call)
      (.ok (boot flat)) [.create 2 5, .enter 2 0x3000 7 vmProtAll false 6,
        .enter 2 0x4000 0x80000 vmProtRead false 8,
        .remove 2 0x3000 0x4000] := by decide +kernel
  exact ⟨hlog, (mixed_run hlog).1⟩

/-- A device replaces memory, which stays on its list; and it stays mapped when the address is removed. -/
theorem stale_after_device :
    (∃ s, run flat [.create 2 5, .enter 2 0x3000 7 vmProtAll false 6, .enter 2 0x3000 0x80000 vmProtRead false 8] = .ok s ∧
      s.pv.Names 7 2 0x3000 ∧ paIndex ((s.view flat).entry 2 0x3000) = 0x80000) ∧
    ∃ s, run flat [.create 2 5, .enter 2 0x3000 0x80000 vmProtRead false 6, .remove 2 0x3000 0x4000] = .ok s ∧
      Valid ((s.view flat).entry 2 0x3000) := by
  have hstale : ∃ s, run flat [.create 2 5, .enter 2 0x3000 7 vmProtAll false 6,
      .enter 2 0x3000 0x80000 vmProtRead false 8] = .ok s ∧ s.pv.pair (.rooted 7) = (2, 0x3000) ∧
        paIndex ((s.view flat).entry 2 0x3000) = 0x80000 := by decide +kernel
  refine ⟨?_, by decide +kernel⟩
  obtain ⟨s, hok, hpair, hpage⟩ := hstale
  have hroot : s.pv.pmap (.rooted 7) = 2 := congrArg Prod.fst hpair
  have hne : s.pv.pmap (.rooted 7) ≠ 0 := by
    rw [hroot]
    decide
  exact ⟨s, hok, ⟨hne, .rooted 7, [], rfl, hpair⟩, hpage⟩

end PocketDarwin.Pmap
