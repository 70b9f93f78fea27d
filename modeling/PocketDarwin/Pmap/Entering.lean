/-
  `pmap_enter`, as its callers see it.

  The code makes place for the entry, takes the old mapping off the list of its page, puts
  the new one on the list of the new page, and writes the entry; if it finds no entry for
  the list it starts again with one in hand, and finds the old mapping gone.

  * `enterTables_spec`, `unmapOld_spec`, `enterNew_spec`: the parts.
  * `pmapEnter_spec`: entering a mapping where none of the other kind (managed or not)
    is replaced; it ends well or, for the kernel, in the exhaustion of the free lists.
-/
import PocketDarwin.Pmap.Ranges

namespace PocketDarwin.Pmap

/-- A page that `vm_page_grab` can give: it is in the table of all pages, and has not been given before. -/
def Tables.Grants (c : Machine) (t : Tables) (g : Ppn) : Prop :=
  g ≠ 0 ∧ c.physBase ≤ g.toNat * 0x1000 ∧ g.toNat * 0x1000 < c.availEnd ∧ g ∉ t.grabbed

instance (c : Machine) (t : Tables) (g : Ppn) : Decidable (t.Grants c g) := inferInstanceAs (Decidable (_ ∧ _))

section
variable {c : Machine} {s : State} {v : View} {m va : ℕ} {pa grab : Ppn} {prot : Prot} {wired : Bool} {loc : Block × ℕ}
  {names : Ppn → List (ℕ × ℕ)} {pvhE pvhNew : Option Ref}

theorem Tables.Grants.paiToPvh {t : Tables} (h : t.Grants c grab) : paiToPvh c grab = .ok (.rooted grab) :=
  if_pos ⟨h.2.1, h.2.2.1⟩

/-! ## The place of the entry -/

theorem enterTables_of_pte (hpte : pmapPte c s.tables m va = .ok (some loc)) :
    enterTables c m va grab s = .ok (loc, s) := by
  simp only [enterTables, hpte, Bind.bind, Except.bind]

/-- **The loop that makes place.** -/
theorem enterTables_spec (h : Inv c s) (hm : s.tables.Live m) (hl : Lookup c m va) (hg : s.tables.Grants c grab) :
    ∃ loc s', ∃ grown : Bool, enterTables c m va grab s = .ok (loc, s') ∧ Inv c s' ∧
      s'.view c = (if grown then (s.view c).mark grab (· ||| typeNoencrypt) else s.view c) ∧
      pmapPte c s'.tables m va = .ok (some loc) ∧ s'.tables.l1Size = s.tables.l1Size := by
  by_cases hpte : ∃ loc, pmapPte c s.tables m va = .ok (some loc)
  · obtain ⟨loc, hpte⟩ := hpte
    exact ⟨loc, s, false, enterTables_of_pte hpte, h, rfl, hpte, rfl⟩
  · have hnone : pmapPte c s.tables m va = .ok none := by
      have hwalk := h.wf.pmapPte hm hl
      split_ifs at hwalk
      · exact hwalk
      · exact absurd ⟨_, hwalk⟩ hpte
    obtain ⟨t, hexpand, hwf, hsize, -, hentry, loc, hloc⟩ := h.wf.pmapExpand hm hl hnone hg.1 hg.2.2.2
    have hlow : ¬ (m ≠ c.kernelPmap ∧ commPageBase ≤ va) := by
      rintro ⟨hk, hva⟩
      exact absurd (hl.resolve_left hk) (Nat.not_lt.2 hva)
    refine ⟨loc, { s with tables := t, flags := Function.update s.flags grab (s.flags grab ||| typeNoencrypt) }, true,
      ?_, ?_, ?_, hloc, hsize⟩
    · simp only [enterTables, hnone, Bind.bind, Except.bind, if_neg hlow, hexpand,
        physAttributeSet_eq hg.paiToPvh, hloc]
    · refine h.of_same_pages hwf rfl (fun _ => le_rfl) fun m' va' => ?_
      simp only [State.view, hentry]
    · simp only [State.view, hentry]
      rfl

/-! ## The page is mapped there -/

/-- `pmap_enter` of the page that is mapped there. -/
theorem enterSame_spec (prot : Prot) (hwf : s.tables.WF c) (hpte : pmapPte c s.tables m va = .ok (some loc)) (hva : Aligned va)
    (hpai : wired = true → paiToPvh c pa = .ok (.rooted pa)) :
    ∃ s', enterSame c m va pa prot wired loc s = .ok s' ∧ s'.view c = (s.view c).enterSame c m va pa prot wired ∧
      s'.pv = s.pv ∧ s'.tables = s.tables.set loc ((s.view c).template c m va pa prot) := by
  have hview : ∀ s₁ : State, s₁.tables = s.tables →
      (s₁.set loc (template c m va pa prot s)).view c = (s₁.view c).set m va
        (template c m va pa prot s) := by
    intro s₁ hs₁
    exact State.view_set (hs₁ ▸ hwf) (hs₁ ▸ hpte) hva
  cases wired with
  | false => exact ⟨_, rfl, hview s rfl, rfl, rfl⟩
  | true =>
    have hpai := hpai rfl
    unfold enterSame
    rw [physAttributeTest_eq hpai, physAttributeSet_eq hpai]
    by_cases hflag : s.flags pa &&& typeWired = 0
    · have hsame : (s.view c).enterSame c m va pa prot true = _ := if_pos hflag
      simp only [Bind.bind, Except.bind, if_true, if_pos hflag, hsame]
      exact ⟨_, rfl, hview _ rfl, rfl, rfl⟩
    · have hsame : (s.view c).enterSame c m va pa prot true = _ := if_neg hflag
      simp only [Bind.bind, Except.bind, if_true, if_neg hflag, hsame]
      exact ⟨_, rfl, hview _ rfl, rfl, rfl⟩

/-! ## The old mapping -/

/-- A state in which no managed page is mapped where one is to be entered, and an entry may be in hand. -/
structure Cleared (c : Machine) (m va : ℕ) (pvhE pvhNew : Option Ref) (s : State) : Prop where
  wf : s.tables.WF c
  lists : ∃ names, s.pv.Holds c .empty names (fun r => pvhE = some r ∨ pvhNew = some r) ∧ Agrees c (s.view c) names
  counted : ∀ m', 0 ≤ (s.view c).excess c m'
  one : pvhE = none ∨ pvhNew = none
  clear : ¬ c.Managed (paIndex ((s.view c).entry m va))

theorem Inv.cleared (h : Inv c s) (hclear : ¬ c.Managed (paIndex ((s.view c).entry m va))) :
    Cleared c m va none none s := by
  obtain ⟨names, hholds, hagree⟩ := h.lists
  exact ⟨h.wf, ⟨names, by simpa using hholds, hagree⟩, h.counted, .inl rfl, hclear⟩

theorem View.entry_unmapOld : (v.unmapOld m pa).entry = v.entry := by
  simp only [View.unmapOld]
  split_ifs <;> rfl

theorem View.residentCount_unmapOld (m' : ℕ) : ((v.unmapOld m pa).stats m').residentCount =
    (v.stats m').residentCount - if m' = m then 1 else 0 := by
  by_cases hm : m' = m
  · subst hm
    simp only [View.unmapOld]
    split_ifs <;> simp [View.count, View.mark]
  · simp only [View.unmapOld]
    split_ifs <;> simp [View.count, View.mark, Function.update_of_ne hm]

/-- **The old mapping** is taken off the list of its page. -/
theorem unmapOld_spec (h : Inv c s) (hpte : pmapPte c s.tables m va = .ok (some loc)) (hva : Aligned va)
    (hold : (s.view c).Resident c m va) (hpa : c.Managed pa) :
    ∃ o s', unmapOld c m va pa ((s.view c).entry m va) (s.set loc 0) = .ok (o, s') ∧ Cleared c m va o none s' ∧
      s'.view c = ((s.view c).set m va 0).unmapOld m pa ∧ s'.tables = s.tables.set loc 0 := by
  have hexcess : ∀ m', (((s.view c).set m va 0).unmapOld m pa).excess c m' = (s.view c).excess c m' :=
    View.excess_of_removed hva hold View.entry_unmapOld View.residentCount_unmapOld
  obtain ⟨hp, hboot⟩ := hold
  have hset : (s.set loc 0).view c = (s.view c).set m va 0 := State.view_set h.wf hpte hva
  have hpai := paiToPvh_of_managed hpa
  obtain ⟨names, hholds, hagree⟩ := h.lists
  generalize hpp : paIndex ((s.view c).entry m va) = p at hp
  have hmapped : (s.view c).Mapped c p m va := ⟨hp, hboot, hpp⟩
  have hmem := (hagree.mem_iff p m va).2 hmapped
  obtain ⟨o, pv', hrem, hholds'⟩ := hholds.pmapPvRemove hp hmem (hagree.nodup p)
  have hroot : ¬ s.pv.pmap (.rooted p) = 0 := by
    rw [hholds.root_eq_zero_iff]
    intro hnil
    rw [hnil] at hmem
    simp at hmem
  have hcleared : ∀ s' : State, s'.pv = pv' → s'.tables = s.tables.set loc 0 →
      s'.view c = ((s.view c).set m va 0).unmapOld m pa → Cleared c m va o none s' := by
    intro s' hpv htables hview
    have hentry : (s'.view c).entry = ((s.view c).set m va 0).entry := by
      rw [hview, View.entry_unmapOld]
    refine ⟨htables ▸ h.wf.set, ⟨_, ?_,
      (hagree.remove hmapped View.not_managed_zero).of_entry hentry⟩, ?_, .inr rfl, ?_⟩
    · rw [hpv]
      simpa using hholds'
    · intro m'
      rw [hview, hexcess]
      exact h.counted m'
    · rw [hentry, View.entry_set, if_pos ⟨rfl, rfl⟩]
      exact View.not_managed_zero
  unfold unmapOld
  simp only [hpp, physAttributeTest_eq hpai, physAttributeClear_eq hpai, paiToPvh_of_managed hp,
    Bind.bind, Except.bind]
  by_cases hwired : s.flags pa &&& typeWired ≠ 0
  · have hview : ((s.view c).set m va 0).unmapOld m pa = _ := if_pos hwired
    rw [← hset] at hview
    simp only [State.count, State.set, if_pos hwired, if_neg hroot, hrem]
    exact ⟨o, _, rfl, hcleared _ rfl rfl (hset ▸ hview.symm), hset ▸ hview.symm, rfl⟩
  · have hview : ((s.view c).set m va 0).unmapOld m pa = _ := if_neg hwired
    rw [← hset] at hview
    simp only [State.count, State.set, if_neg hwired, if_neg hroot, hrem]
    exact ⟨o, _, rfl, hcleared _ rfl rfl (hset ▸ hview.symm), hset ▸ hview.symm, rfl⟩

/-! ## The new mapping -/

@[simp] theorem State.view_free (k : FreeList) (o : Option Ref) : (s.free k o).view c = s.view c := by cases o <;> rfl

@[simp] theorem State.tables_free (k : FreeList) (o : Option Ref) : (s.free k o).tables = s.tables := by cases o <;> rfl

/-- What was in hand is freed. -/
theorem free_spec (h : s.pv.Holds c .empty names fun r => pvhE = some r ∨ pvhNew = some r)
    (hone : pvhE = none ∨ pvhNew = none) :
    ((s.free .user pvhE).free .kern pvhNew).pv.Holds c .empty names fun _ => False := by
  cases pvhE with
  | none =>
    cases pvhNew with
    | none => simpa [State.free] using h
    | some e =>
      have := h.freeOne (e := e) (.inr rfl) .kern
      simpa [State.free, eq_comm] using this
  | some e =>
    obtain rfl : pvhNew = none := hone.resolve_left (by simp)
    have := h.freeOne (e := e) (.inl rfl) .user
    simpa [State.free, eq_comm] using this

/-- The entry for the list of the page. -/
theorem takeEntry_spec {pv : Pv} (h : pv.Holds c .empty names fun r => pvhE = some r ∨ pvhNew = some r)
    (hone : pvhE = none ∨ pvhNew = none) :
    (∃ e pv', takeEntry c m pvhE pvhNew pv = some (some e, none, pv') ∧
      pv'.Holds c .empty names fun r => some e = some r) ∨
    (pvhE = none ∧ pvhNew = none) ∧
      (m ≠ c.kernelPmap ∧ takeEntry c m pvhE pvhNew pv = none ∨
        m = c.kernelPmap ∧ ∃ pv', takeEntry c m pvhE pvhNew pv = some (none, none, pv')) := by
  cases pvhE with
  | some e =>
    obtain rfl : pvhNew = none := hone.resolve_left (by simp)
    exact .inl ⟨e, pv, rfl, by simpa using h⟩
  | none =>
    cases pvhNew with
    | some e => exact .inl ⟨e, pv, rfl, by simpa using h⟩
    | none =>
      have hnone : pv.Holds c .empty names fun _ => False := by simpa using h
      have halloc : ∀ k, (∃ e pv', pv.alloc k = (some e, pv') ∧ pv'.Holds c .empty names fun r =>
          some e = some r) ∨
          pv.alloc k = (none, pv) := by
        intro k
        obtain ⟨pv', hpv', hholds⟩ := hnone.alloc k
        cases hfree : pv.free k with
        | none => exact .inr (by simp [Pv.alloc, hfree])
        | some e =>
          have hsome : (pv.alloc k).1 = some e := by simp [Pv.alloc, hfree]
          refine .inl ⟨e, pv', Prod.ext hsome hpv', ?_⟩
          simpa [hsome] using hholds
      rcases halloc .user with ⟨e, pv', hok, hholds⟩ | hfail
      · exact .inl ⟨e, pv', by simp [takeEntry, hok], hholds⟩
      · by_cases hk : m = c.kernelPmap
        · rcases halloc .kern with ⟨e, pv', hok, hholds⟩ | hfail'
          · exact .inl ⟨e, pv', by simp [takeEntry, hfail, hk, hok], hholds⟩
          · exact .inr ⟨⟨rfl, rfl⟩, .inr ⟨hk, pv, by simp [takeEntry, hfail, hk, hfail']⟩⟩
        · exact .inr ⟨⟨rfl, rfl⟩, .inl ⟨hk, by simp [takeEntry, hfail, hk]⟩⟩

/-- **Step 2**: the mapping is put on the list of its page. -/
theorem enterPv_spec (va : ℕ) (wired : Bool) (h : s.pv.Holds c .empty names fun r => pvhE = some r ∨ pvhNew = some r)
    (hone : pvhE = none ∨ pvhNew = none) (hpa : c.Managed pa) (hm : m ≠ 0) :
    (∃ pvhE' pvhNew' pv' l, enterPv c m va pa wired pvhE pvhNew s = .ok (.entered pvhE' pvhNew'
        { s with
          pv := pv'
          flags := if wired && decide (names pa = []) then Function.update s.flags pa (s.flags pa ||| typeWired)
            else s.flags }) ∧
      pv'.Holds c .empty (Function.update names pa l) (fun r => pvhE' = some r ∨ pvhNew' = some r) ∧
      (pvhE' = none ∨ pvhNew' = none) ∧ l.Perm ((m, va) :: names pa)) ∨
    (pvhE = none ∧ pvhNew = none) ∧ names pa ≠ [] ∧
      (m ≠ c.kernelPmap ∧ enterPv c m va pa wired pvhE pvhNew s = .ok (.retry s) ∨
        m = c.kernelPmap ∧ enterPv c m va pa wired pvhE pvhNew s = .error .exhaustion) := by
  have hpai := paiToPvh_of_managed hpa
  unfold enterPv
  simp only [hpai, physAttributeSet_eq hpai, Bind.bind, Except.bind]
  by_cases hroot : s.pv.pmap (.rooted pa) = 0
  · have hnil := h.root_eq_zero_iff.1 hroot
    refine .inl ⟨pvhE, pvhNew, _, _, ?_, h.enterRoot hnil hm, hone, by rw [hnil]⟩
    rw [if_pos hroot]
    cases wired <;> simp [hnil]
  · have hne : names pa ≠ [] := fun hnil => hroot (h.root_eq_zero_iff.2 hnil)
    obtain ⟨x, l, hl⟩ := List.exists_cons_of_ne_nil hne
    rw [if_neg hroot]
    rcases takeEntry_spec (m := m) h hone with ⟨e, pv', htake, hholds⟩ | ⟨hnone, hstop⟩
    · obtain ⟨pv₁, hadd, hholds₁⟩ := hholds.enterQueued va hl hm rfl
      refine .inl ⟨none, none, pv₁, x :: (m, va) :: l, ?_, ?_, .inl rfl, ?_⟩
      · simp only [htake, hadd, hne]
        cases wired <;> rfl
      · simpa [eq_comm] using hholds₁
      · rw [hl]
        exact .swap _ _ _
    · refine .inr ⟨hnone, hne, hstop.imp ?_ ?_⟩
      · rintro ⟨hk, htake⟩
        exact ⟨hk, by rw [htake]⟩
      · rintro ⟨hk, pv', htake⟩
        exact ⟨hk, by rw [htake]⟩

theorem View.isMemoryType_cacheAttributes (v : View) (c : Machine) (p : Ppn) : IsMemoryType (v.cacheAttributes c p) := by
  rw [View.cacheAttributes]
  split_ifs
  · exact isMemoryType_zero
  · exact isMemoryType_writeThrough
  · exact isMemoryType_zero

theorem View.paIndex_template : paIndex (v.template c m va pa prot) = pa :=
  paIndex_templatePte (v.isMemoryType_cacheAttributes c pa)

theorem View.entry_enterPte (c : Machine) (v : View) (m va : ℕ) (pa : Ppn) (prot : Prot) (wired : Bool) :
    ∃ w, paIndex w = pa ∧ (v.enterPte c m va pa prot wired).entry = (v.set m va w).entry := by
  cases wired <;> exact ⟨_, View.paIndex_template, rfl⟩

theorem View.residentCount_enterPte (m' : ℕ) : ((v.enterPte c m va pa prot wired).stats m').residentCount =
    (v.stats m').residentCount + if m' = m then 1 else 0 := by
  by_cases hm : m' = m
  · subst hm
    cases wired <;> simp [View.enterPte, View.count]
  · cases wired <;> simp [View.enterPte, View.count, hm]

@[simp] theorem pv_enterPte : (enterPte c m va pa prot wired loc s).pv = s.pv := by cases wired <;> rfl

theorem tables_enterPte (c : Machine) (m va : ℕ) (pa : Ppn) (prot : Prot) (wired : Bool) (loc : Block × ℕ) (s : State) :
    ∃ w, (enterPte c m va pa prot wired loc s).tables = s.tables.set loc w := by
  cases wired <;> exact ⟨_, rfl⟩

/-- `EnterPte`, as the callers see it. -/
theorem view_enterPte (pa : Ppn) (prot : Prot) (wired : Bool) (hwf : s.tables.WF c)
    (hpte : pmapPte c s.tables m va = .ok (some loc)) (hva : Aligned va) :
    (enterPte c m va pa prot wired loc s).view c = (s.view c).enterPte c m va pa prot wired := by
  have hview : ∀ (s₁ : State) (w : Word), s₁.tables = s.tables →
      (s₁.set loc w).view c = (s₁.view c).set m va w := by
    intro s₁ w hs₁
    exact State.view_set (hs₁ ▸ hwf) (hs₁ ▸ hpte) hva
  cases wired <;> exact hview _ _ rfl

/-- One mapping more, and one more counted. -/
theorem View.excess_enterPte (hva : Aligned va) (hclear : ¬ v.Resident c m va) (hboot : ¬ c.Boot m va) (hpa : c.Managed pa)
    (m' : ℕ) : (v.enterPte c m va pa prot wired).excess c m' = v.excess c m' := by
  obtain ⟨w, rfl, hentry⟩ := v.entry_enterPte c m va pa prot wired
  exact View.excess_of_added hva hclear hpa hboot hentry View.residentCount_enterPte m'

/-- **A new mapping** of a managed page: it is on the list and counted, or there was no entry for the list. -/
theorem enterNew_spec (prot : Prot) (wired : Bool) (h : Cleared c m va pvhE pvhNew s) (hpte : pmapPte c s.tables m va = .ok (some loc))
    (hva : Aligned va) (hboot : ¬ c.Boot m va) (hpa : c.Managed pa) (hm : m ≠ 0) :
    (∃ s', ∃ first : Bool, enterNew c m va pa prot wired loc pvhE pvhNew s = .ok (true, s') ∧ Inv c s' ∧
      s'.view c = View.enterPte c m va pa prot wired
        (if wired && first then (s.view c).mark pa (· ||| typeWired) else s.view c) ∧
      (first = true ↔ ∀ m' va', ¬ (s.view c).Mapped c pa m' va') ∧ s.tables.Same s'.tables) ∨
    (pvhE = none ∧ pvhNew = none) ∧ (∃ m' va', (s.view c).Mapped c pa m' va') ∧
      (m ≠ c.kernelPmap ∧ enterNew c m va pa prot wired loc pvhE pvhNew s = .ok (false, s) ∨
        m = c.kernelPmap ∧ enterNew c m va pa prot wired loc pvhE pvhNew s = .error .exhaustion) := by
  obtain ⟨hwf, ⟨names, hholds, hagree⟩, hres, hone, hclear⟩ := h
  have hnil : names pa = [] ↔ ∀ m' va', ¬ (s.view c).Mapped c pa m' va' := by
    simp only [List.eq_nil_iff_forall_not_mem, Prod.forall, hagree.mem_iff]
  rcases enterPv_spec va wired hholds hone hpa hm with
    ⟨pvhE', pvhNew', pv', l, hok, hholds', hone', hperm⟩ | ⟨hnone, hne, hstop⟩
  · left
    let s₁ : State := { s with
      pv := pv'
      flags := if wired && decide (names pa = []) then Function.update s.flags pa
        (s.flags pa ||| typeWired)
        else s.flags }
    have hview₁ : s₁.view c =
        if wired && decide (names pa = []) then (s.view c).mark pa (· ||| typeWired) else s.view c := by
      split_ifs with hmark
      · exact View.ext rfl (if_pos hmark) rfl
      · exact View.ext rfl (if_neg hmark) rfl
    have hview : (enterPte c m va pa prot wired loc s₁).view c = (s₁.view c).enterPte c m va pa prot
        wired :=
      view_enterPte pa prot wired hwf hpte hva
    obtain ⟨w, hw, hentry⟩ := (s₁.view c).entry_enterPte c m va pa prot wired
    obtain ⟨w', htables⟩ := tables_enterPte c m va pa prot wired loc s₁
    have hclear₁ : ¬ (s₁.view c).Resident c m va := fun hresident => hclear hresident.1
    have hexcess₁ : ∀ m', (s₁.view c).excess c m' = (s.view c).excess c m' :=
      fun m' => View.excess_of_entry rfl rfl
    have hholds₁ : (enterPte c m va pa prot wired loc s₁).pv.Holds c .empty (Function.update names pa l)
        fun r => pvhE' = some r ∨ pvhNew' = some r := by rwa [pv_enterPte]
    refine ⟨((enterPte c m va pa prot wired loc s₁).free .user pvhE').free .kern pvhNew',
      decide (names pa = []),
      ?_, ⟨?_, ⟨_, free_spec hholds₁ hone', ?_⟩, ?_⟩, ?_, by rw [decide_eq_true_iff, hnil], ?_⟩
    · simp only [enterNew, hok, Bind.bind, Except.bind]
      rfl
    · rw [State.tables_free, State.tables_free, htables]
      exact hwf.set
    · subst hw
      have hadd := hagree.add hclear hpa hboot hperm
      rw [State.view_free, State.view_free, hview]
      exact hadd.of_entry hentry
    · intro m'
      rw [State.view_free, State.view_free, hview, View.excess_enterPte hva hclear₁ hboot hpa, hexcess₁]
      exact hres m'
    · rw [State.view_free, State.view_free, hview, hview₁]
    · rw [State.tables_free, State.tables_free, htables]
      exact .set loc w'
  · right
    refine ⟨hnone, ?_, hstop.imp ?_ ?_⟩
    · by_contra hnot
      exact hne (hnil.2 fun m' va' hmapped => hnot ⟨m', va', hmapped⟩)
    · rintro ⟨hk, hretry⟩
      exact ⟨hk, by simp only [enterNew, hretry, Bind.bind, Except.bind]⟩
    · rintro ⟨hk, hstop⟩
      exact ⟨hk, by simp only [enterNew, hstop, Bind.bind, Except.bind]⟩

/-! ## The whole call -/

/-- The state in which the code starts again: the old mapping is gone. -/
def View.beforeRetry (m va : ℕ) (pa : Ppn) (v : View) : View :=
  if paIndex (v.entry m va) ≠ 0 then (v.set m va 0).unmapOld m pa else v

theorem View.enterOther_of_managed (first : Bool) (hpa : c.Managed pa) : v.enterOther c m va pa prot wired first =
    View.enterPte c m va pa prot wired
      (if wired && first then (v.beforeRetry m va pa).mark pa (· ||| typeWired) else v.beforeRetry m va pa) := by
  rw [View.enterOther, if_neg (not_not.2 hpa), View.beforeRetry]
  by_cases hold : paIndex (v.entry m va) ≠ 0
  · simp only [if_pos hold]
  · simp only [if_neg hold]

theorem View.residentCount_enterSame (m' : ℕ) : ((v.enterSame c m va pa prot wired).stats m').residentCount =
    (v.stats m').residentCount := by
  simp only [View.enterSame]
  by_cases hm : m' = m
  · subst hm
    split_ifs <;> simp [View.count, View.mark]
  · split_ifs <;> simp [View.count, View.mark, hm]

section
variable (hpte : pmapPte c s.tables m va = .ok (some loc)) (hva : Aligned va)
include hpte hva

/-- A managed page is to be entered where nothing is mapped. -/
theorem enterOnce_of_clear (hpa : c.Managed pa) (hzero : paIndex ((s.view c).entry m va) = 0) :
    enterOnce c m va pa prot wired loc pvhNew s = enterNew c m va pa prot wired loc none pvhNew s := by
  have hold : ¬ (s.view c).entry m va &&& l2AddrMask = ptoa pa := by
    rw [and_l2AddrMask_eq_ptoa, hzero]
    exact hpa.ne_zero.symm
  have hmask : ¬ (s.view c).entry m va &&& l2AddrMask ≠ 0 := not_not.2 (and_l2AddrMask_eq_zero.2 hzero)
  simp only [enterOnce, State.get_eq hpte hva, if_neg hold, if_neg (not_not.2 hpa), if_neg hmask,
    Bind.bind, Except.bind]

/-- A managed page is to be entered where another one, or none, is mapped: the old mapping goes. -/
theorem enterOnce_of_managed (prot : Prot) (wired : Bool) (h : Inv c s) (hboot : ¬ c.Boot m va) (hpa : c.Managed pa)
    (hne : paIndex ((s.view c).entry m va) ≠ pa)
    (hkind : paIndex ((s.view c).entry m va) = 0 ∨ c.Managed (paIndex ((s.view c).entry m va))) :
    ∃ o s', enterOnce c m va pa prot wired loc none s = enterNew c m va pa prot wired loc o none s' ∧
      Cleared c m va o none s' ∧ s'.view c = (s.view c).beforeRetry m va pa ∧ s.tables.Same s'.tables := by
  by_cases hzero : paIndex ((s.view c).entry m va) = 0
  · have hclear : ¬ c.Managed (paIndex ((s.view c).entry m va)) := fun hp => hp.ne_zero hzero
    refine ⟨none, s, enterOnce_of_clear hpte hva hpa hzero, h.cleared hclear, ?_, .refl _⟩
    rw [View.beforeRetry, if_neg (not_not.2 hzero)]
  · have hmask : (s.view c).entry m va &&& l2AddrMask ≠ 0 := by rwa [ne_eq, and_l2AddrMask_eq_zero]
    obtain ⟨o, s', hunmap, hcleared, hview, htables⟩ :=
      unmapOld_spec h hpte hva ⟨hkind.resolve_left hzero, hboot⟩ hpa
    have hold : ¬ (s.view c).entry m va &&& l2AddrMask = ptoa pa := by rwa [and_l2AddrMask_eq_ptoa]
    refine ⟨o, s', ?_, hcleared, ?_, htables ▸ .set loc 0⟩
    · simp only [enterOnce, State.get_eq hpte hva, if_neg hold, if_neg (not_not.2 hpa),
        if_pos hmask, hunmap, Bind.bind,
        Except.bind]
    · rw [View.beforeRetry, if_pos hzero, hview]

/-- The page is mapped there: the entry is written again. -/
theorem enterOnce_same (prot : Prot) (h : Inv c s) (heq : paIndex ((s.view c).entry m va) = pa)
    (hpai : wired = true → paiToPvh c pa = .ok (.rooted pa)) :
    ∃ s', enterOnce c m va pa prot wired loc none s = .ok (true, s') ∧ Inv c s' ∧
      s'.view c = (s.view c).enterSame c m va pa prot wired ∧ s.tables.Same s'.tables := by
  have hget := State.get_eq hpte hva
  have hold : (s.view c).entry m va &&& l2AddrMask = ptoa pa := and_l2AddrMask_eq_ptoa.2 heq
  obtain ⟨s', hsame, hview, hpv, htables⟩ := enterSame_spec prot h.wf hpte hva hpai
  have hentry : (s'.view c).entry =
      ((s.view c).set m va ((s.view c).template c m va pa prot)).entry := by
    rw [← State.view_set h.wf hpte hva]
    simp only [State.view, htables, State.set]
  have hpages : ∀ m' va', paIndex ((s'.view c).entry m' va') = paIndex ((s.view c).entry m' va') := by
    intro m' va'
    rw [hentry, View.entry_set]
    split_ifs with hand
    · rw [View.paIndex_template, hand.1, hand.2, heq]
    · rfl
  have hcount : ∀ m', (s'.stats m').residentCount = (s.stats m').residentCount := by
    intro m'
    rw [← State.stats_view (c := c), hview, View.residentCount_enterSame, State.stats_view]
  refine ⟨s', ?_, h.of_same_pages (htables ▸ h.wf.set) hpv (fun m' => (hcount m').ge) hpages, hview,
    htables ▸ .set loc _⟩
  simp only [enterOnce, hget, if_pos hold, hsame, Bind.bind, Except.bind, State.free]

/-- A page that is not managed is entered where none that is was mapped. -/
theorem enterOnce_of_not_managed (prot : Prot) (wired : Bool) (h : Inv c s) (hpa : ¬ c.Managed pa) (hne : paIndex ((s.view c).entry m va) ≠ pa)
    (hclear : ¬ c.Managed (paIndex ((s.view c).entry m va))) (first : Bool) :
    ∃ s', enterOnce c m va pa prot wired loc none s = .ok (true, s') ∧ Inv c s' ∧
      s'.view c = (s.view c).enterOther c m va pa prot wired first ∧ s.tables.Same s'.tables := by
  have hget := State.get_eq hpte hva
  have hold : ¬ (s.view c).entry m va &&& l2AddrMask = ptoa pa := by rwa [and_l2AddrMask_eq_ptoa]
  simp only [enterOnce, hget, if_neg hold, if_pos hpa]
  -- the entry is cleared before it is written, if there was one
  have hs₁ : ∃ s₁ : State, (if (s.view c).entry m va &&& l2AddrMask ≠ 0 then s.set loc 0 else s) = s₁ ∧
      s₁.view c = (if paIndex ((s.view c).entry m va) ≠ 0 then (s.view c).set m va 0 else s.view c) ∧
      s₁.tables.WF c ∧ s₁.pv = s.pv ∧ s.tables.Same s₁.tables := by
    simp only [ne_eq, and_l2AddrMask_eq_zero]
    split_ifs
    · exact ⟨_, rfl, rfl, h.wf, rfl, .refl _⟩
    · exact ⟨_, rfl, State.view_set h.wf hpte hva, h.wf.set, rfl, .set loc 0⟩
  obtain ⟨s₁, heq, hview₁, hwf₁, hpv₁, hsame₁⟩ := hs₁
  have hview₂ := view_enterPte pa prot wired hwf₁ (hsame₁.pmapPte.trans hpte) hva
  obtain ⟨w, hw, hentry⟩ := (s₁.view c).entry_enterPte c m va pa prot wired
  obtain ⟨w', htables⟩ := tables_enterPte c m va pa prot wired loc s₁
  have hother : ∀ m' va', (m', va') ≠ (m, va) → (s₁.view c).entry m' va' = (s.view c).entry m' va' := by
    intro m' va' hne
    rw [hview₁]
    split_ifs
    · rw [View.entry_set, if_neg fun hand => hne (by rw [hand.1, hand.2])]
    · rfl
  have hcount : ∀ m', (s.stats m').residentCount ≤
      ((enterPte c m va pa prot wired loc s₁).stats m').residentCount := by
    intro m'
    have hstats : (s₁.view c).stats = s.stats := by
      rw [hview₁]
      split_ifs <;> rfl
    rw [← State.stats_view (c := c) (s := enterPte c m va pa prot wired loc s₁), hview₂,
      View.residentCount_enterPte, hstats]
    split_ifs <;> omega
  have hmapped : ∀ p m' va', ((enterPte c m va pa prot wired loc s₁).view c).Mapped c p m' va' ↔
      (s.view c).Mapped c p m' va' := by
    intro p m' va'
    rw [View.Mapped, hview₂, hentry, View.entry_set]
    by_cases hand : (m', va') = (m, va)
    · obtain ⟨rfl, rfl⟩ := Prod.mk.inj hand
      rw [if_pos ⟨rfl, rfl⟩, hw]
      refine iff_of_false ?_ ?_
      · rintro ⟨hp, -, rfl⟩
        exact hpa hp
      · rintro ⟨hp, -, rfl⟩
        exact hclear hp
    · rw [if_neg fun h' => hand (by rw [h'.1, h'.2]), hother m' va' hand, View.Mapped]
  rw [heq]
  refine ⟨_, rfl, h.of_mapped (htables ▸ hwf₁.set) (pv_enterPte.trans hpv₁) hcount hmapped, ?_,
    htables ▸ hsame₁.trans (.set loc w')⟩
  rw [View.enterOther, if_pos hpa, ← hview₁]
  exact hview₂

end

/-- An entry is allocated for the second round. -/
theorem Cleared.zalloc {o : Option Ref} (h : Cleared c m va o none s) (ho : o = none) :
    Cleared c m va none (some s.pv.zalloc.1) { s with pv := s.pv.zalloc.2 } := by
  subst ho
  obtain ⟨hwf, ⟨names, hholds, hagree⟩, hres, -, hclear⟩ := h
  refine ⟨hwf, ⟨names, ?_, hagree⟩, hres, .inl rfl, hclear⟩
  simpa using hholds.zalloc

theorem View.paIndex_beforeRetry : paIndex ((v.beforeRetry m va pa).entry m va) = 0 := by
  rw [View.beforeRetry]
  split_ifs with hold
  · rw [View.entry_unmapOld, View.entry_set, if_pos ⟨rfl, rfl⟩, paIndex_zero]
  · exact not_not.1 hold

theorem View.mapped_beforeRetry (hne : paIndex (v.entry m va) ≠ pa) (m' va' : ℕ) :
    (v.beforeRetry m va pa).Mapped c pa m' va' ↔ v.Mapped c pa m' va' := by
  rw [View.beforeRetry]
  split_ifs
  · rw [View.Mapped, View.entry_unmapOld]
    by_cases hand : (m', va') = (m, va)
    · obtain ⟨rfl, rfl⟩ := Prod.mk.inj hand
      rw [View.entry_set, if_pos ⟨rfl, rfl⟩]
      refine iff_of_false ?_ fun hmapped => hne hmapped.2.2
      rintro ⟨hp, -, rfl⟩
      exact View.not_managed_zero hp
    · rw [View.entry_set, if_neg fun h' => hand (by rw [h'.1, h'.2]), View.Mapped]
  · exact Iff.rfl

/-- **`pmap_enter`.**  It ends well or, in the kernel's pmap, in the exhaustion of the free lists. -/
theorem pmapEnter_spec (prot : Prot) (h : Inv c s) (hm : s.tables.Live m) (hva : Aligned va) (hl : Lookup c m va)
    (hboot : ¬ c.Boot m va) (hg : s.tables.Grants c grab)
    (hkind : paIndex ((s.view c).entry m va) = 0 ∨ (c.Managed (paIndex ((s.view c).entry m va)) ↔ c.Managed pa))
    (hpai : wired = true → paIndex ((s.view c).entry m va) = pa → paiToPvh c pa = .ok (.rooted pa)) :
    (∃ s', ∃ grown first : Bool, pmapEnter c m va pa prot wired grab s = .ok s' ∧ Inv c s' ∧
      s'.view c = (s.view c).enter c m va pa prot wired grab grown first ∧
      (first = true ↔ ∀ m' va', ¬ (s.view c).Mapped c pa m' va') ∧ s'.tables.l1Size = s.tables.l1Size) ∨
    m = c.kernelPmap ∧ pmapEnter c m va pa prot wired grab s = .error .exhaustion := by
  obtain ⟨loc, s₁, grown, htables, h₁, hview₁, hpte, hsize⟩ := enterTables_spec h hm hl hg
  have hentry : (s₁.view c).entry = (s.view c).entry := by
    rw [hview₁]
    split_ifs <;> rfl
  have hmapped : ∀ m' va', (s₁.view c).Mapped c pa m' va' ↔ (s.view c).Mapped c pa m' va' := by
    intro m' va'
    rw [View.Mapped, View.Mapped, hentry]
  have henter : ∀ first, (s.view c).enter c m va pa prot wired grab grown first =
      if paIndex ((s₁.view c).entry m va) = pa then (s₁.view c).enterSame c m va pa prot wired
      else (s₁.view c).enterOther c m va pa prot wired first := by
    intro first
    rw [hview₁]
    rfl
  have hexists : ∃ first : Bool, first = true ↔ ∀ m' va', ¬ (s.view c).Mapped c pa m' va' := by
    classical exact ⟨decide _, decide_eq_true_iff⟩
  have hhigh : ¬ (commPageBase < va ∧ m ≠ c.kernelPmap) := by
    rintro ⟨hlt, hk⟩
    exact absurd (hl.resolve_left hk) (Nat.not_lt.2 hlt.le)
  have hm₀ : m ≠ 0 := fun hzero => hm (hzero ▸ h.wf.null)
  have hdone : ∀ s', enterOnce c m va pa prot wired loc none s₁ = .ok (true, s') →
      pmapEnter c m va pa prot wired grab s = .ok s' := by
    intro s' honce
    simp only [pmapEnter, pmapEnterOptions, if_neg hhigh, enterRetry, htables, honce, Bind.bind,
      Except.bind]
  rw [← hentry] at hkind hpai
  by_cases hsame : paIndex ((s₁.view c).entry m va) = pa
  · obtain ⟨s', honce, hinv, hview, hsame'⟩ := enterOnce_same hpte hva prot h₁ hsame fun hw =>
      hpai hw hsame
    obtain ⟨first, hfirst⟩ := hexists
    refine .inl ⟨s', grown, first, hdone s' honce, hinv, ?_, hfirst, hsame'.2.1.trans hsize⟩
    rw [hview, henter, if_pos hsame]
  by_cases hpa : c.Managed pa
  case neg =>
    have hclear : ¬ c.Managed (paIndex ((s₁.view c).entry m va)) := by
      rcases hkind with hzero | hiff
      · rw [hzero]
        exact fun hp => hp.ne_zero rfl
      · exact fun hp => hpa (hiff.1 hp)
    obtain ⟨first, hfirst⟩ := hexists
    obtain ⟨s', honce, hinv, hview, hsame'⟩ :=
      enterOnce_of_not_managed hpte hva prot wired h₁ hpa hsame hclear first
    refine .inl ⟨s', grown, first, hdone s' honce, hinv, ?_, hfirst, hsame'.2.1.trans hsize⟩
    rw [hview, henter, if_neg hsame]
  have hkind' := hkind.imp_right fun hiff => hiff.2 hpa
  obtain ⟨o, s₂, honce, hcleared, hview₂, hsame₂⟩ :=
    enterOnce_of_managed hpte hva prot wired h₁ hboot hpa hsame hkind'
  have hpte₂ := hsame₂.pmapPte.trans hpte
  have hmapped₂ : ∀ m' va', (s₂.view c).Mapped c pa m' va' ↔ (s.view c).Mapped c pa m' va' := by
    intro m' va'
    rw [hview₂, View.mapped_beforeRetry hsame, hmapped]
  rcases enterNew_spec prot wired hcleared hpte₂ hva hboot hpa hm₀ with
    ⟨s', first, hok, hinv, hview, hfirst, hsame'⟩ | ⟨hnone, -, ⟨hk, hretry⟩ | ⟨hk, hstop⟩⟩
  · refine .inl ⟨s', grown, first, hdone s' (honce.trans hok), hinv, ?_, ?_,
      (hsame₂.trans hsame').2.1.trans hsize⟩
    · rw [hview, henter, if_neg hsame, View.enterOther_of_managed first hpa, hview₂]
    · simpa only [hmapped₂] using hfirst
  · -- with an entry from the zone, the second round succeeds
    let s₃ : State := { s₂ with pv := s₂.pv.zalloc.2 }
    have hzero : paIndex ((s₃.view c).entry m va) = 0 := by
      rw [show s₃.view c = s₂.view c from rfl, hview₂]
      exact View.paIndex_beforeRetry
    have honce₃ : enterOnce c m va pa prot wired loc (some s₂.pv.zalloc.1) s₃ =
      enterNew c m va pa prot wired loc none (some s₂.pv.zalloc.1) s₃ :=
        enterOnce_of_clear hpte₂ hva hpa hzero
    rcases enterNew_spec prot wired (hcleared.zalloc hnone.1) hpte₂ hva hboot hpa hm₀ with
      ⟨s', first, hok, hinv, hview, hfirst, hsame'⟩ | ⟨⟨-, hsome⟩, -⟩
    · refine .inl ⟨s', grown, first, ?_, hinv, ?_, ?_, (hsame₂.trans hsame').2.1.trans hsize⟩
      · simp only [pmapEnter, pmapEnterOptions, if_neg hhigh, enterRetry, htables,
          honce.trans hretry, Bind.bind,
          Except.bind, enterTables_of_pte (s := s₃) hpte₂, honce₃.trans hok, s₃]
      · rw [hview, henter, if_neg hsame, View.enterOther_of_managed first hpa, ← hview₂]
        rfl
      · rw [hfirst]
        exact forall_congr' fun m' => forall_congr' fun va' => not_congr (hmapped₂ m' va')
    · simp at hsome
  · right
    refine ⟨hk, ?_⟩
    rw [← honce] at hstop
    simp only [pmapEnter, pmapEnterOptions, if_neg hhigh, enterRetry, htables, hstop, Bind.bind,
      Except.bind]

end

end PocketDarwin.Pmap
