/-
  Wired mappings, and the counts and ledgers of them.

  Whether a page is wired is one attribute of the page; wired mappings are counted by pmap.
  `pmap_enter_options` tests the attribute of the page that it enters where it means that of
  the page it replaces, takes a mapping that is wired once more off the count, and charges
  new wired mappings to the wrong ledger; `pmap_change_wiring` counts only pages that are
  marked already.

  * `Sober`: the calls for which all this does not matter.
  * `wired_run`: in runs of such calls, wired mappings are counted, one by one, and the
    ledgers are those of the counts; `pmap_remove` does not panic on them.
-/
import PocketDarwin.Pmap.Effects

namespace PocketDarwin.Pmap

/-- The number of elements with a property, when the property changes for one of them. -/
theorem card_filter_of_changed {s : Finset ℕ} {P Q : ℕ → Prop} [DecidablePred P] [DecidablePred Q] {k : ℕ} (hk : k ∈ s)
    (h : ∀ j, j ≠ k → (Q j ↔ P j)) :
    (s.filter Q).card + (if P k then 1 else 0) = (s.filter P).card + if Q k then 1 else 0 := by
  have hrest : (s.erase k).filter Q = (s.erase k).filter P :=
    Finset.filter_congr fun j hj => h j (Finset.ne_of_mem_erase hj)
  have hnot : k ∉ (s.erase k).filter P :=
    fun hin => Finset.notMem_erase _ _ (Finset.mem_of_mem_filter _ hin)
  rw [← Finset.insert_erase hk, Finset.filter_insert, Finset.filter_insert, hrest]
  split_ifs <;> simp [Finset.card_insert_of_notMem, hnot]

/-- The last `wired` argument for an address. -/
abbrev Wanted := ℕ → ℕ → Bool

def Wanted.set (w : Wanted) (m va : ℕ) (wired : Bool) : Wanted :=
  fun m' va' => if m' = m ∧ va' = va then wired else w m' va'

def Wanted.step (w : Wanted) : Call → Wanted
  | .enter m va _ _ wired _ | .changeWiring _ m va wired => w.set m va wired
  | _ => w

theorem Wanted.set_self {w : Wanted} {m va : ℕ} {wired : Bool} : w.set m va wired m va = wired := if_pos ⟨rfl, rfl⟩

theorem Wanted.set_of_ne {w : Wanted} {m m' va va' : ℕ} {wired : Bool} (h : ¬ (m' = m ∧ va' = va)) :
    w.set m va wired m' va' = w m' va' := if_neg h

/-- A call, with what is to be wired. -/
def wireStep (c : Machine) (x : Except Stop State × Wanted) (call : Call) : Except Stop State × Wanted :=
  (step c x.1 call, x.2.step call)

/-- The wired mappings of the kernel from before `pmap_init`. -/
def Machine.wiredBefore (c : Machine) (m : ℕ) : ℕ := if m = c.kernelPmap then c.bootWired else 0

namespace View

section
variable (c : Machine)

/-- The address has a mapping that is to be wired. -/
def WiredAt (v : View) (w : Wanted) (m va : ℕ) : Prop := v.Resident c m va ∧ w m va = true

instance (v : View) (w : Wanted) (m va : ℕ) : Decidable (v.WiredAt c w m va) := inferInstanceAs (Decidable (_ ∧ _))

/-- The number of wired mappings of a pmap. -/
def wiredMappings (v : View) (w : Wanted) (m : ℕ) : ℕ :=
  ((Finset.range 0x100000).filter fun k => v.WiredAt c w m (k * 0x1000)).card

/-- The counts of a pmap are those of its mappings; the kernel had some before `pmap_init`. -/
structure Accounted (v : View) (w : Wanted) (m : ℕ) : Prop where
  wiredCount : (v.stats m).wiredCount = c.wiredBefore m + v.wiredMappings c w m
  physMem : (v.stats m).physMem = pageSize * (v.stats m).residentCount
  wiredMem : (v.stats m).wiredMem = pageSize * (v.stats m).wiredCount

/-- Each mapping in the range is wired exactly if its page is marked, and no mapping before it in the range is one of
    the page. -/
def SoberRange (v : View) (w : Wanted) (m : ℕ) (l : List ℕ) : Prop :=
  ∀ va ∈ l, v.Resident c m va → (w m va = true ↔ v.flags (paIndex (v.entry m va)) &&& typeWired ≠ 0 ∧
    ∀ va' ∈ l, va' < va → paIndex (v.entry m va') ≠ paIndex (v.entry m va))

/-- What `pmap_enter` finds: a new mapping is not wired, one that is replaced or entered again was not, and where the
    attribute of the page matters it is clear. -/
def SoberEnter (v : View) (w : Wanted) (m va : ℕ) (pa : Ppn) (wired : Bool) : Prop :=
  c.Managed pa ∧
  if paIndex (v.entry m va) = pa then w m va = false ∧ (wired = true → v.flags pa &&& typeWired = 0)
  else wired = false ∧ (paIndex (v.entry m va) ≠ 0 → w m va = false ∧ v.flags pa &&& typeWired = 0)

/-- What the calls have to find, so that wired mappings are counted right. -/
def Sober (v : View) (w : Wanted) : Call → Prop
  | .enter m va pa _ wired _ => (m = c.kernelPmap ∨ va < commPageBase) → v.SoberEnter c w m va pa wired
  | .remove m sva eva => v.SoberRange c w m (pages sva eva)
  | .protect m sva eva prot => prot = 0 → v.SoberRange c w m (pages sva eva)
  | .pageProtect pn prot => prot ≠ vmProtAll →
    ∀ m va, v.Mapped c pn m va → removes prot = true ∨ m = c.kernelPmap → w m va = false
  | .disconnect pn => ∀ m va, v.Mapped c pn m va → w m va = false
  | .changeWiring _ m va wired =>
    if wired then w m va = false ∧ v.flags (paIndex (v.entry m va)) &&& typeWired ≠ 0 else w m va = true
  | _ => True

end

section
variable {c : Machine} {v v' : View} {w w' : Wanted} {m m' va va' sva eva : ℕ} {p pa grab : Ppn} {prot : Prot} {wired : Bool}
  {l : List (ℕ × ℕ)} {call : Call}

theorem wiredMappings_congr (h : ∀ va, v'.WiredAt c w' m va ↔ v.WiredAt c w m va) :
    v'.wiredMappings c w' m = v.wiredMappings c w m := by
  rw [wiredMappings, wiredMappings, Finset.filter_congr fun k _ => h (k * 0x1000)]

/-- One address is changed. -/
theorem wiredMappings_of_changed (hva : Aligned va) (h : ∀ va', va' ≠ va → (v'.WiredAt c w' m va' ↔ v.WiredAt c w m va')) :
    v'.wiredMappings c w' m + (if v.WiredAt c w m va then 1 else 0) =
      v.wiredMappings c w m + if v'.WiredAt c w' m va then 1 else 0 := by
  have hk : va / 0x1000 * 0x1000 = va := by have := hva.1; omega
  have hmem : va / 0x1000 ∈ Finset.range 0x100000 := Finset.mem_range.2 (by have := hva.2; omega)
  have hcount := card_filter_of_changed (P := fun k => v.WiredAt c w m (k * 0x1000))
    (Q := fun k => v'.WiredAt c w' m (k * 0x1000)) hmem fun k hne => h _ (by omega)
  simp only [hk] at hcount
  exact hcount

end

-- from here on, nothing counts through all addresses
attribute [irreducible] wiredMappings

section
variable {c : Machine} {v v' : View} {w w' : Wanted} {m m' va va' sva eva : ℕ} {p pa grab : Ppn} {prot : Prot} {wired : Bool}
  {l : List (ℕ × ℕ)} {call : Call}

/-- What leaves the mappings and the counts of wired ones. -/
theorem Accounted.of_same (h : v.Accounted c w m) (hwired : ∀ va, v'.WiredAt c w' m va ↔ v.WiredAt c w m va)
    (hstats : v'.stats m = v.stats m) : v'.Accounted c w' m := by
  obtain ⟨hcount, hphys, hmem⟩ := h
  refine ⟨?_, ?_, ?_⟩
  · rw [hstats, hcount, wiredMappings_congr hwired]
  · rw [hstats, hphys]
  · rw [hstats, hmem]

/-- One address is changed, and one mapping counted more or less. -/
theorem accounted_of_changed (h : ∀ m, v.Accounted c w m) (hva : Aligned va)
    (hother : ∀ m' va', ¬ (m' = m ∧ va' = va) → (v'.WiredAt c w' m' va' ↔ v.WiredAt c w m' va'))
    (hstats : ∀ m', m' ≠ m → v'.stats m' = v.stats m')
    (hcount : (v'.stats m).wiredCount = (v.stats m).wiredCount + (if v'.WiredAt c w' m va then 1 else 0) -
      if v.WiredAt c w m va then 1 else 0)
    (hphys : (v'.stats m).physMem = (v.stats m).physMem + pageSize * ((v'.stats m).residentCount - (v.stats m).residentCount))
    (hmem : (v'.stats m).wiredMem = (v.stats m).wiredMem + pageSize * ((v'.stats m).wiredCount - (v.stats m).wiredCount))
    (m' : ℕ) : v'.Accounted c w' m' := by
  by_cases hm : m' = m
  · subst hm
    have hcard := wiredMappings_of_changed hva fun va' hne => hother m' va' fun hand => hne hand.2
    obtain ⟨hcount₀, hphys₀, hmem₀⟩ := h m'
    refine ⟨?_, ?_, ?_⟩
    · split_ifs at hcount hcard <;> omega
    · rw [hphys, hphys₀, pageSize]
      omega
    · rw [hmem, hmem₀, pageSize]
      omega
  · exact (h m').of_same (fun va' => hother m' va' fun hand => hm hand.1) (hstats m' hm)

/-- An entry that is cleared. -/
theorem not_wiredAt_of_zero (hzero : v.entry m va = 0) : ¬ v.WiredAt c w m va := by
  rintro ⟨⟨hp, -⟩, -⟩
  rw [hzero] at hp
  exact not_managed_zero hp

theorem wiredAt_congr (h : v'.entry m va = v.entry m va) : v'.WiredAt c w m va ↔ v.WiredAt c w m va := by
  rw [WiredAt, WiredAt, Resident, Resident, h]

/-! ## Removing mappings -/

/-- A round of `pmap_remove_range`. -/
theorem accounted_removeAt (h : ∀ m, v.Accounted c w m) (hva : Aligned va)
    (hsober : v.Resident c m va → (w m va = true ↔ v.flags (paIndex (v.entry m va)) &&& typeWired ≠ 0))
    (hboot : ¬ c.Boot m va) (m' : ℕ) : (v.removeAt c m va).Accounted c w m' := by
  by_cases hp : c.Managed (paIndex (v.entry m va))
  · have hentry := entry_removeAt hp
    have hstats := stats_removeAt hp
    have hnew : ¬ (v.removeAt c m va).WiredAt c w m va := not_wiredAt_of_zero (by rw [hentry]; simp)
    have hold : v.WiredAt c w m va ↔ v.flags (paIndex (v.entry m va)) &&& typeWired ≠ 0 :=
      (and_iff_right ⟨hp, hboot⟩).trans (hsober ⟨hp, hboot⟩)
    refine accounted_of_changed (m := m) h hva (fun m' va' hne => wiredAt_congr ?_)
      (fun m' hne => ?_) ?_ ?_ ?_ m'
    · rw [hentry, entry_set, if_neg hne]
    · rw [hstats, Function.update_of_ne hne]
    · rw [hstats, Function.update_self, if_neg hnew, if_congr hold rfl rfl]
      simp [charge]
    · rw [hstats, Function.update_self]
      simp only [charge, pageSize]
      omega
    · rw [hstats, Function.update_self]
      simp only [charge, pageSize]
      omega
  · rw [removeAt_of_not_managed hp]
    exact h m'

/-- The page that was mapped is not marked any more. -/
theorem flags_removeAt (hp : c.Managed (paIndex (v.entry m va))) : (v.removeAt c m va).flags p &&& typeWired =
    if p = paIndex (v.entry m va) then 0 else v.flags p &&& typeWired := by
  simp only [removeAt, if_pos hp]
  by_cases hflag : v.flags (paIndex (v.entry m va)) &&& typeWired ≠ 0
  · simp only [if_pos hflag, flags_count, flags_set, mark, Function.update_apply]
    split_ifs
    · exact and_and_of_disjoint (by decide)
    · rfl
  · simp only [if_neg hflag, flags_count, flags_set]
    split_ifs with heq
    · rw [heq, not_not.1 hflag]
    · rfl

/-- The rest of the range, after the first mapping. -/
theorem SoberRange.tail {l : List ℕ} (h : v.SoberRange c w m (va :: l)) (hlt : ∀ va' ∈ l, va < va') :
    (v.removeAt c m va).SoberRange c w m l := by
  intro va' hmem hres
  have hlt' := hlt va' hmem
  by_cases hp : c.Managed (paIndex (v.entry m va))
  · have hentry : ∀ va'' ∈ l, (v.removeAt c m va).entry m va'' = v.entry m va'' := by
      intro va'' hmem''
      rw [entry_removeAt hp, entry_set, if_neg fun hand => (hlt va'' hmem'').ne' hand.2]
    rw [Resident, hentry va' hmem] at hres
    have hold := h va' (List.mem_cons_of_mem va hmem) hres
    rw [hold, hentry va' hmem, flags_removeAt hp]
    by_cases hsame : paIndex (v.entry m va') = paIndex (v.entry m va)
    · rw [if_pos hsame]
      exact iff_of_false (fun hand => hand.2 va List.mem_cons_self hlt' hsame.symm) fun hand =>
        hand.1 rfl
    · rw [if_neg hsame]
      refine and_congr_right fun _ => ⟨fun hnone va'' hmem'' hless => ?_,
        fun hnone va'' hmem'' hless => ?_⟩
      · rw [hentry va'' hmem'']
        exact hnone va'' (List.mem_cons_of_mem va hmem'') hless
      · rcases List.mem_cons.1 hmem'' with rfl | hmem''
        · exact fun heq => hsame heq.symm
        · rw [← hentry va'' hmem'']
          exact hnone va'' hmem'' hless
  · rw [removeAt_of_not_managed hp] at hres ⊢
    rw [h va' (List.mem_cons_of_mem va hmem) hres]
    refine and_congr_right fun _ =>
      ⟨fun hnone va'' hmem'' => hnone va'' (List.mem_cons_of_mem va hmem''), ?_⟩
    intro hnone va'' hmem'' hless
    rcases List.mem_cons.1 hmem'' with rfl | hmem''
    · exact fun heq => hp (heq ▸ hres.1)
    · exact hnone va'' hmem'' hless

/-- **`pmap_remove`** of a range. -/
theorem accounted_remove {l : List ℕ} (h : ∀ m, v.Accounted c w m) (hl : l.Pairwise (· < ·))
    (hva : ∀ va ∈ l, Aligned va ∧ ¬ c.Boot m va) (hsober : v.SoberRange c w m l) (m' : ℕ) :
    (l.foldl (removeAt c m) v).Accounted c w m' := by
  induction l generalizing v with
  | nil => exact h m'
  | cons va l ih =>
    obtain ⟨hlt, hl⟩ := List.pairwise_cons.1 hl
    obtain ⟨haligned, hboot⟩ := hva va List.mem_cons_self
    have hfirst : v.Resident c m va →
        (w m va = true ↔ v.flags (paIndex (v.entry m va)) &&& typeWired ≠ 0) := by
      intro hres
      rw [hsober va List.mem_cons_self hres, and_iff_left]
      intro va' hmem hless
      rcases List.mem_cons.1 hmem with rfl | hmem
      · exact absurd hless (lt_irrefl _)
      · exact absurd hless (hlt va' hmem).not_gt
    exact ih (accounted_removeAt h haligned hfirst hboot)
      hl (fun va' hmem => hva va' (List.mem_cons_of_mem va hmem))
      (hsober.tail hlt)

/-- **`pmap_page_protect`** -/
theorem accounted_pageProtect (h : ∀ m, v.Accounted c w m) (hl : v.MappingsOf c p l) (hva : ∀ x ∈ l, Aligned x.2)
    (hsober : ∀ m va, v.Mapped c p m va → removes prot = true ∨ m = c.kernelPmap → w m va = false) (m' : ℕ) :
    (v.pageProtect c p prot l).Accounted c w m' := by
  obtain ⟨hnodup, hmem⟩ := hl
  have hmapped : ∀ x ∈ l, v.Mapped c p x.1 x.2 := fun x hx => (hmem x.1 x.2).1 hx
  have hunwired : ∀ x ∈ l, removes prot = true ∨ x.1 = c.kernelPmap → w x.1 x.2 = false :=
    fun x hx => hsober x.1 x.2 (hmapped x hx)
  rw [pageProtect]
  clear hmem hmapped hsober
  induction l generalizing v with
  | nil => exact h m'
  | cons x l ih =>
    refine ih (fun m'' => ?_) (fun y hy => hva y (List.mem_cons_of_mem x hy))
      (List.nodup_cons.1 hnodup).2
      (fun y hy => hunwired y (List.mem_cons_of_mem x hy))
    by_cases hremove : removes prot = true ∨ x.1 = c.kernelPmap
    · have hw := hunwired x List.mem_cons_self hremove
      have hnot : ∀ u : View, ¬ u.WiredAt c w x.1 x.2 := fun u hwired => absurd hwired.2 (by simp [hw])
      have hround : v.pageProtectAt c p (removes prot) x = _ := if_pos hremove
      refine accounted_of_changed (m := x.1) h (hva x List.mem_cons_self)
        (fun m va hne => wiredAt_congr ?_)
        (fun m hne => ?_) ?_ ?_ ?_ m''
      · rw [entry_pageProtectAt_eq, if_neg fun heq =>
          hne ⟨congrArg Prod.fst heq, congrArg Prod.snd heq⟩]
      · rw [hround]
        exact Function.update_of_ne hne _ _
      · rw [if_neg (hnot _), if_neg (hnot _), hround]
        simp [count]
      · rw [hround]
        simp [count, pageSize]
        omega
      · rw [hround]
        simp [count]
    · have hround : v.pageProtectAt c p (removes prot) x = _ := if_neg hremove
      refine (h m'').of_same (fun va => ?_) (by rw [hround]; rfl)
      rw [WiredAt, WiredAt, Resident, Resident, hround, entry_set]
      split_ifs with hand
      · rw [paIndex_writeProtect, hand.1, hand.2]
      · rfl

/-! ## Entering mappings -/

/-- Counts that are changed for one pmap, and balanced: `wired` mappings more are wired. -/
structure Charged (v v' : View) (m : ℕ) (wired : ℤ) : Prop where
  stats : ∀ m', m' ≠ m → v'.stats m' = v.stats m'
  wiredCount : (v'.stats m).wiredCount = (v.stats m).wiredCount + wired
  physMem : (v'.stats m).physMem = (v.stats m).physMem + pageSize * ((v'.stats m).residentCount - (v.stats m).residentCount)
  wiredMem : (v'.stats m).wiredMem = (v.stats m).wiredMem + pageSize * wired

theorem Charged.of_stats {v₁ v₂ : View} {n : ℤ} (h : v₁.Charged v₂ m n) (hstats : v₁.stats = v.stats) : v.Charged v₂ m n := by
  obtain ⟨hne, hcount, hphys, hmem⟩ := h
  rw [hstats] at hne hcount hphys hmem
  exact ⟨hne, hcount, hphys, hmem⟩

theorem charged_enterSame (hflag : wired = true → v.flags pa &&& typeWired = 0) :
    v.Charged (v.enterSame c m va pa prot wired) m (if wired then 1 else 0) := by
  cases wired with
  | false =>
    have hsame : v.enterSame c m va pa prot false = v.set m va (v.template c m va pa prot) := rfl
    rw [hsame]
    exact ⟨fun _ _ => rfl, by simp, by simp, by simp⟩
  | true =>
    have hstats : (v.enterSame c m va pa prot true).stats = Function.update v.stats m
        { v.stats m with wiredCount := (v.stats m).wiredCount + 1, wiredMem := (v.stats m).wiredMem
          + pageSize } := by
      simp only [enterSame, if_true, if_pos (hflag rfl)]
      rfl
    refine ⟨fun m' hne => ?_, ?_, ?_, ?_⟩
    · rw [hstats, Function.update_of_ne hne]
    all_goals
      rw [hstats, Function.update_self]
      simp

theorem charged_enterOther {first : Bool} (hpa : c.Managed pa)
    (hflag : paIndex (v.entry m va) ≠ 0 → v.flags pa &&& typeWired = 0) :
    v.Charged ((v.beforeEnter c m va pa false first).enterPte c m va pa prot false) m 0 := by
  have hbefore : v.beforeEnter c m va pa false first = v.beforeRetry m va pa := by
    rw [beforeEnter, if_pos hpa]
    rfl
  have hpte : ∀ u : View, (u.enterPte c m va pa prot false).stats = Function.update u.stats m
      { u.stats m with residentCount :=
        (u.stats m).residentCount + 1, physMem := (u.stats m).physMem + pageSize } :=
    fun _ => rfl
  rw [hbefore]
  by_cases hold : paIndex (v.entry m va) ≠ 0
  · have hretry : (v.beforeRetry m va pa).stats = Function.update v.stats m
        { v.stats m with residentCount := (v.stats m).residentCount - 1, physMem :=
          (v.stats m).physMem - pageSize } := by
      have hnot : ¬ (v.flags pa &&& typeWired ≠ 0) := not_not.2 (hflag hold)
      have hunmap : (v.set m va 0).unmapOld m pa = _ := if_neg hnot
      rw [beforeRetry, if_pos hold, hunmap]
      rfl
    refine ⟨fun m' hne => ?_, ?_, ?_, ?_⟩
    · rw [hpte, hretry, Function.update_of_ne hne, Function.update_of_ne hne]
    all_goals
      rw [hpte, hretry, Function.update_self, Function.update_self]
      simp only [pageSize]
      omega
  · have hretry : v.beforeRetry m va pa = v := if_neg hold
    rw [hretry]
    refine ⟨fun m' hne => ?_, ?_, ?_, ?_⟩
    · rw [hpte, Function.update_of_ne hne]
    all_goals
      rw [hpte, Function.update_self]
      simp only [pageSize]
      omega

theorem charged_enter {grown first : Bool} (hsober : v.SoberEnter c w m va pa wired) :
    v.Charged (v.enter c m va pa prot wired grab grown first) m (if wired then 1 else 0) := by
  obtain ⟨v₁, hentry, hstats, hkeeps, heq⟩ := v.exists_enter c m va pa prot wired grab grown first
  obtain ⟨hpa, hsober⟩ := hsober
  have hflags : v₁.flags pa &&& typeWired = v.flags pa &&& typeWired := hkeeps typeWired (by decide) pa
  rw [heq]
  by_cases hsame : paIndex (v.entry m va) = pa
  · rw [if_pos hsame] at hsober ⊢
    exact (charged_enterSame fun hwired => hflags.trans (hsober.2 hwired)).of_stats hstats
  · rw [if_neg hsame] at hsober ⊢
    obtain ⟨rfl, hold⟩ := hsober
    refine (charged_enterOther hpa fun hne => ?_).of_stats hstats
    rw [hentry] at hne
    exact hflags.trans (hold hne).2

/-- **`pmap_enter`** -/
theorem accounted_enter {grown first : Bool} (h : ∀ m, v.Accounted c w m) (hva : Aligned va) (hboot : ¬ c.Boot m va)
    (hsober : v.SoberEnter c w m va pa wired) (m' : ℕ) :
    (v.enter c m va pa prot wired grab grown first).Accounted c (w.step (.enter m va pa prot wired grab)) m' := by
  have hcharged : v.Charged (v.enter c m va pa prot wired grab grown first) m _ := charged_enter hsober
  have hnew : (v.enter c m va pa prot wired grab grown first).WiredAt c
      (w.step (.enter m va pa prot wired grab)) m va ↔
      wired = true := by
    rw [WiredAt, Resident, entry_enter, if_pos ⟨rfl, rfl⟩, paIndex_template, Wanted.step,
      Wanted.set_self]
    exact and_iff_right ⟨hsober.1, hboot⟩
  have hold : ¬ v.WiredAt c w m va := by
    rintro ⟨⟨hp, -⟩, hw⟩
    have hsober' := hsober.2
    split_ifs at hsober' with hsame
    · simp [hsober'.1] at hw
    · simp [(hsober'.2 hp.ne_zero).1] at hw
  refine accounted_of_changed (m := m) h hva (fun m' va' hne => ?_) hcharged.stats ?_
    hcharged.physMem ?_ m'
  · rw [WiredAt, WiredAt, Resident, Resident, entry_enter, if_neg hne, Wanted.step,
      Wanted.set_of_ne hne]
  · rw [if_congr hnew rfl rfl, if_neg hold, hcharged.wiredCount, Int.sub_zero]
  · rw [hcharged.wiredMem, hcharged.wiredCount]
    congr 2
    omega

/-- **`pmap_change_wiring`** of a mapping. -/
theorem accounted_changeWiring {current : ℕ} (h : ∀ m, v.Accounted c w m) (hva : Aligned va) (hres : v.Resident c m va)
    (hsober : v.Sober c w (.changeWiring current m va wired)) (m' : ℕ) :
    (v.changeWiring m va wired).Accounted c (w.step (.changeWiring current m va wired)) m' := by
  have hnew : (v.changeWiring m va wired).WiredAt c (w.step (.changeWiring current m va wired))
      m va ↔ wired = true := by
    rw [WiredAt, Resident, entry_changeWiring, Wanted.step, Wanted.set_self]
    exact and_iff_right hres
  have hother : ∀ m' va', ¬ (m' = m ∧ va' = va) → ((v.changeWiring m va wired).WiredAt c
      (w.step (.changeWiring current m va wired)) m' va' ↔ v.WiredAt c w m' va') := by
    intro m' va' hne
    rw [WiredAt, WiredAt, Resident, Resident, entry_changeWiring, Wanted.step, Wanted.set_of_ne hne]
  cases wired with
  | true =>
    obtain ⟨hw, hflag⟩ : w m va = false ∧ v.flags (paIndex (v.entry m va)) &&& typeWired ≠ 0 := hsober
    have hchange : v.changeWiring m va true = _ := if_pos ⟨rfl, hflag⟩
    have hold : ¬ v.WiredAt c w m va := fun hwired => absurd hwired.2 (by simp [hw])
    refine accounted_of_changed (m := m) h hva hother (fun m' hne => ?_) ?_ ?_ ?_ m'
    · rw [hchange]
      exact Function.update_of_ne hne _ _
    · rw [if_pos (hnew.2 rfl), if_neg hold, hchange]
      simp [count]
    all_goals
      rw [hchange]
      simp only [stats_mark, count, Function.update_self, pageSize]
      omega
  | false =>
    have hw : w m va = true := hsober
    have hchange : v.changeWiring m va false = (v.count m fun x =>
        { x with wiredCount := x.wiredCount - 1, wiredMem := x.wiredMem - pageSize }).mark
          (paIndex (v.entry m va))
          (· &&& ~~~typeWired) := by
      rw [changeWiring]
      exact if_neg (by simp)
    refine accounted_of_changed (m := m) h hva hother (fun m' hne => ?_) ?_ ?_ ?_ m'
    · rw [hchange]
      exact Function.update_of_ne hne _ _
    · rw [if_neg fun hwired => by simpa using hnew.1 hwired, if_pos ⟨hres, hw⟩, hchange]
      simp [count]
    all_goals
      rw [hchange]
      simp only [stats_mark, count, Function.update_self, pageSize]
      omega

end

end View

/-! ## Runs -/

theorem pairwise_pages (sva eva : ℕ) : (pages sva eva).Pairwise (· < ·) := by
  have : ∀ n va, (pagesFrom n va).Pairwise (· < ·) := by
    intro n
    induction n with
    | zero => exact fun _ => .nil
    | succ n ih =>
      intro va
      refine List.pairwise_cons.2 ⟨fun va' hmem => ?_, ih _⟩
      obtain ⟨j, -, hj⟩ := mem_pagesFrom.1 hmem
      omega
  exact this _ _

section
variable {c : Machine} {s : State} {v' : View} {w : Wanted} {call : Call}

/-- A new pmap has no mappings. -/
theorem accounted_created {m : ℕ} (hinv : Inv c s) (hm : ¬ s.tables.Live m) (hentry : v'.entry = (s.view c).entry)
    (hstats : v'.stats m = ⟨0, 0, 0, 0⟩) : v'.Accounted c w m := by
  have hkernel : m ≠ c.kernelPmap := by
    rintro rfl
    refine hm ?_
    rw [Tables.Live, hinv.wf.kernel]
    decide
  have hnone : v'.wiredMappings c w m = 0 := by
    rw [View.wiredMappings, Finset.card_eq_zero, Finset.filter_eq_empty_iff]
    rintro k - ⟨hres, -⟩
    rw [View.Resident, hentry] at hres
    exact hm (live_of_pte (State.exists_pte hinv.wf
      (View.Resident.mapped hres).entry_ne_zero).2.choose_spec)
  refine ⟨?_, ?_, ?_⟩
  · rw [hstats, hnone, Machine.wiredBefore, if_neg hkernel]
    rfl
  · rw [hstats]
    rfl
  · rw [hstats]
    rfl

/-- **One call** keeps the counts, if it is a sober one. -/
theorem accounted_effect (hinv : Inv c s) (ho : Orderly c s call) (h : ∀ m, (s.view c).Accounted c w m)
    (hsober : (s.view c).Sober c w call) (heffect : (s.view c).Effect c call v') (m : ℕ) :
    v'.Accounted c (w.step call) m := by
  have hremove : ∀ m' sva eva, Range c s.tables m' sva eva →
      (s.view c).SoberRange c w m' (pages sva eva) →
      ((s.view c).remove c m' sva eva).Accounted c w m := by
    intro m' sva eva hrange hsober
    refine View.accounted_remove h (pairwise_pages sva eva)
      (fun va hmem => ⟨?_, hrange.fresh va hmem⟩) hsober m
    obtain ⟨hva, -, hlt⟩ := (mem_pages hrange.start hrange.stop).1 hmem
    exact ⟨hva, (hlt.trans_le hrange.high).trans (by decide)⟩
  have haligned : ∀ {p l}, (s.view c).MappingsOf c p l → ∀ x ∈ l, Aligned x.2 :=
    fun hl x hx => (State.exists_pte hinv.wf ((hl.2 x.1 x.2).1 hx).entry_ne_zero).1
  have hmark : ∀ (pn : Ppn) (f : BitVec 32 → BitVec 32), v' = (s.view c).mark pn f →
      v'.Accounted c w m := by
    rintro pn f rfl
    exact (h m).of_same (fun _ => Iff.rfl) rfl
  cases call with
  | create m' grab =>
    obtain rfl := heffect
    by_cases hm : m = m'
    · subst hm
      exact accounted_created hinv ho.2.1 rfl (Function.update_self _ _ _)
    · exact (h m).of_same (fun _ => Iff.rfl) (Function.update_of_ne hm _ _)
  | enter m' va pa prot wired grab =>
    obtain ⟨-, hva, hcomm, hboot, -⟩ := ho
    rw [View.Effect] at heffect
    split_ifs at heffect with hhigh
    · -- the call has failed, and what it asked for is of no mapping
      obtain rfl := heffect
      have hzero : (s.view c).entry m' va = 0 := by
        have hnot : ¬ Lookup c m' va := fun hl => (hl.resolve_left hhigh.2).not_gt hhigh.1
        rw [State.entry_view hva, Tables.entry, pmapPte_of_not_lookup hnot]
      refine (h m).of_same (fun va' => ?_) rfl
      by_cases hand : m = m' ∧ va' = va
      · rw [hand.1, hand.2]
        exact iff_of_false (View.not_wiredAt_of_zero hzero) (View.not_wiredAt_of_zero hzero)
      · rw [View.WiredAt, View.WiredAt, Wanted.step, Wanted.set_of_ne hand]
    · obtain ⟨grown, first, -, rfl⟩ := heffect
      have hl : m' = c.kernelPmap ∨ va < commPageBase := by
        by_cases hk : m' = c.kernelPmap
        · exact .inl hk
        · exact .inr (lt_of_le_of_ne (Nat.not_lt.1 fun hlt => hhigh ⟨hlt, hk⟩) (hcomm.resolve_left hk))
      exact View.accounted_enter h hva hboot (hsober hl) m
  | remove m' sva eva =>
    obtain rfl := heffect
    exact hremove m' sva eva ho hsober
  | protect m' sva eva prot =>
    rw [View.Effect] at heffect
    split_ifs at heffect with hprot
    · obtain rfl := heffect
      exact hremove m' sva eva ho (hsober hprot)
    · obtain rfl := heffect
      obtain ⟨-, hstats, hpage⟩ := (s.view c).foldl_protectAt m' prot (pages sva eva)
      refine (h m).of_same (fun va => ?_) (by rw [View.protect, hstats])
      rw [View.WiredAt, View.WiredAt, View.Resident, View.Resident, View.protect, hpage]
      exact Iff.rfl
  | pageProtect pn prot =>
    rw [View.Effect] at heffect
    split_ifs at heffect with hact
    · obtain ⟨l, hl, rfl⟩ := heffect
      exact View.accounted_pageProtect h hl (haligned hl) (hsober hact.2) m
    · obtain rfl := heffect
      exact h m
  | disconnect pa =>
    obtain ⟨l, hl, rfl⟩ := heffect
    exact View.accounted_pageProtect h hl (haligned hl) (fun m va hmapped _ => hsober m va hmapped) m
  | changeWiring current m' va wired =>
    obtain ⟨p, hmapped, -⟩ := ho
    obtain rfl := heffect
    have hva := (State.exists_pte hinv.wf hmapped.entry_ne_zero).1
    exact View.accounted_changeWiring h hva hmapped.resident hsober m
  | setCacheAttributes pn cacheattr =>
    obtain ⟨l, -, rfl⟩ := heffect
    obtain ⟨-, hstats, hpage⟩ := View.foldl_cacheAt (isMemoryType_cacheTemplate cacheattr) (s.view c) l
    refine (h m).of_same (fun va => ?_) (by rw [View.setCacheAttributes, View.stats_mark, hstats])
    rw [View.WiredAt, View.WiredAt, View.Resident, View.Resident, View.setCacheAttributes,
      View.entry_mark, hpage]
    exact Iff.rfl
  | setModify pn => exact hmark pn _ heffect
  | clearModify pn => exact hmark pn _ heffect
  | setReference pn => exact hmark pn _ heffect
  | clearReference pn => exact hmark pn _ heffect
  | clearRefmod pn mask => exact hmark pn _ heffect
  | mappingAdjust => exact heffect ▸ h m
  | mappingFreePrime => exact heffect ▸ h m

/-- **`pmap_remove`** does not find more wired mappings than were counted. -/
theorem not_stops_wiredCount (hinv : Inv c s) (ho : Orderly c s call) (h : ∀ m, (s.view c).Accounted c w m)
    (hsober : (s.view c).Sober c w call) : ¬ (s.view c).Stops c call .wiredCount := by
  have hremove : ∀ m' sva eva, Range c s.tables m' sva eva →
      (s.view c).SoberRange c w m' (pages sva eva) →
      ¬ (((s.view c).remove c m' sva eva).stats m').wiredCount < 0 := by
    intro m' sva eva hrange hsober'
    have hcall : Orderly c s (.remove m' sva eva) := hrange
    have hcount := (accounted_effect hinv hcall h hsober' rfl m').wiredCount
    omega
  cases call with
  | enter m va pa prot wired grab => simp [View.Stops]
  | remove m sva eva => exact fun hstops => hremove m sva eva ho hsober hstops.2
  | protect m sva eva prot => exact fun hstops => hremove m sva eva ho (hsober hstops.1) hstops.2.2
  | _ => exact id

theorem accounted_boot (c : Machine) (m : ℕ) : ((boot c).view c).Accounted c (fun _ _ => false) m := by
  have hnone : ((boot c).view c).wiredMappings c (fun _ _ => false) m = 0 := by
    rw [View.wiredMappings, Finset.card_eq_zero, Finset.filter_eq_empty_iff]
    exact fun k _ hwired => absurd hwired.2 (by simp)
  have hstats : ((boot c).view c).stats m = if m = c.kernelPmap then
      ⟨c.bootResident, c.bootWired, c.bootResident * pageSize, c.bootWired * pageSize⟩
        else ⟨0, 0, 0, 0⟩ := rfl
  by_cases hm : m = c.kernelPmap
  · rw [if_pos hm] at hstats
    refine ⟨?_, ?_, ?_⟩
    · rw [hnone, Machine.wiredBefore, if_pos hm, hstats]
      simp
    · rw [hstats]
      exact Int.mul_comm _ _
    · rw [hstats]
      exact Int.mul_comm _ _
  · rw [if_neg hm] at hstats
    refine ⟨?_, ?_, ?_⟩
    · rw [hnone, Machine.wiredBefore, if_neg hm, hstats]
      rfl
    · rw [hstats]
      rfl
    · rw [hstats]
      rfl

/-- **Wired mappings** are counted and charged, in every run of sober calls, and no panic but one is reached: that of
    the kernel without an entry for a mapping. -/
theorem wired_run {log : List Call}
    (hlog : Meets (wireStep c) (fun x call => ∀ s, x.1 = .ok s → Orderly c s call ∧ (s.view c).Sober c x.2 call)
      (.ok (boot c), fun _ _ => false) log) :
    Always (wireStep c) (fun x => (∃ s, x.1 = .ok s ∧ ∀ m, (s.view c).Accounted c x.2 m) ∨ x.1 = .error .exhaustion)
      (.ok (boot c), fun _ _ => false) log := by
  have hrun : Always (wireStep c)
      (fun x => (∃ s, x.1 = .ok s ∧ Inv c s ∧ ∀ m, (s.view c).Accounted c x.2 m) ∨
      x.1 = .error .exhaustion) (.ok (boot c), fun _ _ => false) log := by
    refine Always.of_meets ?_ (.inl ⟨_, rfl, inv_boot c, accounted_boot c⟩) hlog
    rintro ⟨r, w⟩ call (⟨s, rfl, hinv, hacc⟩ | herr) hmeets
    · obtain ⟨ho, hsober⟩ := hmeets s rfl
      rcases call_spec hinv ho with ⟨s', hok, hinv', heffect, -⟩ | ⟨e, herr, hstops⟩
      · exact .inl ⟨s', hok, hinv', accounted_effect hinv ho hacc hsober heffect⟩
      · refine .inr (herr.trans ?_)
        rcases hstops.cases with rfl | rfl
        · rfl
        · exact absurd hstops (not_stops_wiredCount hinv ho hacc hsober)
    · obtain rfl : r = .error .exhaustion := herr
      exact .inr rfl
  refine hrun.imp fun x hx => hx.imp_left ?_
  rintro ⟨s, hs, -, hacc⟩
  exact ⟨s, hs, hacc⟩

end

section
variable (c : Machine) (v : View) (w : Wanted)

instance (m : ℕ) (l : List ℕ) : Decidable (v.SoberRange c w m l) := by
  unfold View.SoberRange
  infer_instance

instance (m va : ℕ) (pa : Ppn) (wired : Bool) : Decidable (v.SoberEnter c w m va pa wired) := by
  unfold View.SoberEnter
  infer_instance

instance (m : ℕ) (grab : Ppn) : Decidable (v.Sober c w (.create m grab)) := isTrue trivial

instance (m va : ℕ) (pa : Ppn) (prot : Prot) (wired : Bool) (grab : Ppn) :
    Decidable (v.Sober c w (.enter m va pa prot wired grab)) :=
  inferInstanceAs (Decidable ((m = c.kernelPmap ∨ va < commPageBase) → v.SoberEnter c w m va pa wired))

instance (m sva eva : ℕ) : Decidable (v.Sober c w (.remove m sva eva)) :=
  inferInstanceAs (Decidable (v.SoberRange c w m (pages sva eva)))

end

/-- A mapping that is entered, wired when it is entered again, and removed. -/
theorem wired_run_flat : Always (wireStep flat)
    (fun x => (∃ s, x.1 = .ok s ∧ ∀ m, (s.view flat).Accounted flat x.2 m) ∨ x.1 = .error .exhaustion)
    (.ok (boot flat), fun _ _ => false)
    [.create 2 5, .enter 2 0x3000 7 vmProtAll false 6, .enter 2 0x3000 7 vmProtAll true 8, .remove 2 0x3000 0x4000] := by
  refine wired_run ⟨?_, ?_, ?_, ?_, trivial⟩
  · decide +kernel
  · decide +kernel
  · decide +kernel
  · decide +kernel

/-- A new wired mapping is charged to the wrong ledger; and once it is entered wired again, it is not counted, and
    removing it panics. -/
theorem miscounted_wiring :
    (∃ s, run flat [.create 2 5, .enter 2 0x3000 7 vmProtAll true 6] = .ok s ∧
      (s.view flat).Mapped flat 7 2 0x3000 ∧ ((s.view flat).stats 2).wiredCount = 1 ∧ ((s.view flat).stats 2).wiredMem = 0 ∧
      ((s.view flat).stats 2).residentCount = 1 ∧ ((s.view flat).stats 2).physMem = 2 * pageSize) ∧
    (∃ s, run flat [.create 2 5, .enter 2 0x3000 7 vmProtAll true 6, .enter 2 0x3000 7 vmProtAll true 8] = .ok s ∧
      (s.view flat).Mapped flat 7 2 0x3000 ∧ ((s.view flat).stats 2).wiredCount = 0) ∧
    run flat [.create 2 5, .enter 2 0x3000 7 vmProtAll true 6, .enter 2 0x3000 7 vmProtAll true 8,
      .remove 2 0x3000 0x4000] = .error .wiredCount := by
  decide +kernel

end PocketDarwin.Pmap
