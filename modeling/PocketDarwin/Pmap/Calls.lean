/-
  Runs of the pmap module, as its callers see them.

  * `View.Effect`: what each call does to the entries, the attributes and the counts.
  * `Orderly`: what the callers of the module have to keep to; the pmaps exist, addresses
    are those of pages, and the kernel's mappings from before `pmap_init` are left alone.
  * `call_spec`: an orderly call has its effect and keeps the invariant, or ends in one of
    two panics.
  * `inv_boot`: the invariant holds when `pmap_init` returns.
-/
import PocketDarwin.Runs
import PocketDarwin.Pmap.Entering
import PocketDarwin.Pmap.Walks

namespace PocketDarwin.Pmap

namespace View

/-- What `pmap_change_wiring` does to the page that is mapped there. -/
def changeWiring (m va : ℕ) (wired : Bool) (v : View) : View :=
  let p := paIndex (v.entry m va)
  if wired ∧ v.flags p &&& typeWired ≠ 0 then
    (v.count m fun x => { x with wiredCount := x.wiredCount + 1, wiredMem := x.wiredMem + pageSize }).mark p (· ||| typeWired)
  else
    (v.count m fun x => { x with wiredCount := x.wiredCount - 1, wiredMem := x.wiredMem - pageSize }).mark p
      (· &&& ~~~typeWired)

/-- `pmap_remove` -/
def remove (c : Machine) (m sva eva : ℕ) (v : View) : View := (pages sva eva).foldl (removeAt c m) v

/-- `pmap_protect` -/
def protect (m sva eva : ℕ) (prot : Prot) (v : View) : View := (pages sva eva).foldl (protectAt m prot) v

/-- `pmap_page_protect`, with the mappings of the page. -/
def pageProtect (c : Machine) (p : Ppn) (prot : Prot) (l : List (ℕ × ℕ)) (v : View) : View :=
  l.foldl (pageProtectAt c p (removes prot)) v

/-- `pmap_set_cache_attributes`, with the mappings of the page. -/
def setCacheAttributes (p : Ppn) (cacheattr : BitVec 32) (l : List (ℕ × ℕ)) (v : View) : View :=
  (l.foldl (cacheAt (cacheTemplate cacheattr)) v).mark p fun bits =>
    if cacheattr &&& vmMemNotCacheable ≠ 0 then bits ||| typeNocache else bits &&& ~~~typeNocache

/-- What a call does.  The callers do not know in which order the mappings of a page are gone through, nor
    whether a page is needed for the tables. -/
def Effect (c : Machine) (v : View) : Call → View → Prop
  | .create m grab, v' => v' = { v.mark grab (· ||| typeNoencrypt) with stats := Function.update v.stats m ⟨0, 0, 0, 0⟩ }
  | .enter m va pa prot wired grab, v' =>
    if commPageBase < va ∧ m ≠ c.kernelPmap then v' = v
    else ∃ grown first : Bool, (first = true ↔ ∀ m' va', ¬ v.Mapped c pa m' va') ∧
      v' = v.enter c m va pa prot wired grab grown first
  | .remove m sva eva, v' => v' = v.remove c m sva eva
  | .protect m sva eva prot, v' => v' = if prot = 0 then v.remove c m sva eva else v.protect m sva eva prot
  | .pageProtect pn prot, v' =>
    if c.Managed pn ∧ prot ≠ vmProtAll then ∃ l, v.MappingsOf c pn l ∧ v' = v.pageProtect c pn prot l else v' = v
  | .disconnect pa, v' => ∃ l, v.MappingsOf c pa l ∧ v' = v.pageProtect c pa 0 l
  | .changeWiring _ m va wired, v' => v' = v.changeWiring m va wired
  | .setCacheAttributes pn cacheattr, v' => ∃ l, v.MappingsOf c pn l ∧ v' = v.setCacheAttributes pn cacheattr l
  | .setModify pn, v' => v' = v.mark pn (· ||| typeModified)
  | .clearModify pn, v' => v' = v.mark pn (· &&& ~~~typeModified)
  | .setReference pn, v' => v' = v.mark pn (· ||| typeReferenced)
  | .clearReference pn, v' => v' = v.mark pn (· &&& ~~~typeReferenced)
  | .clearRefmod pn mask, v' => v' = v.mark pn (· &&& ~~~mask)
  | .mappingAdjust, v' => v' = v
  | .mappingFreePrime, v' => v' = v

/-- The panics that are left: the kernel finds no entry on its free lists, or more wired pages are removed
    from a pmap than were counted. -/
def Stops (c : Machine) (v : View) : Call → Stop → Prop
  | .enter m _ _ _ _ _, e => m = c.kernelPmap ∧ e = .exhaustion
  | .remove m sva eva, e => e = .wiredCount ∧ ((v.remove c m sva eva).stats m).wiredCount < 0
  | .protect m sva eva prot, e => prot = 0 ∧ e = .wiredCount ∧ ((v.remove c m sva eva).stats m).wiredCount < 0
  | _, _ => False

theorem Stops.cases {c : Machine} {v : View} {call : Call} {e : Stop} (h : v.Stops c call e) :
    e = .exhaustion ∨ e = .wiredCount := by
  cases call with
  | enter m va pa prot wired grab => exact .inl h.2
  | remove m sva eva => exact .inr h.1
  | protect m sva eva prot => exact .inr h.2.1
  | _ => exact h.elim

end View

/-- A range of pages that a pmap can map, apart from what the kernel had mapped before `pmap_init`. -/
structure Range (c : Machine) (t : Tables) (m sva eva : ℕ) : Prop where
  live : t.Live m
  start : sva % 0x1000 = 0
  stop : eva % 0x1000 = 0
  high : eva ≤ 0xfff00000
  low : m = c.kernelPmap ∨ eva ≤ commPageBase
  fresh : ∀ va ∈ pages sva eva, ¬ c.Boot m va

instance (c : Machine) (t : Tables) (m sva eva : ℕ) : Decidable (Range c t m sva eva) :=
  decidable_of_iff (t.Live m ∧ sva % 0x1000 = 0 ∧ eva % 0x1000 = 0 ∧ eva ≤ 0xfff00000 ∧
      (m = c.kernelPmap ∨ eva ≤ commPageBase) ∧ ∀ va ∈ pages sva eva, ¬ c.Boot m va)
    ⟨fun ⟨h₁, h₂, h₃, h₄, h₅, h₆⟩ => ⟨h₁, h₂, h₃, h₄, h₅, h₆⟩, fun ⟨h₁, h₂, h₃, h₄, h₅, h₆⟩ => ⟨h₁, h₂, h₃, h₄, h₅, h₆⟩⟩

/-- What the callers keep to.  A mapping is not replaced by one of the other kind, managed or not. -/
def Orderly (c : Machine) (s : State) : Call → Prop
  | .create m grab => m ≠ 0 ∧ ¬ s.tables.Live m ∧ s.tables.Grants c grab
  | .enter m va pa _ wired grab =>
    s.tables.Live m ∧ Aligned va ∧ (m = c.kernelPmap ∨ va ≠ commPageBase) ∧ ¬ c.Boot m va ∧ s.tables.Grants c grab ∧
      (paIndex ((s.view c).entry m va) = 0 ∨ (c.Managed (paIndex ((s.view c).entry m va)) ↔ c.Managed pa)) ∧
      (wired = true → paIndex ((s.view c).entry m va) = pa → paiToPvh c pa = .ok (.rooted pa))
  | .remove m sva eva | .protect m sva eva _ => Range c s.tables m sva eva
  | .pageProtect _ _ => True
  | .disconnect pn | .setCacheAttributes pn _ | .setModify pn | .clearModify pn | .setReference pn | .clearReference pn
  | .clearRefmod pn _ => c.Managed pn
  | .changeWiring current m va _ =>
    ∃ p, (s.view c).Mapped c p m va ∧ pmapExtract c current m va s = p
  | .mappingAdjust | .mappingFreePrime => True

instance (c : Machine) (s : State) : ∀ call, Decidable (Orderly c s call)
  | .create _ _ | .enter _ _ _ _ _ _ => inferInstanceAs (Decidable (_ ∧ _))
  | .remove m sva eva | .protect m sva eva _ => inferInstanceAs (Decidable (Range c s.tables m sva eva))
  | .disconnect pn | .setCacheAttributes pn _ | .setModify pn | .clearModify pn | .setReference pn | .clearReference pn
  | .clearRefmod pn _ => inferInstanceAs (Decidable (c.Managed pn))
  | .changeWiring current m va _ =>
    decidable_of_iff ((s.view c).Mapped c (pmapExtract c current m va s) m va)
      ⟨fun h => ⟨_, h, rfl⟩, fun ⟨_, h, heq⟩ => heq ▸ h⟩
  | .pageProtect _ _ | .mappingAdjust | .mappingFreePrime => isTrue trivial

section
variable {c : Machine} {s : State} {call : Call}

/-- Attributes and counts of wired pages do not matter for the invariant. -/
theorem Inv.of_tables {s' : State} (h : Inv c s) (htables : s'.tables = s.tables) (hpv : s'.pv = s.pv)
    (hcount : ∀ m, (s.stats m).residentCount ≤ (s'.stats m).residentCount) : Inv c s' :=
  h.of_same_pages (htables ▸ h.wf) hpv hcount fun m va => by simp only [State.view, htables]

/-- A pmap that there is not maps nothing. -/
theorem residents_of_not_live {m : ℕ} (hm : ¬ s.tables.Live m) : (s.view c).residents c m = 0 := by
  refine View.residents_eq_zero fun va hres => hres.mapped.entry_ne_zero ?_
  simp only [State.view]
  split_ifs
  · exact entry_of_not_live hm
  · rfl

/-- `pmap_create` -/
theorem pmapCreate_spec {m : ℕ} {grab : Ppn} (h : Inv c s) (hm₀ : m ≠ 0) (hm : ¬ s.tables.Live m)
    (hg : s.tables.Grants c grab) :
    ∃ s', pmapCreate c m grab s = .ok s' ∧ Inv c s' ∧ (s.view c).Effect c (.create m grab) (s'.view c) ∧
      ∀ m', s'.tables.Live m' ↔ s.tables.Live m' ∨ m' = m := by
  obtain ⟨hwf, hentry⟩ := h.wf.create hm hm₀ hg.2.2.2
  obtain ⟨names, hholds, hagree⟩ := h.lists
  let s' : State := { s with
    tables := s.tables.create m grab
    stats := Function.update s.stats m ⟨0, 0, 0, 0⟩
    flags := Function.update s.flags grab (s.flags grab ||| typeNoencrypt) }
  have hview : (s'.view c).entry = (s.view c).entry := by
    simp only [State.view, s', hentry]
  refine ⟨s', physAttributeSet_eq hg.paiToPvh, ⟨hwf, ⟨names, hholds, hagree.of_entry hview⟩,
    fun m' => ?_⟩,
    View.ext hview rfl rfl, fun m' => ?_⟩
  · have hres : ∀ va, (s'.view c).Resident c m' va ↔ (s.view c).Resident c m' va := by
      intro va
      rw [View.Resident, View.Resident, hview]
    by_cases heq : m' = m
    · rw [View.excess, View.residents_congr hres, heq, residents_of_not_live hm]
      simp [s']
    · have hcount : ((s'.view c).stats m').residentCount = ((s.view c).stats m').residentCount := by
        simp [s', heq]
      rw [View.excess_congr hcount hres]
      exact h.counted m'
  · simp only [Tables.Live, s', Tables.create, pmapGrabPage]
    by_cases heq : m' = m
    · simp [heq]
    · simp [heq]

/-- **`pmap_change_wiring`** of a mapping that `pmap_extract` finds. -/
theorem pmapChangeWiring_spec {current m va : ℕ} (wired : Bool) {p : Ppn} (h : Inv c s)
    (hmapped : (s.view c).Mapped c p m va) (hextract : pmapExtract c current m va s = p) :
    ∃ s', pmapChangeWiring c current m va wired s = .ok s' ∧ Inv c s' ∧ s'.view c = (s.view c).changeWiring m va wired ∧
      s.tables.Same s'.tables := by
  obtain ⟨hva, loc, hpte⟩ := State.exists_pte h.wf hmapped.entry_ne_zero
  have hpai := paiToPvh_of_managed hmapped.1
  obtain rfl := hmapped.2.2
  have hcount : ∀ (f : Stats → Stats) flags, (∀ x, (f x).residentCount = x.residentCount) →
      Inv c { s.count m f with flags := flags } := by
    intro f flags hf
    refine h.of_tables rfl rfl fun m' => ?_
    by_cases hm : m' = m
    · subst hm
      simp [State.count, hf]
    · simp [State.count, hm]
  simp only [pmapChangeWiring, hpte, Bind.bind, Except.bind, hextract, physAttributeTest_eq hpai,
    physAttributeSet_eq hpai,
    physAttributeClear_eq hpai]
  by_cases hwired : wired = true ∧ s.flags (paIndex ((s.view c).entry m va)) &&& typeWired ≠ 0
  · have hchange : (s.view c).changeWiring m va wired = _ := if_pos hwired
    simp only [if_pos hwired]
    refine ⟨_, rfl, hcount _ _ fun _ => rfl, ?_, .refl _⟩
    rw [hchange]
    rfl
  · have hchange : (s.view c).changeWiring m va wired = _ := if_neg hwired
    simp only [if_neg hwired]
    refine ⟨_, rfl, hcount _ _ fun _ => rfl, ?_, .refl _⟩
    rw [hchange]
    rfl

/-- `pmap_disconnect` -/
theorem pmapDisconnect_spec {p : Ppn} (h : Inv c s) (hp : c.Managed p) :
    ∃ refmod s', pmapDisconnect c p s = .ok (refmod, s') ∧ Inv c s' ∧ (s.view c).Effect c (.disconnect p) (s'.view c) ∧
      pmapGetRefmod c p s' = .ok refmod ∧ s.tables.Same s'.tables := by
  obtain ⟨s', l, hok, hinv, hview, hl, hsame⟩ := pmapPageProtect_spec 0 h hp (by decide)
  have hrefmod : ∃ refmod, pmapGetRefmod c p s' = .ok refmod := by
    simp only [pmapGetRefmod, physAttributeTest_eq (paiToPvh_of_managed hp), Bind.bind, Except.bind]
    exact ⟨_, rfl⟩
  obtain ⟨refmod, hrefmod⟩ := hrefmod
  refine ⟨refmod, s', ?_, hinv, ⟨l, hl, hview⟩, hrefmod, hsame⟩
  simp only [pmapDisconnect, hok, hrefmod, Bind.bind, Except.bind]

/-- The pmaps that a call creates. -/
def Call.Creates : Call → ℕ → Prop
  | .create m _, m' => m' = m
  | _, _ => False

/-- The call ends in a state with the invariant and its effect, or in one of the two panics. -/
def Refines (c : Machine) (s : State) (call : Call) : Prop :=
  (∃ s', s.call c call = .ok s' ∧ Inv c s' ∧ (s.view c).Effect c call (s'.view c) ∧
    ∀ m, s'.tables.Live m ↔ s.tables.Live m ∨ call.Creates m) ∨
  ∃ e, s.call c call = .error e ∧ (s.view c).Stops c call e

theorem Refines.of_same (s' : State) (hok : s.call c call = .ok s') (hinv : Inv c s')
    (heffect : (s.view c).Effect c call (s'.view c)) (hsame : s'.tables.l1Size = s.tables.l1Size)
    (hcreate : ∀ m, ¬ call.Creates m) : Refines c s call := by
  refine .inl ⟨s', hok, hinv, heffect, fun m => ?_⟩
  rw [Tables.Live, hsame, or_iff_left (hcreate m), Tables.Live]

/-- The calls that only change attributes. -/
theorem Refines.of_flags {flags : Ppn → BitVec 32} (h : Inv c s) (hok : s.call c call = .ok { s with flags := flags })
    (heffect : (s.view c).Effect c call { s.view c with flags := flags }) (hcreate : ∀ m, ¬ call.Creates m) :
    Refines c s call :=
  .of_same _ hok (h.of_tables rfl rfl fun _ => le_rfl) heffect rfl hcreate

/-- The calls that only put entries on the free lists. -/
theorem Refines.of_pv {pv' : Pv} (h : Inv c s) (hok : s.call c call = .ok { s with pv := pv' })
    (hholds : ∀ names, (s.pv.Holds c .empty names fun _ => False) → pv'.Holds c .empty names fun _ => False)
    (heffect : (s.view c).Effect c call (s.view c)) (hcreate : ∀ m, ¬ call.Creates m) : Refines c s call := by
  obtain ⟨names, hnames, hagree⟩ := h.lists
  exact .of_same _ hok ⟨h.wf, ⟨names, hholds names hnames, hagree⟩, h.counted⟩ heffect rfl hcreate

/-- **Refinement.**  An orderly call does what its callers see, and keeps the invariant. -/
theorem call_spec (h : Inv c s) (ho : Orderly c s call) : Refines c s call := by
  cases call with
  | create m grab =>
    obtain ⟨hm₀, hm, hg⟩ := ho
    exact .inl (pmapCreate_spec h hm₀ hm hg)
  | enter m va pa prot wired grab =>
    obtain ⟨hm, hva, hcomm, hboot, hg, hkind, hpai⟩ := ho
    by_cases hhigh : commPageBase < va ∧ m ≠ c.kernelPmap
    · refine .of_same s ?_ h ?_ rfl fun _ => id
      · simp only [State.call, pmapEnter, pmapEnterOptions, if_pos hhigh, Bind.bind, Except.bind]
      · simp only [View.Effect, if_pos hhigh]
    · have hl : Lookup c m va := by
        by_cases hk : m = c.kernelPmap
        · exact .inl hk
        · exact .inr (lt_of_le_of_ne (Nat.not_lt.1 fun hlt => hhigh ⟨hlt, hk⟩) (hcomm.resolve_left hk))
      rcases pmapEnter_spec prot h hm hva hl hboot hg hkind hpai with
        ⟨s', grown, first, hok, hinv, hview, hfirst, hsize⟩ | ⟨hk, hstop⟩
      · refine .of_same _ hok hinv ?_ hsize fun _ => id
        simp only [View.Effect, if_neg hhigh]
        exact ⟨grown, first, hfirst, hview⟩
      · exact .inr ⟨_, hstop, hk, rfl⟩
  | remove m sva eva =>
    obtain ⟨hm, hs, he, hend, hl, hboot⟩ := ho
    rcases pmapRemove_spec h hm hs he hend hl hboot rfl with ⟨s', hok, hinv, hview, hsame⟩ | ⟨hstop, hneg⟩
    · exact .of_same _ hok hinv hview hsame.2.1 fun _ => id
    · exact .inr ⟨_, hstop, rfl, hneg⟩
  | protect m sva eva prot =>
    obtain ⟨hm, hs, he, hend, hl, hboot⟩ := ho
    have hm₀ : m ≠ 0 := fun hzero => hm (hzero ▸ h.wf.null)
    by_cases hprot : prot = 0
    · have hcall : s.call c (.protect m sva eva prot) = pmapRemove c m sva eva s := by
        simp only [State.call, pmapProtect, if_neg hm₀, if_pos hprot]
      rcases pmapRemove_spec h hm hs he hend hl hboot rfl with ⟨s', hok, hinv, hview,
        hsame⟩ | ⟨hstop, hneg⟩
      · refine .of_same _ (hcall.trans hok) hinv ?_ hsame.2.1 fun _ => id
        simp only [View.Effect, if_pos hprot]
        exact hview
      · exact .inr ⟨_, hcall.trans hstop, hprot, rfl, hneg⟩
    · obtain ⟨s', hok, hinv, hview, hsame⟩ := pmapProtect_spec h hm hs he hend hl hprot
      refine .of_same _ hok hinv ?_ hsame.2.1 fun _ => id
      simp only [View.Effect, if_neg hprot]
      exact hview
  | pageProtect pn prot =>
    by_cases hact : c.Managed pn ∧ prot ≠ vmProtAll
    · obtain ⟨s', l, hok, hinv, hview, hl, hsame⟩ := pmapPageProtect_spec prot h hact.1 hact.2
      refine .of_same _ hok hinv ?_ hsame.2.1 fun _ => id
      simp only [View.Effect, if_pos hact]
      exact ⟨l, hl, hview⟩
    · refine .of_same s ?_ h ?_ rfl fun _ => id
      · simp only [State.call, pmapPageProtect]
        by_cases hp : c.Managed pn
        · have hall : prot = vmProtAll := by
            by_contra hne
            exact hact ⟨hp, hne⟩
          rw [if_neg (not_not.2 hp), if_pos hall]
        · rw [if_pos hp]
      · simp only [View.Effect, if_neg hact]
  | disconnect pa =>
    obtain ⟨refmod, s', hok, hinv, heffect, -, hsame⟩ := pmapDisconnect_spec h ho
    refine .of_same s' ?_ hinv heffect hsame.2.1 fun _ => id
    simp only [State.call, hok, Except.map]
  | changeWiring current m va wired =>
    obtain ⟨p, hmapped, hextract⟩ := ho
    obtain ⟨s', hok, hinv, hview, hsame⟩ := pmapChangeWiring_spec wired h hmapped hextract
    exact .of_same _ hok hinv hview hsame.2.1 fun _ => id
  | setCacheAttributes pn cacheattr =>
    obtain ⟨s', l, hok, hinv, hview, hl, hsame⟩ := pmapSetCacheAttributes_spec cacheattr h ho
    exact .of_same _ hok hinv ⟨l, hl, hview⟩ hsame.2.1 fun _ => id
  | setModify pn => exact .of_flags h (physAttributeSet_eq (paiToPvh_of_managed ho)) rfl fun _ => id
  | clearModify pn => exact .of_flags h (physAttributeClear_eq (paiToPvh_of_managed ho)) rfl fun _ => id
  | setReference pn => exact .of_flags h (physAttributeSet_eq (paiToPvh_of_managed ho)) rfl fun _ => id
  | clearReference pn =>
    exact .of_flags h (physAttributeClear_eq (paiToPvh_of_managed ho)) rfl fun _ => id
  | clearRefmod pn mask =>
    exact .of_flags h (physAttributeClear_eq (paiToPvh_of_managed ho)) rfl fun _ => id
  | mappingAdjust =>
    exact .of_pv h (by rw [State.call]) (fun _ => Pv.Holds.mappingAdjust) rfl fun _ => id
  | mappingFreePrime =>
    exact .of_pv h (by rw [State.call]) (fun _ => Pv.Holds.mappingFreePrime) rfl fun _ => id

/-- A call that returns has its effect. -/
theorem call_ok {s' : State} (h : Inv c s) (ho : Orderly c s call) (hok : s.call c call = .ok s') :
    Inv c s' ∧ (s.view c).Effect c call (s'.view c) := by
  rcases call_spec h ho with ⟨s₁, hok₁, hinv, heffect, -⟩ | ⟨e, herr, -⟩
  · obtain rfl := Except.ok.inj (hok₁.symm.trans hok)
    exact ⟨hinv, heffect⟩
  · rw [herr] at hok
    simp at hok

end

/-! ## Runs -/

/-- Calls one after the other, from `pmap_init` on. -/
def run (c : Machine) (log : List Call) : Except Stop State := log.foldl (step c) (.ok (boot c))

section
variable {c : Machine}

theorem step_eq_ok {r : Except Stop State} {call : Call} {s' : State} :
    step c r call = .ok s' ↔ ∃ s, r = .ok s ∧ s.call c call = .ok s' := by
  cases r <;> simp [step, Except.bind]

/-- The tables that the kernel has when `pmap_init` returns. -/
theorem wf_boot (c : Machine) : (boot c).tables.WF c := by
  have hsize : ∀ m, (boot c).tables.l1Size m = if m = c.kernelPmap then 0x4000 else 0 := fun _ => rfl
  have hl1 : (boot c).tables.l1 c.kernelPmap = c.bootL1 := if_pos rfl
  have hkernel : ∀ m i, i * 4 < (boot c).tables.l1Size m → m = c.kernelPmap := by
    intro m i hi
    rw [hsize] at hi
    by_contra hm
    rw [if_neg hm] at hi
    omega
  exact
    { kernel := by rw [hsize, if_pos rfl]
      null := by rw [hsize, if_neg c.kernel_ne.symm]
      user := fun m hm => .inl (by rw [hsize, if_neg hm])
      isPageTable := by
        intro m i hi
        obtain rfl := hkernel m i hi
        rw [hl1]
        exact c.boot_isPageTable i
      not_isSection := by
        intro m i hi
        obtain rfl := hkernel m i hi
        rw [hl1]
        exact c.boot_not_isSection i
      page := by
        intro m i hi
        obtain rfl := hkernel m i hi
        rw [hl1]
        exact c.boot_page i
      inj := by
        intro m i m' i' hi hi'
        obtain rfl := hkernel m i hi
        obtain rfl := hkernel m' i' hi'
        rw [hl1]
        exact fun hne heq => ⟨rfl, c.boot_inj i i' hne heq⟩ }

/-- The lists that `pmap_init` leaves are empty. -/
theorem holds_boot (c : Machine) : (boot c).pv.Holds c .empty (fun _ => []) fun _ => False := by
  let L : Lists :=
    { queue := fun _ => []
      chain := fun _ => []
      free := fun _ => []
      bunch := []
      place := Ref.rec (fun _ => .root) fun _ => .outside
      ringed := fun _ => False }
  have hplace : ∀ r, L.place r = .root ∨ L.place r = .outside := by
    intro r
    cases r <;> simp [L]
  have hnot : ∀ r X, X ≠ .root → X ≠ .outside → L.place r ≠ X := by
    intro r X hroot houtside heq
    rcases hplace r with hr | hr
    · exact hroot (heq.symm.trans hr)
    · exact houtside (heq.symm.trans hr)
  refine ⟨L, ?_, fun p => ?_, fun r => iff_of_false (hnot r _ (by simp) (by simp)) id, fun _ _ => rfl⟩
  · exact
      { root := fun r => by cases r <;> simp [L]
        outside := fun r => by cases r <;> simp [L, boot]
        mem_queue := fun p r => iff_of_false (by simp [L]) (hnot r _ (by simp) (by simp))
        mem_free := fun k r => iff_of_false (by simp [L]) (hnot r _ (by simp) (by simp))
        mem_bunch := fun r => iff_of_false (by simp [L]) (hnot r _ (by simp) (by simp))
        ring := fun _ hp => hp.elim
        blank := fun _ _ => ⟨rfl, rfl⟩
        queued := fun p r hr => absurd hr (hnot r _ (by simp) (by simp))
        chain := fun _ => rfl
        mem_chain := fun i r => iff_of_false (by simp [L]) fun hand => hand.1.elim fun p hp =>
          hnot r _ (by simp) (by simp) hp
        free := fun _ => rfl
        freeCount := fun _ => rfl
        bunch := rfl
        tail := rfl
        count := rfl }
  · rw [Pv.names_of_null rfl]
    rfl

/-- Nothing of what was mapped before `pmap_init` is on a list. -/
theorem not_resident_boot {m va : ℕ} : ¬ ((boot c).view c).Resident c m va := fun hres => hres.2 hres.mapped.entry_ne_zero

/-- **The invariant** holds when `pmap_init` returns. -/
theorem inv_boot (c : Machine) : Inv c (boot c) := by
  refine ⟨wf_boot c, ⟨_, holds_boot c, ⟨fun _ => .nil, fun p m va => ?_⟩⟩, fun m => ?_⟩
  · exact iff_of_false (by simp) fun hmapped => not_resident_boot hmapped.resident
  · rw [View.excess, View.residents_eq_zero fun va => not_resident_boot]
    simp only [State.stats_view, boot]
    split_ifs <;> simp

end

/-- What is said of the state that a run ends in can be tested. -/
instance decidableOk {ε α : Type} (P : α → Prop) [∀ a, Decidable (P a)] : ∀ r : Except ε α, Decidable (∀ a, r = .ok a → P a)
  | .ok a => decidable_of_iff (P a) ⟨fun h _ heq => Except.ok.inj heq ▸ h, fun h => h a rfl⟩
  | .error _ => isTrue fun _ heq => by simp at heq

instance decidableExistsOk {ε α : Type} (P : α → Prop) [∀ a, Decidable (P a)] :
    ∀ r : Except ε α, Decidable (∃ a, r = .ok a ∧ P a)
  | .ok a => decidable_of_iff (P a) ⟨fun h => ⟨a, rfl, h⟩, fun ⟨_, heq, h⟩ => Except.ok.inj heq ▸ h⟩
  | .error _ => isFalse fun ⟨_, heq, _⟩ => by simp at heq

instance decidableEqError {ε α : Type} [DecidableEq ε] (e : ε) : ∀ r : Except ε α, Decidable (r = .error e)
  | .ok _ => isFalse fun heq => by simp at heq
  | .error e' => decidable_of_iff (e' = e) ⟨fun h => h ▸ rfl, Except.error.inj⟩

/-- A machine whose memory is all managed, with nothing mapped in the kernel. -/
def flat : Machine where
  kernelPmap := 1
  physBase := 0
  availStart := 0
  availEnd := 0x10000000
  npvhash := 16
  bootL1 := fun _ => 0
  bootL2 := fun _ _ => 0
  bootPages := []
  bootResident := 0
  bootWired := 0
  kernel_ne := by decide
  physBase_le := le_rfl
  boot_isPageTable := fun _ => by decide
  boot_not_isSection := fun _ => by decide
  boot_page := fun _ h => absurd rfl h
  boot_inj := fun _ _ h => absurd rfl h

end PocketDarwin.Pmap
