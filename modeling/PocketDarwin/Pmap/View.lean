/-
  The pmap module as its callers see it: page table entries by pmap and address, the
  attributes of the pages, and the counts.

  * `View`: what is left of a `State` without the tables and the lists; its operations are
    those of the module, entry by entry.
  * `View.Mapped`: the mappings of a managed page.
  * `Inv`: what every call keeps; the lists are those of the mappings.
-/
import Mathlib.Data.Finset.Card
import Mathlib.Data.Finset.Range
import Mathlib.Data.Int.Basic
import PocketDarwin.Pmap.Operations

namespace PocketDarwin.Pmap

/-- The addresses of pages. -/
def Aligned (va : ℕ) : Prop := va % 0x1000 = 0 ∧ va < 0x100000000

instance (va : ℕ) : Decidable (Aligned va) := inferInstanceAs (Decidable (_ ∧ _))

/-- The page table entries, at addresses of pages, with the attributes and the counts. -/
@[ext]
structure View where
  entry : ℕ → ℕ → Word
  flags : Ppn → BitVec 32
  stats : ℕ → Stats

/-- What the callers see of a state. -/
def State.view (c : Machine) (s : State) : View where
  entry := fun m va => if Aligned va then s.tables.entry c m va else 0
  flags := s.flags
  stats := s.stats

/-- The kernel's mappings from before `pmap_init`, which no list knows of. -/
def Machine.Boot (c : Machine) (m va : ℕ) : Prop := ((boot c).view c).entry m va ≠ 0

instance (c : Machine) (m va : ℕ) : Decidable (c.Boot m va) := inferInstanceAs (Decidable (_ ≠ _))

namespace View

/-- An entry is written. -/
def set (v : View) (m va : ℕ) (w : Word) : View :=
  { v with entry := fun m' va' => if m' = m ∧ va' = va then w else v.entry m' va' }

/-- The counts of a pmap are changed. -/
def count (v : View) (m : ℕ) (f : Stats → Stats) : View :=
  { v with stats := Function.update v.stats m (f (v.stats m)) }

/-- The attributes of a page are changed. -/
def mark (v : View) (p : Ppn) (f : BitVec 32 → BitVec 32) : View :=
  { v with flags := Function.update v.flags p (f (v.flags p)) }

/-- `removed` mappings are off the counts, `unwired` of them wired. -/
def charge (removed unwired : ℤ) (x : Stats) : Stats where
  residentCount := x.residentCount - removed
  wiredCount := x.wiredCount - unwired
  physMem := x.physMem - removed * pageSize
  wiredMem := x.wiredMem - unwired * pageSize

/-- What `pmap_remove` does at one address. -/
def removeAt (c : Machine) (m : ℕ) (v : View) (va : ℕ) : View :=
  let p := paIndex (v.entry m va)
  if c.Managed p then
    if v.flags p &&& typeWired ≠ 0 then ((v.mark p (· &&& ~~~typeWired)).set m va 0).count m (charge 1 1)
    else (v.set m va 0).count m (charge 1 0)
  else v

/-- What `pmap_protect` does at one address. -/
def protectAt (m : ℕ) (prot : Prot) (v : View) (va : ℕ) : View :=
  if Valid (v.entry m va) then v.set m va (protectPte prot (v.entry m va)) else v

/-- Does `pmap_page_protect` remove all mappings, for this protection?  It does nothing for `VM_PROT_ALL`. -/
def removes (prot : Prot) : Bool := !(prot == vmProtRead || prot == vmProtRead ||| vmProtExecute)

/-- What `pmap_page_protect` does to a mapping of the page. -/
def pageProtectAt (c : Machine) (p : Ppn) (remove : Bool) (v : View) (x : ℕ × ℕ) : View :=
  if remove ∨ x.1 = c.kernelPmap then
    ((v.set x.1 x.2 0).mark p (· &&& ~~~(typeReferenced ||| typeModified))).count x.1 fun y =>
      { y with residentCount := y.residentCount - 1, physMem := y.physMem - pageSize }
  else v.set x.1 x.2 (v.entry x.1 x.2 ||| l2AccessApx)

/-- What `pmap_set_cache_attributes` does to a mapping of the page. -/
def cacheAt (attributes : Word) (v : View) (x : ℕ × ℕ) : View :=
  v.set x.1 x.2 (setCacheability attributes (v.entry x.1 x.2))

/-- The memory type for new mappings of a page. -/
def cacheAttributes (c : Machine) (v : View) (p : Ppn) : Word :=
  if ¬ c.Managed p then 0 else if v.flags p &&& typeNocache ≠ 0 then 0 else writeThrough

/-- The entry for a new mapping. -/
def template (c : Machine) (v : View) (m va : ℕ) (pa : Ppn) (prot : Prot) : Word :=
  templatePte (m == c.kernelPmap) (va == commPageBase) pa prot (v.cacheAttributes c pa)

/-- `pmap_enter` of the page that is mapped there. -/
def enterSame (c : Machine) (m va : ℕ) (pa : Ppn) (prot : Prot) (wired : Bool) (v : View) : View :=
  let w := v.template c m va pa prot
  if wired then
    if v.flags pa &&& typeWired = 0 then
      ((v.mark pa (· ||| typeWired)).count m fun x =>
        { x with wiredCount := x.wiredCount + 1, wiredMem := x.wiredMem + pageSize }).set m va w
    else
      (v.count m fun x => { x with wiredCount := x.wiredCount - 1, wiredMem := x.wiredMem - pageSize }).set m va w
  else v.set m va w

/-- The mapping that `pmap_enter` replaces by one of `pa`. -/
def unmapOld (m : ℕ) (pa : Ppn) (v : View) : View :=
  let v := v.count m fun x => { x with residentCount := x.residentCount - 1, physMem := x.physMem - pageSize }
  if v.flags pa &&& typeWired ≠ 0 then
    (v.count m fun x => { x with wiredCount := x.wiredCount - 1 }).mark pa (· &&& ~~~typeWired)
  else v

/-- `EnterPte` -/
def enterPte (c : Machine) (m va : ℕ) (pa : Ppn) (prot : Prot) (wired : Bool) (v : View) : View :=
  let v := v.count m fun x => { x with residentCount := x.residentCount + 1, physMem := x.physMem + pageSize }
  let v :=
    if wired then v.count m fun x => { x with wiredCount := x.wiredCount + 1, physMem := x.physMem + pageSize }
    else v
  v.set m va (v.template c m va pa prot)

/-- `pmap_enter` of another page, which had no mapping before if `first`. -/
def enterOther (c : Machine) (m va : ℕ) (pa : Ppn) (prot : Prot) (wired first : Bool) (v : View) : View :=
  let v' := if paIndex (v.entry m va) ≠ 0 then v.set m va 0 else v
  if ¬ c.Managed pa then v'.enterPte c m va pa prot wired
  else
    let v' := if paIndex (v.entry m va) ≠ 0 then v'.unmapOld m pa else v'
    let v' := if wired && first then v'.mark pa (· ||| typeWired) else v'
    v'.enterPte c m va pa prot wired

/-- `pmap_enter`, with a page for the tables if `grown`. -/
def enter (c : Machine) (m va : ℕ) (pa : Ppn) (prot : Prot) (wired : Bool) (grab : Ppn) (grown first : Bool) (v : View) :
    View :=
  let v := if grown then v.mark grab (· ||| typeNoencrypt) else v
  if paIndex (v.entry m va) = pa then v.enterSame c m va pa prot wired else v.enterOther c m va pa prot wired first

section
variable (c : Machine)

/-- The address maps a managed page, on the list of the page. -/
def Mapped (v : View) (p : Ppn) (m va : ℕ) : Prop := c.Managed p ∧ ¬ c.Boot m va ∧ paIndex (v.entry m va) = p

instance (v : View) (p : Ppn) (m va : ℕ) : Decidable (v.Mapped c p m va) := inferInstanceAs (Decidable (_ ∧ _))

/-- The mappings of a page, each once. -/
def MappingsOf (v : View) (p : Ppn) (l : List (ℕ × ℕ)) : Prop := l.Nodup ∧ ∀ m va, (m, va) ∈ l ↔ v.Mapped c p m va

/-- The address maps some managed page. -/
def Resident (v : View) (m va : ℕ) : Prop := c.Managed (paIndex (v.entry m va)) ∧ ¬ c.Boot m va

instance (v : View) (m va : ℕ) : Decidable (v.Resident c m va) := inferInstanceAs (Decidable (_ ∧ _))

/-- The number of addresses of a pmap that map managed pages. -/
def residents (v : View) (m : ℕ) : ℕ := ((Finset.range 0x100000).filter fun k => v.Resident c m (k * 0x1000)).card

/-- What is counted besides: other pages, and the kernel's mappings from before `pmap_init`. -/
def excess (v : View) (m : ℕ) : ℤ := (v.stats m).residentCount - v.residents c m

end

section
variable {c : Machine} {v : View} {m m' va va' : ℕ} {w : Word} {p : Ppn}

@[simp] theorem entry_set : (v.set m va w).entry m' va' = if m' = m ∧ va' = va then w else v.entry m' va' := rfl

@[simp] theorem flags_set : (v.set m va w).flags = v.flags := rfl

@[simp] theorem stats_set : (v.set m va w).stats = v.stats := rfl

@[simp] theorem entry_count (f : Stats → Stats) : (v.count m f).entry = v.entry := rfl

@[simp] theorem flags_count (f : Stats → Stats) : (v.count m f).flags = v.flags := rfl

@[simp] theorem entry_mark (f : BitVec 32 → BitVec 32) : (v.mark p f).entry = v.entry := rfl

@[simp] theorem stats_mark (f : BitVec 32 → BitVec 32) : (v.mark p f).stats = v.stats := rfl

theorem Mapped.resident (h : v.Mapped c p m va) : v.Resident c m va := ⟨h.2.2 ▸ h.1, h.2.1⟩

theorem Resident.mapped (h : v.Resident c m va) : v.Mapped c (paIndex (v.entry m va)) m va := ⟨h.1, h.2, rfl⟩

theorem Mapped.entry_ne_zero (h : v.Mapped c p m va) : v.entry m va ≠ 0 := by
  intro hzero
  have := h.2.2
  rw [hzero, paIndex_zero] at this
  exact h.1.ne_zero this.symm

/-- Only the entries tell what is mapped. -/
theorem residents_congr {v' : View} (h : ∀ va, v'.Resident c m va ↔ v.Resident c m va) :
    v'.residents c m = v.residents c m := by
  rw [residents, residents, Finset.filter_congr fun k _ => h (k * 0x1000)]

theorem excess_congr {v' : View} (hcount : (v'.stats m).residentCount = (v.stats m).residentCount)
    (h : ∀ va, v'.Resident c m va ↔ v.Resident c m va) : v'.excess c m = v.excess c m := by
  rw [excess, excess, hcount, residents_congr h]

theorem excess_of_entry {v' : View} (h : v'.entry = v.entry)
    (hcount : (v'.stats m).residentCount = (v.stats m).residentCount) : v'.excess c m = v.excess c m :=
  excess_congr hcount fun va => by rw [Resident, Resident, h]

theorem residents_eq_zero (h : ∀ va, ¬ v.Resident c m va) : v.residents c m = 0 := by
  rw [residents, Finset.card_eq_zero, Finset.filter_eq_empty_iff]
  exact fun k _ => h (k * 0x1000)

/-- One address less. -/
theorem residents_of_removed {v' : View} (hva : Aligned va) (hold : v.Resident c m va) (hnew : ¬ v'.Resident c m va)
    (h : ∀ va', va' ≠ va → (v'.Resident c m va' ↔ v.Resident c m va')) :
    v'.residents c m + 1 = v.residents c m := by
  have hk : va / 0x1000 * 0x1000 = va := by have := hva.1; omega
  have hmem : va / 0x1000 ∈ (Finset.range 0x100000).filter fun k => v.Resident c m (k * 0x1000) := by
    rw [Finset.mem_filter, Finset.mem_range, hk]
    exact ⟨by have := hva.2; omega, hold⟩
  have heq : ((Finset.range 0x100000).filter fun k => v'.Resident c m (k * 0x1000)) =
      ((Finset.range 0x100000).filter fun k => v.Resident c m (k * 0x1000)).erase (va / 0x1000) := by
    ext k
    simp only [Finset.mem_filter, Finset.mem_erase]
    by_cases hkk : k = va / 0x1000
    · simp [hkk, hk, hnew]
    · have : k * 0x1000 ≠ va := by omega
      simp [hkk, h _ this]
  rw [residents, heq, residents]
  exact Finset.card_erase_add_one hmem

/-- One address more. -/
theorem residents_of_added {v' : View} (hva : Aligned va) (hold : ¬ v.Resident c m va) (hnew : v'.Resident c m va)
    (h : ∀ va', va' ≠ va → (v'.Resident c m va' ↔ v.Resident c m va')) :
    v'.residents c m = v.residents c m + 1 :=
  (residents_of_removed hva hnew hold fun va' hne => (h va' hne).symm).symm

/-- An entry that is written does not matter for other pmaps and addresses. -/
theorem resident_set_of_ne (h : ¬ (m' = m ∧ va' = va)) : (v.set m va w).Resident c m' va' ↔ v.Resident c m' va' := by
  rw [Resident, entry_set, if_neg h, Resident]

theorem resident_set_self : (v.set m va w).Resident c m va ↔ c.Managed (paIndex w) ∧ ¬ c.Boot m va := by
  rw [Resident, entry_set, if_pos ⟨rfl, rfl⟩]

theorem residents_set_of_ne (h : m' ≠ m) : (v.set m va w).residents c m' = v.residents c m' :=
  residents_congr fun _ => resident_set_of_ne fun hand => h hand.1

theorem not_managed_zero : ¬ c.Managed (paIndex 0) := fun h => h.ne_zero paIndex_zero

theorem residents_set_zero (hva : Aligned va) (hold : v.Resident c m va) :
    (v.set m va 0).residents c m + 1 = v.residents c m :=
  residents_of_removed hva hold (fun h => not_managed_zero (resident_set_self.1 h).1) fun _ hne =>
    resident_set_of_ne fun hand => hne hand.2

/-- One mapping less, and one less counted. -/
theorem excess_of_removed {v' : View} (hva : Aligned va) (hold : v.Resident c m va)
    (hentry : v'.entry = (v.set m va 0).entry)
    (hcount : ∀ m', (v'.stats m').residentCount = (v.stats m').residentCount - if m' = m then 1 else 0) (m' : ℕ) :
    v'.excess c m' = v.excess c m' := by
  have hres : v'.residents c m' = (v.set m va 0).residents c m' :=
    residents_congr fun va' => by rw [Resident, Resident, hentry]
  rw [excess, excess, hres, hcount]
  by_cases hm : m' = m
  · subst hm
    have := residents_set_zero hva hold
    rw [if_pos rfl]
    omega
  · rw [residents_set_of_ne hm, if_neg hm]
    omega

/-- One mapping more, and one more counted. -/
theorem excess_of_added {v' : View} (hva : Aligned va) (hold : ¬ v.Resident c m va) (hw : c.Managed (paIndex w))
    (hboot : ¬ c.Boot m va) (hentry : v'.entry = (v.set m va w).entry)
    (hcount : ∀ m', (v'.stats m').residentCount = (v.stats m').residentCount + if m' = m then 1 else 0) (m' : ℕ) :
    v'.excess c m' = v.excess c m' := by
  have hres : v'.residents c m' = (v.set m va w).residents c m' :=
    residents_congr fun va' => by rw [Resident, Resident, hentry]
  rw [excess, excess, hres, hcount]
  by_cases hm : m' = m
  · subst hm
    have : (v.set m' va w).residents c m' = v.residents c m' + 1 :=
      residents_of_added hva hold (resident_set_self.2 ⟨hw, hboot⟩) fun va' hne =>
        resident_set_of_ne fun hand => hne hand.2
    rw [if_pos rfl]
    omega
  · rw [residents_set_of_ne hm, if_neg hm]
    omega

end

-- from here on, nothing counts through all addresses
attribute [irreducible] residents

end View

/-! ## States and their views -/

/-- The tables differ in entries only. -/
def Tables.Same (t t' : Tables) : Prop := t'.l1 = t.l1 ∧ t'.l1Size = t.l1Size ∧ t'.grabbed = t.grabbed

section
variable {c : Machine} {t t' t'' : Tables} {m va : ℕ}

theorem Tables.Same.refl (t : Tables) : t.Same t := ⟨rfl, rfl, rfl⟩

theorem Tables.Same.set (loc : Block × ℕ) (w : Word) : t.Same (t.set loc w) := ⟨rfl, rfl, rfl⟩

theorem Tables.Same.trans (h : t.Same t') (h' : t'.Same t'') : t.Same t'' :=
  ⟨h'.1.trans h.1, h'.2.1.trans h.2.1, h'.2.2.trans h.2.2⟩

theorem Tables.Same.tte (h : t.Same t') : t'.tte m va = t.tte m va := by rw [Tables.tte, Tables.tte, h.1, h.2.1]

theorem Tables.Same.pmapPte (h : t.Same t') : pmapPte c t' m va = pmapPte c t m va := by
  rw [Pmap.pmapPte, Pmap.pmapPte, h.tte]

theorem Tables.Same.live (h : t.Same t') : t'.Live m ↔ t.Live m := by rw [Tables.Live, Tables.Live, h.2.1]

end

section
variable {c : Machine} {s : State} {m va : ℕ} {loc : Block × ℕ} {w : Word}

theorem live_of_pte (h : pmapPte c s.tables m va = .ok (some loc)) : s.tables.Live m := by
  by_contra hm
  have htte : s.tables.tte m va = .error .fault := by
    rw [Tables.Live, ne_eq, not_not] at hm
    rw [Tables.tte, hm, if_neg (Nat.not_lt_zero _)]
  rw [pmapPte, htte] at h
  split_ifs at h
  · simp at h
  · simp [Bind.bind, Except.bind] at h

theorem lookup_of_pte (h : pmapPte c s.tables m va = .ok (some loc)) : Lookup c m va := by
  by_contra hl
  rw [pmapPte_of_not_lookup hl] at h
  simp at h

theorem Aligned.samePage {va' : ℕ} (h : Aligned va) (h' : Aligned va') : SamePage va' va ↔ va' = va := by
  obtain ⟨h1, h2⟩ := h
  obtain ⟨h1', h2'⟩ := h'
  unfold SamePage
  omega

@[simp] theorem State.flags_view : (s.view c).flags = s.flags := rfl

@[simp] theorem State.stats_view : (s.view c).stats = s.stats := rfl

theorem State.entry_view (hva : Aligned va) : (s.view c).entry m va = s.tables.entry c m va := if_pos hva

theorem State.get_eq (h : pmapPte c s.tables m va = .ok (some loc)) (hva : Aligned va) :
    s.tables.get loc = (s.view c).entry m va := by
  rw [State.entry_view hva, entry_of_pmapPte h]

/-- **Writing an entry**, as the callers see it. -/
theorem State.view_set (hwf : s.tables.WF c) (h : pmapPte c s.tables m va = .ok (some loc)) (hva : Aligned va) :
    (s.set loc w).view c = (s.view c).set m va w := by
  have hentry : ((s.set loc w).view c).entry = ((s.view c).set m va w).entry := by
    funext m' va'
    simp only [State.view, View.entry_set, State.set]
    by_cases hva' : Aligned va'
    · rw [if_pos hva', if_pos hva', hwf.entry_set (live_of_pte h) h]
      by_cases hsame : m' = m ∧ va' = va
      · rw [if_pos hsame, if_pos]
        exact ⟨hsame.1, (hva.samePage hva').2 hsame.2, hsame.1 ▸ hsame.2 ▸ lookup_of_pte h⟩
      · rw [if_neg hsame, if_neg]
        exact fun hand => hsame ⟨hand.1, (hva.samePage hva').1 hand.2.1⟩
    · have hne : ¬ (m' = m ∧ va' = va) := fun hand => hva' (hand.2 ▸ hva)
      rw [if_neg hva', if_neg hva', if_neg hne]
  exact View.ext hentry rfl rfl

theorem State.exists_pte (hwf : s.tables.WF c) (h : (s.view c).entry m va ≠ 0) :
    Aligned va ∧ ∃ loc, pmapPte c s.tables m va = .ok (some loc) := by
  have hva : Aligned va := by
    by_contra hva
    simp [State.view, hva] at h
  rw [State.entry_view hva] at h
  have hm : s.tables.Live m := by
    by_contra hm
    exact h (entry_of_not_live hm)
  obtain ⟨loc, hloc, -⟩ := hwf.exists_pte hm h
  exact ⟨hva, loc, hloc⟩

end

/-! ## The invariant -/

/-- The lists of the pages are those of the mappings, each once. -/
structure Agrees (c : Machine) (v : View) (names : Ppn → List (ℕ × ℕ)) : Prop where
  nodup : ∀ p, (names p).Nodup
  mem_iff : ∀ p m va, (m, va) ∈ names p ↔ v.Mapped c p m va

section
variable {c : Machine} {v v' : View} {names : Ppn → List (ℕ × ℕ)} {p p' : Ppn} {m m' va va' : ℕ} {w : Word}

namespace View

theorem mapped_set_self : (v.set m va w).Mapped c p m va ↔ c.Managed p ∧ ¬ c.Boot m va ∧ paIndex w = p := by
  rw [Mapped, entry_set, if_pos ⟨rfl, rfl⟩]

theorem mapped_set_of_ne (h : (m', va') ≠ (m, va)) : (v.set m va w).Mapped c p m' va' ↔ v.Mapped c p m' va' := by
  rw [Mapped, entry_set, if_neg fun hand => h (by rw [hand.1, hand.2]), Mapped]

/-- An address maps one page. -/
theorem Mapped.unique (h : v.Mapped c p m va) (h' : v.Mapped c p' m va) : p = p' := h.2.2.symm.trans h'.2.2

end View

theorem Agrees.congr (h : Agrees c v names) (hm : ∀ p m va, v'.Mapped c p m va ↔ v.Mapped c p m va) :
    Agrees c v' names :=
  ⟨h.nodup, fun p m va => (h.mem_iff p m va).trans (hm p m va).symm⟩

/-- Attributes and counts do not matter. -/
theorem Agrees.of_entry (h : Agrees c v names) (he : v'.entry = v.entry) : Agrees c v' names :=
  h.congr fun p m va => by rw [View.Mapped, View.Mapped, he]

/-- A mapping is taken away. -/
theorem Agrees.remove (h : Agrees c v names) (hm : v.Mapped c p m va) (hw : ¬ c.Managed (paIndex w)) :
    Agrees c (v.set m va w) (Function.update names p ((names p).erase (m, va))) := by
  constructor
  · intro p'
    by_cases hp : p' = p
    · rw [hp, Function.update_self]
      exact (h.nodup p).erase _
    · rw [Function.update_of_ne hp]
      exact h.nodup p'
  · intro p' m' va'
    by_cases hne : (m', va') = (m, va)
    · obtain ⟨rfl, rfl⟩ := Prod.mk.inj hne
      rw [View.mapped_set_self]
      refine iff_of_false ?_ fun hand => hw (hand.2.2.symm ▸ hand.1)
      by_cases hp : p' = p
      · rw [hp, Function.update_self, (h.nodup p).mem_erase_iff]
        simp
      · rw [Function.update_of_ne hp, h.mem_iff]
        exact fun hm' => hp (hm'.unique hm)
    · rw [View.mapped_set_of_ne hne, ← h.mem_iff]
      by_cases hp : p' = p
      · rw [hp, Function.update_self, (h.nodup p).mem_erase_iff]
        exact and_iff_right hne
      · rw [Function.update_of_ne hp]

/-- A mapping is put where no managed page was mapped. -/
theorem Agrees.add {l : List (ℕ × ℕ)} (h : Agrees c v names) (hm : ¬ c.Managed (paIndex (v.entry m va)))
    (hp : c.Managed (paIndex w)) (hboot : ¬ c.Boot m va) (hl : l.Perm ((m, va) :: names (paIndex w))) :
    Agrees c (v.set m va w) (Function.update names (paIndex w) l) := by
  have hnot : ∀ p, (m, va) ∉ names p := by
    intro p hmem
    have := (h.mem_iff p m va).1 hmem
    exact hm (this.2.2.symm ▸ this.1)
  constructor
  · intro p'
    by_cases hp' : p' = paIndex w
    · rw [hp', Function.update_self, hl.nodup_iff, List.nodup_cons]
      exact ⟨hnot _, h.nodup _⟩
    · rw [Function.update_of_ne hp']
      exact h.nodup p'
  · intro p' m' va'
    by_cases hne : (m', va') = (m, va)
    · obtain ⟨rfl, rfl⟩ := Prod.mk.inj hne
      rw [View.mapped_set_self]
      by_cases hp' : p' = paIndex w
      · rw [hp', Function.update_self, hl.mem_iff]
        exact iff_of_true List.mem_cons_self ⟨hp, hboot, rfl⟩
      · rw [Function.update_of_ne hp']
        exact iff_of_false (hnot p') fun hand => hp' hand.2.2.symm
    · rw [View.mapped_set_of_ne hne, ← h.mem_iff]
      by_cases hp' : p' = paIndex w
      · rw [hp', Function.update_self, hl.mem_iff, List.mem_cons, or_iff_right hne]
      · rw [Function.update_of_ne hp']

/-- An entry is changed, but not its page. -/
theorem Agrees.same (h : Agrees c v names) (hw : paIndex w = paIndex (v.entry m va)) :
    Agrees c (v.set m va w) names := by
  refine h.congr fun p m' va' => ?_
  by_cases hne : (m', va') = (m, va)
  · obtain ⟨rfl, rfl⟩ := Prod.mk.inj hne
    rw [View.mapped_set_self, hw, View.Mapped]
  · exact View.mapped_set_of_ne hne

end

/-- What every call keeps. -/
structure Inv (c : Machine) (s : State) : Prop where
  wf : s.tables.WF c
  lists : ∃ names, s.pv.Holds c .empty names (fun _ => False) ∧ Agrees c (s.view c) names
  counted : ∀ m, 0 ≤ (s.view c).excess c m

section
variable {c : Machine} {s s' : State}

/-- The lists and the counts do not notice what leaves the mappings as they are. -/
theorem Inv.of_mapped (h : Inv c s) (hwf : s'.tables.WF c) (hpv : s'.pv = s.pv)
    (hcount : ∀ m, (s.stats m).residentCount ≤ (s'.stats m).residentCount)
    (hmapped : ∀ p m va, (s'.view c).Mapped c p m va ↔ (s.view c).Mapped c p m va) : Inv c s' := by
  obtain ⟨names, hholds, hagree⟩ := h.lists
  refine ⟨hwf, ⟨names, hpv ▸ hholds, hagree.congr hmapped⟩, fun m => ?_⟩
  have hres : ∀ va, (s'.view c).Resident c m va ↔ (s.view c).Resident c m va := fun va =>
    ⟨fun hr => ((hmapped _ _ _).1 hr.mapped).resident, fun hr => ((hmapped _ _ _).2 hr.mapped).resident⟩
  have hle := h.counted m
  have := hcount m
  rw [View.excess, View.residents_congr hres]
  rw [View.excess] at hle
  simp only [State.stats_view] at hle ⊢
  omega

/-- What keeps the page of each address. -/
theorem Inv.of_same_pages (h : Inv c s) (hwf : s'.tables.WF c) (hpv : s'.pv = s.pv)
    (hcount : ∀ m, (s.stats m).residentCount ≤ (s'.stats m).residentCount)
    (hentry : ∀ m va, paIndex ((s'.view c).entry m va) = paIndex ((s.view c).entry m va)) : Inv c s' :=
  h.of_mapped hwf hpv hcount fun p m va => by rw [View.Mapped, View.Mapped, hentry]

end

end PocketDarwin.Pmap
