/-
  Page tables of the ARM pmap (`pmap.c`): the walk through the two levels, and how the
  first level grows.

  A table of the first level belongs to a pmap, one of the second level is a block of
  memory that descriptors lead to; a block is reached from any number of descriptors
  until `Tables.WF` says otherwise.

  * `Tables.entry`: the tables as a map from addresses to entries.
  * `entry_set`: writing an entry changes it there, and nowhere else.
  * `pmapExpand_spec`: growing a table changes no entry.
-/
import Mathlib.Logic.Function.Basic
import Mathlib.Tactic.SplitIfs
import PocketDarwin.Pmap.Entry

namespace PocketDarwin.Pmap

/-- `_COMM_PAGE_BASE_ADDRESS` -/
def commPageBase : ℕ := 0x40000000

/-- What a function ends in instead of returning. -/
inductive Stop where
  /-- a null pointer, or memory behind a table -/
  | fault
  /-- a loop that has no end -/
  | hang
  /-- `panic("Translation table entry is a section mapping ...")` -/
  | section
  /-- `panic("pmap_enter_options: null pv_list")` -/
  | enterNullPvList
  /-- `panic("Mapping alias chain exhaustion ...")` -/
  | exhaustion
  /-- the branch of `pmap_pv_remove` for a page without a list -/
  | nullPvList
  /-- `panic("pmap_pv_remove: empty hash, removing rooted")` and `"empty hash"` -/
  | emptyHash
  /-- the branch of `pmap_pv_remove` for a mapping that is not on its hash chain -/
  | notOnHash
  /-- `panic("pmap_pvh_unlink no pvh")` -/
  | unlink
  /-- `panic("pmap_remove: attempting to remove bogus PTE range")` and its kind -/
  | bogusRange
  /-- `panic("pmap_page_protect(): null PTE ...")` and its kind -/
  | nullPte
  /-- `panic("pmap_remove_range: resident_count")` and `"pmap_page_protect: resident_count"` -/
  | residentCount
  /-- `panic("pmap_remove_range: wired_count")` -/
  | wiredCount
deriving DecidableEq, Repr

/-- `tte_offset(va)`, in entries. -/
def tteIndex (va : ℕ) : ℕ := va / 0x100000 % 0x1000

/-- `pte_offset(va)`, in entries. -/
def pteIndex (va : ℕ) : ℕ := va % 0x100000 / 0x1000

/-- What the module finds when `pmap_init` returns: the memory, and the tables of the kernel.
    The kernel's tables lead to pages, without sections. -/
structure Machine where
  kernelPmap : ℕ
  physBase : ℕ
  availStart : ℕ
  availEnd : ℕ
  npvhash : ℕ
  bootL1 : ℕ → Word
  bootL2 : Block → ℕ → Word
  /-- the pages that the tables of the kernel are in -/
  bootPages : List Ppn
  bootResident : ℕ
  bootWired : ℕ
  kernel_ne : kernelPmap ≠ 0
  physBase_le : physBase ≤ availStart
  boot_isPageTable : ∀ i, IsPageTable (bootL1 i) ↔ l1PteAddr (bootL1 i) ≠ 0
  boot_not_isSection : ∀ i, ¬ IsSection (bootL1 i)
  boot_page : ∀ i, l1PteAddr (bootL1 i) ≠ 0 → (l1PteAddr (bootL1 i)).page ∈ bootPages
  boot_inj : ∀ i j, l1PteAddr (bootL1 i) ≠ 0 → l1PteAddr (bootL1 i) = l1PteAddr (bootL1 j) → i = j

/-- `pmap_valid_page`: is the page managed? -/
def Machine.Managed (c : Machine) (p : Ppn) : Prop := c.availStart < p.toNat * 0x1000 ∧ p.toNat * 0x1000 < c.availEnd

instance (c : Machine) (p : Ppn) : Decidable (c.Managed p) := inferInstanceAs (Decidable (_ ∧ _))

theorem Machine.Managed.ne_zero {c : Machine} {p : Ppn} (h : c.Managed p) : p ≠ 0 := by
  rintro rfl
  exact absurd h.1 (by simp)

/-- The tables of the first level by pmap, with their size in bytes (`0` where there is no pmap),
    the blocks of memory for the second level, and the pages taken from `vm_page_grab` for tables. -/
structure Tables where
  l1 : ℕ → ℕ → Word
  l1Size : ℕ → ℕ
  l2 : Block → ℕ → Word
  grabbed : List Ppn

namespace Tables

/-- `*pmap_tte(pmap, va)`.  Nothing is known about the memory behind the table. -/
def tte (t : Tables) (m va : ℕ) : Except Stop Word :=
  if tteIndex va * 4 < t.l1Size m then .ok (t.l1 m (tteIndex va)) else .error .fault

/-- `*pte = w` -/
def set (t : Tables) (loc : Block × ℕ) (w : Word) : Tables :=
  { t with l2 := Function.update t.l2 loc.1 (Function.update (t.l2 loc.1) loc.2 w) }

/-- `*pte` -/
def get (t : Tables) (loc : Block × ℕ) : Word := t.l2 loc.1 loc.2

end Tables

/-- `pmap_pte`.  The descriptor of an address above the commpage is read, but not used. -/
def pmapPte (c : Machine) (t : Tables) (m va : ℕ) : Except Stop (Option (Block × ℕ)) :=
  if m ≠ c.kernelPmap ∧ commPageBase ≤ va then .ok none
  else do
    let tte ← t.tte m va
    if IsSection tte then .error .section
    else if l1PteAddr tte = 0 then .ok none
    else .ok (some (l1PteAddr tte, pteIndex va))

/-- `pmap_grab_page`, for the page that `vm_page_grab` gives: it is cleared. -/
def pmapGrabPage (g : Ppn) (t : Tables) : Tables :=
  { t with l2 := fun b => if b.page = g then fun _ => 0 else t.l2 b, grabbed := g :: t.grabbed }

/-- `pmap_expand`, for an address that needs no larger table of the first level. -/
def pmapExpand (c : Machine) (m va : ℕ) (g : Ppn) (t : Tables) : Except Stop Tables := do
  let t := pmapGrabPage g t
  let tte ← t.tte m va
  if m ≠ c.kernelPmap ∧ IsSection tte then .error .section
  else .ok { t with l1 := Function.update t.l1 m (Function.update (t.l1 m) (tteIndex va) (l1Descriptor g)) }

/-- The tables of `pmap_create`, for a pmap that is allocated at `m`. -/
def Tables.create (m : ℕ) (g : Ppn) (t : Tables) : Tables :=
  let t := pmapGrabPage g t
  { t with l1 := Function.update t.l1 m fun _ => 0, l1Size := Function.update t.l1Size m 0x1000 }

/-- The page table entry of an address, `0` where there is no table. -/
def Tables.entry (c : Machine) (t : Tables) (m va : ℕ) : Word :=
  match pmapPte c t m va with
  | .ok (some loc) => t.get loc
  | _ => 0

/-- Every table of the second level is reached from one descriptor only. -/
structure Tables.WF (c : Machine) (t : Tables) : Prop where
  kernel : t.l1Size c.kernelPmap = 0x4000
  null : t.l1Size 0 = 0
  user : ∀ m, m ≠ c.kernelPmap → t.l1Size m = 0 ∨ t.l1Size m = 0x1000
  isPageTable : ∀ m i, i * 4 < t.l1Size m → (IsPageTable (t.l1 m i) ↔ l1PteAddr (t.l1 m i) ≠ 0)
  not_isSection : ∀ m i, i * 4 < t.l1Size m → ¬ IsSection (t.l1 m i)
  page : ∀ m i, i * 4 < t.l1Size m → l1PteAddr (t.l1 m i) ≠ 0 → (l1PteAddr (t.l1 m i)).page ∈ t.grabbed
  inj : ∀ m i m' i', i * 4 < t.l1Size m → i' * 4 < t.l1Size m' → l1PteAddr (t.l1 m i) ≠ 0 →
    l1PteAddr (t.l1 m i) = l1PteAddr (t.l1 m' i') → m = m' ∧ i = i'

section
variable {c : Machine} {t : Tables} {m m' va va' : ℕ} {loc : Block × ℕ} {w : Word} {g : Ppn}

/-- The addresses that `pmap_pte` looks up: those of the kernel, and low ones of the others. -/
def Lookup (c : Machine) (m va : ℕ) : Prop := m = c.kernelPmap ∨ va < commPageBase

instance : Decidable (Lookup c m va) := inferInstanceAs (Decidable (_ ∨ _))

/-- There is a pmap at this address. -/
def Tables.Live (t : Tables) (m : ℕ) : Prop := t.l1Size m ≠ 0

instance : Decidable (t.Live m) := inferInstanceAs (Decidable (_ ≠ _))

theorem tteIndex_lt : tteIndex va < 0x1000 := Nat.mod_lt _ (by decide)

theorem pmapPte_of_not_lookup (hl : ¬ Lookup c m va) : pmapPte c t m va = .ok none := by
  rw [Lookup, not_or, Nat.not_lt] at hl
  rw [pmapPte, if_pos hl]

namespace Tables.WF

theorem covers (h : t.WF c) (hm : t.Live m) (hl : Lookup c m va) : tteIndex va * 4 < t.l1Size m := by
  by_cases hk : m = c.kernelPmap
  · have := @tteIndex_lt va
    rw [hk, h.kernel]
    omega
  · have hva : va < 0x40000000 := hl.resolve_left hk
    rw [(h.user m hk).resolve_left hm, tteIndex]
    omega

theorem tte (h : t.WF c) (hm : t.Live m) (hl : Lookup c m va) : t.tte m va = .ok (t.l1 m (tteIndex va)) :=
  if_pos (h.covers hm hl)

/-- **The walk** of a pmap that there is. -/
theorem pmapPte (h : t.WF c) (hm : t.Live m) (hl : Lookup c m va) : Pmap.pmapPte c t m va =
    .ok (if l1PteAddr (t.l1 m (tteIndex va)) = 0 then none
      else some (l1PteAddr (t.l1 m (tteIndex va)), pteIndex va)) := by
  have hns := h.not_isSection m _ (h.covers hm hl)
  have hl' : ¬ (m ≠ c.kernelPmap ∧ commPageBase ≤ va) := by
    rw [← Nat.not_lt, ← not_or]
    exact not_not.2 hl
  rw [Pmap.pmapPte, if_neg hl', h.tte hm hl]
  simp only [Bind.bind, Except.bind, if_neg hns]
  split_ifs <;> rfl

theorem entry (h : t.WF c) (hm : t.Live m) (hl : Lookup c m va) : t.entry c m va =
    if l1PteAddr (t.l1 m (tteIndex va)) = 0 then 0 else t.l2 (l1PteAddr (t.l1 m (tteIndex va))) (pteIndex va) := by
  rw [Tables.entry, h.pmapPte hm hl]
  split_ifs <;> rfl

/-- Where there is an entry, there is a place for it. -/
theorem exists_pte (h : t.WF c) (hm : t.Live m) (he : t.entry c m va ≠ 0) :
    ∃ loc, Pmap.pmapPte c t m va = .ok (some loc) ∧ t.get loc = t.entry c m va := by
  by_cases hl : Lookup c m va
  · have hw := h.entry hm hl
    rw [h.pmapPte hm hl]
    split_ifs at hw ⊢ with hb
    · exact absurd hw he
    · exact ⟨_, rfl, hw.symm⟩
  · rw [Tables.entry, pmapPte_of_not_lookup hl] at he
    exact absurd rfl he

end Tables.WF

theorem entry_of_pmapPte (h : pmapPte c t m va = .ok (some loc)) : t.entry c m va = t.get loc := by
  rw [Tables.entry, h]

theorem entry_of_not_live (hm : ¬ t.Live m) : t.entry c m va = 0 := by
  have htte : t.tte m va = .error .fault := by
    rw [Tables.Live, ne_eq, not_not] at hm
    rw [Tables.tte, hm, if_neg (Nat.not_lt_zero _)]
  rw [Tables.entry, pmapPte, htte]
  split_ifs <;> rfl

/-! ## Writing an entry -/

@[simp] theorem pmapPte_set : pmapPte c (t.set loc w) m va = pmapPte c t m va := rfl

theorem Tables.WF.set (h : t.WF c) : (t.set loc w).WF c := { h with }

/-- Addresses of the same page of the address space. -/
def SamePage (va va' : ℕ) : Prop := va / 0x1000 % 0x100000 = va' / 0x1000 % 0x100000

instance : Decidable (SamePage va va') := inferInstanceAs (Decidable (_ = _))

theorem samePage_iff : SamePage va va' ↔ tteIndex va = tteIndex va' ∧ pteIndex va = pteIndex va' := by
  unfold SamePage tteIndex pteIndex
  omega

/-- **Writing an entry** changes it for the addresses of its page in its pmap. -/
theorem Tables.WF.entry_set (h : t.WF c) (hm : t.Live m) (hpte : Pmap.pmapPte c t m va = .ok (some loc)) :
    (t.set loc w).entry c m' va' =
      if m' = m ∧ SamePage va' va ∧ Lookup c m' va' then w else t.entry c m' va' := by
  by_cases hm' : t.Live m'
  case neg =>
    have hne : m' ≠ m := fun heq => hm' (heq ▸ hm)
    have hm'' : ¬ (t.set loc w).Live m' := hm'
    rw [entry_of_not_live hm', entry_of_not_live hm'', if_neg fun hand => hne hand.1]
  by_cases hl' : Lookup c m' va'
  case neg => rw [if_neg fun hand => hl' hand.2.2, Tables.entry, Tables.entry, pmapPte_set,
    pmapPte_of_not_lookup hl']
  have hl : Lookup c m va := by
    by_contra hl
    rw [pmapPte_of_not_lookup hl] at hpte
    simp at hpte
  rw [h.pmapPte hm hl] at hpte
  split_ifs at hpte with hb
  · simp at hpte
  obtain rfl : (l1PteAddr (t.l1 m (tteIndex va)), pteIndex va) = loc := by simpa using hpte
  have hset : (t.set (l1PteAddr (t.l1 m (tteIndex va)), pteIndex va) w).entry c m' va' =
      if l1PteAddr (t.l1 m' (tteIndex va')) = 0 then 0
      else Function.update t.l2 (l1PteAddr (t.l1 m (tteIndex va)))
        (Function.update (t.l2 (l1PteAddr (t.l1 m (tteIndex va)))) (pteIndex va) w)
        (l1PteAddr (t.l1 m' (tteIndex va'))) (pteIndex va') := h.set.entry hm' hl'
  rw [hset, h.entry hm' hl']
  simp only [samePage_iff]
  by_cases hb' : l1PteAddr (t.l1 m' (tteIndex va')) = l1PteAddr (t.l1 m (tteIndex va))
  · -- the block tells the pmap and the descriptor
    obtain ⟨rfl, hi⟩ := h.inj _ _ _ _ (h.covers hm hl) (h.covers hm' hl') hb hb'.symm
    rw [← hi, if_neg hb, if_neg hb, Function.update_self, Function.update_apply]
    simp [hl']
  · have hne : ¬ (m' = m ∧ (tteIndex va' = tteIndex va ∧ pteIndex va' = pteIndex va) ∧
        Lookup c m' va') := by
      rintro ⟨rfl, ⟨hi, -⟩, -⟩
      exact hb' (by rw [hi])
    rw [if_neg hne, Function.update_of_ne hb']

/-! ## Growing a table -/

/-- **`pmap_expand`** makes place for an entry, with a page that is in use for no table, and leaves
    all entries. -/
theorem Tables.WF.pmapExpand (h : t.WF c) (hm : t.Live m) (hl : Lookup c m va)
    (hpte : Pmap.pmapPte c t m va = .ok none) (hg : g ≠ 0) (hfree : g ∉ t.grabbed) :
    ∃ t', Pmap.pmapExpand c m va g t = .ok t' ∧ t'.WF c ∧ t'.l1Size = t.l1Size ∧ t'.grabbed = g :: t.grabbed ∧
      t'.entry c = t.entry c ∧ ∃ loc, Pmap.pmapPte c t' m va = .ok (some loc) := by
  have hcov := h.covers hm hl
  have hnone : l1PteAddr (t.l1 m (tteIndex va)) = 0 := by
    rw [h.pmapPte hm hl] at hpte
    by_contra hb
    rw [if_neg hb] at hpte
    simp at hpte
  have hns := h.not_isSection m _ hcov
  have hgne := l1PteAddr_l1Descriptor_ne_zero hg
  have hother : ∀ m' i, i * 4 < t.l1Size m' → l1PteAddr (t.l1 m' i) ≠ 0 →
      (l1PteAddr (t.l1 m' i)).page ≠ g :=
    fun m' i hi hne heq => hfree (heq ▸ h.page m' i hi hne)
  let t' : Tables := { pmapGrabPage g t with
    l1 := Function.update t.l1 m (Function.update (t.l1 m) (tteIndex va) (l1Descriptor g)) }
  have htte : (pmapGrabPage g t).tte m va = .ok (t.l1 m (tteIndex va)) := if_pos hcov
  have hexp : Pmap.pmapExpand c m va g t = .ok t' := by
    simp only [Pmap.pmapExpand, htte, Bind.bind, Except.bind, if_neg fun hand : _ ∧ _ => hns hand.2]
    rfl
  -- one descriptor is new
  have hl1 : ∀ m' i, t'.l1 m' i = if m' = m ∧ i = tteIndex va then l1Descriptor g else t.l1 m' i := by
    intro m' i
    simp only [t', Function.update_apply]
    by_cases hm' : m' = m <;> by_cases hi : i = tteIndex va <;> simp [hm', hi]
  have hwf : t'.WF c :=
    { kernel := h.kernel
      null := h.null
      user := h.user
      isPageTable := by
        intro m' i hi
        rw [hl1]
        split_ifs
        · exact iff_of_true (isPageTable_l1Descriptor g) hgne
        · exact h.isPageTable m' i hi
      not_isSection := by
        intro m' i hi
        rw [hl1]
        split_ifs
        · exact (isPageTable_l1Descriptor g).not_isSection
        · exact h.not_isSection m' i hi
      page := by
        intro m' i hi
        rw [hl1]
        split_ifs
        · exact fun _ => List.mem_cons.2 (.inl (page_l1Descriptor g))
        · exact fun hne => List.mem_cons_of_mem g (h.page m' i hi hne)
      inj := by
        intro m₁ i₁ m₂ i₂ hi₁ hi₂
        rw [hl1, hl1]
        split_ifs with h₁ h₂ h₂
        · exact fun _ _ => ⟨h₁.1.trans h₂.1.symm, h₁.2.trans h₂.2.symm⟩
        · intro hne heq
          have := page_l1Descriptor g
          rw [heq] at this
          exact absurd this (hother m₂ i₂ hi₂ (heq ▸ hne))
        · intro hne heq
          have := page_l1Descriptor g
          rw [← heq] at this
          exact absurd this (hother m₁ i₁ hi₁ hne)
        · exact h.inj m₁ i₁ m₂ i₂ hi₁ hi₂ }
  refine ⟨t', hexp, hwf, rfl, rfl, ?_, ?_⟩
  · funext m' va'
    by_cases hm' : t.Live m'
    case neg =>
      have hm'' : ¬ t'.Live m' := hm'
      rw [entry_of_not_live hm', entry_of_not_live hm'']
    by_cases hl' : Lookup c m' va'
    case neg => rw [Tables.entry, Tables.entry, pmapPte_of_not_lookup hl', pmapPte_of_not_lookup hl']
    have hword := hl1 m' (tteIndex va')
    by_cases hnew : m' = m ∧ tteIndex va' = tteIndex va
    · -- the new table is empty
      rw [if_pos hnew] at hword
      obtain ⟨rfl, hi⟩ := hnew
      rw [hwf.entry (m := m') hm' hl', h.entry hm' hl', hword, if_neg hgne, hi, if_pos hnone]
      simp [t', pmapGrabPage, page_l1Descriptor]
    · rw [if_neg hnew] at hword
      rw [hwf.entry (m := m') hm' hl', h.entry hm' hl', hword]
      by_cases hb : l1PteAddr (t.l1 m' (tteIndex va')) = 0
      · rw [if_pos hb, if_pos hb]
      · rw [if_neg hb, if_neg hb]
        simp [t', pmapGrabPage, hother m' _ (h.covers hm' hl') hb]
  · have hword := hl1 m (tteIndex va)
    rw [if_pos ⟨rfl, rfl⟩] at hword
    rw [hwf.pmapPte (m := m) hm hl, hword, if_neg hgne]
    exact ⟨_, rfl⟩

/-- A new pmap maps nothing. -/
theorem Tables.WF.create (h : t.WF c) (hm : ¬ t.Live m) (hm0 : m ≠ 0) (hfree : g ∉ t.grabbed) :
    (t.create m g).WF c ∧ (t.create m g).entry c = t.entry c := by
  have hk : m ≠ c.kernelPmap := by
    rintro rfl
    exact hm (by rw [Tables.Live, h.kernel]; decide)
  have hsize : ∀ m', (t.create m g).l1Size m' = if m' = m then 0x1000 else t.l1Size m' :=
    fun m' => Function.update_apply _ _ _ _
  have hl1 : ∀ m' i, (t.create m g).l1 m' i = if m' = m then 0 else t.l1 m' i := by
    intro m' i
    by_cases hm' : m' = m <;> simp [Tables.create, pmapGrabPage, hm']
  have hzero : l1PteAddr 0 = 0 := by decide
  have hslot : ∀ m' i, i * 4 < (t.create m g).l1Size m' → l1PteAddr ((t.create m g).l1 m' i) ≠ 0 →
      m' ≠ m ∧ i * 4 < t.l1Size m' ∧ (t.create m g).l1 m' i = t.l1 m' i := by
    intro m' i hi hne
    rw [hl1] at hne ⊢
    rw [hsize] at hi
    by_cases hm' : m' = m
    · rw [if_pos hm'] at hne
      exact absurd hzero hne
    · rw [if_neg hm'] at hi ⊢
      exact ⟨hm', hi, rfl⟩
  have hwf : (t.create m g).WF c :=
    { kernel := by rw [hsize, if_neg hk.symm, h.kernel]
      null := by rw [hsize, if_neg hm0.symm, h.null]
      user := by
        intro m' hm'
        rw [hsize]
        split_ifs
        · exact .inr rfl
        · exact h.user m' hm'
      isPageTable := by
        intro m' i hi
        rw [hl1]
        rw [hsize] at hi
        split_ifs at hi ⊢
        · decide
        · exact h.isPageTable m' i hi
      not_isSection := by
        intro m' i hi
        rw [hl1]
        rw [hsize] at hi
        split_ifs at hi ⊢
        · decide
        · exact h.not_isSection m' i hi
      page := by
        intro m' i hi hne
        obtain ⟨-, hi', hw⟩ := hslot m' i hi hne
        rw [hw] at hne ⊢
        exact List.mem_cons_of_mem g (h.page m' i hi' hne)
      inj := by
        intro m₁ i₁ m₂ i₂ hi₁ hi₂ hne heq
        obtain ⟨-, hi₁', hw₁⟩ := hslot m₁ i₁ hi₁ hne
        obtain ⟨-, hi₂', hw₂⟩ := hslot m₂ i₂ hi₂ (heq ▸ hne)
        rw [hw₁] at hne
        rw [hw₁, hw₂] at heq
        exact h.inj m₁ i₁ m₂ i₂ hi₁' hi₂' hne heq }
  refine ⟨hwf, ?_⟩
  funext m' va
  by_cases hl : Lookup c m' va
  case neg => rw [Tables.entry, Tables.entry, pmapPte_of_not_lookup hl, pmapPte_of_not_lookup hl]
  by_cases hm' : m' = m
  · have hlive : (t.create m g).Live m' := by rw [Tables.Live, hsize, if_pos hm']; decide
    have hword := hl1 m' (tteIndex va)
    rw [if_pos hm'] at hword
    rw [hwf.entry hlive hl, hword, if_pos hzero, hm', entry_of_not_live hm]
  · by_cases hlive : t.Live m'
    · have hlive' : (t.create m g).Live m' := by
        rw [Tables.Live, hsize, if_neg hm']
        exact hlive
      have hword := hl1 m' (tteIndex va)
      rw [if_neg hm'] at hword
      rw [hwf.entry hlive' hl, h.entry hlive hl, hword]
      by_cases hb : l1PteAddr (t.l1 m' (tteIndex va)) = 0
      · rw [if_pos hb, if_pos hb]
      · have hpage : (l1PteAddr (t.l1 m' (tteIndex va))).page ≠ g :=
          fun heq => hfree (heq ▸ h.page m' _ (h.covers hlive hl) hb)
        rw [if_neg hb, if_neg hb]
        simp [Tables.create, pmapGrabPage, hpage]
    · have hlive' : ¬ (t.create m g).Live m' := by
        rw [Tables.Live, hsize, if_neg hm']
        exact hlive
      rw [entry_of_not_live hlive, entry_of_not_live hlive']

end

end PocketDarwin.Pmap
