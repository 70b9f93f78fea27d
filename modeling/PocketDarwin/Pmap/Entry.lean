/-
  Page table entries of the ARM pmap (`pmap.c`, `pmap.h`).

  The words of the two levels of tables and what the pmap module writes to them: the page
  (or the table) that a word leads to, the access bits, the memory type.

  * `paIndex_templatePte`, `valid_templatePte`: a new entry leads to its page;
    `writable_templatePte`, `executable_templatePte`, `memoryType_templatePte`: with the
    access that was asked for and the memory type that it was given.
  * `paIndex_protectPte`, `paIndex_setCacheability`: protecting an entry or changing its
    memory type leaves the page.
-/
import Mathlib.Data.Nat.Notation
import Mathlib.Tactic.SplitIfs

namespace PocketDarwin.Pmap

/-- `ppnum_t`, the number of a page of the physical address space. -/
abbrev Ppn := BitVec 20

/-- `pt_entry_t` and `tt_entry_t` -/
abbrev Word := BitVec 32

/-- `vm_prot_t` -/
abbrev Prot := BitVec 32

def vmProtRead : Prot := 1

def vmProtWrite : Prot := 2

def vmProtExecute : Prot := 4

def vmProtAll : Prot := 7

/-- `L2_ADDR_MASK` -/
def l2AddrMask : Word := 0xfffff000

/-- `L2_SMALL_PAGE`, and `ARM_PTE_DESCRIPTOR_4K` in what tests for it -/
def l2SmallPage : Word := 0x2

/-- `L2_NX_BIT` -/
def l2NxBit : Word := 0x1

/-- `L2_ACCESS_PRW` -/
def l2AccessPrw : Word := 0x10

/-- `L2_ACCESS_USER` -/
def l2AccessUser : Word := 1 <<< 5

/-- `L2_ACCESS_APX` -/
def l2AccessApx : Word := 1 <<< 9

/-- `L1_PTE_ADDR_MASK` -/
def l1PteAddrMask : Word := 0xfffffc00

/-- `pa << PAGE_SHIFT` -/
def ptoa (pa : Ppn) : Word := pa.setWidth 32 <<< 12

/-- `pa_index(pte & L2_ADDR_MASK)` -/
def paIndex (pte : Word) : Ppn := ((pte &&& l2AddrMask) >>> 12).setWidth 20

/-- The entry is one for a page: `*pte & ARM_PTE_DESCRIPTOR_4K`. -/
def Valid (pte : Word) : Prop := pte &&& l2SmallPage ≠ 0

/-- The access permission extension is clear, which allows writing. -/
def Writable (pte : Word) : Prop := pte &&& l2AccessApx = 0

def Executable (pte : Word) : Prop := pte &&& l2NxBit = 0

instance (pte : Word) : Decidable (Valid pte) := inferInstanceAs (Decidable (_ ≠ _))

instance (pte : Word) : Decidable (Writable pte) := inferInstanceAs (Decidable (_ = _))

instance (pte : Word) : Decidable (Executable pte) := inferInstanceAs (Decidable (_ = _))

/-- `pmap_vm_prot_to_page_flags`.  Pmaps other than the kernel's have user accessible pages. -/
def pmapVmProtToPageFlags (kernel : Bool) (prot : Prot) : Word :=
  let pte := if kernel then 0 else l2AccessUser
  let pte := pte ||| l2AccessPrw
  let pte := if prot &&& vmProtWrite ≠ 0 then pte &&& ~~~l2AccessApx else pte ||| l2AccessApx
  if prot &&& vmProtExecute = 0 then pte ||| l2NxBit else pte

/-- The entry that `pmap_enter_options` writes, with the memory type `cache`. -/
def templatePte (kernel commpage : Bool) (pa : Ppn) (prot : Prot) (cache : Word) : Word :=
  let pte := ptoa pa &&& l2AddrMask ||| l2SmallPage
  let pte := pte ||| pmapVmProtToPageFlags kernel prot
  let pte := if commpage then pte ||| l2AccessUser else pte
  pte ||| cache

/-- What `pmap_protect` makes of a valid entry. -/
def protectPte (prot : Prot) (pte : Word) : Word :=
  let pte := if prot &&& vmProtWrite ≠ 0 then pte &&& ~~~l2AccessApx else pte ||| l2AccessApx
  if prot &&& vmProtExecute = 0 then pte ||| l2NxBit else pte &&& ~~~l2NxBit

/-! ## Memory types -/

/-- Write through, no write allocate:
    `(ARM_CACHEBIT_WT_NWA_BUFFERED << 2) | ARM_L2_4KB_TEX(ARM_L2_TEX_100 | ARM_CACHEBIT_WT_NWA_BUFFERED)`. -/
def writeThrough : Word := 2 <<< 2 ||| ((4 ||| 2) &&& 7) <<< 6

/-- Write back, write allocate. -/
def writeBack : Word := 1 <<< 2 ||| ((4 ||| 1) &&& 7) <<< 6

/-- `cacheability_mask` -/
def cacheabilityMask : Word := ~~~(3 <<< 2 ||| (7 &&& 7) <<< 6)

/-- The memory type of an entry. -/
def memoryType (pte : Word) : Word := pte &&& ~~~cacheabilityMask

/-- What `pmap_update_cache_attributes_locked` makes of an entry. -/
def setCacheability (attributes pte : Word) : Word := pte &&& cacheabilityMask ||| attributes

/-! ## First level descriptors -/

/-- A table of the second level is 1 KB of memory; this is its number. -/
abbrev Block := BitVec 22

/-- `L1_PTE_ADDR` -/
def l1PteAddr (tte : Word) : Block := ((tte &&& l1PteAddrMask) >>> 10).setWidth 22

/-- What `pmap_expand` writes: `((page->phys_page << PAGE_SHIFT) & L1_PTE_ADDR_MASK) | L1_TYPE_PTE`. -/
def l1Descriptor (page : Ppn) : Word := ptoa page &&& l1PteAddrMask ||| 1

/-- `tte & ARM_PAGE_MASK_VALUE` is `ARM_PAGE_PAGE_TABLE`. -/
def IsPageTable (tte : Word) : Prop := tte &&& 3 = 1

/-- `tte & ARM_PAGE_MASK_VALUE` is `ARM_PAGE_SECTION`. -/
def IsSection (tte : Word) : Prop := tte &&& 3 = 2

instance (tte : Word) : Decidable (IsPageTable tte) := inferInstanceAs (Decidable (_ = _))

instance (tte : Word) : Decidable (IsSection tte) := inferInstanceAs (Decidable (_ = _))

/-- The page that a table of the second level is in. -/
def Block.page (b : Block) : Ppn := (b >>> 2).setWidth 20

section
variable {kernel commpage : Bool} {pa : Ppn} {prot : Prot} {cache pte c : Word}

@[simp] theorem getLsbD_paIndex (i : ℕ) : (paIndex pte).getLsbD i = (decide (i < 20) && pte.getLsbD (12 + i)) := by
  have hmask : ∀ i < 20, l2AddrMask.getLsbD (12 + i) = true := by decide
  by_cases hi : i < 20
  · simp [paIndex, hi, hmask i hi]
  · simp [paIndex, hi]

theorem paIndex_or (a b : Word) : paIndex (a ||| b) = paIndex a ||| paIndex b := by
  ext i hi
  simp [← BitVec.getLsbD_eq_getElem, hi]

theorem paIndex_and (a b : Word) : paIndex (a &&& b) = paIndex a &&& paIndex b := by
  ext i hi
  simp [← BitVec.getLsbD_eq_getElem, hi]

@[simp] theorem paIndex_zero : paIndex 0 = 0 := by decide

theorem paIndex_ptoa (pa : Ppn) : paIndex (ptoa pa) = pa := by
  ext i hi
  have h12 : ¬ 12 + i < 12 := by omega
  have h32 : 12 + i < 32 := by omega
  have hi32 : i < 32 := by omega
  simp [← BitVec.getLsbD_eq_getElem, ptoa, h12, h32, hi, hi32]

/-- What the code compares is the page. -/
theorem and_l2AddrMask_eq_ptoa : pte &&& l2AddrMask = ptoa pa ↔ paIndex pte = pa := by
  constructor
  · intro h
    rw [← paIndex_ptoa pa, ← h, paIndex_and, show paIndex l2AddrMask =
      BitVec.allOnes 20 by decide, BitVec.and_allOnes]
  · rintro rfl
    have hmask : ∀ i < 32, l2AddrMask.getLsbD i = decide (12 ≤ i) := by decide
    ext i hi
    simp only [← BitVec.getLsbD_eq_getElem, BitVec.getLsbD_and, hmask i hi, ptoa,
      BitVec.getLsbD_shiftLeft,
      BitVec.getLsbD_setWidth, getLsbD_paIndex, hi, decide_true, Bool.true_and]
    by_cases h12 : i < 12
    · simp [h12, show ¬ 12 ≤ i by omega]
    · simp [h12, show 12 ≤ i by omega, show i - 12 < 20 by omega, show i - 12 < 32 by omega]

theorem and_l2AddrMask_eq_zero : pte &&& l2AddrMask = 0 ↔ paIndex pte = 0 := by
  rw [← and_l2AddrMask_eq_ptoa]
  rfl

/-- The bits `m` of a word that has other bits only. -/
theorem and_eq_zero_of_disjoint {a b m : Word} (ha : a &&& b = a) (hm : b &&& m = 0) : a &&& m = 0 := by
  rw [← ha, BitVec.and_assoc, hm]
  exact BitVec.and_zero

/-! ## New entries -/

/-- The access bits, by what is allowed. -/
def accessBits (kernel write execute : Bool) : Word :=
  (if kernel then 0 else l2AccessUser) ||| l2AccessPrw ||| (if write then 0 else l2AccessApx) |||
    if execute then 0 else l2NxBit

theorem pmapVmProtToPageFlags_eq : pmapVmProtToPageFlags kernel prot =
    accessBits kernel (decide (prot &&& vmProtWrite ≠ 0)) (decide (prot &&& vmProtExecute ≠ 0)) := by
  by_cases hw : prot &&& vmProtWrite = 0 <;> by_cases hx :
    prot &&& vmProtExecute = 0 <;> cases kernel <;>
    simp only [pmapVmProtToPageFlags, accessBits, hw, hx, ne_eq, not_true_eq_false,
      not_false_eq_true, decide_true,
      decide_false, if_true, if_false] <;>
    decide

/-- Words that have bits of a memory type only. -/
def IsMemoryType (cache : Word) : Prop := cache &&& ~~~cacheabilityMask = cache

instance (cache : Word) : Decidable (IsMemoryType cache) := inferInstanceAs (Decidable (_ = _))

theorem isMemoryType_writeThrough : IsMemoryType writeThrough := by decide

theorem isMemoryType_zero : IsMemoryType 0 := by decide

theorem IsMemoryType.paIndex (h : IsMemoryType cache) : paIndex cache = 0 := by
  rw [← h, paIndex_and, show Pmap.paIndex (~~~cacheabilityMask) = 0 by decide]
  exact BitVec.and_zero

/-- **A new entry leads to its page.** -/
theorem paIndex_templatePte (h : IsMemoryType cache) : paIndex (templatePte kernel commpage pa prot cache) = pa := by
  have hflags : paIndex (pmapVmProtToPageFlags kernel prot) = 0 := by
    rw [pmapVmProtToPageFlags_eq]
    generalize decide (prot &&& vmProtWrite ≠ 0) = write
    generalize decide (prot &&& vmProtExecute ≠ 0) = execute
    revert kernel write execute
    decide
  have hcomm : ∀ w, paIndex (if commpage then w ||| l2AccessUser else w) = paIndex w := by
    intro w
    cases commpage
    · rfl
    · simp [paIndex_or, show paIndex l2AccessUser = 0 by decide]
  have hmask : paIndex (ptoa pa &&& l2AddrMask) = pa := by
    rw [paIndex_and, paIndex_ptoa, show paIndex l2AddrMask =
      BitVec.allOnes 20 by decide, BitVec.and_allOnes]
  simp only [templatePte, paIndex_or, hcomm, hmask, h.paIndex, hflags, show paIndex l2SmallPage =
    0 by decide]
  simp

/-- Of the bits below the page number, all but the memory type are told by what is allowed. -/
theorem templatePte_and {m : Word} (hm : l2AddrMask &&& m = 0) (h : cache &&& m = 0) :
    templatePte kernel commpage pa prot cache &&& m =
      (l2SmallPage ||| accessBits kernel (decide (prot &&& vmProtWrite ≠ 0)) (decide (prot &&& vmProtExecute ≠ 0)) |||
        if commpage then l2AccessUser else 0) &&& m := by
  have hpa : (ptoa pa &&& l2AddrMask) &&& m = 0 := by
    rw [BitVec.and_assoc, hm]
    exact BitVec.and_zero
  cases commpage <;> simp [templatePte, BitVec.and_or_distrib_right, hpa, h, pmapVmProtToPageFlags_eq]

theorem valid_templatePte (h : IsMemoryType cache) : Valid (templatePte kernel commpage pa prot cache) := by
  have hbits : ∀ k c w x : Bool,
      (l2SmallPage ||| accessBits k w x ||| if c then l2AccessUser else 0) &&& l2SmallPage ≠ 0 := by decide
  rw [Valid, templatePte_and (by decide) (and_eq_zero_of_disjoint h (by decide))]
  exact hbits _ _ _ _

theorem writable_templatePte (h : IsMemoryType cache) :
    Writable (templatePte kernel commpage pa prot cache) ↔ prot &&& vmProtWrite ≠ 0 := by
  have hbits : ∀ k c w x : Bool,
      (l2SmallPage ||| accessBits k w x ||| if c then l2AccessUser else 0) &&& l2AccessApx = 0 ↔
      w = true := by decide
  rw [Writable, templatePte_and (by decide) (and_eq_zero_of_disjoint h (by decide)), hbits,
    decide_eq_true_iff]

theorem executable_templatePte (h : IsMemoryType cache) :
    Executable (templatePte kernel commpage pa prot cache) ↔ prot &&& vmProtExecute ≠ 0 := by
  have hbits : ∀ k c w x : Bool,
      (l2SmallPage ||| accessBits k w x ||| if c then l2AccessUser else 0) &&& l2NxBit = 0 ↔
      x = true := by decide
  rw [Executable, templatePte_and (by decide) (and_eq_zero_of_disjoint h (by decide)), hbits,
    decide_eq_true_iff]

theorem memoryType_templatePte (h : IsMemoryType cache) :
    memoryType (templatePte kernel commpage pa prot cache) = cache := by
  have hbits : ∀ k c w x : Bool,
      (l2SmallPage ||| accessBits k w x ||| if c then l2AccessUser else 0) &&& ~~~cacheabilityMask =
        0 := by decide
  have hrest : templatePte kernel commpage pa prot 0 &&& ~~~cacheabilityMask = 0 := by
    rw [templatePte_and (by decide) (by decide)]
    exact hbits _ _ _ _
  have hor : templatePte kernel commpage pa prot cache = templatePte kernel commpage pa prot
      0 ||| cache := by
    simp [templatePte]
  rw [memoryType, hor, BitVec.and_or_distrib_right, hrest]
  exact (BitVec.zero_or).trans h

/-! ## Changing entries -/

/-- Bits below the page number. -/
theorem paIndex_or_of_low (hc : paIndex c = 0) : paIndex (pte ||| c) = paIndex pte := by
  rw [paIndex_or, hc]
  exact BitVec.or_zero

theorem paIndex_and_not_of_low (hc : paIndex (~~~c) = BitVec.allOnes 20) : paIndex (pte &&& ~~~c) = paIndex pte := by
  rw [paIndex_and, hc, BitVec.and_allOnes]

@[simp] theorem paIndex_writeProtect : paIndex (pte ||| l2AccessApx) = paIndex pte := paIndex_or_of_low (by decide)

theorem paIndex_protectPte : paIndex (protectPte prot pte) = paIndex pte := by
  unfold protectPte
  dsimp only
  split_ifs
  · rw [paIndex_or_of_low (by decide), paIndex_and_not_of_low (by decide)]
  · rw [paIndex_or_of_low (by decide), paIndex_or_of_low (by decide)]
  · rw [paIndex_and_not_of_low (by decide), paIndex_and_not_of_low (by decide)]
  · rw [paIndex_and_not_of_low (by decide), paIndex_or_of_low (by decide)]

theorem paIndex_setCacheability (hc : IsMemoryType c) : paIndex (setCacheability c pte) = paIndex pte := by
  rw [setCacheability, paIndex_or_of_low hc.paIndex, paIndex_and,
    show paIndex cacheabilityMask = BitVec.allOnes 20 by decide, BitVec.and_allOnes]

/-! What becomes of the bits `m`. -/

theorem or_and_of_disjoint {m : Word} (hc : c &&& m = 0) : (pte ||| c) &&& m = pte &&& m := by
  rw [BitVec.and_or_distrib_right, hc]
  exact BitVec.or_zero

theorem and_and_of_subset {m : Word} (hc : c &&& m = m) : pte &&& c &&& m = pte &&& m := by rw [BitVec.and_assoc, hc]

theorem and_and_of_disjoint {m : Word} (hc : c &&& m = 0) : pte &&& c &&& m = 0 := by
  rw [BitVec.and_assoc, hc]
  exact BitVec.and_zero

/-- The bits `m` are all set. -/
theorem or_and_ne_zero {m : Word} (hc : c &&& m ≠ 0) : (pte ||| c) &&& m ≠ 0 := by
  intro h
  rw [BitVec.and_or_distrib_right] at h
  exact hc (BitVec.or_eq_zero_iff.1 h).2

theorem valid_writeProtect : Valid (pte ||| l2AccessApx) ↔ Valid pte := by
  rw [Valid, or_and_of_disjoint (by decide), Valid]

theorem not_writable_writeProtect : ¬ Writable (pte ||| l2AccessApx) := or_and_ne_zero (by decide)

theorem executable_writeProtect : Executable (pte ||| l2AccessApx) ↔ Executable pte := by
  rw [Executable, or_and_of_disjoint (by decide), Executable]

theorem memoryType_writeProtect : memoryType (pte ||| l2AccessApx) = memoryType pte := or_and_of_disjoint (by decide)

/-- The bits that protecting does not mean. -/
theorem protectPte_and {m : Word} (hm : (l2AccessApx ||| l2NxBit) &&& m = 0) : protectPte prot pte &&& m = pte &&& m := by
  obtain ⟨hapx, hnx⟩ : l2AccessApx &&& m = 0 ∧ l2NxBit &&& m = 0 := by
    rw [BitVec.and_or_distrib_right] at hm
    exact BitVec.or_eq_zero_iff.1 hm
  have hnot : ∀ c : Word, c &&& m = 0 → ~~~c &&& m = m := by
    intro c hc
    ext i hi
    have := congrArg (·.getLsbD i) hc
    simp only [BitVec.getLsbD_and] at this
    simp only [← BitVec.getLsbD_eq_getElem, BitVec.getLsbD_and, BitVec.getLsbD_not, hi, decide_true,
      Bool.true_and]
    cases h : c.getLsbD i <;> simp_all
  unfold protectPte
  dsimp only
  split_ifs
  · rw [or_and_of_disjoint hnx, and_and_of_subset (hnot _ hapx)]
  · rw [or_and_of_disjoint hnx, or_and_of_disjoint hapx]
  · rw [and_and_of_subset (hnot _ hnx), and_and_of_subset (hnot _ hapx)]
  · rw [and_and_of_subset (hnot _ hnx), or_and_of_disjoint hapx]

theorem valid_protectPte : Valid (protectPte prot pte) ↔ Valid pte := by
  rw [Valid, protectPte_and (by decide), Valid]

theorem memoryType_protectPte : memoryType (protectPte prot pte) = memoryType pte := protectPte_and (by decide)

theorem writable_protectPte : Writable (protectPte prot pte) ↔ prot &&& vmProtWrite ≠ 0 := by
  unfold Writable protectPte
  by_cases hw : prot &&& vmProtWrite = 0
  · simp only [hw, ne_eq, not_true_eq_false, if_false, iff_false]
    split_ifs
    · rw [or_and_of_disjoint (by decide)]
      exact or_and_ne_zero (by decide)
    · rw [and_and_of_subset (by decide)]
      exact or_and_ne_zero (by decide)
  · simp only [hw, ne_eq, not_false_eq_true, if_true, iff_true]
    split_ifs
    · rw [or_and_of_disjoint (by decide)]
      exact and_and_of_disjoint (by decide)
    · rw [and_and_of_subset (by decide)]
      exact and_and_of_disjoint (by decide)

theorem executable_protectPte : Executable (protectPte prot pte) ↔ prot &&& vmProtExecute ≠ 0 := by
  unfold Executable protectPte
  dsimp only
  by_cases hx : prot &&& vmProtExecute = 0
  · rw [if_pos hx]
    exact iff_of_false (or_and_ne_zero (by decide)) fun h => h hx
  · rw [if_neg hx]
    exact iff_of_true (and_and_of_disjoint (by decide)) hx

theorem valid_setCacheability (hc : IsMemoryType c) : Valid (setCacheability c pte) ↔ Valid pte := by
  rw [Valid, setCacheability, or_and_of_disjoint (and_eq_zero_of_disjoint hc (by decide)),
    and_and_of_subset (by decide), Valid]

theorem memoryType_setCacheability (hc : IsMemoryType c) : memoryType (setCacheability c pte) = c := by
  rw [memoryType, setCacheability, BitVec.and_or_distrib_right, and_and_of_disjoint (by decide)]
  exact (BitVec.zero_or).trans hc

/-! ## Descriptors of the first level -/

theorem page_l1Descriptor (page : Ppn) : (l1PteAddr (l1Descriptor page)).page = page := by
  have hmask : ∀ i < 20, l1PteAddrMask.getLsbD (12 + i) = true := by decide
  have hone : ∀ i < 20, (1 : Word).getLsbD (12 + i) = false := by decide
  ext i hi
  have h22 : 2 + i < 22 := by omega
  have h32 : 12 + i < 32 := by omega
  have hi32 : i < 32 := by omega
  have hadd : 10 + (2 + i) = 12 + i := by omega
  have h12 : ¬ 12 + i < 12 := by omega
  simp only [← BitVec.getLsbD_eq_getElem, Block.page, l1PteAddr, l1Descriptor, ptoa,
    BitVec.getLsbD_setWidth,
    BitVec.getLsbD_ushiftRight, BitVec.getLsbD_and, BitVec.getLsbD_or, BitVec.getLsbD_shiftLeft,
    hadd, hmask i hi,
    hone i hi, hi, h22, h32, hi32, h12, decide_true, decide_false, Bool.true_and, Bool.and_true,
    Bool.or_false,
    Bool.not_false, Nat.add_sub_cancel_left]

theorem l1PteAddr_l1Descriptor_ne_zero {page : Ppn} (h : page ≠ 0) : l1PteAddr (l1Descriptor page) ≠ 0 := by
  intro hzero
  have := page_l1Descriptor page
  rw [hzero] at this
  exact h this.symm

theorem isPageTable_l1Descriptor (page : Ppn) : IsPageTable (l1Descriptor page) := by
  rw [IsPageTable, l1Descriptor, BitVec.and_or_distrib_right, and_and_of_disjoint (by decide)]
  decide

theorem IsPageTable.not_isSection {tte : Word} (h : IsPageTable tte) : ¬ IsSection tte := by
  intro h'
  exact absurd (h.symm.trans h') (by decide)

end

end PocketDarwin.Pmap
