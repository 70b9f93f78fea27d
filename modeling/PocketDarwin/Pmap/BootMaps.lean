/-
  Memory before there is a VM system: what is built on the tables of `arm_vm_init`.

  Pages are handed out from behind the tables and cleared, and devices are mapped into the managed
  window (`io_map`), whose tables are there already.  The pmap module starts from these tables.

  * `grabPages_iff`: all pages that are handed out can be cleared exactly if memory is a number of
    4 MB; none of them has a table in it.
  * `ioMaps_translate`: calls of `io_map` map one window after the other, and change nothing else.
  * `entry_bootMachine`: what the pmap module looks up in these tables is where they lead.
-/
import Mathlib.Algebra.Ring.Nat
import PocketDarwin.Pmap.Calls
import PocketDarwin.Pmap.VmInit

namespace PocketDarwin.Pmap

/-! ## The code -/

/-- `pmap_zero_page` -/
def pmapZeroPage (b : BootArgs) (r : Region) (p : PageNum) (σ : Mmu) : Except Abort Mmu :=
  if pmapZeroPageAccepts r p then Mmu.bzero 0x400 (b.physToVirt (pageAddr p).toNat) σ
  else .error .notManaged

/-- A page is taken with `pmap_next_page`, if there is one, and cleared. -/
def grabPage (b : BootArgs) (x : Mmu × Region) : Except Abort (Mmu × Region) :=
  match pmapNextPage x.2 with
  | (none, r) => .ok (x.1, r)
  | (some p, r) => (pmapZeroPage b r p x.1).map fun σ => (σ, r)

/-- Some pages, one after the other. -/
def grabPages (b : BootArgs) : ℕ → Mmu × Region → Except Abort (Mmu × Region)
  | 0, x => .ok x
  | n + 1, x => (grabPage b x).bind (grabPages b n)

/-- `pmap_pte(kernel_pmap, virt)`, from the words in memory: `0` for a null pointer. -/
def Mmu.pmapPte (b : BootArgs) (virt : ℕ) (σ : Mmu) : Except Abort ℕ := do
  let tte ← σ.load (addrToTte (b.physToVirt b.cpuTtb) virt)
  if IsSection tte then .error .section
  else if l1PteAddr tte = 0 then .ok 0
  else .ok (wrap (b.physToVirt ((l1PteAddr tte).toNat * 0x400) + pteIndex virt * 4))

/-- `pmap_map_bd` -/
def pmapMapBd (b : BootArgs) (virt physStart physEnd : ℕ) (σ : Mmu) : Except Abort Mmu := do
  let ptep ← σ.pmapPte b virt
  if ptep = 0 then .error .invalidAddress
  else l2MapLinearRangeNoCache b (b.virtToPhys ptep) (wrap physStart) (wrap physEnd) σ

/-- `bootstrap_addr`, where `virt_begin` begins -/
def virtBegin : ℕ := managedBase + 0x1000

/-- `round_page` -/
def roundPage (size : ℕ) : ℕ := wrap (size + 0xFFF) / 0x1000 * 0x1000

/-- `io_map`, where there is no `kernel_map`: the address, and `virt_begin` behind it. -/
def ioMap (b : BootArgs) (physAddr size : ℕ) (x : Mmu × ℕ) : Except Abort (ℕ × Mmu × ℕ) := do
  let start := x.2
  let virtBegin := wrap (start + roundPage size)
  let σ ← pmapMapBd b start physAddr (wrap (physAddr + roundPage size)) x.1
  .ok (start, σ, virtBegin)

/-- Calls of `io_map`, each an address and a size: what they return. -/
def ioMaps (b : BootArgs) : List (ℕ × ℕ) → Mmu × ℕ → Except Abort (List ℕ × Mmu × ℕ)
  | [], x => .ok ([], x)
  | (physAddr, size) :: calls, x => do
    let y ← ioMap b physAddr size x
    let z ← ioMaps b calls y.2
    .ok (y.1 :: z.1, z.2)

/-! ## The tables stay -/

/-- The state of `arm_vm_init`. -/
def bootMmu (b : BootArgs) (s vectors : ℕ) (σ : Mmu) : Mmu :=
  setMmuTtb b.cpuTtb (initialTables b s vectors σ)

section
variable {b : BootArgs} {lo hi p n va s vectors : ℕ} {σ σ' : Mmu} {m : Memory}

/-- A descriptor of the first table is empty, or leads to a table that is behind it. -/
theorem initialTables_descriptor (hl : b.Layout s) (vectors : ℕ) (σ : Mmu) (va : ℕ) :
    (initialTables b s vectors σ).mem (b.cpuTtb + tteIndex va * 4) = 0 ∨
      ∃ a, (initialTables b s vectors σ).mem (b.cpuTtb + tteIndex va * 4) = BitVec.ofNat 32 a ||| 1 ∧
        a % 0x400 = 0 ∧ b.identityCache ≤ a ∧ a ≤ b.vectorTable := by
  obtain ⟨hp₁, hp₂, hp₃, hp₄, -, hid, hman, hvec⟩ := hl.places
  have hmem := hl.mem_aligned
  have hl1 := initialTables_l1 hl vectors σ (i := tteIndex va) tteIndex_lt
  by_cases hvectors : tteIndex va = 0xFFF
  · rw [if_pos hvectors] at hl1
    exact .inr ⟨_, hl1, hvec, by omega, by omega⟩
  rw [if_neg hvectors] at hl1
  by_cases hwindow : 0xC00 ≤ tteIndex va ∧ tteIndex va < 0xC00 + b.memSize / 0x100000
  · rw [if_pos hwindow] at hl1
    exact .inr ⟨_, hl1, by omega, by omega, by omega⟩
  rw [if_neg hwindow] at hl1
  by_cases hram : tteIndex b.virtBase ≤ tteIndex va ∧
      tteIndex va < tteIndex b.virtBase + b.memSize / 0x100000
  · rw [if_pos hram] at hl1
    exact .inr ⟨_, hl1, by omega, by omega, by omega⟩
  · rw [if_neg hram] at hl1
    exact .inl hl1

/-- **The tables are all that matters** of memory. -/
theorem translate_bootMmu_congr (hl : b.Layout s)
    (hm : ∀ a, b.cpuTtb ≤ a → a < b.tablesEnd → m a = (initialTables b s vectors σ).mem a) :
    translate m (bootMmu b s vectors σ).ttb va =
      translate (bootMmu b s vectors σ).mem (bootMmu b s vectors σ).ttb va := by
  obtain ⟨hp₁, hp₂, hp₃, hp₄, hcpu, -⟩ := hl.places
  have hend : b.tablesEnd = b.vectorTable + 0x400 := rfl
  have htte : tteIndex va < 0x1000 := tteIndex_lt
  have hpte : pteIndex va < 0x100 := by
    rw [pteIndex]
    omega
  show translate m (b.cpuTtb ||| 0x18) va =
    translate (initialTables b s vectors σ).mem (b.cpuTtb ||| 0x18) va
  rw [translate_or_ttb hcpu, translate_or_ttb hcpu]
  refine translate_congr hcpu (hm _ (by omega) (by omega)) ?_
  intro htable
  rcases initialTables_descriptor hl vectors σ va with h | ⟨a, h, ha, hle, hle'⟩
  · rw [h] at htable
    exact absurd htable (by decide)
  · have hlt : a < 0x100000000 := by omega
    rw [h, toNat_l1PteAddr_ofNat_or_one ha hlt]
    exact hm _ (by omega) (by omega)

/-- Memory is mapped as `phys_to_virt` says, whatever is stored behind the tables for it. -/
theorem mapsRam_bootMmu (hl : b.Layout 0) (hvirt : b.virtBase % 0x100000 = 0)
    (hlo : b.managedCache ≤ lo) : MapsRam b lo hi (bootMmu b 0 vectors σ) := by
  have hb := hl.fits
  obtain ⟨hp₁, hp₂, hp₃, hp₄, hcpu, hid, -, -⟩ := hl.places
  have hmem := hl.mem_aligned
  have hvirtle := hl.virt_le
  have hbase : managedBase = 0xC0000000 := rfl
  intro m hm p hp
  have hmap := (initialMap_physToVirt_iff hl).2 ⟨rfl, hvirt⟩ p hp
  obtain ⟨hple, hplt⟩ := hp
  have hva : b.physToVirt p = b.virtBase + (p - b.physBase) := physToVirt_eq hb hple (by omega)
  have htte : tteIndex (b.physToVirt p) = b.virtBase / 0x100000 + (p - b.physBase) / 0x100000 := by
    rw [hva, tteIndex]
    omega
  have htteVirt : tteIndex b.virtBase = b.virtBase / 0x100000 := Nat.mod_eq_of_lt (by omega)
  have hpte : pteIndex (b.physToVirt p) < 0x100 := by
    rw [pteIndex]
    omega
  have haddr : (b.identityCache +
      (tteIndex (b.physToVirt p) - tteIndex b.virtBase) * 0x400) % 0x400 = 0 := by omega
  have hl1 := initialTables_l1 hl vectors σ (i := tteIndex (b.physToVirt p)) tteIndex_lt
  rw [if_neg (by omega), if_neg (by omega), if_pos (by omega)] at hl1
  rw [← hmap, ← translate_initialTables hl vectors σ (by omega)]
  refine (translate_or_ttb hcpu).trans (translate_congr hcpu (hm _ (.inl ?_)) ?_)
  · omega
  · intro _
    rw [hl1, toNat_l1PteAddr_ofNat_or_one haddr (by omega)]
    exact hm _ (.inl (by omega))

/-! ## Pages -/

/-- What grabbing pages keeps: the rest of the pages is counted and behind the tables, which are
    what they were. -/
structure Grabbed (b : BootArgs) (σ₀ : Mmu) (x : Mmu × Region) : Prop where
  ttb : x.1.ttb = σ₀.ttb
  mem : ∀ a < b.tablesEnd, x.1.mem a = σ₀.mem a
  counted : x.2.Counted
  start : x.2.availStart.toNat ≤ x.2.firstAvail.toNat
  behind : b.tablesEnd ≤ x.2.availStart.toNat
  avail_end : x.2.availEnd.toNat = b.physBase + b.memSize

/-- **A page is taken and cleared**, and the tables stay. -/
theorem Grabbed.step (hl : b.Layout 0) (hvirt : b.virtBase % 0x100000 = 0) {x : Mmu × Region}
    (h : Grabbed b (bootMmu b 0 vectors σ) x) :
    ∃ y, grabPage b x = .ok y ∧ Grabbed b (bootMmu b 0 vectors σ) y := by
  obtain ⟨httb, hmem, hcounted, hstart, hbehind, hend⟩ := h
  have hb := hl.fits
  obtain ⟨hp₁, hp₂, hp₃, hp₄, -⟩ := hl.places
  have htables : b.tablesEnd = b.vectorTable + 0x400 := rfl
  have hphys := hl.top_le
  have hcpu : b.cpuTtb = b.topOfKernelData + 0x4000 := rfl
  rcases pmapNextPage_spec hcounted with
    ⟨hnext, -⟩ | ⟨p, r', hnext, hcounted', hstart', hend', hp, hcount, hfirst⟩
  · refine ⟨(x.1, x.2), ?_, httb, hmem, hcounted, hstart, hbehind, hend⟩
    rw [grabPage, hnext]
  have hfirstle := hcounted.le
  have hle' := hcounted'.le
  rw [pageBytes] at hp hfirst
  rw [hend'] at hle'
  have haddr : (pageAddr p).toNat = x.2.firstAvail.toNat := by
    rw [toNat_pageAddr (by rw [pageBytes]; have := x.2.firstAvail.isLt; omega), pageBytes, hp]
  have haccept : pmapZeroPageAccepts r' p := by
    rintro (hlt | hlt)
    · have hlt' : (pageAddr p).toNat < r'.availStart.toNat := hlt
      rw [hstart'] at hlt'
      omega
    · have hlt' : r'.availEnd.toNat < (pageAddr p).toNat := hlt
      rw [hend'] at hlt'
      omega
  have hmaps : MapsRam b x.2.firstAvail.toNat (x.2.firstAvail.toNat + 0x1000) x.1 := by
    have hmaps₀ : MapsRam b b.managedCache (b.physBase + b.memSize) (bootMmu b 0 vectors σ) :=
      mapsRam_bootMmu hl hvirt (Nat.le_refl _)
    intro m hm q hq
    rw [httb]
    have hsame : ∀ a, b.cpuTtb ≤ a → a < b.tablesEnd → m a = (initialTables b 0 vectors σ).mem a := by
      intro a _ ha
      rw [hm a (.inl (by omega)), hmem a ha]
      rfl
    have hcongr : translate m (bootMmu b 0 vectors σ).ttb (b.physToVirt q) = translate
        (bootMmu b 0 vectors σ).mem (bootMmu b 0 vectors σ).ttb (b.physToVirt q) :=
      translate_bootMmu_congr hl hsame
    rw [hcongr]
    exact hmaps₀.translate_eq hq
  have hzero := hmaps.bzero hb (p := x.2.firstAvail.toNat) (n := 0x400) (Nat.le_refl _) (by omega)
    (by omega) (by omega)
  refine ⟨(x.1.fill x.2.firstAvail.toNat 0x400 fun _ => 0, r'), ?_, httb, ?_, hcounted', ?_, ?_, ?_⟩
  · rw [grabPage, hnext]
    simp only [pmapZeroPage, if_pos haccept, haddr, hzero, Except.map]
  · intro a ha
    exact (Mmu.mem_fill_of_outside (.inl (by omega))).trans (hmem a ha)
  · show r'.availStart.toNat ≤ r'.firstAvail.toNat
    rw [hstart']
    omega
  · show b.tablesEnd ≤ r'.availStart.toNat
    rwa [hstart']
  · show r'.availEnd.toNat = _
    rw [hend', hend]

/-- **Any number of pages.** -/
theorem Grabbed.run (hl : b.Layout 0) (hvirt : b.virtBase % 0x100000 = 0) {x : Mmu × Region}
    (h : Grabbed b (bootMmu b 0 vectors σ) x) (n : ℕ) :
    ∃ y, grabPages b n x = .ok y ∧ Grabbed b (bootMmu b 0 vectors σ) y := by
  induction n generalizing x with
  | zero => exact ⟨x, rfl, h⟩
  | succ n ih =>
    obtain ⟨y, hy, hgrabbed⟩ := h.step hl hvirt
    rw [grabPages, hy]
    exact ih hgrabbed

/-- The tables of `arm_vm_init`, and the pages that it leaves. -/
theorem grabbed_bootMmu (hl : b.Layout 0) {spare : ℕ} (hspare : 1 ≤ spare)
    (hroom : b.firstAvail spare < b.physBase + b.memSize) (haligned : b.memSize % 0x400000 = 0) :
    Grabbed b (bootMmu b 0 vectors σ) (bootMmu b 0 vectors σ,
      pmapBootstrap (BitVec.ofNat 32 (b.firstAvail spare))
        (BitVec.ofNat 32 (b.physBase + b.memSize))) := by
  have hphys := hl.phys_lt
  have hpage := hl.phys_aligned
  have htop := hl.top_aligned
  have hfirst : b.firstAvail spare = b.topOfKernelData + 0x8000 + b.memSize / 0x100000 * 0x400 +
      0x100000 + spare * 0x4000 := rfl
  have htables : b.tablesEnd = b.topOfKernelData + 0x8000 + b.memSize / 0x100000 * 0x400 +
      0x100000 + 0x400 := rfl
  have hnat := toNat_ofNat_of_lt (a := b.firstAvail spare) (by omega)
  have hnat' := toNat_ofNat_of_lt (a := b.physBase + b.memSize) (by omega)
  have hbounds : Bounds (BitVec.ofNat 32 (b.firstAvail spare))
      (BitVec.ofNat 32 (b.physBase + b.memSize)) := by
    refine ⟨?_, ?_, ?_⟩
    · rw [hnat, pageBytes]
      omega
    · rw [hnat', pageBytes]
      omega
    · show (BitVec.ofNat 32 (b.firstAvail spare)).toNat <
        (BitVec.ofNat 32 (b.physBase + b.memSize)).toNat
      rwa [hnat, hnat']
  refine ⟨rfl, fun _ _ => rfl, hbounds.counted, Nat.le_refl _, ?_, hnat'⟩
  show b.tablesEnd ≤ (BitVec.ofNat 32 (b.firstAvail spare)).toNat
  rw [hnat]
  omega

/-- A first page that begins before the pages do is not cleared. -/
theorem grabPage_of_not_aligned {x : Mmu × Region} (hlt : x.2.firstAvail < x.2.availEnd)
    (hstart : x.2.availStart = x.2.firstAvail) (hna : x.2.firstAvail.toNat % 0x1000 ≠ 0) :
    grabPage b x = .error .notManaged := by
  have hnot : ¬ x.2.availEnd ≤ x.2.firstAvail := BitVec.not_le.2 hlt
  have hpage : (x.2.firstAvail >>> 12).toNat = x.2.firstAvail.toNat / 0x1000 := by
    rw [BitVec.toNat_ushiftRight, Nat.shiftRight_eq_div_pow]
  have haddr : (pageAddr (x.2.firstAvail >>> 12)).toNat = x.2.firstAvail.toNat / 0x1000 * 0x1000 := by
    have hlt := x.2.firstAvail.isLt
    rw [toNat_pageAddr (by rw [hpage, pageBytes]; omega), hpage, pageBytes]
  have hreject : pageAddr (x.2.firstAvail >>> 12) < x.2.availStart := by
    show (pageAddr (x.2.firstAvail >>> 12)).toNat < x.2.availStart.toNat
    rw [haddr, hstart]
    omega
  rw [grabPage, pmapNextPage, if_neg hnot]
  simp only [pmapZeroPage]
  rw [if_neg fun h => h (Or.inl hreject)]
  rfl

/-- **All pages that are handed out can be cleared** exactly if memory is a number of 4 MB: with
    any other size the first one is refused.  However many are cleared, no address moves. -/
theorem grabPages_iff (hl : b.Layout 0) (hvirt : b.virtBase % 0x100000 = 0)
    (h : MapsRam b b.cpuTtb b.tablesEnd σ) (vectors : ℕ) {spare : ℕ} (hspare : 1 ≤ spare)
    (hroom : b.firstAvail spare < b.physBase + b.memSize) :
    ∃ x, armVmInit b 0 vectors spare σ = .ok x ∧
      ((∀ n, ∃ y, grabPages b n x = .ok y) ↔ b.memSize % 0x400000 = 0) ∧
      (b.memSize % 0x400000 ≠ 0 → grabPage b x = .error .notManaged) ∧
      ∀ n y, grabPages b n x = .ok y →
        ∀ va, translate y.1.mem y.1.ttb va = translate x.1.mem x.1.ttb va := by
  have hphys := hl.phys_lt
  have hmem := hl.mem_aligned
  have htop := hl.top_aligned
  have hfirst : b.firstAvail spare = b.topOfKernelData + 0x8000 + b.memSize / 0x100000 * 0x400 +
      0x100000 + spare * 0x4000 := rfl
  have hnat := toNat_ofNat_of_lt (a := b.firstAvail spare) (by omega)
  have hnat' := toNat_ofNat_of_lt (a := b.physBase + b.memSize) (by omega)
  refine ⟨_, armVmInit_eq hl h vectors (by omega), ?_⟩
  by_cases haligned : b.memSize % 0x400000 = 0
  · have hgrabbed : Grabbed b (bootMmu b 0 vectors σ) _ := grabbed_bootMmu hl hspare hroom haligned
    refine ⟨iff_of_true (fun n => ?_) haligned, fun hne => absurd haligned hne, ?_⟩
    · obtain ⟨y, hy, -⟩ := hgrabbed.run hl hvirt n
      exact ⟨y, hy⟩
    · intro n y hy va
      obtain ⟨y', hy', hgrabbed'⟩ := hgrabbed.run hl hvirt n
      obtain rfl : y' = y := Except.ok.inj (hy'.symm.trans hy)
      rw [hgrabbed'.ttb]
      exact translate_bootMmu_congr hl fun a _ ha => hgrabbed'.mem a ha
  · have hfail : grabPage b (setMmuTtb b.cpuTtb (initialTables b 0 vectors σ),
        pmapBootstrap (BitVec.ofNat 32 (b.firstAvail spare))
          (BitVec.ofNat 32 (b.physBase + b.memSize))) = .error .notManaged := by
      refine grabPage_of_not_aligned ?_ rfl ?_
      · show (BitVec.ofNat 32 (b.firstAvail spare)).toNat <
          (BitVec.ofNat 32 (b.physBase + b.memSize)).toNat
        rwa [hnat, hnat']
      · show (BitVec.ofNat 32 (b.firstAvail spare)).toNat % 0x1000 ≠ 0
        rw [hnat]
        omega
    refine ⟨iff_of_false (fun hall => ?_) haligned, fun _ => hfail, ?_⟩
    · obtain ⟨y, hy⟩ := hall 1
      rw [grabPages, hfail] at hy
      simp [Except.bind] at hy
    · intro n y hy va
      cases n with
      | zero =>
        rw [grabPages] at hy
        rw [← Except.ok.inj hy]
      | succ n =>
        rw [grabPages, hfail] at hy
        simp [Except.bind] at hy

theorem grabPages_board : ∃ σ x, armVmInit board 0 0x80010000 1 σ = .ok x ∧
    ∀ n, ∃ y, grabPages board n x = .ok y := by
  obtain ⟨σ, -, hmaps⟩ := mmuReinitialize_board 0x40008000 fun _ => 0
  obtain ⟨x, hx, hiff, -⟩ := grabPages_iff (layout_board (s := 0) (by decide) (by decide)) (by decide)
    hmaps 0x80010000 (show 1 ≤ 1 by decide) (by decide)
  exact ⟨σ, x, hx, hiff.2 (by decide)⟩

/-! ## Devices -/

/-- The bytes of the windows. -/
def windowBytes (calls : List (ℕ × ℕ)) : ℕ := (calls.map fun call => roundPage call.2).sum

theorem windowBytes_cons (physAddr size : ℕ) (calls : List (ℕ × ℕ)) :
    windowBytes ((physAddr, size) :: calls) = roundPage size + windowBytes calls := by
  rw [windowBytes, List.map_cons, List.sum_cons]
  rfl

/-- A device that can be mapped: pages of the physical address space. -/
structure IsDevice (call : ℕ × ℕ) : Prop where
  aligned : call.1 % 0x1000 = 0
  pos : 0 < call.2
  fits : call.1 + call.2 ≤ 0xFFFFF000

/-- The tables, up to what is in those of the window. -/
structure Windowed (b : BootArgs) (σ₀ : Mmu) (σ : Mmu) : Prop where
  ttb : σ.ttb = σ₀.ttb
  mem : ∀ a, a < b.managedCache ∨ b.managedCache + b.memSize / 0x1000 * 4 ≤ a → σ.mem a = σ₀.mem a

/-- The descriptors of the window. -/
theorem initialTables_managed (hl : b.Layout s) (vectors : ℕ) (σ : Mmu) (hva : managedBase ≤ va)
    (hva' : va < managedBase + b.memSize) :
    (initialTables b s vectors σ).mem (b.cpuTtb + tteIndex va * 4) =
      BitVec.ofNat 32 (b.managedCache + (va / 0x100000 - 0xC00) * 0x400) ||| 1 := by
  have hbase : managedBase = 0xC0000000 := rfl
  have hmem := hl.mem_aligned
  have hle := hl.mem_le
  have htte : tteIndex va = va / 0x100000 := Nat.mod_eq_of_lt (by omega)
  have hl1 := initialTables_l1 hl vectors σ (i := tteIndex va) tteIndex_lt
  rw [if_neg (by omega), if_pos (by omega), htte] at hl1
  rw [htte]
  exact hl1

/-- Where the entry of an address of the window is. -/
def BootArgs.managedPte (b : BootArgs) (va : ℕ) : ℕ :=
  b.managedCache + (va - managedBase) / 0x1000 * 4

theorem Windowed.mapsRam (hl : b.Layout 0) (hvirt : b.virtBase % 0x100000 = 0)
    (h : Windowed b (bootMmu b 0 vectors σ) σ') :
    MapsRam b b.managedCache b.vectorTable σ' := by
  obtain ⟨hp₁, hp₂, hp₃, hp₄, -⟩ := hl.places
  have hboot : MapsRam b b.managedCache b.vectorTable (bootMmu b 0 vectors σ) :=
    mapsRam_bootMmu hl hvirt (Nat.le_refl _)
  refine hboot.congr h.ttb fun a ha => h.mem a ?_
  omega

/-- Outside of the window nothing can have changed. -/
theorem Windowed.translate_of_not_window (hl : b.Layout 0) (h : Windowed b (bootMmu b 0 vectors σ) σ')
    (hva : va < 0xFFF00000) (hnot : va < managedBase ∨ managedBase + b.memSize ≤ va) :
    translate σ'.mem σ'.ttb va = initialMap b 0 va := by
  obtain ⟨hp₁, hp₂, hp₃, hp₄, hcpu, hid, -, -⟩ := hl.places
  have hbase : managedBase = 0xC0000000 := rfl
  have hmem := hl.mem_aligned
  have htte : tteIndex va = va / 0x100000 := Nat.mod_eq_of_lt (by omega)
  have hpte : pteIndex va < 0x100 := by
    rw [pteIndex]
    omega
  have hl1 := initialTables_l1 hl vectors σ (i := tteIndex va) tteIndex_lt
  rw [if_neg (by omega), if_neg (by omega)] at hl1
  rw [h.ttb, ← translate_initialTables hl vectors σ hva]
  refine (translate_or_ttb hcpu).trans (translate_congr hcpu (h.mem _ (.inl (by omega))) ?_)
  intro htable
  by_cases hram : tteIndex b.virtBase ≤ tteIndex va ∧
      tteIndex va < tteIndex b.virtBase + b.memSize / 0x100000
  · rw [if_pos hram] at hl1
    have haligned : (b.identityCache + (tteIndex va - tteIndex b.virtBase) * 0x400) % 0x400 = 0 := by
      omega
    have hlt : b.identityCache + (tteIndex va - tteIndex b.virtBase) * 0x400 < 0x100000000 := by omega
    have hfar : b.identityCache + (tteIndex va - tteIndex b.virtBase) * 0x400 + pteIndex va * 4 <
        b.managedCache := by omega
    rw [hl1, toNat_l1PteAddr_ofNat_or_one haligned hlt]
    exact h.mem _ (.inl hfar)
  · rw [if_neg hram] at hl1
    rw [hl1] at htable
    exact absurd htable (by decide)

/-- **An address of the window** leads where its entry says. -/
theorem Windowed.translate_of_window (hl : b.Layout 0) (h : Windowed b (bootMmu b 0 vectors σ) σ')
    (hva : managedBase ≤ va) (hva' : va < managedBase + b.memSize) :
    translate σ'.mem σ'.ttb va =
      let pte := σ'.mem (b.managedPte va)
      if Valid pte then some ((paIndex pte).toNat * 0x1000 + va % 0x1000)
      else if Executable pte then none
      else some ((paIndex pte).toNat / 0x10 * 0x10000 + va % 0x10000) := by
  obtain ⟨hp₁, hp₂, hp₃, hp₄, hcpu, hid, hman, hvec⟩ := hl.places
  have hbase : managedBase = 0xC0000000 := rfl
  have hmem := hl.mem_aligned
  have htte : tteIndex va < 0x1000 := tteIndex_lt
  have hpte : pteIndex va = va % 0x100000 / 0x1000 := rfl
  have haddr : b.managedCache + (va / 0x100000 - 0xC00) * 0x400 + pteIndex va * 4 = b.managedPte va := by
    rw [BootArgs.managedPte]
    omega
  have haligned : (b.managedCache + (va / 0x100000 - 0xC00) * 0x400) % 0x400 = 0 := by omega
  have hlt : b.managedCache + (va / 0x100000 - 0xC00) * 0x400 < 0x100000000 := by omega
  have hdesc : σ'.mem (b.cpuTtb + tteIndex va * 4) =
      BitVec.ofNat 32 (b.managedCache + (va / 0x100000 - 0xC00) * 0x400) ||| 1 := by
    rw [h.mem _ (.inl (by omega))]
    exact initialTables_managed hl vectors σ hva hva'
  rw [h.ttb]
  refine (translate_or_ttb hcpu).trans ((translate_of_table hcpu haligned hlt hdesc).trans ?_)
  rw [haddr]

/-- **The entry of an address of the window**, as `pmap_pte` finds it. -/
theorem Windowed.pmapPte_eq (hl : b.Layout 0) (hvirt : b.virtBase % 0x100000 = 0)
    (h : Windowed b (bootMmu b 0 vectors σ) σ') (hva : managedBase ≤ va)
    (hva' : va < managedBase + b.memSize) :
    σ'.pmapPte b va = .ok (b.physToVirt (b.managedPte va)) := by
  have hb := hl.fits
  obtain ⟨hp₁, hp₂, hp₃, hp₄, hcpu, hid, hman, hvec⟩ := hl.places
  have hbase : managedBase = 0xC0000000 := rfl
  have hmem := hl.mem_aligned
  have htop := hl.top_le
  have hcpu' : b.cpuTtb = b.topOfKernelData + 0x4000 := rfl
  have hroom := hl.room
  have hend : b.tablesEnd = b.vectorTable + 0x400 := rfl
  have htte : tteIndex va < 0x1000 := tteIndex_lt
  have hpte : pteIndex va = va % 0x100000 / 0x1000 := rfl
  have haddr : b.managedCache + (va / 0x100000 - 0xC00) * 0x400 + pteIndex va * 4 = b.managedPte va := by
    rw [BootArgs.managedPte]
    omega
  have haligned : (b.managedCache + (va / 0x100000 - 0xC00) * 0x400) % 0x400 = 0 := by omega
  have hlt : b.managedCache + (va / 0x100000 - 0xC00) * 0x400 + 0x400 ≤ b.vectorTable := by omega
  have htteaddr : addrToTte (b.physToVirt b.cpuTtb) va = b.physToVirt (b.cpuTtb + tteIndex va * 4) :=
    physToVirt_add hb (by omega) (by omega)
  have hpteaddr : wrap (b.physToVirt (b.managedCache + (va / 0x100000 - 0xC00) * 0x400) +
      pteIndex va * 4) = b.physToVirt (b.managedPte va) := by
    rw [physToVirt_add hb (by omega) (by omega), haddr]
  have hdesc : σ'.mem (b.cpuTtb + tteIndex va * 4) =
      BitVec.ofNat 32 (b.managedCache + (va / 0x100000 - 0xC00) * 0x400) ||| 1 := by
    rw [h.mem _ (.inl (by omega))]
    exact initialTables_managed hl vectors σ hva hva'
  have hload : σ'.load (b.physToVirt (b.cpuTtb + tteIndex va * 4)) =
      .ok (BitVec.ofNat 32 (b.managedCache + (va / 0x100000 - 0xC00) * 0x400) ||| 1) := by
    rw [Mmu.load, (h.mapsRam hl hvirt).translate_eq ⟨by omega, by omega⟩]
    exact congrArg Except.ok hdesc
  have htable := isPageTable_ofNat_or_one
    (a := b.managedCache + (va / 0x100000 - 0xC00) * 0x400) (by omega)
  have htoNat := toNat_l1PteAddr_ofNat_or_one haligned (by omega)
  have hne : l1PteAddr
      (BitVec.ofNat 32 (b.managedCache + (va / 0x100000 - 0xC00) * 0x400) ||| 1) ≠ 0 := by
    intro hzero
    rw [hzero] at htoNat
    have : (0 : Block).toNat = 0 := rfl
    omega
  rw [Mmu.pmapPte, htteaddr, hload]
  simp only [bind, Except.bind]
  rw [if_neg htable.not_isSection, if_neg hne, htoNat, hpteaddr]

theorem pmapMapBd_of_pte {virt physStart physEnd ptep : ℕ} (h : σ.pmapPte b virt = .ok ptep)
    (hne : ptep ≠ 0) : pmapMapBd b virt physStart physEnd σ =
      l2MapLinearRangeNoCache b (b.virtToPhys ptep) (wrap physStart) (wrap physEnd) σ := by
  rw [pmapMapBd, h]
  simp only [bind, Except.bind]
  rw [if_neg hne]

theorem ioMap_of_map {physAddr size start : ℕ}
    (h : pmapMapBd b start physAddr (wrap (physAddr + roundPage size)) σ = .ok σ') :
    ioMap b physAddr size (σ, start) = .ok (start, σ', wrap (start + roundPage size)) := by
  rw [ioMap, h]
  rfl

/-- **`io_map`** of a device, where there is room in the window. -/
theorem Windowed.ioMap_eq (hl : b.Layout 0) (hvirt : b.virtBase % 0x100000 = 0)
    (h : Windowed b (bootMmu b 0 vectors σ) σ') {physAddr size start : ℕ}
    (hd : IsDevice (physAddr, size)) (hstart : managedBase ≤ start) (haligned : start % 0x1000 = 0)
    (hfits : start + roundPage size ≤ managedBase + b.memSize) :
    ∃ τ, ioMap b physAddr size (σ', start) = .ok (start, τ, start + roundPage size) ∧
      Windowed b (bootMmu b 0 vectors σ) τ ∧
        ∀ va < 0xFFF00000, translate τ.mem τ.ttb va =
          if start ≤ va ∧ va < start + roundPage size then some (physAddr + (va - start))
          else translate σ'.mem σ'.ttb va := by
  have hb := hl.fits
  obtain ⟨hp₁, hp₂, hp₃, hp₄, -⟩ := hl.places
  obtain ⟨hdev, hpos, hend⟩ := hd
  dsimp only at hdev hpos hend
  have hbase : managedBase = 0xC0000000 := rfl
  have hmem := hl.mem_aligned
  have hle := hl.mem_le
  have htop := hl.top_le
  have hcpu' : b.cpuTtb = b.topOfKernelData + 0x4000 := rfl
  have hroom := hl.room
  have htables : b.tablesEnd = b.vectorTable + 0x400 := rfl
  have hround : roundPage size = (size + 0xFFF) / 0x1000 * 0x1000 := by
    rw [roundPage, wrap_of_lt (by omega)]
  have hpteaddr : b.managedPte start = b.managedCache + (start - managedBase) / 0x1000 * 4 := rfl
  have hcount : wrap (wrap (wrap (physAddr + roundPage size)) + (0x100000000 - wrap physAddr)) / 0x1000 =
      roundPage size / 0x1000 := by
    rw [wrap_of_lt (n := physAddr) (by omega), wrap_of_lt (n := physAddr + roundPage size) (by omega),
      wrap_of_lt (n := physAddr + roundPage size) (by omega), wrap]
    omega
  have hphys : wrap physAddr = physAddr := wrap_of_lt (by omega)
  have hback : b.virtToPhys (b.physToVirt (b.managedPte start)) = b.managedPte start :=
    virtToPhys_physToVirt hb (by omega) (by omega)
  have hne : b.physToVirt (b.managedPte start) ≠ 0 := by
    rw [physToVirt_eq hb (by omega) (by omega)]
    omega
  have hmaps := h.mapsRam hl hvirt
  have hloop := mapLoop_eq (f := noCacheFlags) (n := roundPage size / 0x1000) (q := physAddr) hb hmaps
    (p := b.managedPte start) (by omega) (by omega) (by omega) (by omega) hdev (by omega)
  refine ⟨σ'.fill (b.managedPte start) (roundPage size / 0x1000) fun i =>
    BitVec.ofNat 32 (physAddr + i * 0x1000) ||| noCacheFlags, ?_, ?_, ?_⟩
  · have hmap : pmapMapBd b start physAddr (wrap (physAddr + roundPage size)) σ' = _ :=
      pmapMapBd_of_pte (h.pmapPte_eq hl hvirt hstart (by omega)) hne
    rw [l2MapLinearRangeNoCache, mapLinear, hback, hcount, hphys, hloop] at hmap
    rw [ioMap_of_map hmap, wrap_of_lt (n := start + roundPage size) (by omega)]
  · exact ⟨h.ttb, fun a ha => (Mmu.mem_fill_of_outside (by omega)).trans (h.mem a ha)⟩
  · intro va hva
    have hτ : Windowed b (bootMmu b 0 vectors σ) (σ'.fill (b.managedPte start) (roundPage size / 0x1000)
        fun i => BitVec.ofNat 32 (physAddr + i * 0x1000) ||| noCacheFlags) :=
      ⟨h.ttb, fun a ha => (Mmu.mem_fill_of_outside (by omega)).trans (h.mem a ha)⟩
    by_cases hwindow : managedBase ≤ va ∧ va < managedBase + b.memSize
    · obtain ⟨hva₁, hva₂⟩ := hwindow
      rw [hτ.translate_of_window hl hva₁ hva₂, h.translate_of_window hl hva₁ hva₂]
      have hvaaddr : b.managedPte va = b.managedCache + (va - managedBase) / 0x1000 * 4 := rfl
      by_cases hin : start ≤ va ∧ va < start + roundPage size
      · have hplace : b.managedPte va = b.managedPte start + (va - start) / 0x1000 * 4 := by omega
        have hsum : (physAddr + (va - start) / 0x1000 * 0x1000) + va % 0x1000 =
            physAddr + (va - start) := by
          omega
        have haddr : (physAddr + (va - start) / 0x1000 * 0x1000) % 0x1000 = 0 := by omega
        have haddr' : physAddr + (va - start) / 0x1000 * 0x1000 < 0x100000000 := by omega
        have hflags : noCacheFlags.toNat < 0x1000 := by decide
        have hvalid : Valid noCacheFlags := by decide
        have hi : (va - start) / 0x1000 < roundPage size / 0x1000 := by omega
        rw [if_pos hin, hplace, Mmu.mem_fill hi]
        simp only [if_pos (valid_or hvalid), toNat_paIndex, toNat_ofNat_or 12 rfl hflags haddr haddr',
          add_div_mul hflags haddr, hsum]
      · rw [if_neg hin, Mmu.mem_fill_of_outside (by omega)]
    · rw [if_neg (by omega), hτ.translate_of_not_window hl hva (by omega),
        h.translate_of_not_window hl hva (by omega)]

/-- An address is in a window. -/
def InWindow (x : ℕ × ℕ × ℕ) (va : ℕ) : Prop := x.1 ≤ va ∧ va < x.1 + roundPage x.2.2

/-- **Calls of `io_map`** from some place of the window on: their windows are there, one behind the
    other, and all else is as it was. -/
theorem Windowed.ioMaps_eq (hl : b.Layout 0) (hvirt : b.virtBase % 0x100000 = 0)
    {calls : List (ℕ × ℕ)} {start : ℕ} (h : Windowed b (bootMmu b 0 vectors σ) σ')
    (hd : ∀ call ∈ calls, IsDevice call) (hstart : managedBase ≤ start) (haligned : start % 0x1000 = 0)
    (hfits : start + windowBytes calls ≤ managedBase + b.memSize) :
    ∃ starts τ, ioMaps b calls (σ', start) = .ok (starts, τ, start + windowBytes calls) ∧
      starts.length = calls.length ∧
      (∀ i < calls.length, starts[i]? = some (start + windowBytes (calls.take i))) ∧
      (∀ x ∈ starts.zip calls, start ≤ x.1 ∧ ∀ off < roundPage x.2.2,
        translate τ.mem τ.ttb (x.1 + off) = some (x.2.1 + off)) ∧
      ∀ va < 0xFFF00000, (∀ x ∈ starts.zip calls, ¬ InWindow x va) →
        translate τ.mem τ.ttb va = translate σ'.mem σ'.ttb va := by
  induction calls generalizing start σ' with
  | nil => exact ⟨[], σ', rfl, rfl, by simp, by simp, fun _ _ _ => rfl⟩
  | cons call calls ih =>
    obtain ⟨physAddr, size⟩ := call
    have hbytes := windowBytes_cons physAddr size
    rw [hbytes] at hfits
    have hpage : roundPage size % 0x1000 = 0 := by
      rw [roundPage]
      omega
    have hbase : managedBase = 0xC0000000 := rfl
    have hle := hl.mem_le
    obtain ⟨τ₁, hmap, hτ₁, htranslate⟩ := h.ioMap_eq hl hvirt (hd _ List.mem_cons_self) hstart haligned
      (by omega)
    obtain ⟨starts, τ, hmaps, hlength, hplaces, hwindows, hrest⟩ := ih hτ₁
      (fun call hcall => hd call (List.mem_cons_of_mem _ hcall))
      (show managedBase ≤ start + roundPage size by omega) (by omega) (by omega)
    have hsum : start + roundPage size + windowBytes calls =
        start + windowBytes ((physAddr, size) :: calls) := by
      rw [hbytes]
      omega
    refine ⟨start :: starts, τ, ?_, by rw [List.length_cons, List.length_cons, hlength], ?_, ?_, ?_⟩
    · rw [ioMaps, hmap]
      simp only [bind, Except.bind]
      rw [hmaps, hsum]
    · intro i hi
      cases i with
      | zero => rfl
      | succ i =>
        rw [List.getElem?_cons_succ, hplaces i (Nat.lt_of_succ_lt_succ hi), List.take_succ_cons, hbytes,
          Nat.add_assoc]
    · intro x hx
      rw [List.zip_cons_cons, List.mem_cons] at hx
      rcases hx with rfl | hx
      · refine ⟨Nat.le_refl _, fun off hoff => ?_⟩
        dsimp only at hoff ⊢
        -- the windows behind it are elsewhere
        rw [hrest _ (by omega) fun x hx hin => ?_, htranslate _ (by omega), if_pos ⟨by omega, by omega⟩,
          Nat.add_sub_cancel_left]
        have := (hwindows x hx).1
        have := hin.1
        omega
      · obtain ⟨hbehind, hwindow⟩ := hwindows x hx
        exact ⟨by omega, hwindow⟩
    · intro va hva hout
      rw [List.zip_cons_cons] at hout
      have hfirst : ¬ (start ≤ va ∧ va < start + roundPage size) := hout _ List.mem_cons_self
      rw [hrest va hva fun x hx => hout x (List.mem_cons_of_mem _ hx), htranslate va hva, if_neg hfirst]

/-- **Devices before there is a VM system**: after any calls of `io_map` that there is room for,
    each window begins behind those before it and leads to its device, and every other address
    below the section of the vectors leads where it did. -/
theorem ioMaps_translate (hl : b.Layout 0) (hvirt : b.virtBase % 0x100000 = 0)
    (h : MapsRam b b.cpuTtb b.tablesEnd σ) (vectors : ℕ) {spare : ℕ}
    (hspare : b.firstAvail spare < 0x100000000) {calls : List (ℕ × ℕ)}
    (hd : ∀ call ∈ calls, IsDevice call) (hfits : 0x1000 + windowBytes calls ≤ b.memSize) :
    ∃ σ' r starts τ, armVmInit b 0 vectors spare σ = .ok (σ', r) ∧
      ioMaps b calls (σ', virtBegin) = .ok (starts, τ, virtBegin + windowBytes calls) ∧
      starts.length = calls.length ∧
      (∀ i < calls.length, starts[i]? = some (virtBegin + windowBytes (calls.take i))) ∧
      (∀ x ∈ starts.zip calls, ∀ off < roundPage x.2.2,
        translate τ.mem τ.ttb (x.1 + off) = some (x.2.1 + off)) ∧
      ∀ va < 0xFFF00000, (∀ x ∈ starts.zip calls, ¬ InWindow x va) →
        translate τ.mem τ.ttb va = initialMap b 0 va := by
  obtain ⟨-, -, -, -, hcpu, -⟩ := hl.places
  have hbegin : virtBegin = managedBase + 0x1000 := rfl
  have hbase : managedBase = 0xC0000000 := rfl
  have hwindowed : Windowed b (bootMmu b 0 vectors σ) (bootMmu b 0 vectors σ) :=
    ⟨rfl, fun _ _ => rfl⟩
  obtain ⟨starts, τ, hmaps, hlength, hplaces, hwindows, hrest⟩ := hwindowed.ioMaps_eq hl hvirt hd
    (show managedBase ≤ virtBegin by omega) (by omega) (by omega)
  refine ⟨_, _, starts, τ, armVmInit_eq hl h vectors hspare, hmaps, hlength, hplaces,
    fun x hx => (hwindows x hx).2, ?_⟩
  intro va hva hout
  rw [hrest va hva hout]
  exact (translate_or_ttb hcpu).trans (translate_initialTables hl vectors σ hva)

/-- Two devices, of a page and a part of a page, and of three pages. -/
theorem ioMaps_board : ∃ σ σ' r starts τ, armVmInit board 0 0x80010000 1 σ = .ok (σ', r) ∧
    ioMaps board [(0x078B0000, 0x1200), (0x0B020000, 0x3000)] (σ', virtBegin) =
        .ok (starts, τ, virtBegin + 0x5000) ∧
      starts.length = 2 ∧ starts[1]? = some (virtBegin + 0x2000) := by
  obtain ⟨σ, -, hmaps⟩ := mmuReinitialize_board 0x40008000 fun _ => 0
  have hdevices : ∀ call ∈ [(0x078B0000, 0x1200), (0x0B020000, 0x3000)], IsDevice call := by
    intro call hcall
    simp only [List.mem_cons, List.not_mem_nil, or_false] at hcall
    rcases hcall with rfl | rfl
    · exact ⟨by decide, by decide, by decide⟩
    · exact ⟨by decide, by decide, by decide⟩
  obtain ⟨σ', r, starts, τ, hσ', hcalls, hlength, hplaces, -⟩ := ioMaps_translate
    (layout_board (s := 0) (by decide) (by decide)) (by decide) hmaps 0x80010000
    (show board.firstAvail 1 < 0x100000000 by decide) hdevices (by decide)
  exact ⟨σ, σ', r, starts, τ, hσ', hcalls, hlength, hplaces 1 (by decide)⟩

/-! ## What the pmap module finds -/

/-- Where the table of a section is, `0` if there is none. -/
def tableOf (b : BootArgs) (i : ℕ) : ℕ :=
  if i = 0xFFF then b.vectorTable
  else if 0xC00 ≤ i ∧ i < 0xC00 + b.memSize / 0x100000 then b.managedCache + (i - 0xC00) * 0x400
  else if tteIndex b.virtBase ≤ i ∧ i < tteIndex b.virtBase + b.memSize / 0x100000 then
    b.identityCache + (i - tteIndex b.virtBase) * 0x400
  else 0

/-- What is known of that. -/
theorem tableOf_cases (hl : b.Layout s) (i : ℕ) : tableOf b i = 0 ∨
    b.identityCache ≤ tableOf b i ∧ tableOf b i ≤ b.vectorTable ∧ tableOf b i % 0x400 = 0 := by
  obtain ⟨hp₁, hp₂, hp₃, hp₄, -, hid, hman, hvec⟩ := hl.places
  have hmem := hl.mem_aligned
  rw [tableOf]
  split_ifs with hvectors hwindow hram
  · exact .inr ⟨by omega, by omega, hvec⟩
  · exact .inr ⟨by omega, by omega, by omega⟩
  · exact .inr ⟨by omega, by omega, by omega⟩
  · exact .inl rfl

theorem tableOf_inj (hl : b.Layout s) {i j : ℕ} (hi : tableOf b i ≠ 0)
    (h : tableOf b i = tableOf b j) : i = j := by
  obtain ⟨hp₁, hp₂, hp₃, hp₄, -, -, -, -⟩ := hl.places
  have hmem := hl.mem_aligned
  rw [h] at hi
  rw [tableOf, tableOf] at h
  rw [tableOf] at hi
  split_ifs at h hi <;> omega

/-- There are no tables behind the first one. -/
theorem tableOf_of_le (hl : b.Layout s) {i : ℕ} (hi : 0x1000 ≤ i) : tableOf b i = 0 := by
  have hle := hl.mem_le
  have hvirt := hl.virt_le
  have hbase : managedBase = 0xC0000000 := rfl
  have htteVirt : tteIndex b.virtBase = b.virtBase / 0x100000 % 0x1000 := rfl
  rw [tableOf, if_neg (by omega), if_neg (by omega), if_neg (by omega)]

/-- The first table, as the pmap module has it. -/
def initialL1 (b : BootArgs) (s vectors : ℕ) (σ : Mmu) (i : ℕ) : Word :=
  if i < 0x1000 then (initialTables b s vectors σ).mem (b.cpuTtb + i * 4) else 0

theorem initialL1_of_lt {i : ℕ} (hi : i < 0x1000) :
    initialL1 b s vectors σ i = (initialTables b s vectors σ).mem (b.cpuTtb + i * 4) := if_pos hi

/-- **A descriptor** leads to the table of its section. -/
theorem initialL1_eq (hl : b.Layout s) (vectors : ℕ) (σ : Mmu) (i : ℕ) :
    initialL1 b s vectors σ i =
      if tableOf b i = 0 then 0 else BitVec.ofNat 32 (tableOf b i) ||| 1 := by
  rcases Nat.lt_or_ge i 0x1000 with hi | hi
  · obtain ⟨hp₁, hp₂, hp₃, hp₄, -, -, -, -⟩ := hl.places
    rw [initialL1_of_lt hi, initialTables_l1 hl vectors σ hi, tableOf]
    split_ifs <;> first | rfl | omega
  · rw [initialL1, if_neg (Nat.not_lt.2 hi), if_pos (tableOf_of_le hl hi)]

/-- The number of the table that a descriptor leads to. -/
theorem l1PteAddr_initialL1 (hl : b.Layout s) (vectors : ℕ) (σ : Mmu) (i : ℕ) :
    (l1PteAddr (initialL1 b s vectors σ i)).toNat * 0x400 = tableOf b i := by
  obtain ⟨hp₁, hp₂, hp₃, hp₄, -, -, -, -⟩ := hl.places
  rw [initialL1_eq hl]
  rcases tableOf_cases hl i with h | ⟨hle, hle', haligned⟩
  · rw [if_pos h, h]
    rfl
  · rw [if_neg (by omega), toNat_l1PteAddr_ofNat_or_one haligned (by omega)]

theorem l1PteAddr_initialL1_ne_zero_iff (hl : b.Layout s) {i : ℕ} :
    l1PteAddr (initialL1 b s vectors σ i) ≠ 0 ↔ tableOf b i ≠ 0 := by
  rw [← l1PteAddr_initialL1 hl vectors σ]
  refine not_congr ⟨fun h => ?_, fun h => ?_⟩
  · rw [h]
    rfl
  · apply BitVec.eq_of_toNat_eq
    show _ = 0
    omega

theorem isPageTable_initialL1 (hl : b.Layout s) (i : ℕ) :
    IsPageTable (initialL1 b s vectors σ i) ↔ l1PteAddr (initialL1 b s vectors σ i) ≠ 0 := by
  rw [l1PteAddr_initialL1_ne_zero_iff hl, initialL1_eq hl]
  rcases tableOf_cases hl i with h | ⟨hle, hle', haligned⟩
  · rw [if_pos h]
    exact iff_of_false (by decide) (not_not.2 h)
  · obtain ⟨hp₁, -⟩ := hl.places
    have hne : tableOf b i ≠ 0 := by omega
    rw [if_neg hne]
    exact iff_of_true (isPageTable_ofNat_or_one (by omega)) hne

theorem not_isSection_initialL1 (hl : b.Layout s) (i : ℕ) :
    ¬ IsSection (initialL1 b s vectors σ i) := by
  rw [initialL1_eq hl]
  rcases tableOf_cases hl i with h | ⟨hle, hle', haligned⟩
  · rw [if_pos h]
    decide
  · obtain ⟨hp₁, -⟩ := hl.places
    rw [if_neg (by omega)]
    exact (isPageTable_ofNat_or_one (by omega)).not_isSection

/-- The pages below the end of the tables. -/
def initialPages (b : BootArgs) : List Ppn :=
  (List.range (b.vectorTable / 0x1000 + 1)).map (BitVec.ofNat 20)

theorem page_initialL1 (hl : b.Layout s) (i : ℕ) :
    (l1PteAddr (initialL1 b s vectors σ i)).page ∈ initialPages b := by
  have haddr := l1PteAddr_initialL1 hl vectors σ i
  have hcases := tableOf_cases hl i
  have hpage : (l1PteAddr (initialL1 b s vectors σ i)).page.toNat =
      (l1PteAddr (initialL1 b s vectors σ i)).toNat / 4 := by
    have hlt := (l1PteAddr (initialL1 b s vectors σ i)).isLt
    rw [Block.page, BitVec.toNat_setWidth, BitVec.toNat_ushiftRight, Nat.shiftRight_eq_div_pow]
    omega
  have hlt : (l1PteAddr (initialL1 b s vectors σ i)).toNat / 4 < b.vectorTable / 0x1000 + 1 := by
    omega
  rw [initialPages, List.mem_map]
  refine ⟨_, List.mem_range.2 (hpage ▸ hlt), ?_⟩
  rw [BitVec.ofNat_toNat, BitVec.setWidth_eq]

theorem initialL1_inj (hl : b.Layout s) (i j : ℕ) (hne : l1PteAddr (initialL1 b s vectors σ i) ≠ 0)
    (h : l1PteAddr (initialL1 b s vectors σ i) = l1PteAddr (initialL1 b s vectors σ j)) : i = j := by
  have hnat := congrArg (fun x : Block => x.toNat * 0x400) h
  rw [l1PteAddr_initialL1 hl, l1PteAddr_initialL1 hl] at hnat
  exact tableOf_inj hl ((l1PteAddr_initialL1_ne_zero_iff hl).1 hne) hnat

theorem BootArgs.Layout.physBase_le (hl : b.Layout s) (spare : ℕ) :
    b.physBase ≤ b.firstAvail spare := by
  have hle := hl.top_le
  rw [BootArgs.firstAvail, BootArgs.vectorTable, BootArgs.managedCache, BootArgs.identityCache]
  omega

/-- The tables of `arm_vm_init`, as the pmap module has them. -/
def bootMachine (hl : b.Layout s) (vectors spare : ℕ) (σ : Mmu) (kernelPmap npvhash resident wired : ℕ)
    (hkernel : kernelPmap ≠ 0) : Machine where
  kernelPmap := kernelPmap
  physBase := b.physBase
  availStart := b.firstAvail spare
  availEnd := b.physBase + b.memSize
  npvhash := npvhash
  bootL1 := initialL1 b s vectors σ
  bootL2 := fun table i => (initialTables b s vectors σ).mem (table.toNat * 0x400 + i * 4)
  bootPages := initialPages b
  bootResident := resident
  bootWired := wired
  kernel_ne := hkernel
  physBase_le := hl.physBase_le spare
  boot_isPageTable := isPageTable_initialL1 hl
  boot_not_isSection := not_isSection_initialL1 hl
  boot_page := fun i _ => page_initialL1 hl i
  boot_inj := initialL1_inj hl

/-- Entries are empty or for small pages, below the section of the vectors. -/
theorem initialTables_entry (hl : b.Layout s) (vectors : ℕ) (σ : Mmu) (hva : va < 0xFFF00000)
    (hne : tableOf b (tteIndex va) ≠ 0) :
    (initialTables b s vectors σ).mem (tableOf b (tteIndex va) + pteIndex va * 4) = 0 ∨
      Valid ((initialTables b s vectors σ).mem (tableOf b (tteIndex va) + pteIndex va * 4)) := by
  obtain ⟨hp₁, hp₂, hp₃, hp₄, -, hid, hman, hvec⟩ := hl.places
  have hmem := hl.mem_aligned
  have htte : tteIndex va = va / 0x100000 := Nat.mod_eq_of_lt (by omega)
  have hpte : pteIndex va < 0x100 := by
    rw [pteIndex]
    omega
  have hplace : tableOf b (tteIndex va) + pteIndex va * 4 = b.identityCache +
      ((tableOf b (tteIndex va) - b.identityCache) / 4 + pteIndex va) * 4 ∧
        (tableOf b (tteIndex va) - b.identityCache) / 4 + pteIndex va < 2 * (b.memSize / 0x1000) := by
    rw [tableOf, if_neg (by omega)] at hne ⊢
    split_ifs at hne ⊢ with hwindow hram
    · omega
    · omega
    · exact absurd rfl hne
  rw [hplace.1, initialTables_l2 hl vectors σ hplace.2]
  split_ifs
  · exact .inr (valid_or valid_linearFlags)
  · exact .inl rfl

/-- **The pmap module begins with these tables**: what it looks up for an address of the kernel is
    the page that the unit leads to. -/
theorem entry_bootMachine (hl : b.Layout s) (h : MapsRam b b.cpuTtb b.tablesEnd σ) (vectors : ℕ)
    {spare : ℕ} (hspare : b.firstAvail spare < 0x100000000) {kernelPmap : ℕ} (npvhash resident wired : ℕ)
    (hkernel : kernelPmap ≠ 0) :
    let c := bootMachine hl vectors spare σ kernelPmap npvhash resident wired hkernel
    ∃ σ' r, armVmInit b s vectors spare σ = .ok (σ', r) ∧ r.firstAvail.toNat = c.availStart ∧
      r.availEnd.toNat = c.availEnd ∧ (boot c).tables.WF c ∧
      ∀ va < 0xFFF00000, translate σ'.mem σ'.ttb va =
        if Valid ((boot c).tables.entry c c.kernelPmap va) then
          some ((paIndex ((boot c).tables.entry c c.kernelPmap va)).toNat * 0x1000 + va % 0x1000)
        else none := by
  obtain ⟨hp₁, hp₂, hp₃, hp₄, hcpu, -⟩ := hl.places
  have hphys := hl.phys_lt
  intro c
  refine ⟨_, _, armVmInit_eq hl h vectors hspare, toNat_ofNat_of_lt hspare, toNat_ofNat_of_lt hphys,
    wf_boot c, ?_⟩
  intro va hva
  have hsize : (boot c).tables.l1Size kernelPmap = 0x4000 := if_pos rfl
  have hlive : (boot c).tables.Live kernelPmap := by
    rw [Tables.Live, hsize]
    decide
  have hentry := (wf_boot c).entry hlive (show Lookup _ kernelPmap va from Or.inl rfl)
  have hl1 : (boot c).tables.l1 kernelPmap = initialL1 b s vectors σ := if_pos rfl
  have hl2 : ∀ table i, (boot c).tables.l2 table i =
      (initialTables b s vectors σ).mem (table.toNat * 0x400 + i * 4) := fun _ _ => rfl
  have hdesc := initialL1_eq hl vectors σ (tteIndex va)
  rw [hl1, hl2, l1PteAddr_initialL1 hl] at hentry
  rw [initialL1_of_lt tteIndex_lt] at hdesc
  refine (translate_or_ttb hcpu).trans ?_
  show translate (initialTables b s vectors σ).mem b.cpuTtb va =
    if Valid ((boot c).tables.entry c kernelPmap va) then
      some ((paIndex ((boot c).tables.entry c kernelPmap va)).toNat * 0x1000 + va % 0x1000)
    else none
  rw [hentry]
  rcases tableOf_cases hl (tteIndex va) with hzero | ⟨hle, hle', haligned⟩
  · rw [if_pos hzero] at hdesc
    rw [if_pos (not_not.1 (mt (l1PteAddr_initialL1_ne_zero_iff hl).1 (not_not.2 hzero))),
      translate_of_null hcpu hdesc]
    exact (if_neg (by decide)).symm
  · have hne : tableOf b (tteIndex va) ≠ 0 := by omega
    rw [if_neg hne] at hdesc
    rw [if_neg ((l1PteAddr_initialL1_ne_zero_iff hl).2 hne),
      translate_of_table hcpu haligned (by omega) hdesc]
    dsimp only
    rcases initialTables_entry hl vectors σ hva hne with hempty | hvalid
    · rw [hempty]
      rfl
    · rw [if_pos hvalid, if_pos hvalid]

theorem layout_board_start : board.Layout 0x1000 := layout_board (by decide) (by decide)

/-- The machine of the board, with 16 buckets. -/
def boardMachine (σ : Mmu) : Machine :=
  bootMachine layout_board_start 0x80010000 1 σ 1 16 0 0 Nat.one_ne_zero

theorem entry_bootMachine_board : ∃ σ σ' r, armVmInit board 0x1000 0x80010000 1 σ = .ok (σ', r) ∧
    translate σ'.mem σ'.ttb 0x80000123 =
      if Valid ((boot (boardMachine σ)).tables.entry (boardMachine σ) 1 0x80000123) then
        some ((paIndex ((boot (boardMachine σ)).tables.entry (boardMachine σ) 1 0x80000123)).toNat *
          0x1000 + 0x123)
      else none := by
  obtain ⟨σ, -, hmaps⟩ := mmuReinitialize_board 0x40008000 fun _ => 0
  obtain ⟨σ', r, hσ', -, -, -, h⟩ := entry_bootMachine layout_board_start hmaps 0x80010000
    (show board.firstAvail 1 < 0x100000000 by decide) 16 0 0 Nat.one_ne_zero
  have hva := h 0x80000123 (by decide)
  rw [show 0x80000123 % 0x1000 = 0x123 by decide] at hva
  exact ⟨σ, σ', r, hσ', hva⟩

end

end PocketDarwin.Pmap
