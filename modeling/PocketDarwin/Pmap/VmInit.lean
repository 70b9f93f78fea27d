/-
  The first page tables of the kernel (`arm_vm_init.c`, and the start in `locore.s`).

  `arm_vm_init` puts the tables behind the kernel: one of the first level, those of the second
  level for all of memory and for as much of a managed window, and one for the vectors.  It writes
  them through the addresses that the loader has mapped, and then switches to them.

  The mapping of memory begins `sectionOffset` bytes before it, and has as many entries more than
  there is room for: they are the first of the managed window.

  * `armVmInit_eq`: what is stored, and that nothing is refused.
  * `translate_armVmInit`: where each address leads then.
  * `armVmInit_mapsRam_iff`: `phys_to_virt` is right exactly if there is no offset.
  * `start_armVmInit`: from the sections of `_start` on, no address of the kernel has moved.
-/
import PocketDarwin.Pmap.PhysicalPages
import PocketDarwin.Pmap.Translation

namespace PocketDarwin.Pmap

/-! ## The code -/

/-- `MANAGED_BASE` -/
def managedBase : ℕ := 0xC0000000

/-- `VECTORS_BASE` -/
def vectorsBase : ℕ := 0xFFFF0000

/-- `l2_size` -/
def l2Size (size : ℕ) : ℕ := size / 0x100000 * 0x400

/-- `addr_to_tte` -/
def addrToTte (base va : ℕ) : ℕ := wrap (base + tteIndex va * 4)

/-- The loop of `l2_map_linear_range`, of `n` rounds.  The entry is put together in place, by
    stores to the same word. -/
def mapLoop (flags : Word) : ℕ → ℕ → ℕ → Mmu → Except Abort Mmu
  | 0, _, _, σ => .ok σ
  | n + 1, pteIter, physIter, σ =>
    if physIter % 0x1000 ≠ 0 then .error .misalignedPage
    else do
      let σ ← σ.store pteIter (BitVec.ofNat 32 physIter ||| flags)
      mapLoop flags n (wrap (pteIter + 4)) (wrap (physIter + 0x1000)) σ

/-- `l2_map_linear_range` and its sibling, up to the bits for the cache. -/
def mapLinear (flags : Word) (b : BootArgs) (paCacheStart physStart physEnd : ℕ) :
    Mmu → Except Abort Mmu :=
  mapLoop flags (wrap (physEnd + (0x100000000 - physStart)) / 0x1000) (b.physToVirt paCacheStart)
    physStart

/-- The bits of `l2_map_linear_range`: `MMU_TEXCB_CA_WT_NWA` is `2`. -/
def linearFlags : Word := l2SmallPage ||| l2AccessPrw ||| 2 <<< 2

/-- The bits of `l2_map_linear_range_no_cache`. -/
def noCacheFlags : Word := l2SmallPage ||| l2AccessPrw

def l2MapLinearRange (b : BootArgs) (paCacheStart physStart physEnd : ℕ) : Mmu → Except Abort Mmu :=
  mapLinear linearFlags b paCacheStart physStart physEnd

def l2MapLinearRangeNoCache (b : BootArgs) (paCacheStart physStart physEnd : ℕ) :
    Mmu → Except Abort Mmu :=
  mapLinear noCacheFlags b paCacheStart physStart physEnd

/-- The loop of `l2_cache_to_range`, of at most so many rounds. -/
def bindLoop (bound : ℕ) : ℕ → ℕ → ℕ → Mmu → Except Abort Mmu
  | 0, _, _, _ => .error .hang
  | fuel + 1, tte, pteIter, σ =>
    if tte < bound then
      if pteIter % 0x400 ≠ 0 then .error .misalignedTable
      else do
        let σ ← σ.store tte (BitVec.ofNat 32 pteIter ||| 1)
        bindLoop bound fuel (wrap (tte + 4)) (wrap (pteIter + 0x400)) σ
    else .ok σ

def l2CacheToRange (b : BootArgs) (paCacheStart va tteb size : ℕ) (zero : Bool) (σ : Mmu) :
    Except Abort Mmu := do
  let ttePbase := addrToTte tteb va
  let ttePsize := size / 0x100000 * 4
  let σ ← if zero then Mmu.bzero (size / 0x1000) (b.physToVirt paCacheStart) σ else .ok σ
  -- an address comes back after a quarter of the address space
  bindLoop (wrap (ttePbase + ttePsize)) 0x40000001 ttePbase paCacheStart σ

/-- `set_mmu_ttb`, and `set_mmu_ttb_alt` for the other half of the addresses -/
def setMmuTtb (ttb : ℕ) (σ : Mmu) : Mmu := { σ with ttb := ttb ||| 0x18 }

/-- `arm_vm_init`, up to `pmap_bootstrap`: the tables, and the pages that are left.  The vectors
    are at `vectors`, and `spare` tables' worth of memory is left behind the tables, which depends
    on the board. -/
def armVmInit (b : BootArgs) (sectionOffset vectors spare : ℕ) (σ : Mmu) :
    Except Abort (Mmu × Region) := do
  let cpuTtb := wrap (b.topOfKernelData + 0x4000)
  let σ ← Mmu.bzero 0x1000 (b.physToVirt cpuTtb) σ
  let identityCachePA := wrap (cpuTtb + 0x4000)
  let managedCachePA := wrap (identityCachePA + l2Size b.memSize)
  let firstAvail := wrap (managedCachePA + l2Size 0x40000000)
  let σ ← l2CacheToRange b identityCachePA b.virtBase (b.physToVirt cpuTtb) b.memSize true σ
  let σ ← l2CacheToRange b managedCachePA managedBase (b.physToVirt cpuTtb) b.memSize true σ
  let σ ← l2MapLinearRange b identityCachePA (wrap (b.physBase + (0x100000000 - sectionOffset)))
    (wrap (b.physBase + b.memSize)) σ
  let σ ← σ.store (addrToTte (b.physToVirt cpuTtb) vectorsBase) (BitVec.ofNat 32 firstAvail ||| 1)
  let σ ← σ.store (wrap (b.physToVirt firstAvail + pteIndex vectorsBase * 4))
    (BitVec.ofNat 32 (b.virtToPhys vectors) ||| l2AccessPrw ||| l2SmallPage)
  let firstAvail := wrap (firstAvail + spare * 0x4000)
  let availEnd := wrap (b.physBase + b.memSize)
  .ok (setMmuTtb cpuTtb σ, pmapBootstrap (BitVec.ofNat 32 firstAvail) (BitVec.ofNat 32 availEnd))

/-- `mov r6, #0xE; orr r6, r6, #0x400` -/
def sectionFlags : Word := 0xE ||| 0x400

/-- The loop `map` of `_start`, of at most so many rounds: `str r8, [r5], #4` and on to the next
    section. -/
def mapSections : ℕ → ℕ → ℕ → ℕ → Memory → Option Memory
  | 0, _, _, _, _ => none
  | fuel + 1, r5, r1, r12, m =>
    let m := Function.update m r5 (BitVec.ofNat 32 r1 ||| sectionFlags)
    let r12 := wrap (r12 + (0x100000000 - 0x100000))
    if r12 = 0 then some m else mapSections fuel (wrap (r5 + 4)) (wrap (r1 + 0x100000)) r12 m

/-- `mmu_reinitialize` of `_start`, which runs at `pc`: sections for the serial port, for itself and
    for all of memory, in a table at the end of the kernel. -/
def mmuReinitialize (b : BootArgs) (pc : ℕ) (m : Memory) : Option Mmu :=
  let r4 := b.topOfKernelData
  let m := Function.update m (wrap (r4 + 0x7f600000 / 0x100000 * 4))
    (BitVec.ofNat 32 0x7f600000 ||| sectionFlags)
  let m := Function.update m (wrap (r4 + pc / 0x100000 * 4))
    (BitVec.ofNat 32 (pc / 0x100000 * 0x100000) ||| sectionFlags)
  (mapSections 0x1001 (wrap (r4 + b.virtBase / 0x40000)) b.physBase b.memSize m).map fun m =>
    ⟨m, r4 ||| 0x18⟩

/-! ## Where the tables are -/

namespace BootArgs
variable (b : BootArgs)

def cpuTtb : ℕ := b.topOfKernelData + 0x4000
def identityCache : ℕ := b.topOfKernelData + 0x8000
def managedCache : ℕ := b.identityCache + l2Size b.memSize
def vectorTable : ℕ := b.managedCache + l2Size 0x40000000

/-- The end of the tables. -/
def tablesEnd : ℕ := b.vectorTable + 0x400

/-- What the loader gives: whole sections of memory, below the managed window, with room for the
    tables behind the kernel. -/
structure Layout (sectionOffset : ℕ) : Prop where
  phys_aligned : b.physBase % 0x1000 = 0
  mem_aligned : b.memSize % 0x100000 = 0
  mem_le : b.memSize ≤ 0x3ff00000
  phys_lt : b.physBase + b.memSize < 0x100000000
  virt_le : b.virtBase + b.memSize ≤ managedBase
  top_aligned : b.topOfKernelData % 0x4000 = 0
  top_le : b.physBase ≤ b.topOfKernelData
  room : b.tablesEnd ≤ b.physBase + b.memSize
  offset_aligned : sectionOffset % 0x1000 = 0
  offset_lt : sectionOffset < 0x100000
  offset_le : sectionOffset ≤ b.physBase

end BootArgs

/-- A board with 512 MB of memory, and a kernel of 16 MB at its beginning. -/
def board : BootArgs := ⟨0x80000000, 0x40000000, 0x20000000, 0x41000000⟩

theorem layout_board {s : ℕ} (hs : s % 0x1000 = 0) (hs' : s < 0x100000) : board.Layout s where
  phys_aligned := by decide
  mem_aligned := by decide
  mem_le := by decide
  phys_lt := by decide
  virt_le := by decide
  top_aligned := by decide
  top_le := by decide
  room := by decide
  offset_aligned := hs
  offset_lt := hs'
  offset_le := Nat.le_trans (Nat.le_of_lt hs') (by decide)

section
variable {b : BootArgs} {lo hi p q n fuel va i : ℕ} {σ σ' : Mmu} {f w : Word} {s : ℕ}

theorem BootArgs.Layout.fits (h : b.Layout s) : b.Fits := by
  have := h.phys_lt
  have hv := h.virt_le
  rw [managedBase] at hv
  exact ⟨by omega, by omega⟩

/-! ## The loops -/

theorem mapLoop_eq (hb : b.Fits) (h : MapsRam b lo hi σ) (hp : lo ≤ p) (hp' : p + n * 4 ≤ hi)
    (hlo : b.physBase ≤ lo) (hhi : hi ≤ b.physBase + b.memSize) (hq : q % 0x1000 = 0)
    (hq' : q + n * 0x1000 ≤ 0x100000000) : mapLoop f n (b.physToVirt p) q σ =
      .ok (σ.fill p n fun i => BitVec.ofNat 32 (q + i * 0x1000) ||| f) := by
  induction n generalizing p q σ with
  | zero => rfl
  | succ n ih =>
    rw [mapLoop, if_neg (not_not.2 hq), h.store ⟨by omega, by omega⟩]
    simp only [bind, Except.bind]
    rw [physToVirt_add hb (by omega) (by omega)]
    rcases Nat.eq_zero_or_pos n with rfl | hn
    · rw [mapLoop, Mmu.fill_succ, Mmu.fill_zero, Nat.zero_mul]
      rfl
    · have hwrap : wrap (q + 0x1000) = q + 0x1000 := wrap_of_lt (by omega)
      have hval : (fun i => BitVec.ofNat 32 (q + 0x1000 + i * 0x1000) ||| f) =
          fun i => BitVec.ofNat 32 (q + (i + 1) * 0x1000) ||| f := by
        funext i
        rw [show q + 0x1000 + i * 0x1000 = q + (i + 1) * 0x1000 by omega]
      rw [hwrap, ih (h.put hp (by omega) _) (by omega) (by omega) (by omega) (by omega),
        Mmu.fill_succ]
      simp only [Nat.zero_mul, Nat.add_zero, hval]

theorem bindLoop_eq (hb : b.Fits) (h : MapsRam b lo hi σ) (hp : lo ≤ p) (hp' : p + n * 4 ≤ hi)
    (hlo : b.physBase ≤ lo) (hhi : hi ≤ b.physBase + b.memSize) (hq : q % 0x400 = 0)
    (hq' : q + n * 0x400 < 0x100000000) (hfuel : n < fuel) :
    bindLoop (b.physToVirt (p + n * 4)) fuel (b.physToVirt p) q σ =
      .ok (σ.fill p n fun i => BitVec.ofNat 32 (q + i * 0x400) ||| 1) := by
  induction n generalizing p q σ fuel with
  | zero =>
    obtain ⟨fuel, rfl⟩ := Nat.exists_eq_succ_of_ne_zero (by omega : fuel ≠ 0)
    rw [bindLoop, Nat.zero_mul, Nat.add_zero, if_neg (Nat.lt_irrefl _)]
    rfl
  | succ n ih =>
    obtain ⟨fuel, rfl⟩ := Nat.exists_eq_succ_of_ne_zero (by omega : fuel ≠ 0)
    have hlt : b.physToVirt p < b.physToVirt (p + (n + 1) * 4) := by
      rw [physToVirt_eq hb (by omega) (by omega), physToVirt_eq hb (by omega) (by omega)]
      omega
    have hend : p + (n + 1) * 4 = p + 4 + n * 4 := by omega
    have hwrap : wrap (q + 0x400) = q + 0x400 := wrap_of_lt (by omega)
    have hval : (fun i => BitVec.ofNat 32 (q + 0x400 + i * 0x400) ||| 1) =
        fun i => BitVec.ofNat 32 (q + (i + 1) * 0x400) ||| (1 : Word) := by
      funext i
      rw [show q + 0x400 + i * 0x400 = q + (i + 1) * 0x400 by omega]
    rw [bindLoop, if_pos hlt, if_neg (not_not.2 hq), h.store ⟨by omega, by omega⟩]
    simp only [bind, Except.bind]
    rw [physToVirt_add hb (by omega) (by omega), hwrap, hend,
      ih (h.put hp (by omega) _) (by omega) (by omega) (by omega) (by omega) (by omega),
      Mmu.fill_succ]
    simp only [Nat.zero_mul, Nat.add_zero, hval]

theorem l2CacheToRange_eq (hb : b.Fits) (h : MapsRam b lo hi σ) (hlo : b.physBase ≤ lo)
    (hhi : hi ≤ b.physBase + b.memSize) {ttb size : ℕ} (httb : lo ≤ ttb) (httb' : ttb + 0x4000 ≤ hi)
    (hp : lo ≤ p) (hp' : p + size / 0x1000 * 4 ≤ hi) (haligned : p % 0x400 = 0)
    (hsize : size % 0x100000 = 0) (hroom : tteIndex va + size / 0x100000 ≤ 0x1000) :
    l2CacheToRange b p va (b.physToVirt ttb) size true σ =
      .ok ((σ.fill p (size / 0x1000) fun _ => 0).fill (ttb + tteIndex va * 4) (size / 0x100000)
        fun i => BitVec.ofNat 32 (p + i * 0x400) ||| 1) := by
  have := hb.phys
  have hbegin : addrToTte (b.physToVirt ttb) va = b.physToVirt (ttb + tteIndex va * 4) :=
    physToVirt_add hb (by omega) (by omega)
  have hend : wrap (b.physToVirt (ttb + tteIndex va * 4) + size / 0x100000 * 4) =
      b.physToVirt (ttb + tteIndex va * 4 + size / 0x100000 * 4) :=
    physToVirt_add hb (by omega) (by omega)
  rw [l2CacheToRange, if_pos rfl, h.bzero hb hp hp' hlo hhi]
  simp only [bind, Except.bind]
  rw [hbegin, hend]
  exact bindLoop_eq hb (h.fill hp hp' _) (by omega) (by omega) hlo hhi haligned (by omega) (by omega)

/-- What `arm_vm_init` stores, in order; the last section is that of the vectors. -/
def initialTables (b : BootArgs) (s vectors : ℕ) (σ : Mmu) : Mmu :=
  σ.fill b.cpuTtb 0x1000 (fun _ => 0)
    |>.fill b.identityCache (b.memSize / 0x1000) (fun _ => 0)
    |>.fill (b.cpuTtb + tteIndex b.virtBase * 4) (b.memSize / 0x100000)
      (fun i => BitVec.ofNat 32 (b.identityCache + i * 0x400) ||| 1)
    |>.fill b.managedCache (b.memSize / 0x1000) (fun _ => 0)
    |>.fill (b.cpuTtb + 0x3000) (b.memSize / 0x100000)
      (fun i => BitVec.ofNat 32 (b.managedCache + i * 0x400) ||| 1)
    |>.fill b.identityCache ((b.memSize + s) / 0x1000)
      (fun i => BitVec.ofNat 32 (b.physBase - s + i * 0x1000) ||| linearFlags)
    |>.put (b.cpuTtb + 0x3FFC) (BitVec.ofNat 32 b.vectorTable ||| 1)
    |>.put (b.vectorTable + 0x3C0)
      (BitVec.ofNat 32 (b.virtToPhys vectors) ||| l2AccessPrw ||| l2SmallPage)

/-- The first page that is left. -/
def BootArgs.firstAvail (b : BootArgs) (spare : ℕ) : ℕ := b.vectorTable + spare * 0x4000

theorem ok_bind {ε α β : Type} (a : α) (f : α → Except ε β) : (Except.ok a >>= f) = f a := rfl

/-- **`arm_vm_init` stores its tables**, if memory is mapped: nothing is refused. -/
theorem armVmInit_eq (hl : b.Layout s) (h : MapsRam b b.cpuTtb b.tablesEnd σ) (vectors : ℕ)
    {spare : ℕ} (hspare : b.firstAvail spare < 0x100000000) : armVmInit b s vectors spare σ =
      .ok (setMmuTtb b.cpuTtb (initialTables b s vectors σ),
        pmapBootstrap (BitVec.ofNat 32 (b.firstAvail spare))
          (BitVec.ofNat 32 (b.physBase + b.memSize))) := by
  have hb := hl.fits
  obtain ⟨hphys, hmem, hmemle, hphyslt, hvirt, htop, htople, hroom, hoff, hofflt, hoffle⟩ := hl
  have hcpu : b.cpuTtb = b.topOfKernelData + 0x4000 := rfl
  have hidentity : b.identityCache = b.topOfKernelData + 0x8000 := rfl
  have hmanaged : b.managedCache = b.identityCache + b.memSize / 0x100000 * 0x400 := rfl
  have hvector : b.vectorTable = b.managedCache + 0x100000 := rfl
  have hend : b.tablesEnd = b.vectorTable + 0x400 := rfl
  have hbase : managedBase = 0xC0000000 := rfl
  have htteVirt : tteIndex b.virtBase = b.virtBase / 0x100000 % 0x1000 := rfl
  have htteManaged : tteIndex managedBase = 0xC00 := rfl
  have htteVectors : tteIndex vectorsBase = 0xFFF := rfl
  have hpteVectors : pteIndex vectorsBase = 0xF0 := rfl
  have hw₁ : wrap (b.topOfKernelData + 0x4000) = b.cpuTtb := wrap_of_lt (by omega)
  have hw₂ : wrap (b.cpuTtb + 0x4000) = b.identityCache := by
    rw [wrap]
    omega
  have hw₃ : wrap (b.identityCache + l2Size b.memSize) = b.managedCache :=
    wrap_of_lt (by rw [l2Size]; omega)
  have hw₄ : wrap (b.managedCache + l2Size 0x40000000) = b.vectorTable :=
    wrap_of_lt (by rw [l2Size]; omega)
  have hw₅ : wrap (b.physBase + (0x100000000 - s)) = b.physBase - s := by
    rw [wrap]
    omega
  have hw₆ : wrap (b.physBase + b.memSize) = b.physBase + b.memSize := wrap_of_lt hphyslt
  have hw₇ : wrap (b.vectorTable + spare * 0x4000) = b.firstAvail spare := wrap_of_lt hspare
  have hcount : wrap (b.physBase + b.memSize + (0x100000000 - (b.physBase - s))) / 0x1000 =
      (b.memSize + s) / 0x1000 := by
    rw [wrap]
    omega
  have hlo : b.physBase ≤ b.cpuTtb := by omega
  rw [armVmInit]
  simp only [hw₁, hw₂, hw₃, hw₄, hw₅, hw₆, hw₇]
  rw [h.bzero hb (Nat.le_refl _) (by omega) hlo hroom, ok_bind]
  -- the tables of the first level, and those of the second for memory
  have h₁ := h.fill (p := b.cpuTtb) (n := 0x1000) (Nat.le_refl _) (by omega) fun _ => 0
  rw [l2CacheToRange_eq hb h₁ hlo hroom (Nat.le_refl _) (by omega) (by omega) (by omega) (by omega)
    hmem (by omega), ok_bind]
  have h₂ := (h₁.fill (p := b.identityCache) (n := b.memSize / 0x1000) (by omega) (by omega)
    fun _ => 0).fill (p := b.cpuTtb + tteIndex b.virtBase * 4) (n := b.memSize / 0x100000)
    (by omega) (by omega) fun i => BitVec.ofNat 32 (b.identityCache + i * 0x400) ||| 1
  rw [l2CacheToRange_eq hb h₂ hlo hroom (Nat.le_refl _) (by omega) (by omega) (by omega) (by omega)
    hmem (by omega), ok_bind]
  have h₃ := (h₂.fill (p := b.managedCache) (n := b.memSize / 0x1000) (by omega) (by omega)
    fun _ => 0).fill (p := b.cpuTtb + tteIndex managedBase * 4) (n := b.memSize / 0x100000)
    (by omega) (by omega) fun i => BitVec.ofNat 32 (b.managedCache + i * 0x400) ||| 1
  -- the entries for memory
  rw [l2MapLinearRange, mapLinear, hcount, mapLoop_eq hb h₃ (by omega) (by omega) hlo hroom (by omega)
    (by omega), ok_bind]
  have h₄ := h₃.fill (p := b.identityCache) (n := (b.memSize + s) / 0x1000) (by omega) (by omega)
    fun i => BitVec.ofNat 32 (b.physBase - s + i * 0x1000) ||| linearFlags
  -- the vectors
  have hvec : addrToTte (b.physToVirt b.cpuTtb) vectorsBase = b.physToVirt (b.cpuTtb + 0x3FFC) := by
    rw [addrToTte, htteVectors, physToVirt_add hb (by omega) (by omega)]
  have hpte : wrap (b.physToVirt b.vectorTable + pteIndex vectorsBase * 4) =
      b.physToVirt (b.vectorTable + 0x3C0) := by
    rw [hpteVectors, physToVirt_add hb (by omega) (by omega)]
  have hin : b.InRam (b.cpuTtb + 0x3FFC) := ⟨by omega, by omega⟩
  have hin' : b.InRam (b.vectorTable + 0x3C0) := ⟨by omega, by omega⟩
  have h₅ := h₄.put (p := b.cpuTtb + 0x3FFC) (by omega) (by omega)
    (BitVec.ofNat 32 b.vectorTable ||| 1)
  rw [hvec, h₄.store hin, ok_bind]
  have hwindow : b.cpuTtb + tteIndex managedBase * 4 = b.cpuTtb + 0x3000 := by rw [htteManaged]
  rw [hpte, h₅.store hin', ok_bind, hwindow]
  rfl

/-! ## Where they lead -/

theorem BootArgs.Layout.memSize_pos (hl : b.Layout s) : 0 < b.memSize := by
  have hroom := hl.room
  have htop := hl.top_le
  rw [BootArgs.tablesEnd, BootArgs.vectorTable, BootArgs.managedCache, BootArgs.identityCache] at hroom
  omega

/-- The distances between the tables. -/
theorem BootArgs.Layout.places (hl : b.Layout s) :
    b.cpuTtb + 0x4000 = b.identityCache ∧ b.managedCache = b.identityCache + b.memSize / 0x1000 * 4 ∧
      b.managedCache + b.memSize / 0x1000 * 4 + 0x400 ≤ b.vectorTable ∧
      b.vectorTable + 0x400 < 0x100000000 ∧ b.cpuTtb % 0x4000 = 0 ∧ b.identityCache % 0x400 = 0 ∧
      b.managedCache % 0x400 = 0 ∧ b.vectorTable % 0x400 = 0 := by
  obtain ⟨hphys, hmem, hmemle, hphyslt, hvirt, htop, htople, hroom, hoff, hofflt, hoffle⟩ := hl
  have hcpu : b.cpuTtb = b.topOfKernelData + 0x4000 := rfl
  have hidentity : b.identityCache = b.topOfKernelData + 0x8000 := rfl
  have hmanaged : b.managedCache = b.identityCache + b.memSize / 0x100000 * 0x400 := rfl
  have hvector : b.vectorTable = b.managedCache + 0x100000 := rfl
  have hend : b.tablesEnd = b.vectorTable + 0x400 := rfl
  omega

/-- **The first level.** -/
theorem initialTables_l1 (hl : b.Layout s) (vectors : ℕ) (σ : Mmu) (hi : i < 0x1000) :
    (initialTables b s vectors σ).mem (b.cpuTtb + i * 4) =
      if i = 0xFFF then BitVec.ofNat 32 b.vectorTable ||| 1
      else if 0xC00 ≤ i ∧ i < 0xC00 + b.memSize / 0x100000 then
        BitVec.ofNat 32 (b.managedCache + (i - 0xC00) * 0x400) ||| 1
      else if tteIndex b.virtBase ≤ i ∧ i < tteIndex b.virtBase + b.memSize / 0x100000 then
        BitVec.ofNat 32 (b.identityCache + (i - tteIndex b.virtBase) * 0x400) ||| 1
      else 0 := by
  obtain ⟨hp₁, hp₂, hp₃, hp₄, -, -, -, -⟩ := hl.places
  have hmem := hl.mem_aligned
  have hle := hl.mem_le
  have hoff := hl.offset_lt
  rw [initialTables, Mmu.mem_put_of_ne (by omega)]
  by_cases hvec : i = 0xFFF
  · have haddr : b.cpuTtb + i * 4 = b.cpuTtb + 0x3FFC := by omega
    rw [if_pos hvec, haddr, Mmu.mem_put_self]
  rw [if_neg hvec, Mmu.mem_put_of_ne (by omega), Mmu.mem_fill_of_outside (by omega)]
  by_cases hman : 0xC00 ≤ i ∧ i < 0xC00 + b.memSize / 0x100000
  · have haddr : b.cpuTtb + i * 4 = b.cpuTtb + 0x3000 + (i - 0xC00) * 4 := by omega
    rw [if_pos hman, haddr, Mmu.mem_fill (by omega)]
  rw [if_neg hman, Mmu.mem_fill_of_outside (by omega), Mmu.mem_fill_of_outside (by omega)]
  by_cases hram : tteIndex b.virtBase ≤ i ∧ i < tteIndex b.virtBase + b.memSize / 0x100000
  · have haddr : b.cpuTtb + i * 4 =
        b.cpuTtb + tteIndex b.virtBase * 4 + (i - tteIndex b.virtBase) * 4 := by omega
    rw [if_pos hram, haddr, Mmu.mem_fill (by omega)]
  rw [if_neg hram, Mmu.mem_fill_of_outside (by omega), Mmu.mem_fill_of_outside (by omega),
    Mmu.mem_fill hi]

/-- **The second level**: the tables for memory, and those of the window behind them. -/
theorem initialTables_l2 (hl : b.Layout s) (vectors : ℕ) (σ : Mmu) (hi : i < 2 * (b.memSize / 0x1000)) :
    (initialTables b s vectors σ).mem (b.identityCache + i * 4) =
      if i < (b.memSize + s) / 0x1000 then BitVec.ofNat 32 (b.physBase - s + i * 0x1000) ||| linearFlags
      else 0 := by
  obtain ⟨hp₁, hp₂, hp₃, hp₄, -, -, -, -⟩ := hl.places
  have hvirt := hl.virt_le
  have hbase : managedBase = 0xC0000000 := rfl
  have hmem := hl.mem_aligned
  have hle := hl.mem_le
  have hoff := hl.offset_lt
  have htteVirt : tteIndex b.virtBase = b.virtBase / 0x100000 % 0x1000 := rfl
  rw [initialTables, Mmu.mem_put_of_ne (by omega), Mmu.mem_put_of_ne (by omega)]
  by_cases hlt : i < (b.memSize + s) / 0x1000
  · rw [if_pos hlt, Mmu.mem_fill hlt]
  rw [if_neg hlt, Mmu.mem_fill_of_outside (by omega), Mmu.mem_fill_of_outside (by omega)]
  by_cases hman : b.memSize / 0x1000 ≤ i
  · have haddr : b.identityCache + i * 4 = b.managedCache + (i - b.memSize / 0x1000) * 4 := by omega
    rw [haddr, Mmu.mem_fill (by omega)]
  · rw [Mmu.mem_fill_of_outside (by omega), Mmu.mem_fill_of_outside (by omega),
      Mmu.mem_fill (by omega)]

theorem initialTables_vectors (vectors : ℕ) :
    (initialTables b s vectors σ).mem (b.vectorTable + 0x3C0) =
      BitVec.ofNat 32 (b.virtToPhys vectors) ||| l2AccessPrw ||| l2SmallPage := by
  rw [initialTables, Mmu.mem_put_self]

theorem initialTables_of_outside (hl : b.Layout s) (vectors : ℕ) {a : ℕ}
    (ha : a < b.cpuTtb ∨ b.tablesEnd ≤ a) : (initialTables b s vectors σ).mem a = σ.mem a := by
  obtain ⟨hp₁, hp₂, hp₃, hp₄, -, -, -, -⟩ := hl.places
  have hvirt := hl.virt_le
  have hbase : managedBase = 0xC0000000 := rfl
  have hmem := hl.mem_aligned
  have hle := hl.mem_le
  have hoff := hl.offset_lt
  have hend : b.tablesEnd = b.vectorTable + 0x400 := rfl
  have htteVirt : tteIndex b.virtBase = b.virtBase / 0x100000 % 0x1000 := rfl
  rw [initialTables, Mmu.mem_put_of_ne (by omega), Mmu.mem_put_of_ne (by omega),
    Mmu.mem_fill_of_outside (by omega), Mmu.mem_fill_of_outside (by omega),
    Mmu.mem_fill_of_outside (by omega), Mmu.mem_fill_of_outside (by omega),
    Mmu.mem_fill_of_outside (by omega), Mmu.mem_fill_of_outside (by omega)]

/-- Where the tables lead, below the section of the vectors: memory from the section of `virtBase`
    on, shifted by the offset, and what of it does not fit at the beginning of the window. -/
def initialMap (b : BootArgs) (s va : ℕ) : Option ℕ :=
  let start := b.virtBase / 0x100000 * 0x100000
  if start ≤ va ∧ va < start + b.memSize then some (b.physBase - s + (va - start))
  else if managedBase ≤ va ∧ va < managedBase + s then
    some (b.physBase + b.memSize - s + (va - managedBase))
  else none

theorem initialMap_of_ram (h : b.virtBase / 0x100000 * 0x100000 ≤ va)
    (h' : va < b.virtBase / 0x100000 * 0x100000 + b.memSize) :
    initialMap b s va = some (b.physBase - s + (va - b.virtBase / 0x100000 * 0x100000)) :=
  if_pos ⟨h, h'⟩

theorem linearFlags_lt : linearFlags.toNat < 0x1000 := by decide

theorem valid_linearFlags : Valid linearFlags := by decide

/-- An address whose descriptor is that of the table number `i`, counted from those for memory. -/
theorem translate_of_l2 (hl : b.Layout s) (vectors : ℕ) (hi : i < 2 * (b.memSize / 0x1000) / 0x100)
    (htte : (initialTables b s vectors σ).mem (b.cpuTtb + tteIndex va * 4) =
      BitVec.ofNat 32 (b.identityCache + i * 0x400) ||| 1) :
    translate (initialTables b s vectors σ).mem b.cpuTtb va =
      if i * 0x100000 + va % 0x100000 < b.memSize + s then
        some (b.physBase - s + (i * 0x100000 + va % 0x100000))
      else none := by
  obtain ⟨hp₁, hp₂, hp₃, hp₄, hcpu, hid, -, -⟩ := hl.places
  have hmem := hl.mem_aligned
  have hphys := hl.phys_lt
  have hpage := hl.phys_aligned
  have hoff := hl.offset_aligned
  have hoffle := hl.offset_le
  have hpte : pteIndex va = va % 0x100000 / 0x1000 := rfl
  have haddr : b.identityCache + i * 0x400 + pteIndex va * 4 =
      b.identityCache + (i * 0x100 + pteIndex va) * 4 := by omega
  have halign : (b.identityCache + i * 0x400) % 0x400 = 0 := by omega
  have hiff : i * 0x100 + pteIndex va < (b.memSize + s) / 0x1000 ↔
      i * 0x100000 + va % 0x100000 < b.memSize + s := by omega
  have hsum : b.physBase - s + (i * 0x100 + pteIndex va) * 0x1000 + va % 0x1000 =
      b.physBase - s + (i * 0x100000 + va % 0x100000) := by omega
  have hword := initialTables_l2 hl vectors σ (i := i * 0x100 + pteIndex va) (by omega)
  rw [← haddr] at hword
  by_cases hlt : i * 0x100 + pteIndex va < (b.memSize + s) / 0x1000
  · rw [if_pos hlt] at hword
    rw [if_pos (hiff.1 hlt), translate_of_page hcpu halign (by omega) htte (by omega) (by omega)
      linearFlags_lt valid_linearFlags hword, hsum]
  · rw [if_neg hlt] at hword
    rw [if_neg (mt hiff.2 hlt), translate_of_zero hcpu halign (by omega) htte hword]

/-- **The tables lead** where the map says. -/
theorem translate_initialTables (hl : b.Layout s) (vectors : ℕ) (σ : Mmu) (hva : va < 0xFFF00000) :
    translate (initialTables b s vectors σ).mem b.cpuTtb va = initialMap b s va := by
  obtain ⟨hp₁, hp₂, hp₃, hp₄, hcpu, hid, -, -⟩ := hl.places
  have hmem := hl.mem_aligned
  have hle := hl.mem_le
  have hvirt := hl.virt_le
  have hbase : managedBase = 0xC0000000 := rfl
  have hofflt := hl.offset_lt
  have hoffle := hl.offset_le
  have htte : tteIndex va = va / 0x100000 := Nat.mod_eq_of_lt (by omega)
  have htteVirt : tteIndex b.virtBase = b.virtBase / 0x100000 := Nat.mod_eq_of_lt (by omega)
  have hl1 := initialTables_l1 hl vectors σ (i := tteIndex va) (by omega)
  rw [if_neg (by omega)] at hl1
  have hpos := hl.memSize_pos
  have hmap : initialMap b s va = if b.virtBase / 0x100000 * 0x100000 ≤ va ∧
      va < b.virtBase / 0x100000 * 0x100000 + b.memSize then
        some (b.physBase - s + (va - b.virtBase / 0x100000 * 0x100000))
      else if managedBase ≤ va ∧ va < managedBase + s then
        some (b.physBase + b.memSize - s + (va - managedBase))
      else none := rfl
  by_cases hman : 0xC00 ≤ tteIndex va ∧ tteIndex va < 0xC00 + b.memSize / 0x100000
  · -- the tables of the window come behind those for memory
    rw [if_pos hman] at hl1
    have haddr : b.managedCache + (tteIndex va - 0xC00) * 0x400 =
        b.identityCache + (b.memSize / 0x100000 + (tteIndex va - 0xC00)) * 0x400 := by omega
    have hnot : ¬ (b.virtBase / 0x100000 * 0x100000 ≤ va ∧
        va < b.virtBase / 0x100000 * 0x100000 + b.memSize) := by omega
    have hiff : (b.memSize / 0x100000 + (tteIndex va - 0xC00)) * 0x100000 + va % 0x100000 <
        b.memSize + s ↔ managedBase ≤ va ∧ va < managedBase + s := by omega
    have hsum : b.physBase - s + ((b.memSize / 0x100000 + (tteIndex va - 0xC00)) * 0x100000 +
        va % 0x100000) = b.physBase + b.memSize - s + (va - managedBase) := by omega
    rw [haddr] at hl1
    rw [translate_of_l2 hl vectors (by omega) hl1, hmap, if_neg hnot, hsum]
    exact if_congr hiff rfl rfl
  have hwindow : ¬ (managedBase ≤ va ∧ va < managedBase + s) := by omega
  rw [if_neg hman] at hl1
  by_cases hram : tteIndex b.virtBase ≤ tteIndex va ∧
      tteIndex va < tteIndex b.virtBase + b.memSize / 0x100000
  · rw [if_pos hram] at hl1
    have hin : b.virtBase / 0x100000 * 0x100000 ≤ va ∧
        va < b.virtBase / 0x100000 * 0x100000 + b.memSize := by omega
    have hlt : (tteIndex va - tteIndex b.virtBase) * 0x100000 + va % 0x100000 < b.memSize + s := by
      omega
    have hsum : (tteIndex va - tteIndex b.virtBase) * 0x100000 + va % 0x100000 =
        va - b.virtBase / 0x100000 * 0x100000 := by omega
    rw [translate_of_l2 hl vectors (by omega) hl1, hmap, if_pos hin, if_pos hlt, hsum]
  · rw [if_neg hram] at hl1
    have hout : ¬ (b.virtBase / 0x100000 * 0x100000 ≤ va ∧
        va < b.virtBase / 0x100000 * 0x100000 + b.memSize) := by omega
    rw [translate_of_null hcpu hl1, hmap, if_neg hout, if_neg hwindow]

/-- The page of the vectors. -/
theorem translate_vectors (hl : b.Layout s) (vectors : ℕ) (hva : vectorsBase ≤ va)
    (hva' : va < vectorsBase + 0x1000) :
    translate (initialTables b s vectors σ).mem b.cpuTtb va =
      some (b.virtToPhys vectors / 0x1000 * 0x1000 + va % 0x1000) := by
  obtain ⟨hp₁, hp₂, hp₃, hp₄, hcpu, -, -, hvec⟩ := hl.places
  have hbase : vectorsBase = 0xFFFF0000 := rfl
  have htte : tteIndex va = 0xFFF := by
    rw [tteIndex]
    omega
  have hpte : pteIndex va = 0xF0 := by
    rw [pteIndex]
    omega
  have hl1 := initialTables_l1 hl vectors σ (i := tteIndex va) (by omega)
  rw [if_pos htte] at hl1
  have hmap : BitVec.ofNat 32 (b.virtToPhys vectors) ||| l2AccessPrw ||| l2SmallPage =
      BitVec.ofNat 32 (b.virtToPhys vectors) ||| (l2AccessPrw ||| l2SmallPage) := BitVec.or_assoc ..
  have hvalid : Valid (BitVec.ofNat 32 (b.virtToPhys vectors) ||| (l2AccessPrw ||| l2SmallPage)) :=
    valid_or (by decide)
  have hpage : paIndex (BitVec.ofNat 32 (b.virtToPhys vectors) ||| (l2AccessPrw ||| l2SmallPage)) =
      paIndex (BitVec.ofNat 32 (b.virtToPhys vectors)) := paIndex_or_of_low (by decide)
  rw [translate_of_table hcpu hvec (by omega) hl1, hpte, initialTables_vectors, hmap]
  simp only [if_pos hvalid, hpage, toNat_paIndex, BitVec.toNat_ofNat]
  rw [Nat.mod_eq_of_lt (show b.virtToPhys vectors < 2 ^ 32 from Nat.mod_lt _ (by decide))]

/-! ## The sections of the start -/

/-- **The loop `map`** leaves the descriptors of its sections. -/
theorem mapSections_eq {m : Memory} (hn : 0 < n) (hfuel : n < fuel) (hp : p + n * 4 ≤ 0x100000000)
    (hq : q + n * 0x100000 ≤ 0x100000000) : mapSections fuel p q (n * 0x100000) m =
      some (stores (fun i => p + i * 4)
        (fun i => BitVec.ofNat 32 (q + i * 0x100000) ||| sectionFlags) n m) := by
  induction n generalizing p q m fuel with
  | zero => omega
  | succ n ih =>
    obtain ⟨fuel, rfl⟩ := Nat.exists_eq_succ_of_ne_zero (by omega : fuel ≠ 0)
    have hleft : wrap ((n + 1) * 0x100000 + (0x100000000 - 0x100000)) = n * 0x100000 := by
      rw [wrap]
      omega
    rw [mapSections]
    simp only [hleft]
    rcases Nat.eq_zero_or_pos n with rfl | hpos
    · rw [if_pos (Nat.zero_mul _), stores_succ, stores_zero, Nat.zero_mul]
      rfl
    · have haddr : (fun i => p + 4 + i * 4) = fun i => p + (i + 1) * 4 := by
        funext i
        omega
      have hval : (fun i => BitVec.ofNat 32 (q + 0x100000 + i * 0x100000) ||| sectionFlags) =
          fun i => BitVec.ofNat 32 (q + (i + 1) * 0x100000) ||| sectionFlags := by
        funext i
        rw [show q + 0x100000 + i * 0x100000 = q + (i + 1) * 0x100000 by omega]
      rw [if_neg (by omega), wrap_of_lt (by omega), wrap_of_lt (by omega),
        ih hpos (by omega) (by omega) (by omega), haddr, hval, stores_succ']
      simp only [Nat.zero_mul, Nat.add_zero]

theorem sectionFlags_lt : sectionFlags.toNat < 0x100000 := by decide

theorem isSection_sectionFlags : IsSection sectionFlags := by decide

/-- **The start maps memory**, whatever is stored behind its table. -/
theorem mmuReinitialize_mapsRam (hl : b.Layout s) (hvirt : b.virtBase % 0x100000 = 0)
    (hphys : b.physBase % 0x100000 = 0) (pc : ℕ) (m : Memory) :
    ∃ σ, mmuReinitialize b pc m = some σ ∧ MapsRam b b.cpuTtb b.tablesEnd σ := by
  have hb := hl.fits
  have hpos := hl.memSize_pos
  have hmem := hl.mem_aligned
  have hlt := hl.phys_lt
  have hvirtle := hl.virt_le
  have hbase : managedBase = 0xC0000000 := rfl
  have htop := hl.top_aligned
  have htople := hl.top_le
  have hroom := hl.room
  obtain ⟨hp₁, hp₂, hp₃, hp₄, -, -, -, -⟩ := hl.places
  have hcpu : b.cpuTtb = b.topOfKernelData + 0x4000 := rfl
  have hsize : b.memSize = b.memSize / 0x100000 * 0x100000 := by omega
  have hr5 : wrap (b.topOfKernelData + b.virtBase / 0x40000) =
      b.topOfKernelData + b.virtBase / 0x100000 * 4 := by
    rw [wrap]
    omega
  have hmap := fun m : Memory => mapSections_eq
    (p := b.topOfKernelData + b.virtBase / 0x100000 * 4) (q := b.physBase) (m := m) (by omega)
    (show b.memSize / 0x100000 < 0x1001 by omega) (by omega) (by omega)
  rw [← hsize] at hmap
  rw [ mmuReinitialize]
  simp only [hr5, hmap, Option.map_some]
  refine ⟨_, rfl, ?_⟩
  rintro m' hm' p ⟨hp, hp'⟩
  have hva : b.physToVirt p = b.virtBase + (p - b.physBase) := physToVirt_eq hb hp (by omega)
  have htte : tteIndex (b.physToVirt p) = b.virtBase / 0x100000 + (p - b.physBase) / 0x100000 := by
    rw [hva, tteIndex]
    omega
  have haddr : b.topOfKernelData + tteIndex (b.physToVirt p) * 4 =
      b.topOfKernelData + b.virtBase / 0x100000 * 4 + (p - b.physBase) / 0x100000 * 4 := by omega
  have hsum : b.physBase + (p - b.physBase) / 0x100000 * 0x100000 + b.physToVirt p % 0x100000 = p := by
    omega
  rw [translate_or_ttb htop, translate_of_section htop (q := b.physBase + (p - b.physBase) / 0x100000 *
    0x100000) (by omega) (by omega) sectionFlags_lt isSection_sectionFlags, hsum]
  rw [hm' _ (Or.inl (by omega)), haddr]
  exact stores_addr (f := fun i => b.topOfKernelData + b.virtBase / 0x100000 * 4 + i * 4)
    (fun i _ j _ h => by omega) (by omega)

theorem mmuReinitialize_board (pc : ℕ) (m : Memory) :
    ∃ σ, mmuReinitialize board pc m = some σ ∧ MapsRam board board.cpuTtb board.tablesEnd σ :=
  mmuReinitialize_mapsRam (layout_board (s := 0) (by decide) (by decide)) (by decide) (by decide) pc m

/-! ## The tables of the kernel -/

/-- **The tables of `arm_vm_init`**: where each address leads, and that the rest of memory stays. -/
theorem armVmInit_translate (hl : b.Layout s) (h : MapsRam b b.cpuTtb b.tablesEnd σ) (vectors : ℕ)
    {spare : ℕ} (hspare : b.firstAvail spare < 0x100000000) :
    ∃ σ' r, armVmInit b s vectors spare σ = .ok (σ', r) ∧
      (∀ va < 0xFFF00000, translate σ'.mem σ'.ttb va = initialMap b s va) ∧
      (∀ va, vectorsBase ≤ va → va < vectorsBase + 0x1000 → translate σ'.mem σ'.ttb va =
        some (b.virtToPhys vectors / 0x1000 * 0x1000 + va % 0x1000)) ∧
      ∀ a, a < b.cpuTtb ∨ b.tablesEnd ≤ a → σ'.mem a = σ.mem a := by
  obtain ⟨-, -, -, -, hcpu, -⟩ := hl.places
  refine ⟨_, _, armVmInit_eq hl h vectors hspare, ?_, ?_, ?_⟩
  · intro va hva
    exact (translate_or_ttb hcpu).trans (translate_initialTables hl vectors σ hva)
  · intro va hva hva'
    exact (translate_or_ttb hcpu).trans (translate_vectors hl vectors hva hva')
  · intro a ha
    exact initialTables_of_outside hl vectors ha

/-- With the offset that the source begins with, a page before memory is mapped. -/
theorem armVmInit_translate_board : ∃ σ σ' r, armVmInit board 0x1000 0x80010000 1 σ = .ok (σ', r) ∧
    translate σ'.mem σ'.ttb 0x80000000 = some 0x3FFFF000 ∧
      translate σ'.mem σ'.ttb 0xC0000000 = some 0x5FFFF000 ∧
        translate σ'.mem σ'.ttb 0xC0001000 = none := by
  obtain ⟨σ, -, hmaps⟩ := mmuReinitialize_board 0x40008000 fun _ => 0
  obtain ⟨σ', r, hσ', h, -, -⟩ := armVmInit_translate
    (layout_board (s := 0x1000) (by decide) (by decide)) hmaps 0x80010000
    (show board.firstAvail 1 < 0x100000000 by decide)
  exact ⟨σ, σ', r, hσ', (h _ (by decide)).trans (by decide), (h _ (by decide)).trans (by decide),
    (h _ (by decide)).trans (by decide)⟩

/-- The map is that of `phys_to_virt` exactly if nothing is shifted. -/
theorem initialMap_physToVirt_iff (hl : b.Layout s) :
    (∀ p, b.InRam p → initialMap b s (b.physToVirt p) = some p) ↔
      s = 0 ∧ b.virtBase % 0x100000 = 0 := by
  have hb := hl.fits
  have hpos := hl.memSize_pos
  have hmem := hl.mem_aligned
  have hvirt := hl.virt_le
  have hbase : managedBase = 0xC0000000 := rfl
  have hoff := hl.offset_aligned
  have hofflt := hl.offset_lt
  have hoffle := hl.offset_le
  constructor
  · intro h
    have hfirst := h b.physBase ⟨Nat.le_refl _, by omega⟩
    have hlast := h (b.physBase + b.memSize - 1) ⟨by omega, by omega⟩
    rw [physToVirt_eq hb (by omega) (by omega)] at hfirst hlast
    rw [initialMap_of_ram (by omega) (by omega), Option.some.injEq] at hfirst
    by_contra hne
    -- the end of memory is not mapped
    have hout : ¬ (b.virtBase / 0x100000 * 0x100000 ≤ b.virtBase + (b.physBase + b.memSize - 1 -
        b.physBase) ∧ b.virtBase + (b.physBase + b.memSize - 1 - b.physBase) <
          b.virtBase / 0x100000 * 0x100000 + b.memSize) := by omega
    have hout' : ¬ (managedBase ≤ b.virtBase + (b.physBase + b.memSize - 1 - b.physBase) ∧
        b.virtBase + (b.physBase + b.memSize - 1 - b.physBase) < managedBase + s) := by omega
    rw [initialMap] at hlast
    simp only [if_neg hout, if_neg hout', reduceCtorEq] at hlast
  · rintro ⟨rfl, haligned⟩ p ⟨hp, hp'⟩
    have hsum : b.physBase - 0 +
        (b.virtBase + (p - b.physBase) - b.virtBase / 0x100000 * 0x100000) = p := by omega
    rw [physToVirt_eq hb hp (by omega), initialMap_of_ram (by omega) (by omega), hsum]

/-- **`phys_to_virt` is right after `arm_vm_init`** exactly if there is no section offset, and the
    kernel begins with a section. -/
theorem armVmInit_physToVirt_iff (hl : b.Layout s) (h : MapsRam b b.cpuTtb b.tablesEnd σ)
    (vectors : ℕ) {spare : ℕ} (hspare : b.firstAvail spare < 0x100000000) :
    ∃ σ' r, armVmInit b s vectors spare σ = .ok (σ', r) ∧
      ((∀ p, b.InRam p → translate σ'.mem σ'.ttb (b.physToVirt p) = some p) ↔
        s = 0 ∧ b.virtBase % 0x100000 = 0) := by
  have hb := hl.fits
  have hvirt := hl.virt_le
  have hbase : managedBase = 0xC0000000 := rfl
  obtain ⟨-, -, -, -, hcpu, -⟩ := hl.places
  refine ⟨_, _, armVmInit_eq hl h vectors hspare, ?_⟩
  rw [← initialMap_physToVirt_iff hl]
  have hsame : ∀ p, b.InRam p → translate (setMmuTtb b.cpuTtb (initialTables b s vectors σ)).mem
      (setMmuTtb b.cpuTtb (initialTables b s vectors σ)).ttb (b.physToVirt p) =
        initialMap b s (b.physToVirt p) := by
    rintro p ⟨hp, hp'⟩
    refine (translate_or_ttb hcpu).trans (translate_initialTables hl vectors σ ?_)
    rw [physToVirt_eq hb hp (by omega)]
    omega
  constructor
  · intro h p hp
    rw [← hsame p hp, h p hp]
  · intro h p hp
    rw [hsame p hp, h p hp]

theorem armVmInit_physToVirt_board : ∃ σ σ' r, armVmInit board 0x1000 0x80010000 1 σ = .ok (σ', r) ∧
    ¬ ∀ p, board.InRam p → translate σ'.mem σ'.ttb (board.physToVirt p) = some p := by
  obtain ⟨σ, -, hmaps⟩ := mmuReinitialize_board 0x40008000 fun _ => 0
  obtain ⟨σ', r, hσ', h⟩ := armVmInit_physToVirt_iff
    (layout_board (s := 0x1000) (by decide) (by decide)) hmaps 0x80010000
    (show board.firstAvail 1 < 0x100000000 by decide)
  exact ⟨σ, σ', r, hσ', fun hall => absurd (h.1 hall).1 (by decide)⟩

/-- **From the start to the kernel's own tables** no address of the kernel moves: both tables lead
    to the same place of memory. -/
theorem start_armVmInit (hl : b.Layout 0) (hvirt : b.virtBase % 0x100000 = 0)
    (hphys : b.physBase % 0x100000 = 0) (pc : ℕ) (m : Memory) (vectors : ℕ) {spare : ℕ}
    (hspare : b.firstAvail spare < 0x100000000) :
    ∃ σ σ' r, mmuReinitialize b pc m = some σ ∧ armVmInit b 0 vectors spare σ = .ok (σ', r) ∧
      ∀ va, b.virtBase ≤ va → va < b.virtBase + b.memSize →
        translate σ.mem σ.ttb va = some (b.virtToPhys va) ∧
          translate σ'.mem σ'.ttb va = some (b.virtToPhys va) := by
  have hb := hl.fits
  have hvirtle := hl.virt_le
  have hbase : managedBase = 0xC0000000 := rfl
  obtain ⟨-, -, -, -, hcpu, -⟩ := hl.places
  obtain ⟨σ, hσ, hmaps⟩ := mmuReinitialize_mapsRam hl hvirt hphys pc m
  refine ⟨σ, _, _, hσ, armVmInit_eq hl hmaps vectors hspare, ?_⟩
  intro va hva hva'
  have hin : b.InRam (b.physBase + (va - b.virtBase)) := ⟨by omega, by omega⟩
  have hpv : b.physToVirt (b.physBase + (va - b.virtBase)) = va := by
    rw [physToVirt_eq hb hin.1 (Nat.le_of_lt hin.2)]
    omega
  have hvp : b.virtToPhys va = b.physBase + (va - b.virtBase) := by
    have := virtToPhys_physToVirt hb hin.1 (Nat.le_of_lt hin.2)
    rwa [hpv] at this
  constructor
  · have := hmaps.translate_eq hin
    rwa [hpv, ← hvp] at this
  · have hmap := (initialMap_physToVirt_iff hl).2 ⟨rfl, hvirt⟩ _ hin
    rw [hpv, ← hvp] at hmap
    exact ((translate_or_ttb hcpu).trans (translate_initialTables hl vectors σ (by omega))).trans hmap

theorem start_armVmInit_board : ∃ σ σ' r, mmuReinitialize board 0x40008000 (fun _ => 0) = some σ ∧
    armVmInit board 0 0x80010000 1 σ = .ok (σ', r) ∧
      translate σ.mem σ.ttb 0x80001234 = some 0x40001234 ∧
        translate σ'.mem σ'.ttb 0x80001234 = some 0x40001234 := by
  obtain ⟨σ, σ', r, hσ, hσ', h⟩ := start_armVmInit (layout_board (s := 0) (by decide) (by decide))
    (by decide) (by decide) 0x40008000 (fun _ => 0) 0x80010000
    (show board.firstAvail 1 < 0x100000000 by decide)
  obtain ⟨hold, hnew⟩ := h 0x80001234 (by decide) (by decide)
  exact ⟨σ, σ', r, hσ, hσ', hold, hnew⟩

end

end PocketDarwin.Pmap
