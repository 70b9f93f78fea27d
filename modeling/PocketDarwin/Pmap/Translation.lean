/-
  The memory management unit: what the tables in memory make of an address.

  The tables are words of physical memory, and the words are written through the tables: a store
  is to a virtual address, and is refused where that leads nowhere.

  * `translate`: the walk of the unit, for sections and for large and small pages.
  * `MapsRam`: addresses of memory are reached, whatever is stored in some part of it; in that part
    stores go where they should (`MapsRam.store`, `MapsRam.bzero`).
-/
import Mathlib.Algebra.Ring.Nat
import PocketDarwin.Pmap.Tables
import PocketDarwin.Stores

namespace PocketDarwin.Pmap

/-- `uint32_t` arithmetic -/
def wrap (n : ℕ) : ℕ := n % 0x100000000

theorem wrap_of_lt {n : ℕ} (h : n < 0x100000000) : wrap n = n := Nat.mod_eq_of_lt h

/-- Words of physical memory, at their addresses. -/
abbrev Memory := ℕ → Word

/-- The physical address that a virtual one leads to.  The table is where the base register
    points, whose lower bits say how it is cached. -/
def translate (m : Memory) (ttb va : ℕ) : Option ℕ :=
  let tte := m (ttb / 0x4000 * 0x4000 + tteIndex va * 4)
  if IsPageTable tte then
    let pte := m ((l1PteAddr tte).toNat * 0x400 + pteIndex va * 4)
    if Valid pte then some ((paIndex pte).toNat * 0x1000 + va % 0x1000)
    else if Executable pte then none
    -- a large page, whose mark is where small ones have theirs against execution
    else some ((paIndex pte).toNat / 0x10 * 0x10000 + va % 0x10000)
  else if IsSection tte then some (tte.toNat / 0x100000 * 0x100000 + va % 0x100000)
  else none

/-- Physical memory, and the base register. -/
structure Mmu where
  mem : Memory
  ttb : ℕ

/-- What the code ends in instead of returning. -/
inductive Abort where
  /-- an access that the unit refuses -/
  | data
  /-- `panic("l2_map_linear_range: Misaligned physical page!")` -/
  | misalignedPage
  /-- `panic("l2_cache_to_range: Misaligned L2 table ...")` -/
  | misalignedTable
  /-- `panic("pmap_map_bd: Invalid kernel address")` -/
  | invalidAddress
  /-- `panic("Translation table entry is a section mapping ...")` -/
  | section
  /-- `panic("pmap_zero_page: zeroing a non-managed page ...")` -/
  | notManaged
  /-- a loop that has no end -/
  | hang
deriving DecidableEq, Repr

namespace Mmu

/-- The state after a store to a physical address. -/
def put (σ : Mmu) (p : ℕ) (w : Word) : Mmu := { σ with mem := Function.update σ.mem p w }

/-- `*va = w` -/
def store (σ : Mmu) (va : ℕ) (w : Word) : Except Abort Mmu :=
  match translate σ.mem σ.ttb va with
  | some p => .ok (σ.put p w)
  | none => .error .data

/-- `*va` -/
def load (σ : Mmu) (va : ℕ) : Except Abort Word :=
  match translate σ.mem σ.ttb va with
  | some p => .ok (σ.mem p)
  | none => .error .data

/-- The state after stores to `n` words, from a physical address on. -/
def fill (σ : Mmu) (p n : ℕ) (val : ℕ → Word) : Mmu :=
  { σ with mem := stores (fun i => p + i * 4) val n σ.mem }

/-- `bzero`, of `n` words -/
def bzero : ℕ → ℕ → Mmu → Except Abort Mmu
  | 0, _, σ => .ok σ
  | n + 1, va, σ => do
    let σ ← σ.store va 0
    bzero n (wrap (va + 4)) σ

end Mmu

/-- Where memory is, and where the kernel finds it. -/
structure BootArgs where
  virtBase : ℕ
  physBase : ℕ
  memSize : ℕ
  topOfKernelData : ℕ

/-- `phys_to_virt` -/
def BootArgs.physToVirt (b : BootArgs) (p : ℕ) : ℕ := wrap (p + (0x100000000 - b.physBase) + b.virtBase)

/-- `virt_to_phys` -/
def BootArgs.virtToPhys (b : BootArgs) (v : ℕ) : ℕ := wrap (v + (0x100000000 - b.virtBase) + b.physBase)

/-- The memory, and what it is mapped to, do not go around the address space. -/
structure BootArgs.Fits (b : BootArgs) : Prop where
  phys : b.physBase + b.memSize < 0x100000000
  virt : b.virtBase + b.memSize < 0x100000000

/-- An address of memory. -/
def BootArgs.InRam (b : BootArgs) (p : ℕ) : Prop := b.physBase ≤ p ∧ p < b.physBase + b.memSize

/-- `phys_to_virt` leads to the addresses of memory, whatever is stored in `[lo, hi)`. -/
def MapsRam (b : BootArgs) (lo hi : ℕ) (σ : Mmu) : Prop :=
  ∀ m : Memory, (∀ a, a < lo ∨ hi ≤ a → m a = σ.mem a) →
    ∀ p, b.InRam p → translate m σ.ttb (b.physToVirt p) = some p

section
variable {b : BootArgs} {lo hi p p' n va : ℕ} {σ σ' : Mmu} {w : Word} {val : ℕ → Word} {m m' : Memory}

theorem physToVirt_eq (hb : b.Fits) (h : b.physBase ≤ p) (h' : p ≤ b.physBase + b.memSize) :
    b.physToVirt p = b.virtBase + (p - b.physBase) := by
  have := hb.phys
  have := hb.virt
  rw [BootArgs.physToVirt, wrap]
  omega

theorem physToVirt_add (hb : b.Fits) (h : b.physBase ≤ p) (h' : p + n ≤ b.physBase + b.memSize) :
    wrap (b.physToVirt p + n) = b.physToVirt (p + n) := by
  have := hb.virt
  rw [physToVirt_eq hb h (by omega), physToVirt_eq hb (by omega) h', wrap]
  omega

theorem virtToPhys_physToVirt (hb : b.Fits) (h : b.physBase ≤ p) (h' : p ≤ b.physBase + b.memSize) :
    b.virtToPhys (b.physToVirt p) = p := by
  have := hb.phys
  have := hb.virt
  rw [physToVirt_eq hb h h', BootArgs.virtToPhys, wrap]
  omega

namespace Mmu

@[simp] theorem fill_zero : σ.fill p 0 val = σ := rfl

@[simp] theorem mem_put_self : (σ.put p w).mem p = w := Function.update_self ..

theorem mem_put_of_ne {a : ℕ} (h : a ≠ p) : (σ.put p w).mem a = σ.mem a := Function.update_of_ne h ..

theorem fill_succ : σ.fill p (n + 1) val =
    (σ.put p (val 0)).fill (p + 4) n fun i => val (i + 1) := by
  rw [fill, stores_succ']
  have haddr : (fun i => p + (i + 1) * 4) = fun i => p + 4 + i * 4 := by
    funext i
    omega
  rw [haddr, Nat.zero_mul]
  rfl

theorem mem_fill_of_outside {a : ℕ} (h : a < p ∨ p + n * 4 ≤ a) : (σ.fill p n val).mem a = σ.mem a :=
  stores_of_forall_ne fun i hi => by omega

theorem mem_fill {i : ℕ} (hi : i < n) : (σ.fill p n val).mem (p + i * 4) = val i :=
  stores_addr (f := fun i => p + i * 4) (fun i _ j _ h => by omega) hi

end Mmu

namespace MapsRam

theorem translate_eq (h : MapsRam b lo hi σ) (hp : b.InRam p) :
    translate σ.mem σ.ttb (b.physToVirt p) = some p := h σ.mem (fun _ _ => rfl) p hp

/-- A memory that differs in the part only. -/
theorem congr (h : MapsRam b lo hi σ) (httb : σ'.ttb = σ.ttb)
    (hmem : ∀ a, a < lo ∨ hi ≤ a → σ'.mem a = σ.mem a) : MapsRam b lo hi σ' := by
  intro m hm p hp
  rw [httb]
  exact h m (fun a ha => (hm a ha).trans (hmem a ha)) p hp

/-- **A store** to an address of the part. -/
theorem store (h : MapsRam b lo hi σ) (hp : b.InRam p) (w : Word) :
    σ.store (b.physToVirt p) w = .ok (σ.put p w) := by
  rw [Mmu.store, h.translate_eq hp]

theorem put (h : MapsRam b lo hi σ) (hp : lo ≤ p) (hp' : p < hi) (w : Word) :
    MapsRam b lo hi (σ.put p w) :=
  h.congr rfl fun a ha => Function.update_of_ne (by omega) _ _

theorem fill (h : MapsRam b lo hi σ) (hp : lo ≤ p) (hp' : p + n * 4 ≤ hi) (val : ℕ → Word) :
    MapsRam b lo hi (σ.fill p n val) :=
  h.congr rfl fun a ha => Mmu.mem_fill_of_outside (by omega)

/-- **`bzero`** of a part of it. -/
theorem bzero (hb : b.Fits) (h : MapsRam b lo hi σ) (hp : lo ≤ p) (hp' : p + n * 4 ≤ hi)
    (hlo : b.physBase ≤ lo) (hhi : hi ≤ b.physBase + b.memSize) :
    Mmu.bzero n (b.physToVirt p) σ = .ok (σ.fill p n fun _ => 0) := by
  induction n generalizing p σ with
  | zero => rfl
  | succ n ih =>
    have hnext := ih (h.put (p := p) hp (by omega) 0) (p := p + 4) (by omega) (by omega)
    rw [Mmu.bzero, h.store ⟨by omega, by omega⟩]
    simp only [bind, Except.bind]
    rw [physToVirt_add hb (by omega) (by omega), hnext, Mmu.fill_succ]

end MapsRam

/-! ## Words of the tables -/

theorem toNat_ofNat_of_lt {a : ℕ} (h : a < 0x100000000) : (BitVec.ofNat 32 a).toNat = a :=
  Nat.mod_eq_of_lt h

theorem toNat_paIndex (w : Word) : (paIndex w).toNat = w.toNat / 0x1000 := by
  have heq : paIndex w = (w >>> 12).setWidth 20 := by
    ext i hi
    rw [← BitVec.getLsbD_eq_getElem, ← BitVec.getLsbD_eq_getElem, getLsbD_paIndex,
      BitVec.getLsbD_setWidth, BitVec.getLsbD_ushiftRight]
  have hlt := w.isLt
  rw [heq, BitVec.toNat_setWidth, BitVec.toNat_ushiftRight, Nat.shiftRight_eq_div_pow]
  omega

theorem toNat_l1PteAddr (w : Word) : (l1PteAddr w).toNat = w.toNat / 0x400 := by
  have hmask : ∀ i < 22, l1PteAddrMask.getLsbD (10 + i) = true := by decide
  have heq : l1PteAddr w = (w >>> 10).setWidth 22 := by
    ext i hi
    rw [← BitVec.getLsbD_eq_getElem, ← BitVec.getLsbD_eq_getElem, l1PteAddr, BitVec.getLsbD_setWidth,
      BitVec.getLsbD_setWidth, BitVec.getLsbD_ushiftRight, BitVec.getLsbD_ushiftRight,
      BitVec.getLsbD_and, hmask i hi, Bool.and_true]
  have hlt := w.isLt
  rw [heq, BitVec.toNat_setWidth, BitVec.toNat_ushiftRight, Nat.shiftRight_eq_div_pow]
  omega

/-- Bits below the alignment of an address are cut off. -/
theorem add_div_mul {a f d : ℕ} (hf : f < d) (ha : a % d = 0) : (a + f) / d * d = a := by
  have hdiv : d * (a / d) = a := by
    have := Nat.mod_add_div a d
    omega
  have hpos : 0 < d := by omega
  calc (a + f) / d * d = (d * (a / d) + f) / d * d := by rw [hdiv]
    _ = a / d * d := by rw [Nat.mul_add_div hpos, Nat.div_eq_of_lt hf, Nat.add_zero]
    _ = a := by rw [Nat.mul_comm, hdiv]

/-- An address with bits below its alignment. -/
theorem toNat_ofNat_or {a d : ℕ} {f : Word} (k : ℕ) (hd : d = 2 ^ k) (hf : f.toNat < d)
    (ha : a % d = 0) (hlt : a < 0x100000000) : (BitVec.ofNat 32 a ||| f).toNat = a + f.toNat := by
  have hdiv : d * (a / d) = a := by
    have := Nat.mod_add_div a d
    omega
  have hor := Nat.two_pow_add_eq_or_of_lt (hd ▸ hf) (a / d)
  rw [← hd] at hor
  rw [hdiv] at hor
  rw [BitVec.toNat_or, BitVec.toNat_ofNat, Nat.mod_eq_of_lt hlt, ← hor]

/-- The bits that are tested come from the flags, if the address has none of them. -/
theorem ofNat_or_and {a : ℕ} {f mask : Word} (h : BitVec.ofNat 32 a &&& mask = 0) :
    (BitVec.ofNat 32 a ||| f) &&& mask = f &&& mask := by
  have hzero : (0 : Word) ||| mask &&& f = mask &&& f := BitVec.zero_or
  rw [BitVec.and_comm, BitVec.and_or_distrib_left, BitVec.and_comm mask, h, hzero, BitVec.and_comm]

theorem ofNat_and_three {a : ℕ} (h : a % 4 = 0) : BitVec.ofNat 32 a &&& 3 = 0 := by
  apply BitVec.eq_of_toNat_eq
  rw [BitVec.toNat_and, BitVec.toNat_ofNat]
  show a % 2 ^ 32 &&& (2 ^ 2 - 1) = 0
  rw [Nat.and_two_pow_sub_one_eq_mod]
  omega

theorem isPageTable_ofNat_or_one {a : ℕ} (h : a % 4 = 0) : IsPageTable (BitVec.ofNat 32 a ||| 1) := by
  rw [IsPageTable, ofNat_or_and (ofNat_and_three h)]
  rfl

theorem valid_or {f : Word} (h : Valid f) : Valid (w ||| f) := or_and_ne_zero h

theorem toNat_l1PteAddr_ofNat_or_one {a : ℕ} (ha : a % 0x400 = 0) (hlt : a < 0x100000000) :
    (l1PteAddr (BitVec.ofNat 32 a ||| 1)).toNat * 0x400 = a := by
  have hone : (1 : Word).toNat < 0x400 := by decide
  rw [toNat_l1PteAddr, toNat_ofNat_or 10 rfl hone ha hlt, add_div_mul hone ha]

/-- The unit reads two words at most. -/
theorem translate_congr {ttb : ℕ} (httb : ttb % 0x4000 = 0)
    (htte : m' (ttb + tteIndex va * 4) = m (ttb + tteIndex va * 4))
    (hpte : IsPageTable (m (ttb + tteIndex va * 4)) →
      m' ((l1PteAddr (m (ttb + tteIndex va * 4))).toNat * 0x400 + pteIndex va * 4) =
        m ((l1PteAddr (m (ttb + tteIndex va * 4))).toNat * 0x400 + pteIndex va * 4)) :
    translate m' ttb va = translate m ttb va := by
  have hbase : ttb / 0x4000 * 0x4000 = ttb := by omega
  rw [translate, translate, hbase, htte]
  by_cases htable : IsPageTable (m (ttb + tteIndex va * 4))
  · simp only [if_pos htable, hpte htable]
  · simp only [if_neg htable]

/-- **The second level**: where a descriptor leads to a table. -/
theorem translate_of_table {ttb a : ℕ} (httb : ttb % 0x4000 = 0) (ha : a % 0x400 = 0)
    (hlt : a < 0x100000000) (htte : m (ttb + tteIndex va * 4) = BitVec.ofNat 32 a ||| 1) :
    translate m ttb va =
      let pte := m (a + pteIndex va * 4)
      if Valid pte then some ((paIndex pte).toNat * 0x1000 + va % 0x1000)
      else if Executable pte then none
      else some ((paIndex pte).toNat / 0x10 * 0x10000 + va % 0x10000) := by
  have hbase : ttb / 0x4000 * 0x4000 = ttb := by omega
  rw [translate, hbase, htte]
  simp only [if_pos (isPageTable_ofNat_or_one (show a % 4 = 0 by omega)),
    toNat_l1PteAddr_ofNat_or_one ha hlt]

/-- An entry for a small page. -/
theorem translate_of_page {ttb a q : ℕ} {f : Word} (httb : ttb % 0x4000 = 0) (ha : a % 0x400 = 0)
    (hlt : a < 0x100000000) (htte : m (ttb + tteIndex va * 4) = BitVec.ofNat 32 a ||| 1)
    (hq : q % 0x1000 = 0) (hq' : q < 0x100000000) (hf : f.toNat < 0x1000) (hvalid : Valid f)
    (hpte : m (a + pteIndex va * 4) = BitVec.ofNat 32 q ||| f) :
    translate m ttb va = some (q + va % 0x1000) := by
  have hor := toNat_ofNat_or 12 rfl hf hq hq'
  rw [translate_of_table httb ha hlt htte]
  simp only [hpte, if_pos (valid_or hvalid), toNat_paIndex, hor, add_div_mul hf hq]

/-- An entry that was cleared. -/
theorem translate_of_zero {ttb a : ℕ} (httb : ttb % 0x4000 = 0) (ha : a % 0x400 = 0)
    (hlt : a < 0x100000000) (htte : m (ttb + tteIndex va * 4) = BitVec.ofNat 32 a ||| 1)
    (hpte : m (a + pteIndex va * 4) = 0) : translate m ttb va = none := by
  rw [translate_of_table httb ha hlt htte]
  simp only [hpte]
  rfl

/-- A descriptor that was cleared. -/
theorem translate_of_null {ttb : ℕ} (httb : ttb % 0x4000 = 0) (htte : m (ttb + tteIndex va * 4) = 0) :
    translate m ttb va = none := by
  have hbase : ttb / 0x4000 * 0x4000 = ttb := by omega
  rw [translate, hbase, htte]
  rfl

/-- How the table is cached does not matter. -/
theorem translate_or_ttb {ttb : ℕ} (httb : ttb % 0x4000 = 0) :
    translate m (ttb ||| 0x18) va = translate m ttb va := by
  have hpow : ttb % 2 ^ 14 = 0 := httb
  have hdiv : 2 ^ 14 * (ttb / 2 ^ 14) = ttb := by omega
  have hor := Nat.two_pow_add_eq_or_of_lt (i := 14) (b := 0x18) (by decide) (ttb / 2 ^ 14)
  have hbase : (ttb + 0x18) / 0x4000 * 0x4000 = ttb / 0x4000 * 0x4000 := by omega
  rw [hdiv] at hor
  rw [← hor, translate, translate, hbase]

/-- A section. -/
theorem translate_of_section {ttb q : ℕ} {f : Word} (httb : ttb % 0x4000 = 0)
    (hq : q % 0x100000 = 0) (hq' : q < 0x100000000) (hf : f.toNat < 0x100000) (hsection : IsSection f)
    (htte : m (ttb + tteIndex va * 4) = BitVec.ofNat 32 q ||| f) :
    translate m ttb va = some (q + va % 0x100000) := by
  have hbase : ttb / 0x4000 * 0x4000 = ttb := by omega
  have hor := toNat_ofNat_or 20 rfl hf hq hq'
  have hsec : IsSection (BitVec.ofNat 32 q ||| f) :=
    (ofNat_or_and (ofNat_and_three (by omega))).trans hsection
  have hnot : ¬ IsPageTable (BitVec.ofNat 32 q ||| f) := fun h => h.not_isSection hsec
  rw [translate, hbase, htte]
  simp only [if_neg hnot, if_pos hsec, hor, add_div_mul hf hq]

end

end PocketDarwin.Pmap
