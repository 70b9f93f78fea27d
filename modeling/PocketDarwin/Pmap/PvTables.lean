/-
  The tables that `pmap_init` lays out (`pmap.c`).

  Two blocks are allocated, one for `pv_head_table` and one for the others.  The place of the second
  table in the second block is found from the end of `pv_head_table`, which is the end of the first
  block, and the tables behind it follow.

  * `pvHashTable_start`: where the hash table is.
  * `laidOut_never`: it is in no block, or it is where another table is.
-/
import PocketDarwin.Span

namespace PocketDarwin.Pmap

/-! ## The tables -/

/-- `sizeof(pv_entry)` -/
def pvEntrySize : BitVec 32 := 16

/-- `sizeof(struct pv_rooted_entry)` -/
def pvRootedEntrySize : BitVec 32 := 20

/-- `sizeof(struct pv_hashed_entry_t *)` -/
def pvHashedPtrSize : BitVec 32 := 4

/-- `pv_lock_table_size` and `pv_hash_lock_table_size` -/
def lockTableSize (n : BitVec 32) : BitVec 32 := n * 4

/-- What `pmap_init` allocates, and the tables: of `npvhash + 1` lists, and of as many locks. -/
structure PvTables where
  headBlock : Span 32
  hashBlock : Span 32
  pvHeadTable : Span 32
  pvHeadHashTable : Span 32
  pvHashTable : Span 32
  pvLockTable : Span 32
  pvHashLockTable : Span 32

def PvTables.all (t : PvTables) : List (Span 32) :=
  [t.pvHeadTable, t.pvHeadHashTable, t.pvHashTable, t.pvLockTable, t.pvHashLockTable]

/-- The size of the second block. -/
def hashBlockSize (npages npvhash : BitVec 32) : BitVec 32 :=
  pvRootedEntrySize * npages + pvHashedPtrSize * (npvhash + 1) + lockTableSize npages +
    lockTableSize (npvhash + 1) + npages

/-- `pmap_init`, as far as the tables go; `none` is a panic.  `kernelMemoryAllocate` is told the
    number of the request, and its size. -/
def pmapInit (kernelMemoryAllocate : ℕ → BitVec 32 → Option (BitVec 32))
    (memSize npvhash : BitVec 32) (mem : Memory 32) : Option (PvTables × Memory 32) :=
  let npages := memSize >>> 12
  match kernelMemoryAllocate 0 (npages * pvEntrySize) with
  | none => none
  | some pvHeadTable =>
    let mem := mem.fill pvHeadTable 0 (npages * pvEntrySize).toNat
    match kernelMemoryAllocate 1 (hashBlockSize npages npvhash) with
    | none => none
    | some pvHeadHashTable =>
      -- `pv_head_table + npages`, not `pv_head_hash_table + npages`
      let pvHashTable := pvHeadTable + npages * pvEntrySize
      let pvLockTable := pvHashTable + pvHashedPtrSize * (npvhash + 1)
      let mem := mem.fill pvLockTable 0 (lockTableSize npages).toNat
      let pvHashLockTable := pvLockTable + lockTableSize npages
      let mem := mem.fill pvHashLockTable 0 (lockTableSize (npvhash + 1)).toNat
      let mem := mem.fill pvHeadHashTable 0 (hashBlockSize npages npvhash).toNat
      some
        ({ headBlock := ⟨pvHeadTable, (npages * pvEntrySize).toNat⟩
           hashBlock := ⟨pvHeadHashTable, (hashBlockSize npages npvhash).toNat⟩
           pvHeadTable := ⟨pvHeadTable, npages.toNat * pvEntrySize.toNat⟩
           pvHeadHashTable := ⟨pvHeadHashTable, npages.toNat * pvRootedEntrySize.toNat⟩
           pvHashTable := ⟨pvHashTable, (npvhash.toNat + 1) * pvHashedPtrSize.toNat⟩
           pvLockTable := ⟨pvLockTable, npages.toNat * 4⟩
           pvHashLockTable := ⟨pvHashLockTable, (npvhash.toNat + 1) * 4⟩ }, mem)

/-- The tables are apart, in the blocks that are allocated for them, and zero. -/
structure LaidOut (t : PvTables) (mem : Memory 32) : Prop where
  disjoint : t.all.Pairwise Span.Disjoint
  inside : ∀ table ∈ t.all, table ⊆ t.headBlock ∨ table ⊆ t.hashBlock
  zero : ∀ table ∈ t.all, ∀ a ∈ table, mem a = 0

/-- `kernel_memory_allocate` returns blocks that are apart; there is none of no size. -/
structure Allocates (kernelMemoryAllocate : ℕ → BitVec 32 → Option (BitVec 32)) : Prop where
  zero : ∀ i, kernelMemoryAllocate i 0 = none
  fits : ∀ i size block, kernelMemoryAllocate i size = some block →
    block.toNat + size.toNat ≤ 2 ^ 32
  disjoint : ∀ i j size size' block block', i ≠ j → kernelMemoryAllocate i size = some block →
    kernelMemoryAllocate j size' = some block' →
    Span.Disjoint (⟨block, size.toNat⟩ : Span 32) ⟨block', size'.toNat⟩

/-! ## Where they are -/

section
variable {alloc : ℕ → BitVec 32 → Option (BitVec 32)} {memSize npvhash : BitVec 32}
  {mem mem' : Memory 32} {t : PvTables}

/-- **The hash table** begins behind the first block. -/
theorem pvHashTable_start (h : Allocates alloc)
    (hinit : pmapInit alloc memSize npvhash mem = some (t, mem')) :
    0 < t.headBlock.length ∧ t.headBlock.length < 2 ^ 32 ∧ t.headBlock.Disjoint t.hashBlock ∧
      t.headBlock.start.toNat + t.headBlock.length ≤ 2 ^ 32 ∧
      t.hashBlock.start.toNat + t.hashBlock.length ≤ 2 ^ 32 ∧
      t.pvHashTable.start = t.headBlock.start + BitVec.ofNat 32 t.headBlock.length ∧
      t.pvHeadHashTable.start = t.hashBlock.start ∧
      0 < t.pvHashTable.length ∧ 0 < t.pvHeadHashTable.length := by
  rw [pmapInit] at hinit
  dsimp only at hinit
  split at hinit
  · cases hinit
  next headBlock hhead =>
    split at hinit
    · cases hinit
    next hashBlock hhash =>
      cases hinit
      have hsize : memSize >>> 12 * pvEntrySize ≠ 0 := by
        intro hzero
        rw [hzero, h.zero] at hhead
        cases hhead
      have hpages : memSize >>> 12 ≠ 0 := by
        rintro hzero
        exact hsize (by rw [hzero, zero_mul])
      have hpos : ∀ {v : BitVec 32}, v ≠ 0 → 0 < v.toNat := fun hne =>
        Nat.pos_of_ne_zero fun h => hne (BitVec.eq_of_toNat_eq h)
      refine ⟨hpos hsize, BitVec.isLt _, h.disjoint 0 1 _ _ _ _ Nat.zero_ne_one hhead hhash,
        h.fits 0 _ _ hhead,
        h.fits 1 _ _ hhash, ?_, rfl, Nat.mul_pos (Nat.succ_pos _) (by decide),
        Nat.mul_pos (hpos hpages) (by decide)⟩
      rw [BitVec.ofNat_toNat, BitVec.setWidth_eq]

/-- **The tables** are never laid out as they should be. -/
theorem laidOut_never (h : Allocates alloc)
    (hinit : pmapInit alloc memSize npvhash mem = some (t, mem')) : ¬ LaidOut t mem' := by
  obtain ⟨hhead, hhead', hblocks, hfits, hfits', hstart, hstart', hlen, hlen'⟩ :=
    pvHashTable_start h hinit
  intro hlaid
  have hmem : t.pvHashTable.start ∈ t.pvHashTable := by
    rw [Span.mem_def, sub_self]
    exact hlen
  have htable : t.pvHashTable ∈ t.all := by simp [PvTables.all]
  rcases hlaid.inside _ htable with hin | hin
  · have hend := hin _ hmem
    rw [hstart, Span.mem_iff_of_le hfits, BitVec.toNat_add, BitVec.toNat_ofNat] at hend
    have hisLt := t.headBlock.start.isLt
    omega
  · -- the second block follows on the first one, and begins with another table
    have hend := hin _ hmem
    rw [hstart] at hend
    have hfollows := Span.start_eq_of_end_mem hhead hblocks hend
    have happart : t.pvHeadHashTable.Disjoint t.pvHashTable := by
      have hall := hlaid.disjoint
      rw [PvTables.all, List.pairwise_cons, List.pairwise_cons] at hall
      exact hall.2.1 _ (by simp)
    refine happart t.pvHashTable.start ?_ hmem
    rw [hstart, ← hfollows, ← hstart', Span.mem_def, sub_self]
    exact hlen'

end

/-- The blocks for two requests, 1 MB apart. -/
def twoBlocks (i : ℕ) (size : BitVec 32) : Option (BitVec 32) :=
  if size = 0 ∨ 0x100000 < size.toNat ∨ 1 < i then none
  else some (BitVec.ofNat 32 (i * 0x100000 + 0x100000))

theorem allocates_twoBlocks : Allocates twoBlocks := by
  have hblock : ∀ i size block, twoBlocks i size = some block →
      size.toNat ≤ 0x100000 ∧ i ≤ 1 ∧ block.toNat = i * 0x100000 + 0x100000 := by
    intro i size block h
    rw [twoBlocks] at h
    split_ifs at h with hnone
    rw [← Option.some.inj h, BitVec.toNat_ofNat]
    omega
  refine ⟨fun i => if_pos (.inl rfl), fun i size block h => ?_, fun i j size size' b b' hne h h' => ?_⟩
  · obtain ⟨hsize, hi, hb⟩ := hblock i size block h
    omega
  · obtain ⟨hsize, hi, hb⟩ := hblock i size b h
    obtain ⟨hsize', hj, hb'⟩ := hblock j size' b' h'
    refine Span.disjoint_of_start (fun hmem => ?_) fun hmem => ?_
    · rw [Span.mem_iff_of_le (by dsimp only; omega)] at hmem
      dsimp only at hmem
      omega
    · rw [Span.mem_iff_of_le (by dsimp only; omega)] at hmem
      dsimp only at hmem
      omega

/-- One page of memory, and one hash list. -/
theorem laidOut_onePage :
    Allocates twoBlocks ∧ ∃ t mem, pmapInit twoBlocks 0x1000 0 (fun _ => 0) = some (t, mem) ∧
      ¬ LaidOut t mem := by
  have hinit : pmapInit twoBlocks 0x1000 0 (fun _ => 0) = some _ := rfl
  exact ⟨allocates_twoBlocks, _, _, hinit, laidOut_never allocates_twoBlocks hinit⟩

/-- The hash table of a machine with one page of memory is behind both blocks. -/
theorem hash_table_outside :
    Allocates twoBlocks ∧ ∃ t mem, pmapInit twoBlocks 0x1000 0 (fun _ => 0) = some (t, mem) ∧
      t.pvHashTable = ⟨0x100010, 4⟩ ∧ t.headBlock = ⟨0x100000, 16⟩ ∧ t.hashBlock = ⟨0x200000, 33⟩ ∧
      ¬ LaidOut t mem := by
  refine ⟨allocates_twoBlocks, _, _, rfl, rfl, rfl, rfl, fun hlaid => ?_⟩
  have hmem : (0x100010 : BitVec 32) ∈ (⟨0x100010, 4⟩ : Span 32) := by decide
  rcases hlaid.inside ⟨0x100010, 4⟩ (by decide) with hin | hin
  · exact absurd (hin _ hmem) (by decide)
  · exact absurd (hin _ hmem) (by decide)

end PocketDarwin.Pmap
