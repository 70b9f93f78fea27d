/-
  `elf_map_segments`, with the bytes of the file.

  The program headers are read as `e_phnum` entries of `e_phentsize` bytes, and then used as an
  array of `elf64_phdr_t`, whatever that size and the class of the file are.  The mapping reaches
  from the lowest `p_vaddr` to the highest end in memory, where the ends are sums in 64 bits; the
  copies have the sizes in the file.  `MAP_FAILED` is not `NULL`.

  * `elfMapped_iff`: when all accesses are in the buffer of the headers and in the mapping, and
    what a mapping that is returned holds.
-/
import PocketDarwin.Mindyld.Filling

namespace PocketDarwin.Mindyld

/-! ## Program headers -/

def ePhoff {w : ℕ} (header : Memory w) : BitVec 64 := header.load64 32

/-- `elf64_phdr_t`, but for the fields that are not used. -/
structure Phdr where
  type : BitVec 32
  flags : BitVec 32
  offset : BitVec 64
  vaddr : BitVec 64
  filesz : BitVec 64
  memsz : BitVec 64
  deriving DecidableEq

def phdrAt (bytes : List Byte) (pos : ℕ) : Phdr where
  type := leField 32 bytes pos 4
  flags := leField 32 bytes (pos + 4) 4
  offset := leField 64 bytes (pos + 8) 8
  vaddr := leField 64 bytes (pos + 16) 8
  filesz := leField 64 bytes (pos + 32) 8
  memsz := leField 64 bytes (pos + 40) 8

/-- `phdrs[i]`, if it is in the buffer. -/
def phdrIn (phdrs : List Byte) (i : ℕ) : Option Phdr :=
  if 56 * (i + 1) ≤ phdrs.length then some (phdrAt phdrs (56 * i)) else none

/-- The `n` headers from `phdrs[i]` on. -/
def phdrsIn (phdrs : List Byte) : ℕ → ℕ → Option (List Phdr)
  | _, 0 => some []
  | i, n + 1 => (phdrIn phdrs i).bind fun phdr => (phdrsIn phdrs (i + 1) n).map (phdr :: ·)

/-- "Set appropriate page protections" -/
def Phdr.prot (phdr : Phdr) : BitVec 32 :=
  (if phdr.flags &&& 4 ≠ 0 then 1 else 0) ||| (if phdr.flags &&& 2 ≠ 0 then 2 else 0) |||
    (if phdr.flags &&& 1 ≠ 0 then 4 else 0)

/-- The segment of a header; all of the header is in the buffer. -/
def Phdr.entry (phdr : Phdr) : Entry where
  seg := ⟨⟨phdr.vaddr, phdr.memsz, phdr.filesz⟩, phdr.offset, phdr.prot⟩

/-- The headers of type `PT_LOAD`. -/
def loadEntries (phdrs : List Phdr) : List Entry := (phdrs.filter (·.type = ptLoad)).map Phdr.entry

/-! ## The mapping -/

/-- "Read all program headers" -/
def Requests.phdrs (sys : Requests) (file : File) (header : Memory 64) : Option (List Byte) :=
  file.read (ePhoff header) (phdrsSize 64 header) sys.readTable

/-- `elf_map_segments`: the base and what is in the mapping, or `NULL`. -/
def Requests.elfMapSegments (sys : Requests) (file : File) (header : Memory 64) :
    Option (Option (BitVec 64 × Buffer Byte)) :=
  if ¬ sys.malloc then some none
  else if ¬ sys.seekTable then some none
  else if returned (sys.phdrs file header) ≠ phdrsSize 64 header then some none
  else
    (phdrsIn ((sys.phdrs file header).getD []) 0 (ePhnum header).toNat).bind fun phdrs =>
      if sys.mmap = 0 then some none
      else
        (sys.fill file (loadEntries phdrs)).map fun r => if r.2 then some (sys.mmap, r.1) else none

/-! ## What it should do -/

section
variable (sys : Requests) (file : File) (header : Memory 64)

/-- The program headers are read in full. -/
structure Requests.ReadsHeaders : Prop where
  malloc : sys.malloc
  seek : sys.seekTable
  read : returned (sys.phdrs file header) = phdrsSize 64 header

/-- The headers, as the array has them. -/
def headersOf : List Phdr :=
  (List.range' 0 (ePhnum header).toNat).map fun i => phdrAt (file.bytes.drop (ePhoff header).toNat)
    (56 * i)

def entriesOf : List Entry := loadEntries (headersOf file header)

/-- All accesses are in the buffer and in the mapping, and what is returned holds the segments. -/
def ElfMapped : Prop :=
  ∃ result, sys.elfMapSegments file header = some result ∧
    ∀ base region, result = some (base, region) → ∀ e ∈ entriesOf file header,
      Held file (addresses (segmentsIn (entriesOf file header))).1 e.seg region

/-- The headers are not shorter than the array has them.  Every segment that is reached has room for
    its bytes of the file and for its memory.  Where all requests are granted, no `read` failed, and
    segments that overlap agree there. -/
structure ElfFits : Prop where
  headers : (ePhnum header).toNat = 0 ∨ 56 ≤ (ePhentsize header).toNat
  room : sys.mmap ≠ 0 → ∀ k e, (entriesOf file header)[k]? = some e →
    sys.GrantsTo file 0 (entriesOf file header) k →
    sys.Stays file (sys.Room (segmentsIn (entriesOf file header))) k e
  held : sys.mmap ≠ 0 → sys.GrantsTo file 0 (entriesOf file header) (entriesOf file header).length →
    (∀ k < (entriesOf file header).length, (sys.read k).isSome) ∧
      (sys.loadSegments file 0 0 (entriesOf file header)).Pairwise fun seg seg' => seg.Agrees seg'

end

/-! ## The headers that are read -/

section
variable {sys : Requests} {file : File} {header : Memory 64} {phdrs : List Byte} {i n : ℕ}

theorem phdrsIn_eq_some (h : 56 * (i + n) ≤ phdrs.length) :
    phdrsIn phdrs i n = some ((List.range' i n).map fun i => phdrAt phdrs (56 * i)) := by
  induction n generalizing i with
  | zero => rfl
  | succ n ih =>
    rw [phdrsIn, phdrIn, if_pos (by omega), Option.bind_some, ih (by omega), List.range'_succ,
      List.map_cons]
    rfl

theorem le_of_phdrsIn (h : (phdrsIn phdrs i n).isSome) (hn : n ≠ 0) :
    56 * (i + n) ≤ phdrs.length := by
  induction n generalizing i with
  | zero => exact absurd rfl hn
  | succ n ih =>
    rw [phdrsIn, phdrIn] at h
    split_ifs at h with hle
    · rw [Option.bind_some, Option.isSome_map] at h
      rcases n with _ | n
      · exact hle
      · have := ih h (Nat.succ_ne_zero n)
        omega
    · cases h

theorem leField_take {w pos k n : ℕ} (h : pos + k ≤ n) (l : List Byte) :
    leField w (l.take n) pos k = leField w l pos k := by
  rw [leField, leField, List.drop_take, List.take_take, Nat.min_eq_left (by omega)]

theorem phdrAt_take {pos n : ℕ} (h : pos + 56 ≤ n) (l : List Byte) :
    phdrAt (l.take n) pos = phdrAt l pos := by
  simp only [phdrAt, Phdr.mk.injEq]
  exact ⟨leField_take (by omega) l, leField_take (by omega) l, leField_take (by omega) l,
    leField_take (by omega) l, leField_take (by omega) l, leField_take (by omega) l⟩

/-- The product of the two `int`s, if it is not negative, and when it is. -/
theorem phdrsSize_toNat (header : Memory 64) :
    (ePhentsize header).toNat * (ePhnum header).toNat < 2 ^ 32 - 1 ∧
      (phdrsSize 64 header).toNat = (ePhentsize header).toNat * (ePhnum header).toNat +
        if (ePhentsize header).toNat * (ePhnum header).toNat < 2 ^ 31 then 0
        else 2 ^ 64 - 2 ^ 32 := by
  have hle : (ePhentsize header).toNat * (ePhnum header).toNat ≤ (2 ^ 16 - 1) * (2 ^ 16 - 1) :=
    Nat.mul_le_mul (Nat.le_pred_of_lt (ePhentsize header).isLt)
      (Nat.le_pred_of_lt (ePhnum header).isLt)
  have hprod : ((ePhentsize header).setWidth 32 * (ePhnum header).setWidth 32).toNat =
      (ePhentsize header).toNat * (ePhnum header).toNat := by
    rw [BitVec.toNat_mul, BitVec.toNat_setWidth_of_le (by decide),
      BitVec.toNat_setWidth_of_le (by decide)]
    exact Nat.mod_eq_of_lt (by omega)
  refine ⟨by omega, ?_⟩
  rw [phdrsSize, BitVec.toNat_signExtend, BitVec.toNat_setWidth_of_le (by decide), hprod,
    BitVec.msb_eq_decide, hprod]
  congr 1
  by_cases hlt : (ePhentsize header).toNat * (ePhnum header).toNat < 2 ^ 31
  · rw [if_pos hlt, if_neg]
    rw [decide_eq_true_eq]
    omega
  · rw [if_neg hlt, if_pos]
    rw [decide_eq_true_eq]
    omega

/-- The buffer has the bytes of the file that were asked for. -/
theorem Requests.ReadsHeaders.bytes (h : sys.ReadsHeaders file header) :
    ∃ bytes, sys.phdrs file header = some bytes ∧
      bytes.length = (ePhentsize header).toNat * (ePhnum header).toNat ∧
      bytes = (file.bytes.drop (ePhoff header).toNat).take bytes.length := by
  obtain ⟨hlt, hsize⟩ := phdrsSize_toNat header
  have hread := congrArg BitVec.toNat h.read
  rw [hsize] at hread
  cases hphdrs : sys.phdrs file header with
  | none =>
    -- the size is not `-1`
    rw [hphdrs] at hread
    have hnone : (2 : ℕ) ^ 64 - 1 = _ := hread
    split_ifs at hnone <;> omega
  | some bytes =>
    obtain ⟨-, hlen, -⟩ := File.getElem_read hphdrs
    rw [hphdrs, returned, BitVec.toNat_ofNat, Nat.mod_eq_of_lt (by omega)] at hread
    refine ⟨bytes, rfl, ?_, ?_⟩
    · split_ifs at hread <;> omega
    · obtain ⟨k, -, hbytes⟩ := Option.map_eq_some_iff.1 hphdrs
      refine List.prefix_iff_eq_take.1 ?_
      rw [← hbytes]
      exact (List.take_prefix _ _).trans (List.take_prefix _ _)

/-- **The headers** are those of the file, or one of them is outside of the buffer. -/
theorem Requests.ReadsHeaders.phdrsIn_eq (h : sys.ReadsHeaders file header) :
    phdrsIn ((sys.phdrs file header).getD []) 0 (ePhnum header).toNat =
      if (ePhnum header).toNat = 0 ∨ 56 ≤ (ePhentsize header).toNat
        then some (headersOf file header) else none := by
  obtain ⟨bytes, hphdrs, hlen, htake⟩ := h.bytes
  rw [hphdrs, Option.getD_some]
  have hfits : (ePhnum header).toNat = 0 ∨ 56 ≤ (ePhentsize header).toNat →
      56 * (0 + (ePhnum header).toNat) ≤ bytes.length := by
    rintro (hzero | hle)
    · omega
    · rw [hlen, Nat.zero_add]
      exact Nat.mul_le_mul_right _ hle
  split_ifs with hsize
  · rw [phdrsIn_eq_some (hfits hsize), headersOf]
    refine congrArg some (List.map_congr_left fun i hi => ?_)
    obtain ⟨-, hi⟩ := List.mem_range'_1.1 hi
    have hpos : 56 * i + 56 ≤ bytes.length := by
      have := hfits hsize
      omega
    rw [htake]
    exact phdrAt_take hpos _
  · push Not at hsize
    rw [← Option.not_isSome_iff_eq_none]
    intro hsome
    have hle := le_of_phdrsIn hsome hsize.1
    rw [hlen, Nat.zero_add] at hle
    exact absurd (Nat.le_of_mul_le_mul_right hle (Nat.pos_of_ne_zero hsize.1)) (not_le.2 hsize.2)

/-! ## The mapping -/

theorem elfMapSegments_of_not_reads (h : ¬ sys.ReadsHeaders file header) :
    sys.elfMapSegments file header = some none := by
  rw [Requests.elfMapSegments]
  by_cases hmalloc : sys.malloc
  · rw [if_neg (not_not.2 hmalloc)]
    by_cases hseek : sys.seekTable
    · rw [if_neg (not_not.2 hseek)]
      exact if_pos fun hread => h ⟨hmalloc, hseek, hread⟩
    · exact if_pos hseek
  · exact if_pos hmalloc

theorem elfMapSegments_of_reads (h : sys.ReadsHeaders file header) :
    sys.elfMapSegments file header =
      if (ePhnum header).toNat = 0 ∨ 56 ≤ (ePhentsize header).toNat then
        if sys.mmap = 0 then some none
        else
          (sys.fill file (entriesOf file header)).map fun r => if r.2 then some (sys.mmap, r.1)
            else none
      else none := by
  rw [Requests.elfMapSegments, if_neg (not_not.2 h.malloc), if_neg (not_not.2 h.seek),
    if_neg (not_not.2 h.read), h.phdrsIn_eq]
  by_cases hsize : (ePhnum header).toNat = 0 ∨ 56 ≤ (ePhentsize header).toNat
  · rw [if_pos hsize, if_pos hsize]
    rfl
  · rw [if_neg hsize, if_neg hsize]
    rfl

/-- **The mapping of an ELF file** is filled as it should be exactly if the headers that were read
    have the size of the structure and the segments fit. -/
theorem elfMapped_iff (sys : Requests) (file : File) (header : Memory 64) :
    ElfMapped sys file header ↔ (sys.ReadsHeaders file header → ElfFits sys file header) := by
  by_cases hreads : sys.ReadsHeaders file header
  swap
  · refine ⟨fun _ h => absurd h hreads, fun _ => ⟨none, elfMapSegments_of_not_reads hreads, ?_⟩⟩
    intro base region h
    cases h
  rw [imp_iff_right hreads, ElfMapped, elfMapSegments_of_reads hreads]
  by_cases hsize : (ePhnum header).toNat = 0 ∨ 56 ≤ (ePhentsize header).toNat
  swap
  · rw [if_neg hsize]
    refine ⟨?_, fun h => absurd h.headers hsize⟩
    rintro ⟨result, h, -⟩
    cases h
  by_cases hmmap : sys.mmap = 0
  · rw [if_pos hsize, if_pos hmmap]
    refine ⟨fun _ => ⟨hsize, fun h => absurd hmmap h, fun h => absurd hmmap h⟩,
      fun _ => ⟨none, rfl, ?_⟩⟩
    intro base region h
    cases h
  rw [if_pos hsize, if_neg hmmap]
  constructor
  · rintro ⟨result, hresult, hheld⟩
    obtain ⟨⟨region, next⟩, hfill, hret⟩ := Option.map_eq_some_iff.1 hresult
    refine ⟨hsize, fun _ => fill_isSome_iff.1 (Option.isSome_of_mem hfill), fun _ hgrants => ?_⟩
    have hnext : next = true := (fillSegments_spec hfill).1.2 hgrants
    subst hnext
    exact (fill_held_iff hfill).1 (hheld sys.mmap region hret.symm)
  · intro hfits
    obtain ⟨⟨region, next⟩, hfill⟩ :=
      Option.isSome_iff_exists.1 (fill_isSome_iff.2 (hfits.room hmmap))
    refine ⟨_, by rw [hfill]; rfl, fun base region' hret => ?_⟩
    dsimp only at hret
    split_ifs at hret with hnext
    obtain ⟨rfl, rfl⟩ := Prod.mk.inj (Option.some.inj hret)
    subst hnext
    exact (fill_held_iff hfill).2 (hfits.held hmmap ((fillSegments_spec hfill).1.1 rfl))

end

/-! ## Runs -/

/-- A shared object of 64 bits with one program header. -/
def oneSegmentElf (offset vaddr filesz memsz : ℕ) : File where
  bytes := [0x7f, 0x45, 0x4c, 0x46, 2, 1, 1, 0, 0, 0, 0, 0, 0, 0, 0, 0] ++ leBytes 2 3 ++
    leBytes 2 183 ++ leBytes 4 1 ++ leBytes 8 0 ++ leBytes 8 64 ++ leBytes 8 0 ++ leBytes 4 0 ++ leBytes 2 64 ++
      leBytes 2 56 ++
    leBytes 2 1 ++ leBytes 2 0 ++ leBytes 2 0 ++ leBytes 2 0 ++
    leBytes 4 1 ++ leBytes 4 6 ++ leBytes 8 offset ++ leBytes 8 vaddr ++ leBytes 8 vaddr ++ leBytes
      8 filesz ++
    leBytes 8 memsz ++ leBytes 8 1
  length_lt := by
    simp only [List.length_append, List.length_cons, List.length_nil, length_leBytes]
    decide

/-- More bytes of the file than there is memory for the segment. -/
theorem read_leaves_mapping :
    elfValidateHeader (oneSegmentElf 0 0 120 1).header ∧
      granting.ReadsHeaders (oneSegmentElf 0 0 120 1) (oneSegmentElf 0 0 120 1).header ∧
      ¬ ElfMapped granting (oneSegmentElf 0 0 120 1) (oneSegmentElf 0 0 120 1).header := by
  refine ⟨by decide +kernel, ⟨rfl, rfl, by decide +kernel⟩, ?_⟩
  rintro ⟨result, h, -⟩
  have hnone : (granting.elfMapSegments (oneSegmentElf 0 0 120 1)
      (oneSegmentElf 0 0 120 1).header).isNone := by
    decide +kernel
  rw [h] at hnone
  cases hnone

end PocketDarwin.Mindyld
