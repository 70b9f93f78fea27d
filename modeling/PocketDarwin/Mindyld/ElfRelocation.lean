/-
  The addresses in the ELF loader: where `elf_map_segments` puts a byte, what
  `elf_find_symbol_in_symtab` returns for a symbol, and what `elf_process_rela` patches.

  The first one subtracts the lowest address of the segments, and the others do not.  A relocation
  of a `*_RELATIVE` type adds the base to what it finds, and does not look at the addend.  The
  symbol and relocation tables are lists; the memory that is patched is not that of the tables.
  Where two types have the same number, the labels stand for one branch.

  * `elfProcessRela_spec`: what is in the word of an entry that no later one patches.
  * `oneConvention_iff`: when the addresses are the same, and the relocated words right.
-/
import Mathlib.Tactic.Ring
import PocketDarwin.Mindyld.ElfMapping

namespace PocketDarwin.Mindyld

/-! ## The loader -/

/-- `elf_load`: the base address of the handle, and what is in the mapping. -/
def Requests.elfLoad (sys : Requests) (file : File) : Option (Option (BitVec 64 × Buffer Byte)) :=
  if ¬ sys.openFile then some none
  else if returned (file.read 0 64 sys.readHeader) ≠ 64 then some none
  else if ¬ elfValidateHeader file.header then some none
  else (sys.elfMapSegments file file.header).map fun r => if sys.handle then r else none

/-! ## Symbols -/

/-- `elf64_sym_t`, but for the fields that are not used. -/
structure Sym where
  name : BitVec 32
  info : BitVec 8
  value : BitVec 64
  size : BitVec 64

/-- `mindyld_symbol_t` -/
structure Symbol where
  name : List Byte
  address : BitVec 64
  size : BitVec 32
  binding : BitVec 8
  type : BitVec 8

/-- `strtab + sym->st_name`, up to the end of the string. -/
def symName (strtab : List Byte) (sym : Sym) : List Byte :=
  (strtab.drop sym.name.toNat).takeWhile (· ≠ 0)

/-- The index of the first symbol of a name. -/
def symbolIndex (name : List Byte) (symtab : ℕ → Sym) (symtabSize : BitVec 32) (strtab : List Byte)
    : Option ℕ :=
  (List.range (symtabSize.toNat / 24)).find? fun i => symName strtab (symtab i) = name

/-- `elf_find_symbol_in_symtab`; `malloc` may fail. -/
def elfFindSymbolInSymtab (base : BitVec 64) (name : List Byte) (symtab : ℕ → Sym)
    (symtabSize : BitVec 32)
    (strtab : List Byte) (malloc : Bool) : Option Symbol :=
  (symbolIndex name symtab symtabSize strtab).bind fun i =>
    let sym := symtab i
    if malloc then
      some ⟨symName strtab sym, base + sym.value, sym.size.setWidth 32, sym.info >>> 4,
        sym.info &&& 0x0f⟩
    else none

/-! ## Relocations -/

/-- `elf64_rela_t` -/
structure Rela where
  offset : BitVec 64
  info : BitVec 64
  addend : BitVec 64

namespace Rela
variable (rel : Rela)

def symIndex : BitVec 32 := (rel.info >>> 32).setWidth 32

def relType : BitVec 32 := rel.info.setWidth 32

/-- `R_ARM_RELATIVE`, `R_AARCH64_RELATIVE`, `R_X86_64_RELATIVE` and `R_386_RELATIVE` -/
def IsRelative : Prop := rel.relType = 23 ∨ rel.relType = 1027 ∨ rel.relType = 8

/-- `R_ARM_ABS32`, `R_AARCH64_ABS64`, `R_X86_64_64` and `R_386_32` -/
def IsAbsolute : Prop := rel.relType = 2 ∨ rel.relType = 257 ∨ rel.relType = 1

/-- `R_ARM_GLOB_DAT`, `R_AARCH64_GLOB_DAT`, `R_X86_64_GLOB_DAT` and `R_386_GLOB_DAT` -/
def IsGlobDat : Prop := rel.relType = 21 ∨ rel.relType = 1025 ∨ rel.relType = 6

/-- `R_ARM_JUMP_SLOT`, `R_AARCH64_JUMP_SLOT`, `R_X86_64_JUMP_SLOT` and `R_386_JMP_SLOT` -/
def IsJumpSlot : Prop := rel.relType = 22 ∨ rel.relType = 1026 ∨ rel.relType = 7

instance : Decidable rel.IsRelative := inferInstanceAs (Decidable (_ ∨ _))
instance : Decidable rel.IsAbsolute := inferInstanceAs (Decidable (_ ∨ _))
instance : Decidable rel.IsGlobDat := inferInstanceAs (Decidable (_ ∨ _))
instance : Decidable rel.IsJumpSlot := inferInstanceAs (Decidable (_ ∨ _))

/-- `sym_value` -/
def symValue (base : BitVec 64) (symtab : ℕ → Sym) : BitVec 64 :=
  if rel.symIndex ≠ 0 then base + (symtab rel.symIndex.toNat).value else 0

/-- `rel_addr` -/
def addr (base : BitVec 64) : BitVec 64 := base + rel.offset

end Rela

/-- The body of the loop. -/
def applyRela (base : BitVec 64) (symtab : ℕ → Sym) (mem : Memory 64) (rel : Rela) : Memory 64 :=
  let addr := rel.addr base
  if rel.IsRelative then mem.store64 addr (mem.load64 addr + base)
  else if rel.IsAbsolute then mem.store64 addr (rel.symValue base symtab + rel.addend)
  else if rel.IsGlobDat then mem.store64 addr (rel.symValue base symtab)
  else if rel.IsJumpSlot then mem.store64 addr (rel.symValue base symtab)
  else mem

/-- `elf_process_rela` -/
def elfProcessRela (base : BitVec 64) (rela : List Rela) (symtab : ℕ → Sym) (mem : Memory 64) :
    Memory 64 :=
  rela.foldl (applyRela base symtab) mem

/-! ## What the addresses should be -/

/-- The memory of a segment. -/
def Segment.memory (seg : Segment) : Span 64 := ⟨seg.vaddr, seg.memsz.toNat⟩

/-- `segment_addr`, and the byte of `v` behind it. -/
def placed (base : BitVec 64) (segs : List Segment) (seg : Segment) (v : BitVec 64) : BitVec 64 :=
  base + (seg.vaddr - (addresses segs).1) + (v - seg.vaddr)

/-- What is to be added to an address of the file. -/
def loadBias (base : BitVec 64) (segs : List Segment) : BitVec 64 := base - (addresses segs).1

/-- Symbols are found, and relocations applied, where the segments are placed. -/
structure OneAddress (base : BitVec 64) (segs : List Segment) : Prop where
  symbol : ∀ seg ∈ segs, ∀ name symtab symtabSize strtab malloc i r,
    symbolIndex name symtab symtabSize strtab = some i →
    elfFindSymbolInSymtab base name symtab symtabSize strtab malloc = some r →
    (symtab i).value ∈ seg.memory → r.address = placed base segs seg (symtab i).value
  relocation : ∀ seg ∈ segs, ∀ rel : Rela, rel.offset ∈ seg.memory →
    rel.addr base = placed base segs seg rel.offset

/-- The word that is patched. -/
def Rela.word (base : BitVec 64) (rel : Rela) : Span 64 := ⟨rel.addr base, 8⟩

/-- No later entry patches the word of an entry. -/
def Unpatched (base : BitVec 64) (rel : Rela) (later : List Rela) : Prop :=
  ∀ rel' ∈ later, rel'.IsRelative ∨ rel'.IsAbsolute ∨ rel'.IsGlobDat ∨ rel'.IsJumpSlot →
    (rel.word base).Disjoint (rel'.word base)

section
variable (base : BitVec 64) (segs : List Segment) (rela : List Rela) (symtab : ℕ → Sym)
  (mem : Memory 64)

/-- Every entry of a `*_RELATIVE` type, but for those that a later entry patches again, has left the
    load bias plus its addend where the segment is placed. -/
def RelativeRight : Prop :=
  ∀ pre rel post, rela = pre ++ rel :: post → rel.IsRelative → Unpatched base rel post →
    ∀ seg ∈ segs, rel.offset ∈ seg.memory →
      (elfProcessRela base rela symtab mem).load64 (placed base segs seg rel.offset) =
        loadBias base segs + rel.addend

/-- The word of each such entry has its addend already when its turn comes. -/
def AddendStored : Prop :=
  ∀ pre rel post, rela = pre ++ rel :: post → rel.IsRelative → Unpatched base rel post →
    (∃ seg ∈ segs, rel.offset ∈ seg.memory) →
      (elfProcessRela base pre symtab mem).load64 (rel.addr base) = rel.addend

end

/-- A segment is linked at 0, or none has memory. -/
def LinkedAtZero (segs : List Segment) : Prop :=
  (∃ seg ∈ segs, seg.vaddr = 0) ∨ ∀ seg ∈ segs, seg.memsz = 0

/-- The segments of a file. -/
def File.segments (file : File) : List Segment := segmentsIn (entriesOf file file.header)

/-- An ELF file that is loaded has one convention of addresses. -/
def OneConvention (sys : Requests) (file : File) (rela : List Rela) (symtab : ℕ → Sym)
    (mem : Memory 64) : Prop :=
  ∀ base region, sys.elfLoad file = some (some (base, region)) →
    OneAddress base file.segments ∧ RelativeRight base file.segments rela symtab mem

/-! ## What is relocated -/

section
variable {base : BitVec 64} {segs : List Segment} {rela : List Rela} {symtab : ℕ → Sym}
  {mem : Memory 64}
  {rel : Rela} {seg : Segment} {v : BitVec 64}

theorem elfProcessRela_append (pre post : List Rela) :
    elfProcessRela base (pre ++ post) symtab mem =
      elfProcessRela base post symtab (elfProcessRela base pre symtab mem) :=
  List.foldl_append

/-- An entry patches its own word only. -/
theorem load64_applyRela {rel' : Rela} {p : BitVec 64}
    (h : rel'.IsRelative ∨ rel'.IsAbsolute ∨ rel'.IsGlobDat ∨ rel'.IsJumpSlot →
      (⟨p, 8⟩ : Span 64).Disjoint (rel'.word base)) :
    (applyRela base symtab mem rel').load64 p = mem.load64 p := by
  rw [applyRela]
  split_ifs with h₁ h₂ h₃ h₄
  · exact Memory.load64_store64_of_disjoint (h (.inl h₁)) _ mem
  · exact Memory.load64_store64_of_disjoint (h (.inr (.inl h₂))) _ mem
  · exact Memory.load64_store64_of_disjoint (h (.inr (.inr (.inl h₃)))) _ mem
  · exact Memory.load64_store64_of_disjoint (h (.inr (.inr (.inr h₄)))) _ mem
  · rfl

theorem load64_elfProcessRela {later : List Rela} (h : Unpatched base rel later) :
    (elfProcessRela base later symtab mem).load64 (rel.addr base) = mem.load64 (rel.addr base) := by
  induction later generalizing mem with
  | nil => rfl
  | cons rel' later ih =>
    rw [Unpatched, List.forall_mem_cons] at h
    exact (ih h.2).trans (load64_applyRela h.1)

/-- **A relative relocation** adds the base to what the entries before it have left. -/
theorem elfProcessRela_spec {pre post : List Rela} (hrel : rel.IsRelative)
    (h : Unpatched base rel post) :
    (elfProcessRela base (pre ++ rel :: post) symtab mem).load64 (rel.addr base) =
      (elfProcessRela base pre symtab mem).load64 (rel.addr base) + base := by
  have happly : applyRela base symtab (elfProcessRela base pre symtab mem) rel =
      (elfProcessRela base pre symtab mem).store64 (rel.addr base)
        ((elfProcessRela base pre symtab mem).load64 (rel.addr base) + base) := if_pos hrel
  have hlater : elfProcessRela base (rel :: post) symtab (elfProcessRela base pre symtab mem) =
      elfProcessRela base post symtab (applyRela base symtab (elfProcessRela base pre symtab mem) rel) :=
    rfl
  rw [elfProcessRela_append, hlater, load64_elfProcessRela h, happly,
    Memory.load64_store64 (by decide)]

/-! ## The addresses -/

theorem placed_eq (base : BitVec 64) (segs : List Segment) (seg : Segment) (v : BitVec 64) :
    placed base segs seg v = base + v - (addresses segs).1 := by
  rw [placed]
  ring

/-- The byte of the file that a mapping holds for an address is where it is placed. -/
theorem get_placed {file : File} {fseg : FileSegment} {region : Buffer Byte}
    (h : Held file (addresses segs).1 fseg region) (hsize : region.size ≤ 2 ^ 64) {j : ℕ}
    (hj : j < fseg.filesz.toNat) :
    ∃ b, file.bytes[fseg.offset.toNat + j]? = some b ∧
      region.get (placed base segs fseg.toSegment (fseg.vaddr + BitVec.ofNat 64 j) - base).toNat =
        some b := by
  obtain ⟨b, hb, hget⟩ := h.data j hj
  have hlt := (get_eq_some_iff.1 hget).1
  have hindex : placed base segs fseg.toSegment (fseg.vaddr + BitVec.ofNat 64 j) - base =
      fseg.vaddr - (addresses segs).1 + BitVec.ofNat 64 j := by
    rw [placed]
    ring
  refine ⟨b, hb, ?_⟩
  rw [hindex, BitVec.toNat_add, BitVec.toNat_ofNat, Nat.mod_eq_of_lt (by omega : j < 2 ^ 64),
    Nat.mod_eq_of_lt (by omega), hget]

theorem symbol_address {name : List Byte} {symtabSize : BitVec 32} {strtab : List Byte}
    {malloc : Bool} {i : ℕ}
    {r : Symbol} (hindex : symbolIndex name symtab symtabSize strtab = some i)
    (hr : elfFindSymbolInSymtab base name symtab symtabSize strtab malloc = some r) :
    r.address = base + (symtab i).value := by
  rw [elfFindSymbolInSymtab, hindex, Option.bind_some] at hr
  dsimp only at hr
  split_ifs at hr
  cases hr
  rfl

/-- Without a lowest address above 0, the addresses are those of the base. -/
theorem placed_of_linkedAtZero (h : LinkedAtZero segs) (hseg : seg ∈ segs) (hv : v ∈ seg.memory) :
    (addresses segs).1 = 0 := by
  rcases h with ⟨low, hlow, hzero⟩ | hempty
  · have hle := addresses_bounds.1 low hlow
    rw [hzero] at hle
    exact BitVec.le_zero_iff.1 hle
  · rw [Segment.memory, hempty seg hseg] at hv
    exact absurd hv (Nat.not_lt_zero _)

theorem OneAddress.linkedAtZero (h : OneAddress base segs) : LinkedAtZero segs := by
  by_cases hempty : ∀ seg ∈ segs, seg.memsz = 0
  · exact .inr hempty
  · push Not at hempty
    obtain ⟨seg, hseg, hne⟩ := hempty
    have hv : seg.vaddr ∈ seg.memory := by
      rw [Span.mem_def, Segment.memory, sub_self]
      exact Nat.pos_of_ne_zero fun h => hne (BitVec.eq_of_toNat_eq h)
    have heq := h.relocation seg hseg ⟨seg.vaddr, 0, 0⟩ hv
    rw [placed_eq, Rela.addr] at heq
    obtain ⟨low, hlow, hmin⟩ := exists_lowest hseg
    have hzero : (addresses segs).1 = 0 := sub_eq_self.1 heq.symm
    exact .inl ⟨low, hlow, hmin.trans hzero⟩

/-- **One convention** of addresses exactly if the segments are linked at 0 and the words of the
    relative relocations have their addends before. -/
theorem oneAddress_iff (base : BitVec 64) (segs : List Segment) (rela : List Rela)
    (symtab : ℕ → Sym)
    (mem : Memory 64) :
    OneAddress base segs ∧ RelativeRight base segs rela symtab mem ↔
      LinkedAtZero segs ∧ AddendStored base segs rela symtab mem := by
  have hword : LinkedAtZero segs → ∀ pre rel post, rela = pre ++ rel :: post → rel.IsRelative →
      Unpatched base rel post → ∀ seg ∈ segs, rel.offset ∈ seg.memory →
      ((elfProcessRela base rela symtab mem).load64 (placed base segs seg rel.offset) =
          loadBias base segs + rel.addend ↔
        (elfProcessRela base pre symtab mem).load64 (rel.addr base) = rel.addend) := by
    rintro hzero pre rel post rfl hrel hunpatched seg hseg hv
    have hlow := placed_of_linkedAtZero hzero hseg hv
    rw [placed_eq, loadBias, hlow, sub_zero, sub_zero, add_comm base rel.addend]
    exact (Eq.congr_left (elfProcessRela_spec hrel hunpatched)).trans (add_left_inj base)
  constructor
  · rintro ⟨hone, hright⟩
    have hzero := hone.linkedAtZero
    refine ⟨hzero, fun pre rel post heq hrel hunpatched hin => ?_⟩
    obtain ⟨seg, hseg, hv⟩ := hin
    exact (hword hzero pre rel post heq hrel hunpatched seg hseg hv).1
      (hright pre rel post heq hrel hunpatched seg hseg hv)
  · rintro ⟨hzero, hstored⟩
    refine ⟨⟨fun seg hseg name symtab size strtab malloc i r hindex hr hv => ?_,
      fun seg hseg rel hv => ?_⟩,
      fun pre rel post heq hrel hunpatched seg hseg hv => ?_⟩
    · rw [symbol_address hindex hr, placed_eq, placed_of_linkedAtZero hzero hseg hv, sub_zero]
    · rw [placed_eq, placed_of_linkedAtZero hzero hseg hv, sub_zero, Rela.addr]
    · exact (hword hzero pre rel post heq hrel hunpatched seg hseg hv).2
        (hstored pre rel post heq hrel hunpatched ⟨seg, hseg, hv⟩)

/-- **An ELF file** that is loaded has one convention exactly if it is linked at 0 and its relative
    relocations have their addends in place. -/
theorem oneConvention_iff (sys : Requests) (file : File) (rela : List Rela) (symtab : ℕ → Sym)
    (mem : Memory 64) :
    OneConvention sys file rela symtab mem ↔
      ∀ base region, sys.elfLoad file = some (some (base, region)) →
        LinkedAtZero file.segments ∧ AddendStored base file.segments rela symtab mem :=
  forall₂_congr fun base _ => imp_congr_right fun _ =>
    oneAddress_iff base file.segments rela symtab mem

end

/-- A file that is linked at another address. -/
theorem relocation_elsewhere : ¬ OneConvention granting (oneSegmentElf 0 0x1000 4 8) []
    (fun _ => ⟨0, 0, 0, 0⟩) 0 := by
  intro h
  have hload : (granting.elfLoad (oneSegmentElf 0 0x1000 4 8)).join.isSome := by decide +kernel
  obtain ⟨⟨base, region⟩, hsome⟩ := Option.isSome_iff_exists.1 hload
  have hzero := (h base region (Option.join_eq_some_iff.1 hsome)).1.linkedAtZero
  revert hzero
  unfold LinkedAtZero
  decide +kernel

end PocketDarwin.Mindyld
