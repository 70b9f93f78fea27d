/-
  `platform_load_elf`: an ELF file into the RAM of the simulator.

  A file is the list of its bytes.  `fread` of one item leaves the bytes that there are,
  and a write outside of the RAM is `none`.  The test that keeps a segment in the RAM adds
  two numbers of the file in 32 bits, and is about the size in memory, where the copy
  is about the size in the file.  What is only printed is left out.
-/
import PocketDarwin.LittleEndian
import PocketDarwin.Segments
import PocketDarwin.Simu.Memory

namespace PocketDarwin.Simu

/-! ## Files -/

/-- `fread` of `n` bytes behind `fseek` to `pos`. -/
def fread (file : List Byte) (pos n : ℕ) : List Byte := (file.drop pos).take n

/-- A field of a structure that was read. -/
def field16 (bytes : List Byte) (pos : ℕ) : Half := leField 16 bytes pos 2

def field32 (bytes : List Byte) (pos : ℕ) : Word := leField 32 bytes pos 4

/-- `Elf32_Ehdr`, but for the fields that are not read. -/
structure Ehdr where
  ident : List Byte
  machine : Half
  entry : Word
  phoff : Word
  phentsize : Half
  phnum : Half

/-- `fread(&ehdr, sizeof(ehdr), 1, f)`, if it returns 1. -/
def readEhdr (file : List Byte) : Option Ehdr :=
  let bytes := fread file 0 52
  if bytes.length = 52 then
    some ⟨bytes.take 16, field16 bytes 18, field32 bytes 24, field32 bytes 28, field16 bytes 42,
      field16 bytes 44⟩
  else none

/-- `Elf32_Phdr`, but for the fields that are only printed or not read. -/
structure Phdr where
  type : Word
  offset : Word
  vaddr : Word
  paddr : Word
  filesz : Word
  memsz : Word
  deriving DecidableEq

/-- `fread(&phdr, sizeof(phdr), 1, f)` at `ehdr.e_phoff + i * ehdr.e_phentsize`, if it returns 1. -/
def readPhdr (file : List Byte) (ehdr : Ehdr) (i : ℕ) : Option Phdr :=
  let pos := ehdr.phoff + BitVec.ofNat 32 i * ehdr.phentsize.setWidth 32
  let bytes := fread file pos.toNat 32
  if bytes.length = 32 then
    some ⟨field32 bytes 0, field32 bytes 4, field32 bytes 8, field32 bytes 12, field32 bytes 16,
      field32 bytes 20⟩
  else none

/-! ## Loading -/

def ptLoad : Word := 1
def emArm : Half := 40

/-- `phdr.p_paddr ? phdr.p_paddr : phdr.p_vaddr` -/
def Phdr.loadAddr (phdr : Phdr) : Word := if phdr.paddr ≠ 0 then phdr.paddr else phdr.vaddr

/-- `load_addr < plat->ram_base || load_addr + phdr.p_memsz > plat->ram_base + plat->ram_size` -/
def Phdr.outside (phdr : Phdr) (p : Platform) : Bool :=
  phdr.loadAddr < p.ramBase || p.ramBase + p.ramSize < phdr.loadAddr + phdr.memsz

/-- "Load segment data" -/
def copyData (file : List Byte) (phdr : Phdr) (offset : ℕ) (ram : Buffer Byte) :
    Option (Buffer Byte) :=
  if 0 < phdr.filesz then ram.sets offset (fread file phdr.offset.toNat phdr.filesz.toNat)
    else some ram

/-- "Zero BSS" -/
def zeroBss (phdr : Phdr) (offset : ℕ) (ram : Buffer Byte) : Option (Buffer Byte) :=
  if phdr.filesz < phdr.memsz then
    ram.sets (offset + phdr.filesz.toNat) (List.replicate (phdr.memsz - phdr.filesz).toNat 0)
  else some ram

/-- Both, from `load_addr - plat->ram_base` on. -/
def copySegment (file : List Byte) (phdr : Phdr) (p : Platform) : Option Platform := do
  let offset := (phdr.loadAddr - p.ramBase).toNat
  let ram ← copyData file phdr offset p.ram
  let ram ← zeroBss phdr offset ram
  some { p with ram }

/-- The body of the loop for a header of type `PT_LOAD`. -/
def loadSegment (file : List Byte) (phdr : Phdr) (p : Platform) : Option Platform :=
  if phdr.outside p then
    -- the "direct memory write" asks for the opposite of what was just found
    if p.ramBase ≤ phdr.loadAddr ∧ phdr.loadAddr + phdr.memsz ≤ p.ramBase + p.ramSize then
      copySegment file phdr p
    else some p
  else copySegment file phdr p

/-- The loop over the headers from the `i`th on, of which `n` are left. -/
def loadHeaders (file : List Byte) (ehdr : Ehdr) : ℕ → ℕ → Platform → Option Platform
  | 0, _, p => some p
  | n + 1, i, p =>
    match readPhdr file ehdr i with
    | none => loadHeaders file ehdr n (i + 1) p
    | some phdr =>
      if phdr.type ≠ ptLoad then loadHeaders file ehdr n (i + 1) p
      else (loadSegment file phdr p).bind (loadHeaders file ehdr n (i + 1))

/-- The tests of the header. -/
def Ehdr.isArmElf (ehdr : Ehdr) : Bool :=
  ehdr.ident.take 4 = [0x7f, 0x45, 0x4c, 0x46] && ehdr.ident.getD 4 0 = 1 && ehdr.machine = emArm

/-- `platform_load_elf`: the platform, and the entry point if 0 is returned. -/
def platformLoadElf (file : Option (List Byte)) (p : Platform) : Option (Option Word × Platform) :=
  match file with
  | none => some (none, p)
  | some file =>
    match readEhdr file with
    | none => some (none, p)
    | some ehdr =>
      if ehdr.isArmElf then (loadHeaders file ehdr ehdr.phnum.toNat 0 p).map (some ehdr.entry, ·)
      else some (none, p)

/-! ## What should be loaded -/

/-- Whether a header is loaded: it is of type `PT_LOAD`, and the test does not reject it. -/
def Phdr.isLoaded (phdr : Phdr) : Bool :=
  phdr.type = ptLoad &&
    !(phdr.loadAddr < ramBase || ramBase + ramSize < phdr.loadAddr + phdr.memsz)

/-- The segment of a header, with the file data that there is for it. -/
def Phdr.segment (file : List Byte) (phdr : Phdr) : LoadSegment Byte where
  index := (phdr.loadAddr - ramBase).toNat
  data := fread file phdr.offset.toNat phdr.filesz.toNat
  filesz := phdr.filesz.toNat
  memsz := phdr.memsz.toNat

/-- The headers that are loaded, from the `i`th on, of which `n` are left. -/
def loadedFrom (file : List Byte) (ehdr : Ehdr) (n i : ℕ) : List Phdr :=
  ((List.range' i n).filterMap (readPhdr file ehdr)).filter Phdr.isLoaded

/-- The headers of an ELF32 file for ARM that are loaded. -/
def loadedHeaders (file : List Byte) : List Phdr :=
  match readEhdr file with
  | none => []
  | some ehdr => if ehdr.isArmElf then loadedFrom file ehdr ehdr.phnum.toNat 0 else []

/-- A byte of the RAM that no later header overwrites. -/
def Kept (file : List Byte) (phdr : Phdr) (later : List Phdr) (i : ℕ) : Prop :=
  ∀ phdr' ∈ later, ¬ (phdr'.segment file).Covers ((phdr.segment file).index + i)

/-- The RAM holds the bytes of the file for every loaded header, and zeros behind them. -/
def Contents (file : List Byte) (ram : Buffer Byte) : Prop :=
  ∀ phdr later, phdr :: later <:+ loadedHeaders file → ∀ i, Kept file phdr later i →
    (i < phdr.filesz.toNat →
      file[phdr.offset.toNat + i]? = some (ram.elem ((phdr.segment file).index + i))) ∧
    (phdr.filesz.toNat ≤ i → i < phdr.memsz.toNat → ram.elem ((phdr.segment file).index + i) = 0)

/-- Every write is in the RAM, and leaves it as it should be. -/
def LoadsElf (file : List Byte) (p : Platform) : Prop :=
  ∃ entry p', platformLoadElf (some file) p = some (entry, p') ∧ Contents file p'.ram

/-- Every loaded segment ends in the RAM, and the file has the data that it asks for. -/
def Loadable (file : List Byte) : Prop :=
  ∀ phdr later, phdr :: later <:+ loadedHeaders file →
    (phdr.segment file).Fits ramSize.toNat ∧
    ∀ i < phdr.filesz.toNat, Kept file phdr later i → phdr.offset.toNat + i < file.length

/-! ## What is loaded -/

section
variable {file : List Byte} {p : Platform}

theorem length_fread (pos n : ℕ) : (fread file pos n).length = min n (file.length - pos) := by
  rw [fread, List.length_take, List.length_drop]

theorem getElem_fread {pos n i : ℕ} (hi : i < (fread file pos n).length) :
    file[pos + i]? = some (fread file pos n)[i] := by
  have hlen : pos + i < file.length := by
    rw [length_fread] at hi
    omega
  rw [List.getElem?_eq_getElem hlen]
  simp only [fread, List.getElem_take, List.getElem_drop]

theorem copySegment_eq (h : p.WellFormed) (phdr : Phdr) :
    copySegment file phdr p = (p.ram.load (phdr.segment file)).map fun ram => { p with ram } := by
  have hdata : copyData file phdr (phdr.loadAddr - ramBase).toNat p.ram =
      p.ram.sets (phdr.segment file).index (phdr.segment file).data := by
    rw [copyData]
    split_ifs with hpos
    · rfl
    · have hzero : phdr.filesz.toNat = 0 := by
        rw [BitVec.lt_def] at hpos
        exact Nat.eq_zero_of_not_pos hpos
      rw [Phdr.segment, hzero]
      rfl
  have hzeros : ∀ ram : Buffer Byte, zeroBss phdr (phdr.loadAddr - ramBase).toNat ram =
      ram.sets ((phdr.segment file).index + (phdr.segment file).filesz)
        (List.replicate ((phdr.segment file).memsz - (phdr.segment file).filesz) 0) := by
    intro ram
    rw [zeroBss]
    split_ifs with hlt
    · rw [BitVec.toNat_sub_of_le (BitVec.le_of_lt hlt)]
      rfl
    · have hzero : (phdr.segment file).memsz - (phdr.segment file).filesz = 0 := by
        rw [BitVec.lt_def] at hlt
        exact Nat.sub_eq_zero_of_le (not_lt.1 hlt)
      rw [hzero]
      rfl
  simp only [copySegment, Buffer.load, h.ramBase, hdata, hzeros, Option.bind_eq_bind,
    Option.map_bind]
  refine congrArg (Option.bind _) (funext fun ram => ?_)
  exact Option.map_eq_bind.symm

/-- The second test is never passed behind the first. -/
theorem loadSegment_eq (h : p.WellFormed) {phdr : Phdr} (htype : phdr.type = ptLoad) :
    loadSegment file phdr p =
      if phdr.isLoaded then (p.ram.load (phdr.segment file)).map fun ram => { p with ram }
      else some p := by
  have hloaded : phdr.isLoaded = !phdr.outside p := by
    rw [Phdr.isLoaded, Phdr.outside, h.ramBase, h.ramSize, decide_eq_true htype, Bool.true_and]
  rw [loadSegment, copySegment_eq h, hloaded]
  by_cases hout : phdr.outside p
  · have hsecond : ¬ (p.ramBase ≤ phdr.loadAddr ∧
        phdr.loadAddr + phdr.memsz ≤ p.ramBase + p.ramSize) := by
      rintro ⟨h₁, h₂⟩
      simp only [Phdr.outside, Bool.or_eq_true, decide_eq_true_eq] at hout
      rcases hout with hout | hout
      · exact absurd h₁ (BitVec.not_le.2 hout)
      · exact absurd h₂ (BitVec.not_le.2 hout)
    rw [if_pos hout, if_neg hsecond, hout]
    rfl
  · have hin : phdr.outside p = false := by simpa using hout
    rw [if_neg hout, hin]
    rfl

theorem Platform.WellFormed.setRamBuffer (h : p.WellFormed) {ram : Buffer Byte}
    (hsize : ram.size = p.ram.size) : ({ p with ram } : Platform).WellFormed :=
  { h with ram := hsize.trans h.ram }

/-- **The loop** loads the headers that are loaded, one after the other. -/
theorem loadHeaders_eq (h : p.WellFormed) (ehdr : Ehdr) (n i : ℕ) :
    loadHeaders file ehdr n i p =
      (p.ram.loadAll ((loadedFrom file ehdr n i).map (Phdr.segment file))).map
        fun ram => { p with ram } := by
  induction n generalizing i p with
  | zero => rfl
  | succ n ih =>
    rw [loadHeaders, loadedFrom, List.range'_succ]
    cases hread : readPhdr file ehdr i with
    | none =>
      rw [List.filterMap_cons_none hread]
      exact ih h (i + 1)
    | some phdr =>
      rw [List.filterMap_cons_some hread]
      by_cases htype : phdr.type = ptLoad
      · have hskip : (phdr.type ≠ ptLoad) = False := by simp [htype]
        simp only [hskip, if_false, loadSegment_eq h htype]
        by_cases hloaded : phdr.isLoaded
        · rw [if_pos hloaded, List.filter_cons_of_pos hloaded, List.map_cons, Buffer.loadAll]
          cases hram : p.ram.load (phdr.segment file) with
          | none => rfl
          | some ram => exact ih (h.setRamBuffer (Buffer.size_load hram)) (i + 1)
        · rw [if_neg hloaded, List.filter_cons_of_neg hloaded]
          exact ih h (i + 1)
      · have hloaded : ¬ phdr.isLoaded := by
          rw [Phdr.isLoaded, decide_eq_false htype]
          exact Bool.false_ne_true
        rw [List.filter_cons_of_neg hloaded]
        simp only [htype, ne_eq, not_false_eq_true, if_true]
        exact ih h (i + 1)

/-- The RAM behind the loader, where the file is one. -/
theorem platformLoadElf_eq (file : List Byte) (h : p.WellFormed) :
    ∃ entry, platformLoadElf (some file) p =
      (p.ram.loadAll ((loadedHeaders file).map (Phdr.segment file))).map
        fun ram => (entry, { p with ram }) := by
  simp only [platformLoadElf, loadedHeaders]
  cases readEhdr file with
  | none => exact ⟨none, rfl⟩
  | some ehdr =>
    by_cases helf : ehdr.isArmElf
    · refine ⟨some ehdr.entry, ?_⟩
      simp only [helf, if_true, loadHeaders_eq h, Option.map_map]
      rfl
    · refine ⟨none, ?_⟩
      simp only [helf, Bool.false_eq_true, if_false]
      rfl

/-- What the loader leaves behind the segments that end in the RAM. -/
theorem contents_of_loadable (hload : Loadable file) {b ram : Buffer Byte}
    (hram : b.loadAll ((loadedHeaders file).map (Phdr.segment file)) = some ram) :
    Contents file ram := by
  intro phdr later hsuffix i hkept
  have hlen : (phdr.segment file).data.length ≤ (phdr.segment file).filesz := by
    rw [Phdr.segment, length_fread]
    exact Nat.min_le_left _ _
  have hlater : ∀ seg ∈ later.map (Phdr.segment file),
      ¬ seg.Covers ((phdr.segment file).index + i) := by
    intro seg hseg
    obtain ⟨phdr', hmem, rfl⟩ := List.mem_map.1 hseg
    exact hkept phdr' hmem
  have hsegs := hsuffix.map (Phdr.segment file)
  rw [List.map_cons] at hsegs
  obtain ⟨hdata, hzeros⟩ := Buffer.loadAll_contents hram hsegs hlen hlater
  refine ⟨fun hi => ?_, hzeros⟩
  have hi' : i < (phdr.segment file).data.length := by
    have hfile := (hload phdr later hsuffix).2 i hi hkept
    rw [Phdr.segment, length_fread]
    omega
  rw [hdata hi']
  exact getElem_fread hi'

/-- **The loader stays in the RAM**, and loads what it should, exactly if every loaded segment
    ends there and the file has its data. -/
theorem loadsElf_iff (h : p.WellFormed) : LoadsElf file p ↔ Loadable file := by
  obtain ⟨entry, heq⟩ := platformLoadElf_eq file h
  constructor
  · rintro ⟨entry', p', hload, hcontents⟩
    rw [heq] at hload
    obtain ⟨ram, hram, hp'⟩ := Option.map_eq_some_iff.1 hload
    obtain rfl : { p with ram } = p' := congrArg Prod.snd hp'
    intro phdr later hsuffix
    constructor
    · have hfits := Buffer.loadAll_isSome_iff.1 (Option.isSome_of_mem hram)
      rw [← h.ram]
      exact hfits _ (List.mem_map_of_mem (hsuffix.subset List.mem_cons_self))
    · intro i hi hkept
      have hbyte := (hcontents phdr later hsuffix i hkept).1 hi
      exact (List.getElem?_eq_some_iff.1 hbyte).1
  · intro hload
    have hfits : ∀ seg ∈ (loadedHeaders file).map (Phdr.segment file), seg.Fits p.ram.size := by
      intro seg hseg
      obtain ⟨phdr, hmem, rfl⟩ := List.mem_map.1 hseg
      obtain ⟨pre, later, hsplit⟩ := List.append_of_mem hmem
      rw [h.ram]
      exact (hload phdr later ⟨pre, hsplit.symm⟩).1
    obtain ⟨ram, hram⟩ := Option.isSome_iff_exists.1 (Buffer.loadAll_isSome_iff.2 hfits)
    refine ⟨entry, { p with ram }, ?_, contents_of_loadable hload hram⟩
    rw [heq, hram]
    rfl

end

/-! ## Runs -/

/-- The header of an ELF32 file for ARM with one program header behind it, and that header. -/
def oneHeaderElf (offset paddr filesz memsz : ℕ) : List Byte :=
  [0x7f, 0x45, 0x4c, 0x46, 1, 1, 1, 0, 0, 0, 0, 0, 0, 0, 0, 0] ++ leBytes 2 2 ++ leBytes 2 40 ++
    leBytes 4 1 ++ leBytes 4 0x80000000 ++ leBytes 4 52 ++ leBytes 4 0 ++ leBytes 4 0 ++
    leBytes 2 52 ++ leBytes 2 32 ++ leBytes 2 1 ++ leBytes 2 0 ++ leBytes 2 0 ++ leBytes 2 0 ++
    leBytes 4 1 ++ leBytes 4 offset ++ leBytes 4 paddr ++ leBytes 4 paddr ++ leBytes 4 filesz ++
    leBytes 4 memsz ++ leBytes 4 5 ++ leBytes 4 4

/-- Its own first 4 bytes, in 8 bytes of the RAM. -/
theorem loadsElf_oneHeader : LoadsElf (oneHeaderElf 0 0x80001000 4 8) platformInit := by
  refine (loadsElf_iff platformInit_wellFormed).2 ?_
  intro phdr later hsuffix
  have hheaders : loadedHeaders (oneHeaderElf 0 0x80001000 4 8) =
      [⟨1, 0, 0x80001000, 0x80001000, 4, 8⟩] := by decide
  rw [hheaders, List.suffix_cons_iff, List.suffix_nil] at hsuffix
  obtain ⟨rfl, rfl⟩ : phdr = ⟨1, 0, 0x80001000, 0x80001000, 4, 8⟩ ∧ later = [] := by
    simpa using hsuffix
  refine ⟨⟨by decide, by decide⟩, fun i hi _ => ?_⟩
  have hlength : (oneHeaderElf 0 0x80001000 4 8).length = 84 := by decide
  have hi' : i < 4 := hi
  rw [hlength]
  show 0 + i < 84
  omega

/-- Two bytes of the file for the last byte of the RAM. -/
theorem loader_leaves_ram : ¬ LoadsElf (oneHeaderElf 0 0x8FFFFFFF 2 1) platformInit := by
  rintro ⟨entry, p', hload, -⟩
  have hnone : (platformLoadElf (some (oneHeaderElf 0 0x8FFFFFFF 2 1)) platformInit).isNone := by
    decide +kernel
  rw [hload] at hnone
  cases hnone

end PocketDarwin.Simu
