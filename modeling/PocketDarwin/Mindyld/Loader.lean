/-
  The loaders of `mindyld`: `elf_loader.c` and `macho_loader.c`.

  A loader asks the system for files, memory and mappings, and each request may fail.
  What the system answers to the requests of one call of `mindyld_load` is given
  (`Answers`), so that a call that fails at any step is one with such answers.  Pointers,
  `size_t` and `ssize_t` have `w` bits.

  The mappings are those that `mmap` returned and that were not yet passed to `munmap`
  whole.  What is read into a mapping is left out, as are the offsets, flags and
  protections the system is asked for: nothing that is modelled reads them.  Where it is
  read to is not: an access outside of the mapping ends the process (`none`).

  * `loadSegments_eq`: what the loop over the segments does, and when it has such an access.
-/
import PocketDarwin.Span

namespace PocketDarwin.Mindyld

variable {w : ℕ}

/-! ## The system -/

/-- A `mindyld_handle_t *` that is not `NULL`. -/
abbrev Handle := ℕ

/-- What the system answers to the requests of one `mindyld_load`. -/
structure Answers (w : ℕ) where
  /-- `open` and `read` of `detect_binary_format`, and the bytes that were read -/
  openMagic : ℤ
  readMagic : BitVec w
  magic : Fin 4 → BitVec 8
  /-- `open` of the loader, and `read` of the header -/
  openFile : ℤ
  readHeader : BitVec w
  header : Memory w
  /-- `malloc`, `lseek` and `read` of the program headers or load commands; `mem` is the
      memory with them in it -/
  table : BitVec w
  seekTable : ℤ
  readTable : BitVec w
  mem : Memory w
  mmap : BitVec w
  /-- `lseek`, `read` and `mprotect` for the segment with this number -/
  seek : ℕ → ℤ
  read : ℕ → BitVec w
  protect : ℕ → ℤ
  /-- `malloc` of the handle -/
  handle : Option Handle

/-- A mapping: its base and the length it was mapped with. -/
abbrev Mapping (w : ℕ) := BitVec w × BitVec w

/-- `MAP_FAILED` -/
def mapFailed (w : ℕ) : BitVec w := BitVec.allOnes w

/-- The mappings after `mmap` returned `base` for `length`. -/
def mmap (base length : BitVec w) (maps : List (Mapping w)) : List (Mapping w) :=
  if base = mapFailed w then maps else (base, length) :: maps

/-- `munmap` -/
def munmap (base length : BitVec w) (maps : List (Mapping w)) : List (Mapping w) :=
  maps.filter (· ≠ (base, length))

/-! ## Segments -/

/-- The fields of a program header or of a segment command that the loaders use:
    `p_vaddr`, `p_memsz` and `p_filesz`, or `vmaddr`, `vmsize` and `filesize`. -/
structure Segment where
  vaddr : BitVec 64
  memsz : BitVec 64
  filesz : BitVec 64

/-- `min_addr` and `max_addr` -/
def addresses (segs : List Segment) : BitVec 64 × BitVec 64 :=
  segs.foldl
    (fun m seg =>
      (if seg.vaddr < m.1 then seg.vaddr else m.1,
       if m.2 < seg.vaddr + seg.memsz then seg.vaddr + seg.memsz else m.2))
    (BitVec.allOnes 64, 0)

/-- `total_size`, as it is passed to `mmap` and `munmap`. -/
def totalSize (w : ℕ) (segs : List Segment) : BitVec w :=
  ((addresses segs).2 - (addresses segs).1).setWidth w

/-- `n` bytes at a distance from the base are in the mapping, which is none if `mmap` failed. -/
def InMapping (base total : BitVec w) (distance n : ℕ) : Prop :=
  n = 0 ∨ distance + n ≤ if base = mapFailed w then 0 else total.toNat

instance (base total : BitVec w) (distance n : ℕ) : Decidable (InMapping base total distance n) :=
  inferInstanceAs (Decidable (_ ∨ _))

/-- `segment_addr`, as its distance from the base. -/
def place (w : ℕ) (min : BitVec 64) (seg : Segment) : ℕ := ((seg.vaddr - min).setWidth w).toNat

/-- The bytes that a `read` with this result has put into memory. -/
def bytesRead (result : BitVec w) : ℕ := if result.msb then 0 else result.toNat

/-- "Zero out BSS section" stays in the mapping. -/
def ZeroesIn (base total : BitVec w) (min : BitVec 64) (seg : Segment) : Prop :=
  seg.filesz < seg.memsz →
    InMapping base total (place w min seg + (seg.filesz.setWidth w).toNat) ((seg.memsz - seg.filesz).setWidth w).toNat

instance (base total : BitVec w) (min : BitVec 64) (seg : Segment) : Decidable (ZeroesIn base total min seg) :=
  inferInstanceAs (Decidable (_ → _))

/-- The loop that loads the segments, with the number `i` of the next one: the value that is
    returned, and the mappings. -/
def loadSegments (sys : Answers w) (base total : BitVec w) (min : BitVec 64) (maps : List (Mapping w)) :
    ℕ → List Segment → Option (BitVec w × List (Mapping w))
  | _, [] => some (base, maps)
  | i, seg :: segs =>
    if sys.seek i < 0 then some (0, munmap base total maps)
    else if ¬ InMapping base total (place w min seg) (bytesRead (sys.read i)) then none
    else if sys.read i ≠ seg.filesz.setWidth w then some (0, munmap base total maps)
    else if ¬ ZeroesIn base total min seg then none
    else if sys.protect i < 0 then some (0, munmap base total maps)
    else loadSegments sys base total min maps (i + 1) segs

/-- What both loaders do once they know the segments. -/
def mapSegments (sys : Answers w) (segs : List Segment) (maps : List (Mapping w)) :
    Option (BitVec w × List (Mapping w)) :=
  let base := sys.mmap
  let maps := mmap base (totalSize w segs) maps
  -- an error of `mmap` is not `NULL`
  if base = 0 then some (0, maps)
  else loadSegments sys base (totalSize w segs) (addresses segs).1 maps 0 segs

/-! ## ELF -/

/-- `e_ident[i]` -/
def eIdent (header : Memory w) (i : BitVec w) : BitVec 8 := header i

def eType (header : Memory w) : BitVec 16 := header.load16 16
def ePhentsize (header : Memory w) : BitVec 16 := header.load16 54
def ePhnum (header : Memory w) : BitVec 16 := header.load16 56

def etExec : BitVec 16 := 2
def etDyn : BitVec 16 := 3
def ptLoad : BitVec 32 := 1

/-- Whether `elf_validate_header` returns `MINDYLD_OK`. -/
def elfValidateHeader (header : Memory w) : Bool :=
  eIdent header 0 = 0x7f ∧ eIdent header 1 = 0x45 ∧ eIdent header 2 = 0x4c ∧ eIdent header 3 = 0x46 ∧
  (eIdent header 4 = 1 ∨ eIdent header 4 = 2) ∧
  (eIdent header 5 = 1 ∨ eIdent header 5 = 2) ∧
  eIdent header 6 = 1 ∧
  (eType header = etDyn ∨ eType header = etExec)

/-- `header->e_phentsize * header->e_phnum`, a product of `int`s. -/
def phdrsSize (w : ℕ) {v : ℕ} (header : Memory v) : BitVec w :=
  ((ePhentsize header).setWidth 32 * (ePhnum header).setWidth 32).signExtend w

/-- `phdrs[i]`; an `elf64_phdr_t` has 56 bytes. -/
def phdr (sys : Answers w) (i : ℕ) : BitVec w := sys.table + BitVec.ofNat w (56 * i)

/-- The program headers of type `PT_LOAD`. -/
def elfSegments (sys : Answers w) : List Segment :=
  (List.range (ePhnum sys.header).toNat).filterMap fun i =>
    let p := phdr sys i
    if sys.mem.load32 p = ptLoad then
      some ⟨sys.mem.load64 (p + 16), sys.mem.load64 (p + 40), sys.mem.load64 (p + 32)⟩
    else none

/-- Whether the program headers are there. -/
def elfReadTable (sys : Answers w) : Bool :=
  sys.table ≠ 0 ∧ ¬ sys.seekTable < 0 ∧ sys.readTable = phdrsSize w sys.header

/-- `elf_map_segments` -/
def elfMapSegments (sys : Answers w) (maps : List (Mapping w)) : Option (BitVec w × List (Mapping w)) :=
  if elfReadTable sys then mapSegments sys (elfSegments sys) maps else some (0, maps)

/-! ## Mach-O -/

def mhMagic : BitVec 32 := 0xfeedface
def mhMagic64 : BitVec 32 := 0xfeedfacf

def mhExecute : BitVec 32 := 0x2
def mhDylib : BitVec 32 := 0x6
def mhDylinker : BitVec 32 := 0x7
def mhBundle : BitVec 32 := 0x8

def lcSegment64 : BitVec 32 := 0x19

def filetype (header : Memory w) : BitVec 32 := header.load32 12
def ncmds (header : Memory w) : BitVec 32 := header.load32 16
def sizeofcmds (header : Memory w) : BitVec 32 := header.load32 20

/-- Whether `macho_validate_header` returns `MINDYLD_OK`. -/
def machoValidateHeader (header : Memory w) : Bool :=
  (header.load32 0 = mhMagic64 ∨ header.load32 0 = mhMagic) ∧
  (filetype header = mhDylib ∨ filetype header = mhExecute ∨ filetype header = mhDylinker ∨
    filetype header = mhBundle) ∧
  (sizeofcmds header).toNat ≤ 10 * 1024 * 1024

/-- The load commands from `cmd` on, as many as there are rounds of the loop. -/
def loadCommands (mem : Memory w) : ℕ → BitVec w → List (BitVec w)
  | 0, _ => []
  | rounds + 1, cmd => cmd :: loadCommands mem rounds (cmd + (mem.load32 (cmd + 4)).setWidth w)

/-- The commands `LC_SEGMENT_64`. -/
def machoSegments (sys : Answers w) : List Segment :=
  (loadCommands sys.mem (ncmds sys.header).toNat sys.table).filterMap fun cmd =>
    if sys.mem.load32 cmd = lcSegment64 then
      some ⟨sys.mem.load64 (cmd + 24), sys.mem.load64 (cmd + 32), sys.mem.load64 (cmd + 48)⟩
    else none

/-- Whether the load commands are there, and a segment among them. -/
def machoReadTable (sys : Answers w) : Bool :=
  sys.table ≠ 0 ∧ ¬ sys.seekTable < 0 ∧ sys.readTable = (sizeofcmds sys.header).setWidth w ∧
  (addresses (machoSegments sys)).1 ≠ BitVec.allOnes 64

/-- `macho_map_segments` -/
def machoMapSegments (sys : Answers w) (maps : List (Mapping w)) : Option (BitVec w × List (Mapping w)) :=
  if machoReadTable sys then mapSegments sys (machoSegments sys) maps else some (0, maps)

/-! ## Handles -/

/-- `mindyld_handle_t` -/
structure Object (w : ℕ) where
  baseAddress : BitVec w
  size : BitVec w
  isExecutable : Bool
  next : Option Handle

/-- The linker, and what of the system belongs to it. -/
structure Linker (w : ℕ) where
  /-- What is in a block of `malloc`. -/
  heap : Handle → Object w
  /-- The blocks that were returned by `malloc` and not yet freed. -/
  live : List Handle
  maps : List (Mapping w)
  loadedObjects : Option Handle

namespace Linker

def next (s : Linker w) (h : Handle) : Option Handle := (s.heap h).next

/-- `h->next = k` -/
def setNext (s : Linker w) (h : Handle) (k : Option Handle) : Linker w :=
  { s with heap := Function.update s.heap h { s.heap h with next := k } }

/-- The block `h`, taken and filled in. -/
def alloc (s : Linker w) (h : Handle) (o : Object w) : Linker w :=
  { s with heap := Function.update s.heap h o, live := h :: s.live }

/-- `free` -/
def free (s : Linker w) (h : Handle) : Linker w := { s with live := s.live.erase h }

end Linker

/-- The end of both loaders: `mapped` is what was mapped. -/
def createHandle (sys : Answers w) (isExecutable : Bool) (mapped : BitVec w × List (Mapping w)) (s : Linker w) :
    Linker w × Option Handle :=
  let s := { s with maps := mapped.2 }
  if mapped.1 = 0 then (s, none)
  else
    match sys.handle with
    | none => (s, none)
    -- the size is left to be calculated
    | some h => (s.alloc h ⟨mapped.1, 0, isExecutable, none⟩, some h)

/-- `elf_load` -/
def elfLoad (sys : Answers w) (s : Linker w) : Option (Linker w × Option Handle) :=
  if sys.openFile < 0 then some (s, none)
  else if sys.readHeader ≠ 64 then some (s, none)
  else if ¬ elfValidateHeader sys.header then some (s, none)
  else (elfMapSegments sys s.maps).map fun mapped => createHandle sys (eType sys.header = etExec) mapped s

/-- `macho_load` -/
def machoLoad (sys : Answers w) (s : Linker w) : Option (Linker w × Option Handle) :=
  if sys.openFile < 0 then some (s, none)
  else if sys.readHeader ≠ 32 then some (s, none)
  else if ¬ machoValidateHeader sys.header then some (s, none)
  else (machoMapSegments sys s.maps).map fun mapped => createHandle sys (filetype sys.header = mhExecute) mapped s

/-! ## The loop -/

namespace Answers
variable (sys : Answers w)

/-- The segment with the number `p.2` can be read and protected. -/
def Grants (p : Segment × ℕ) : Prop :=
  ¬ sys.seek p.2 < 0 ∧ sys.read p.2 = p.1.filesz.setWidth w ∧ ¬ sys.protect p.2 < 0

instance (p : Segment × ℕ) : Decidable (sys.Grants p) := inferInstanceAs (Decidable (_ ∧ _ ∧ _))

/-- No access of its round is outside of the mapping. -/
def Stays (total : BitVec w) (min : BitVec 64) (p : Segment × ℕ) : Prop :=
  ¬ sys.seek p.2 < 0 →
    InMapping sys.mmap total (place w min p.1) (bytesRead (sys.read p.2)) ∧
      (sys.read p.2 = p.1.filesz.setWidth w → ZeroesIn sys.mmap total min p.1)

instance (total : BitVec w) (min : BitVec 64) (p : Segment × ℕ) : Decidable (sys.Stays total min p) :=
  inferInstanceAs (Decidable (_ → _))

/-- No access of the loop is: its rounds end with the first one that is not granted. -/
def StaysIn (total : BitVec w) (min : BitVec 64) : List (Segment × ℕ) → Prop
  | [] => True
  | p :: l => sys.Stays total min p ∧ (sys.Grants p → StaysIn total min l)

instance decidableStaysIn (total : BitVec w) (min : BitVec 64) :
    ∀ l, Decidable (sys.StaysIn total min l)
  | [] => isTrue trivial
  | p :: l =>
    have := decidableStaysIn total min l
    inferInstanceAs (Decidable (sys.Stays total min p ∧ (sys.Grants p → sys.StaysIn total min l)))

/-- Told by the numbers of the segments: those that are reached stay. -/
theorem staysIn_iff {sys : Answers w} {total : BitVec w} {min : BitVec 64} {segs : List Segment} (i : ℕ) :
    sys.StaysIn total min (segs.zipIdx i) ↔ ∀ k seg, segs[k]? = some seg →
      (∀ j < k, ∀ seg', segs[j]? = some seg' → sys.Grants (seg', i + j)) → sys.Stays total min (seg, i + k) := by
  induction segs generalizing i with
  | nil => simp [StaysIn]
  | cons seg segs ih =>
    rw [List.zipIdx_cons, StaysIn, ih (i + 1)]
    constructor
    · rintro ⟨hfirst, hrest⟩ (_ | k) seg' hseg' hgrants
      · cases hseg'
        exact hfirst
      · rw [show i + (k + 1) = i + 1 + k by omega]
        refine hrest (hgrants 0 k.succ_pos seg rfl) k seg' hseg' fun j hj f hf => ?_
        rw [show i + 1 + j = i + (j + 1) by omega]
        exact hgrants (j + 1) (by omega) f hf
    · intro h
      refine ⟨h 0 seg rfl fun j hj => absurd hj j.not_lt_zero, fun hg k seg' hseg' hgrants => ?_⟩
      rw [show i + 1 + k = i + (k + 1) by omega]
      refine h (k + 1) seg' hseg' fun j hj f hf => ?_
      rcases j with _ | j
      · cases hf
        exact hg
      · rw [show i + (j + 1) = i + 1 + j by omega]
        exact hgrants j (by omega) f hf

end Answers

/-- **The loop** over the segments. -/
theorem loadSegments_eq (sys : Answers w) (total : BitVec w) (min : BitVec 64) (maps : List (Mapping w)) (i : ℕ)
    (segs : List Segment) :
    loadSegments sys sys.mmap total min maps i segs =
      if sys.StaysIn total min (segs.zipIdx i) then
        if ∀ p ∈ segs.zipIdx i, sys.Grants p then some (sys.mmap, maps) else some (0, munmap sys.mmap total maps)
      else none := by
  induction segs generalizing i with
  | nil => simp [loadSegments, Answers.StaysIn]
  | cons seg segs ih =>
    rw [loadSegments, ih (i + 1), List.zipIdx_cons]
    simp only [List.forall_mem_cons, Answers.StaysIn]
    by_cases hs : sys.seek i < 0
    · rw [if_pos hs, if_pos ⟨fun h => absurd hs h, fun h => absurd hs h.1⟩, if_neg fun h => h.1.1 hs]
    rw [if_neg hs]
    by_cases hread : InMapping sys.mmap total (place w min seg) (bytesRead (sys.read i))
    swap
    · rw [if_pos hread, if_neg fun h => hread (h.1 hs).1]
    rw [if_neg (not_not_intro hread)]
    by_cases hr : sys.read i = seg.filesz.setWidth w
    swap
    · rw [if_pos hr, if_pos ⟨fun _ => ⟨hread, fun h => absurd h hr⟩, fun h => absurd h.2.1 hr⟩,
        if_neg fun h => hr h.1.2.1]
    rw [if_neg (not_not_intro hr)]
    by_cases hzero : ZeroesIn sys.mmap total min seg
    swap
    · rw [if_pos hzero, if_neg fun h => hzero ((h.1 hs).2 hr)]
    rw [if_neg (not_not_intro hzero)]
    have hstays : sys.Stays total min (seg, i) := fun _ => ⟨hread, fun _ => hzero⟩
    by_cases hp : sys.protect i < 0
    · rw [if_pos hp, if_pos ⟨hstays, fun h => absurd hp h.2.2⟩, if_neg fun h => h.1.2.2 hp]
    · have hg : sys.Grants (seg, i) := ⟨hs, hr, hp⟩
      rw [if_neg hp]
      simp only [hg, hstays, true_and, true_implies]

end PocketDarwin.Mindyld
