/-
  The Mach-O loader of `boot/kickstart/boot.c`.

  The bootloader runs with pointers of 32 bits or of 64 bits, so the width `w` of an
  address is a parameter; a `size_t` and a `uintptr_t` have it, too.  The loader works
  on the memory itself: the image is a part of it, and a segment may be copied over the
  image.  What is read of the image and what is written is recorded as spans; what
  is only printed (the messages, `max_vaddr`) is left out, but the fields that are
  printed are read.
-/
import PocketDarwin.Span

namespace PocketDarwin.Kickstart

/-! ## The format -/

def mhMagic : BitVec 32 := 0xfeedface
def mhMagic64 : BitVec 32 := 0xfeedfacf
def mhCigam : BitVec 32 := 0xcefaedfe
def mhCigam64 : BitVec 32 := 0xcffaedfe

def lcSegment : BitVec 32 := 0x1
def lcSegment64 : BitVec 32 := 0x19
def lcMain : BitVec 32 := 0x28
def lcUnixthread : BitVec 32 := 0x5

/-- The fields of a segment command that the loader uses. -/
structure Segment where
  vmaddr : BitVec 64
  vmsize : BitVec 64
  fileoff : BitVec 64
  filesize : BitVec 64
  deriving DecidableEq

section
variable {w : ℕ}

/-- `segment_command_64_t` -/
def segment64 (mem : Memory w) (cmd : BitVec w) : Segment where
  vmaddr := mem.load64 (cmd + 24)
  vmsize := mem.load64 (cmd + 32)
  fileoff := mem.load64 (cmd + 40)
  filesize := mem.load64 (cmd + 48)

/-- `segment_command_32_t`, whose fields have 32 bits. -/
def segment32 (mem : Memory w) (cmd : BitVec w) : Segment where
  vmaddr := (mem.load32 (cmd + 24)).setWidth 64
  vmsize := (mem.load32 (cmd + 28)).setWidth 64
  fileoff := (mem.load32 (cmd + 32)).setWidth 64
  filesize := (mem.load32 (cmd + 36)).setWidth 64

/-! ## The loader -/

/-- `kernel_info_t` -/
structure KernelInfo where
  entryPoint : BitVec 64
  loadBase : BitVec 64
  is64bit : Bool
  isValid : Bool

/-- The variables of `macho_load`, with the memory and what was read and written. -/
structure Loader (w : ℕ) where
  mem : Memory w
  cmd : BitVec w
  minVaddr : BitVec 64
  entryPoint : BitVec 64
  reads : List (Span w)
  writes : List (Span w)

/-- `memcpy` -/
def memcpy (dest src : BitVec w) (n : BitVec w) (mem : Memory w) : Memory w := mem.copy dest src n.toNat

/-- `memset` -/
def memset (s : BitVec w) (c : BitVec 8) (n : BitVec w) (mem : Memory w) : Memory w := mem.fill s c n.toNat

/-- The part under `seg->filesize > 0`; `segment` reads the command. -/
def loadSegment (imageBase : BitVec w) (segment : Memory w → Segment) (s : Loader w) : Loader w :=
  let seg := segment s.mem
  let dest := seg.vmaddr.setWidth w
  let src := imageBase + seg.fileoff.setWidth w
  let n := seg.filesize.setWidth w
  let s := { s with
    mem := memcpy dest src n s.mem
    reads := ⟨src, n.toNat⟩ :: s.reads
    writes := ⟨dest, n.toNat⟩ :: s.writes }
  -- the sizes are read again from behind the copy
  let seg := segment s.mem
  if seg.filesize < seg.vmsize then
    let rest := dest + seg.filesize.setWidth w
    let n := (seg.vmsize - seg.filesize).setWidth w
    { s with mem := memset rest 0 n s.mem, writes := ⟨rest, n.toNat⟩ :: s.writes }
  else s

/-- The branch of `LC_SEGMENT_64`. -/
def loadSegment64 (imageBase : BitVec w) (s : Loader w) : Loader w :=
  let seg := segment64 s.mem s.cmd
  let s := { s with
    reads := [⟨s.cmd + 8, 16⟩, ⟨s.cmd + 24, 8⟩, ⟨s.cmd + 32, 8⟩, ⟨s.cmd + 48, 8⟩] ++ s.reads
    minVaddr := if 0 < seg.vmsize ∧ seg.vmaddr < s.minVaddr then seg.vmaddr else s.minVaddr }
  if 0 < seg.filesize then
    loadSegment imageBase (fun mem => segment64 mem s.cmd) { s with reads := ⟨s.cmd + 40, 8⟩ :: s.reads }
  else s

/-- The branch of `LC_SEGMENT`. -/
def loadSegment32 (imageBase : BitVec w) (s : Loader w) : Loader w :=
  let seg := segment32 s.mem s.cmd
  let s := { s with reads := [⟨s.cmd + 8, 16⟩, ⟨s.cmd + 24, 4⟩, ⟨s.cmd + 36, 4⟩] ++ s.reads }
  if 0 < seg.filesize then
    loadSegment imageBase (fun mem => segment32 mem s.cmd)
      { s with reads := [⟨s.cmd + 32, 4⟩, ⟨s.cmd + 28, 4⟩] ++ s.reads }
  else s

/-- The branch of `LC_MAIN`. -/
def loadMain (imageBase : BitVec w) (s : Loader w) : Loader w :=
  { s with
    entryPoint := (imageBase + (s.mem.load32 (s.cmd + 8)).setWidth w).setWidth 64
    reads := ⟨s.cmd + 8, 4⟩ :: s.reads }

/-- The branches of the loop. -/
def loadCommand (imageBase : BitVec w) (is64bit : Bool) (s : Loader w) : Loader w :=
  let cmd := s.mem.load32 s.cmd
  let s := { s with reads := ⟨s.cmd, 4⟩ :: s.reads }
  if is64bit ∧ cmd = lcSegment64 then loadSegment64 imageBase s
  else if ¬ is64bit ∧ cmd = lcSegment then loadSegment32 imageBase s
  else if cmd = lcMain ∨ cmd = lcUnixthread then if cmd = lcMain then loadMain imageBase s else s
  else s

/-- `cmd = (load_command_t *)((uint8_t *)cmd + cmd->cmdsize)` -/
def nextCommand (s : Loader w) : Loader w :=
  { s with
    cmd := s.cmd + (s.mem.load32 (s.cmd + 4)).setWidth w
    reads := ⟨s.cmd + 4, 4⟩ :: s.reads }

/-- The loop from the counter `i` on.  `header->ncmds` is read in every round; it has 32
    bits, so that `2 ^ 32` rounds are enough. -/
def loadCommands (imageBase : BitVec w) (is64bit : Bool) : ℕ → ℕ → Loader w → Loader w
  | 0, _, s => s
  | rounds + 1, i, s =>
    let ncmds := s.mem.load32 (imageBase + 16)
    let s := { s with reads := ⟨imageBase + 16, 4⟩ :: s.reads }
    if i < ncmds.toNat then
      loadCommands imageBase is64bit rounds (i + 1) (nextCommand (loadCommand imageBase is64bit s))
    else s

/-- The tests of the magic number: whether the image has 64 bits, if it is one. -/
def magicBits (magic : BitVec 32) : Option Bool :=
  if magic = mhMagic64 then some true
  else if magic = mhMagic then some false
  else if magic = mhCigam64 then some true
  else if magic = mhCigam then some false
  else none

/-- `macho_load`, with the variables at the end. -/
def machoLoad (imageBase imageSize : BitVec w) (mem : Memory w) : KernelInfo × Loader w :=
  let info : KernelInfo := ⟨0, 0, false, false⟩
  let s : Loader w := ⟨mem, 0, BitVec.allOnes 64, 0, [], []⟩
  if imageSize.toNat < 32 then (info, s)
  else
    let s := { s with reads := [⟨imageBase, 4⟩] }
    match magicBits (mem.load32 imageBase) with
    | none => (info, s)
    | some is64bit =>
      let s := { s with
        cmd := imageBase + if is64bit then 32 else 28
        reads := ⟨imageBase + 4, 4⟩ :: s.reads }
      let s := loadCommands imageBase is64bit (2 ^ 32) 0 s
      (⟨s.entryPoint, s.minVaddr, is64bit, true⟩, s)

end

end PocketDarwin.Kickstart
