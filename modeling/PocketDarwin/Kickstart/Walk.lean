/-
  The walk of the Mach-O loader over the load commands of an image.

  The commands of an image are given by the numbers in it: `ncmds` of them, one behind
  the other, each of `cmdsize` bytes.  The loader follows the same numbers, but in the
  memory as its own copies leave it, and checks none of them.
-/
import PocketDarwin.Kickstart.MachO

namespace PocketDarwin.Kickstart

variable {w : ℕ}

/-! ## Images -/

/-- The arguments of `macho_load`, with the memory that it finds. -/
structure Image (w : ℕ) where
  base : BitVec w
  size : BitVec w
  mem : Memory w

namespace Image
variable (image : Image w)

/-- `image_base[0, image_size)` -/
def span : Span w := ⟨image.base, image.size.toNat⟩

/-- The width of an image that passes the tests of the header. -/
def accepted : Option Bool := if image.size.toNat < 32 then none else magicBits (image.mem.load32 image.base)

def ncmds : ℕ := (image.mem.load32 (image.base + 16)).toNat

/-- The offset of a command: the one of the first is the size of the header. -/
def offset (is64bit : Bool) : ℕ → ℕ
  | 0 => if is64bit then 32 else 28
  | i + 1 =>
    let off := offset is64bit i
    off + (image.mem.load32 (image.base + BitVec.ofNat w off + 4)).toNat

/-- The address of a command. -/
def command (is64bit : Bool) (i : ℕ) : BitVec w := image.base + BitVec.ofNat w (image.offset is64bit i)

end Image

/-- The segment that a command describes. -/
def segmentAt (is64bit : Bool) (mem : Memory w) (cmd : BitVec w) : Option Segment :=
  if is64bit ∧ mem.load32 cmd = lcSegment64 then some (segment64 mem cmd)
  else if ¬ is64bit ∧ mem.load32 cmd = lcSegment then some (segment32 mem cmd)
  else none

/-! ## What is read and written for a command -/

/-- The fields that are read of a segment command of 64 bits. -/
def segmentReads64 (mem : Memory w) (cmd : BitVec w) : List (Span w) :=
  [⟨cmd + 8, 16⟩, ⟨cmd + 24, 8⟩, ⟨cmd + 32, 8⟩, ⟨cmd + 48, 8⟩] ++
    if 0 < (segment64 mem cmd).filesize then [⟨cmd + 40, 8⟩] else []

/-- And of one of 32 bits. -/
def segmentReads32 (mem : Memory w) (cmd : BitVec w) : List (Span w) :=
  [⟨cmd + 8, 16⟩, ⟨cmd + 24, 4⟩, ⟨cmd + 36, 4⟩] ++
    if 0 < (segment32 mem cmd).filesize then [⟨cmd + 32, 4⟩, ⟨cmd + 28, 4⟩] else []

/-- The fields that are read of a command. -/
def fieldReads (is64bit : Bool) (mem : Memory w) (cmd : BitVec w) : List (Span w) :=
  [⟨cmd, 4⟩, ⟨cmd + 4, 4⟩] ++
    if is64bit ∧ mem.load32 cmd = lcSegment64 then segmentReads64 mem cmd
    else if ¬ is64bit ∧ mem.load32 cmd = lcSegment then segmentReads32 mem cmd
    else if mem.load32 cmd = lcMain then [⟨cmd + 8, 4⟩]
    else []

namespace Segment
variable (seg : Segment)

/-- The part of the image that is copied. -/
def payload (base : BitVec w) : Span w := ⟨base + seg.fileoff.setWidth w, (seg.filesize.setWidth w).toNat⟩

/-- The memory that is read for a segment, apart from its command. -/
def payloads (base : BitVec w) : List (Span w) := if 0 < seg.filesize then [seg.payload base] else []

/-- Where the payload goes. -/
def copied (w : ℕ) : Span w := ⟨seg.vmaddr.setWidth w, (seg.filesize.setWidth w).toNat⟩

/-- What is zeroed behind it. -/
def zeroed (w : ℕ) : Span w :=
  ⟨seg.vmaddr.setWidth w + seg.filesize.setWidth w, ((seg.vmsize - seg.filesize).setWidth w).toNat⟩

/-- The memory that is written for a segment. -/
def written (w : ℕ) : List (Span w) :=
  if 0 < seg.filesize then seg.copied w :: if seg.filesize < seg.vmsize then [seg.zeroed w] else [] else []

/-- The memory behind the copy of a segment. -/
def load (base : BitVec w) (mem : Memory w) : Memory w :=
  if 0 < seg.filesize then
    let mem := memcpy (seg.copied w).start (seg.payload base).start (seg.filesize.setWidth w) mem
    if seg.filesize < seg.vmsize then memset (seg.zeroed w).start 0 ((seg.vmsize - seg.filesize).setWidth w) mem
    else mem
  else mem

end Segment

/-- What is read for the segment of a command, where it has one. -/
def payloadsAt (base : BitVec w) (is64bit : Bool) (mem : Memory w) (cmd : BitVec w) : List (Span w) :=
  ((segmentAt is64bit mem cmd).map fun seg => seg.payloads base).getD []

/-- What is written. -/
def writtenAt (is64bit : Bool) (mem : Memory w) (cmd : BitVec w) : List (Span w) :=
  ((segmentAt is64bit mem cmd).map fun seg => seg.written w).getD []

/-- What becomes of the memory. -/
def loadAt (base : BitVec w) (is64bit : Bool) (mem : Memory w) (cmd : BitVec w) : Memory w → Memory w :=
  ((segmentAt is64bit mem cmd).map fun seg => seg.load base).getD id

/-- All that is read for a command. -/
def commandReads (base : BitVec w) (is64bit : Bool) (mem : Memory w) (cmd : BitVec w) : List (Span w) :=
  fieldReads is64bit mem cmd ++ payloadsAt base is64bit mem cmd

/-- A round of the loop. -/
def round (base : BitVec w) (is64bit : Bool) (s : Loader w) : Loader w :=
  nextCommand (loadCommand base is64bit { s with reads := ⟨base + 16, 4⟩ :: s.reads })

section
variable (base : BitVec w) (is64bit : Bool) (s : Loader w)

theorem loadSegment_cmd (segment : Memory w → Segment) : (loadSegment base segment s).cmd = s.cmd := by
  unfold loadSegment
  dsimp only
  split_ifs <;> rfl

theorem loadSegment_reads (segment : Memory w → Segment) :
    (loadSegment base segment s).reads = (segment s.mem).payload base :: s.reads := by
  unfold loadSegment
  dsimp only
  split_ifs <;> rfl

theorem loadCommand_cmd : (loadCommand base is64bit s).cmd = s.cmd := by
  simp only [loadCommand, loadSegment64, loadSegment32, loadMain]
  split_ifs <;> first | rfl | rw [loadSegment_cmd]

theorem mem_loadSegment64_reads (r : Span w) :
    r ∈ (loadSegment64 base s).reads ↔
      r ∈ segmentReads64 s.mem s.cmd ∨ r ∈ (segment64 s.mem s.cmd).payloads base ∨ r ∈ s.reads := by
  simp only [loadSegment64, segmentReads64, Segment.payloads]
  by_cases h : 0 < (segment64 s.mem s.cmd).filesize
  · simp only [h, if_true, loadSegment_reads, List.mem_append, List.mem_cons, List.not_mem_nil,
      or_false]
    grind
  · simp only [h, if_false, List.mem_append, List.not_mem_nil, or_false, false_or]

theorem mem_loadSegment32_reads (r : Span w) :
    r ∈ (loadSegment32 base s).reads ↔
      r ∈ segmentReads32 s.mem s.cmd ∨ r ∈ (segment32 s.mem s.cmd).payloads base ∨ r ∈ s.reads := by
  simp only [loadSegment32, segmentReads32, Segment.payloads]
  by_cases h : 0 < (segment32 s.mem s.cmd).filesize
  · simp only [h, if_true, loadSegment_reads, List.mem_append, List.mem_cons, List.not_mem_nil,
      or_false]
    grind
  · simp only [h, if_false, List.mem_append, List.not_mem_nil, or_false, false_or]

/-- What a round reads. -/
theorem mem_round_reads (r : Span w) :
    r ∈ (round base is64bit s).reads ↔
      r ∈ commandReads base is64bit s.mem s.cmd ∨ r = ⟨base + 16, 4⟩ ∨ r ∈ s.reads := by
  simp only [round, nextCommand, loadCommand_cmd, commandReads, fieldReads, payloadsAt, segmentAt,
    List.mem_append,
    List.mem_cons, List.not_mem_nil, or_false]
  rw [loadCommand]
  by_cases h₁ : is64bit ∧ s.mem.load32 s.cmd = lcSegment64
  · simp only [if_pos h₁, mem_loadSegment64_reads, Option.map_some, Option.getD_some, List.mem_cons]
    grind
  by_cases h₂ : ¬ is64bit ∧ s.mem.load32 s.cmd = lcSegment
  · simp only [if_neg h₁, if_pos h₂, mem_loadSegment32_reads, Option.map_some, Option.getD_some,
      List.mem_cons]
    grind
  simp only [if_neg h₁, if_neg h₂, loadMain, Option.map_none, Option.getD_none, List.not_mem_nil,
    or_false]
  by_cases h₃ : s.mem.load32 s.cmd = lcMain
  · simp only [h₃, true_or, if_true, List.mem_cons, List.not_mem_nil, or_false]
    grind
  · simp only [h₃, false_or, if_false, ite_self, List.mem_cons, List.not_mem_nil, or_false]
    grind

/-! ## What a round does -/

variable {base is64bit s}

theorem loadSegment_load {f : Memory w → Segment} {seg : Segment} (hseg : f s.mem = seg)
    (hpos : 0 < seg.filesize)
    (hsame : f (memcpy (seg.copied w).start (seg.payload base).start (seg.filesize.setWidth w) s.mem) = seg) :
    (loadSegment base f s).mem = seg.load base s.mem ∧
      ∀ r, r ∈ (loadSegment base f s).writes ↔ r ∈ seg.written w ∨ r ∈ s.writes := by
  subst hseg
  simp only [Segment.copied, Segment.payload] at hsame
  simp only [loadSegment, Segment.load, Segment.written, Segment.copied, Segment.payload,
    Segment.zeroed, hsame, hpos,
    if_true]
  split_ifs
  · refine ⟨rfl, fun r => ?_⟩
    simp only [List.mem_cons, List.not_mem_nil, or_false]
    grind
  · refine ⟨rfl, fun r => ?_⟩
    simp only [List.mem_cons, List.not_mem_nil, or_false]

/-- The segment of a command, with what its width says of it. -/
theorem segmentAt_cases {mem : Memory w} {cmd : BitVec w} {seg : Segment} (h : segmentAt is64bit mem cmd = some seg) :
    (is64bit = true ∧ mem.load32 cmd = lcSegment64 ∧ segment64 mem cmd = seg) ∨
      (is64bit = false ∧ mem.load32 cmd = lcSegment ∧ segment32 mem cmd = seg) := by
  unfold segmentAt at h
  split_ifs at h with h₁ h₂
  · exact .inl ⟨h₁.1, h₁.2, Option.some.inj h⟩
  · exact .inr ⟨by simpa using h₂.1, h₂.2, Option.some.inj h⟩

theorem segmentAt_true {mem : Memory w} {cmd : BitVec w} {seg : Segment} (h : segmentAt true mem cmd = some seg) :
    segment64 mem cmd = seg := by
  rcases segmentAt_cases h with ⟨-, -, h⟩ | ⟨h, -⟩
  · exact h
  · cases h

theorem segmentAt_false {mem : Memory w} {cmd : BitVec w} {seg : Segment} (h : segmentAt false mem cmd = some seg) :
    segment32 mem cmd = seg := by
  rcases segmentAt_cases h with ⟨h, -⟩ | ⟨-, -, h⟩
  · cases h
  · exact h

variable (base)

/-- A command of a segment that is not changed by its own copy. -/
theorem loadCommand_some {seg : Segment} (hseg : segmentAt is64bit s.mem s.cmd = some seg)
    (hsame : 0 < seg.filesize →
      segmentAt is64bit (memcpy (seg.copied w).start (seg.payload base).start (seg.filesize.setWidth w) s.mem) s.cmd =
        some seg) :
    (loadCommand base is64bit s).mem = seg.load base s.mem ∧
      ∀ r, r ∈ (loadCommand base is64bit s).writes ↔ r ∈ seg.written w ∨ r ∈ s.writes := by
  by_cases hpos : 0 < seg.filesize
  · rcases segmentAt_cases hseg with ⟨rfl, hcmd, hseg⟩ | ⟨rfl, hcmd, hseg⟩
    · simp only [loadCommand, hcmd, and_self, if_true, loadSegment64, hseg, hpos]
      exact loadSegment_load (f := fun mem => segment64 mem s.cmd)
        hseg hpos (segmentAt_true (hsame hpos))
    · simp only [loadCommand, hcmd, Bool.false_eq_true, false_and, if_false, not_false_eq_true,
        and_self, if_true,
        loadSegment32, hseg, hpos]
      exact loadSegment_load (f := fun mem => segment32 mem s.cmd)
        hseg hpos (segmentAt_false (hsame hpos))
  · rcases segmentAt_cases hseg with ⟨rfl, hcmd, hseg⟩ | ⟨rfl, hcmd, hseg⟩
    · simp only [loadCommand, hcmd, and_self, if_true, loadSegment64, hseg, hpos, if_false,
        Segment.load,
        Segment.written, List.not_mem_nil, false_or, implies_true]
    · simp only [loadCommand, hcmd, Bool.false_eq_true, false_and, if_false, not_false_eq_true,
        and_self, if_true,
        loadSegment32, hseg, hpos, Segment.load, Segment.written, List.not_mem_nil, false_or,
        implies_true]

/-- A command of no segment. -/
theorem loadCommand_none (hseg : segmentAt is64bit s.mem s.cmd = none) :
    (loadCommand base is64bit s).mem = s.mem ∧ (loadCommand base is64bit s).writes = s.writes := by
  unfold segmentAt at hseg
  split_ifs at hseg with h₁ h₂
  simp only [loadCommand, if_neg h₁, if_neg h₂, loadMain]
  split_ifs <;> exact ⟨rfl, rfl⟩

end

/-! ## Commands in memories that agree -/

section
variable {span : Span w} {is64bit : Bool} {mem mem' : Memory w} {cmd : BitVec w}

theorem segment64_agree (h : Memory.AgreeOn span mem mem') (hin : ∀ r ∈ segmentReads64 mem cmd, r ⊆ span) :
    (segment64 mem cmd).filesize = (segment64 mem' cmd).filesize ∧
      (0 < (segment64 mem cmd).filesize → segment64 mem cmd = segment64 mem' cmd) := by
  have hsize : mem.load64 (cmd + 48) = mem'.load64 (cmd + 48) :=
    h.load64 (hin _ (by simp [segmentReads64]))
  refine ⟨hsize, fun hpos => ?_⟩
  simp only [segmentReads64, if_pos hpos] at hin
  simp only [segment64, Segment.mk.injEq]
  exact ⟨h.load64 (hin _ (by simp)), h.load64 (hin _ (by simp)), h.load64 (hin _ (by simp)), hsize⟩

theorem segment32_agree (h : Memory.AgreeOn span mem mem') (hin : ∀ r ∈ segmentReads32 mem cmd, r ⊆ span) :
    (segment32 mem cmd).filesize = (segment32 mem' cmd).filesize ∧
      (0 < (segment32 mem cmd).filesize → segment32 mem cmd = segment32 mem' cmd) := by
  have hsize : mem.load32 (cmd + 36) = mem'.load32 (cmd + 36) :=
    h.load32 (hin _ (by simp [segmentReads32]))
  refine ⟨congrArg (BitVec.setWidth 64) hsize, fun hpos => ?_⟩
  simp only [segmentReads32, if_pos hpos] at hin
  simp only [segment32, Segment.mk.injEq]
  exact ⟨congrArg _ (h.load32 (hin _ (by simp))), congrArg _ (h.load32 (hin _ (by simp))),
    congrArg _ (h.load32 (hin _ (by simp))), congrArg _ hsize⟩

/-- A command whose fields are in a span is the same in memories that agree there, but
    for the fields of a segment without a payload. -/
theorem fieldReads_agree (h : Memory.AgreeOn span mem mem') (hin : ∀ r ∈ fieldReads is64bit mem cmd, r ⊆ span) :
    fieldReads is64bit mem cmd = fieldReads is64bit mem' cmd ∧
      (segmentAt is64bit mem cmd = segmentAt is64bit mem' cmd ∨
        (∀ seg ∈ segmentAt is64bit mem cmd, ¬ 0 < seg.filesize) ∧
          ∀ seg ∈ segmentAt is64bit mem' cmd, ¬ 0 < seg.filesize) := by
  have hcmd : mem.load32 cmd = mem'.load32 cmd := h.load32 (hin _ (by simp [fieldReads]))
  simp only [fieldReads, segmentAt, ← hcmd] at hin ⊢
  by_cases h₁ : is64bit ∧ mem.load32 cmd = lcSegment64
  · simp only [if_pos h₁] at hin ⊢
    obtain ⟨hsize, hall⟩ := segment64_agree h fun r hr => hin r (List.mem_append_right _ hr)
    refine ⟨by rw [segmentReads64, segmentReads64, hsize], ?_⟩
    by_cases hpos : 0 < (segment64 mem cmd).filesize
    · exact .inl (congrArg some (hall hpos))
    · refine .inr ⟨?_, ?_⟩
      · rintro seg ⟨⟩
        exact hpos
      · rintro seg ⟨⟩
        rwa [← hsize]
  by_cases h₂ : ¬ is64bit ∧ mem.load32 cmd = lcSegment
  · simp only [if_neg h₁, if_pos h₂] at hin ⊢
    obtain ⟨hsize, hall⟩ := segment32_agree h fun r hr => hin r (List.mem_append_right _ hr)
    refine ⟨by rw [segmentReads32, segmentReads32, hsize], ?_⟩
    by_cases hpos : 0 < (segment32 mem cmd).filesize
    · exact .inl (congrArg some (hall hpos))
    · refine .inr ⟨?_, ?_⟩
      · rintro seg ⟨⟩
        exact hpos
      · rintro seg ⟨⟩
        rwa [← hsize]
  simp only [if_neg h₁, if_neg h₂, true_or, and_self]

end

/-! ## The walk over an image that is not overwritten -/

theorem Segment.copied_mem_written {seg : Segment} (h : 0 < seg.filesize) : seg.copied w ∈ seg.written w := by
  rw [written, if_pos h]
  exact List.mem_cons_self ..

theorem Segment.load_of_notMem {seg : Segment} {a : BitVec w} (h : ∀ r ∈ seg.written w, a ∉ r) (base : BitVec w)
    (mem : Memory w) : seg.load base mem a = mem a := by
  unfold Segment.load
  unfold Segment.written at h
  by_cases hpos : 0 < seg.filesize
  · rw [if_pos hpos] at h ⊢
    have hcopy : memcpy (seg.copied w).start (seg.payload base).start (seg.filesize.setWidth w)
        mem a = mem a :=
      Memory.copy_of_notMem (h (seg.copied w) (List.mem_cons_self ..)) _ _
    by_cases hlt : seg.filesize < seg.vmsize
    · rw [if_pos hlt] at h
      simp only [if_pos hlt]
      exact (Memory.fill_of_notMem (h (seg.zeroed w) (by simp)) _ _).trans hcopy
    · simp only [if_neg hlt]
      exact hcopy
  · rw [if_neg hpos]

theorem loadAt_of_notMem {is64bit : Bool} {mem : Memory w} {cmd a : BitVec w}
    (h : ∀ r ∈ writtenAt is64bit mem cmd, a ∉ r) (base : BitVec w) (mem' : Memory w) :
    loadAt base is64bit mem cmd mem' a = mem' a := by
  unfold loadAt
  unfold writtenAt at h
  cases hseg : segmentAt is64bit mem cmd with
  | none => rfl
  | some seg =>
    rw [hseg] at h
    exact Segment.load_of_notMem h base mem'

/-- Commands that are the same, but for segments without a payload. -/
theorem at_congr {is64bit : Bool} {mem mem' : Memory w} {cmd : BitVec w}
    (h : segmentAt is64bit mem cmd = segmentAt is64bit mem' cmd ∨
      (∀ seg ∈ segmentAt is64bit mem cmd, ¬ 0 < seg.filesize) ∧
        ∀ seg ∈ segmentAt is64bit mem' cmd, ¬ 0 < seg.filesize) (base : BitVec w) :
    payloadsAt base is64bit mem cmd = payloadsAt base is64bit mem' cmd ∧
      writtenAt is64bit mem cmd = writtenAt is64bit mem' cmd ∧
      loadAt base is64bit mem cmd = loadAt base is64bit mem' cmd := by
  have hidle : ∀ o : Option Segment, (∀ seg ∈ o, ¬ 0 < seg.filesize) →
      (o.map fun seg => seg.payloads base).getD [] = [] ∧ (o.map fun seg => seg.written w).getD [] = [] ∧
        (o.map fun seg => seg.load base).getD id = id := by
    rintro (_ | seg) ho
    · exact ⟨rfl, rfl, rfl⟩
    · have hpos : ¬ 0 < seg.filesize := ho seg rfl
      refine ⟨if_neg hpos, if_neg hpos, funext fun mem => if_neg hpos⟩
  rcases h with h | ⟨h₁, h₂⟩
  · simp only [payloadsAt, writtenAt, loadAt, h, and_self]
  · obtain ⟨a₁, b₁, c₁⟩ := hidle _ h₁
    obtain ⟨a₂, b₂, c₂⟩ := hidle _ h₂
    exact ⟨a₁.trans a₂.symm, b₁.trans b₂.symm, c₁.trans c₂.symm⟩

namespace Image
variable (image : Image w) (is64bit : Bool)

/-- The memory behind the first `i` commands, as the image has them. -/
def loaded : ℕ → Memory w
  | 0 => image.mem
  | i + 1 => loadAt image.base is64bit image.mem (image.command is64bit i) (loaded i)

/-- None of the first `n` commands has the image overwritten. -/
def ApartTo (n : ℕ) : Prop :=
  ∀ i < n, ∀ r ∈ writtenAt is64bit image.mem (image.command is64bit i), r.Disjoint image.span

/-- No command has. -/
def Apart : Prop := image.ApartTo is64bit image.ncmds

/-- The image is the same behind each copy and behind each of the first `n` commands: no segment
    overlaps it, or what does is copied from where it goes. -/
def StaysTo (n : ℕ) : Prop :=
  ∀ i < n, ∀ seg, segmentAt is64bit image.mem (image.command is64bit i) = some seg → 0 < seg.filesize →
    Memory.AgreeOn image.span image.mem
      (memcpy (seg.copied w).start (seg.payload image.base).start (seg.filesize.setWidth w)
        (image.loaded is64bit i)) ∧
    Memory.AgreeOn image.span image.mem (image.loaded is64bit (i + 1))

/-- The loader at the `i`-th command. -/
structure Follows (i : ℕ) (s : Loader w) : Prop where
  cmd : s.cmd = image.command is64bit i
  mem : s.mem = image.loaded is64bit i
  writes : ∀ r, r ∈ s.writes ↔ ∃ j < i, r ∈ writtenAt is64bit image.mem (image.command is64bit j)

variable {image is64bit}

theorem loaded_idle {i : ℕ}
    (h : ∀ seg ∈ segmentAt is64bit image.mem (image.command is64bit i), ¬ 0 < seg.filesize) :
    image.loaded is64bit (i + 1) = image.loaded is64bit i := by
  rw [loaded, loadAt]
  cases hseg : segmentAt is64bit image.mem (image.command is64bit i) with
  | none => rfl
  | some seg => exact if_neg (h seg hseg)

theorem StaysTo.agree {n : ℕ} (h : image.StaysTo is64bit n) {i : ℕ} (hi : i ≤ n) :
    Memory.AgreeOn image.span (image.loaded is64bit i) image.mem := by
  induction i with
  | zero =>
    intro a _
    rfl
  | succ i ih =>
    by_cases hseg : ∃ seg, segmentAt is64bit image.mem (image.command is64bit i) = some seg ∧
        0 < seg.filesize
    · obtain ⟨seg, hseg, hpos⟩ := hseg
      exact (h i hi seg hseg hpos).2.symm
    · rw [loaded_idle fun seg hmem hpos => hseg ⟨seg, hmem, hpos⟩]
      exact ih (by omega)

theorem ApartTo.agree {n : ℕ} (h : image.ApartTo is64bit n) {i : ℕ} (hi : i ≤ n) :
    Memory.AgreeOn image.span (image.loaded is64bit i) image.mem := by
  induction i with
  | zero =>
    intro a _
    rfl
  | succ i ih =>
    intro a ha
    rw [loaded, loadAt_of_notMem fun r hr har => h i hi r hr a har ha]
    exact ih (by omega) a ha

theorem ApartTo.stays {n : ℕ} (h : image.ApartTo is64bit n) : image.StaysTo is64bit n := by
  intro i hi seg hseg hpos
  have hdisj : (seg.copied w).Disjoint image.span := by
    refine h i hi _ ?_
    rw [writtenAt, hseg]
    exact Segment.copied_mem_written hpos
  refine ⟨fun a ha => ?_, (h.agree hi).symm⟩
  exact (h.agree hi.le a ha).symm.trans (Memory.copy_of_notMem (hdisj.symm a ha) _ _).symm

theorem command_succ (i : ℕ) :
    image.command is64bit (i + 1) =
      image.command is64bit i + (image.mem.load32 (image.command is64bit i + 4)).setWidth w := by
  simp only [command, offset, BitVec.ofNat_add, BitVec.ofNat_toNat, add_assoc]

/-- The loader still sees the image. -/
theorem Follows.agree {n i : ℕ} {s : Loader w} (h : image.Follows is64bit i s) (hstays : image.StaysTo is64bit n)
    (hi : i ≤ n) : Memory.AgreeOn image.span image.mem s.mem := by
  rw [h.mem]
  exact (hstays.agree hi).symm

section
variable {n i : ℕ} {s : Loader w} (h : image.Follows is64bit i s) (hstays : image.StaysTo is64bit n) (hi : i < n)
  (hin : ∀ r ∈ fieldReads is64bit image.mem (image.command is64bit i), r ⊆ image.span)
include h hstays hi hin

/-- The copy of a segment leaves its own command as it is. -/
theorem Follows.segmentAt_copy {seg : Segment} (hseg : segmentAt is64bit s.mem s.cmd = some seg)
    (hpos : 0 < seg.filesize) :
    segmentAt is64bit
      (memcpy (seg.copied w).start (seg.payload image.base).start (seg.filesize.setWidth w) s.mem) s.cmd =
        some seg := by
  obtain ⟨hfields, hsame⟩ := fieldReads_agree (h.agree hstays hi.le) hin
  have himage : segmentAt is64bit image.mem (image.command is64bit i) = some seg := by
    rcases hsame with heq | ⟨-, hidle⟩
    · rw [heq, ← h.cmd, hseg]
    · exact absurd hpos (hidle seg (h.cmd ▸ hseg))
  have hcopy : Memory.AgreeOn image.span s.mem
      (memcpy (seg.copied w).start (seg.payload image.base).start (seg.filesize.setWidth w) s.mem) := by
    intro a ha
    have hmem := (hstays i hi seg himage hpos).1 a ha
    rw [← h.mem] at hmem
    exact (h.agree hstays hi.le a ha).symm.trans hmem
  have hin' : ∀ r ∈ fieldReads is64bit s.mem s.cmd, r ⊆ image.span := by
    rwa [h.cmd, ← hfields]
  rcases (fieldReads_agree hcopy hin').2 with heq | ⟨hidle, -⟩
  · rw [← heq, hseg]
  · exact absurd hpos (hidle seg hseg)

/-- What the branches of the loop do is what they do for the image. -/
theorem Follows.command (reads : List (Span w)) :
    (loadCommand image.base is64bit { s with reads := reads }).mem =
        loadAt image.base is64bit image.mem (image.command is64bit i) s.mem ∧
      ∀ r, r ∈ (loadCommand image.base is64bit { s with reads := reads }).writes ↔
        r ∈ writtenAt is64bit image.mem (image.command is64bit i) ∨ r ∈ s.writes := by
  obtain ⟨-, hwritten, hload⟩ := at_congr (fieldReads_agree (h.agree hstays hi.le) hin).2 image.base
  rw [hload, hwritten, ← h.cmd]
  cases hcase : segmentAt is64bit s.mem s.cmd with
  | none =>
    obtain ⟨hmem, hwrites⟩ := loadCommand_none image.base (s := { s with reads := reads }) hcase
    rw [hmem, hwrites]
    simp [loadAt, writtenAt, hcase]
  | some seg =>
    obtain ⟨hmem, hwrites⟩ := loadCommand_some image.base (s := { s with reads := reads }) hcase
      (h.segmentAt_copy hstays hi hin hcase)
    refine ⟨hmem.trans ?_, ?_⟩
    · simp [loadAt, hcase]
    · intro r
      refine (hwrites r).trans ?_
      simp [writtenAt, hcase]

/-- A round on a command whose fields are in the image. -/
theorem Follows.round : image.Follows is64bit (i + 1) (round image.base is64bit s) := by
  obtain ⟨hload, hwrites⟩ := h.command hstays hi hin (⟨image.base + 16, 4⟩ :: s.reads)
  have hmem : (Kickstart.round image.base is64bit s).mem = image.loaded is64bit (i + 1) := by
    rw [loaded, ← h.mem]
    exact hload
  refine ⟨?_, hmem, ?_⟩
  · have hsize : (image.mem.load32 (image.command is64bit i + 4)) =
        (Kickstart.round image.base is64bit s).mem.load32 (image.command is64bit i + 4) := by
      rw [hmem]
      exact (hstays.agree hi).symm.load32 (hin _ (by simp [fieldReads]))
    rw [command_succ, hsize, ← h.cmd, Kickstart.round, nextCommand]
    simp only [loadCommand_cmd]
  · intro r
    refine (hwrites r).trans ?_
    rw [h.writes]
    constructor
    · rintro (hr | ⟨j, hj, hr⟩)
      · exact ⟨i, by omega, hr⟩
      · exact ⟨j, by omega, hr⟩
    · rintro ⟨j, hj, hr⟩
      rcases Nat.lt_succ_iff_lt_or_eq.1 hj with hlt | rfl
      · exact .inr ⟨j, hlt, hr⟩
      · exact .inl hr

end

theorem Follows.ncmds_eq {n i : ℕ} {s : Loader w} (h : image.Follows is64bit i s) (hstays : image.StaysTo is64bit n)
    (hi : i ≤ n) (hcount : (⟨image.base + 16, 4⟩ : Span w) ⊆ image.span) :
    (s.mem.load32 (image.base + 16)).toNat = image.ncmds := by
  rw [h.mem, (hstays.agree hi).load32 hcount, ncmds]

/-- The loop over commands whose fields are in the image, and what each of its rounds keeps. -/
theorem Follows.run_with {P : ℕ → Loader w → Prop} {n : ℕ} (hstays : image.StaysTo is64bit n)
    (hn : n ≤ image.ncmds) (hcount : (⟨image.base + 16, 4⟩ : Span w) ⊆ image.span)
    (hin : ∀ j < n, ∀ r ∈ fieldReads is64bit image.mem (image.command is64bit j), r ⊆ image.span)
    (hP : ∀ i s, i < n → image.Follows is64bit i s → P i s → P (i + 1) (Kickstart.round image.base is64bit s))
    (k rounds : ℕ) {i : ℕ} {s : Loader w} (h : image.Follows is64bit i s) (hs : P i s) (hi : i + k = n) :
    ∃ s', image.Follows is64bit n s' ∧ P n s' ∧
      loadCommands image.base is64bit (rounds + k) i s = loadCommands image.base is64bit rounds n s' := by
  induction k generalizing i s with
  | zero =>
    obtain rfl : i = n := hi
    exact ⟨s, h, hs, rfl⟩
  | succ k ih =>
    obtain ⟨s', hs', hPs', hrun⟩ := ih (h.round hstays (by omega) (hin i (by omega)))
      (hP i s (by omega) h hs)
      (by omega)
    refine ⟨s', hs', hPs', ?_⟩
    rw [← hrun, ← Nat.add_assoc, loadCommands, h.ncmds_eq hstays (by omega) hcount]
    exact if_pos (by omega)

/-- The loop over commands whose fields are in the image. -/
theorem Follows.run {n : ℕ} (hstays : image.StaysTo is64bit n) (hn : n ≤ image.ncmds)
    (hcount : (⟨image.base + 16, 4⟩ : Span w) ⊆ image.span)
    (hin : ∀ j < n, ∀ r ∈ fieldReads is64bit image.mem (image.command is64bit j), r ⊆ image.span) (k rounds : ℕ)
    {i : ℕ} {s : Loader w} (h : image.Follows is64bit i s) (hi : i + k = n) :
    ∃ s', image.Follows is64bit n s' ∧
      loadCommands image.base is64bit (rounds + k) i s = loadCommands image.base is64bit rounds n s' := by
  obtain ⟨s', hs', -, hrun⟩ := Follows.run_with (P := fun _ _ => True) hstays hn hcount hin
    (fun _ _ _ _ _ => trivial) k rounds h trivial hi
  exact ⟨s', hs', hrun⟩

end Image

end PocketDarwin.Kickstart
