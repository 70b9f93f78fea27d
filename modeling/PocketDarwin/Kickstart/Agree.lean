/-
  Images that should have the same effect: an image of 32 bits and the same of 64 bits,
  and an image and the same in the other byte order.

  The branch for segments of 32 bits loads them as the other one does, but it does not
  keep `min_vaddr`, so that `load_base` is `~0` for every image of 32 bits.  The swapped
  magic numbers are accepted, and then no number behind them is swapped.

  * `Loadable.results`: what `macho_load` returns for an image, in terms of its commands.
  * `Widens.loaded_eq`, `Widens.entry_eq`: an image that is widened leaves the same memory
    and has the same entry point.
  * `counterparts_agree`: when it has the same `load_base`, too, and when an image agrees
    with its byte-swapped counterpart.
-/
import PocketDarwin.Kickstart.Contents

namespace PocketDarwin.Kickstart

variable {w : ℕ}

/-- A number with its bytes in the other order. -/
def bswap32 (v : BitVec 32) : BitVec 32 :=
  v.extractLsb' 0 8 ++ v.extractLsb' 8 8 ++ v.extractLsb' 16 8 ++ v.extractLsb' 24 8

def bswap64 (v : BitVec 64) : BitVec 64 := bswap32 (v.extractLsb' 0 32) ++ bswap32 (v.extractLsb' 32 32)

/-! ## What is returned -/

/-- `min_vaddr` behind a command, if it is the one of `seg`: only segments of 64 bits count. -/
def lower (is64bit : Bool) (seg : Option Segment) (m : BitVec 64) : BitVec 64 :=
  match is64bit, seg with
  | true, some seg => if 0 < seg.vmsize ∧ seg.vmaddr < m then seg.vmaddr else m
  | _, _ => m

/-- `entry_point` behind a command. -/
def entryAt (base : BitVec w) (mem : Memory w) (cmd : BitVec w) (e : BitVec 64) : BitVec 64 :=
  if mem.load32 cmd = lcMain then (base + (mem.load32 (cmd + 8)).setWidth w).setWidth 64 else e

theorem loadSegment_keeps (base : BitVec w) (f : Memory w → Segment) (s : Loader w) :
    (loadSegment base f s).minVaddr = s.minVaddr ∧ (loadSegment base f s).entryPoint = s.entryPoint := by
  unfold loadSegment
  dsimp only
  split_ifs <;> exact ⟨rfl, rfl⟩

theorem loadSegment64_results (base : BitVec w) (s : Loader w) :
    (loadSegment64 base s).minVaddr = lower true (some (segment64 s.mem s.cmd)) s.minVaddr ∧
      (loadSegment64 base s).entryPoint = s.entryPoint := by
  unfold loadSegment64
  by_cases hpos : 0 < (segment64 s.mem s.cmd).filesize
  · simp only [hpos, if_true, (loadSegment_keeps _ _ _).1, (loadSegment_keeps _ _ _).2, lower, and_self]
  · simp only [hpos, if_false, lower, and_self]

theorem loadSegment32_results (base : BitVec w) (s : Loader w) :
    (loadSegment32 base s).minVaddr = s.minVaddr ∧ (loadSegment32 base s).entryPoint = s.entryPoint := by
  unfold loadSegment32
  by_cases hpos : 0 < (segment32 s.mem s.cmd).filesize
  · simp only [hpos, if_true, (loadSegment_keeps _ _ _).1, (loadSegment_keeps _ _ _).2, and_self]
  · simp only [hpos, if_false, and_self]

/-- `min_vaddr` stays `~0` only at segments without a size. -/
theorem lower_eq_allOnes {v size m : BitVec 64} (hv : v ≠ BitVec.allOnes 64) :
    (if 0 < size ∧ v < m then v else m) = BitVec.allOnes 64 ↔ m = BitVec.allOnes 64 ∧ size = 0 := by
  constructor
  · intro h
    split_ifs at h with hc
    · exact absurd h hv
    · subst h
      refine ⟨rfl, ?_⟩
      by_contra hsize
      exact hc ⟨(BitVec.pos_iff_ne_zero _).2 hsize, BitVec.lt_allOnes_iff.2 hv⟩
  · rintro ⟨rfl, rfl⟩
    exact if_neg fun hc => absurd hc.1 (BitVec.lt_irrefl 0)

/-- What a round does to the variables that are returned. -/
theorem round_results (base : BitVec w) (is64bit : Bool) (s : Loader w) :
    (round base is64bit s).minVaddr = lower is64bit (segmentAt is64bit s.mem s.cmd) s.minVaddr ∧
      (round base is64bit s).entryPoint = entryAt base s.mem s.cmd s.entryPoint := by
  simp only [round, nextCommand, loadCommand, segmentAt, entryAt]
  by_cases h₁ : is64bit ∧ s.mem.load32 s.cmd = lcSegment64
  · have hmain : s.mem.load32 s.cmd ≠ lcMain := by
      rw [h₁.2]
      decide
    rw [if_pos h₁, if_pos h₁, if_neg hmain, h₁.1]
    exact loadSegment64_results base _
  by_cases h₂ : ¬ is64bit ∧ s.mem.load32 s.cmd = lcSegment
  · have hmain : s.mem.load32 s.cmd ≠ lcMain := by
      rw [h₂.2]
      decide
    have hfalse : is64bit = false := by simpa using h₂.1
    rw [if_neg h₁, if_pos h₂, if_neg h₁, if_pos h₂, if_neg hmain, hfalse]
    exact loadSegment32_results base _
  rw [if_neg h₁, if_neg h₂, if_neg h₁, if_neg h₂]
  by_cases h₃ : s.mem.load32 s.cmd = lcMain
  · simp only [h₃, true_or, if_true, loadMain]
    cases is64bit <;> exact ⟨rfl, trivial⟩
  · simp only [h₃, false_or, if_false, ite_self]
    cases is64bit <;> exact ⟨rfl, trivial⟩

namespace Image
variable (image : Image w) (is64bit : Bool)

/-- `min_vaddr` behind the first commands, as the image has them. -/
def minVaddr : ℕ → BitVec 64
  | 0 => BitVec.allOnes 64
  | i + 1 => lower is64bit (segmentAt is64bit image.mem (image.command is64bit i)) (minVaddr i)

/-- `entry_point`, likewise. -/
def entry : ℕ → BitVec 64
  | 0 => 0
  | i + 1 => entryAt image.base image.mem (image.command is64bit i) (entry i)

/-- The lowest `vmaddr` of a segment of nonzero size. -/
def LowestVaddr (segs : List Segment) (b : BitVec 64) : Prop :=
  (∃ seg ∈ segs, 0 < seg.vmsize ∧ seg.vmaddr = b) ∧ ∀ seg ∈ segs, 0 < seg.vmsize → b ≤ seg.vmaddr

variable {image is64bit}

/-- A command in memories that agree has the same results. -/
theorem results_agree {span : Span w} {mem mem' : Memory w} {cmd : BitVec w} (h : Memory.AgreeOn span mem mem')
    (hin : ∀ r ∈ fieldReads is64bit mem cmd, r ⊆ span) (base : BitVec w) (m e : BitVec 64) :
    lower is64bit (segmentAt is64bit mem cmd) m = lower is64bit (segmentAt is64bit mem' cmd) m ∧
      entryAt base mem cmd e = entryAt base mem' cmd e := by
  have hcmd : mem.load32 cmd = mem'.load32 cmd := h.load32 (hin _ (by simp [fieldReads]))
  constructor
  · cases is64bit with
    | false => rfl
    | true =>
      by_cases h₁ : mem.load32 cmd = lcSegment64
      · have hin' : ∀ r ∈ segmentReads64 mem cmd, r ⊆ span := by
          intro r hr
          refine hin r (List.mem_append_right _ ?_)
          rw [if_pos ⟨rfl, h₁⟩]
          exact hr
        have hvmaddr : mem.load64 (cmd + 24) = mem'.load64 (cmd + 24) :=
          h.load64 (hin' _ (by simp [segmentReads64]))
        have hvmsize : mem.load64 (cmd + 32) = mem'.load64 (cmd + 32) :=
          h.load64 (hin' _ (by simp [segmentReads64]))
        simp only [segmentAt, true_and, ← hcmd, h₁, if_true, lower, segment64, hvmaddr, hvmsize]
      · simp only [segmentAt, true_and, ← hcmd, h₁, if_false, not_true, false_and]
  · by_cases h₃ : mem.load32 cmd = lcMain
    · have hoff : mem.load32 (cmd + 8) = mem'.load32 (cmd + 8) := by
        refine h.load32 (hin _ (List.mem_append_right _ ?_))
        simp [h₃, lcMain, lcSegment, lcSegment64]
      rw [entryAt, entryAt, if_pos h₃, if_pos (hcmd ▸ h₃), hoff]
    · rw [entryAt, entryAt, if_neg h₃, if_neg (hcmd ▸ h₃)]

theorem machoLoad_info (h : image.accepted = some is64bit) :
    (machoLoad image.base image.size image.mem).1.loadBase = (machoLoad image.base image.size image.mem).2.minVaddr ∧
      (machoLoad image.base image.size image.mem).1.entryPoint =
        (machoLoad image.base image.size image.mem).2.entryPoint := by
  unfold accepted at h
  split_ifs at h with hsize
  simp only [machoLoad, if_neg hsize, h, and_self]

/-- **Results**: the memory, `load_base` and `entry_point` of an image that stays as it is. -/
theorem results_of_stays (hacc : image.accepted = some is64bit) (hfields : image.FieldsInside is64bit)
    (hstays : image.StaysTo is64bit image.ncmds) :
    (machoLoad image.base image.size image.mem).2.mem = image.loaded is64bit image.ncmds ∧
      (machoLoad image.base image.size image.mem).1.loadBase = image.minVaddr is64bit image.ncmds ∧
      (machoLoad image.base image.size image.mem).1.entryPoint = image.entry is64bit image.ncmds := by
  obtain ⟨s, hs, ⟨hmin, hentry⟩, hend⟩ := run_end
    (P := fun i s => s.minVaddr = image.minVaddr is64bit i ∧ s.entryPoint = image.entry is64bit i)
    hacc hfields hstays ⟨rfl, rfl⟩ fun i s hi hs hres => by
      obtain ⟨hround, hround'⟩ := round_results image.base is64bit s
      obtain ⟨hlow, hent⟩ := results_agree (hs.agree hstays hi.le) (hfields i hi)
        image.base (image.minVaddr is64bit i)
        (image.entry is64bit i)
      rw [hround, hround', hres.1, hres.2, hs.cmd, ← hlow, ← hent]
      exact ⟨rfl, rfl⟩
  obtain ⟨hbase, hpoint⟩ := machoLoad_info hacc
  rw [hbase, hpoint, hend]
  exact ⟨hs.mem, hmin, hentry⟩

/-- Those of a well-formed image that is not overwritten. -/
theorem Loadable.results (h : image.Loadable is64bit) (hapart : image.Apart is64bit) :
    (machoLoad image.base image.size image.mem).2.mem = image.loaded is64bit image.ncmds ∧
      (machoLoad image.base image.size image.mem).1.loadBase = image.minVaddr is64bit image.ncmds ∧
      (machoLoad image.base image.size image.mem).1.entryPoint = image.entry is64bit image.ncmds :=
  results_of_stays h.accepted h.fields (ApartTo.stays hapart)

theorem lower_le (seg : Segment) (m : BitVec 64) :
    lower true (some seg) m ≤ m ∧ (0 < seg.vmsize → lower true (some seg) m ≤ seg.vmaddr) := by
  simp only [lower]
  split_ifs with h
  · exact ⟨BitVec.le_of_lt h.2, fun _ => BitVec.le_refl _⟩
  · exact ⟨BitVec.le_refl _, fun hpos => BitVec.not_lt.1 fun hlt => h ⟨hpos, hlt⟩⟩

/-- `min_vaddr` is below all segments of 64 bits that have a size, and is `~0` or the address of one. -/
theorem minVaddr_bounds (n : ℕ) :
    (∀ seg ∈ image.segmentsTo true n, 0 < seg.vmsize → image.minVaddr true n ≤ seg.vmaddr) ∧
      (image.minVaddr true n = BitVec.allOnes 64 ∨
        ∃ seg ∈ image.segmentsTo true n, 0 < seg.vmsize ∧ seg.vmaddr = image.minVaddr true n) := by
  induction n with
  | zero => simp [minVaddr, segmentsTo]
  | succ n ih =>
    obtain ⟨hle, hex⟩ := ih
    rw [minVaddr, segmentsTo_succ]
    cases hseg : segmentAt true image.mem (image.command true n) with
    | none =>
      rw [Option.toList_none, List.append_nil]
      exact ⟨hle, hex⟩
    | some seg =>
      obtain ⟨hm, hseg⟩ := lower_le seg (image.minVaddr true n)
      rw [Option.toList_some]
      constructor
      · rw [List.forall_mem_append, List.forall_mem_singleton]
        exact ⟨fun seg' hseg' hpos => BitVec.le_trans hm (hle seg' hseg' hpos), hseg⟩
      · by_cases hlow : 0 < seg.vmsize ∧ seg.vmaddr < image.minVaddr true n
        · refine .inr ⟨seg, List.mem_append_right _ List.mem_cons_self, hlow.1, ?_⟩
          exact (if_pos hlow).symm
        · have hsame : lower true (some seg) (image.minVaddr true n) = image.minVaddr true n :=
            if_neg hlow
          rw [hsame]
          refine hex.imp_right ?_
          rintro ⟨seg', hmem, hseg'⟩
          exact ⟨seg', List.mem_append_left _ hmem, hseg'⟩

/-- **`load_base` of an image of 64 bits** is the lowest `vmaddr` of a segment of nonzero size, if there is one. -/
theorem Loadable.loadBase_lowest (h : image.Loadable true) (hapart : image.Apart true)
    (hex : ∃ seg ∈ image.segments true, 0 < seg.vmsize) :
    LowestVaddr (image.segments true) (machoLoad image.base image.size image.mem).1.loadBase := by
  rw [(h.results hapart).2.1]
  obtain ⟨hle, hmin⟩ := image.minVaddr_bounds image.ncmds
  refine ⟨?_, hle⟩
  rcases hmin with hones | hmin
  · obtain ⟨seg, hseg, hpos⟩ := hex
    have hbelow := hle seg hseg hpos
    rw [hones, BitVec.allOnes_le_iff] at hbelow
    exact ⟨seg, hseg, hpos, hbelow.trans hones.symm⟩
  · exact hmin

/-- Two images that have the same effect: on the memory outside of both, and in what is returned. -/
structure Agree (is64bit : Bool) (image image' : Image w) : Prop where
  mem : ∀ a, a ∉ image.span → a ∉ image'.span →
    (machoLoad image'.base image'.size image'.mem).2.mem a = (machoLoad image.base image.size image.mem).2.mem a
  isValid : (machoLoad image'.base image'.size image'.mem).1.isValid =
    (machoLoad image.base image.size image.mem).1.isValid
  loadBase : (machoLoad image'.base image'.size image'.mem).1.loadBase =
    (machoLoad image.base image.size image.mem).1.loadBase
  lowest : (∃ seg ∈ image.segments is64bit, 0 < seg.vmsize) →
    LowestVaddr (image.segments is64bit) (machoLoad image.base image.size image.mem).1.loadBase
  entryPoint : (machoLoad image'.base image'.size image'.mem).1.entryPoint =
    (machoLoad image.base image.size image.mem).1.entryPoint

/-! ## Widths -/

/-- The command `i` of 32 bits as a command of 64 bits: that of a segment has the same numbers and the same
    file data, which may have moved; any other one is the same. -/
structure WidensCommand (image image' : Image w) (i : ℕ) : Prop where
  segment : image.mem.load32 (image.command false i) = lcSegment →
    image'.mem.load32 (image'.command true i) = lcSegment64
  fields : image.mem.load32 (image.command false i) = lcSegment →
    (segment64 image'.mem (image'.command true i)).vmaddr = (segment32 image.mem (image.command false i)).vmaddr ∧
    (segment64 image'.mem (image'.command true i)).vmsize = (segment32 image.mem (image.command false i)).vmsize ∧
    (segment64 image'.mem (image'.command true i)).filesize = (segment32 image.mem (image.command false i)).filesize
  file : image.mem.load32 (image.command false i) = lcSegment →
    ∀ k < (segment32 image.mem (image.command false i)).filesize.toNat,
      image'.mem (image'.base + BitVec.ofNat w ((segment64 image'.mem (image'.command true i)).fileoff.toNat + k)) =
        image.mem (image.base + BitVec.ofNat w ((segment32 image.mem (image.command false i)).fileoff.toNat + k))
  other : image.mem.load32 (image.command false i) ≠ lcSegment →
    image'.mem.load32 (image'.command true i) = image.mem.load32 (image.command false i)
  not_wide : image.mem.load32 (image.command false i) ≠ lcSegment64
  main : image.mem.load32 (image.command false i) = lcMain →
    image'.mem.load32 (image'.command true i + 8) = image.mem.load32 (image.command false i + 8)

/-- `image'` is the image of 32 bits with its header and segment commands in the forms of 64 bits. -/
structure Widens (image image' : Image w) : Prop where
  base : image'.base = image.base
  magic : image.mem.load32 image.base = mhMagic
  magic' : image'.mem.load32 image'.base = mhMagic64
  ncmds : image'.ncmds = image.ncmds
  command : ∀ i < image.ncmds, WidensCommand image image' i
  outside : ∀ a, a ∉ image.span → a ∉ image'.span → image'.mem a = image.mem a

section
variable {image' : Image w}

/-- A segment command becomes one with the same memory. -/
theorem WidensCommand.some {i : ℕ} {seg : Segment} (h : WidensCommand image image' i)
    (hseg : segmentAt false image.mem (image.command false i) = Option.some seg) :
    ∃ seg', segmentAt true image'.mem (image'.command true i) = Option.some seg' ∧ seg'.vmaddr = seg.vmaddr ∧
      seg'.vmsize = seg.vmsize ∧ seg'.filesize = seg.filesize ∧
      ∀ a, seg'.byte image'.base image'.mem a = seg.byte image.base image.mem a := by
  rcases segmentAt_cases hseg with ⟨hb, -⟩ | ⟨-, hcmd, rfl⟩
  · cases hb
  obtain ⟨hvmaddr, hvmsize, hfilesize⟩ := h.fields hcmd
  refine ⟨_, if_pos ⟨rfl, h.segment hcmd⟩, hvmaddr, hvmsize, hfilesize, fun a => ?_⟩
  unfold Segment.byte
  dsimp only
  rw [hvmaddr, hfilesize]
  split_ifs with hlt
  · exact h.file hcmd _ hlt
  · rfl

/-- Any other command stays one of no segment. -/
theorem WidensCommand.none {i : ℕ} (h : WidensCommand image image' i)
    (hseg : segmentAt false image.mem (image.command false i) = Option.none) :
    segmentAt true image'.mem (image'.command true i) = Option.none := by
  have hne : image.mem.load32 (image.command false i) ≠ lcSegment := by
    intro hcmd
    simp [segmentAt, hcmd] at hseg
  have hne' : image'.mem.load32 (image'.command true i) ≠ lcSegment64 := by
    rw [h.other hne]
    exact h.not_wide
  simp [segmentAt, hne']

theorem Segment.covers_congr {seg seg' : Segment} (ha : seg'.vmaddr = seg.vmaddr) (hv : seg'.vmsize = seg.vmsize)
    (hf : seg'.filesize = seg.filesize) (a : BitVec w) : seg'.Covers a ↔ seg.Covers a := by
  unfold Segment.Covers Segment.written Segment.copied Segment.zeroed
  rw [ha, hv, hf]

/-- What the loop of a well-formed image that is not overwritten leaves behind a segment command. -/
theorem Loadable.loaded_succ {i : ℕ} {seg : Segment} (h : image.Loadable is64bit) (hapart : image.Apart is64bit)
    (hi : i < image.ncmds) (hseg : segmentAt is64bit image.mem (image.command is64bit i) = Option.some seg)
    (a : BitVec w) :
    image.loaded is64bit (i + 1) a =
      if seg.Covers a then seg.byte image.base image.mem a else image.loaded is64bit i a := by
  have hdisj : ∀ r ∈ seg.written w, r.Disjoint image.span :=
    fun r hr => hapart i hi r (mem_writtenAt.2 ⟨seg, hseg, hr⟩)
  have happly := h.load_apply (mem_segmentsTo.2 ⟨i, hi, hseg⟩) hdisj (ApartTo.agree hapart hi.le) a
  rw [loaded, loadAt, hseg]
  exact happly

theorem loaded_succ_none {i : ℕ} (hseg : segmentAt is64bit image.mem (image.command is64bit i) = Option.none) :
    image.loaded is64bit (i + 1) = image.loaded is64bit i := by
  rw [loaded, loadAt, hseg]
  rfl

section
variable (h : Widens image image') (hl : image.Loadable false) (hl' : image'.Loadable true)
  (hapart : image.Apart false) (hapart' : image'.Apart true)
include h

include hl hl' hapart hapart' in
/-- **The memory is the same.** -/
theorem Widens.loaded_eq {i : ℕ} (hi : i ≤ image.ncmds) {a : BitVec w} (ha : a ∉ image.span) (ha' : a ∉ image'.span) :
    image'.loaded true i a = image.loaded false i a := by
  induction i with
  | zero => exact h.outside a ha ha'
  | succ i ih =>
    have ih := ih (by omega)
    have hcommand := h.command i hi
    cases hseg : segmentAt false image.mem (image.command false i) with
    | none => rw [loaded_succ_none hseg, loaded_succ_none (hcommand.none hseg), ih]
    | some seg =>
      obtain ⟨seg', hseg', hvmaddr, hvmsize, hfilesize, hbyte⟩ := hcommand.some hseg
      rw [hl.loaded_succ hapart hi hseg, hl'.loaded_succ hapart' (h.ncmds ▸ hi) hseg', hbyte, ih]
      simp only [Segment.covers_congr hvmaddr hvmsize hfilesize]

/-- **The entry point is the same.** -/
theorem Widens.entry_eq {i : ℕ} (hi : i ≤ image.ncmds) : image'.entry true i = image.entry false i := by
  induction i with
  | zero => rfl
  | succ i ih =>
    have hcommand := h.command i hi
    rw [entry, entry, ih (by omega), entryAt, entryAt, h.base]
    by_cases hmain : image.mem.load32 (image.command false i) = lcMain
    · have hne : image.mem.load32 (image.command false i) ≠ lcSegment := by
        rw [hmain]
        decide
      rw [if_pos hmain, if_pos ((hcommand.other hne).trans hmain), hcommand.main hmain]
    · rw [if_neg hmain, if_neg]
      by_cases hseg : image.mem.load32 (image.command false i) = lcSegment
      · rw [hcommand.segment hseg]
        decide
      · rw [hcommand.other hseg]
        exact hmain

end

theorem minVaddr_false (i : ℕ) : image.minVaddr false i = BitVec.allOnes 64 := by
  induction i with
  | zero => rfl
  | succ i ih => exact ih

theorem segment32_vmaddr_ne (mem : Memory w) (cmd : BitVec w) : (segment32 mem cmd).vmaddr ≠ BitVec.allOnes 64 := by
  intro h
  have hlt := (mem.load32 (cmd + 24)).isLt
  have hnat := congrArg BitVec.toNat h
  rw [segment32, BitVec.toNat_setWidth, Nat.mod_eq_of_lt (by omega), BitVec.toNat_allOnes] at hnat
  omega

/-- **`load_base` of the image of 64 bits** is `~0` only if no segment has a size. -/
theorem Widens.minVaddr_iff (h : Widens image image') {i : ℕ} (hi : i ≤ image.ncmds) :
    image'.minVaddr true i = BitVec.allOnes 64 ↔ ∀ seg ∈ image.segmentsTo false i, seg.vmsize = 0 := by
  induction i with
  | zero => simp [minVaddr, segmentsTo]
  | succ i ih =>
    have ih := ih (by omega)
    have hcommand := h.command i hi
    rw [minVaddr, segmentsTo_succ]
    cases hseg : segmentAt false image.mem (image.command false i) with
    | none =>
      rw [hcommand.none hseg, Option.toList_none, List.append_nil, ← ih]
      rfl
    | some seg =>
      obtain ⟨seg', hseg', hvmaddr, hvmsize, -⟩ := hcommand.some hseg
      have hne : seg.vmaddr ≠ BitVec.allOnes 64 := by
        rw [← segmentAt_false hseg]
        exact segment32_vmaddr_ne _ _
      rw [hseg', Option.toList_some, List.forall_mem_append, ← ih, List.forall_mem_singleton]
      simp only [lower, hvmaddr, hvmsize]
      exact lower_eq_allOnes hne

end

/-! ## Byte orders -/

/-- The numbers of the command `i` of `image'`, in `image` with their bytes in the other order. -/
structure SwapsCommand (is64bit : Bool) (image image' : Image w) (i : ℕ) : Prop where
  cmd : image.mem.load32 (image'.command is64bit i) = bswap32 (image'.mem.load32 (image'.command is64bit i))
  cmdsize : image.mem.load32 (image'.command is64bit i + 4) =
    bswap32 (image'.mem.load32 (image'.command is64bit i + 4))
  segment64 : is64bit → image'.mem.load32 (image'.command is64bit i) = lcSegment64 →
    ∀ k ∈ [24, 32, 40, 48], image.mem.load64 (image'.command is64bit i + k) =
      bswap64 (image'.mem.load64 (image'.command is64bit i + k))
  segment32 : ¬ is64bit → image'.mem.load32 (image'.command is64bit i) = lcSegment →
    ∀ k ∈ [24, 28, 32, 36], image.mem.load32 (image'.command is64bit i + k) =
      bswap32 (image'.mem.load32 (image'.command is64bit i + k))
  main : image'.mem.load32 (image'.command is64bit i) = lcMain →
    image.mem.load32 (image'.command is64bit i + 8) = bswap32 (image'.mem.load32 (image'.command is64bit i + 8))

/-- `image` is accepted as byte-swapped, and `image'` is its byte-swapped counterpart. -/
structure Swaps (is64bit : Bool) (image image' : Image w) : Prop where
  base : image'.base = image.base
  size : image'.size = image.size
  magic : image.mem.load32 image.base = if is64bit then mhCigam64 else mhCigam
  magic' : image'.mem.load32 image'.base = if is64bit then mhMagic64 else mhMagic
  ncmds : image.mem.load32 (image'.base + 16) = bswap32 (image'.mem.load32 (image'.base + 16))
  command : ∀ i < image'.ncmds, SwapsCommand is64bit image image' i
  outside : ∀ a, a ∉ image'.span → image'.mem a = image.mem a

/-- Every number that the loader reads behind the magic number is the same in both byte orders; it is no
    segment command and no `LC_MAIN` then, so these are all. -/
structure SelfSwapped (is64bit : Bool) (image : Image w) : Prop where
  ncmds : bswap32 (image.mem.load32 (image.base + 16)) = image.mem.load32 (image.base + 16)
  cmd : ∀ i < image.ncmds, bswap32 (image.mem.load32 (image.command is64bit i)) =
    image.mem.load32 (image.command is64bit i)
  cmdsize : ∀ i < image.ncmds, bswap32 (image.mem.load32 (image.command is64bit i + 4)) =
    image.mem.load32 (image.command is64bit i + 4)

section
variable {image' : Image w} (h : Swaps is64bit image image') (hself : SelfSwapped is64bit image')

/-- A command that is the same in both byte orders is none that the loader knows. -/
theorem ne_of_bswap32 {v : BitVec 32} (hv : bswap32 v = v) : v ≠ lcSegment64 ∧ v ≠ lcSegment ∧ v ≠ lcMain := by
  refine ⟨?_, ?_, ?_⟩ <;>
  · rintro rfl
    exact absurd hv (by decide)

variable (is64bit) in
/-- So it is read and skipped. -/
theorem unknown_command {mem : Memory w} {cmd : BitVec w} (hv : bswap32 (mem.load32 cmd) = mem.load32 cmd) :
    segmentAt is64bit mem cmd = none ∧ fieldReads is64bit mem cmd = [⟨cmd, 4⟩, ⟨cmd + 4, 4⟩] ∧
      ∀ base e, entryAt base mem cmd e = e := by
  obtain ⟨h₁, h₂, h₃⟩ := ne_of_bswap32 hv
  refine ⟨?_, ?_, fun base e => if_neg h₃⟩
  · simp only [segmentAt, h₁, h₂, and_false, if_false]
  · simp only [fieldReads, h₁, h₂, h₃, and_false, if_false, List.append_nil]

section
variable (hcmd : ∀ i < image.ncmds, bswap32 (image.mem.load32 (image.command is64bit i)) =
  image.mem.load32 (image.command is64bit i))
include hcmd

/-- An image all of whose commands are unknown: nothing is done. -/
theorem idle_results {i : ℕ} (hi : i ≤ image.ncmds) :
    image.loaded is64bit i = image.mem ∧ image.minVaddr is64bit i = BitVec.allOnes 64 ∧ image.entry is64bit i = 0 := by
  induction i with
  | zero => exact ⟨rfl, rfl, rfl⟩
  | succ i ih =>
    obtain ⟨hmem, hmin, hentry⟩ := ih (by omega)
    obtain ⟨hseg, -, hmain⟩ := unknown_command is64bit (hcmd i hi)
    refine ⟨?_, ?_, ?_⟩
    · rw [loaded_succ_none hseg, hmem]
    · rw [minVaddr, hseg, hmin]
      cases is64bit <;> rfl
    · rw [entry, hmain, hentry]

theorem idle_segments : image.segments is64bit = [] := by
  refine List.filterMap_eq_nil_iff.2 fun i hi => ?_
  exact (unknown_command is64bit (hcmd i (List.mem_range.1 hi))).1

theorem idle_apart : image.Apart is64bit := by
  intro i hi r hr
  rw [writtenAt, (unknown_command is64bit (hcmd i hi)).1] at hr
  exact absurd hr List.not_mem_nil

end

include h hself

theorem Swaps.ncmds_eq : image.ncmds = image'.ncmds := by
  unfold Image.ncmds
  rw [← h.base, h.ncmds, hself.ncmds]

/-- The commands are at the same offsets. -/
theorem Swaps.offset_eq {i : ℕ} (hi : i ≤ image'.ncmds) : image.offset is64bit i = image'.offset is64bit i := by
  induction i with
  | zero => rfl
  | succ i ih =>
    have hsize := (h.command i hi).cmdsize.trans (hself.cmdsize i hi)
    rw [Image.command] at hsize
    rw [offset, offset, ih (by omega), ← h.base, hsize]

theorem Swaps.command_eq {i : ℕ} (hi : i ≤ image'.ncmds) : image.command is64bit i = image'.command is64bit i := by
  rw [Image.command, Image.command, h.offset_eq hself hi, h.base]

/-- The commands are the same. -/
theorem Swaps.cmd_eq {i : ℕ} (hi : i < image'.ncmds) :
    image.mem.load32 (image.command is64bit i) = image'.mem.load32 (image'.command is64bit i) := by
  rw [h.command_eq hself hi.le, (h.command i hi).cmd, hself.cmd i hi]

theorem Swaps.selfSwapped : ∀ i < image.ncmds, bswap32 (image.mem.load32 (image.command is64bit i)) =
    image.mem.load32 (image.command is64bit i) := by
  intro i hi
  rw [h.ncmds_eq hself] at hi
  rw [h.cmd_eq hself hi]
  exact hself.cmd i hi

/-- So the image is well-formed as it stands, too. -/
theorem Swaps.loadable (hl : image'.Loadable is64bit) : image.Loadable is64bit := by
  have hspan : image'.span = image.span := by rw [span, span, h.base, h.size]
  have hnone := idle_segments (h.selfSwapped hself)
  refine ⟨?_, ?_, ?_, ?_, ?_⟩
  · have hsize := accepted_size hl.accepted
    rw [h.size] at hsize
    rw [accepted, if_neg (by omega), h.magic]
    cases is64bit <;> decide
  · intro i hi
    have hi' : i < image'.ncmds := h.ncmds_eq hself ▸ hi
    obtain ⟨hheader, hcommand, -⟩ := hl.fits i hi'
    rw [h.size] at hheader hcommand
    refine ⟨?_, ?_, fun seg hseg => ?_⟩
    · rwa [h.offset_eq hself hi'.le]
    · rwa [h.offset_eq hself hi']
    · rw [(unknown_command is64bit (h.selfSwapped hself i hi)).1] at hseg
      cases hseg
  · intro i hi r hr
    have hi' : i < image'.ncmds := h.ncmds_eq hself ▸ hi
    rw [(unknown_command is64bit (h.selfSwapped hself i hi)).2.1, h.command_eq hself hi'.le] at hr
    rw [← hspan]
    refine hl.fields i hi' r ?_
    rw [(unknown_command is64bit (hself.cmd i hi')).2.1]
    exact hr
  · rw [hnone]
    exact List.Pairwise.nil
  · rw [hnone]
    exact fun seg hseg => absurd hseg List.not_mem_nil

end

/-! ## The theorem -/

/-- An image and the same with 64 bits agree exactly if no segment has a size. -/
theorem Widens.agree_iff {image' : Image w} (h : Widens image image') (hl : image.Loadable false)
    (hl' : image'.Loadable true) (hapart : image.Apart false) (hapart' : image'.Apart true) :
    Agree false image image' ↔ ∀ seg ∈ image.segments false, seg.vmsize = 0 := by
  obtain ⟨hmem, hbase, hentry⟩ := hl.results hapart
  obtain ⟨hmem', hbase', hentry'⟩ := hl'.results hapart'
  have hiff := h.minVaddr_iff le_rfl
  constructor
  · intro hagree
    have heq := hagree.loadBase
    rw [hbase, hbase', h.ncmds, minVaddr_false] at heq
    exact hiff.1 heq
  · intro hsize
    refine ⟨?_, ?_, ?_, ?_, ?_⟩
    · intro a ha ha'
      rw [hmem, hmem', h.ncmds]
      exact h.loaded_eq hl hl' hapart hapart' le_rfl ha ha'
    · rw [(machoLoad_accepted hl.accepted).2, (machoLoad_accepted hl'.accepted).2]
    · rw [hbase, hbase', h.ncmds, minVaddr_false]
      exact hiff.2 hsize
    · rintro ⟨seg, hseg, hpos⟩
      rw [hsize seg hseg] at hpos
      exact absurd hpos (BitVec.lt_irrefl 0)
    · rw [hentry, hentry', h.ncmds]
      exact h.entry_eq le_rfl

/-- An image and its byte-swapped counterpart agree if the numbers that are read are the same in both orders. -/
theorem Swaps.agree {image' : Image w} (h : Swaps is64bit image image') (hself : SelfSwapped is64bit image')
    (hl' : image'.Loadable is64bit) : Agree is64bit image image' := by
  have hl := h.loadable hself hl'
  have hcmd := h.selfSwapped hself
  obtain ⟨hmem, hbase, hentry⟩ := hl.results (idle_apart hcmd)
  obtain ⟨hmem', hbase', hentry'⟩ := hl'.results (idle_apart hself.cmd)
  obtain ⟨himem, himin, hientry⟩ := idle_results hcmd le_rfl
  obtain ⟨himem', himin', hientry'⟩ := idle_results hself.cmd le_rfl
  refine ⟨?_, ?_, ?_, ?_, ?_⟩
  · intro a _ ha'
    rw [hmem, hmem', himem, himem']
    exact h.outside a ha'
  · rw [(machoLoad_accepted hl.accepted).2, (machoLoad_accepted hl'.accepted).2]
  · rw [hbase, hbase', himin, himin']
  · rintro ⟨seg, hseg, -⟩
    rw [idle_segments hcmd] at hseg
    exact absurd hseg List.not_mem_nil
  · rw [hentry, hentry', hientry, hientry']

/-- **Widths and byte orders**: a well-formed image of 32 bits and the same image with 64 bits leave the same
    memory, `load_base` and entry point exactly if no segment has a nonzero size, since the branch of 32 bits
    does not keep `min_vaddr`; an image that is accepted as byte-swapped agrees with its counterpart if no number
    that is read behind the magic number would have to be swapped. -/
theorem counterparts_agree :
    (∀ image image' : Image w, image.Loadable false → image.Apart false → image'.Loadable true → image'.Apart true →
      Widens image image' → (Agree false image image' ↔ ∀ seg ∈ image.segments false, seg.vmsize = 0)) ∧
    ∀ (is64bit : Bool) (image image' : Image w), image'.Loadable is64bit → Swaps is64bit image image' →
      SelfSwapped is64bit image' → Agree is64bit image image' :=
  ⟨fun _ _ hl hapart hl' hapart' h => h.agree_iff hl hl' hapart hapart', fun _ _ _ hl h hself => h.agree hself hl⟩

end Image

/-- An image of 32 bits with one segment, at 200. -/
def narrowImage (vmsize filesize : BitVec 8) : Image 32 where
  base := 0
  size := 84
  mem := bytesAt0 <|
    [0xce, 0xfa, 0xed, 0xfe] ++ .replicate 12 0 ++ [1] ++ .replicate 11 0 ++ [0x1, 0, 0, 0, 56, 0, 0, 0] ++
      .replicate 16 0 ++ [200, 0, 0, 0, vmsize, 0, 0, 0, 83, 0, 0, 0, filesize, 0, 0, 0] ++ .replicate 15 0 ++ [0xaa]

/-- The same with 64 bits. -/
def wideImage (vmsize filesize : BitVec 8) : Image 32 where
  base := 0
  size := 104
  mem := bytesAt0 <|
    [0xcf, 0xfa, 0xed, 0xfe] ++ .replicate 12 0 ++ [1] ++ .replicate 15 0 ++ [0x19, 0, 0, 0, 72, 0, 0, 0] ++
      .replicate 16 0 ++ [200] ++ .replicate 7 0 ++ [vmsize] ++ .replicate 7 0 ++ [103] ++ .replicate 7 0 ++
      [filesize] ++ .replicate 7 0 ++ .replicate 15 0 ++ [0xaa]

theorem bytesAt0_of_le {bytes : List (BitVec 8)} {a : BitVec 32} (h : bytes.length ≤ a.toNat) :
    bytesAt0 bytes a = 0 := by
  rw [bytesAt0, List.getD_eq_getElem?_getD, List.getElem?_eq_none h]
  rfl

/-- Behind both images there is nothing. -/
theorem wideImage_outside (vmsize filesize : BitVec 8) {a : BitVec 32} (h : a ∉ (wideImage vmsize filesize).span) :
    (wideImage vmsize filesize).mem a = (narrowImage vmsize filesize).mem a := by
  have hle : 104 ≤ a.toNat := by
    rw [Span.mem_def] at h
    simpa [Image.span, wideImage] using h
  have hle' : 84 ≤ a.toNat := by omega
  exact (bytesAt0_of_le (by simpa using hle)).trans (bytesAt0_of_le (by simpa using hle')).symm

/-- The image is widened if its command is. -/
theorem widens_wideImage {vmsize filesize : BitVec 8} (hcount : (wideImage vmsize filesize).ncmds = 1)
    (hcount' : (narrowImage vmsize filesize).ncmds = 1)
    (hmagic : (narrowImage vmsize filesize).mem.load32 0 = mhMagic)
    (hmagic' : (wideImage vmsize filesize).mem.load32 0 = mhMagic64)
    (hcmd : Image.WidensCommand (narrowImage vmsize filesize) (wideImage vmsize filesize) 0) :
    Image.Widens (narrowImage vmsize filesize) (wideImage vmsize filesize) := by
  refine ⟨rfl, hmagic, hmagic', hcount.trans hcount'.symm, ?_, fun a _ ha => wideImage_outside _ _ ha⟩
  intro i hi
  obtain rfl : i = 0 := by omega
  exact hcmd

/-- A header of 64 bits without commands. -/
def emptyImage (magic : List (BitVec 8)) : Image 32 where
  base := 0
  size := 32
  mem := bytesAt0 magic

theorem emptyImage_outside {magic : List (BitVec 8)} (hlen : magic.length ≤ 32) {a : BitVec 32}
    (h : a ∉ (emptyImage magic).span) : (emptyImage magic).mem a = 0 := by
  have hle : 32 ≤ a.toNat := by
    rw [Span.mem_def] at h
    simpa [Image.span, emptyImage] using h
  exact bytesAt0_of_le (hlen.trans hle)

/-- An image without a command is well-formed. -/
theorem Image.loadable_of_none {image : Image w} {is64bit : Bool} (hacc : image.accepted = some is64bit)
    (hzero : image.ncmds = 0) : image.Loadable is64bit := by
  have hnone : image.segments is64bit = [] := by
    rw [Image.segments, hzero]
    rfl
  refine ⟨hacc, fun i hi => absurd hi (by omega), fun i hi => absurd hi (by omega), ?_, ?_⟩
  · rw [hnone]
    exact List.Pairwise.nil
  · rw [hnone]
    exact fun seg hseg => absurd hseg List.not_mem_nil

/-- A segment without a size, and a header without commands in the other byte order. -/
theorem counterparts_agree_unsized :
    Image.Agree false (narrowImage 0 0) (wideImage 0 0) ∧
      Image.Agree true (emptyImage [0xfe, 0xed, 0xfa, 0xcf]) (emptyImage [0xcf, 0xfa, 0xed, 0xfe]) := by
  constructor
  · have hwiden : Image.Widens (narrowImage 0 0) (wideImage 0 0) :=
      widens_wideImage (by decide +kernel) (by decide +kernel) (by decide +kernel) (by decide +kernel)
        ⟨by decide +kernel, by decide +kernel, by decide +kernel, by decide +kernel, by decide +kernel,
          by decide +kernel⟩
    refine (Image.counterparts_agree.1 _ _ ?_ ?_ ?_ ?_ hwiden).2 (by decide +kernel)
    · have hseg : segmentAt false (narrowImage 0 0).mem ((narrowImage 0 0).command false 0) =
          some ⟨200, 0, 83, 0⟩ := by
        decide +kernel
      exact Image.loadable_of_one (by decide +kernel) (by decide +kernel) hseg (by decide +kernel)
        (by decide +kernel)
        (by decide +kernel) (by decide +kernel)
    · unfold Image.Apart Image.ApartTo
      decide +kernel
    · have hseg : segmentAt true (wideImage 0 0).mem ((wideImage 0 0).command true 0) =
          some ⟨200, 0, 103, 0⟩ := by
        decide +kernel
      exact Image.loadable_of_one (by decide +kernel) (by decide +kernel) hseg (by decide +kernel)
        (by decide +kernel)
        (by decide +kernel) (by decide +kernel)
    · unfold Image.Apart Image.ApartTo
      decide +kernel
  · have hzero : (emptyImage [0xcf, 0xfa, 0xed, 0xfe]).ncmds = 0 := by decide +kernel
    refine Image.counterparts_agree.2 true _ _ (Image.loadable_of_none (by decide +kernel) hzero) ?_ ?_
    · refine ⟨rfl,
        rfl, by
          decide +kernel, by decide +kernel, by decide +kernel, fun i hi => absurd hi (by omega), ?_⟩
      intro a ha
      have ha' : a ∉ (emptyImage [0xfe, 0xed, 0xfa, 0xcf]).span := ha
      exact (emptyImage_outside (by decide) ha).trans (emptyImage_outside (by decide) ha').symm
    · exact ⟨by decide +kernel, fun i hi => absurd hi (by omega), fun i hi => absurd hi (by omega)⟩

/-- A segment of one byte of file data and one more: the image of 32 bits has no `load_base`. -/
theorem narrowImage_not_agree :
    (narrowImage 2 1).Loadable false ∧ (narrowImage 2 1).Apart false ∧ (wideImage 2 1).Loadable true ∧
      (wideImage 2 1).Apart true ∧ Image.Widens (narrowImage 2 1) (wideImage 2 1) ∧
      ¬ Image.Agree false (narrowImage 2 1) (wideImage 2 1) := by
  refine ⟨?_, ?_, ?_, ?_, ?_, ?_⟩
  · have hseg : segmentAt false (narrowImage 2 1).mem ((narrowImage 2 1).command false 0) =
        some ⟨200, 2, 83, 1⟩ := by
      decide +kernel
    exact Image.loadable_of_one (by decide +kernel) (by decide +kernel) hseg (by decide +kernel)
      (by decide +kernel)
      (by decide +kernel) (by decide +kernel)
  · unfold Image.Apart Image.ApartTo
    decide +kernel
  · have hseg : segmentAt true (wideImage 2 1).mem ((wideImage 2 1).command true 0) =
        some ⟨200, 2, 103, 1⟩ := by
      decide +kernel
    exact Image.loadable_of_one (by decide +kernel) (by decide +kernel) hseg (by decide +kernel)
      (by decide +kernel)
      (by decide +kernel) (by decide +kernel)
  · unfold Image.Apart Image.ApartTo
    decide +kernel
  · exact widens_wideImage (by decide +kernel) (by decide +kernel) (by decide +kernel)
      (by decide +kernel)
      ⟨by
        decide +kernel, by
          decide +kernel, by decide +kernel, by decide +kernel, by decide +kernel, by decide +kernel⟩
  · intro h
    have hbase := h.loadBase
    revert hbase
    decide +kernel

end PocketDarwin.Kickstart
