/-
  What the Mach-O loader leaves in memory.

  The loader copies the file data of a segment whatever the size of its memory is, and
  it zeroes the rest only of a segment that has file data.  A segment without any
  keeps what was in its memory, and one with too much is copied over what lies behind.
-/
import Mathlib.Data.List.Pairwise
import PocketDarwin.Kickstart.Bounds

namespace PocketDarwin.Kickstart

variable {w : ℕ}

/-! ## Segments in memory -/

namespace Segment
variable (seg : Segment)

/-- `[vmaddr, vmaddr + vmsize)` -/
def range (w : ℕ) : Span w := ⟨seg.vmaddr.setWidth w, seg.vmsize.toNat⟩

/-- The byte that belongs at an address of a segment: file data, then zeros. -/
def byte (base : BitVec w) (mem : Memory w) (a : BitVec w) : BitVec 8 :=
  let i := (a - seg.vmaddr.setWidth w).toNat
  if i < seg.filesize.toNat then mem (base + BitVec.ofNat w (seg.fileoff.toNat + i)) else 0

/-- The loader writes to an address for a segment. -/
def Covers (a : BitVec w) : Prop := ∃ r ∈ seg.written w, a ∈ r

instance (a : BitVec w) : Decidable (seg.Covers a) := inferInstanceAs (Decidable (∃ r ∈ _, _))

end Segment

namespace Image
variable (image : Image w) (is64bit : Bool)

/-- The segments of the first `n` commands, and of all. -/
def segmentsTo (n : ℕ) : List Segment :=
  (List.range n).filterMap fun i => segmentAt is64bit image.mem (image.command is64bit i)

def segments : List Segment := image.segmentsTo is64bit image.ncmds

/-- A well-formed image, whose segments are apart from each other and from the image. -/
structure Loadable : Prop where
  accepted : image.accepted = some is64bit
  fits : image.CommandsFit is64bit
  fields : image.FieldsInside is64bit
  disjoint : (image.segments is64bit).Pairwise fun seg seg' => (seg.range w).Disjoint (seg'.range w)
  apart : ∀ seg ∈ image.segments is64bit, (seg.range w).Disjoint image.span

/-- Every segment is in memory, and nothing else was written. -/
structure Contents : Prop where
  bytes : ∀ seg ∈ image.segments is64bit, ∀ a ∈ seg.range w,
    (machoLoad image.base image.size image.mem).2.mem a = seg.byte image.base image.mem a
  writes : ∀ r ∈ (machoLoad image.base image.size image.mem).2.writes, ∀ a ∈ r,
    ∃ seg ∈ image.segments is64bit, a ∈ seg.range w

/-- What is written for a segment is memory of some segment. -/
def InRanges : Prop :=
  ∀ seg ∈ image.segments is64bit, ∀ a, seg.Covers a → ∃ seg' ∈ image.segments is64bit, a ∈ seg'.range w

/-- The byte that the last segment to cover an address puts there. -/
def lastByte (segs : List Segment) (a : BitVec w) : BitVec 8 :=
  segs.foldl (fun b seg => if seg.Covers a then seg.byte image.base image.mem a else b) (image.mem a)

/-- For every byte of a segment, that is the byte that belongs there. -/
def LastRight : Prop :=
  ∀ seg ∈ image.segments is64bit, ∀ a ∈ seg.range w,
    image.lastByte (image.segments is64bit) a = seg.byte image.base image.mem a

/-- No segment has more file data than memory. -/
def NoOverrun : Prop := ∀ seg ∈ image.segments is64bit, seg.filesize ≤ seg.vmsize

/-- The memory of a segment without file data is zero already. -/
def ZeroDone : Prop :=
  ∀ seg ∈ image.segments is64bit, seg.filesize = 0 → ∀ a ∈ seg.range w, image.mem a = 0

variable {image is64bit}

theorem mem_segmentsTo {n : ℕ} {seg : Segment} :
    seg ∈ image.segmentsTo is64bit n ↔
      ∃ i < n, segmentAt is64bit image.mem (image.command is64bit i) = some seg := by
  simp [segmentsTo]

/-! ## Sizes -/

namespace Loadable
variable (h : image.Loadable is64bit) {seg : Segment} (hseg : seg ∈ image.segments is64bit)
include h hseg

/-- The memory of a segment is not the whole memory: the image is elsewhere. -/
theorem vmsize_lt : seg.vmsize.toNat < 2 ^ w := by
  by_contra hge
  have hbase : image.base ∈ image.span := by
    have := accepted_size h.accepted
    rw [Span.mem_def, span, sub_self]
    exact (by omega : 0 < image.size.toNat)
  refine h.apart seg hseg image.base ?_ hbase
  exact lt_of_lt_of_le (image.base - seg.vmaddr.setWidth w).isLt (Nat.le_of_not_lt hge)

theorem file : seg.filesize = 0 ∨ seg.fileoff.toNat + seg.filesize.toNat ≤ image.size.toNat := by
  obtain ⟨i, hi, hi'⟩ := mem_segmentsTo.1 hseg
  exact (h.fits i hi).file seg hi'

theorem filesize_lt : seg.filesize.toNat < 2 ^ w := by
  have hsize := image.size.isLt
  rcases h.file hseg with hzero | hle
  · rw [hzero]
    exact Nat.two_pow_pos w
  · omega

theorem copied_length : (seg.copied w).length = seg.filesize.toNat := by
  rw [Segment.copied, BitVec.toNat_setWidth, Nat.mod_eq_of_lt (h.filesize_lt hseg)]

theorem zeroed_length (hlt : seg.filesize < seg.vmsize) :
    (seg.zeroed w).length = seg.vmsize.toNat - seg.filesize.toNat := by
  have hv := h.vmsize_lt hseg
  have hle : seg.filesize.toNat ≤ seg.vmsize.toNat := Nat.le_of_lt hlt
  rw [Segment.zeroed, BitVec.toNat_setWidth, BitVec.toNat_sub_of_le (BitVec.le_def.2 hle),
    Nat.mod_eq_of_lt (by omega)]

theorem mem_copied (a : BitVec w) :
    a ∈ seg.copied w ↔ (a - seg.vmaddr.setWidth w).toNat < seg.filesize.toNat := by
  rw [Span.mem_def, h.copied_length hseg, Segment.copied]

theorem mem_zeroed (hlt : seg.filesize < seg.vmsize) (a : BitVec w) :
    a ∈ seg.zeroed w ↔ seg.filesize.toNat ≤ (a - seg.vmaddr.setWidth w).toNat ∧
      (a - seg.vmaddr.setWidth w).toNat < seg.vmsize.toNat := by
  have hv := h.vmsize_lt hseg
  have hfs : (seg.filesize.setWidth w).toNat = seg.filesize.toNat := h.copied_length hseg
  have hlt' : seg.filesize.toNat < seg.vmsize.toNat := hlt
  rw [Span.mem_def, h.zeroed_length hseg hlt, Segment.zeroed, ← sub_sub]
  generalize a - seg.vmaddr.setWidth w = d
  have hd := d.isLt
  by_cases hle : seg.filesize.toNat ≤ d.toNat
  · rw [BitVec.toNat_sub_of_le (BitVec.le_def.2 (hfs.trans_le hle)), hfs]
    omega
  · rw [BitVec.toNat_sub_of_lt (BitVec.lt_def.2 (by omega)), hfs]
    omega

/-- What the loader writes for a segment. -/
theorem covers_iff (a : BitVec w) :
    seg.Covers a ↔ 0 < seg.filesize ∧
      ((a - seg.vmaddr.setWidth w).toNat < seg.filesize.toNat ∨
        (a - seg.vmaddr.setWidth w).toNat < seg.vmsize.toNat) := by
  rw [Segment.Covers, Segment.written]
  by_cases hpos : 0 < seg.filesize
  · rw [if_pos hpos, and_iff_right hpos]
    by_cases hlt : seg.filesize < seg.vmsize
    · have hlt' : seg.filesize.toNat < seg.vmsize.toNat := hlt
      rw [if_pos hlt]
      simp only [List.mem_cons, List.not_mem_nil, or_false, exists_eq_or_imp, exists_eq_left,
        h.mem_copied hseg,
        h.mem_zeroed hseg hlt]
      omega
    · have hge : seg.vmsize.toNat ≤ seg.filesize.toNat := Nat.le_of_not_lt hlt
      rw [if_neg hlt]
      simp only [List.mem_cons, List.not_mem_nil, or_false, exists_eq_left, h.mem_copied hseg]
      omega
  · rw [if_neg hpos]
    simp only [List.not_mem_nil, false_and, exists_false, false_iff, not_and]
    intro hpos'
    exact absurd hpos' hpos

/-! ## Copies -/

/-- The copy of the file data. -/
theorem copy_byte (hdisj : (seg.copied w).Disjoint image.span) {mem : Memory w}
    (hagree : Memory.AgreeOn image.span mem image.mem) {a : BitVec w} (ha : a ∈ seg.copied w) :
    memcpy (seg.copied w).start (seg.payload image.base).start (seg.filesize.setWidth w) mem a =
      seg.byte image.base image.mem a := by
  have hfs : (seg.filesize.setWidth w).toNat = seg.filesize.toNat := h.copied_length hseg
  have hx := (h.mem_copied hseg a).1 ha
  have hin : seg.payload image.base ⊆ image.span := by
    rcases h.file hseg with hzero | hle
    · rw [hzero] at hx
      exact absurd hx (Nat.not_lt_zero _)
    · exact payload_subset hle
  rw [Segment.byte, if_pos hx]
  obtain ⟨i, hi, rfl⟩ := Span.exists_index ha
  have hi' : i < (seg.filesize.setWidth w).toNat := hi
  have hcopy : memcpy (seg.copied w).start (seg.payload image.base).start (seg.filesize.setWidth w) mem
      ((seg.copied w).start + BitVec.ofNat w i) =
        mem ((seg.payload image.base).start + BitVec.ofNat w i) :=
    Memory.copy_apply (Nat.le_of_lt (BitVec.isLt _)) (Span.Disjoint.mono hin hdisj.symm) mem hi'
  have hindex : ((seg.copied w).start + BitVec.ofNat w i - seg.vmaddr.setWidth w).toNat = i := by
    have hlt : i < 2 ^ w := hi'.trans (BitVec.isLt _)
    rw [Segment.copied, add_sub_cancel_left, BitVec.toNat_ofNat, Nat.mod_eq_of_lt hlt]
  rw [hcopy, hagree _ (hin _ (Span.mem_start_add (s := seg.payload image.base) hi')), hindex]
  rw [Segment.payload, BitVec.ofNat_add, BitVec.ofNat_toNat, add_assoc]

/-- The loader puts the bytes of a segment where it writes for it, if the image stays. -/
theorem load_apply (hdisj : ∀ r ∈ seg.written w, r.Disjoint image.span) {mem : Memory w}
    (hagree : Memory.AgreeOn image.span mem image.mem) (a : BitVec w) :
    seg.load image.base mem a = if seg.Covers a then seg.byte image.base image.mem a else mem a := by
  split_ifs with hcov
  · obtain ⟨hpos, hx⟩ := (h.covers_iff hseg a).1 hcov
    have hcopied : (seg.copied w).Disjoint image.span := hdisj _ (Segment.copied_mem_written hpos)
    rw [Segment.load, if_pos hpos]
    by_cases hlt : seg.filesize < seg.vmsize
    · simp only [if_pos hlt]
      by_cases hz : a ∈ seg.zeroed w
      · have hge := ((h.mem_zeroed hseg hlt a).1 hz).1
        rw [Segment.byte, if_neg (Nat.not_lt.2 hge)]
        obtain ⟨i, hi, rfl⟩ := Span.exists_index hz
        exact Memory.fill_apply (Nat.le_of_lt (BitVec.isLt _)) 0 _ hi
      · have hc : a ∈ seg.copied w := by
          rw [h.mem_copied hseg]
          rw [h.mem_zeroed hseg hlt] at hz
          have hlt' : seg.filesize.toNat < seg.vmsize.toNat := hlt
          omega
        exact (Memory.fill_of_notMem hz 0 _).trans (h.copy_byte hseg hcopied hagree hc)
    · simp only [if_neg hlt]
      refine h.copy_byte hseg hcopied hagree ((h.mem_copied hseg a).2 ?_)
      have hge : seg.vmsize.toNat ≤ seg.filesize.toNat := Nat.le_of_not_lt hlt
      omega
  · exact Segment.load_of_notMem (fun r hr har => hcov ⟨r, hr, har⟩) _ _

end Loadable

/-! ## The memory behind the loop -/

theorem mem_writtenAt {cmd : BitVec w} {r : Span w} :
    r ∈ writtenAt is64bit image.mem cmd ↔
      ∃ seg, segmentAt is64bit image.mem cmd = some seg ∧ r ∈ seg.written w := by
  rw [writtenAt]
  cases segmentAt is64bit image.mem cmd with
  | none => simp
  | some seg => simp

theorem segmentsTo_succ (n : ℕ) :
    image.segmentsTo is64bit (n + 1) =
      image.segmentsTo is64bit n ++ (segmentAt is64bit image.mem (image.command is64bit n)).toList := by
  rw [segmentsTo, List.range_succ, List.filterMap_append]
  rfl

theorem Loadable.loaded_eq (h : image.Loadable is64bit) {n : ℕ} (hn : n ≤ image.ncmds)
    (hapart : image.ApartTo is64bit n) (a : BitVec w) :
    image.loaded is64bit n a = image.lastByte (image.segmentsTo is64bit n) a := by
  induction n with
  | zero => rfl
  | succ n ih =>
    have hapart' : image.ApartTo is64bit n := fun i hi => hapart i (by omega)
    have ih := ih (by omega) hapart'
    rw [loaded, loadAt, segmentsTo_succ]
    cases hseg : segmentAt is64bit image.mem (image.command is64bit n) with
    | none => simpa using ih
    | some seg =>
      have hmem : seg ∈ image.segments is64bit := mem_segmentsTo.2 ⟨n, hn, hseg⟩
      have hdisj : ∀ r ∈ seg.written w, r.Disjoint image.span :=
        fun r hr => hapart n n.lt_succ_self r (mem_writtenAt.2 ⟨seg, hseg, hr⟩)
      have happly := h.load_apply hmem hdisj (hapart'.agree le_rfl) a
      simp only [Option.map_some, Option.getD_some, Option.toList_some, lastByte, List.foldl_append,
        List.foldl_cons,
        List.foldl_nil]
      rw [happly, ih, lastByte]

/-- Where only memory of the segments is written, the image stays as it is. -/
theorem Loadable.apart_of_inRanges (h : image.Loadable is64bit) (hin : image.InRanges is64bit) :
    image.Apart is64bit := by
  intro i hi r hr a ha hspan
  obtain ⟨seg, hseg, hr⟩ := mem_writtenAt.1 hr
  obtain ⟨seg', hseg', ha'⟩ := hin seg (mem_segmentsTo.2 ⟨i, hi, hseg⟩) a ⟨r, hr, ha⟩
  exact h.apart seg' hseg' a ha' hspan

/-- The loop ends behind the last command, with what its rounds keep. -/
theorem run_end {P : ℕ → Loader w → Prop} (hacc : image.accepted = some is64bit)
    (hfields : image.FieldsInside is64bit) (hstays : image.StaysTo is64bit image.ncmds)
    (hstart : P 0 (image.start is64bit))
    (hP : ∀ i s, i < image.ncmds → image.Follows is64bit i s → P i s →
      P (i + 1) (Kickstart.round image.base is64bit s)) :
    ∃ s', image.Follows is64bit image.ncmds s' ∧ P image.ncmds s' ∧
      (machoLoad image.base image.size image.mem).2 =
        { s' with reads := ⟨image.base + 16, 4⟩ :: s'.reads } := by
  have hlt := image.ncmds_lt
  have hcount := count_subset hacc
  obtain ⟨s', hs', hPs', hrun⟩ := Follows.run_with hstays le_rfl hcount hfields hP image.ncmds
    (2 ^ 32 - image.ncmds) follows_start hstart (Nat.zero_add _)
  obtain ⟨rounds, hrounds⟩ : ∃ rounds, 2 ^ 32 - image.ncmds = rounds + 1 :=
    ⟨2 ^ 32 - image.ncmds - 1, by omega⟩
  refine ⟨s', hs', hPs', ?_⟩
  rw [(machoLoad_accepted hacc).1]
  rw [Nat.sub_add_cancel (Nat.le_of_lt hlt), hrounds] at hrun
  rw [hrun, loadCommands, hs'.ncmds_eq hstays le_rfl hcount]
  simp only [lt_self_iff_false, if_false]

/-- The loop ends behind the last command. -/
theorem Loadable.follows_end (h : image.Loadable is64bit) (hapart : image.Apart is64bit) :
    image.Follows is64bit image.ncmds (machoLoad image.base image.size image.mem).2 := by
  obtain ⟨s', hs', -, hend⟩ := run_end (P := fun _ _ => True) h.accepted h.fields (ApartTo.stays hapart)
    trivial fun _ _ _ _ _ => trivial
  rw [hend]
  exact ⟨hs'.cmd, hs'.mem, hs'.writes⟩

/-! ## Writes outside -/

/-- A round keeps what was written, and writes the file data of its segment. -/
theorem loadSegment_writes (base : BitVec w) (f : Memory w → Segment) (s : Loader w) :
    (f s.mem).copied w ∈ (loadSegment base f s).writes ∧ ∀ r ∈ s.writes, r ∈ (loadSegment base f s).writes := by
  simp only [loadSegment, Segment.copied]
  split_ifs <;> simp_all

theorem round_writes_mono (base : BitVec w) (is64bit : Bool) (s : Loader w) {r : Span w} (hr : r ∈ s.writes) :
    r ∈ (round base is64bit s).writes := by
  simp only [Kickstart.round, nextCommand, loadCommand, loadSegment64, loadSegment32, loadMain]
  split_ifs <;> first | exact hr | exact (loadSegment_writes _ _ _).2 r hr

theorem loadCommands_writes_mono (base : BitVec w) (is64bit : Bool) (rounds i : ℕ) (s : Loader w) {r : Span w}
    (hr : r ∈ s.writes) : r ∈ (loadCommands base is64bit rounds i s).writes := by
  induction rounds generalizing i s with
  | zero => exact hr
  | succ rounds ih =>
    simp only [loadCommands]
    split_ifs
    · exact ih (i + 1) _ (round_writes_mono base is64bit s hr)
    · exact hr

theorem copied_mem_round_writes {base : BitVec w} {s : Loader w} {seg : Segment}
    (hseg : segmentAt is64bit s.mem s.cmd = some seg) (hpos : 0 < seg.filesize) :
    seg.copied w ∈ (round base is64bit s).writes := by
  rcases segmentAt_cases hseg with ⟨rfl, hcmd, rfl⟩ | ⟨rfl, hcmd, rfl⟩
  · simp only [Kickstart.round, nextCommand, loadCommand, hcmd, and_self, if_true, loadSegment64, hpos]
    exact (loadSegment_writes base (fun mem => segment64 mem s.cmd) _).1
  · simp only [Kickstart.round, nextCommand, loadCommand, hcmd, Bool.false_eq_true, false_and, if_false,
      not_false_eq_true, and_self, if_true, loadSegment32, hpos]
    exact (loadSegment_writes base (fun mem => segment32 mem s.cmd) _).1

/-- What is written for the first command that leaves the memory of the segments is
    written there. -/
theorem Loadable.inRanges_of_contents (h : image.Loadable is64bit) (hc : image.Contents is64bit) :
    image.InRanges is64bit := by
  classical
  by_contra hno
  -- the first segment that is written outside
  have hex : ∃ k, k < image.ncmds ∧ ∃ seg, segmentAt is64bit image.mem (image.command is64bit k) =
      some seg ∧
      ∃ a, seg.Covers a ∧ ∀ seg' ∈ image.segments is64bit, a ∉ seg'.range w := by
    simp only [InRanges, not_forall, not_exists, not_and] at hno
    obtain ⟨seg, hseg, a, hcov, hout⟩ := hno
    obtain ⟨k, hk, hk'⟩ := mem_segmentsTo.1 hseg
    exact ⟨k, hk, seg, hk', a, hcov, hout⟩
  obtain ⟨hk, seg, hseg, a, hcov, hout⟩ := Nat.find_spec hex
  have hmin : ∀ i < Nat.find hex, ¬ _ := fun i hi => Nat.find_min hex hi
  generalize Nat.find hex = k at hk hseg hmin
  have hapart : image.ApartTo is64bit k := by
    intro i hi r hr b hb hspan
    obtain ⟨segi, hsegi, hr⟩ := mem_writtenAt.1 hr
    refine hmin i hi ⟨by omega, segi, hsegi, b, ⟨r, hr, hb⟩, fun seg' hseg' hb' => ?_⟩
    exact h.apart seg' hseg' b hb' hspan
  have hmem : seg ∈ image.segments is64bit := mem_segmentsTo.2 ⟨k, hk, hseg⟩
  -- it is outside of its own memory, so it is file data
  obtain ⟨hpos, hx⟩ := (h.covers_iff hmem a).1 hcov
  have hcopied : a ∈ seg.copied w := by
    rcases hx with hx | hx
    · exact (h.mem_copied hmem a).2 hx
    · exact absurd hx (hout seg hmem)
  obtain ⟨s', hs', hrun⟩ := Follows.run hapart.stays (Nat.le_of_lt hk) (count_subset h.accepted)
    (fun j hj => h.fields j (by omega)) k (2 ^ 32 - k) follows_start (Nat.zero_add k)
  have hlt := image.ncmds_lt
  obtain ⟨rounds, hrounds⟩ : ∃ rounds, 2 ^ 32 - k = rounds + 1 := ⟨2 ^ 32 - k - 1, by omega⟩
  rw [Nat.sub_add_cancel (by omega), hrounds, loadCommands,
    hs'.ncmds_eq hapart.stays le_rfl (count_subset h.accepted)]
    at hrun
  have hsame : segmentAt is64bit s'.mem s'.cmd = some seg := by
    have hagree : Memory.AgreeOn image.span image.mem s'.mem := by
      rw [hs'.mem]
      exact (hapart.agree le_rfl).symm
    rcases (fieldReads_agree hagree (h.fields k hk)).2 with heq | ⟨hidle, -⟩
    · rw [hs'.cmd, ← heq, hseg]
    · exact absurd hpos (hidle seg hseg)
  have hwrite : seg.copied w ∈ (machoLoad image.base image.size image.mem).2.writes := by
    rw [(machoLoad_accepted h.accepted).1, hrun]
    simp only [if_pos hk]
    exact loadCommands_writes_mono _ _ _ _ _ (copied_mem_round_writes hsame hpos)
  obtain ⟨seg', hseg', ha'⟩ := hc.writes _ hwrite a hcopied
  exact hout seg' hseg' ha'

/-! ## The theorem -/

/-- An address that only one segment covers. -/
theorem lastByte_eq {segs : List Segment} {seg : Segment} {a : BitVec w} (hseg : seg ∈ segs)
    (honly : ∀ seg' ∈ segs, seg'.Covers a → seg' = seg) :
    image.lastByte segs a = if seg.Covers a then seg.byte image.base image.mem a else image.mem a := by
  -- in any accumulator: a segment that covers `a` is `seg`
  have hfold : ∀ (segs : List Segment) (b : BitVec 8), (∀ seg' ∈ segs, seg'.Covers a → seg' = seg) →
      segs.foldl (fun b seg => if seg.Covers a then seg.byte image.base image.mem a else b) b =
        if seg ∈ segs ∧ seg.Covers a then seg.byte image.base image.mem a else b := by
    intro segs
    induction segs with
    | nil => simp
    | cons seg' segs ih =>
      intro b honly
      rw [List.foldl_cons, ih _ fun s hs => honly s (List.mem_cons_of_mem _ hs)]
      by_cases hcov : seg'.Covers a
      · obtain rfl := honly seg' (List.mem_cons_self ..) hcov
        simp [hcov]
      · have hne : seg.Covers a → seg ≠ seg' := fun hc heq => hcov (heq ▸ hc)
        by_cases hc : seg.Covers a
        · simp [hc, hcov, hne hc]
        · simp [hc, hcov]
  rw [lastByte, hfold segs _ honly]
  simp [hseg]

theorem Loadable.contents_iff_last (h : image.Loadable is64bit) :
    image.Contents is64bit ↔ image.InRanges is64bit ∧ image.LastRight is64bit := by
  have hfinal : image.InRanges is64bit → ∀ a, (machoLoad image.base image.size image.mem).2.mem a =
      image.lastByte (image.segments is64bit) a := by
    intro hin a
    have hapart := h.apart_of_inRanges hin
    rw [(h.follows_end hapart).mem, h.loaded_eq le_rfl hapart, segments]
  constructor
  · intro hc
    have hin := h.inRanges_of_contents hc
    refine ⟨hin, ?_⟩
    intro seg hseg a ha
    rw [← hfinal hin]
    exact hc.bytes seg hseg a ha
  · rintro ⟨hin, hlast⟩
    constructor
    · intro seg hseg a ha
      rw [hfinal hin]
      exact hlast seg hseg a ha
    · intro r hr a ha
      obtain ⟨j, hj, hr⟩ := ((h.follows_end (h.apart_of_inRanges hin)).writes r).1 hr
      obtain ⟨seg, hseg, hr⟩ := mem_writtenAt.1 hr
      exact hin seg (mem_segmentsTo.2 ⟨j, hj, hseg⟩) a ⟨r, hr, ha⟩

/-- Without an overrun, a segment covers its own memory, if it has file data. -/
theorem Loadable.covers_iff_range (h : image.Loadable is64bit) (hno : image.NoOverrun is64bit) {seg : Segment}
    (hseg : seg ∈ image.segments is64bit) (a : BitVec w) : seg.Covers a ↔ 0 < seg.filesize ∧ a ∈ seg.range w := by
  have hle : seg.filesize.toNat ≤ seg.vmsize.toNat := hno seg hseg
  have hrange : a ∈ seg.range w ↔ (a - seg.vmaddr.setWidth w).toNat < seg.vmsize.toNat := Iff.rfl
  rw [h.covers_iff hseg, hrange]
  refine and_congr_right fun _ => ?_
  omega

theorem Loadable.contents_iff_zero (h : image.Loadable is64bit) (hno : image.NoOverrun is64bit) :
    image.Contents is64bit ↔ image.ZeroDone is64bit := by
  have hin : image.InRanges is64bit := fun seg hseg a hcov =>
    ⟨seg, hseg, ((h.covers_iff_range hno hseg a).1 hcov).2⟩
  have hunique : ∀ seg ∈ image.segments is64bit, ∀ a ∈ seg.range w, ∀ seg' ∈ image.segments is64bit,
      seg'.Covers a → seg' = seg := by
    intro seg hseg a ha seg' hseg' hcov
    by_contra hne
    have : Std.Symm fun seg seg' : Segment => (seg.range w).Disjoint (seg'.range w) :=
      ⟨fun _ _ h => h.symm⟩
    exact h.disjoint.forall hseg' hseg hne a ((h.covers_iff_range hno hseg' a).1 hcov).2 ha
  rw [h.contents_iff_last, and_iff_right hin]
  constructor
  · intro hlast seg hseg hzero a ha
    have hcov : ¬ seg.Covers a := by
      rw [h.covers_iff_range hno hseg, hzero]
      rintro ⟨hpos, -⟩
      exact absurd hpos (by decide)
    have hbyte := hlast seg hseg a ha
    rw [lastByte_eq hseg (hunique seg hseg a ha), if_neg hcov, Segment.byte, hzero] at hbyte
    exact hbyte
  · intro hzero seg hseg a ha
    rw [lastByte_eq hseg (hunique seg hseg a ha)]
    by_cases hpos : 0 < seg.filesize
    · rw [if_pos ((h.covers_iff_range hno hseg a).2 ⟨hpos, ha⟩)]
    · have hfs : seg.filesize = 0 := by
        have : ¬ 0 < seg.filesize.toNat := hpos
        exact BitVec.eq_of_toNat_eq (by simpa using this)
      rw [if_neg fun hcov => hpos ((h.covers_iff_range hno hseg a).1 hcov).1, Segment.byte, hfs]
      exact hzero seg hseg hfs a ha

/-- **Contents of the memory**: the segments of a well-formed image that are apart from
    each other and from the image are in memory behind `macho_load`, and nothing else was
    written, exactly if no segment is copied to where none has its memory, and the last
    segment copied to a byte puts there what belongs there.  Where no segment has more
    file data than memory, this is that segments without file data find zeros. -/
theorem contents_iff (h : image.Loadable is64bit) :
    (image.Contents is64bit ↔ image.InRanges is64bit ∧ image.LastRight is64bit) ∧
      (image.NoOverrun is64bit → (image.Contents is64bit ↔ image.ZeroDone is64bit)) :=
  ⟨h.contents_iff_last, h.contents_iff_zero⟩

end Image

/-- An image of 64 bits with one segment, whose memory starts right behind the image and
    holds something already. -/
def oneSegment (vmsize filesize : BitVec 8) : Image 32 where
  base := 0
  size := 104
  mem := bytesAt0 <|
    [0xcf, 0xfa, 0xed, 0xfe] ++ .replicate 12 0 ++ [1] ++ .replicate 15 0 ++
      [0x19, 0, 0, 0, 0x48, 0, 0, 0] ++ .replicate 16 0 ++ [104] ++ .replicate 7 0 ++ [vmsize] ++ .replicate 7 0 ++
      .replicate 8 0 ++ [filesize] ++ .replicate 7 0 ++ .replicate 16 0 ++ [0xaa, 0xaa]

/-- An image with one command, which is that of a segment. -/
theorem Image.loadable_of_one {image : Image w} {is64bit : Bool} {seg : Segment}
    (hacc : image.accepted = some is64bit) (hone : image.ncmds = 1)
    (hseg : segmentAt is64bit image.mem (image.command is64bit 0) = some seg)
    (hsize : image.offset is64bit 0 + 8 ≤ image.size.toNat ∧ image.offset is64bit 1 ≤ image.size.toNat)
    (hfile : seg.filesize = 0 ∨ seg.fileoff.toNat + seg.filesize.toNat ≤ image.size.toNat)
    (hfields : ∀ r ∈ fieldReads is64bit image.mem (image.command is64bit 0),
      (r.start - image.span.start).toNat + r.length ≤ image.span.length)
    (hstart : (seg.range w).start ∉ image.span ∧ image.span.start ∉ seg.range w) : image.Loadable is64bit := by
  have hlist : image.segments is64bit = [seg] := by
    rw [Image.segments, hone, Image.segmentsTo_succ, hseg]
    rfl
  have hzero : ∀ i < image.ncmds, i = 0 := fun i hi => by omega
  refine ⟨hacc, ?_, ?_, ?_, ?_⟩
  · intro i hi
    obtain rfl := hzero i hi
    refine ⟨hsize.1, hsize.2, ?_⟩
    intro seg' hseg'
    rw [hseg] at hseg'
    cases hseg'
    exact hfile
  · intro i hi r hr
    obtain rfl := hzero i hi
    exact Span.subset_of_le (hfields r hr)
  · rw [hlist]
    exact List.pairwise_singleton _ _
  · rw [hlist]
    intro seg' hseg'
    rw [List.mem_singleton.1 hseg']
    exact Span.disjoint_of_start hstart.1 hstart.2

/-- A segment with one byte of file data and one more of memory. -/
theorem contents_oneSegment : (oneSegment 2 1).Loadable true ∧ (oneSegment 2 1).Contents true := by
  have hseg : segmentAt true (oneSegment 2 1).mem ((oneSegment 2 1).command true 0) =
      some ⟨104, 2, 0, 1⟩ := by
    decide +kernel
  have h : (oneSegment 2 1).Loadable true :=
    Image.loadable_of_one (by decide +kernel) (by decide +kernel) hseg (by decide +kernel)
      (by decide +kernel)
      (by decide +kernel) (by decide +kernel)
  have hlist : (oneSegment 2 1).segments true = [⟨104, 2, 0, 1⟩] := by decide +kernel
  refine ⟨h, ((Image.contents_iff h).2 fun seg hseg => ?_).2 fun seg hseg hzero => ?_⟩
  · rw [hlist] at hseg
    rw [List.mem_singleton.1 hseg]
    decide
  · rw [hlist] at hseg
    rw [List.mem_singleton.1 hseg] at hzero
    exact absurd hzero (by decide)

/-- A segment without file data keeps what was in its memory. -/
theorem contents_zero_fill : (oneSegment 1 0).Loadable true ∧ ¬ (oneSegment 1 0).Contents true := by
  have hseg : segmentAt true (oneSegment 1 0).mem ((oneSegment 1 0).command true 0) =
      some ⟨104, 1, 0, 0⟩ := by
    decide +kernel
  have hlist : (oneSegment 1 0).segments true = [⟨104, 1, 0, 0⟩] := by decide +kernel
  refine ⟨Image.loadable_of_one (by decide +kernel) (by decide +kernel) hseg (by decide +kernel)
    (by decide +kernel)
    (by decide +kernel) (by decide +kernel), fun h => ?_⟩
  have hbyte := h.bytes ⟨104, 1, 0, 0⟩ (by rw [hlist]; exact List.mem_singleton.2 rfl) 104 (by decide)
  revert hbyte
  decide +kernel

end PocketDarwin.Kickstart
