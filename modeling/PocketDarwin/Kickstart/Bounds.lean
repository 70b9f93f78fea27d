/-
  What the Mach-O loader reads of an image, against the size it is given.

  Only the header is checked.  The loader therefore stays inside of an accepted image
  exactly when every number in it is right: the commands, their fields and the file
  ranges of the segments.
-/
import PocketDarwin.Kickstart.Walk

namespace PocketDarwin.Kickstart

variable {w : ℕ}

namespace Image
variable (image : Image w) (is64bit : Bool)

/-! ## Images that fit -/

/-- The header of a command, its `cmdsize` bytes and the file range of its segment lie in
    the image; the range of a segment without file data is empty. -/
structure CommandFits (i : ℕ) : Prop where
  header : image.offset is64bit i + 8 ≤ image.size.toNat
  command : image.offset is64bit (i + 1) ≤ image.size.toNat
  file : ∀ seg, segmentAt is64bit image.mem (image.command is64bit i) = some seg →
    seg.filesize = 0 ∨ seg.fileoff.toNat + seg.filesize.toNat ≤ image.size.toNat

/-- All commands fit. -/
def CommandsFit : Prop := ∀ i < image.ncmds, image.CommandFits is64bit i

/-- The header is one, and all commands fit. -/
def Fits : Prop := ∃ is64bit, image.accepted = some is64bit ∧ image.CommandsFit is64bit

/-- What `macho_load` reads of an image that it accepts lies in the image, and it rejects
    every image that does not fit. -/
structure StaysInside : Prop where
  reads : (machoLoad image.base image.size image.mem).1.isValid →
    ∀ r ∈ (machoLoad image.base image.size image.mem).2.reads, r ⊆ image.span
  rejects : ¬ image.Fits → (machoLoad image.base image.size image.mem).1.isValid = false

/-- The fields that are read of each command lie in the image. -/
def FieldsInside : Prop :=
  ∀ i < image.ncmds, ∀ r ∈ fieldReads is64bit image.mem (image.command is64bit i), r ⊆ image.span

/-- The same, and the payloads, for each command as it stands when the loop reaches it. -/
def WalkInside : ℕ → ℕ → Loader w → Prop
  | 0, _, _ => True
  | rounds + 1, i, s =>
    i < (s.mem.load32 (image.base + 16)).toNat →
      (∀ r ∈ commandReads image.base is64bit s.mem s.cmd, r ⊆ image.span) ∧
        WalkInside rounds (i + 1) (round image.base is64bit s)

/-- The variables in front of the loop. -/
def start : Loader w where
  mem := image.mem
  cmd := image.base + if is64bit then 32 else 28
  minVaddr := BitVec.allOnes 64
  entryPoint := 0
  reads := [⟨image.base + 4, 4⟩, ⟨image.base, 4⟩]
  writes := []

variable {image is64bit}

/-! ## The header -/

theorem accepted_size (h : image.accepted = some is64bit) : 32 ≤ image.size.toNat := by
  unfold accepted at h
  split_ifs at h with hsize
  omega

theorem machoLoad_accepted (h : image.accepted = some is64bit) :
    (machoLoad image.base image.size image.mem).2 =
        loadCommands image.base is64bit (2 ^ 32) 0 (image.start is64bit) ∧
      (machoLoad image.base image.size image.mem).1.isValid = true := by
  unfold accepted at h
  split_ifs at h with hsize
  constructor
  · simp only [machoLoad, if_neg hsize, h]
    rfl
  · simp only [machoLoad, if_neg hsize, h]

theorem machoLoad_rejected (h : image.accepted = none) :
    (machoLoad image.base image.size image.mem).1.isValid = false := by
  unfold accepted at h
  split_ifs at h with hsize
  · simp only [machoLoad, if_pos hsize]
  · simp only [machoLoad, if_neg hsize, h]

/-- The header of an accepted image lies in it. -/
theorem header_subset (h : image.accepted = some is64bit) {k n : ℕ} (hk : k + n ≤ 32) :
    (⟨image.base + BitVec.ofNat w k, n⟩ : Span w) ⊆ image.span := by
  apply Span.subset_of_le
  have hsize := accepted_size h
  have hmod : (BitVec.ofNat w k).toNat ≤ k := by
    rw [BitVec.toNat_ofNat]
    exact Nat.mod_le _ _
  simp only [span, add_sub_cancel_left]
  omega

theorem start_reads (h : image.accepted = some is64bit) : ∀ r ∈ (image.start is64bit).reads, r ⊆ image.span := by
  have h₀ : (⟨image.base, 4⟩ : Span w) ⊆ image.span := by
    simpa using header_subset h (k := 0) (n := 4) (by omega)
  have h₄ : (⟨image.base + 4, 4⟩ : Span w) ⊆ image.span := header_subset h (k := 4) (n := 4) (by omega)
  simp only [start, List.mem_cons, List.not_mem_nil, or_false]
  rintro r (rfl | rfl)
  · exact h₄
  · exact h₀

theorem count_subset (h : image.accepted = some is64bit) : (⟨image.base + 16, 4⟩ : Span w) ⊆ image.span :=
  header_subset h (k := 16) (n := 4) (by omega)

theorem follows_start : image.Follows is64bit 0 (image.start is64bit) := by
  refine ⟨?_, rfl, ?_⟩
  · cases is64bit <;> rfl
  · intro r
    simp [start]

/-! ## The reads of the loop -/

variable (is64bit) in
/-- The loop stays inside if every command that it reaches does. -/
theorem reads_inside_iff (hcount : (⟨image.base + 16, 4⟩ : Span w) ⊆ image.span) (rounds i : ℕ) (s : Loader w) :
    (∀ r ∈ (loadCommands image.base is64bit rounds i s).reads, r ⊆ image.span) ↔
      (∀ r ∈ s.reads, r ⊆ image.span) ∧ image.WalkInside is64bit rounds i s := by
  induction rounds generalizing i s with
  | zero => simp [loadCommands, WalkInside]
  | succ rounds ih =>
    simp only [loadCommands, WalkInside]
    by_cases hi : i < (s.mem.load32 (image.base + 16)).toNat
    · rw [if_pos hi]
      refine (ih (i + 1) (round image.base is64bit s)).trans ?_
      simp only [mem_round_reads]
      grind
    · rw [if_neg hi]
      simp only [List.mem_cons]
      grind

/-- On an image that is not overwritten, the commands reached are those of the image. -/
theorem walkInside_iff (hapart : image.Apart is64bit) (hcount : (⟨image.base + 16, 4⟩ : Span w) ⊆ image.span)
    {rounds i : ℕ} {s : Loader w} (h : image.Follows is64bit i s) (hi : i ≤ image.ncmds)
    (hrounds : image.ncmds < i + rounds) :
    image.WalkInside is64bit rounds i s ↔
      ∀ j, i ≤ j → j < image.ncmds →
        ∀ r ∈ commandReads image.base is64bit image.mem (image.command is64bit j), r ⊆ image.span := by
  induction rounds generalizing i s with
  | zero => exact absurd hrounds (by omega)
  | succ rounds ih =>
    rw [WalkInside, h.ncmds_eq (ApartTo.stays hapart) hi hcount]
    have hagree : Memory.AgreeOn image.span s.mem image.mem := by
      rw [h.mem]
      exact hapart.agree hi
    -- the command as it stands is that of the image if its fields are inside in either
    have hreads : (∀ r ∈ fieldReads is64bit s.mem s.cmd, r ⊆ image.span) ∨
        (∀ r ∈ fieldReads is64bit image.mem s.cmd, r ⊆ image.span) →
          fieldReads is64bit s.mem s.cmd = fieldReads is64bit image.mem s.cmd ∧
          commandReads image.base is64bit s.mem s.cmd = commandReads image.base is64bit image.mem
            s.cmd := by
      rintro (hin | hin)
      · obtain ⟨hf, hs⟩ := fieldReads_agree hagree hin
        exact ⟨hf, by rw [commandReads, commandReads, hf, (at_congr hs image.base).1]⟩
      · obtain ⟨hf, hs⟩ := fieldReads_agree hagree.symm hin
        exact ⟨hf.symm, by rw [commandReads, commandReads, hf, (at_congr hs image.base).1]⟩
    constructor
    · intro hwalk j hij hj
      obtain ⟨hcmd, hrest⟩ := hwalk (by omega)
      obtain ⟨hf, hc⟩ := hreads (.inl fun r hr => hcmd r (List.mem_append_left _ hr))
      rw [hc, h.cmd] at hcmd
      have hnext := h.round (ApartTo.stays hapart) (by omega) fun r hr => hcmd r (List.mem_append_left _ hr)
      rcases Nat.eq_or_lt_of_le hij with rfl | hlt
      · exact hcmd
      · exact (ih hnext (by omega) (by omega)).1 hrest j hlt hj
    · intro hstatic hlt
      have hcmd := hstatic i le_rfl hlt
      have hfields : ∀ r ∈ fieldReads is64bit image.mem (image.command is64bit i), r ⊆ image.span :=
        fun r hr => hcmd r (List.mem_append_left _ hr)
      have hnext := h.round (ApartTo.stays hapart) hlt hfields
      rw [← h.cmd] at hcmd hfields
      obtain ⟨-, hc⟩ := hreads (.inr hfields)
      rw [hc]
      exact ⟨hcmd, (ih hnext hlt (by omega)).2 fun j hij => hstatic j (by omega)⟩

/-! ## The theorem -/

theorem payload_subset {seg : Segment} (h : seg.fileoff.toNat + seg.filesize.toNat ≤ image.size.toNat) :
    seg.payload image.base ⊆ image.span := by
  apply Span.subset_of_le
  have hoff : (seg.fileoff.setWidth w).toNat ≤ seg.fileoff.toNat := by
    rw [BitVec.toNat_setWidth]
    exact Nat.mod_le _ _
  have hsize : (seg.filesize.setWidth w).toNat ≤ seg.filesize.toNat := by
    rw [BitVec.toNat_setWidth]
    exact Nat.mod_le _ _
  simp only [Segment.payload, span, add_sub_cancel_left]
  omega

theorem CommandFits.payloads {i : ℕ} (h : image.CommandFits is64bit i) :
    ∀ r ∈ payloadsAt image.base is64bit image.mem (image.command is64bit i), r ⊆ image.span := by
  rw [payloadsAt]
  cases hseg : segmentAt is64bit image.mem (image.command is64bit i) with
  | none => simp
  | some seg =>
    simp only [Option.map_some, Option.getD_some, Segment.payloads]
    split_ifs with hpos
    · rintro r hr
      rw [List.mem_singleton.1 hr]
      rcases h.file seg hseg with hzero | hle
      · rw [hzero] at hpos
        exact absurd hpos (by decide)
      · exact payload_subset hle
    · simp

theorem ncmds_lt (image : Image w) : image.ncmds < 2 ^ 32 := (image.mem.load32 (image.base + 16)).isLt

/-- An accepted image. -/
theorem staysInside_accepted (h : image.accepted = some is64bit) :
    image.StaysInside ↔
      image.CommandsFit is64bit ∧ image.WalkInside is64bit (2 ^ 32) 0 (image.start is64bit) := by
  obtain ⟨hloop, hvalid⟩ := machoLoad_accepted h
  have hreads := reads_inside_iff is64bit (count_subset h) (2 ^ 32) 0 (image.start is64bit)
  rw [← hloop, and_iff_right (start_reads h)] at hreads
  have hfits : image.Fits ↔ image.CommandsFit is64bit := by
    constructor
    · rintro ⟨b, hb, hfit⟩
      rw [h] at hb
      cases hb
      exact hfit
    · intro hfit
      exact ⟨is64bit, h, hfit⟩
  constructor
  · rintro ⟨hin, hrej⟩
    refine ⟨hfits.1 (by_contra fun hno => ?_), hreads.1 (hin hvalid)⟩
    rw [hrej hno] at hvalid
    cases hvalid
  · rintro ⟨hfit, hwalk⟩
    exact ⟨fun _ => hreads.2 hwalk, fun hno => absurd (hfits.2 hfit) hno⟩

theorem staysInside_rejected (h : image.accepted = none) : image.StaysInside := by
  have hvalid := machoLoad_rejected h
  constructor
  · intro h'
    rw [hvalid] at h'
    cases h'
  · intro _
    exact hvalid

/-- On an image that fits and is not overwritten, only the fields of the commands count. -/
theorem walkInside_start_iff (h : image.accepted = some is64bit) (hapart : image.Apart is64bit)
    (hfit : image.CommandsFit is64bit) :
    image.WalkInside is64bit (2 ^ 32) 0 (image.start is64bit) ↔ image.FieldsInside is64bit := by
  have hlt := image.ncmds_lt
  refine (walkInside_iff hapart (count_subset h) follows_start (by omega) (by omega)).trans ?_
  constructor
  · intro hin i hi r hr
    exact hin i (by omega) hi r (List.mem_append_left _ hr)
  · rintro hin i - hi r hr
    rcases List.mem_append.1 hr with hr | hr
    · exact hin i hi r hr
    · exact (hfit i hi).payloads r hr

/-- **Reads of the loader**: `macho_load` stays inside of the image and rejects what does
    not fit exactly if it rejects the header, or all commands fit and the loop reads
    nothing outside for any command as it stands when it is reached.  On an image that
    is not overwritten by its own segments, these are the commands of the image, and
    only their fields have to be looked at. -/
theorem stays_inside_iff (image : Image w) :
    (image.StaysInside ↔ ∀ is64bit, image.accepted = some is64bit →
        image.CommandsFit is64bit ∧ image.WalkInside is64bit (2 ^ 32) 0 (image.start is64bit)) ∧
      ((∀ is64bit, image.accepted = some is64bit → image.Apart is64bit) →
        (image.StaysInside ↔ ∀ is64bit, image.accepted = some is64bit →
          image.CommandsFit is64bit ∧ image.FieldsInside is64bit)) := by
  cases h : image.accepted with
  | none => simp [staysInside_rejected h]
  | some is64bit =>
    have hiff := staysInside_accepted h
    simp only [Option.some.injEq, forall_eq']
    refine ⟨hiff, fun hapart => hiff.trans ?_⟩
    exact and_congr_right fun hfit => walkInside_start_iff h hapart hfit

end Image

/-- A memory of 32-bit addresses with the bytes of an image at 0. -/
def bytesAt0 (bytes : List (BitVec 8)) : Memory 32 := fun a => bytes.getD a.toNat 0

/-- A header of 64 bits that announces a command, and nothing behind it. -/
def headerOnly : Image 32 where
  base := 0
  size := 32
  mem := bytesAt0 [0xcf, 0xfa, 0xed, 0xfe, 0, 0, 0, 0, 0, 0, 0, 0, 0, 0, 0, 0, 1]

/-- It is accepted, and its command is read behind its end. -/
theorem headerOnly_accepted :
    (machoLoad headerOnly.base headerOnly.size headerOnly.mem).1.isValid = true ∧ ¬ headerOnly.StaysInside := by
  have hvalid : (machoLoad headerOnly.base headerOnly.size headerOnly.mem).1.isValid = true := by
    decide +kernel
  refine ⟨hvalid, ?_⟩
  intro h
  have hfits : ¬ headerOnly.Fits := by
    rintro ⟨is64bit, hacc, hfit⟩
    have h64 : headerOnly.accepted = some true := by decide +kernel
    rw [h64] at hacc
    cases hacc
    exact absurd (hfit 0 (by decide +kernel)).header (by decide +kernel)
  rw [h.rejects hfits] at hvalid
  cases hvalid

end PocketDarwin.Kickstart
