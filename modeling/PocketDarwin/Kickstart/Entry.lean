/-
  The entry point that the Mach-O loader returns.

  `LC_MAIN` names an offset in the file, and the loader adds it to the address of the
  image, not to where the segment with that part of the file was loaded.  `LC_UNIXTHREAD`
  is recognized and nothing is done for it.

  * `entry_of_main`, `entry_of_none`: what is returned.
  * `entryRight_iff`: this is the entry point only of an image whose segment is loaded
    where it is already.
-/
import PocketDarwin.Kickstart.Agree

namespace PocketDarwin.Kickstart

variable {w : ℕ}

namespace Image
variable (image : Image w) (is64bit : Bool)

/-! ## Entry points -/

def commandType (i : ℕ) : BitVec 32 := image.mem.load32 (image.command is64bit i)

/-- `ep->entry_off` -/
def entryOff (i : ℕ) : BitVec 32 := image.mem.load32 (image.command is64bit i + 8)

/-- A command that gives the entry point. -/
def IsEntry (i : ℕ) : Prop :=
  image.commandType is64bit i = lcMain ∨ image.commandType is64bit i = lcUnixthread

/-- A well-formed image with one entry point: it does not wrap around, its commands and the file
    ranges of its segments are in it, and loading the segments leaves it as it is. -/
structure WellFormed : Prop where
  noWrap : image.base.toNat + image.size.toNat ≤ 2 ^ w
  accepted : image.accepted = some is64bit
  fits : image.CommandsFit is64bit
  fields : image.FieldsInside is64bit
  stays : image.StaysTo is64bit image.ncmds
  one : ∃ i < image.ncmds, image.IsEntry is64bit i ∧
    ∀ j < image.ncmds, image.IsEntry is64bit j → j = i

/-- The entry point that is returned. -/
def entryPoint : ℕ := (machoLoad image.base image.size image.mem).1.entryPoint.toNat

/-- An offset is in the file range of a segment. -/
def InFile (seg : Segment) (off : ℕ) : Prop :=
  seg.fileoff.toNat ≤ off ∧ off < seg.fileoff.toNat + seg.filesize.toNat

/-- An address is in the memory of a segment. -/
def InMemory (seg : Segment) (a : ℕ) : Prop :=
  seg.vmaddr.toNat ≤ a ∧ a < seg.vmaddr.toNat + seg.vmsize.toNat

instance (seg : Segment) (off : ℕ) : Decidable (InFile seg off) :=
  inferInstanceAs (Decidable (_ ∧ _))

instance (seg : Segment) (a : ℕ) : Decidable (InMemory seg a) := inferInstanceAs (Decidable (_ ∧ _))

/-- The entry point is in a segment, and where its command says; `pc` are the program counters of
    the thread states. -/
structure EntryRight (pc : ℕ → BitVec 64) : Prop where
  nonzero : image.entryPoint ≠ 0
  inside : ∃ seg ∈ image.segments is64bit, InMemory seg image.entryPoint
  main : ∀ i < image.ncmds, image.commandType is64bit i = lcMain →
    ∃ seg ∈ image.segments is64bit, InFile seg (image.entryOff is64bit i).toNat ∧
      InMemory seg image.entryPoint ∧
      image.entryPoint + seg.fileoff.toNat = seg.vmaddr.toNat + (image.entryOff is64bit i).toNat
  unixthread : ∀ i < image.ncmds, image.commandType is64bit i = lcUnixthread →
    image.entryPoint = (pc i).toNat

/-- The entry point is that of an `LC_MAIN`, and the segment with its offset is loaded where it is
    in the image. -/
def EntryInPlace : Prop :=
  ∃ i < image.ncmds, image.commandType is64bit i = lcMain ∧
    (image.base.toNat ≠ 0 ∨ (image.entryOff is64bit i).toNat ≠ 0) ∧
    ∃ seg ∈ image.segments is64bit, InFile seg (image.entryOff is64bit i).toNat ∧
      (image.entryOff is64bit i).toNat < seg.fileoff.toNat + seg.vmsize.toNat ∧
      seg.vmaddr.toNat = image.base.toNat + seg.fileoff.toNat

variable {image is64bit}

/-! ## What is returned -/

theorem entry_of_none {n : ℕ} (h : ∀ j < n, image.commandType is64bit j ≠ lcMain) :
    image.entry is64bit n = 0 := by
  induction n with
  | zero => rfl
  | succ n ih =>
    rw [entry, entryAt]
    exact (if_neg (h n n.lt_succ_self)).trans (ih fun j hj => h j (Nat.lt_succ_of_lt hj))

theorem entry_of_main {n i : ℕ} (hi : i < n) (hmain : image.commandType is64bit i = lcMain)
    (hone : ∀ j < n, image.commandType is64bit j = lcMain → j = i) :
    image.entry is64bit n = (image.base + (image.entryOff is64bit i).setWidth w).setWidth 64 := by
  induction n with
  | zero => exact absurd hi (Nat.not_lt_zero i)
  | succ n ih =>
    rw [entry, entryAt]
    by_cases hn : image.commandType is64bit n = lcMain
    · obtain rfl := hone n n.lt_succ_self hn
      exact if_pos hmain
    · have hlt : i < n := lt_of_le_of_ne (Nat.le_of_lt_succ hi) fun h => hn (h ▸ hmain)
      exact (if_neg hn).trans (ih hlt fun j hj => hone j (Nat.lt_succ_of_lt hj))

namespace WellFormed
variable (h : image.WellFormed is64bit)
include h

theorem entryPoint_eq : image.entryPoint = (image.entry is64bit image.ncmds).toNat := by
  rw [entryPoint, (results_of_stays h.accepted h.fields h.stays).2.2]

/-- Without an `LC_MAIN` it is 0. -/
theorem entryPoint_of_none (hnone : ∀ j < image.ncmds, image.commandType is64bit j ≠ lcMain) :
    image.entryPoint = 0 := by
  rw [h.entryPoint_eq, entry_of_none hnone]
  rfl

theorem eq_of_main {i j : ℕ} (hi : i < image.ncmds) (hj : j < image.ncmds)
    (hmain : image.commandType is64bit i = lcMain) (hmain' : image.commandType is64bit j = lcMain) :
    j = i := by
  obtain ⟨k, -, -, hk⟩ := h.one
  exact (hk j hj (.inl hmain')).trans (hk i hi (.inl hmain)).symm

/-- With an `LC_MAIN` it is the offset in the image, if the file range of a segment has it. -/
theorem entryPoint_of_main (hw : w ≤ 64) {i : ℕ} (hi : i < image.ncmds)
    (hmain : image.commandType is64bit i = lcMain) {seg : Segment}
    (hseg : seg ∈ image.segments is64bit)
    (hfile : InFile seg (image.entryOff is64bit i).toNat) :
    image.entryPoint = image.base.toNat + (image.entryOff is64bit i).toNat := by
  obtain ⟨j, hj, hsegj⟩ := mem_segmentsTo.1 hseg
  have hfits := (h.fits j hj).file seg hsegj
  have hlt : (image.entryOff is64bit i).toNat < image.size.toNat := by
    rcases hfits with hzero | hle
    · rw [InFile, hzero] at hfile
      exact absurd hfile.2 (not_lt.2 hfile.1)
    · exact lt_of_lt_of_le hfile.2 hle
  have hno := h.noWrap
  have hpow : 2 ^ w ≤ 2 ^ 64 := Nat.pow_le_pow_right (by decide) hw
  rw [h.entryPoint_eq, entry_of_main hi hmain fun j hj hj' => h.eq_of_main hi hj hmain hj',
    BitVec.toNat_setWidth, BitVec.toNat_add, BitVec.toNat_setWidth,
    Nat.mod_eq_of_lt (by omega : (image.entryOff is64bit i).toNat < 2 ^ w),
    Nat.mod_eq_of_lt (by omega : image.base.toNat + (image.entryOff is64bit i).toNat < 2 ^ w),
    Nat.mod_eq_of_lt (by omega)]

/-- **The entry point** is right exactly if it is that of an `LC_MAIN` whose segment is loaded in
    place. -/
theorem entryRight_iff (hw : w ≤ 64) (pc : ℕ → BitVec 64) :
    image.EntryRight is64bit pc ↔ image.EntryInPlace is64bit := by
  constructor
  · intro hright
    by_cases hnone : ∀ j < image.ncmds, image.commandType is64bit j ≠ lcMain
    · exact absurd (h.entryPoint_of_none hnone) hright.nonzero
    · push Not at hnone
      obtain ⟨i, hi, hmain⟩ := hnone
      obtain ⟨seg, hseg, hfile, hmem, hplace⟩ := hright.main i hi hmain
      have heq := h.entryPoint_of_main hw hi hmain hseg hfile
      have hne := hright.nonzero
      rw [heq] at hplace hmem hne
      rw [InMemory] at hmem
      exact ⟨i, hi, hmain, by omega, seg, hseg, hfile, by omega, by omega⟩
  · rintro ⟨i, hi, hmain, hne, seg, hseg, hfile, hsize, hplace⟩
    have heq := h.entryPoint_of_main hw hi hmain hseg hfile
    have hmem : InMemory seg image.entryPoint := by
      rw [InMemory, heq]
      rw [InFile] at hfile
      omega
    refine ⟨by omega, ⟨seg, hseg, hmem⟩, fun j hj hj' => ?_, fun j hj hj' => ?_⟩
    · obtain rfl := h.eq_of_main hi hj hmain hj'
      exact ⟨seg, hseg, hfile, hmem, by omega⟩
    · -- there is one entry command only
      obtain ⟨k, -, -, hk⟩ := h.one
      obtain rfl := (hk j hj (.inr hj')).trans (hk i hi (.inl hmain)).symm
      rw [hmain] at hj'
      exact absurd hj' (by decide)

end WellFormed

/-! ## Images that are loaded in place -/

/-- A segment that is where it goes already, with no memory behind its file data. -/
def InPlace (seg : Segment) : Prop :=
  seg.vmaddr.setWidth w = image.base + seg.fileoff.setWidth w ∧ seg.vmsize ≤ seg.filesize

theorem InPlace.memcpy_eq {seg : Segment} (h : image.InPlace seg) (mem : Memory w) :
    memcpy (seg.copied w).start (seg.payload image.base).start (seg.filesize.setWidth w) mem =
      mem := by
  have hstart : (seg.copied w).start = (seg.payload image.base).start := h.1
  rw [hstart]
  exact Memory.copy_self _ _ mem

theorem InPlace.load_eq {seg : Segment} (h : image.InPlace seg) (mem : Memory w) :
    seg.load image.base mem = mem := by
  unfold Segment.load
  by_cases hpos : 0 < seg.filesize
  · rw [if_pos hpos, h.memcpy_eq]
    exact if_neg (BitVec.not_lt.2 h.2)
  · exact if_neg hpos

/-- An image of such segments is not changed. -/
theorem stays_of_inPlace {n : ℕ}
    (h : ∀ i < n, ∀ seg, segmentAt is64bit image.mem (image.command is64bit i) = some seg →
      image.InPlace seg) :
    image.StaysTo is64bit n := by
  have hloaded : ∀ i ≤ n, image.loaded is64bit i = image.mem := by
    intro i
    induction i with
    | zero => intro _; rfl
    | succ i ih =>
      intro hi
      rw [loaded, ih (Nat.le_of_succ_le hi), loadAt]
      cases hseg : segmentAt is64bit image.mem (image.command is64bit i) with
      | none => rfl
      | some seg => exact (h i hi seg hseg).load_eq image.mem
  intro i hi seg hseg _
  rw [hloaded i hi.le, hloaded (i + 1) hi, (h i hi seg hseg).memcpy_eq]
  exact ⟨fun _ _ => rfl, fun _ _ => rfl⟩

end Image

/-- An image of 64 bits with one segment, which is all of it and goes to the given page, and an
    `LC_MAIN` with an offset behind the commands. -/
def mainImage (page : BitVec 8) : Image 32 where
  base := 0
  size := 121
  mem := bytesAt0 <|
    [0xcf, 0xfa, 0xed, 0xfe] ++ .replicate 12 0 ++ [2] ++ .replicate 15 0 ++
      [0x19, 0, 0, 0, 0x48, 0, 0, 0] ++ .replicate 16 0 ++ [0, page] ++ .replicate 6 0 ++ [121]
        ++ .replicate 7 0 ++
      .replicate 8 0 ++ [121] ++ .replicate 7 0 ++ .replicate 16 0 ++
      [0x28, 0, 0, 0, 0x10, 0, 0, 0, 120, 0, 0, 0, 0, 0, 0, 0, 0xc3]

def mainSegment (page : BitVec 8) : Segment := ⟨256 * page.setWidth 64, 121, 0, 121⟩

/-- What it has, for the two pages that are used below. -/
theorem mainImage_commands {page : BitVec 8} (hpage : page = 0 ∨ page = 2) :
    ((mainImage page).accepted = some true ∧ (mainImage page).ncmds = 2) ∧
      ((mainImage page).offset true 1 = 104 ∧ (mainImage page).offset true 2 = 120) ∧
      (segmentAt true (mainImage page).mem ((mainImage page).command true 0) =
        some (mainSegment page) ∧
        segmentAt true (mainImage page).mem ((mainImage page).command true 1) = none) ∧
      (mainImage page).commandType true 0 = lcSegment64 ∧ (mainImage page).commandType true 1 =
        lcMain ∧
      (mainImage page).entryOff true 1 = 120 := by
  rcases hpage with rfl | rfl <;> decide +kernel

theorem mainImage_segments {page : BitVec 8} (hpage : page = 0 ∨ page = 2) :
    (mainImage page).segments true = [mainSegment page] := by
  obtain ⟨⟨-, hcount⟩, -, ⟨hseg, hnone⟩, -⟩ := mainImage_commands hpage
  rw [Image.segments, hcount, Image.segmentsTo_succ, Image.segmentsTo_succ, hseg, hnone]
  rfl

theorem mainImage_wellFormed {page : BitVec 8} (hpage : page = 0 ∨ page = 2)
    (hstays : (mainImage page).StaysTo true 2) : (mainImage page).WellFormed true := by
  obtain ⟨⟨hacc, hcount⟩, ⟨hfirst, hsecond⟩, ⟨hseg, hnone⟩, hsegment, hmain, -⟩ :=
    mainImage_commands hpage
  have hsize : (mainImage page).size.toNat = 121 := rfl
  have hfields : ∀ i < 2, ∀ r ∈ fieldReads true (mainImage page).mem
      ((mainImage page).command true i),
      (r.start - (mainImage page).span.start).toNat + r.length ≤ (mainImage page).span.length := by
    rcases hpage with rfl | rfl <;> decide +kernel
  refine ⟨?_, hacc, ?_, ?_, hcount ▸ hstays, 1, by omega, .inl hmain, ?_⟩
  · show 0 + 121 ≤ 2 ^ 32
    omega
  · rintro (_ | _ | i) hi
    · refine ⟨by rw [hsize]; exact (by decide : 32 + 8 ≤ 121), hfirst.le.trans (by omega),
        fun seg h => ?_⟩
      obtain rfl := Option.some.inj (hseg.symm.trans h)
      exact .inr (Nat.le_refl 121)
    · refine ⟨(Nat.add_le_add_right hfirst.le 8).trans (by omega), hsecond.le.trans (by omega),
        fun seg h => ?_⟩
      rw [hnone] at h
      cases h
    · omega
  · exact fun i hi r hr => Span.subset_of_le (hfields i (hcount ▸ hi) r hr)
  · rintro (_ | _ | j) hj hentry
    · rw [Image.IsEntry, hsegment] at hentry
      exact absurd hentry (by decide)
    · rfl
    · omega

/-- The image that is loaded in place is entered at the offset of its `LC_MAIN`. -/
theorem entryRight_inPlace :
    (mainImage 0).WellFormed true ∧ (mainImage 0).EntryRight true fun _ => 0 := by
  have hpage : (0 : BitVec 8) = 0 ∨ (0 : BitVec 8) = 2 := .inl rfl
  obtain ⟨⟨-, hcount⟩, -, ⟨hseg, hnone⟩, -, hmain, hoff⟩ := mainImage_commands hpage
  have hwell : (mainImage 0).WellFormed true := by
    refine mainImage_wellFormed hpage (Image.stays_of_inPlace ?_)
    rintro (_ | _ | i) hi seg h
    · obtain rfl := Option.some.inj (hseg.symm.trans h)
      exact ⟨by decide, by decide⟩
    · rw [hnone] at h
      cases h
    · omega
  refine ⟨hwell, (hwell.entryRight_iff (by decide) _).2
    ⟨1, by omega, hmain, .inr (by rw [hoff]; decide), ?_⟩⟩
  refine ⟨mainSegment 0, by rw [mainImage_segments hpage]; exact List.mem_singleton_self _, ?_⟩
  rw [hoff]
  exact ⟨by decide, by decide, by decide⟩

/-- One that is loaded elsewhere is entered outside its segment. -/
theorem entry_outside_segment :
    (mainImage 2).WellFormed true ∧
    (machoLoad (mainImage 2).base (mainImage 2).size (mainImage 2).mem).1.isValid ∧
      ¬ (mainImage 2).EntryRight true fun _ => 0 := by
  have hpage : (2 : BitVec 8) = 0 ∨ (2 : BitVec 8) = 2 := .inr rfl
  obtain ⟨⟨hacc, hcount⟩, -, ⟨hseg, hnone⟩, hsegment, hmain, hoff⟩ := mainImage_commands hpage
  have happart : (mainImage 2).ApartTo true 2 := by
    unfold Image.ApartTo
    decide +kernel
  have hwell := mainImage_wellFormed hpage happart.stays
  refine ⟨hwell, (Image.machoLoad_accepted hacc).2, fun hright => ?_⟩
  have hentry : (mainImage 2).entryPoint = 120 :=
    (hwell.entryPoint_of_main (by decide) (by omega) hmain
      (by rw [mainImage_segments hpage]; exact List.mem_singleton_self _)
        (by rw [hoff]; decide)).trans (by rw [hoff]; rfl)
  obtain ⟨seg, hmem, hin⟩ := hright.inside
  rw [mainImage_segments hpage] at hmem
  rw [List.mem_singleton.1 hmem, hentry] at hin
  revert hin
  decide

end PocketDarwin.Kickstart
